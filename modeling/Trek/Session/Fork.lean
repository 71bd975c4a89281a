/-
# Forking a session file

`SessionManager.forkFrom` copies the entries of a session file as they stand under
a header of the current version, and opens the copy. The migrations look at the
version of the header, so the copy of an older file is never migrated: its entries
keep no ids, or the roles of version 2. The conversation survives exactly when
there was nothing to migrate (`forkFrom_keeps_iff`).
-/
import Trek.Session.Persist

namespace Trek

open World

/-- `SessionManager.forkFrom`, with what it draws for the new file and for opening it. -/
def World.forkFrom (disk : Disk) (d dOpen : Draws) (sourcePath targetCwd sessionDir : String) (id : Option String) :
    Except String World :=
  match loadEntriesFromFile disk sourcePath with
  | [] => .error ("Cannot fork: source session file is empty or invalid: " ++ sourcePath)
  | sourceEntries =>
    if id.all validSessionId then
      let newSessionId := id.getD d.sessionId
      let newSessionFile := sessionFilePath sessionDir d.now newSessionId
      match disk newSessionFile with
      | some _ => .error ("EEXIST: file already exists, open '" ++ newSessionFile ++ "'")
      | none =>
        let newHeader : SessionHeader :=
          ⟨some CURRENT_SESSION_VERSION, newSessionId, d.now, targetCwd, some sourcePath⟩
        let lines := jsonLines (.session newHeader :: (sessionEntries sourceEntries).map .entry)
        .ok (setSessionFile ⟨.blank targetCwd sessionDir true, Function.update disk newSessionFile (some lines)⟩ dOpen
          newSessionFile)
    else .error invalidSessionId

/-- The entries of a file with a given header are what its version says: without ids in
version 1, a tree from version 2 on. -/
structure WellFormedFile (h : SessionHeader) (es : List SessionEntry) : Prop where
  noIds : h.version.getD 1 < 2 → ∀ e ∈ es, e.id = "" ∧ e.parentId = none
  tree : 2 ≤ h.version.getD 1 → Grown es

/-- The role that version 3 renames. -/
def isHookMessage (e : SessionEntry) : Bool :=
  match e.body with
  | .message (.hookMessage _) => true
  | _ => false

/-- There is nothing to migrate: the file is of version 3, or of version 2 and the path to
its last entry has no `hookMessage`, or it has no entries. -/
def NothingToMigrate (h : SessionHeader) (es : List SessionEntry) : Prop :=
  3 ≤ h.version.getD 1 ∨ es = [] ∨
    2 ≤ h.version.getD 1 ∧ ∀ last, es.getLast? = some last → ∀ path, Lineage (parentEntry (indexById es)) last path →
      ∀ e ∈ path, isHookMessage e = false

/-- Two managers have the same conversation. -/
structure SameConversation (getTime : String → ℤ) (m m' : SessionManager) : Prop where
  context : m'.context getTime = m.context getTime
  branch : m'.getBranch none = m.getBranch none

/-! ### What a manager that was just opened shows -/

/-- The manager has the given entries and stands at the last of them. -/
structure Opened (m : SessionManager) (es : List SessionEntry) : Prop where
  entries : m.entries = es
  byId : m.byId = indexById es
  leafId : m.leafId = es.getLast?.map (·.id)

section

variable {m m' : SessionManager} {es : List SessionEntry} {last : SessionEntry} (getTime : String → ℤ)

theorem Opened.empty (h : Opened m []) : m.getBranch none = some [] ∧ m.context getTime = some .empty := by
  have hleaf : m.leafId = none := h.leafId
  refine ⟨?_, ?_⟩
  · simp [SessionManager.getBranch, hleaf]
  · simp [SessionManager.context, hleaf, buildSessionContext]

/-- Entries without ids: the branch is empty. -/
theorem Opened.getBranch_of_no_id (h : Opened m es) (hno : ∀ e ∈ es, e.id = "") : m.getBranch none = some [] := by
  cases hlast : es.getLast? with
  | none =>
    rw [List.getLast?_eq_none_iff] at hlast
    subst hlast
    exact (h.empty fun _ => 0).1
  | some last =>
    have hid := hno last (List.mem_of_getLast? hlast)
    simp [SessionManager.getBranch, h.leafId, hlast, hid, truthy]

theorem indexById_getLast (hlast : es.getLast? = some last) : (indexById es).get? last.id = some last := by
  obtain ⟨init, rfl⟩ := List.getLast?_eq_some_iff.mp hlast
  rw [indexById_snoc]
  exact OrdMap.get?_set_self _ _ _

/-- Entries with ids: the branch is the path to the last entry, and the context is its. -/
theorem Opened.at_last (h : Opened m es) (hlast : es.getLast? = some last) (hid : last.id ≠ "") :
    m.getBranch none = pathToRoot (indexById es) last ∧
      m.context getTime = (pathToRoot (indexById es) last).map (contextOfPath getTime) := by
  have hget := indexById_getLast hlast
  have hleaf : m.leafId = some last.id := by rw [h.leafId, hlast]; rfl
  have ht : truthy last.id = true := by simp [truthy, hid]
  refine ⟨?_, ?_⟩
  · simp [SessionManager.getBranch, hleaf, h.byId, ht, hget]
  · simp [SessionManager.context, buildSessionContext, contextLeaf, hleaf, h.byId, ht, hget]

end

/-! ### Renaming the role -/

theorem migrateHookMessage_eq_self {e : SessionEntry} : migrateHookMessage e = e ↔ isHookMessage e = false := by
  by_cases hb : ∃ m, e.body = .message (.hookMessage m)
  · obtain ⟨m, hb⟩ := hb
    have hhook : isHookMessage e = true := by
      unfold isHookMessage
      rw [hb]
    have hmoved : (migrateHookMessage e).body = .message (.custom m) := by
      unfold migrateHookMessage
      rw [hb]
    refine iff_of_false (fun he => ?_) (by rw [hhook]; decide)
    rw [he, hb] at hmoved
    cases hmoved
  · have hsame : migrateHookMessage e = e := by
      unfold migrateHookMessage
      split
      · rename_i m hm
        exact absurd ⟨m, hm⟩ hb
      · rfl
    have hother : isHookMessage e = false := by
      unfold isHookMessage
      split
      · rename_i m hm
        exact absurd ⟨m, hm⟩ hb
      · rfl
    exact iff_of_true hsame hother

/-! ### What opening a file makes of it -/

/-- What the migrations make of the entries, by the version of the header. -/
theorem migrated_entries (uuids : ℕ → ℕ → Uuid) (h : SessionHeader) (es : List SessionEntry) :
    ∃ h' es', (migrateToCurrentVersion uuids (.session h :: es.map .entry)).1 = .session h' :: es'.map .entry ∧
      (3 ≤ h.version.getD 1 → es' = es) ∧ (h.version.getD 1 = 2 → es' = es.map migrateHookMessage) ∧
      (h.version.getD 1 < 2 → es'.length = es.length ∧ ∀ e ∈ es', e.id ≠ "") := by
  have hversion : fileVersion (.session h :: es.map .entry) = h.version.getD 1 := rfl
  unfold migrateToCurrentVersion
  rw [hversion]
  by_cases h3 : CURRENT_SESSION_VERSION ≤ h.version.getD 1
  · simp only [h3, if_true]
    have h3' : 3 ≤ h.version.getD 1 := h3
    exact ⟨h, es, rfl, fun _ => rfl, fun hv => absurd hv (by omega), fun hv => absurd hv (by omega)⟩
  · have h3' : h.version.getD 1 < 3 := Nat.lt_of_not_le h3
    simp only [h3, if_false, h3', if_true]
    by_cases h2 : h.version.getD 1 < 2
    · obtain ⟨es', hes, hlen, hids⟩ := migrateV1ToV2From_map uuids es 0 [.session { h with version := some 2 }] none
      have hmig : migrateV1ToV2 uuids (.session h :: es.map .entry) =
          .session { h with version := some 2 } :: es'.map .entry := hes
      rw [if_pos h2, hmig, migrateV2ToV3_map]
      refine ⟨_, _, rfl, fun hv => absurd hv (by omega), fun hv => absurd hv (by omega), fun _ => ⟨?_, fun e he => ?_⟩⟩
      · rw [List.length_map, hlen]
      · obtain ⟨x, hx, rfl⟩ := List.mem_map.mp he
        rw [migrateHookMessage_id]
        exact hids x hx
    · rw [if_neg h2, migrateV2ToV3_map]
      exact ⟨_, _, rfl, fun hv => absurd hv (by omega), fun _ => rfl, fun hv => absurd hv h2⟩

/-- A manager that opened a file has its migrated entries. -/
theorem setSessionFile_opened {m : SessionManager} {disk : Disk} {path : String} {h h' : SessionHeader}
    {es es' : List SessionEntry} (d : Draws) (hload : loadEntriesFromFile disk path = .session h :: es.map .entry)
    (hmig : (migrateToCurrentVersion d.uuids (.session h :: es.map .entry)).1 = .session h' :: es'.map .entry) :
    Opened (setSessionFile ⟨m, disk⟩ d path).manager es' := by
  have hstep := setSessionFile_of_load (m := m) d hload
  simp only at hstep
  rw [hstep]
  set m' := { m.closeAppendFd with
    sessionFile := some path
    fileEntries := (migrateToCurrentVersion d.uuids (.session h :: es.map .entry)).1
    sessionId := h.id } with hm'
  have hmem : m'.entries = es' := by
    rw [hm', SessionManager.entries, hmig, sessionEntries_session, sessionEntries_map]
  have hspec : ∀ x : SessionManager, x.entries = es' → Opened { x.buildIndex with flushed := true } es' := by
    intro x hx
    obtain ⟨h1, h2, h3⟩ := buildIndex_spec x
    rw [hx] at h1 h2 h3
    exact ⟨h1, h2, h3⟩
  split
  · refine hspec _ ?_
    unfold World.rewriteFile
    split
    · split
      · exact hmem
      · exact hmem
    · exact hmem
  · exact hspec _ hmem

/-- The copy of an opened file has its conversation exactly when there was nothing to
migrate. -/
theorem sameConversation_iff (getTime : String → ℤ) {h : SessionHeader} {es es' : List SessionEntry}
    {m m' : SessionManager} (hwf : WellFormedFile h es) (hsource : Opened m es') (hcopy : Opened m' es)
    (h3 : 3 ≤ h.version.getD 1 → es' = es) (h2 : h.version.getD 1 = 2 → es' = es.map migrateHookMessage)
    (h1 : h.version.getD 1 < 2 → es'.length = es.length ∧ ∀ e ∈ es', e.id ≠ "") :
    SameConversation getTime m m' ↔ NothingToMigrate h es := by
  have hsame : ∀ es, Opened m es → Opened m' es → SameConversation getTime m m' := by
    intro es hm hm'
    refine ⟨?_, ?_⟩
    · rw [SessionManager.context, SessionManager.context, hm.entries, hm'.entries, hm.byId, hm'.byId, hm.leafId,
        hm'.leafId]
    · rw [SessionManager.getBranch, SessionManager.getBranch, hm.byId, hm'.byId, hm.leafId, hm'.leafId]
  by_cases hnil : es = []
  · subst hnil
    have hes' : es' = [] := by
      by_cases hv3 : 3 ≤ h.version.getD 1
      · exact h3 hv3
      · by_cases hv2 : h.version.getD 1 = 2
        · exact h2 hv2
        · exact List.length_eq_zero_iff.mp (h1 (by omega)).1
    exact iff_of_true (hsame [] (hes' ▸ hsource) hcopy) (Or.inr (Or.inl rfl))
  obtain ⟨last, hlast⟩ : ∃ last, es.getLast? = some last := ⟨_, List.getLast?_eq_getLast_of_ne_nil hnil⟩
  by_cases hv3 : 3 ≤ h.version.getD 1
  · exact iff_of_true (hsame es (h3 hv3 ▸ hsource) hcopy) (Or.inl hv3)
  · by_cases hv2 : h.version.getD 1 = 2
    · -- version 2: the source is the copy with the role renamed
      have hg := hwf.tree (by omega)
      have hmem := List.mem_of_getLast? hlast
      obtain ⟨path, hpath, -⟩ := hg.lineage last hmem
      have hid := hg.id_ne last hmem
      have hes' := h2 hv2
      subst hes'
      have hlast' : (es.map migrateHookMessage).getLast? = some (migrateHookMessage last) := by
        rw [List.getLast?_map, hlast]
        rfl
      have hid' : (migrateHookMessage last).id ≠ "" := by rw [migrateHookMessage_id]; exact hid
      obtain ⟨hb, hc⟩ := hsource.at_last getTime hlast' hid'
      obtain ⟨hb', hc'⟩ := hcopy.at_last getTime hlast hid
      rw [pathToRoot_eq_some_iff.mpr (hpath.map migrateHookMessage (parentEntry_migrate es))] at hb hc
      rw [pathToRoot_eq_some_iff.mpr hpath] at hb' hc'
      have hpaths : NothingToMigrate h es ↔ path.map migrateHookMessage = path := by
        have hself : path.map migrateHookMessage = path ↔ ∀ e ∈ path, migrateHookMessage e = e := by
          simpa using (List.map_inj_left (f := migrateHookMessage) (g := id) (l := path))
        rw [hself]
        constructor
        · rintro (hv | hn | ⟨-, hall⟩)
          · exact absurd hv hv3
          · exact absurd hn hnil
          · exact fun e he => migrateHookMessage_eq_self.mpr (hall last hlast path hpath e he)
        · intro hall
          refine Or.inr (Or.inr ⟨by omega, fun x hx p hp e he => ?_⟩)
          rw [hlast, Option.some.injEq] at hx
          subst hx
          rw [hp.unique hpath] at he
          exact migrateHookMessage_eq_self.mp (hall e he)
      rw [hpaths]
      constructor
      · intro hs
        have := hs.branch
        rw [hb, hb', Option.some.injEq] at this
        exact this.symm
      · intro hp
        rw [hp] at hb hc
        exact ⟨hc'.trans hc.symm, hb'.trans hb.symm⟩
    · -- version 1: the entries of the copy have no ids, so there is no branch
      have hv1 : h.version.getD 1 < 2 := by omega
      obtain ⟨hlen, hids⟩ := h1 hv1
      have hb' := hcopy.getBranch_of_no_id fun e he => (hwf.noIds hv1 e he).1
      refine iff_of_false (fun hs => ?_) ?_
      · have hnil' : es' ≠ [] := fun hn => by
          rw [hn, List.length_nil] at hlen
          exact hnil (List.length_eq_zero_iff.mp hlen.symm)
        have hlast' := List.getLast?_eq_getLast_of_ne_nil hnil'
        obtain ⟨hb, -⟩ := hsource.at_last getTime hlast' (hids _ (List.mem_of_getLast? hlast'))
        have := hs.branch
        rw [hb', hb] at this
        exact (pathToRoot_eq_some_iff.mp this.symm).ne_nil rfl
      · rintro (hv | hn | ⟨hv, -⟩)
        · exact hv3 hv
        · exact hnil hn
        · omega

/-- What `forkFrom` makes, if it makes anything. -/
theorem forkFrom_eq_ok {disk : Disk} {d dOpen : Draws} {sourcePath targetCwd sessionDir : String}
    {id : Option String} {w : World} {h : SessionHeader} {es : List SessionEntry}
    (hload : loadEntriesFromFile disk sourcePath = .session h :: es.map .entry)
    (hfork : forkFrom disk d dOpen sourcePath targetCwd sessionDir id = .ok w) :
    ∃ h' path m disk', h'.version = some CURRENT_SESSION_VERSION ∧
      loadEntriesFromFile disk' path = .session h' :: es.map .entry ∧ w = setSessionFile ⟨m, disk'⟩ dOpen path := by
  unfold World.forkFrom at hfork
  simp only [hload] at hfork
  split at hfork
  · split at hfork
    · cases hfork
    · rename_i hfree
      simp only [sessionEntries_session, sessionEntries_map, Except.ok.injEq] at hfork
      exact ⟨_, _, _, _, rfl, loadEntriesFromFile_update _ _ _ _, hfork.symm⟩
  · cases hfork

/-- **A forked session has the conversation of its source, and has it still when it is
opened again, exactly when there was nothing to migrate in the source.** -/
theorem forkFrom_keeps_iff (getTime : String → ℤ) {disk : Disk} {d dOpen : Draws}
    {sourcePath targetCwd sessionDir : String} {id : Option String} {w : World} {h : SessionHeader}
    {es : List SessionEntry} (hload : loadEntriesFromFile disk sourcePath = .session h :: es.map .entry)
    (hwf : WellFormedFile h es) (hfork : forkFrom disk d dOpen sourcePath targetCwd sessionDir id = .ok w)
    (m : SessionManager) (dSource : Draws) :
    (SameConversation getTime (setSessionFile ⟨m, disk⟩ dSource sourcePath).manager w.manager ∧
      ∀ path, w.manager.sessionFile = some path → ∀ m' d', SameConversation getTime
        (setSessionFile ⟨m, disk⟩ dSource sourcePath).manager (setSessionFile ⟨m', w.disk⟩ d' path).manager) ↔
      NothingToMigrate h es := by
  obtain ⟨h', es', hmig, h3, h2, h1⟩ := migrated_entries dSource.uuids h es
  have hsource := setSessionFile_opened (m := m) dSource hload hmig
  obtain ⟨hn, file, mNew, disk', hv, hload', rfl⟩ := forkFrom_eq_ok hload hfork
  have hcurrent : ∀ uuids, migrateToCurrentVersion uuids (.session hn :: es.map .entry) =
      (.session hn :: es.map .entry, false) := by
    intro uuids
    have hversion : fileVersion (.session hn :: es.map .entry) = CURRENT_SESSION_VERSION := by
      change hn.version.getD 1 = _
      rw [hv]
      rfl
    unfold migrateToCurrentVersion
    rw [hversion]
    simp only [le_refl, if_true]
  have hopened : ∀ m' d', Opened (setSessionFile ⟨m', disk'⟩ d' file).manager es := fun m' d' =>
    setSessionFile_opened d' hload' (by rw [hcurrent])
  have hstep := setSessionFile_of_load (m := mNew) dOpen hload'
  simp only [hcurrent, Bool.false_eq_true, if_false] at hstep
  have hdisk : (setSessionFile ⟨mNew, disk'⟩ dOpen file).disk = disk' := by rw [hstep]
  have hfile : (setSessionFile ⟨mNew, disk'⟩ dOpen file).manager.sessionFile = some file := by
    rw [hstep]
    exact (buildIndex_facts _).2.2.2.1
  rw [hdisk, hfile]
  constructor
  · exact fun hs => (sameConversation_iff getTime hwf hsource (hopened mNew dOpen) h3 h2 h1).mp hs.1
  · intro hnothing
    refine ⟨(sameConversation_iff getTime hwf hsource (hopened mNew dOpen) h3 h2 h1).mpr hnothing, ?_⟩
    intro path hpath m' d'
    obtain rfl := Option.some.inj hpath
    exact (sameConversation_iff getTime hwf hsource (hopened m' d') h3 h2 h1).mpr hnothing

/-- Two messages, with ids or without, in a file of the given version. -/
def twoMessages (version : ℕ) (id id' : Option String) : SessionHeader × List SessionEntry :=
  (⟨some version, "s", "", "/work", none⟩,
    [⟨id.getD "", none, "", .message (.user (.text "first") 1)⟩,
      ⟨id'.getD "", id, "", .message (.user (.text "second") 2)⟩])

/-- A disk with such a file. -/
def twoMessagesDisk (file : SessionHeader × List SessionEntry) : Disk :=
  fun path => if path = "/old.jsonl" then some (jsonLines (.session file.1 :: file.2.map .entry)) else none

/-- The UUIDs of the `k`-th new id are 36 times the `k`-th letter. -/
def letterDraws : Draws :=
  ⟨fun k _ => ⟨String.ofList (List.replicate 36 (Char.ofNat (97 + k))), by simp⟩, "2025-01-01T00:00:00.000Z", "fork"⟩

/-- A file of version 1 with two messages: the fork has the second only. -/
theorem forkFrom_loses :
    WellFormedFile (twoMessages 1 none none).1 (twoMessages 1 none none).2 ∧
      ∃ w, forkFrom (twoMessagesDisk (twoMessages 1 none none)) letterDraws letterDraws "/old.jsonl" "/work" "/sessions"
          none = .ok w ∧
        ¬ SameConversation (fun _ => 0) (setSessionFile ⟨.blank "/work" "/sessions" true,
          twoMessagesDisk (twoMessages 1 none none)⟩ letterDraws "/old.jsonl").manager w.manager := by
  refine ⟨⟨fun _ => by decide, fun h => absurd h (by decide)⟩, _, rfl, fun h => ?_⟩
  exact absurd h.context (by decide)

/-- A file of version 3. -/
theorem forkFrom_keeps_iff_current :
    ∃ w, forkFrom (twoMessagesDisk (twoMessages 3 (some "a") (some "b"))) letterDraws letterDraws "/old.jsonl" "/work"
        "/sessions" none = .ok w ∧
      SameConversation (fun _ => 0) (setSessionFile ⟨.blank "/work" "/sessions" true,
        twoMessagesDisk (twoMessages 3 (some "a") (some "b"))⟩ letterDraws "/old.jsonl").manager w.manager := by
  obtain ⟨w, hfork⟩ : ∃ w, forkFrom (twoMessagesDisk (twoMessages 3 (some "a") (some "b"))) letterDraws letterDraws
      "/old.jsonl" "/work" "/sessions" none = .ok w := ⟨_, rfl⟩
  refine ⟨w, hfork, ?_⟩
  have hgrown : Grown (twoMessages 3 (some "a") (some "b")).2 :=
    .snoc (.snoc .nil ⟨by decide, by decide, by decide⟩) ⟨by decide, by decide, by decide⟩
  exact ((forkFrom_keeps_iff (fun _ => 0) (h := (twoMessages 3 (some "a") (some "b")).1)
    (loadEntriesFromFile_eq_cons.mpr ⟨_, rfl, parseLines_jsonLines _⟩)
    ⟨fun hv => absurd hv (by decide), fun _ => hgrown⟩ hfork _ _).mpr (Or.inl le_rfl)).1

end Trek
