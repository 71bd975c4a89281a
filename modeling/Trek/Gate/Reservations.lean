/-
# Reservations

A call reserves its path when `beforeToolCall` starts and its key when it has passed the
checks. `afterToolCall` gives both back, and so do some of the ways out of
`beforeToolCall`: the others keep the key, and a call that is aborted after the hook has
returned, or that an exception ends, keeps both, since `afterToolCall` never comes. A key
holds the number of its prompt, so one in flight when the next prompt is numbered is not
given back either. In a run without these ways out a session at rest has nothing reserved.
-/
import Trek.Gate.Calls

namespace Trek.ToolGate

variable {β : Type} {env : Env β}

/-! ### Which calls hold something -/

/-- The call is to go on to its tool, or to come back from it. -/
def Stage.isOpen : Stage β → Bool
  | .answered result => !result.any (·.block)
  | .done => false
  | _ => true

/-- The call has passed the lookup, and is to go on. -/
def Stage.holdsKey (stage : Stage β) : Bool :=
  stage.isOpen && match stage with
    | .confirming | .checking _ => false
    | _ => true

/-- The call has a path, or its key in flight. -/
def AgentSession.Holds (s : AgentSession β) (c : Call β) : Prop :=
  (∃ p ∈ s.fileMutationOwner.pairs, p.2 = c.id) ∨
    (c.stage.holdsKey = true ∧ s.idempotencyKey c.args ∈ s.idempotencyInFlight)

/-- A step of a call that gives back what the call holds where it ends. -/
def Call.Releases (env : Env β) (s : AgentSession β) (c : Call β) : CallStep → Prop
  -- an edit that puts back what was replaced is refused after its key is in flight
  | .check none => c.stage = .checking false → ∀ s₁, s.lookupIdempotent c.args = (.fresh, s₁) →
    s₁.revertedEditReason env c.args = none
  | .extension args result =>
    (result.any (·.block) = true ∨ args ≠ c.args) → s.idempotencyKey c.args ∉ s.idempotencyInFlight
  | .extensionThrow _ => s.idempotencyKey c.args ∉ s.idempotencyInFlight
  | .resume aborted => aborted = true → c.stage.isOpen = true → ¬ s.Holds c
  | .fail => c.stage.isOpen = true → ¬ s.Holds c
  | _ => True

namespace Gate

/-- A step that loses no reservation. -/
def Releases (env : Env β) (g : Gate β) : GateStep β → Prop
  | .on i input => ∀ c, g.calls[i]? = some c → c.Releases env g.session input
  | .prompt _ => g.session.idempotencyInFlight = []
  | _ => True

/-- No call is being prepared or executed. -/
def AtRest (g : Gate β) : Prop := ∀ c ∈ g.calls, c.stage.isOpen = false

/-- Whatever is reserved, a call that is to go on holds it. -/
structure Accounted (g : Gate β) : Prop where
  owner : ∀ p ∈ g.session.fileMutationOwner.pairs, ∃ c ∈ g.calls, c.id = p.2 ∧ c.stage.isOpen = true
  key : ∀ k ∈ g.session.idempotencyInFlight,
    k.args.path?.isSome = true ∧ ∃ c ∈ g.calls, g.session.idempotencyKey c.args = k ∧ c.stage.holdsKey = true

/-! ### One step -/

theorem mem_set_of_mem {l : List (Call β)} {i : ℕ} {c c' d : Call β} (hc : l[i]? = some c) (hd : d ∈ l) :
    d = c ∨ d ∈ l.set i c' := by
  obtain ⟨j, hj⟩ := List.mem_iff_getElem?.mp hd
  by_cases hij : i = j
  · subst hij
    rw [hc] at hj
    exact Or.inl (Option.some.inj hj).symm
  · exact Or.inr (List.mem_of_getElem? ((List.getElem?_set_ne hij).trans hj))

/-- A step of one call: what is reserved after it was reserved before, or is the call's new key,
and the call does not end with what it held. -/
theorem Accounted.set {g : Gate β} (h : g.Accounted) {i : ℕ} {c c' : Call β} {s' : AgentSession β}
    (hc : g.calls[i]? = some c) (hid : c'.id = c.id) (hprompt : s'.currentPromptNumber = g.session.currentPromptNumber)
    (howner : ∀ p ∈ s'.fileMutationOwner.pairs, p ∈ g.session.fileMutationOwner.pairs ∧
      (p.2 = c.id → c.stage.isOpen = true → c'.stage.isOpen = true))
    (hkey : ∀ k ∈ s'.idempotencyInFlight,
      (k.args.path?.isSome = true ∧ s'.idempotencyKey c'.args = k ∧ c'.stage.holdsKey = true) ∨
        (k ∈ g.session.idempotencyInFlight ∧ (g.session.idempotencyKey c.args = k → c.stage.holdsKey = true →
          c'.args = c.args ∧ c'.stage.holdsKey = true))) :
    (⟨s', g.calls.set i c'⟩ : Gate β).Accounted := by
  have hnew : c' ∈ g.calls.set i c' := List.mem_iff_getElem?.mpr
    ⟨i, List.getElem?_set_self (List.getElem?_eq_some_iff.mp hc).1⟩
  have hsame : ∀ args, s'.idempotencyKey args = g.session.idempotencyKey args := by
    intro args
    unfold AgentSession.idempotencyKey
    rw [hprompt]
  refine ⟨fun p hp => ?_, fun k hk => ?_⟩
  · obtain ⟨hp, hopen⟩ := howner p hp
    obtain ⟨d, hd, hdp, hdo⟩ := h.owner p hp
    rcases mem_set_of_mem hc hd with rfl | hd
    · exact ⟨c', hnew, hid.trans hdp, hopen hdp.symm hdo⟩
    · exact ⟨d, hd, hdp, hdo⟩
  · rcases hkey k hk with ⟨hpath, hk, hholds⟩ | ⟨hk, hholds⟩
    · exact ⟨hpath, c', hnew, hk, hholds⟩
    · obtain ⟨hpath, d, hd, hdk, hdh⟩ := h.key k hk
      refine ⟨hpath, ?_⟩
      rcases mem_set_of_mem hc hd with rfl | hd
      · obtain ⟨hargs, hh⟩ := hholds hdk hdh
        refine ⟨c', hnew, ?_, hh⟩
        rw [hsame, hargs]
        exact hdk
      · exact ⟨d, hd, (hsame d.args).trans hdk, hdh⟩

/-- A call that gives its path back. -/
theorem owner_of_release {s : AgentSession β} {c : Call β} {P : Prop} :
    ∀ p ∈ (s.releaseFileMutation c.id).fileMutationOwner.pairs,
      p ∈ s.fileMutationOwner.pairs ∧ (p.2 = c.id → P) := by
  intro p hp
  obtain ⟨hp, hne⟩ := OrdMap.mem_dropValue.mp hp
  exact ⟨hp, fun he => absurd he hne⟩

/-- The keys in flight after a step of `c` that `c'` comes of. -/
def KeysKept (s s' : AgentSession β) (c c' : Call β) : Prop :=
  ∀ k ∈ s'.idempotencyInFlight,
    (k.args.path?.isSome = true ∧ s'.idempotencyKey c'.args = k ∧ c'.stage.holdsKey = true) ∨
      (k ∈ s.idempotencyInFlight ∧ (s.idempotencyKey c.args = k → c.stage.holdsKey = true →
        c'.args = c.args ∧ c'.stage.holdsKey = true))

/-- A call before its lookup has no key to lose. -/
theorem KeysKept.early {s s' : AgentSession β} {c c' : Call β} (hc : c.stage.holdsKey = false)
    (hs : ∀ k ∈ s'.idempotencyInFlight, k ∈ s.idempotencyInFlight) : KeysKept s s' c c' := by
  intro k hk
  refine Or.inr ⟨hs k hk, fun _ h => ?_⟩
  rw [hc] at h
  cases h

/-- A call that goes on keeps its key. -/
theorem KeysKept.goesOn {s s' : AgentSession β} {c c' : Call β} (hargs : c'.args = c.args)
    (hc : c'.stage.holdsKey = true) (hs : s'.idempotencyInFlight = s.idempotencyInFlight) : KeysKept s s' c c' :=
  fun _ hk => Or.inr ⟨hs ▸ hk, fun _ _ => ⟨hargs, hc⟩⟩

/-- A call whose key is not in flight may end. -/
theorem KeysKept.free {s s' : AgentSession β} {c c' : Call β}
    (hkey : c.stage.holdsKey = true → s.idempotencyKey c.args ∉ s.idempotencyInFlight)
    (hs : s'.idempotencyInFlight = s.idempotencyInFlight) : KeysKept s s' c c' := by
  intro k hk
  rw [hs] at hk
  exact Or.inr ⟨hk, fun he hc => absurd (he ▸ hk) (hkey hc)⟩

theorem Accounted.callStep {g : Gate β} (h : g.Accounted) {i : ℕ} {c c' : Call β} {s' : AgentSession β}
    {input : CallStep} (hc : g.calls[i]? = some c) (hr : c.Releases env g.session input)
    (hm : Moves env g.session c input s' c') : (⟨s', g.calls.set i c'⟩ : Gate β).Accounted := by
  have hsame : ∀ {s₁ : AgentSession β} {d : Call β}, s₁.fileMutationOwner = g.session.fileMutationOwner →
      d.stage.isOpen = true → ∀ p ∈ s₁.fileMutationOwner.pairs, p ∈ g.session.fileMutationOwner.pairs ∧
        (p.2 = c.id → c.stage.isOpen = true → d.stage.isOpen = true) :=
    fun hs hd p hp => ⟨hs ▸ hp, fun _ _ => hd⟩
  -- a call that ends holding nothing
  have hend : (c.stage.isOpen = true → ¬ g.session.Holds c) →
      (⟨g.session, g.calls.set i { c with stage := .done }⟩ : Gate β).Accounted := by
    intro hfree
    refine h.set hc rfl rfl ?_ (KeysKept.free ?_ rfl)
    · exact fun p hp => ⟨hp, fun he ho => absurd (Or.inl ⟨p, hp, he⟩) (hfree ho)⟩
    · intro hk hmem
      have ho : c.stage.isOpen = true := (Bool.and_eq_true_iff.mp hk).1
      exact hfree ho (Or.inr ⟨hk, hmem⟩)
  cases hm with
  | refused _ hstage _ =>
    refine h.set hc rfl rfl owner_of_release (KeysKept.early ?_ fun _ hk => hk)
    rcases hstage with hstage | ⟨_, hstage⟩ <;> rw [hstage] <;> rfl
  | confirmed hstage =>
    refine h.set hc rfl rfl (hsame rfl rfl) (KeysKept.early ?_ fun _ hk => hk)
    rw [hstage]
    rfl
  | admitted hstage hlookup _ =>
    have hearly : c.stage.holdsKey = false := by
      rw [hstage]
      rfl
    rcases g.session.lookup_cases c.args with ⟨hl, -⟩ | ⟨_, hl, -⟩ | ⟨hl, -⟩ | ⟨hl, hpath⟩ <;> rw [hl] at hlookup <;>
      cases hlookup
    · exact h.set hc rfl rfl (hsame rfl rfl) (KeysKept.early hearly fun _ hk => hk)
    · refine h.set hc rfl rfl (hsame rfl rfl) fun k hk => ?_
      rcases List.mem_append.mp hk with hk | hk
      · exact @KeysKept.early _ g.session g.session _ _ hearly (fun _ hk => hk) k hk
      · obtain rfl := List.mem_singleton.mp hk
        exact Or.inl ⟨hpath, rfl, rfl⟩
  | reverted hstage hlookup hrevert _ =>
    rw [hr hstage _ hlookup] at hrevert
    cases hrevert
  | needed hstage =>
    refine h.set hc rfl rfl (hsame rfl rfl) (KeysKept.early ?_ fun _ hk => (List.mem_filter.mp hk).1)
    rw [hstage]
    rfl
  | neededReverted hstage _ =>
    refine h.set hc rfl rfl (owner_of_release (s := g.session)) (KeysKept.early ?_ fun _ hk => (List.mem_filter.mp hk).1)
    rw [hstage]
    rfl
  | @captured hasHandlers hstage =>
    cases hasHandlers
    · exact h.set hc rfl rfl (hsame rfl rfl) (KeysKept.goesOn rfl rfl rfl)
    · exact h.set hc rfl rfl (hsame rfl rfl) (KeysKept.goesOn rfl rfl rfl)
  | @passed args result hstage hresult =>
    have hopen : (Stage.answered result : Stage β).isOpen = true := by simp [Stage.isOpen, hresult]
    refine h.set hc rfl rfl (hsame rfl hopen) ?_
    by_cases hargs : args = c.args
    · refine KeysKept.goesOn hargs ?_ rfl
      simp [Stage.holdsKey, hopen]
    · exact KeysKept.free (fun _ => hr (Or.inr hargs)) rfl
  | extensionBlocked hstage hresult =>
    exact h.set hc rfl rfl owner_of_release (KeysKept.free (fun _ => hr (Or.inl hresult)) rfl)
  | extensionThrew hstage =>
    exact h.set hc rfl rfl owner_of_release (KeysKept.free (fun _ => hr) rfl)
  | @ended aborted result hstage hended =>
    refine hend fun hopen => hr ?_ hopen
    rw [hstage, Stage.isOpen] at hopen
    rcases Bool.or_eq_true_iff.mp hended with ha | hb
    · exact ha
    · rw [hb] at hopen
      cases hopen
  | prepared hstage hresult => exact h.set hc rfl rfl (hsame rfl rfl) (KeysKept.goesOn rfl rfl rfl)
  | executed hstage => exact h.set hc rfl rfl (hsame rfl rfl) (KeysKept.goesOn rfl rfl rfl)
  | started hstage hphase => exact h.set hc rfl rfl (hsame rfl rfl) (KeysKept.goesOn rfl rfl rfl)
  | wrote hstage hpath => exact h.set hc rfl rfl (hsame rfl rfl) (KeysKept.goesOn rfl rfl rfl)
  | settled hstage hleft => exact h.set hc rfl rfl (hsame rfl rfl) (KeysKept.goesOn rfl rfl rfl)
  | @finished content isError left hstage =>
    obtain ⟨_, _, hfinish⟩ := finish_eq env g.session c content isError left
    rw [hfinish]
    obtain ⟨-, hprompt, howner⟩ := AgentSession.rememberIdempotent_frame
      (g.session.releaseFileMutation c.id) c.args content isError left
    refine h.set hc rfl hprompt ?_ fun k hk => ?_
    · intro p hp
      exact owner_of_release p (howner ▸ hp)
    · replace hk : k ∈ ((g.session.releaseFileMutation c.id).rememberIdempotent c.args content isError
          left).idempotencyInFlight := hk
      rw [AgentSession.rememberIdempotent_inFlight] at hk
      split at hk
      · rename_i hnone
        refine Or.inr ⟨hk, fun he _ => ?_⟩
        have hsome := (h.key k hk).1
        rw [← he] at hsome
        rw [AgentSession.idempotencyKey, Option.isNone_iff_eq_none.mp hnone] at hsome
        cases hsome
      · obtain ⟨hk, hne⟩ := List.mem_filter.mp hk
        refine Or.inr ⟨hk, fun he _ => ?_⟩
        rw [decide_eq_true_eq] at hne
        exact absurd he.symm hne
  | failed hstage => exact hend hr

theorem Accounted.call {g : Gate β} (h : g.Accounted) (id : String) (args : ToolArgs) :
    (g.call env id args).Accounted := by
  have hkeys : ∀ d : Call β, ∀ k ∈ g.session.idempotencyInFlight, k.args.path?.isSome = true ∧
      ∃ c ∈ g.calls ++ [d], g.session.idempotencyKey c.args = k ∧ c.stage.holdsKey = true := by
    intro d k hk
    obtain ⟨hpath, c, hc, hck⟩ := h.key k hk
    exact ⟨hpath, c, List.mem_append_left _ hc, hck⟩
  have hold : ∀ d : Call β, ∀ p ∈ g.session.fileMutationOwner.pairs,
      ∃ c ∈ g.calls ++ [d], c.id = p.2 ∧ c.stage.isOpen = true := by
    intro d p hp
    obtain ⟨c, hc, hcp⟩ := h.owner p hp
    exact ⟨c, List.mem_append_left _ hc, hcp⟩
  simp only [Gate.call, AgentSession.fileMutationBusy]
  cases AgentSession.mutationPath env args with
  | none => exact ⟨hold _, hkeys _⟩
  | some path =>
    simp only
    cases (g.session.fileMutationOwner.get? path).any (· ≠ id) with
    | true => exact ⟨hold _, hkeys _⟩
    | false =>
      refine ⟨fun p hp => ?_, hkeys _⟩
      rcases OrdMap.mem_set hp with rfl | hp
      · exact ⟨_, List.mem_append_right _ (List.mem_singleton_self _), rfl, rfl⟩
      · exact hold _ p hp

theorem Accounted.step {g g' : Gate β} {input : GateStep β} (h : g.Accounted) (hr : g.Releases env input)
    (hs : g.step env input = some g') : g'.Accounted := by
  cases input with
  | call id args =>
    obtain rfl := Option.some.inj hs
    exact h.call id args
  | on i input =>
    obtain ⟨c, hc, hs⟩ := Option.bind_eq_some_iff.mp hs
    obtain ⟨⟨s', c'⟩, hstep, rfl⟩ := Option.map_eq_some_iff.mp hs
    exact h.callStep hc (hr c hc) (callStep_moves hstep)
  | prompt n =>
    obtain rfl := Option.some.inj hs
    refine ⟨h.owner, fun k hk => ?_⟩
    replace hk : k ∈ g.session.idempotencyInFlight := hk
    rw [show g.session.idempotencyInFlight = [] from hr] at hk
    cases hk
  | outside files =>
    obtain rfl := Option.some.inj hs
    exact ⟨h.owner, h.key⟩
  | requestHalt =>
    obtain rfl := Option.some.inj hs
    exact ⟨h.owner, h.key⟩
  | clearHalt =>
    obtain rfl := Option.some.inj hs
    exact ⟨h.owner, h.key⟩
  | newRun =>
    obtain rfl := Option.some.inj hs
    exact ⟨h.owner, h.key⟩
  | setDryRun enabled =>
    obtain rfl := Option.some.inj hs
    exact ⟨h.owner, h.key⟩

/-! ### At rest -/

/-- What is accounted for is given back when no call is to go on. -/
theorem Accounted.empty {g : Gate β} (h : g.Accounted) (hrest : g.AtRest) :
    g.session.fileMutationOwner.pairs = [] ∧ g.session.idempotencyInFlight = [] := by
  constructor
  · refine List.eq_nil_iff_forall_not_mem.mpr fun p hp => ?_
    obtain ⟨c, hc, -, hopen⟩ := h.owner p hp
    rw [hrest c hc] at hopen
    cases hopen
  · refine List.eq_nil_iff_forall_not_mem.mpr fun k hk => ?_
    obtain ⟨-, c, hc, -, hholds⟩ := h.key k hk
    have hopen := (Bool.and_eq_true_iff.mp hholds).1
    rw [hrest c hc] at hopen
    cases hopen

/-- Where nothing is reserved no call is busy, and none finds its key in flight. -/
theorem not_busy {s : AgentSession β} (howner : s.fileMutationOwner.pairs = []) (hkey : s.idempotencyInFlight = [])
    (id : String) (args : ToolArgs) :
    (s.fileMutationBusy env id args).1 = false ∧ ∀ s₁, s.lookupIdempotent args ≠ (.inFlight, s₁) := by
  constructor
  · unfold AgentSession.fileMutationBusy
    cases AgentSession.mutationPath env args with
    | none => rfl
    | some path =>
      have hget : s.fileMutationOwner.get? path = none := by
        rw [OrdMap.get?, howner]
        rfl
      simp only [hget, Option.any_none, Bool.false_eq_true, ↓reduceIte]
  · intro s₁ hs₁
    rcases s.lookup_cases args with ⟨h, -⟩ | ⟨_, h, -⟩ | ⟨-, h⟩ | ⟨h, -⟩
    · rw [h] at hs₁
      cases hs₁
    · rw [h] at hs₁
      cases hs₁
    · rw [hkey] at h
      cases h
    · rw [h] at hs₁
      cases hs₁

/-- **In every run whose steps give back what their calls hold, a session at rest has nothing
reserved, and refuses no call as already running.** -/
theorem run_atRest (env : Env β) (files : String → Option β) (steps : List (GateStep β)) (g : Gate β)
    (hrun : (new files).run env steps = some g)
    (hreleases : Machine.Throughout (step env) (Releases env) (new files) steps) (hrest : g.AtRest) :
    g.session.fileMutationOwner.pairs = [] ∧ g.session.idempotencyInFlight = [] ∧
      ∀ id args, (g.session.fileMutationBusy env id args).1 = false ∧
        ∀ s₁, g.session.lookupIdempotent args ≠ (.inFlight, s₁) := by
  have hnew : (new files : Gate β).Accounted := ⟨(fun p hp => by cases hp), (fun k hk => by cases hk)⟩
  have h := Machine.inv_throughout (fun _ _ _ h hr hs => Accounted.step h hr hs) steps hnew hreleases hrun
  obtain ⟨howner, hkey⟩ := h.empty hrest
  exact ⟨howner, hkey, not_busy howner hkey⟩

/-- A write that a law refuses leaves nothing reserved. -/
theorem run_atRest_refused : ∃ g : Gate String,
    (new fun _ => none).run Env.plain [.call "call_1" (.write "a.txt" "x"), .on 0 (.confirm none),
      .on 0 (.check (some "Law 1")), .on 0 (.resume false)] = some g ∧
      g.session.fileMutationOwner.pairs = [] ∧ g.session.idempotencyInFlight = [] := by
  refine ⟨_, rfl, ?_⟩
  have h := run_atRest Env.plain (fun _ => none) [.call "call_1" (.write "a.txt" "x"), .on 0 (.confirm none),
    .on 0 (.check (some "Law 1")), .on 0 (.resume false)] _ rfl
    (Machine.throughout_cons trivial rfl (Machine.throughout_cons (fun _ _ => trivial) rfl
      (Machine.throughout_cons (fun _ _ => trivial) rfl (Machine.throughout_cons (fun _ _ h => by cases h) rfl trivial))))
    (fun c hc => by
      obtain rfl := List.mem_singleton.mp hc
      rfl)
  exact ⟨h.1, h.2.1⟩

/-- A write aborted while its hook runs: path and key stay reserved, and the next write is refused. -/
theorem run_not_atRest_empty :
    ∃ (steps : List (GateStep String)) (g : Gate String), (new fun _ => none).run Env.plain steps = some g ∧
      g.AtRest ∧ g.session.fileMutationOwner.pairs = [("a.txt", "call_1")] ∧
        g.session.idempotencyInFlight = [⟨0, .write "a.txt" "x"⟩] ∧
          (g.session.fileMutationBusy Env.plain "call_2" (.write "a.txt" "y")).1 = true := by
  refine ⟨[.call "call_1" (.write "a.txt" "x"), .on 0 (.confirm none), .on 0 (.check none), .on 0 (.capture false),
    .on 0 (.resume true)], _, rfl, ?_, rfl, rfl, rfl⟩
  intro c hc
  obtain rfl := List.mem_singleton.mp hc
  rfl

end Gate

end Trek.ToolGate
