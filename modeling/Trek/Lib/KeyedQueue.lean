/-
# Queues of tickets, one for each key

A ticket is drawn for a key and waits for the promise that the ticket before it left in
a map; its own promise settles once that one has and the ticket is done. The map keeps,
for each key, the last ticket that is not done. `Sound` is what every operation keeps,
and from it: of the tickets of one key one at a time is running, they run in the order
they were drawn, and when all are done the map is empty.
-/
import Trek.Lib.OrdMap

namespace Trek

/-- How far a ticket has come. -/
inductive TicketPhase
  | waiting
  | running
  | done (ok : Bool)
  deriving DecidableEq

/-- A ticket: what it waits for, and whether the promise it left has settled. -/
structure Ticket (κ α : Type*) where
  key : κ
  owner : α
  waitsFor : Option ℕ
  phase : TicketPhase
  settled : Bool

/-- The tickets in the order they were drawn, and the last one of each key. -/
structure KeyedQueue (κ α : Type*) where
  tickets : List (Ticket κ α)
  tails : OrdMap κ ℕ

namespace Ticket

variable {κ α : Type*}

/-- The ticket's work is over, well or badly. -/
def isDone (t : Ticket κ α) : Bool :=
  match t.phase with
  | .done _ => true
  | _ => false

end Ticket

namespace KeyedQueue

variable {κ α : Type*}

/-- No ticket drawn. -/
def empty : KeyedQueue κ α := ⟨[], .empty⟩

/-- The promise a ticket waits for has settled. -/
def hasSettled (q : KeyedQueue κ α) : Option ℕ → Bool
  | none => true
  | some p => q.tickets[p]?.any (·.settled)

variable [DecidableEq κ]

/-- A ticket is drawn. -/
def register (q : KeyedQueue κ α) (key : κ) (owner : α) : KeyedQueue κ α where
  tickets := q.tickets ++ [⟨key, owner, q.tails.get? key, .waiting, false⟩]
  tails := q.tails.set key q.tickets.length

/-- A ticket changes. -/
def put (q : KeyedQueue κ α) (i : ℕ) (t : Ticket κ α) : KeyedQueue κ α := { q with tickets := q.tickets.set i t }

/-- The work of a ticket starts. -/
def start (q : KeyedQueue κ α) (i : ℕ) : Option (KeyedQueue κ α) := do
  let t ← q.tickets[i]?
  if t.phase = .waiting ∧ q.hasSettled t.waitsFor then some (q.put i { t with phase := .running }) else none

/-- The work of a ticket ends; the last ticket of a key leaves the map. -/
def finish (q : KeyedQueue κ α) (i : ℕ) (ok : Bool) : Option (KeyedQueue κ α) := do
  let t ← q.tickets[i]?
  if t.phase = .running then
    let q := q.put i { t with phase := .done ok }
    some (if q.tails.get? t.key = some i then { q with tails := q.tails.delete t.key } else q)
  else none

/-- The promise of a ticket settles. -/
def settle (q : KeyedQueue κ α) (i : ℕ) : Option (KeyedQueue κ α) := do
  let t ← q.tickets[i]?
  if t.isDone ∧ q.hasSettled t.waitsFor then some (q.put i { t with settled := true }) else none

/-! ### What the operations do -/

omit [DecidableEq κ] in
theorem start_eq_some {q q' : KeyedQueue κ α} {i : ℕ} : q.start i = some q' ↔
    ∃ t, q.tickets[i]? = some t ∧ t.phase = .waiting ∧ q.hasSettled t.waitsFor = true ∧
      q' = q.put i { t with phase := .running } := by
  simp only [start, Option.bind_eq_bind, Option.bind_eq_some_iff, Option.ite_none_right_eq_some, Option.some.injEq, and_assoc,
    eq_comm (a := q')]

omit [DecidableEq κ] in
theorem settle_eq_some {q q' : KeyedQueue κ α} {i : ℕ} : q.settle i = some q' ↔
    ∃ t, q.tickets[i]? = some t ∧ t.isDone = true ∧ q.hasSettled t.waitsFor = true ∧
      q' = q.put i { t with settled := true } := by
  simp only [settle, Option.bind_eq_bind, Option.bind_eq_some_iff, Option.ite_none_right_eq_some, Option.some.injEq, and_assoc,
    eq_comm (a := q')]

theorem finish_cases {q q' : KeyedQueue κ α} {i : ℕ} {ok : Bool} (h : q.finish i ok = some q') :
    ∃ t, q.tickets[i]? = some t ∧ t.phase = .running ∧
      q' = { q.put i { t with phase := .done ok } with
        tails := if q.tails.get? t.key = some i then q.tails.delete t.key else q.tails } := by
  obtain ⟨t, ht, h⟩ := Option.bind_eq_some_iff.mp h
  refine ⟨t, ht, ?_⟩
  split at h
  · rename_i hrunning
    refine ⟨hrunning, (Option.some.inj h).symm.trans ?_⟩
    change (if q.tails.get? t.key = some i then _ else _) = _
    by_cases htail : q.tails.get? t.key = some i
    · rw [if_pos htail, if_pos htail]
      rfl
    · rw [if_neg htail, if_neg htail]
      rfl
  · cases h

omit [DecidableEq κ] in
theorem getElem?_put {q : KeyedQueue κ α} {i j : ℕ} {t t' u : Ticket κ α} (ht : q.tickets[i]? = some t)
    (h : (q.put i t').tickets[j]? = some u) : (j = i ∧ u = t') ∨ (j ≠ i ∧ q.tickets[j]? = some u) := by
  have hlt : i < q.tickets.length := (List.getElem?_eq_some_iff.mp ht).1
  simp only [put, List.getElem?_set, hlt, if_true] at h
  by_cases hij : i = j
  · rw [if_pos hij] at h
    exact Or.inl ⟨hij.symm, (Option.some.inj h).symm⟩
  · rw [if_neg hij] at h
    exact Or.inr ⟨Ne.symm hij, h⟩

omit [DecidableEq κ] in
theorem getElem?_put_self {q : KeyedQueue κ α} {i : ℕ} {t t' : Ticket κ α} (ht : q.tickets[i]? = some t) :
    (q.put i t').tickets[i]? = some t' := by
  have hlt : i < q.tickets.length := (List.getElem?_eq_some_iff.mp ht).1
  simp [put, hlt]

omit [DecidableEq κ] in
/-- A ticket that is not done after a change was there before it. -/
theorem mem_put {q : KeyedQueue κ α} {i : ℕ} {t t' u : Ticket κ α} (ht : q.tickets[i]? = some t)
    (hkey : t'.key = t.key) (howner : t'.owner = t.owner) (hdone : t.isDone = true → t'.isDone = true)
    (hu : u ∈ (q.put i t').tickets) (hopen : u.isDone = false) :
    ∃ v ∈ q.tickets, v.isDone = false ∧ v.key = u.key ∧ v.owner = u.owner := by
  rcases List.mem_or_eq_of_mem_set hu with hu | rfl
  · exact ⟨u, hu, hopen, rfl, rfl⟩
  · refine ⟨t, List.mem_of_getElem? ht, ?_, hkey.symm, howner.symm⟩
    by_contra h
    rw [hdone (Bool.not_eq_false _ ▸ h)] at hopen
    cases hopen

/-! ### The invariant -/

/-- The tickets of a key before a position are done. -/
def ClearBefore (q : KeyedQueue κ α) (j : ℕ) (key : κ) : Prop :=
  ∀ (i : ℕ) (t : Ticket κ α), i < j → q.tickets[i]? = some t → t.key = key → t.isDone = true

/-- What a ticket waits for is the last ticket of its key before it, unless those are all done;
it settles, and it starts, when those are. -/
structure Linked (q : KeyedQueue κ α) : Prop where
  alone : ∀ (j : ℕ) (t : Ticket κ α), q.tickets[j]? = some t → t.waitsFor = none → q.ClearBefore j t.key
  behind : ∀ (j : ℕ) (t : Ticket κ α) (p : ℕ), q.tickets[j]? = some t → t.waitsFor = some p →
    p < j ∧ (∃ tp : Ticket κ α, q.tickets[p]? = some tp ∧ tp.key = t.key) ∧
      ∀ (i : ℕ) (ti : Ticket κ α), i < j → q.tickets[i]? = some ti → ti.key = t.key → i ≤ p
  finished : ∀ (j : ℕ) (t : Ticket κ α), q.tickets[j]? = some t → t.settled = true → t.isDone = true ∧ q.ClearBefore j t.key
  started : ∀ (j : ℕ) (t : Ticket κ α), q.tickets[j]? = some t → t.phase ≠ .waiting → q.ClearBefore j t.key

/-- The map has the last ticket of every key that is not done. -/
structure Tailed (q : KeyedQueue κ α) : Prop where
  last : ∀ k m, q.tails.get? k = some m → (∃ t : Ticket κ α, q.tickets[m]? = some t ∧ t.key = k ∧ t.isDone = false) ∧
    ∀ (i : ℕ) (t : Ticket κ α), q.tickets[i]? = some t → t.key = k → i ≤ m
  free : ∀ k, q.tails.get? k = none → q.ClearBefore q.tickets.length k

/-- What every operation keeps. -/
structure Sound (q : KeyedQueue κ α) : Prop where
  linked : q.Linked
  tailed : q.Tailed

theorem sound_empty : (empty : KeyedQueue κ α).Sound := by
  refine ⟨⟨?_, ?_, ?_, ?_⟩, ⟨?_, ?_⟩⟩
  · intro j t h
    simp [empty] at h
  · intro j t p h
    simp [empty] at h
  · intro j t h
    simp [empty] at h
  · intro j t h
    simp [empty] at h
  · intro k m h
    cases h
  · intro k _ i t hi
    exact absurd hi (Nat.not_lt_zero i)

omit [DecidableEq κ] in
theorem ClearBefore.put {q : KeyedQueue κ α} {i j : ℕ} {k : κ} {t t' : Ticket κ α} (h : q.ClearBefore j k)
    (ht : q.tickets[i]? = some t) (hkey : t'.key = t.key) (hdone : t.isDone = true → t'.isDone = true) :
    (q.put i t').ClearBefore j k := by
  intro n u hn hu hk
  rcases getElem?_put ht hu with ⟨rfl, rfl⟩ | ⟨-, hu⟩
  · exact hdone (h n t hn ht (hkey ▸ hk))
  · exact h n u hn hu hk

omit [DecidableEq κ] in
/-- A ticket that goes on keeps the links. -/
theorem Linked.put {q : KeyedQueue κ α} {i : ℕ} {t t' : Ticket κ α} (h : q.Linked) (ht : q.tickets[i]? = some t)
    (hkey : t'.key = t.key) (hwaits : t'.waitsFor = t.waitsFor) (hdone : t.isDone = true → t'.isDone = true)
    (hover : t'.settled = true → t'.isDone = true ∧ q.ClearBefore i t.key)
    (hstarted : t'.phase ≠ .waiting → q.ClearBefore i t.key) : (q.put i t').Linked := by
  refine ⟨?_, ?_, ?_, ?_⟩
  · intro j u hu hnone
    rcases getElem?_put ht hu with ⟨rfl, rfl⟩ | ⟨-, hu⟩
    · rw [hkey]
      exact (h.alone j t ht (hwaits ▸ hnone)).put ht hkey hdone
    · exact (h.alone j u hu hnone).put ht hkey hdone
  · intro j u p hu hp
    have hold : ∃ v, q.tickets[j]? = some v ∧ v.key = u.key ∧ v.waitsFor = some p := by
      rcases getElem?_put ht hu with ⟨rfl, rfl⟩ | ⟨-, hu⟩
      · exact ⟨t, ht, hkey.symm, hwaits ▸ hp⟩
      · exact ⟨u, hu, rfl, hp⟩
    obtain ⟨v, hv, hvkey, hvp⟩ := hold
    obtain ⟨hlt, ⟨tp, htp, htpkey⟩, hlast⟩ := h.behind j v p hv hvp
    refine ⟨hlt, ?_, ?_⟩
    · by_cases hpi : p = i
      · subst hpi
        have htt : t = tp := Option.some.inj (ht.symm.trans htp)
        exact ⟨t', getElem?_put_self ht, by rw [hkey, htt, htpkey, hvkey]⟩
      · refine ⟨tp, ?_, htpkey.trans hvkey⟩
        rw [KeyedQueue.put, List.getElem?_set_ne (Ne.symm hpi)]
        exact htp
    · intro n tn hn htn hnkey
      rcases getElem?_put ht htn with ⟨rfl, rfl⟩ | ⟨-, htn⟩
      · exact hlast n t hn ht (by rw [← hkey, hnkey, hvkey])
      · exact hlast n tn hn htn (hnkey.trans hvkey.symm)
  · intro j u hu hsettled
    rcases getElem?_put ht hu with ⟨rfl, rfl⟩ | ⟨-, hu⟩
    · rw [hkey]
      exact ⟨(hover hsettled).1, (hover hsettled).2.put ht hkey hdone⟩
    · exact ⟨(h.finished j u hu hsettled).1, (h.finished j u hu hsettled).2.put ht hkey hdone⟩
  · intro j u hu hphase
    rcases getElem?_put ht hu with ⟨rfl, rfl⟩ | ⟨-, hu⟩
    · rw [hkey]
      exact (hstarted hphase).put ht hkey hdone
    · exact (h.started j u hu hphase).put ht hkey hdone

/-- A ticket that is not done afterwards if it was not before keeps the map right. -/
theorem Tailed.put {q : KeyedQueue κ α} {i : ℕ} {t t' : Ticket κ α} (h : q.Tailed) (ht : q.tickets[i]? = some t)
    (hkey : t'.key = t.key) (hdone : t.isDone = true → t'.isDone = true)
    (hopen : q.tails.get? t.key = some i → t'.isDone = false) : (q.put i t').Tailed := by
  refine ⟨?_, ?_⟩
  · intro k m hm
    obtain ⟨⟨u, hu, huk, huo⟩, hlast⟩ := h.last k m hm
    refine ⟨?_, ?_⟩
    · by_cases hmi : m = i
      · subst hmi
        obtain rfl : t = u := Option.some.inj (ht.symm.trans hu)
        refine ⟨t', getElem?_put_self ht, hkey.trans huk, hopen ?_⟩
        rw [huk]
        exact hm
      · refine ⟨u, ?_, huk, huo⟩
        rw [KeyedQueue.put, List.getElem?_set_ne (Ne.symm hmi)]
        exact hu
    · intro n un hun hk
      rcases getElem?_put ht hun with ⟨rfl, rfl⟩ | ⟨-, hun⟩
      · exact hlast n t ht (hkey ▸ hk)
      · exact hlast n un hun hk
  · intro k hk
    have hlen : (q.put i t').tickets.length = q.tickets.length := by simp [KeyedQueue.put]
    rw [hlen]
    exact (h.free k hk).put ht hkey hdone

theorem Sound.register {q : KeyedQueue κ α} (h : q.Sound) (key : κ) (owner : α) : (q.register key owner).Sound := by
  set t : Ticket κ α := ⟨key, owner, q.tails.get? key, .waiting, false⟩ with ht
  have hget : ∀ {j : ℕ} {u : Ticket κ α}, (q.register key owner).tickets[j]? = some u →
      (j = q.tickets.length ∧ u = t) ∨ (j < q.tickets.length ∧ q.tickets[j]? = some u) := by
    intro j u hu
    change (q.tickets ++ [t])[j]? = some u at hu
    rcases Nat.lt_trichotomy j q.tickets.length with hlt | rfl | hgt
    · rw [List.getElem?_append_left hlt] at hu
      exact Or.inr ⟨hlt, hu⟩
    · rw [List.getElem?_concat_length] at hu
      exact Or.inl ⟨rfl, (Option.some.inj hu).symm⟩
    · rw [List.getElem?_eq_none (by simp; omega)] at hu
      cases hu
  have hold : ∀ {j : ℕ} {u : Ticket κ α}, q.tickets[j]? = some u → (q.register key owner).tickets[j]? = some u := by
    intro j u hu
    change (q.tickets ++ [t])[j]? = some u
    rw [List.getElem?_append_left (List.getElem?_eq_some_iff.mp hu).1]
    exact hu
  have hclear : ∀ {j : ℕ} {k : κ}, j ≤ q.tickets.length → q.ClearBefore j k → (q.register key owner).ClearBefore j k := by
    intro j k hj hc i u hi hu hk
    rcases hget hu with ⟨rfl, -⟩ | ⟨-, hu⟩
    · omega
    · exact hc i u hi hu hk
  refine ⟨⟨?_, ?_, ?_, ?_⟩, ⟨?_, ?_⟩⟩
  · intro j u hu hnone
    rcases hget hu with ⟨rfl, rfl⟩ | ⟨hj, hu⟩
    · exact hclear (Nat.le_refl _) (h.tailed.free key hnone)
    · exact hclear (Nat.le_of_lt hj) (h.linked.alone j u hu hnone)
  · intro j u p hu hp
    rcases hget hu with ⟨rfl, rfl⟩ | ⟨hj, hu⟩
    · obtain ⟨⟨tp, htp, htpkey, -⟩, hlast⟩ := h.tailed.last key p hp
      refine ⟨(List.getElem?_eq_some_iff.mp htp).1, ⟨tp, hold htp, htpkey⟩, ?_⟩
      intro i ti hi hti hkey
      rcases hget hti with ⟨rfl, -⟩ | ⟨-, hti⟩
      · omega
      · exact hlast i ti hti hkey
    · obtain ⟨hlt, ⟨tp, htp, htpkey⟩, hlast⟩ := h.linked.behind j u p hu hp
      refine ⟨hlt, ⟨tp, hold htp, htpkey⟩, ?_⟩
      intro i ti hi hti hkey
      rcases hget hti with ⟨rfl, -⟩ | ⟨-, hti⟩
      · omega
      · exact hlast i ti hi hti hkey
  · intro j u hu hsettled
    rcases hget hu with ⟨rfl, rfl⟩ | ⟨hj, hu⟩
    · cases hsettled
    · exact ⟨(h.linked.finished j u hu hsettled).1, hclear (Nat.le_of_lt hj) (h.linked.finished j u hu hsettled).2⟩
  · intro j u hu hphase
    rcases hget hu with ⟨rfl, rfl⟩ | ⟨hj, hu⟩
    · exact absurd rfl hphase
    · exact hclear (Nat.le_of_lt hj) (h.linked.started j u hu hphase)
  · intro k m hm
    change (q.tails.set key q.tickets.length).get? k = some m at hm
    rw [OrdMap.get?_set] at hm
    by_cases hk : k = key
    · subst hk
      rw [if_pos rfl] at hm
      obtain rfl := Option.some.inj hm
      refine ⟨⟨t, by simp [KeyedQueue.register, ht], rfl, rfl⟩, ?_⟩
      intro i u hu _
      rcases hget hu with ⟨rfl, -⟩ | ⟨hi, -⟩
      · exact Nat.le_refl _
      · exact Nat.le_of_lt hi
    · rw [if_neg hk] at hm
      obtain ⟨⟨u, hu, huk, hopen⟩, hlast⟩ := h.tailed.last k m hm
      refine ⟨⟨u, hold hu, huk, hopen⟩, ?_⟩
      intro i v hv hvk
      rcases hget hv with ⟨-, rfl⟩ | ⟨-, hv⟩
      · exact absurd hvk.symm hk
      · exact hlast i v hv hvk
  · intro k hnone
    change (q.tails.set key q.tickets.length).get? k = none at hnone
    rw [OrdMap.get?_set] at hnone
    by_cases hk : k = key
    · rw [if_pos hk] at hnone
      cases hnone
    · rw [if_neg hk] at hnone
      intro i u _ hu huk
      rcases hget hu with ⟨-, rfl⟩ | ⟨hi, hu⟩
      · exact absurd huk.symm hk
      · exact h.tailed.free k hnone i u hi hu huk

omit [DecidableEq κ] in
/-- What a ticket waits for has settled: the tickets of its key before it are done. -/
theorem Linked.clear_of_hasSettled {q : KeyedQueue κ α} (h : q.Linked) {i : ℕ} {t : Ticket κ α}
    (ht : q.tickets[i]? = some t) (hs : q.hasSettled t.waitsFor = true) : q.ClearBefore i t.key := by
  cases hw : t.waitsFor with
  | none => exact h.alone i t ht hw
  | some p =>
    obtain ⟨-, ⟨tp, htp, hkey⟩, hlast⟩ := h.behind i t p ht hw
    rw [hw] at hs
    change q.tickets[p]?.any (·.settled) = true at hs
    rw [htp] at hs
    obtain ⟨hdone, hclear⟩ := h.finished p tp htp hs
    intro n u hn hu hk
    rcases Nat.lt_or_eq_of_le (hlast n u hn hu hk) with hlt | rfl
    · exact hclear n u hlt hu (hk.trans hkey.symm)
    · obtain rfl : tp = u := Option.some.inj (htp.symm.trans hu)
      exact hdone

theorem Sound.start {q q' : KeyedQueue κ α} {i : ℕ} (h : q.Sound) (hstart : q.start i = some q') : q'.Sound := by
  obtain ⟨t, ht, hphase, hs, rfl⟩ := start_eq_some.mp hstart
  have hclear := h.linked.clear_of_hasSettled ht hs
  have hopen : t.isDone = false := by
    unfold Ticket.isDone
    rw [hphase]
  refine ⟨h.linked.put ht rfl rfl ?_ ?_ fun _ => hclear, h.tailed.put ht rfl ?_ fun _ => rfl⟩
  · rw [hopen]
    exact fun hd => by cases hd
  · intro hsettled
    have := (h.linked.finished i t ht hsettled).1
    rw [hopen] at this
    cases this
  · rw [hopen]
    exact fun hd => by cases hd

theorem Sound.settle {q q' : KeyedQueue κ α} {i : ℕ} (h : q.Sound) (hsettle : q.settle i = some q') : q'.Sound := by
  obtain ⟨t, ht, hdone, hs, rfl⟩ := settle_eq_some.mp hsettle
  have hclear := h.linked.clear_of_hasSettled ht hs
  refine ⟨h.linked.put ht rfl rfl id (fun _ => ⟨hdone, hclear⟩) fun _ => hclear, h.tailed.put ht rfl id ?_⟩
  intro htail
  obtain ⟨⟨u, hu, -, hopen⟩, -⟩ := h.tailed.last t.key i htail
  obtain rfl : t = u := Option.some.inj (ht.symm.trans hu)
  exact hopen

theorem Sound.finish {q q' : KeyedQueue κ α} {i : ℕ} {ok : Bool} (h : q.Sound) (hfinish : q.finish i ok = some q') :
    q'.Sound := by
  obtain ⟨t, ht, hphase, rfl⟩ := finish_cases hfinish
  have hopen : t.isDone = false := by
    unfold Ticket.isDone
    rw [hphase]
  have hclear : q.ClearBefore i t.key := h.linked.started i t ht (by rw [hphase]; exact fun hw => by cases hw)
  have hlinked : (q.put i { t with phase := .done ok }).Linked :=
    h.linked.put ht rfl rfl (fun _ => rfl) (fun _ => ⟨rfl, hclear⟩) fun _ => hclear
  by_cases htail : q.tails.get? t.key = some i
  · rw [if_pos htail]
    refine ⟨⟨hlinked.alone, hlinked.behind, hlinked.finished, hlinked.started⟩, ⟨?_, ?_⟩⟩
    · intro k m hm
      change (q.tails.delete t.key).get? k = some m at hm
      rw [OrdMap.get?_delete] at hm
      by_cases hk : k = t.key
      · rw [if_pos hk] at hm
        cases hm
      · rw [if_neg hk] at hm
        obtain ⟨⟨u, hu, huk, huo⟩, hlast⟩ := h.tailed.last k m hm
        refine ⟨⟨u, ?_, huk, huo⟩, ?_⟩
        · have hmi : i ≠ m := by
            rintro rfl
            obtain rfl : t = u := Option.some.inj (ht.symm.trans hu)
            exact hk huk.symm
          change (q.tickets.set i _)[m]? = some u
          rw [List.getElem?_set_ne hmi]
          exact hu
        · intro n v hv hvk
          rcases getElem?_put ht hv with ⟨rfl, rfl⟩ | ⟨-, hv⟩
          · exact absurd hvk.symm hk
          · exact hlast n v hv hvk
    · intro k hnone n u hn hu huk
      change (q.tails.delete t.key).get? k = none at hnone
      rw [OrdMap.get?_delete] at hnone
      rcases getElem?_put ht hu with ⟨rfl, rfl⟩ | ⟨hni, hu⟩
      · rfl
      · by_cases hk : k = t.key
        · subst hk
          have hle := (h.tailed.last t.key i htail).2 n u hu huk
          exact hclear n u (Nat.lt_of_le_of_ne hle hni) hu huk
        · rw [if_neg hk] at hnone
          exact h.tailed.free k hnone n u (List.getElem?_eq_some_iff.mp hu).1 hu huk
  · rw [if_neg htail]
    exact ⟨hlinked, h.tailed.put ht rfl (fun _ => rfl) fun htail' => absurd htail' htail⟩

/-! ### What follows -/

omit [DecidableEq κ] in
/-- **One at a time, in order.** When a ticket runs, the tickets of its key drawn before it
are done. -/
theorem Linked.done_of_running {q : KeyedQueue κ α} (h : q.Linked) {i j : ℕ} {t u : Ticket κ α} (hij : i < j)
    (ht : q.tickets[i]? = some t) (hu : q.tickets[j]? = some u) (hkey : t.key = u.key) (hrun : u.phase = .running) :
    t.isDone = true := by
  refine h.started j u hu ?_ i t hij ht hkey
  rw [hrun]
  exact fun hw => by cases hw

/-- When every ticket is done the map is empty. -/
theorem Tailed.tails_eq_empty {q : KeyedQueue κ α} (h : q.Tailed) (hdone : ∀ t ∈ q.tickets, t.isDone = true) :
    q.tails.pairs = [] := by
  rw [List.eq_nil_iff_forall_not_mem]
  rintro ⟨k, m⟩ hmem
  obtain ⟨⟨t, ht, -, hopen⟩, -⟩ := h.last k m (OrdMap.get?_eq_some.mpr hmem)
  rw [hdone t (List.mem_of_getElem? ht)] at hopen
  cases hopen

omit [DecidableEq κ] in
/-- Promises of some tickets settle, one after the other. -/
def settleAll (q : KeyedQueue κ α) (is : List ℕ) : Option (KeyedQueue κ α) := is.foldlM settle q

omit [DecidableEq κ] in
/-- What stays of the tickets when promises settle. -/
def SamePhases (q q' : KeyedQueue κ α) : Prop :=
  ∀ (j : ℕ) (u : Ticket κ α), q.tickets[j]? = some u → ∃ u', q'.tickets[j]? = some u' ∧ u'.key = u.key ∧
    u'.phase = u.phase ∧ u'.waitsFor = u.waitsFor

omit [DecidableEq κ] in
theorem samePhases_settle {q q' : KeyedQueue κ α} {i : ℕ} (h : q.settle i = some q') : q.SamePhases q' := by
  obtain ⟨t, ht, -, -, rfl⟩ := settle_eq_some.mp h
  intro j u hu
  by_cases hij : j = i
  · subst hij
    obtain rfl : t = u := Option.some.inj (ht.symm.trans hu)
    exact ⟨_, getElem?_put_self ht, rfl, rfl, rfl⟩
  · refine ⟨u, ?_, rfl, rfl, rfl⟩
    rw [put, List.getElem?_set_ne (Ne.symm hij)]
    exact hu

omit [DecidableEq κ] in
theorem SamePhases.trans {q q' q'' : KeyedQueue κ α} (h : q.SamePhases q') (h' : q'.SamePhases q'') :
    q.SamePhases q'' := by
  intro j u hu
  obtain ⟨u', hu', hk, hp, hw⟩ := h j u hu
  obtain ⟨u'', hu'', hk', hp', hw'⟩ := h' j u' hu'
  exact ⟨u'', hu'', hk'.trans hk, hp'.trans hp, hw'.trans hw⟩

/-- What a ticket behind done tickets waits for can settle: the promises before it do first. -/
theorem Sound.exists_settled : ∀ (i : ℕ) {q : KeyedQueue κ α} {t : Ticket κ α}, q.Sound → q.tickets[i]? = some t →
    q.ClearBefore i t.key → ∃ is q', q.settleAll is = some q' ∧ q.SamePhases q' ∧ q'.hasSettled t.waitsFor = true := by
  intro i
  induction i using Nat.strongRecOn with
  | _ i ih =>
    intro q t h ht hclear
    cases hw : t.waitsFor with
    | none => exact ⟨[], q, rfl, fun j u hu => ⟨u, hu, rfl, rfl, rfl⟩, rfl⟩
    | some p =>
      obtain ⟨hlt, ⟨tp, htp, hkey⟩, -⟩ := h.linked.behind i t p ht hw
      have hdone := hclear p tp hlt htp hkey
      have hbefore : q.ClearBefore p tp.key := fun n u hn hu hk =>
        hclear n u (Nat.lt_trans hn hlt) hu (hk.trans hkey)
      obtain ⟨is, q', hrun, hsame, hs⟩ := ih p hlt h htp hbefore
      obtain ⟨t', ht', -, hphase, hwaits⟩ := hsame p tp htp
      have hdone' : t'.isDone = true := by
        unfold Ticket.isDone at hdone ⊢
        rw [hphase]
        exact hdone
      have hsettle : q'.settle p = some (q'.put p { t' with settled := true }) :=
        settle_eq_some.mpr ⟨t', ht', hdone', by rw [hwaits]; exact hs, rfl⟩
      refine ⟨is ++ [p], _, ?_, hsame.trans (samePhases_settle hsettle), ?_⟩
      · rw [settleAll, List.foldlM_append]
        change q.settleAll is >>= _ = _
        rw [hrun]
        change (q'.settle p >>= _) = _
        rw [hsettle]
        rfl
      · change (q'.put p { t' with settled := true }).tickets[p]?.any (·.settled) = true
        rw [getElem?_put_self ht']
        rfl

/-- **A ticket that is done, well or badly, does not block the next one.** A waiting ticket
behind done tickets can start once their promises have settled. -/
theorem Sound.exists_start {q : KeyedQueue κ α} (h : q.Sound) {j : ℕ} {t : Ticket κ α} (ht : q.tickets[j]? = some t)
    (hwaiting : t.phase = .waiting) (hclear : q.ClearBefore j t.key) :
    ∃ is q' q'', q.settleAll is = some q' ∧ q'.start j = some q'' := by
  obtain ⟨is, q', hrun, hsame, hs⟩ := h.exists_settled j ht hclear
  obtain ⟨t', ht', -, hphase, hwaits⟩ := hsame j t ht
  exact ⟨is, q', _, hrun, start_eq_some.mpr ⟨t', ht', hphase.trans hwaiting, by rw [hwaits]; exact hs, rfl⟩⟩

end KeyedQueue

end Trek
