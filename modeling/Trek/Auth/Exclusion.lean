/-
# One call under the lock

Only the call that has the lock is at a stage under it (`Once.holder`). A refresh is such a stage, so in
every run an expired token is refreshed at most once before its provider changes again
(`refreshedOnce_of_run`).
-/
import Trek.Auth.Storage
import Trek.Lib.Machine

namespace Trek.AuthStorage

variable {process : ℕ → ℕ} {known : String → Bool} {s : World} {id inst : ℕ} {o : Outcome}

/-- The stages under the lock. -/
def Stage.holds : Stage → Bool
  | .read _ | .write _ _ _ | .release _ | .readAsync _ | .refresh _ _ | .writeAsync _ _ _ | .releaseAsync => true
  | _ => false

/-- The provider is being refreshed. -/
def Stage.Refreshes (p : String) : Stage → Prop
  | .refresh provider _ => provider = p
  | .writeAsync provider _ _ => provider = p
  | _ => False

/-- The refresh of a provider has begun. -/
def Event.Refreshing (p : String) : Event → Prop
  | .refreshing _ provider => provider = p
  | .changed _ _ _ => False

/-- A provider was changed. -/
def Event.Changed (p : String) : Event → Prop
  | .changed _ provider _ => provider = p
  | .refreshing _ _ => False

/-- Only the call that has the lock is under it, between two refreshes of a provider it changed, and one
that has not changed since is being refreshed. -/
structure Once (s : World) : Prop where
  holder : ∀ id call, s.calls.get? id = some call → call.stage.holds = true → s.lock = some id
  kept : ∀ p, KeptApart (Event.Refreshing p) (Event.Changed p) s.log
  opened : ∀ p, OpenTo (Event.Refreshing p) (Event.Changed p) s.log ∨
    ∃ id call, s.calls.get? id = some call ∧ call.stage.Refreshes p

/-- What a step of a call does with the lock and with refreshes. -/
structure Outcome.Guarded (s : World) (id inst : ℕ) (before : Option Stage) (o : Outcome) : Prop where
  lock : ∀ id', id' ≠ id → s.lock = some id' → o.lock = some id'
  holder : ∀ stage, o.next = some stage → stage.holds = true → o.lock = some id
  event : ∀ e p, o.event = some e → e.Refreshing p → s.lock = some id ∧ (∃ stage, o.next = some stage ∧ stage.Refreshes p) ∧
    ∀ stage, before = some stage → ¬ stage.Refreshes p
  refreshed : ∀ stage p, before = some stage → stage.Refreshes p →
    (∃ stage', o.next = some stage' ∧ stage'.Refreshes p) ∨ ∃ c, o.event = some (.changed inst p c)

theorem Stage.Refreshes.holds {p : String} {stage : Stage} (h : stage.Refreshes p) : stage.holds = true := by
  cases stage <;> first | rfl | exact h.elim

/-- A step of a call keeps the invariant. -/
theorem Once.apply (before : Option Stage) (h : Once s) (hcall : s.calls.get? id = before.map (Call.mk inst))
    (ho : o.Guarded s id inst before) : Once (s.apply id inst o) where
  holder id' call' hcall' hholds := by
    rw [World.get?_calls_apply] at hcall'
    split at hcall'
    · rename_i hid
      obtain ⟨stage, hstage, rfl⟩ := Option.map_eq_some_iff.mp hcall'
      rw [World.apply_lock, hid]
      exact ho.holder stage hstage hholds
    · rename_i hid
      exact ho.lock id' hid (h.holder id' call' hcall' hholds)
  kept p := by
    rw [World.apply_log]
    cases he : o.event with
    | none => simpa using h.kept p
    | some e =>
      refine (h.kept p).concat fun hp => ?_
      obtain ⟨hlock, -, hbefore⟩ := ho.event e p he hp
      refine (h.opened p).resolve_right ?_
      -- the call that refreshes would have the lock that this call has
      rintro ⟨id', call', hcall', hrefreshes⟩
      have hid := h.holder id' call' hcall' hrefreshes.holds
      rw [hlock] at hid
      rw [← Option.some.inj hid, hcall] at hcall'
      obtain ⟨stage, hstage, rfl⟩ := Option.map_eq_some_iff.mp hcall'
      exact hbefore stage hstage hrefreshes
  opened p := by
    rw [World.apply_log]
    rcases h.opened p with hopen | ⟨id', call', hcall', hrefreshes⟩
    · cases he : o.event with
      | none => exact Or.inl (by simpa using hopen)
      | some e =>
        by_cases hp : e.Refreshing p
        · obtain ⟨-, ⟨stage, hstage, hrefreshes⟩, -⟩ := ho.event e p he hp
          refine Or.inr ⟨id, ⟨inst, stage⟩, ?_, hrefreshes⟩
          rw [World.get?_calls_apply, if_pos rfl, hstage, Option.map_some]
        · exact Or.inl (hopen.concat hp)
    by_cases hid : id' = id
    · rw [hid, hcall] at hcall'
      obtain ⟨stage, hstage, rfl⟩ := Option.map_eq_some_iff.mp hcall'
      rcases ho.refreshed stage p hstage hrefreshes with ⟨stage', hnext, hrefreshes'⟩ | ⟨credential, he⟩
      · refine Or.inr ⟨id, ⟨inst, stage'⟩, ?_, hrefreshes'⟩
        rw [World.get?_calls_apply, if_pos rfl, hnext, Option.map_some]
      · rw [he]
        exact Or.inl (openTo_concat_of_sep rfl fun hp => hp)
    · refine Or.inr ⟨id', call', ?_, hrefreshes⟩
      rw [World.get?_calls_apply, if_neg hid, hcall']

end Trek.AuthStorage
