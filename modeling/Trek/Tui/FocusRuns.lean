/-
# Focus over runs

The operations of `TUI` on the focus, in any order and with anything around them. The component of
an overlay that was removed is gone until the caller focuses it again, and what is gone must not get
the focus from an operation (`Inv`). Every operation checks most of what it gives the focus to; what
it does not check is what `Checked` asks for, and `focus_never_gone` is about the runs that meet it.
-/
import Trek.Tui.Focus

namespace Trek.Tui

variable {Component : Type*} [DecidableEq Component]

/-- The operations of `TUI` and of the handles that `showOverlay` returns. -/
inductive FocusOperation (Component : Type*)
  | setFocus (component : Option Component)
  | showOverlay (component : Component) (nonCapturing : Bool)
  | hideOverlay
  | hide (overlay : ℕ)
  | setHidden (overlay : ℕ) (hidden : Bool)
  | focus (overlay : ℕ)
  | unfocus (overlay : ℕ) (unfocusOptions : Option (Option Component))

/-- The focus of `TUI`, and the components of overlays that were removed and that the caller has not
passed to `setFocus` since. -/
structure Watched (Component : Type*) where
  tui : FocusState Component
  gone : List Component

/-- The handle that an operation is called on. -/
def FocusOperation.handle? : FocusOperation Component → Option ℕ
  | hide overlay | setHidden overlay _ | focus overlay | unfocus overlay _ => some overlay
  | _ => none

namespace FocusState

variable (isFocusable : Component → Bool)

/-- An operation. -/
def perform (around : Surroundings Component) (t : FocusState Component) : FocusOperation Component → FocusState Component
  | .setFocus component => t.setFocus isFocusable around component
  | .showOverlay component nonCapturing => t.showOverlay isFocusable around component nonCapturing
  | .hideOverlay => t.hideOverlay isFocusable around
  | .hide overlay => t.hide isFocusable around overlay
  | .setHidden overlay hidden => t.setHidden isFocusable around overlay hidden
  | .focus overlay => t.focus isFocusable around overlay
  | .unfocus overlay unfocusOptions => t.unfocus isFocusable around overlay unfocusOptions

/-- The overlay that an operation takes off the stack. -/
def removes (t : FocusState Component) : FocusOperation Component → Option ℕ
  | .hideOverlay => t.overlayStack.getLast?
  | .hide overlay => if overlay ∈ t.overlayStack then some overlay else none
  | _ => none

/-- Nothing has the focus and no overlay was shown. -/
def start (component : Component) : FocusState Component where
  focusedComponent := none
  focused := fun _ => false
  shown := 0
  entry := fun _ => ⟨component, false, none, false, 0⟩
  overlayStack := []
  overlayFocusRestore := .inactive
  focusOrderCounter := 0

/-- The component of an overlay on the stack. -/
def OnStack (t : FocusState Component) (component : Component) : Prop :=
  ∃ overlay ∈ t.overlayStack, (t.entry overlay).component = component

end FocusState

namespace Watched

variable (isFocusable : Component → Bool)

/-- The component of an overlay that was removed and that is not the component of another one. -/
def Gone (w : Watched Component) (component : Component) : Prop := component ∈ w.gone ∧ ¬w.tui.OnStack component

/-- An operation, on a handle that there is. -/
def step (w : Watched Component) (input : Surroundings Component × FocusOperation Component) : Option (Watched Component) :=
  if (input.2.handle?.all (· < w.tui.shown)) = true then
    some {
      tui := w.tui.perform isFocusable input.1 input.2
      gone :=
        match input.2, w.tui.removes input.2 with
        | .setFocus (some component), _ => w.gone.filter (· ≠ component)
        | _, some overlay => (w.tui.entry overlay).component :: w.gone
        | _, none => w.gone }
  else none

def start (component : Component) : Watched Component := ⟨FocusState.start component, []⟩

/-- The overlay that leaves the stack is not the last to have its component while that is where an
overlay, or the one that has the focus, would go back to, or what an overlay is to resume with. -/
def RemovalChecked (w : Watched Component) (overlay : ℕ) : Prop :=
  (∃ other ∈ w.tui.overlayStack, other ≠ overlay ∧ (w.tui.entry other).component = (w.tui.entry overlay).component) ∨
    ((w.tui.entry overlay).preFocus = some (w.tui.entry overlay).component →
        w.tui.focusedComponent ≠ some (w.tui.entry overlay).component ∧
          ∀ other ∈ w.tui.overlayStack, other ≠ overlay →
            (w.tui.entry other).preFocus ≠ some (w.tui.entry overlay).component) ∧
      (w.tui.overlayFocusRestore.overlay? = some overlay ∨
        w.tui.overlayFocusRestore.target? ≠ some (w.tui.entry overlay).component)

/-- An overlay that has left the stack has the focus and no other one is visible: it goes back to the
component that it remembers, which is not gone. -/
def ReleaseChecked (w : Watched Component) (visible : ℕ → Bool) (overlay : ℕ) : Prop :=
  w.tui.focusedComponent = some (w.tui.entry overlay).component → w.tui.getTopmostVisibleOverlay visible = none →
    ∀ component, (w.tui.entry overlay).preFocus = some component → ¬w.Gone component

/-- What an operation does not check itself. -/
def Checked (w : Watched Component) (input : Surroundings Component × FocusOperation Component) : Prop :=
  match input.2 with
  | .setFocus _ | .showOverlay _ _ | .focus _ => True
  | .hideOverlay => ∀ overlay, w.tui.overlayStack.getLast? = some overlay → w.RemovalChecked overlay
  | .hide overlay => overlay ∈ w.tui.overlayStack → w.RemovalChecked overlay
  | .setHidden overlay true =>
    overlay ∉ w.tui.overlayStack → (w.tui.entry overlay).hidden = false → w.ReleaseChecked (input.1.visible 3) overlay
  | .setHidden overlay false =>
    overlay ∉ w.tui.overlayStack → (w.tui.entry overlay).hidden = true → (w.tui.entry overlay).nonCapturing = false →
      input.1.visible 3 overlay = true → ¬w.Gone (w.tui.entry overlay).component
  | .unfocus overlay none => overlay ∉ w.tui.overlayStack → w.ReleaseChecked (input.1.visible 3) overlay
  | .unfocus overlay (some target) =>
    w.tui.focusedComponent = some (w.tui.entry overlay).component ∨ w.tui.overlayFocusRestore.overlay? = some overlay →
      ∀ component, target = some component → ¬w.Gone component

end Watched

/-! ### Giving the focus -/

namespace FocusState

variable {isFocusable : Component → Bool} {around : Surroundings Component} {t t' : FocusState Component}
  {component : Option Component}

section Relations

omit [DecidableEq Component]

/-- The overlays of two states have the same components and go back to the same ones. -/
structure SameOverlays (t t' : FocusState Component) : Prop where
  overlayStack : t'.overlayStack = t.overlayStack
  shown : t'.shown = t.shown
  component : ∀ overlay, (t'.entry overlay).component = (t.entry overlay).component
  preFocus : ∀ overlay, (t'.entry overlay).preFocus = (t.entry overlay).preFocus

theorem SameOverlays.refl (t : FocusState Component) : SameOverlays t t := ⟨rfl, rfl, fun _ => rfl, fun _ => rfl⟩

theorem SameOverlays.trans {t'' : FocusState Component} (h : SameOverlays t t') (h' : SameOverlays t' t'') :
    SameOverlays t t'' :=
  ⟨h'.overlayStack.trans h.overlayStack, h'.shown.trans h.shown, fun o => (h'.component o).trans (h.component o),
    fun o => (h'.preFocus o).trans (h.preFocus o)⟩

theorem SameOverlays.onStack (h : SameOverlays t t') {c : Component} : t'.OnStack c ↔ t.OnStack c := by
  simp [OnStack, h.overlayStack, h.component]

/-- A state and the component that is to get the focus, in place of `component`: it is the component of
an overlay or what an overlay is to resume with, if it is another one. -/
structure Resolved (t : FocusState Component) (r : FocusState Component × Option Component)
    (component : Option Component) : Prop where
  same : SameOverlays t r.1
  focusedComponent : r.1.focusedComponent = t.focusedComponent
  focused : r.1.focused = t.focused
  focus : ∀ c, r.2 = some c → component = some c ∨ t.OnStack c ∨ t.overlayFocusRestore.target? = some c
  target : ∀ c, r.1.overlayFocusRestore.target? = some c → t.overlayFocusRestore.target? = some c

theorem Resolved.self (t : FocusState Component) (component : Option Component) : Resolved t (t, component) component :=
  ⟨.refl t, rfl, rfl, fun _ hc => Or.inl hc, fun _ hc => hc⟩

/-- Another state of the overlays that has no component to resume with. -/
theorem Resolved.noTarget (t : FocusState Component) (component : Option Component)
    {restore : OverlayFocusRestoreState Component} (h : restore.target? = none) :
    Resolved t ({ t with overlayFocusRestore := restore }, component) component :=
  ⟨⟨rfl, rfl, fun _ => rfl, fun _ => rfl⟩, rfl, rfl, fun _ hc => Or.inl hc, fun c hc => by
    rw [show restore.target? = some c from hc] at h
    cases h⟩

/-- The overlay that is resumed is on the stack, or there is a component to resume with. -/
theorem Resolved.resume {overlay : ℕ} {blockedBy : Component} {resume : OverlayBlockedFocusResume Component}
    (h : t.overlayFocusRestore = .blocked overlay blockedBy resume) (hmem : overlay ∈ t.overlayStack)
    (component : Option Component) : Resolved t (t.resolveBlockedOverlayFocusResume overlay resume) component := by
  cases resume with
  | restoreOverlay =>
    refine ⟨.refl t, rfl, rfl, fun c hc => Or.inr (Or.inl ⟨overlay, hmem, ?_⟩), fun _ hc => hc⟩
    exact Option.some.inj hc
  | focusTarget target =>
    refine ⟨⟨rfl, rfl, fun _ => rfl, fun _ => rfl⟩, rfl, rfl, fun c hc => Or.inr (Or.inr ?_), fun c hc => by cases hc⟩
    rw [h]
    exact hc

theorem getVisibleOverlayFocusRestore_cases (t : FocusState Component) (visible : ℕ → Bool) :
    t.getVisibleOverlayFocusRestore visible = .inactive ∨
      t.getVisibleOverlayFocusRestore visible = t.overlayFocusRestore ∧
        ∀ overlay, t.overlayFocusRestore.overlay? = some overlay → overlay ∈ t.overlayStack := by
  unfold getVisibleOverlayFocusRestore
  cases hoverlay : t.overlayFocusRestore.overlay? with
  | none => exact Or.inl rfl
  | some overlay =>
    dsimp only
    split
    · exact Or.inl rfl
    · next h =>
      refine Or.inr ⟨rfl, fun o ho => ?_⟩
      obtain rfl := Option.some.inj ho
      have hboth : overlay ∈ t.overlayStack ∧ t.isOverlayVisible visible overlay = true := by simpa using h
      exact hboth.1

end Relations

theorem resolved_leave (around : Surroundings Component) (t : FocusState Component) (nextFocus : Component) :
    Resolved t
      (match t.focusedComponent.bind (t.findVisibleOverlay (around.visible 0)) with
      | some overlay =>
        if (t.getVisibleOverlayFocusRestore (around.visible 1)).overlay? = some overlay ∧
            t.isOverlayFocusAncestor overlay nextFocus = false then
          ({ t with overlayFocusRestore := .blocked overlay nextFocus .restoreOverlay }, some nextFocus)
        else (t, some nextFocus)
      | none => (t, some nextFocus)) (some nextFocus) := by
  split
  · split
    · exact .noTarget t _ rfl
    · exact .self t _
  · exact .self t _

theorem resolved_resolveNextFocus (around : Surroundings Component) (t : FocusState Component)
    (component : Option Component) (policy : OverlayFocusRestorePolicy) :
    Resolved t (resolveNextFocus around t component policy) component := by
  have hrestore := t.getVisibleOverlayFocusRestore_cases (around.visible 1)
  -- a state that is blocked is the one that is kept, and its overlay is on the stack
  have hblocked : ∀ {overlay blockedBy resume},
      t.getVisibleOverlayFocusRestore (around.visible 1) = .blocked overlay blockedBy resume →
        t.overlayFocusRestore = .blocked overlay blockedBy resume ∧ overlay ∈ t.overlayStack := by
    intro overlay blockedBy resume h
    rcases hrestore with hnone | ⟨hsame, hmem⟩
    · rw [hnone] at h
      cases h
    · have hstate := hsame.symm.trans h
      exact ⟨hstate, hmem overlay (by rw [hstate]; rfl)⟩
  cases component with
  | none =>
    have hclears : Resolved t (if policy = .clear then t.clearOverlayFocusRestore else t, none) none := by
      by_cases hpolicy : policy = .clear
      · rw [if_pos hpolicy]
        exact .noTarget t none rfl
      · rw [if_neg hpolicy]
        exact .self t none
    unfold resolveNextFocus
    dsimp only
    split
    · next h =>
      split
      · exact .resume (hblocked h).1 (hblocked h).2 none
      · exact hclears
    · exact hclears
  | some nextFocus =>
    have hleaves := resolved_leave around t nextFocus
    unfold resolveNextFocus
    dsimp only
    split
    · exact .self t _
    · split
      · next h =>
        split
        · split
          · exact .resume (hblocked h).1 (hblocked h).2 _
          · split
            · exact .noTarget t _ rfl
            · exact .resume (hblocked h).1 (hblocked h).2 _
        · exact hleaves
      · exact hleaves

/-- What `setFocusInternal` does: the overlays stay, and the focus goes where `resolveNextFocus` says. -/
structure Refocused (isFocusable : Component → Bool) (t t' : FocusState Component) (component : Option Component) :
    Prop where
  same : SameOverlays t t'
  focus : ∀ c, t'.focusedComponent = some c → component = some c ∨ t.OnStack c ∨ t.overlayFocusRestore.target? = some c
  target : ∀ c, t'.overlayFocusRestore.target? = some c → t.overlayFocusRestore.target? = some c
  focused : (∀ c, isFocusable c = true → (t.focused c = true ↔ t.focusedComponent = some c)) →
    ∀ c, isFocusable c = true → (t'.focused c = true ↔ t'.focusedComponent = some c)

theorem giveFocus_focused (nextFocus : Option Component)
    (h : ∀ c, isFocusable c = true → (t.focused c = true ↔ t.focusedComponent = some c)) {c : Component}
    (hc : isFocusable c = true) : (giveFocus isFocusable t nextFocus).focused c = true ↔ nextFocus = some c := by
  show (if isFocusable c ∧ nextFocus = some c then true
    else if isFocusable c ∧ t.focusedComponent = some c then false else t.focused c) = true ↔ nextFocus = some c
  by_cases hnext : nextFocus = some c
  · simp [hc, hnext]
  · have hold := h c hc
    by_cases hprevious : t.focusedComponent = some c
    · simp [hc, hnext, hprevious]
    · simp [hc, hnext, hprevious, hold]

theorem refocused_setFocus (isFocusable : Component → Bool) (around : Surroundings Component)
    (t : FocusState Component) (component : Option Component) :
    Refocused isFocusable t (t.setFocus isFocusable around component) component := by
  have hresolved := resolved_resolveNextFocus around t component .clear
  unfold setFocus setFocusInternal
  generalize resolveNextFocus around t component .clear = r at hresolved
  obtain ⟨u, nextFocus⟩ := r
  have hfocused : (∀ c, isFocusable c = true → (t.focused c = true ↔ t.focusedComponent = some c)) →
      ∀ c, isFocusable c = true → ((giveFocus isFocusable u nextFocus).focused c = true ↔ nextFocus = some c) := by
    intro h c hc
    refine giveFocus_focused nextFocus (fun c hc => ?_) hc
    have hf := hresolved.focused
    have hg := hresolved.focusedComponent
    dsimp only at hf hg
    rw [hf, hg]
    exact h c hc
  obtain ⟨hsame, -, -, hfocus, htarget⟩ := hresolved
  have hgiven : SameOverlays t (giveFocus isFocusable u nextFocus) :=
    ⟨hsame.overlayStack, hsame.shown, hsame.component, hsame.preFocus⟩
  dsimp only
  split
  · exact ⟨⟨hgiven.overlayStack, hgiven.shown, hgiven.component, hgiven.preFocus⟩, hfocus, (fun c hc => by cases hc), hfocused⟩
  · exact ⟨hgiven, hfocus, htarget, hfocused⟩

/-! ### What operations keep -/

/-- Nothing that an operation could give the focus to is in `D`. -/
structure Clear (t : FocusState Component) (D : Component → Prop) : Prop where
  preFocus : ∀ overlay ∈ t.overlayStack, ∀ c, (t.entry overlay).preFocus = some c → ¬D c
  target : ∀ c, t.overlayFocusRestore.target? = some c → ¬D c
  onStack : ∀ c, t.OnStack c → ¬D c

/-- What has the focus is not in `D`, and the component that has the focus is the one that knows it. -/
structure Settled (isFocusable : Component → Bool) (t : FocusState Component) (D : Component → Prop) : Prop where
  clear : Clear t D
  focus : ∀ c, t.focusedComponent = some c → ¬D c
  focused : ∀ c, isFocusable c = true → (t.focused c = true ↔ t.focusedComponent = some c)

variable {D : Component → Prop}

omit [DecidableEq Component] in
theorem Clear.of_same (h : Clear t D) (hsame : SameOverlays t t')
    (htarget : ∀ c, t'.overlayFocusRestore.target? = some c → ¬D c) : Clear t' D where
  preFocus := fun overlay hoverlay c hc =>
    h.preFocus overlay (hsame.overlayStack ▸ hoverlay) c ((hsame.preFocus overlay).symm.trans hc)
  target := htarget
  onStack := fun c hc => h.onStack c (hsame.onStack.mp hc)

/-- The focus goes to something outside of `D`. -/
theorem Clear.setFocus (h : Clear t D) (hcomponent : ∀ c, component = some c → ¬D c)
    (hfocused : ∀ c, isFocusable c = true → (t.focused c = true ↔ t.focusedComponent = some c))
    (around : Surroundings Component) : Settled isFocusable (t.setFocus isFocusable around component) D := by
  obtain ⟨hsame, hfocus, htarget, hflags⟩ := refocused_setFocus isFocusable around t component
  refine ⟨h.of_same hsame fun c hc => h.target c (htarget c hc), fun c hc => ?_, hflags hfocused⟩
  rcases hfocus c hc with hgiven | honStack | hresumed
  · exact hcomponent c hgiven
  · exact h.onStack c honStack
  · exact h.target c hresumed

omit [DecidableEq Component] in
theorem frontmost_eq_some {visible : ℕ → Bool} {topmost : Option ℕ} {overlay top : ℕ}
    (h : t.frontmost visible topmost overlay = some top) : topmost = some top ∨ overlay = top := by
  unfold frontmost at h
  split at h
  · exact Or.inl h
  · split at h
    · exact Or.inr (Option.some.inj h)
    · split at h
      · exact Or.inr (Option.some.inj h)
      · exact Or.inl h

omit [DecidableEq Component] in
theorem getTopmostVisibleOverlay_mem {visible : ℕ → Bool} {top : ℕ} (h : t.getTopmostVisibleOverlay visible = some top) :
    top ∈ t.overlayStack := by
  have hfold : ∀ (l : List ℕ) (topmost : Option ℕ), l.foldl (t.frontmost visible) topmost = some top →
      topmost = some top ∨ top ∈ l := by
    intro l
    induction l with
    | nil => exact fun _ h => Or.inl h
    | cons overlay l ih =>
      intro topmost h
      rcases ih _ h with hfront | hmem
      · rcases frontmost_eq_some hfront with htop | rfl
        · exact Or.inl htop
        · exact Or.inr List.mem_cons_self
      · exact Or.inr (List.mem_cons_of_mem overlay hmem)
  exact (hfold t.overlayStack none h).resolve_left nofun

omit [DecidableEq Component] in
/-- An overlay that has left the stack is not asked for. -/
theorem getTopmostVisibleOverlay_setHidden {visible : ℕ → Bool} {overlay : ℕ} (h : overlay ∉ t.overlayStack) (hidden : Bool) :
    (t.setEntry overlay { t.entry overlay with hidden }).getTopmostVisibleOverlay visible =
      t.getTopmostVisibleOverlay visible := by
  refine List.foldl_ext _ _ none fun topmost other hother => ?_
  have hne : other ≠ overlay := fun heq => h (heq ▸ hother)
  have horder : ∀ top, (Function.update t.entry overlay { t.entry overlay with hidden } top).focusOrder =
      (t.entry top).focusOrder := by
    intro top
    by_cases htop : top = overlay
    · rw [htop, Function.update_self]
    · rw [Function.update_of_ne htop]
  simp only [frontmost, isOverlayVisible, setEntry, horder, Function.update_of_ne hne]
  rfl

/-- An overlay hands the focus back to an overlay on the stack, or to the component that it remembers. -/
theorem Clear.releaseFocus (h : Clear t D) (overlay : ℕ)
    (hfocus : ∀ c, t.focusedComponent = some c → c = (t.entry overlay).component ∨ ¬D c)
    (hpreFocus : t.focusedComponent = some (t.entry overlay).component →
      t.getTopmostVisibleOverlay (around.visible 3) = none → ∀ c, (t.entry overlay).preFocus = some c → ¬D c)
    (hfocused : ∀ c, isFocusable c = true → (t.focused c = true ↔ t.focusedComponent = some c)) :
    Settled isFocusable (t.releaseFocus isFocusable around overlay) D := by
  unfold FocusState.releaseFocus
  split
  · next hcomponent =>
    split
    · next top htop =>
      refine h.setFocus (fun c hc => ?_) hfocused around
      exact h.onStack c ⟨top, getTopmostVisibleOverlay_mem htop, Option.some.inj hc⟩
    · next htop => exact h.setFocus (hpreFocus hcomponent htop) hfocused around
  · next hcomponent =>
    refine ⟨h, fun c hc => ?_, hfocused⟩
    refine (hfocus c hc).resolve_left fun heq => hcomponent ?_
    rw [hc, heq]

theorem sameOverlays_releaseFocus (isFocusable : Component → Bool) (around : Surroundings Component)
    (t : FocusState Component) (overlay : ℕ) : SameOverlays t (t.releaseFocus isFocusable around overlay) := by
  unfold FocusState.releaseFocus
  split
  · split
    · exact (refocused_setFocus isFocusable around t _).same
    · exact (refocused_setFocus isFocusable around t _).same
  · exact .refl t

omit [DecidableEq Component] in
/-- Other fields of an overlay. -/
theorem sameOverlays_setEntry {overlay : ℕ} {entry : OverlayStackEntry Component}
    (hcomponent : entry.component = (t.entry overlay).component) (hpreFocus : entry.preFocus = (t.entry overlay).preFocus) :
    SameOverlays t (t.setEntry overlay entry) := by
  have hentry : ∀ o, o = overlay ∧ (t.setEntry overlay entry).entry o = entry ∨
      (t.setEntry overlay entry).entry o = t.entry o := by
    intro o
    by_cases ho : o = overlay
    · exact Or.inl ⟨ho, by rw [ho]; exact Function.update_self ..⟩
    · exact Or.inr (Function.update_of_ne ho ..)
  refine ⟨rfl, rfl, fun o => ?_, fun o => ?_⟩
  · rcases hentry o with ⟨rfl, ho⟩ | ho
    · rw [ho, hcomponent]
    · rw [ho]
  · rcases hentry o with ⟨rfl, ho⟩ | ho
    · rw [ho, hpreFocus]
    · rw [ho]

omit [DecidableEq Component] in
theorem sameOverlays_bringToFront (t : FocusState Component) (overlay : ℕ) : SameOverlays t (t.bringToFront overlay) := by
  have h : SameOverlays t (t.setEntry overlay { t.entry overlay with focusOrder := t.focusOrderCounter + 1 }) :=
    sameOverlays_setEntry rfl rfl
  exact ⟨h.overlayStack, h.shown, h.component, h.preFocus⟩

omit [DecidableEq Component] in
theorem clearOverlayFocusRestoreFor_eq (t : FocusState Component) (overlay : ℕ) :
    t.clearOverlayFocusRestoreFor overlay =
      { t with
        overlayFocusRestore :=
          if t.overlayFocusRestore.overlay? = some overlay then .inactive else t.overlayFocusRestore } := by
  unfold clearOverlayFocusRestoreFor
  split <;> rfl

omit [DecidableEq Component] in
theorem target_clearFor {overlay : ℕ} {c : Component}
    (h : (t.clearOverlayFocusRestoreFor overlay).overlayFocusRestore.target? = some c) :
    t.overlayFocusRestore.overlay? ≠ some overlay ∧ t.overlayFocusRestore.target? = some c := by
  rw [clearOverlayFocusRestoreFor_eq] at h
  dsimp only at h
  split at h
  · cases h
  · next hne => exact ⟨hne, h⟩

omit [DecidableEq Component] in
theorem sameOverlays_clearFor (t : FocusState Component) (overlay : ℕ) :
    SameOverlays t (t.clearOverlayFocusRestoreFor overlay) := by
  rw [clearOverlayFocusRestoreFor_eq]
  exact ⟨rfl, rfl, fun _ => rfl, fun _ => rfl⟩

omit [DecidableEq Component] in
theorem Settled.clearFor (h : Settled isFocusable t D) (overlay : ℕ) :
    Settled isFocusable (t.clearOverlayFocusRestoreFor overlay) D := by
  refine ⟨h.clear.of_same (sameOverlays_clearFor t overlay) fun c hc => h.clear.target c (target_clearFor hc).2, ?_, ?_⟩
  · rw [clearOverlayFocusRestoreFor_eq]
    exact h.focus
  · rw [clearOverlayFocusRestoreFor_eq]
    exact h.focused

/-- `setHidden`: an overlay that has left the stack is checked. -/
theorem Settled.setHidden (h : Settled isFocusable t D) (overlay : ℕ) (hidden : Bool)
    (hrelease : overlay ∉ t.overlayStack → hidden = true → (t.entry overlay).hidden = false →
      t.focusedComponent = some (t.entry overlay).component → t.getTopmostVisibleOverlay (around.visible 3) = none →
        ∀ c, (t.entry overlay).preFocus = some c → ¬D c)
    (hshow : overlay ∉ t.overlayStack → hidden = false → (t.entry overlay).hidden = true →
      (t.entry overlay).nonCapturing = false → around.visible 3 overlay = true → ¬D (t.entry overlay).component) :
    SameOverlays t (t.setHidden isFocusable around overlay hidden) ∧
      Settled isFocusable (t.setHidden isFocusable around overlay hidden) D := by
  unfold FocusState.setHidden
  split
  · exact ⟨.refl t, h⟩
  · next hchanged =>
    dsimp only
    generalize hu : t.setEntry overlay { t.entry overlay with hidden } = u
    have hsame : SameOverlays t u := hu ▸ sameOverlays_setEntry rfl rfl
    have hsettled : Settled isFocusable u D := by
      refine ⟨h.clear.of_same hsame ?_, ?_, ?_⟩
      · rw [← hu]
        exact h.clear.target
      · rw [← hu]
        exact h.focus
      · rw [← hu]
        exact h.focused
    have hentry : u.entry overlay = { t.entry overlay with hidden } := by rw [← hu]; exact Function.update_self ..
    cases hidden with
    | true =>
      rw [if_pos rfl]
      have hcleared := hsettled.clearFor overlay
      refine ⟨(hsame.trans (sameOverlays_clearFor u overlay)).trans (sameOverlays_releaseFocus ..),
        hcleared.clear.releaseFocus overlay (fun c hc => Or.inr (hcleared.focus c hc)) ?_ hcleared.focused⟩
      intro hcomponent htopmost c hc
      by_cases hmem : overlay ∈ t.overlayStack
      · exact hcleared.clear.preFocus overlay (by rwa [(sameOverlays_clearFor u overlay).overlayStack, hsame.overlayStack]) c hc
      · rw [clearOverlayFocusRestoreFor_eq] at hcomponent htopmost hc
        dsimp only at hcomponent hc
        rw [hentry] at hcomponent hc
        refine hrelease hmem rfl (by simpa using hchanged) ?_ ?_ c hc
        · rw [← hu] at hcomponent
          exact hcomponent
        · rw [← getTopmostVisibleOverlay_setHidden hmem true, hu]
          exact htopmost
    | false =>
      rw [if_neg Bool.false_ne_true]
      split
      · next hvisible =>
        rw [hentry, isOverlayVisible, hentry, Bool.and_eq_true, Bool.and_eq_true] at hvisible
        have horder := sameOverlays_bringToFront u overlay
        have hsettled' := hsettled.clear.of_same horder hsettled.clear.target
        refine ⟨(hsame.trans horder).trans (refocused_setFocus ..).same, hsettled'.setFocus (fun c hc => ?_) hsettled.focused around⟩
        obtain rfl := Option.some.inj hc
        by_cases hmem : overlay ∈ t.overlayStack
        · exact hsettled.clear.onStack _ ⟨overlay, by rwa [hsame.overlayStack], rfl⟩
        · rw [hsame.component]
          exact hshow hmem rfl (by simpa using hchanged) (by simpa using hvisible.1) hvisible.2.2
      · exact ⟨hsame, hsettled⟩

/-- `focus` checks that the overlay is on the stack. -/
theorem Settled.focus_handle (h : Settled isFocusable t D) (around : Surroundings Component) (overlay : ℕ) :
    SameOverlays t (FocusState.focus isFocusable around t overlay) ∧
      Settled isFocusable (FocusState.focus isFocusable around t overlay) D := by
  unfold FocusState.focus
  split
  · next hmem =>
    have hsame := sameOverlays_bringToFront t overlay
    have hclear := h.clear.of_same hsame h.clear.target
    refine ⟨hsame.trans (refocused_setFocus ..).same, hclear.setFocus (fun c hc => ?_) h.focused around⟩
    exact h.clear.onStack c ⟨overlay, hmem.1, Option.some.inj hc⟩
  · exact ⟨.refl t, h⟩

omit [DecidableEq Component] in
theorem Clear.fallbackTarget (h : Clear t D) {visible : ℕ → Bool} {overlay : ℕ}
    (hrelease : overlay ∉ t.overlayStack → t.getTopmostVisibleOverlay visible = none →
      ∀ c, (t.entry overlay).preFocus = some c → ¬D c) :
    ∀ c, t.fallbackTarget visible overlay = some c → ¬D c := by
  intro c hc
  unfold FocusState.fallbackTarget at hc
  split at hc
  · next top htop =>
    have hmem := getTopmostVisibleOverlay_mem htop
    split at hc
    · exact h.onStack c ⟨top, hmem, Option.some.inj hc⟩
    · next heq => exact h.preFocus overlay (not_not.mp heq ▸ hmem) c hc
  · next htop =>
    by_cases hmem : overlay ∈ t.overlayStack
    · exact h.preFocus overlay hmem c hc
    · exact hrelease hmem htop c hc

/-- `unfocus`: a target is checked, and so is an overlay that has left the stack. -/
theorem Settled.unfocus (h : Settled isFocusable t D) (overlay : ℕ) (unfocusOptions : Option (Option Component))
    (htarget : t.focusedComponent = some (t.entry overlay).component ∨ t.overlayFocusRestore.overlay? = some overlay →
      ∀ c, unfocusOptions = some (some c) → ¬D c)
    (hrelease : overlay ∉ t.overlayStack → unfocusOptions = none →
      t.focusedComponent = some (t.entry overlay).component → t.getTopmostVisibleOverlay (around.visible 3) = none →
        ∀ c, (t.entry overlay).preFocus = some c → ¬D c) :
    SameOverlays t (t.unfocus isFocusable around overlay unfocusOptions) ∧
      Settled isFocusable (t.unfocus isFocusable around overlay unfocusOptions) D := by
  unfold FocusState.unfocus
  split
  · exact ⟨.refl t, h⟩
  · next hidle =>
    have htarget := htarget (by tauto)
    have hto : SameOverlays t (t.unfocusTo isFocusable around overlay unfocusOptions) ∧
        Settled isFocusable (t.unfocusTo isFocusable around overlay unfocusOptions) D := by
      have hcleared := h.clearFor overlay
      have hsame := sameOverlays_clearFor t overlay
      unfold FocusState.unfocusTo
      cases unfocusOptions with
      | some target =>
        refine ⟨hsame.trans (refocused_setFocus ..).same, hcleared.clear.setFocus (fun c hc => ?_) hcleared.focused around⟩
        exact htarget c (congrArg some hc)
      | none =>
        dsimp only
        split
        · next hfocused =>
          refine ⟨hsame.trans (refocused_setFocus ..).same,
            hcleared.clear.setFocus (hcleared.clear.fallbackTarget fun hmem htopmost c hc => ?_) hcleared.focused around⟩
          rw [clearOverlayFocusRestoreFor_eq] at hfocused hmem htopmost hc
          exact hrelease hmem rfl hfocused htopmost c hc
        · exact ⟨hsame, hcleared⟩
    split
    · split
      · split
        · next target =>
          refine ⟨⟨rfl, rfl, fun _ => rfl, fun _ => rfl⟩, ⟨h.clear.of_same ⟨rfl, rfl, fun _ => rfl, fun _ => rfl⟩ fun c hc => ?_,
            h.focus, h.focused⟩⟩
          exact htarget c (congrArg some hc)
        · exact ⟨⟨rfl, rfl, fun _ => rfl, fun _ => rfl⟩,
            ⟨h.clear.of_same ⟨rfl, rfl, fun _ => rfl, fun _ => rfl⟩ fun c hc => (by cases hc), h.focus, h.focused⟩⟩
      · exact hto
    · exact hto

theorem removeOverlay_entry (t : FocusState Component) (overlay : ℕ) (overlayStack : List ℕ) (o : ℕ) :
    (t.removeOverlay overlay overlayStack).entry o =
      if o ∈ t.overlayStack ∧ o ≠ overlay ∧ (t.entry o).preFocus = some (t.entry overlay).component then
        { t.entry o with preFocus := (t.entry overlay).preFocus }
      else t.entry o := by
  unfold removeOverlay
  rw [clearOverlayFocusRestoreFor_eq]
  rfl

theorem removeOverlay_component (t : FocusState Component) (overlay : ℕ) (overlayStack : List ℕ) (o : ℕ) :
    ((t.removeOverlay overlay overlayStack).entry o).component = (t.entry o).component := by
  rw [removeOverlay_entry]
  split <;> rfl

theorem removeOverlay_self (t : FocusState Component) (overlay : ℕ) (overlayStack : List ℕ) :
    (t.removeOverlay overlay overlayStack).entry overlay = t.entry overlay := by
  rw [removeOverlay_entry, if_neg fun h => h.2.1 rfl]

theorem target_removeOverlay {overlay : ℕ} {overlayStack : List ℕ} {c : Component}
    (h : (t.removeOverlay overlay overlayStack).overlayFocusRestore.target? = some c) :
    t.overlayFocusRestore.overlay? ≠ some overlay ∧ t.overlayFocusRestore.target? = some c := target_clearFor h

theorem removeOverlay_focusedComponent (t : FocusState Component) (overlay : ℕ) (overlayStack : List ℕ) :
    (t.removeOverlay overlay overlayStack).focusedComponent = t.focusedComponent := by
  unfold removeOverlay
  rw [clearOverlayFocusRestoreFor_eq]
  rfl

theorem removeOverlay_focused (t : FocusState Component) (overlay : ℕ) (overlayStack : List ℕ) :
    (t.removeOverlay overlay overlayStack).focused = t.focused := by
  unfold removeOverlay
  rw [clearOverlayFocusRestoreFor_eq]
  rfl

/-- An overlay leaves the stack, and hands the focus back. -/
theorem Settled.remove {overlay : ℕ} {overlayStack : List ℕ} {gone : List Component}
    (h : Settled isFocusable t (Watched.mk t gone).Gone) (hmem : overlay ∈ t.overlayStack)
    (hsub : ∀ o ∈ overlayStack, o ∈ t.overlayStack) (hrest : ∀ o ∈ t.overlayStack, o ≠ overlay → o ∈ overlayStack)
    (hchecked : (Watched.mk t gone).RemovalChecked overlay) (around : Surroundings Component) :
    Settled isFocusable ((t.removeOverlay overlay overlayStack).releaseFocus isFocusable around overlay)
      (Watched.mk (t.removeOverlay overlay overlayStack) ((t.entry overlay).component :: gone)).Gone := by
  generalize hremoved : t.removeOverlay overlay overlayStack = u
  have hstack : u.overlayStack = overlayStack := by rw [← hremoved]; rfl
  have hcomponent : ∀ o, (u.entry o).component = (t.entry o).component := fun o => by
    rw [← hremoved, removeOverlay_component]
  have hself : u.entry overlay = t.entry overlay := by rw [← hremoved, removeOverlay_self]
  -- another overlay with the component of the one that left, if there is one, is still on the stack
  have hother : (∃ other ∈ t.overlayStack, other ≠ overlay ∧ (t.entry other).component = (t.entry overlay).component) →
      u.OnStack (t.entry overlay).component := by
    rintro ⟨other, hother, hne, heq⟩
    exact ⟨other, by rw [hstack]; exact hrest other hother hne, by rw [hcomponent, heq]⟩
  have hgone : ∀ c, (Watched.mk u ((t.entry overlay).component :: gone)).Gone c →
      c = (t.entry overlay).component ∨ (Watched.mk t gone).Gone c := by
    rintro c ⟨hc, hu⟩
    rcases List.mem_cons.mp hc with heq | hc
    · exact Or.inl heq
    · by_cases heq : c = (t.entry overlay).component
      · exact Or.inl heq
      · refine Or.inr ⟨hc, fun ⟨o, ho, hoc⟩ => hu ⟨o, ?_, by rw [hcomponent, hoc]⟩⟩
        rw [hstack]
        exact hrest o ho fun hoo => heq (by rw [← hoc, hoo])
  have hclear : Clear u (Watched.mk u ((t.entry overlay).component :: gone)).Gone := by
    refine ⟨fun o ho c hc hg => ?_, fun c hc hg => ?_, fun c hc hg => hg.2 hc⟩
    · have hot : o ∈ t.overlayStack := hsub o (hstack ▸ ho)
      rw [← hremoved, removeOverlay_entry] at hc
      split at hc
      · next hretarget =>
        rcases hgone c hg with rfl | hold
        · rcases hchecked with hsame | ⟨hloop, -⟩
          · exact hg.2 (hother hsame)
          · exact (hloop hc).2 o hot hretarget.2.1 hretarget.2.2
        · exact h.clear.preFocus overlay hmem c hc hold
      · next hkept =>
        rcases hgone c hg with rfl | hold
        · by_cases hoo : o = overlay
          · exact hg.2 ⟨o, ho, by rw [hcomponent, hoo]⟩
          · exact hkept ⟨hot, hoo, hc⟩
        · exact h.clear.preFocus o hot c hc hold
    · rw [← hremoved] at hc
      obtain ⟨hne, htarget⟩ := target_removeOverlay hc
      rcases hgone c hg with rfl | hold
      · rcases hchecked with hsame | ⟨-, hpending⟩
        · exact hg.2 (hother hsame)
        · exact hpending.elim hne fun hno => hno htarget
      · exact h.clear.target c htarget hold
  have hfocusedComponent : u.focusedComponent = t.focusedComponent := by rw [← hremoved, removeOverlay_focusedComponent]
  have hfocused : ∀ c, isFocusable c = true → (u.focused c = true ↔ u.focusedComponent = some c) := by
    rw [hfocusedComponent, ← hremoved, removeOverlay_focused]
    exact h.focused
  refine hclear.releaseFocus overlay (fun c hc => ?_) (fun hc _ c hpre hg => ?_) hfocused
  · rw [hself]
    rw [hfocusedComponent] at hc
    by_cases heq : c = (t.entry overlay).component
    · exact Or.inl heq
    · exact Or.inr fun hg => h.focus c hc ((hgone c hg).resolve_left heq)
  · rw [hself] at hc hpre
    rw [hfocusedComponent] at hc
    rcases hgone c hg with rfl | hold
    · rcases hchecked with hsame | ⟨hloop, -⟩
      · exact hg.2 (hother hsame)
      · exact (hloop hpre).1 hc
    · exact h.clear.preFocus overlay hmem c hpre hold

/-- A new overlay. -/
theorem Settled.showOverlay {gone : List Component} (h : Settled isFocusable t (Watched.mk t gone).Gone)
    (hshown : ∀ o ∈ t.overlayStack, o < t.shown) (around : Surroundings Component) (component : Component)
    (nonCapturing : Bool) :
    SameOverlays (t.pushOverlay component nonCapturing) (t.showOverlay isFocusable around component nonCapturing) ∧
      Settled isFocusable (t.showOverlay isFocusable around component nonCapturing)
        (Watched.mk (t.pushOverlay component nonCapturing) gone).Gone := by
  generalize hpushed : t.pushOverlay component nonCapturing = u
  have hentry : ∀ o ∈ t.overlayStack, u.entry o = t.entry o := fun o ho => by
    rw [← hpushed]
    exact Function.update_of_ne (Nat.ne_of_lt (hshown o ho)) ..
  have hnew : u.entry t.shown = ⟨component, nonCapturing, t.focusedComponent, false, t.focusOrderCounter + 1⟩ := by
    rw [← hpushed]
    exact Function.update_self ..
  have hstack : u.overlayStack = t.overlayStack ++ [t.shown] := by rw [← hpushed]; rfl
  have honStack : u.OnStack component := ⟨t.shown, by rw [hstack]; simp, by rw [hnew]⟩
  have hgone : ∀ c, (Watched.mk u gone).Gone c → (Watched.mk t gone).Gone c := by
    rintro c ⟨hc, hu⟩
    refine ⟨hc, fun ⟨o, ho, hoc⟩ => hu ⟨o, ?_, by rw [hentry o ho, hoc]⟩⟩
    rw [hstack]
    exact List.mem_append_left _ ho
  have hclear : Clear u (Watched.mk u gone).Gone := by
    refine ⟨fun o ho c hc hg => ?_, fun c hc hg => ?_, fun c hc hg => hg.2 hc⟩
    · rw [hstack, List.mem_append, List.mem_singleton] at ho
      rcases ho with ho | rfl
      · rw [hentry o ho] at hc
        exact h.clear.preFocus o ho c hc (hgone c hg)
      · rw [hnew] at hc
        exact h.focus c hc (hgone c hg)
    · rw [← hpushed] at hc
      exact h.clear.target c hc (hgone c hg)
  have hfocused : ∀ c, isFocusable c = true → (u.focused c = true ↔ u.focusedComponent = some c) := by
    rw [← hpushed]
    exact h.focused
  have hfocus : ∀ c, u.focusedComponent = some c → ¬(Watched.mk u gone).Gone c := by
    rw [← hpushed] at hgone ⊢
    exact fun c hc hg => h.focus c hc (hgone c hg)
  unfold FocusState.showOverlay
  rw [hpushed]
  dsimp only
  split
  · refine ⟨(refocused_setFocus ..).same, hclear.setFocus (fun c hc hg => ?_) hfocused around⟩
    exact hg.2 (Option.some.inj hc ▸ honStack)
  · exact ⟨.refl u, ⟨hclear, hfocus, hfocused⟩⟩

end FocusState

/-! ### Runs -/

namespace Watched

variable {isFocusable : Component → Bool} {w w' : Watched Component}
  {input : Surroundings Component × FocusOperation Component}

/-- The focus is with nothing that is gone, and new overlays get new numbers. -/
structure Inv (isFocusable : Component → Bool) (w : Watched Component) : Prop where
  settled : FocusState.Settled isFocusable w.tui w.Gone
  shown : ∀ overlay ∈ w.tui.overlayStack, overlay < w.tui.shown

omit [DecidableEq Component] in
theorem inv_start (isFocusable : Component → Bool) (component : Component) : Inv isFocusable (start component) := by
  refine ⟨⟨⟨?_, ?_, ?_⟩, ?_, ?_⟩, ?_⟩
  · exact fun _ ho => nomatch ho
  · exact fun _ hc => nomatch hc
  · rintro _ ⟨_, ho, _⟩
    exact nomatch ho
  · exact fun _ hc => nomatch hc
  · exact fun c _ => ⟨nofun, nofun⟩
  · exact fun _ ho => nomatch ho

omit [DecidableEq Component] in
/-- What is gone is the same after an operation that keeps the overlays. -/
theorem gone_of_same {t t' : FocusState Component} {gone : List Component} (h : FocusState.SameOverlays t t') (c : Component) :
    (Watched.mk t' gone).Gone c ↔ (Watched.mk t gone).Gone c := by
  unfold Gone
  rw [h.onStack]

omit [DecidableEq Component] in
theorem settled_of_same {t t' : FocusState Component} {gone : List Component} (h : FocusState.SameOverlays t t')
    (hsettled : FocusState.Settled isFocusable t' (Watched.mk t gone).Gone) :
    FocusState.Settled isFocusable t' (Watched.mk t' gone).Gone := by
  have heq : (Watched.mk t' gone).Gone = (Watched.mk t gone).Gone := funext fun c => propext (gone_of_same h c)
  rw [heq]
  exact hsettled

omit [DecidableEq Component] in
/-- An operation that keeps the overlays and adds nothing to what is gone. -/
theorem Inv.of_same {t' : FocusState Component} (h : Inv isFocusable w)
    (hkept : FocusState.SameOverlays w.tui t' ∧ FocusState.Settled isFocusable t' w.Gone) :
    Inv isFocusable ⟨t', w.gone⟩ := by
  obtain ⟨hsame, hsettled⟩ := hkept
  refine ⟨settled_of_same hsame hsettled, ?_⟩
  rw [hsame.overlayStack, hsame.shown]
  exact h.shown

/-- An operation that takes an overlay off the stack. -/
theorem Inv.remove {overlay : ℕ} {overlayStack : List ℕ} (h : Inv isFocusable w) (hmem : overlay ∈ w.tui.overlayStack)
    (hsub : ∀ o ∈ overlayStack, o ∈ w.tui.overlayStack) (hrest : ∀ o ∈ w.tui.overlayStack, o ≠ overlay → o ∈ overlayStack)
    (hchecked : w.RemovalChecked overlay) (around : Surroundings Component) :
    Inv isFocusable ⟨(w.tui.removeOverlay overlay overlayStack).releaseFocus isFocusable around overlay,
      (w.tui.entry overlay).component :: w.gone⟩ := by
  have hsame := FocusState.sameOverlays_releaseFocus isFocusable around (w.tui.removeOverlay overlay overlayStack) overlay
  refine ⟨settled_of_same hsame (h.settled.remove hmem hsub hrest hchecked around), fun o ho => ?_⟩
  rw [hsame.overlayStack] at ho
  rw [hsame.shown]
  have hshown : (w.tui.removeOverlay overlay overlayStack).shown = w.tui.shown := by
    unfold FocusState.removeOverlay
    rw [FocusState.clearOverlayFocusRestoreFor_eq]
    rfl
  rw [hshown]
  exact h.shown o (hsub o ho)

/-- What an operation keeps. -/
theorem Inv.step (h : Inv isFocusable w) (hchecked : w.Checked input) (hstep : w.step isFocusable input = some w') :
    Inv isFocusable w' := by
  obtain ⟨around, operation⟩ := input
  unfold Watched.step at hstep
  split at hstep
  · obtain rfl := Option.some.inj hstep
    cases operation with
    | setFocus component =>
      have hsame := (FocusState.refocused_setFocus isFocusable around w.tui component).same
      cases component with
      | none => exact h.of_same ⟨hsame, h.settled.clear.setFocus (fun c hc => by cases hc) h.settled.focused around⟩
      | some c =>
        -- the caller has passed the component itself, and it is not gone any more
        have hfewer : ∀ x, (Watched.mk w.tui (w.gone.filter (· ≠ c))).Gone x → w.Gone x ∧ x ≠ c := by
          rintro x ⟨hx, hstack⟩
          obtain ⟨hmem, hne⟩ := List.mem_filter.mp hx
          exact ⟨⟨hmem, hstack⟩, of_decide_eq_true hne⟩
        have hclear : FocusState.Clear w.tui (Watched.mk w.tui (w.gone.filter (· ≠ c))).Gone :=
          ⟨fun o ho x hx hg => h.settled.clear.preFocus o ho x hx (hfewer x hg).1,
            fun x hx hg => h.settled.clear.target x hx (hfewer x hg).1, fun x hx hg => hg.2 hx⟩
        have hsettled := hclear.setFocus (fun x hx hg => (hfewer x hg).2 (Option.some.inj hx).symm) h.settled.focused around
        refine ⟨settled_of_same hsame hsettled, ?_⟩
        show ∀ o ∈ (w.tui.setFocus isFocusable around (some c)).overlayStack, _
        rw [hsame.overlayStack]
        exact fun o ho => hsame.shown ▸ h.shown o ho
    | showOverlay component nonCapturing =>
      obtain ⟨hsame, hsettled⟩ := h.settled.showOverlay h.shown around component nonCapturing
      refine ⟨settled_of_same hsame hsettled, fun o ho => ?_⟩
      change o ∈ (w.tui.showOverlay isFocusable around component nonCapturing).overlayStack at ho
      rw [hsame.overlayStack] at ho
      show o < (w.tui.showOverlay isFocusable around component nonCapturing).shown
      rw [hsame.shown]
      rcases List.mem_append.mp ho with ho | ho
      · exact Nat.lt_succ_of_lt (h.shown o ho)
      · rw [List.mem_singleton.mp ho]
        exact Nat.lt_succ_self _
    | hideOverlay =>
      cases hlast : w.tui.overlayStack.getLast? with
      | none =>
        have hkept : w.tui.hideOverlay isFocusable around = w.tui := by
          unfold FocusState.hideOverlay
          rw [hlast]
        simp only [FocusState.perform, FocusState.removes, hlast, hkept]
        exact h
      | some overlay =>
        have hhide : w.tui.hideOverlay isFocusable around =
            (w.tui.removeOverlay overlay w.tui.overlayStack.dropLast).releaseFocus isFocusable around overlay := by
          unfold FocusState.hideOverlay
          rw [hlast]
        simp only [FocusState.perform, FocusState.removes, hlast, hhide]
        have hmem := List.mem_of_getLast? hlast
        refine h.remove hmem (fun o ho => List.dropLast_subset _ ho) (fun o ho hne => ?_) (hchecked overlay hlast) around
        rw [← List.dropLast_append_getLast? overlay hlast] at ho
        exact (List.mem_append.mp ho).resolve_right fun hl => hne (List.mem_singleton.mp hl)
    | hide overlay =>
      by_cases hmem : overlay ∈ w.tui.overlayStack
      · simp only [FocusState.perform, FocusState.removes, FocusState.hide, if_pos hmem]
        exact h.remove hmem (fun o ho => List.mem_of_mem_erase ho) (fun o ho hne => (List.mem_erase_of_ne hne).mpr ho)
          (hchecked hmem) around
      · simp only [FocusState.perform, FocusState.removes, FocusState.hide, if_neg hmem]
        exact h
    | setHidden overlay hidden =>
      refine h.of_same (h.settled.setHidden overlay hidden ?_ ?_)
      · rintro hmem rfl hshown
        exact hchecked hmem hshown
      · rintro hmem rfl hhidden
        exact hchecked hmem hhidden
    | focus overlay => exact h.of_same (h.settled.focus_handle around overlay)
    | unfocus overlay unfocusOptions =>
      refine h.of_same (h.settled.unfocus overlay unfocusOptions ?_ ?_)
      · rintro hactive c rfl
        exact hchecked hactive c rfl
      · rintro hmem rfl
        exact hchecked hmem
  · cases hstep

/-- **The focus is never left with a component that is gone**, in a run whose operations check what the
code does not, and the component that has the focus is the one that is told so. -/
theorem focus_never_gone (isFocusable : Component → Bool) (component : Component)
    {inputs : List (Surroundings Component × FocusOperation Component)}
    (hchecked : Machine.Throughout (step isFocusable) Checked (start component) inputs)
    (hrun : Machine.run (step isFocusable) (start component) inputs = some w) :
    (∀ c, w.tui.focusedComponent = some c → ¬w.Gone c) ∧
      ∀ c, isFocusable c = true → (w.tui.focused c = true ↔ w.tui.focusedComponent = some c) := by
  have hinv := Machine.inv_throughout (fun _ _ _ h hP hs => Inv.step h hP hs) inputs (inv_start isFocusable component) hchecked hrun
  exact ⟨hinv.settled.focus, hinv.settled.focused⟩

/-- An overlay is shown over a component that has the focus, and goes. -/
theorem focus_never_gone_hide :
    ∃ w : Watched ℕ, (w.tui.focusedComponent = some 0 ∧ w.gone = [1]) ∧
      (∀ c, w.tui.focusedComponent = some c → ¬w.Gone c) ∧
        ∀ c, c < 2 → (w.tui.focused c = true ↔ w.tui.focusedComponent = some c) := by
  let around : Surroundings ℕ := ⟨[], fun _ _ => true⟩
  let inputs : List (Surroundings ℕ × FocusOperation ℕ) :=
    [(around, .setFocus (some 0)), (around, .showOverlay 1 false), (around, .hide 0)]
  have hchecked : Machine.Throughout (step fun _ => true) Checked (start 0) inputs := by
    refine ⟨trivial, fun w₁ h₁ => ⟨trivial, fun w₂ h₂ => ⟨fun _ => Or.inr ⟨fun hpre => ?_, Or.inl ?_⟩, fun _ _ => trivial⟩⟩⟩
    · obtain rfl := Option.some.inj h₁
      obtain rfl := Option.some.inj h₂
      exact absurd hpre (by decide)
    · obtain rfl := Option.some.inj h₁
      obtain rfl := Option.some.inj h₂
      rfl
  have hrun : Machine.run (step fun _ => true) (start 0) inputs = some _ := rfl
  obtain ⟨hfocus, hfocused⟩ := focus_never_gone (fun _ => true) 0 hchecked hrun
  exact ⟨_, ⟨by decide, by decide⟩, hfocus, fun c _ => hfocused c rfl⟩

/-- The handle of an overlay that was removed shows it again: it gets the focus. -/
theorem focus_gone_setHidden :
    ¬∀ (inputs : List (Surroundings ℕ × FocusOperation ℕ)) (w : Watched ℕ),
      Machine.run (step fun _ => true) (start 0) inputs = some w →
        (∀ c, w.tui.focusedComponent = some c → ¬w.Gone c) ∧
          ∀ c, (w.tui.focused c = true ↔ w.tui.focusedComponent = some c) := by
  intro h
  let around : Surroundings ℕ := ⟨[], fun _ _ => true⟩
  let inputs : List (Surroundings ℕ × FocusOperation ℕ) :=
    [(around, .setFocus (some 0)), (around, .showOverlay 1 false), (around, .hide 0), (around, .setHidden 0 true),
      (around, .setHidden 0 false)]
  have hrun : (Machine.run (step fun _ => true) (start 0) inputs).map
      (fun w => (w.tui.focusedComponent, w.gone, w.tui.overlayStack)) = some (some 1, [1], []) := by decide
  obtain ⟨w, hw, hstate⟩ := Option.map_eq_some_iff.mp hrun
  simp only [Prod.mk.injEq] at hstate
  obtain ⟨hfocus, hgone, hstack⟩ := hstate
  refine (h inputs w hw).1 1 hfocus ⟨by rw [hgone]; decide, ?_⟩
  rintro ⟨overlay, hmem, -⟩
  rw [hstack] at hmem
  cases hmem

end Watched

end Trek.Tui
