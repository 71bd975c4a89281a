/-
# Focus and overlays

`TUI` gives the keyboard to one component at a time. An overlay takes the focus when it is shown
and hands it back when it goes: to the frontmost overlay that is left, or to the component that had
the focus before, which the overlay keeps in `preFocus`. A component outside of the overlays that
takes the focus from one is noted in `overlayFocusRestore`, with the component that is to have the
focus after it.

Overlays are objects: the handle of an overlay can be used after the overlay has left the stack.
Here an overlay is a number, and `entry` has its fields.
-/
import Mathlib.Logic.Function.Basic
import Trek.Lib.Machine

namespace Trek.Tui

variable {Component : Type*}

/-- A component and, if it is a `Container`, its children. -/
inductive ComponentTree (Component : Type*)
  | node (component : Component) (children : List (ComponentTree Component))

/-- `OverlayStackEntry`. -/
structure OverlayStackEntry (Component : Type*) where
  component : Component
  nonCapturing : Bool
  preFocus : Option Component
  hidden : Bool
  focusOrder : ℕ

/-- `OverlayBlockedFocusResume`. -/
inductive OverlayBlockedFocusResume (Component : Type*)
  | restoreOverlay
  | focusTarget (target : Option Component)

/-- `OverlayFocusRestoreState`. -/
inductive OverlayFocusRestoreState (Component : Type*)
  | inactive
  | eligible (overlay : ℕ)
  | blocked (overlay : ℕ) (blockedBy : Component) (resume : OverlayBlockedFocusResume Component)

/-- `OverlayFocusRestorePolicy`. -/
inductive OverlayFocusRestorePolicy
  | clear | preserve
  deriving DecidableEq

/-- The fields of `TUI` that are about focus, the fields of the overlays, those on the stack and
those that have left it, and the `focused` fields of the components. -/
structure FocusState (Component : Type*) where
  focusedComponent : Option Component
  focused : Component → Bool
  shown : ℕ
  entry : ℕ → OverlayStackEntry Component
  overlayStack : List ℕ
  overlayFocusRestore : OverlayFocusRestoreState Component
  focusOrderCounter : ℕ

/-- What an operation sees around it: the component tree, and what the `visible` callback of an
overlay says, `true` if it has none. An operation asks the callbacks at several places, which are
numbered: what they say may change in between. -/
structure Surroundings (Component : Type*) where
  children : List (ComponentTree Component)
  visible : ℕ → ℕ → Bool

namespace OverlayFocusRestoreState

/-- `restoreState.overlay`. -/
def overlay? : OverlayFocusRestoreState Component → Option ℕ
  | inactive => none
  | eligible overlay => some overlay
  | blocked overlay _ _ => some overlay

/-- `restoreState.resume.target`, of a state that is blocked and resumes with a target. -/
def target? : OverlayFocusRestoreState Component → Option Component
  | blocked _ _ (.focusTarget target) => target
  | _ => none

end OverlayFocusRestoreState

section Operations

variable [DecidableEq Component]

mutual

/-- `containsComponent`. -/
def containsComponent (target : Component) : ComponentTree Component → Bool
  | .node component children => component = target || someContainsComponent target children

/-- `containsComponent` of one of the components. -/
def someContainsComponent (target : Component) : List (ComponentTree Component) → Bool
  | [] => false
  | child :: children => containsComponent target child || someContainsComponent target children

end

/-- `isComponentMounted`. -/
def Surroundings.isComponentMounted (around : Surroundings Component) (component : Component) : Bool :=
  someContainsComponent component around.children

namespace FocusState

/-- `isOverlayVisible`. -/
def isOverlayVisible (t : FocusState Component) (visible : ℕ → Bool) (overlay : ℕ) : Bool :=
  !(t.entry overlay).hidden && visible overlay

/-- The first overlay of the stack with the component. -/
def findOverlay (t : FocusState Component) (component : Component) : Option ℕ :=
  t.overlayStack.find? fun overlay => (t.entry overlay).component = component

/-- The first overlay of the stack with the component that is visible. -/
def findVisibleOverlay (t : FocusState Component) (visible : ℕ → Bool) (component : Component) : Option ℕ :=
  t.overlayStack.find? fun overlay => (t.entry overlay).component = component && t.isOverlayVisible visible overlay

/-- The fields of an overlay are set. -/
def setEntry (t : FocusState Component) (overlay : ℕ) (entry : OverlayStackEntry Component) : FocusState Component :=
  { t with entry := Function.update t.entry overlay entry }

/-- `entry.focusOrder = ++this.focusOrderCounter`. -/
def bringToFront (t : FocusState Component) (overlay : ℕ) : FocusState Component :=
  { t.setEntry overlay { t.entry overlay with focusOrder := t.focusOrderCounter + 1 } with
    focusOrderCounter := t.focusOrderCounter + 1 }

def clearOverlayFocusRestore (t : FocusState Component) : FocusState Component :=
  { t with overlayFocusRestore := .inactive }

def clearOverlayFocusRestoreFor (t : FocusState Component) (overlay : ℕ) : FocusState Component :=
  if t.overlayFocusRestore.overlay? = some overlay then t.clearOverlayFocusRestore else t

/-- `resolveBlockedOverlayFocusResume`, and the state after it. -/
def resolveBlockedOverlayFocusResume (t : FocusState Component) (overlay : ℕ) :
    OverlayBlockedFocusResume Component → FocusState Component × Option Component
  | .restoreOverlay => (t, some (t.entry overlay).component)
  | .focusTarget target => (t.clearOverlayFocusRestore, target)

def getVisibleOverlayFocusRestore (t : FocusState Component) (visible : ℕ → Bool) : OverlayFocusRestoreState Component :=
  match t.overlayFocusRestore.overlay? with
  | none => .inactive
  | some overlay =>
    if overlay ∉ t.overlayStack || !t.isOverlayVisible visible overlay then .inactive else t.overlayFocusRestore

/-- The loop of `isOverlayFocusAncestor`. -/
def isAncestorFrom (t : FocusState Component) (component : Component) (visited : List Component) : Option Component → Bool
  | none => false
  | some current =>
    if current ∈ visited then false
    else if current = component then true
    else
      match _ : t.findOverlay current with
      | none => false
      | some overlay => t.isAncestorFrom component (current :: visited) (t.entry overlay).preFocus
termination_by (t.overlayStack.filter fun overlay => (t.entry overlay).component ∉ visited).length
decreasing_by
  -- the overlay that was found has a component that was not visited before
  rename_i hvisited _ hfind
  have hmem := List.mem_of_find?_eq_some hfind
  have hcomponent : (t.entry overlay).component = current := by simpa using List.find?_some hfind
  have hfilter : (t.overlayStack.filter fun overlay => (t.entry overlay).component ∉ current :: visited) =
      (t.overlayStack.filter fun overlay => (t.entry overlay).component ∉ visited).filter
        fun overlay => (t.entry overlay).component ≠ current := by
    rw [List.filter_filter]
    exact List.filter_congr fun overlay _ => by simp
  rw [hfilter]
  refine List.length_filter_lt_length_iff_exists.mpr ⟨overlay, List.mem_filter.mpr ⟨hmem, ?_⟩, by simpa using hcomponent⟩
  simpa [hcomponent] using hvisited

def isOverlayFocusAncestor (t : FocusState Component) (overlay : ℕ) (component : Component) : Bool :=
  t.isAncestorFrom component [] (t.entry overlay).preFocus

def retargetOverlayPreFocus (t : FocusState Component) (removed : ℕ) : FocusState Component :=
  { t with
    entry := fun overlay =>
      if overlay ∈ t.overlayStack ∧ overlay ≠ removed ∧ (t.entry overlay).preFocus = some (t.entry removed).component then
        { t.entry overlay with preFocus := (t.entry removed).preFocus }
      else t.entry overlay }

/-- The frontmost one of `topmost` and an overlay, if it is visible and takes the focus. -/
def frontmost (t : FocusState Component) (visible : ℕ → Bool) (topmost : Option ℕ) (overlay : ℕ) : Option ℕ :=
  if (t.entry overlay).nonCapturing || !t.isOverlayVisible visible overlay then topmost
  else
    match topmost with
    | none => some overlay
    | some top => if (t.entry top).focusOrder < (t.entry overlay).focusOrder then some overlay else some top

def getTopmostVisibleOverlay (t : FocusState Component) (visible : ℕ → Bool) : Option ℕ :=
  t.overlayStack.foldl (t.frontmost visible) none

/-- The end of `setFocusInternal`: the component that has the focus is told that it has lost it, and
`nextFocus` that it has it. -/
def giveFocus (isFocusable : Component → Bool) (t : FocusState Component) (nextFocus : Option Component) :
    FocusState Component :=
  { t with
    focusedComponent := nextFocus
    focused := fun component =>
      if isFocusable component ∧ nextFocus = some component then true
      else if isFocusable component ∧ t.focusedComponent = some component then false
      else t.focused component }

variable (isFocusable : Component → Bool)

/-- The first part of `setFocusInternal`: what gets the focus in place of `component`. -/
def resolveNextFocus (around : Surroundings Component) (t : FocusState Component) (component : Option Component)
    (overlayFocusRestore : OverlayFocusRestorePolicy) : FocusState Component × Option Component :=
  let previousFocus := t.focusedComponent
  let previousFocusedOverlay := previousFocus.bind (t.findVisibleOverlay (around.visible 0))
  let restoreState := t.getVisibleOverlayFocusRestore (around.visible 1)
  match component with
  | some nextFocus =>
    if (t.findOverlay nextFocus).isSome then (t, some nextFocus)
    else
      -- what happens where the focus does not leave the component that has blocked an overlay
      let leavesOverlay : FocusState Component × Option Component :=
        match previousFocusedOverlay with
        | some overlay =>
          if restoreState.overlay? = some overlay ∧ t.isOverlayFocusAncestor overlay nextFocus = false then
            ({ t with overlayFocusRestore := .blocked overlay nextFocus .restoreOverlay }, some nextFocus)
          else (t, some nextFocus)
        | none => (t, some nextFocus)
      match restoreState with
      | .blocked overlay blockedBy resume =>
        if previousFocus = some blockedBy then
          match resume with
          | .focusTarget target => t.resolveBlockedOverlayFocusResume overlay (.focusTarget target)
          | .restoreOverlay =>
            if around.isComponentMounted blockedBy then
              ({ t with overlayFocusRestore := .blocked overlay nextFocus .restoreOverlay }, some nextFocus)
            else t.resolveBlockedOverlayFocusResume overlay .restoreOverlay
        else leavesOverlay
      | _ => leavesOverlay
  | none =>
    let clears : FocusState Component × Option Component :=
      (if overlayFocusRestore = .clear then t.clearOverlayFocusRestore else t, none)
    match restoreState with
    | .blocked overlay blockedBy resume =>
      if previousFocus = some blockedBy then t.resolveBlockedOverlayFocusResume overlay resume else clears
    | _ => clears

/-- `setFocusInternal`. -/
def setFocusInternal (around : Surroundings Component) (t : FocusState Component) (component : Option Component)
    (overlayFocusRestore : OverlayFocusRestorePolicy) : FocusState Component :=
  let (t, nextFocus) := resolveNextFocus around t component overlayFocusRestore
  let t := giveFocus isFocusable t nextFocus
  match nextFocus.bind (t.findVisibleOverlay (around.visible 2)) with
  | some overlay => { t with overlayFocusRestore := .eligible overlay }
  | none => t

/-- `setFocus`. -/
def setFocus (around : Surroundings Component) (t : FocusState Component) (component : Option Component) :
    FocusState Component :=
  t.setFocusInternal isFocusable around component .clear

/-- A new overlay on the stack. -/
def pushOverlay (t : FocusState Component) (component : Component) (nonCapturing : Bool) : FocusState Component :=
  { t.setEntry t.shown ⟨component, nonCapturing, t.focusedComponent, false, t.focusOrderCounter + 1⟩ with
    shown := t.shown + 1
    overlayStack := t.overlayStack ++ [t.shown]
    focusOrderCounter := t.focusOrderCounter + 1 }

/-- `showOverlay`. -/
def showOverlay (around : Surroundings Component) (t : FocusState Component) (component : Component)
    (nonCapturing : Bool) : FocusState Component :=
  let overlay := t.shown
  let t := t.pushOverlay component nonCapturing
  if !nonCapturing && t.isOverlayVisible (around.visible 3) overlay then t.setFocus isFocusable around (some component)
  else t

/-- The focus goes from an overlay to the frontmost one, or to the one before it. -/
def releaseFocus (around : Surroundings Component) (t : FocusState Component) (overlay : ℕ) : FocusState Component :=
  if t.focusedComponent = some (t.entry overlay).component then
    match t.getTopmostVisibleOverlay (around.visible 3) with
    | some top => t.setFocus isFocusable around (some (t.entry top).component)
    | none => t.setFocus isFocusable around (t.entry overlay).preFocus
  else t

/-- An overlay is not on the stack any more. -/
def removeOverlay (t : FocusState Component) (overlay : ℕ) (overlayStack : List ℕ) : FocusState Component :=
  { (t.clearOverlayFocusRestoreFor overlay).retargetOverlayPreFocus overlay with overlayStack }

/-- `hide` of the handle of an overlay. -/
def hide (around : Surroundings Component) (t : FocusState Component) (overlay : ℕ) : FocusState Component :=
  if overlay ∈ t.overlayStack then
    (t.removeOverlay overlay (t.overlayStack.erase overlay)).releaseFocus isFocusable around overlay
  else t

/-- `setHidden`. -/
def setHidden (around : Surroundings Component) (t : FocusState Component) (overlay : ℕ) (hidden : Bool) :
    FocusState Component :=
  if (t.entry overlay).hidden = hidden then t
  else
    let t := t.setEntry overlay { t.entry overlay with hidden }
    if hidden then releaseFocus isFocusable around (t.clearOverlayFocusRestoreFor overlay) overlay
    else if !(t.entry overlay).nonCapturing && t.isOverlayVisible (around.visible 3) overlay then
      (t.bringToFront overlay).setFocus isFocusable around (some (t.entry overlay).component)
    else t

/-- `focus`. -/
def focus (around : Surroundings Component) (t : FocusState Component) (overlay : ℕ) : FocusState Component :=
  if overlay ∈ t.overlayStack ∧ t.isOverlayVisible (around.visible 3) overlay then
    (t.bringToFront overlay).setFocus isFocusable around (some (t.entry overlay).component)
  else t

/-- `fallbackTarget` of `unfocus`. -/
def fallbackTarget (t : FocusState Component) (visible : ℕ → Bool) (overlay : ℕ) : Option Component :=
  match t.getTopmostVisibleOverlay visible with
  | some top => if top ≠ overlay then some (t.entry top).component else (t.entry overlay).preFocus
  | none => (t.entry overlay).preFocus

/-- The end of `unfocus`. -/
def unfocusTo (around : Surroundings Component) (t : FocusState Component) (overlay : ℕ)
    (unfocusOptions : Option (Option Component)) : FocusState Component :=
  let t := t.clearOverlayFocusRestoreFor overlay
  match unfocusOptions with
  | some target => t.setFocus isFocusable around target
  | none =>
    if t.focusedComponent = some (t.entry overlay).component then
      t.setFocus isFocusable around (t.fallbackTarget (around.visible 3) overlay)
    else t

/-- `unfocus`, with the target of its options. -/
def unfocus (around : Surroundings Component) (t : FocusState Component) (overlay : ℕ)
    (unfocusOptions : Option (Option Component)) : FocusState Component :=
  if t.focusedComponent ≠ some (t.entry overlay).component ∧ t.overlayFocusRestore.overlay? ≠ some overlay then t
  else
    match t.overlayFocusRestore with
    | .blocked blockedOverlay blockedBy _ =>
      if blockedOverlay = overlay ∧ t.focusedComponent = some blockedBy then
        match unfocusOptions with
        | some target => { t with overlayFocusRestore := .blocked overlay blockedBy (.focusTarget target) }
        | none => t.clearOverlayFocusRestore
      else t.unfocusTo isFocusable around overlay unfocusOptions
    | _ => t.unfocusTo isFocusable around overlay unfocusOptions

/-- `hideOverlay`. -/
def hideOverlay (around : Surroundings Component) (t : FocusState Component) : FocusState Component :=
  match t.overlayStack.getLast? with
  | none => t
  | some overlay => (t.removeOverlay overlay t.overlayStack.dropLast).releaseFocus isFocusable around overlay

end FocusState

end Operations

end Trek.Tui
