/-
# The event stream

A stream hands the events of a producer to one consumer. The producer pushes events and ends the stream, the consumer asks
for the next event, and the generator that answers runs between them at any time: it takes an event of the queue, or
leaves a waiter that the next event or the end resolves. The events pushed up to the first completing one, or up to the
end, are at every time those delivered, the one handed to the resolved waiter, and those of the queue, in this order
(`delivered_once`).
-/
import Trek.Lib.Machine

namespace Trek.Ai

variable {T R : Type*}

/-- Where the generator of the consumer stands: before its next round, at a waiter that is not resolved, at a waiter
resolved to an event or to the end, and after its return. -/
inductive Iteration (T : Type*) where
  | idle
  | awaiting
  | resolved (value : Option T)
  | returned
  deriving DecidableEq

/-- A stream with its one consumer: how many requests of it are not answered, and the events it received. -/
structure EventStream (T R : Type*) where
  queue : List T
  /-- The number of waiters. -/
  waiting : ℕ
  done : Bool
  /-- The promise of the result, `none` while it is pending. -/
  finalResult : Option R
  iteration : Iteration T
  requests : ℕ
  delivered : List T
  deriving DecidableEq

/-- What the producer, the consumer and the generator do. -/
inductive StreamStep (T R : Type*) where
  | push (event : T)
  | endWith (result : Option R)
  | next
  /-- The generator runs a round of its loop. -/
  | round
  /-- The generator goes on after its waiter is resolved. -/
  | resume
  deriving DecidableEq

/-- The steps of the generator. -/
def StreamStep.ofGenerator : StreamStep T R → Bool
  | .round | .resume => true
  | _ => false

namespace EventStream

def new : EventStream T R :=
  { queue := [], waiting := 0, done := false, finalResult := none, iteration := .idle, requests := 0, delivered := [] }

/-- A promise is settled once. -/
def resolveFinalResult (s : EventStream T R) (result : R) : EventStream T R :=
  { s with finalResult := s.finalResult.or (some result) }

/-- Deliver to the waiting consumer or queue it. -/
def deliver (s : EventStream T R) (event : T) : EventStream T R :=
  match s.waiting with
  | 0 => { s with queue := s.queue ++ [event] }
  | waiting + 1 => { s with waiting := waiting, iteration := .resolved (some event) }

/-- Answer a request of the consumer with an event. -/
def answer (s : EventStream T R) (event : T) : EventStream T R :=
  { s with iteration := .idle, requests := s.requests - 1, delivered := s.delivered ++ [event] }

/-- The generator returns. -/
def finish (s : EventStream T R) : EventStream T R := { s with iteration := .returned, requests := s.requests - 1 }

def endWith (s : EventStream T R) (result : Option R) : EventStream T R :=
  let s := { s with done := true }
  let s := match result with
    | some result => s.resolveFinalResult result
    | none => s
  match s.waiting with
  | 0 => s
  | _ + 1 => { s with waiting := 0, iteration := .resolved none }

section
variable (isComplete : T → Bool) (extractResult : T → R)

def push (s : EventStream T R) (event : T) : EventStream T R :=
  if s.done then s
  else if isComplete event then deliver (resolveFinalResult { s with done := true } (extractResult event)) event
  else deliver s event

end

/-- A round of the generator, which a request starts. -/
def round (s : EventStream T R) : Option (EventStream T R) :=
  match s.iteration with
  | .idle =>
    if s.requests = 0 then none
    else match s.queue with
      | event :: queue => some (answer { s with queue := queue } event)
      | [] => some (if s.done then s.finish else { s with waiting := s.waiting + 1, iteration := .awaiting })
  | _ => none

/-- The generator goes on after its waiter. -/
def resume (s : EventStream T R) : Option (EventStream T R) :=
  match s.iteration with
  | .resolved (some event) => some (s.answer event)
  | .resolved none => some s.finish
  | _ => none

variable (isComplete : T → Bool) (extractResult : T → R)

def step (s : EventStream T R) : StreamStep T R → Option (EventStream T R)
  | .push event => some (s.push isComplete extractResult event)
  | .endWith result => some (s.endWith result)
  | .next => some { s with requests := s.requests + 1 }
  | .round => s.round
  | .resume => s.resume

end EventStream

/-! ### What the consumer is to receive -/

/-- The events pushed up to the first completing one, or up to the end. -/
def accepted (isComplete : T → Bool) : List (StreamStep T R) → List T
  | [] => []
  | .push event :: steps => if isComplete event then [event] else event :: accepted isComplete steps
  | .endWith _ :: _ => []
  | _ :: steps => accepted isComplete steps

/-- A completing event was pushed, or the stream was ended. -/
def Closed (isComplete : T → Bool) : List (StreamStep T R) → Prop
  | [] => False
  | .push event :: steps => isComplete event = true ∨ Closed isComplete steps
  | .endWith _ :: _ => True
  | _ :: steps => Closed isComplete steps

/-- The first value given to an end. -/
def givenToEnd (steps : List (StreamStep T R)) : Option R :=
  steps.findSome? fun
    | .endWith result => result
    | _ => none

/-- The result of the first completing event, and where the end came before it the value given to the end. -/
def expectedResult (isComplete : T → Bool) (extractResult : T → R) : List (StreamStep T R) → Option R
  | [] => none
  | .push event :: steps =>
    if isComplete event then some (extractResult event) else expectedResult isComplete extractResult steps
  | .endWith result :: steps => result.or (givenToEnd steps)
  | _ :: steps => expectedResult isComplete extractResult steps

namespace EventStream

/-- The event handed to the resolved waiter. -/
def inFlight (s : EventStream T R) : List T :=
  match s.iteration with
  | .resolved (some event) => [event]
  | _ => []

/-- The events of the stream from the first one delivered to the last one of the queue. -/
def events (s : EventStream T R) : List T := s.delivered ++ (s.inFlight ++ s.queue)

/-- The steps that the generator of a closed stream still takes. -/
def remaining (s : EventStream T R) : ℕ :=
  match s.iteration with
  | .idle => s.queue.length + 1
  | .resolved (some _) => s.queue.length + 2
  | .resolved none => 1
  | .awaiting | .returned => 0

/-- Where the generator waits, the queue is empty and the stream open. A waiter is resolved to the end only, and the
generator returns only, when the stream is closed and the queue empty. -/
def Inv (s : EventStream T R) : Prop :=
  match s.iteration with
  | .awaiting => s.waiting = 1 ∧ s.queue = [] ∧ s.done = false
  | .resolved none | .returned => s.waiting = 0 ∧ s.queue = [] ∧ s.done = true
  | _ => s.waiting = 0

theorem inv_new : (new : EventStream T R).Inv := rfl

/-! ### A step -/

variable {isComplete : T → Bool} {extractResult : T → R} {s s' : EventStream T R}

@[simp] theorem deliver_done (s : EventStream T R) (event : T) : (s.deliver event).done = s.done := by
  unfold deliver
  split <;> rfl

@[simp] theorem deliver_finalResult (s : EventStream T R) (event : T) :
    (s.deliver event).finalResult = s.finalResult := by
  unfold deliver
  split <;> rfl

theorem waiting_cases (h : s.Inv) :
    (s.iteration = .awaiting ∧ s.waiting = 1 ∧ s.queue = [] ∧ s.done = false) ∨ s.iteration ≠ .awaiting ∧ s.waiting = 0 := by
  rcases s with ⟨queue, waiting, done, finalResult, iteration, requests, delivered⟩
  cases iteration with
  | awaiting => exact Or.inl ⟨rfl, h⟩
  | idle => exact Or.inr ⟨nofun, h⟩
  | returned => exact Or.inr ⟨nofun, h.1⟩
  | resolved value =>
    cases value with
    | none => exact Or.inr ⟨nofun, h.1⟩
    | some event => exact Or.inr ⟨nofun, h⟩

/-- A generator that does not wait keeps the invariant whatever happens to the queue of an open stream, and when a stream
is closed. -/
theorem inv_of_open (h : s.Inv) (hopen : s.done = false) (hwaiting : s.iteration ≠ .awaiting) (queue : List T)
    (done : Bool) (finalResult : Option R) : Inv { s with queue := queue, done := done, finalResult := finalResult } := by
  rcases s with ⟨_, waiting, _, _, iteration, requests, delivered⟩
  obtain rfl := hopen
  cases iteration with
  | awaiting => exact absurd rfl hwaiting
  | idle => exact h
  | returned => exact absurd h.2.2 Bool.false_ne_true
  | resolved value =>
    cases value with
    | none => exact absurd h.2.2 Bool.false_ne_true
    | some event => exact h

theorem inv_close (h : s.Inv) (hwaiting : s.iteration ≠ .awaiting) (finalResult : Option R) :
    Inv { s with done := true, finalResult := finalResult } := by
  rcases s with ⟨queue, waiting, done, _, iteration, requests, delivered⟩
  cases iteration with
  | awaiting => exact absurd rfl hwaiting
  | idle => exact h
  | returned => exact ⟨h.1, h.2.1, rfl⟩
  | resolved value =>
    cases value with
    | none => exact ⟨h.1, h.2.1, rfl⟩
    | some event => exact h

theorem deliver_of_waiting (h : s.waiting = 1) (event : T) :
    s.deliver event = { s with waiting := 0, iteration := .resolved (some event) } := by
  unfold deliver
  rw [h]

theorem deliver_of_not_waiting (h : s.waiting = 0) (event : T) :
    s.deliver event = { s with queue := s.queue ++ [event] } := by
  unfold deliver
  rw [h]

/-- An event reaches the end of the stream, through the queue or through the waiter. -/
theorem events_deliver (h : s.Inv) (event : T) (done : Bool) (finalResult : Option R) :
    (deliver { s with done := done, finalResult := finalResult } event).events = s.events ++ [event] := by
  rcases waiting_cases h with ⟨hiteration, hwaiting, hqueue, -⟩ | ⟨-, hwaiting⟩
  · rw [deliver_of_waiting (s := { s with done := done, finalResult := finalResult }) hwaiting]
    simp [events, inFlight, hiteration, hqueue]
  · rw [deliver_of_not_waiting (s := { s with done := done, finalResult := finalResult }) hwaiting]
    simp [events, inFlight]

/-- Delivery keeps the invariant of a stream that was open before the event. -/
theorem inv_deliver (h : s.Inv) (hopen : s.done = false) (event : T) (done : Bool) (finalResult : Option R) :
    (deliver { s with done := done, finalResult := finalResult } event).Inv := by
  rcases waiting_cases h with ⟨-, hwaiting, -, -⟩ | ⟨hne, hwaiting⟩
  · rw [deliver_of_waiting (s := { s with done := done, finalResult := finalResult }) hwaiting]
    exact rfl
  · rw [deliver_of_not_waiting (s := { s with done := done, finalResult := finalResult }) hwaiting]
    exact inv_of_open h hopen hne _ _ _

theorem push_of_done (h : s.done = true) (event : T) : s.push isComplete extractResult event = s := if_pos h

theorem push_of_open (h : s.done = false) (event : T) :
    s.push isComplete extractResult event =
      deliver { s with
        done := isComplete event
        finalResult := if isComplete event then s.finalResult.or (some (extractResult event)) else s.finalResult } event := by
  unfold push
  rw [h, if_neg Bool.false_ne_true]
  cases hcomplete : isComplete event with
  | true => rfl
  | false =>
    rcases s with ⟨queue, waiting, done, finalResult, iteration, requests, delivered⟩
    obtain rfl : done = false := h
    rfl

theorem inv_push (h : s.Inv) (event : T) : (s.push isComplete extractResult event).Inv := by
  cases hdone : s.done with
  | true =>
    rw [push_of_done hdone]
    exact h
  | false =>
    rw [push_of_open hdone]
    exact inv_deliver h hdone event _ _

theorem events_push (h : s.Inv) (event : T) :
    (s.push isComplete extractResult event).events = s.events ++ if s.done then [] else [event] := by
  cases hdone : s.done with
  | true =>
    rw [push_of_done hdone]
    exact (List.append_nil _).symm
  | false =>
    rw [push_of_open hdone]
    exact events_deliver h event _ _

theorem endWith_of_waiting (h : s.waiting = 1) (result : Option R) :
    s.endWith result =
      { s with waiting := 0, iteration := .resolved none, done := true, finalResult := s.finalResult.or result } := by
  cases result <;> simp [endWith, resolveFinalResult, h]

theorem endWith_of_not_waiting (h : s.waiting = 0) (result : Option R) :
    s.endWith result = { s with done := true, finalResult := s.finalResult.or result } := by
  cases result <;> simp [endWith, resolveFinalResult, h]

theorem inv_endWith (h : s.Inv) (result : Option R) : (s.endWith result).Inv := by
  rcases waiting_cases h with ⟨-, hwaiting, hqueue, -⟩ | ⟨hne, hwaiting⟩
  · rw [endWith_of_waiting hwaiting]
    exact ⟨rfl, hqueue, rfl⟩
  · rw [endWith_of_not_waiting hwaiting]
    exact inv_close h hne _

/-- An end changes no event: the waiters it resolves have none. -/
theorem events_endWith (h : s.Inv) (result : Option R) : (s.endWith result).events = s.events := by
  rcases waiting_cases h with ⟨hiteration, hwaiting, -, -⟩ | ⟨-, hwaiting⟩
  · rw [endWith_of_waiting hwaiting]
    simp [events, inFlight, hiteration]
  · rw [endWith_of_not_waiting hwaiting]
    rfl

theorem endWith_done (s : EventStream T R) (result : Option R) : (s.endWith result).done = true := by
  cases result <;> simp only [endWith] <;> split <;> rfl

theorem endWith_finalResult (s : EventStream T R) (result : Option R) :
    (s.endWith result).finalResult = s.finalResult.or result := by
  cases result with
  | none =>
    rw [Option.or_none]
    simp only [endWith]
    split <;> rfl
  | some result =>
    simp only [endWith]
    split <;> rfl

/-- A step of the generator keeps the invariant, the events and the result, and a closed stream has one such step less
before it. -/
structure Advances (s s' : EventStream T R) : Prop where
  inv : s'.Inv
  events : s'.events = s.events
  done : s'.done = s.done
  finalResult : s'.finalResult = s.finalResult
  remaining : s.done = true → s'.remaining + 1 = s.remaining

theorem advances_round (h : s.Inv) (hround : s.round = some s') : Advances s s' := by
  rcases s with ⟨queue, waiting, done, finalResult, iteration, requests, delivered⟩
  cases iteration with
  | awaiting => exact absurd hround nofun
  | returned => exact absurd hround nofun
  | resolved value => exact absurd hround nofun
  | idle =>
    obtain rfl : waiting = 0 := h
    simp only [round] at hround
    rw [Option.ite_none_left_eq_some] at hround
    have hround := hround.2
    cases queue with
    | cons event queue =>
      obtain rfl := Option.some.inj hround
      exact ⟨rfl, by simp [EventStream.events, inFlight, answer], rfl, rfl, fun _ => rfl⟩
    | nil =>
      obtain rfl := Option.some.inj hround
      cases done with
      | true => exact ⟨⟨rfl, rfl, rfl⟩, rfl, rfl, rfl, fun _ => rfl⟩
      | false => exact ⟨⟨rfl, rfl, rfl⟩, rfl, rfl, rfl, nofun⟩

theorem advances_resume (h : s.Inv) (hresume : s.resume = some s') : Advances s s' := by
  rcases s with ⟨queue, waiting, done, finalResult, iteration, requests, delivered⟩
  cases iteration with
  | awaiting => exact absurd hresume nofun
  | returned => exact absurd hresume nofun
  | idle => exact absurd hresume nofun
  | resolved value =>
    cases value with
    | some event =>
      obtain rfl := Option.some.inj hresume
      exact ⟨h, by simp [EventStream.events, inFlight, answer], rfl, rfl, fun _ => rfl⟩
    | none =>
      obtain rfl := Option.some.inj hresume
      obtain ⟨rfl, rfl, rfl⟩ := h
      exact ⟨⟨rfl, rfl, rfl⟩, rfl, rfl, rfl, fun _ => rfl⟩

theorem inv_step (h : s.Inv) {st : StreamStep T R} (hs : s.step isComplete extractResult st = some s') : s'.Inv := by
  cases st with
  | push event =>
    obtain rfl := Option.some.inj hs
    exact inv_push h event
  | endWith result =>
    obtain rfl := Option.some.inj hs
    exact inv_endWith h result
  | next =>
    obtain rfl := Option.some.inj hs
    exact h
  | round => exact (advances_round h hs).inv
  | resume => exact (advances_resume h hs).inv

theorem push_done_of_open (h : s.done = false) (event : T) :
    (s.push isComplete extractResult event).done = isComplete event := by
  rw [push_of_open h, deliver_done]

theorem push_finalResult_of_open (h : s.done = false) (event : T) :
    (s.push isComplete extractResult event).finalResult =
      if isComplete event then s.finalResult.or (some (extractResult event)) else s.finalResult := by
  rw [push_of_open h, deliver_finalResult]

/-! ### A run -/

open Machine (run run_cons_eq_some)

theorem inv_run {steps : List (StreamStep T R)} (h : s.Inv) (hs : run (step isComplete extractResult) s steps = some s') :
    s'.Inv :=
  Machine.inv_run (fun _ _ _ h hs => inv_step h hs) steps h hs

theorem done_run : ∀ {steps : List (StreamStep T R)} {s : EventStream T R},
    s.Inv → run (step isComplete extractResult) s steps = some s' →
      (s'.done = true ↔ s.done = true ∨ Closed isComplete steps)
  | [], s, _, hs => by
    obtain rfl := Option.some.inj hs
    exact (or_iff_left id).symm
  | st :: steps, s, h, hs => by
    obtain ⟨t, ht, hs⟩ := run_cons_eq_some.mp hs
    rw [done_run (inv_step h ht) hs]
    cases st with
    | push event =>
      obtain rfl := Option.some.inj ht
      cases hdone : s.done with
      | true => rw [push_of_done hdone, hdone, eq_self, true_or, true_or]
      | false =>
        rw [push_done_of_open hdone]
        simp [Closed]
    | endWith result =>
      obtain rfl := Option.some.inj ht
      simp [endWith_done, Closed]
    | next =>
      obtain rfl := Option.some.inj ht
      rfl
    | round =>
      rw [(advances_round h ht).done]
      rfl
    | resume =>
      rw [(advances_resume h ht).done]
      rfl

/-- A run adds the accepted events to an open stream, and none to a closed one. -/
theorem events_run : ∀ {steps : List (StreamStep T R)} {s : EventStream T R},
    s.Inv → run (step isComplete extractResult) s steps = some s' →
      s'.events = s.events ++ if s.done then [] else accepted isComplete steps
  | [], s, _, hs => by
    obtain rfl := Option.some.inj hs
    simp [accepted]
  | st :: steps, s, h, hs => by
    obtain ⟨t, ht, hs⟩ := run_cons_eq_some.mp hs
    rw [events_run (inv_step h ht) hs]
    cases st with
    | push event =>
      obtain rfl := Option.some.inj ht
      rw [events_push h]
      cases hdone : s.done with
      | true => simp [push_of_done hdone, hdone]
      | false =>
        rw [push_done_of_open hdone]
        cases hcomplete : isComplete event <;> simp [accepted, hcomplete]
    | endWith result =>
      obtain rfl := Option.some.inj ht
      simp [events_endWith h, endWith_done, accepted]
    | next =>
      obtain rfl := Option.some.inj ht
      rfl
    | round =>
      rw [(advances_round h ht).events, (advances_round h ht).done]
      rfl
    | resume =>
      rw [(advances_resume h ht).events, (advances_resume h ht).done]
      rfl

/-- A run settles the promise of the result, if it is pending, with the first result the run gives. -/
theorem finalResult_run : ∀ {steps : List (StreamStep T R)} {s : EventStream T R},
    s.Inv → run (step isComplete extractResult) s steps = some s' →
      s'.finalResult =
        s.finalResult.or (if s.done then givenToEnd steps else expectedResult isComplete extractResult steps)
  | [], s, _, hs => by
    obtain rfl := Option.some.inj hs
    simp [givenToEnd, expectedResult]
  | st :: steps, s, h, hs => by
    obtain ⟨t, ht, hs⟩ := run_cons_eq_some.mp hs
    rw [finalResult_run (inv_step h ht) hs]
    cases st with
    | push event =>
      obtain rfl := Option.some.inj ht
      cases hdone : s.done with
      | true =>
        rw [push_of_done hdone, hdone]
        rfl
      | false =>
        rw [push_done_of_open hdone, push_finalResult_of_open hdone]
        cases hcomplete : isComplete event <;> simp [expectedResult, hcomplete]
    | endWith result =>
      obtain rfl := Option.some.inj ht
      rw [endWith_done, endWith_finalResult, Option.or_assoc]
      cases hdone : s.done <;> cases result <;> simp [expectedResult, givenToEnd]
    | next =>
      obtain rfl := Option.some.inj ht
      rfl
    | round =>
      rw [(advances_round h ht).finalResult, (advances_round h ht).done]
      rfl
    | resume =>
      rw [(advances_resume h ht).finalResult, (advances_resume h ht).done]
      rfl

/-! ### The end of the iteration -/

theorem remaining_eq_zero (h : s.Inv) (hdone : s.done = true) : s.remaining = 0 ↔ s.iteration = .returned := by
  rcases s with ⟨queue, waiting, done, finalResult, iteration, requests, delivered⟩
  obtain rfl := hdone
  cases iteration with
  | awaiting => exact absurd h.2.2 Bool.false_ne_true.symm
  | idle => simp [remaining]
  | returned => simp [remaining]
  | resolved value => cases value <;> simp [remaining]

/-- The producer and the requests leave a closed stream to its generator. -/
theorem remaining_endWith (h : s.Inv) (hdone : s.done = true) (result : Option R) :
    (s.endWith result).remaining = s.remaining := by
  rcases waiting_cases h with ⟨-, -, -, hopen⟩ | ⟨-, hwaiting⟩
  · exact absurd (hopen.symm.trans hdone) Bool.false_ne_true
  · rw [endWith_of_not_waiting hwaiting]
    rfl

/-- A run of a closed stream has as many steps of the generator as `remaining` says it took. -/
theorem remaining_run : ∀ {steps : List (StreamStep T R)} {s : EventStream T R},
    s.Inv → s.done = true → run (step isComplete extractResult) s steps = some s' →
      steps.countP (·.ofGenerator) + s'.remaining = s.remaining
  | [], s, _, _, hs => by
    obtain rfl := Option.some.inj hs
    exact Nat.zero_add _
  | st :: steps, s, h, hdone, hs => by
    obtain ⟨t, ht, hrun⟩ := run_cons_eq_some.mp hs
    cases st with
    | push event =>
      obtain rfl := Option.some.inj ht
      rw [push_of_done hdone] at hrun
      rw [List.countP_cons_of_neg Bool.false_ne_true, remaining_run h hdone hrun]
    | endWith result =>
      obtain rfl := Option.some.inj ht
      rw [List.countP_cons_of_neg Bool.false_ne_true,
        remaining_run (inv_endWith h result) (endWith_done s result) hrun, remaining_endWith h hdone]
    | next =>
      obtain rfl := Option.some.inj ht
      rw [List.countP_cons_of_neg Bool.false_ne_true, remaining_run (inv_step h ht) hdone hrun]
      rfl
    | round =>
      have hround := advances_round h ht
      have hrest := remaining_run hround.inv (hround.done.trans hdone) hrun
      rw [List.countP_cons_of_pos rfl, Nat.add_right_comm, hrest]
      exact hround.remaining hdone
    | resume =>
      have hresume := advances_resume h ht
      have hrest := remaining_run hresume.inv (hresume.done.trans hdone) hrun
      rw [List.countP_cons_of_pos rfl, Nat.add_right_comm, hrest]
      exact hresume.remaining hdone

/-- The generator of a closed stream can take a step for a request until it returned. -/
theorem exists_step_of_done (h : s.Inv) (hdone : s.done = true) (hreturned : s.iteration ≠ .returned)
    (hrequests : 0 < s.requests) : ∃ st : StreamStep T R, st.ofGenerator ∧ (s.step isComplete extractResult st).isSome := by
  rcases s with ⟨queue, waiting, done, finalResult, iteration, requests, delivered⟩
  obtain rfl := hdone
  cases iteration with
  | awaiting => exact absurd h.2.2 Bool.false_ne_true.symm
  | returned => exact absurd rfl hreturned
  | idle =>
    refine ⟨.round, rfl, ?_⟩
    simp only [step, round, if_neg (Nat.ne_of_gt hrequests)]
    cases queue <;> rfl
  | resolved value => exact ⟨.resume, rfl, by cases value <;> rfl⟩

theorem delivered_of_returned (h : s.Inv) (hreturned : s.iteration = .returned) : s.delivered = s.events ∧ s.done = true := by
  rcases s with ⟨queue, waiting, done, finalResult, iteration, requests, delivered⟩
  obtain rfl := hreturned
  obtain ⟨-, rfl, rfl⟩ := h
  exact ⟨(List.append_nil _).symm, rfl⟩

/-- In every run from a new stream, the events accepted are those delivered, then the one on its way to the consumer, then
those of the queue, and the result is the one expected. A generator that returned delivered them all, and when the stream
is closed it returns: it can take a step for each request before, and returns after so many. -/
theorem delivered_once {steps : List (StreamStep T R)} (hs : run (step isComplete extractResult) new steps = some s) :
    s.delivered ++ (s.inFlight ++ s.queue) = accepted isComplete steps ∧
      s.finalResult = expectedResult isComplete extractResult steps ∧
      (s.iteration = .returned → Closed isComplete steps ∧ s.delivered = accepted isComplete steps) ∧
      (Closed isComplete steps →
        (s.iteration ≠ .returned → 0 < s.requests →
          ∃ st : StreamStep T R, st.ofGenerator ∧ (s.step isComplete extractResult st).isSome) ∧
        ∃ n, ∀ more s', run (step isComplete extractResult) s more = some s' →
          more.countP (·.ofGenerator) ≤ n ∧
            (more.countP (·.ofGenerator) = n ↔ s'.iteration = .returned) ∧
            (s'.iteration = .returned → s'.delivered = accepted isComplete steps)) := by
  have hinv : s.Inv := inv_run inv_new hs
  have hevents : s.events = accepted isComplete steps := events_run inv_new hs
  have hresult : s.finalResult = expectedResult isComplete extractResult steps := finalResult_run inv_new hs
  have hdone : s.done = true ↔ Closed isComplete steps := (done_run inv_new hs).trans (or_iff_right Bool.false_ne_true)
  refine ⟨hevents, hresult, fun hreturned => ?_, fun hclosed => ⟨exists_step_of_done hinv (hdone.mpr hclosed), s.remaining, ?_⟩⟩
  · obtain ⟨hdelivered, hd⟩ := delivered_of_returned hinv hreturned
    exact ⟨hdone.mp hd, hdelivered.trans hevents⟩
  · intro more s' hmore
    have hinv' : s'.Inv := inv_run hinv hmore
    have hdone' : s'.done = true := (done_run hinv hmore).mpr (Or.inl (hdone.mpr hclosed))
    have hremaining := remaining_run hinv (hdone.mpr hclosed) hmore
    refine ⟨by omega, ?_, fun hreturned => ?_⟩
    · rw [← remaining_eq_zero hinv' hdone']
      omega
    · rw [(delivered_of_returned hinv' hreturned).1, events_run hinv hmore, hdone.mpr hclosed, if_pos rfl, List.append_nil,
        hevents]

/-- A stream of numbers that 0 completes: one event goes through a waiter, one through the queue, and the last push comes
too late. -/
theorem delivered_once_zero :
    ∃ s : EventStream ℕ ℕ,
      run (step (fun n => n == 0) (fun n => n + 7)) new
        [.next, .round, .push 3, .push 0, .push 5, .next, .resume, .next, .round, .round] = some s ∧
      s.iteration = .returned ∧ s.delivered = [3, 0] ∧ s.finalResult = some 7 := by
  have hrun : run (step (fun n => n == 0) (fun n => n + 7)) (new : EventStream ℕ ℕ)
      [.next, .round, .push 3, .push 0, .push 5, .next, .resume, .next, .round, .round] =
        some ⟨[], 0, true, some 7, .returned, 0, [3, 0]⟩ := by decide
  exact ⟨_, hrun, rfl, ((delivered_once hrun).2.2.1 rfl).2, (delivered_once hrun).2.1⟩

end EventStream

end Trek.Ai
