import UnixCommons.Library.Runs
import Mathlib.Data.List.Induction

/-!
# PeriodicTask

The thread of a periodic task waits for what is left of the period, on a condition that
`enforce_start` and `stop` signal, and then executes the task. It looks for requests only
behind the wait, so a request between the test of its flag and the next wait is missed. A signal
wakes a thread that waits and is lost otherwise; a wait may end at
any moment, by a signal, by its time or without a reason. What the timer measures and whether
the wait throws is given with the steps of the thread. The flags are tested and cleared
outside of the mutex, so that a request may come between any two steps.
-/

namespace UnixCommons.Generics.PeriodicTask

/-- Where the thread stands in `run`. -/
inductive Position where
  /-- At the head of the outer loop. -/
  | top
  /-- Before the wait. -/
  | before
  /-- Blocked in the timed wait, with or without a signal to take. -/
  | waiting (signalled : Bool)
  /-- Behind the wait, at the test of `quit_`. -/
  | woken
  /-- At the test of `start_`. -/
  | unstopped
  /-- In `run_once`. -/
  | executing (forced : Bool)
  | finished
  deriving DecidableEq, Repr

/-- The task: its times, its flags and its thread. -/
structure State where
  period : Int
  elapsed : Int
  wait : Int
  quit : Bool
  start : Bool
  position : Position
  deriving DecidableEq, Repr

def initial (period : Int) : State := ⟨period, 0, 0, false, false, .top⟩

/-- The calls and the steps of the thread. -/
inductive Action where
  | enforceStart
  | stop
  | setPeriod (period : Int)
  /-- One step of the thread. -/
  | run (measured : Int) (throws : Bool)
  deriving DecidableEq, Repr

/-- How long is still to be waited. -/
def waitPeriod (period elapsed : Int) : Int := if elapsed < period then period - elapsed else 0

/-- A signal wakes a waiting thread. -/
def Position.signal : Position → Position
  | .waiting _ => .waiting true
  | position => position

/-- The wait that the thread begins blocks it. One whose time is over does not. -/
def State.Blocks (throws : Bool) (state : State) : Prop := throws = false ∧ 0 < state.wait
  deriving Decidable

/-- One step of the thread. -/
def run (measured : Int) (throws : Bool) (state : State) : State :=
  match state.position with
  | .top => { state with wait := waitPeriod state.period state.elapsed, position := .before }
  | .before =>
    { state with position := if state.Blocks throws then .waiting false else .woken }
  | .waiting _ => { state with position := .woken }
  | .woken =>
    if state.quit then { state with quit := false, position := .finished }
    else { state with position := .unstopped }
  | .unstopped =>
    if state.start then { state with start := false, position := .executing true }
    else
      let elapsed := state.elapsed + measured
      let wait := waitPeriod state.period elapsed
      { state with
        elapsed := elapsed
        wait := wait
        position := if 0 < wait then .before else .executing false }
  | .executing _ => { state with elapsed := measured, position := .top }
  | .finished => state

/-- One action. -/
def step : Action → State → State
  | .enforceStart, state => { state with start := true, position := state.position.signal }
  | .stop, state => { state with quit := true, position := state.position.signal }
  | .setPeriod period, state => { state with period := period }
  | .run measured throws, state => run measured throws state

/-- Something is requested of the thread. -/
def State.Requested (state : State) : Prop := state.quit = true ∨ state.start = true
  deriving Decidable

/-- With a request and no signal the thread is not blocked. -/
def State.Attentive (state : State) : Prop :=
  state.Requested → state.position ≠ .waiting false
  deriving Decidable

/-- No wait that blocks begins with a request. -/
def Admitted : Action → State → Prop
  | .run _ throws, state => state.position = .before ∧ state.Blocks throws → ¬ state.Requested
  | _, _ => True

variable {state : State}

theorem signal_ne (position : Position) : position.signal ≠ .waiting false := by
  cases position <;> simp [Position.signal]

/-- Only the step that begins a wait can block the thread. -/
theorem run_waiting_iff {measured : Int} {throws signalled : Bool} :
    (run measured throws state).position = .waiting signalled ↔
      (state.position = .before ∧ state.Blocks throws) ∧ signalled = false := by
  unfold run
  cases here : state.position with
  | before => by_cases blocks : state.Blocks throws <;> simp [blocks, eq_comm]
  | woken | unstopped =>
    dsimp only
    split_ifs <;> simp
  | top | waiting | executing => simp
  | finished => simp [here]

theorem run_requested_of_before {measured : Int} {throws : Bool}
    (before : state.position = .before) :
    (run measured throws state).Requested ↔ state.Requested := by
  simp only [run, before, State.Requested]

/-- A step keeps the thread attentive exactly if it is admitted. -/
theorem step_attentive_iff (action : Action) (attentive : state.Attentive) :
    (step action state).Attentive ↔ Admitted action state := by
  cases action with
  | enforceStart | stop => exact iff_of_true (fun _ => signal_ne _) trivial
  | setPeriod => exact iff_of_true attentive trivial
  | run measured throws =>
    simp only [step, State.Attentive, Admitted, ne_eq, run_waiting_iff, and_true]
    constructor
    · intro free begins requested
      exact free ((run_requested_of_before begins.1).mpr requested) begins
    · intro free requested begins
      exact free begins ((run_requested_of_before begins.1).mp requested)

/-! ## The requests that are missed -/

/-- A request of a run that no test has seen: behind it the thread made no step from the test of
its flag. -/
def Untested (request : Action) (test : Position) (period : Int) (actions : List Action) : Prop :=
  ∃ front back, actions = front ++ request :: back ∧
    ∀ between measured throws, between ++ [.run measured throws] <+: back →
      (Runs.after step (front ++ request :: between) (initial period)).position ≠ test

section Flag

variable {flag : State → Bool} {request : Action} {test : Position} {period : Int}
  {actions : List Action}

/-- A step that is neither the request nor a test changes nothing about untested requests. -/
theorem untested_append_iff {action : Action} (other : action ≠ request)
    (elsewhere : ∀ measured throws, action = .run measured throws →
      (Runs.after step actions (initial period)).position ≠ test) :
    Untested request test period (actions ++ [action]) ↔ Untested request test period actions := by
  constructor
  · rintro ⟨front, back, split, untested⟩
    rcases List.eq_nil_or_concat back with rfl | ⟨back, last, rfl⟩
    · exact absurd (List.append_inj_right' split rfl) (by simpa using other)
    · have shorter : actions = front ++ request :: back := by
        have ends : actions ++ [action] = (front ++ request :: back) ++ [last] := by simpa using split
        exact List.append_inj_left' ends rfl
      refine ⟨front, back, shorter, fun between measured throws inside => ?_⟩
      exact untested between measured throws (inside.trans (by simp))
  · rintro ⟨front, back, rfl, untested⟩
    refine ⟨front, back ++ [action], by simp, fun between measured throws inside => ?_⟩
    rcases List.prefix_concat_iff.mp (by simpa using inside) with whole | before
    · obtain ⟨rfl, last⟩ := List.append_inj' whole rfl
      exact elsewhere measured throws (by simpa using last.symm)
    · exact untested between measured throws before

/-- A flag that its request sets and its test clears is set exactly behind a request that no test
has seen. -/
theorem flag_iff (sets : ∀ state, flag (step request state) = true)
    (clears : ∀ measured throws state, state.position = test →
      flag (step (.run measured throws) state) = false)
    (keeps : ∀ action state, action ≠ request →
      (∀ measured throws, action = .run measured throws → state.position ≠ test) →
        flag (step action state) = flag state)
    (unset : flag (initial period) = false) :
    flag (Runs.after step actions (initial period)) = true ↔
      Untested request test period actions := by
  induction actions using List.reverseRecOn with
  | nil =>
    refine iff_of_false (by simp [Runs.after, unset]) ?_
    rintro ⟨front, back, split, -⟩
    simp at split
  | append_singleton actions action ih =>
    rw [Runs.after_append_singleton]
    by_cases own : action = request
    · subst own
      refine iff_of_true (sets _) ⟨actions, [], by simp, fun between measured throws inside => ?_⟩
      simp at inside
    · by_cases tested : ∃ measured throws, action = .run measured throws ∧
          (Runs.after step actions (initial period)).position = test
      · obtain ⟨measured, throws, rfl, here⟩ := tested
        refine iff_of_false (by simp [clears measured throws _ here]) ?_
        rintro ⟨front, back, split, untested⟩
        rcases List.eq_nil_or_concat back with rfl | ⟨back, last, rfl⟩
        · exact absurd (List.append_inj_right' split rfl) (by simpa using own)
        · have ends : actions ++ [.run measured throws] = (front ++ request :: back) ++ [last] := by
            simpa using split
          obtain ⟨rfl, same⟩ := List.append_inj' ends rfl
          exact untested back measured throws (by simp [same]) here
      · have elsewhere : ∀ measured throws, action = .run measured throws →
            (Runs.after step actions (initial period)).position ≠ test :=
          fun measured throws run here => tested ⟨measured, throws, run, here⟩
        rw [keeps _ _ own elsewhere, ih, untested_append_iff own elsewhere]

end Flag

/-- The test of `quit_` leaves it cleared, and no other step of the thread changes it. -/
theorem run_quit {measured : Int} {throws : Bool} :
    (run measured throws state).quit = if state.position = .woken then false else state.quit := by
  unfold run
  cases here : state.position with
  | woken => cases state.quit <;> simp
  | unstopped => cases state.start <;> simp
  | top | before | waiting | executing | finished => simp

/-- The same for `start_`. -/
theorem run_start {measured : Int} {throws : Bool} :
    (run measured throws state).start =
      if state.position = .unstopped then false else state.start := by
  unfold run
  cases here : state.position with
  | woken => cases state.quit <;> simp
  | unstopped => cases state.start <;> simp
  | top | before | waiting | executing | finished => simp

/-- A stop is open until the test of `quit_` behind a wait, a start until that of `start_`. -/
theorem requested_iff (period : Int) (actions : List Action) :
    (Runs.after step actions (initial period)).Requested ↔
      Untested .stop .woken period actions ∨ Untested .enforceStart .unstopped period actions := by
  apply or_congr
  · refine @flag_iff State.quit _ _ _ _ (fun _ => rfl) ?_ ?_ rfl
    · intro measured throws state here
      simp [step, run_quit, here]
    · intro action state other elsewhere
      cases action with
      | enforceStart | setPeriod => rfl
      | stop => exact absurd rfl other
      | run measured throws => simp [step, run_quit, elsewhere measured throws rfl]
  · refine @flag_iff State.start _ _ _ _ (fun _ => rfl) ?_ ?_ rfl
    · intro measured throws state here
      simp [step, run_start, here]
    · intro action state other elsewhere
      cases action with
      | stop | setPeriod => rfl
      | enforceStart => exact absurd rfl other
      | run measured throws => simp [step, run_start, elsewhere measured throws rfl]

/-- The thread never waits without a signal while something is requested exactly when no wait
that blocks begins behind a request made since the last test of its flag. -/
theorem attentive_iff (period : Int) (actions : List Action) :
    (∀ part, part <+: actions → (Runs.after step part (initial period)).Attentive) ↔
      ∀ part measured throws, part ++ [.run measured throws] <+: actions →
        (Runs.after step part (initial period)).position = .before →
        (Runs.after step part (initial period)).Blocks throws →
          ¬ (Untested .stop .woken period part ∨ Untested .enforceStart .unstopped period part) := by
  rw [← Runs.along_iff_invariant (fun action _ => step_attentive_iff action) nofun,
    Runs.along_iff_forall]
  constructor
  · intro every part measured throws inside before blocks
    rw [← requested_iff]
    exact every part _ inside ⟨before, blocks⟩
  · intro every part action inside
    cases action with
    | run measured throws =>
      rintro ⟨before, blocks⟩
      rw [requested_iff]
      exact every part measured throws inside before blocks
    | enforceStart | stop | setPeriod => trivial

/-- A start that is enforced while the task is executed: the execution ends, and the thread
waits for a whole period. -/
theorem start_missed : ¬ (Runs.after step
    [.run 0 false, .run 0 false, .run 0 false, .run 0 false, .run 10 false, .enforceStart,
      .run 0 false, .run 0 false, .run 0 false] (initial 10)).Attentive := by
  decide

end UnixCommons.Generics.PeriodicTask
