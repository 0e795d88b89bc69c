import UnixCommons.Library.Runs

/-!
# A cache that reloads its buffer when the source has changed

`Cache::get` asks its `CheckStrategy` whether the object has changed. A report of a change
is given once. If the buffer is in use outside, the caller then waits on a condition, one
time, and updates only if the buffer is not in use when it wakes up; otherwise it returns
the buffer as it is. Releasing the last reference wakes all waiting callers.

Everything `get` does happens under one mutex, which only the wait gives up, so an action
of the model is the part of a call between two such points. What the strategy answers and
whether `update()` throws belong to the action, so a run stands for every strategy. A
waiting caller may wake up at any time.

Reports are counted, and `covered` is the number of reports that a successful update has
followed. A call is stale if it returns a buffer while a report that came before the call
began is not covered.
-/

namespace UnixCommons.Generics.FileCache

universe u

/-- What `object_is_changed()` does. -/
inductive Check where
  | unchanged
  | changed
  | throws
  deriving DecidableEq, Repr

/-- `SimpleFileCheckStrategy::object_is_changed`: the answer and the new
`last_modification_time_`, for a file whose modification time can or cannot be read. -/
def objectIsChanged (lastModificationTime : Int) : Option Int → Check × Int
  | none => (.throws, lastModificationTime)
  | some modified =>
    if lastModificationTime < modified then (.changed, modified)
    else (.unchanged, lastModificationTime)

/-- Where a thread stands in `get`; `started` counts the reports made before the call. -/
inductive Call where
  | idle
  | called (started : Nat)
  | waiting (started : Nat)
  deriving DecidableEq, Repr

/-- The cache, its callers and what has been reported. -/
structure State (Thread : Type u) where
  /-- `buffer_` is set: the holder is shared with the outside. -/
  buffer : Bool
  references : Nat
  threads : Thread → Call
  reports : Nat
  covered : Nat
  /-- For every call that returned a buffer, the reports before it began and the reports
  that were covered when it returned. -/
  gets : List (Nat × Nat)

/-- The actions of the threads and of the file. -/
inductive Action (Thread : Type u) where
  | call (thread : Thread)
  /-- The thread has the mutex and asks the strategy. -/
  | check (thread : Thread) (answer : Check) (updates : Bool)
  /-- The wait of the thread returns. -/
  | wake (thread : Thread) (updates : Bool)
  /-- A reference to the buffer is released. -/
  | release
  deriving DecidableEq, Repr

variable {Thread : Type u} [DecidableEq Thread]

/-- The cache as its constructor leaves it. -/
def initial : State Thread where
  buffer := false
  references := 0
  threads := fun _ => .idle
  reports := 0
  covered := 0
  gets := []

/-- The call of the thread ends. -/
def State.leave (state : State Thread) (thread : Thread) : State Thread :=
  { state with threads := Function.update state.threads thread .idle }

/-- The end of `get`: the buffer is shared once more, or given out for the first time. -/
def takeBuffer (thread : Thread) (started : Nat) (state : State Thread) : State Thread :=
  { state.leave thread with
    buffer := true
    references := if state.buffer then state.references + 1 else 1
    gets := state.gets ++ [(started, state.covered)] }

/-- `UPDATER_->update()` and the end of `get`; an exception leaves `get` at once. -/
def update (thread : Thread) (started : Nat) (updates : Bool) (state : State Thread) : State Thread :=
  if updates then
    takeBuffer thread started { state with covered := state.reports }
  else
    state.leave thread

/-- `get` behind the lock of the mutex. -/
def get (thread : Thread) (started : Nat) (answer : Check) (updates : Bool) (state : State Thread) :
    State Thread :=
  match answer with
  | .throws => state.leave thread
  | .unchanged => takeBuffer thread started state
  | .changed =>
    let reported := { state with reports := state.reports + 1 }
    if state.buffer then
      { reported with threads := Function.update state.threads thread (.waiting started) }
    else
      update thread started updates reported

/-- `get` behind the wait. -/
def resume (thread : Thread) (started : Nat) (updates : Bool) (state : State Thread) : State Thread :=
  if state.buffer then takeBuffer thread started state else update thread started updates state

/-- `BufferHolder::remove_ref_no_delete_` of a reference held outside. -/
def removeRef (state : State Thread) : State Thread :=
  if state.references ≤ 1 then
    { state with
      buffer := false
      references := 0 }
  else
    { state with references := state.references - 1 }

/-- One action. What a thread cannot do where it stands leaves the state as it is. -/
def step : Action Thread → State Thread → State Thread
  | .call thread, state =>
    match state.threads thread with
    | .idle => { state with threads := Function.update state.threads thread (.called state.reports) }
    | _ => state
  | .check thread answer updates, state =>
    match state.threads thread with
    | .called started => get thread started answer updates state
    | _ => state
  | .wake thread updates, state =>
    match state.threads thread with
    | .waiting started => resume thread started updates state
    | _ => state
  | .release, state => removeRef state

/-- No call has returned a buffer that misses a change reported before the call began. -/
def Fresh (state : State Thread) : Prop :=
  ∀ returned ∈ state.gets, returned.1 ≤ returned.2
  deriving Decidable

/-- A change is reported only while no buffer is out, and the update that follows the
report succeeds. -/
def Admitted : Action Thread → State Thread → Prop
  | .check thread .changed updates, state =>
    match state.threads thread with
    | .called _ => state.buffer = false ∧ updates = true
    | _ => True
  | _, _ => True

/-- The action reports no change. -/
def Action.Quiet : Action Thread → Prop
  | .check _ .changed _ => False
  | _ => True

/-- The invariant of the runs in which every report is followed by its update: nothing
reported is uncovered, so nobody waits and nothing stale is returned. -/
structure Covered (state : State Thread) : Prop where
  covered : state.covered = state.reports
  calls : ∀ thread started, state.threads thread = .called started → started ≤ state.reports
  nobody : ∀ thread started, state.threads thread ≠ .waiting started
  fresh : Fresh state

omit [DecidableEq Thread] in
theorem initial_covered : Covered (initial : State Thread) where
  covered := rfl
  calls := by simp [initial]
  nobody := by simp [initial]
  fresh := by simp [initial, Fresh]

namespace Covered

variable {state : State Thread}

variable (covered : Covered state)
include covered

theorem leave {thread : Thread} : Covered (state.leave thread) where
  covered := covered.covered
  calls := by
    intro other started stands
    by_cases same : other = thread
    · simp [State.leave, same] at stands
    · exact covered.calls other started (by simpa [State.leave, same] using stands)
  nobody := by
    intro other started
    by_cases same : other = thread
    · simp [State.leave, same]
    · simpa [State.leave, same] using covered.nobody other started
  fresh := covered.fresh

/-- Giving out the buffer keeps every report covered. -/
theorem takeBuffer {thread : Thread} {started : Nat} (early : started ≤ state.reports) :
    Covered (takeBuffer thread started state) where
  covered := covered.covered
  calls := covered.leave.calls
  nobody := covered.leave.nobody
  fresh := by
    intro returned inside
    rcases List.mem_append.mp inside with before | new
    · exact covered.fresh returned before
    · rw [List.mem_singleton.mp new, covered.covered]
      exact early

theorem call {thread : Thread} : Covered (step (.call thread) state) := by
  cases stands : state.threads thread with
  | idle =>
    simp only [step, stands]
    refine ⟨covered.covered, ?_, ?_, covered.fresh⟩
    · intro other started calls
      by_cases same : other = thread
      · have counted : state.reports = started := by simpa [same] using calls
        exact Nat.le_of_eq counted.symm
      · exact covered.calls other started (by simpa [same] using calls)
    · intro other started
      by_cases same : other = thread
      · simp [same]
      · simpa [same] using covered.nobody other started
  | _ => simpa only [step, stands] using covered

/-- An admitted check keeps every report covered. -/
theorem check {thread : Thread} {answer : Check} {updates : Bool}
    (admitted : Admitted (.check thread answer updates) state) :
    Covered (step (.check thread answer updates) state) := by
  cases stands : state.threads thread with
  | called started =>
    have early := covered.calls thread started stands
    simp only [step, stands]
    cases answer with
    | throws => exact covered.leave
    | unchanged => exact covered.takeBuffer early
    | changed =>
      obtain ⟨free, succeeds⟩ : state.buffer = false ∧ updates = true := by
        simpa [Admitted, stands] using admitted
      have reported : Covered { state with reports := state.reports + 1, covered := state.reports + 1 } :=
        { covered := rfl
          calls := fun other began calls => Nat.le_succ_of_le (covered.calls other began calls)
          nobody := covered.nobody
          fresh := covered.fresh }
      simpa [get, update, free, succeeds] using reported.takeBuffer (Nat.le_succ_of_le early)
  | _ => simpa only [step, stands] using covered

/-- An admitted action keeps the invariant. -/
theorem stepped {action : Action Thread} (admitted : Admitted action state) :
    Covered (step action state) := by
  cases action with
  | call thread => exact covered.call
  | check thread answer updates => exact covered.check admitted
  | wake thread updates =>
    cases stands : state.threads thread with
    | waiting started => exact absurd stands (covered.nobody thread started)
    | _ => simpa only [step, stands] using covered
  | release =>
    simp only [step, removeRef]
    split
    · exact ⟨covered.covered, covered.calls, covered.nobody, covered.fresh⟩
    · exact ⟨covered.covered, covered.calls, covered.nobody, covered.fresh⟩

/-- If a report is left without its update, the next call of the same thread that finds no
new change returns the old buffer. -/
theorem stale {action : Action Thread} (missed : ¬ Admitted action state) :
    ∃ more, (∀ later ∈ more, Action.Quiet later) ∧
      ¬ Fresh (Runs.after step more (step action state)) := by
  obtain ⟨thread, updates, rfl⟩ : ∃ thread updates, action = .check thread .changed updates := by
    cases action with
    | check thread answer updates =>
      cases answer with
      | changed => exact ⟨thread, updates, rfl⟩
      | _ => exact absurd trivial missed
    | _ => exact absurd trivial missed
  cases stands : state.threads thread with
  | called started =>
    cases free : state.buffer with
    | true =>
      -- the thread waits, wakes up with the buffer still in use and calls again
      refine ⟨[.wake thread true, .call thread, .check thread .unchanged true], by simp [Action.Quiet], ?_⟩
      intro fresh
      have late := fresh (state.reports + 1, state.reports) (by
        simp [Runs.after, step, stands, get, free, resume, FileCache.takeBuffer, State.leave,
          covered.covered])
      exact absurd late (Nat.not_succ_le_self _)
    | false =>
      -- the update throws and the thread calls again
      have fails : updates = false := by simpa [Admitted, stands, free] using missed
      refine ⟨[.call thread, .check thread .unchanged true], by simp [Action.Quiet], ?_⟩
      intro fresh
      have late := fresh (state.reports + 1, state.reports) (by
        simp [Runs.after, step, stands, get, free, fails, update, FileCache.takeBuffer, State.leave,
          covered.covered])
      exact absurd late (Nat.not_succ_le_self _)
  | idle | waiting => simp [Admitted, stands] at missed

/-- Calls that report no change keep the invariant. -/
theorem quiet {more : List (Action Thread)} (quiet : ∀ later ∈ more, Action.Quiet later) :
    Covered (Runs.after step more state) := by
  have admitted : Runs.Along step Admitted more state := by
    apply Runs.Along.of_forall
    intro later inside reached
    have silent := quiet later inside
    cases later with
    | check thread answer updates =>
      cases answer with
      | changed => exact silent.elim
      | _ => trivial
    | _ => trivial
  exact admitted.invariant (fun _ _ kept allowed => kept.stepped allowed) covered

/-- From a state without uncovered reports, the runs that cover every report at once are
those after no part of which calls that see no change can get an old buffer. -/
theorem along_iff {actions : List (Action Thread)} :
    Runs.Along step Admitted actions state ↔ ∀ part, part <+: actions → ∀ more,
      (∀ later ∈ more, Action.Quiet later) → Fresh (Runs.after step (part ++ more) state) := by
  induction actions generalizing state with
  | nil =>
    constructor
    · intro _ part isPart more quiet
      rw [List.prefix_nil.mp isPart]
      exact (covered.quiet quiet).fresh
    · intro _
      trivial
  | cons action rest ih =>
    constructor
    · rintro ⟨first, remaining⟩ part isPart more quiet
      rcases List.prefix_cons_iff.mp isPart with rfl | ⟨tail, rfl, isTail⟩
      · exact (covered.quiet quiet).fresh
      · exact (ih (covered.stepped first)).mp remaining tail isTail more quiet
    · intro fresh
      have first : Admitted action state := by
        by_contra missed
        obtain ⟨more, quiet, staleAfter⟩ := covered.stale missed
        have isPart : [action] <+: action :: rest :=
          List.prefix_cons_iff.mpr (.inr ⟨[], rfl, rest.nil_prefix⟩)
        exact staleAfter (fresh [action] isPart more quiet)
      refine ⟨first, (ih (covered.stepped first)).mpr ?_⟩
      intro part isPart more quiet
      exact fresh (action :: part) (List.prefix_cons_iff.mpr (.inr ⟨part, rfl, isPart⟩)) more quiet

end Covered

/-- In a run in which every change is reported while no buffer is out, and is followed by a
successful update, no call returns a buffer that misses a change reported before it began. -/
theorem fresh_of_admitted {actions : List (Action Thread)}
    (admitted : Runs.Along step Admitted actions initial) {part : List (Action Thread)}
    (isPart : part <+: actions) : Fresh (Runs.after step part initial) := by
  have fresh := initial_covered.along_iff.mp admitted part isPart [] (by simp)
  rwa [List.append_nil] at fresh

/-- The runs of a cache in which every change is reported while no buffer is out, and is
followed by a successful update, are exactly the runs that lose no change: whatever part
of the run is followed by whatever calls that see no further change, no call returns a
buffer that misses a change reported before the call began. -/
theorem reports_covered_iff (actions : List (Action Thread)) :
    Runs.Along step Admitted actions initial ↔ ∀ part, part <+: actions → ∀ more,
      (∀ later ∈ more, Action.Quiet later) → Fresh (Runs.after step (part ++ more) initial) :=
  initial_covered.along_iff

/-- A file is loaded and its buffer kept. It changes; the second caller is told so and
waits, and the third one is given the buffer that is out. -/
def changeWhileHeld : List (Action (Fin 3)) :=
  [.call 0, .check 0 (objectIsChanged 0 (some 100)).1 true,
    .call 1, .check 1 (objectIsChanged 100 (some 200)).1 true,
    .call 2, .check 2 (objectIsChanged 200 (some 200)).1 true]

theorem changeWhileHeld_stale :
    (Runs.after step changeWhileHeld initial).reports = 2 ∧
    (Runs.after step changeWhileHeld initial).gets = [(0, 1), (2, 1)] ∧
    ¬ Fresh (Runs.after step changeWhileHeld initial) := by
  decide

end UnixCommons.Generics.FileCache
