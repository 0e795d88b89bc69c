import UnixCommons.UServerUtils.FileManager
import Mathlib.Data.List.Perm.Basic
import Mathlib.Data.List.Nodup
import Mathlib.Data.List.Count

/-!
# Every request is answered once

The invariant accounts for every request, every token of the semaphore and every piece of
user data: a request has been answered, is on its way through the ring, or waits in the
queue; each event in the queue has a token, or somebody is about to raise one, or the
thread has already taken it. From that follows that nothing is answered or deleted twice,
and that a system that cannot go on has answered everything. That it cannot go on forever
is shown by a measure that every step lowers.

All of it holds as long as the semaphore is raised for every request, so with assertions
compiled in, and every submit accepts all entries of the ring.
-/

namespace UnixCommons.UServerUtils.FileManager

open List

/-! ## The condition -/

/-- The entry that is prepared is accepted together with all that are left in the ring. -/
def Submission.Accepts (submission : Submission) (state : State) : Prop :=
  (state.ring.length + 1 : Int) ≤ submission.result

/-- The condition on an action. The semaphore is raised for a request; the read of the
semaphore finds an entry, or an operation is left to wake the thread; a submit accepts
everything. -/
def Admitted (config : Config) : Action → State → Prop
  | .add, _ => config.assertions = true
  | .turn submission, state =>
    ¬ (state.isStopped ∧ state.numberRemainOperations = 0) → state.isSemaphoreSet = false →
      (submission.sqe = true → submission.Accepts state) ∧
      (submission.sqe = false → state.numberRemainOperations ≠ 0)
  | .take submission, state => submission.sqe = true → submission.Accepts state
  | _, _ => True

instance decidableAdmitted (config : Config) :
    ∀ action state, Decidable (Admitted config action state)
  | .add, _ => inferInstanceAs (Decidable (config.assertions = true))
  | .turn submission, state =>
    inferInstanceAs (Decidable (
      ¬ (state.isStopped ∧ state.numberRemainOperations = 0) → state.isSemaphoreSet = false →
        (submission.sqe = true → (state.ring.length + 1 : Int) ≤ submission.result) ∧
        (submission.sqe = false → state.numberRemainOperations ≠ 0)))
  | .take submission, state =>
    inferInstanceAs (Decidable (submission.sqe = true →
      (state.ring.length + 1 : Int) ≤ submission.result))
  | .emplace _, _ | .close, _ | .closeAdd, _ | .complete _ _, _ | .handle, _ => .isTrue trivial

/-! ## The invariant -/

/-- The request of an entry. -/
def Entry.request? (entry : Entry) : Option Nat :=
  match entry.type with
  | .semaphore => none
  | .operation number => some number

/-- The request of an event. -/
def Event.request? : Event → Option Nat
  | .request number => some number
  | .close => none

/-- The entries that were accepted and are not handled yet. -/
def State.outstanding (state : State) : List Entry :=
  state.accepted ++ state.completed.map Prod.fst

/-- The events that the thread has still to take. -/
def Position.count : Position → Nat
  | .taking count => count
  | _ => 0

/-- The token that the destructor has still to add. -/
def Closing.due : Closing → Nat
  | .queued => 1
  | _ => 0

/-- The semaphore reads among entries. -/
def semaphores (entries : List Entry) : Nat :=
  entries.countP fun entry => entry.request?.isNone

/-- The requests of entries. -/
def requests (entries : List Entry) : List Nat := entries.filterMap Entry.request?

/-- What holds in every state of a run. -/
structure Sound (state : State) : Prop where
  ring : state.ring = []
  tokens : state.semaphore + semaphores (state.completed.map Prod.fst) + state.position.count
    + state.adding + state.closing.due = state.queue.length
  remain : state.numberRemainOperations = ((requests state.outstanding).length : Int)
  armed : semaphores state.outstanding = state.isSemaphoreSet.toNat
  busy : state.position ≠ .taking 0
  /-- The thread waits for something. -/
  awake : state.position = .waiting → state.isSemaphoreSet = false →
    state.numberRemainOperations ≠ 0
  finished : state.position = .finished →
    state.isStopped = true ∧ state.numberRemainOperations = 0
  /-- The closing event is the last one. -/
  closes : .close ∉ state.queue.dropLast
  notYet : state.closing = .notYet → .close ∉ state.queue
  stopped : state.isStopped = true → state.queue = [] ∧ state.closing ≠ .notYet
  answers : (state.called.map Prod.fst ++ (requests state.outstanding
    ++ state.queue.filterMap Event.request?)).Perm (List.range state.issued)
  pointers : (state.consumed ++ state.outstanding.map Entry.pointer).Nodup
  allocated : ∀ pointer ∈ state.consumed ++ state.outstanding.map Entry.pointer,
    pointer < state.allocated

theorem initial_sound : Sound initial where
  ring := rfl
  tokens := rfl
  remain := rfl
  armed := rfl
  busy := by simp [initial]
  awake := by simp [initial]
  finished := by simp [initial]
  closes := by simp [initial]
  notYet := by simp [initial]
  stopped := by simp [initial]
  answers := List.Perm.refl _
  pointers := by simp [initial, State.outstanding]
  allocated := by simp [initial, State.outstanding]

variable {index request count : Nat} {result : Int} {action : Action} {entry : Entry}
  {config : Config} {submission : Submission} {state next : State}

/-! ## What a step can do -/

/-- The steps that the condition admits when nothing is left in the ring. -/
inductive Fires (config : Config) (state : State) : Action → State → Prop
  /-- A request joins the queue. -/
  | join (before : state.closing = .notYet) : Fires config state (.emplace true)
      { state with
        queue := state.queue ++ [.request state.issued]
        issued := state.issued + 1
        adding := state.adding + 1 }
  /-- A request that finds the queue full is answered at once. -/
  | refuse : Fires config state (.emplace false)
      { state with
        issued := state.issued + 1
        called := state.called ++ [(state.issued, cancelled)] }
  /-- The semaphore is raised for a request. -/
  | raise (some : state.adding ≠ 0) : Fires config state .add
      { state with
        adding := state.adding - 1
        semaphore := state.semaphore + 1 }
  /-- The closing event joins the queue. -/
  | close (before : state.closing = .notYet) : Fires config state .close
      { state with
        queue := state.queue ++ [.close]
        closing := .queued }
  /-- The destructor raises the semaphore. -/
  | closeAdd (before : state.closing = .queued) : Fires config state .closeAdd
      { state with
        closing := .signalled
        semaphore := state.semaphore + 1 }
  /-- The thread leaves the loop. -/
  | finish {submission : Submission} (top : state.position = .top)
      (ended : state.isStopped = true ∧ state.numberRemainOperations = 0) :
      Fires config state (.turn submission) { state with position := .finished }
  /-- The thread waits. -/
  | wait {submission : Submission} (top : state.position = .top)
      (awake : state.isSemaphoreSet = false → state.numberRemainOperations ≠ 0) :
      Fires config state (.turn submission) { state with position := .waiting }
  /-- The thread submits a read of the semaphore and waits. -/
  | rearm {submission : Submission} (top : state.position = .top)
      (unset : state.isSemaphoreSet = false) : Fires config state (.turn submission)
      { state with
        accepted := state.accepted ++ [⟨state.allocated, .semaphore⟩]
        allocated := state.allocated + 1
        isSemaphoreSet := true
        position := .waiting }
  /-- The kernel completes an entry; a read of the semaphore takes its token. -/
  | complete {index semaphore : Nat} {entry : Entry} {result : Int}
      (found : state.accepted[index]? = some entry)
      (token : semaphore + semaphores [entry] = state.semaphore) :
      Fires config state (.complete index result)
        { completeEntry index entry result state with semaphore := semaphore }
  | handle {entry : Entry} {result : Int} {rest : List (Entry × Int)}
      (waiting : state.position = .waiting) (completed : state.completed = (entry, result) :: rest) :
      Fires config state .handle (handleCompletion config entry result { state with completed := rest })
  | takeClose {submission : Submission} {count : Nat} {rest : List Event}
      (taking : state.position = .taking (count + 1)) (queue : state.queue = .close :: rest) :
      Fires config state (.take submission)
        { state with
          queue := rest
          position := .next count
          isStopped := true }
  /-- A request whose operation finds no entry is answered at once. -/
  | takeRefused {submission : Submission} {count request : Nat} {rest : List Event}
      (taking : state.position = .taking (count + 1)) (queue : state.queue = .request request :: rest) :
      Fires config state (.take submission)
        { state with
          queue := rest
          position := .next count
          called := state.called ++ [(request, cancelled)] }
  | takeAccepted {submission : Submission} {count request : Nat} {rest : List Event}
      (taking : state.position = .taking (count + 1)) (queue : state.queue = .request request :: rest) :
      Fires config state (.take submission)
        { state with
          queue := rest
          position := .next count
          accepted := state.accepted ++ [⟨state.allocated, .operation request⟩]
          allocated := state.allocated + 1
          numberRemainOperations := state.numberRemainOperations + 1 }

/-- Everything that was prepared is accepted. -/
theorem submit_prepared (empty : state.ring = []) (type : Completion)
    (accepts : submission.Accepts state) :
    0 < submission.result ∧ submit submission.result (prepare type state) =
      { state with
        accepted := state.accepted ++ [⟨state.allocated, type⟩]
        allocated := state.allocated + 1 } := by
  simp only [Submission.Accepts] at accepts
  have room : 1 ≤ submission.result.toNat := by omega
  have taken : [(⟨state.allocated, type⟩ : Entry)].take submission.result.toNat =
      [⟨state.allocated, type⟩] := take_of_length_le room
  have left : [(⟨state.allocated, type⟩ : Entry)].drop submission.result.toNat = [] :=
    drop_of_length_le room
  refine ⟨by omega, ?_⟩
  simp only [submit, prepare, empty, nil_append, taken, left]

/-- The head of the loop. -/
theorem fires_turn (empty : state.ring = []) (admitted : Admitted config (.turn submission) state)
    (fired : fire config (.turn submission) state = some next) :
    Fires config state (.turn submission) next := by
  simp only [fire] at fired
  split_ifs at fired with top ended set
  · cases fired
    exact .finish top ended
  · cases fired
    exact .wait top (by simp [set])
  · rw [Bool.not_eq_true] at set
    have condition := admitted ended set
    cases fired
    cases sqe : submission.sqe with
    | false =>
      simp only [createSemaphoreEvent, sqe, Bool.false_eq_true]
      rw [← set]
      exact .wait top (fun _ => condition.2 sqe)
    | true =>
      obtain ⟨positive, taken⟩ := submit_prepared empty .semaphore (condition.1 sqe)
      simp only [createSemaphoreEvent, sqe, Int.not_lt.mpr (Int.le_of_lt positive), taken]
      exact .rearm top set

/-- Taking an event, case by case. -/
theorem fires_take (empty : state.ring = []) (admitted : Admitted config (.take submission) state)
    (fired : fire config (.take submission) state = some next) :
    Fires config state (.take submission) next := by
  simp only [fire] at fired
  split at fired
  case h_2 => cases fired
  rename_i count event rest taking queue
  cases event with
  | close =>
    cases fired
    exact .takeClose taking queue
  | request request =>
    cases fired
    cases sqe : submission.sqe with
    | false =>
      simp only [createReadOrWriteEvent, sqe]
      exact .takeRefused taking queue
    | true =>
      obtain ⟨positive, taken⟩ := @submit_prepared submission
        { state with queue := rest, position := .next count } empty (.operation request) (admitted sqe)
      simp only [createReadOrWriteEvent, sqe, positive, taken]
      exact .takeAccepted taking queue

/-- These are all the steps. -/
theorem fires_of_fire (empty : state.ring = []) (admitted : Admitted config action state)
    (fired : fire config action state = some next) : Fires config state action next := by
  cases action with
  | emplace fits =>
    simp only [fire] at fired
    split_ifs at fired with early fit
    · cases fired
      cases fit
      exact .join early
    · cases fired
      cases (Bool.not_eq_true _).mp fit
      exact .refuse
  | add =>
    simp only [fire, show config.assertions = true from admitted] at fired
    split_ifs at fired with none
    cases fired
    exact .raise none
  | close =>
    simp only [fire] at fired
    split_ifs at fired with early
    cases fired
    exact .close early.1
  | closeAdd =>
    simp only [fire] at fired
    split_ifs at fired with queued
    cases fired
    exact .closeAdd queued
  | turn submission => exact fires_turn empty admitted fired
  | complete index result =>
    simp only [fire] at fired
    split at fired
    case h_1 => cases fired
    rename_i entry found
    split at fired
    case h_1 number type =>
      cases fired
      exact .complete found (by simp [semaphores, Entry.request?, type])
    case h_2 type =>
      split_ifs at fired with none
      cases fired
      refine .complete found ?_
      simp only [semaphores, Entry.request?, type, countP_cons, countP_nil, Option.isNone_none, if_true]
      omega
  | handle =>
    simp only [fire] at fired
    split at fired
    case h_2 => cases fired
    rename_i waiting completed
    cases fired
    exact .handle waiting completed
  | take submission => exact fires_take empty admitted fired

namespace Sound

/-! ## The kernel -/

/-- A completion moves an entry from one ring to the other. -/
theorem complete_outstanding (result : Int) (found : state.accepted[index]? = some entry) :
    (completeEntry index entry result state).outstanding.Perm state.outstanding := by
  obtain ⟨inside, rfl⟩ := List.getElem?_eq_some_iff.mp found
  have taken := getElem_cons_eraseIdx_perm inside
  rw [perm_iff_count]
  intro other
  have counted := taken.count_eq other
  simp only [State.outstanding, completeEntry, map_append, map_cons, map_nil,
    count_append, count_cons, count_nil] at counted ⊢
  omega

/-- A completion keeps the state sound. -/
theorem complete (sound : Sound state) {result : Int} (found : state.accepted[index]? = some entry)
    {semaphore : Nat} (token : semaphore + semaphores [entry] = state.semaphore) :
    Sound { completeEntry index entry result state with semaphore := semaphore } := by
  have moved := complete_outstanding result found
  exact {
    __ := sound
    tokens := by
      have tokens := sound.tokens
      simp only [completeEntry, semaphores, map_append, countP_append, map_cons,
        map_nil] at tokens token ⊢
      omega
    remain := sound.remain.trans (congrArg Int.ofNat (moved.filterMap _).length_eq.symm)
    armed := (moved.countP_eq _).trans sound.armed
    answers := (((moved.filterMap _).append_right _).append_left _).trans sound.answers
    pointers := ((moved.map _).append_left _).nodup_iff.mpr sound.pointers
    allocated := by
      intro pointer inside
      exact sound.allocated pointer (((moved.map _).append_left _).subset inside) }

/-! ## The thread -/

/-- An accepted entry joins the outstanding ones. -/
theorem accept_outstanding (state : State) (entry : Entry) :
    (state.accepted ++ [entry] ++ state.completed.map Prod.fst).Perm
      (entry :: state.outstanding) := by
  simp only [append_assoc]
  exact perm_middle

/-- The pointers stay distinct when an entry is accepted. -/
theorem accept_pointers (sound : Sound state) {type : Completion} :
    (state.consumed ++ (state.accepted ++ [(⟨state.allocated, type⟩ : Entry)]
      ++ state.completed.map Prod.fst).map Entry.pointer).Nodup := by
  have joined := (accept_outstanding state ⟨state.allocated, type⟩).map Entry.pointer
  rw [(joined.append_left _).nodup_iff, map_cons, perm_middle.nodup_iff,
    nodup_cons]
  exact ⟨fun inside => Nat.lt_irrefl _ (sound.allocated _ inside), sound.pointers⟩

/-- The pointers in use are allocated. -/
theorem accept_allocated (sound : Sound state) {type : Completion} :
    ∀ pointer ∈ state.consumed ++ (state.accepted ++ [(⟨state.allocated, type⟩ : Entry)]
      ++ state.completed.map Prod.fst).map Entry.pointer, pointer < state.allocated + 1 := by
  intro pointer inside
  have joined := (accept_outstanding state ⟨state.allocated, type⟩).map Entry.pointer
  have place := ((joined.append_left _).trans perm_middle).subset inside
  rcases mem_cons.mp place with rfl | before
  · exact Nat.lt_succ_self _
  · exact Nat.lt_succ_of_lt (sound.allocated pointer before)

/-- The thread submits a read of the semaphore and waits. -/
theorem rearm (sound : Sound state) (top : state.position = .top)
    (unset : state.isSemaphoreSet = false) :
    Sound { state with
      accepted := state.accepted ++ [⟨state.allocated, .semaphore⟩]
      allocated := state.allocated + 1
      isSemaphoreSet := true
      position := .waiting } where
  __ := sound
  tokens := by
    have tokens := sound.tokens
    rw [top] at tokens
    exact tokens
  remain := by
    have joined := (accept_outstanding state ⟨state.allocated, .semaphore⟩).filterMap Entry.request?
    exact sound.remain.trans (congrArg Int.ofNat joined.length_eq.symm)
  armed := by
    have joined := (accept_outstanding state ⟨state.allocated, .semaphore⟩).countP_eq
      (fun entry => entry.request?.isNone)
    have before := sound.armed
    rw [unset] at before
    simp only [semaphores, countP_cons] at before joined
    rw [before] at joined
    exact joined
  busy := by simp
  awake := by simp
  finished := by simp
  answers := by
    have joined := (accept_outstanding state ⟨state.allocated, .semaphore⟩).filterMap Entry.request?
    exact ((joined.append_right _).append_left _).trans sound.answers
  pointers := sound.accept_pointers
  allocated := sound.accept_allocated

variable {rest : List (Entry × Int)}

/-- A handled entry was outstanding. -/
theorem handle_outstanding (completed : state.completed = (entry, result) :: rest) :
    state.outstanding.Perm (entry :: (state.accepted ++ rest.map Prod.fst)) := by
  simp only [State.outstanding, completed]
  exact perm_middle

/-- The user data of a handled entry is deleted. -/
theorem handle_consumed (completed : state.completed = (entry, result) :: rest) :
    (state.consumed ++ [entry.pointer] ++ (state.accepted ++ rest.map Prod.fst).map
      Entry.pointer).Perm (state.consumed ++ state.outstanding.map Entry.pointer) := by
  have left := (handle_outstanding completed).map Entry.pointer
  simp only [append_assoc]
  exact (left.append_left _).symm

/-- The thread handles the read of the semaphore. -/
theorem handle_semaphore (sound : Sound state) {config : Config}
    (waiting : state.position = .waiting) (completed : state.completed = (entry, result) :: rest)
    (type : entry.type = .semaphore) :
    Sound (handleCompletion config entry result { state with completed := rest }) := by
  have left := handle_outstanding completed
  have deleted := handle_consumed completed
  have noRequest : entry.request? = none := by simp [Entry.request?, type]
  simp only [handleCompletion, type]
  exact {
    __ := sound
    tokens := by
      have tokens := sound.tokens
      simp only [completed, waiting, semaphores, Position.count, map_cons,
        countP_cons, noRequest, Option.isNone_none, if_true] at tokens ⊢
      omega
    remain := by
      have same := left.filterMap Entry.request?
      rw [filterMap_cons_none noRequest] at same
      exact sound.remain.trans (congrArg Int.ofNat same.length_eq)
    armed := by
      have same := left.countP_eq (fun entry => entry.request?.isNone)
      have before := sound.armed
      have atMost := Bool.toNat_le state.isSemaphoreSet
      simp only [semaphores, countP_cons, noRequest, Option.isNone_none, if_true,
        State.outstanding, Bool.toNat_false] at same before ⊢
      omega
    busy := by simp
    awake := by simp
    finished := by simp
    answers := by
      have same := left.filterMap Entry.request?
      rw [filterMap_cons_none noRequest] at same
      exact ((same.symm.append_right _).append_left _).trans sound.answers
    pointers := deleted.nodup_iff.mpr sound.pointers
    allocated := by
      intro pointer inside
      exact sound.allocated pointer (deleted.subset inside) }

/-- The thread calls the callback of a completed operation. -/
theorem handle_operation (sound : Sound state) {config : Config}
    (waiting : state.position = .waiting) (completed : state.completed = (entry, result) :: rest)
    (type : entry.type = .operation request) :
    Sound (handleCompletion config entry result { state with completed := rest }) := by
  have left := handle_outstanding completed
  have deleted := handle_consumed completed
  have own : entry.request? = some request := by simp [Entry.request?, type]
  have same := left.filterMap Entry.request?
  rw [filterMap_cons_some own] at same
  simp only [handleCompletion, type]
  exact {
    __ := sound
    tokens := by
      have tokens := sound.tokens
      simp only [completed, waiting, semaphores, Position.count, map_cons,
        countP_cons, own, Option.isNone_some, Bool.false_eq_true, if_false] at tokens ⊢
      omega
    remain := by
      have before := sound.remain
      have longer := same.length_eq
      simp only [requests, State.outstanding, length_cons] at before longer ⊢
      omega
    armed := by
      have kept := left.countP_eq (fun entry => entry.request?.isNone)
      have before := sound.armed
      simp only [semaphores, countP_cons, own, Option.isNone_some, Bool.false_eq_true,
        if_false, State.outstanding] at kept before ⊢
      omega
    busy := by simp
    awake := by simp
    finished := by simp
    answers := by
      rw [perm_iff_count]
      intro other
      have before := sound.answers.count_eq other
      have counted := same.count_eq other
      simp only [requests, State.outstanding, map_append, map_cons, map_nil,
        count_append, count_cons, count_nil] at before counted ⊢
      omega
    pointers := deleted.nodup_iff.mpr sound.pointers
    allocated := by
      intro pointer inside
      exact sound.allocated pointer (deleted.subset inside) }

theorem count_next (count : Nat) : (Position.next count).count = count := by
  cases count <;> rfl

theorem next_ne {count : Nat} : Position.next count ≠ .taking 0 ∧
    Position.next count ≠ .waiting ∧ Position.next count ≠ .finished := by
  cases count <;> simp [Position.next]

variable {rest : List Event}

section

variable (sound : Sound state) (taking : state.position = .taking (count + 1))
include sound taking

/-- The thread has taken an event. -/
theorem take_event {event : Event} (queue : state.queue = event :: rest) {isStopped : Bool}
    {called : List (Nat × Int)}
    (stopped : isStopped = true → rest = [] ∧ state.closing ≠ .notYet)
    (answers : (called.map Prod.fst ++ (requests state.outstanding
      ++ rest.filterMap Event.request?)).Perm (List.range state.issued)) :
    Sound { state with
      queue := rest
      position := .next count
      isStopped := isStopped
      called := called } where
  __ := sound
  tokens := by
    have tokens := sound.tokens
    simp only [queue, taking, Position.count, length_cons] at tokens
    simp only [count_next]
    omega
  busy := next_ne.1
  awake := by
    intro waiting
    exact absurd waiting next_ne.2.1
  finished := by
    intro finished
    exact absurd finished next_ne.2.2
  closes := by
    intro inside
    apply sound.closes
    rw [queue]
    cases rest with
    | nil => cases inside
    | cons first rest => exact mem_cons_of_mem _ inside
  notYet := by
    intro early inside
    apply sound.notYet early
    rw [queue]
    exact mem_cons_of_mem _ inside
  stopped := stopped
  answers := answers

/-- Taking the closing event keeps the state sound. -/
theorem take_close (queue : state.queue = .close :: rest) :
    Sound { state with
      queue := rest
      position := .next count
      isStopped := true } := by
  refine sound.take_event taking queue (fun _ => ⟨?_, fun early => ?_⟩) (queue ▸ sound.answers :)
  · cases rest with
    | nil => rfl
    | cons first rest => exact absurd (queue ▸ mem_cons_self) sound.closes
  · exact sound.notYet early (queue ▸ mem_cons_self)

/-- Refusing a request keeps the state sound. -/
theorem take_refused (queue : state.queue = .request request :: rest) :
    Sound { state with
      queue := rest
      position := .next count
      called := state.called ++ [(request, cancelled)] } := by
  refine sound.take_event taking queue (fun stopped => ?_) ?_
  · have empty := (sound.stopped stopped).1
    rw [queue] at empty
    cases empty
  · rw [perm_iff_count]
    intro other
    have before := sound.answers.count_eq other
    have own : Event.request? (.request request) = some request := rfl
    rw [queue, filterMap_cons_some own] at before
    simp only [State.outstanding, map_append, map_cons, map_nil,
      count_append, count_cons, count_nil] at before ⊢
    omega

/-- A request whose operation is accepted. -/
theorem take_accepted (queue : state.queue = .request request :: rest) :
    Sound { state with
      queue := rest
      position := .next count
      accepted := state.accepted ++ [⟨state.allocated, .operation request⟩]
      allocated := state.allocated + 1
      numberRemainOperations := state.numberRemainOperations + 1 } := by
  have joined := (accept_outstanding state ⟨state.allocated, .operation request⟩)
  have counted := joined.filterMap Entry.request?
  have own : Entry.request? ⟨state.allocated, .operation request⟩ = some request := rfl
  have kept := joined.countP_eq (fun entry => entry.request?.isNone)
  rw [filterMap_cons_some own] at counted
  have refused := sound.take_refused taking queue
  exact {
    __ := refused
    remain := by
      have before := sound.remain
      have longer := counted.length_eq
      simp only [requests, State.outstanding, length_cons] at before longer ⊢
      omega
    armed := kept.trans sound.armed
    awake := by
      intro waiting
      exact absurd waiting next_ne.2.1
    finished := by
      intro finished
      exact absurd finished next_ne.2.2
    answers := by
      rw [perm_iff_count]
      intro other
      have before := refused.answers.count_eq other
      have more := counted.count_eq other
      simp only [requests, State.outstanding, map_append, map_cons, map_nil,
        count_append, count_cons, count_nil] at before more ⊢
      omega
    pointers := sound.accept_pointers
    allocated := sound.accept_allocated }

end

/-- One step keeps the invariant. -/
theorem fires (sound : Sound state) (fires : Fires config state action next) : Sound next := by
  have tokens := sound.tokens
  cases fires with
  | join before => exact {
      __ := sound
      tokens := by
        simp only [length_append, length_singleton]
        omega
      closes := by simpa using sound.notYet before
      notYet := by
        intro _
        simpa using sound.notYet before
      stopped := by
        intro stopped
        exact absurd before (sound.stopped stopped).2
      answers := by
        rw [range_succ, perm_iff_count]
        intro request
        have before := sound.answers.count_eq request
        simp only [filterMap_append, count_append, State.outstanding] at before ⊢
        simp only [Event.request?, filterMap_cons, filterMap_nil]
        omega }
  | refuse => exact {
      __ := sound
      answers := by
        rw [range_succ, perm_iff_count]
        intro request
        have before := sound.answers.count_eq request
        simp only [map_append, count_append, map_cons, map_nil] at before ⊢
        simp only [State.outstanding] at before ⊢
        omega }
  | raise some => exact {
      __ := sound
      tokens := by
        dsimp only
        omega }
  | close before => exact {
      __ := sound
      tokens := by
        rw [before] at tokens
        simp only [Closing.due, length_append, length_singleton] at tokens ⊢
        omega
      closes := by simpa using sound.notYet before
      notYet := by simp
      stopped := by
        intro stopped
        exact absurd before (sound.stopped stopped).2
      answers := by
        have none : [Event.close].filterMap Event.request? = [] := rfl
        rw [filterMap_append, none, append_nil]
        exact sound.answers }
  | closeAdd before => exact {
      __ := sound
      tokens := by
        rw [before] at tokens
        simp only [Closing.due] at tokens ⊢
        omega
      notYet := by simp
      stopped := by
        intro stopped
        exact ⟨(sound.stopped stopped).1, by simp⟩ }
  | finish top ended => exact {
      __ := sound
      tokens := by
        rw [top] at tokens
        exact tokens
      busy := by simp
      awake := by simp
      finished := fun _ => ended }
  | wait top awake => exact {
      __ := sound
      tokens := by
        rw [top] at tokens
        exact tokens
      busy := by simp
      awake := fun _ => awake
      finished := by simp }
  | rearm top unset => exact sound.rearm top unset
  | complete found token => exact sound.complete found token
  | @handle entry _ _ waiting completed =>
    cases type : entry.type with
    | semaphore => exact sound.handle_semaphore waiting completed type
    | operation request => exact sound.handle_operation waiting completed type
  | takeClose taking queue => exact sound.take_close taking queue
  | takeRefused taking queue => exact sound.take_refused taking queue
  | takeAccepted taking queue => exact sound.take_accepted taking queue

/-- Every admitted step keeps the state sound. -/
theorem stepped (sound : Sound state) (admitted : Admitted config action state) :
    Sound (step config action state) := by
  unfold step
  cases fired : fire config action state with
  | none => exact sound
  | some next => exact sound.fires (fires_of_fire sound.ring admitted fired)

end Sound

/-! ## The system at rest -/

/-- The steps that nobody outside asks for. -/
def Action.Internal : Action → Prop
  | .emplace _ => False
  | .close => False
  | _ => True

/-- No party can go on. -/
def AtRest (config : Config) (state : State) : Prop :=
  ∀ action : Action, action.Internal → fire config action state = none

namespace AtRest

variable {config : Config} {state : State}

section

variable (rest : AtRest config state)
include rest

/-- At rest no token is being added. -/
theorem adding : state.adding = 0 := by
  have unable := rest .add trivial
  simpa [fire] using unable

theorem due : state.closing.due = 0 := by
  have unable := rest .closeAdd trivial
  cases closing : state.closing <;> simp_all [fire, Closing.due]

/-- At rest the thread is not at the top of its loop. -/
theorem position : state.position ≠ .top := by
  intro top
  have unable := rest (.turn ⟨true, 0⟩) trivial
  simp only [fire, top, if_true] at unable
  split at unable
  · cases unable
  · split at unable <;> cases unable

/-- What is accepted is a read of the semaphore that finds it at zero. -/
theorem accepted (inside : entry ∈ state.accepted) :
    entry.type = .semaphore ∧ state.semaphore = 0 := by
  obtain ⟨index, found⟩ := List.getElem?_of_mem inside
  have unable := rest (.complete index 0) trivial
  simp only [fire, found] at unable
  cases type : entry.type with
  | semaphore => simpa [type] using unable
  | operation request => simp [type] at unable

/-- At rest a waiting thread has no completion to take. -/
theorem completed (waiting : state.position = .waiting) : state.completed = [] := by
  have unable := rest .handle trivial
  cases completed : state.completed with
  | nil => rfl
  | cons entry others => simp [fire, waiting, completed] at unable

/-- At rest a taking thread has emptied the queue. -/
theorem queue (taking : state.position = .taking (count + 1)) : state.queue = [] := by
  have unable := rest (.take ⟨true, 0⟩) trivial
  cases queue : state.queue with
  | nil => rfl
  | cons event others =>
    simp only [fire, taking, queue] at unable
    cases event <;> cases unable

/-- Entries that are all reads of the semaphore carry no request. -/
theorem requests_accepted : requests state.accepted = [] := by
  apply filterMap_eq_nil_iff.mpr
  intro entry inside
  simp [Entry.request?, (rest.accepted inside).1]

/-- A thread that waits has nothing left to do. -/
theorem waiting_empty (sound : Sound state) (waiting : state.position = .waiting) :
    requests state.outstanding = [] ∧ state.queue = [] := by
  have completed := rest.completed waiting
  have outstanding : state.outstanding = state.accepted := by
    simp [State.outstanding, completed]
  have noRequest : requests state.outstanding = [] := by
    rw [outstanding]
    exact rest.requests_accepted
  have remain : state.numberRemainOperations = 0 := by
    rw [sound.remain, noRequest]
    rfl
  have set : state.isSemaphoreSet = true := by
    by_contra unset
    exact sound.awake waiting (Bool.not_eq_true _ ▸ unset) remain
  have armed := sound.armed
  rw [outstanding, set] at armed
  have some : 0 < semaphores state.accepted := by
    rw [armed]
    exact Nat.zero_lt_one
  obtain ⟨entry, inside, _⟩ := countP_pos_iff.mp some
  have tokens := sound.tokens
  rw [(rest.accepted inside).2, completed, waiting, rest.adding, rest.due] at tokens
  exact ⟨noRequest, eq_nil_of_length_eq_zero tokens.symm⟩

end

/-- A thread that has ended left nothing behind. -/
theorem finished_empty (sound : Sound state) (finished : state.position = .finished) :
    requests state.outstanding = [] ∧ state.queue = [] := by
  obtain ⟨stopped, remain⟩ := sound.finished finished
  constructor
  · have counted := sound.remain
    rw [remain] at counted
    exact eq_nil_of_length_eq_zero (Int.ofNat_eq_zero.mp counted.symm)
  · exact (sound.stopped stopped).1

/-- When nobody can go on every request has been answered. -/
theorem answered (rest : AtRest config state) (sound : Sound state) :
    (state.called.map Prod.fst).Perm (List.range state.issued) := by
  have empty : requests state.outstanding = [] ∧ state.queue = [] := by
    cases position : state.position with
    | top => exact absurd position rest.position
    | waiting => exact rest.waiting_empty sound position
    | finished => exact finished_empty sound position
    | taking count =>
      cases count with
      | zero => exact absurd position sound.busy
      | succ count =>
        have tokens := sound.tokens
        rw [position, rest.queue position] at tokens
        simp [Position.count] at tokens
  have answers := sound.answers
  rw [empty.1, empty.2] at answers
  simpa using answers

end AtRest

/-- A thread that waits for a semaphore at zero, with no other operation accepted. -/
theorem atRest_of_waiting {state : State} (adding : state.adding = 0)
    (closing : state.closing ≠ .queued) (waiting : state.position = .waiting)
    (completed : state.completed = []) (semaphore : state.semaphore = 0)
    (accepted : ∀ entry ∈ state.accepted, entry.type = .semaphore) : AtRest config state := by
  intro action internal
  cases action with
  | emplace | close => cases internal
  | add => simp [fire, adding]
  | closeAdd => simp [fire, closing]
  | turn submission => simp [fire, waiting]
  | handle => simp [fire, completed]
  | take submission => simp [fire, waiting]
  | complete index result =>
    cases found : state.accepted[index]? with
    | none => simp [fire, found]
    | some entry =>
      have type := accepted entry (mem_of_getElem? found)
      simp [fire, found, type, semaphore]

/-! ## The system comes to rest -/

/-- The steps that the thread makes before it waits. -/
def Position.work : Position → Nat
  | .top => 1
  | .taking count => count + 2
  | _ => 0

/-- A bound for the steps that are left. -/
def work (state : State) : Nat :=
  3 * state.queue.length + 5 * state.semaphore + 3 * (requests state.accepted).length
    + 2 * (requests (state.completed.map Prod.fst)).length
    + 4 * semaphores (state.completed.map Prod.fst) + 6 * state.adding
    + 6 * state.closing.due + state.position.work

theorem work_next (count : Nat) : (Position.next count).work ≤ count + 2 := by
  cases count with
  | zero => exact Nat.le_succ 1
  | succ count => exact Nat.le_refl _

/-- A completion lowers the measure. -/
theorem complete_lowers {semaphore : Nat} (found : state.accepted[index]? = some entry)
    (token : semaphore + semaphores [entry] = state.semaphore) :
    work { completeEntry index entry result state with semaphore := semaphore } < work state := by
  obtain ⟨inside, isEntry⟩ := List.getElem?_eq_some_iff.mp found
  have taken := ((getElem_cons_eraseIdx_perm inside).filterMap Entry.request?).length_eq
  -- an entry is an operation or a read of the semaphore
  have one : (requests [entry]).length + semaphores [entry] = 1 := by
    cases type : entry.type <;> simp [requests, semaphores, Entry.request?, type]
  rw [isEntry, ← singleton_append, filterMap_append, length_append] at taken
  simp only [work, completeEntry, requests, semaphores, map_append, map_cons, map_nil,
    filterMap_append, length_append, countP_append] at taken one token ⊢
  omega

/-- Handling a completion lowers the measure. -/
theorem handle_lowers {rest : List (Entry × Int)}
    (completed : state.completed = (entry, result) :: rest) :
    work (handleCompletion config entry result { state with completed := rest }) < work state := by
  cases type : entry.type with
  | semaphore =>
    have noRequest : entry.request? = none := by simp [Entry.request?, type]
    simp only [work, handleCompletion, type, completed, map_cons, requests, semaphores,
      filterMap_cons_none noRequest, countP_cons, noRequest, Option.isNone_none, if_true,
      Position.work]
    omega
  | operation request =>
    have own : entry.request? = some request := by simp [Entry.request?, type]
    simp only [work, handleCompletion, type, completed, map_cons, requests, semaphores,
      filterMap_cons_some own, countP_cons, Position.work, length_cons]
    omega

/-- Every internal step lowers the measure; a read of the semaphore has no weight. -/
theorem Fires.lowers (fires : Fires config state action next) (internal : action.Internal) :
    work next < work state := by
  cases fires with
  | join | refuse | close => cases internal
  | raise some =>
    simp only [work]
    omega
  | closeAdd queued =>
    simp only [work, queued, Closing.due]
    omega
  | finish top ended => simp [work, top, Position.work]
  | wait top awake => simp [work, top, Position.work]
  | rearm top unset =>
    have noRequest : Entry.request? ⟨state.allocated, .semaphore⟩ = none := rfl
    simp [work, top, Position.work, requests, noRequest]
  | complete found token => exact complete_lowers found token
  | handle waiting completed => exact handle_lowers completed
  | @takeClose _ count rest taking queue | @takeRefused _ count _ rest taking queue =>
    have position := work_next count
    simp only [work, queue, taking, Position.work, length_cons] at position ⊢
    omega
  | @takeAccepted _ count request rest taking queue =>
    have position := work_next count
    have own : Entry.request? ⟨state.allocated, .operation request⟩ = some request := rfl
    simp only [work, queue, taking, requests, filterMap_append, filterMap_cons_some own,
      filterMap_nil, length_append, Position.work, length_cons, length_nil] at position ⊢
    omega


/-- An internal step that some party can take. -/
def Progress (config : Config) (action : Action) (state : State) : Prop :=
  action.Internal ∧ Admitted config action state ∧ fire config action state ≠ none

/-- The parties can take no more steps than the measure says. -/
theorem progress_length {state : State} (sound : Sound state)
    {actions : List Action}
    (progress : Runs.Along (step config) (Progress config) actions state) :
    actions.length ≤ work state := by
  refine progress.length_le (?_ : ∀ action reached, Sound reached → _) sound
  rintro action reached sound ⟨internal, admitted, able⟩
  obtain ⟨next, fired⟩ := Option.ne_none_iff_exists'.mp able
  have stepped : step config action reached = next := by simp [step, fired]
  rw [stepped]
  have fires := fires_of_fire sound.ring admitted fired
  exact ⟨sound.fires fires, fires.lowers internal⟩

/-- With assertions compiled in, and as long as every submit accepts all of the ring and a
read of the semaphore that finds no entry leaves an operation to wake the thread: nothing
is called or deleted twice, only finitely many internal steps can follow, and when none can
every request has been answered once. -/
theorem completes_once (config : Config) (actions : List Action)
    (admitted : Runs.Along (step config) (Admitted config) actions initial) :
    let state := Runs.after (step config) actions initial
    (state.called.map Prod.fst).Nodup ∧
    (∀ request ∈ state.called.map Prod.fst, request < state.issued) ∧
    state.consumed.Nodup ∧
    (∀ more, Runs.Along (step config) (Progress config) more state →
      more.length ≤ work state) ∧
    (AtRest config state → (state.called.map Prod.fst).Perm (List.range state.issued)) := by
  intro state
  have sound : Sound state :=
    admitted.invariant (fun _ _ sound admitted => sound.stepped admitted) initial_sound
  have answers := sound.answers
  refine ⟨?_, ?_, ?_, ?_, ?_⟩
  · have distinct := answers.nodup_iff.mpr nodup_range
    exact (nodup_append.mp distinct).1
  · intro request called
    have known := answers.subset (mem_append_left _ called)
    exact mem_range.mp known
  · exact (nodup_append.mp sound.pointers).1
  · intro more progress
    exact progress_length sound progress
  · intro rest
    exact rest.answered sound

/-- A manager with room for four entries. -/
def plainConfig (assertions : Bool) : Config := ⟨assertions, 4, 8⟩

/-- A request that is put into the queue, taken by the thread and submitted; the submit
gives a result. -/
def oneRequest (result : Int) : List Action :=
  [.emplace true, .add, .turn ⟨true, 1⟩, .complete 0 8, .handle, .take ⟨true, result⟩]

/-- The operation is accepted and completes. -/
def served : List Action :=
  oneRequest 1 ++ [.turn ⟨true, 1⟩, .complete 0 512, .handle, .turn ⟨true, 1⟩]

theorem served_completes :
    Runs.Along (step (plainConfig true)) (Admitted (plainConfig true)) served initial ∧
    AtRest (plainConfig true) (Runs.after (step (plainConfig true)) served initial) ∧
    ((Runs.after (step (plainConfig true)) served initial).called.map Prod.fst).Perm
      (List.range 1) := by
  have rest : AtRest (plainConfig true)
      (Runs.after (step (plainConfig true)) served initial) := by
    apply atRest_of_waiting <;> decide
  exact ⟨by decide, rest, (completes_once _ served (by decide)).2.2.2.2 rest⟩

/-- A waiting thread has something to wait for, a finished one leaves no
operation behind, and no entry of the ring refers to deleted user data. -/
theorem admitted_guarded (config : Config) (actions : List Action)
    (admitted : Runs.Along (step config) (Admitted config) actions initial) :
    let state := Runs.after (step config) actions initial
    (state.position = .waiting → state.outstanding ≠ []) ∧
    (state.position = .finished → requests state.outstanding = []) ∧
    ∀ entry ∈ state.outstanding, entry.pointer ∉ state.consumed := by
  intro state
  have sound : Sound state :=
    admitted.invariant (fun _ _ sound admitted => sound.stepped admitted) initial_sound
  have remain := sound.remain
  refine ⟨fun waiting none => ?_, fun finished => ?_, fun entry held deleted => ?_⟩
  · have armed := sound.armed
    rw [none] at armed remain
    exact sound.awake waiting (Bool.toNat_eq_zero.mp armed.symm) remain
  · rw [(sound.finished finished).2] at remain
    exact length_eq_zero_iff.mp (by omega)
  · exact (nodup_append.mp sound.pointers).2.2 _ deleted _ (mem_map_of_mem held) rfl

theorem served_guarded :
    (Runs.after (step (plainConfig true)) served initial).outstanding ≠ [] :=
  (admitted_guarded _ served (by decide)).1 (by decide)

/-- Without assertions the semaphore is never raised. -/
def notRaised : List Action := [.emplace true, .add, .turn ⟨true, 1⟩]

/-- The submit of the operation fails after its entry was prepared; the next submit, of the
read of the semaphore, takes both entries. -/
def submittedLate : List Action :=
  oneRequest (-11) ++ [.turn ⟨true, 2⟩, .complete 0 512, .handle]

/-- Without assertions a request is left in the queue for good. After a submit that failed a
callback is called twice and its user data deleted twice. -/
theorem lost_or_twice :
    (AtRest (plainConfig false) (Runs.after (step (plainConfig false)) notRaised initial) ∧
      (Runs.after (step (plainConfig false)) notRaised initial).issued = 1 ∧
      (Runs.after (step (plainConfig false)) notRaised initial).called = []) ∧
    ((Runs.after (step (plainConfig true)) submittedLate initial).called =
        [(0, cancelled), (0, 512)] ∧
      (Runs.after (step (plainConfig true)) submittedLate initial).consumed = [0, 1, 1]) := by
  refine ⟨⟨?_, by decide, by decide⟩, by decide, by decide⟩
  apply atRest_of_waiting <;> decide

end UnixCommons.UServerUtils.FileManager
