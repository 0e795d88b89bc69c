import UnixCommons.Library.Runs

/-!
# Asynchronous reads and writes through a ring

A request is put into a queue and a semaphore is raised. One thread owns the ring: it keeps
a read of the semaphore submitted, waits for completions, and when the semaphore read
completes takes as many requests as the semaphore allows and submits their operations. A
completed operation calls the callback of its request. The destructor puts a closing event
into the queue; the thread then waits for the operations that are left and ends.

`io_uring_get_sqe` and `io_uring_submit` may fail, and the entries prepared before a failing
submit stay in the submission ring, so their outcomes belong to the actions. The kernel
completes an accepted operation once; it completes a read of the semaphore by taking one
token. Producers, the thread and the kernel take their steps in any order.

The user data of an entry is known by the number of its allocation. It is consumed when it
is deleted: by the thread that handles the completion, or by the failure exit of the
function that made it. What an entry points at after that is undefined in the source; the
model goes on with what was there.
-/

namespace UnixCommons.UServerUtils.FileManager

/-- `CompletionType`; read and write are handled alike. -/
inductive Completion where
  | semaphore
  | operation (request : Nat)
  deriving DecidableEq, Repr

/-- A submission or completion queue entry with its user data. -/
structure Entry where
  pointer : Nat
  type : Completion
  deriving DecidableEq, Repr

/-- An event of the queue. -/
inductive Event where
  | request (request : Nat)
  | close
  deriving DecidableEq, Repr

/-- Where the thread stands in `run`. -/
inductive Position where
  /-- At the condition of the loop. -/
  | top
  /-- In `io_uring_wait_cqe`. -/
  | waiting
  /-- In `on_semaphore_ready`, with events to take. -/
  | taking (count : Nat)
  | finished
  deriving DecidableEq, Repr

/-- How far the destructor has come. -/
inductive Closing where
  | notYet
  | queued
  | signalled
  deriving DecidableEq, Repr

/-- The configuration of the manager. -/
structure Config where
  /-- `NDEBUG` is not defined. -/
  assertions : Bool
  sqEntries : Nat
  cqEntries : Nat
  deriving DecidableEq, Repr

/-- The queue, the semaphore, the rings and the thread. -/
structure State where
  queue : List Event
  semaphore : Nat
  /-- The entries of the submission ring that the kernel has not accepted. -/
  ring : List Entry
  /-- The entries the kernel has accepted. -/
  accepted : List Entry
  /-- The completion ring. -/
  completed : List (Entry × Int)
  position : Position
  isSemaphoreSet : Bool
  isStopped : Bool
  numberRemainOperations : Int
  /-- The requests made so far; they are numbered in order. -/
  issued : Nat
  /-- The producers between `emplace` and the semaphore. -/
  adding : Nat
  closing : Closing
  allocated : Nat
  consumed : List Nat
  /-- The calls of callbacks with their results. -/
  called : List (Nat × Int)
  deriving DecidableEq, Repr

/-- The outcomes of `io_uring_get_sqe` and `io_uring_submit`. -/
structure Submission where
  sqe : Bool
  result : Int
  deriving DecidableEq, Repr

/-- `-ECANCELED` -/
def cancelled : Int := -125

/-- The kernel accepts as many entries of the ring as `io_uring_submit` returns. -/
def submit (result : Int) (state : State) : State :=
  { state with
    ring := state.ring.drop result.toNat
    accepted := state.accepted ++ state.ring.take result.toNat }

/-- An entry is prepared with new user data. -/
def prepare (type : Completion) (state : State) : State :=
  { state with
    ring := state.ring ++ [⟨state.allocated, type⟩]
    allocated := state.allocated + 1 }

/-- `create_semaphore_event` -/
def createSemaphoreEvent (submission : Submission) (state : State) : State :=
  if submission.sqe then
    let prepared := prepare .semaphore state
    if submission.result < 0 then
      { prepared with
        consumed := state.consumed ++ [state.allocated]
        isSemaphoreSet := false }
    else
      { submit submission.result prepared with isSemaphoreSet := true }
  else
    { state with isSemaphoreSet := false }

/-- `create_read_or_write_event`, with the count of the operation it starts. -/
def createReadOrWriteEvent (request : Nat) (submission : Submission) (state : State) : State :=
  if submission.sqe then
    let prepared := prepare (.operation request) state
    if submission.result > 0 then
      { submit submission.result prepared with
        numberRemainOperations := state.numberRemainOperations + 1 }
    else
      { prepared with
        consumed := state.consumed ++ [state.allocated]
        called := state.called ++ [(request, cancelled)] }
  else
    { state with called := state.called ++ [(request, cancelled)] }

/-- `max_queue_elements` of `on_semaphore_ready`, in the arithmetic of 32 bits. -/
def maxQueueElements (config : Config) (state : State) : Nat :=
  let sqLimit := ((config.sqEntries - state.ring.length - 1 : Int) % 4294967296).toNat
  let cqLimit := ((config.cqEntries - state.numberRemainOperations - 1) % 4294967296).toNat
  min sqLimit cqLimit

/-- The actions of the callers, the kernel and the thread. -/
inductive Action where
  /-- `read` or `write` is called and the queue takes the event or is full. -/
  | emplace (fits : Bool)
  /-- `assert(semaphore_->add())` -/
  | add
  /-- The destructor puts the closing event into the queue. -/
  | close
  /-- It raises the semaphore. -/
  | closeAdd
  /-- The thread goes through the head of the loop. -/
  | turn (submission : Submission)
  /-- The kernel completes an accepted entry. -/
  | complete (index : Nat) (result : Int)
  /-- The thread takes a completion. -/
  | handle
  /-- The thread takes an event from the queue. -/
  | take (submission : Submission)
  deriving DecidableEq, Repr

/-- The thread has taken an event. -/
def Position.next (count : Nat) : Position :=
  if count = 0 then .top else .taking count

/-- The kernel completes an entry. -/
def completeEntry (index : Nat) (entry : Entry) (result : Int) (state : State) : State :=
  { state with
    accepted := state.accepted.eraseIdx index
    completed := state.completed ++ [(entry, result)] }

/-- The thread handles a completion. -/
def handleCompletion (config : Config) (entry : Entry) (result : Int) (state : State) : State :=
  let consumed := { state with consumed := state.consumed ++ [entry.pointer] }
  match entry.type with
  | .semaphore =>
    let more := min (maxQueueElements config state) state.semaphore
    { consumed with
      isSemaphoreSet := false
      semaphore := state.semaphore - more
      position := .taking (more + 1) }
  | .operation request =>
    { consumed with
      numberRemainOperations := state.numberRemainOperations - 1
      called := state.called ++ [(request, result)]
      position := .top }

/-- One step, if the party is where it can take it. -/
def fire (config : Config) : Action → State → Option State
  | .emplace fits, state =>
    if state.closing = .notYet then
      if fits then
        some { state with
          queue := state.queue ++ [.request state.issued]
          issued := state.issued + 1
          adding := state.adding + 1 }
      else
        some { state with
          issued := state.issued + 1
          called := state.called ++ [(state.issued, cancelled)] }
    else
      none
  | .add, state =>
    if state.adding = 0 then
      none
    else
      some { state with
        adding := state.adding - 1
        semaphore := if config.assertions then state.semaphore + 1 else state.semaphore }
  | .close, state =>
    if state.closing = .notYet ∧ state.adding = 0 then
      some { state with
        queue := state.queue ++ [.close]
        closing := .queued }
    else
      none
  | .closeAdd, state =>
    if state.closing = .queued then
      some { state with
        closing := .signalled
        semaphore := state.semaphore + 1 }
    else
      none
  | .turn submission, state =>
    if state.position = .top then
      if state.isStopped ∧ state.numberRemainOperations = 0 then
        some { state with position := .finished }
      else if state.isSemaphoreSet then
        some { state with position := .waiting }
      else
        some { createSemaphoreEvent submission state with position := .waiting }
    else
      none
  | .complete index result, state =>
    match state.accepted[index]? with
    | none => none
    | some entry =>
      match entry.type with
      | .operation _ => some (completeEntry index entry result state)
      | .semaphore =>
        if state.semaphore = 0 then
          none
        else
          some { completeEntry index entry result state with semaphore := state.semaphore - 1 }
  | .handle, state =>
    match state.position, state.completed with
    | .waiting, (entry, result) :: rest =>
      some (handleCompletion config entry result { state with completed := rest })
    | _, _ => none
  | .take submission, state =>
    match state.position, state.queue with
    | .taking (count + 1), event :: rest =>
      let taken := { state with
        queue := rest
        position := .next count }
      match event with
      | .close => some { taken with isStopped := true }
      | .request request => some (createReadOrWriteEvent request submission taken)
    | _, _ => none

/-- An action that nobody can take leaves the state as it is. -/
def step (config : Config) (action : Action) (state : State) : State :=
  (fire config action state).getD state

/-- The manager as its constructor leaves it, with the semaphore read accepted. -/
def initial : State where
  queue := []
  semaphore := 0
  ring := []
  accepted := [⟨0, .semaphore⟩]
  completed := []
  position := .top
  isSemaphoreSet := true
  isStopped := false
  numberRemainOperations := 0
  issued := 0
  adding := 0
  closing := .notYet
  allocated := 1
  consumed := []
  called := []

end UnixCommons.UServerUtils.FileManager
