import UnixCommons.Library.Runs

/-!
# The queue that wakes a working thread

`SignalQueue` hands items to a working thread. `add` puts an item into a locked queue
and writes a byte to a pipe, but only when it found the queue empty; the read event of
the pipe runs `handle_read_`, which reads up to 255 bytes, notes which requests are among
them and, if one of them is about data, takes items one by one until the queue is empty.
`quit` and `check` write their own bytes to the same pipe.

The model has any number of producers. An action is one critical section or one access to
the pipe, so a list of actions is an interleaving. The pipe keeps the bytes in order and
loses none, and `signal` succeeds. The event may also fire when there is nothing to read;
the read then ends with `EAGAIN` and notes nothing.
-/

namespace UnixCommons.HTTP.SignalQueue

universe u v

/-- The bytes that travel through the pipe. -/
inductive RequestType where
  | data
  | quit
  | check
  deriving DecidableEq, Repr

/-- The array `states` of `handle_read_`: the requests that were read. -/
structure States where
  data : Bool := false
  quit : Bool := false
  check : Bool := false
  deriving DecidableEq, Repr

def States.mark (states : States) : RequestType → States
  | .data => { states with data := true }
  | .quit => { states with quit := true }
  | .check => { states with check := true }

/-- Where the working thread stands in `handle_read_`. -/
inductive Handler (Item : Type u) where
  | idle
  /-- The pipe is to be read. -/
  | reading (states : States)
  /-- The next item is to be taken. -/
  | taking (states : States)
  /-- The callback is to be called with an item that was taken. -/
  | calling (item : Item) (states : States)
  deriving DecidableEq, Repr

/-- Where a producer stands in `add`. -/
inductive Producing where
  | idle
  /-- The item is in the queue, which was empty before; the signal follows. -/
  | signalling
  deriving DecidableEq, Repr

/-- The queue, the pipe, the producers and the working thread. -/
structure State (Item : Type u) (Producer : Type v) where
  queue : List Item
  pipe : List RequestType
  producers : Producer → Producing
  handler : Handler Item
  removed : Bool
  /-- The items in the order they were put into the queue. -/
  added : List Item
  /-- The calls of the callbacks. -/
  handled : List Item
  quits : Nat
  checks : Nat

/-- The actions of the threads. -/
inductive Action (Item : Type u) (Producer : Type v) where
  | registerEvent
  /-- The critical section of `add`. -/
  | push (producer : Producer) (item : Item)
  /-- The signal of `add`. -/
  | signal (producer : Producer)
  | quit
  | check
  /-- The event calls `handle_read_`. -/
  | readCallback
  /-- The working thread goes on in `handle_read_`. -/
  | handle
  deriving DecidableEq, Repr

variable {Item : Type u} {Producer : Type v} [DecidableEq Producer]

/-- The queue as its constructor leaves it. -/
def initial : State Item Producer where
  queue := []
  pipe := []
  producers := fun _ => .idle
  handler := .idle
  removed := true
  added := []
  handled := []
  quits := 0
  checks := 0

/-- The size of the array `data` of `handle_read_`. -/
def dataSize : Nat := 256

/-- The end of `handle_read_`. -/
def finish (states : States) (state : State Item Producer) : State Item Producer :=
  if states.quit then
    { state with
      handler := .idle
      removed := true
      quits := state.quits + 1 }
  else if states.check then
    { state with
      handler := .idle
      checks := state.checks + 1 }
  else
    { state with handler := .idle }

/-- One pass of the reading loop of `handle_read_`. -/
def read (states : States) (state : State Item Producer) : State Item Producer :=
  let bytes := state.pipe.take (dataSize - 1)
  let noted := bytes.foldl States.mark states
  let rest := { state with pipe := state.pipe.drop (dataSize - 1) }
  if bytes.length = dataSize then
    { rest with handler := .reading noted }
  else if noted.data then
    { rest with handler := .taking noted }
  else
    finish noted rest

/-- The working thread goes on. -/
def handleRead (state : State Item Producer) : State Item Producer :=
  match state.handler with
  | .idle => state
  | .reading states => read states state
  | .taking states =>
    match state.queue with
    | [] => finish states state
    | item :: queue =>
      { state with
        queue := queue
        handler := .calling item states }
  | .calling item states =>
    { state with
      handler := .taking states
      handled := state.handled ++ [item] }

/-- One action. What a party cannot do where it stands leaves the state as it is. -/
def step : Action Item Producer → State Item Producer → State Item Producer
  | .registerEvent, state => { state with removed := false }
  | .push producer item, state =>
    match state.producers producer with
    | .signalling => state
    | .idle =>
      { state with
        queue := state.queue ++ [item]
        added := state.added ++ [item]
        producers := Function.update state.producers producer
          (if state.queue.isEmpty then .signalling else .idle) }
  | .signal producer, state =>
    match state.producers producer with
    | .idle => state
    | .signalling =>
      { state with
        pipe := state.pipe ++ [.data]
        producers := Function.update state.producers producer .idle }
  | .quit, state => { state with pipe := state.pipe ++ [.quit] }
  | .check, state => { state with pipe := state.pipe ++ [.check] }
  | .readCallback, state =>
    match state.handler with
    | .idle => if state.removed then state else { state with handler := .reading {} }
    | _ => state
  | .handle, state => handleRead state

/-- The item the working thread has taken and not handled yet. -/
def Handler.held : Handler Item → List Item
  | .calling item _ => [item]
  | _ => []

/-- The working thread will look into the queue before it is idle again, whatever the
pipe holds. -/
def Handler.looks : Handler Item → Bool
  | .idle => false
  | .reading states => states.data
  | .taking _ => true
  | .calling _ _ => true

/-- The invariant: no item is lost or moved, and somebody answers for a queue that is not
empty, by a byte in the pipe, a byte about to be written, or a look that is still to come. -/
structure Kept (state : State Item Producer) : Prop where
  order : state.added = state.handled ++ (state.handler.held ++ state.queue)
  awaited : state.queue = [] ∨ .data ∈ state.pipe ∨
    (∃ producer, state.producers producer = .signalling) ∨ state.handler.looks = true

omit [DecidableEq Producer] in
theorem initial_kept : Kept (initial : State Item Producer) where
  order := rfl
  awaited := .inl rfl

/-- The request about data is noted exactly if it was before or is among the bytes. -/
theorem data_noted (bytes : List RequestType) (states : States) :
    (bytes.foldl States.mark states).data = true ↔ states.data = true ∨ .data ∈ bytes := by
  induction bytes generalizing states with
  | nil => simp
  | cons byte rest ih =>
    rw [List.foldl_cons, ih]
    cases byte <;> simp [States.mark]

namespace Kept

variable {state : State Item Producer}

section

variable (kept : Kept state)
include kept

/-- A push keeps the invariant. -/
theorem push {producer : Producer} {item : Item} : Kept (step (.push producer item) state) := by
  cases busy : state.producers producer with
  | signalling => simpa only [step, busy] using kept
  | idle =>
    simp only [step, busy]
    constructor
    · simp [kept.order]
    · by_cases empty : state.queue.isEmpty
      · exact .inr (.inr (.inl ⟨producer, by simp [empty]⟩))
      · rcases kept.awaited with none | byte | ⟨other, signalling⟩ | looks
        · simp [none] at empty
        · exact .inr (.inl byte)
        · have different : other ≠ producer := by
            rintro rfl
            simp [busy] at signalling
          exact .inr (.inr (.inl ⟨other, by simpa [different] using signalling⟩))
        · exact .inr (.inr (.inr looks))

/-- A signal keeps the invariant. -/
theorem signal {producer : Producer} : Kept (step (.signal producer) state) := by
  cases busy : state.producers producer with
  | idle => simpa only [step, busy] using kept
  | signalling =>
    simp only [step, busy]
    exact ⟨kept.order, .inr (.inl (by simp))⟩

omit [DecidableEq Producer] in
/-- Another byte in the pipe changes nothing. -/
theorem written {byte : RequestType} :
    Kept { state with pipe := state.pipe ++ [byte] } where
  order := kept.order
  awaited := by
    rcases kept.awaited with none | there | rest
    · exact .inl none
    · exact .inr (.inl (List.mem_append_left _ there))
    · exact .inr (.inr rest)

omit [DecidableEq Producer] in
/-- A thread that has no reason to look into the queue ends its run. -/
theorem finish {states : States} (empty : state.handler.held = [])
    (awaited : state.queue = [] ∨ .data ∈ state.pipe ∨
      ∃ producer, state.producers producer = .signalling) :
    Kept (finish states state) := by
  have order := kept.order
  rw [empty] at order
  have still : state.queue = [] ∨ .data ∈ state.pipe ∨
      (∃ producer, state.producers producer = .signalling) ∨ Handler.looks (.idle : Handler Item) = true := by
    rcases awaited with none | byte | producer
    · exact .inl none
    · exact .inr (.inl byte)
    · exact .inr (.inr (.inl producer))
  unfold SignalQueue.finish
  split
  · exact ⟨order, still⟩
  · split
    · exact ⟨order, still⟩
    · exact ⟨order, still⟩

omit [DecidableEq Producer] in
/-- A byte about data that is read is noted; one that is not read stays in the pipe. -/
theorem read {states : States} (stands : state.handler = .reading states) :
    Kept (read states state) := by
  have order := kept.order
  simp only [stands, Handler.held, List.nil_append] at order
  have awaited : state.queue = [] ∨ .data ∈ state.pipe.drop (dataSize - 1) ∨
      (∃ producer, state.producers producer = .signalling) ∨
        ((state.pipe.take (dataSize - 1)).foldl States.mark states).data = true := by
    rw [data_noted]
    rcases kept.awaited with none | byte | producer | looks
    · exact .inl none
    · rw [← List.take_append_drop (dataSize - 1) state.pipe, List.mem_append] at byte
      rcases byte with taken | left
      · exact .inr (.inr (.inr (.inr taken)))
      · exact .inr (.inl left)
    · exact .inr (.inr (.inl producer))
    · rw [stands] at looks
      exact .inr (.inr (.inr (.inl looks)))
  unfold SignalQueue.read
  dsimp only
  split
  · exact ⟨order, awaited⟩
  · split
    · exact ⟨order, .inr (.inr (.inr rfl))⟩
    · rename_i unnoted
      -- `finish` does not ask where the thread stood, so the law for a thread that takes items applies
      have rest : Kept { state with pipe := state.pipe.drop (dataSize - 1), handler := .taking {} } :=
        ⟨order, .inr (.inr (.inr rfl))⟩
      apply rest.finish rfl
      rcases awaited with none | byte | producer | noted
      · exact .inl none
      · exact .inr (.inl byte)
      · exact .inr (.inr producer)
      · contradiction

end

omit [DecidableEq Producer] in
/-- The working thread keeps the invariant. -/
theorem handleRead (kept : Kept state) : Kept (handleRead state) := by
  cases stands : state.handler with
  | idle => simpa only [SignalQueue.handleRead, stands] using kept
  | reading states => simpa only [SignalQueue.handleRead, stands] using kept.read stands
  | taking states =>
    cases items : state.queue with
    | nil =>
      simp only [SignalQueue.handleRead, stands, items]
      exact kept.finish (by simp [stands, Handler.held]) (.inl items)
    | cons item rest =>
      simp only [SignalQueue.handleRead, stands, items]
      constructor
      · simpa [stands, items, Handler.held] using kept.order
      · exact .inr (.inr (.inr rfl))
  | calling item states =>
    simp only [SignalQueue.handleRead, stands]
    constructor
    · simpa [stands, Handler.held] using kept.order
    · exact .inr (.inr (.inr rfl))

/-- Every action keeps the invariant. -/
theorem stepped {action : Action Item Producer} (kept : Kept state) : Kept (step action state) := by
  cases action with
  | registerEvent => exact ⟨kept.order, kept.awaited⟩
  | push producer item => exact kept.push
  | signal producer => exact kept.signal
  | quit => exact kept.written
  | check => exact kept.written
  | readCallback =>
    cases stands : state.handler with
    | idle =>
      simp only [step, stands]
      split
      · exact kept
      · constructor
        · simpa [stands, Handler.held] using kept.order
        · simpa [stands, Handler.looks] using kept.awaited
    | _ => simpa only [step, stands] using kept
  | handle => exact kept.handleRead

end Kept

/-! ## The items of a run -/

omit [DecidableEq Producer] in
/-- The item that an action puts into the queue: that of an `add` whose producer is not within
another one. -/
def Action.item (state : State Item Producer) : Action Item Producer → List Item
  | .push producer item => if state.producers producer = .idle then [item] else []
  | _ => []

/-- The items that are pushed in a run, in order. -/
def pushed : List (Action Item Producer) → State Item Producer → List Item
  | [], _ => []
  | action :: rest, state => action.item state ++ pushed rest (step action state)

omit [DecidableEq Producer] in
/-- The working thread adds nothing. -/
theorem handleRead_added (state : State Item Producer) :
    (handleRead state).added = state.added := by
  have finished (states : States) (state : State Item Producer) :
      (finish states state).added = state.added := by
    unfold finish
    split_ifs <;> rfl
  unfold handleRead
  split
  · rfl
  · unfold read
    dsimp only
    split_ifs
    · rfl
    · rfl
    · exact finished _ _
  · split
    · exact finished _ _
    · rfl
  · rfl

/-- An action adds its item, and only that. -/
theorem step_added (action : Action Item Producer) (state : State Item Producer) :
    (step action state).added = state.added ++ action.item state := by
  cases action with
  | push producer item => cases busy : state.producers producer <;> simp [step, Action.item, busy]
  | signal producer => cases busy : state.producers producer <;> simp [step, Action.item, busy]
  | readCallback =>
    simp only [step, Action.item, List.append_nil]
    split
    · split_ifs <;> rfl
    · rfl
  | handle => simp [step, Action.item, handleRead_added]
  | registerEvent | quit | check => simp [step, Action.item]

/-- The items of a run are those pushed in it. -/
theorem after_added (actions : List (Action Item Producer)) (state : State Item Producer) :
    (Runs.after step actions state).added = state.added ++ pushed actions state := by
  induction actions generalizing state with
  | nil => simp [Runs.after, pushed]
  | cons action rest ih => rw [Runs.after, ih, step_added, pushed, List.append_assoc]

/-- In every interleaving the items are handled in the order they were pushed in the run, each
at most once, and when the pipe is empty, no producer is between its push and its
signal and the handler is idle, then nothing is left in the queue: every item that was
added has been handled. -/
theorem reached_not_stranded (actions : List (Action Item Producer)) :
    let state := Runs.after step actions (initial : State Item Producer)
    state.added = pushed actions initial ∧
    state.handled <+: state.added ∧
    (state.pipe = [] → (∀ producer, state.producers producer = .idle) → state.handler = .idle →
      state.queue = [] ∧ state.handled = state.added) := by
  intro state
  have kept : Kept state :=
    Runs.after_invariant (fun action _ kept => Kept.stepped kept) actions initial_kept
  refine ⟨after_added actions initial, ?_, ?_⟩
  · rw [kept.order]
    exact List.prefix_append ..
  · intro unread quiet idle
    have empty : state.queue = [] := by
      rcases kept.awaited with none | byte | ⟨producer, signalling⟩ | looks
      · exact none
      · simp [unread] at byte
      · simp [quiet producer] at signalling
      · simp [idle, Handler.looks] at looks
    rw [kept.order, empty, idle]
    simp [Handler.held]

/-- Two producers of which the second finds the queue not empty, and one run of the
handler after the only signal. -/
def twoProducers : List (Action Nat (Fin 2)) :=
  [.registerEvent, .push 0 7, .push 1 8, .signal 0, .readCallback, .handle, .handle, .handle, .handle,
    .handle, .handle]

theorem twoProducers_not_stranded :
    (Runs.after step twoProducers initial).pipe = [] ∧
    (∀ producer, (Runs.after step twoProducers initial).producers producer = .idle) ∧
    (Runs.after step twoProducers initial).handler = .idle ∧
    (Runs.after step twoProducers initial).queue = [] := by
  have unread : (Runs.after step twoProducers initial).pipe = [] := by decide
  have quiet : ∀ producer, (Runs.after step twoProducers initial).producers producer = .idle := by
    decide
  have idle : (Runs.after step twoProducers initial).handler = .idle := by decide
  exact ⟨unread, quiet, idle, ((reached_not_stranded twoProducers).2.2 unread quiet idle).1⟩

end UnixCommons.HTTP.SignalQueue
