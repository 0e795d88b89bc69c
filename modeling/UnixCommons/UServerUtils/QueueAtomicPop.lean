import UnixCommons.UServerUtils.QueueAtomic

/-!
# Pops that find nothing

`emplace` pushes a node and returns; `pop` calls `pop_and_check_end` until that gives a node
or says that the queue is empty. The element of a node is complete from the return of its
`emplace` until a pop returns the node. A pop that is under way knows whether there was a
moment without a complete element since it was called. An `emplace` that is refused does
nothing and is no action.
-/

namespace UnixCommons.UServerUtils.QueueAtomic

open MultiProducerSingleConsumerQueue (Cell popAndCheckEnd Queued)
open MultiProducerSingleConsumerQueue renaming State → Queue, Action → Access, step → accessQueue

universe u v

/-- The queue with what its users know of it. -/
structure State (Node : Type u) (Producer : Type v) where
  queue : Queue Node Producer
  /-- What a producer has pushed and is in the queue, before its `emplace` returns. -/
  pushed : Producer → Option Node
  complete : List Node
  /-- The pop under way, with whether a moment without a complete element was seen. -/
  popping : Option Bool
  /-- What the pops have returned, with what they had seen. -/
  pops : List (Option (Cell Node) × Bool)

/-- The actions of the users. -/
inductive Action (Node : Type u) (Producer : Type v) where
  /-- An access of a producer or of the consumer. -/
  | access (action : Access Node Producer)
  /-- `emplace` returns true. -/
  | emplaced (producer : Producer)
  | pop
  deriving DecidableEq, Repr

variable {Node : Type u} {Producer : Type v} [DecidableEq Node] [DecidableEq Producer]

def initial : State Node Producer :=
  ⟨MultiProducerSingleConsumerQueue.initial, fun _ => none, [], none, []⟩

/-- A pop returns. A node that it returns is in the queue no longer. -/
def State.returns (state : State Node Producer) (seen : Bool) (result : Option (Cell Node)) :
    State Node Producer :=
  { state with
    pushed := fun producer =>
      (state.pushed producer).filter fun node => decide (result ≠ some (.node node))
    complete := state.complete.filter fun node => decide (result ≠ some (.node node))
    popping := none
    pops := state.pops ++ [(result, seen)] }

/-- What `pop` does with an answer of `pop_and_check_end`. -/
def State.settle (state : State Node Producer) (seen : Bool) :
    Option (Option (Cell Node) × Bool) → State Node Producer
  | some (some cell, _) => state.returns seen (some cell)
  | some (none, true) => state.returns seen none
  | _ => state

/-- One action, before the pop under way looks at the complete elements. -/
def act : Action Node Producer → State Node Producer → State Node Producer
  | .access .consume, state =>
    match state.popping with
    | none => state
    | some seen =>
      let queue := popAndCheckEnd state.queue
      { state with queue := queue }.settle seen queue.answers[state.queue.answers.length]?
  | .access (.store producer node), state =>
    if state.pushed producer = none then
      { state with queue := accessQueue (.store producer node) state.queue }
    else state
  | .access (.exchange producer), state =>
    { state with queue := accessQueue (.exchange producer) state.queue }
  | .access (.link producer), state =>
    match state.queue.producers producer with
    | .exchanged node _ =>
      { state with
        queue := accessQueue (.link producer) state.queue
        pushed := Function.update state.pushed producer (some node) }
    | _ => state
  | .emplaced producer, state =>
    { state with
      pushed := Function.update state.pushed producer none
      complete := state.complete ++ (state.pushed producer).toList }
  | .pop, state => if state.popping = none then { state with popping := some false } else state

/-- One action; the watched pop notes whether the queue was empty. -/
def step (action : Action Node Producer) (state : State Node Producer) : State Node Producer :=
  let next := act action state
  { next with popping := next.popping.map (· || next.complete.isEmpty) }

/-- No pop has returned nothing while there was a complete element all the time. -/
def State.Honest (state : State Node Producer) : Prop :=
  ∀ result ∈ state.pops, result.1 = none → result.2 = true
  deriving Decidable

/-- When a pop with a complete element all the time looks at the link of the stub, no producer
stands between the exchange that took the stub from the head and the link of the stub. -/
def Admitted : Action Node Producer → State Node Producer → Prop
  | .access .consume, state => state.popping = some false →
    state.queue.consumer = .idle → state.queue.tail = .stub →
      ∀ producer node, state.queue.producers producer ≠ .exchanged node .stub
  | _, _ => True

variable {state : State Node Producer}

/-! ## Complete elements are in the queue -/

/-- What has been pushed, and every complete element, is in the list of the queue. -/
structure Present (state : State Node Producer) (cells : List (Cell Node)) : Prop where
  queued : Queued state.queue cells
  pushed : ∀ producer node, state.pushed producer = some node → .node node ∈ cells
  complete : ∀ node ∈ state.complete, .node node ∈ cells

/-- With the pop under way: it has not seen a moment without a complete element only if there is
one now. -/
def Watched (state : State Node Producer) : Prop :=
  (∃ cells, Present state cells) ∧ (state.popping = some false → state.complete ≠ [])

omit [DecidableEq Producer] in
theorem initial_watched : Watched (initial : State Node Producer) := by
  refine ⟨⟨[.stub], ?_⟩, nofun⟩
  exact ⟨MultiProducerSingleConsumerQueue.initial_queued, nofun, nofun⟩

omit [DecidableEq Producer] in
/-- A pop takes the node it returns away from the queue and from what is complete. -/
theorem Present.settle {queue : Queue Node Producer} {cells cells' : List (Cell Node)}
    (present : Present state cells) (queued : Queued queue cells')
    (leaves : state.queue.Leaves queue cells cells') (seen : Bool) :
    Present ({ state with queue := queue }.settle seen queue.answers[state.queue.answers.length]?)
      cells' := by
  have stays {node : Node} (inside : .node node ∈ cells) (other : queue.answers[
      state.queue.answers.length]? ≠ some (some (.node node), false)) : .node node ∈ cells' := by
    apply (leaves node inside).resolve_right
    intro answered
    simp [answered] at other
  cases answer : queue.answers[state.queue.answers.length]? with
  | none =>
    rw [answer] at stays
    exact ⟨queued, fun producer node own => stays (present.pushed producer node own) nofun,
      fun node own => stays (present.complete node own) nofun⟩
  | some result =>
    rw [answer] at stays
    rcases result with ⟨_ | cell, _ | _⟩
    case none.false =>
      exact ⟨queued, fun producer node own => stays (present.pushed producer node own) nofun,
        fun node own => stays (present.complete node own) nofun⟩
    case none.true | some.true =>
      refine ⟨queued, fun producer node own => ?_, fun node own => ?_⟩
      · exact stays (present.pushed producer node (Option.filter_eq_some_iff.mp own).1) nofun
      · exact stays (present.complete node (List.mem_filter.mp own).1) nofun
    case some.false =>
      refine ⟨queued, fun producer node own => ?_, fun node own => ?_⟩
      · obtain ⟨before, other⟩ := Option.filter_eq_some_iff.mp own
        exact stays (present.pushed producer node before) (by rintro ⟨⟩; simp at other)
      · obtain ⟨before, other⟩ := List.mem_filter.mp own
        exact stays (present.complete node before) (by rintro ⟨⟩; simp at other)

/-- A node that is linked is in the queue, for its producer to complete. -/
theorem Present.link {cells : List (Cell Node)} {producer : Producer} {node : Node} {prev : Cell Node}
    (present : Present state cells) (busy : state.queue.producers producer = .exchanged node prev) :
    Present (act (.access (.link producer)) state) cells := by
  simp only [act, busy]
  refine ⟨present.queued.link busy, ?_, present.complete⟩
  intro other added own
  by_cases same : other = producer
  · have owed : state.queue.Owes prev (.node node) := .inl ⟨producer, node, busy, rfl⟩
    obtain rfl : node = added := by simpa [same] using own
    exact List.mem_of_mem_tail (present.queued.spans.waiting _ _ owed).1.mem.2
  · exact present.pushed other added (by simpa [same] using own)

/-- What a producer has pushed is complete when its `emplace` returns. -/
theorem Present.emplaced {cells : List (Cell Node)} {producer : Producer}
    (present : Present state cells) : Present (act (.emplaced producer) state) cells := by
  refine ⟨present.queued, ?_, ?_⟩
  · intro other node own
    by_cases same : other = producer
    · simp [act, same] at own
    · exact present.pushed other node (by simpa [act, same] using own)
  · intro node own
    rcases List.mem_append.mp own with before | new
    · exact present.complete node before
    · exact present.pushed producer node (by simpa using new)

/-- Every action leaves the complete elements in the queue. -/
theorem act_present (action : Action Node Producer) {cells : List (Cell Node)}
    (present : Present state cells) : ∃ cells', Present (act action state) cells' := by
  have ⟨queued, pushed, complete⟩ := present
  rcases action with (⟨producer, node⟩ | producer | producer | _) | producer | _
  case access.store =>
    simp only [act]
    split
    · by_cases enabled : state.queue.producers producer = .idle ∧ state.queue.lent node = false
      · exact ⟨cells, queued.store enabled.1 enabled.2, pushed, complete⟩
      · rw [accessQueue, if_neg enabled]
        exact ⟨cells, present⟩
    · exact ⟨cells, present⟩
  case access.exchange =>
    cases busy : state.queue.producers producer with
    | stored node =>
      exact ⟨_, queued.exchange busy,
        fun other node own => List.mem_append_left _ (pushed other node own),
        fun node own => List.mem_append_left _ (complete node own)⟩
    | _ =>
      simp only [act, accessQueue, busy]
      exact ⟨cells, present⟩
  case access.link =>
    cases busy : state.queue.producers producer with
    | exchanged node prev => exact ⟨cells, present.link busy⟩
    | _ =>
      simp only [act, busy]
      exact ⟨cells, present⟩
  case access.consume =>
    cases popping : state.popping with
    | none =>
      simp only [act, popping]
      exact ⟨cells, present⟩
    | some seen =>
      obtain ⟨cells', queued', leaves⟩ := queued.popped
      simp only [act, popping]
      rw [← popping]
      exact ⟨cells', present.settle queued' leaves seen⟩
  case emplaced => exact ⟨cells, present.emplaced⟩
  case pop =>
    simp only [act]
    split <;> exact ⟨cells, queued, pushed, complete⟩

theorem step_watched (action : Action Node Producer) (watched : Watched state) :
    Watched (step action state) := by
  obtain ⟨⟨cells, present⟩, -⟩ := watched
  obtain ⟨cells', ⟨queued, pushed, complete⟩⟩ := act_present action present
  refine ⟨⟨cells', queued, pushed, complete⟩, ?_⟩
  intro unseen none
  have nothing : (act action state).complete = [] := none
  simp [step, nothing] at unseen

omit [DecidableEq Producer] in
/-- With a complete element in the queue only a producer that has the stub to link keeps the
consumer from its link. -/
theorem Watched.unlinked_iff (watched : Watched state) (unseen : state.popping = some false)
    (idle : state.queue.consumer = .idle) (tail : state.queue.tail = .stub) :
    state.queue.next .stub = none ↔
      ∃ producer node, state.queue.producers producer = .exchanged node .stub := by
  obtain ⟨⟨cells, present⟩, filled⟩ := watched
  have spans := present.queued.spans
  constructor
  · intro nothing
    by_contra linked
    push Not at linked
    have paid : ∀ right, ¬ state.queue.Owes state.queue.tail right := by
      rintro right (⟨producer, node, busy, -⟩ | ⟨busy, -⟩)
      · exact linked producer node (tail ▸ busy)
      · rw [idle] at busy
        cases busy
    obtain ⟨single, -⟩ := spans.alone paid (tail ▸ nothing)
    obtain ⟨node, inside⟩ := List.exists_mem_of_ne_nil _ (filled unseen)
    have queued := present.complete node inside
    rw [single, tail] at queued
    simp at queued
  · rintro ⟨producer, node, busy⟩
    exact (spans.waiting .stub (.node node) (.inl ⟨producer, node, busy, rfl⟩)).2

/-! ## Honest pops -/

omit [DecidableEq Producer] in
/-- A return keeps the answers honest exactly if it is. -/
theorem returns_honest_iff (honest : state.Honest) {seen : Bool} (result : Option (Cell Node)) :
    (state.returns seen result).Honest ↔ (result = none → seen = true) := by
  simp only [State.Honest, State.returns, List.forall_mem_append, List.forall_mem_singleton]
  exact and_iff_right honest

omit [DecidableEq Producer] in
theorem settle_honest_iff (honest : state.Honest) {seen : Bool}
    (answer : Option (Option (Cell Node) × Bool)) :
    (state.settle seen answer).Honest ↔ (answer = some (none, true) → seen = true) := by
  rcases answer with _ | ⟨_ | cell, _ | _⟩
  case none | some.none.false => exact iff_of_true honest nofun
  all_goals simp [State.settle, returns_honest_iff honest]

/-- A step keeps the answers honest exactly if it is admitted. -/
theorem step_honest_iff (action : Action Node Producer) (watched : Watched state)
    (honest : state.Honest) :
    (step action state).Honest ↔ Admitted action state := by
  change (act action state).Honest ↔ _
  rcases action with (_ | _ | _ | _) | _ | _
  case access.consume =>
    cases popping : state.popping with
    | none => simpa [act, Admitted, popping] using honest
    | some seen =>
      have kept : { state with queue := popAndCheckEnd state.queue }.Honest := honest
      simp only [act, popping, Admitted]
      rw [← popping, settle_honest_iff kept, MultiProducerSingleConsumerQueue.answers_empty_iff]
      cases seen with
      | true => simp [popping]
      | false =>
        simp only [popping, Bool.false_eq_true, imp_false, not_and, true_imp_iff]
        apply imp_congr_right
        intro idle
        apply imp_congr_right
        intro tail
        rw [watched.unlinked_iff popping idle tail, not_exists]
        exact forall_congr' fun producer => not_exists
  all_goals
    refine iff_of_true ?_ trivial
    unfold act
    first | exact honest | (dsimp only; split <;> exact honest)

/-- No pop returns nothing while there is a complete element all the time exactly when no pop
with one looks at the stub between a producer's exchange and its link of the stub. -/
theorem pops_honest_iff (actions : List (Action Node Producer)) :
    (∀ part, part <+: actions → (Runs.after step part initial).Honest) ↔
      Runs.Along step Admitted actions initial := by
  have start : (initial : State Node Producer).Honest := List.forall_mem_nil _
  have always (part : List (Action Node Producer)) : Watched (Runs.after step part initial) :=
    Runs.after_invariant (fun action _ => step_watched action) part initial_watched
  have exactly (action : Action Node Producer) (state : State Node Producer)
      (holds : Watched state ∧ state.Honest) :
      (Watched (step action state) ∧ (step action state).Honest) ↔ Admitted action state := by
    rw [and_iff_right (step_watched action holds.1)]
    exact step_honest_iff action holds.1 holds.2
  rw [Runs.along_iff_invariant exactly ⟨initial_watched, start⟩]
  exact forall₂_congr fun part _ => (and_iff_right (always part)).symm

/-- The second producer has returned, but the first one has not linked its node. -/
theorem element_hidden : ¬ (Runs.after step
    [.access (.store false 7), .access (.exchange false), .access (.store true 8),
      .access (.exchange true), .access (.link true), .emplaced true, .pop, .access .consume]
    (initial : State Nat Bool)).Honest := by
  decide

end UnixCommons.UServerUtils.QueueAtomic
