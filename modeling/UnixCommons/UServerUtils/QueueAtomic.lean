import UnixCommons.Library.PendingList
import UnixCommons.Library.Runs

/-!
# The queue of many producers and one consumer

`push` puts a node in front by one exchange on `head_` and only afterwards links the
node that was there to it. `pop_and_check_end` walks the links from `tail_`. The
queue is never without a cell: a stub stands in the list when it is empty, the consumer
steps over the stub when it meets it, and pushes it again, like a producer, before it
takes the last node.

The model is the state of the shared cells together with the program counter of every
producer and of the consumer. An action is one access to a shared cell, so a list of
actions is a sequentially consistent interleaving. `tail_` belongs to the consumer alone
and is written together with the access before it. A node may be pushed by a client that
owns it: `lent` holds from the start of a push until the node is returned, and only a
node that is not lent can be pushed, so a node may travel through the queue any number of
times.

The histories say what is to be compared: `exchanged` lists the nodes in the order of the
producers' exchanges on `head_`, `answers` the results of the finished pops.
-/

namespace UnixCommons.UServerUtils.MultiProducerSingleConsumerQueue

open PendingList List Function

universe u v

/-- The cells with a `next` field: the stub of the queue and the nodes of its clients. -/
inductive Cell (Node : Type u) where
  | stub
  | node (node : Node)
  deriving DecidableEq, Repr

/-- Where a producer stands in `push`. -/
inductive Push (Node : Type u) where
  | idle
  /-- `node->next` is null; the exchange follows. -/
  | stored (node : Node)
  /-- The exchange gave `prev`; `prev->next` is to be stored. -/
  | exchanged (node : Node) (prev : Cell Node)
  deriving DecidableEq, Repr

/-- Where the consumer stands in `pop_and_check_end`. -/
inductive Pop (Node : Type u) where
  | idle
  /-- The stub was stepped over; the `next` of the new tail is to be loaded. -/
  | skipped
  /-- The tail has no `next`; `head_` is to be loaded. -/
  | unlinked
  /-- The tail is the head; `push(&stub_)` begins. -/
  | pushing
  | stored
  | exchanged (prev : Cell Node)
  /-- The stub is pushed; the `next` of the tail is loaded again. -/
  | pushed
  deriving DecidableEq, Repr

structure State (Node : Type u) (Producer : Type v) where
  head : Cell Node
  tail : Cell Node
  next : Cell Node → Option (Cell Node)
  producers : Producer → Push Node
  consumer : Pop Node
  lent : Node → Bool
  exchanged : List Node
  /-- What each finished pop returned, and what it stored in `*empty`. -/
  answers : List (Option (Cell Node) × Bool)

/-- One access to a shared cell. -/
inductive Action (Node : Type u) (Producer : Type v) where
  /-- A producer calls `push` and stores null in the node. -/
  | store (producer : Producer) (node : Node)
  /-- It exchanges `head_`. -/
  | exchange (producer : Producer)
  /-- It links the node that was the head, and returns. -/
  | link (producer : Producer)
  /-- The consumer makes its next access. -/
  | consume
  deriving DecidableEq, Repr

variable {Node : Type u} {Producer : Type v} [DecidableEq Node]

/-- The queue as its constructor leaves it. -/
def initial : State Node Producer where
  head := .stub
  tail := .stub
  next := fun _ => none
  producers := fun _ => .idle
  consumer := .idle
  lent := fun _ => false
  exchanged := []
  answers := []

/-- The cells the pops have returned, in order. -/
def State.returned (state : State Node Producer) : List (Cell Node) :=
  state.answers.filterMap Prod.fst

/-- A pop returns without a node. -/
def State.returnNothing (state : State Node Producer) (empty : Bool) : State Node Producer :=
  { state with
    consumer := .idle
    answers := state.answers ++ [(none, empty)] }

/-- A pop moves `tail_` on and returns the cell it left. -/
def State.returnTail (state : State Node Producer) (next : Cell Node) : State Node Producer :=
  { state with
    tail := next
    consumer := .idle
    lent := match state.tail with
      | .stub => state.lent
      | .node node => update state.lent node false
    answers := state.answers ++ [(some state.tail, false)] }

/-- The part of `pop_and_check_end` behind the load of `tail->next`, up to the next
access. -/
def State.loaded (state : State Node Producer) (next : Option (Cell Node)) : State Node Producer :=
  match next with
  | some next => state.returnTail next
  | none => { state with consumer := .unlinked }

/-- The accesses of `pop_and_check_end`. -/
def popAndCheckEnd (state : State Node Producer) : State Node Producer :=
  match state.consumer with
  | .idle =>
    if state.tail = .stub then
      match state.next .stub with
      | none => state.returnNothing true
      | some next =>
        { state with
          tail := next
          consumer := .skipped }
    else
      state.loaded (state.next state.tail)
  | .skipped => state.loaded (state.next state.tail)
  | .unlinked =>
    if state.tail = state.head then
      { state with consumer := .pushing }
    else
      state.returnNothing false
  | .pushing =>
    { state with
      next := update state.next .stub none
      consumer := .stored }
  | .stored =>
    { state with
      head := .stub
      consumer := .exchanged state.head }
  | .exchanged prev =>
    { state with
      next := update state.next prev (some .stub)
      consumer := .pushed }
  | .pushed =>
    match state.next state.tail with
    | some next => state.returnTail next
    | none => state.returnNothing false

/-- One action. A producer that is elsewhere in its program, and a push of a node that
its client does not own, leave the state as it is. -/
def step [DecidableEq Producer] : Action Node Producer → State Node Producer → State Node Producer
  | .store producer node, state =>
    if state.producers producer = .idle ∧ state.lent node = false then
      { state with
        next := update state.next (.node node) none
        producers := update state.producers producer (.stored node)
        lent := update state.lent node true }
    else
      state
  | .exchange producer, state =>
    match state.producers producer with
    | .stored node =>
      { state with
        head := .node node
        producers := update state.producers producer (.exchanged node state.head)
        exchanged := state.exchanged ++ [node] }
    | _ => state
  | .link producer, state =>
    match state.producers producer with
    | .exchanged node prev =>
      { state with
        next := update state.next prev (some (.node node))
        producers := update state.producers producer .idle }
    | _ => state
  | .consume, state => popAndCheckEnd state

/-- The cell whose `next` a producer's action stores to when it links. -/
def State.linksTo (state : State Node Producer) (producer : Producer) : Option (Cell Node) :=
  match state.producers producer with
  | .exchanged _ prev => some prev
  | _ => none

/-- The node a producer has in its hands. -/
def Push.carried : Push Node → Option Node
  | .idle => none
  | .stored node => some node
  | .exchanged node _ => some node

/-- The links that some party has still to store: a producer behind its exchange, or the
consumer behind the exchange that pushes the stub. -/
def State.Owes (state : State Node Producer) (left right : Cell Node) : Prop :=
  (∃ producer node, state.producers producer = .exchanged node left ∧ right = .node node) ∨
    (state.consumer = .exchanged left ∧ right = .stub)

/-- What the consumer knows of the list where it stands. -/
def State.Knows (state : State Node Producer) (cells : List (Cell Node)) : Prop :=
  match state.consumer with
  | .idle => True
  | .skipped => .stub ∉ cells
  | .unlinked => state.tail ≠ .stub
  | .pushing => .stub ∉ cells
  | .stored => .stub ∉ cells ∧ state.next .stub = none
  | .exchanged _ => state.tail ≠ .stub
  | .pushed => state.tail ≠ .stub

/-- The invariant: the cells from `tail_` to `head_` in the order of the exchanges. -/
structure Queued (state : State Node Producer) (cells : List (Cell Node)) : Prop where
  spans : Spans state.next state.Owes state.tail state.head cells
  fresh : ∀ producer node, state.producers producer = .stored node →
    .node node ∉ cells ∧ state.next (.node node) = none ∧ state.lent node = true
  distinct : ∀ producer other node, (state.producers producer).carried = some node →
    (state.producers other).carried = some node → producer = other
  lent : ∀ node, .node node ∈ cells → state.lent node = true
  order : state.exchanged.map .node = state.returned ++ cells.filter (· ≠ .stub)
  knows : state.Knows cells

theorem initial_queued : Queued (initial : State Node Producer) [.stub] where
  spans := by
    apply Spans.single rfl
    rintro left right (⟨producer, node, busy, _⟩ | ⟨busy, _⟩) <;> simp [initial] at busy
  fresh := by simp [initial]
  distinct := by simp [initial, Push.carried]
  lent := by simp
  order := by simp [initial, State.returned]
  knows := trivial

/-- The nodes that stay in the list; one that does not is the answer of the pop. -/
def State.Leaves (state next : State Node Producer) (cells cells' : List (Cell Node)) : Prop :=
  ∀ node, .node node ∈ cells → .node node ∈ cells' ∨
    next.answers = state.answers ++ [(some (.node node), false)]

namespace Queued

variable {producer : Producer}

variable {state : State Node Producer} {cells : List (Cell Node)} {node : Node}

/-- A node that a producer has in its hands is lent. -/
theorem carried_lent (queued : Queued state cells)
    (carries : (state.producers producer).carried = some node) : state.lent node = true := by
  cases busy : state.producers producer with
  | idle => simp [busy, Push.carried] at carries
  | stored other =>
    have same : other = node := by simpa [busy, Push.carried] using carries
    subst same
    exact (queued.fresh producer other busy).2.2
  | exchanged other prev =>
    have same : other = node := by simpa [busy, Push.carried] using carries
    subst same
    have owed : state.Owes prev (.node other) := .inl ⟨producer, other, busy, rfl⟩
    exact queued.lent other (mem_of_mem_tail (queued.spans.waiting _ _ owed).1.mem.2)

variable {producers : Producer → Push Node}

omit [DecidableEq Node] in
/-- What a producer does after one of the producers has moved on. -/
theorem moved_eq [DecidableEq Producer] {other : Producer} {push expected : Push Node}
    (busy : update producers producer push other = expected) :
    other = producer ∧ push = expected ∨ other ≠ producer ∧ producers other = expected := by
  by_cases same : other = producer
  · subst same
    exact .inl ⟨rfl, by simpa using busy⟩
  · exact .inr ⟨same, by simpa [same] using busy⟩

omit [DecidableEq Node] in
/-- A producer that keeps its node in its hands, or lays it down, leaves the nodes that
are carried distinct. -/
theorem distinct_moved [DecidableEq Producer] {push : Push Node}
    (distinct : ∀ first second node, (producers first).carried = some node →
      (producers second).carried = some node → first = second)
    (alone : ∀ other node, push.carried = some node → (producers other).carried = some node →
      other = producer)
    (first second : Producer) (node : Node)
    (firstCarries : (update producers producer push first).carried = some node)
    (secondCarries : (update producers producer push second).carried = some node) :
    first = second := by
  by_cases firstSame : first = producer
  · by_cases secondSame : second = producer
    · rw [firstSame, secondSame]
    · rw [firstSame]
      exact (alone second node (by simpa [firstSame] using firstCarries)
        (by simpa [secondSame] using secondCarries)).symm
  · by_cases secondSame : second = producer
    · rw [secondSame]
      exact alone first node (by simpa [secondSame] using secondCarries)
        (by simpa [firstSame] using firstCarries)
    · exact distinct first second node (by simpa [firstSame] using firstCarries)
        (by simpa [secondSame] using secondCarries)

/-- A producer takes a node of its client and empties its `next`. -/
theorem store [DecidableEq Producer] (queued : Queued state cells)
    (idle : state.producers producer = .idle) (owned : state.lent node = false) :
    Queued (step (.store producer node) state) cells := by
  have outside : Cell.node node ∉ cells := by
    intro inside
    simp [queued.lent node inside] at owned
  have unread : ∀ cell ∈ cells, update state.next (.node node) none cell = state.next cell := by
    intro cell inside
    apply update_of_ne
    rintro rfl
    exact outside inside
  rw [step, if_pos ⟨idle, owned⟩]
  constructor
  · apply queued.spans.congr unread
    intro left right
    apply or_congr_left
    constructor
    · rintro ⟨other, pushed, busy, rfl⟩
      rcases moved_eq busy with ⟨_, impossible⟩ | ⟨_, before⟩
      · contradiction
      · exact ⟨other, pushed, before, rfl⟩
    · rintro ⟨other, pushed, busy, rfl⟩
      have different : other ≠ producer := by
        rintro rfl
        simp [idle] at busy
      exact ⟨other, pushed, by simpa [different] using busy, rfl⟩
  · intro other pushed busy
    rcases moved_eq busy with ⟨_, pushes⟩ | ⟨_, before⟩
    · cases pushes
      simpa using outside
    · obtain ⟨absent, empty, lent⟩ := queued.fresh other pushed before
      have different : pushed ≠ node := by
        rintro rfl
        simp [lent] at owned
      simpa [different] using ⟨absent, empty, lent⟩
  · apply distinct_moved queued.distinct
    intro other pushed pushes carries
    have lent := queued.carried_lent carries
    simp only [Push.carried, Option.some.injEq] at pushes
    simp [← pushes, owned] at lent
  · intro other inside
    by_cases same : other = node
    · simp [same]
    · simpa [same] using queued.lent other inside
  · exact queued.order
  · have knows := queued.knows
    cases busy : state.consumer <;> simp_all [State.Knows]

/-- A producer makes its node the head. -/
theorem exchange [DecidableEq Producer] (queued : Queued state cells)
    (busy : state.producers producer = .stored node) :
    Queued (step (.exchange producer) state) (cells ++ [.node node]) := by
  obtain ⟨outside, empty, lent⟩ := queued.fresh producer node busy
  simp only [step, busy]
  constructor
  · apply queued.spans.append outside empty
    intro left right
    constructor
    · rintro (⟨other, pushed, pushes, rfl⟩ | stub)
      · rcases moved_eq pushes with ⟨_, new⟩ | ⟨_, before⟩
        · cases new
          exact .inr ⟨rfl, rfl⟩
        · exact .inl (.inl ⟨other, pushed, before, rfl⟩)
      · exact .inl (.inr stub)
    · rintro ((⟨other, pushed, pushes, rfl⟩ | stub) | ⟨rfl, rfl⟩)
      · have different : other ≠ producer := by
          rintro rfl
          simp [busy] at pushes
        exact .inl ⟨other, pushed, by simpa [different] using pushes, rfl⟩
      · exact .inr stub
      · exact .inl ⟨producer, node, update_self .., rfl⟩
  · intro other pushed pushes
    rcases moved_eq pushes with ⟨_, impossible⟩ | ⟨different, before⟩
    · contradiction
    · obtain ⟨absent, nothing, otherLent⟩ := queued.fresh other pushed before
      refine ⟨?_, nothing, otherLent⟩
      have differs : pushed ≠ node := by
        rintro rfl
        apply different
        exact queued.distinct other producer pushed (by simp [before, Push.carried])
          (by simp [busy, Push.carried])
      simpa [differs] using absent
  · apply distinct_moved queued.distinct
    intro other pushed pushes carries
    exact queued.distinct other producer pushed carries
      (by simpa [busy, Push.carried] using pushes)
  · intro other inside
    rcases mem_append.mp inside with before | new
    · exact queued.lent other before
    · cases mem_singleton.mp new
      exact lent
  · have order := queued.order
    simp [State.returned, order]
  · have knows := queued.knows
    cases stands : state.consumer <;> simp_all [State.Knows]

variable {prev follower : Cell Node}

/-- A producer links the cell that was the head to its node. -/
theorem link [DecidableEq Producer] (queued : Queued state cells)
    (busy : state.producers producer = .exchanged node prev) :
    Queued (step (.link producer) state) cells := by
  have owed : state.Owes prev (.node node) := .inl ⟨producer, node, busy, rfl⟩
  have adjacent := (queued.spans.waiting _ _ owed).1
  have only : ∀ cell, state.Owes prev cell → .node node = cell := fun cell alsoOwed =>
    adjacent.unique queued.spans.nodup (queued.spans.waiting _ _ alsoOwed).1
  simp only [step, busy]
  constructor
  · apply queued.spans.pay owed
    intro left right
    constructor
    · rintro (⟨other, pushed, pushes, rfl⟩ | stub)
      · rcases moved_eq pushes with ⟨_, impossible⟩ | ⟨different, before⟩
        · contradiction
        · have alsoOwed : state.Owes left (.node pushed) := .inl ⟨other, pushed, before, rfl⟩
          refine ⟨alsoOwed, ?_⟩
          rintro rfl
          cases only _ alsoOwed
          exact different (queued.distinct other producer node (by simp [before, Push.carried])
            (by simp [busy, Push.carried]))
      · refine ⟨.inr stub, ?_⟩
        rintro rfl
        have same := only right (.inr stub)
        simp [stub.2] at same
    · rintro ⟨⟨other, pushed, pushes, rfl⟩ | stub, unpaid⟩
      · have different : other ≠ producer := by
          rintro rfl
          rw [busy] at pushes
          cases pushes
          exact unpaid rfl
        exact .inl ⟨other, pushed, by simpa [different] using pushes, rfl⟩
      · exact .inr stub
  · intro other pushed pushes
    rcases moved_eq pushes with ⟨_, impossible⟩ | ⟨_, before⟩
    · contradiction
    · obtain ⟨absent, nothing, lent⟩ := queued.fresh other pushed before
      have different : Cell.node pushed ≠ prev := by
        rintro rfl
        exact absent adjacent.mem.1
      exact ⟨absent, by simpa only [update_of_ne different] using nothing, lent⟩
  · apply distinct_moved queued.distinct
    intro other pushed impossible
    simp [Push.carried] at impossible
  · exact queued.lent
  · exact queued.order
  · have knows := queued.knows
    -- the stub is outside of the list where its emptiness matters
    cases stands : state.consumer with
    | stored =>
      simp only [State.Knows, stands] at knows
      have different : Cell.stub ≠ prev := by
        rintro rfl
        exact knows.1 adjacent.mem.1
      simpa [State.Knows, different] using knows
    | idle => simp [State.Knows]
    | _ => simpa [State.Knows, stands] using knows

/-- What the consumer does on its own does not touch the producers. -/
theorem consumed (queued : Queued state cells) {next : State Node Producer}
    {cells' : List (Cell Node)} (producers : next.producers = state.producers)
    (spans : Spans next.next next.Owes next.tail next.head cells')
    (fresh : ∀ node, .node node ∉ cells → state.next (.node node) = none → state.lent node = true →
      .node node ∉ cells' ∧ next.next (.node node) = none ∧ next.lent node = true)
    (lent : ∀ node, .node node ∈ cells' → next.lent node = true)
    (order : next.exchanged.map .node = next.returned ++ cells'.filter (· ≠ .stub))
    (knows : next.Knows cells') : Queued next cells' where
  spans := spans
  fresh := by
    intro producer node busy
    rw [producers] at busy
    obtain ⟨absent, empty, isLent⟩ := queued.fresh producer node busy
    exact fresh node absent empty isLent
  distinct := by
    rw [producers]
    exact queued.distinct
  lent := lent
  order := order
  knows := knows

omit [DecidableEq Node] in
/-- Outside of its own push the consumer owes no link. -/
theorem owes_iff {next : State Node Producer} (producers : next.producers = state.producers)
    (before : ∀ prev, state.consumer ≠ .exchanged prev)
    (after : ∀ prev, next.consumer ≠ .exchanged prev) (left right : Cell Node) :
    next.Owes left right ↔ state.Owes left right := by
  simp [State.Owes, producers, before, after]

section

variable (queued : Queued state cells) (before : ∀ prev, state.consumer ≠ .exchanged prev)
include queued before

/-- The consumer moves on in its program and changes nothing else. -/
theorem advance {stands : Pop Node} (after : ∀ prev, stands ≠ .exchanged prev)
    (knows : { state with consumer := stands }.Knows cells) :
    Queued { state with consumer := stands } cells := by
  apply queued.consumed
  · rfl
  · exact queued.spans.congr (fun _ _ => rfl) (owes_iff rfl before after)
  · intro node absent empty lent
    exact ⟨absent, empty, lent⟩
  · exact queued.lent
  · exact queued.order
  · exact knows

theorem returnNothing {empty : Bool} : Queued (state.returnNothing empty) cells := by
  apply queued.consumed
  · rfl
  · exact queued.spans.congr (fun _ _ => rfl) (owes_iff rfl before (by simp [State.returnNothing]))
  · intro node absent nothing lent
    exact ⟨absent, nothing, lent⟩
  · exact queued.lent
  · have order := queued.order
    simpa [State.returned, State.returnNothing] using order
  · trivial

/-- The tail is returned once its link is there: nobody has a write to it left. -/
theorem returnTail (real : state.tail ≠ .stub) (link : state.next state.tail = some follower) :
    ∃ cells', Queued (state.returnTail follower) cells' ∧
      state.Leaves (state.returnTail follower) cells cells' := by
  obtain ⟨rest, rfl, spans⟩ := queued.spans.drop link
  obtain ⟨gone, _⟩ := nodup_cons.mp queued.spans.nodup
  have isNode : ∃ node, state.tail = .node node := by
    cases tail : state.tail with
    | stub => exact absurd tail real
    | node node => exact ⟨node, rfl⟩
  obtain ⟨node, tail⟩ := isNode
  rw [tail] at gone
  refine ⟨follower :: rest, ?_, ?_⟩
  case refine_2 =>
    intro other inside
    rcases mem_cons.mp inside with same | behind
    · exact .inr (by rw [same]; rfl)
    · exact .inl behind
  apply queued.consumed
  · rfl
  · exact spans.congr (fun _ _ => rfl) (owes_iff rfl before (by simp [State.returnTail]))
  · intro other absent nothing lent
    have different : other ≠ node := by
      rintro rfl
      simp [tail] at absent
    refine ⟨fun inside => absent (mem_cons_of_mem _ inside), nothing, ?_⟩
    simpa [State.returnTail, tail, different] using lent
  · intro other inside
    have different : other ≠ node := by
      rintro rfl
      exact gone inside
    simpa [State.returnTail, tail, different]
      using queued.lent other (mem_cons_of_mem _ inside)
  · have order := queued.order
    simpa [State.returned, State.returnTail, tail] using order
  · trivial

/-- The consumer steps over the stub. -/
theorem skip (stub : state.tail = .stub) (link : state.next .stub = some follower) :
    ∃ cells', Queued { state with tail := follower, consumer := .skipped } cells' ∧
      state.Leaves { state with tail := follower, consumer := .skipped } cells cells' := by
  rw [← stub] at link
  obtain ⟨rest, rfl, spans⟩ := queued.spans.drop link
  obtain ⟨gone, _⟩ := nodup_cons.mp queued.spans.nodup
  rw [stub] at gone
  refine ⟨follower :: rest, ?_, ?_⟩
  case refine_2 =>
    intro other inside
    rcases mem_cons.mp inside with same | behind
    · rw [stub] at same
      cases same
    · exact .inl behind
  apply queued.consumed
  · rfl
  · exact spans.congr (fun _ _ => rfl) (owes_iff rfl before (by simp))
  · intro node absent nothing lent
    exact ⟨fun inside => absent (mem_cons_of_mem _ inside), nothing, lent⟩
  · intro node inside
    exact queued.lent node (mem_cons_of_mem _ inside)
  · have order := queued.order
    rw [stub] at order
    simpa [State.returned] using order
  · exact gone

end

section

variable (queued : Queued state cells)
include queued

/-- The consumer empties the `next` of the stub, which nobody can reach. -/
theorem storeStub (stands : state.consumer = .pushing) : Queued (popAndCheckEnd state) cells := by
  have outside : Cell.stub ∉ cells := by simpa [State.Knows, stands] using queued.knows
  have unread : ∀ cell ∈ cells, update state.next .stub none cell = state.next cell := by
    intro cell inside
    apply update_of_ne
    rintro rfl
    exact outside inside
  simp only [popAndCheckEnd, stands]
  apply queued.consumed
  · rfl
  · exact queued.spans.congr unread (owes_iff rfl (by simp [stands]) (by simp))
  · intro node absent nothing lent
    simpa using ⟨absent, nothing, lent⟩
  · exact queued.lent
  · exact queued.order
  · simpa [State.Knows] using outside

/-- The consumer makes the stub the head. -/
theorem exchangeStub (stands : state.consumer = .stored) :
    Queued (popAndCheckEnd state) (cells ++ [.stub]) := by
  obtain ⟨outside, nothing⟩ : .stub ∉ cells ∧ state.next .stub = none := by
    simpa [State.Knows, stands] using queued.knows
  have real : state.tail ≠ .stub := by
    intro stub
    exact outside (stub ▸ queued.spans.first_mem)
  simp only [popAndCheckEnd, stands]
  apply queued.consumed
  · rfl
  · apply queued.spans.append outside nothing
    simp [State.Owes, stands, eq_comm]
  · intro node absent empty lent
    simpa using ⟨absent, empty, lent⟩
  · intro node inside
    apply queued.lent
    simpa using inside
  · have order := queued.order
    simp [State.returned, order]
  · exact real

/-- The consumer links the cell that was the head to the stub. -/
theorem linkStub (stands : state.consumer = .exchanged prev) :
    Queued (popAndCheckEnd state) cells := by
  have owed : state.Owes prev .stub := .inr ⟨stands, rfl⟩
  have adjacent := (queued.spans.waiting _ _ owed).1
  simp only [popAndCheckEnd, stands]
  apply queued.consumed
  · rfl
  · apply queued.spans.pay owed
    intro left right
    constructor
    · rintro (⟨producer, node, busy, rfl⟩ | ⟨impossible, _⟩)
      · have alsoOwed : state.Owes left (.node node) := .inl ⟨producer, node, busy, rfl⟩
        refine ⟨alsoOwed, ?_⟩
        rintro rfl
        have same := adjacent.unique queued.spans.nodup (queued.spans.waiting _ _ alsoOwed).1
        contradiction
      · contradiction
    · rintro ⟨producers | ⟨same, _⟩, unpaid⟩
      · exact .inl producers
      · rw [stands] at same
        cases same
        exact absurd rfl unpaid
  · intro node absent nothing lent
    have different : Cell.node node ≠ prev := by
      rintro rfl
      exact absent adjacent.mem.1
    simpa [different] using ⟨absent, nothing, lent⟩
  · exact queued.lent
  · exact queued.order
  · simpa [State.Knows, stands] using queued.knows

/-- What follows the load of the tail's `next`. -/
theorem loaded (before : ∀ prev, state.consumer ≠ .exchanged prev) (real : state.tail ≠ .stub) :
    ∃ cells', Queued (state.loaded (state.next state.tail)) cells' ∧
      state.Leaves (state.loaded (state.next state.tail)) cells cells' := by
  cases link : state.next state.tail with
  | none =>
    refine ⟨cells, queued.advance before (by simp) ?_, fun _ => .inl⟩
    simpa [State.Knows] using real
  | some follower => exact queued.returnTail before real link

/-- Every access of the consumer keeps the invariant, and takes no node away but the one it
returns. -/
theorem popped :
    ∃ cells', Queued (popAndCheckEnd state) cells' ∧
      state.Leaves (popAndCheckEnd state) cells cells' := by
  have knows := queued.knows
  cases stands : state.consumer with
  | idle =>
    have before : ∀ prev, state.consumer ≠ .exchanged prev := by simp [stands]
    simp only [popAndCheckEnd, stands]
    by_cases stub : state.tail = .stub
    · simp only [stub]
      cases link : state.next .stub with
      | none => exact ⟨cells, queued.returnNothing before, fun _ => .inl⟩
      | some follower => exact queued.skip before stub link
    · simp only [stub]
      exact queued.loaded before stub
  | skipped =>
    have real : state.tail ≠ .stub := by
      intro stub
      simp only [State.Knows, stands] at knows
      exact knows (stub ▸ queued.spans.first_mem)
    simp only [popAndCheckEnd, stands]
    exact queued.loaded (by simp [stands]) real
  | unlinked =>
    have before : ∀ prev, state.consumer ≠ .exchanged prev := by simp [stands]
    have real : state.tail ≠ .stub := by simpa [State.Knows, stands] using knows
    simp only [popAndCheckEnd, stands]
    by_cases last : state.tail = state.head
    · rw [if_pos last]
      refine ⟨cells, queued.advance before (by simp) ?_, fun _ => .inl⟩
      -- the tail is the only cell, so the stub is outside
      have spans := queued.spans
      rw [← last] at spans
      simpa [State.Knows, spans.eq_single, eq_comm] using real
    · rw [if_neg last]
      exact ⟨cells, queued.returnNothing before, fun _ => .inl⟩
  | pushing => exact ⟨cells, queued.storeStub stands, fun _ => .inl⟩
  | stored => exact ⟨_, queued.exchangeStub stands, fun _ inside => .inl (mem_append_left _ inside)⟩
  | exchanged prev => exact ⟨cells, queued.linkStub stands, fun _ => .inl⟩
  | pushed =>
    have before : ∀ prev, state.consumer ≠ .exchanged prev := by simp [stands]
    have real : state.tail ≠ .stub := by simpa [State.Knows, stands] using knows
    simp only [popAndCheckEnd, stands]
    cases link : state.next state.tail with
    | none => exact ⟨cells, queued.returnNothing before, fun _ => .inl⟩
    | some follower => exact queued.returnTail before real link

end

/-- Every action keeps the invariant. -/
theorem stepped [DecidableEq Producer] {action : Action Node Producer}
    (queued : Queued state cells) :
    ∃ cells', Queued (step action state) cells' := by
  cases action with
  | store producer node =>
    by_cases enabled : state.producers producer = .idle ∧ state.lent node = false
    · exact ⟨cells, queued.store enabled.1 enabled.2⟩
    · rw [step, if_neg enabled]
      exact ⟨cells, queued⟩
  | exchange producer =>
    cases busy : state.producers producer with
    | stored node => exact ⟨_, queued.exchange busy⟩
    | _ =>
      simp only [step, busy]
      exact ⟨cells, queued⟩
  | link producer =>
    cases busy : state.producers producer with
    | exchanged node prev => exact ⟨cells, queued.link busy⟩
    | _ =>
      simp only [step, busy]
      exact ⟨cells, queued⟩
  | consume =>
    obtain ⟨cells', popped, -⟩ := queued.popped
    exact ⟨cells', popped⟩

end Queued

/-- In every interleaving the cells between `tail_` and `head_` are a list. -/
theorem reached_queued [DecidableEq Producer] (actions : List (Action Node Producer)) :
    ∃ cells, Queued (Runs.after step actions initial) cells := by
  apply @Runs.after_invariant _ _ (fun state => ∃ cells, Queued state cells) step
  · rintro action state ⟨cells, queued⟩
    exact queued.stepped
  · exact ⟨[.stub], initial_queued⟩

/-- No node is returned during its own push. -/
theorem reached_carried [DecidableEq Producer] (actions : List (Action Node Producer))
    (producer : Producer) :
    let state := Runs.after step actions (initial : State Node Producer)
    (state.producers producer).carried.all state.lent := by
  obtain ⟨cells, queued⟩ := reached_queued actions
  exact (Option.all_eq_true ..).mpr fun _ => queued.carried_lent

/-! ## Draining the queue

Once no push is under way, every call of `pop_and_check_end` returns a node as long as
there is one. A call that was under way before may still come back without one, since
it may have seen a link that was missing then. -/

/-- The consumer leaves to the producers what is theirs. -/
@[simp] theorem popAndCheckEnd_kept (state : State Node Producer) :
    (popAndCheckEnd state).producers = state.producers ∧
      (popAndCheckEnd state).exchanged = state.exchanged := by
  unfold popAndCheckEnd State.loaded State.returnTail State.returnNothing
  repeat' split
  all_goals exact ⟨rfl, rfl⟩

/-- No push is under way. -/
def State.Quiet (state : State Node Producer) : Prop :=
  ∀ producer, state.producers producer = .idle

/-- How many accesses a pop has at most before its last one. -/
def Pop.rank : Pop Node → Nat
  | .idle => 6
  | .skipped => 5
  | .unlinked => 4
  | .pushing => 3
  | .stored => 2
  | .exchanged _ => 1
  | .pushed => 0

/-- What the consumer knows if its call began when no push was under way: it pushes the
stub only behind the last node. -/
def State.Draining (state : State Node Producer) : Prop :=
  match state.consumer with
  | .idle | .skipped => True
  | .unlinked | .pushing | .stored => state.head = state.tail
  | .exchanged prev => prev = state.tail
  | .pushed => state.next state.tail ≠ none

variable {state : State Node Producer} {cells : List (Cell Node)}

section

variable (queued : Queued state cells)
include queued

/-- Where no push is under way, the tail without a link is the head. -/
theorem Queued.alone (quiet : state.Quiet) (before : ∀ prev, state.consumer ≠ .exchanged prev)
    (nothing : state.next state.tail = none) : cells = [state.tail] ∧ state.head = state.tail := by
  apply queued.spans.alone _ nothing
  rintro right (⟨producer, node, busy, _⟩ | ⟨busy, _⟩)
  · simp [quiet producer] at busy
  · exact before _ busy

/-- The load of the tail's `next` returns the tail or finds it to be the last node. -/
theorem Queued.loaded_drains (quiet : state.Quiet)
    (before : ∀ prev, state.consumer ≠ .exchanged prev) (above : 4 < state.consumer.rank) :
    (state.loaded (state.next state.tail)).Draining ∧
      ((state.loaded (state.next state.tail)).returned.length = state.returned.length + 1 ∨
        (state.loaded (state.next state.tail)).returned = state.returned ∧
          (state.loaded (state.next state.tail)).consumer.rank < state.consumer.rank) := by
  cases link : state.next state.tail with
  | none => exact ⟨(queued.alone quiet before link).2, .inr ⟨rfl, above⟩⟩
  | some follower => exact ⟨trivial, .inl (by simp [State.loaded, State.returnTail, State.returned])⟩

/-- An access of the consumer returns a node or brings the call closer to its end. -/
theorem Queued.drains (quiet : state.Quiet) (draining : state.Draining)
    (more : state.returned ≠ state.exchanged.map .node) :
    (popAndCheckEnd state).Draining ∧
      ((popAndCheckEnd state).returned.length = state.returned.length + 1 ∨
        (popAndCheckEnd state).returned = state.returned ∧
          (popAndCheckEnd state).consumer.rank < state.consumer.rank) := by
  cases stands : state.consumer with
  | idle =>
    have before : ∀ prev, state.consumer ≠ .exchanged prev := by simp [stands]
    by_cases stub : state.tail = .stub
    · cases link : state.next .stub with
      | none =>
        -- only the stub is left, so every node has been returned
        have single := (queued.alone quiet before (stub ▸ link)).1
        have order := queued.order
        rw [single, stub] at order
        exact absurd (by simpa using order.symm) more
      | some follower => simp [popAndCheckEnd, stands, stub, link, State.Draining, State.returned, Pop.rank]
    · have drained := queued.loaded_drains quiet before (by simp [stands, Pop.rank])
      simpa [popAndCheckEnd, stands, stub] using drained
  | skipped =>
    have drained := queued.loaded_drains quiet (by simp [stands]) (by simp [stands, Pop.rank])
    simpa [popAndCheckEnd, stands] using drained
  | unlinked | pushing | stored =>
    have last : state.head = state.tail := by simpa [State.Draining, stands] using draining
    simp [popAndCheckEnd, stands, last, State.Draining, State.returned, Pop.rank]
  | exchanged prev =>
    have last : prev = state.tail := by simpa [State.Draining, stands] using draining
    simp [popAndCheckEnd, stands, last, State.Draining, State.returned, Pop.rank]
  | pushed =>
    have there : state.next state.tail ≠ none := by simpa [State.Draining, stands] using draining
    obtain ⟨follower, link⟩ := Option.ne_none_iff_exists'.mp there
    simp [popAndCheckEnd, stands, link, State.Draining, State.returned, State.returnTail]

/-- No more nodes are returned than were exchanged. -/
theorem Queued.returned_initial : state.returned <+: state.exchanged.map .node := by
  rw [queued.order]
  exact prefix_append ..

/-- Pops that begin when no push is under way return what is left. -/
theorem Queued.drained [DecidableEq Producer] (quiet : state.Quiet) (draining : state.Draining) :
    ∃ count, (Runs.after step (List.replicate count .consume) state).returned
      = state.exchanged.map .node := by
  induction measured : 7 * (state.exchanged.length - state.returned.length) + state.consumer.rank
    using Nat.strongRecOn generalizing state cells with
  | _ left ih =>
    by_cases done : state.returned = state.exchanged.map .node
    · exact ⟨0, done⟩
    · obtain ⟨drainingNext, progress⟩ := queued.drains quiet draining done
      obtain ⟨cells', queuedNext, -⟩ := queued.popped
      have rankBound : (popAndCheckEnd state).consumer.rank < 7 := by
        cases (popAndCheckEnd state).consumer <;> simp [Pop.rank]
      have enough : (popAndCheckEnd state).returned.length ≤ state.exchanged.length := by
        simpa using queuedNext.returned_initial.length_le
      have smaller : 7 * ((popAndCheckEnd state).exchanged.length -
          (popAndCheckEnd state).returned.length) + (popAndCheckEnd state).consumer.rank < left := by
        simp only [popAndCheckEnd_kept]
        rcases progress with more | ⟨same, lower⟩
        · omega
        · rw [same]
          omega
      have quietNext : (popAndCheckEnd state).Quiet := by
        intro producer
        simpa using quiet producer
      obtain ⟨count, drained⟩ := ih _ smaller queuedNext quietNext drainingNext rfl
      exact ⟨count + 1, by simpa [replicate_succ, Runs.after, step] using drained⟩

end

/-- Whatever the consumer finds, its call comes closer to its end. -/
theorem popAndCheckEnd_rank {state : State Node Producer} (busy : state.consumer ≠ .idle) :
    (popAndCheckEnd state).consumer = .idle ∨
      (popAndCheckEnd state).consumer.rank < state.consumer.rank := by
  cases stands : state.consumer with
  | idle => exact absurd stands busy
  | skipped =>
    cases link : state.next state.tail <;>
      simp [popAndCheckEnd, stands, link, State.loaded, State.returnTail, Pop.rank]
  | unlinked =>
    by_cases last : state.tail = state.head <;>
      simp [popAndCheckEnd, stands, last, State.returnNothing, Pop.rank]
  | pushing | stored | exchanged => simp [popAndCheckEnd, stands, Pop.rank]
  | pushed =>
    cases link : state.next state.tail <;>
      simp [popAndCheckEnd, stands, link, State.returnTail, State.returnNothing]

/-- Once no push is under way, repeated pops return what is left, wherever the consumer
stood. -/
theorem Queued.completes [DecidableEq Producer] (queued : Queued state cells)
    (quiet : state.Quiet) :
    ∃ count, (Runs.after step (List.replicate count .consume) state).returned
      = state.exchanged.map .node := by
  induction measured : state.consumer.rank using Nat.strongRecOn generalizing state cells with
  | _ left ih =>
    by_cases idle : state.consumer = .idle
    · exact queued.drained quiet (by simp [State.Draining, idle])
    · obtain ⟨cells', queuedNext, -⟩ := queued.popped
      have quietNext : (popAndCheckEnd state).Quiet := by
        intro producer
        simpa using quiet producer
      have rest : ∃ count, (Runs.after step (List.replicate count .consume)
          (popAndCheckEnd state)).returned = (popAndCheckEnd state).exchanged.map .node := by
        rcases popAndCheckEnd_rank idle with ended | lower
        · exact queuedNext.drained quietNext (by simp [State.Draining, ended])
        · exact ih _ (measured ▸ lower) queuedNext quietNext rfl
      obtain ⟨count, drained⟩ := rest
      exact ⟨count + 1, by simpa [replicate_succ, Runs.after, step] using drained⟩

/-- A producer links a cell that is still in the queue. -/
theorem Queued.linksTo_mem (queued : Queued state cells) {cell : Cell Node}
    (links : state.linksTo producer = some cell) : cell ∈ cells := by
  cases busy : state.producers producer with
  | exchanged node prev =>
    have same : prev = cell := by simpa [State.linksTo, busy] using links
    subst same
    have owed : state.Owes prev (.node node) := .inl ⟨producer, node, busy, rfl⟩
    exact (queued.spans.waiting _ _ owed).1.mem.1
  | _ => simp [State.linksTo, busy] at links

/-- In every interleaving of pushes with the pops of one consumer: what has been returned
is the beginning of what was exchanged, in that order, and the stub is not among it; a
producer that links a node links one that has not been returned since it was pushed; and
when no push is under way, repeated pops return every node that is left. If no node is
pushed twice, none is returned twice and none is written to after its return. -/
theorem reached_fifo [DecidableEq Producer] (actions : List (Action Node Producer)) :
    let state := Runs.after step actions (initial : State Node Producer)
    state.returned <+: state.exchanged.map .node ∧
    .stub ∉ state.returned ∧
    (∀ producer node, state.linksTo producer = some (.node node) → state.lent node = true) ∧
    (state.exchanged.Nodup → state.returned.Nodup ∧
      ∀ producer node, state.linksTo producer = some (.node node) → .node node ∉ state.returned) ∧
    ((∀ producer, state.producers producer = .idle) →
      ∃ count, (Runs.after step (List.replicate count .consume) state).returned
        = state.exchanged.map .node) := by
  intro state
  obtain ⟨cells, queued⟩ := reached_queued actions
  have isInitial := queued.returned_initial
  refine ⟨isInitial, ?_, ?_, ?_, queued.completes⟩
  · intro stub
    simpa using isInitial.subset stub
  · intro producer node links
    exact queued.lent node (queued.linksTo_mem links)
  · intro once
    have exchangedOnce : (state.exchanged.map Cell.node).Nodup :=
      once.map fun _ _ same => Cell.node.inj same
    refine ⟨isInitial.sublist.nodup exchangedOnce, ?_⟩
    intro producer node links returned
    rw [queued.order] at exchangedOnce
    exact disjoint_of_nodup_append exchangedOnce returned
      (by simpa using queued.linksTo_mem links)

/-- The queue is said to be empty only where the stub is the tail and has no link. -/
theorem answers_empty_iff (state : State Node Producer) :
    (popAndCheckEnd state).answers[state.answers.length]? = some (none, true) ↔
      state.consumer = .idle ∧ state.tail = .stub ∧ state.next .stub = none := by
  unfold popAndCheckEnd State.loaded State.returnTail State.returnNothing
  repeat' split
  all_goals simp_all

/-- Two pushes whose links come in the opposite order of their exchanges, with a pop in
between that finds nothing. -/
def crossedPushes : List (Action Nat Bool) :=
  [.store false 7, .store true 8, .exchange false, .exchange true, .link true, .consume, .link false]

theorem crossedPushes_fifo :
    (∀ producer, (Runs.after step crossedPushes initial).producers producer = .idle) ∧
    (Runs.after step crossedPushes initial).exchanged.Nodup ∧
    (Runs.after step crossedPushes initial).returned.Nodup ∧
    ∃ count, (Runs.after step (List.replicate count .consume)
      (Runs.after step crossedPushes initial)).returned = [.node 7, .node 8] := by
  have quiet : ∀ producer, (Runs.after step crossedPushes initial).producers producer = .idle := by
    decide
  have once : (Runs.after step crossedPushes initial).exchanged.Nodup := by decide
  obtain ⟨_, _, _, returnedOnce, completes⟩ := reached_fifo crossedPushes
  exact ⟨quiet, once, (returnedOnce once).1, completes quiet⟩

end UnixCommons.UServerUtils.MultiProducerSingleConsumerQueue
