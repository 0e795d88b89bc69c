import UnixCommons.CORBA.ObjectPool
import UnixCommons.Library.Runs
import Mathlib.Data.List.Count
import Mathlib.Data.List.Perm.Basic

/-!
# The accounting of the object pool

The count of a connection is meant to be the number of handlers obtained from it that are
still outside, together with the calls of `get_object` that have chosen it and are still
under way, and is meant to stay within the bound of the connection. Each action is told to
keep that balance exactly under a condition on the state it finds. Three actions have one.
A precise choice by number does not look whether the connection is busy. A call that finds
its connection bad leaves without giving its use back. A released handler finds its
connection only by its object, which another resolution may have replaced.
-/

namespace UnixCommons.CORBACommons.ObjectPool

open List ConnData

universe u

variable {Object : Type u}

/-- The uses of a connection: the handlers obtained from it and the calls that have chosen
it and are still under way. -/
def State.held (state : State Object) (index : Nat) : Nat :=
  (state.handlers.map Prod.fst).count index + (state.calls.map Call.conn).count index

/-- Every connection counts its uses and stays within its bound. -/
def Balanced (state : State Object) : Prop :=
  ∀ index conn, state.objects[index]? = some conn →
    conn.useCount = (state.held index : Int) ∧ (conn.useMax ≠ 0 → conn.useCount ≤ conn.useMax)

/-- Calls and handlers belong to connections of the pool. -/
structure Placed (state : State Object) : Prop where
  calls : ∀ call ∈ state.calls, call.conn < state.objects.length
  handlers : ∀ handler ∈ state.handlers, handler.1 < state.objects.length

/-- The condition on an action. A precise choice finds its connection below the bound; a
connection that was chosen has not become bad when it is looked at; the object of a
released handler leads back to the connection the handler was obtained from. -/
def Admitted [DecidableEq Object] (config : Config) : Action Object → State Object → Prop
  | .choose key _ now, state =>
    config.policy = .precise → (check config now state.objects).2 = .ok () →
      ∀ conn, (check config now state.objects).1[key]? = some conn → conn.isBad = false →
        conn.useMax ≠ 0 → conn.useCount < conn.useMax
  | .examine index, state =>
    ∀ conn data, state.calls[index]? = some ⟨conn, .chosen⟩ → locked state conn = false →
      state.objects[conn]? = some data → data.isBad = false
  | .release index _ _, state =>
    ∀ conn object, state.handlers[index]? = some (conn, object) →
      getConnData state.objects object = some conn
  | _, _ => True

variable {index : Nat}

/-- The count of a list without the entry at a position. -/
theorem count_map_eraseIdx {Item : Type u} {items : List Item} {item : Item}
    (there : items[index]? = some item) (place : Item → Nat) (tested : Nat) :
    (items.map place).count tested
      = ((items.eraseIdx index).map place).count tested + if place item = tested then 1 else 0 := by
  obtain ⟨inside, found⟩ := List.getElem?_eq_some_iff.mp there
  have permuted := (getElem_cons_eraseIdx_perm inside).map place
  rw [← permuted.count_eq tested, map_cons, count_cons, found]
  simp only [beq_iff_eq]

/-- Putting in an entry that looks the same. -/
theorem map_set_of_same {Item : Type u} {Look : Type} {items : List Item} {item new : Item}
    (there : items[index]? = some item) {look : Item → Look} (same : look new = look item) :
    (items.set index new).map look = items.map look := by
  obtain ⟨inside, found⟩ := List.getElem?_eq_some_iff.mp there
  apply ext_getElem?
  intro position
  by_cases here : index = position
  · subst here
    simp [inside, found, same]
  · simp [here]

/-- What the accounting sees of a connection. -/
def ConnData.ledger (conn : ConnData Object) : Int × Int := (conn.useCount, conn.useMax)

variable {change : ConnData Object → ConnData Object}

/-- A change that the accounting does not see. -/
theorem modify_ledger {objects : List (ConnData Object)}
    (unseen : ∀ conn, (change conn).ledger = conn.ledger) :
    (objects.modify index change).map ledger = objects.map ledger := by
  apply ext_getElem?
  intro position
  by_cases here : index = position
  · simp [here, Function.comp_def, unseen]
  · simp [here]

variable {conn : ConnData Object}

section Ledger

variable {state next : State Object}

/-- Only the counts, the bounds and the uses matter. -/
theorem Balanced.of_ledger (balanced : Balanced state)
    (ledger : next.objects.map ledger = state.objects.map ledger)
    (held : ∀ index, next.held index = state.held index) : Balanced next := by
  intro index conn there
  have entry : (state.objects.map ConnData.ledger)[index]? = some conn.ledger := by
    rw [← ledger, List.getElem?_map, there]
    rfl
  rw [List.getElem?_map, Option.map_eq_some_iff] at entry
  obtain ⟨before, found, same⟩ := entry
  obtain ⟨count, bound⟩ := Prod.mk.inj same
  rw [← count, ← bound, held]
  exact balanced index before found

variable (balanced : Balanced state) (there : state.objects[index]? = some conn)
include balanced there

/-- A connection whose count and uses change by the same amount stays balanced exactly if
it stays within its bound. -/
theorem Balanced.modify_iff {amount : Int}
    (objects : next.objects = state.objects.modify index change)
    (count : (change conn).useCount = conn.useCount + amount)
    (bound : (change conn).useMax = conn.useMax)
    (changed : (next.held index : Int) = state.held index + amount)
    (others : ∀ other, other ≠ index → next.held other = state.held other) :
    Balanced next ↔ (conn.useMax ≠ 0 → conn.useCount + amount ≤ conn.useMax) := by
  have entry : next.objects[index]? = some (change conn) := by
    rw [objects, List.getElem?_modify_eq, there]
    rfl
  constructor
  · intro kept
    have within := (kept index _ entry).2
    rwa [bound, count] at within
  · intro within other data found
    by_cases same : other = index
    · subst same
      rw [entry, Option.some.injEq] at found
      subst found
      rw [count, bound, changed, (balanced other conn there).1]
      refine ⟨rfl, ?_⟩
      rw [← (balanced other conn there).1]
      exact within
    · rw [objects, List.getElem?_modify_ne _ _ (Ne.symm same)] at found
      rw [others other same]
      exact balanced other data found

/-- A use that ends without being counted off leaves its connection out of balance. -/
theorem Balanced.not_of_lost {after : ConnData Object} (still : next.objects[index]? = some after)
    (count : after.useCount = conn.useCount) (lost : state.held index = next.held index + 1) :
    ¬ Balanced next := by
  intro kept
  have before := (balanced index conn there).1
  have now := (kept index after still).1
  omega

end Ledger

/-- The periodic check changes no counts. -/
theorem check_ledger {config : Config} {now : Int} {objects : List (ConnData Object)} :
    (check config now objects).1.map ledger = objects.map ledger := by
  have kept : ∀ force,
      (checkBadRefs config force now objects).map ledger = objects.map ledger := by
    intro force
    rw [checkBadRefs, map_map]
    apply map_congr_left
    intro conn _
    simp only [Function.comp_apply, checkBadRef]
    repeat' split
    all_goals rfl
  unfold check
  repeat' split
  all_goals first | exact kept _ | rfl

/-! ## The policies -/

variable {objects : List (ConnData Object)}

/-- A suitable index is that of a suitable connection. -/
theorem suitableAt_spec (suitable : suitableAt objects index = true) :
    ∃ conn, objects[index]? = some conn ∧ conn.softSuitable = true := by
  simpa [suitableAt, Option.any_eq_true] using suitable

/-- The cyclic search gives a suitable connection. -/
theorem cycleNext_suitable {start : Nat} (found : cycleNext objects start = some index) :
    suitableAt objects index = true :=
  List.find?_some found

/-- The search ends if there is a suitable connection. -/
theorem cycleNext_ends (suitable : objects.any softSuitable = true) (start : Nat) :
    cycleNext objects start ≠ none := by
  obtain ⟨conn, inside, soft⟩ := any_eq_true.mp suitable
  obtain ⟨position, bounded, found⟩ := getElem_of_mem inside
  intro endless
  rw [cycleNext, List.find?_eq_none] at endless
  have reached : position ∈ (List.range objects.length).map
      fun distance => (start + 1 + distance) % objects.length := by
    apply mem_map.mpr
    have ahead := Nat.mod_lt (start + 1) (Nat.zero_lt_of_lt bounded)
    refine ⟨(position + objects.length - (start + 1) % objects.length) % objects.length,
      mem_range.mpr (Nat.mod_lt _ (Nat.zero_lt_of_lt bounded)), ?_⟩
    rw [Nat.add_mod_mod, Nat.add_comm, ← Nat.add_mod_mod, Nat.sub_add_cancel (by omega),
      Nat.add_mod_right, Nat.mod_eq_of_lt bounded]
  apply endless position reached
  simp [suitableAt, List.getElem?_eq_getElem bounded, found, soft]

/-- Apart from the precise choice by key, a policy chooses a suitable connection. -/
theorem getValidObject_suitable {policy : PolicyType} {lastObject key random : Nat}
    (chosen : getValidObject policy objects lastObject key random = .ok (some index)) :
    suitableAt objects index = true ∨
      policy = .precise ∧ index = key ∧ ∃ conn, objects[key]? = some conn ∧ conn.isBad = false := by
  have around : ∀ {start}, checkAndCycleNext objects start = some index →
      suitableAt objects index = true := by
    intro start found
    unfold checkAndCycleNext at found
    split at found
    · cases found
      assumption
    · exact cycleNext_suitable found
  cases policy with
  | loop => exact .inl (cycleNext_suitable (Except.ok.inj chosen))
  | rand | persistent => exact .inl (around (Except.ok.inj chosen))
  | badSwitch =>
    simp only [getValidObject] at chosen
    split at chosen
    · rename_i hard
      have same : lastObject = index := by simpa using chosen
      obtain ⟨conn, there, suits⟩ : ∃ conn, objects[index]? = some conn ∧ conn.hardSuitable = true := by
        simpa [same, Option.any_eq_true] using hard
      simp only [hardSuitable, Bool.and_eq_true] at suits
      exact .inl (by simp [suitableAt, there, suits.1])
    · exact .inl (cycleNext_suitable (Except.ok.inj chosen))
  | precise =>
    simp only [getValidObject] at chosen
    split at chosen
    · rename_i conn there
      split at chosen
      · contradiction
      · rename_i good
        cases chosen
        exact .inr ⟨rfl, rfl, conn, there, by simpa using good⟩
    · exact .inl (cycleNext_suitable (Except.ok.inj chosen))

/-- A suitable connection has room for one more use. -/
theorem room_of_suitable (there : objects[index]? = some conn)
    (suitable : suitableAt objects index = true) (bounded : conn.useMax ≠ 0) :
    conn.useCount + 1 ≤ conn.useMax := by
  obtain ⟨same, found, soft⟩ := suitableAt_spec suitable
  rw [there, Option.some.injEq] at found
  subst found
  have idle : conn.useMax ≠ 0 → conn.useCount < conn.useMax := by
    simp only [softSuitable, busy, Bool.and_eq_true, Bool.not_eq_true',
      Bool.or_eq_false_iff, Bool.and_eq_false_iff, decide_eq_false_iff_not, not_not] at soft
    intro positive
    exact Int.lt_of_not_ge (soft.2.1.resolve_left positive)
  exact idle bounded

/-! ## What the actions do to the accounting -/

variable {conn : Nat} {stage next : Stage}

section Actions

variable {state : State Object} (config : Config)

/-- A choice keeps the balance exactly if it is admitted. -/
theorem choose_balanced_iff [DecidableEq Object] {key random : Nat} {now : Int}
    (balanced : Balanced state) :
    Balanced (choose config key random now state) ↔ Admitted config (.choose key random now) state := by
  have checked : ∀ errors, Balanced
      { state with objects := (check config now state.objects).1, errors := errors } := fun errors =>
    balanced.of_ledger check_ledger fun _ => rfl
  simp only [choose, Admitted]
  generalize check config now state.objects = result at *
  have precise : config.policy = .precise → ∀ conn, result.1[key]? = some conn →
      conn.isBad = false →
      getValidObject config.policy result.1 state.lastObject key random = .ok (some key) := by
    intro policy conn there good
    simp [getValidObject, policy, there, good]
  cases outcome : result.2 with
  | error error => simpa using checked _
  | ok done =>
    cases chosen : getValidObject config.policy result.1 state.lastObject key random with
    | error error =>
      refine ⟨fun _ policy _ conn there good => ?_, fun _ => checked _⟩
      simp [precise policy conn there good] at chosen
    | ok choice =>
      cases choice with
      | none =>
        refine ⟨fun _ policy _ conn there good => ?_, fun _ => checked _⟩
        simp [precise policy conn there good] at chosen
      | some index =>
        obtain ⟨conn, there⟩ : ∃ conn, result.1[index]? = some conn := by
          rcases getValidObject_suitable chosen with suitable | ⟨_, rfl, conn, there, _⟩
          · exact (suitableAt_spec suitable).imp fun _ => And.left
          · exact ⟨conn, there⟩
        rw [(checked state.errors).modify_iff there rfl rfl rfl]
        · constructor
          · intro room policy _ data found good bounded
            have same : index = key := by
              have keyed := precise policy data found good
              rw [chosen] at keyed
              simpa using keyed
            subst same
            rw [there, Option.some.injEq] at found
            subst found
            exact room bounded
          · intro admitted bounded
            rcases getValidObject_suitable chosen with suitable | ⟨policy, rfl, data, found, good⟩
            · exact room_of_suitable there suitable bounded
            · rw [there, Option.some.injEq] at found
              subst found
              exact admitted policy (by simp) conn there good bounded
        · simp only [State.held, map_append, map_cons, map_nil, count_append,
            count_singleton_self]
          omega
        · intro other different
          simp [State.held, Ne.symm different]

section

variable (there : state.calls[index]? = some ⟨conn, stage⟩)
include there

/-- A call that hands out a handler passes its use on. -/
theorem handOut_held {object : Object} (tested : Nat) :
    (state.handOut index conn object).held tested = state.held tested := by
  have erased := count_map_eraseIdx there Call.conn tested
  simp only [State.held, State.handOut, map_append, map_cons, map_nil, count_append,
    count_singleton, beq_iff_eq]
  simp only at erased
  omega

theorem set_held (tested : Nat) :
    { state with
      objects := objects
      calls := state.calls.set index ⟨conn, next⟩ }.held tested = state.held tested := by
  have same := map_set_of_same there (show (⟨conn, next⟩ : Call).conn = conn from rfl)
  simp only [State.held, same]

/-- A call that is given up gives a use up. -/
theorem eraseIdx_held (objects : List (ConnData Object)) (errors : List Error) (tested : Nat) :
    state.held tested = { state with
      objects := objects
      calls := state.calls.eraseIdx index
      errors := errors }.held tested + if conn = tested then 1 else 0 := by
  have erased := count_map_eraseIdx there Call.conn tested
  simp only [State.held]
  simp only at erased
  omega

end

/-- The test of a connection keeps the balance exactly if it is admitted. -/
theorem examine_balanced_iff [DecidableEq Object] (balanced : Balanced state) :
    Balanced (examine config index state) ↔ Admitted config (.examine index) state := by
  unfold examine
  simp only [Admitted]
  split
  · rename_i conn there
    have only : (∀ other data, state.calls[index]? = some ⟨other, .chosen⟩ →
        locked state other = false → state.objects[other]? = some data → data.isBad = false) ↔
        (locked state conn = false → ∀ data, state.objects[conn]? = some data → data.isBad = false) := by
      constructor
      · intro all free data found
        exact all conn data there free found
      · intro one other data same free found
        rw [there] at same
        cases same
        exact one free data found
    rw [only]
    split
    · rename_i taken
      simp [taken, balanced]
    · rename_i free
      split
      · rename_i absent
        simp [absent, balanced]
      · rename_i data found
        split
        · rename_i bad
          have lost : ¬ Balanced { state with
              calls := state.calls.eraseIdx index
              errors := state.errors ++ [.invalidReference data.badnessDescription] } :=
            balanced.not_of_lost found found rfl (by simpa using eraseIdx_held there state.objects _ conn)
          refine ⟨fun kept => absurd kept lost, fun admitted => ?_⟩
          simp [admitted (by simpa using free) data found] at bad
        · rename_i good
          refine ⟨fun _ _ after foundToo => ?_, fun _ => ?_⟩
          · rw [found] at foundToo
            cases foundToo
            simpa using good
          · split
            · exact balanced.of_ledger (map_set_of_same found rfl) (set_held there)
            · split
              · exact balanced.of_ledger rfl (set_held there)
              · exact balanced.of_ledger rfl (handOut_held there)
  · rename_i other
    refine ⟨fun _ conn data there => absurd there (other conn), fun _ => balanced⟩

/-- The end of a resolution keeps the balance. -/
theorem resolved_balanced {answer : Except (List Char) (Option Object)}
    (balanced : Balanced state) : Balanced (resolved index answer state) := by
  unfold resolved
  split
  · rename_i conn there
    split
    · rename_i object
      apply balanced.of_ledger (modify_ledger fun _ => by rfl)
      intro tested
      exact handOut_held there tested
    · exact balanced.of_ledger (modify_ledger fun _ => by rfl) (set_held there)
    · exact balanced.of_ledger (modify_ledger fun _ => by rfl) (set_held there)
  · exact balanced

theorem release_count (description : List Char) (now : Int) {conn : ConnData Object} :
    (conn.release description now).useCount = conn.useCount + -1 ∧
      (conn.release description now).useMax = conn.useMax := by
  unfold release
  split
  · exact ⟨rfl, rfl⟩
  · exact ⟨rfl, rfl⟩

/-- Giving a connection back keeps the balance. -/
theorem giveBack_balanced (placed : Placed state) {now : Int} (balanced : Balanced state) :
    Balanced (giveBack index now state) := by
  unfold giveBack
  split
  · rename_i conn error there
    have inside : conn < state.objects.length := placed.calls _ (mem_of_getElem? there)
    have found := List.getElem?_eq_getElem inside
    obtain ⟨count, bound⟩ := release_count error now
    apply (balanced.modify_iff found rfl count bound ?_ ?_).mpr
    · intro bounded
      have within := (balanced conn _ found).2 bounded
      omega
    · have given := eraseIdx_held there (state.objects.modify conn (release error now))
        (state.errors ++ [.invalidReference ("released object as bad, with reason: ".toList ++ error)]) conn
      simp only [if_true] at given
      omega
    · intro other different
      have given := eraseIdx_held there (state.objects.modify conn (release error now))
        (state.errors ++ [.invalidReference ("released object as bad, with reason: ".toList ++ error)]) other
      simpa [Ne.symm different] using given.symm
  · exact balanced

/-- A handler that is released ends a use. -/
theorem release_held {object : Object} (there : state.handlers[index]? = some (conn, object))
    (objects : List (ConnData Object)) (tested : Nat) :
    state.held tested = { state with
      handlers := state.handlers.eraseIdx index
      objects := objects }.held tested + if conn = tested then 1 else 0 := by
  have erased := count_map_eraseIdx there Prod.fst tested
  simp only [State.held]
  simp only at erased
  omega

/-- A release keeps the balance exactly if it is admitted. -/
theorem releaseHandler_balanced_iff [DecidableEq Object] (placed : Placed state)
    {reason : Option (List Char)} {now : Int} (balanced : Balanced state) :
    Balanced (releaseHandler index reason now state) ↔
      Admitted config (.release index reason now) state := by
  unfold releaseHandler
  simp only [Admitted]
  split
  · rename_i absent
    simp [absent, balanced]
  · rename_i conn object there
    have inside : conn < state.objects.length := placed.handlers _ (mem_of_getElem? there)
    have found := List.getElem?_eq_getElem inside
    have held := release_held there (releaseByObject state.objects object (description reason) now)
    have only : (∀ other thing, state.handlers[index]? = some (other, thing) →
        getConnData state.objects thing = some other) ↔ getConnData state.objects object = some conn := by
      simp [there]
    rw [only]
    constructor
    · intro kept
      by_contra astray
      -- the count of the connection stays, whichever other connection is found
      have still : (releaseByObject state.objects object (description reason) now)[conn]?
          = some state.objects[conn] := by
        unfold releaseByObject
        split
        · rename_i other leads
          have different : other ≠ conn := by
            rintro rfl
            exact astray leads
          rw [List.getElem?_modify_ne _ _ different, found]
        · exact found
      exact balanced.not_of_lost found still rfl (by simpa using held conn) kept
    · intro leads
      obtain ⟨count, bound⟩ := release_count (description reason) now
      apply (balanced.modify_iff found (by simp only [releaseByObject, leads]) count bound ?_ ?_).mpr
      · intro bounded
        have within := (balanced conn _ found).2 bounded
        omega
      · have ended := held conn
        simp only [if_true] at ended
        omega
      · intro other different
        simpa [Ne.symm different] using (held other).symm

end Actions

/-! ## Runs -/

variable {state : State Object}

/-- A choice keeps the calls within the pool. -/
theorem choose_placed (placed : Placed state) {config : Config} {key random : Nat}
    {now : Int} : Placed (choose config key random now state) := by
  have length : (check config now state.objects).1.length = state.objects.length := by
    simpa using congrArg List.length check_ledger
  have checked : ∀ errors, Placed
      { state with objects := (check config now state.objects).1, errors := errors } := by
    intro errors
    constructor
    · simpa [length] using placed.calls
    · simpa [length] using placed.handlers
  unfold choose
  dsimp only
  split
  · exact checked _
  · split
    · exact checked _
    · exact checked _
    · rename_i index chosen
      have inside : index < (check config now state.objects).1.length := by
        rcases getValidObject_suitable chosen with suitable | ⟨_, rfl, conn, there, _⟩
        · obtain ⟨conn, there, _⟩ := suitableAt_spec suitable
          exact (List.getElem?_eq_some_iff.mp there).1
        · exact (List.getElem?_eq_some_iff.mp there).1
      constructor
      · intro call called
        rw [length_modify]
        rcases mem_append.mp called with before | new
        · exact (checked state.errors).calls call before
        · rw [mem_singleton.mp new]
          exact inside
      · intro handler held
        rw [length_modify]
        exact (checked state.errors).handlers handler held

/-- Calls that are taken away or move on, and handlers that are taken away or passed on. -/
theorem Placed.mono {next : State Object} (placed : Placed state)
    (length : next.objects.length = state.objects.length)
    (calls : ∀ call ∈ next.calls, ∃ before ∈ state.calls, call.conn = before.conn)
    (handlers : ∀ handler ∈ next.handlers, handler ∈ state.handlers ∨
      ∃ before ∈ state.calls, handler.1 = before.conn) : Placed next := by
  constructor
  · intro call called
    obtain ⟨before, there, same⟩ := calls call called
    rw [length, same]
    exact placed.calls before there
  · intro handler held
    rw [length]
    rcases handlers handler held with still | ⟨before, there, same⟩
    · exact placed.handlers handler still
    · rw [same]
      exact placed.calls before there

theorem conn_of_mem_set {calls : List Call} (there : calls[index]? = some ⟨conn, stage⟩)
    (call : Call) (inside : call ∈ calls.set index ⟨conn, next⟩) :
    ∃ before ∈ calls, call.conn = before.conn := by
  rcases mem_or_eq_of_mem_set inside with same | rfl
  · exact ⟨call, same, rfl⟩
  · exact ⟨⟨conn, stage⟩, mem_of_getElem? there, rfl⟩

theorem conn_of_mem_eraseIdx {calls : List Call} (call : Call)
    (inside : call ∈ calls.eraseIdx index) : ∃ before ∈ calls, call.conn = before.conn :=
  ⟨call, mem_of_mem_eraseIdx inside, rfl⟩

section

variable (placed : Placed state)
include placed

/-- Handing out keeps the calls within the pool. -/
theorem handOut_placed {next : State Object} (there : state.calls[index]? = some ⟨conn, stage⟩)
    {object : Object} (length : next.objects.length = state.objects.length)
    (calls : next.calls = state.calls) (handlers : next.handlers = state.handlers) :
    Placed (next.handOut index conn object) := by
  apply placed.mono
  · exact length
  · intro call inside
    rw [State.handOut, calls] at inside
    exact conn_of_mem_eraseIdx call inside
  · intro handler inside
    rw [State.handOut, handlers] at inside
    rcases mem_append.mp inside with before | new
    · exact .inl before
    · rw [mem_singleton.mp new]
      exact .inr ⟨⟨conn, stage⟩, mem_of_getElem? there, rfl⟩

/-- A test keeps the calls within the pool. -/
theorem examine_placed {config : Config} : Placed (examine config index state) := by
  unfold examine
  split
  · rename_i conn there
    repeat' split
    · exact placed
    · exact placed
    · exact placed.mono rfl conn_of_mem_eraseIdx fun _ => .inl
    · exact placed.mono (length_set ..) (conn_of_mem_set there) fun _ => .inl
    · exact placed.mono rfl (conn_of_mem_set there) fun _ => .inl
    · exact handOut_placed placed there rfl rfl rfl
  · exact placed

/-- The end of a resolution keeps the calls within the pool. -/
theorem resolved_placed {answer : Except (List Char) (Option Object)} :
    Placed (resolved index answer state) := by
  unfold resolved
  split
  · rename_i conn there
    split
    · exact handOut_placed placed there (length_modify ..) rfl rfl
    · exact placed.mono (length_modify ..) (conn_of_mem_set there) fun _ => .inl
    · exact placed.mono (length_modify ..) (conn_of_mem_set there) fun _ => .inl
  · exact placed

/-- Giving back keeps the calls within the pool. -/
theorem giveBack_placed {now : Int} : Placed (giveBack index now state) := by
  unfold giveBack
  split
  · exact placed.mono (length_modify ..) conn_of_mem_eraseIdx fun _ => .inl
  · exact placed

/-- A release keeps the calls within the pool. -/
theorem releaseHandler_placed [DecidableEq Object] {reason : Option (List Char)} {now : Int} :
    Placed (releaseHandler index reason now state) := by
  unfold releaseHandler
  split
  · exact placed
  · apply placed.mono
    · simp only [releaseByObject]
      split
      · exact length_modify ..
      · rfl
    · exact fun call called => ⟨call, called, rfl⟩
    · exact fun handler held => .inl (mem_of_mem_eraseIdx held)

end

/-- Every step keeps the calls within the pool. -/
theorem step_placed [DecidableEq Object] {config : Config} {action : Action Object}
    (placed : Placed state) : Placed (step config action state) := by
  cases action with
  | choose key random now => exact choose_placed placed
  | examine call => exact examine_placed placed
  | resolved call answer => exact resolved_placed placed
  | giveBack call now => exact giveBack_placed placed
  | release handler reason now => exact releaseHandler_placed placed

/-- An action keeps the balance exactly if it is admitted. -/
theorem step_balanced_iff [DecidableEq Object] {config : Config} {action : Action Object}
    (placed : Placed state) (balanced : Balanced state) :
    Balanced (step config action state) ↔ Admitted config action state := by
  cases action with
  | choose key random now => exact choose_balanced_iff config balanced
  | examine call => exact examine_balanced_iff config balanced
  | resolved call answer => exact ⟨fun _ => trivial, fun _ => resolved_balanced balanced⟩
  | giveBack call now => exact ⟨fun _ => trivial, fun _ => giveBack_balanced placed balanced⟩
  | release handler reason now =>
    exact releaseHandler_balanced_iff config placed balanced

theorem initial_placed {counts : List Int} : Placed (initial counts : State Object) where
  calls := by simp [initial]
  handlers := by simp [initial]

/-- A new pool is balanced unless a limit is negative. -/
theorem initial_balanced_iff {counts : List Int} :
    Balanced (initial counts : State Object) ↔ ∀ count ∈ counts, 0 ≤ count := by
  constructor
  · intro balanced count inside
    obtain ⟨index, bounded, found⟩ := getElem_of_mem inside
    have kept := balanced index { useMax := count } (by
      simp [initial, List.getElem?_eq_getElem bounded, found])
    by_cases zero : count = 0
    · exact Int.le_of_eq zero.symm
    · exact kept.2 zero
  · intro natural index conn there
    simp only [initial, List.getElem?_map, Option.map_eq_some_iff] at there
    obtain ⟨count, found, rfl⟩ := there
    refine ⟨rfl, fun _ => natural count (mem_of_getElem? found)⟩

/-- Every connection of a pool counts exactly its uses, and none is used more often than
its bound allows, at every moment of a run exactly if no bound is negative and every action
of the run is admitted. -/
theorem balanced_iff [DecidableEq Object] (config : Config) (counts : List Int)
    (actions : List (Action Object)) :
    ((∀ count ∈ counts, 0 ≤ count) ∧ Runs.Along (step config) (Admitted config) actions (initial counts)) ↔
      ∀ part, part <+: actions → Balanced (Runs.after (step config) part (initial counts)) := by
  have placed : ∀ part, Placed (Runs.after (step config) part (initial counts : State Object)) :=
    fun part => Runs.after_invariant (fun action _ => step_placed) part
      initial_placed
  have exact : ∀ action (state : State Object), Placed state ∧ Balanced state →
      (Placed (step config action state) ∧ Balanced (step config action state) ↔
        Admitted config action state) := by
    rintro action state ⟨inside, balanced⟩
    rw [← step_balanced_iff inside balanced]
    exact and_iff_right (step_placed inside)
  constructor
  · rintro ⟨natural, along⟩ part isPart
    have start : Balanced (initial counts : State Object) := initial_balanced_iff.mpr natural
    exact ((Runs.along_iff_invariant exact ⟨initial_placed, start⟩).mp along part isPart).2
  · intro balanced
    have start := balanced [] actions.nil_prefix
    refine ⟨(initial_balanced_iff).mp start, ?_⟩
    apply (Runs.along_iff_invariant exact ⟨initial_placed, start⟩).mpr
    intro part isPart
    exact ⟨placed part, balanced part isPart⟩

/-! ## Runs out of balance -/

/-- A pool that looks at the clock only and never hands out a recovered object just once. -/
def plainPool (policy : PolicyType) (reresolve : Bool) : Config where
  timeout := 0
  objectOnce := false
  allBadNoWait := false
  reresolve := reresolve
  policy := policy

/-- The second call has chosen the connection when the handler of the first one is released
as bad. -/
def badWhileChosen : List (Action Nat) :=
  [.choose 0 0 0, .examine 0, .resolved 0 (.ok (some 7)), .choose 0 0 0,
    .release 0 (some "no answer".toList) 1, .examine 0]

/-- A connection for one use, asked for twice by its number while another one is free. -/
def preciseTwice : List (Action Nat) :=
  [.choose 0 0 0, .choose 0 0 0]

/-- Two handlers are out when one of them is released as bad; the connection recovers and is
resolved again before the other one is released. -/
def resolvedAgain : List (Action Nat) :=
  [.choose 0 0 0, .examine 0, .resolved 0 (.ok (some 7)), .choose 0 0 0, .examine 0,
    .release 1 (some "no answer".toList) 0, .choose 0 0 0, .examine 0, .resolved 0 (.ok (some 8)),
    .release 0 none 0]

/-- The state after a run. -/
def reached (config : Config) (counts : List Int) (actions : List (Action Nat)) : State Nat :=
  Runs.after (step config) actions (initial counts)

theorem unbalanced_runs :
    ((reached (plainPool .loop false) [0] badWhileChosen).handlers = [] ∧
      (reached (plainPool .loop false) [0] badWhileChosen).calls = [] ∧
      (reached (plainPool .loop false) [0] badWhileChosen).objects.map useCount = [1]) ∧
    (reached (plainPool .precise false) [1, 1] preciseTwice).objects.map ledger = [(2, 1), (0, 1)] ∧
    ((reached (plainPool .loop true) [0] resolvedAgain).handlers = [(0, 8)] ∧
      (reached (plainPool .loop true) [0] resolvedAgain).calls = [] ∧
      (reached (plainPool .loop true) [0] resolvedAgain).objects.map useCount = [2]) := by
  decide

end UnixCommons.CORBACommons.ObjectPool
