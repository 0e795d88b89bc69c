import Mathlib.Data.List.Basic

/-!
# Runs of operations

A run applies operations one after another to a state. What an operation needs
may depend on the state it meets, so a condition on the operations of a run is
checked in the state each of them is applied to.

A property that every admitted operation keeps holds at the end of every admitted
run. For a machine that is compared with what it is meant for, more can be said: if
an operation carries the comparison over to the next pair of states exactly when it
is admitted, the admitted runs are exactly those along which the machine agrees
with its meaning.
-/

namespace UnixCommons.Runs

universe u v w
variable {Operation : Type u} {State : Type v} {Meaning : Type w}

/-- The state after a run. -/
def after (step : Operation → State → State) : List Operation → State → State
  | [], state => state
  | operation :: rest, state => after step rest (step operation state)

/-- Every operation of a run meets a condition in the state it is applied to. -/
def Along (step : Operation → State → State) (admitted : Operation → State → Prop) :
    List Operation → State → Prop
  | [], _ => True
  | operation :: rest, state =>
    admitted operation state ∧ Along step admitted rest (step operation state)

instance decidableAlong (step : Operation → State → State) (admitted : Operation → State → Prop)
    [∀ operation state, Decidable (admitted operation state)] :
    ∀ operations state, Decidable (Along step admitted operations state)
  | [], _ => .isTrue trivial
  | operation :: rest, state =>
    have := decidableAlong step admitted rest (step operation state)
    inferInstanceAs (Decidable (admitted operation state ∧ Along step admitted rest (step operation state)))

variable {step : Operation → State → State} {admitted : Operation → State → Prop}
  {operations : List Operation}

variable {holds : State → Prop}

/-- A property of states that every admitted operation keeps holds at the end of
every admitted run. -/
theorem Along.invariant
    (keeps : ∀ operation state, holds state → admitted operation state →
      holds (step operation state))
    {state : State}
    (along : Along step admitted operations state) (start : holds state) :
    holds (after step operations state) := by
  induction operations generalizing state with
  | nil => exact start
  | cons operation rest ih =>
    obtain ⟨first, remaining⟩ := along
    exact ih remaining (keeps operation state start first)

/-- A run whose operations all lower a measure is not longer than the measure. -/
theorem Along.length_le {measure : State → Nat}
    (lowers : ∀ operation state, holds state → admitted operation state →
      holds (step operation state) ∧ measure (step operation state) < measure state)
    {state : State}
    (along : Along step admitted operations state) (start : holds state) :
    operations.length ≤ measure state := by
  induction operations generalizing state with
  | nil => exact Nat.zero_le _
  | cons operation rest ih =>
    obtain ⟨first, remaining⟩ := along
    obtain ⟨kept, lower⟩ := lowers operation state start first
    exact Nat.le_trans (Nat.succ_le_succ (ih remaining kept)) lower

/-- A condition that the operations of a run meet in every state is met along it. -/
theorem Along.of_forall
    (every : ∀ operation ∈ operations, ∀ state, admitted operation state) (state : State) :
    Along step admitted operations state := by
  induction operations generalizing state with
  | nil => trivial
  | cons operation rest ih =>
    obtain ⟨first, remaining⟩ := List.forall_mem_cons.mp every
    exact ⟨first state, ih remaining _⟩

theorem after_append_singleton (operation : Operation) (state : State) :
    after step (operations ++ [operation]) state = step operation (after step operations state) := by
  induction operations generalizing state with
  | nil => rfl
  | cons first rest ih => exact ih (step first state)

/-- A condition along a run is one on every operation behind an initial part of it. -/
theorem along_iff_forall {state : State} :
    Along step admitted operations state ↔
      ∀ part operation, part ++ [operation] <+: operations →
        admitted operation (after step part state) := by
  induction operations generalizing state with
  | nil =>
    refine iff_of_true trivial fun part operation inside => ?_
    simp at inside
  | cons first rest ih =>
    rw [Along, ih]
    constructor
    · rintro ⟨here, later⟩ part operation inside
      cases part with
      | nil =>
        obtain rfl : operation = first := (List.cons_prefix_cons.mp inside).1
        exact here
      | cons other part =>
        obtain ⟨rfl, behind⟩ := List.cons_prefix_cons.mp inside
        exact later part operation behind
    · intro every
      refine ⟨every [] first (by simp), fun part operation inside => ?_⟩
      exact every (first :: part) operation (List.cons_prefix_cons.mpr ⟨rfl, inside⟩)

/-- Conditions that say the same in the states of a run are met along it together. -/
theorem Along.congr {first second : Operation → State → Prop}
    (same : ∀ operation state, holds state → admitted operation state →
      (first operation state ↔ second operation state))
    (keeps : ∀ operation state, holds state → admitted operation state → second operation state →
      holds (step operation state))
    {state : State} (along : Along step admitted operations state) (start : holds state) :
    Along step first operations state ↔ Along step second operations state := by
  induction operations generalizing state with
  | nil => exact Iff.rfl
  | cons operation rest ih =>
    obtain ⟨allowed, remaining⟩ := along
    rw [Along, Along, same operation state start allowed]
    exact and_congr_right fun met => ih remaining (keeps operation state start allowed met)

/-- Two conditions met along a run are met together. -/
theorem Along.and {first second : Operation → State → Prop}
    {state : State} (left : Along step first operations state)
    (right : Along step second operations state) :
    Along step (fun operation reached => first operation reached ∧ second operation reached)
      operations state := by
  induction operations generalizing state with
  | nil => trivial
  | cons operation rest ih => exact ⟨⟨left.1, right.1⟩, ih left.2 right.2⟩

/-- A relation that every admitted operation carries over holds at the end of every
admitted run. -/
theorem Along.related {meaning : Operation → Meaning → Meaning} {related : State → Meaning → Prop}
    (carries : ∀ operation state value, related state value → admitted operation state →
      related (step operation state) (meaning operation value))
    {state : State} {value : Meaning}
    (along : Along step admitted operations state) (start : related state value) :
    related (after step operations state) (after meaning operations value) := by
  induction operations generalizing state value with
  | nil => exact start
  | cons operation rest ih =>
    obtain ⟨first, remaining⟩ := along
    exact ih remaining (carries operation state value start first)

variable {step : Operation → State → State}

/-- If an operation that is not admitted also breaks the relation, the admitted runs
are exactly those along which the relation holds. -/
theorem along_iff_related
    {admitted : Operation → State → Prop} {meaning : Operation → Meaning → Meaning}
    {related : State → Meaning → Prop}
    (exact : ∀ operation state value, related state value →
      (related (step operation state) (meaning operation value) ↔ admitted operation state))
    (operations : List Operation) {state : State} {value : Meaning}
    (start : related state value) :
    Along step admitted operations state ↔ ∀ initial, initial <+: operations →
      related (after step initial state) (after meaning initial value) := by
  induction operations generalizing state value with
  | nil =>
    refine ⟨fun _ initial isInitial => ?_, fun _ => trivial⟩
    rw [List.prefix_nil.mp isInitial]
    exact start
  | cons operation rest ih =>
    constructor
    · rintro ⟨first, remaining⟩ initial isInitial
      have next := (exact operation state value start).mpr first
      rcases List.prefix_cons_iff.mp isInitial with rfl | ⟨tail, rfl, isTail⟩
      · exact start
      · exact (ih next).mp remaining tail isTail
    · intro throughout
      have next := throughout [operation] (List.prefix_cons_iff.mpr (.inr ⟨[], rfl, rest.nil_prefix⟩))
      refine ⟨(exact operation state value start).mp next, (ih next).mpr ?_⟩
      intro initial isInitial
      exact throughout (operation :: initial)
        (List.prefix_cons_iff.mpr (.inr ⟨initial, rfl, isInitial⟩))

/-- If the operations that keep a property are those that are admitted, the admitted runs
are exactly those along which the property holds. -/
theorem along_iff_invariant
    (exact : ∀ operation state, holds state →
      (holds (step operation state) ↔ admitted operation state))
    {operations : List Operation} {state : State} (start : holds state) :
    Along step admitted operations state ↔
      ∀ initial, initial <+: operations → holds (after step initial state) :=
  @along_iff_related _ _ Unit _ _ (fun _ value => value) (fun state _ => holds state)
    (fun operation state _ kept => exact operation state kept) operations state () start

/-- A property of states that every operation keeps holds at the end of every run. -/
theorem after_invariant (keeps : ∀ operation state, holds state → holds (step operation state))
    (operations : List Operation) {state : State} (start : holds state) :
    holds (after step operations state) := by
  induction operations generalizing state with
  | nil => exact start
  | cons operation rest ih => exact ih (keeps operation state start)

end UnixCommons.Runs
