import UnixCommons.Generics.CompressedSet
import UnixCommons.Library.Runs

/-!
# Runs of CompressedSet operations

Several sets are named and changed by operations one after another, each operation
also possibly reading a second set, which may be the first one again. Beside them
runs what the operations mean: a set of integers for every name, changed by unions
and differences.

Every run keeps the stored intervals sorted, disjoint and apart. Membership is that
of the sets meant as long as no removal is asked of the largest integer where it
stands alone, and no set but the empty one is removed from itself; these are
exactly the operations that miss.
-/

namespace UnixCommons.Generics

open Intervals Runs CompressedSet Function

namespace CompressedSet

/-- The holder is valid and the element found last is one of its elements. -/
structure Valid (bounds : Bounds) (set : CompressedSet) : Prop where
  holder : set.holder.Valid bounds
  lastFound : ∀ itor, set.lastFound = some itor → itor ∈ set.holder

theorem empty_valid {bounds : Bounds} : empty.Valid bounds := ⟨Holder.valid_nil, nofun⟩

/-- A value is cached if the last interval that was found holds it. -/
theorem cached_iff {set : CompressedSet} {value : Int} :
    set.cached value = true ↔ ∃ itor, set.lastFound = some itor ∧ itor.Contains value := by
  unfold cached
  cases set.lastFound with
  | none => simp
  | some itor => simp [Interval.Contains]

variable {bounds : Bounds} {set : CompressedSet}

/-- A lookup answers whether the value is covered, whatever element was found last;
it leaves the elements as they are and remembers one of them. -/
theorem belongs_spec (valid : set.Valid bounds)
    (value : Int) :
    ((set.belongs value).1 = true ↔ Covers set.holder value) ∧
      (set.belongs value).2.holder = set.holder ∧ (set.belongs value).2.Valid bounds := by
  by_cases cached : set.cached value = true
  · rw [belongs, if_pos cached]
    obtain ⟨itor, found, contains⟩ := cached_iff.mp cached
    have covered : Covers set.holder value := ⟨itor, valid.lastFound itor found, contains⟩
    exact ⟨iff_of_true rfl covered, rfl, valid⟩
  · rw [belongs, if_neg cached]
    have separated := valid.holder.separated
    cases separated.searched with
    | found front itor following whole split start later =>
      have inside : itor ∈ set.holder := by
        rw [whole]
        exact List.mem_append_right front List.mem_cons_self
      have covered : Covers set.holder value :=
        ⟨itor, inside, start.le, start.ge.trans (separated.proper itor inside)⟩
      rw [split.2]
      dsimp only [List.head?_cons, Option.map_some]
      rw [if_pos (congrArg some start)]
      refine ⟨iff_of_true rfl covered, rfl, valid.holder, ?_⟩
      rintro _ ⟨⟩
      exact inside
    | between front itor following whole split start later =>
      rw [split.1, split.2, List.getLast?_concat]
      rw [if_neg (head_first_ne later)]
      refine ⟨?_, rfl, valid.holder, ?_⟩
      · rw [separated.covers_iff_le_second whole start.le later]
        exact decide_eq_true_iff
      · rintro _ ⟨⟩
        rw [whole]
        exact List.mem_append_right front List.mem_cons_self
    | ahead split later =>
      have uncovered : ¬ Covers set.holder value :=
        @not_covers_of_gap value [] set.holder nofun later
      rw [split.1, split.2]
      rw [if_neg (head_first_ne later)]
      refine ⟨iff_of_false nofun uncovered, rfl, valid.holder, ?_⟩
      intro itor first
      exact List.mem_of_head? first

/-- `add` is union with the interval. -/
theorem add_spec (valid : set.Valid bounds) {low high : Int} (least : bounds.least ≤ low)
    (bounded : high ≤ bounds.greatest) :
    (set.add bounds low high).Valid bounds ∧
      ∀ value, Covers (set.add bounds low high).holder value ↔
        Covers set.holder value ∨ (low ≤ value ∧ value ≤ high) := by
  obtain ⟨kept, contents⟩ := Holder.add_spec valid.holder least bounded
  by_cases empty : high < low
  · rw [Holder.add, if_pos empty] at contents
    rw [add, if_pos empty]
    exact ⟨valid, contents⟩
  · rw [add, if_neg empty]
    refine ⟨⟨kept, ?_⟩, contents⟩
    intro itor found
    cases found

/-- The intervals after a removal. -/
theorem remove_holder (bounds : Bounds) (low high : Int) (set : CompressedSet) :
    (set.remove bounds low high).holder = set.holder.remove bounds low high := by
  rw [remove, Holder.remove]
  split <;> rfl

/-- A removal keeps the set valid. -/
theorem remove_valid (valid : set.Valid bounds)
    {low high : Int} (bounded : high ≤ bounds.greatest) :
    (set.remove bounds low high).Valid bounds := by
  rw [remove]
  split
  · exact valid
  · exact ⟨Holder.remove_valid valid.holder bounded, nofun⟩

variable {elements : Holder}

/-- Adding the elements of another set is union with what they cover. -/
theorem addSet_spec
    (within : ∀ itor ∈ elements, bounds.least ≤ itor.first ∧ itor.second ≤ bounds.greatest)
    (valid : set.Valid bounds) :
    (set.addSet bounds elements).Valid bounds ∧
      ∀ value, Covers (set.addSet bounds elements).holder value ↔
        Covers set.holder value ∨ Covers elements value := by
  induction elements generalizing set with
  | nil => exact ⟨valid, fun value => by simp [addSet]⟩
  | cons itor following ih =>
    obtain ⟨⟨least, bounded⟩, rest⟩ := List.forall_mem_cons.mp within
    obtain ⟨added, first⟩ := add_spec valid least bounded
    obtain ⟨kept, contents⟩ := ih rest added
    refine ⟨kept, fun value => ?_⟩
    change Covers ((set.add bounds itor.first itor.second).addSet bounds following).holder value ↔ _
    rw [contents value, first value, covers_cons, or_assoc, Interval.Contains]

/-- The removal of a set keeps the set valid. -/
theorem removeSet_valid (bounded : ∀ itor ∈ elements, itor.second ≤ bounds.greatest)
    (valid : set.Valid bounds) : (set.removeSet bounds elements).Valid bounds := by
  induction elements generalizing set with
  | nil => exact valid
  | cons itor following ih =>
    obtain ⟨first, rest⟩ := List.forall_mem_cons.mp bounded
    exact ih rest (remove_valid valid first)

/-- The elements of another set are removed, unless one of them ends at the largest
integer and that stands alone. -/
theorem removeSet_contents (separated : Separated elements)
    (bounded : ∀ itor ∈ elements, itor.second ≤ bounds.greatest) (valid : set.Valid bounds)
    (reaches : ¬ (set.holder.Alone bounds ∧ ∃ itor ∈ elements, itor.second = bounds.greatest))
    (value : Int) : Covers (set.removeSet bounds elements).holder value ↔
      Covers set.holder value ∧ ¬ Covers elements value := by
  induction elements generalizing set with
  | nil => simp [removeSet]
  | cons itor following ih =>
    obtain ⟨first, rest⟩ := List.forall_mem_cons.mp bounded
    obtain ⟨_, ahead, tail⟩ := separated_cons.mp separated
    have reached : set.holder.Reaches bounds itor.first itor.second := by
      rintro ⟨_, top, alone⟩
      exact reaches ⟨alone, itor, List.mem_cons_self, top⟩
    have removed := Holder.remove_removed valid.holder first reached
    rw [← remove_holder] at removed
    have next : (set.remove bounds itor.first itor.second).Valid bounds := remove_valid valid first
    have remaining : ¬ ((set.remove bounds itor.first itor.second).holder.Alone bounds ∧
        ∃ later ∈ following, later.second = bounds.greatest) := by
      rintro ⟨alone, last, inside, top⟩
      -- the element removed first ends too low to touch the two largest integers
      have far : itor.second + 1 < last.first := ahead last inside
      have proper := tail.proper last inside
      obtain ⟨covered, missing⟩ := next.holder.alone_iff.mp alone
      have before : set.holder.Alone bounds := by
        refine valid.holder.alone_iff.mpr ⟨((removed.contents _).mp covered).1, fun below => ?_⟩
        exact missing ((removed.contents _).mpr ⟨below, by omega⟩)
      exact reaches ⟨before, last, List.mem_cons_of_mem itor inside, top⟩
    change Covers ((set.remove bounds itor.first itor.second).removeSet bounds following).holder value ↔ _
    rw [ih tail rest next remaining, removed.contents value, covers_cons, not_or, and_assoc,
      Interval.Contains]

/-- A largest integer that stands alone survives the removal of any elements. -/
theorem removeSet_alone (bounded : ∀ itor ∈ elements, itor.second ≤ bounds.greatest)
    (valid : set.Valid bounds) (alone : set.holder.Alone bounds) :
    (set.removeSet bounds elements).holder.Alone bounds := by
  induction elements generalizing set with
  | nil => exact alone
  | cons itor following ih =>
    obtain ⟨first, rest⟩ := List.forall_mem_cons.mp bounded
    apply ih rest (remove_valid valid first)
    rw [remove_holder]
    exact Holder.remove_alone valid.holder first alone

/-- A status that describes an interval of values is the only one that does. -/
theorem status_exact {holder : Holder} {low high : Int} {status : CheckStatus}
    (ordered : low ≤ high) (describes : status.Describes holder low high) :
    (status = .all ↔ ∀ value, low ≤ value → value ≤ high → Covers holder value) ∧
      (status = .none ↔ ∀ value, low ≤ value → value ≤ high → ¬ Covers holder value) := by
  cases status with
  | none =>
    refine ⟨iff_of_false nofun ?_, iff_of_true rfl describes⟩
    intro covered
    exact describes low le_rfl ordered (covered low le_rfl ordered)
  | all =>
    refine ⟨iff_of_true rfl describes, iff_of_false nofun ?_⟩
    intro missing
    exact missing low le_rfl ordered (describes low le_rfl ordered)
  | some =>
    obtain ⟨⟨inside, above, below, covered⟩, outside, least, most, missing⟩ := describes
    constructor
    · exact iff_of_false nofun fun whole => missing (whole outside least most)
    · exact iff_of_false nofun fun empty => empty inside above below covered

/-- The presence of an interval is all, none or some of it exactly as its values are
in the set, and membership of one value is the presence of the interval of it alone. -/
theorem presence_exact {bounds : Bounds} {set : CompressedSet} (valid : set.Valid bounds) :
    (∀ low high, low ≤ high →
      (set.checkPresence low high = .all ↔
          ∀ value, low ≤ value → value ≤ high → Covers set.holder value) ∧
        (set.checkPresence low high = .none ↔
          ∀ value, low ≤ value → value ≤ high → ¬ Covers set.holder value) ∧
        (set.checkPresence low high = .some ↔
          ¬ (∀ value, low ≤ value → value ≤ high → Covers set.holder value) ∧
            ¬ ∀ value, low ≤ value → value ≤ high → ¬ Covers set.holder value)) ∧
      ∀ value, set.checkPresence value value =
        if (set.belongs value).1 then .all else .none := by
  have separated := valid.holder.separated
  constructor
  · intro low high ordered
    have exact := status_exact ordered (checkPresence_describes separated ordered)
    rw [← exact.1, ← exact.2]
    cases set.checkPresence low high <;> simp
  · intro value
    have exact := status_exact le_rfl (checkPresence_describes separated (le_refl value))
    have alone : ∀ each, value ≤ each → each ≤ value → each = value :=
      fun each least most => le_antisymm most least
    split_ifs with belongs
    · refine exact.1.mpr fun each least most => ?_
      rw [alone each least most]
      exact (belongs_spec valid value).1.mp belongs
    · refine exact.2.mpr fun each least most covered => belongs ?_
      rw [alone each least most] at covered
      exact (belongs_spec valid value).1.mpr covered

theorem presence_exact_octets :
    let octets : Bounds := ⟨0, 255, by decide⟩
    let set := (empty.add octets 1 3).add octets 5 9
    (set.checkPresence 1 3 = .all ↔ ∀ value, 1 ≤ value → value ≤ 3 → Covers set.holder value) ∧
      set.checkPresence 4 4 = if (set.belongs 4).1 then .all else .none := by
  intro octets set
  have first := (@add_spec octets empty empty_valid 1 3 (by decide) (by decide)).1
  have valid := (@add_spec octets _ first 5 9 (by decide) (by decide)).1
  exact ⟨((presence_exact valid).1 1 3 (by decide)).1, (presence_exact valid).2 4⟩

end CompressedSet

section Store

variable {bounds : Bounds} {Name : Type} [DecidableEq Name]

/-- The operations on named sets. -/
inductive SetOperation (bounds : Bounds) (Name : Type) where
  | add (object : Name) (low high : bounds.Value)
  | addValue (object : Name) (value : bounds.Value)
  | addSet (object cset : Name)
  | remove (object : Name) (low high : bounds.Value)
  | removeValue (object : Name) (value : bounds.Value)
  | removeSet (object cset : Name)
  | clear (object : Name)
  | belongs (object : Name) (value : bounds.Value)

namespace SetOperation

open Function

/-- What an operation does to the stored sets. A set given to itself is left as it is. -/
def step : SetOperation bounds Name → (Name → CompressedSet) → Name → CompressedSet
  | add object low high, store => update store object ((store object).add bounds low.1 high.1)
  | addValue object value, store => update store object ((store object).addValue bounds value.1)
  | addSet object cset, store =>
    if object = cset then store
    else update store object ((store object).addSet bounds (store cset).holder)
  | remove object low high, store =>
    update store object ((store object).remove bounds low.1 high.1)
  | removeValue object value, store =>
    update store object ((store object).removeValue bounds value.1)
  | removeSet object cset, store =>
    if object = cset then store
    else update store object ((store object).removeSet bounds (store cset).holder)
  | clear object, store => update store object (store object).clear
  | belongs object value, store => update store object ((store object).belongs value.1).2

/-- The integers between two values. -/
def between (low high : bounds.Value) : Set Int := { value | low.1 ≤ value ∧ value ≤ high.1 }

theorem between_self (value : bounds.Value) : between value value = {value.1} := by
  ext other
  change value.1 ≤ other ∧ other ≤ value.1 ↔ other = value.1
  omega

/-- What an operation means for the sets of integers. -/
def meaning : SetOperation bounds Name → (Name → Set Int) → Name → Set Int
  | add object low high, sets => update sets object (sets object ∪ between low high)
  | addValue object value, sets => update sets object (sets object ∪ {value.1})
  | addSet object cset, sets => update sets object (sets object ∪ sets cset)
  | remove object low high, sets => update sets object (sets object \ between low high)
  | removeValue object value, sets => update sets object (sets object \ {value.1})
  | removeSet object cset, sets => update sets object (sets object \ sets cset)
  | clear object, sets => update sets object ∅
  | belongs _ _, sets => sets

/-- A removal reaches all it is to remove, and a set removed from itself is empty. -/
def Admitted : SetOperation bounds Name → (Name → CompressedSet) → Prop
  | remove object low high, store => (store object).holder.Reaches bounds low.1 high.1
  | removeValue object value, store => (store object).holder.Reaches bounds value.1 value.1
  | removeSet object cset, store =>
    if object = cset then (store object).holder = []
    else ¬ ((store object).holder.Alone bounds ∧
      ∃ itor ∈ (store cset).holder, itor.second = bounds.greatest)
  | _, _ => True

end SetOperation

/-- A valid set covers the values of a set of integers. -/
def Holds (bounds : Bounds) (set : CompressedSet) (values : Set Int) : Prop :=
  set.Valid bounds ∧ ∀ value : bounds.Value, Covers set.holder value.1 ↔ value.1 ∈ values

theorem holds_empty : Holds bounds empty ∅ :=
  ⟨empty_valid, fun _ => iff_of_false covers_nil id⟩

/-- Every stored set covers the set of integers meant. -/
def Represents (bounds : Bounds) (store : Name → CompressedSet) (sets : Name → Set Int) : Prop :=
  ∀ object, Holds bounds (store object) (sets object)

/-- An update of one name is judged by that name. -/
theorem Represents.update_iff {store : Name → CompressedSet} {sets : Name → Set Int}
    (represents : Represents bounds store sets) {object : Name} (set : CompressedSet)
    (values : Set Int) :
    Represents bounds (update store object set) (update sets object values) ↔
      Holds bounds set values := by
  constructor
  · intro updated
    have own := updated object
    rw [update_self, update_self] at own
    exact own
  · intro holds other
    by_cases same : other = object
    · rw [same, update_self, update_self]
      exact holds
    · rw [update_of_ne same, update_of_ne same]
      exact represents other

variable {set cset : CompressedSet} {values others : Set Int}

section

variable (holds : Holds bounds set values)
include holds

/-- The removal of an interval is exact when it reaches all of it. -/
theorem Holds.remove_iff (low high : bounds.Value) :
    Holds bounds (set.remove bounds low.1 high.1) (values \ SetOperation.between low high) ↔
      set.holder.Reaches bounds low.1 high.1 := by
  have valid := holds.1
  constructor
  · rintro ⟨_, contents⟩ ⟨ordered, top, alone⟩
    have kept : ((set.remove bounds low.1 high.1).holder).Alone bounds := by
      rw [remove_holder]
      exact Holder.remove_alone valid.holder high.2.2 alone
    have outside := ((contents bounds.top).mp kept.covers).2
    exact outside ⟨ordered.trans top.le, top.ge⟩
  · intro reaches
    have removed := Holder.remove_removed valid.holder high.2.2 reaches
    rw [← remove_holder] at removed
    refine ⟨remove_valid valid high.2.2, fun value => ?_⟩
    rw [removed.contents, holds.2 value]
    rfl

/-- An addition adds the values of its interval. -/
theorem Holds.add (low high : bounds.Value) :
    Holds bounds (set.add bounds low.1 high.1) (values ∪ SetOperation.between low high) := by
  obtain ⟨kept, contents⟩ := add_spec holds.1 low.2.1 high.2.2
  refine ⟨kept, fun value => ?_⟩
  rw [contents, holds.2 value]
  rfl

/-- The addition of a set adds its values. -/
theorem Holds.addSet (other : Holds bounds cset others) :
    Holds bounds (set.addSet bounds cset.holder) (values ∪ others) := by
  obtain ⟨kept, contents⟩ := addSet_spec
    (fun itor inside => ⟨other.1.holder.least_le inside, other.1.holder.second_le inside⟩) holds.1
  refine ⟨kept, fun value => ?_⟩
  rw [contents, holds.2 value, other.2 value]
  rfl

/-- The removal of another set is exact unless it ends at the largest integer where
that stands alone. -/
theorem Holds.removeSet_iff (other : Holds bounds cset others) :
    Holds bounds (set.removeSet bounds cset.holder) (values \ others) ↔
      ¬ (set.holder.Alone bounds ∧ ∃ itor ∈ cset.holder, itor.second = bounds.greatest) := by
  have bounded : ∀ itor ∈ cset.holder, itor.second ≤ bounds.greatest :=
    fun itor => other.1.holder.second_le
  constructor
  · rintro ⟨_, contents⟩ ⟨alone, itor, inside, ended⟩
    have kept := removeSet_alone bounded holds.1 alone
    have outside := ((contents bounds.top).mp kept.covers).2
    have proper := other.1.holder.separated.proper itor inside
    exact outside ((other.2 bounds.top).mp ⟨itor, inside, proper.trans ended.le, ended.ge⟩)
  · intro reaches
    refine ⟨removeSet_valid bounded holds.1, fun value => ?_⟩
    rw [removeSet_contents other.1.holder.separated bounded holds.1 reaches,
      holds.2 value, other.2 value]
    rfl

/-- A set left as it is holds its difference with itself only if it is empty. -/
theorem Holds.sdiff_self_iff :
    Holds bounds set (values \ values) ↔ set.holder = [] := by
  constructor
  · rintro ⟨valid, contents⟩
    cases shape : set.holder with
    | nil => rfl
    | cons itor following =>
      have inside : itor ∈ set.holder := by
        rw [shape]
        exact List.mem_cons_self
      have covered : Covers set.holder itor.first :=
        ⟨itor, inside, le_refl _, valid.holder.separated.proper itor inside⟩
      have both := (contents ⟨itor.first, valid.holder.within _ covered⟩).mp covered
      exact absurd both.1 both.2
  · intro empty
    refine ⟨holds.1, fun value => ?_⟩
    rw [empty]
    exact iff_of_false covers_nil (fun both => both.2 both.1)

end

/-- An operation carries the sets meant over to the next state exactly when it is
admitted. -/
theorem SetOperation.step_represents_iff (operation : SetOperation bounds Name)
    (store : Name → CompressedSet) (sets : Name → Set Int)
    (represents : Represents bounds store sets) :
    Represents bounds (operation.step store) (operation.meaning sets) ↔ operation.Admitted store := by
  cases operation with
  | add object low high =>
    refine iff_of_true ((represents.update_iff _ _).mpr ?_) trivial
    exact (represents object).add low high
  | addValue object value =>
    refine iff_of_true ((represents.update_iff _ _).mpr ?_) trivial
    rw [← between_self]
    exact (represents object).add value value
  | addSet object cset =>
    refine iff_of_true ?_ trivial
    by_cases same : object = cset
    · rw [step, if_pos same, meaning, ← same, Set.union_self, update_eq_self]
      exact represents
    · rw [step, if_neg same]
      exact (represents.update_iff _ _).mpr ((represents object).addSet (represents cset))
  | remove object low high =>
    exact (represents.update_iff _ _).trans ((represents object).remove_iff low high)
  | removeValue object value =>
    rw [meaning, ← between_self]
    exact (represents.update_iff _ _).trans ((represents object).remove_iff value value)
  | removeSet object cset =>
    by_cases same : object = cset
    · rw [step, if_pos same, meaning, ← same, Admitted, if_pos rfl,
        ← (represents object).sdiff_self_iff, ← represents.update_iff,
        update_eq_self]
    · rw [step, if_neg same, Admitted, if_neg same]
      exact (represents.update_iff _ _).trans
        ((represents object).removeSet_iff (represents cset))
  | clear object =>
    refine iff_of_true ((represents.update_iff _ _).mpr ?_) trivial
    exact ⟨empty_valid, fun value => iff_of_false covers_nil id⟩
  | belongs object value =>
    refine iff_of_true ?_ trivial
    have same : sets = update sets object (sets object) := by
      rw [update_eq_self]
    obtain ⟨_, holder, kept⟩ := belongs_spec (represents object).1 value.1
    rw [same]
    refine (represents.update_iff _ _).mpr ⟨kept, fun other => ?_⟩
    rw [holder]
    exact (represents object).2 other

/-- Every operation keeps every stored set valid. -/
theorem SetOperation.step_valid (operation : SetOperation bounds Name)
    (store : Name → CompressedSet) (valid : ∀ object, (store object).Valid bounds) :
    ∀ object, (operation.step store object).Valid bounds := by
  have updated : ∀ object (set : CompressedSet), set.Valid bounds →
      ∀ other, (update store object set other).Valid bounds := by
    intro object set own
    rw [forall_update_iff store fun _ each => each.Valid bounds]
    exact ⟨own, fun other _ => valid other⟩
  have second_le : ∀ object, ∀ itor ∈ (store object).holder, itor.second ≤ bounds.greatest :=
    fun object itor => (valid object).holder.second_le
  cases operation with
  | add object low high =>
    exact updated object _ (add_spec (valid object) low.2.1 high.2.2).1
  | addValue object value =>
    exact updated object _ (add_spec (valid object) value.2.1 value.2.2).1
  | addSet object cset =>
    rw [step]
    split
    · exact valid
    · refine updated object _ (addSet_spec (fun itor inside => ?_) (valid object)).1
      exact ⟨(valid cset).holder.least_le inside, second_le cset itor inside⟩
  | remove object low high =>
    exact updated object _ (remove_valid (valid object) high.2.2)
  | removeValue object value =>
    exact updated object _ (remove_valid (valid object) value.2.2)
  | removeSet object cset =>
    rw [step]
    split
    · exact valid
    · exact updated object _ (removeSet_valid (second_le cset) (valid object))
  | clear object => exact updated object _ empty_valid
  | belongs object value =>
    exact updated object _ (belongs_spec (valid object) value.1).2.2

/-- The stored sets after a run from empty ones. -/
def reached (operations : List (SetOperation bounds Name)) : Name → CompressedSet :=
  after SetOperation.step operations fun _ => empty

/-- The sets of integers a run from empty ones means. -/
def meant (operations : List (SetOperation bounds Name)) : Name → Set Int :=
  after SetOperation.meaning operations fun _ => ∅

/-- Every set of a run is valid. -/
theorem reached_valid (operations : List (SetOperation bounds Name)) (object : Name) :
    (reached operations object).Valid bounds := by
  have start : ∀ _ : Name, empty.Valid bounds :=
    fun _ => empty_valid
  exact after_invariant SetOperation.step_valid operations start object

/-- After every run the stored intervals are proper, sorted, disjoint and not
adjacent. Membership agrees with the sets meant throughout a run exactly when every
removal of the run reaches all it is to remove and no set but an empty one is removed
from itself. -/
theorem runs_exact (operations : List (SetOperation bounds Name)) :
    (∀ object, Separated (reached operations object).holder) ∧
      ((∀ initial, initial <+: operations → ∀ object (value : bounds.Value),
          ((reached initial object).belongs value.1).1 = true ↔ value.1 ∈ meant initial object) ↔
        Along SetOperation.step SetOperation.Admitted operations fun _ => empty) := by
  refine ⟨fun object => (reached_valid operations object).holder.separated, ?_⟩
  have start : Represents bounds (fun _ : Name => empty) (fun _ => ∅) :=
    fun _ => holds_empty
  rw [along_iff_related SetOperation.step_represents_iff operations start]
  refine forall_congr' fun initial => imp_congr_right fun _ => ?_
  constructor
  · intro agrees object
    have valid := reached_valid initial object
    refine ⟨valid, fun value => ?_⟩
    exact (belongs_spec valid value.1).1.symm.trans (agrees object value)
  · intro represents object value
    obtain ⟨valid, contents⟩ := represents object
    exact (belongs_spec valid value.1).1.trans (contents value)

/-- Two sets answer alike exactly if they store the same intervals. -/
theorem reached_canonical (operations others : List (SetOperation bounds Name))
    (object other : Name) :
    (∀ value, ((reached operations object).belongs value).1 =
        ((reached others other).belongs value).1) ↔
      ∀ interval, interval ∈ (reached operations object).holder ↔
        interval ∈ (reached others other).holder := by
  have valid := reached_valid operations object
  have valid' := reached_valid others other
  simp only [Bool.eq_iff_iff, (belongs_spec valid _).1, (belongs_spec valid' _).1]
  constructor
  · intro same interval
    exact ⟨valid.holder.separated.mem_of_covers valid'.holder.separated same,
      valid'.holder.separated.mem_of_covers valid.holder.separated fun _ => (same _).symm⟩
  · intro same value
    simp only [Covers, same]

end Store

section Misses

/-- The octets. -/
def octets : Bounds := ⟨0, 255, by decide⟩

def octet (value : Int) (inside : 0 ≤ value ∧ value ≤ 255) : octets.Value := ⟨value, inside⟩

/-- The largest octet stays in a set it was added to and removed from, and so does
any octet of a set removed from itself. -/
theorem removals_miss :
    let top := octet 255 (by decide)
    let five := octet 5 (by decide)
    let single : List (SetOperation octets Unit) := [.addValue () top, .removeValue () top]
    let itself : List (SetOperation octets Unit) := [.addValue () five, .removeSet () ()]
    (((reached single ()).belongs 255).1 = true ∧ (255 : Int) ∉ meant single ()) ∧
      (((reached itself ()).belongs 5).1 = true ∧ (5 : Int) ∉ meant itself ()) := by
  refine ⟨⟨by decide, ?_⟩, by decide, ?_⟩
  · simp [meant, after, SetOperation.meaning]
  · simp [meant, after, SetOperation.meaning]

end Misses

end UnixCommons.Generics
