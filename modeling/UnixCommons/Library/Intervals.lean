import Mathlib.Data.List.TakeWhile
import Mathlib.Data.Set.Insert
import Mathlib.Order.Interval.Set.Defs

/-!
# Separated lists of integer intervals

A set of integers can be stored as the closed intervals that make it up. The
list is canonical when every interval is proper and each one starts beyond the
successor of the end of the one before it: the intervals then are sorted, no two
overlap and no two touch.

A search by a key splits such a list where the first interval starting at or
after the key stands. A key lies in the set exactly when an interval starts
there or the last interval before the split reaches it.
-/

namespace UnixCommons.Intervals

open List

/-- A closed interval of integers. -/
@[ext] structure Interval where
  first : Int
  second : Int
deriving DecidableEq, Repr

namespace Interval

/-- The integers of an interval. -/
def Contains (interval : Interval) (value : Int) : Prop :=
  interval.first ≤ value ∧ value ≤ interval.second
  deriving Decidable

/-- One interval ends at least two below the start of the next. -/
def Precedes (left right : Interval) : Prop := left.second + 1 < right.first

end Interval

/-- The integers some interval of a list contains. -/
def Covers (intervals : List Interval) (value : Int) : Prop :=
  ∃ interval ∈ intervals, interval.Contains value

@[simp] theorem covers_nil {value : Int} : ¬ Covers [] value := by
  rintro ⟨interval, inside, _⟩
  cases inside

@[simp] theorem covers_cons (interval : Interval) (rest : List Interval) (value : Int) :
    Covers (interval :: rest) value ↔ interval.Contains value ∨ Covers rest value := by
  simp only [Covers, mem_cons, exists_eq_or_imp]

@[simp] theorem covers_append (left right : List Interval) (value : Int) :
    Covers (left ++ right) value ↔ Covers left value ∨ Covers right value := by
  simp only [Covers, mem_append, or_and_right, exists_or]

/-- Proper intervals, each of which precedes all later ones. -/
structure Separated (intervals : List Interval) : Prop where
  proper : ∀ interval ∈ intervals, interval.first ≤ interval.second
  apart : intervals.Pairwise Interval.Precedes

theorem separated_nil : Separated [] := ⟨nofun, List.Pairwise.nil⟩

/-- The first interval and the others. -/
theorem separated_cons {interval : Interval} {rest : List Interval} :
    Separated (interval :: rest) ↔
      interval.first ≤ interval.second ∧ (∀ later ∈ rest, interval.Precedes later) ∧
        Separated rest := by
  constructor
  · intro separated
    obtain ⟨ahead, apart⟩ := pairwise_cons.mp separated.apart
    exact ⟨separated.proper interval mem_cons_self, ahead,
      fun later inside => separated.proper later (mem_cons_of_mem interval inside), apart⟩
  · rintro ⟨proper, ahead, separated⟩
    exact ⟨forall_mem_cons.mpr ⟨proper, separated.proper⟩,
      pairwise_cons.mpr ⟨ahead, separated.apart⟩⟩

/-- Two sequences of intervals, one behind the other. -/
theorem separated_append {left right : List Interval} :
    Separated (left ++ right) ↔
      Separated left ∧ Separated right ∧
        ∀ earlier ∈ left, ∀ later ∈ right, earlier.Precedes later := by
  constructor
  · intro separated
    obtain ⟨first, second, across⟩ := pairwise_append.mp separated.apart
    exact ⟨⟨fun each inside => separated.proper each (mem_append_left right inside), first⟩,
      ⟨fun each inside => separated.proper each (mem_append_right left inside), second⟩,
      across⟩
  · rintro ⟨first, second, across⟩
    exact ⟨forall_mem_append.mpr ⟨first.proper, second.proper⟩,
      pairwise_append.mpr ⟨first.apart, second.apart, across⟩⟩

/-- The intervals that start below a key, up to the first that does not. -/
def below (key : Int) (intervals : List Interval) : List Interval :=
  intervals.takeWhile (fun interval => decide (interval.first < key))

/-- The intervals from the first that starts at a key or after it. -/
def onward (key : Int) (intervals : List Interval) : List Interval :=
  intervals.dropWhile (fun interval => decide (interval.first < key))

/-- The two parts of a sequence around a key. -/
theorem below_append_onward (key : Int) (intervals : List Interval) :
    below key intervals ++ onward key intervals = intervals :=
  takeWhile_append_dropWhile

variable {key value : Int}

/-- The intervals in front of the key begin below it. -/
theorem below_first_lt {intervals : List Interval} {interval : Interval}
    (inside : interval ∈ below key intervals) : interval.first < key := by
  have passed := mem_takeWhile_imp inside
  exact of_decide_eq_true passed

variable {intervals : List Interval}

/-- Of separated intervals all those after the split start at the key or later. -/
theorem Separated.onward_le_first (separated : Separated intervals) {interval : Interval}
    (inside : interval ∈ onward key intervals) : key ≤ interval.first := by
  induction intervals with
  | nil => cases inside
  | cons head rest ih =>
    obtain ⟨proper, ahead, tail⟩ := separated_cons.mp separated
    by_cases low : head.first < key
    · have skipped : onward key (head :: rest) = onward key rest :=
        dropWhile_cons_of_pos (decide_eq_true low)
      rw [skipped] at inside
      exact ih tail inside
    · have stopped : onward key (head :: rest) = head :: rest :=
        dropWhile_cons_of_neg (by simpa using low)
      rw [stopped] at inside
      rcases mem_cons.mp inside with rfl | later
      · exact not_lt.mp low
      · have far : head.second + 1 < interval.first := ahead interval later
        omega

theorem head_first_ne (later : ∀ interval ∈ intervals, key < interval.first) :
    intervals.head?.map Interval.first ≠ some key := by
  cases intervals with
  | nil => nofun
  | cons head rest =>
    have beyond := later head mem_cons_self
    exact fun equal => beyond.ne' (Option.some.inj equal)

/-- An integer above all intervals of a first part and below all those of a second
is in none of them. -/
theorem not_covers_of_gap {front following : List Interval}
    (ended : ∀ interval ∈ front, interval.second < value)
    (ahead : ∀ interval ∈ following, value < interval.first) :
    ¬ Covers (front ++ following) value := by
  rw [covers_append]
  rintro (⟨interval, inside, _, high⟩ | ⟨interval, inside, low, _⟩)
  · have := ended interval inside
    omega
  · have := ahead interval inside
    omega

/-- What precedes the intervals of a list precedes proper intervals that cover no
more than they do. -/
theorem Separated.precedes_of_covers {covered : List Interval} {earlier : Interval}
    (separated : Separated covered) (ahead : ∀ later ∈ intervals, earlier.Precedes later)
    (covers : ∀ value, Covers covered value → Covers intervals value) :
    ∀ later ∈ covered, earlier.Precedes later := by
  intro later inside
  have start : later.Contains later.first := ⟨le_refl _, separated.proper later inside⟩
  obtain ⟨around, around_mem, low, _⟩ := covers later.first ⟨later, inside, start⟩
  have far : earlier.second + 1 < around.first := ahead around around_mem
  exact lt_of_lt_of_le far low

/-- Where a key stands in a list of intervals: at the start of one, after the start
of one and before the starts of all later ones, or before all of them. -/
inductive Searched (key : Int) (intervals : List Interval) : Prop
  | found (front : List Interval) (interval : Interval) (following : List Interval)
      (whole : intervals = front ++ interval :: following)
      (split : below key intervals = front ∧ onward key intervals = interval :: following)
      (start : interval.first = key) (later : ∀ each ∈ following, key < each.first)
  | between (front : List Interval) (interval : Interval) (following : List Interval)
      (whole : intervals = front ++ interval :: following)
      (split : below key intervals = front ++ [interval] ∧ onward key intervals = following)
      (start : interval.first < key) (later : ∀ each ∈ following, key < each.first)
  | ahead (split : below key intervals = [] ∧ onward key intervals = intervals)
      (later : ∀ each ∈ intervals, key < each.first)

/-- If no interval starts at the key, those after the split start beyond it. -/
theorem Separated.onward_lt_first (separated : Separated intervals)
    (missing : (onward key intervals).head?.map Interval.first ≠ some key) {interval : Interval}
    (inside : interval ∈ onward key intervals) : key < interval.first := by
  have least := separated.onward_le_first inside
  rcases lt_or_eq_of_le least with less | equal
  · exact less
  · exfalso
    have tail : Separated (onward key intervals) := by
      rw [← below_append_onward key intervals] at separated
      exact (separated_append.mp separated).2.1
    have bound : ∀ each ∈ onward key intervals, key ≤ each.first :=
      fun each => separated.onward_le_first
    cases shape : onward key intervals with
    | nil =>
      rw [shape] at inside
      cases inside
    | cons head rest =>
      rw [shape] at inside missing tail bound
      obtain ⟨proper, precedes, _⟩ := separated_cons.mp tail
      rcases mem_cons.mp inside with rfl | later
      · exact missing (congrArg some equal.symm)
      · have far : head.second + 1 < interval.first := precedes interval later
        have start := bound head mem_cons_self
        omega

/-- Separated intervals can be searched by their first values. -/
theorem Separated.searched (separated : Separated intervals) : Searched key intervals := by
  have whole := (below_append_onward key intervals).symm
  by_cases found : (onward key intervals).head?.map Interval.first = some key
  · obtain ⟨interval, head, start⟩ := Option.map_eq_some_iff.mp found
    obtain ⟨following, shape⟩ := List.head?_eq_some_iff.mp head
    have split : intervals = below key intervals ++ interval :: following := by
      rw [← shape]
      exact whole
    refine .found _ interval following split ⟨rfl, shape⟩ start ?_
    intro each inside
    rw [split] at separated
    have tail := (separated_append.mp separated).2.1
    obtain ⟨proper, precedes, _⟩ := separated_cons.mp tail
    have far : interval.second + 1 < each.first := precedes each inside
    omega
  · have later : ∀ each ∈ onward key intervals, key < each.first :=
      fun each => separated.onward_lt_first found
    rcases eq_nil_or_concat (below key intervals) with none | ⟨front, interval, last⟩
    · have all : onward key intervals = intervals := by
        rw [none] at whole
        exact whole.symm
      rw [all] at later
      exact .ahead ⟨none, all⟩ later
    · rw [concat_eq_append] at last
      have split : intervals = front ++ interval :: onward key intervals := by
        rw [last] at whole
        simpa using whole
      refine .between front interval _ split ⟨last, rfl⟩ ?_ later
      apply @below_first_lt key intervals
      rw [last]
      exact mem_append_right front mem_cons_self

section Split

variable {intervals front following : List Interval} {interval : Interval}

variable (separated : Separated intervals) (whole : intervals = front ++ interval :: following)
include separated whole

/-- The intervals before a given one end at least two below its start. -/
theorem Separated.front_precedes :
    ∀ earlier ∈ front, earlier.Precedes interval := by
  rw [whole] at separated
  intro earlier inside
  exact (separated_append.mp separated).2.2 earlier inside interval mem_cons_self

theorem Separated.precedes_following :
    ∀ later ∈ following, interval.Precedes later := by
  rw [whole] at separated
  exact (separated_cons.mp (separated_append.mp separated).2.1).2.1

/-- Between the start of one interval and that of the next, the integers in the set
are those up to the end of the first. -/
theorem Separated.covers_iff_le_second (start : interval.first ≤ value)
    (later : ∀ each ∈ following, value < each.first) :
    Covers intervals value ↔ value ≤ interval.second := by
  have ended : ∀ each ∈ front, each.second < value := by
    intro each inside
    have far : each.second + 1 < interval.first := separated.front_precedes whole each inside
    omega
  have gap := not_covers_of_gap ended later
  rw [covers_append] at gap
  rw [whole, covers_append, covers_cons]
  constructor
  · rintro (before | inside | after)
    · exact absurd (Or.inl before) gap
    · exact inside.2
    · exact absurd (Or.inr after) gap
  · intro high
    exact Or.inr (Or.inl ⟨start, high⟩)

/-- The integer after the end of an interval is not in the set. -/
theorem Separated.not_covers_next :
    ¬ Covers intervals (interval.second + 1) := by
  have proper : interval.first ≤ interval.second := by
    apply separated.proper
    rw [whole]
    exact mem_append_right front mem_cons_self
  rw [separated.covers_iff_le_second whole (by omega) (separated.precedes_following whole)]
  omega

end Split

/-- The integer before the start of an interval is not in the set. -/
theorem Separated.not_covers_previous
    (separated : Separated intervals) {interval : Interval} (inside : interval ∈ intervals) :
    ¬ Covers intervals (interval.first - 1) := by
  obtain ⟨front, following, whole⟩ := append_of_mem inside
  have proper := separated.proper interval inside
  rw [whole]
  apply not_covers_of_gap
  · intro each earlier
    have far : each.second + 1 < interval.first := separated.front_precedes whole each earlier
    omega
  · refine forall_mem_cons.mpr ⟨by omega, fun each later => ?_⟩
    have far : interval.second + 1 < each.first := separated.precedes_following whole each later
    omega

/-- A list that covers the same has the same intervals. -/
theorem Separated.mem_of_covers {others : List Interval} {interval : Interval}
    (separated : Separated intervals) (separated' : Separated others)
    (same : ∀ value, Covers intervals value ↔ Covers others value)
    (inside : interval ∈ intervals) : interval ∈ others := by
  have proper := separated.proper interval inside
  obtain ⟨other, inside', start, ended⟩ :=
    (same interval.first).mp ⟨interval, inside, le_refl _, proper⟩
  obtain ⟨_, _, whole⟩ := append_of_mem inside
  obtain ⟨_, _, whole'⟩ := append_of_mem inside'
  have before : ¬ other.Contains (interval.first - 1) := fun contains =>
    separated.not_covers_previous inside ((same _).mpr ⟨other, inside', contains⟩)
  have behind : ¬ other.Contains (interval.second + 1) := fun contains =>
    separated.not_covers_next whole ((same _).mpr ⟨other, inside', contains⟩)
  have behind' : ¬ interval.Contains (other.second + 1) := fun contains =>
    separated'.not_covers_next whole' ((same _).mp ⟨interval, inside, contains⟩)
  unfold Interval.Contains at before behind behind'
  obtain rfl : interval = other := Interval.ext (by omega) (by omega)
  exact inside'

/-- A separated list that covers what another one does outside an interval. -/
structure Removed (low high : Int) (before after : List Interval) : Prop where
  separated : Separated after
  contents : ∀ value, Covers after value ↔ Covers before value ∧ ¬ (low ≤ value ∧ value ≤ high)

namespace Removed

variable {low high : Int}

/-- Two parts of a separated list may be treated one by one. -/
theorem append {left right left' right' : List Interval} (separated : Separated (left ++ right))
    (first : Removed low high left left') (second : Removed low high right right') :
    Removed low high (left ++ right) (left' ++ right') := by
  obtain ⟨_, _, across⟩ := separated_append.mp separated
  refine ⟨separated_append.mpr ⟨first.separated, second.separated, ?_⟩, fun value => ?_⟩
  · intro earlier inside
    have inner : earlier.Contains earlier.second :=
      ⟨first.separated.proper earlier inside, le_refl _⟩
    obtain ⟨around, aroundInside, _, high⟩ :=
      ((first.contents earlier.second).mp ⟨earlier, inside, inner⟩).1
    apply second.separated.precedes_of_covers _ fun value covered =>
      ((second.contents value).mp covered).1
    intro later further
    have far : around.second + 1 < later.first := across around aroundInside later further
    change earlier.second + 1 < later.first
    omega
  · rw [covers_append, covers_append, first.contents, second.contents, or_and_right]

/-- Intervals that start beyond the removed one or end before it stay. -/
theorem apart (separated : Separated intervals)
    (far : ∀ interval ∈ intervals, high < interval.first ∨ interval.second < low) :
    Removed low high intervals intervals := by
  refine ⟨separated, fun value => ⟨?_, And.left⟩⟩
  rintro ⟨interval, inside, start, ended⟩
  have := far interval inside
  exact ⟨⟨interval, inside, start, ended⟩, by omega⟩

variable {interval : Interval}

/-- An interval within the removed one goes. -/
theorem erased (start : low ≤ interval.first) (ended : interval.second ≤ high) :
    Removed low high [interval] [] := by
  refine ⟨separated_nil, fun value => ?_⟩
  simp only [covers_cons, covers_nil, or_false, false_iff, Interval.Contains]
  omega

/-- Of an interval that reaches beyond the removed one the upper part stays. -/
theorem upper (start : low ≤ interval.first) (inner : interval.first ≤ high)
    (ended : high < interval.second) :
    Removed low high [interval] [⟨high + 1, interval.second⟩] := by
  refine ⟨separated_cons.mpr ⟨ended, nofun, separated_nil⟩, fun value => ?_⟩
  simp only [covers_cons, covers_nil, or_false, Interval.Contains]
  omega

/-- Of an interval that starts before the removed one the lower part stays. -/
theorem lower (start : interval.first < low) (inner : low ≤ interval.second)
    (ended : interval.second ≤ high) :
    Removed low high [interval] [⟨interval.first, low - 1⟩] := by
  refine ⟨separated_cons.mpr ⟨Int.le_sub_one_of_lt start, nofun, separated_nil⟩, fun value => ?_⟩
  simp only [covers_cons, covers_nil, or_false, Interval.Contains]
  omega

/-- An interval around the removed one is split. -/
theorem split (ordered : low ≤ high) (start : interval.first < low)
    (ended : high < interval.second) :
    Removed low high [interval] [⟨interval.first, low - 1⟩, ⟨high + 1, interval.second⟩] := by
  have apart : (⟨interval.first, low - 1⟩ : Interval).Precedes ⟨high + 1, interval.second⟩ := by
    change low - 1 + 1 < high + 1
    omega
  have last : Separated [⟨high + 1, interval.second⟩] :=
    separated_cons.mpr ⟨ended, nofun, separated_nil⟩
  refine ⟨separated_cons.mpr ⟨Int.le_sub_one_of_lt start, ?_, last⟩, fun value => ?_⟩
  · exact forall_mem_singleton.mpr apart
  · simp only [covers_cons, covers_nil, or_false, Interval.Contains]
    omega

end Removed

end UnixCommons.Intervals
