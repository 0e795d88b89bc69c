import Mathlib.Data.List.Basic

/-!
# Scanning positions

The lowest and the highest position with a property, and the two loops that look for
them: upwards over a number of positions, and downwards to position zero. The test of a
position may fail. A loop whose tests all succeed finds the position.
-/

namespace UnixCommons.Scan

universe u
variable {ε : Type u} {fits : Nat → Prop}

/-- The lowest position that fits, if there is one. -/
def IsLowest (fits : Nat → Prop) : Option Nat → Prop
  | some position => fits position ∧ ∀ other, fits other → position ≤ other
  | none => ∀ other, ¬ fits other

/-- The highest position that fits, if there is one. -/
def IsHighest (fits : Nat → Prop) : Option Nat → Prop
  | some position => fits position ∧ ∀ other, fits other → other ≤ position
  | none => ∀ other, ¬ fits other

variable {found found' : Option Nat}

theorem IsLowest.unique (lowest : IsLowest fits found) (lowest' : IsLowest fits found') :
    found = found' := by
  cases found with
  | none =>
    cases found' with
    | none => rfl
    | some position => exact absurd lowest'.1 (lowest position)
  | some position =>
    cases found' with
    | none => exact absurd lowest.1 (lowest' position)
    | some position' =>
      exact congrArg some (Nat.le_antisymm (lowest.2 position' lowest'.1) (lowest'.2 position lowest.1))

theorem IsHighest.unique (highest : IsHighest fits found) (highest' : IsHighest fits found') :
    found = found' := by
  cases found with
  | none =>
    cases found' with
    | none => rfl
    | some position => exact absurd highest'.1 (highest position)
  | some position =>
    cases found' with
    | none => exact absurd highest.1 (highest' position)
    | some position' =>
      exact congrArg some (Nat.le_antisymm (highest'.2 position highest.1) (highest.2 position' highest'.1))

/-- The property may be replaced by an equivalent one. -/
theorem IsLowest.congr {fits' : Nat → Prop} (lowest : IsLowest fits found)
    (same : ∀ position, fits position ↔ fits' position) : IsLowest fits' found := by
  rwa [← funext fun position => propext (same position)]

@[inherit_doc IsLowest.congr]
theorem IsHighest.congr {fits' : Nat → Prop} (highest : IsHighest fits found)
    (same : ∀ position, fits position ↔ fits' position) : IsHighest fits' found := by
  rwa [← funext fun position => propext (same position)]

section Search

variable (fits) [DecidablePred fits]

/-- The lowest position below a bound. -/
def lowest : Nat → Option Nat
  | 0 => none
  | bound + 1 => (lowest bound).orElse fun _ => if fits bound then some bound else none

/-- The highest position below a bound. -/
def highest : Nat → Option Nat
  | 0 => none
  | bound + 1 => if fits bound then some bound else highest bound

variable {fits}

/-- The search upwards finds the lowest position. -/
theorem lowest_below {bound : Nat} :
    IsLowest (fun position => position < bound ∧ fits position) (lowest fits bound) := by
  induction bound with
  | zero =>
    intro other inside
    exact absurd inside.1 (Nat.not_lt_zero other)
  | succ bound ih =>
    rw [lowest]
    cases below : lowest fits bound with
    | some position =>
      rw [below] at ih
      refine ⟨⟨Nat.lt_succ_of_lt ih.1.1, ih.1.2⟩, ?_⟩
      intro other inside
      rcases Nat.lt_succ_iff_lt_or_eq.mp inside.1 with smaller | rfl
      · exact ih.2 other ⟨smaller, inside.2⟩
      · exact Nat.le_of_lt ih.1.1
    | none =>
      rw [below] at ih
      split_ifs with atBound
      · refine ⟨⟨Nat.lt_succ_self bound, atBound⟩, ?_⟩
        intro other inside
        rcases Nat.lt_succ_iff_lt_or_eq.mp inside.1 with smaller | rfl
        · exact absurd ⟨smaller, inside.2⟩ (ih other)
        · exact Nat.le_refl _
      · intro other inside
        rcases Nat.lt_succ_iff_lt_or_eq.mp inside.1 with smaller | rfl
        · exact ih other ⟨smaller, inside.2⟩
        · exact atBound inside.2

/-- The search downwards finds the highest position. -/
theorem highest_below {bound : Nat} :
    IsHighest (fun position => position < bound ∧ fits position) (highest fits bound) := by
  induction bound with
  | zero =>
    intro other inside
    exact absurd inside.1 (Nat.not_lt_zero other)
  | succ bound ih =>
    rw [highest]
    split_ifs with atBound
    · exact ⟨⟨Nat.lt_succ_self bound, atBound⟩, fun other inside => Nat.le_of_lt_succ inside.1⟩
    · have same : ∀ position, position < bound ∧ fits position ↔ position < bound + 1 ∧ fits position := by
        intro position
        constructor
        · exact fun inside => ⟨Nat.lt_succ_of_lt inside.1, inside.2⟩
        · intro inside
          rcases Nat.lt_succ_iff_lt_or_eq.mp inside.1 with smaller | rfl
          · exact ⟨smaller, inside.2⟩
          · exact absurd inside.2 atBound
      exact ih.congr same

end Search

/-! ## The loops -/

section Loops

variable (test : Nat → Except ε Bool)

/-- Tests a number of positions from one on. -/
def scanUp (position : Nat) : Nat → Except ε (Option Nat)
  | 0 => .ok none
  | count + 1 => do
    if ← test position then return some position
    scanUp (position + 1) count

/-- Tests a position and all below it. -/
def scanDown : Nat → Except ε (Option Nat)
  | 0 => do
    if ← test 0 then return some 0
    return none
  | position + 1 => do
    if ← test (position + 1) then return some (position + 1)
    scanDown position

variable {test} [DecidablePred fits]

/-- A scan upwards whose tests succeed finds the lowest position. -/
theorem scanUp_ok {position count : Nat}
    (tests : ∀ other, position ≤ other → other < position + count → test other = .ok (decide (fits other))) :
    ∃ found, scanUp test position count = .ok found ∧
      IsLowest (fun other => position ≤ other ∧ other < position + count ∧ fits other) found := by
  induction count generalizing position with
  | zero =>
    refine ⟨none, rfl, ?_⟩
    rintro other ⟨above, below, -⟩
    exact absurd below (Nat.not_lt.mpr above)
  | succ count ih =>
    rw [scanUp, tests position (Nat.le_refl _) (by omega)]
    by_cases here : fits position
    · refine ⟨some position, by rw [decide_eq_true here]; rfl, ⟨Nat.le_refl _, by omega, here⟩, ?_⟩
      exact fun other inside => inside.1
    · obtain ⟨found, scanned, lowest⟩ := @ih (position + 1) fun other above below =>
        tests other (Nat.le_of_succ_le above) (by omega)
      refine ⟨found, by rw [decide_eq_false here]; exact scanned, lowest.congr ?_⟩
      intro other
      constructor
      · rintro ⟨above, below, fitting⟩
        exact ⟨Nat.le_of_succ_le above, by omega, fitting⟩
      · rintro ⟨above, below, fitting⟩
        have different : position ≠ other := fun same => here (same ▸ fitting)
        exact ⟨Nat.lt_of_le_of_ne above different, by omega, fitting⟩

/-- A scan downwards whose tests succeed finds the highest position. -/
theorem scanDown_ok {position : Nat}
    (tests : ∀ other, other ≤ position → test other = .ok (decide (fits other))) :
    ∃ found, scanDown test position = .ok found ∧
      IsHighest (fun other => other ≤ position ∧ fits other) found := by
  induction position with
  | zero =>
    rw [scanDown, tests 0 (Nat.le_refl _)]
    by_cases here : fits 0
    · exact ⟨some 0, by rw [decide_eq_true here]; rfl, ⟨Nat.le_refl _, here⟩, fun other inside => inside.1⟩
    · refine ⟨none, by rw [decide_eq_false here]; rfl, ?_⟩
      rintro other ⟨below, fitting⟩
      rw [Nat.le_zero.mp below] at fitting
      exact here fitting
  | succ position ih =>
    rw [scanDown, tests (position + 1) (Nat.le_refl _)]
    by_cases here : fits (position + 1)
    · exact ⟨some (position + 1), by rw [decide_eq_true here]; rfl, ⟨Nat.le_refl _, here⟩, fun other inside => inside.1⟩
    · obtain ⟨found, scanned, highest⟩ := ih fun other below => tests other (Nat.le_succ_of_le below)
      refine ⟨found, by rw [decide_eq_false here]; exact scanned, highest.congr ?_⟩
      intro other
      constructor
      · exact fun inside => ⟨Nat.le_succ_of_le inside.1, inside.2⟩
      · rintro ⟨below, fitting⟩
        have different : other ≠ position + 1 := fun same => here (same ▸ fitting)
        exact ⟨Nat.le_of_lt_succ (Nat.lt_of_le_of_ne below different), fitting⟩

end Loops

end UnixCommons.Scan
