import UnixCommons.String.SubStringFind
import Mathlib.Data.List.Lex

/-!
# Comparison of substrings

Substrings are compared up to the length of the shorter one first, by their lengths then. A
string that ends with the null character is compared while it is read, and the end of either
one is taken for the end of the substring.
-/

namespace UnixCommons.Text.SubString

open List

variable {α : Type} [LinearOrder α] (nul : α)

/-- The comparison of lengths. -/
def compareLengths (length1 length2 : Nat) : Int :=
  if length1 = length2 then 0 else if length1 < length2 then -1 else 1

/-- `compare` with a substring. -/
def compare (self str : List α) : Except Fault Int := do
  let result ← traitsCompare self str 0 0 (min self.length str.length)
  return if result ≠ 0 then result else compareLengths self.length str.length

/-- The loop over the substring and the string. -/
def comparePointerLoop : List α → List α → Except Fault Int
  | _, [] => .error .outside
  | [], ch :: _ => .ok (if ch = nul then 0 else -1)
  | ch2 :: self, ch :: str =>
    if ch = nul then .ok (-1)
    else if ch2 ≠ ch then .ok (if ch2 < ch then -1 else 1)
    else comparePointerLoop self str

/-- `compare` with a pointer. -/
def comparePointer (self : List α) : Pointer α → Except Fault Int
  | none => .error .logicError
  | some str => comparePointerLoop nul self str

theorem traitsCompare_tail (first second : α) (self str : List α) (str1 str2 size : Nat) :
    traitsCompare (first :: self) (second :: str) (str1 + 1) (str2 + 1) size =
      traitsCompare self str str1 str2 size := by
  induction size generalizing str1 str2 with
  | zero => rfl
  | succ size ih =>
    rw [traitsCompare, ih]
    rfl

/-- The comparison goes on behind equal characters. -/
theorem compare_cons (first second : α) (self str : List α) :
    compare (first :: self) (second :: str) =
      if first = second then compare self str else .ok (if first < second then -1 else 1) := by
  have least : min (first :: self).length (second :: str).length = min self.length str.length + 1 := by
    simp
  have lengths : compareLengths (first :: self).length (second :: str).length =
      compareLengths self.length str.length := by
    simp [compareLengths]
  rw [compare, least, lengths, traitsCompare, traitsCompare_tail]
  by_cases same : first = second
  · rw [if_pos same]
    exact congrArg (fun outcome => Except.bind outcome _) (if_pos same)
  · refine (congrArg (fun outcome => Except.bind outcome _) (if_neg same)).trans ?_
    split_ifs <;> rfl

/-- Substrings are compared as lists are. -/
theorem compare_ok (self str : List α) :
    ∃ result, compare self str = .ok result ∧ (result < 0 ↔ self < str) ∧ (result = 0 ↔ self = str) := by
  induction self generalizing str with
  | nil => cases str with
    | nil => exact ⟨0, rfl, by simp, by simp⟩
    | cons second str => exact ⟨-1, rfl, by simp, by simp⟩
  | cons first self ih => cases str with
    | nil => exact ⟨1, rfl, by simp, by simp⟩
    | cons second str =>
      rw [compare_cons]
      by_cases same : first = second
      · obtain ⟨result, compared, less, equal⟩ := ih str
        refine ⟨result, by rw [if_pos same, compared], ?_, ?_⟩
        · rw [less]
          simp [same]
        · rw [equal]
          simp [same]
      · refine ⟨_, if_neg same, ?_, ?_⟩
        · rw [cons_lt_cons_iff]
          split_ifs with less <;> simp [same, less]
        · split_ifs <;> simp [same]

/-- A string is compared like a substring unless it ends before the substring. -/
theorem comparePointerLoop_eq {str : List α} (ended : nul ∉ str) (self behind : List α) :
    comparePointerLoop nul self (str ++ nul :: behind) =
      if str <+: self ∧ str ≠ self then .ok (-1) else compare self str := by
  induction self generalizing str with
  | nil =>
    cases str with
    | nil => exact congrArg Except.ok (if_pos rfl)
    | cons second str => exact congrArg Except.ok (if_neg fun same : second = nul => ended (same ▸ mem_cons_self))
  | cons first self ih =>
    cases str with
    | nil =>
      exact if_pos rfl
    | cons second str =>
      obtain ⟨other, ended⟩ := not_or.mp (mem_cons.not.mp ended)
      rw [compare_cons, cons_append, comparePointerLoop, if_neg (Ne.symm other), ih ended]
      by_cases same : first = second
      · simp [same]
      · simp [same, Ne.symm same]

theorem not_append_lt {str rest : List α} : ¬ str ++ rest < str := by
  induction str with
  | nil => exact not_lt_nil rest
  | cons first str ih =>
    simp [ih]

theorem ofPointer_string {str : List α} (ended : nul ∉ str) (behind : List α) :
    ofPointer nul (some (str ++ nul :: behind)) = .ok str := by
  have other : ∀ ch ∈ str, decide (ch ≠ nul) = true := fun ch inside =>
    decide_eq_true fun same => ended (same ▸ inside)
  rw [ofPointer, traitsLength_mem (by simp), takeWhile_append_of_pos other, takeWhile_cons_of_neg (by simp),
    append_nil]
  exact congrArg Except.ok (take_left)

/-- **When the two comparisons agree.** They compare the lists, unless the string is a part of the
substring from its beginning. -/
theorem compare_pointer_iff {str : List α} (ended : nul ∉ str) (self behind : List α) :
    (∃ result other, comparePointer nul self (some (str ++ nul :: behind)) = .ok result ∧
      (do compare self (← ofPointer nul (some (str ++ nul :: behind)))) = .ok other ∧
      result.sign = other.sign ∧ (other < 0 ↔ self < str) ∧ (other = 0 ↔ self = str)) ↔
      ¬ (str <+: self ∧ str ≠ self) := by
  obtain ⟨other, compared, less, equal⟩ := compare_ok self str
  rw [comparePointer, comparePointerLoop_eq nul ended, ofPointer_string nul ended]
  constructor
  · rintro ⟨result, _, pointed, again, signs, -⟩ before
    cases compared.symm.trans again
    rw [if_pos before] at pointed
    cases pointed
    obtain ⟨⟨rest, rfl⟩, differs⟩ := before
    have larger : 0 < other := lt_of_le_of_ne (not_lt.mp (less.not.mpr not_append_lt))
      (Ne.symm (equal.not.mpr (Ne.symm differs)))
    rw [Int.sign_eq_one_of_pos larger] at signs
    cases signs
  · intro whole
    rw [if_neg whole]
    exact ⟨other, other, compared, compared, rfl, less, equal⟩

/-- The letter at which the two differ. -/
theorem compare_pointer_letter :
    (∃ result other, comparePointer 0 [1, 2, 4] (some ([1, 3] ++ 0 :: [])) = .ok result ∧
      (do compare [1, 2, 4] (← ofPointer 0 (some ([1, 3] ++ 0 :: [])))) = .ok other ∧
      result.sign = other.sign ∧ (other < 0 ↔ [1, 2, 4] < [1, 3]) ∧ (other = 0 ↔ [1, 2, 4] = [1, 3])) ↔
      ¬ ([1, 3] <+: [1, 2, 4] ∧ [1, 3] ≠ [1, 2, 4]) :=
  compare_pointer_iff (0 : Nat) (by decide) [1, 2, 4] []

/-- A string that ends before the substring is taken for the larger one. -/
theorem ended_string_larger :
    comparePointer 0 [1, 2] (some [1, 0]) = .ok (-1) ∧ compare [1, 2] [1] = .ok 1 := by decide

end UnixCommons.Text.SubString
