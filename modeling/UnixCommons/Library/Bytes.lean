import Mathlib.Data.List.Basic
import Mathlib.Tactic.Linarith
import Mathlib.Tactic.Ring

/-!
# Bytes at offsets

A stretch of memory gives a byte for every offset. Bytes are copied out of it and into
it, and numbers of 32 bits are kept in four bytes, the lowest first.
-/

namespace UnixCommons.Bytes

open List

/-- The bytes from an offset on. -/
def copyOut (content : Nat → UInt8) (offset count : Nat) : List UInt8 :=
  (List.range count).map fun index => content (offset + index)

/-- The content with some bytes replaced. -/
def copyIn (content : Nat → UInt8) (offset : Nat) (bytes : List UInt8) : Nat → UInt8 := fun index =>
  if offset ≤ index then bytes.getD (index - offset) (content index) else content index

/-- A number as four bytes. -/
def fieldBytes (value : Nat) : List UInt8 :=
  [UInt8.ofNat value, UInt8.ofNat (value / 2 ^ 8), UInt8.ofNat (value / 2 ^ 16), UInt8.ofNat (value / 2 ^ 24)]

/-- The number that bytes hold. -/
def fieldValue (bytes : List UInt8) : Nat := bytes.foldr (fun byte higher => byte.toNat + 2 ^ 8 * higher) 0

/-- The number at an offset. -/
def fieldAt (content : Nat → UInt8) (offset : Nat) : Nat := fieldValue (copyOut content offset 4)

section Copies

variable {content : Nat → UInt8} {offset count : Nat} {bytes : List UInt8}

@[simp]
theorem length_copyOut : (copyOut content offset count).length = count := by
  rw [copyOut, length_map, length_range]

/-- Bytes copied in one after another. -/
theorem copyOut_add (more : Nat) :
    copyOut content offset (count + more) =
      copyOut content offset count ++ copyOut content (offset + count) more := by
  rw [copyOut, range_add, map_append, map_map]
  congr 1
  apply map_congr_left
  intro index _
  rw [Function.comp_apply, add_assoc]

/-- Bytes that agree are copied alike. -/
theorem copyOut_congr {content' : Nat → UInt8}
    (same : ∀ index, offset ≤ index → index < offset + count → content' index = content index) :
    copyOut content' offset count = copyOut content offset count := by
  apply map_congr_left
  intro index member
  have below := mem_range.mp member
  exact same _ (Nat.le_add_right _ _) (by omega)

variable {index offset' : Nat}

/-- Nothing behind the copied bytes changes. -/
theorem copyIn_behind (behind : offset + bytes.length ≤ index) :
    copyIn content offset bytes index = content index := by
  have outside : bytes.length ≤ index - offset := by omega
  rw [copyIn, if_pos (by omega), getD_eq_getElem?_getD, List.getElem?_eq_none outside, Option.getD_none]

/-- What is copied in is copied out. -/
theorem copyOut_copyIn : copyOut (copyIn content offset bytes) offset bytes.length = bytes := by
  apply ext_getElem?
  intro index
  rw [copyOut, List.getElem?_map]
  by_cases inside : index < bytes.length
  · rw [List.getElem?_range inside, Option.map_some, copyIn, if_pos (Nat.le_add_right _ _),
      Nat.add_sub_cancel_left, getD_eq_getElem?_getD, List.getElem?_eq_getElem inside, Option.getD_some]
  · rw [List.getElem?_eq_none (Nat.le_of_not_lt inside), List.getElem?_eq_none, Option.map_none]
    rw [length_range]
    exact Nat.le_of_not_lt inside

/-- What stands before the copied bytes is read as before. -/
theorem copyOut_copyIn_before (before : offset' + count ≤ offset) :
    copyOut (copyIn content offset bytes) offset' count = copyOut content offset' count :=
  copyOut_congr fun _ _ below => if_neg (Nat.not_le.mpr (lt_of_lt_of_le below before))

/-- What stands behind the copied bytes is read as before. -/
theorem copyOut_copyIn_behind (behind : offset + bytes.length ≤ offset') :
    copyOut (copyIn content offset bytes) offset' count = copyOut content offset' count :=
  copyOut_congr fun _ above _ => copyIn_behind (le_trans behind above)

/-- A part of what is copied out. -/
theorem copyOut_middle {front middle back : List UInt8}
    (whole : copyOut content offset (front ++ middle ++ back).length = front ++ middle ++ back) :
    copyOut content (offset + front.length) middle.length = middle := by
  rw [length_append, length_append, copyOut_add, copyOut_add] at whole
  have first := (append_inj whole (by simp)).1
  exact (append_inj first (by simp)).2

/-- Bytes in the middle are replaced by as many. -/
theorem copyOut_replace {front middle middle' back : List UInt8}
    (whole : copyOut content offset (front ++ middle ++ back).length = front ++ middle ++ back)
    (same : middle'.length = middle.length) :
    copyOut (copyIn content (offset + front.length) middle') offset (front ++ middle' ++ back).length =
      front ++ middle' ++ back := by
  rw [length_append, length_append, copyOut_add, copyOut_add] at whole ⊢
  obtain ⟨first, last⟩ := append_inj whole (by simp)
  have start := (append_inj first (by simp)).1
  rw [copyOut_copyIn_before (le_refl _), copyOut_copyIn, start]
  rw [copyOut_copyIn_behind (by omega), same, last]

end Copies

section Fields

@[simp]
theorem length_fieldBytes (value : Nat) : (fieldBytes value).length = 4 := by
  simp [fieldBytes]

/-- A field is read back. -/
theorem fieldValue_fieldBytes {value : Nat} (small : value < 2 ^ 32) : fieldValue (fieldBytes value) = value := by
  simp only [fieldValue, fieldBytes, foldr_cons, foldr_nil, UInt8.toNat_ofNat']
  omega

end Fields

end UnixCommons.Bytes
