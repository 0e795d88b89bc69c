import Mathlib.Data.List.GetD
import Mathlib.Logic.Function.Basic

/-!
# Loops over arrays that may be the same array

Several arrays are held under names. A loop walks two of them from the low end and
writes a third one, each turn reading the two elements of its index before it writes
the element of the same index, and hands a carry to the next turn. The three names may
coincide in any way.

What such a loop leaves in the target is what the same turns compute on copies of the
operands, because an element is written only after the last turn that reads it.
-/

namespace UnixCommons.InPlace

variable {Name Element Carry : Type} [DecidableEq Name]

/-- The turns on copies: the elements computed and the carry left over. -/
def zipCarry (turn : Element → Element → Carry → Element × Carry) :
    List Element → List Element → Carry → List Element × Carry
  | left :: lefts, right :: rights, carry =>
    let (element, carry) := turn left right carry
    let (elements, carry) := zipCarry turn lefts rights carry
    (element :: elements, carry)
  | _, _, carry => ([], carry)

variable (turn : Element → Element → Carry → Element × Carry)

theorem length_zipCarry (lefts rights : List Element) (carry : Carry) :
    (zipCarry turn lefts rights carry).1.length = min lefts.length rights.length := by
  induction lefts generalizing rights carry with
  | nil => simp [zipCarry]
  | cons left lefts ih =>
    cases rights with
    | nil => simp [zipCarry]
    | cons right rights => simp [zipCarry, ih]

/-- The loop on named arrays for a number of turns from an index on. -/
def loop (turn : Element → Element → Carry → Element × Carry) (blank : Element)
    (left right target : Name) :
    Nat → Nat → (Name → List Element) → Carry → (Name → List Element) × Carry
  | 0, _, arrays, carry => (arrays, carry)
  | count + 1, index, arrays, carry =>
    let (element, carry) :=
      turn ((arrays left).getD index blank) ((arrays right).getD index blank) carry
    let arrays := Function.update arrays target ((arrays target).set index element)
    loop turn blank left right target count (index + 1) arrays carry

/-- A write does not touch what later turns read, whichever array it goes to. -/
theorem drop_written (arrays : Name → List Element) (name target : Name) (index : Nat)
    (element : Element) :
    (Function.update arrays target ((arrays target).set index element) name).drop (index + 1) =
      (arrays name).drop (index + 1) := by
  by_cases same : name = target
  · subst same
    simp [List.drop_set_of_lt]
  · simp [Function.update_of_ne same]

theorem take_written {array : List Element} {index : Nat} (inside : index < array.length)
    (element : Element) : (array.set index element).take (index + 1) = array.take index ++ [element] := by
  rw [List.take_succ_eq_append_getElem (by simpa using inside)]
  simp [List.take_set_of_le]

/-- The part of an array that a number of turns from an index on reads. -/
def window (index count : Nat) (array : List Element) : List Element :=
  (array.drop index).take count

theorem window_succ {array : List Element} {index : Nat} (inside : index < array.length)
    {count : Nat} {blank : Element} :
    window index (count + 1) array = array.getD index blank :: window (index + 1) count array := by
  rw [window, List.drop_eq_getElem_cons inside, List.getD_eq_getElem _ _ inside, List.take_succ_cons,
    window]

/-- The loop leaves in the target what its turns compute on copies, and every other
array as it was. The induction is on the turns left; a turn changes no element that is
read later. -/
theorem loop_eq (blank : Element) (left right target : Name) (count index : Nat)
    (arrays : Name → List Element) (carry : Carry)
    (leftInside : index + count ≤ (arrays left).length)
    (rightInside : index + count ≤ (arrays right).length)
    (targetInside : index + count ≤ (arrays target).length) :
    let computed := zipCarry turn (window index count (arrays left))
      (window index count (arrays right)) carry
    loop turn blank left right target count index arrays carry =
      (Function.update arrays target ((arrays target).take index ++ computed.1 ++
        (arrays target).drop (index + count)), computed.2) := by
  induction count generalizing index arrays carry with
  | zero => simp [loop, window, zipCarry]
  | succ count ih =>
    have written := fun name element => drop_written arrays name target index element
    have inside (name : Name) (within : index + (count + 1) ≤ (arrays name).length)
        (element : Element) : index + 1 + count ≤ (Function.update arrays target
          ((arrays target).set index element) name).length := by
      by_cases same : name = target
      · subst same
        simp
        omega
      · simp [Function.update_of_ne same]
        omega
    rw [window_succ (by omega), window_succ (by omega)]
    dsimp only [loop, zipCarry]
    generalize turn ((arrays left).getD index blank) ((arrays right).getD index blank) carry = turned
    obtain ⟨element, next⟩ := turned
    rw [ih (index + 1) _ next (inside left leftInside element)
      (inside right rightInside element) (inside target targetInside element)]
    simp only [window, written]
    rw [Function.update_self, take_written (by omega),
      List.drop_set_of_lt (by omega), Nat.add_right_comm index 1 count, Nat.add_assoc index count 1]
    simp

end UnixCommons.InPlace
