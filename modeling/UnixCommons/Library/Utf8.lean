import Mathlib.Data.List.Forall2
import Mathlib.Data.List.TakeWhile
import Mathlib.Tactic.Linarith
import Mathlib.Tactic.Ring

/-!
# The UTF-8 encoding form

A Unicode scalar value is a code point that is not a surrogate. It is written as one
to four octets: a lead octet, whose high bits tell how many follow, and trailing
octets with six bits each. A text is well formed when it is the concatenation of the
octets of scalar values.

What a reader of octets needs is the shape of one written value: the octets with
their numeric values, by the four ranges. Everything else is arithmetic on these.
-/

namespace UnixCommons.Utf8

/-- Code points that are not surrogates. -/
def Scalar (value : Nat) : Prop := value < 0xD800 ∨ (0xE000 ≤ value ∧ value < 0x110000)
  deriving Decidable

theorem Scalar.lt {value : Nat} (scalar : Scalar value) : value < 0x110000 := by
  unfold Scalar at scalar
  omega

/-- The octets of a value. -/
def encode (value : Nat) : List UInt8 :=
  if value < 0x80 then [.ofNat value]
  else if value < 0x800 then [.ofNat (0xC0 + value / 0x40), .ofNat (0x80 + value % 0x40)]
  else if value < 0x10000 then
    [.ofNat (0xE0 + value / 0x1000), .ofNat (0x80 + value / 0x40 % 0x40),
      .ofNat (0x80 + value % 0x40)]
  else
    [.ofNat (0xF0 + value / 0x40000), .ofNat (0x80 + value / 0x1000 % 0x40),
      .ofNat (0x80 + value / 0x40 % 0x40), .ofNat (0x80 + value % 0x40)]

/-- The octets of a text. -/
def encodeAll (values : List Nat) : List UInt8 := values.flatMap encode

theorem encodeAll_cons (value : Nat) (values : List Nat) :
    encodeAll (value :: values) = encode value ++ encodeAll values :=
  List.flatMap_cons

/-- Texts of scalar values. -/
def WellFormed (octets : List UInt8) : Prop :=
  ∃ values, (∀ value ∈ values, Scalar value) ∧ octets = encodeAll values

/-- The table of well-formed sequences in the Unicode standard: ranges of octets, one row
for each kind of sequence. -/
def tableRows : List (List (Nat × Nat)) :=
  [[(0x00, 0x7F)],
    [(0xC2, 0xDF), (0x80, 0xBF)],
    [(0xE0, 0xE0), (0xA0, 0xBF), (0x80, 0xBF)],
    [(0xE1, 0xEC), (0x80, 0xBF), (0x80, 0xBF)],
    [(0xED, 0xED), (0x80, 0x9F), (0x80, 0xBF)],
    [(0xEE, 0xEF), (0x80, 0xBF), (0x80, 0xBF)],
    [(0xF0, 0xF0), (0x90, 0xBF), (0x80, 0xBF), (0x80, 0xBF)],
    [(0xF1, 0xF3), (0x80, 0xBF), (0x80, 0xBF), (0x80, 0xBF)],
    [(0xF4, 0xF4), (0x80, 0x8F), (0x80, 0xBF), (0x80, 0xBF)]]

/-- A sequence that the table has. -/
def Listed (octets : List UInt8) : Prop :=
  ∃ row ∈ tableRows,
    List.Forall₂ (fun range octet => range.1 ≤ octet.toNat ∧ octet.toNat ≤ range.2) row octets

/-- Texts of such sequences. -/
def Composed (octets : List UInt8) : Prop :=
  ∃ parts : List (List UInt8), (∀ part ∈ parts, Listed part) ∧ octets = parts.flatten

/-- Trailing octets. -/
def Trailing (octet : UInt8) : Prop := 0x80 ≤ octet.toNat ∧ octet.toNat < 0xC0

/-- A trailing octet is told from the others by its low six bits. -/
theorem Trailing.eq_add_mod {octet : UInt8} (trailing : Trailing octet) :
    octet.toNat = 0x80 + octet.toNat % 64 := by
  obtain ⟨least, most⟩ := trailing
  omega

/-- The octets of a value with their numeric values, by the range the value lies in. -/
inductive Written (value : Nat) : List UInt8 → Prop
  | one (first : UInt8) (range : value < 0x80) (firstEq : first.toNat = value) :
      Written value [first]
  | two (first second : UInt8) (range : 0x80 ≤ value ∧ value < 0x800)
      (firstEq : first.toNat = 0xC0 + value / 0x40) (secondEq : second.toNat = 0x80 + value % 0x40) :
      Written value [first, second]
  | three (first second third : UInt8) (range : 0x800 ≤ value ∧ value < 0x10000)
      (firstEq : first.toNat = 0xE0 + value / 0x1000)
      (secondEq : second.toNat = 0x80 + value / 0x40 % 0x40)
      (thirdEq : third.toNat = 0x80 + value % 0x40) : Written value [first, second, third]
  | four (first second third fourth : UInt8) (range : 0x10000 ≤ value ∧ value < 0x110000)
      (firstEq : first.toNat = 0xF0 + value / 0x40000)
      (secondEq : second.toNat = 0x80 + value / 0x1000 % 0x40)
      (thirdEq : third.toNat = 0x80 + value / 0x40 % 0x40)
      (fourthEq : fourth.toNat = 0x80 + value % 0x40) :
      Written value [first, second, third, fourth]

theorem toNat_ofNat {number : Nat} (small : number < 256) : (UInt8.ofNat number).toNat = number := by
  exact Nat.mod_eq_of_lt small

theorem written_encode {value : Nat} (small : value < 0x110000) : Written value (encode value) := by
  unfold encode
  split_ifs with one two three
  · exact .one _ one (toNat_ofNat (by omega))
  · exact .two _ _ (by omega) (toNat_ofNat (by omega)) (toNat_ofNat (by omega))
  · exact .three _ _ _ (by omega) (toNat_ofNat (by omega)) (toNat_ofNat (by omega))
      (toNat_ofNat (by omega))
  · exact .four _ _ _ _ (by omega) (toNat_ofNat (by omega)) (toNat_ofNat (by omega))
      (toNat_ofNat (by omega)) (toNat_ofNat (by omega))

/-- An octet below 128 is written for its own character only. -/
theorem mem_encode {value : Nat} (small : value < 0x110000) :
    ∀ octet ∈ encode value, octet.toNat = value ∨ 128 ≤ octet.toNat := by
  have written := written_encode small
  generalize encode value = octets at written
  cases written with
  | one first range firstEq =>
    simp only [List.forall_mem_cons]
    exact ⟨.inl firstEq, nofun⟩
  | two first second range firstEq secondEq =>
    simp only [List.forall_mem_cons]
    exact ⟨.inr (by omega), .inr (by omega), nofun⟩
  | three first second third range firstEq secondEq thirdEq =>
    simp only [List.forall_mem_cons]
    exact ⟨.inr (by omega), .inr (by omega), .inr (by omega), nofun⟩
  | four first second third fourth range firstEq secondEq thirdEq fourthEq =>
    simp only [List.forall_mem_cons]
    exact ⟨.inr (by omega), .inr (by omega), .inr (by omega), .inr (by omega), nofun⟩

/-- Only the NUL character is written with a NUL. -/
theorem encode_ne_zero {value : Nat} (small : value < 0x110000) (notNul : value ≠ 0) :
    ∀ octet ∈ encode value, octet ≠ 0 := by
  rintro octet member rfl
  rcases mem_encode small 0 member with same | large
  · exact notNul same.symm
  · exact absurd large (by decide)

/-- A text without the NUL character is what a reader of a NUL-terminated text sees. -/
theorem takeWhile_encodeAll {values : List Nat} (scalars : ∀ value ∈ values, Scalar value)
    (notNul : 0 ∉ values) : (encodeAll values).takeWhile (· ≠ 0) = encodeAll values := by
  rw [List.takeWhile_eq_self_iff]
  intro octet member
  obtain ⟨value, inside, found⟩ := List.mem_flatMap.mp member
  have positive : value ≠ 0 := fun zero => notNul (zero ▸ inside)
  exact decide_eq_true (encode_ne_zero (scalars value inside).lt positive octet found)

end UnixCommons.Utf8
