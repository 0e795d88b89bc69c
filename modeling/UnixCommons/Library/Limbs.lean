import Mathlib.Data.List.GetD
import Mathlib.Data.Nat.Digits.Lemmas

/-!
# Little-endian limb lists

A number is stored as a list of limbs below a base, the least significant first,
and denotes Mathlib's `Nat.ofDigits`. These laws cut such a list at a position,
read its size off its most significant limb, and order two lists of one length
by the highest position where they differ. The base is arbitrary; nothing here
depends on the machine width of a limb.
-/

namespace UnixCommons.Limbs

open List

open Nat (ofDigits)

variable {base : Nat}

/-- Every limb is a digit of the base. -/
def Bounded (base : Nat) (limbs : List Nat) : Prop := ∀ limb ∈ limbs, limb < base
  deriving Decidable

@[simp] theorem bounded_nil : Bounded base [] := by simp [Bounded]

@[simp] theorem bounded_cons {limb : Nat} {rest : List Nat} :
    Bounded base (limb :: rest) ↔ limb < base ∧ Bounded base rest := by
  simp [Bounded]

@[simp] theorem bounded_append {low high : List Nat} :
    Bounded base (low ++ high) ↔ Bounded base low ∧ Bounded base high := by
  simp only [Bounded, mem_append]
  constructor
  · intro bounded
    exact ⟨fun limb member => bounded limb (Or.inl member),
      fun limb member => bounded limb (Or.inr member)⟩
  · rintro ⟨lowBounded, highBounded⟩ limb (member | member)
    · exact lowBounded limb member
    · exact highBounded limb member

variable {limbs : List Nat}

theorem Bounded.take (bounded : Bounded base limbs) (count : Nat) :
    Bounded base (limbs.take count) :=
  fun limb member => bounded limb (mem_of_mem_take member)

theorem Bounded.drop (bounded : Bounded base limbs) (count : Nat) :
    Bounded base (limbs.drop count) :=
  fun limb member => bounded limb (mem_of_mem_drop member)

theorem bounded_replicate_zero (positive : 0 < base) (count : Nat) :
    Bounded base (List.replicate count 0) := by
  intro limb member
  rw [eq_of_mem_replicate member]
  exact positive

/-- A bounded read is a digit even past the end, where it is zero. -/
theorem Bounded.getD_lt (bounded : Bounded base limbs)
    (positive : 0 < base) (index : Nat) : limbs.getD index 0 < base := by
  by_cases inside : index < limbs.length
  · rw [getD_eq_getElem _ _ inside]
    exact bounded _ (getElem_mem inside)
  · rw [getD_eq_default _ _ (by omega)]
    exact positive

/-- A share below its weight is none. -/
theorem eq_zero_of_share_lt (weight : Nat) {digit : Nat} (small : weight * digit < weight) :
    digit = 0 := by
  by_contra some
  exact absurd (Nat.le_mul_of_pos_right weight (pos_of_ne_zero some)) (Nat.not_le.mpr small)

/-- A digit leaves room for one more of its weight. -/
theorem share_add_le (weight : Nat) {digit bound : Nat} (below : digit < bound) :
    weight * digit + weight ≤ weight * bound := by
  exact Nat.mul_le_mul_left weight below

theorem getD_take {index count : Nat} (below : index < count) :
    (limbs.take count).getD index 0 = limbs.getD index 0 := by
  rw [getD_eq_getElem?_getD, List.getElem?_take_of_lt below, getD_eq_getElem?_getD]

/-- A limb list is below the power of its length. The base need not exceed one:
a bounded nonempty list already makes it positive. -/
theorem value_lt (bounded : Bounded base limbs) :
    ofDigits base limbs < base ^ limbs.length := by
  induction limbs with
  | nil => simp
  | cons limb rest ih =>
    obtain ⟨small, restBounded⟩ := bounded_cons.mp bounded
    have tail : ofDigits base rest + 1 ≤ base ^ rest.length := ih restBounded
    calc limb + base * ofDigits base rest
        < base * (ofDigits base rest + 1) := by rw [mul_add]; omega
      _ ≤ base * base ^ rest.length := Nat.mul_le_mul_left base tail
      _ = base ^ rest.length * base := mul_comm _ _

/-- Cutting at any position separates the value into low and weighted high part. -/
theorem value_split (base : Nat) (limbs : List Nat) (count : Nat)
    (inside : count ≤ limbs.length) :
    ofDigits base limbs =
      ofDigits base (limbs.take count) + base ^ count * ofDigits base (limbs.drop count) := by
  conv_lhs => rw [← take_append_drop count limbs]
  rw [Nat.ofDigits_append, length_take_of_le inside]

/-- The limbs below a position are below its weight. -/
theorem take_lt (bounded : Bounded base limbs) {count : Nat} (inside : count ≤ limbs.length) :
    ofDigits base (limbs.take count) < base ^ count := by
  have below := value_lt (bounded.take count)
  rwa [length_take_of_le inside] at below

/-- The part from a position on is the quotient by that position's weight. -/
theorem value_div_weight (bounded : Bounded base limbs) {count : Nat}
    (inside : count ≤ limbs.length) :
    ofDigits base limbs / base ^ count = ofDigits base (limbs.drop count) := by
  have low := take_lt bounded inside
  have positive : 0 < base ^ count := lt_of_le_of_lt (Nat.zero_le _) low
  rw [value_split base limbs count inside, Nat.add_mul_div_left _ _ positive,
    Nat.div_eq_of_lt low, zero_add]

/-- Reading one limb: the part from a position on is that limb plus the base
times the part behind it. -/
theorem drop_value {index : Nat} (inside : index < limbs.length) :
    ofDigits base (limbs.drop index) =
      limbs.getD index 0 + base * ofDigits base (limbs.drop (index + 1)) := by
  rw [drop_eq_getElem_cons inside, Nat.ofDigits_cons, getD_eq_getElem _ _ inside]

/-- The low limbs of a prefix: one more limb adds its weighted digit. -/
theorem take_value (base : Nat) (limbs : List Nat) (index : Nat)
    (inside : index < limbs.length) :
    ofDigits base (limbs.take (index + 1)) =
      ofDigits base (limbs.take index) + base ^ index * limbs.getD index 0 := by
  rw [take_succ_eq_append_getElem inside, Nat.ofDigits_append, Nat.ofDigits_singleton,
    length_take_of_le (by omega), getD_eq_getElem _ _ inside]

/-- The value is below a multiple of the top weight exactly when the top limb is
below the factor. This is how an overflow test may look at one limb only. -/
theorem value_lt_top_iff (bounded : Bounded base limbs) (count bound : Nat)
    (length : limbs.length = count + 1) :
    ofDigits base limbs < base ^ count * bound ↔ limbs.getD count 0 < bound := by
  have split := take_value base limbs count (by omega)
  rw [take_of_length_le (by omega)] at split
  have low := take_lt bounded (show count ≤ _ by omega)
  constructor
  · intro below
    by_contra above
    have := Nat.mul_le_mul_left (base ^ count) (Nat.le_of_not_lt above)
    omega
  · intro below
    have := share_add_le (base ^ count) below
    omega

/-- A zero limb lowers the power that bounds the value. -/
theorem value_lt_of_zero (bounded : Bounded base limbs) {index : Nat}
    (small : ofDigits base limbs < base ^ (index + 1)) (zero : limbs.getD index 0 = 0) :
    ofDigits base limbs < base ^ index := by
  by_cases inside : index < limbs.length
  · have low := take_lt bounded (le_of_lt inside)
    have split := value_split base limbs index (by omega)
    rw [drop_value inside, zero, zero_add, ← mul_assoc, ← pow_succ] at split
    have none : ofDigits base (limbs.drop (index + 1)) = 0 :=
      eq_zero_of_share_lt (base ^ (index + 1)) (by omega)
    rw [none] at split
    omega
  · have positive : 0 < base := by
      by_contra none
      rw [show base = 0 by omega] at small
      omega
    exact lt_of_lt_of_le (value_lt bounded) (Nat.pow_le_pow_right positive (by omega))

/-- Zero limbs above a position carry no value. -/
theorem value_of_zero_above (count : Nat) (zero : ∀ limb ∈ limbs.drop count, limb = 0) :
    ofDigits base limbs = ofDigits base (limbs.take count) := by
  have blank : limbs.drop count = List.replicate (limbs.drop count).length 0 :=
    eq_replicate_of_mem zero
  conv_lhs => rw [← take_append_drop count limbs, blank]
  rw [Nat.ofDigits_append, Nat.ofDigits_replicate_zero, Nat.mul_zero, add_zero]

/-- A value below the base is its lowest limb. -/
theorem value_eq_lowest (small : ofDigits base limbs < base) :
    ofDigits base limbs = limbs.getD 0 0 := by
  cases limbs with
  | nil => rfl
  | cons limb rest =>
    rw [Nat.ofDigits_cons] at small ⊢
    rw [eq_zero_of_share_lt base (show base * ofDigits base rest < base by omega)]
    rfl

/-- A value is zero exactly when every limb is. -/
theorem value_eq_zero_iff (positive : 0 < base) (limbs : List Nat) :
    ofDigits base limbs = 0 ↔ ∀ limb ∈ limbs, limb = 0 := by
  induction limbs with
  | nil => simp
  | cons limb rest ih =>
    simp only [Nat.ofDigits_cons, Nat.add_eq_zero_iff, mul_eq_zero, mem_cons,
      forall_eq_or_imp, ih, Nat.pos_iff_ne_zero.mp positive, false_or]

/-- A nonzero limb puts the value at or above its weight. -/
theorem weight_le_value {index : Nat} (nonzero : limbs.getD index 0 ≠ 0) :
    base ^ index ≤ ofDigits base limbs := by
  have inside : index < limbs.length := by
    by_contra outside
    exact nonzero (getD_eq_default _ _ (by omega))
  rw [value_split base limbs index (by omega), drop_value inside, mul_add]
  have := Nat.mul_le_mul_left (base ^ index) (Nat.one_le_iff_ne_zero.mpr nonzero)
  omega

/-- A window of some limbs and one more above them, in a list whose part from the
window on is below the power that the window holds: nothing lies above it. -/
theorem window_value {index count : Nat} (inside : index + count < limbs.length)
    (small : ofDigits base (limbs.drop index) < base ^ (count + 1)) :
    ofDigits base (limbs.drop index) = ofDigits base ((limbs.drop index).take count) +
        base ^ count * limbs.getD (index + count) 0 ∧
      ofDigits base (limbs.drop (index + count + 1)) = 0 := by
  have split := value_split base (limbs.drop index) count (by rw [length_drop]; omega)
  rw [drop_drop, drop_value inside, mul_add, ← mul_assoc,
    ← pow_succ] at split
  have none : ofDigits base (limbs.drop (index + count + 1)) = 0 :=
    eq_zero_of_share_lt (base ^ (count + 1)) (by omega)
  rw [none] at split
  exact ⟨by omega, none⟩

theorem window_length {index count : Nat} (inside : index + count < limbs.length) :
    ((limbs.drop index).take count).length = count :=
  length_take_of_le (by rw [length_drop]; omega)

/-- Replacing such a window keeps the length, and the limbs below it keep their
value. -/
theorem window_rebuilt {target : List Nat} {index count top : Nat}
    (inside : index + count < limbs.length) (length : target.length = count)
    (blank : ofDigits base (limbs.drop (index + count + 1)) = 0)
    (bounded : Bounded base limbs) (targetBounded : Bounded base target) (digit : top < base) :
    (limbs.take index ++ target ++ top :: limbs.drop (index + count + 1)).length = limbs.length ∧
      Bounded base (limbs.take index ++ target ++ top :: limbs.drop (index + count + 1)) ∧
      ofDigits base (limbs.take index ++ target ++ top :: limbs.drop (index + count + 1)) =
        ofDigits base (limbs.take index) + base ^ index *
          (ofDigits base target + base ^ count * top) := by
  refine ⟨?_, ?_, ?_⟩
  · simp only [length_append, length_take, length_cons, length_drop]
    omega
  · simp only [bounded_append, bounded_cons]
    exact ⟨⟨bounded.take _, targetBounded⟩, digit, bounded.drop _⟩
  · rw [Nat.ofDigits_append, Nat.ofDigits_append, Nat.ofDigits_cons, blank, length_append,
      length_take_of_le (by omega), length]
    ring

/-- Cutting a number inside a limb, at a unit that divides the base: the part kept and
the part dropped. -/
theorem cut_value {low weight limb high unit : Nat} (lowSmall : low < weight) (positive : 0 < unit)
    (divides : unit ∣ base) :
    (low + weight * (limb + base * high)) / (weight * unit) * (weight * unit) =
        weight * (limb / unit * unit + base * high) ∧
      (low + weight * (limb + base * high)) % (weight * unit) =
        low + weight * (limb % unit) := by
  obtain ⟨factor, rfl⟩ := divides
  have rest : low + weight * (limb % unit) < weight * unit := by
    have below := share_add_le weight (Nat.mod_lt limb positive)
    omega
  have split : low + weight * (limb + unit * factor * high) =
      low + weight * (limb % unit) + weight * unit * (limb / unit + factor * high) := by
    conv_lhs => rw [← Nat.mod_add_div limb unit]
    ring
  have whole : 0 < weight * unit := lt_of_le_of_lt (Nat.zero_le _) rest
  rw [split, Nat.add_mul_div_left _ _ whole, Nat.div_eq_of_lt rest, Nat.add_mul_mod_self_left,
    Nat.mod_eq_of_lt rest]
  constructor
  · ring
  · rfl

/-- Limbs read from the top, behind what was read before. -/
def horner (base : Nat) (value : Nat) (limbs : List Nat) : Nat :=
  limbs.foldl (fun value limb => value * base + limb) value

/-- What was read stays the upper part of the value. -/
theorem le_horner (positive : 0 < base) (value : Nat) (limbs : List Nat) :
    value ≤ horner base value limbs := by
  induction limbs generalizing value with
  | nil => exact le_refl value
  | cons limb rest ih =>
    have kept := Nat.le_mul_of_pos_right value positive
    have further := ih (value * base + limb)
    simp only [horner, foldl_cons] at further ⊢
    omega

/-- Reading from the highest limb on gives the number. -/
theorem horner_reverse (base : Nat) (limbs : List Nat) :
    horner base 0 limbs.reverse = ofDigits base limbs := by
  rw [horner, foldl_reverse, Nat.ofDigits_eq_foldr]
  simp only [mul_comm, add_comm, Nat.cast_id]

end UnixCommons.Limbs
