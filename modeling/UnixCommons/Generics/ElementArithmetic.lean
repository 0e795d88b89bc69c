import UnixCommons.Generics.DecimalFormat

/-!
# Products and quotients of single elements

Two elements are multiplied into a pair of digits of the base, and a pair of
digits is divided by one element. Narrow elements do this in 64-bit arithmetic;
the 64-bit element uses the processor's 128-bit product and division, whose
division instruction faults when the quotient does not fit. The fault is kept as
an outcome of the model, so the laws below also say that it does not occur for
digits of the base.
-/

namespace UnixCommons.Generics

/-- How a decimal operation can fail. The first three are the exceptions of the
class; the others are a violated `assert`, a processor division fault and a loop
that does not stop. -/
inductive Failure where
  | overflow
  | notNumber
  | sign
  | assertion
  | trap
  | diverges
deriving DecidableEq, Repr

/-- An overflow is raised for a number of more digits than the rank. -/
abbrev Overflows (rank units : Nat) (failure : Failure) : Prop :=
  failure = .overflow ∧ 10 ^ rank ≤ units

/-- The C `assert` macro. -/
def check (condition : Bool) : Except Failure Unit :=
  if condition then .ok () else .error .assertion

/-- The `divq` instruction on a two-word dividend: quotient and remainder, or a
divide fault when the quotient would not fit one word. -/
def divq (high low divisor : Nat) : Except Failure (Nat × Nat) :=
  if high < divisor then
    .ok ((high * 2 ^ 64 + low) / divisor, (high * 2 ^ 64 + low) % divisor)
  else .error .trap

namespace Element

/-- `DecimalHelper::mul`: major and minor digit of a product. -/
def mul (element : Element) (factor1 factor2 base : Nat) : Except Failure (Nat × Nat) :=
  if element.digits10 ≤ uint64.digits10 / 2 then
    let major := factor1 * factor2 % 2 ^ 64
    .ok (major / base, major % base)
  else
    let product := factor1 * factor2
    divq (product / 2 ^ 64) (product % 2 ^ 64) base

/-- `DecimalHelper::div`: quotient and remainder of two digits by a divisor. -/
def div (element : Element) (major minor base divisor : Nat) : Except Failure (Nat × Nat) :=
  if element.digits10 ≤ uint64.digits10 / 2 then
    let quotient := (major * base + minor) % 2 ^ 64
    if divisor = 0 then .error .trap else .ok (quotient / divisor, quotient % divisor)
  else
    let product := major * base
    let low := product % 2 ^ 64 + minor
    divq ((product / 2 ^ 64 + low / 2 ^ 64) % 2 ^ 64) (low % 2 ^ 64) divisor

/-- `Decimal::mul_elements_`: minor and major digit. -/
def mulElements (element : Element) (multiplier factor : Nat) : Except Failure (Nat × Nat) := do
  let (h, l) ← element.mul multiplier factor element.base
  return (element.wrap l, element.wrap h)

/-- A product with a carry added to its minor digit, as the division's loops do. -/
def mulCarry (element : Element) (multiplier factor carry : Nat) : Except Failure (Nat × Nat) := do
  let (minor, major) ← element.mulElements multiplier factor
  let minor := element.wrap (minor + carry)
  if element.base ≤ minor then return (minor - element.base, element.wrap (major + 1))
  else return (minor, major)

/-- `Decimal::div_elements_`: quotient and remainder. -/
def divElements (element : Element) (major minor divisor : Nat) : Except Failure (Nat × Nat) := do
  let (q, r) ← element.div major minor element.base divisor
  return (element.wrap q, element.wrap r)

variable (element : Element)

/-- Two digits of a narrow element multiply inside 64 bits. -/
theorem base_square_narrow (narrow : element.digits10 ≤ uint64.digits10 / 2) :
    element.base * element.base ≤ 2 ^ 64 := by
  cases element <;> revert narrow <;> decide

theorem base_lt_word : element.base < 2 ^ 64 :=
  lt_of_lt_of_le element.base_lt_modulus element.modulus_le

/-- The `divq` instruction divides exactly when the high word is small enough. -/
theorem divq_exact {dividend divisor : Nat} (fits : dividend / 2 ^ 64 < divisor) :
    divq (dividend / 2 ^ 64) (dividend % 2 ^ 64) divisor =
      .ok (dividend / divisor, dividend % divisor) := by
  have whole : dividend / 2 ^ 64 * 2 ^ 64 + dividend % 2 ^ 64 = dividend := Nat.div_add_mod' _ _
  rw [divq, if_pos fits, whole]

/-- A product of two digits is delivered exactly, as its two digits. -/
theorem mulElements_exact {multiplier factor : Nat} (left : multiplier < element.base)
    (right : factor < element.base) :
    element.mulElements multiplier factor =
      .ok (multiplier * factor % element.base, multiplier * factor / element.base) := by
  have positive := element.base_positive
  have below : multiplier * factor < element.base * element.base :=
    Nat.mul_lt_mul'' left right
  have minor : multiplier * factor % element.base < element.modulus :=
    lt_trans (Nat.mod_lt _ positive) element.base_lt_modulus
  have major : multiplier * factor / element.base < element.modulus :=
    lt_trans (Nat.div_lt_of_lt_mul below) element.base_lt_modulus
  have digits : element.mul multiplier factor element.base =
      .ok (multiplier * factor / element.base, multiplier * factor % element.base) := by
    unfold mul
    split
    · rename_i narrow
      have square := element.base_square_narrow narrow
      rw [Nat.mod_eq_of_lt (lt_of_lt_of_le below square)]
    · refine divq_exact ?_
      have word := element.base_lt_word
      apply Nat.div_lt_of_lt_mul
      calc multiplier * factor < element.base * element.base := below
        _ ≤ 2 ^ 64 * element.base := Nat.mul_le_mul_right _ (le_of_lt word)
  rw [mulElements, digits]
  change Except.ok (element.wrap _, element.wrap _) = _
  rw [wrap_eq minor, wrap_eq major]

/-- A product with a carry is delivered exactly, and its major digit stays a digit. -/
theorem mulCarry_exact {multiplier factor carry : Nat} (left : multiplier < element.base)
    (right : factor < element.base) (small : carry < element.base) :
    element.mulCarry multiplier factor carry =
        .ok ((multiplier * factor + carry) % element.base,
          (multiplier * factor + carry) / element.base) ∧
      (multiplier * factor + carry) / element.base < element.base := by
  have positive := element.base_positive
  have width := element.two_base_le
  have digit : (multiplier * factor + carry) / element.base < element.base := by
    apply Nat.div_lt_of_lt_mul
    calc multiplier * factor + carry < multiplier * element.base + element.base :=
          Nat.add_lt_add_of_le_of_lt (Nat.mul_le_mul_left _ (Nat.le_of_lt right)) small
      _ = (multiplier + 1) * element.base := by ring
      _ ≤ element.base * element.base := Nat.mul_le_mul_right _ left
  refine ⟨?_, digit⟩
  rw [mulCarry, element.mulElements_exact left right]
  generalize multiplier * factor = product at digit
  have split := Nat.div_add_mod' product element.base
  have total := Nat.div_add_mod' (product + carry) element.base
  have minor := Nat.mod_lt product positive
  change (if element.base ≤ element.wrap (product % element.base + carry) then
    Except.ok _ else Except.ok _) = _
  rw [wrap_eq (by omega)]
  by_cases carried : element.base ≤ product % element.base + carry
  · have major : (product + carry) / element.base = product / element.base + 1 :=
      Nat.div_eq_of_lt_le (by rw [Nat.succ_mul]; omega)
        (by rw [Nat.succ_mul, Nat.succ_mul]; omega)
    rw [major, Nat.succ_mul] at total
    rw [if_pos carried, major, wrap_eq (by omega)]
    congr 2
    omega
  · have major : (product + carry) / element.base = product / element.base :=
      Nat.div_eq_of_lt_le (by omega) (by rw [Nat.succ_mul]; omega)
    rw [major] at total
    rw [if_neg carried, major]
    congr 2
    omega

/-- Two digits are divided exactly by a digit above the major one. The quotient
is again a digit. -/
theorem divElements_exact {major minor divisor : Nat} (high : major < divisor)
    (low : minor < element.base) (digit : divisor < element.base) :
    element.divElements major minor divisor =
        .ok ((major * element.base + minor) / divisor, (major * element.base + minor) % divisor) ∧
      (major * element.base + minor) / divisor < element.base := by
  have positive : 0 < divisor := lt_of_le_of_lt (Nat.zero_le _) high
  have below : major * element.base + minor < divisor * element.base := by
    calc major * element.base + minor < major * element.base + element.base := by omega
      _ = (major + 1) * element.base := by ring
      _ ≤ divisor * element.base := Nat.mul_le_mul_right _ high
  generalize joined : major * element.base + minor = dividend at *
  have quotient : dividend / divisor < element.base := Nat.div_lt_of_lt_mul below
  have remainder : dividend % divisor < element.base := lt_trans (Nat.mod_lt _ positive) digit
  have digits : element.div major minor element.base divisor =
      .ok (dividend / divisor, dividend % divisor) := by
    unfold div
    split
    · rename_i narrow
      have square := element.base_square_narrow narrow
      have word : divisor * element.base ≤ 2 ^ 64 :=
        Nat.le_trans (Nat.mul_le_mul_right _ (Nat.le_of_lt digit)) square
      rw [joined, Nat.mod_eq_of_lt (lt_of_lt_of_le below word)]
      exact if_neg (Nat.pos_iff_ne_zero.mp positive)
    · -- the carry of the low word joins the high word of the product
      have word := element.base_lt_word
      have split := Nat.div_add_mod (major * element.base) (2 ^ 64)
      have highWord : dividend / 2 ^ 64 =
          major * element.base / 2 ^ 64 + (major * element.base % 2 ^ 64 + minor) / 2 ^ 64 := by
        conv_lhs => rw [← joined, ← split, add_assoc, Nat.mul_add_div (by decide)]
      have lowWord : dividend % 2 ^ 64 = (major * element.base % 2 ^ 64 + minor) % 2 ^ 64 := by
        conv_lhs => rw [← joined, ← split, add_assoc, Nat.mul_add_mod]
      have fits : dividend / 2 ^ 64 < divisor := by
        apply Nat.div_lt_of_lt_mul
        calc dividend < divisor * element.base := below
          _ ≤ divisor * 2 ^ 64 := Nat.mul_le_mul_left _ (le_of_lt word)
          _ = 2 ^ 64 * divisor := mul_comm _ _
      have exactly := divq_exact fits
      rw [highWord, lowWord] at exactly
      dsimp only
      rw [Nat.mod_eq_of_lt (a := _ + _ / _), exactly]
      rw [← highWord]
      exact lt_trans (lt_trans fits digit) word
  refine ⟨?_, quotient⟩
  rw [divElements, digits]
  change Except.ok (element.wrap _, element.wrap _) = _
  rw [wrap_eq (lt_trans quotient element.base_lt_modulus),
    wrap_eq (lt_trans remainder element.base_lt_modulus)]

end Element

end UnixCommons.Generics
