import UnixCommons.String.Utf8Handler

/-!
# Whole texts between octets and wide characters

`utf8_to_wchar` reads a text character by character and refuses it at the first one that is
incomplete or not readable; `wchar_to_utf8` writes every wide character. On the texts of
scalar values they are inverse to each other.
-/

namespace UnixCommons.Text

open List

inductive WideFault where
  | incompleteSequence
  | invalidOctet
  deriving DecidableEq, Repr

/-- The loop of `utf8_to_wchar`; every round takes at least one octet. -/
def utf8ToWcharLoop : Nat → List UInt8 → List Nat → Except WideFault (List Nat)
  | 0, _, dst => .ok dst
  | _ + 1, [], dst => .ok dst
  | fuel + 1, lead :: octets, dst =>
    let length := getOctetCount lead
    if (lead :: octets).length < length then .error .incompleteSequence
    else if length = 0 ∨ (utf8CharToWchar (lead :: octets) length).1 = false then
      .error .invalidOctet
    else
      utf8ToWcharLoop fuel ((lead :: octets).drop length)
        (dst ++ [(utf8CharToWchar (lead :: octets) length).2])

def utf8ToWchar (src : List UInt8) : Except WideFault (List Nat) :=
  utf8ToWcharLoop src.length src []

/-- `wchar_to_utf8` of a text. -/
def wcharsToUtf8 (src : List Nat) : List UInt8 := src.flatMap wcharToUtf8

/-- `wchar_to_utf8` of a pointer to characters with a null character behind them: it reads up
to the first one. -/
def wcharStringToUtf8 (src : Option (List Nat)) : List UInt8 :=
  match src with
  | none => []
  | some src => wcharsToUtf8 (src.takeWhile (· ≠ 0))

theorem wcharsToUtf8_append (front back : List Nat) :
    wcharsToUtf8 (front ++ back) = wcharsToUtf8 front ++ wcharsToUtf8 back :=
  flatMap_append

variable {values : List Nat}

theorem wcharsToUtf8_encodeAll (scalars : ∀ value ∈ values, Utf8.Scalar value) :
    wcharsToUtf8 values = Utf8.encodeAll values := by
  simp only [wcharsToUtf8, flatMap_def]
  congr 1
  exact map_congr_left fun value inside => wcharToUtf8_encode (scalars value inside).lt

/-- One round reads the octets of one scalar value. -/
theorem utf8ToWcharLoop_encode {value : Nat} (scalar : Utf8.Scalar value) (fuel : Nat)
    (rest : List UInt8) (dst : List Nat) :
    utf8ToWcharLoop (fuel + 1) (Utf8.encode value ++ rest) dst =
      utf8ToWcharLoop fuel rest (dst ++ [value]) := by
  have readable := utf8CharToWchar_encode scalar rest
  obtain ⟨lead, octets, written, _, announced, _⟩ := encode_octets scalar
  have size : (Utf8.encode value).length = octets.length + 1 := by simp [written]
  rw [size, written, cons_append, ← announced] at readable
  have complete : ¬ (lead :: (octets ++ rest)).length < getOctetCount lead := by
    simp [announced]
  have positive : getOctetCount lead ≠ 0 := by simp [announced]
  have behind : (lead :: (octets ++ rest)).drop (getOctetCount lead) = rest := by
    simp [announced]
  rw [written, cons_append]
  simp only [utf8ToWcharLoop, if_neg complete, readable, behind]
  simp [positive]

section

variable (scalars : ∀ value ∈ values, Utf8.Scalar value)
include scalars

theorem utf8ToWcharLoop_encodeAll {fuel : Nat} (enough : values.length ≤ fuel) {dst : List Nat} :
    utf8ToWcharLoop fuel (Utf8.encodeAll values) dst = .ok (dst ++ values) := by
  induction values generalizing fuel dst with
  | nil => cases fuel <;> simp [utf8ToWcharLoop, Utf8.encodeAll]
  | cons value values ih =>
    obtain ⟨scalar, others⟩ := forall_mem_cons.mp scalars
    cases fuel with
    | zero => simp at enough
    | succ fuel =>
      rw [Utf8.encodeAll_cons, utf8ToWcharLoop_encode scalar,
        ih others (Nat.le_of_succ_le_succ enough)]
      simp

/-- The octets of a text are at least as many as its characters. -/
theorem length_le_encodeAll :
    values.length ≤ (Utf8.encodeAll values).length := by
  induction values with
  | nil => exact Nat.le_refl 0
  | cons value values ih =>
    obtain ⟨scalar, others⟩ := forall_mem_cons.mp scalars
    obtain ⟨lead, octets, written, _⟩ := encode_octets scalar
    have size := ih others
    rw [Utf8.encodeAll_cons, written]
    simp only [length_append, length_cons]
    omega

/-- A text of scalar values is read as these values. -/
theorem utf8ToWchar_encodeAll :
    utf8ToWchar (Utf8.encodeAll values) = .ok values :=
  utf8ToWcharLoop_encodeAll scalars (length_le_encodeAll scalars)

end

/-- **Texts and wide texts.** The conversions are inverse to each other on scalar values. The
string that `utf8_to_wchar` returns ends with the first null character for its readers. -/
theorem wide_round_trip :
    (∀ values, (∀ value ∈ values, Utf8.Scalar value) →
      Utf8.WellFormed (wcharsToUtf8 values) ∧ utf8ToWchar (wcharsToUtf8 values) = .ok values) ∧
    ∀ text, Utf8.WellFormed text → ∃ values, utf8ToWchar text = .ok values ∧
      wcharsToUtf8 values = text ∧
      (wcharStringToUtf8 (some values) = text ↔ 0 ∉ values) := by
  constructor
  · intro values scalars
    rw [wcharsToUtf8_encodeAll scalars]
    exact ⟨⟨values, scalars, rfl⟩, utf8ToWchar_encodeAll scalars⟩
  · rintro _ ⟨values, scalars, rfl⟩
    refine ⟨values, utf8ToWchar_encodeAll scalars, wcharsToUtf8_encodeAll scalars, ?_⟩
    have fewer : ∀ value ∈ values.takeWhile (· ≠ 0), Utf8.Scalar value := fun value inside =>
      scalars value ((List.takeWhile_prefix _).subset inside)
    have whole : values.takeWhile (· ≠ 0) = values ↔ 0 ∉ values := by
      rw [takeWhile_eq_self_iff]
      exact ⟨fun nonzero inside => by simpa using nonzero 0 inside,
        fun noZero value inside => decide_eq_true fun zero => noZero (zero ▸ inside)⟩
    rw [wcharStringToUtf8, wcharsToUtf8_encodeAll fewer, ← whole]
    refine ⟨fun same => ?_, fun same => by rw [same]⟩
    have read := (utf8ToWchar_encodeAll fewer).symm.trans (same ▸ utf8ToWchar_encodeAll scalars)
    exact Except.ok.inj read

/-- What is behind a null character is not read again. -/
theorem behind_null_lost : Utf8.WellFormed [65, 0, 66] ∧ utf8ToWchar [65, 0, 66] = .ok [65, 0, 66] ∧
    wcharStringToUtf8 (some [65, 0, 66]) = [65] :=
  ⟨⟨[65, 0, 66], by decide, rfl⟩, rfl, rfl⟩

end UnixCommons.Text
