import UnixCommons.String.SubStringFind

/-!
# Replacement of substrings

A text is copied up to the next occurrence of the pattern, which is searched behind the one
before, and the replacement is put in its place. An empty pattern is never replaced.
-/

namespace UnixCommons.Text

open List SubString Scan

variable {α : Type} [LinearOrder α]

namespace SubString

/-- `substr`. -/
def substr (self : List α) (pos count : Nat) : Except Fault (List α) :=
  if pos > self.length then .error .outside
  else .ok ((self.drop pos).take (getAvailableLength self.length pos count))

end SubString

/-- The loop, from the end of the occurrence before. -/
def replaceLoop (str toFind toReplace : List α) : Nat → Nat → List α → Except Fault (List α)
  | 0, _, _ => .error .invalidRange
  | fuel + 1, last, dest => do
    let pos ← find str toFind last
    let before ← (if pos ≠ last then substr str last (pos - last) else .ok [])
    if pos = npos then return dest ++ before
    replaceLoop str toFind toReplace fuel (pos + toFind.length) (dest ++ before ++ toReplace)

/-- Every round but the last passes a part of the text. -/
def replace (str toFind toReplace : List α) : Except Fault (List α) :=
  if toFind = [] then .ok str else replaceLoop str toFind toReplace (str.length + 1) 0 []

/-- The pattern is not found before the end of the front. -/
def Least (lexeme front rest : List α) : Prop :=
  ∀ position, lexeme <+: (front ++ (lexeme ++ rest)).drop position → front.length ≤ position

/-- The leftmost occurrences that do not overlap are replaced, and nothing else. -/
inductive Replaced (toFind toReplace : List α) : List α → List α → Prop
  | free (text : List α) (nowhere : ¬ toFind <:+: text) : Replaced toFind toReplace text text
  | found (front rest result : List α) (least : Least toFind front rest)
      (later : Replaced toFind toReplace rest result) :
      Replaced toFind toReplace (front ++ (toFind ++ rest)) (front ++ (toReplace ++ result))

variable {str lexeme front rest : List α} {pos : Nat}

/-- A text that is inside has a first occurrence. -/
theorem exists_least (inside : lexeme <:+: str) :
    ∃ front rest, str = front ++ (lexeme ++ rest) ∧ Least lexeme front rest := by
  have some : ∃ position, lexeme <+: str.drop position := by
    obtain ⟨front, rest, rfl⟩ := inside
    exact ⟨front.length, rest, by simp⟩
  obtain ⟨rest, found⟩ := Nat.find_spec some
  have whole : str = str.take (Nat.find some) ++ (lexeme ++ rest) := by
    rw [found, take_append_drop]
  refine ⟨_, rest, whole, fun position starts => ?_⟩
  rw [← whole] at starts
  exact le_trans (length_take_le _ _) (Nat.find_min' some starts)

/-- `find` gives the first occurrence. -/
theorem find_least (some : lexeme ≠ []) (small : str.length < npos) (inside : pos ≤ str.length)
    (split : str.drop pos = front ++ (lexeme ++ rest)) (least : Least lexeme front rest) :
    find str lexeme pos = .ok (pos + front.length) := by
  have lengths := congrArg length split
  simp only [length_drop, length_append] at lengths
  have isLowest : IsLowest (Finder.find.Fits str lexeme pos) (.some (pos + front.length)) := by
    refine ⟨⟨Nat.le_add_right _ _, by omega, rest, ?_⟩, ?_⟩
    · rw [← drop_drop, split, drop_left]
    · rintro other ⟨above, -, found⟩
      have further := least (other - pos) (by rwa [← split, drop_drop, Nat.add_sub_cancel' above])
      omega
  rw [find_standard some inside small, ← standard_of_lowest rfl isLowest]
  rfl

/-- `find` tells that there is no occurrence. -/
theorem find_free (some : lexeme ≠ []) (small : str.length < npos) (inside : pos ≤ str.length)
    (free : ¬ lexeme <:+: str.drop pos) : find str lexeme pos = .ok npos := by
  rw [find_standard some inside small, ← standard_of_none]
  rintro position ⟨above, -, found⟩
  rw [← Nat.add_sub_cancel' above, ← drop_drop] at found
  exact free (found.isInfix.trans (drop_suffix _ _).isInfix)

/-- Every text has its replacement. -/
theorem exists_replaced {toFind : List α} (some : toFind ≠ []) {toReplace str : List α} :
    ∃ result, Replaced toFind toReplace str result := by
  induction size : str.length using Nat.strong_induction_on generalizing str with
  | _ size ih =>
    by_cases inside : toFind <:+: str
    · obtain ⟨front, rest, rfl, least⟩ := exists_least inside
      have positive := length_pos_iff.mpr some
      simp only [length_append] at size
      obtain ⟨result, later⟩ := @ih rest.length (by omega) rest rfl
      exact ⟨_, .found front rest result least later⟩
    · exact ⟨str, .free str inside⟩

omit [LinearOrder α] in
theorem substr_inside {count : Nat} (inside : pos ≤ str.length) (small : str.length < npos) :
    substr str pos count = .ok ((str.drop pos).take count) := by
  have available : getAvailableLength str.length pos count = min count (str.length - pos) := by
    rw [npos] at small
    rw [getAvailableLength]
    omega
  rw [substr, if_neg (Nat.not_lt.mpr inside), available, ← length_drop, ← take_take, take_length]

section Loop

variable {toFind toReplace result dest : List α} {last fuel : Nat}

/-- One round behind the search. -/
theorem replaceLoop_succ (found : find str toFind last = .ok pos) (inside : last ≤ str.length)
    (small : str.length < npos) :
    replaceLoop str toFind toReplace (fuel + 1) last dest =
      if pos = npos then .ok (dest ++ (str.drop last).take (pos - last))
      else replaceLoop str toFind toReplace fuel (pos + toFind.length)
        (dest ++ (str.drop last).take (pos - last) ++ toReplace) := by
  have copied : (if pos ≠ last then substr str last (pos - last) else .ok []) =
      .ok ((str.drop last).take (pos - last)) := by
    rw [substr_inside inside small]
    split_ifs with same
    · rfl
    · rw [not_not.mp same, Nat.sub_self, take_zero]
  rw [replaceLoop, found]
  change (if pos ≠ last then substr str last (pos - last) else .ok []) >>= _ = _
  rw [copied]
  rfl

/-- The loop replaces all occurrences. -/
theorem replaceLoop_replaced (some : toFind ≠ []) (replaced : Replaced toFind toReplace rest result)
    (small : str.length < npos) (inside : last ≤ str.length) (behind : str.drop last = rest)
    (enough : rest.length < fuel) :
    replaceLoop str toFind toReplace fuel last dest = .ok (dest ++ result) := by
  induction replaced generalizing last fuel dest with
  | free text nowhere =>
    obtain ⟨fuel, rfl⟩ := Nat.exists_eq_succ_of_ne_zero (Nat.ne_zero_of_lt enough)
    have missing := find_free some small inside (behind ▸ nowhere)
    rw [replaceLoop_succ missing inside small, if_pos rfl, ← behind, take_of_length_le]
    rw [length_drop]
    omega
  | found front rest result least later ih =>
    obtain ⟨fuel, rfl⟩ := Nat.exists_eq_succ_of_ne_zero (Nat.ne_zero_of_lt enough)
    have positive := length_pos_iff.mpr some
    have lengths := congrArg length behind
    simp only [length_drop, length_append] at lengths enough
    have next : str.drop (last + front.length + toFind.length) = rest := by
      rw [← drop_drop, ← drop_drop, behind, drop_left, drop_left]
    rw [replaceLoop_succ (find_least some small inside behind least) inside small,
      if_neg (by omega), Nat.add_sub_cancel_left, behind, take_left,
      ih (by omega) next (by omega), append_assoc, append_assoc]

end Loop

/-- **Every occurrence is replaced.** The result is determined: a text has only one. -/
theorem replace_replaced (str toFind toReplace result : List α) (small : str.length < npos) :
    replace str toFind toReplace = .ok result ↔
      if toFind = [] then result = str else Replaced toFind toReplace str result := by
  unfold replace
  split_ifs with empty
  · rw [Except.ok.injEq, eq_comm]
  have done : ∀ {result}, Replaced toFind toReplace str result →
      replaceLoop str toFind toReplace (str.length + 1) 0 [] = .ok result := fun replaced =>
    replaceLoop_replaced empty replaced small (Nat.zero_le _) drop_zero (Nat.lt_succ_self _)
  refine ⟨fun returned => ?_, done⟩
  obtain ⟨other, replaced⟩ := exists_replaced empty
  cases returned.symm.trans (done replaced)
  exact replaced

/-- The first two of three marks are one. -/
theorem replace_marks : replace [0, 0, 0] [0, 0] [1] = .ok [1, 0] := by
  have least : Least [0, 0] [] [0] := fun position _ => Nat.zero_le position
  exact (replace_replaced [0, 0, 0] [0, 0] [1] [1, 0] (by decide)).mpr
    (.found [] [0] [0] least (.free [0] (by decide)))

/-- An empty pattern occurs everywhere and is nowhere replaced. -/
theorem empty_kept : [] <:+: [1] ∧ replace [1] [] [2] = .ok [1] := by decide

end UnixCommons.Text
