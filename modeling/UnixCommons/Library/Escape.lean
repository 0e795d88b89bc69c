import Mathlib.Data.List.TakeWhile

/-!
# Escapes

A writer of escapes copies runs of plain characters and writes the others one by one. What it
writes is the pieces of the single characters, so that a reader only has to read one piece.
-/

namespace UnixCommons.Escape

open List

universe u v
variable {α : Type u} {β : Type v}

/-- The loop of a writer that copies runs of plain characters and writes every other
character in its own way. -/
def copyRuns (plain : α → Bool) (escape : α → List α) (src dest : List α) : List α :=
  match _rest : src.dropWhile plain with
  | [] => dest ++ src.takeWhile plain
  | ch :: rest => copyRuns plain escape rest (dest ++ src.takeWhile plain ++ escape ch)
termination_by src.length
decreasing_by
  have shorter := (dropWhile_sublist (l := src) plain).length_le
  rw [_rest, length_cons] at shorter
  exact shorter

/-- What is written for one character. -/
def piece (plain : α → Bool) (escape : α → List α) (ch : α) : List α :=
  if plain ch then [ch] else escape ch

theorem flatMap_takeWhile {plain : α → Bool} {escape : α → List α} (src : List α) :
    (src.takeWhile plain).flatMap (piece plain escape) = src.takeWhile plain := by
  induction src with
  | nil => rfl
  | cons ch rest ih =>
    by_cases isPlain : plain ch = true
    · rw [takeWhile_cons_of_pos isPlain, flatMap_cons, ih, piece, if_pos isPlain]
      rfl
    · rw [takeWhile_cons_of_neg isPlain]
      rfl

/-- The runs do not show in the result. -/
theorem copyRuns_eq (plain : α → Bool) (escape : α → List α) (src dest : List α) :
    copyRuns plain escape src dest = dest ++ src.flatMap (piece plain escape) := by
  induction src, dest using copyRuns.induct plain escape with
  | case1 src dest ended =>
    have whole := src.takeWhile_append_dropWhile (p := plain)
    rw [copyRuns, ended, ← flatMap_takeWhile]
    rw [ended, append_nil] at whole
    rw [whole]
  | case2 src dest ch rest found ih =>
    have whole := src.takeWhile_append_dropWhile (p := plain)
    have special : ¬ plain ch = true := by
      have head := List.head?_dropWhile_not plain src
      rw [found] at head
      simpa using head
    have pieces : src.flatMap (piece plain escape) =
        src.takeWhile plain ++ (escape ch ++ rest.flatMap (piece plain escape)) :=
      calc src.flatMap (piece plain escape)
        _ = (src.takeWhile plain ++ ch :: rest).flatMap (piece plain escape) := by rw [← found, whole]
        _ = _ := by rw [flatMap_append, flatMap_takeWhile, flatMap_cons, piece, if_neg special]
    rw [copyRuns, found]
    dsimp only
    rw [ih, pieces, append_assoc, append_assoc]

/-- Reading a text, with a reader of the first character that says what it means and how long
it is. -/
def readAll (one : List α → Option (List α × Nat)) : Nat → List α → Option (List α)
  | _, [] => some []
  | 0, _ :: _ => none
  | fuel + 1, ch :: rest =>
    (one (ch :: rest)).bind fun (meant, count) =>
      (readAll one fuel ((ch :: rest).drop count)).map (meant ++ ·)

variable {one : List α → Option (List α × Nat)}

theorem readAll_append {written meant : List α} (some : written ≠ []) {rest : List α}
    (reads : one (written ++ rest) = .some (meant, written.length)) (fuel : Nat) :
    readAll one (fuel + 1) (written ++ rest) = (readAll one fuel rest).map (meant ++ ·) := by
  obtain ⟨first, others, rfl⟩ := exists_cons_of_ne_nil some
  rw [cons_append, readAll, ← cons_append, reads, Option.bind_some]
  dsimp only
  rw [drop_left]

/-- A reader that reads what is written for one character reads a whole text. -/
theorem readAll_flatMap {written : α → List α}
    (reads : ∀ ch rest, written ch ≠ [] ∧ one (written ch ++ rest) = some ([ch], (written ch).length))
    {src : List α} {fuel : Nat} (enough : (src.flatMap written).length ≤ fuel) :
    readAll one fuel (src.flatMap written) = some src := by
  induction src generalizing fuel with
  | nil => rw [flatMap_nil, readAll]
  | cons ch rest ih =>
    obtain ⟨nonempty, one⟩ := reads ch (rest.flatMap written)
    have positive := length_pos_iff.mpr nonempty
    rw [flatMap_cons, length_append] at enough
    obtain ⟨fuel, rfl⟩ : ∃ before, fuel = before + 1 := ⟨fuel - 1, by omega⟩
    rw [flatMap_cons, readAll_append nonempty one, ih (by omega)]
    rfl

end UnixCommons.Escape
