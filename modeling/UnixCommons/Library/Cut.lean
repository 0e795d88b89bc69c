import Mathlib.Data.List.TakeWhile

/-!
# Cutting lists at a mark

A list is cut at the first element that is a mark. What is before the mark and what is
behind it is known as soon as the list is written as a front without marks, the mark and
a back.
-/

namespace UnixCommons.Cut

open List

variable {α : Type} [DecidableEq α] {mark : α} {front back : List α}

/-- A list up to a mark, and what is behind the mark if it is there. -/
def cutAt (mark : α) (items : List α) : List α × Option (List α) :=
  match items.dropWhile (· ≠ mark) with
  | [] => (items, none)
  | _ :: behind => (items.takeWhile (· ≠ mark), some behind)

theorem takeWhile_cut (apart : mark ∉ front) : (front ++ mark :: back).takeWhile (· ≠ mark) = front := by
  rw [takeWhile_append_of_pos, takeWhile_cons_of_neg, append_nil]
  · simp
  · intro item inside
    simpa using fun same : item = mark => apart (same ▸ inside)

theorem dropWhile_cut (apart : mark ∉ front) :
    (front ++ mark :: back).dropWhile (· ≠ mark) = mark :: back := by
  rw [dropWhile_append_of_pos]
  · simp
  · intro item inside
    simpa using fun same : item = mark => apart (same ▸ inside)

theorem takeWhile_whole (apart : mark ∉ front) : front.takeWhile (· ≠ mark) = front := by
  rw [takeWhile_eq_self_iff]
  intro item inside
  simpa using fun same : item = mark => apart (same ▸ inside)

/-- A text is cut at its first mark. -/
theorem cutAt_cut (apart : mark ∉ front) : cutAt mark (front ++ mark :: back) = (front, some back) := by
  rw [cutAt, dropWhile_cut apart]
  rw [takeWhile_cut apart]

/-! ## Cutting where a condition holds -/

section Where

variable {β : Type} {ends : β → Bool} {stop : β} {first second : List β}

/-- A list up to the first element that ends it, and the rest from there on. -/
def cutWhere (ends : β → Bool) (items : List β) : List β × List β :=
  (items.takeWhile (!ends ·), items.dropWhile (!ends ·))

/-- The two parts make up the whole. -/
theorem cutWhere_append (ends : β → Bool) (items : List β) :
    (cutWhere ends items).1 ++ (cutWhere ends items).2 = items :=
  takeWhile_append_dropWhile

theorem cutWhere_cons_end (isEnd : ends stop = true) :
    cutWhere ends (stop :: second) = ([], stop :: second) := by
  simp [cutWhere, isEnd]

/-- Without an end nothing is cut off. -/
theorem cutWhere_whole (apart : ∀ item ∈ first, ends item = false) :
    cutWhere ends first = (first, []) := by
  have kept : ∀ item ∈ first, (!ends item) = true := by simpa using apart
  simp only [cutWhere, takeWhile_eq_self_iff.mpr kept, dropWhile_eq_nil_iff.mpr kept]

/-- A list is cut at its first end. -/
theorem cutWhere_cut (apart : ∀ item ∈ first, ends item = false) (isEnd : ends stop = true) :
    cutWhere ends (first ++ stop :: second) = (first, stop :: second) := by
  have kept : ∀ item ∈ first, (!ends item) = true := by simpa using apart
  simp only [cutWhere, takeWhile_append_of_pos kept, dropWhile_append_of_pos kept]
  simp [isEnd]

/-- No end is left in the first part. -/
theorem not_ends_of_mem_cutWhere {items : List β} {item : β}
    (inside : item ∈ (cutWhere ends items).1) : ends item = false := by
  simpa using mem_takeWhile_imp inside

/-- What follows the front begins with an element that ends it. -/
theorem cutWhere_rest {items rest : List β} (behind : (cutWhere ends items).2 = stop :: rest) :
    ends stop = true := by
  have nonempty : (items.dropWhile (!ends ·)) ≠ [] := by
    rw [show items.dropWhile (!ends ·) = stop :: rest from behind]
    exact cons_ne_nil _ _
  have head := head_dropWhile_not (!ends ·) nonempty
  simpa [show items.dropWhile (!ends ·) = stop :: rest from behind] using head

end Where

end UnixCommons.Cut
