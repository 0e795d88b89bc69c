import Mathlib.Data.List.DropRight

/-!
# Canonical composition

Characters have a combining class; those of class zero are starters. A text is composed
from left to right. A character is merged with the last starter before it if the two
have a composite and the character is not blocked, that is, if none of the characters
left between them is a starter or has a class that is not smaller. Otherwise it is left.

The characters are of any type, with any classes and any composites.
-/

namespace UnixCommons.Composing

open List

universe u
variable {α : Type u}

section Definitions

variable (combiningClass : α → Nat)

/-- The characters left behind the last starter. -/
def behind (done : List α) : List α := done.rtakeWhile fun char => combiningClass char ≠ 0

/-- The text up to its last starter. -/
def upTo (done : List α) : List α := done.rdropWhile fun char => combiningClass char ≠ 0

/-- Whether a character is blocked from the last starter of a text. -/
def blocked (done : List α) (char : α) : Bool :=
  (behind combiningClass done).any fun other =>
    decide (combiningClass other = 0) || decide (combiningClass char ≤ combiningClass other)

variable (composite : α → α → Option α)

/-- What a character is merged with the last starter to, if it is merged. -/
def merged (done : List α) (char : α) : Option α :=
  if blocked combiningClass done char then none
  else (upTo combiningClass done).getLast?.bind (composite · char)

/-- One more character. -/
def step (char : α) (done : List α) : List α :=
  match merged combiningClass composite done char with
  | some whole => (upTo combiningClass done).dropLast ++ whole :: behind combiningClass done
  | none => done ++ [char]

/-- The composition of a text. -/
def compose (text : List α) : List α :=
  text.foldl (fun done char => step combiningClass composite char done) []

/-- A text whose characters that are no starters come in the order of their classes. -/
def Ordered (text : List α) : Prop :=
  text.IsChain fun first second => combiningClass second ≠ 0 → combiningClass first ≤ combiningClass second

end Definitions

variable {combiningClass : α → Nat} {composite : α → α → Option α} {front behindIt : List α} {starter : α}

section

variable (isStarter : combiningClass starter = 0)
  (others : ∀ other ∈ behindIt, combiningClass other ≠ 0)
include isStarter others

/-- The last starter of a text and what is behind it. -/
theorem behind_eq :
    behind combiningClass (front ++ starter :: behindIt) = behindIt := by
  rw [behind, rtakeWhile, reverse_append, reverse_cons, append_assoc,
    takeWhile_append_of_pos (by simpa using others)]
  simp [isStarter]

@[inherit_doc behind_eq]
theorem upTo_eq :
    upTo combiningClass (front ++ starter :: behindIt) = front ++ [starter] := by
  rw [upTo, rdropWhile, reverse_append, reverse_cons, append_assoc,
    dropWhile_append_of_pos (by simpa using others)]
  simp [isStarter]

/-- Behind a starter, what blocks is a class that is not smaller. -/
theorem blocked_iff (char : α) :
    blocked combiningClass (front ++ starter :: behindIt) char = true ↔
      ∃ other ∈ behindIt, combiningClass char ≤ combiningClass other := by
  rw [blocked, behind_eq isStarter others, any_eq_true]
  constructor
  · rintro ⟨other, member, hinders⟩
    have nonzero := others other member
    simp only [nonzero, decide_false, Bool.false_or, decide_eq_true_eq] at hinders
    exact ⟨other, member, hinders⟩
  · rintro ⟨other, member, hinders⟩
    exact ⟨other, member, by simp [hinders]⟩

/-- Behind a starter nothing is merged but with it. -/
theorem merged_eq (char : α) :
    merged combiningClass composite (front ++ starter :: behindIt) char =
      if ∃ other ∈ behindIt, combiningClass char ≤ combiningClass other then none
      else composite starter char := by
  rw [merged, upTo_eq isStarter others, List.getLast?_concat, Option.bind_some]
  simp only [blocked_iff isStarter others]

/-- A character that is merged. -/
theorem step_merged {char whole : α}
    (merges : merged combiningClass composite (front ++ starter :: behindIt) char = some whole) :
    step combiningClass composite char (front ++ starter :: behindIt) = front ++ whole :: behindIt := by
  rw [step, merges]
  rw [upTo_eq isStarter others, behind_eq isStarter others, dropLast_concat]

end

variable {done : List α}

/-- A character that is left. -/
theorem step_left {char : α} (stays : merged combiningClass composite done char = none) :
    step combiningClass composite char done = done ++ [char] := by
  rw [step, stays]

theorem upTo_none (others : ∀ other ∈ done, combiningClass other ≠ 0) :
    upTo combiningClass done = [] := by
  rw [upTo, rdropWhile_eq_nil_iff]
  intro other member
  exact decide_eq_true (others other member)

/-- Without a starter nothing is merged. -/
theorem merged_none (others : ∀ other ∈ done, combiningClass other ≠ 0) (char : α) :
    merged combiningClass composite done char = none := by
  rw [merged, upTo_none others]
  split <;> rfl

theorem compose_nil : compose combiningClass composite [] = [] := rfl

theorem compose_concat (text : List α) (char : α) :
    compose combiningClass composite (text ++ [char]) =
      step combiningClass composite char (compose combiningClass composite text) := by
  rw [compose, foldl_append]
  rfl

end UnixCommons.Composing
