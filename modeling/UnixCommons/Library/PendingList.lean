import Mathlib.Data.List.Nodup

/-!
# Linked lists whose links lag behind their ends

Writers append to a linked list in two steps: a cell first becomes the last one, and
only later the cell before it is made to point at it. Between the two steps the list
is known, but one of its links is missing and is owed by the writer.

`Spans` says that a memory of links, a first and a last cell and the set of owed links
describe one list of distinct cells. The laws below are the four things that happen to
such a list: a cell is appended, an owed link is paid, the first cell is dropped once
its link is there, and a cell outside of the list is written.
-/

namespace UnixCommons.PendingList

open List

universe u
variable {Cell : Type u}

/-- The second cell follows the first one somewhere in the list. -/
def Adjacent : List Cell → Cell → Cell → Prop
  | cell :: following :: rest, left, right =>
    (cell = left ∧ following = right) ∨ Adjacent (following :: rest) left right
  | _, _, _ => False

variable {left right last : Cell} {cells : List Cell}

theorem Adjacent.mem (adjacent : Adjacent cells left right) :
    left ∈ cells ∧ right ∈ cells.tail := by
  induction cells with
  | nil => exact adjacent.elim
  | cons cell rest ih =>
    cases rest with
    | nil => exact adjacent.elim
    | cons following rest =>
      rcases adjacent with ⟨rfl, rfl⟩ | later
      · simp
      · obtain ⟨leftInside, rightInside⟩ := ih later
        exact ⟨mem_cons_of_mem _ leftInside, mem_cons_of_mem _ rightInside⟩

/-- In a list of distinct cells a cell has one follower. -/
theorem Adjacent.unique (nodup : cells.Nodup) {other : Cell} (adjacent : Adjacent cells left right)
    (also : Adjacent cells left other) : right = other := by
  induction cells with
  | nil => exact adjacent.elim
  | cons cell rest ih =>
    cases rest with
    | nil => exact adjacent.elim
    | cons following rest =>
      obtain ⟨fresh, restNodup⟩ := nodup_cons.mp nodup
      rcases adjacent with ⟨rfl, rfl⟩ | later
      · rcases also with ⟨_, rfl⟩ | later
        · rfl
        · exact absurd later.mem.1 fresh
      · rcases also with ⟨rfl, _⟩ | alsoLater
        · exact absurd later.mem.1 fresh
        · exact ih restNodup later alsoLater

/-- The last of distinct cells has no follower. -/
theorem Adjacent.ne_last (nodup : cells.Nodup) (adjacent : Adjacent cells left right)
    (back : cells.getLast? = some last) : left ≠ last := by
  induction cells with
  | nil => exact adjacent.elim
  | cons cell rest ih =>
    cases rest with
    | nil => exact adjacent.elim
    | cons following rest =>
      obtain ⟨fresh, restNodup⟩ := nodup_cons.mp nodup
      have backRest : (following :: rest).getLast? = some last := by
        simpa [List.getLast?_cons_cons] using back
      rcases adjacent with ⟨rfl, rfl⟩ | later
      · intro same
        subst same
        exact fresh (mem_of_getLast? backRest)
      · exact ih restNodup later backRest

/-- Appending a cell adds one pair, of the last cell and the new one. -/
theorem adjacent_append_singleton (back : cells.getLast? = some last) (added left right : Cell) :
    Adjacent (cells ++ [added]) left right ↔
      Adjacent cells left right ∨ (left = last ∧ right = added) := by
  induction cells with
  | nil => simp at back
  | cons cell rest ih =>
    cases rest with
    | nil =>
      have same : cell = last := by simpa using back
      subst same
      simp [Adjacent, eq_comm]
    | cons following rest =>
      have backRest : (following :: rest).getLast? = some last := by
        simpa [List.getLast?_cons_cons] using back
      have tail := ih backRest
      simp only [cons_append, Adjacent, or_assoc] at tail ⊢
      rw [tail]

/-- The cells from the first one to the last one, in order: each of them points at its
follower, or a writer owes that link and the cell points at nothing yet. -/
structure Spans (next : Cell → Option Cell) (owed : Cell → Cell → Prop) (first last : Cell)
    (cells : List Cell) : Prop where
  front : cells.head? = some first
  back : cells.getLast? = some last
  nodup : cells.Nodup
  ended : next last = none
  linked : ∀ left right, Adjacent cells left right → next left = some right ∨ owed left right
  waiting : ∀ left right, owed left right → Adjacent cells left right ∧ next left = none

namespace Spans

variable {next : Cell → Option Cell} {owed : Cell → Cell → Prop} {first last : Cell}
  {cells : List Cell}

/-- A single cell that points at nothing, and no link owed. -/
theorem single (ended : next first = none) (nothing : ∀ left right, ¬ owed left right) :
    Spans next owed first first [first] where
  front := rfl
  back := rfl
  nodup := nodup_singleton first
  ended := ended
  linked := fun _ _ adjacent => adjacent.elim
  waiting := fun left right pending => absurd pending (nothing left right)

theorem first_mem (spans : Spans next owed first last cells) : first ∈ cells :=
  mem_of_mem_head? spans.front

variable {owed' : Cell → Cell → Prop}

section

variable (spans : Spans next owed first last cells)
include spans

theorem eq_cons : ∃ rest, cells = first :: rest := by
  cases cells with
  | nil => simpa using spans.front
  | cons cell rest =>
    have starts : cell = first := by simpa using spans.front
    exact ⟨rest, by rw [starts]⟩

/-- Only what the memory says of the listed cells matters, and only which links are
owed. -/
theorem congr {next' : Cell → Option Cell} (same : ∀ cell ∈ cells, next' cell = next cell)
    (sameOwed : ∀ left right, owed' left right ↔ owed left right) :
    Spans next' owed' first last cells where
  __ := spans
  ended := by
    rw [same last (mem_of_getLast? spans.back)]
    exact spans.ended
  linked := by
    intro left right adjacent
    rw [same left adjacent.mem.1, sameOwed]
    exact spans.linked left right adjacent
  waiting := by
    intro left right pending
    obtain ⟨adjacent, nothing⟩ := spans.waiting left right ((sameOwed left right).mp pending)
    rw [same left adjacent.mem.1]
    exact ⟨adjacent, nothing⟩

/-- A cell outside of the list that points at nothing becomes the last one, and its
writer owes the link to it. -/
theorem append {added : Cell} (outside : added ∉ cells) (nothing : next added = none)
    (owes : ∀ left right, owed' left right ↔ owed left right ∨ (left = last ∧ right = added)) :
    Spans next owed' first added (cells ++ [added]) where
  front := by
    rw [List.head?_append, spans.front]
    rfl
  back := by simp
  nodup := by
    apply List.Nodup.append spans.nodup (nodup_singleton added)
    simpa using outside
  ended := nothing
  linked := by
    intro left right adjacent
    rw [owes]
    rcases (adjacent_append_singleton spans.back added left right).mp adjacent with before | new
    · rcases spans.linked left right before with link | pending
      · exact .inl link
      · exact .inr (.inl pending)
    · exact .inr (.inr new)
  waiting := by
    intro left right pending
    rw [adjacent_append_singleton spans.back]
    rcases (owes left right).mp pending with before | ⟨rfl, rfl⟩
    · obtain ⟨adjacent, empty⟩ := spans.waiting left right before
      exact ⟨.inl adjacent, empty⟩
    · exact ⟨.inr ⟨rfl, rfl⟩, spans.ended⟩

/-- A writer pays the link it owes. -/
theorem pay [DecidableEq Cell] (pending : owed left right)
    (owes : ∀ cell other, owed' cell other ↔ owed cell other ∧ cell ≠ left) :
    Spans (Function.update next left (some right)) owed' first last cells where
  __ := spans
  ended := by
    have different : last ≠ left :=
      ((spans.waiting left right pending).1.ne_last spans.nodup spans.back).symm
    rw [Function.update_of_ne different]
    exact spans.ended
  linked := by
    intro cell other adjacent
    by_cases same : cell = left
    · subst same
      have follower := (spans.waiting cell right pending).1.unique spans.nodup adjacent
      subst follower
      exact .inl (Function.update_self ..)
    · rw [Function.update_of_ne same, owes]
      rcases spans.linked cell other adjacent with link | unpaid
      · exact .inl link
      · exact .inr ⟨unpaid, same⟩
  waiting := by
    intro cell other unpaid
    obtain ⟨before, different⟩ := (owes cell other).mp unpaid
    rw [Function.update_of_ne different]
    exact spans.waiting cell other before

/-- A first cell that points at another one is followed by it, and the list without the
first cell starts there. -/
theorem drop {follower : Cell} (link : next first = some follower) :
    ∃ rest, cells = first :: follower :: rest ∧ Spans next owed follower last (follower :: rest) := by
  obtain ⟨rest, rfl⟩ := spans.eq_cons
  cases rest with
  | nil =>
    have ends : first = last := by simpa using spans.back
    rw [ends, spans.ended] at link
    contradiction
  | cons following rest =>
    have follows : following = follower := by
      rcases spans.linked first following (.inl ⟨rfl, rfl⟩) with there | pending
      · rw [there] at link
        exact Option.some.inj link
      · rw [(spans.waiting first following pending).2] at link
        contradiction
    subst follows
    refine ⟨rest, rfl, ⟨rfl, ?_, (nodup_cons.mp spans.nodup).2, spans.ended, ?_, ?_⟩⟩
    · simpa [List.getLast?_cons_cons] using spans.back
    · intro left right adjacent
      exact spans.linked left right (.inr adjacent)
    · intro left right pending
      obtain ⟨adjacent, nothing⟩ := spans.waiting left right pending
      -- the link of the dropped cell is there, so nobody owes it
      rcases adjacent with ⟨rfl, rfl⟩ | later
      · rw [link] at nothing
        contradiction
      · exact ⟨later, nothing⟩

/-- A first cell that points at nothing, while nobody owes a link, is the only one. -/
theorem alone (paid : ∀ right, ¬ owed first right) (nothing : next first = none) :
    cells = [first] ∧ last = first := by
  obtain ⟨rest, rfl⟩ := spans.eq_cons
  cases rest with
  | nil =>
    have ends : first = last := by simpa using spans.back
    exact ⟨rfl, ends.symm⟩
  | cons following rest =>
    rcases spans.linked first following (.inl ⟨rfl, rfl⟩) with link | pending
    · rw [nothing] at link
      contradiction
    · exact absurd pending (paid following)

end

/-- The first cell is the last one only in a list of one cell. -/
theorem eq_single (spans : Spans next owed first first cells) : cells = [first] := by
  obtain ⟨rest, rfl⟩ := spans.eq_cons
  cases rest with
  | nil => rfl
  | cons following rest =>
    exact absurd rfl (Adjacent.ne_last spans.nodup (.inl ⟨rfl, rfl⟩) spans.back)

end Spans

end UnixCommons.PendingList
