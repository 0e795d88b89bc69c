import Mathlib.Data.List.Perm.Basic

/-!
# Linked cells

Cells with a number each, where a cell names the next one and zero ends a chain. A
region is a list of cells without repetition. An operation moves cells between regions:
it may change only the cells of the region it is given, and what it gives back is made of
these and of new cells. Regions it was not given stay as they are and apart from what it
gives back.
-/

namespace UnixCommons.LinkedCells

open List

/-! ## Chains -/

/-- The cells from a start to the end of its chain. -/
def Chain (next : Nat → Nat) : Nat → List Nat → Prop
  | start, [] => start = 0
  | start, index :: rest => start = index ∧ index ≠ 0 ∧ Chain next (next index) rest

instance decidableChain (next : Nat → Nat) : ∀ start path, Decidable (Chain next start path)
  | start, [] => inferInstanceAs (Decidable (start = 0))
  | start, index :: rest =>
    have := decidableChain next (next index) rest
    inferInstanceAs (Decidable (start = index ∧ index ≠ 0 ∧ Chain next (next index) rest))

namespace Chain

variable {next next' : Nat → Nat} {start last : Nat} {path front rest : List Nat}

/-- Only the links of the chain matter. -/
theorem congr (chain : Chain next start path) (same : ∀ index ∈ path, next' index = next index) :
    Chain next' start path := by
  induction path generalizing start with
  | nil => exact chain
  | cons index rest ih =>
    obtain ⟨isStart, nonzero, tail⟩ := chain
    refine ⟨isStart, nonzero, ?_⟩
    rw [same index mem_cons_self]
    exact ih tail fun other member => same other (mem_cons_of_mem _ member)

theorem of_zero (chain : Chain next 0 path) : path = [] := by
  cases path with
  | nil => rfl
  | cons index rest => exact absurd chain.1.symm chain.2.1

/-- A chain begins with its first cell. -/
theorem of_nonzero (chain : Chain next start path) (nonzero : start ≠ 0) :
    ∃ rest, path = start :: rest ∧ Chain next (next start) rest := by
  cases path with
  | nil => exact absurd chain nonzero
  | cons index rest =>
    obtain ⟨rfl, -, tail⟩ := chain
    exact ⟨rest, rfl, tail⟩

/-- What is behind a cell of a chain. -/
theorem behind (chain : Chain next start (front ++ last :: rest)) : Chain next (next last) rest := by
  induction front generalizing start with
  | nil => exact chain.2.2
  | cons index front ih => exact ih chain.2.2

/-- A chain cut behind one of its cells. -/
theorem cut (chain : Chain next start (front ++ last :: rest))
    (same : ∀ index ∈ front, next' index = next index) (ends : next' last = 0) :
    Chain next' start (front ++ [last]) := by
  induction front generalizing start with
  | nil => exact ⟨chain.1, chain.2.1, ends⟩
  | cons index front ih =>
    obtain ⟨isStart, nonzero, tail⟩ := chain
    refine ⟨isStart, nonzero, ?_⟩
    rw [same index mem_cons_self]
    exact ih tail fun other member => same other (mem_cons_of_mem _ member)

/-- Cells linked each to the one after it. -/
theorem range {count : Nat} (nonzero : start ≠ 0)
    (linked : ∀ index, start ≤ index → index < start + count → next index = index + 1)
    (ends : next (start + count) = 0) : Chain next start (List.range' start (count + 1)) := by
  induction count generalizing start with
  | zero => exact ⟨rfl, nonzero, ends⟩
  | succ count ih =>
    refine ⟨rfl, nonzero, ?_⟩
    rw [linked start (Nat.le_refl _) (by omega)]
    apply ih
    · exact Nat.succ_ne_zero start
    · intro index above below
      exact linked index (Nat.le_of_succ_le above) (by omega)
    · rwa [Nat.add_right_comm]

end Chain

/-! ## Regions -/

section Regions

universe u v
variable {State : Type u} {Cell : Type v}

/-- A region of cells that are there. -/
structure Placed (size : State → Nat) (state : State) (region : List Nat) : Prop where
  nodup : region.Nodup
  inside : ∀ index ∈ region, index < size state

namespace Placed

variable {size : State → Nat} {state : State} {region region' front back : List Nat}

theorem perm (placed : Placed size state region) (same : region.Perm region') :
    Placed size state region' where
  nodup := same.nodup_iff.mp placed.nodup
  inside := fun index member => placed.inside index (same.mem_iff.mpr member)

theorem right (placed : Placed size state (front ++ back)) : Placed size state back where
  nodup := (nodup_append.mp placed.nodup).2.1
  inside := fun index member => placed.inside index (mem_append_right _ member)

theorem left (placed : Placed size state (front ++ back)) : Placed size state front :=
  (placed.perm perm_append_comm).right

theorem tail {index : Nat} (placed : Placed size state (index :: region)) : Placed size state region :=
  right (show Placed size state ([index] ++ region) from placed)

/-- A cell of one part is in no other. -/
theorem apart (placed : Placed size state (front ++ back)) {index : Nat} (member : index ∈ front) :
    index ∉ back :=
  fun other => (nodup_append.mp placed.nodup).2.2 index member index other rfl

/-- A region has no more cells than there are. -/
theorem length_le (placed : Placed size state region) : region.length ≤ size state := by
  have subset : region ⊆ List.range (size state) := fun index member =>
    mem_range.mpr (placed.inside index member)
  have smaller := (subperm_of_subset placed.nodup subset).length_le
  rwa [length_range] at smaller

end Placed

/-- An operation that was given one region and gives back another. -/
structure Moves (size : State → Nat) (cell : State → Nat → Cell) (state state' : State)
    (before after : List Nat) : Prop where
  nodup : after.Nodup
  inside : ∀ index ∈ after, index < size state'
  origin : ∀ index ∈ after, index ∈ before ∨ size state ≤ index
  grows : size state ≤ size state'
  frame : ∀ index, index < size state → index ∉ before → cell state' index = cell state index

namespace Moves

variable {size : State → Nat} {cell : State → Nat → Cell} {state state' state'' : State}
variable {before between after : List Nat}

/-- Changes inside a region. -/
theorem within (placed : Placed size state before) (same : size state' = size state)
    (frame : ∀ index, index < size state → index ∉ before → cell state' index = cell state index) :
    Moves size cell state state' before before where
  nodup := placed.nodup
  inside := fun index member => same ▸ placed.inside index member
  origin := fun _ member => Or.inl member
  grows := Nat.le_of_eq same.symm
  frame := frame

/-- Two moves, one after the other. -/
theorem trans (first : Moves size cell state state' before between)
    (second : Moves size cell state' state'' between after) : Moves size cell state state'' before after where
  __ := second
  origin := by
    intro index member
    rcases second.origin index member with middle | new
    · exact first.origin index middle
    · exact Or.inr (Nat.le_trans first.grows new)
  grows := Nat.le_trans first.grows second.grows
  frame := by
    intro index old outside
    have outsideBetween : index ∉ between := by
      intro member
      rcases first.origin index member with inside | new
      · exact outside inside
      · exact absurd old (Nat.not_lt.mpr new)
    rw [second.frame index (Nat.lt_of_lt_of_le old first.grows) outsideBetween, first.frame index old outside]

variable (moves : Moves size cell state state' before after)
include moves

theorem placed : Placed size state' after := ⟨moves.nodup, moves.inside⟩

theorem perm {before' after' : List Nat} (same : before.Perm before') (same' : after.Perm after') :
    Moves size cell state state' before' after' where
  nodup := (moves.placed.perm same').nodup
  inside := (moves.placed.perm same').inside
  origin := by
    intro index member
    rcases moves.origin index (same'.mem_iff.mpr member) with inside | new
    · exact Or.inl (same.mem_iff.mp inside)
    · exact Or.inr new
  grows := moves.grows
  frame := fun index old outside => moves.frame index old fun member => outside (same.mem_iff.mp member)

/-- The cells beside the region that is given do not change. -/
theorem kept {others : List Nat} (placed : Placed size state (others ++ before)) {index : Nat}
    (member : index ∈ others) : cell state' index = cell state index :=
  moves.frame index (placed.left.inside index member) (placed.apart member)

/-- A region beside the one that is given stays what it is. -/
theorem beside (others : List Nat) (placed : Placed size state (others ++ before)) :
    Moves size cell state state' (others ++ before) (others ++ after) where
  nodup := by
    refine nodup_append.mpr ⟨placed.left.nodup, moves.nodup, ?_⟩
    rintro index member other member' rfl
    rcases moves.origin index member' with old | new
    · exact placed.apart member old
    · exact absurd (placed.left.inside index member) (Nat.not_lt.mpr new)
  inside := by
    intro index member
    rcases mem_append.mp member with besides | given
    · exact Nat.lt_of_lt_of_le (placed.left.inside index besides) moves.grows
    · exact moves.inside index given
  origin := by
    intro index member
    rcases mem_append.mp member with besides | given
    · exact Or.inl (mem_append_left _ besides)
    · rcases moves.origin index given with old | new
      · exact Or.inl (mem_append_right _ old)
      · exact Or.inr new
  grows := moves.grows
  frame := by
    intro index old outside
    exact moves.frame index old fun member => outside (mem_append_right _ member)

end Moves

end Regions

end UnixCommons.LinkedCells
