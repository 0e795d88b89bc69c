import UnixCommons.Library.Bytes
import UnixCommons.Library.LinkedCells

/-!
# The file of blocks and its allocator

A file is a sequence of blocks. A block begins with the index of the next block of its
chain and the number of bytes in use, and its content follows. Asking for a block behind
the end makes the file longer; new blocks are filled with zeros.

The allocator keeps the blocks that are free in a chain of their own, whose first index
is also written into a description block. When the chain is used up the file gets a
portion of new blocks. A block that is taken or given back keeps the number of bytes it
had in use.
-/

namespace UnixCommons.PlainStorage

open Bytes LinkedCells List

/-- A block: the next block, the size of its content and the content. -/
structure Block where
  next : Nat
  size : Nat
  content : Nat → UInt8

def Block.empty : Block := ⟨0, 0, fun _ => 0⟩

/-- The blocks of an open file, with the index of the allocator's description block and
the first free block. -/
structure Store where
  blocks : List Block
  description : Nat
  firstFree : Nat

namespace Store

/-- The number of blocks, which is the index of the first block not in the file. -/
def maxBlockIndex (store : Store) : Nat := store.blocks.length

/-- The block of an index; behind the end of the file it is empty. -/
def block (store : Store) (index : Nat) : Block := store.blocks.getD index Block.empty

def next (store : Store) (index : Nat) : Nat := (store.block index).next

/-- Makes the file long enough to have a block. -/
def getBlock (store : Store) (index : Nat) : Store :=
  { store with
    blocks := store.blocks ++ List.replicate (index + 1 - store.maxBlockIndex) Block.empty }

/-- Writes to a block of the file. -/
def update (store : Store) (index : Nat) (change : Block → Block) : Store :=
  { store with blocks := store.blocks.modify index change }

/-- Writes the first free block into the description block. -/
def sync (store : Store) : Store :=
  store.update store.description fun block =>
    { block with content := copyIn block.content 0 (fieldBytes store.firstFree) }

/-- How many blocks the file grows by. -/
def allocatePortion : Nat := 10

/-- The loop that links new blocks; the last of them is linked to one more. -/
def linkLoop : Nat → Nat → Store → Store
  | 0, _, store => store
  | count + 1, index, store =>
    linkLoop count (index + 1)
      ((store.update index fun block => { block with size := 0, next := index + 1 }).getBlock (index + 1))

/-- A portion of new blocks becomes free. -/
def resize (store : Store) : Store :=
  let maxIndex := store.maxBlockIndex
  let last := maxIndex + allocatePortion - 1
  let store := (store.getBlock last).update last fun block => { block with size := 0, next := 0 }
  let store := store.getBlock maxIndex
  linkLoop allocatePortion maxIndex { store with firstFree := maxIndex }

/-- The first free block is taken out of the chain. -/
def takeFirst (store : Store) : Nat × Store :=
  let index := store.firstFree
  let store := store.getBlock index
  let newFirst := store.next index
  let store := store.update index fun block => { block with next := 0 }
  (index, { store with firstFree := newFirst }.sync)

/-- `allocate`. -/
def allocate (store : Store) : Nat × Store :=
  takeFirst (if store.firstFree = 0 then store.resize else store)

/-- `deallocate`. -/
def deallocate (store : Store) (index : Nat) : Store :=
  let first := store.firstFree
  let store := (store.getBlock index).update index fun block => { block with next := first }
  { store with firstFree := index }.sync

/-! ## Blocks after changes -/

section Blocks

variable {store : Store} {index other : Nat} {change : Block → Block}

@[simp]
theorem maxBlockIndex_update : (store.update index change).maxBlockIndex = store.maxBlockIndex :=
  length_modify _ _ _

@[simp]
theorem description_update : (store.update index change).description = store.description := rfl

@[simp]
theorem firstFree_update : (store.update index change).firstFree = store.firstFree := rfl

/-- A written block. -/
theorem block_update_self (inside : index < store.maxBlockIndex) :
    (store.update index change).block index = change (store.block index) := by
  have there : store.blocks[index]? = some store.blocks[index] := List.getElem?_eq_getElem inside
  rw [block, block, update, getD_eq_getElem?_getD, getD_eq_getElem?_getD, List.getElem?_modify_eq, there]
  rfl

/-- A write changes no other block. -/
theorem block_update_ne (different : other ≠ index) :
    (store.update index change).block other = store.block other := by
  rw [block, block, update]
  simp [Ne.symm different]

/-- A mapped block has its content. -/
@[simp]
theorem block_getBlock : (store.getBlock index).block other = store.block other := by
  rw [block, block, getBlock, getD_eq_getElem?_getD, getD_eq_getElem?_getD]
  by_cases inside : other < store.blocks.length
  · rw [List.getElem?_append_left inside]
  · rw [List.getElem?_append_right (Nat.le_of_not_lt inside), List.getElem?_eq_none (Nat.le_of_not_lt inside),
      List.getElem?_replicate]
    split_ifs <;> rfl

/-- Mapping a block makes the file long enough. -/
theorem maxBlockIndex_getBlock :
    (store.getBlock index).maxBlockIndex = max store.maxBlockIndex (index + 1) := by
  rw [maxBlockIndex, getBlock, length_append, length_replicate]
  simp only [maxBlockIndex]
  omega

/-- A block of the file is mapped without a change. -/
theorem getBlock_of_lt (inside : index < store.maxBlockIndex) : store.getBlock index = store := by
  rw [getBlock, Nat.sub_eq_zero_of_le inside, replicate_zero, append_nil]

/-- Behind the end of the file all blocks are empty. -/
theorem block_of_le (outside : store.maxBlockIndex ≤ index) : store.block index = Block.empty := by
  rw [block, getD_eq_getElem?_getD, List.getElem?_eq_none outside]
  rfl

/-- A change that leaves the links alone. -/
theorem next_update (keeps : ∀ block, (change block).next = block.next) :
    (store.update index change).next = store.next := by
  funext other
  rw [next, next]
  by_cases here : other = index
  · subst here
    by_cases inside : other < store.maxBlockIndex
    · rw [block_update_self inside, keeps]
    · rw [block_of_le (Nat.le_of_not_lt inside), block_of_le]
      rw [maxBlockIndex_update]
      exact Nat.le_of_not_lt inside
  · rw [block_update_ne here]

end Blocks

abbrev Placed := LinkedCells.Placed maxBlockIndex

/-- What an operation on blocks does to regions of blocks. -/
abbrev Moves := LinkedCells.Moves maxBlockIndex block

/-! ## The allocator -/

section Allocator

variable {store : Store} {index : Nat} {free : List Nat}

/-- The chain of free blocks, with the first of them written into the description block. -/
structure Free (store : Store) (free : List Nat) : Prop where
  chain : Chain store.next store.firstFree free
  stored : copyOut (store.block store.description).content 0 4 = fieldBytes store.firstFree
  nodup : (store.description :: free).Nodup
  inside : ∀ index ∈ store.description :: free, index < store.maxBlockIndex

/-- The free blocks lie in the file. -/
theorem Free.placed (isFree : store.Free free) : store.Placed (store.description :: free) :=
  ⟨isFree.nodup, isFree.inside⟩

/-- Only the blocks of the allocator matter. -/
theorem Free.congr {store' : Store} (isFree : store.Free free) (description : store'.description = store.description)
    (firstFree : store'.firstFree = store.firstFree) (grows : store.maxBlockIndex ≤ store'.maxBlockIndex)
    (same : ∀ other ∈ store.description :: free, store'.block other = store.block other) : store'.Free free := by
  constructor
  · rw [firstFree]
    refine isFree.chain.congr fun other member => ?_
    rw [next, same other (mem_cons_of_mem _ member)]
    rfl
  · rw [description, firstFree, same _ mem_cons_self]
    exact isFree.stored
  · rw [description]
    exact isFree.nodup
  · intro other member
    rw [description] at member
    exact lt_of_lt_of_le (isFree.inside other member) grows

/-- A write elsewhere leaves the free blocks as they are. -/
theorem Free.update (isFree : store.Free free) (outside : index ∉ store.description :: free)
    (change : Block → Block) : Free (store.update index change) free := by
  apply isFree.congr description_update firstFree_update (le_of_eq maxBlockIndex_update.symm)
  intro other member
  apply block_update_ne
  rintro rfl
  exact outside member

/-- Changes of one block of a region. -/
theorem moves_update {region : List Nat} (placed : store.Placed region) (member : index ∈ region)
    (change : Block → Block) : Moves store (store.update index change) region region := by
  refine .within placed maxBlockIndex_update ?_
  intro other _ outside
  apply block_update_ne
  rintro rfl
  exact outside member

/-- How far the loop makes the file grow. -/
theorem linkLoop_maxBlockIndex (count : Nat) (inside : index < store.maxBlockIndex) :
    (linkLoop count index store).maxBlockIndex = max store.maxBlockIndex (index + count + 1) := by
  induction count generalizing index store with
  | zero =>
    rw [linkLoop]
    omega
  | succ count ih =>
    rw [linkLoop, ih, maxBlockIndex_getBlock, maxBlockIndex_update]
    · omega
    · rw [maxBlockIndex_getBlock]
      omega

/-- The loop links each new block to the next one. -/
theorem linkLoop_block (count : Nat) (inside : index < store.maxBlockIndex) (other : Nat) :
    (linkLoop count index store).block other =
      if index ≤ other ∧ other < index + count then { store.block other with size := 0, next := other + 1 }
      else store.block other := by
  induction count generalizing index store with
  | zero =>
    rw [linkLoop, if_neg]
    omega
  | succ count ih =>
    rw [linkLoop, ih]
    · rw [block_getBlock]
      by_cases here : other = index
      · subst here
        rw [if_neg (by omega), if_pos (by omega), block_update_self inside]
      · rw [block_update_ne here]
        by_cases linked : index + 1 ≤ other ∧ other < index + 1 + count
        · rw [if_pos linked, if_pos (by omega)]
        · rw [if_neg linked, if_neg (by omega)]
    · rw [maxBlockIndex_getBlock]
      omega

/-- The loop leaves the registers alone. -/
theorem linkLoop_registers {count : Nat} {store : Store} :
    (linkLoop count index store).description = store.description ∧
      (linkLoop count index store).firstFree = store.firstFree := by
  induction count generalizing index store with
  | zero => exact ⟨rfl, rfl⟩
  | succ count ih => exact @ih (index + 1) _

theorem resize_maxBlockIndex : store.resize.maxBlockIndex = store.maxBlockIndex + 11 := by
  rw [resize, linkLoop_maxBlockIndex]
  · change max ((Store.getBlock _ _).maxBlockIndex) _ = _
    rw [maxBlockIndex_getBlock, maxBlockIndex_update, maxBlockIndex_getBlock]
    simp only [allocatePortion]
    omega
  · change _ < (Store.getBlock _ _).maxBlockIndex
    rw [maxBlockIndex_getBlock]
    omega

/-- New blocks are linked each to the one after it. -/
theorem resize_block (store : Store) (index : Nat) :
    store.resize.block index =
      if store.maxBlockIndex ≤ index ∧ index < store.maxBlockIndex + 10 then ⟨index + 1, 0, fun _ => 0⟩
      else store.block index := by
  have emptied : ((store.getBlock (store.maxBlockIndex + allocatePortion - 1)).update
      (store.maxBlockIndex + allocatePortion - 1) fun block =>
        { block with size := 0, next := 0 }).block index = store.block index := by
    by_cases last : index = store.maxBlockIndex + allocatePortion - 1
    · have outside : store.maxBlockIndex ≤ index := by
        simp only [allocatePortion] at last
        omega
      subst last
      rw [block_update_self, block_getBlock, block_of_le outside]
      · rfl
      · rw [maxBlockIndex_getBlock]
        omega
    · rw [block_update_ne last, block_getBlock]
  rw [resize, linkLoop_block]
  · change ite _ { (Store.getBlock _ _).block index with size := 0, next := index + 1 }
      ((Store.getBlock _ _).block index) = _
    rw [block_getBlock, emptied]
    by_cases new : store.maxBlockIndex ≤ index ∧ index < store.maxBlockIndex + allocatePortion
    · rw [if_pos new, block_of_le new.1]
      exact (if_pos new).symm
    · rw [if_neg new]
      exact (if_neg new).symm
  · change _ < (Store.getBlock _ _).maxBlockIndex
    rw [maxBlockIndex_getBlock]
    omega

/-- The new blocks are the first free ones. -/
theorem resize_registers :
    store.resize.description = store.description ∧ store.resize.firstFree = store.maxBlockIndex :=
  linkLoop_registers

/-- The blocks of a new portion. -/
def portion (store : Store) : List Nat := List.range' store.maxBlockIndex 11

/-- The new blocks are linked one after the other. -/
theorem resize_chain (nonempty : 0 < store.maxBlockIndex) :
    Chain store.resize.next store.resize.firstFree store.portion := by
  apply Chain.range (Nat.pos_iff_ne_zero.mp nonempty)
  · intro index above below
    rw [next, resize_block, if_pos ⟨above, below⟩]
  · rw [next, resize_block, if_neg (by omega), block_of_le (by omega)]
    rfl

/-- Growing moves no block that is in use. -/
theorem resize_moves (inside : store.description < store.maxBlockIndex) :
    Moves store store.resize [store.description] (store.description :: store.portion) where
  nodup := by
    rw [nodup_cons]
    refine ⟨?_, nodup_range'⟩
    rw [portion, mem_range'_1]
    omega
  inside := by
    intro index member
    rw [resize_maxBlockIndex]
    rcases mem_cons.mp member with rfl | new
    · omega
    · rw [portion, mem_range'_1] at new
      exact new.2
  origin := by
    intro index member
    rcases mem_cons.mp member with rfl | new
    · exact Or.inl mem_cons_self
    · rw [portion, mem_range'_1] at new
      exact Or.inr new.1
  grows := by
    rw [resize_maxBlockIndex]
    omega
  frame := by
    intro index old _
    rw [resize_block, if_neg (by omega)]

/-! ### Taking and giving back -/

@[simp]
theorem maxBlockIndex_sync : store.sync.maxBlockIndex = store.maxBlockIndex := maxBlockIndex_update

theorem block_sync_ne (different : index ≠ store.description) : store.sync.block index = store.block index :=
  block_update_ne different

/-- Writing the register changes no link. -/
theorem next_sync (inside : store.description < store.maxBlockIndex) :
    store.sync.next index = store.next index := by
  by_cases isDescription : index = store.description
  · subst isDescription
    rw [next, sync, block_update_self inside]
    rfl
  · rw [next, block_sync_ne isDescription]
    rfl

/-- The register is in the file after `sync`. -/
theorem sync_stored (inside : store.description < store.maxBlockIndex) :
    copyOut (store.sync.block store.sync.description).content 0 4 = fieldBytes store.sync.firstFree := by
  have stored : copyOut (copyIn (store.block store.description).content 0 (fieldBytes store.firstFree)) 0
      (fieldBytes store.firstFree).length = fieldBytes store.firstFree := copyOut_copyIn
  rw [sync, description_update, block_update_self inside]
  exact stored

/-- The first free block is taken. -/
theorem takeFirst_moves {rest : List Nat} (chain : Chain store.next store.firstFree (index :: rest))
    (placed : store.Placed (store.description :: index :: rest)) :
    store.takeFirst.1 = index ∧ Free store.takeFirst.2 rest ∧
      store.takeFirst.2.description = store.description ∧ store.takeFirst.2.next index = 0 ∧
      (store.takeFirst.2.block index).size = (store.block index).size ∧
      Moves store store.takeFirst.2 (store.description :: index :: rest)
        (index :: store.description :: rest) := by
  obtain ⟨isFirst, nonzero, chainRest⟩ := chain
  subst isFirst
  have nodup := placed.nodup
  rw [nodup_cons, nodup_cons, mem_cons, not_or] at nodup
  obtain ⟨⟨different, descriptionApart⟩, firstApart, nodupRest⟩ := nodup
  have insideDescription := placed.inside _ mem_cons_self
  have insideFirst := placed.inside _ (mem_cons_of_mem _ mem_cons_self)
  have taken : store.takeFirst = (store.firstFree,
      { store.update store.firstFree fun block => { block with next := 0 } with
        firstFree := store.next store.firstFree }.sync) := by
    rw [takeFirst, getBlock_of_lt insideFirst]
  rw [taken]
  set changed : Store := { store.update store.firstFree fun block => { block with next := 0 } with
    firstFree := store.next store.firstFree } with changedIs
  have sameSize : changed.maxBlockIndex = store.maxBlockIndex := maxBlockIndex_update
  have frame : ∀ other, other ≠ store.description → other ≠ store.firstFree →
      changed.sync.block other = store.block other := fun other notDescription notFirst =>
    (@block_sync_ne changed other notDescription).trans (block_update_ne notFirst)
  have first : changed.sync.block store.firstFree = { store.block store.firstFree with next := 0 } :=
    (@block_sync_ne changed _ (Ne.symm different)).trans (block_update_self insideFirst)
  have apart : ∀ other ∈ rest, other ≠ store.description ∧ other ≠ store.firstFree := fun other member =>
    ⟨fun same => descriptionApart (same ▸ member), fun same => firstApart (same ▸ member)⟩
  refine ⟨rfl, ⟨?_, ?_, ?_, ?_⟩, rfl, ?_, ?_, ?_⟩
  · refine chainRest.congr fun other member => ?_
    rw [next, frame other (apart other member).1 (apart other member).2]
    rfl
  · exact sync_stored (sameSize ▸ insideDescription)
  · exact nodup_cons.mpr ⟨descriptionApart, nodupRest⟩
  · intro other member
    rw [maxBlockIndex_sync, sameSize]
    rcases mem_cons.mp member with rfl | later
    · exact insideDescription
    · exact placed.inside other (mem_cons_of_mem _ (mem_cons_of_mem _ later))
  · change (changed.sync.block store.firstFree).next = 0
    rw [first]
  · rw [first]
  · have within : Moves store changed.sync (store.description :: store.firstFree :: rest)
        (store.description :: store.firstFree :: rest) := by
      refine .within placed (maxBlockIndex_sync.trans sameSize) ?_
      intro other _ outside
      rw [mem_cons, mem_cons, not_or, not_or] at outside
      exact frame other outside.1 outside.2.1
    exact within.perm (.refl _) (.swap _ _ _)

/-- The file does not get shorter. -/
theorem maxBlockIndex_le_allocate : store.maxBlockIndex ≤ store.allocate.2.maxBlockIndex := by
  have taken : ∀ other : Store, other.maxBlockIndex ≤ other.takeFirst.2.maxBlockIndex := by
    intro other
    change _ ≤ (sync _).maxBlockIndex
    rw [maxBlockIndex_sync]
    change _ ≤ (update _ _ _).maxBlockIndex
    rw [maxBlockIndex_update, maxBlockIndex_getBlock]
    exact le_max_left _ _
  rw [allocate]
  split_ifs
  · refine le_trans ?_ (taken _)
    rw [resize_maxBlockIndex]
    exact Nat.le_add_right _ _
  · exact taken store

/-- The number of bytes that the block taken next has in use. -/
def nextSize (store : Store) : Nat := if store.firstFree = 0 then 0 else (store.block store.firstFree).size

/-- A block is taken out of the free ones, or out of new ones. -/
theorem allocate_moves (isFree : store.Free free) :
    ∃ rest, Free store.allocate.2 rest ∧ store.allocate.2.description = store.description ∧
      store.allocate.1 ≠ 0 ∧ store.allocate.2.next store.allocate.1 = 0 ∧
      (store.allocate.2.block store.allocate.1).size = store.nextSize ∧
      Moves store store.allocate.2 (store.description :: free)
        (store.allocate.1 :: store.description :: rest) := by
  rw [allocate]
  by_cases usedUp : store.firstFree = 0
  · rw [if_pos usedUp, nextSize, if_pos usedUp]
    have chain := isFree.chain
    rw [usedUp] at chain
    have nothing := chain.of_zero
    subst nothing
    have insideDescription := isFree.inside _ mem_cons_self
    have resized := resize_moves insideDescription
    have newChain := @resize_chain store (lt_of_le_of_lt (Nat.zero_le _) insideDescription)
    rw [← resize_registers.1] at resized
    obtain ⟨isFirst, isFree', description, ends, size, moves⟩ := takeFirst_moves newChain resized.placed
    refine ⟨_, isFree', description.trans resize_registers.1, ?_, ?_, ?_, ?_⟩
    · exact newChain.2.1
    · rw [isFirst, ends]
    · rw [isFirst, size, resize_block, if_pos ⟨le_refl _, by omega⟩]
    · rw [resize_registers.1] at resized moves
      exact resized.trans moves
  · rw [if_neg usedUp, nextSize, if_neg usedUp]
    obtain ⟨rest, rfl, -⟩ := isFree.chain.of_nonzero usedUp
    obtain ⟨isFirst, isFree', description, ends, size, moves⟩ :=
      takeFirst_moves isFree.chain isFree.placed
    refine ⟨rest, isFree', description, ?_, ?_, ?_, ?_⟩
    · exact usedUp
    · rw [isFirst, ends]
    · rw [isFirst, size]
    · exact moves

/-- A block is given back. -/
theorem deallocate_moves (isFree : store.Free free) (nonzero : index ≠ 0)
    (placed : store.Placed (index :: store.description :: free)) :
    Free (store.deallocate index) (index :: free) ∧
      (store.deallocate index).description = store.description ∧
      Moves store (store.deallocate index) (index :: store.description :: free)
        (store.description :: index :: free) := by
  have inside := placed.inside index mem_cons_self
  have swapped := placed.perm (.swap _ _ _)
  rw [deallocate, getBlock_of_lt inside]
  set changed : Store := { store.update index fun block => { block with next := store.firstFree } with
    firstFree := index } with changedIs
  have sameSize : changed.maxBlockIndex = store.maxBlockIndex := maxBlockIndex_update
  have nodup := placed.nodup
  rw [nodup_cons, mem_cons, not_or] at nodup
  obtain ⟨⟨different, apart⟩, nodupFree⟩ := nodup
  have insideDescription := isFree.inside _ mem_cons_self
  have frame : ∀ other, other ≠ store.description → other ≠ index →
      changed.sync.block other = store.block other := fun other notDescription notIndex =>
    (@block_sync_ne changed other notDescription).trans (block_update_ne notIndex)
  have given : changed.sync.block index = { store.block index with next := store.firstFree } :=
    (@block_sync_ne changed index different).trans (block_update_self inside)
  have descriptionApart := (nodup_cons.mp nodupFree).1
  refine ⟨⟨⟨rfl, nonzero, ?_⟩, ?_, ?_, ?_⟩, rfl, ?_⟩
  · have chain : Chain changed.sync.next store.firstFree free := by
      refine isFree.chain.congr fun other member => ?_
      rw [next, frame other (fun same => descriptionApart (same ▸ member))
        fun same => apart (same ▸ member)]
      rfl
    rw [next, given]
    exact chain
  · exact sync_stored (sameSize ▸ insideDescription)
  · exact swapped.nodup
  · intro other member
    rw [maxBlockIndex_sync, sameSize]
    exact swapped.inside other member
  · have within : Moves store changed.sync (index :: store.description :: free)
        (index :: store.description :: free) := by
      refine .within placed (maxBlockIndex_sync.trans sameSize) ?_
      intro other _ outside
      rw [mem_cons, mem_cons, not_or, not_or] at outside
      exact frame other outside.2.1 outside.1
    exact within.perm (.refl _) (.swap _ _ _)

end Allocator

end Store

end UnixCommons.PlainStorage
