import UnixCommons.PlainStorage.BlockFile

/-!
# Reading and writing chains of blocks

The data of a key are spread over a chain of blocks. Writing fills the blocks of the
chain one after another, takes blocks from the allocator when the chain is too short,
and gives back those it does not need. Reading copies the bytes in use of every block.

A writer remembers how many bytes were written; it does not look at the blocks for that.
It works on the file as it was opened when the writer was made, and is of no use
afterwards.
-/

namespace UnixCommons.PlainStorage

open Bytes LinkedCells List Store

/-- Why an operation does not do what it is called for: a chain does not end, the blocks
hold more than fits into the buffer, the file the writer works on has been closed, or the
file does not begin with a header. -/
inductive Fault where
  | endless
  | readFailed
  | closed
  | corrupted
  deriving DecidableEq

/-- A writer, with the first block of its chain, the number of bytes written and the
opening of the file it belongs to. -/
structure PlainWriter where
  firstBlock : Nat
  dataSize : Nat
  opening : Nat

namespace Store

/-- The loop of `read`: the blocks of the data, one after the other. -/
def readLoop (store : Store) (bufSize : Nat) : Nat → Nat → List UInt8 → Except Fault (List UInt8)
  | 0, _, _ => .error .endless
  | fuel + 1, index, buf =>
    let block := store.block index
    if buf.length + block.size > bufSize then .error .readFailed
    else
      let buf := buf ++ copyOut block.content 0 block.size
      if block.next = 0 then .ok buf else readLoop store bufSize fuel block.next buf

/-- A new block at the end of a chain. -/
def allocateBehind (store : Store) (index : Nat) : Nat × Store :=
  let new := store.allocate.1
  let store := store.allocate.2.update index fun block => { block with next := new }
  (new, (store.getBlock new).update new fun block => { block with next := 0 })

/-- The loop of `write`: the blocks are filled, and new ones allocated. -/
def writeLoop (available : Nat) : Nat → Nat → List UInt8 → Store → Except Fault (Nat × Store)
  | 0, _, _, _ => .error .endless
  | fuel + 1, index, data, store =>
    let sizeToWrite := min available data.length
    let store := store.update index fun block =>
      { block with size := sizeToWrite, content := copyIn block.content 0 (data.take sizeToWrite) }
    let rest := data.drop sizeToWrite
    if rest = [] then .ok (index, store)
    else if store.next index = 0 then
      -- more data than can be stored in the blocks there are
      writeLoop available fuel (store.allocateBehind index).1 rest (store.allocateBehind index).2
    else writeLoop available fuel (store.next index) rest (store.getBlock (store.next index))

/-- Fills a chain from a block on; gives the last block that is used. -/
def fill (available index : Nat) (data : List UInt8) (store : Store) : Except Fault (Nat × Store) :=
  if data.length ≠ 0 then store.writeLoop available (data.length + 1) index data
  else .ok (index, store.update index fun block => { block with size := 0 })

/-- The loop that gives back what is left of a chain. -/
def deallocateLoop : Nat → Nat → Store → Except Fault Store
  | fuel, index, store =>
    if index = 0 then .ok store
    else
      match fuel with
      | 0 => .error .endless
      | fuel + 1 =>
        let store := store.getBlock index
        deallocateLoop fuel (store.next index) (store.deallocate index)

end Store

namespace PlainWriter

/-- What is read into a buffer, as far as it is said to be data. -/
def read (writer : PlainWriter) (store : Store) (bufSize : Nat) : Except Fault (List UInt8) :=
  if writer.dataSize > bufSize then .ok []
  else do
    let buf ← store.readLoop bufSize (store.maxBlockIndex + 1) writer.firstBlock []
    return buf.take writer.dataSize

/-- `write`. -/
def write (available : Nat) (writer : PlainWriter) (data : List UInt8) (store : Store) :
    Except Fault (PlainWriter × Store) := do
  let (last, store) ← (store.getBlock writer.firstBlock).fill available writer.firstBlock data
  let excess := store.next last
  let store := store.update last fun block => { block with next := 0 }
  let store ← store.deallocateLoop (store.maxBlockIndex + 1) excess
  return ({ writer with dataSize := data.length }, store)

end PlainWriter

/-! ## What the chains hold -/

variable {bufSize fuel available : Nat}

namespace Store

/-- The bytes in use of the blocks of a chain. -/
def contents (store : Store) (path : List Nat) : List UInt8 :=
  path.flatMap fun index => copyOut (store.block index).content 0 (store.block index).size

section Contents

variable {store store' : Store} {path free : List Nat} {index : Nat}

theorem contents_cons (store : Store) (index : Nat) (path : List Nat) :
    store.contents (index :: path) =
      copyOut (store.block index).content 0 (store.block index).size ++ store.contents path :=
  flatMap_cons

/-- The data of a path, from its blocks. -/
theorem contents_congr (same : ∀ index ∈ path, store'.block index = store.block index) :
    store'.contents path = store.contents path := by
  apply flatMap_congr
  intro index member
  rw [same index member]

/-- A change of links only. -/
theorem contents_update {change : Block → Block} (inside : index < store.maxBlockIndex)
    (keeps : ∀ block, (change block).size = block.size ∧ (change block).content = block.content) :
    (store.update index change).contents path = store.contents path := by
  apply flatMap_congr
  intro other _
  by_cases here : other = index
  · subst here
    rw [block_update_self inside, (keeps _).1, (keeps _).2]
  · rw [block_update_ne here]

theorem contents_nil (store : Store) : store.contents [] = [] := rfl

/-- The loop reads the data of the path. -/
theorem readLoop_contents {buf : List UInt8} (chain : Chain store.next index path)
    (nonzero : index ≠ 0) (enough : path.length ≤ fuel)
    (room : buf.length + (store.contents path).length ≤ bufSize) :
    store.readLoop bufSize fuel index buf = .ok (buf ++ store.contents path) := by
  induction path generalizing index fuel buf with
  | nil => exact absurd chain nonzero
  | cons first rest ih =>
    obtain ⟨rfl, -, chainRest⟩ := chain
    rw [Store.next] at chainRest
    obtain ⟨fuel, rfl⟩ := Nat.exists_eq_succ_of_ne_zero (Nat.ne_zero_of_lt enough)
    rw [contents_cons, length_append, length_copyOut] at room
    rw [readLoop, contents_cons]
    rw [if_neg (by omega)]
    by_cases ends : (store.block index).next = 0
    · have nothing : rest = [] := by
        rw [ends] at chainRest
        exact chainRest.of_zero
      rw [if_pos ends, nothing, contents_nil, append_nil]
    · rw [if_neg ends, ih chainRest ends (Nat.le_of_succ_le_succ enough), append_assoc]
      rw [length_append, length_copyOut]
      omega

/-! ## Writing -/

/-- A new block is linked behind the last one. -/
theorem allocateBehind_moves (isFree : store.Free free)
    (placed : store.Placed (index :: store.description :: free)) :
    ∃ free', Free (store.allocateBehind index).2 free' ∧
      (store.allocateBehind index).2.description = store.description ∧
      (store.allocateBehind index).1 ≠ 0 ∧
      (store.allocateBehind index).2.next (store.allocateBehind index).1 = 0 ∧
      (store.allocateBehind index).2.block index =
        { store.block index with next := (store.allocateBehind index).1 } ∧
      Moves store (store.allocateBehind index).2 (index :: store.description :: free)
        (index :: (store.allocateBehind index).1 :: store.description :: free') := by
  obtain ⟨free', isFree', description, nonzero, -, -, moves⟩ := allocate_moves isFree
  have same := moves.kept (show store.Placed ([index] ++ _) from placed) mem_cons_self
  have grown := moves.beside [index] placed
  have nodupAfter := grown.nodup
  rw [cons_append, nil_append, nodup_cons, mem_cons, not_or, nodup_cons] at nodupAfter
  obtain ⟨⟨different, indexApart⟩, newApart, -⟩ := nodupAfter
  have insideIndex := grown.inside index (by simp)
  have insideNew := grown.inside store.allocate.1 (by simp)
  rw [← description] at indexApart newApart
  have linkedFree := isFree'.update indexApart fun block => { block with next := store.allocate.1 }
  have behind : store.allocateBehind index = (store.allocate.1,
      (store.allocate.2.update index fun block => { block with next := store.allocate.1 }).update
        store.allocate.1 fun block => { block with next := 0 }) := by
    rw [allocateBehind, getBlock_of_lt (by rwa [maxBlockIndex_update])]
  rw [behind]
  refine ⟨free', linkedFree.update newApart _, description, nonzero, ?_, ?_, ?_⟩
  · rw [Store.next, block_update_self (by rwa [maxBlockIndex_update])]
  · rw [block_update_ne different, block_update_self insideIndex, same]
  · have first := moves_update grown.placed mem_cons_self
      fun block => { block with next := store.allocate.1 }
    have second := moves_update first.placed (mem_cons_of_mem _ mem_cons_self)
      fun block => { block with next := 0 }
    exact (grown.trans first).trans second

/-- What is done behind a block leaves it as it is. -/
theorem moves_behind {between : Store} {region middle after : List Nat}
    (first : Moves store between (index :: region) (index :: middle)) (moves : Moves between store' middle after) :
    store'.block index = between.block index ∧ Moves store store' (index :: region) (index :: after) := by
  constructor
  · exact moves.kept (show between.Placed ([index] ++ middle) from first.placed) mem_cons_self
  · exact first.trans (moves.beside [index] first.placed)

/-- The loop writes the data into a path of its own. -/
theorem writeLoop_moves (positive : 0 < available) {tail : List Nat} {data : List UInt8}
    (isFree : store.Free free) (chain : Chain store.next index (index :: tail))
    (placed : store.Placed (index :: tail ++ store.description :: free))
    (nonempty : data ≠ []) (enough : data.length < fuel) :
    ∃ store' front last excess free', store.writeLoop available fuel index data = .ok (last, store') ∧
      Free store' free' ∧ store'.description = store.description ∧
      Chain store'.next index (front ++ last :: excess) ∧
      store'.contents (front ++ [last]) = data ∧
      Moves store store' (index :: tail ++ store.description :: free)
        (front ++ last :: excess ++ store.description :: free') := by
  induction fuel generalizing index tail data store free with
  | zero => exact absurd enough (Nat.not_lt_zero _)
  | succ fuel ih =>
    have insideIndex := placed.inside index mem_cons_self
    rw [writeLoop]
    set size := min available data.length with sizeIs
    set written := store.update index fun block =>
      { block with
        size := size
        content := copyIn block.content 0 (data.take size) } with writtenIs
    have sameNext : written.next = store.next := next_update fun _ => rfl
    have holds : copyOut (written.block index).content 0 (written.block index).size =
        data.take size := by
      have stored := @copyOut_copyIn (store.block index).content 0 (data.take size)
      rw [length_take_of_le (min_le_right _ _)] at stored
      rw [block_update_self insideIndex]
      exact stored
    have writtenFree : written.Free free := isFree.update (placed.apart mem_cons_self) _
    have writtenMoves : Moves store written (index :: tail ++ store.description :: free)
        (index :: tail ++ store.description :: free) := moves_update placed mem_cons_self _
    have positiveSize : 0 < data.length := length_pos_iff.mpr nonempty
    have shorter : (data.drop size).length < fuel := by
      rw [length_drop]
      omega
    rw [← sameNext] at chain
    by_cases done : data.drop size = []
    · rw [if_pos done]
      refine ⟨written, [], index, tail, free, rfl, writtenFree, rfl, chain, ?_, writtenMoves⟩
      rw [nil_append, contents_cons, holds, contents_nil, append_nil, take_of_length_le]
      exact drop_eq_nil_iff.mp done
    · rw [if_neg done]
      -- the data behind this block are written into a new chain or into the old one
      by_cases ends : written.next index = 0
      · rw [if_pos ends]
        have nothing : tail = [] := by
          have chainTail := chain.2.2
          rw [ends] at chainTail
          exact chainTail.of_zero
        subst nothing
        obtain ⟨newFree, isNewFree, newDescription, nonzero, newEnds, linked, newMoves⟩ :=
          allocateBehind_moves writtenFree writtenMoves.placed
        have linkedMoves := writtenMoves.trans newMoves
        have newChain : Chain (written.allocateBehind index).2.next (written.allocateBehind index).1
            [(written.allocateBehind index).1] := ⟨rfl, nonzero, newEnds⟩
        have newPlaced := linkedMoves.placed.tail
        rw [← newDescription] at newPlaced
        obtain ⟨store', front, last, excess, free', loops, isFree', description, chain', contents', moves⟩ :=
          ih isNewFree newChain newPlaced done shorter
        rw [newDescription] at moves
        obtain ⟨same, wholeMoves⟩ := moves_behind linkedMoves moves
        refine ⟨store', index :: front, last, excess, free', loops, isFree', description.trans newDescription,
          ⟨rfl, chain.2.1, ?_⟩, ?_, wholeMoves⟩
        · rw [Store.next, same, linked]
          exact chain'
        · rw [cons_append, contents_cons, contents', same, linked]
          exact (congrArg (· ++ _) holds).trans (take_append_drop _ _)
      · rw [if_neg ends]
        obtain ⟨tail', rfl, -⟩ := chain.2.2.of_nonzero ends
        have writtenPlaced := writtenMoves.placed.tail
        rw [getBlock_of_lt (writtenPlaced.inside _ mem_cons_self)]
        obtain ⟨store', front, last, excess, free', loops, isFree', description, chain', contents', moves⟩ :=
          ih writtenFree chain.2.2 writtenPlaced done shorter
        obtain ⟨same, wholeMoves⟩ := moves_behind writtenMoves moves
        refine ⟨store', index :: front, last, excess, free', loops, isFree', description,
          ⟨rfl, chain.2.1, ?_⟩, ?_, wholeMoves⟩
        · rw [Store.next, same]
          exact chain'
        · rw [cons_append, contents_cons, contents', same, holds, take_append_drop]

/-- What is left of a chain becomes free, the last block first. -/
theorem deallocateLoop_moves (isFree : store.Free free) (chain : Chain store.next index path)
    (placed : store.Placed (path ++ store.description :: free)) (enough : path.length ≤ fuel) :
    ∃ store', store.deallocateLoop fuel index = .ok store' ∧ Free store' (path.reverse ++ free) ∧
      store'.description = store.description ∧
      Moves store store' (path ++ store.description :: free) (store.description :: (path.reverse ++ free)) := by
  induction path generalizing store index free fuel with
  | nil =>
    have ends : index = 0 := chain
    refine ⟨store, ?_, isFree, rfl, .within placed rfl fun _ _ _ => rfl⟩
    unfold deallocateLoop
    exact if_pos ends
  | cons first rest ih =>
    obtain ⟨rfl, nonzero, chainRest⟩ := chain
    obtain ⟨fuel, rfl⟩ := Nat.exists_eq_succ_of_ne_zero (Nat.ne_zero_of_lt enough)
    have insideFirst := placed.inside index mem_cons_self
    have order : (rest ++ index :: store.description :: free).Perm (index :: rest ++ store.description :: free) :=
      perm_middle
    have placed' := placed.perm order.symm
    obtain ⟨isFree', description, moves⟩ := deallocate_moves isFree nonzero placed'.right
    have given := moves.beside rest placed'
    have chain' : Chain (store.deallocate index).next (store.next index) rest := by
      refine chainRest.congr fun other member => ?_
      rw [Store.next, moves.kept placed' member]
      rfl
    obtain ⟨store', loops, freed, description', movesRest⟩ :=
      ih isFree' chain' given.placed (Nat.le_of_succ_le_succ enough)
    have reversed : (index :: rest).reverse ++ free = rest.reverse ++ index :: free := by simp
    refine ⟨store', ?_, ?_, description'.trans description, ?_⟩
    · unfold deallocateLoop
      rw [if_neg nonzero, getBlock_of_lt insideFirst]
      exact loops
    · rw [reversed]
      exact freed
    · have whole := given.trans movesRest
      rw [reversed]
      exact whole.perm order (.refl _)

end Contents

end Store

namespace PlainWriter

variable {store : Store} {writer : PlainWriter} {path free : List Nat}

/-- Reading gives what the chain holds. -/
theorem read_contents (chain : Chain store.next writer.firstBlock path) (nonempty : path ≠ [])
    (placed : store.Placed path) (size : writer.dataSize = (store.contents path).length)
    (room : writer.dataSize ≤ bufSize) :
    writer.read store bufSize = .ok (store.contents path) := by
  have nonzero : writer.firstBlock ≠ 0 := by
    intro zero
    rw [zero] at chain
    exact nonempty chain.of_zero
  have enough : path.length ≤ store.maxBlockIndex + 1 := Nat.le_succ_of_le placed.length_le
  rw [read, if_neg (Nat.not_lt.mpr room), readLoop_contents chain nonzero enough]
  · rw [size]
    exact congrArg Except.ok (take_length)
  · rw [length_nil, zero_add, ← size]
    exact room

/-- Only the blocks of the chain are read. -/
theorem readLoop_congr {store' : Store} {index fuel' : Nat} {buf : List UInt8}
    (chain : Chain store.next index path) (nonzero : index ≠ 0)
    (same : ∀ index ∈ path, store'.block index = store.block index) (enough : path.length ≤ fuel)
    (enough' : path.length ≤ fuel') :
    store'.readLoop bufSize fuel' index buf = store.readLoop bufSize fuel index buf := by
  induction path generalizing index fuel fuel' buf with
  | nil => exact absurd chain nonzero
  | cons first rest ih =>
    obtain ⟨rfl, -, chainRest⟩ := chain
    rw [Store.next] at chainRest
    obtain ⟨fuel, rfl⟩ := Nat.exists_eq_succ_of_ne_zero (Nat.ne_zero_of_lt enough)
    obtain ⟨fuel', rfl⟩ := Nat.exists_eq_succ_of_ne_zero (Nat.ne_zero_of_lt enough')
    rw [readLoop, readLoop, same index mem_cons_self]
    by_cases ends : (store.block index).next = 0
    · rw [if_pos ends, if_pos ends]
    · rw [if_neg ends, if_neg ends, ih chainRest ends
        (fun other member => same other (mem_cons_of_mem _ member)) (Nat.le_of_succ_le_succ enough)
        (Nat.le_of_succ_le_succ enough')]

/-- Reading depends on the blocks of the path only. -/
theorem read_congr {store' : Store} (chain : Chain store.next writer.firstBlock path)
    (nonzero : writer.firstBlock ≠ 0) (same : ∀ index ∈ path, store'.block index = store.block index)
    (short : path.length ≤ store.maxBlockIndex) (short' : path.length ≤ store'.maxBlockIndex) (bufSize : Nat) :
    writer.read store' bufSize = writer.read store bufSize := by
  rw [read, read, readLoop_congr chain nonzero same (Nat.le_succ_of_le short) (Nat.le_succ_of_le short')]

variable (positive : 0 < available) (data : List UInt8) (isFree : store.Free free)
include positive data isFree

/-- The chain is filled; it may be longer than the data need. -/
theorem fill_moves {first : Nat} {tail : List Nat} (chain : Chain store.next first (first :: tail))
    (placed : store.Placed (first :: tail ++ store.description :: free)) :
    ∃ store' front last excess free', store.fill available first data = .ok (last, store') ∧
      Store.Free store' free' ∧ store'.description = store.description ∧
      Chain store'.next first (front ++ last :: excess) ∧ store'.contents (front ++ [last]) = data ∧
      Store.Moves store store' (first :: tail ++ store.description :: free)
        (front ++ last :: excess ++ store.description :: free') := by
  by_cases empty : data = []
  · subst empty
    have sameNext : (store.update first fun block => { block with size := 0 }).next = store.next :=
      next_update fun _ => rfl
    refine ⟨_, [], first, tail, free, rfl, isFree.update (placed.apart mem_cons_self) _, rfl, ?_, ?_,
      moves_update placed mem_cons_self _⟩
    · rw [sameNext]
      exact chain
    · rw [nil_append, contents_cons, block_update_self (placed.inside first mem_cons_self)]
      rfl
  · rw [fill, if_pos (length_pos_iff.mpr empty).ne']
    exact writeLoop_moves positive isFree chain placed empty (Nat.lt_succ_self _)

/-- Writing gives a chain that holds the data, from the same first block. -/
theorem write_moves (chain : Chain store.next writer.firstBlock path) (nonempty : path ≠ [])
    (placed : store.Placed (path ++ store.description :: free)) :
    ∃ store' path' free', writer.write available data store = .ok ({ writer with dataSize := data.length }, store') ∧
      Store.Free store' free' ∧ store'.description = store.description ∧
      Chain store'.next writer.firstBlock path' ∧ path' ≠ [] ∧ store'.contents path' = data ∧
      Store.Moves store store' (path ++ store.description :: free) (path' ++ store.description :: free') := by
  obtain ⟨first, tail, rfl⟩ := exists_cons_of_ne_nil nonempty
  obtain ⟨isFirst, -, -⟩ := id chain
  rw [isFirst] at chain ⊢
  obtain ⟨filled, front, last, excess, free', fills, isFree', description, chain', contents', moves⟩ :=
    fill_moves positive data isFree chain placed
  -- the chain is cut behind the last block that is used
  set cut := filled.update last fun block => { block with next := 0 } with cutIs
  have shape : front ++ last :: excess ++ store.description :: free' =
      front ++ [last] ++ (excess ++ store.description :: free') := by simp
  rw [shape] at moves
  have lastUsed : last ∈ front ++ [last] := mem_append_right _ mem_cons_self
  have lastApart := moves.placed.apart lastUsed
  have cutMoves := moves_update moves.placed (mem_append_left _ lastUsed)
    fun block => { block with next := 0 }
  have cutChain : Chain cut.next first (front ++ [last]) := by
    refine chain'.cut ?_ ?_
    · intro index member
      rw [Store.next, block_update_ne]
      · rfl
      · rintro rfl
        exact moves.placed.left.apart member mem_cons_self
    · rw [Store.next, block_update_self (moves.inside last (mem_append_left _ lastUsed))]
  have excessChain : Chain cut.next (filled.next last) excess := by
    refine chain'.behind.congr ?_
    intro index member
    rw [Store.next, block_update_ne]
    · rfl
    · rintro rfl
      exact lastApart (mem_append_left _ member)
  have cutContents : cut.contents (front ++ [last]) = data := by
    rw [← contents']
    exact contents_update (moves.inside last (mem_append_left _ lastUsed)) fun _ => ⟨rfl, rfl⟩
  have cutFree : cut.Free free' := isFree'.update
    (fun member => lastApart (mem_append_right _ (description ▸ member))) _
  -- and what is behind it is given back
  have cutPlaced : cut.Placed (excess ++ cut.description :: free') := by
    rw [description_update, description]
    exact cutMoves.placed.right
  obtain ⟨store', loops, freed, description', freeMoves⟩ :=
    deallocateLoop_moves cutFree excessChain cutPlaced (Nat.le_succ_of_le cutPlaced.left.length_le)
  rw [description_update, description] at freeMoves
  have whole := freeMoves.beside (front ++ [last]) cutMoves.placed
  have same : ∀ index ∈ front ++ [last], store'.block index = cut.block index := fun index member =>
    freeMoves.kept cutMoves.placed member
  refine ⟨store', front ++ [last], excess.reverse ++ free', ?_, freed,
    description'.trans (description_update.trans description), ?_, by simp, ?_,
    (moves.trans cutMoves).trans whole⟩
  · rw [write, isFirst, getBlock_of_lt (placed.inside first mem_cons_self), fills]
    change (do
      let store ← cut.deallocateLoop (cut.maxBlockIndex + 1) (filled.next last)
      return (⟨first, data.length, writer.opening⟩, store) : Except Fault (PlainWriter × Store)) = _
    rw [loops]
    rfl
  · refine cutChain.congr fun index member => ?_
    rw [Store.next, same index member]
    rfl
  · rw [← cutContents]
    exact contents_congr same

end PlainWriter

end UnixCommons.PlainStorage
