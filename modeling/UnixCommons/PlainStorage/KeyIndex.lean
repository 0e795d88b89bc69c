import Mathlib.Data.List.Nodup
import UnixCommons.PlainStorage.PlainWriter

/-!
# The index of keys

Keys are kept in a chain of blocks of their own. A block holds records one after another:
the size of the record, the first block of the data of the key, a mark, and the key. A
key is added to the first block of the chain, or to a new block that is put before it.
An erased key is cut off if it is the last of its block, and marked otherwise. The first
block of the chain is also written into a description block.

A key that does not fit into a block is refused, but only after a new block has been put
before the chain, and without writing that into the description block.
-/

namespace UnixCommons.PlainStorage

open Bytes LinkedCells List Store

/-- How keys are turned into bytes and back. -/
structure KeyAccessor (Key : Type) where
  save : Key → List UInt8
  load : List UInt8 → Key
  load_save : ∀ key, load (save key) = key

/-- The accessor for keys that are strings of bytes. -/
def defaultAccessor : KeyAccessor (List UInt8) := ⟨id, id, fun _ => rfl⟩

/-- Where a key is: its block, and the offset of its record there. -/
structure KeyAddition where
  blockIndex : Nat
  blockOffset : Nat
  deriving DecidableEq

/-- The size, the data block and the mark of a record. -/
def keyHeaderSize : Nat := 12

def markValid : Nat := 0

def markDeleted : Nat := 1

/-- The key blocks of a file, with the registers of the allocator. -/
structure KeyIndex where
  store : Store
  description : Nat
  firstKeys : Nat

namespace KeyIndex

variable {Key : Type} (available : Nat) (accessor : KeyAccessor Key)

/-- Writes the first block of the chain into the description block. -/
def sync (keys : KeyIndex) : KeyIndex :=
  { keys with
    store := keys.store.update keys.description fun block =>
      { block with content := copyIn block.content 0 (fieldBytes keys.firstKeys) } }

/-- The bytes of a record. -/
def recordBytes (key : Key) (dataBlock mark : Nat) : List UInt8 :=
  fieldBytes (keyHeaderSize + (accessor.save key).length) ++ fieldBytes dataBlock ++ fieldBytes mark ++
    accessor.save key

/-- Writes a record into a block, behind the bytes in use. -/
def putRecord (key : Key) (dataBlock used : Nat) (block : Block) : Block :=
  { block with
    size := used + keyHeaderSize + (accessor.save key).length
    content := copyIn block.content used (recordBytes accessor key dataBlock markValid) }

/-- Adds a key; gives where it is, unless it does not fit into a block. -/
def save (keys : KeyIndex) (key : Key) (dataBlock : Nat) : Option KeyAddition × KeyIndex :=
  let usedSize := (keys.store.block keys.firstKeys).size
  let sizeOfKey := (accessor.save key).length
  if available - usedSize < sizeOfKey + keyHeaderSize then
    let new := keys.store.allocate.1
    let store := (keys.store.allocate.2.getBlock new).update new fun block =>
      { block with next := keys.firstKeys }
    -- the new block is the first of the chain from here on
    if available < sizeOfKey + keyHeaderSize then (none, { keys with store := store, firstKeys := new })
    else
      (some ⟨new, 0⟩,
        { keys with store := store.update new (putRecord accessor key dataBlock 0), firstKeys := new })
  else
    (some ⟨keys.firstKeys, usedSize⟩,
      { keys with store := keys.store.update keys.firstKeys (putRecord accessor key dataBlock usedSize) })

/-- `insert`, which writes the register if the first key block is new. -/
def insert (keys : KeyIndex) (key : Key) (dataBlock : Nat) : Option KeyAddition × KeyIndex :=
  match keys.save available accessor key dataBlock with
  | (none, saved) => (none, saved)
  | (some addition, saved) =>
    (some addition, if saved.firstKeys ≠ keys.firstKeys then saved.sync else saved)

/-- `erase`: the last record of a block is cut off, another one is marked. -/
def erase (keys : KeyIndex) (addition : KeyAddition) : KeyIndex :=
  let store := keys.store.getBlock addition.blockIndex
  let block := store.block addition.blockIndex
  if block.size = addition.blockOffset + fieldAt block.content addition.blockOffset then
    { keys with store := store.update addition.blockIndex fun block => { block with size := addition.blockOffset } }
  else
    { keys with
      store := store.update addition.blockIndex fun block =>
        { block with content := copyIn block.content (addition.blockOffset + 8) (fieldBytes markDeleted) } }

/-- The records of a block from an offset on that are not marked as deleted. -/
def recordLoop (block : Block) (index : Nat) :
    Nat → Nat → Except Fault (List (KeyAddition × Key × Nat))
  | fuel, offset =>
    if offset < block.size then
      match fuel with
      | 0 => .error .endless
      | fuel + 1 => do
        let keySize := fieldAt block.content offset
        if fieldAt block.content (offset + 8) ≠ markDeleted then
          -- the key would have a negative length
          if keySize < keyHeaderSize then throw .corrupted
          let key := accessor.load (copyOut block.content (offset + 12) (keySize - keyHeaderSize))
          let rest ← recordLoop block index fuel (offset + keySize)
          return (⟨index, offset⟩, key, fieldAt block.content (offset + 4)) :: rest
        else recordLoop block index fuel (offset + keySize)
    else .ok []

/-- The records of a chain of blocks. -/
def keysLoop (store : Store) : Nat → Nat → Except Fault (List (KeyAddition × Key × Nat))
  | fuel, index =>
    if index = 0 then .ok []
    else
      match fuel with
      | 0 => .error .endless
      | fuel + 1 => do
        let block := store.block index
        let here ← recordLoop accessor block index (block.size + 1) 0
        let rest ← keysLoop store fuel block.next
        return here ++ rest

/-- The keys that are loaded. -/
def load (keys : KeyIndex) : Except Fault (List (KeyAddition × Key × Nat)) :=
  keysLoop accessor keys.store (keys.store.maxBlockIndex + 1) keys.firstKeys

end KeyIndex

/-! ## Records -/

/-- A record as it was written. -/
structure Record (Key : Type) where
  key : Key
  dataBlock : Nat
  deleted : Bool

variable {addition : KeyAddition} {dataBlock : Nat}

namespace Record

variable {Key : Type} (accessor : KeyAccessor Key)

/-- The octets of a record. -/
def bytes (record : Record Key) : List UInt8 :=
  KeyIndex.recordBytes accessor record.key record.dataBlock (if record.deleted then markDeleted else markValid)

/-- The bytes of records one after another. -/
def allBytes (records : List (Record Key)) : List UInt8 := records.flatMap (bytes accessor)

/-- Where the records of a block are, from an offset on. -/
def locate (index : Nat) : Nat → List (Record Key) → List (KeyAddition × Record Key)
  | _, [] => []
  | offset, record :: rest => (⟨index, offset⟩, record) :: locate index (offset + (bytes accessor record).length) rest

/-- What is loaded of a record. -/
def entry : KeyAddition × Record Key → Option (KeyAddition × Key × Nat)
  | (addition, record) => if record.deleted then none else some (addition, record.key, record.dataBlock)

/-- What is loaded of the records of a block. -/
def entriesFrom (index offset : Nat) (records : List (Record Key)) : List (KeyAddition × Key × Nat) :=
  (locate accessor index offset records).filterMap entry

variable {accessor} {record : Record Key} {records : List (Record Key)}

theorem length_bytes : (bytes accessor record).length = keyHeaderSize + (accessor.save record.key).length := by
  simp only [bytes, KeyIndex.recordBytes, length_append, length_fieldBytes, keyHeaderSize]

theorem allBytes_cons (record : Record Key) (records : List (Record Key)) :
    allBytes accessor (record :: records) = bytes accessor record ++ allBytes accessor records :=
  flatMap_cons

theorem allBytes_append (front back : List (Record Key)) :
    allBytes accessor (front ++ back) = allBytes accessor front ++ allBytes accessor back :=
  flatMap_append

/-- The places of records, one behind the other. -/
theorem locate_append (index offset : Nat) (front back : List (Record Key)) :
    locate accessor index offset (front ++ back) =
      locate accessor index offset front ++
        locate accessor index (offset + (allBytes accessor front).length) back := by
  induction front generalizing offset with
  | nil => rfl
  | cons record front ih =>
    rw [cons_append, locate, locate, ih, allBytes_cons, length_append, add_assoc,
      cons_append]

/-- The entries of records, one behind the other. -/
theorem entriesFrom_append (index offset : Nat) (front back : List (Record Key)) :
    entriesFrom accessor index offset (front ++ back) =
      entriesFrom accessor index offset front ++
        entriesFrom accessor index (offset + (allBytes accessor front).length) back := by
  rw [entriesFrom, locate_append, filterMap_append]
  rfl

theorem entriesFrom_cons (index offset : Nat) (record : Record Key) (records : List (Record Key)) :
    entriesFrom accessor index offset (record :: records) =
      (entry (⟨index, offset⟩, record)).toList ++
        entriesFrom accessor index (offset + (bytes accessor record).length) records := by
  rw [entriesFrom, locate, filterMap_cons]
  cases entry (⟨index, offset⟩, record) <;> rfl

/-- A key that is loaded is in a record. -/
theorem mem_entriesFrom {index offset : Nat} {key : Key}
    (member : (addition, key, dataBlock) ∈ entriesFrom accessor index offset records) :
    ∃ front back, records = front ++ ⟨key, dataBlock, false⟩ :: back ∧
      addition = ⟨index, offset + (allBytes accessor front).length⟩ := by
  induction records generalizing offset with
  | nil => exact absurd member not_mem_nil
  | cons record rest ih =>
    rw [entriesFrom_cons, mem_append, Option.mem_toList] at member
    rcases member with here | later
    · rw [entry, Option.ite_none_left_eq_some] at here
      obtain ⟨valid, same⟩ := here
      obtain ⟨rfl, rfl, rfl⟩ := same
      rw [Bool.not_eq_true] at valid
      refine ⟨[], rest, ?_, rfl⟩
      rw [← valid]
      rfl
    · obtain ⟨front, back, rfl, rfl⟩ := ih later
      exact ⟨record :: front, back, rfl, by rw [allBytes_cons, length_append, add_assoc]⟩

/-- The fields of a record are read back. -/
theorem fields_of_stored {content : Nat → UInt8} {offset : Nat}
    (stored : copyOut content offset (bytes accessor record).length = bytes accessor record)
    (smallSize : (bytes accessor record).length < 2 ^ 32) (smallBlock : record.dataBlock < 2 ^ 32) :
    fieldAt content offset = (bytes accessor record).length ∧
      fieldAt content (offset + 4) = record.dataBlock ∧
      fieldAt content (offset + 8) = (if record.deleted then markDeleted else markValid) ∧
      copyOut content (offset + 12) (accessor.save record.key).length = accessor.save record.key := by
  rw [length_bytes] at smallSize
  have smallMark : (if record.deleted then markDeleted else markValid) < 2 ^ 32 := by
    split_ifs <;> decide
  rw [bytes, KeyIndex.recordBytes, length_append, length_append, length_append, copyOut_add,
    copyOut_add, copyOut_add] at stored
  simp only [length_fieldBytes] at stored
  obtain ⟨fields, key⟩ := append_inj stored (by simp)
  obtain ⟨fields, mark⟩ := append_inj fields (by simp)
  obtain ⟨size, dataBlock⟩ := append_inj fields (by simp)
  refine ⟨?_, ?_, ?_, key⟩
  · rw [fieldAt, size, fieldValue_fieldBytes smallSize, length_bytes]
  · rw [fieldAt, dataBlock, fieldValue_fieldBytes smallBlock]
  · rw [fieldAt, mark, fieldValue_fieldBytes smallMark]

/-- A block that holds records. -/
structure Held (available : Nat) (accessor : KeyAccessor Key) (block : Block) (records : List (Record Key)) :
    Prop where
  size : block.size = (allBytes accessor records).length
  stored : copyOut block.content 0 (allBytes accessor records).length = allBytes accessor records
  fits : block.size ≤ available
  small : ∀ record ∈ records, record.dataBlock < 2 ^ 32

/-- The loop reads what the block holds. -/
theorem recordLoop_entries {block : Block} {index fuel offset : Nat}
    (size : block.size = offset + (allBytes accessor records).length)
    (stored : copyOut block.content offset (allBytes accessor records).length = allBytes accessor records)
    (smallSize : block.size < 2 ^ 32) (smallBlocks : ∀ record ∈ records, record.dataBlock < 2 ^ 32)
    (enough : records.length ≤ fuel) :
    KeyIndex.recordLoop accessor block index fuel offset = .ok (entriesFrom accessor index offset records) := by
  induction records generalizing offset fuel with
  | nil =>
    unfold KeyIndex.recordLoop
    rw [if_neg]
    · rfl
    · rw [size]
      exact lt_irrefl _
  | cons record rest ih =>
    obtain ⟨fuel, rfl⟩ := Nat.exists_eq_succ_of_ne_zero (Nat.ne_zero_of_lt enough)
    rw [allBytes_cons, length_append] at size stored
    rw [copyOut_add] at stored
    obtain ⟨here, later⟩ := append_inj stored (by simp)
    obtain ⟨sizeField, blockField, markField, keyField⟩ :=
      fields_of_stored here (by omega) (smallBlocks record mem_cons_self)
    have inside : offset < block.size := by
      rw [size, length_bytes, keyHeaderSize]
      omega
    have recursion := @ih fuel (offset + (bytes accessor record).length) (by omega) later
      (fun other member => smallBlocks other (mem_cons_of_mem _ member)) (Nat.le_of_succ_le_succ enough)
    unfold KeyIndex.recordLoop
    rw [if_pos inside]
    dsimp only
    rw [sizeField, recursion, markField, blockField, entriesFrom_cons]
    have bodySize : (bytes accessor record).length - keyHeaderSize = (accessor.save record.key).length := by
      rw [length_bytes]
      omega
    rw [bodySize, keyField, accessor.load_save, entry]
    cases record.deleted <;> rfl

theorem length_le_allBytes (records : List (Record Key)) : records.length ≤ (allBytes accessor records).length := by
  induction records with
  | nil => exact le_refl 0
  | cons record rest ih =>
    rw [allBytes_cons, length_append, length_cons, length_bytes, keyHeaderSize]
    omega

namespace Held

variable {available : Nat} {block : Block} {front back : List (Record Key)}

/-- The loop over a block reads the records it holds. -/
theorem entries (held : Held available accessor block records) (geometry : available < 2 ^ 32) (index : Nat) :
    KeyIndex.recordLoop accessor block index (block.size + 1) 0 = .ok (entriesFrom accessor index 0 records) := by
  apply recordLoop_entries
  · rw [zero_add, held.size]
  · exact held.stored
  · exact lt_of_le_of_lt held.fits geometry
  · exact held.small
  · rw [held.size]
    exact Nat.le_succ_of_le (length_le_allBytes records)

/-- A record is added behind the others. -/
theorem put (held : Held available accessor block records) {key : Key}
    (room : block.size + keyHeaderSize + (accessor.save key).length ≤ available)
    (small : dataBlock < 2 ^ 32) :
    Held available accessor (KeyIndex.putRecord accessor key dataBlock block.size block)
      (records ++ [⟨key, dataBlock, false⟩]) := by
  have added : allBytes accessor (records ++ [⟨key, dataBlock, false⟩]) =
      allBytes accessor records ++ bytes accessor ⟨key, dataBlock, false⟩ := by
    rw [allBytes_append]
    exact congrArg _ (append_nil _)
  constructor
  · rw [added, length_append, length_bytes, ← held.size, ← add_assoc]
    rfl
  · have newBytes := @copyOut_copyIn block.content block.size (bytes accessor ⟨key, dataBlock, false⟩)
    have oldBytes := held.stored
    rw [← held.size] at oldBytes
    rw [added, length_append, copyOut_add, ← held.size]
    change copyOut (copyIn block.content block.size _) 0 block.size ++ copyOut
      (copyIn block.content block.size (bytes accessor ⟨key, dataBlock, false⟩)) (0 + block.size) _ = _
    rw [copyOut_copyIn_before (zero_add _).le, oldBytes, zero_add, newBytes]
  · exact room
  · intro record member
    rcases mem_append.mp member with old | new
    · exact held.small record old
    · rw [mem_singleton.mp new]
      exact small

/-- The last record is cut off. -/
theorem dropLast (held : Held available accessor block (front ++ [record])) :
    Held available accessor { block with size := (allBytes accessor front).length } front := by
  have size := held.size
  have stored := held.stored
  rw [allBytes_append, length_append] at size stored
  constructor
  · rfl
  · rw [copyOut_add] at stored
    exact (append_inj stored (by simp)).1
  · have fits := held.fits
    change (allBytes accessor front).length ≤ available
    omega
  · exact fun other member => held.small other (mem_append_left _ member)

/-- A record in the middle is marked. -/
theorem mark (held : Held available accessor block (front ++ record :: back)) :
    Held available accessor
      { block with
        content := copyIn block.content ((allBytes accessor front).length + 8) (fieldBytes markDeleted) }
      (front ++ { record with deleted := true } :: back) := by
  set head := allBytes accessor front ++ fieldBytes (keyHeaderSize + (accessor.save record.key).length) ++
    fieldBytes record.dataBlock with headIs
  have shape : ∀ deleted, allBytes accessor (front ++ ⟨record.key, record.dataBlock, deleted⟩ :: back) =
      head ++ fieldBytes (if deleted then markDeleted else markValid) ++
        (accessor.save record.key ++ allBytes accessor back) := by
    intro deleted
    rw [allBytes_append, allBytes_cons, bytes, KeyIndex.recordBytes]
    simp only [headIs, append_assoc]
  have stored := held.stored
  have size := held.size
  rw [shape] at stored size
  have replaced := @copyOut_replace _ _ _ _ (fieldBytes markDeleted) _ stored rfl
  have offset : 0 + head.length = (allBytes accessor front).length + 8 := by
    simp only [headIs, length_append, length_fieldBytes]
    omega
  rw [offset] at replaced
  constructor
  · rw [shape true, size]
    simp only [length_append, length_fieldBytes]
  · rw [shape true]
    exact replaced
  · exact held.fits
  · intro other member
    rcases mem_append.mp member with before | later
    · exact held.small other (mem_append_left _ before)
    · rcases mem_cons.mp later with rfl | behind
      · exact held.small record (mem_append_right _ mem_cons_self)
      · exact held.small other (mem_append_right _ (mem_cons_of_mem _ behind))

end Held

end Record

/-! ## The chain of keys -/

namespace KeyIndex

variable {Key : Type} {available : Nat} {accessor : KeyAccessor Key} {keys : KeyIndex}
variable {records : List (Nat × List (Record Key))} {free : List Nat}

/-- What is loaded of the records of a chain. -/
def allEntries (accessor : KeyAccessor Key) (records : List (Nat × List (Record Key))) :
    List (KeyAddition × Key × Nat) :=
  records.flatMap fun part => Record.entriesFrom accessor part.1 0 part.2

/-- The chain holds records, and its first block is written into the description block. -/
structure Indexes (available : Nat) (accessor : KeyAccessor Key) (keys : KeyIndex)
    (records : List (Nat × List (Record Key))) : Prop where
  chain : Chain keys.store.next keys.firstKeys (records.map Prod.fst)
  nonempty : records ≠ []
  held : ∀ part ∈ records, Record.Held available accessor (keys.store.block part.1) part.2
  stored : copyOut (keys.store.block keys.description).content 0 4 = fieldBytes keys.firstKeys

/-- The blocks of the index. -/
def region (keys : KeyIndex) (records : List (Nat × List (Record Key))) : List Nat :=
  keys.description :: records.map Prod.fst

theorem mem_region {part : Nat × List (Record Key)} (member : part ∈ records) : part.1 ∈ region keys records :=
  mem_cons_of_mem _ (mem_map_of_mem member)

/-- Other blocks may change. -/
theorem Indexes.congr (indexes : Indexes available accessor keys records) {store' : Store}
    (same : ∀ index ∈ region keys records, store'.block index = keys.store.block index) :
    Indexes available accessor { keys with store := store' } records := by
  constructor
  · refine indexes.chain.congr fun index member => ?_
    rw [Store.next, same index (mem_cons_of_mem _ member)]
    rfl
  · exact indexes.nonempty
  · intro part member
    rw [same part.1 (mem_region member)]
    exact indexes.held part member
  · rw [same _ mem_cons_self]
    exact indexes.stored

/-- The loop over the key blocks reads all their records. -/
theorem keysLoop_entries {store : Store} {index fuel : Nat} (geometry : available < 2 ^ 32)
    (chain : Chain store.next index (records.map Prod.fst))
    (held : ∀ part ∈ records, Record.Held available accessor (store.block part.1) part.2)
    (enough : records.length ≤ fuel) :
    keysLoop accessor store fuel index = .ok (allEntries accessor records) := by
  induction records generalizing index fuel with
  | nil =>
    unfold keysLoop
    exact if_pos chain
  | cons part rest ih =>
    obtain ⟨fuel, rfl⟩ := Nat.exists_eq_succ_of_ne_zero (Nat.ne_zero_of_lt enough)
    obtain ⟨rfl, nonzero, chainRest⟩ := chain
    have recursion := ih chainRest (fun other member => held other (mem_cons_of_mem _ member))
      (Nat.le_of_succ_le_succ enough)
    unfold keysLoop
    rw [if_neg nonzero]
    dsimp only
    rw [(held part mem_cons_self).entries geometry]
    change (do
      let rest ← keysLoop accessor store fuel (store.next part.1)
      return Record.entriesFrom accessor part.1 0 part.2 ++ rest : Except Fault _) = _
    rw [recursion]
    rfl

/-- Loading gives what the chain holds. -/
theorem load_entries (indexes : Indexes available accessor keys records) (geometry : available < 2 ^ 32)
    (placed : keys.store.Placed (region keys records)) :
    keys.load accessor = .ok (allEntries accessor records) := by
  apply keysLoop_entries geometry indexes.chain indexes.held
  have shorter := placed.tail.length_le
  rw [length_map] at shorter
  exact Nat.le_succ_of_le shorter

/-- A block of the index gets other records, and nothing else changes. -/
theorem Indexes.update (indexes : Indexes available accessor keys records)
    (placed : keys.store.Placed (region keys records))
    {front back : List (Nat × List (Record Key))} {index : Nat} {held held' : List (Record Key)}
    (split : records = front ++ (index, held) :: back) {change : Block → Block}
    (keeps : ∀ block, (change block).next = block.next)
    (changed : Record.Held available accessor (change (keys.store.block index)) held') :
    Indexes available accessor { keys with store := keys.store.update index change }
      (front ++ (index, held') :: back) := by
  subst split
  have member : (index, held) ∈ front ++ (index, held) :: back := mem_append_right _ mem_cons_self
  have insideIndex := placed.inside index (mem_region member)
  have sameParts : (front ++ (index, held') :: back).map Prod.fst = (front ++ (index, held) :: back).map Prod.fst := by
    simp
  have order := nodup_cons.mp placed.nodup
  have different : keys.description ≠ index := by
    rintro rfl
    exact order.1 (mem_map_of_mem member)
  constructor
  · rw [sameParts, next_update keeps]
    exact indexes.chain
  · simp
  · intro part belongs
    have apart := order.2
    rw [map_append, map_cons, nodup_middle, nodup_cons, ← map_append] at apart
    have others : ∀ part ∈ front ++ back, part.1 ≠ index := by
      rintro part inOthers rfl
      exact apart.1 (mem_map.mpr ⟨part, inOthers, rfl⟩)
    rcases mem_append.mp belongs with before | later
    · rw [block_update_ne (others part (mem_append_left _ before))]
      exact indexes.held part (mem_append_left _ before)
    · rcases mem_cons.mp later with rfl | behind
      · rw [block_update_self insideIndex]
        exact changed
      · rw [block_update_ne (others part (mem_append_right _ behind))]
        exact indexes.held part (mem_append_right _ (mem_cons_of_mem _ behind))
  · rw [block_update_ne different]
    exact indexes.stored

theorem allEntries_append (front back : List (Nat × List (Record Key))) :
    allEntries accessor (front ++ back) = allEntries accessor front ++ allEntries accessor back :=
  flatMap_append

theorem allEntries_cons (part : Nat × List (Record Key)) (rest : List (Nat × List (Record Key))) :
    allEntries accessor (part :: rest) =
      Record.entriesFrom accessor part.1 0 part.2 ++ allEntries accessor rest :=
  flatMap_cons

variable {key : Key}

/-- A key that is loaded is in a record of one of the blocks. -/
theorem mem_allEntries (member : (addition, key, dataBlock) ∈ allEntries accessor records) :
    ∃ front index before behind back,
      records = front ++ (index, before ++ ⟨key, dataBlock, false⟩ :: behind) :: back ∧
      addition = ⟨index, (Record.allBytes accessor before).length⟩ := by
  obtain ⟨⟨index, held⟩, isPart, inside⟩ := mem_flatMap.mp member
  obtain ⟨front, back, rfl⟩ := append_of_mem isPart
  obtain ⟨before, behind, same, rfl⟩ := Record.mem_entriesFrom inside
  subst same
  exact ⟨front, index, before, behind, back, rfl, by rw [zero_add]⟩

theorem perm_cons_middle {α : Type} (front before behind back : List α) (element : α) :
    (front ++ (before ++ element :: behind ++ back)).Perm (element :: (front ++ (before ++ behind ++ back))) := by
  have moved := @perm_middle _ element (front ++ before) (behind ++ back)
  simpa only [append_assoc, cons_append] using moved

variable {dataBlock : Nat}

/-- The last record of a block is cut off; one with others behind it is marked. -/
theorem erase_record (geometry : available < 2 ^ 32) {index : Nat} (insideIndex : index < keys.store.maxBlockIndex)
    {before behind : List (Record Key)}
    (held : Record.Held available accessor (keys.store.block index) (before ++ ⟨key, dataBlock, false⟩ :: behind)) :
    keys.erase ⟨index, (Record.allBytes accessor before).length⟩ =
      if behind = [] then
        { keys with store := keys.store.update index fun block =>
          { block with size := (Record.allBytes accessor before).length } }
      else
        { keys with store := keys.store.update index fun block =>
          { block with
            content := copyIn block.content ((Record.allBytes accessor before).length + 8)
              (fieldBytes markDeleted) } } := by
  have shape : Record.allBytes accessor (before ++ ⟨key, dataBlock, false⟩ :: behind) =
      Record.allBytes accessor before ++ Record.bytes accessor ⟨key, dataBlock, false⟩ ++
        Record.allBytes accessor behind := by
    rw [Record.allBytes_append, Record.allBytes_cons, append_assoc]
  have stored := held.stored
  have size := held.size
  rw [shape] at stored size
  have here := copyOut_middle stored
  rw [zero_add] at here
  rw [length_append, length_append] at size
  have fits := held.fits
  obtain ⟨sizeField, -, -, -⟩ := Record.fields_of_stored here (by omega)
    (held.small _ (mem_append_right _ mem_cons_self))
  rw [erase]
  dsimp only
  rw [getBlock_of_lt insideIndex, sizeField]
  by_cases isLast : behind = []
  · rw [if_pos isLast, if_pos]
    rw [size, isLast]
    rfl
  · have more := @Record.length_le_allBytes _ accessor behind
    have positive := length_pos_iff.mpr isLast
    rw [if_neg isLast, if_neg]
    omega

section

variable (indexes : Indexes available accessor keys records)
include indexes

/-- An erased key is not loaded any more, and the others are. -/
theorem erase_moves (geometry : available < 2 ^ 32) (placed : keys.store.Placed (region keys records))
    (member : (addition, key, dataBlock) ∈ allEntries accessor records) :
    ∃ records', (keys.erase addition).description = keys.description ∧
      (keys.erase addition).store.description = keys.store.description ∧
      (keys.erase addition).store.firstFree = keys.store.firstFree ∧
      records'.map Prod.fst = records.map Prod.fst ∧
      Indexes available accessor (keys.erase addition) records' ∧
      (allEntries accessor records).Perm ((addition, key, dataBlock) :: allEntries accessor records') ∧
      Store.Moves keys.store (keys.erase addition).store (region keys records) (region keys records) := by
  obtain ⟨front, index, before, behind, back, split, rfl⟩ := mem_allEntries member
  have isPart : (index, before ++ ⟨key, dataBlock, false⟩ :: behind) ∈ records := by
    rw [split]
    exact mem_append_right _ mem_cons_self
  have insideIndex := placed.inside index (mem_region isPart)
  have held := indexes.held _ isPart
  have loaded : allEntries accessor records =
      allEntries accessor front ++ (Record.entriesFrom accessor index 0 before ++
        (⟨index, (Record.allBytes accessor before).length⟩, key, dataBlock) ::
          Record.entriesFrom accessor index ((Record.allBytes accessor before).length +
            (Record.bytes accessor ⟨key, dataBlock, false⟩).length) behind ++ allEntries accessor back) := by
    rw [split, allEntries_append, allEntries_cons, Record.entriesFrom_append, zero_add]
    rfl
  rw [erase_record geometry insideIndex held]
  by_cases isLast : behind = []
  · subst isLast
    refine ⟨front ++ (index, before) :: back, rfl, rfl, rfl, ?_, ?_, ?_, ?_⟩
    · rw [split]
      simp
    · exact indexes.update placed split (fun _ => rfl) held.dropLast
    · rw [loaded, allEntries_append]
      have moved := perm_cons_middle (allEntries accessor front) (Record.entriesFrom accessor index 0 before) []
        (allEntries accessor back) (⟨index, (Record.allBytes accessor before).length⟩, key, dataBlock)
      rw [append_nil] at moved
      exact moved
    · exact moves_update placed (mem_region isPart) _
  · rw [if_neg isLast]
    refine ⟨front ++ (index, before ++ ⟨key, dataBlock, true⟩ :: behind) :: back, rfl, rfl, rfl, ?_, ?_, ?_, ?_⟩
    · rw [split]
      simp
    · exact indexes.update placed split (fun _ => rfl) held.mark
    · rw [loaded, allEntries_append, allEntries_cons, Record.entriesFrom_append,
        zero_add]
      exact perm_cons_middle _ _ _ _ _
    · exact moves_update placed (mem_region isPart) _

/-- The first block of the chain is the one keys are added to. -/
theorem Indexes.first :
    ∃ held back, records = (keys.firstKeys, held) :: back := by
  have chain := indexes.chain
  cases records with
  | nil => exact absurd rfl indexes.nonempty
  | cons part back =>
    obtain ⟨isFirst, -, -⟩ := chain
    exact ⟨part.2, back, by rw [isFirst]⟩

/-- A new block with one record is put before the chain. -/
theorem Indexes.putFirst (placed : keys.store.Placed (region keys records))
    {new : Nat} (nonzero : new ≠ 0) (outside : new ∉ region keys records) (insideNew : new < keys.store.maxBlockIndex)
    (fits : keyHeaderSize + (accessor.save key).length ≤ available)
    (small : dataBlock < 2 ^ 32) {put : Block → Block}
    (isPut : ∀ block, put block = putRecord accessor key dataBlock 0 { block with next := keys.firstKeys }) :
    Indexes available accessor
      { keys with store := keys.store.update new put, firstKeys := new }.sync
      ((new, [⟨key, dataBlock, false⟩]) :: records) := by
  set changed : KeyIndex := { keys with store := keys.store.update new put, firstKeys := new }
  have notNew : keys.description ≠ new := by
    rintro rfl
    exact outside mem_cons_self
  have insideDescription : keys.description < changed.store.maxBlockIndex := by
    rw [maxBlockIndex_update]
    exact placed.inside _ mem_cons_self
  have frame : ∀ index, index ≠ keys.description → index ≠ new →
      changed.sync.store.block index = keys.store.block index := fun index notDescription isOld =>
    (@Store.block_update_ne changed.store _ _ _ notDescription).trans (block_update_ne isOld)
  have first : changed.sync.store.block new = put (keys.store.block new) :=
    (@Store.block_update_ne changed.store _ _ _ (Ne.symm notNew)).trans (block_update_self insideNew)
  have old : ∀ part ∈ records, part.1 ≠ keys.description ∧ part.1 ≠ new := by
    intro part member
    constructor
    · intro same
      exact (nodup_cons.mp placed.nodup).1 (same ▸ mem_map_of_mem member)
    · intro same
      exact outside (same ▸ mem_region member)
  constructor
  · refine ⟨rfl, nonzero, ?_⟩
    rw [Store.next, first, isPut]
    refine indexes.chain.congr fun index member => ?_
    obtain ⟨part, isPart, rfl⟩ := mem_map.mp member
    rw [Store.next, frame _ (old part isPart).1 (old part isPart).2]
    rfl
  · simp
  · intro part member
    rcases mem_cons.mp member with rfl | later
    · have emptied : Record.Held available accessor
          ⟨keys.firstKeys, 0, (keys.store.block new).content⟩ [] := ⟨rfl, rfl, Nat.zero_le _, by simp⟩
      rw [first, isPut]
      exact emptied.put (by simpa using fits) small
    · rw [frame _ (old part later).1 (old part later).2]
      exact indexes.held part later
  · change copyOut ((changed.store.update keys.description _).block keys.description).content 0 4 = _
    rw [block_update_self insideDescription]
    exact @copyOut_copyIn (changed.store.block keys.description).content 0 (fieldBytes new)

end

/-- The file does not get shorter. -/
theorem maxBlockIndex_le_insert (keys : KeyIndex) :
    keys.store.maxBlockIndex ≤ (keys.insert available accessor key dataBlock).2.store.maxBlockIndex := by
  have saves : keys.store.maxBlockIndex ≤ (keys.save available accessor key dataBlock).2.store.maxBlockIndex := by
    have allocated : keys.store.maxBlockIndex ≤
        (keys.store.allocate.2.getBlock keys.store.allocate.1).maxBlockIndex := by
      rw [maxBlockIndex_getBlock]
      exact le_trans maxBlockIndex_le_allocate (le_max_left _ _)
    rw [save]
    split_ifs
    · exact allocated.trans (le_of_eq maxBlockIndex_update.symm)
    · simpa using allocated
    · exact le_of_eq maxBlockIndex_update.symm
  rw [insert]
  rcases saved : keys.save available accessor key dataBlock with ⟨addition, changed⟩
  rw [saved] at saves
  cases addition with
  | none => exact saves
  | some addition =>
    change _ ≤ (ite _ _ _ : KeyIndex).store.maxBlockIndex
    split_ifs
    · exact saves.trans (le_of_eq maxBlockIndex_update.symm)
    · exact saves

/-- A key that does not fit the first block is the first record of a new one. -/
theorem insert_full
    (full : available - (keys.store.block keys.firstKeys).size < (accessor.save key).length + keyHeaderSize)
    (fits : keyHeaderSize + (accessor.save key).length ≤ available)
    (isNew : keys.store.allocate.1 ≠ keys.firstKeys)
    (insideNew : keys.store.allocate.1 < keys.store.allocate.2.maxBlockIndex) :
    keys.insert available accessor key dataBlock =
      (some ⟨keys.store.allocate.1, 0⟩,
        { keys with
          store := keys.store.allocate.2.update keys.store.allocate.1
            (putRecord accessor key dataBlock 0 ∘ fun block => { block with next := keys.firstKeys })
          firstKeys := keys.store.allocate.1 }.sync) := by
  rw [insert, save, if_pos full, if_neg (by omega)]
  dsimp only
  rw [if_pos isNew, getBlock_of_lt insideNew, update, update, update, modify_modify_eq]

/-- A key that fits the first block is its last record. -/
theorem insert_room
    (room : ¬available - (keys.store.block keys.firstKeys).size < (accessor.save key).length + keyHeaderSize) :
    keys.insert available accessor key dataBlock =
      (some ⟨keys.firstKeys, (keys.store.block keys.firstKeys).size⟩,
        { keys with
          store := keys.store.update keys.firstKeys
            (putRecord accessor key dataBlock (keys.store.block keys.firstKeys).size) }) := by
  rw [insert, save, if_neg room]
  simp

/-- A key is added, and is loaded with the others. -/
theorem insert_moves (indexes : Indexes available accessor keys records) (isFree : keys.store.Free free)
    (placed : keys.store.Placed (region keys records ++ keys.store.description :: free))
    (fits : keyHeaderSize + (accessor.save key).length ≤ available)
    (small : dataBlock < 2 ^ 32) :
    ∃ addition keys' records' free', keys.insert available accessor key dataBlock = (some addition, keys') ∧
      keys'.description = keys.description ∧ keys'.store.description = keys.store.description ∧
      keys'.store.Free free' ∧ Indexes available accessor keys' records' ∧
      (allEntries accessor records').Perm ((addition, key, dataBlock) :: allEntries accessor records) ∧
      Store.Moves keys.store keys'.store (region keys records ++ keys.store.description :: free)
        (region keys records' ++ keys.store.description :: free') := by
  obtain ⟨held, back, split⟩ := indexes.first
  have isPart : (keys.firstKeys, held) ∈ records := by
    rw [split]
    exact mem_cons_self
  have isHeld := indexes.held _ isPart
  by_cases full : available - (keys.store.block keys.firstKeys).size < (accessor.save key).length + keyHeaderSize
  · obtain ⟨rest, isFree', description, nonzero, -, -, moves⟩ := allocate_moves isFree
    set new := keys.store.allocate.1
    set allocated := keys.store.allocate.2
    have kept := moves.beside (region keys records) placed
    have insideNew : new < allocated.maxBlockIndex := moves.inside _ mem_cons_self
    have outside : new ∉ region keys records := fun member => kept.placed.apart member mem_cons_self
    have indexes' : Indexes available accessor { keys with store := allocated } records :=
      indexes.congr fun index member => moves.kept placed member
    have isPut := indexes'.putFirst kept.placed.left nonzero outside insideNew fits small (fun _ => rfl)
    have isNew : new ≠ keys.firstKeys := fun same => outside (same ▸ mem_region isPart)
    rw [insert_full full fits isNew insideNew]
    have newApart : new ∉ allocated.description :: rest := by
      rw [description]
      exact (nodup_cons.mp moves.nodup).1
    have descriptionApart : keys.description ∉ allocated.description :: rest := by
      intro member
      rw [description] at member
      exact kept.placed.apart mem_cons_self (mem_cons_of_mem _ member)
    refine ⟨_, _, _, rest, rfl, rfl, description, (isFree'.update newApart _).update descriptionApart _, isPut, ?_, ?_⟩
    · exact .refl _
    · have isNew : new ∈ region keys records ++ new :: keys.store.description :: rest :=
        mem_append_right _ mem_cons_self
      have written := moves_update kept.placed isNew
        (putRecord accessor key dataBlock 0 ∘ fun block => { block with next := keys.firstKeys })
      have synced := moves_update written.placed
        (mem_append_left _ mem_cons_self : keys.description ∈ _) fun block =>
          { block with content := copyIn block.content 0 (fieldBytes new) }
      exact ((kept.trans written).trans synced).perm (.refl _) (perm_middle.cons _)
  · have room : (keys.store.block keys.firstKeys).size + keyHeaderSize + (accessor.save key).length ≤ available := by
      have within := isHeld.fits
      dsimp only at within
      omega
    have firstApart : keys.firstKeys ∉ keys.store.description :: free := placed.apart (mem_region isPart)
    rw [insert_room full]
    refine ⟨_, _, (keys.firstKeys, held ++ [⟨key, dataBlock, false⟩]) :: back, free, rfl, rfl, rfl,
      isFree.update firstApart _, ?_, ?_, ?_⟩
    · exact @Indexes.update _ _ _ _ _ indexes placed.left [] _ _ _ _ split _ (fun _ => rfl)
        (isHeld.put room small)
    · rw [split, allEntries_cons, Record.entriesFrom_append, zero_add, ← isHeld.size]
      have moved := perm_cons_middle [] (Record.entriesFrom accessor keys.firstKeys 0 held) []
        (allEntries accessor back) (⟨keys.firstKeys, (keys.store.block keys.firstKeys).size⟩, key, dataBlock)
      rw [append_nil] at moved
      exact moved
    · have sameRegion : region keys ((keys.firstKeys, held ++ [⟨key, dataBlock, false⟩]) :: back) =
          region keys records := by
        rw [split]
        rfl
      rw [sameRegion]
      exact moves_update placed (mem_append_left _ (mem_region isPart)) _

end KeyIndex

end UnixCommons.PlainStorage
