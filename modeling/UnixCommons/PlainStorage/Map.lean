import UnixCommons.Library.Keyed
import UnixCommons.PlainStorage.KeyIndex

/-!
# The map in a file

A map keeps an entry for every key: the writer of its data, and where the key is in the
file. The entries are made when a key is inserted, and when a file is loaded. The first
block of a file says where the descriptions of the allocator and of the key index are.

Loading reads the keys of the file and adds the entries that are missing. Closing does
not take the entries away, so a map that is loaded a second time keeps the writers of the
file that was closed.
-/

namespace UnixCommons.PlainStorage

open Bytes LinkedCells

/-! ## Opening a file -/

namespace Store

def fileHeaderSize : Nat := 12

/-- Writes the head of a new file, with descriptions that say that there are no free
blocks and no keys. -/
def createHead (store : Store) : Store :=
  let store := (store.getBlock 2).update 2 fun block =>
    { block with size := 4, content := copyIn block.content 0 (fieldBytes 0) }
  let store := (store.getBlock 1).update 1 fun block =>
    { next := 0, size := 4, content := copyIn block.content 0 (fieldBytes 0) }
  (store.getBlock 0).update 0 fun block =>
    { next := 0
      size := fileHeaderSize
      content := copyIn (copyIn block.content 4 (fieldBytes 1)) 8 (fieldBytes 2) }

/-- Where the descriptions of the allocator and of the key index are. -/
def loadHead (store : Store) : Except Fault (Nat × Nat) :=
  let block := store.block 0
  if block.size < fileHeaderSize then .error .corrupted
  else .ok (fieldAt block.content 4, fieldAt block.content 8)

/-- The allocator of a file that is opened. -/
def openAllocator (store : Store) (description : Nat) : Store :=
  let store := store.getBlock description
  { store with description := description, firstFree := fieldAt (store.block description).content 0 }

/-- The key blocks of a file that is opened. -/
def openIndex (store : Store) (description : Nat) : KeyIndex :=
  let store := store.getBlock description
  let firstKeys := fieldAt (store.block description).content 0
  if firstKeys = 0 then
    let new := store.allocate.1
    KeyIndex.sync ⟨store.allocate.2.getBlock new, description, new⟩
  else ⟨store.getBlock firstKeys, description, firstKeys⟩

/-- The key index of a file, which is given a head if it is empty. -/
def openFile (blocks : List Block) : Except Fault KeyIndex :=
  let store : Store := ⟨blocks, 0, 0⟩
  if store.maxBlockIndex = 0 then .ok ((store.createHead.openAllocator 1).openIndex 2)
  else do
    let head ← store.loadHead
    return (store.openAllocator head.1).openIndex head.2

/-- The loop that counts the bytes in use of a chain. -/
def sizeLoop (store : Store) : Nat → Nat → Nat → Except Fault Nat
  | 0, _, _ => .error .endless
  | fuel + 1, index, dataSize =>
    let block := store.block index
    let dataSize := dataSize + block.size
    if block.next = 0 then .ok dataSize else sizeLoop store fuel block.next dataSize

end Store

/-! ## The operations of the map -/

/-- What a map keeps for a key. -/
structure Entry (Key : Type) where
  key : Key
  writer : PlainWriter
  addition : KeyAddition

/-- A map with an open file. Every opening of a file has a number. -/
structure Map (Key : Type) where
  keys : KeyIndex
  index : List (Entry Key)
  opening : Nat

namespace Map

variable {Key : Type} [DecidableEq Key]
variable (available : Nat) (accessor : KeyAccessor Key) (before : Key → Key → Bool)

/-- `find`. -/
def find (map : Map Key) (key : Key) : Option (Entry Key) := Keyed.lookup Entry.key key map.index

/-- Puts an entry where the order of the keys has it. -/
def place (entry : Entry Key) : List (Entry Key) → List (Entry Key)
  | [] => [entry]
  | other :: rest =>
    if before entry.key other.key then entry :: other :: rest else other :: place entry rest

/-- Inserts a key without data. If the key does not fit into a block the file has changed
but there is no entry. -/
def insert (key : Key) (map : Map Key) : Map Key :=
  match map.find key with
  | some _ => map
  | none =>
    let writer : PlainWriter := ⟨map.keys.store.allocate.1, 0, map.opening⟩
    let keys := { map.keys with store := map.keys.store.allocate.2 }
    match keys.insert available accessor key writer.firstBlock with
    | (none, keys) => { map with keys := keys }
    | (some addition, keys) =>
      { map with keys := keys, index := place before ⟨key, writer, addition⟩ map.index }

/-- `erase`. -/
def erase (key : Key) (map : Map Key) : Map Key :=
  match map.find key with
  | none => map
  | some entry =>
    { map with keys := map.keys.erase entry.addition, index := Keyed.erase Entry.key key map.index }

/-- `clear`. -/
def clear (map : Map Key) : Map Key :=
  { map with
    keys := map.index.foldl (fun keys entry => keys.erase entry.addition) map.keys
    index := [] }

/-- Reads the data of a key, if there is such a key. -/
def read (key : Key) (bufSize : Nat) (map : Map Key) : Option (Except Fault (List UInt8)) :=
  (map.find key).map fun entry =>
    if entry.writer.opening = map.opening then entry.writer.read map.keys.store bufSize else .error .closed

/-- Writes the data of a key, if there is such a key. -/
def write (key : Key) (data : List UInt8) (map : Map Key) : Except Fault (Map Key) :=
  match map.find key with
  | none => .ok map
  | some entry =>
    if entry.writer.opening = map.opening then do
      let (writer, store) ← entry.writer.write available data map.keys.store
      return { map with
        keys := { map.keys with store := store }
        index := Keyed.modify Entry.key key (fun entry => { entry with writer := writer }) map.index }
    else .error .closed

/-- Adds the entry of a key that is loaded, unless there is one. -/
def loadKey (map : Map Key) (loaded : KeyAddition × Key × Nat) : Except Fault (Map Key) := do
  let (addition, key, firstDataBlock) := loaded
  let store := map.keys.store.getBlock firstDataBlock
  let dataSize ← store.sizeLoop (store.maxBlockIndex + 1) firstDataBlock 0
  -- a writer without a block takes one
  let (firstBlock, store) := if firstDataBlock = 0 then store.allocate else (firstDataBlock, store)
  let keys := { map.keys with store := store }
  match map.find key with
  | some _ => return { map with keys := keys }
  | none =>
    return { map with
      keys := keys
      index := place before ⟨key, ⟨firstBlock, dataSize, map.opening⟩, addition⟩ map.index }

/-- Loads a file into a map that has entries already. -/
def load (blocks : List Block) (index : List (Entry Key)) (opening : Nat) : Except Fault (Map Key) := do
  let keys ← Store.openFile blocks
  let loaded ← keys.load accessor
  loaded.foldlM (loadKey before) ⟨keys, index, opening⟩

/-- The file of a map when it is closed. -/
def close (map : Map Key) : List Block := map.keys.store.sync.blocks

/-- Closes a map and loads its file again. -/
def closeAndLoad (map : Map Key) : Except Fault (Map Key) :=
  load accessor before map.close map.index (map.opening + 1)

/-- Closes a map and loads its file into a new map. -/
def reopen (map : Map Key) : Except Fault (Map Key) := load accessor before map.close [] (map.opening + 1)

/-- A map with a new file. -/
def create : Except Fault (Map Key) := load accessor before [] [] 0

end Map

end UnixCommons.PlainStorage
