import UnixCommons.Library.Outcome
import UnixCommons.Library.Runs
import UnixCommons.PlainStorage.MapLayout

/-!
# Runs of a map

What a map is for is to give back, under every key, the data that were written last. This
holds along every run in which no key is too long for a block, no map with entries is
loaded again, and a new key is not given a block that still says it has bytes in use; and
without the last condition the blocks of different keys are at least kept apart.

Without the conditions neither holds. A block that is given back keeps the number of its
bytes in use, and a new key that is given the block is loaded with them. A key that is too
long leaves such a block at the front of the chain of keys, and what was written into it
is loaded as keys.
-/

namespace UnixCommons.PlainStorage

open Bytes LinkedCells List Function Layout

/-- The number of bytes for data in a block, which is larger than the headers. -/
structure Geometry where
  available : Nat
  large : keyHeaderSize < available
  small : available < 2 ^ 32

/-- Data that can be written. -/
abbrev Payload := { data : List UInt8 // data.length < 2 ^ 32 }

namespace Map

/-- The operations of a run. -/
inductive Operation (Key : Type) where
  | insert (key : Key)
  | write (key : Key) (data : Payload)
  | erase (key : Key)
  | clear
  | closeAndLoad
  | reopen

variable {Key : Type} [DecidableEq Key]
variable (geometry : Geometry) (accessor : KeyAccessor Key) (before : Key → Key → Bool)

/-- What an operation does to the map. -/
def Operation.perform : Operation Key → Map Key → Except Fault (Map Key)
  | .insert key, map => .ok (map.insert geometry.available accessor before key)
  | .write key data, map => map.write geometry.available key data
  | .erase key, map => .ok (map.erase key)
  | .clear, map => .ok map.clear
  | .closeAndLoad, map => map.closeAndLoad accessor before
  | .reopen, map => map.reopen accessor before

/-- A map that could not be read takes no further operation. -/
def Operation.step (operation : Operation Key) (state : Except Fault (Map Key)) : Except Fault (Map Key) :=
  state >>= operation.perform geometry accessor before

/-- The map after a run on a new file. -/
def reached (operations : List (Operation Key)) : Except Fault (Map Key) :=
  Runs.after (Operation.step geometry accessor before) operations (create accessor before)

/-- A new key fits into a block, and a map with entries is not loaded again. -/
def Operation.Proper (operation : Operation Key) (map : Map Key) : Prop :=
  match operation with
  | .insert key => map.find key = none → keyHeaderSize + (accessor.save key).length ≤ geometry.available
  | .closeAndLoad => map.index = []
  | _ => True

instance (operation : Operation Key) (map : Map Key) : Decidable (operation.Proper geometry accessor map) :=
  match operation with
  | .insert key => inferInstanceAs
    (Decidable (map.find key = none → keyHeaderSize + (accessor.save key).length ≤ geometry.available))
  | .closeAndLoad => inferInstanceAs (Decidable (map.index = []))
  | .write _ _ | .erase _ | .clear | .reopen => .isTrue trivial

/-- A proper operation, after which the numbers of the blocks fit into a field. -/
def Operation.Fits (operation : Operation Key) (map : Map Key) : Prop :=
  operation.Proper geometry accessor map ∧
    ∀ map', operation.perform geometry accessor before map = .ok map' → map'.keys.store.maxBlockIndex ≤ 2 ^ 32

instance (operation : Operation Key) (map : Map Key) :
    Decidable (operation.Fits geometry accessor before map) :=
  @instDecidableAnd _ _ _ (Outcome.decidableForallOk (operation.perform geometry accessor before map)
    fun map' => map'.keys.store.maxBlockIndex ≤ 2 ^ 32)

/-! ## Blocks are kept apart -/

/-- The head and the descriptions, the free blocks, the blocks of keys and the data of
every key are different blocks, and the chains end. -/
def Separated (map : Map Key) : Prop :=
  ∃ (free keys : List Nat) (owned : List (Entry Key × List Nat)),
    Chain map.keys.store.next map.keys.store.firstFree free ∧
    Chain map.keys.store.next map.keys.firstKeys keys ∧
    (owned.map Prod.fst).Perm map.index ∧
    (∀ part ∈ owned, Chain map.keys.store.next part.1.writer.firstBlock part.2) ∧
    ([0, map.keys.store.description, map.keys.description] ++ free ++ keys ++ owned.flatMap Prod.snd).Nodup

/-- Writing the data of one key is not seen under any other. -/
def Independent (map : Map Key) : Prop :=
  ∀ (key : Key) (data : Payload), ∃ map', map.write geometry.available key data = .ok map' ∧
    ∀ other, other ≠ key → ∀ bufSize, map'.read other bufSize = map.read other bufSize

variable {geometry accessor before} {map : Map Key} {layout : Layout Key}

omit [DecidableEq Key] in
/-- A valid map has separated keys. -/
theorem Valid.separated (valid : Valid geometry.available accessor map layout) : Separated map := by
  refine ⟨layout.free, layout.records.map Prod.fst, layout.owned, valid.isFree.chain, valid.indexes.chain,
    valid.entries, fun part member => (valid.owns part member).1, ?_⟩
  have regroup : (layout.region map.keys).Perm ([0, map.keys.store.description, map.keys.description] ++
      layout.free ++ layout.records.map Prod.fst ++ layout.owned.flatMap Prod.snd) := by
    rw [perm_iff_count]
    simp only [region, data, KeyIndex.region, count_append, count_cons, count_nil]
    omega
  exact regroup.nodup_iff.mp valid.nodup

/-- In a valid map no write changes the data of another key. -/
theorem Valid.independent (valid : Valid geometry.available accessor map layout) : Independent geometry map := by
  intro key data
  cases found : map.find key with
  | none =>
    refine ⟨map, ?_, fun _ _ _ => rfl⟩
    rw [write, found]
  | some entry =>
    obtain ⟨map', path, free', written, valid', index', opening', -, kept⟩ :=
      write_layout valid (lt_of_le_of_lt (Nat.zero_le _) geometry.large) found
    refine ⟨map', written, fun other different bufSize => ?_⟩
    have sameFind : map'.find other = map.find other := by
      rw [find, index', Keyed.lookup_modify_of_ne Entry.key_resized different]
      rfl
    rw [read, read, sameFind, opening']
    cases otherFound : map.find other with
    | none => rfl
    | some otherEntry =>
      obtain ⟨otherPath, isOwned, isOther⟩ := valid.exists_owned otherFound
      have remains : (otherEntry, otherPath) ∈ Keyed.erase partKey key layout.owned :=
        Keyed.mem_erase.mpr ⟨isOwned, fun same => different (isOther.symm.trans same)⟩
      obtain ⟨placed, -, nonzero⟩ := valid.path isOwned
      have keptPath : ∀ index ∈ otherPath, map'.keys.store.block index = map.keys.store.block index :=
        fun index member => kept index (mem_data remains member)
      have remains' : (otherEntry, otherPath) ∈ Keyed.modify partKey key
          (fun part => (part.1.resized data.1.length, path)) layout.owned := by
        refine mem_map.mpr ⟨_, isOwned, if_neg ?_⟩
        exact (Keyed.mem_erase.mp remains).2
      have sameRead := PlainWriter.read_congr (valid.owns _ isOwned).1 nonzero keptPath
        placed.length_le (valid'.path remains').1.length_le bufSize
      rw [Option.map_some, Option.map_some, sameRead]

/-! ## What a map is for -/

/-- What the keys of a map mean: the data under every key that is there. -/
abbrev Meaning (Key : Type) := Key → Option (List UInt8)

/-- What an operation is meant to do. -/
def Operation.meaning : Operation Key → Meaning Key → Meaning Key
  | .insert key, value => if value key = none then update value key (some []) else value
  | .write key data, value => if value key = none then value else update value key (some data.1)
  | .erase key, value => update value key none
  | .clear, _ => fun _ => none
  | .closeAndLoad, value => value
  | .reopen, value => value

/-- The chains hold what the keys mean. -/
structure Represents (map : Map Key) (layout : Layout Key) (value : Meaning Key) : Prop where
  live : ∀ part ∈ layout.owned, value part.1.key = some (map.keys.store.contents part.2) ∧
    part.1.writer.dataSize = (map.keys.store.contents part.2).length
  dead : ∀ key, (∀ part ∈ layout.owned, part.1.key ≠ key) → value key = none

variable {value : Meaning Key} {key : Key} {entry : Entry Key}

/-- A key that is not found has no data. -/
theorem Valid.find_eq_none (valid : Valid geometry.available accessor map layout) :
    map.find key = none ↔ ∀ part ∈ layout.owned, part.1.key ≠ key := by
  rw [find, Keyed.lookup_eq_none]
  constructor
  · intro notThere part member
    exact notThere part.1 (valid.entries.mem_iff.mp (mem_map_of_mem member))
  · intro notThere entry member
    obtain ⟨part, isOwned, rfl⟩ := mem_map.mp (valid.entries.mem_iff.mpr member)
    exact notThere part isOwned

omit [DecidableEq Key] in
/-- The data of an entry whose blocks are kept. -/
theorem Represents.kept (represents : Represents map layout value) {part : Entry Key × List Nat}
    (member : part ∈ layout.owned) {store' : Store} {value' : Meaning Key}
    (same : ∀ index ∈ part.2, store'.block index = map.keys.store.block index)
    (sameValue : value' part.1.key = value part.1.key) :
    value' part.1.key = some (store'.contents part.2) ∧
      part.1.writer.dataSize = (store'.contents part.2).length := by
  rw [Store.contents_congr same, sameValue]
  exact represents.live part member

variable {map' : Map Key}

section

variable (represents : Represents map layout value)
include represents

/-- An insertion represents what it is meant to. -/
theorem Represents.insert
    (absent : ∀ part ∈ layout.owned, part.1.key ≠ key)
    (unused : map.keys.store.nextSize = 0) {layout' : Layout Key} {block : Nat}
    (owned : layout'.owned = (entry, [block]) :: layout.owned) (isKey : entry.key = key)
    (isEmpty : entry.writer.dataSize = 0)
    (size : (map'.keys.store.block block).size = map.keys.store.nextSize)
    (kept : ∀ index ∈ data layout.owned, map'.keys.store.block index = map.keys.store.block index) :
    Represents map' layout' ((Operation.insert key).meaning value) := by
  have meaning : (Operation.insert key).meaning value = update value key (some []) :=
    if_pos (represents.dead key absent)
  rw [meaning]
  constructor
  · intro part member
    rw [owned] at member
    rcases mem_cons.mp member with rfl | old
    · have nothing : map'.keys.store.contents [block] = [] := by
        rw [Store.contents_cons, size, unused]
        rfl
      rw [isKey, update_self, nothing]
      exact ⟨rfl, isEmpty⟩
    · apply represents.kept old (fun index inside => kept index (mem_data old inside))
      exact update_of_ne (absent part old) _ _
  · intro other notThere
    rw [owned] at notThere
    have different : other ≠ key := by
      rintro rfl
      exact notThere _ mem_cons_self isKey
    rw [update_of_ne different]
    exact represents.dead other fun part member => notThere part (mem_cons_of_mem _ member)

/-- A write represents what it is meant to. -/
theorem Represents.write {old : Entry Key × List Nat}
    (isOwned : old ∈ layout.owned) (isKey : old.1.key = key)
    {data : Payload} {path free : List Nat}
    (contents : map'.keys.store.contents path = data.1)
    (kept : ∀ index ∈ Layout.data (Keyed.erase Layout.partKey key layout.owned),
      map'.keys.store.block index = map.keys.store.block index) :
    Represents map'
      { layout with
        free := free
        owned := Keyed.modify partKey key (fun part => (part.1.resized data.1.length, path)) layout.owned }
      ((Operation.write key data).meaning value) := by
  have isLive : value key ≠ none := by
    rw [← isKey, (represents.live old isOwned).1]
    exact Option.some_ne_none _
  have meaning : (Operation.write key data).meaning value = update value key (some data.1) :=
    if_neg isLive
  rw [meaning]
  constructor
  · intro part member
    obtain ⟨before, isBefore, rfl⟩ := mem_map.mp member
    by_cases same : partKey before = key
    · rw [if_pos same]
      have sameKey : (before.1.resized data.1.length).key = key := same
      rw [sameKey, update_self, contents]
      exact ⟨rfl, rfl⟩
    · rw [if_neg same]
      have remains := Keyed.mem_erase.mpr ⟨isBefore, same⟩
      apply represents.kept isBefore fun index inside => kept index (mem_data remains inside)
      exact update_of_ne same _ _
  · intro other notThere
    have absent : ∀ part ∈ layout.owned, part.1.key ≠ other := by
      intro part member
      have changed := notThere _ (mem_map_of_mem member)
      by_cases same : partKey part = key
      · rw [if_pos same] at changed
        exact changed
      · rw [if_neg same] at changed
        exact changed
    have different : other ≠ key := fun same => absent old isOwned (isKey.trans same.symm)
    rw [update_of_ne different]
    exact represents.dead other absent

/-- An erasure represents what it is meant to. -/
theorem Represents.erase
    {records' : List (Nat × List (Record Key))}
    (kept : ∀ index ∈ data layout.owned, map'.keys.store.block index = map.keys.store.block index) :
    Represents map' { layout with records := records', owned := Keyed.erase partKey key layout.owned }
      ((Operation.erase key).meaning value) := by
  constructor
  · intro part member
    obtain ⟨isOld, different⟩ := Keyed.mem_erase.mp member
    apply represents.kept isOld fun index inside => kept index (mem_data isOld inside)
    exact update_of_ne different _ _
  · intro other notThere
    by_cases isKey : other = key
    · subst isKey
      exact update_self _ _ _
    · refine (update_of_ne isKey _ _).trans (represents.dead other fun part member same => ?_)
      have remains : part ∈ Keyed.erase partKey key layout.owned :=
        Keyed.mem_erase.mpr ⟨member, fun erased => isKey (same.symm.trans erased)⟩
      exact notThere part remains same

end

omit [DecidableEq Key] in
/-- Loading again changes nothing that is represented. -/
theorem Represents.reopen (represents : Represents map layout value) {opening : Nat}
    (kept : ∀ index ∈ data layout.owned, map'.keys.store.block index = map.keys.store.block index) :
    Represents map' { layout with owned := layout.owned.map (reloaded map.keys.store opening) } value := by
  constructor
  · intro part member
    obtain ⟨old, isOld, rfl⟩ := mem_map.mp member
    have same : map'.keys.store.contents old.2 = map.keys.store.contents old.2 :=
      Store.contents_congr fun index inside => kept index (mem_data isOld inside)
    have live := represents.live old isOld
    rw [reloaded]
    rw [same]
    exact ⟨live.1, rfl⟩
  · intro key notThere
    exact represents.dead key fun part member =>
      notThere (reloaded map.keys.store opening part) (mem_map_of_mem member)

/-- What is read with a buffer that is long enough is what the keys mean. -/
def Answers (map : Map Key) (value : Meaning Key) : Prop :=
  ∀ key bufSize, (∀ data, value key = some data → data.length ≤ bufSize) →
    map.read key bufSize = (value key).map Except.ok

/-- A map answers what it represents. -/
theorem Represents.answers (represents : Represents map layout value)
    (valid : Valid geometry.available accessor map layout) : Answers map value := by
  intro key bufSize room
  cases found : map.find key with
  | none =>
    rw [read, found, represents.dead key (valid.find_eq_none.mp found)]
    rfl
  | some entry =>
    obtain ⟨path, isOwned, rfl⟩ := valid.exists_owned found
    obtain ⟨isData, isSize⟩ := represents.live _ isOwned
    obtain ⟨chain, nonempty⟩ := valid.owns _ isOwned
    have isOpen := valid.opened entry (Keyed.mem_of_lookup found)
    have isRead := PlainWriter.read_contents chain nonempty (valid.path isOwned).1 isSize
      (isSize ▸ room _ isData)
    rw [read, found, Option.map_some, if_pos isOpen, isRead, isData]
    rfl

/-- A new key is not given a block that says it has bytes in use. -/
def Operation.TakesUnused (operation : Operation Key) (map : Map Key) : Prop :=
  match operation with
  | .insert key => map.find key = none → map.keys.store.nextSize = 0
  | _ => True

instance (operation : Operation Key) (map : Map Key) : Decidable (operation.TakesUnused map) :=
  match operation with
  | .insert key => inferInstanceAs (Decidable (map.find key = none → map.keys.store.nextSize = 0))
  | .write _ _ | .erase _ | .clear | .closeAndLoad | .reopen => .isTrue trivial

/-- What an operation does to the layout and to what the keys mean. -/
theorem Operation.perform_spec (operation : Operation Key)
    (valid : Valid geometry.available accessor map layout) (small : map.keys.store.maxBlockIndex ≤ 2 ^ 32)
    (fits : operation.Fits geometry accessor before map) :
    ∃ map' layout', operation.perform geometry accessor before map = .ok map' ∧
      Valid geometry.available accessor map' layout' ∧
      ∀ value, Represents map layout value → operation.TakesUnused map →
        Represents map' layout' (operation.meaning value) := by
  obtain ⟨condition, stays⟩ := fits
  have positive : 0 < geometry.available := lt_of_le_of_lt (Nat.zero_le _) geometry.large
  cases operation with
  | insert key =>
    cases found : map.find key with
    | none =>
      obtain ⟨entry, block, layout', valid', owned, isKey, isEmpty, -, -, size, kept⟩ :=
        insert_layout valid found (condition found) (stays _ rfl)
      refine ⟨_, layout', rfl, valid', fun value represents unused => ?_⟩
      exact represents.insert (valid.find_eq_none.mp found) (unused found) owned isKey isEmpty size kept
    | some entry =>
      have same : map.insert geometry.available accessor before key = map := by
        rw [Map.insert, found]
      refine ⟨map, layout, congrArg Except.ok same, valid, fun value represents _ => ?_⟩
      obtain ⟨path, isOwned, rfl⟩ := valid.exists_owned found
      have isLive : value entry.key ≠ none := by
        rw [(represents.live _ isOwned).1]
        exact Option.some_ne_none _
      rw [Operation.meaning, if_neg isLive]
      exact represents
  | write key data =>
    cases found : map.find key with
    | none =>
      have same : map.write geometry.available key data.1 = .ok map := by
        rw [Map.write, found]
      refine ⟨map, layout, same, valid, fun value represents _ => ?_⟩
      rw [Operation.meaning, if_pos (represents.dead key (valid.find_eq_none.mp found))]
      exact represents
    | some entry =>
      obtain ⟨map', path, free', written, valid', -, -, contents, kept⟩ :=
        write_layout valid positive found
      refine ⟨map', _, written, valid', fun value represents _ => ?_⟩
      obtain ⟨old, isOwned, isKey⟩ := valid.exists_owned found
      exact represents.write isOwned isKey contents kept
  | erase key =>
    cases found : map.find key with
    | none =>
      have same : map.erase key = map := by
        rw [Map.erase, found]
      refine ⟨map, layout, congrArg Except.ok same, valid, fun value represents _ => ?_⟩
      have unchanged : update value key none = value := by
        rw [← represents.dead key (valid.find_eq_none.mp found), update_eq_self]
      rw [Operation.meaning, unchanged]
      exact represents
    | some entry =>
      obtain ⟨records', valid', -, -, kept⟩ := erase_layout valid geometry.small found
      exact ⟨_, _, rfl, valid', fun value represents _ => represents.erase kept⟩
  | clear =>
    obtain ⟨records', valid'⟩ := clear_layout valid geometry.small
    refine ⟨_, _, rfl, valid', fun value _ _ => ⟨?_, fun _ _ => rfl⟩⟩
    exact fun part member => absurd member not_mem_nil
  | closeAndLoad =>
    obtain ⟨map', reopened, valid', -, kept⟩ := @reopen_layout _ _ _ _ before _ _ valid geometry.small small
    have same : map.closeAndLoad accessor before = map.reopen accessor before := by
      have nothing : map.index = [] := condition
      rw [Map.closeAndLoad, nothing, Map.reopen]
    exact ⟨map', _, same.trans reopened, valid', fun value represents _ => represents.reopen kept⟩
  | reopen =>
    obtain ⟨map', reopened, valid', -, kept⟩ := @reopen_layout _ _ _ _ before _ _ valid geometry.small small
    exact ⟨map', _, reopened, valid', fun value represents _ => represents.reopen kept⟩

/-! ## Runs -/

/-- A condition on the map that an operation meets. -/
def Operation.OnMap (condition : Operation Key → Map Key → Prop) (operation : Operation Key)
    (state : Except Fault (Map Key)) : Prop :=
  ∀ map, state = .ok map → condition operation map

instance (condition : Operation Key → Map Key → Prop) [∀ operation map, Decidable (condition operation map)]
    (operation : Operation Key) (state : Except Fault (Map Key)) :
    Decidable (Operation.OnMap condition operation state) :=
  Outcome.decidableForallOk state (condition operation)

variable (geometry accessor before)

/-- The file of the map has a layout. -/
def LaidOut (state : Except Fault (Map Key)) : Prop :=
  ∃ map layout, state = .ok map ∧ Valid geometry.available accessor map layout ∧
    map.keys.store.maxBlockIndex ≤ 2 ^ 32

/-- In every run on a new file in which keys fit into a block and no map with entries is
loaded again, the parts of the file are kept apart, and writing the data of one key is not
seen under any other. -/
theorem reached_separated (operations : List (Operation Key))
    (admitted : Runs.Along (Operation.step geometry accessor before)
      (Operation.OnMap (Operation.Fits geometry accessor before)) operations (create accessor before)) :
    ∃ map, reached geometry accessor before operations = .ok map ∧ Separated map ∧ Independent geometry map := by
  have started : LaidOut geometry accessor (create accessor before) := by
    obtain ⟨map, created, valid, small⟩ := @create_layout Key _ geometry.available accessor before
    exact ⟨map, _, created, valid, small⟩
  have keeps : ∀ operation state, LaidOut geometry accessor state →
      Operation.OnMap (Operation.Fits geometry accessor before) operation state →
      LaidOut geometry accessor (operation.step geometry accessor before state) := by
    rintro operation - ⟨map, layout, rfl, valid, small⟩ meets
    obtain ⟨map', layout', performed, valid', -⟩ := operation.perform_spec valid small (meets map rfl)
    exact ⟨map', layout', performed, valid', (meets map rfl).2 map' performed⟩
  obtain ⟨map, layout, isReached, valid, -⟩ := admitted.invariant keeps started
  exact ⟨map, isReached, valid.separated, valid.independent⟩

/-- The blocks of a file have 16 bytes for data. -/
def smallBlocks : Geometry := ⟨16, by decide, by decide⟩

/-- The order of strings. -/
def stringBefore (first second : List UInt8) : Bool := decide (first < second)

/-- Two keys, one of which gets longer and shorter data, and a new map on their file. -/
def twoKeys : List (Operation (List UInt8)) :=
  [.insert [97], .write [97] ⟨List.replicate 40 7, by decide⟩, .insert [98], .write [98] ⟨[1, 2], by decide⟩,
    .write [97] ⟨[3], by decide⟩, .reopen, .erase [98]]

theorem twoKeys_separated :
    Runs.Along (Operation.step smallBlocks defaultAccessor stringBefore)
      (Operation.OnMap (Operation.Fits smallBlocks defaultAccessor stringBefore)) twoKeys
      (create defaultAccessor stringBefore) ∧
    ∃ map, reached smallBlocks defaultAccessor stringBefore twoKeys = .ok map ∧ Separated map ∧
      Independent smallBlocks map := by
  have admitted : Runs.Along (Operation.step smallBlocks defaultAccessor stringBefore)
      (Operation.OnMap (Operation.Fits smallBlocks defaultAccessor stringBefore)) twoKeys
      (create defaultAccessor stringBefore) := by
    decide +kernel
  exact ⟨admitted, reached_separated smallBlocks defaultAccessor stringBefore twoKeys admitted⟩

omit [DecidableEq Key] in
/-- Different entries of a map whose parts are kept apart begin with different blocks. -/
theorem Separated.nodup_firstBlocks (separated : Separated map)
    (nonzero : ∀ entry ∈ map.index, entry.writer.firstBlock ≠ 0) :
    (map.index.map fun entry => entry.writer.firstBlock).Nodup := by
  obtain ⟨free, keys, owned, -, -, entries, chains, nodup⟩ := separated
  have nodupData := (nodup_append.mp nodup).2.1
  have begins : ∀ parts : List (Entry Key × List Nat), (∀ part ∈ parts, part ∈ owned) →
      (parts.map fun part => part.1.writer.firstBlock).Sublist (parts.flatMap Prod.snd) := by
    intro parts
    induction parts with
    | nil => exact fun _ => List.Sublist.refl _
    | cons part rest ih =>
      intro member
      have isOwned := member part mem_cons_self
      have isEntry := entries.mem_iff.mp (mem_map_of_mem isOwned)
      obtain ⟨path, split, -⟩ := (chains part isOwned).of_nonzero (nonzero part.1 isEntry)
      rw [flatMap_cons, split]
      refine List.Sublist.cons_cons _ (List.Sublist.trans ?_ (sublist_append_right path _))
      exact ih fun other later => member other (mem_cons_of_mem _ later)
  have nodupOwned := (begins owned fun _ member => member).nodup nodupData
  have same := entries.map fun entry => entry.writer.firstBlock
  rw [map_map] at same
  exact same.nodup_iff.mp nodupOwned

/-- A key that is too long leaves a block with old data in front of the chain of keys. The
next key that needs a block puts it into the chain, and the old data are loaded as a key. -/
def loadedData : List (Operation (List UInt8)) :=
  [.insert [97],
    .write [97] ⟨List.replicate 16 7 ++ [16, 0, 0, 0, 4, 0, 0, 0, 0, 0, 0, 0, 99, 99, 99, 99] ++ List.replicate 16 7,
      by decide⟩,
    .write [97] ⟨[1], by decide⟩, .insert (List.replicate 10 5), .insert [98], .reopen]

theorem loadedData_shared :
    ∃ map, reached smallBlocks defaultAccessor stringBefore loadedData = .ok map ∧ ¬Separated map ∧
      ¬Independent smallBlocks map := by
  have firstBlocks : (reached smallBlocks defaultAccessor stringBefore loadedData).toOption.map
      (fun map => map.index.map fun entry => entry.writer.firstBlock) = some [4, 7, 4] := by
    decide +kernel
  have readBefore : (reached smallBlocks defaultAccessor stringBefore loadedData).toOption.bind
      (fun map => (map.read [97] 16).bind Except.toOption) = some [1] := by
    decide +kernel
  have readAfter : (reached smallBlocks defaultAccessor stringBefore loadedData).toOption.bind
      (fun map => (map.write 16 [99, 99, 99, 99] [2]).toOption.bind fun map' =>
        (map'.read [97] 16).bind Except.toOption) = some [2] := by
    decide +kernel
  cases isReached : reached smallBlocks defaultAccessor stringBefore loadedData with
  | error fault =>
    rw [isReached] at firstBlocks
    cases firstBlocks
  | ok map =>
    rw [isReached] at firstBlocks readBefore readAfter
    have blocks : (map.index.map fun entry => entry.writer.firstBlock) = [4, 7, 4] := Option.some.inj firstBlocks
    refine ⟨map, rfl, fun separated => ?_, fun independent => ?_⟩
    · have nodup := separated.nodup_firstBlocks fun entry member => by
        have isFirst := mem_map_of_mem (f := fun entry => entry.writer.firstBlock) member
        rw [blocks] at isFirst
        rintro zero
        rw [zero] at isFirst
        revert isFirst
        decide
      rw [blocks] at nodup
      revert nodup
      decide
    · obtain ⟨map', written, same⟩ := independent [99, 99, 99, 99] ⟨[2], by decide⟩
      have sameRead := same [97] (by decide) 16
      have isWritten : map.write 16 [99, 99, 99, 99] [2] = .ok map' := written
      change (map.write 16 [99, 99, 99, 99] [2]).toOption.bind _ = some [2] at readAfter
      rw [isWritten] at readAfter
      change (map'.read [97] 16).bind Except.toOption = some [2] at readAfter
      change (map.read [97] 16).bind Except.toOption = some [1] at readBefore
      rw [sameRead, readBefore] at readAfter
      revert readAfter
      decide

/-! ## What is read -/

/-- The map has a layout and its chains hold what the keys mean. -/
def Agrees (state : Except Fault (Map Key)) (value : Meaning Key) : Prop :=
  ∃ map layout, state = .ok map ∧ Valid geometry.available accessor map layout ∧
    map.keys.store.maxBlockIndex ≤ 2 ^ 32 ∧ Represents map layout value

/-- Keys fit, no map with entries is loaded again, and new keys are given unused blocks. -/
def Operation.Admitted (operation : Operation Key) (map : Map Key) : Prop :=
  operation.Fits geometry accessor before map ∧ operation.TakesUnused map
  deriving Decidable

/-- After every admitted run on a new file, which may close and load the file any number
of times, reading a key gives the data that were written last since it was inserted, and
nothing is read under other keys. -/
theorem reached_answers (operations : List (Operation Key))
    (admitted : Runs.Along (Operation.step geometry accessor before)
      (Operation.OnMap (Operation.Admitted geometry accessor before)) operations (create accessor before)) :
    ∃ map, reached geometry accessor before operations = .ok map ∧
      Answers map (Runs.after Operation.meaning operations fun _ => none) := by
  have started : Agrees geometry accessor (create accessor before) fun _ => none := by
    obtain ⟨map, created, valid, small⟩ := @create_layout Key _ geometry.available accessor before
    refine ⟨map, _, created, valid, small, ⟨?_, fun _ _ => rfl⟩⟩
    exact fun part member => absurd member not_mem_nil
  have carries : ∀ operation state value, Agrees geometry accessor state value →
      Operation.OnMap (Operation.Admitted geometry accessor before) operation state →
      Agrees geometry accessor (operation.step geometry accessor before state) (operation.meaning value) := by
    rintro operation - value ⟨map, layout, rfl, valid, small, represents⟩ meets
    obtain ⟨fits, unused⟩ := meets map rfl
    obtain ⟨map', layout', performed, valid', carried⟩ := operation.perform_spec valid small fits
    exact ⟨map', layout', performed, valid', fits.2 map' performed, carried value represents unused⟩
  obtain ⟨map, layout, isReached, valid, -, represents⟩ := admitted.related carries started
  exact ⟨map, isReached, represents.answers valid⟩

theorem twoKeys_answers :
    Runs.Along (Operation.step smallBlocks defaultAccessor stringBefore)
      (Operation.OnMap (Operation.Admitted smallBlocks defaultAccessor stringBefore)) twoKeys
      (create defaultAccessor stringBefore) ∧
    ∃ map, reached smallBlocks defaultAccessor stringBefore twoKeys = .ok map ∧
      Answers map (Runs.after Operation.meaning twoKeys fun _ => none) := by
  have admitted : Runs.Along (Operation.step smallBlocks defaultAccessor stringBefore)
      (Operation.OnMap (Operation.Admitted smallBlocks defaultAccessor stringBefore)) twoKeys
      (create defaultAccessor stringBefore) := by
    decide +kernel
  exact ⟨admitted, reached_answers smallBlocks defaultAccessor stringBefore twoKeys admitted⟩

/-- A key is given the block that another one gave back, and is loaded with the byte that
is left in it. -/
def recycledBlock : List (Operation (List UInt8)) :=
  [.insert [97], .write [97] ⟨List.replicate 17 7, by decide⟩, .write [97] ⟨[1], by decide⟩, .insert [98], .reopen]

theorem recycledBlock_not_empty :
    ∃ map, reached smallBlocks defaultAccessor stringBefore recycledBlock = .ok map ∧
      ¬Answers map (Runs.after Operation.meaning recycledBlock fun _ => none) := by
  have isRead : (reached smallBlocks defaultAccessor stringBefore recycledBlock).toOption.bind
      (fun map => (map.read [98] 16).bind Except.toOption) = some [7] := by
    decide +kernel
  cases isReached : reached smallBlocks defaultAccessor stringBefore recycledBlock with
  | error fault =>
    rw [isReached] at isRead
    cases isRead
  | ok map =>
    rw [isReached] at isRead
    refine ⟨map, rfl, fun answers => ?_⟩
    have answered := answers [98] 16 fun data same => by
      rw [← Option.some.inj same]
      exact Nat.zero_le _
    change (map.read [98] 16).bind Except.toOption = some [7] at isRead
    rw [answered] at isRead
    revert isRead
    decide

end Map

end UnixCommons.PlainStorage
