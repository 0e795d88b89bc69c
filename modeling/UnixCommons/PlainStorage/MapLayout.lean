import UnixCommons.PlainStorage.Map

/-!
# The layout of the file

The blocks of a file are the head, the descriptions, the free blocks, the blocks of keys
and the data of every key. A layout names the blocks of each part, and a map is valid if
the parts are chains, no block is in two of them, and the keys in the file are the
entries. Every operation is then a change of the layout that leaves the data of other keys
where they are.
-/

namespace UnixCommons.PlainStorage

open Bytes LinkedCells List Store Keyed KeyIndex

/-- The free blocks, the blocks of keys with their records, and the entries with the
blocks of their data. -/
structure Layout (Key : Type) where
  free : List Nat
  records : List (Nat × List (Record Key))
  owned : List (Entry Key × List Nat)

/-- What is loaded of a key. -/
def Entry.loaded {Key : Type} (entry : Entry Key) : KeyAddition × Key × Nat :=
  (entry.addition, entry.key, entry.writer.firstBlock)

/-- The entry after other data were written. -/
def Entry.resized {Key : Type} (dataSize : Nat) (entry : Entry Key) : Entry Key :=
  { entry with writer := { entry.writer with dataSize := dataSize } }

theorem Entry.key_resized {Key : Type} {dataSize : Nat} (entry : Entry Key) :
    (entry.resized dataSize).key = entry.key := rfl

namespace Layout

variable {Key : Type}

def partKey (part : Entry Key × List Nat) : Key := part.1.key

/-- The blocks that hold data. -/
def data (owned : List (Entry Key × List Nat)) : List Nat := owned.flatMap Prod.snd

/-- All blocks of the layout. -/
def region (keys : KeyIndex) (layout : Layout Key) : List Nat :=
  0 :: data layout.owned ++ (keys.region layout.records ++ keys.store.description :: layout.free)

theorem mem_data {owned : List (Entry Key × List Nat)} {part : Entry Key × List Nat} (member : part ∈ owned)
    {index : Nat} (inside : index ∈ part.2) : index ∈ data owned := mem_flatMap.mpr ⟨part, member, inside⟩

/-- The blocks of one entry and the free ones, beside all others. -/
theorem perm_region (keys : KeyIndex) {layout : Layout Key} {part : Entry Key × List Nat}
    {rest : List (Entry Key × List Nat)} (split : layout.owned.Perm (part :: rest)) :
    (layout.region keys).Perm ((0 :: data rest ++ keys.region layout.records) ++
      (part.2 ++ keys.store.description :: layout.free)) := by
  have sameData : (data layout.owned).Perm (part.2 ++ data rest) := split.flatMap_right _
  refine ((sameData.cons 0).append_right _).trans ?_
  rw [perm_iff_count]
  simp only [count_append, count_cons]
  omega

end Layout

/-- The data of every entry are a chain. -/
def Owns {Key : Type} (store : Store) (owned : List (Entry Key × List Nat)) : Prop :=
  ∀ part ∈ owned, Chain store.next part.1.writer.firstBlock part.2 ∧ part.2 ≠ []

variable {store store' : Store}

/-- Other blocks may change. -/
theorem Owns.congr {Key : Type} {owned : List (Entry Key × List Nat)} (owns : Owns store owned)
    (same : ∀ index ∈ Layout.data owned, store'.block index = store.block index) :
    Owns store' owned := by
  intro part member
  refine ⟨(owns part member).1.congr fun index inside => ?_, (owns part member).2⟩
  rw [Store.next, same index (Layout.mem_data member inside)]
  rfl

namespace Map

variable {Key : Type} [DecidableEq Key]

/-- A map whose file has a layout. -/
structure Valid (available : Nat) (accessor : KeyAccessor Key) (map : Map Key) (layout : Layout Key) : Prop where
  head : map.keys.store.loadHead = .ok (map.keys.store.description, map.keys.description)
  isFree : map.keys.store.Free layout.free
  indexes : KeyIndex.Indexes available accessor map.keys layout.records
  nodup : (layout.region map.keys).Nodup
  inside : ∀ index ∈ layout.region map.keys, index < map.keys.store.maxBlockIndex
  owns : Owns map.keys.store layout.owned
  entries : (layout.owned.map Prod.fst).Perm map.index
  loaded : (map.index.map Entry.loaded).Perm (allEntries accessor layout.records)
  distinct : Keyed.Distinct Entry.key map.index
  opened : ∀ entry ∈ map.index, entry.writer.opening = map.opening

variable {available : Nat} {accessor : KeyAccessor Key} {before : Key → Key → Bool}
variable {map : Map Key} {layout : Layout Key} {key : Key} {entry : Entry Key}

namespace Valid

omit [DecidableEq Key] in
/-- Every key owns its blocks once. -/
theorem distinctOwned (valid : Valid available accessor map layout) :
    Keyed.Distinct Layout.partKey layout.owned := by
  have same := valid.entries.map Entry.key
  rw [map_map] at same
  exact same.nodup_iff.mpr valid.distinct

omit [DecidableEq Key] in
theorem placed (valid : Valid available accessor map layout) :
    map.keys.store.Placed (layout.region map.keys) := ⟨valid.nodup, valid.inside⟩

omit [DecidableEq Key] in
/-- The blocks of an entry begin with that of its writer. -/
theorem path (valid : Valid available accessor map layout) {part : Entry Key × List Nat}
    (member : part ∈ layout.owned) :
    map.keys.store.Placed part.2 ∧ part.1.writer.firstBlock ∈ part.2 ∧
      part.1.writer.firstBlock ≠ 0 := by
  have data := valid.placed.left.tail
  obtain ⟨chain, nonempty⟩ := valid.owns part member
  refine ⟨⟨(nodup_flatMap.mp data.nodup).1 part member, ?_⟩, ?_⟩
  · intro index inside
    exact data.inside index (Layout.mem_data member inside)
  · obtain ⟨first, rest, split⟩ := exists_cons_of_ne_nil nonempty
    rw [split] at chain ⊢
    obtain ⟨rfl, nonzero, -⟩ := chain
    exact ⟨mem_cons_self, nonzero⟩

/-- An entry has its blocks. -/
theorem exists_owned (valid : Valid available accessor map layout) (found : map.find key = some entry) :
    ∃ path, (entry, path) ∈ layout.owned ∧ entry.key = key := by
  have member := valid.entries.mem_iff.mpr (mem_of_lookup found)
  obtain ⟨⟨same, path⟩, isOwned, rfl⟩ := mem_map.mp member
  exact ⟨path, isOwned, key_of_lookup found⟩

end Valid

end Map

/-- The number in a description is read back. -/
theorem fieldAt_of_stored {content : Nat → UInt8} {value : Nat} (stored : copyOut content 0 4 = fieldBytes value)
    (small : value < 2 ^ 32) : fieldAt content 0 = value := by
  rw [fieldAt, stored, fieldValue_fieldBytes small]

/-- The allocator is opened with the free blocks it had. -/
theorem Store.Free.openAllocator {free : List Nat} (isFree : store.Free free)
    (small : store.maxBlockIndex ≤ 2 ^ 32) :
    openAllocator ⟨store.blocks, 0, 0⟩ store.description = store := by
  have firstSmall : store.firstFree < 2 ^ 32 := by
    by_cases usedUp : store.firstFree = 0
    · rw [usedUp]
      decide
    · obtain ⟨rest, rfl, -⟩ := isFree.chain.of_nonzero usedUp
      exact lt_of_lt_of_le (isFree.inside _ (mem_cons_of_mem _ mem_cons_self)) small
  have inside : store.description < maxBlockIndex ⟨store.blocks, 0, 0⟩ :=
    isFree.inside _ mem_cons_self
  rw [Store.openAllocator, Store.getBlock_of_lt inside]
  have first : fieldAt (block ⟨store.blocks, 0, 0⟩ store.description).content 0 = store.firstFree :=
    fieldAt_of_stored isFree.stored firstSmall
  rw [first]

/-- The index is opened with the keys it had. -/
theorem KeyIndex.Indexes.openIndex {Key : Type} {available : Nat} {accessor : KeyAccessor Key} {keys : KeyIndex}
    {records : List (Nat × List (Record Key))} (indexes : Indexes available accessor keys records)
    (placed : keys.store.Placed (region keys records))
    (small : keys.store.maxBlockIndex ≤ 2 ^ 32) : keys.store.openIndex keys.description = keys := by
  obtain ⟨held, back, rfl⟩ := indexes.first
  have firstInside := placed.inside keys.firstKeys (mem_cons_of_mem _ mem_cons_self)
  have nonzero : keys.firstKeys ≠ 0 := indexes.chain.2.1
  rw [Store.openIndex, Store.getBlock_of_lt (placed.inside _ mem_cons_self),
    fieldAt_of_stored indexes.stored (lt_of_lt_of_le firstInside small)]
  rw [if_neg nonzero, getBlock_of_lt firstInside]

/-- The bytes in use of a chain are counted. -/
theorem Store.sizeLoop_contents {path : List Nat} {index fuel dataSize : Nat}
    (chain : Chain store.next index path) (nonzero : index ≠ 0) (enough : path.length ≤ fuel) :
    store.sizeLoop fuel index dataSize = .ok (dataSize + (store.contents path).length) := by
  induction path generalizing index fuel dataSize with
  | nil => exact absurd chain nonzero
  | cons first rest ih =>
    obtain ⟨rfl, -, chainRest⟩ := chain
    rw [Store.next] at chainRest
    obtain ⟨fuel, rfl⟩ := Nat.exists_eq_succ_of_ne_zero (Nat.ne_zero_of_lt enough)
    rw [sizeLoop, contents_cons, length_append, length_copyOut, ← add_assoc]
    by_cases ends : (store.block index).next = 0
    · rw [ends] at chainRest
      rw [if_pos ends, chainRest.of_zero]
      rfl
    · rw [if_neg ends]
      exact ih chainRest ends (Nat.le_of_succ_le_succ enough)

/-- The head of the file is read from its first block. -/
theorem Store.loadHead_congr (same : store'.block 0 = store.block 0) :
    store'.loadHead = store.loadHead := by
  rw [loadHead, same]
  rfl

namespace Map

variable {Key : Type} [DecidableEq Key]
variable {available : Nat} {accessor : KeyAccessor Key} {before : Key → Key → Bool}
variable {map : Map Key} {layout : Layout Key} {key : Key} {entry : Entry Key}

/-! ## Inserting -/

omit [DecidableEq Key] in
/-- The index holds the entries, in another order. -/
theorem place_perm (before : Key → Key → Bool) (entry : Entry Key) (index : List (Entry Key)) :
    (place before entry index).Perm (entry :: index) := by
  induction index with
  | nil => exact .refl _
  | cons other rest ih =>
    rw [place]
    split_ifs
    · exact .refl _
    · exact (ih.cons other).trans (.swap _ _ _)

/-- The key blocks after the insertion of a new key. -/
theorem insert_keys (absent : map.find key = none) :
    (map.insert available accessor before key).keys =
      (KeyIndex.insert available accessor { map.keys with store := map.keys.store.allocate.2 } key
        map.keys.store.allocate.1).2 := by
  rw [insert, absent]
  dsimp only
  split
  · next result => rw [result]
  · next result => rw [result]

/-- A new key has one block, with the bytes in use that it had before, and leaves the
blocks of other keys as they are. -/
theorem insert_layout (valid : Valid available accessor map layout) (absent : map.find key = none)
    (fits : keyHeaderSize + (accessor.save key).length ≤ available)
    (small : (map.insert available accessor before key).keys.store.maxBlockIndex ≤ 2 ^ 32) :
    ∃ entry block layout', Valid available accessor (map.insert available accessor before key) layout' ∧
      layout'.owned = (entry, [block]) :: layout.owned ∧ entry.key = key ∧ entry.writer.dataSize = 0 ∧
      (map.insert available accessor before key).index.Perm (entry :: map.index) ∧
      (map.insert available accessor before key).opening = map.opening ∧
      ((map.insert available accessor before key).keys.store.block block).size = map.keys.store.nextSize ∧
      ∀ index ∈ Layout.data layout.owned,
        (map.insert available accessor before key).keys.store.block index = map.keys.store.block index := by
  obtain ⟨rest, restFree, sameAllocator, nonzero, ends, size, taken⟩ := allocate_moves valid.isFree
  set new := map.keys.store.allocate.1
  set allocated : KeyIndex := { map.keys with store := map.keys.store.allocate.2 }
  -- the block for the data is taken first
  set others := 0 :: Layout.data layout.owned ++ map.keys.region layout.records with othersIs
  have placed : map.keys.store.Placed (others ++ map.keys.store.description :: layout.free) := by
    rw [append_assoc]
    exact valid.placed
  have keptTaking : ∀ index ∈ others, allocated.store.block index = map.keys.store.block index := fun index member =>
    taken.kept placed member
  have indexes : KeyIndex.Indexes available accessor allocated layout.records :=
    valid.indexes.congr fun index member => keptTaking index (mem_append_right _ member)
  -- then the key is put into the index
  set others' := 0 :: new :: Layout.data layout.owned with othersIs'
  have regroup : (others ++ new :: map.keys.store.description :: rest).Perm
      (others' ++ (allocated.region layout.records ++ allocated.store.description :: rest)) := by
    have sameRegion : allocated.region layout.records = map.keys.region layout.records := rfl
    rw [perm_iff_count, sameRegion, sameAllocator]
    intro index
    simp only [othersIs, othersIs', count_append, count_cons]
    omega
  have moved := (taken.beside others placed).perm (.refl _) regroup
  have newSmall : new < 2 ^ 32 := by
    refine lt_of_lt_of_le (taken.inside new mem_cons_self) (le_trans ?_ small)
    rw [insert_keys absent]
    exact maxBlockIndex_le_insert allocated
  obtain ⟨addition, keys', records', free', isInserted, description, allocator, isFree', indexes', more, put⟩ :=
    insert_moves indexes restFree moved.placed.right fits newSmall
  have keptPutting : ∀ index ∈ others', keys'.store.block index = allocated.store.block index := fun index member =>
    put.kept moved.placed member
  have kept : ∀ index ∈ 0 :: Layout.data layout.owned, keys'.store.block index = map.keys.store.block index := by
    intro index member
    have member' : index ∈ others' := by
      rcases mem_cons.mp member with rfl | isData
      · exact mem_cons_self
      · exact mem_cons_of_mem _ (mem_cons_of_mem _ isData)
    rw [keptPutting index member', keptTaking index (mem_append_left _ member)]
  have keptNew := keptPutting new (mem_cons_of_mem _ mem_cons_self)
  have final := put.beside others' moved.placed
  set entry : Entry Key := ⟨key, ⟨new, 0, map.opening⟩, addition⟩
  have inserted : map.insert available accessor before key =
      ⟨keys', place before entry map.index, map.opening⟩ := by
    rw [insert, absent]
    dsimp only
    rw [isInserted]
  have sameRegion : others' ++ (allocated.region records' ++ allocated.store.description :: free') =
      Layout.region keys' ⟨free', records', (entry, [new]) :: layout.owned⟩ := by
    rw [Layout.region, region, region, description, allocator]
    rfl
  rw [sameRegion] at final
  have isPlaced := place_perm before entry map.index
  rw [inserted]
  refine ⟨entry, new, ⟨free', records', (entry, [new]) :: layout.owned⟩,
    ⟨?_, isFree', indexes', final.nodup, final.inside, ?_, ?_, ?_, ?_, ?_⟩, rfl, rfl, rfl, isPlaced, rfl, ?_, ?_⟩
  · rw [loadHead_congr (kept 0 mem_cons_self), valid.head, description, allocator, sameAllocator]
  · intro part member
    rcases mem_cons.mp member with rfl | old
    · refine ⟨⟨rfl, nonzero, ?_⟩, cons_ne_nil _ _⟩
      rw [Store.next, keptNew]
      exact ends
    · exact valid.owns.congr (fun index inside => kept index (mem_cons_of_mem _ inside)) part old
  · exact (valid.entries.cons entry).trans isPlaced.symm
  · exact (isPlaced.map Entry.loaded).trans ((valid.loaded.cons entry.loaded).trans more.symm)
  · have distinct : Keyed.Distinct Entry.key (entry :: map.index) := by
      refine nodup_cons.mpr ⟨?_, valid.distinct⟩
      intro member
      obtain ⟨other, isOther, same⟩ := mem_map.mp member
      exact lookup_eq_none.mp absent other isOther same
    exact (isPlaced.map Entry.key).nodup_iff.mpr distinct
  · intro other member
    rcases mem_cons.mp (isPlaced.mem_iff.mp member) with rfl | old
    · rfl
    · exact valid.opened other old
  · rw [keptNew, size]
  · exact fun index member => kept index (mem_cons_of_mem _ member)

/-! ## Erasing -/

/-- Erasing a key leaves the blocks of data as they are. -/
theorem erase_layout (valid : Valid available accessor map layout) (geometry : available < 2 ^ 32)
    (found : map.find key = some entry) :
    ∃ records', Valid available accessor (map.erase key)
        { layout with records := records', owned := Keyed.erase Layout.partKey key layout.owned } ∧
      (map.erase key).index = Keyed.erase Entry.key key map.index ∧ (map.erase key).opening = map.opening ∧
      ∀ index ∈ Layout.data layout.owned,
        (map.erase key).keys.store.block index = map.keys.store.block index := by
  obtain ⟨path, isOwned, rfl⟩ := valid.exists_owned found
  set rest := Keyed.erase Layout.partKey entry.key layout.owned with restIs
  have split : layout.owned.Perm ((entry, path) :: rest) := valid.distinctOwned.perm_cons_erase isOwned
  rw [erase, found]
  have isEntry := mem_of_lookup found
  have whole : (layout.region map.keys).Perm
      ((0 :: Layout.data layout.owned ++ map.keys.store.description :: layout.free) ++
        map.keys.region layout.records) := by
    rw [perm_iff_count]
    simp only [Layout.region, count_append]
    omega
  have placed := valid.placed.perm whole
  obtain ⟨records', description, allocator, firstFree, sameParts, indexes', fewer, moves⟩ :=
    erase_moves valid.indexes geometry placed.right
      (valid.loaded.mem_iff.mp (mem_map_of_mem isEntry))
  set keys := map.keys.erase entry.addition
  have kept : ∀ index ∈ 0 :: Layout.data layout.owned ++ map.keys.store.description :: layout.free,
      keys.store.block index = map.keys.store.block index := fun index member =>
    moves.kept placed member
  have keptData : ∀ index ∈ Layout.data layout.owned,
      keys.store.block index = map.keys.store.block index := fun index member =>
    kept index (mem_append_left _ (mem_cons_of_mem _ member))
  set layout' : Layout Key := { layout with records := records', owned := rest } with layoutIs
  have rejoined : (layout.region map.keys).Perm (path ++ layout'.region keys) := by
    refine (Layout.perm_region map.keys split).trans ?_
    rw [perm_iff_count]
    simp only [Layout.region, region, sameParts, description, allocator, layoutIs,
      count_append]
    omega
  have remains := (valid.placed.perm rejoined).right
  refine ⟨records', ⟨?_, ?_, indexes', remains.nodup, ?_, ?_, ?_, ?_, ?_, ?_⟩, rfl, rfl, keptData⟩
  · rw [loadHead_congr (kept 0 (mem_append_left _ mem_cons_self)), valid.head, description, allocator]
  · exact valid.isFree.congr allocator firstFree moves.grows fun index member =>
      kept index (mem_append_right _ member)
  · intro index member
    exact lt_of_lt_of_le (remains.inside index member) moves.grows
  · intro part member
    exact valid.owns.congr keptData part (Keyed.mem_erase.mp member).1
  · have sameEntries : (rest.map Prod.fst) = Keyed.erase Entry.key entry.key (layout.owned.map Prod.fst) :=
      map_erase (fun _ => rfl) _ _
    rw [sameEntries]
    exact valid.entries.filter _
  · have whereEntry := (valid.distinct.perm_cons_erase isEntry).map Entry.loaded
    exact .cons_inv (whereEntry.symm.trans (valid.loaded.trans fewer))
  · exact valid.distinct.sublist erase_sublist
  · intro other member
    exact valid.opened other (mem_erase.mp member).1

/-- Clearing is erasing one key after another. -/
theorem clear_layout (valid : Valid available accessor map layout) (geometry : available < 2 ^ 32) :
    ∃ records', Valid available accessor map.clear { layout with records := records', owned := [] } := by
  obtain ⟨keys, index, opening⟩ := map
  induction index generalizing keys layout with
  | nil =>
    have nothing : layout.owned = [] := by
      have same := valid.entries.length_eq
      rw [length_map] at same
      exact length_eq_zero_iff.mp same
    refine ⟨layout.records, ?_⟩
    rw [← nothing]
    exact valid
  | cons entry rest ih =>
    have found : find (⟨keys, entry :: rest, opening⟩ : Map Key) entry.key = some entry :=
      valid.distinct.lookup_eq_some.mpr ⟨mem_cons_self, rfl⟩
    obtain ⟨records', valid', -, -, -⟩ := erase_layout valid geometry found
    have erased : erase entry.key (⟨keys, entry :: rest, opening⟩ : Map Key) =
        ⟨keys.erase entry.addition, rest, opening⟩ := by
      rw [erase, found]
      rw [valid.distinct.erase_head]
    rw [erased] at valid'
    have cleared := ih _ valid'
    exact cleared

/-! ## Loading -/

/-- The entry that is made for a key that is loaded. -/
def entryOf (size : Nat → Nat) (opening : Nat) (loaded : KeyAddition × Key × Nat) : Entry Key :=
  ⟨loaded.2.1, ⟨loaded.2.2, size loaded.2.2, opening⟩, loaded.1⟩

/-- Keys that are loaded one after another are added to the entries. -/
theorem foldlM_loadKey {size : Nat → Nat} {keys : KeyIndex} {opening : Nat}
    (loaded : List (KeyAddition × Key × Nat)) (index : List (Entry Key))
    (counted : ∀ each ∈ loaded, each.2.2 ≠ 0 ∧ each.2.2 < keys.store.maxBlockIndex ∧
      keys.store.sizeLoop (keys.store.maxBlockIndex + 1) each.2.2 0 = .ok (size each.2.2))
    (distinct : (loaded.map (fun each => each.2.1) ++ index.map Entry.key).Nodup) :
    ∃ index', loaded.foldlM (loadKey before) ⟨keys, index, opening⟩ = .ok ⟨keys, index', opening⟩ ∧
      index'.Perm (loaded.map (entryOf size opening) ++ index) := by
  induction loaded generalizing index with
  | nil => exact ⟨index, rfl, .refl _⟩
  | cons first rest ih =>
    obtain ⟨addition, key, block⟩ := first
    obtain ⟨nonzero, inside, isCounted⟩ := counted _ mem_cons_self
    rw [map_cons, cons_append, nodup_cons] at distinct
    have absent : find (⟨keys, index, opening⟩ : Map Key) key = none := by
      refine lookup_eq_none.mpr fun entry member same => distinct.1 ?_
      exact mem_append_right _ (mem_map.mpr ⟨entry, member, same⟩)
    set entry := entryOf size opening (addition, key, block) with entryIs
    have step : loadKey before ⟨keys, index, opening⟩ (addition, key, block) =
        .ok ⟨keys, place before entry index, opening⟩ := by
      rw [loadKey]
      rw [getBlock_of_lt inside, isCounted, absent]
      rw [if_neg nonzero]
      rfl
    have isPlaced := place_perm before entry index
    obtain ⟨index', loads, perm⟩ := ih (place before entry index)
      (fun each member => counted each (mem_cons_of_mem _ member)) (by
        refine (Perm.nodup_iff ?_).mpr (nodup_cons.mpr distinct)
        exact ((isPlaced.map Entry.key).append_left _).trans perm_middle)
    refine ⟨index', ?_, ?_⟩
    · rw [foldlM_cons, step]
      exact loads
    · exact perm.trans ((isPlaced.append_left _).trans perm_middle)

omit [DecidableEq Key] in
section

variable (valid : Valid available accessor map layout)
include valid

/-- Closing writes the first free block once more. -/
theorem Valid.sync :
    Valid available accessor { map with keys := { map.keys with store := map.keys.store.sync } } layout ∧
      ∀ index ∈ 0 :: Layout.data layout.owned ++ map.keys.region layout.records,
        map.keys.store.sync.block index = map.keys.store.block index := by
  have placed := valid.placed
  rw [Layout.region, ← append_assoc] at placed
  have kept : ∀ index ∈ 0 :: Layout.data layout.owned ++ map.keys.region layout.records,
      map.keys.store.sync.block index = map.keys.store.block index := by
    intro index member
    apply block_sync_ne
    rintro rfl
    exact placed.apart member mem_cons_self
  have insideDescription := valid.isFree.inside _ mem_cons_self
  refine ⟨⟨?_, ⟨?_, ?_, valid.isFree.nodup, ?_⟩, ?_, valid.nodup, ?_, ?_, valid.entries, valid.loaded,
    valid.distinct, valid.opened⟩, kept⟩
  · rw [loadHead_congr (kept 0 (mem_append_left _ mem_cons_self))]
    exact valid.head
  · exact valid.isFree.chain.congr fun index _ => next_sync insideDescription
  · exact sync_stored insideDescription
  · intro index member
    rw [maxBlockIndex_sync]
    exact valid.isFree.inside index member
  · exact valid.indexes.congr fun index member => kept index (mem_append_right _ member)
  · intro index member
    rw [maxBlockIndex_sync]
    exact valid.inside index member
  · exact valid.owns.congr fun index member =>
      kept index (mem_append_left _ (mem_cons_of_mem _ member))

omit [DecidableEq Key] in
/-- Opening the file of a map gives its key index. -/
theorem openFile_close (small : map.keys.store.maxBlockIndex ≤ 2 ^ 32) :
    openFile map.close = .ok { map.keys with store := map.keys.store.sync } := by
  obtain ⟨valid', -⟩ := valid.sync
  set synced := map.keys.store.sync with syncedIs
  have sameSize : synced.maxBlockIndex = map.keys.store.maxBlockIndex := maxBlockIndex_sync
  have nonempty : maxBlockIndex ⟨synced.blocks, 0, 0⟩ ≠ 0 :=
    ne_of_gt (lt_of_le_of_lt (Nat.zero_le _) (valid'.isFree.inside _ mem_cons_self))
  have allocator : openAllocator ⟨synced.blocks, 0, 0⟩ synced.description = synced :=
    valid'.isFree.openAllocator (sameSize ▸ small)
  have index := valid'.indexes.openIndex valid'.placed.right.left (sameSize ▸ small)
  have head : loadHead ⟨synced.blocks, 0, 0⟩ = .ok (synced.description, map.keys.description) := valid'.head
  rw [openFile, close]
  rw [if_neg nonempty, head]
  change Except.ok ((openAllocator ⟨synced.blocks, 0, 0⟩ synced.description).openIndex map.keys.description) = _
  rw [allocator, index]

omit [DecidableEq Key] in
/-- The data of an entry are counted. -/
theorem Valid.counted {part : Entry Key × List Nat} (member : part ∈ layout.owned) :
    part.1.writer.firstBlock ≠ 0 ∧ part.1.writer.firstBlock < map.keys.store.maxBlockIndex ∧
      map.keys.store.sizeLoop (map.keys.store.maxBlockIndex + 1) part.1.writer.firstBlock 0 =
        .ok (map.keys.store.contents part.2).length := by
  obtain ⟨placed, isFirst, nonzero⟩ := valid.path member
  refine ⟨nonzero, placed.inside _ isFirst, ?_⟩
  rw [sizeLoop_contents (valid.owns part member).1 nonzero (Nat.le_succ_of_le placed.length_le),
    zero_add]

end

/-- The part of an entry when its file is loaded again. -/
def reloaded (store : Store) (opening : Nat) (part : Entry Key × List Nat) : Entry Key × List Nat :=
  ({ part.1 with writer := ⟨part.1.writer.firstBlock, (store.contents part.2).length, opening⟩ }, part.2)

/-- A new map that loads the file of another one has the same keys with the same
blocks. -/
theorem reopen_layout (valid : Valid available accessor map layout) (geometry : available < 2 ^ 32)
    (small : map.keys.store.maxBlockIndex ≤ 2 ^ 32) :
    ∃ map', map.reopen accessor before = .ok map' ∧
      Valid available accessor map'
        { layout with owned := layout.owned.map (reloaded map.keys.store (map.opening + 1)) } ∧
      map'.keys.store.maxBlockIndex = map.keys.store.maxBlockIndex ∧
      ∀ index ∈ Layout.data layout.owned, map'.keys.store.block index = map.keys.store.block index := by
  obtain ⟨valid', kept⟩ := valid.sync
  set keys : KeyIndex := { map.keys with store := map.keys.store.sync } with keysIs
  set loaded := allEntries accessor layout.records with loadedIs
  set size : Nat → Nat := fun block =>
    (keys.store.sizeLoop (keys.store.maxBlockIndex + 1) block 0).toOption.getD 0 with sizeIs
  have keptData : ∀ index ∈ Layout.data layout.owned, keys.store.block index = map.keys.store.block index :=
    fun index member => kept index (mem_append_left _ (mem_cons_of_mem _ member))
  have isSize : ∀ part ∈ layout.owned,
      size part.1.writer.firstBlock = (keys.store.contents part.2).length := by
    intro part member
    rw [sizeIs]
    dsimp only
    rw [(valid'.counted member).2.2]
    rfl
  have sized : ∀ part ∈ layout.owned,
      size part.1.writer.firstBlock = (map.keys.store.contents part.2).length := by
    intro part member
    rw [isSize part member]
    exact congrArg length (contents_congr fun index isBlock =>
      keptData index (Layout.mem_data member isBlock))
  have ownedLoaded : (layout.owned.map fun part => part.1.loaded).Perm loaded := by
    have same := valid.entries.map Entry.loaded
    rw [map_map] at same
    exact same.trans valid.loaded
  have countedLoaded : ∀ each ∈ loaded, each.2.2 ≠ 0 ∧ each.2.2 < keys.store.maxBlockIndex ∧
      keys.store.sizeLoop (keys.store.maxBlockIndex + 1) each.2.2 0 = .ok (size each.2.2) := by
    intro each member
    obtain ⟨part, isOwned, rfl⟩ := mem_map.mp (ownedLoaded.mem_iff.mpr member)
    obtain ⟨nonzero, inside, isCounted⟩ := valid'.counted isOwned
    exact ⟨nonzero, inside, isSize part isOwned ▸ isCounted⟩
  have distinctLoaded : (loaded.map fun each => each.2.1).Nodup := by
    have same := (valid.loaded.map fun each => each.2.1).nodup_iff.mp
    rw [map_map] at same
    exact same valid.distinct
  obtain ⟨index', loads, perm⟩ := @foldlM_loadKey _ _ before size keys (map.opening + 1) loaded [] countedLoaded
    (by simpa using distinctLoaded)
  rw [append_nil] at perm
  have reopened : map.reopen accessor before = .ok ⟨keys, index', map.opening + 1⟩ := by
    have keysLoaded := load_entries valid'.indexes geometry valid'.placed.right.left
    rw [reopen, load, openFile_close valid small]
    change (do
      let loaded ← keys.load accessor
      loaded.foldlM (loadKey before) ⟨keys, [], map.opening + 1⟩ : Except Fault (Map Key)) = _
    rw [keysLoaded]
    exact loads
  set owned := layout.owned.map (reloaded map.keys.store (map.opening + 1)) with ownedIs
  have sameData : Layout.data owned = Layout.data layout.owned := flatMap_map _ _ _
  have sameRegion : Layout.region keys { layout with owned := owned } = layout.region keys := by
    rw [Layout.region, Layout.region, sameData]
  have sameEntries : owned.map Prod.fst =
      (layout.owned.map fun part => part.1.loaded).map (entryOf size (map.opening + 1)) := by
    rw [ownedIs, map_map, map_map]
    apply map_congr_left
    intro part member
    simp only [Function.comp_apply, reloaded, entryOf, Entry.loaded, sized part member]
  refine ⟨_, reopened, ⟨valid'.head, valid'.isFree, valid'.indexes, ?_, ?_, ?_, ?_, ?_, ?_, ?_⟩,
    maxBlockIndex_sync, keptData⟩
  · rw [sameRegion]
    exact valid'.nodup
  · rw [sameRegion]
    exact valid'.inside
  · intro part member
    obtain ⟨old, isOld, rfl⟩ := mem_map.mp member
    exact valid'.owns old isOld
  · rw [sameEntries]
    exact (ownedLoaded.map _).trans perm.symm
  · have back : (loaded.map (entryOf size (map.opening + 1))).map Entry.loaded = loaded := by
      rw [map_map]
      exact map_id _
    exact (perm.map Entry.loaded).trans (.of_eq back)
  · have sameKeys := perm.map Entry.key
    rw [map_map] at sameKeys
    exact sameKeys.nodup_iff.mpr distinctLoaded
  · intro entry member
    obtain ⟨each, -, rfl⟩ := mem_map.mp (perm.mem_iff.mp member)
    rfl

/-! ## A new file -/

/-- The key index of a new file. -/
def newKeys : KeyIndex := ((createHead ⟨[], 0, 0⟩).openAllocator 1).openIndex 2

/-- The blocks of a new file, of which one is for keys and the others are free. -/
def newLayout (Key : Type) : Layout Key := ⟨List.range' 4 10, [(3, [])], []⟩

/-- The free blocks of a new file. -/
theorem newKeys_free : newKeys.store.Free (List.range' 4 10) where
  chain := by decide +kernel
  stored := by decide +kernel
  nodup := by decide +kernel
  inside := by decide +kernel

omit [DecidableEq Key] in
theorem newKeys_indexes (available : Nat) :
    KeyIndex.Indexes available accessor newKeys [(3, [])] := by
  have isFirst : newKeys.firstKeys = 3 := by decide +kernel
  have ends : newKeys.store.next 3 = 0 := by decide +kernel
  have unused : (newKeys.store.block 3).size = 0 := by decide +kernel
  constructor
  · exact ⟨isFirst, Nat.succ_ne_zero 2, ends⟩
  · exact cons_ne_nil _ _
  · intro part member
    rw [mem_singleton.mp member]
    refine ⟨unused, rfl, ?_, ?_⟩
    · rw [unused]
      exact Nat.zero_le _
    · intro record inside
      exact absurd inside not_mem_nil
  · decide +kernel

/-- A new map has a layout without data. -/
theorem create_layout :
    ∃ map, create accessor before = .ok map ∧ Valid available accessor map (newLayout Key) ∧
      map.keys.store.maxBlockIndex ≤ 2 ^ 32 := by
  have numbers : newKeys.description = 2 ∧ newKeys.store.description = 1 ∧ newKeys.store.maxBlockIndex = 14 := by
    decide +kernel
  obtain ⟨description, allocator, size⟩ := numbers
  have isRegion : (newLayout Key).region newKeys = [0, 2, 3, 1] ++ List.range' 4 10 := by
    rw [Layout.region, region, description, allocator]
    rfl
  have created : create accessor before = .ok ⟨newKeys, [], 0⟩ := by
    have nothing : newKeys.load accessor = .ok [] := by
      refine load_entries (newKeys_indexes (2 ^ 31)) (by decide) ⟨?_, ?_⟩
      · rw [region, description]
        change [2, 3].Nodup
        decide
      · rw [region, description, size]
        change ∀ index ∈ [2, 3], index < 14
        decide
    rw [create, load, openFile]
    change (do
      let loaded ← newKeys.load accessor
      loaded.foldlM (loadKey before) ⟨newKeys, [], 0⟩ : Except Fault (Map Key)) = _
    rw [nothing]
    rfl
  refine ⟨_, created, ⟨?_, newKeys_free, newKeys_indexes _, ?_, ?_, ?_, ?_, ?_, ?_, ?_⟩, ?_⟩
  · rw [description, allocator]
    rfl
  · rw [isRegion]
    decide
  · rw [isRegion, size]
    decide
  · exact fun part member => absurd member not_mem_nil
  · exact .refl _
  · exact .refl _
  · exact nodup_nil
  · exact fun entry member => absurd member not_mem_nil
  · rw [size]
    decide

/-! ## Writing -/

/-- Writing gives a key other blocks, and leaves the blocks of other keys as they are. -/
theorem write_layout (valid : Valid available accessor map layout) (positive : 0 < available)
    (found : map.find key = some entry) {data : List UInt8} :
    ∃ map' path free', map.write available key data = .ok map' ∧
      Valid available accessor map'
        { layout with
          free := free'
          owned := modify Layout.partKey key (fun part => (part.1.resized data.length, path)) layout.owned } ∧
      map'.index = modify Entry.key key (Entry.resized data.length) map.index ∧
      map'.opening = map.opening ∧ map'.keys.store.contents path = data ∧
      ∀ index ∈ Layout.data (Keyed.erase Layout.partKey key layout.owned),
        map'.keys.store.block index = map.keys.store.block index := by
  obtain ⟨path, isOwned, rfl⟩ := valid.exists_owned found
  obtain ⟨chain, nonempty⟩ := valid.owns _ isOwned
  set rest := Keyed.erase Layout.partKey entry.key layout.owned with restIs
  have split : layout.owned.Perm ((entry, path) :: rest) := valid.distinctOwned.perm_cons_erase isOwned
  set others := 0 :: Layout.data rest ++ map.keys.region layout.records with othersIs
  have whole : (layout.region map.keys).Perm (others ++ (path ++ map.keys.store.description :: layout.free)) :=
    Layout.perm_region map.keys split
  have placed := valid.placed.perm whole
  obtain ⟨store', path', free', written, isFree', description, chain', nonempty', contents', moves⟩ :=
    PlainWriter.write_moves positive data valid.isFree chain nonempty placed.right
  have kept : ∀ index ∈ others, store'.block index = map.keys.store.block index := fun index member =>
    moves.kept placed member
  set change : Entry Key × List Nat → Entry Key × List Nat := fun part => (part.1.resized data.length, path')
  have split' : (modify Layout.partKey entry.key change layout.owned).Perm
      (change (entry, path) :: rest) := valid.distinctOwned.perm_cons_modify isOwned fun _ => rfl
  set layout' : Layout Key :=
    ⟨free', layout.records, modify Layout.partKey entry.key change layout.owned⟩
  have whole' : (others ++ (path' ++ map.keys.store.description :: free')).Perm
      (layout'.region { map.keys with store := store' }) := by
    have regrouped := @Layout.perm_region _ { map.keys with store := store' } layout' _ _ split'
    rw [description] at regrouped
    exact regrouped.symm
  have moved := (moves.beside others placed).perm (.refl _) whole'
  have isOpen := valid.opened entry (mem_of_lookup found)
  set index' := modify Entry.key entry.key (Entry.resized data.length) map.index with indexIs
  have changed : map.write available entry.key data =
      .ok { map with keys := { map.keys with store := store' }, index := index' } := by
    have onlyEntry := @Keyed.Distinct.modify_congr _ _ _ _ _ _
      (fun entry' => { entry' with writer := { entry.writer with dataSize := data.length } })
      (Entry.resized data.length) valid.distinct (mem_of_lookup found) rfl
    rw [write, found, indexIs, ← onlyEntry]
    dsimp only
    rw [if_pos isOpen, written]
    rfl
  have sameLoaded : index'.map Entry.loaded = map.index.map Entry.loaded :=
    map_modify (fun _ => by rfl) _ _
  have sameKeys : index'.map Entry.key = map.index.map Entry.key := map_modify Entry.key_resized _ _
  refine ⟨_, path', free', changed, ⟨?_, isFree', ?_, moved.nodup, moved.inside, ?_, ?_, ?_, ?_, ?_⟩, rfl, rfl,
    contents', ?_⟩
  · rw [loadHead_congr (kept 0 (mem_append_left _ mem_cons_self)), valid.head, description]
  · exact valid.indexes.congr fun index member => kept index (mem_append_right _ member)
  · intro part member
    rcases mem_cons.mp (split'.mem_iff.mp member) with rfl | old
    · exact ⟨chain', nonempty'⟩
    · exact Owns.congr (fun other belongs => valid.owns other (mem_erase.mp belongs).1)
        (fun index inside => kept index (mem_append_left _ (mem_cons_of_mem _ inside))) part old
  · have same := valid.entries.map fun entry' =>
      if entry'.key = entry.key then entry'.resized data.length else entry'
    refine .trans (.of_eq ?_) same
    rw [Keyed.modify, map_map, map_map]
    apply map_congr_left
    intro part _
    exact apply_ite Prod.fst _ _ _
  · exact sameLoaded ▸ valid.loaded
  · exact (congrArg List.Nodup sameKeys).mpr valid.distinct
  · intro entry' member
    obtain ⟨old, isOld, rfl⟩ := mem_map.mp member
    have sameOpening : (if old.key = entry.key then old.resized data.length else old).writer.opening =
        old.writer.opening := by
      split_ifs <;> rfl
    rw [sameOpening]
    exact valid.opened old isOld
  · intro index inside
    exact kept index (mem_append_left _ (mem_cons_of_mem _ inside))

end Map

end UnixCommons.PlainStorage
