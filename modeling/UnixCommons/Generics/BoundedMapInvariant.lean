import UnixCommons.Generics.BoundedMap
import UnixCommons.Library.Runs

/-!
# Invariants of BoundedMap

The elements of the map and the nodes of the queue point at each other: the pairs of
a key and a node identity are the same on both sides, in another order. The size of
the map is the sum of the sizes its elements are counted with. Every operation keeps
both, whatever the clock says and wherever an insertion throws, as long as the sums
fit into a machine word.

An insertion or an update never leaves a size above the bound unless it was there
before. So a map whose bound is never set below its size stays within its bound.
-/

namespace UnixCommons.Generics.BoundedMap

open Keyed Runs List

variable {Key Data : Type}

/-- The key of a node and its identity. -/
def nodeLink (node : Ordered Key) : Key × Nat := (node.key, node.id)

/-- The key of an element and the identity of its node. -/
def itemLink (itor : Item Key Data) : Key × Nat := (itor.key, itor.order)

/-- The elements have different keys, the nodes different identities, and the nodes
are those the elements hold handles on. -/
structure Linked (container : List (Item Key Data)) (queue : List (Ordered Key)) : Prop where
  keys : Distinct Item.key container
  orders : Distinct Ordered.id queue
  links : (queue.map nodeLink).Perm (container.map itemLink)

namespace Linked

variable {itor : Item Key Data} {node : Ordered Key}

variable {container : List (Item Key Data)} {queue : List (Ordered Key)}

theorem empty : Linked ([] : List (Item Key Data)) [] := ⟨nodup_nil, nodup_nil, List.Perm.nil⟩

/-- Every node of the queue has its item. -/
theorem item_of_node (linked : Linked container queue)
    (inside : node ∈ queue) : ∃ itor ∈ container, itemLink itor = nodeLink node :=
  mem_map.mp (linked.links.mem_iff.mp (mem_map_of_mem inside))

/-- The queue holds exactly the keys of the map, each once. -/
theorem keys_perm (linked : Linked container queue) :
    (queue.map Ordered.key).Perm (container.map Item.key) ∧ (queue.map Ordered.key).Nodup := by
  have projected := linked.links.map Prod.fst
  rw [map_map, map_map] at projected
  exact ⟨projected, projected.nodup_iff.mpr linked.keys⟩

/-- No two items have the same place in the queue. -/
theorem orders_distinct (linked : Linked container queue) : Distinct Item.order container := by
  have projected := linked.links.map Prod.snd
  rw [map_map, map_map] at projected
  exact projected.nodup_iff.mp linked.orders

variable (linked : Linked container queue)
include linked

/-- Another queue with the same links will do. -/
theorem of_queue_perm {other : List (Ordered Key)}
    (same : (other.map nodeLink).Perm (queue.map nodeLink)) : Linked container other := by
  refine ⟨linked.keys, ?_, same.trans linked.links⟩
  have projected := same.map Prod.snd
  rw [map_map, map_map] at projected
  exact projected.nodup_iff.mpr linked.orders

/-- Other elements with the same links will do. -/
theorem of_container_links {other : List (Item Key Data)}
    (same : other.map itemLink = container.map itemLink) : Linked other queue := by
  refine ⟨?_, linked.orders, ?_⟩
  · have projected := congrArg (List.map Prod.fst) same
    rw [map_map, map_map] at projected
    have keys := linked.keys
    unfold Distinct at keys ⊢
    exact projected ▸ keys
  · rw [same]
    exact linked.links

/-- A new element with a new node. -/
theorem insert (same : nodeLink node = itemLink itor) (newKey : itor.key ∉ container.map Item.key)
    (newOrder : node.id ∉ queue.map Ordered.id) :
    Linked (container ++ [itor]) (queue ++ [node]) := by
  refine ⟨?_, ?_, ?_⟩
  · rw [Distinct, map_append]
    exact nodup_append_comm.mp (nodup_cons.mpr ⟨newKey, linked.keys⟩)
  · rw [Distinct, map_append]
    exact nodup_append_comm.mp (nodup_cons.mpr ⟨newOrder, linked.orders⟩)
  · rw [map_append, map_append, map_singleton, same]
    exact linked.links.append_right _

variable [DecidableEq Key]

/-- An element and its node are erased together. -/
theorem discard (inside : itor ∈ container) :
    Linked (erase Item.key itor.key container) (erase Ordered.id itor.order queue) := by
  refine ⟨linked.keys.sublist erase_sublist, linked.orders.sublist erase_sublist, ?_⟩
  have nodeId : ∀ node : Ordered Key, (nodeLink node).2 = node.id := fun _ => rfl
  have itemOrder : ∀ itor : Item Key Data, (itemLink itor).2 = itor.order := fun _ => rfl
  rw [linked.keys.erase_eq_erase linked.orders_distinct inside, map_erase nodeId,
    map_erase itemOrder]
  exact linked.links.filter _

/-- The node of an element and the element are erased together. -/
theorem discard_node (inside : node ∈ queue) :
    Linked (erase Item.key node.key container) (erase Ordered.id node.id queue) := by
  obtain ⟨itor, itorInside, same⟩ := linked.item_of_node inside
  obtain ⟨sameKey, sameOrder⟩ := Prod.mk.inj same
  have discarded := linked.discard itorInside
  rw [sameKey, sameOrder] at discarded
  exact discarded

end Linked

/-- Moving a node to the back keeps the nodes. -/
theorem splice_perm {order : Nat} {queue : List (Ordered Key)} : (splice order queue).Perm queue := by
  have split := filter_append_perm (fun node => decide (node.id ≠ order)) queue
  have own : (queue.filter fun node => !decide (node.id ≠ order)) =
      queue.filter fun node => decide (node.id = order) := by
    simp
  rw [own] at split
  exact split

/-- The sizes the elements are counted with, together. -/
def total (container : List (Item Key Data)) : Nat := (container.map Item.size).sum

/-- Elements and nodes point at each other, every node is older than the next one to
be made, and the size of the map is the total of its elements. -/
structure Consistent (map : BoundedMap Key Data) : Prop where
  linked : Linked map.container map.queue
  older : ∀ itor ∈ map.container, itor.order < map.fresh
  counted : map.size = total map.container
  word : total map.container < 2 ^ 64

/-- A new map is consistent. -/
theorem new_consistent {bound : Nat} {timeout : Int} :
    (new bound timeout : BoundedMap Key Data).Consistent :=
  ⟨.empty, nofun, rfl, Nat.two_pow_pos 64⟩

variable {map after : BoundedMap Key Data} {size : Nat}

/-- The identity of the next node is new. -/
theorem Consistent.id_ne_fresh (consistent : map.Consistent) :
    ∀ node ∈ map.queue, node.id ≠ map.fresh := by
  intro node inside
  obtain ⟨itor, itorInside, same⟩ := consistent.linked.item_of_node inside
  have older := consistent.older itor itorInside
  have sameOrder : itor.order = node.id := (Prod.mk.inj same).2
  omega

/-- Storing a new element with a new node. -/
theorem Consistent.store (consistent : map.Consistent) {key : Key}
    (absent : ∀ itor ∈ map.container, itor.key ≠ key) (data : Data) (now : Int)
    (small : total map.container + size < 2 ^ 64) :
    Consistent
      { map with
        queue := map.queue ++ [⟨map.fresh, key, now⟩]
        fresh := map.fresh + 1
        container := map.container ++ [⟨key, data, size, map.fresh⟩]
        size := addWord map.size size } := by
  have grown : total (map.container ++ [⟨key, data, size, map.fresh⟩]) = total map.container + size := by
    rw [total, map_append, sum_append]
    rfl
  have newKey : key ∉ map.container.map Item.key := by
    intro inside
    obtain ⟨itor, itorInside, same⟩ := mem_map.mp inside
    exact absent itor itorInside same
  have newOrder : map.fresh ∉ map.queue.map Ordered.id := by
    intro inside
    obtain ⟨node, nodeInside, same⟩ := mem_map.mp inside
    exact consistent.id_ne_fresh node nodeInside same
  refine ⟨consistent.linked.insert rfl newKey newOrder, ?_, ?_, ?_⟩
  · intro itor inside
    rcases mem_append.mp inside with old | new
    · exact Nat.lt_succ_of_lt (consistent.older itor old)
    · rw [mem_singleton.mp new]
      exact Nat.lt_succ_self _
  · rw [grown, addWord_of_lt (by rw [consistent.counted]; exact small), consistent.counted]
  · rw [grown]
    exact small

/-- Taking the new node out of the queue again. -/
theorem Consistent.unqueue (consistent : map.Consistent) {key : Key} {now : Int} :
    Consistent
      { map with
        queue := erase Ordered.id map.fresh (map.queue ++ [⟨map.fresh, key, now⟩])
        fresh := map.fresh + 1 } := by
  have restored : erase Ordered.id map.fresh (map.queue ++ [⟨map.fresh, key, now⟩]) = map.queue := by
    rw [erase, filter_append, filter_cons_of_neg (by simp), filter_nil,
      append_nil]
    exact erase_of_forall_ne consistent.id_ne_fresh
  refine ⟨?_, ?_, consistent.counted, consistent.word⟩
  · rw [restored]
    exact consistent.linked
  · intro itor inside
    exact Nat.lt_succ_of_lt (consistent.older itor inside)

/-- The counters play no part. -/
theorem Consistent.count (consistent : map.Consistent) {change : BoundedMapStat → BoundedMapStat} :
    (map.count change).Consistent :=
  { consistent with }

/-- A consistent map that holds some of the elements of another one. -/
structure Shrinks (map after : BoundedMap Key Data) : Prop where
  consistent : after.Consistent
  container : after.container.Sublist map.container
  bound : after.bound = map.bound
  size : after.size ≤ map.size

namespace Shrinks

variable {last : BoundedMap Key Data}

theorem refl (consistent : map.Consistent) : Shrinks map map :=
  ⟨consistent, List.Sublist.refl _, rfl, le_refl _⟩

theorem trans (first : Shrinks map after) (second : Shrinks after last) : Shrinks map last :=
  ⟨second.consistent, second.container.trans first.container, second.bound.trans first.bound,
    le_trans second.size first.size⟩

theorem count (shrinks : Shrinks map after) (change : BoundedMapStat → BoundedMapStat) :
    Shrinks map (after.count change) :=
  { shrinks with consistent := shrinks.consistent.count }

end Shrinks

theorem clear_shrinks : Shrinks map map.clear :=
  ⟨⟨.empty, nofun, rfl, Nat.two_pow_pos 64⟩, nil_sublist _, rfl, Nat.zero_le _⟩

/-- What insertions and updates promise: the map stays consistent, and its size does
not exceed the bound unless it did before. -/
structure Keeps (map after : BoundedMap Key Data) : Prop where
  consistent : after.Consistent
  bound : after.bound = map.bound
  size : after.size ≤ map.bound ∨ after.size ≤ map.size

/-- A map that only shrinks stays consistent. -/
theorem Shrinks.keeps (shrinks : Shrinks map after) :
    Keeps map after :=
  ⟨shrinks.consistent, shrinks.bound, Or.inr shrinks.size⟩

theorem Keeps.count (keeps : Keeps map after) (change : BoundedMapStat → BoundedMapStat) :
    Keeps map (after.count change) :=
  { keeps with consistent := keeps.consistent.count }

/-- What is kept from a map of the same size and bound is kept. -/
theorem Keeps.from_same {used : BoundedMap Key Data} (keeps : Keeps used after)
    (size : used.size = map.size) (bound : used.bound = map.bound) : Keeps map after := by
  have either := keeps.size
  rw [size, bound] at either
  exact ⟨keeps.consistent, keeps.bound.trans bound, either⟩

variable [DecidableEq Key] {container : List (Item Key Data)}

/-- The size of a key that is there. -/
theorem sizeOf_mem (distinct : Distinct Item.key container)
    (inside : itor ∈ container) : sizeOf itor.key container = itor.size := by
  have found := distinct.lookup_eq_some.mpr ⟨inside, rfl⟩
  rw [sizeOf, found]

/-- Removing an item takes its size off the total. -/
theorem total_erase (distinct : Distinct Item.key container)
    (inside : itor ∈ container) :
    total container = itor.size + total (erase Item.key itor.key container) :=
  distinct.sum_erase inside Item.size

/-- A lookup changes the order of the queue only. -/
theorem find_spec (consistent : map.Consistent) {key : Key} {now : Int} :
    (map.find_ key now).1 = lookup Item.key key map.container ∧
      (map.find_ key now).2.Consistent ∧
      (map.find_ key now).2.container = map.container ∧
      (map.find_ key now).2.size = map.size ∧ (map.find_ key now).2.bound = map.bound := by
  unfold find_
  cases lookup Item.key key map.container with
  | none => exact ⟨rfl, consistent, rfl, rfl, rfl⟩
  | some itor =>
    refine ⟨rfl, { consistent with linked := ?_ }, rfl, rfl, rfl⟩
    apply consistent.linked.of_queue_perm
    have used : ∀ node : Ordered Key, nodeLink { node with lastUsed := now } = nodeLink node :=
      fun _ => rfl
    rw [← map_modify used itor.order map.queue]
    exact splice_perm.map nodeLink

variable {itor : Item Key Data}

/-- Erasing an element with its node takes its size away. -/
theorem Consistent.discard (consistent : map.Consistent) (inside : itor ∈ map.container) :
    (map.discard itor).Consistent ∧ (map.discard itor).size ≤ map.size := by
  have split := total_erase consistent.linked.keys inside
  have word := consistent.word
  have counted := consistent.counted
  have size : (map.discard itor).size = total (erase Item.key itor.key map.container) := by
    change subWord map.size itor.size = _
    rw [subWord_of_le (by omega) (by omega)]
    omega
  refine ⟨⟨consistent.linked.discard inside, ?_, size, ?_⟩, by omega⟩
  · intro other otherInside
    exact consistent.older other (mem_erase.mp otherInside).1
  · change total (erase Item.key itor.key map.container) < 2 ^ 64
    omega

variable {rest queue passed : List (Ordered Key)}

/-- Erasing the first node of the queue with its element. -/
theorem discard_front_shrinks (consistent : map.Consistent) {order : Ordered Key}
    (whole : map.queue = order :: rest) :
    Shrinks map
      { map with
        size := subWord map.size (sizeOf order.key map.container)
        container := erase Item.key order.key map.container
        queue := rest } := by
  have inside : order ∈ map.queue := by
    rw [whole]
    exact mem_cons_self
  obtain ⟨itor, itorInside, same⟩ := consistent.linked.item_of_node inside
  obtain ⟨sameKey, sameOrder⟩ := Prod.mk.inj same
  have orders := consistent.linked.orders
  rw [whole] at orders
  have counted : sizeOf order.key map.container = itor.size := by
    rw [← sameKey]
    exact sizeOf_mem consistent.linked.keys itorInside
  have remaining : erase Ordered.id itor.order map.queue = rest := by
    rw [sameOrder, whole]
    exact orders.erase_head
  obtain ⟨kept, less⟩ := consistent.discard itorInside
  rw [BoundedMap.discard, remaining, ← counted, sameKey] at kept less
  exact ⟨kept, erase_sublist, rfl, less⟩

variable {own newSize : Nat}

/-- Making room erases elements only, and succeeds only if the new size fits. -/
theorem evict_spec {now : Int} (consistent : map.Consistent) (whole : map.queue = queue)
    (small : map.size + size < 2 ^ 64) :
    Shrinks map (evict size now queue map).2 ∧
      ((evict size now queue map).1 = true →
        (evict size now queue map).2.size + size ≤ map.bound) := by
  induction queue generalizing map with
  | nil =>
    have sum := addWord_of_lt small
    rw [evict]
    split_ifs with full
    · dsimp only
      exact ⟨(Shrinks.refl consistent).count _, nofun⟩
    · refine ⟨Shrinks.refl consistent, fun _ => ?_⟩
      dsimp only
      omega
  | cons order rest ih =>
    have sum := addWord_of_lt small
    rw [evict]
    split_ifs with full recent
    · dsimp only
      exact ⟨(Shrinks.refl consistent).count _, nofun⟩
    · have start : Shrinks map (map.count fun stat =>
          { stat with removedOutdated := stat.removedOutdated + 1 }) :=
        (Shrinks.refl consistent).count _
      have front := start.trans (discard_front_shrinks start.consistent whole)
      obtain ⟨later, fits⟩ := ih front.consistent rfl (by have := front.size; omega)
      exact ⟨front.trans later, fits⟩
    · refine ⟨Shrinks.refl consistent, fun _ => ?_⟩
      dsimp only
      omega

variable {policy : Key → Data → Nat} {data : Data}

/-- Insertion of an element whose key is absent, wherever it may throw. -/
theorem insert_keeps {key : Key} {now : Int} {fault : Option InsertFault}
    (consistent : map.Consistent) (absent : lookup Item.key key map.container = none)
    (small : total map.container + policy key data < 2 ^ 64) :
    Keeps map (map.insert_ policy key data now fault).2 := by
  have sum : map.size + policy key data < 2 ^ 64 := by
    rw [consistent.counted]
    exact small
  obtain ⟨shrinks, fits⟩ := @evict_spec _ _ _ _ _ _ now consistent rfl sum
  unfold insert_
  dsimp only
  split_ifs with large
  · dsimp only
    exact (Shrinks.refl consistent).keeps.count _
  · cases room : evict (policy key data) now map.queue map with
    | mk success evicted =>
      rw [room] at shrinks fits
      have less := shrinks.size
      have counted := shrinks.consistent.counted
      dsimp only at shrinks fits less counted
      cases success with
      | false => exact shrinks.keeps
      | true =>
        have fit := fits rfl
        cases fault with
        | none =>
          have stored := shrinks.consistent.store (fun itor inside =>
            lookup_eq_none.mp absent itor (shrinks.container.subset inside)) data now
            (show total evicted.container + policy key data < 2 ^ 64 by omega)
          dsimp only
          refine ⟨stored.count, shrinks.bound, Or.inl ?_⟩
          rw [addWord_of_lt (by omega)]
          exact fit
        | some fault =>
          cases fault with
          | order => exact shrinks.keeps
          | item =>
            exact ⟨shrinks.consistent.unqueue, shrinks.bound, .inr shrinks.size⟩

/-- The sizes of the elements of some nodes, but for one node. -/
def passedSize (own : Nat) (container : List (Item Key Data)) (nodes : List (Ordered Key)) : Nat :=
  ((erase Ordered.id own nodes).map fun node => sizeOf node.key container).sum

theorem passedSize_own (same : node.id = own) (rest : List (Ordered Key)) :
    passedSize own container (node :: rest) = passedSize own container rest := by
  rw [passedSize, erase, filter_cons_of_neg (by simp [same])]
  rfl

/-- A passed node of another item counts with its size. -/
theorem passedSize_other (different : node.id ≠ own) (rest : List (Ordered Key)) :
    passedSize own container (node :: rest) =
      sizeOf node.key container + passedSize own container rest := by
  rw [passedSize, erase, filter_cons_of_pos (by simp [different])]
  rfl

/-- An element and the elements of the other nodes are all there are. -/
theorem Linked.total_eq (linked : Linked container queue) (inside : itor ∈ container) :
    total container = itor.size + passedSize itor.order container queue := by
  obtain ⟨node, nodeInside, same⟩ :=
    mem_map.mp (linked.links.mem_iff.mpr (mem_map_of_mem inside))
  obtain ⟨sameKey, sameOrder⟩ := Prod.mk.inj same
  have counted : total container = (queue.map fun node => sizeOf node.key container).sum := by
    have sizes := (linked.keys_perm.1.map fun key => sizeOf key container).sum_eq
    rw [map_map, map_map] at sizes
    have own : container.map ((fun key => sizeOf key container) ∘ Item.key) =
        container.map Item.size :=
      map_congr_left fun each => sizeOf_mem linked.keys
    rw [own] at sizes
    exact sizes.symm
  have split := linked.orders.sum_erase nodeInside fun node => sizeOf node.key container
  rw [sameKey, sizeOf_mem linked.keys inside, sameOrder] at split
  rw [counted, split]
  rfl

/-- A scan that succeeds passes the first nodes of the queue, and what their elements
leave fits. -/
theorem scan_spec {now : Int} {last : Nat} (enough : passedSize own map.container queue ≤ newSize)
    (word : newSize < 2 ^ 64) (found : map.scan own now queue newSize = some (passed, last)) :
    passed <+: queue ∧ last ≤ map.bound ∧ last + passedSize own map.container passed = newSize := by
  induction queue generalizing newSize passed with
  | nil =>
    rw [scan] at found
    split at found
    · cases found
    · next fits =>
      cases found
      exact ⟨List.nil_prefix, Nat.not_lt.mp fits, rfl⟩
  | cons order rest ih =>
    rw [scan] at found
    split at found
    · split at found
      · cases found
      · obtain ⟨⟨tail, final⟩, scanned, pair⟩ := Option.map_eq_some_iff.mp found
        cases pair
        split at scanned
        · next same =>
          rw [passedSize_own same] at enough ⊢
          obtain ⟨isInitial, fits, sum⟩ := ih enough word scanned
          exact ⟨cons_prefix_cons.mpr ⟨rfl, isInitial⟩, fits, sum⟩
        · next different =>
          rw [passedSize_other different] at enough ⊢
          rw [subWord_of_le word (by omega)] at scanned
          obtain ⟨isInitial, fits, sum⟩ := ih (by omega) (by omega) scanned
          exact ⟨cons_prefix_cons.mpr ⟨rfl, isInitial⟩, fits, by omega⟩
    · next fits =>
      cases found
      exact ⟨List.nil_prefix, Nat.not_lt.mp fits, rfl⟩

/-- Removing another key changes no size. -/
theorem sizeOf_erase (distinct : Distinct Item.key container)
    {key other : Key} (different : key ≠ other) :
    sizeOf key (erase Item.key other container) = sizeOf key container := by
  have kept : Distinct Item.key (erase Item.key other container) :=
    distinct.sublist erase_sublist
  cases found : lookup Item.key key container with
  | none =>
    have absent : lookup Item.key key (erase Item.key other container) = none := by
      rw [lookup_eq_none] at found ⊢
      intro itor inside
      exact found itor (mem_erase.mp inside).1
    rw [sizeOf, sizeOf, found, absent]
  | some itor =>
    obtain ⟨inside, rfl⟩ := distinct.lookup_eq_some.mp found
    rw [sizeOf_mem distinct inside]
    exact sizeOf_mem kept (mem_erase.mpr ⟨inside, different⟩)

/-- What the nodes passed leave behind. The size of the map is not looked at. -/
structure Passed (own : Nat) (passed : List (Ordered Key)) (map after : BoundedMap Key Data) :
    Prop where
  linked : Linked after.container after.queue
  sum : total after.container + passedSize own map.container passed = total map.container
  container : after.container.Sublist map.container
  kept : ∀ itor ∈ map.container, itor.order = own → itor ∈ after.container
  bound : after.bound = map.bound
  fresh : after.fresh = map.fresh

/-- Erasing one node, which is not the element's own, and its element. -/
theorem Linked.drop_node (linked : Linked container queue) (inside : node ∈ queue)
    (different : node.id ≠ own) :
    total container = sizeOf node.key container + total (erase Item.key node.key container) ∧
      ∀ itor ∈ container, itor.order = own → itor ∈ erase Item.key node.key container := by
  obtain ⟨dropped, droppedInside, same⟩ := linked.item_of_node inside
  obtain ⟨sameKey, sameOrder⟩ := Prod.mk.inj same
  rw [← sameKey, sizeOf_mem linked.keys droppedInside]
  refine ⟨total_erase linked.keys droppedInside, fun itor itorInside sameOwn => ?_⟩
  refine mem_erase.mpr ⟨itorInside, fun equal => ?_⟩
  have identical := linked.keys.eq_of_key itorInside droppedInside equal
  rw [identical, sameOrder] at sameOwn
  exact different sameOwn

/-- Other nodes are found as before when one node is erased with its element. -/
theorem Linked.passedSize_erase (linked : Linked container queue) (inside : node ∈ queue)
    (others : ∀ other ∈ rest, other ∈ queue ∧ other.id ≠ node.id) :
    passedSize own (erase Item.key node.key container) rest = passedSize own container rest := by
  have same : (erase Ordered.id own rest).map (fun other =>
      sizeOf other.key (erase Item.key node.key container)) =
      (erase Ordered.id own rest).map fun other => sizeOf other.key container := by
    apply map_congr_left
    intro other otherInside
    obtain ⟨otherQueued, different⟩ := others other (mem_erase.mp otherInside).1
    apply sizeOf_erase linked.keys
    intro equal
    have keys : Distinct Ordered.key queue := linked.keys_perm.2
    exact different (congrArg Ordered.id (keys.eq_of_key otherQueued inside equal))
  rw [passedSize, passedSize, same]

/-- What the loop over the passed nodes removes. -/
theorem removePassed_spec (linked : Linked map.container map.queue)
    (distinct : Distinct Ordered.id passed) (inside : ∀ node ∈ passed, node ∈ map.queue) :
    Passed own passed map (removePassed own passed map) := by
  induction passed generalizing map with
  | nil => exact ⟨linked, rfl, List.Sublist.refl _, fun _ itorInside _ => itorInside, rfl, rfl⟩
  | cons node rest ih =>
    obtain ⟨nodeInside, restInside⟩ := forall_mem_cons.mp inside
    have tail : Distinct Ordered.id rest := distinct.sublist (sublist_cons_self node rest)
    rw [removePassed]
    split_ifs with same
    · obtain ⟨kept, sum, container, own', bound, fresh⟩ := ih linked tail restInside
      refine ⟨kept, ?_, container, own', bound, fresh⟩
      rw [passedSize_own same]
      exact sum
    · have others : ∀ other ∈ rest, other ∈ map.queue ∧ other.id ≠ node.id := by
        intro other otherInside
        refine ⟨restInside other otherInside, fun equal => ?_⟩
        have fresh : node.id ∉ rest.map Ordered.id := (nodup_cons.mp distinct).1
        exact fresh (equal ▸ mem_map_of_mem otherInside)
      obtain ⟨split, own'⟩ := linked.drop_node nodeInside same
      have next := @ih
        { map.count fun stat => { stat with removedOutdated := stat.removedOutdated + 1 } with
          container := erase Item.key node.key map.container
          queue := erase Ordered.id node.id map.queue }
        (linked.discard_node nodeInside) tail
        (fun other otherInside => mem_erase.mpr (others other otherInside))
      have sum := next.sum
      rw [linked.passedSize_erase nodeInside others] at sum
      refine ⟨next.linked, ?_, next.container.trans erase_sublist, ?_, next.bound, next.fresh⟩
      · rw [passedSize_other same, split, ← sum]
        dsimp only
        omega
      · intro itor itorInside sameOwn
        exact next.kept itor (own' itor itorInside sameOwn) sameOwn

/-- Counting an element with a new size. -/
theorem resize_consistent (linked : Linked map.container map.queue)
    (older : ∀ itor ∈ map.container, itor.order < map.fresh) (inside : itor ∈ map.container)
    (sum : newSize + itor.size = total map.container + size) (word : newSize < 2 ^ 64) :
    (map.resize itor.key size newSize).Consistent := by
  have sameLink : ∀ itor : Item Key Data, itemLink { itor with size := size } = itemLink itor :=
    fun _ => rfl
  have sameKey : ∀ itor : Item Key Data, ({ itor with size := size } : Item Key Data).key = itor.key :=
    fun _ => rfl
  have relinked : Linked
      (modify Item.key itor.key (fun each => { each with size := size }) map.container) map.queue :=
    linked.of_container_links (map_modify sameLink itor.key map.container)
  have split := total_erase linked.keys inside
  have changed := total_erase relinked.keys (mem_modify_of_mem inside rfl)
  rw [erase_modify sameKey] at changed
  have counted : newSize = total (map.resize itor.key size newSize).container := by
    change newSize = total (modify _ _ _ _)
    rw [changed]
    dsimp only
    omega
  refine ⟨relinked, ?_, counted, counted ▸ word⟩
  intro other otherInside
  obtain ⟨original, originalInside, rfl⟩ := mem_map.mp otherInside
  have before := older original originalInside
  split_ifs <;> exact before

/-- Taking over a new size of an element. -/
theorem update_keeps {now : Int} (consistent : map.Consistent) (inside : itor ∈ map.container)
    (small : total map.container - itor.size + policy itor.key itor.data < 2 ^ 64) :
    Keeps map (map.update_ policy itor now).2 := by
  have split := consistent.linked.total_eq inside
  have newSize : subWord (addWord map.size (policy itor.key itor.data)) itor.size =
      total map.container - itor.size + policy itor.key itor.data := by
    rw [consistent.counted]
    -- The intermediate sum may wrap.
    unfold subWord addWord
    omega
  have removed : Keeps map (map.removeUpdated itor) := by
    obtain ⟨kept, less⟩ := consistent.count.discard inside
    exact ⟨kept, rfl, Or.inr less⟩
  rw [update_, newSize]
  split_ifs with fits large
  · refine ⟨?_, rfl, Or.inl fits⟩
    exact resize_consistent consistent.linked consistent.older inside (by omega) small
  · exact removed
  · cases scanned : map.scan itor.order now map.queue
        (total map.container - itor.size + policy itor.key itor.data) with
    | none => exact removed
    | some pair =>
      obtain ⟨isInitial, within, sum⟩ := scan_spec (by omega) small scanned
      have rest := @removePassed_spec _ _ _ _ _ itor.order consistent.linked
        (consistent.linked.orders.sublist isInitial.sublist) (fun node nodePassed => isInitial.subset nodePassed)
      have total := rest.sum
      refine ⟨?_, rest.bound, Or.inl within⟩
      apply resize_consistent rest.linked _ (rest.kept itor inside rfl) (by omega) (by omega)
      intro other otherInside
      rw [rest.fresh]
      exact consistent.older other (rest.container.subset otherInside)

/-- Assigning new data to an element changes neither links nor sizes. -/
theorem Consistent.assign (consistent : map.Consistent) (key : Key) (data : Data) :
    (map.assign key data).Consistent := by
  have sameLink : ∀ itor : Item Key Data, itemLink { itor with data := data } = itemLink itor :=
    fun _ => rfl
  have sameSize : ∀ itor : Item Key Data, Item.size { itor with data := data } = itor.size :=
    fun _ => rfl
  have sizes : (modify Item.key key (fun itor => { itor with data := data }) map.container).map
      Item.size = map.container.map Item.size := map_modify sameSize key map.container
  refine ⟨consistent.linked.of_container_links (map_modify sameLink key map.container), ?_, ?_, ?_⟩
  · intro other otherInside
    obtain ⟨original, originalInside, rfl⟩ := mem_map.mp otherInside
    have before := consistent.older original originalInside
    split_ifs <;> exact before
  · change map.size = List.sum (List.map Item.size (modify _ _ _ _))
    rw [sizes]
    exact consistent.counted
  · change List.sum (List.map Item.size (modify _ _ _ _)) < 2 ^ 64
    rw [sizes]
    exact consistent.word

/-- Taking over the size of an element that was assigned new data. -/
theorem Consistent.update_assigned {now : Int} (consistent : map.Consistent)
    (inside : itor ∈ map.container)
    (small : total map.container - itor.size + policy itor.key data < 2 ^ 64) :
    Keeps (map.assign itor.key data)
      ((map.assign itor.key data).update_ policy { itor with data := data } now).2 := by
  have assigned := consistent.assign itor.key data
  have sameTotal : total (map.assign itor.key data).container = total map.container := by
    rw [← consistent.counted, ← assigned.counted]
    rfl
  have present : { itor with data := data } ∈ (map.assign itor.key data).container :=
    mem_modify_of_mem inside rfl
  apply update_keeps assigned present
  rw [sameTotal]
  exact small

/-- Erasing an element by its key. -/
theorem eraseKey_shrinks (consistent : map.Consistent) {key : Key} :
    Shrinks map (map.eraseKey key) := by
  unfold eraseKey
  cases found : lookup Item.key key map.container with
  | none => exact Shrinks.refl consistent
  | some itor =>
    obtain ⟨kept, less⟩ := consistent.discard (mem_of_lookup found)
    exact ⟨kept, erase_sublist, rfl, less⟩

/-- The sizes of the other elements and the size the policy gives to one with a key
fit into a machine word together. -/
def Fits (policy : Key → Data → Nat) (key : Key) (data : Data) (map : BoundedMap Key Data) : Prop :=
  total (erase Item.key key map.container) + policy key data < 2 ^ 64
  deriving Decidable

/-- The room that is needed for a new key. -/
theorem Fits.of_absent {key : Key} (fits : Fits policy key data map)
    (absent : lookup Item.key key map.container = none) :
    total map.container + policy key data < 2 ^ 64 := by
  rw [Fits, erase_of_forall_ne (lookup_eq_none.mp absent)] at fits
  exact fits

/-- The room that is needed in place of the old data. -/
theorem Fits.of_present (fits : Fits policy itor.key data map) (consistent : map.Consistent)
    (inside : itor ∈ map.container) :
    total map.container - itor.size + policy itor.key data < 2 ^ 64 := by
  have split := total_erase consistent.linked.keys inside
  unfold Fits at fits
  omega

end UnixCommons.Generics.BoundedMap

namespace UnixCommons.Generics

open Keyed Runs BoundedMap

/-- The operations on a map. The clock is read, and the size policy asked, as an
operation starts. -/
inductive MapOperation (Key Data : Type) where
  | insert (policy : Key → Data → Nat) (key : Key) (data : Data) (now : Int)
      (fault : Option InsertFault)
  | find (key : Key) (now : Int)
  | update (policy : Key → Data → Nat) (key : Key) (now : Int)
  | insertOrUpdate (policy : Key → Data → Nat) (key : Key) (data : Data) (now : Int)
      (fault : Option InsertFault)
  | erase (key : Key)
  | clear
  | bound (newBound : Nat)
  | timeout (newTimeout : Int)
  | statistics (reset : Bool)

namespace MapOperation

variable {Key Data : Type} [DecidableEq Key]

/-- One call on the map. -/
def step : MapOperation Key Data → BoundedMap Key Data → BoundedMap Key Data
  | insert policy key data now fault, map => (map.insert policy key data now fault).2
  | find key now, map => map.find key now
  | update policy key now, map => map.update policy key now
  | insertOrUpdate policy key data now fault, map => map.insertOrUpdate policy key data now fault
  | erase key, map => map.eraseKey key
  | clear, map => map.clear
  | bound newBound, map => map.setBound newBound
  | timeout newTimeout, map => map.setTimeout newTimeout
  | statistics reset, map => (map.statistics reset).2

/-- The sums of the sizes stay below the range of a machine word. -/
def Admitted : MapOperation Key Data → BoundedMap Key Data → Prop
  | insert policy key data _ _, map =>
    lookup Item.key key map.container = none → Fits policy key data map
  | update policy key _, map =>
    ∀ itor, lookup Item.key key map.container = some itor → Fits policy key itor.data map
  | insertOrUpdate policy key data _ _, map => Fits policy key data map
  | _, _ => True

/-- The bound is not set below the size. -/
def KeepsBound : MapOperation Key Data → BoundedMap Key Data → Prop
  | bound newBound, map => map.size ≤ newBound
  | _, _ => True

section Calls

variable {policy : Key → Data → Nat} {key : Key} {data : Data} {now : Int}
  {fault : Option InsertFault} {map : BoundedMap Key Data}

/-- An insertion that fits keeps the map consistent. -/
theorem insert_call (consistent : map.Consistent)
    (admitted : lookup Item.key key map.container = none → Fits policy key data map) :
    Keeps map (map.insert policy key data now fault).2 := by
  obtain ⟨result, found, container, size, bound⟩ := find_spec consistent
  unfold BoundedMap.insert
  cases searched : map.find_ key now with
  | mk itor used =>
    rw [searched] at result found container size bound
    cases itor with
    | some itor =>
      dsimp only
      exact ((Shrinks.refl found).keeps.count _).from_same size bound
    | none =>
      have small := (admitted result.symm).of_absent result.symm
      rw [← container] at result small
      exact (insert_keeps found result.symm small).from_same size bound

/-- An update that fits keeps the map consistent. -/
theorem update_call (consistent : map.Consistent)
    (admitted : ∀ itor, lookup Item.key key map.container = some itor →
      Fits policy key itor.data map) :
    Keeps map (map.update policy key now) := by
  unfold BoundedMap.update
  split
  · exact (Shrinks.refl consistent).keeps
  · next itor found =>
    obtain ⟨inside, rfl⟩ := consistent.linked.keys.lookup_eq_some.mp found
    exact update_keeps consistent inside ((admitted itor found).of_present consistent inside)

/-- An insertion or update that fits keeps the map consistent. -/
theorem insertOrUpdate_call (consistent : map.Consistent) (admitted : Fits policy key data map) :
    Keeps map (map.insertOrUpdate policy key data now fault) := by
  obtain ⟨result, found, container, size, bound⟩ := find_spec consistent
  unfold BoundedMap.insertOrUpdate
  cases searched : map.find_ key now with
  | mk itor used =>
    rw [searched] at result found container size bound
    cases itor with
    | none =>
      have small := admitted.of_absent result.symm
      rw [← container] at result small
      exact (insert_keeps found result.symm small).from_same size bound
    | some itor =>
      cases fault with
      | some fault => exact (Shrinks.refl found).keeps.from_same size bound
      | none =>
        obtain ⟨inside, rfl⟩ := consistent.linked.keys.lookup_eq_some.mp result.symm
        have small := admitted.of_present consistent inside
        rw [← container] at inside small
        have updated := @Consistent.update_assigned _ _ used _ itor policy data now found inside small
        dsimp only
        cases step : (used.assign itor.key data).update_ policy { itor with data := data } now with
        | mk success last =>
          rw [step] at updated
          cases success with
          | true => exact (updated.count _).from_same size bound
          | false => exact updated.from_same size bound

end Calls

/-- An operation keeps a map consistent; only `bound` changes the bound, and the size
does not exceed the bound unless it did before. -/
theorem step_spec (operation : MapOperation Key Data) {map : BoundedMap Key Data}
    (consistent : map.Consistent) (admitted : operation.Admitted map) :
    (operation.step map).Consistent ∧
      ((operation.step map).size ≤ map.bound ∨ (operation.step map).size ≤ map.size) ∧
      (operation.KeepsBound map → map.size ≤ map.bound →
        (operation.step map).size ≤ (operation.step map).bound) := by
  have of_keeps : ∀ after, Keeps map after → after.Consistent ∧
      (after.size ≤ map.bound ∨ after.size ≤ map.size) ∧
      (operation.KeepsBound map → map.size ≤ map.bound → after.size ≤ after.bound) := by
    intro after keeps
    refine ⟨keeps.consistent, keeps.size, fun _ within => ?_⟩
    rw [keeps.bound]
    exact keeps.size.elim id fun less => le_trans less within
  cases operation with
  | insert policy key data now fault => exact of_keeps _ (insert_call consistent admitted)
  | find key now =>
    obtain ⟨_, found, _, size, bound⟩ := find_spec consistent
    exact of_keeps _ ((Shrinks.refl found).keeps.from_same size bound)
  | update policy key now => exact of_keeps _ (update_call consistent admitted)
  | insertOrUpdate policy key data now fault =>
    exact of_keeps _ (insertOrUpdate_call consistent admitted)
  | erase key => exact of_keeps _ (eraseKey_shrinks consistent).keeps
  | clear => exact of_keeps _ clear_shrinks.keeps
  | bound newBound =>
    exact ⟨{ consistent with }, .inr (le_refl _), fun kept _ => kept⟩
  | timeout newTimeout =>
    exact of_keeps _ ⟨{ consistent with }, rfl, .inr (le_refl _)⟩
  | statistics reset =>
    refine of_keeps _ ?_
    cases reset with
    | false => exact (Shrinks.refl consistent).keeps
    | true => exact (Shrinks.refl consistent).keeps.count fun _ => ⟨0, 0, 0, 0, 0, 0⟩

end MapOperation

section Reached

variable {Key Data : Type} [DecidableEq Key]

/-- The map after a run on a new one. -/
def reachedMap (bound : Nat) (timeout : Int) (operations : List (MapOperation Key Data)) :
    BoundedMap Key Data :=
  after MapOperation.step operations (.new bound timeout)

/-- After every run whose sums fit into a machine word, the queue holds exactly the
keys of the map, each once, and the size is the sum of the sizes counted. No further
operation takes the size above both the bound and what it was; and if the bound was
never set below the size, the size is within the bound. -/
theorem runs_bounded (bound : Nat) (timeout : Int) (operations : List (MapOperation Key Data))
    (admitted : Along MapOperation.step MapOperation.Admitted operations (.new bound timeout)) :
    let map := reachedMap bound timeout operations
    ((map.queue.map Ordered.key).Perm (map.container.map Item.key) ∧
        (map.queue.map Ordered.key).Nodup) ∧
      map.size = (map.container.map Item.size).sum ∧
      (∀ operation : MapOperation Key Data, operation.Admitted map →
        (operation.step map).size ≤ map.bound ∨ (operation.step map).size ≤ map.size) ∧
      (Along MapOperation.step MapOperation.KeepsBound operations (.new bound timeout) →
        map.size ≤ map.bound) := by
  have consistent : (reachedMap bound timeout operations).Consistent := by
    refine admitted.invariant (fun operation map kept fits => ?_) new_consistent
    exact (operation.step_spec kept fits).1
  refine ⟨consistent.linked.keys_perm, consistent.counted, ?_, ?_⟩
  · intro operation fits
    exact (operation.step_spec consistent fits).2.1
  · intro kept
    have start : (new bound timeout : BoundedMap Key Data).Consistent ∧ 0 ≤ bound :=
      ⟨new_consistent, Nat.zero_le bound⟩
    have steps : ∀ (operation : MapOperation Key Data) (map : BoundedMap Key Data),
        map.Consistent ∧ map.size ≤ map.bound → operation.Admitted map ∧ operation.KeepsBound map →
          (operation.step map).Consistent ∧ (operation.step map).size ≤ (operation.step map).bound := by
      rintro operation map ⟨holds, within⟩ ⟨fits, keeps⟩
      obtain ⟨next, _, still⟩ := operation.step_spec holds fits
      exact ⟨next, still keeps within⟩
    exact ((admitted.and kept).invariant steps start).2

end Reached

/-- Three insertions into a map of two places, the last one after the timeout. -/
def replacement : List (MapOperation Nat Nat) :=
  [.insert (fun _ _ => 1) 7 70 10 none, .insert (fun _ _ => 1) 8 80 11 none,
    .insert (fun _ _ => 1) 9 90 20 none]

theorem replacement_bounded :
    Along MapOperation.step MapOperation.Admitted replacement (.new 2 5) ∧
      (reachedMap 2 5 replacement).size =
        ((reachedMap 2 5 replacement).container.map Item.size).sum ∧
      (reachedMap 2 5 replacement).queue.map Ordered.key = [8, 9] := by
  have admitted : Along MapOperation.step MapOperation.Admitted replacement (.new 2 5) :=
    ⟨fun _ => by decide, fun _ => by decide, fun _ => by decide, trivial⟩
  exact ⟨admitted, (runs_bounded 2 5 replacement admitted).2.1, by decide⟩

end UnixCommons.Generics
