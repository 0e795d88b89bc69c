import UnixCommons.Library.Keyed

/-!
# BoundedMap

A map of limited total size with a queue of its keys in the order of their last
use. Every element of the map holds the size it was counted with and a handle on
its node of the queue; every node holds the key and the time of the last use. The
handles are the nodes' identities, numbered as the nodes are made, so that a node
is moved, compared and erased by its identity as through a list iterator.

An insertion that does not fit erases the nodes at the front of the queue, with
their elements, while these have not been used for the timeout; it gives up at the
first that has. An update of an element that does not fit first scans the queue for
enough such nodes, passing over the element's own, and erases them only then;
otherwise the element itself is erased.

The size policy may look at what the data refer to, so its answers are given with
every call. The sizes are counted in machine words. Whatever may throw inside an
insertion is a fault given with the call.
-/

namespace UnixCommons.Generics

open Keyed

/-- Addition of machine words. -/
def addWord (left right : Nat) : Nat := (left + right) % 2 ^ 64

/-- Subtraction of machine words. -/
def subWord (left right : Nat) : Nat := (((left : Int) - right) % 2 ^ 64).toNat

theorem addWord_of_lt {left right : Nat} (small : left + right < 2 ^ 64) :
    addWord left right = left + right :=
  Nat.mod_eq_of_lt small

theorem subWord_of_le {left right : Nat} (small : left < 2 ^ 64) (ordered : right ≤ left) :
    subWord left right = left - right := by
  unfold subWord
  omega

/-- Counters of what insertions and updates did. -/
structure BoundedMapStat where
  insertedNew : Int
  insertExisting : Int
  removedOutdated : Int
  removedUpdated : Int
  notInserted : Int
  replaced : Int
deriving DecidableEq

/-- A node of the queue, with its identity. -/
structure Ordered (Key : Type) where
  id : Nat
  key : Key
  lastUsed : Int
deriving DecidableEq

/-- An element of the map: its key, its data, the size it is counted with and the
identity of its node. -/
structure Item (Key Data : Type) where
  key : Key
  data : Data
  size : Nat
  order : Nat
deriving DecidableEq

/-- The map with its bound, its queue and its statistics. -/
structure BoundedMap (Key Data : Type) where
  bound : Nat
  timeout : Int
  container : List (Item Key Data)
  queue : List (Ordered Key)
  size : Nat
  stat : BoundedMapStat
  /-- The identity of the next node. -/
  fresh : Nat
deriving DecidableEq

/-- Where an insertion may throw: at the node of the queue, or at the element. -/
inductive InsertFault where
  | order
  | item
deriving DecidableEq

/-- How an insertion ends. -/
inductive Inserted where
  | existing
  | inserted
  | notInserted
  | thrown
deriving DecidableEq

namespace BoundedMap

variable {Key Data : Type} [DecidableEq Key]

def new (bound : Nat) (timeout : Int) : BoundedMap Key Data :=
  ⟨bound, timeout, [], [], 0, ⟨0, 0, 0, 0, 0, 0⟩, 0⟩

/-- Changing the counters. -/
def count (change : BoundedMapStat → BoundedMapStat) (map : BoundedMap Key Data) :
    BoundedMap Key Data :=
  { map with stat := change map.stat }

/-- Moving a node to the end of the queue. -/
def splice (order : Nat) (queue : List (Ordered Key)) : List (Ordered Key) :=
  erase Ordered.id order queue ++ queue.filter fun node => decide (node.id = order)

/-- The element with a key. Its node is marked as used now and moved to the end. -/
def find_ (key : Key) (now : Int) (map : BoundedMap Key Data) :
    Option (Item Key Data) × BoundedMap Key Data :=
  match lookup Item.key key map.container with
  | none => (none, map)
  | some itor =>
    let used := modify Ordered.id itor.order (fun node => { node with lastUsed := now }) map.queue
    (some itor, { map with queue := splice itor.order used })

/-- The size an element is counted with. The source asserts that it is there. -/
def sizeOf (key : Key) (container : List (Item Key Data)) : Nat :=
  match lookup Item.key key container with
  | none => 0
  | some itor => itor.size

/-- The loop of an insertion over the front of the queue, which makes room for
`size`. The list argument is the queue of the map. -/
def evict (size : Nat) (now : Int) : List (Ordered Key) → BoundedMap Key Data →
    Bool × BoundedMap Key Data
  | [], map =>
    if map.bound < addWord map.size size then
      (false, map.count fun stat => { stat with notInserted := stat.notInserted + 1 })
    else (true, map)
  | order :: rest, map =>
    if map.bound < addWord map.size size then
      if now < order.lastUsed + map.timeout then
        (false, map.count fun stat => { stat with notInserted := stat.notInserted + 1 })
      else
        let counted :=
          map.count fun stat => { stat with removedOutdated := stat.removedOutdated + 1 }
        evict size now rest
          { counted with
            size := subWord map.size (sizeOf order.key map.container)
            container := erase Item.key order.key map.container
            queue := rest }
    else (true, map)

/-- Insertion of an element whose key is absent. -/
def insert_ (policy : Key → Data → Nat) (key : Key) (data : Data) (now : Int)
    (fault : Option InsertFault) (map : BoundedMap Key Data) : Inserted × BoundedMap Key Data :=
  let size := policy key data
  if map.bound < size then
    (.notInserted, map.count fun stat => { stat with notInserted := stat.notInserted + 1 })
  else
    match evict size now map.queue map with
    | (false, map) => (.notInserted, map)
    | (true, map) =>
      match fault with
      | some .order => (.thrown, map)
      | fault =>
        let order := map.fresh
        let queued : BoundedMap Key Data :=
          { map with queue := map.queue ++ [⟨order, key, now⟩], fresh := map.fresh + 1 }
        match fault with
        | some _ => (.thrown, { queued with queue := erase Ordered.id order queued.queue })
        | none =>
          let stored : BoundedMap Key Data :=
            { queued with
              container := queued.container ++ [⟨key, data, size, order⟩]
              size := addWord queued.size size }
          (.inserted, stored.count fun stat => { stat with insertedNew := stat.insertedNew + 1 })

/-- Insertion of a pair; an element with the key is only marked as used. -/
def insert (policy : Key → Data → Nat) (key : Key) (data : Data) (now : Int)
    (fault : Option InsertFault) (map : BoundedMap Key Data) : Inserted × BoundedMap Key Data :=
  match find_ key now map with
  | (some _, map) =>
    (.existing, map.count fun stat => { stat with insertExisting := stat.insertExisting + 1 })
  | (none, map) => insert_ policy key data now fault map

/-- Erasing an element and its node. -/
def discard (itor : Item Key Data) (map : BoundedMap Key Data) : BoundedMap Key Data :=
  { map with
    size := subWord map.size itor.size
    queue := erase Ordered.id itor.order map.queue
    container := erase Item.key itor.key map.container }

/-- An updated element that does not fit is erased. -/
def removeUpdated (itor : Item Key Data) (map : BoundedMap Key Data) : BoundedMap Key Data :=
  (map.count fun stat => { stat with removedUpdated := stat.removedUpdated + 1 }).discard itor

/-- The scan of an update: the nodes passed until the rest fits, and the total size
then. It fails at the end of the queue and at a node used within the timeout. -/
def scan (map : BoundedMap Key Data) (own : Nat) (now : Int) :
    List (Ordered Key) → Nat → Option (List (Ordered Key) × Nat)
  | [], newSize => if map.bound < newSize then none else some ([], newSize)
  | order :: rest, newSize =>
    if map.bound < newSize then
      if now < order.lastUsed + map.timeout then none
      else
        let remaining :=
          if order.id = own then newSize else subWord newSize (sizeOf order.key map.container)
        (scan map own now rest remaining).map fun (passed, total) => (order :: passed, total)
    else some ([], newSize)

/-- Erasing the nodes passed, but for the element's own, with their elements. -/
def removePassed (own : Nat) : List (Ordered Key) → BoundedMap Key Data → BoundedMap Key Data
  | [], map => map
  | remove :: rest, map =>
    if remove.id = own then removePassed own rest map
    else
      let counted :=
        map.count fun stat => { stat with removedOutdated := stat.removedOutdated + 1 }
      removePassed own rest
        { counted with
          container := erase Item.key remove.key map.container
          queue := erase Ordered.id remove.id map.queue }

/-- Counting an element with a new size. -/
def resize (key : Key) (size newSize : Nat) (map : BoundedMap Key Data) : BoundedMap Key Data :=
  { map with
    container := modify Item.key key (fun itor => { itor with size := size }) map.container
    size := newSize }

/-- Taking over the size the policy now gives to an element. -/
def update_ (policy : Key → Data → Nat) (itor : Item Key Data) (now : Int)
    (map : BoundedMap Key Data) : Bool × BoundedMap Key Data :=
  let size := policy itor.key itor.data
  let newSize := subWord (addWord map.size size) itor.size
  if newSize ≤ map.bound then (true, map.resize itor.key size newSize)
  else if map.bound < size then (false, map.removeUpdated itor)
  else
    match map.scan itor.order now map.queue newSize with
    | none => (false, map.removeUpdated itor)
    | some (passed, newSize) =>
      (true, (removePassed itor.order passed map).resize itor.key size newSize)

/-- `update`. -/
def update (policy : Key → Data → Nat) (key : Key) (now : Int) (map : BoundedMap Key Data) :
    BoundedMap Key Data :=
  match lookup Item.key key map.container with
  | none => map
  | some itor => (map.update_ policy itor now).2

/-- Assigning new data to an element. -/
def assign (key : Key) (data : Data) (map : BoundedMap Key Data) : BoundedMap Key Data :=
  { map with
    container := modify Item.key key (fun itor => { itor with data := data }) map.container }

/-- Replacing the data of an element, or inserting it. The assignment of the data may
throw. -/
def insertOrUpdate (policy : Key → Data → Nat) (key : Key) (data : Data) (now : Int)
    (fault : Option InsertFault) (map : BoundedMap Key Data) : BoundedMap Key Data :=
  match find_ key now map with
  | (some itor, map) =>
    match fault with
    | some _ => map
    | none =>
      match (map.assign key data).update_ policy { itor with data := data } now with
      | (true, map) => map.count fun stat => { stat with replaced := stat.replaced + 1 }
      | (false, map) => map
  | (none, map) => (insert_ policy key data now fault map).2

def find (key : Key) (now : Int) (map : BoundedMap Key Data) : BoundedMap Key Data :=
  (find_ key now map).2

/-- `erase` of a key. -/
def eraseKey (key : Key) (map : BoundedMap Key Data) : BoundedMap Key Data :=
  match lookup Item.key key map.container with
  | none => map
  | some itor => map.discard itor

def clear (map : BoundedMap Key Data) : BoundedMap Key Data :=
  { map with size := 0, container := [], queue := [] }

def setBound (newBound : Nat) (map : BoundedMap Key Data) : BoundedMap Key Data :=
  { map with bound := newBound }

def setTimeout (newTimeout : Int) (map : BoundedMap Key Data) : BoundedMap Key Data :=
  { map with timeout := newTimeout }

/-- The counters may be set back when they are read. -/
def statistics (reset : Bool) (map : BoundedMap Key Data) : BoundedMapStat × BoundedMap Key Data :=
  (map.stat, if reset then { map with stat := ⟨0, 0, 0, 0, 0, 0⟩ } else map)

end BoundedMap

end UnixCommons.Generics
