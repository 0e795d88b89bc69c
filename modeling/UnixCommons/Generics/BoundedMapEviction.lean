import UnixCommons.Generics.BoundedMapInvariant

/-!
# What BoundedMap evicts

The loop of an insertion erases nodes at the front of the queue while they are outdated,
and may find only then that it has to refuse: the nodes are gone all the same. Nothing is
assumed of the sizes.
-/

namespace UnixCommons.Generics

namespace BoundedMap

open Keyed Runs

variable {Key Data : Type} [DecidableEq Key]

/-! ## The loop of an insertion -/

/-- The nodes in front that the loop removed and those it kept, and whether it made enough
room. -/
structure Evicted (now : Int) (map : BoundedMap Key Data) (removed kept : List (Ordered Key))
    (fits : Bool) (after : BoundedMap Key Data) : Prop where
  split : map.queue = removed ++ kept
  outdated : ∀ node ∈ removed, node.lastUsed + map.timeout ≤ now
  refused : fits = false → ∀ node ∈ kept.head?, now < node.lastUsed + map.timeout
  container : after.container = eraseAll Item.key (removed.map Ordered.key) map.container
  queue : after.queue = kept
  size : removed = [] → after.size = map.size

/-- Nothing was removed. -/
theorem Evicted.none {now : Int} {map after : BoundedMap Key Data} {fits : Bool}
    (refused : fits = false → ∀ node ∈ map.queue.head?, now < node.lastUsed + map.timeout)
    (same : after = { map with stat := after.stat }) :
    Evicted now map [] map.queue fits after := by
  rw [same]
  exact ⟨rfl, nofun, refused, (eraseAll_nil _).symm, rfl, fun _ => rfl⟩

/-- What the loop does to a queue. -/
theorem evict_evicted (size : Nat) (now : Int) {queue : List (Ordered Key)}
    {map : BoundedMap Key Data} (whole : map.queue = queue) :
    ∃ removed kept,
      Evicted now map removed kept (evict size now queue map).1 (evict size now queue map).2 := by
  induction queue generalizing map with
  | nil =>
    refine ⟨[], map.queue, ?_⟩
    rw [evict]
    split_ifs
    · exact .none (by simp [whole]) rfl
    · exact .none (by simp) rfl
  | cons order rest ih =>
    rw [evict]
    split_ifs with full recent
    · refine ⟨[], map.queue, .none (fun _ => ?_) rfl⟩
      rw [whole]
      rintro node ⟨⟩
      exact recent
    · obtain ⟨removed, kept, later⟩ := @ih
        { map.count fun stat => { stat with removedOutdated := stat.removedOutdated + 1 } with
          size := subWord map.size (sizeOf order.key map.container)
          container := erase Item.key order.key map.container
          queue := rest } rfl
      have split : rest = removed ++ kept := later.split
      refine ⟨order :: removed, kept, ?_, ?_, later.refused, ?_, later.queue, by simp⟩
      · rw [whole, split, List.cons_append]
      · exact List.forall_mem_cons.mpr ⟨Int.not_lt.mp recent, later.outdated⟩
      · rw [later.container, List.map_cons, eraseAll_cons]
    · exact ⟨[], map.queue, .none (by simp) rfl⟩

section Insertion

variable {policy : Key → Data → Nat} {key : Key} {data : Data} {now : Int}
  {fault : Option InsertFault} {map : BoundedMap Key Data}

/-- An insertion of an element within the bound is refused by the loop. -/
theorem insert_refused (small : ¬ map.bound < policy key data)
    (refused : (map.insert_ policy key data now fault).1 = .notInserted) :
    ∃ removed kept, Evicted now map removed kept false (map.insert_ policy key data now fault).2 := by
  obtain ⟨removed, kept, evicted⟩ := @evict_evicted _ _ _ (policy key data) now _ map rfl
  rw [insert_, if_neg small] at refused ⊢
  cases made : evict (policy key data) now map.queue map with
  | mk fits after =>
    rw [made] at refused evicted
    cases fits with
    | false => exact ⟨removed, kept, evicted⟩
    | true =>
      cases fault with
      | none => cases refused
      | some fault => cases fault <;> cases refused

/-- A loop that gave up left the map as it was if it removed nothing. -/
theorem Evicted.unchanged_iff {removed kept : List (Ordered Key)}
    {after : BoundedMap Key Data} (evicted : Evicted now map removed kept false after) :
    (after.container = map.container ∧ after.queue = map.queue ∧ after.size = map.size) ↔
      ∀ node ∈ map.queue.head?, now < node.lastUsed + map.timeout := by
  have empty_iff : removed = [] ↔ after.queue = map.queue := by
    rw [evicted.queue, evicted.split]
    simp
  constructor
  · rintro ⟨-, queue, -⟩
    have empty := empty_iff.mpr queue
    have refused := evicted.refused rfl
    rw [evicted.split, empty]
    exact refused
  · intro recent
    have empty : removed = [] := by
      cases front : removed with
      | nil => rfl
      | cons node rest =>
        have outdated := evicted.outdated node (by simp [front])
        have used := recent node (by simp [evicted.split, front])
        omega
    have container := evicted.container
    rw [empty, List.map_nil, eraseAll_nil] at container
    exact ⟨container, empty_iff.mp empty, evicted.size empty⟩

/-- A refused insertion has not found its key. -/
theorem insert_of_refused (refused : (map.insert policy key data now fault).1 = .notInserted) :
    map.insert policy key data now fault = map.insert_ policy key data now fault := by
  unfold insert find_ at refused ⊢
  cases found : lookup Item.key key map.container with
  | none => rfl
  | some itor =>
    rw [found] at refused
    cases refused

end Insertion

/-- A refused insertion removes outdated nodes at the front of the queue, with their
elements, and nothing else. It leaves the elements, the queue and the size as they were
exactly if the new element is larger than the bound or the first node is not outdated. -/
theorem refused_unchanged_iff (policy : Key → Data → Nat) (key : Key) (data : Data) (now : Int)
    (fault : Option InsertFault) (map : BoundedMap Key Data)
    (refused : (map.insert policy key data now fault).1 = .notInserted) :
    (∃ removed kept, map.queue = removed ++ kept ∧
        (∀ node ∈ removed, node.lastUsed + map.timeout ≤ now) ∧
        (map.insert policy key data now fault).2.queue = kept ∧
        (map.insert policy key data now fault).2.container =
          eraseAll Item.key (removed.map Ordered.key) map.container) ∧
      (((map.insert policy key data now fault).2.container = map.container ∧
          (map.insert policy key data now fault).2.queue = map.queue ∧
          (map.insert policy key data now fault).2.size = map.size) ↔
        (map.bound < policy key data ∨
          ∀ node ∈ map.queue.head?, now < node.lastUsed + map.timeout)) := by
  have same := insert_of_refused refused
  rw [same] at refused ⊢
  by_cases large : map.bound < policy key data
  · -- an element larger than the bound is refused before the loop
    have unchanged : (map.insert_ policy key data now fault).2 =
        map.count fun stat => { stat with notInserted := stat.notInserted + 1 } := by
      rw [insert_, if_pos large]
    rw [unchanged]
    refine ⟨⟨[], map.queue, rfl, nofun, rfl, (eraseAll_nil _).symm⟩, ?_⟩
    exact ⟨fun _ => .inl large, fun _ => ⟨rfl, rfl, rfl⟩⟩
  · obtain ⟨removed, kept, evicted⟩ := insert_refused large refused
    refine ⟨⟨removed, kept, evicted.split, evicted.outdated, evicted.queue, evicted.container⟩, ?_⟩
    rw [evicted.unchanged_iff]
    exact ⟨.inr, fun either => either.resolve_left large⟩

/-- An outdated element and a recent one, in a map of two places. -/
def refusedMap : BoundedMap Nat Nat :=
  after MapOperation.step
    [.insert (fun _ _ => 1) 7 70 0 none, .insert (fun _ _ => 1) 8 80 9 none] (.new 2 5)

/-- The insertion is refused, and the first element is gone. -/
theorem refusal_evicts :
    (refusedMap.insert (fun _ _ => 2) 9 90 10 none).1 = .notInserted ∧
      refusedMap.container.map Item.key = [7, 8] ∧
      (refusedMap.insert (fun _ _ => 2) 9 90 10 none).2.container.map Item.key = [8] := by
  decide

theorem refused_unchanged_too_large :
    (refusedMap.insert (fun _ _ => 3) 9 90 10 none).2.queue = refusedMap.queue :=
  ((refused_unchanged_iff (fun _ _ => 3) 9 90 10 none refusedMap (by decide)).2.mpr
    (.inl (by decide))).2.1

end BoundedMap

end UnixCommons.Generics
