import UnixCommons.CORBA.ObjectPoolAccounting

/-!
# The search for an object ends

`check_all_are_bad_or_busy_` leaves an object that is good and not busy, and nothing in
between takes it away, so the loop of `cycle_next` meets it within one round over the list.
The persistent policy begins the search at the remainder of its key.
-/

namespace UnixCommons.CORBACommons.ObjectPool

universe u

open List

variable {Object : Type u} {config : Config} {now : Int} {objects : List (ConnData Object)} {index result : Nat}

/-- The loop of `cycle_next`, for a number of rounds: nothing if it has not ended by then. -/
def cycleLoop (objects : List (ConnData Object)) : Nat → Nat → Option Nat
  | 0, _ => none
  | fuel + 1, index =>
    let next := if index + 1 = objects.length then 0 else index + 1
    if suitableAt objects next then some next else cycleLoop objects fuel next

theorem cycleLoop_eq_find (inside : index < objects.length) (fuel : Nat) :
    cycleLoop objects fuel index =
      ((range fuel).map fun distance => (index + 1 + distance) % objects.length).find? (suitableAt objects) := by
  induction fuel generalizing index with
  | zero => rfl
  | succ fuel ih =>
    have next : (if index + 1 = objects.length then 0 else index + 1) = (index + 1) % objects.length := by
      split_ifs with last
      · rw [last, Nat.mod_self]
      · rw [Nat.mod_eq_of_lt (by omega)]
    have bounded := Nat.mod_lt (index + 1) (Nat.zero_lt_of_lt inside)
    have shifted : (fun distance => (index + 1 + distance) % objects.length) ∘ Nat.succ =
        fun distance => ((index + 1) % objects.length + 1 + distance) % objects.length := by
      funext distance
      rw [Nat.add_assoc _ 1, Nat.mod_add_mod, Nat.add_comm 1 distance]
      rfl
    rw [cycleLoop, next, range_succ_eq_map, map_cons, map_map, shifted, ih bounded, find?_cons, Nat.add_zero]
    cases suitableAt objects ((index + 1) % objects.length) <;> rfl

theorem suitable_of_passed (passed : checkAllAreBadOrBusy objects = .ok ()) :
    objects.any ConnData.softSuitable = true := by
  unfold checkAllAreBadOrBusy at passed
  split_ifs at passed with suitable
  exact suitable

/-- Checks that pass leave a suitable object. -/
theorem suitable_of_checked {pool : List (ConnData Object)} (checked : check config now objects = (pool, .ok ())) :
    pool.any ConnData.softSuitable = true := by
  unfold check at checked
  split at checked
  · split at checked
    · rename_i passed
      obtain ⟨conn, inside, soft⟩ := any_eq_true.mp (suitable_of_passed passed)
      obtain ⟨good, -⟩ := (Bool.and_eq_true _ _).mp soft
      cases checked
      -- a good object stays as it is, the mark of a new one apart
      refine any_eq_true.mpr ⟨_, mem_map_of_mem inside, ?_⟩
      rw [ConnData.checkBadRef, if_neg (by simpa using good)]
      exact soft
    · obtain ⟨rfl, passed⟩ := Prod.mk.inj checked
      exact suitable_of_passed passed
    · simp at checked
  · obtain ⟨rfl, passed⟩ := Prod.mk.inj checked
    exact suitable_of_passed passed

/-- The object found in a circle is the nearest suitable one. -/
theorem checkAndCycleNext_nearest (found : checkAndCycleNext objects (index % objects.length) = some result) :
    ∃ distance, result = (index + distance) % objects.length ∧
      ∀ nearer < distance, suitableAt objects ((index + nearer) % objects.length) = false := by
  unfold checkAndCycleNext at found
  split_ifs at found with here
  · exact ⟨0, (Option.some.inj found).symm, fun _ nearer => absurd nearer (Nat.not_lt_zero _)⟩
  rw [cycleNext, find?_map] at found
  obtain ⟨distance, first, rfl⟩ := Option.map_eq_some_iff.mp found
  obtain ⟨-, -, before⟩ := find?_range_eq_some.mp first
  have place (distance : Nat) : (index % objects.length + 1 + distance) % objects.length =
      (index + (distance + 1)) % objects.length := by
    rw [Nat.add_assoc, Nat.mod_add_mod, Nat.add_comm 1]
  refine ⟨distance + 1, place distance, fun nearer less => ?_⟩
  cases nearer with
  | zero => simpa using here
  | succ nearer => simpa [place] using before nearer (Nat.lt_of_succ_lt_succ less)

/-- In a pool that passed the checks the search of every policy but the precise one ends with
an object that is good and not busy; for the persistent policy it is the nearest one. -/
theorem getValidObject_ends (config : Config) (now : Int) (objects pool : List (ConnData Object))
    (checked : check config now objects = (pool, .ok ())) (lastObject key random : Nat)
    (inCircle : config.policy ≠ .precise) :
    (∀ start < pool.length, ∃ rounds index, cycleLoop pool rounds start = some index ∧
      cycleNext pool start = some index) ∧
    ∃ index conn, getValidObject config.policy pool lastObject key random = .ok (some index) ∧
      pool[index]? = some conn ∧ conn.isBad = false ∧ conn.busy = false ∧
      (config.policy = .persistent → ∃ distance, index = (key + distance) % pool.length ∧
        ∀ nearer < distance, suitableAt pool ((key + nearer) % pool.length) = false) := by
  have suitable := suitable_of_checked checked
  have ends (start : Nat) : ∃ index, cycleNext pool start = some index :=
    Option.ne_none_iff_exists'.mp (cycleNext_ends suitable start)
  have around (start : Nat) : ∃ index, checkAndCycleNext pool start = some index := by
    unfold checkAndCycleNext
    split_ifs
    · exact ⟨start, rfl⟩
    · exact ends start
  refine ⟨fun start bounded => ?_, ?_⟩
  · obtain ⟨index, found⟩ := ends start
    exact ⟨pool.length, index, (cycleLoop_eq_find bounded _).trans found, found⟩
  obtain ⟨index, chosen⟩ : ∃ index, getValidObject config.policy pool lastObject key random = .ok (some index) := by
    cases policy : config.policy with
    | loop => simpa [getValidObject] using ends lastObject
    | rand => simpa [getValidObject] using around (random % pool.length)
    | persistent => simpa [getValidObject] using around (key % pool.length)
    | badSwitch =>
      unfold getValidObject
      dsimp only
      split_ifs
      · exact ⟨lastObject, rfl⟩
      · simpa using ends lastObject
    | precise => exact absurd policy inCircle
  have suits := (getValidObject_suitable chosen).resolve_right fun precise => inCircle precise.1
  obtain ⟨conn, there, soft⟩ := suitableAt_spec suits
  simp only [ConnData.softSuitable, Bool.and_eq_true, Bool.not_eq_true'] at soft
  refine ⟨index, conn, chosen, there, soft.1, soft.2, fun persistent => ?_⟩
  rw [persistent] at chosen
  exact checkAndCycleNext_nearest (Except.ok.inj chosen)

/-- The first object is busy. -/
def twoObjects : List (ConnData Nat) := [{ useMax := 1, useCount := 1 }, { useMax := 0 }]

theorem getValidObject_ends_of_two :
    ∃ index conn, getValidObject .persistent twoObjects 0 4 0 = .ok (some index) ∧
      twoObjects[index]? = some conn ∧ conn.isBad = false ∧ conn.busy = false :=
  have ⟨index, conn, chosen, there, good, free, _⟩ := (getValidObject_ends
    ⟨0, false, false, false, .persistent⟩ 0 twoObjects twoObjects rfl 0 4 0 (by decide)).2
  ⟨index, conn, chosen, there, good, free⟩

end UnixCommons.CORBACommons.ObjectPool
