import Mathlib.Order.Interval.Finset.Nat
import UnixCommons.Library.MachineInteger

/-!
# Random selection

An element is selected with a chance that is its share of the sum of all weights. A number
is drawn between one and the sum. The elements are passed until the weights reach the
number.

The sums are computed in an integer type of the caller's choice. The random number is a
parameter here. By its contract it is any number of the range it is asked for. The generator
behind it gives 31 bits, so a range has at most `2 ^ 31` numbers that can all be drawn.
-/

namespace UnixCommons.Generics

open List Machine

variable {Element : Type}

/-- The first loop. -/
def cumulativeWeight (sumType : IntType) (weightFun : Element → Nat) (elements : List Element) : Int :=
  elements.foldl (fun sum element => sumType.wrap (sum + weightFun element)) 0

/-- The second loop, from a place on. The end has the number behind the last place. -/
def selectLoop (sumType : IntType) (weightFun : Element → Nat) (rndWeight : Int) :
    Int → Nat → List Element → Nat
  | _, it, [] => it
  | cumWeight, it, element :: rest =>
    if rndWeight ≤ sumType.wrap (cumWeight + weightFun element) then it
    else selectLoop sumType weightFun rndWeight (sumType.wrap (cumWeight + weightFun element)) (it + 1) rest

/-- The place that is selected, with a function for the random number of a range. The bounds
of the range have 32 bits. -/
def randomSelect (sumType : IntType) (safeRand : Int → Int → Nat) (weightFun : Element → Nat)
    (elements : List Element) : Nat :=
  let rndWeight := safeRand 1 (IntType.uint32.wrap (cumulativeWeight sumType weightFun elements))
  selectLoop sumType weightFun (sumType.wrap rndWeight) 0 0 elements

/-- The exact sum of weights. -/
def totalWeight (weightFun : Element → Nat) (elements : List Element) : Nat :=
  (elements.map weightFun).sum

variable {sumType : IntType} {weightFun : Element → Nat} {elements : List Element}

theorem totalWeight_cons (element : Element) (rest : List Element) :
    totalWeight weightFun (element :: rest) = weightFun element + totalWeight weightFun rest :=
  sum_cons

theorem totalWeight_append (front back : List Element) :
    totalWeight weightFun (front ++ back) = totalWeight weightFun front + totalWeight weightFun back := by
  rw [totalWeight, map_append, sum_append]
  rfl

/-- A sum that the type holds is not changed. -/
theorem wrap_add {sum weight : Nat} (fits : sum + weight < sumType.limit) :
    sumType.wrap (sum + weight) = (sum + weight : Nat) :=
  sumType.wrap_natCast fits

/-- A total that fits is summed up without wrapping. -/
theorem foldl_weights {sum : Nat} (fits : sum + totalWeight weightFun elements < sumType.limit) :
    elements.foldl (fun sum element => sumType.wrap (sum + weightFun element)) (sum : Int) =
      (sum + totalWeight weightFun elements : Nat) := by
  induction elements generalizing sum with
  | nil => rfl
  | cons element rest ih =>
    rw [totalWeight_cons] at fits ⊢
    rw [foldl_cons, wrap_add (by omega), ih (by omega), Nat.add_assoc]

/-- The loop stays within the elements. -/
theorem selectLoop_bounds {rndWeight cumWeight : Nat} (it : Nat)
    (fits : cumWeight + totalWeight weightFun elements < sumType.limit) :
    it ≤ selectLoop sumType weightFun rndWeight cumWeight it elements ∧
      (cumWeight < rndWeight → rndWeight ≤ cumWeight + totalWeight weightFun elements →
        selectLoop sumType weightFun rndWeight cumWeight it elements < it + elements.length) := by
  induction elements generalizing cumWeight it with
  | nil => exact ⟨Nat.le_refl it, fun above below => absurd above (Nat.not_lt.mpr below)⟩
  | cons element rest ih =>
    rw [totalWeight_cons] at fits ⊢
    rw [selectLoop, wrap_add (by omega), length_cons]
    obtain ⟨least, most⟩ := @ih (cumWeight + weightFun element) (it + 1) (by omega)
    split_ifs <;> omega

/-- A place is selected by the numbers between the weights before it and those up to it. -/
theorem selectLoop_eq_iff {rndWeight cumWeight : Nat} (it : Nat) {index : Nat}
    (inside : index < elements.length)
    (fits : cumWeight + totalWeight weightFun elements < sumType.limit)
    (above : cumWeight < rndWeight) :
    selectLoop sumType weightFun rndWeight cumWeight it elements = it + index ↔
      cumWeight + totalWeight weightFun (elements.take index) < rndWeight ∧
        rndWeight ≤ cumWeight + totalWeight weightFun (elements.take (index + 1)) := by
  induction elements generalizing cumWeight it index with
  | nil => exact absurd inside (Nat.not_lt_zero index)
  | cons element rest ih =>
    rw [totalWeight_cons] at fits
    have later := (@selectLoop_bounds _ sumType weightFun rest rndWeight
      (cumWeight + weightFun element) (it + 1) (by omega)).1
    rw [selectLoop, wrap_add (by omega), take_succ_cons, totalWeight_cons]
    cases index with
    | zero =>
      change _ ↔ cumWeight + 0 < rndWeight ∧ rndWeight ≤ cumWeight + (weightFun element + 0)
      split_ifs <;> omega
    | succ index =>
      rw [take_succ_cons, totalWeight_cons]
      split_ifs with here
      · omega
      · rw [show it + (index + 1) = it + 1 + index by omega,
          ih (it + 1) (Nat.lt_of_succ_lt_succ inside) (by omega) (by omega)]
        omega

/-- **Every element is selected by as many numbers as its weight.** The numbers are those of
the range that is asked for, and none of them leads to the end. -/
theorem random_select_counts (sumType : IntType) (weightFun : Element → Nat)
    (elements : List Element) (generated : totalWeight weightFun elements ≤ 2 ^ 31)
    (fits : totalWeight weightFun elements < sumType.limit) :
    IntType.uint32.wrap (cumulativeWeight sumType weightFun elements) =
        totalWeight weightFun elements ∧
      (∀ drawn ∈ Finset.Icc 1 (totalWeight weightFun elements),
        randomSelect sumType (fun _ _ => drawn) weightFun elements < elements.length) ∧
      ∀ index (inside : index < elements.length),
        ((Finset.Icc 1 (totalWeight weightFun elements)).filter fun drawn =>
          randomSelect sumType (fun _ _ => drawn) weightFun elements = index).card =
            weightFun elements[index] := by
  have start : 0 + totalWeight weightFun elements < sumType.limit := by rwa [Nat.zero_add]
  have selected : ∀ drawn ≤ totalWeight weightFun elements,
      randomSelect sumType (fun _ _ => drawn) weightFun elements =
        selectLoop sumType weightFun drawn (0 : Nat) 0 elements := by
    intro drawn below
    rw [randomSelect, sumType.wrap_natCast (by omega)]
    rfl
  refine ⟨?_, fun drawn range => ?_, fun index inside => ?_⟩
  · have total : cumulativeWeight sumType weightFun elements = _ := foldl_weights start
    have small : totalWeight weightFun elements < IntType.uint32.limit :=
      Nat.lt_of_le_of_lt generated (by decide)
    rw [total, Nat.zero_add, IntType.uint32.wrap_natCast small]
  · obtain ⟨above, below⟩ := Finset.mem_Icc.mp range
    have ends := (selectLoop_bounds 0 start).2 above (by rwa [Nat.zero_add])
    rwa [Nat.zero_add, ← selected drawn below] at ends
  · have upTo : totalWeight weightFun (elements.take (index + 1)) =
        totalWeight weightFun (elements.take index) + weightFun elements[index] := by
      rw [take_succ_eq_append_getElem inside, totalWeight_append]
      rfl
    have split := @totalWeight_append _ weightFun (elements.take (index + 1)) (elements.drop (index + 1))
    rw [take_append_drop] at split
    have selecting : ((Finset.Icc 1 (totalWeight weightFun elements)).filter fun drawn =>
        randomSelect sumType (fun _ _ => drawn) weightFun elements = index) =
        Finset.Ioc (totalWeight weightFun (elements.take index))
          (totalWeight weightFun (elements.take (index + 1))) := by
      ext drawn
      rw [Finset.mem_filter, Finset.mem_Icc, Finset.mem_Ioc]
      have place := @selectLoop_eq_iff _ sumType weightFun elements drawn 0 0 index inside start
      rw [Nat.zero_add, Nat.zero_add, Nat.zero_add] at place
      constructor
      · rintro ⟨⟨above, below⟩, found⟩
        exact (place above).mp (selected drawn below ▸ found)
      · rintro ⟨above, below⟩
        refine ⟨⟨by omega, by omega⟩, ?_⟩
        rw [selected drawn (by omega)]
        exact (place (by omega)).mpr ⟨above, below⟩
    rw [selecting, Nat.card_Ioc, upTo, Nat.add_sub_cancel_left]

/-- Four elements, two of them with no weight: the third is selected by five numbers of seven. -/
theorem random_select_third :
    ((Finset.Icc 1 7).filter fun drawn =>
      randomSelect .int32 (fun _ _ => drawn) id [2, 0, 5, 0] = 2).card = 5 :=
  (random_select_counts .int32 id [2, 0, 5, 0] (by decide) (by decide)).2.2 2 (by decide)

end UnixCommons.Generics
