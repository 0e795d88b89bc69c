import UnixCommons.Library.Intervals

/-!
# CompressedSet

A set of integers kept as a map from the low bound of each stored interval to its
high bound. The map is ordered by its keys, so it is modelled as the list of its
elements in that order, and a map iterator as the place where the list is split.

Adding an interval places it, or widens the element it meets, and then swallows
the elements that follow; removing one walks over the elements and trims, splits
or erases them. Neighbours are computed by a successor that stays at the largest
integer. `belongs` keeps the last element it found and looks there first.

The representation is a separated list of intervals: every operation keeps it so,
and the values covered are those of the same unions and differences of sets. Two
removals are exceptions. The largest integer, stored as an interval of its own,
is not reached by the removal loop; and a set is not removed from itself.
-/

namespace UnixCommons.Generics

open Intervals List

/-- The range of a bounded integer type. -/
structure Bounds where
  least : Int
  greatest : Int
  ordered : least ≤ greatest

namespace Bounds

variable {bounds : Bounds}

/-- The values of a bounded integer type. -/
def Value (bounds : Bounds) : Type :=
  { value : Int // bounds.least ≤ value ∧ value ≤ bounds.greatest }

/-- The largest value. -/
def top (bounds : Bounds) : bounds.Value := ⟨bounds.greatest, bounds.ordered, le_refl _⟩

/-- The successor, or the largest value itself. -/
def safeNext (bounds : Bounds) (number : Int) : Int :=
  if number < bounds.greatest then number + 1 else number

end Bounds

/-- The elements of the map, in the order of their keys. -/
abbrev Holder := List Interval

namespace Holder

/-- The start element: the last one whose key is at most `low`, or the first one
if there is none. The elements before it, and those from it on. -/
def findStart (low : Int) (holder : Holder) : Holder × Holder :=
  if (onward low holder).head?.map Interval.first ≠ some low ∧ below low holder ≠ [] then
    ((below low holder).dropLast, (below low holder).getLast?.toList ++ onward low holder)
  else (below low holder, onward low holder)

/-- Inserting a new element or modifying the start element: the elements before
the one that now holds `low`, that element, and the elements after it. -/
def place (bounds : Bounds) (low high : Int) (holder : Holder) : Holder × Interval × Holder :=
  match findStart low holder with
  | (_, []) => (below low holder, ⟨low, high⟩, onward low holder)
  | (front, itor :: following) =>
    if low < itor.first ∨ bounds.safeNext itor.second < low then
      (below low holder, ⟨low, high⟩, onward low holder)
    else (front, ⟨itor.first, if itor.second < high then high else itor.second⟩, following)

/-- Removing overlapped: the loop over the elements after `base`. -/
def removeOverlapped (high highNext : Int) (base : Interval) : Holder → Interval × Holder
  | [] => (base, [])
  | itor :: following =>
    if itor.first ≤ highNext then
      if high < itor.second then (⟨base.first, itor.second⟩, following)
      else removeOverlapped high highNext base following
    else (base, itor :: following)

/-- `add` of an interval, on the map. -/
def add (bounds : Bounds) (low high : Int) (holder : Holder) : Holder :=
  if high < low then holder
  else
    let (front, base, following) := place bounds low high holder
    let (base, following) := removeOverlapped high (bounds.safeNext high) base following
    front ++ base :: following

/-- The loop of `remove` from the start element on. After an element is trimmed
at its end the loop meets it once more and steps over it; after it is split the
loop also meets its upper part, which starts at `highNext`, and ends. -/
def removeLoop (low high highNext : Int) : Holder → Holder
  | [] => []
  | itor :: following =>
    if itor.first < highNext then
      if low ≤ itor.first then
        if itor.second ≤ high then removeLoop low high highNext following
        else ⟨highNext, itor.second⟩ :: following
      else if itor.second < low then itor :: removeLoop low high highNext following
      else if itor.second ≤ high then
        ⟨itor.first, low - 1⟩ :: removeLoop low high highNext following
      else ⟨itor.first, low - 1⟩ :: ⟨highNext, itor.second⟩ :: following
    else itor :: following

/-- `remove` of an interval, on the map. -/
def remove (bounds : Bounds) (low high : Int) (holder : Holder) : Holder :=
  if high < low then holder
  else
    let (front, onward) := findStart low holder
    front ++ removeLoop low high (bounds.safeNext high) onward

end Holder

/-- The map and the element found last. -/
structure CompressedSet where
  holder : Holder
  lastFound : Option Interval
deriving DecidableEq

/-- What part of an interval is in the set. -/
inductive CheckStatus where
  | none
  | all
  | some
deriving DecidableEq

namespace CompressedSet

def empty : CompressedSet := ⟨[], none⟩

/-- An empty interval changes nothing; otherwise the cached element is forgotten. -/
def add (bounds : Bounds) (low high : Int) (set : CompressedSet) : CompressedSet :=
  if high < low then set else ⟨set.holder.add bounds low high, none⟩

def addValue (bounds : Bounds) (value : Int) (set : CompressedSet) : CompressedSet :=
  set.add bounds value value

/-- `add` of the elements of another set. -/
def addSet (bounds : Bounds) (elements : Holder) (set : CompressedSet) : CompressedSet :=
  elements.foldl (fun set itor => set.add bounds itor.first itor.second) set

/-- The removal of an interval; the last interval found is forgotten. -/
def remove (bounds : Bounds) (low high : Int) (set : CompressedSet) : CompressedSet :=
  if high < low then set else ⟨set.holder.remove bounds low high, none⟩

def removeValue (bounds : Bounds) (value : Int) (set : CompressedSet) : CompressedSet :=
  set.remove bounds value value

/-- `remove` of the elements of another set. -/
def removeSet (bounds : Bounds) (elements : Holder) (set : CompressedSet) : CompressedSet :=
  elements.foldl (fun set itor => set.remove bounds itor.first itor.second) set

def clear (_set : CompressedSet) : CompressedSet := ⟨[], none⟩

/-- Whether the element found last holds the value. -/
def cached (value : Int) (set : CompressedSet) : Bool :=
  match set.lastFound with
  | none => false
  | some itor => decide (itor.first ≤ value) && decide (value ≤ itor.second)

/-- Membership, with the element found remembered. -/
def belongs (value : Int) (set : CompressedSet) : Bool × CompressedSet :=
  if set.cached value then (true, set)
  else
    let lowerBound := (onward value set.holder).head?
    if lowerBound.map Interval.first = some value then (true, { set with lastFound := lowerBound })
    else
      match (below value set.holder).getLast? with
      | none => (false, { set with lastFound := lowerBound })
      | some itor => (decide (value ≤ itor.second), { set with lastFound := some itor })

/-- What part of an interval is in the set, by one search. -/
def checkPresence (low high : Int) (set : CompressedSet) : CheckStatus :=
  if high < low then .none
  else
    match (onward low set.holder).head?, (below low set.holder).getLast? with
    | some itor, last =>
      if itor.first = low then if high ≤ itor.second then .all else .some
      else if itor.first ≤ high then .some
      else checkLast last
    | none, last => checkLast last
where
  /-- The decision by the element before the place searched for. -/
  checkLast : Option Interval → CheckStatus
    | none => .none
    | some itor =>
      if itor.second < low then .none else if high ≤ itor.second then .all else .some

end CompressedSet

namespace Holder

/-- Where the start element stands: it holds the last key up to `low`, or all keys
are beyond `low`. -/
inductive Started (low : Int) (holder : Holder) : Prop
  | at (front : Holder) (itor : Interval) (following : Holder)
      (whole : holder = front ++ itor :: following)
      (found : findStart low holder = (front, itor :: following))
      (start : itor.first ≤ low) (later : ∀ each ∈ following, low < each.first)
      (split : itor.first < low → below low holder = front ++ [itor] ∧ onward low holder = following)
  | first (found : findStart low holder = ([], holder))
      (split : below low holder = [] ∧ onward low holder = holder)
      (later : ∀ each ∈ holder, low < each.first)

variable {holder : Holder}

/-- In separated intervals the start element is found. -/
theorem started (separated : Separated holder) {low : Int} :
    Started low holder := by
  cases separated.searched with
  | found front itor following whole split start later =>
    refine .at front itor following whole ?_ start.le later ?_
    · rw [findStart, if_neg, split.1, split.2]
      rintro ⟨missing, _⟩
      rw [split.2] at missing
      exact missing (congrArg some start)
    · intro less
      exact absurd start less.ne
  | between front itor following whole split start later =>
    refine .at front itor following whole ?_ start.le later (fun _ => split)
    rw [findStart, if_pos]
    · rw [split.1, split.2, dropLast_concat, List.getLast?_concat]
      rfl
    · rw [split.1, split.2]
      exact ⟨head_first_ne later, by simp⟩
  | ahead split later =>
    refine .first ?_ split later
    rw [findStart, if_neg, split.1, split.2]
    rintro ⟨_, some⟩
    exact some split.1

/-- The elements of a holder are separated and hold values of the type only. -/
structure Valid (bounds : Bounds) (holder : Holder) : Prop where
  separated : Separated holder
  within : ∀ value, Covers holder value → bounds.least ≤ value ∧ value ≤ bounds.greatest

theorem valid_nil {bounds : Bounds} : Valid bounds [] :=
  ⟨separated_nil, fun _ covered => absurd covered covers_nil⟩

variable {itor : Interval}

/-- No interval goes beyond the greatest value. -/
theorem Valid.second_le (valid : holder.Valid bounds) (inside : itor ∈ holder) :
    itor.second ≤ bounds.greatest :=
  (valid.within itor.second ⟨itor, inside, valid.separated.proper itor inside, le_refl _⟩).2

/-- No interval begins below the least value. -/
theorem Valid.least_le (valid : holder.Valid bounds) (inside : itor ∈ holder) :
    bounds.least ≤ itor.first :=
  (valid.within itor.first ⟨itor, inside, le_refl _, valid.separated.proper itor inside⟩).1

/-- The element that holds `low` once it is placed: it is clear of the elements
before it, and either it ends at `high` or it is clear of those after it too. -/
structure Placed (low high : Int) (holder front : Holder) (base : Interval)
    (following : Holder) : Prop where
  frontSeparated : Separated front
  followingSeparated : Separated following
  ahead : ∀ earlier ∈ front, earlier.Precedes base
  start : base.first ≤ low
  reach : high ≤ base.second
  later : ∀ each ∈ following, low < each.first
  widened : base.second = high ∨ ∀ each ∈ following, base.Precedes each
  contents : ∀ value, Covers (front ++ base :: following) value ↔
    Covers holder value ∨ (low ≤ value ∧ value ≤ high)
  subset : ∀ each ∈ following, each ∈ holder

variable {low high : Int} {front following : Holder}

/-- A new element goes between the elements with smaller and larger keys. -/
theorem placed_new (separated : Separated (front ++ following))
    (ended : ∀ each ∈ front, each.second + 1 < low) (later : ∀ each ∈ following, low < each.first) :
    Placed low high (front ++ following) front ⟨low, high⟩ following := by
  obtain ⟨left, right, _⟩ := separated_append.mp separated
  refine ⟨left, right, ended, le_refl _, le_refl _, later, Or.inl rfl, ?_, ?_⟩
  · intro value
    simp only [covers_append, covers_cons, Interval.Contains]
    exact iff_of_eq (by ac_rfl)
  · intro each inside
    exact mem_append_right front inside

variable {low : Int}

/-- An element that `low` meets is widened up to `high`. -/
theorem placed_widened (separated : Separated (front ++ itor :: following))
    (start : itor.first ≤ low) (later : ∀ each ∈ following, low < each.first)
    (meets : low ≤ itor.second + 1) :
    Placed low high (front ++ itor :: following) front
      ⟨itor.first, if itor.second < high then high else itor.second⟩ following := by
  obtain ⟨left, tail, _⟩ := separated_append.mp separated
  obtain ⟨proper, _, right⟩ := separated_cons.mp tail
  have ahead : ∀ earlier ∈ front, earlier.Precedes itor := separated.front_precedes rfl
  refine ⟨left, right, ahead, start, ?_, later, ?_, ?_, ?_⟩
  · dsimp only
    split <;> omega
  · by_cases short : itor.second < high
    · exact Or.inl (if_pos short)
    · rw [if_neg short]
      exact Or.inr (separated.precedes_following rfl)
  · intro value
    simp only [covers_append, covers_cons, Interval.Contains]
    have widened : itor.first ≤ value ∧ value ≤ (if itor.second < high then high else itor.second) ↔
        (itor.first ≤ value ∧ value ≤ itor.second) ∨ (low ≤ value ∧ value ≤ high) := by
      split <;> omega
    rw [widened]
    exact iff_of_eq (by ac_rfl)
  · intro each inside
    exact mem_append_right front (mem_cons_of_mem itor inside)

/-- What an addition places. -/
theorem place_placed (valid : holder.Valid bounds) (ordered : low ≤ high)
    (bounded : high ≤ bounds.greatest) :
    Placed low high holder (place bounds low high holder).1 (place bounds low high holder).2.1
      (place bounds low high holder).2.2 := by
  cases started valid.separated with
  | first found split later =>
    have new : place bounds low high holder = ([], ⟨low, high⟩, holder) := by
      rw [place, found, split.1, split.2]
      cases holder with
      | nil => rfl
      | cons itor following => exact if_pos (Or.inl (later itor mem_cons_self))
    rw [new]
    exact @placed_new low high [] holder valid.separated nofun later
  | «at» front itor following whole found start later split =>
    rw [place, found]
    dsimp only
    by_cases clear : bounds.safeNext itor.second < low
    · have proper : itor.first ≤ itor.second := by
        apply valid.separated.proper
        rw [whole]
        exact mem_append_right front mem_cons_self
      have next : itor.second + 1 < low ∧ itor.first < low := by
        unfold Bounds.safeNext at clear
        split at clear <;> omega
      obtain ⟨before, after⟩ := split next.2
      rw [if_pos (Or.inr clear), before, after]
      have regrouped : holder = (front ++ [itor]) ++ following := by
        rw [whole, append_assoc]
        rfl
      have ended : ∀ each ∈ front ++ [itor], each.second + 1 < low := by
        intro each inside
        rcases mem_append.mp inside with earlier | last
        · have far : each.second + 1 < itor.first :=
            valid.separated.front_precedes whole each earlier
          omega
        · rw [mem_singleton.mp last]
          exact next.1
      have separated := valid.separated
      rw [regrouped] at separated ⊢
      exact placed_new separated ended later
    · have meets : low ≤ itor.second + 1 := by
        unfold Bounds.safeNext at clear
        split at clear <;> omega
      have separated := valid.separated
      rw [if_neg (not_or.mpr ⟨not_lt.mpr start, clear⟩)]
      rw [whole] at separated ⊢
      exact placed_widened separated start later meets

/-- The element swallows those that start up to the successor of `high`, and with
the last of them what lies beyond `high`. -/
theorem removeOverlapped_spec {bounds : Bounds} {base : Interval} (start : base.first ≤ low)
    (reach : high ≤ base.second) (ordered : low ≤ high) (separated : Separated following)
    (small : ∀ each ∈ following, each.second ≤ bounds.greatest)
    (later : ∀ each ∈ following, low < each.first)
    (widened : base.second = high ∨ ∀ each ∈ following, base.Precedes each) :
    let result := removeOverlapped high (bounds.safeNext high) base following
    Separated (result.1 :: result.2) ∧
      ∀ value, Covers (result.1 :: result.2) value ↔ Covers (base :: following) value := by
  have proper : base.first ≤ base.second := by omega
  have next : bounds.safeNext high ≤ high + 1 := by
    unfold Bounds.safeNext
    split <;> omega
  induction following with
  | nil => exact ⟨separated_cons.mpr ⟨proper, nofun, separated_nil⟩, fun value => Iff.rfl⟩
  | cons itor following ih =>
    obtain ⟨itorProper, itorAhead, tail⟩ := separated_cons.mp separated
    obtain ⟨itorSmall, tailSmall⟩ := forall_mem_cons.mp small
    obtain ⟨itorLater, tailLater⟩ := forall_mem_cons.mp later
    by_cases overlapped : itor.first ≤ bounds.safeNext high
    · have ends : base.second = high := by
        rcases widened with equal | precedes
        · exact equal
        · have far : base.second + 1 < itor.first := precedes itor mem_cons_self
          omega
      by_cases longer : high < itor.second
      · -- the last element that is swallowed reaches beyond `high`
        rw [removeOverlapped, if_pos overlapped, if_pos longer]
        constructor
        · refine separated_cons.mpr ⟨?_, itorAhead, tail⟩
          dsimp only
          omega
        · intro value
          simp only [covers_cons, Interval.Contains]
          have joined : base.first ≤ value ∧ value ≤ itor.second ↔
              (base.first ≤ value ∧ value ≤ base.second) ∨
                (itor.first ≤ value ∧ value ≤ itor.second) := by
            omega
          rw [joined, or_assoc]
      · rw [removeOverlapped, if_pos overlapped, if_neg longer]
        obtain ⟨kept, contents⟩ := ih tail tailSmall tailLater (Or.inl ends)
        refine ⟨kept, fun value => ?_⟩
        rw [contents value]
        simp only [covers_cons]
        have inner : itor.first ≤ value ∧ value ≤ itor.second →
            base.first ≤ value ∧ value ≤ base.second := by
          omega
        constructor
        · rintro (own | further)
          · exact Or.inl own
          · exact Or.inr (Or.inr further)
        · rintro (own | swallowed | further)
          · exact Or.inl own
          · exact Or.inl (inner swallowed)
          · exact Or.inr further
    · rw [removeOverlapped, if_neg overlapped]
      refine ⟨separated_cons.mpr ⟨proper, ?_, separated⟩, fun value => Iff.rfl⟩
      rcases widened with equal | precedes
      · have far : base.second + 1 < itor.first := by
          unfold Bounds.safeNext at overlapped
          split at overlapped <;> omega
        intro each inside
        rcases mem_cons.mp inside with rfl | further
        · exact far
        · have beyond : itor.second + 1 < each.first := itorAhead each further
          change base.second + 1 < each.first
          omega
      · exact precedes

/-- `add` is union with the interval. -/
theorem add_spec {bounds : Bounds} (valid : holder.Valid bounds) (least : bounds.least ≤ low)
    (bounded : high ≤ bounds.greatest) :
    (holder.add bounds low high).Valid bounds ∧
      ∀ value, Covers (holder.add bounds low high) value ↔
        Covers holder value ∨ (low ≤ value ∧ value ≤ high) := by
  by_cases empty : high < low
  · rw [add, if_pos empty]
    refine ⟨valid, fun value => ?_⟩
    constructor
    · exact Or.inl
    · rintro (covered | inside)
      · exact covered
      · omega
  · have ordered := not_lt.mp empty
    have placed := place_placed valid ordered bounded
    obtain ⟨joined, same⟩ := removeOverlapped_spec placed.start placed.reach ordered
      placed.followingSeparated (fun each inside => valid.second_le (placed.subset each inside))
      placed.later placed.widened
    have whole : holder.add bounds low high = _ := if_neg empty
    have contents : ∀ value, Covers (holder.add bounds low high) value ↔
        Covers holder value ∨ (low ≤ value ∧ value ≤ high) := by
      intro value
      rw [whole, ← placed.contents value, covers_append, covers_append, same value]
    refine ⟨⟨?_, ?_⟩, contents⟩
    · rw [whole]
      refine separated_append.mpr ⟨placed.frontSeparated, joined, ?_⟩
      intro earlier inside
      apply joined.precedes_of_covers _ (fun value => (same value).mp)
      have ahead : earlier.second + 1 < _ := placed.ahead earlier inside
      refine forall_mem_cons.mpr ⟨ahead, fun each further => ?_⟩
      have beyond := placed.later each further
      have start := placed.start
      change earlier.second + 1 < each.first
      omega
    · intro value covered
      rcases (contents value).mp covered with old | inside
      · exact valid.within value old
      · omega

/-- The largest integer stands alone. -/
def Alone (bounds : Bounds) (holder : Holder) : Prop :=
  (⟨bounds.greatest, bounds.greatest⟩ : Interval) ∈ holder
  deriving Decidable

theorem Alone.covers (alone : holder.Alone bounds) :
    Covers holder bounds.greatest :=
  ⟨_, alone, le_refl _, le_refl _⟩

/-- The removal loop takes the values of the interval away and nothing else, unless
it is to remove a largest integer that stands alone. -/
theorem removeLoop_removed (ordered : low ≤ high) (bounded : high ≤ bounds.greatest)
    (separated : Separated holder) (small : ∀ each ∈ holder, each.second ≤ bounds.greatest)
    (reached : ¬ (high = bounds.greatest ∧ holder.Alone bounds)) :
    Removed low high holder (removeLoop low high (bounds.safeNext high) holder) := by
  induction holder with
  | nil => exact .apart separated_nil nofun
  | cons itor following ih =>
    obtain ⟨proper, ahead, tail⟩ := separated_cons.mp separated
    obtain ⟨itorSmall, tailSmall⟩ := forall_mem_cons.mp small
    have tailReached : ¬ (high = bounds.greatest ∧ Alone bounds following) := by
      rintro ⟨top, alone⟩
      exact reached ⟨top, mem_cons_of_mem itor alone⟩
    have rest := ih tail tailSmall tailReached
    have beyond : high < itor.second → Removed low high following following := by
      intro longer
      refine .apart tail fun each inside => .inl ?_
      have far : itor.second + 1 < each.first := ahead each inside
      omega
    by_cases entered : itor.first < bounds.safeNext high
    · have inside : itor.first ≤ high := by
        unfold Bounds.safeNext at entered
        split at entered <;> omega
      have next : high < itor.second → bounds.safeNext high = high + 1 :=
        fun longer => if_pos (by omega)
      rw [removeLoop]
      split_ifs with started inner earlier inner
      · exact .append separated (.erased started inner) rest
      · have longer := not_le.mp inner
        rw [next longer]
        exact .append separated (.upper started inside longer) (beyond longer)
      · have stays : Removed low high [itor] [itor] :=
          .apart (separated_cons.mpr ⟨proper, nofun, separated_nil⟩)
            (forall_mem_singleton.mpr (.inr earlier))
        exact .append separated stays rest
      · exact .append separated (.lower (not_le.mp started) (not_lt.mp earlier) inner) rest
      · have longer := not_le.mp inner
        rw [next longer]
        exact .append separated (.split ordered (not_le.mp started) longer) (beyond longer)
    · -- the loop ends at an element beyond the interval
      rw [removeLoop, if_neg entered]
      have far : high < itor.first := by
        by_contra near
        unfold Bounds.safeNext at entered
        split at entered
        · omega
        · have firstTop : itor.first = bounds.greatest := by omega
          have secondTop : itor.second = bounds.greatest := by omega
          have top : itor = ⟨bounds.greatest, bounds.greatest⟩ := Interval.ext firstTop secondTop
          refine reached ⟨by omega, ?_⟩
          rw [top]
          exact mem_cons_self
      refine .apart separated (forall_mem_cons.mpr ⟨.inl far, fun each further => .inl ?_⟩)
      have distant : itor.second + 1 < each.first := ahead each further
      omega

/-- A largest integer that stands alone is not reached by the removal loop: what is
removed ends below it. -/
theorem removeLoop_short
    (separated : Separated holder) (small : ∀ each ∈ holder, each.second ≤ bounds.greatest)
    (alone : holder.Alone bounds) :
    Removed low (bounds.greatest - 1) holder
      (removeLoop low bounds.greatest (bounds.safeNext bounds.greatest) holder) := by
  rw [Bounds.safeNext, if_neg (lt_irrefl _)]
  induction holder with
  | nil => cases alone
  | cons itor following ih =>
    obtain ⟨proper, ahead, tail⟩ := separated_cons.mp separated
    obtain ⟨itorSmall, tailSmall⟩ := forall_mem_cons.mp small
    by_cases entered : itor.first < bounds.greatest
    · have further : Alone bounds following := by
        rcases mem_cons.mp alone with rfl | further
        · exact absurd entered (lt_irrefl _)
        · exact further
      have rest := ih tail tailSmall further
      have ended : itor.second + 1 < bounds.greatest := ahead _ further
      rw [removeLoop]
      split_ifs with started earlier
      · exact .append separated (.erased started (by omega)) rest
      · have stays : Removed low (bounds.greatest - 1) [itor] [itor] :=
          .apart (separated_cons.mpr ⟨proper, nofun, separated_nil⟩)
            (forall_mem_singleton.mpr (.inr earlier))
        exact .append separated stays rest
      · exact .append separated (.lower (not_le.mp started) (not_lt.mp earlier) (by omega)) rest
    · rw [removeLoop, if_neg entered]
      refine .apart separated (forall_mem_cons.mpr ⟨by omega, fun each inside => .inl ?_⟩)
      have far : itor.second + 1 < each.first := ahead each inside
      omega

/-- A removal reaches its interval, unless it is to remove a largest integer that
stands alone. -/
def Reaches (bounds : Bounds) (low high : Int) (holder : Holder) : Prop :=
  ¬ (low ≤ high ∧ high = bounds.greatest ∧ holder.Alone bounds)

/-- The elements before the start element end before `low`. -/
theorem findStart_split (separated : Separated holder) :
    holder = (findStart low holder).1 ++ (findStart low holder).2 ∧
      ∀ each ∈ (findStart low holder).1, each.second < low := by
  cases started separated with
  | first found split later =>
    rw [found]
    exact ⟨rfl, nofun⟩
  | «at» front itor following whole found start later split =>
    rw [found]
    refine ⟨whole, fun each inside => ?_⟩
    have far : each.second + 1 < itor.first := separated.front_precedes whole each inside
    omega

/-- A removal is what its loop does to the elements from the start element on. -/
theorem remove_of_loop (separated : Separated holder)
    {last : Int} (ordered : low ≤ high)
    (loop : Separated (findStart low holder).2 → Removed low last (findStart low holder).2
      (removeLoop low high (bounds.safeNext high) (findStart low holder).2)) :
    Removed low last holder (holder.remove bounds low high) := by
  obtain ⟨whole, ended⟩ := findStart_split separated
  have joined := separated
  rw [whole] at joined
  obtain ⟨left, right, _⟩ := separated_append.mp joined
  have removed := Removed.append joined (.apart left fun each inside => .inr (ended each inside))
    (loop right)
  rw [← whole] at removed
  rw [remove, if_neg (not_lt.mpr ordered)]
  exact removed

variable (valid : holder.Valid bounds)
include valid

theorem Valid.onward_second_le :
    ∀ each ∈ (findStart low holder).2, each.second ≤ bounds.greatest := by
  intro each inside
  apply valid.second_le
  rw [(findStart_split valid.separated).1]
  exact mem_append_right _ inside

/-- `remove` is difference with the interval. -/
theorem remove_removed (bounded : high ≤ bounds.greatest)
    (reaches : holder.Reaches bounds low high) :
    Removed low high holder (holder.remove bounds low high) := by
  by_cases empty : high < low
  · rw [remove, if_pos empty]
    exact ⟨valid.separated, fun value => ⟨fun covered => ⟨covered, by omega⟩, And.left⟩⟩
  · have ordered := not_lt.mp empty
    apply remove_of_loop valid.separated ordered
    intro separated
    apply removeLoop_removed ordered bounded separated valid.onward_second_le
    rintro ⟨top, alone⟩
    refine reaches ⟨ordered, top, ?_⟩
    rw [(findStart_split valid.separated).1]
    exact mem_append_right _ alone

/-- Otherwise it is difference with the interval without the largest integer. -/
theorem remove_short (ordered : low ≤ bounds.greatest) (alone : holder.Alone bounds) :
    Removed low (bounds.greatest - 1) holder (holder.remove bounds low bounds.greatest) := by
  apply remove_of_loop valid.separated ordered
  intro separated
  apply removeLoop_short separated valid.onward_second_le
  obtain ⟨whole, ended⟩ := findStart_split valid.separated
  rw [whole] at alone
  rcases mem_append.mp alone with early | late
  · exact absurd (ended _ early) (not_lt.mpr ordered)
  · exact late

/-- Every removal keeps the representation, whether it reaches its interval or not. -/
theorem remove_valid (bounded : high ≤ bounds.greatest) :
    (holder.remove bounds low high).Valid bounds := by
  have removed : ∃ last, Removed low last holder (holder.remove bounds low high) := by
    by_cases reaches : holder.Reaches bounds low high
    · exact ⟨high, remove_removed valid bounded reaches⟩
    · obtain ⟨ordered, rfl, alone⟩ := not_not.mp reaches
      exact ⟨_, remove_short valid ordered alone⟩
  obtain ⟨last, removed⟩ := removed
  exact ⟨removed.separated, fun value covered =>
    valid.within value ((removed.contents value).mp covered).1⟩

/-- The largest integer stands alone when it is in the set and the one before is not. -/
theorem Valid.alone_iff :
    holder.Alone bounds ↔
      Covers holder bounds.greatest ∧ ¬ Covers holder (bounds.greatest - 1) := by
  constructor
  · intro alone
    exact ⟨alone.covers, valid.separated.not_covers_previous alone⟩
  · rintro ⟨⟨itor, inside, start, ended⟩, missing⟩
    have secondTop : itor.second = bounds.greatest := le_antisymm (valid.second_le inside) ended
    have firstTop : itor.first = bounds.greatest := by
      by_contra different
      exact missing ⟨itor, inside, by omega, by omega⟩
    have top : itor = ⟨bounds.greatest, bounds.greatest⟩ := Interval.ext firstTop secondTop
    rw [Alone, ← top]
    exact inside

/-- A largest integer that stands alone survives every removal. -/
theorem remove_alone (bounded : high ≤ bounds.greatest) (alone : holder.Alone bounds) :
    (holder.remove bounds low high).Alone bounds := by
  obtain ⟨top, missing⟩ := valid.alone_iff.mp alone
  have removed : ∃ last, (low ≤ last → last < bounds.greatest) ∧
      Removed low last holder (holder.remove bounds low high) := by
    by_cases reaches : holder.Reaches bounds low high
    · refine ⟨high, fun ordered => ?_, remove_removed valid bounded reaches⟩
      exact lt_of_le_of_ne bounded fun equal => reaches ⟨ordered, equal, alone⟩
    · obtain ⟨ordered, rfl, _⟩ := not_not.mp reaches
      exact ⟨_, fun _ => Int.sub_one_lt_of_le le_rfl, remove_short valid ordered alone⟩
  obtain ⟨last, short, removed⟩ := removed
  refine (remove_valid valid bounded).alone_iff.mpr ⟨?_, ?_⟩
  · exact (removed.contents bounds.greatest).mpr ⟨top, by omega⟩
  · intro covered
    exact missing ((removed.contents (bounds.greatest - 1)).mp covered).1

end Holder

namespace CheckStatus

/-- What a status says about the values of an interval. -/
def Describes (holder : Holder) (low high : Int) : CheckStatus → Prop
  | none => ∀ value, low ≤ value → value ≤ high → ¬ Covers holder value
  | all => ∀ value, low ≤ value → value ≤ high → Covers holder value
  | some => (∃ value, low ≤ value ∧ value ≤ high ∧ Covers holder value) ∧
      ∃ value, low ≤ value ∧ value ≤ high ∧ ¬ Covers holder value

end CheckStatus

namespace CompressedSet

open CheckStatus (Describes)

variable {low high : Int} {set : CompressedSet} {front following : Holder} {itor : Interval}

section

variable (separated : Separated set.holder) (whole : set.holder = front ++ itor :: following)
include separated whole

/-- An element that holds `low` decides alone: if it ends before `high`, its successor
is in no other element. -/
theorem describes_around (start : itor.first ≤ low) (reaches : low ≤ itor.second) :
    Describes set.holder low high (if high ≤ itor.second then .all else .some) := by
  have inside : itor ∈ set.holder := by
    rw [whole]
    exact mem_append_right front mem_cons_self
  split_ifs with far
  · intro value least most
    exact ⟨itor, inside, by omega, by omega⟩
  · exact ⟨⟨low, le_refl _, by omega, itor, inside, start, reaches⟩,
      itor.second + 1, by omega, by omega, separated.not_covers_next whole⟩

/-- The element before the place of `low`, when all later ones are beyond `high`. -/
theorem checkLast_describes (start : itor.first < low)
    (later : ∀ each ∈ following, high < each.first) :
    Describes set.holder low high (checkPresence.checkLast low high (some itor)) := by
  rw [checkPresence.checkLast]
  split_ifs with ended far
  · intro value least most
    have beyond : ∀ each ∈ following, value < each.first :=
      fun each each_mem => lt_of_le_of_lt most (later each each_mem)
    rw [separated.covers_iff_le_second whole (by omega) beyond]
    omega
  all_goals
    have around := @describes_around low high _ _ _ _ separated whole start.le (not_lt.mp ended)
  · rw [if_pos far] at around
    exact around
  · rw [if_neg far] at around
    exact around

end

/-- A first element beyond `high` is followed by elements beyond `high`. -/
theorem following_beyond {head : Interval} {rest : Holder} (separated : Separated (head :: rest))
    (beyond : high < head.first) : ∀ each ∈ head :: rest, high < each.first := by
  obtain ⟨proper, ahead, _⟩ := separated_cons.mp separated
  refine forall_mem_cons.mpr ⟨beyond, fun each inside => ?_⟩
  have far : head.second + 1 < each.first := ahead each inside
  omega

/-- One search decides what part of an interval is in the set. -/
theorem checkPresence_describes (separated : Separated set.holder) (ordered : low ≤ high) :
    Describes set.holder low high (set.checkPresence low high) := by
  rw [checkPresence, if_neg (not_lt.mpr ordered)]
  cases separated.searched with
  | found front itor following whole split start later =>
    have inside : itor ∈ set.holder := by
      rw [whole]
      exact mem_append_right front mem_cons_self
    have proper := separated.proper itor inside
    rw [split.2]
    dsimp only [List.head?_cons]
    rw [if_pos start]
    exact describes_around separated whole start.le (by omega)
  | between front itor following whole split start later =>
    rw [split.1, split.2, List.getLast?_concat]
    cases following with
    | nil => exact checkLast_describes separated whole start nofun
    | cons head rest =>
      have headLater := later head mem_cons_self
      have headInside : head ∈ set.holder := by
        rw [whole]
        exact mem_append_right front (mem_cons_of_mem itor mem_cons_self)
      have tail : Separated (head :: rest) := by
        rw [whole] at separated
        exact (separated_cons.mp (separated_append.mp separated).2.1).2.2
      dsimp only [List.head?_cons]
      rw [if_neg headLater.ne']
      split_ifs with near
      · have covered : Covers set.holder head.first :=
          ⟨head, headInside, le_refl _, separated.proper head headInside⟩
        refine ⟨⟨head.first, headLater.le, near, covered⟩, ?_⟩
        by_cases reaches : low ≤ itor.second
        · have apart : itor.second + 1 < head.first :=
            separated.precedes_following whole head mem_cons_self
          exact ⟨itor.second + 1, by omega, by omega, separated.not_covers_next whole⟩
        · refine ⟨low, le_refl _, ordered, ?_⟩
          rw [separated.covers_iff_le_second whole start.le later]
          exact reaches
      · exact checkLast_describes separated whole start (following_beyond tail (not_le.mp near))
  | ahead split later =>
    have missing : ∀ value, (∀ each ∈ set.holder, value < each.first) →
        ¬ Covers set.holder value := fun value beyond =>
      @not_covers_of_gap value [] set.holder nofun beyond
    rw [split.1, split.2]
    cases shape : set.holder with
    | nil => exact fun value _ _ => covers_nil
    | cons head rest =>
      rw [shape] at separated later missing
      have headLater := later head mem_cons_self
      dsimp only [List.head?_cons]
      rw [if_neg headLater.ne']
      split_ifs with near
      · have covered : Covers (head :: rest) head.first :=
          ⟨head, mem_cons_self, le_refl _, separated.proper head mem_cons_self⟩
        exact ⟨⟨head.first, headLater.le, near, covered⟩, low, le_refl _, ordered,
          missing low later⟩
      · intro value _ most
        have beyond := following_beyond separated (not_le.mp near)
        exact missing value fun each inside => lt_of_le_of_lt most (beyond each inside)

end CompressedSet

end UnixCommons.Generics
