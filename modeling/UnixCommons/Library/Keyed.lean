import Mathlib.Data.List.Nodup
import Mathlib.Algebra.BigOperators.Group.List.Basic
import Mathlib.Tactic.Linarith
import Mathlib.Tactic.Ring

/-!
# Lists of records with a key

A map that is only searched, and a linked list whose nodes are reached through
handles, are both lists of records no two of which have the same key. A record is
found, erased or changed by its key. Erasing is filtering, so the other records
keep their order.

When two keys of the same records are both distinct, erasing by either one is the
same. This is what lets two lists stay in step that point at each other.
-/

namespace UnixCommons.Keyed

open List

universe u v w
variable {Record : Type u} {Key : Type v} [DecidableEq Key] (key : Record → Key)

/-- No two records have the same key. -/
def Distinct {Record : Type u} {Key : Type v} (key : Record → Key) (records : List Record) : Prop :=
  (records.map key).Nodup

/-- The record with a key. -/
def lookup (wanted : Key) (records : List Record) : Option Record :=
  records.find? fun record => decide (key record = wanted)

/-- The records with other keys. -/
def erase (wanted : Key) (records : List Record) : List Record :=
  records.filter fun record => decide (key record ≠ wanted)

/-- The records whose keys are not listed. -/
def eraseAll (wanted : List Key) (records : List Record) : List Record :=
  records.filter fun record => decide (key record ∉ wanted)

/-- The records, those with a key changed. -/
def modify (wanted : Key) (change : Record → Record) (records : List Record) : List Record :=
  records.map fun record => if key record = wanted then change record else record

variable {key} {records : List Record} {record : Record} {wanted : Key}

@[simp] theorem mem_erase : record ∈ erase key wanted records ↔ record ∈ records ∧ key record ≠ wanted := by
  simp only [erase, mem_filter, decide_eq_true_eq]

/-- A key that is not found is not there. -/
theorem lookup_eq_none : lookup key wanted records = none ↔ ∀ record ∈ records, key record ≠ wanted := by
  simp only [lookup, List.find?_eq_none, decide_eq_true_eq]

theorem mem_of_lookup (found : lookup key wanted records = some record) : record ∈ records :=
  mem_of_find?_eq_some found

theorem key_of_lookup (found : lookup key wanted records = some record) : key record = wanted := by
  have passed := List.find?_some found
  exact of_decide_eq_true passed

omit [DecidableEq Key] in
/-- The record of a key is the only one. -/
theorem Distinct.eq_of_key (distinct : Distinct key records) {other : Record} (inside : record ∈ records)
    (otherInside : other ∈ records) (same : key record = key other) : record = other :=
  inj_on_of_nodup_map distinct inside otherInside same

/-- With distinct keys the record of a key is found. -/
theorem Distinct.lookup_eq_some (distinct : Distinct key records) :
    lookup key wanted records = some record ↔ record ∈ records ∧ key record = wanted := by
  constructor
  · intro found
    exact ⟨mem_of_lookup found, key_of_lookup found⟩
  · rintro ⟨inside, same⟩
    cases found : lookup key wanted records with
    | none => exact absurd same (lookup_eq_none.mp found record inside)
    | some other =>
      have agrees := same.trans (key_of_lookup found).symm
      rw [distinct.eq_of_key inside (mem_of_lookup found) agrees]

omit [DecidableEq Key] in
theorem Distinct.sublist (distinct : Distinct key records) {others : List Record}
    (part : others.Sublist records) : Distinct key others :=
  List.Nodup.sublist (part.map key) distinct

theorem erase_sublist :
    (erase key wanted records).Sublist records :=
  filter_sublist

@[simp] theorem eraseAll_nil (records : List Record) : eraseAll key [] records = records :=
  List.filter_eq_self.mpr fun record _ => by simp

/-- Listed keys are erased one after another. -/
theorem eraseAll_cons (wanted : Key) (others : List Key) (records : List Record) :
    eraseAll key (wanted :: others) records = eraseAll key others (erase key wanted records) := by
  rw [eraseAll, eraseAll, erase, List.filter_filter]
  apply List.filter_congr
  intro record _
  simp [Bool.and_comm]

theorem erase_of_forall_ne (absent : ∀ record ∈ records, key record ≠ wanted) :
    erase key wanted records = records :=
  filter_eq_self.mpr fun record inside => decide_eq_true (absent record inside)

theorem Distinct.erase_head {rest : List Record} (distinct : Distinct key (record :: rest)) :
    erase key (key record) (record :: rest) = rest := by
  have fresh : key record ∉ rest.map key := (nodup_cons.mp distinct).1
  have absent : ∀ other ∈ rest, key other ≠ key record := by
    intro other inside same
    exact fresh (same ▸ mem_map_of_mem inside)
  rw [erase, filter_cons_of_neg (by simp)]
  exact erase_of_forall_ne absent

/-- A record and the others make up the list. -/
theorem Distinct.perm_cons_erase (distinct : Distinct key records) (inside : record ∈ records) :
    records.Perm (record :: erase key (key record) records) := by
  induction records with
  | nil => cases inside
  | cons head rest ih =>
    have tail : Distinct key rest := distinct.sublist (sublist_cons_self head rest)
    rcases mem_cons.mp inside with rfl | later
    · rw [distinct.erase_head]
    · have different : key head ≠ key record := by
        intro same
        have fresh : key head ∉ rest.map key := (nodup_cons.mp distinct).1
        exact fresh (same ▸ mem_map_of_mem later)
      have kept : erase key (key record) (head :: rest) = head :: erase key (key record) rest :=
        filter_cons_of_pos (by simpa using different)
      rw [kept]
      exact ((ih tail later).cons head).trans (.swap record head _)

/-- A sum over the records is that over the others and the one record. -/
theorem Distinct.sum_erase (distinct : Distinct key records) (inside : record ∈ records)
    (measure : Record → Nat) :
    (records.map measure).sum =
      measure record + ((erase key (key record) records).map measure).sum := by
  have split := ((distinct.perm_cons_erase inside).map measure).sum_eq
  exact split

/-- With two distinct keys it does not matter by which one a record is erased. -/
theorem Distinct.erase_eq_erase {Other : Type w} [DecidableEq Other] {other : Record → Other}
    (distinct : Distinct key records) (otherDistinct : Distinct other records) (inside : record ∈ records) :
    erase key (key record) records = erase other (other record) records := by
  apply filter_congr
  intro each eachInside
  have same : key each = key record ↔ other each = other record := by
    constructor
    · intro equal
      rw [distinct.eq_of_key eachInside inside equal]
    · intro equal
      rw [otherDistinct.eq_of_key eachInside inside equal]
  simp only [ne_eq, same]

/-- Erasing commutes with a translation that keeps the key. -/
theorem map_erase {Image : Type w} {imageKey : Image → Key} {translate : Record → Image}
    (kept : ∀ record, imageKey (translate record) = key record) (wanted : Key)
    (records : List Record) :
    (erase key wanted records).map translate = erase imageKey wanted (records.map translate) := by
  rw [erase, erase, filter_map]
  congr 1
  apply filter_congr
  intro record _
  simp only [Function.comp_apply, kept]

variable {change : Record → Record}

/-- A change that an observation does not see leaves the observations as they are. -/
theorem map_modify {Image : Type w} {observe : Record → Image}
    (unseen : ∀ record, observe (change record) = observe record) (wanted : Key)
    (records : List Record) :
    (modify key wanted change records).map observe = records.map observe := by
  rw [modify, map_map]
  apply map_congr_left
  intro record _
  simp only [Function.comp_apply]
  split
  · exact unseen record
  · rfl

/-- A change that keeps the keys is not seen in the other records. -/
theorem erase_modify (kept : ∀ record, key (change record) = key record)
    (wanted : Key) (records : List Record) :
    erase key wanted (modify key wanted change records) = erase key wanted records := by
  induction records with
  | nil => rfl
  | cons head rest ih =>
    by_cases same : key head = wanted
    · have changed : modify key wanted change (head :: rest) =
          change head :: modify key wanted change rest := by
        rw [modify, map_cons, if_pos same]
        rfl
      rw [changed, erase, erase, filter_cons_of_neg (by simp [kept, same]),
        filter_cons_of_neg (by simp [same])]
      exact ih
    · have unchanged : modify key wanted change (head :: rest) =
          head :: modify key wanted change rest := by
        rw [modify, map_cons, if_neg same]
        rfl
      rw [unchanged, erase, erase, filter_cons_of_pos (by simp [same]),
        filter_cons_of_pos (by simp [same])]
      exact congrArg (head :: ·) ih

theorem mem_modify_of_mem (inside : record ∈ records)
    (same : key record = wanted) : change record ∈ modify key wanted change records := by
  refine mem_map.mpr ⟨record, inside, ?_⟩
  exact if_pos same

/-- Other records are found as they were. -/
theorem lookup_modify_of_ne (kept : ∀ record, key (change record) = key record)
    {other : Key} (different : other ≠ wanted) (records : List Record) :
    lookup key other (modify key wanted change records) = lookup key other records := by
  induction records with
  | nil => rfl
  | cons head rest ih =>
    rw [lookup, modify, map_cons, lookup]
    by_cases isOther : key head = other
    · have notWanted : key head ≠ wanted := fun same => different (isOther.symm.trans same)
      rw [if_neg notWanted, List.find?_cons_of_pos (by simpa using isOther),
        List.find?_cons_of_pos (by simpa using isOther)]
    · have notOther : key (if key head = wanted then change head else head) ≠ other := by
        split_ifs
        · rw [kept]
          exact isOther
        · exact isOther
      rw [List.find?_cons_of_neg (by simpa using notOther),
        List.find?_cons_of_neg (by simpa using isOther)]
      exact ih

/-- Only the change of the one record matters. -/
theorem Distinct.modify_congr {change' : Record → Record} (distinct : Distinct key records)
    (inside : record ∈ records) (same : change record = change' record) :
    modify key (key record) change records = modify key (key record) change' records := by
  apply map_congr_left
  intro other otherInside
  by_cases isRecord : key other = key record
  · rw [if_pos isRecord, if_pos isRecord, distinct.eq_of_key otherInside inside isRecord, same]
  · rw [if_neg isRecord, if_neg isRecord]

/-- A changed record and the others make up the changed list. -/
theorem Distinct.perm_cons_modify (distinct : Distinct key records)
    (inside : record ∈ records) (kept : ∀ record, key (change record) = key record) :
    (modify key (key record) change records).Perm (change record :: erase key (key record) records) := by
  have distinct' : Distinct key (modify key (key record) change records) := by
    rw [Distinct, map_modify kept]
    exact distinct
  have split := distinct'.perm_cons_erase (mem_modify_of_mem inside rfl)
  rw [kept, erase_modify kept] at split
  exact split

end UnixCommons.Keyed
