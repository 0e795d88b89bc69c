import UnixCommons.HTTP.UrlChecks

/-!
# Names of hosts and their ends

Whether a host is valid does not depend on the case of its letters. What ends a valid host is a
valid host itself, if a point stands in front of it; otherwise it is one with a letter in front.
-/

namespace UnixCommons.HTTP

open List

/-- Small letters, as a comparison without case writes them. -/
def lower (text : List Char) : List Char := text.map Char.toLower

/-! ## The case of letters -/

/-- The letters that have a small one. -/
def capitals : List Char := (List.range 26).map fun letter => Char.ofNat (65 + letter)

theorem toLower_eq_self_or (ch : Char) : ch.toLower = ch ∨ ch ∈ capitals := by
  unfold Char.toLower
  split
  case isTrue upper =>
    right
    have least := UInt32.le_iff_toNat_le.mp upper.1
    have most := UInt32.le_iff_toNat_le.mp upper.2
    simp only [UInt32.reduceToNat, Char.reduceVal] at least most
    refine mem_map.mpr ⟨ch.toNat - 65, ?_, ?_⟩
    · rw [mem_range]
      change ch.val.toNat - 65 < 26
      omega
    · rw [show 65 + (ch.toNat - 65) = ch.toNat from Nat.add_sub_cancel' least]
      exact Char.ofNat_toNat ch
  case isFalse => exact .inl rfl

/-- A kind of characters that has the small letters of its letters knows no case. -/
theorem toLower_iff {category : Char → Bool}
    (closed : (capitals.all fun letter => category letter.toLower == category letter) = true)
    (ch : Char) : category ch.toLower = category ch := by
  rcases toLower_eq_self_or ch with same | capital
  · rw [same]
  · exact beq_iff_eq.mp (all_eq_true.mp closed ch capital)

theorem toLower_eq_dot {ch : Char} : ch.toLower = '.' ↔ ch = '.' := by
  have same := @toLower_iff (· == '.') (by decide) ch
  simpa using Bool.eq_iff_iff.mp same

/-- The labels of a host in lower case. -/
theorem labelsFrom_lower (label host : List Char) :
    labelsFrom (lower label) (lower host) = (labelsFrom label host).map lower := by
  induction host generalizing label with
  | nil => cases label <;> rfl
  | cons ch rest ih =>
    simp only [lower, map_cons, labelsFrom, toLower_eq_dot]
    split
    · exact congrArg _ (ih [])
    · have longer : lower label ++ [ch.toLower] = lower (label ++ [ch]) := by simp [lower]
      exact longer ▸ ih (label ++ [ch])

/-- A check of all characters that knows no case. -/
theorem all_lower {category : Char → Bool}
    (closed : (capitals.all fun letter => category letter.toLower == category letter) = true)
    (text : List Char) : (lower text).all category = text.all category := by
  rw [lower, all_map]
  exact congrArg _ (funext (toLower_iff closed))

theorem labelValid_lower (label : List Char) : labelValid (lower label) = labelValid label := by
  cases label with
  | nil => rfl
  | cons first rest =>
    have firstLast := @toLower_iff Category.labelFirstLast (by decide)
    have middle := @all_lower Category.labelMiddle (by decide) rest.dropLast
    have last : (lower rest).getLast?.all Category.labelFirstLast =
        rest.getLast?.all Category.labelFirstLast := by
      rw [lower, getLast?_map]
      cases rest.getLast? with
      | none => rfl
      | some ch => exact firstLast ch
    have dropped : (lower rest).dropLast = lower rest.dropLast := by simp [lower, map_dropLast]
    change (Category.labelFirstLast first.toLower && (lower rest).getLast?.all _ &&
      isValidChars (lower rest).dropLast _) = _
    rw [firstLast, last, dropped, isValidChars, middle]
    rfl

/-- A host without the point at its end. -/
def undotted (host : List Char) : List Char :=
  if host.getLast? = some '.' then host.dropLast else host

/-- What is wanted of every label. -/
def labelFits (label : List Char) : Bool :=
  !label.isEmpty && decide (label.length ≤ maxHostnameLabelSize) && labelValid label

/-- The condition on a host, by its labels. -/
theorem hostValid_eq (host : List Char) :
    hostValid host = (decide (host.length ≤ maxHostnameSize) && isValidChars host Category.host &&
      (labelsFrom [] (undotted host)).all labelFits) :=
  rfl

theorem undotted_lower (host : List Char) : undotted (lower host) = lower (undotted host) := by
  have last : (lower host).getLast? = some '.' ↔ host.getLast? = some '.' := by
    rw [lower, getLast?_map]
    cases host.getLast? with
    | none => simp
    | some ch => simp [toLower_eq_dot]
  simp only [undotted, last]
  split
  · simp [lower, map_dropLast]
  · rfl

/-- Whether a host is valid does not depend on the case of its letters. -/
theorem hostValid_lower (host : List Char) : hostValid (lower host) = hostValid host := by
  have fits : (labelFits ∘ lower) = labelFits := by
    funext label
    simp only [Function.comp, labelFits, labelValid_lower]
    simp [lower]
  have chars := @all_lower Category.host (by decide) host
  have nothing : lower [] = [] := rfl
  rw [hostValid_eq, hostValid_eq, isValidChars, chars, undotted_lower]
  nth_rewrite 1 [← nothing]
  rw [labelsFrom_lower, all_map, fits]
  simp [lower, isValidChars]

/-! ## The end of a host -/

/-- The label that is begun goes on to the next point. -/
theorem labelsFrom_eq (host : List Char) :
    ∃ more, ∀ label : List Char, label ≠ [] →
      labelsFrom label host = (label ++ host.takeWhile (· ≠ '.')) :: more := by
  induction host with
  | nil =>
    refine ⟨[], fun label begun => ?_⟩
    simp [labelsFrom, begun]
  | cons ch rest ih =>
    by_cases point : ch = '.'
    · subst point
      refine ⟨labelsFrom [] rest, fun label _ => ?_⟩
      simp [labelsFrom]
    · obtain ⟨more, same⟩ := ih
      refine ⟨more, fun label _ => ?_⟩
      simp [labelsFrom, point, same (label ++ [ch]) (by simp)]

/-- A label that fits goes on to fit when a letter stands for its begin. -/
theorem labelFits_behind {label rest : List Char} (begun : label ≠ [])
    (fits : labelFits (label ++ rest) = true) : labelFits ('x' :: rest) = true := by
  obtain ⟨first, more, rfl⟩ := exists_cons_of_ne_nil begun
  simp only [labelFits, cons_append, labelValid, isEmpty_cons, length_cons, length_append,
    Bool.and_eq_true, decide_eq_true_eq] at fits ⊢
  obtain ⟨⟨-, short⟩, ⟨-, last⟩, middle⟩ := fits
  refine ⟨⟨rfl, by omega⟩, ⟨by decide, ?_⟩, ?_⟩
  · cases rest with
    | nil => rfl
    | cons ch rest => rwa [getLast?_append_of_ne_nil _ (cons_ne_nil _ _)] at last
  · cases rest with
    | nil => rfl
    | cons ch rest =>
      rw [dropLast_append_of_ne_nil (cons_ne_nil _ _), isValidChars, all_append,
        Bool.and_eq_true] at middle
      exact middle.2

/-- The labels of the end of a host; a letter stands for the begin of a label that is cut. -/
theorem labels_behind {label front back : List Char} (filled : front ≠ [])
    (fits : (labelsFrom label (front ++ back)).all labelFits = true) :
    (labelsFrom (if front.getLast? = some '.' then [] else ['x']) back).all labelFits = true := by
  induction front generalizing label with
  | nil => exact absurd rfl filled
  | cons ch rest ih =>
    rw [cons_append, labelsFrom] at fits
    cases rest with
    | nil =>
      split at fits
      · rename_i point
        simp only [nil_append, all_cons, Bool.and_eq_true] at fits
        simpa [point] using fits.2
      · rename_i other
        obtain ⟨more, same⟩ := labelsFrom_eq back
        rw [nil_append, same _ (by simp), all_cons, Bool.and_eq_true] at fits
        rw [if_neg (by simpa using other), same _ (by simp), all_cons, Bool.and_eq_true]
        exact ⟨labelFits_behind (by simp) fits.1, fits.2⟩
    | cons next rest =>
      rw [getLast?_cons_cons]
      split at fits
      · rw [all_cons, Bool.and_eq_true] at fits
        exact ih (cons_ne_nil _ _) fits.2
      · exact ih (cons_ne_nil _ _) fits

/-- A dot is cut off the end of what stands behind. -/
theorem undotted_append {front back : List Char}
    (ended : back ≠ [] ∨ front.getLast? ≠ some '.') :
    undotted (front ++ back) = front ++ undotted back := by
  cases back with
  | nil => simp [undotted, ended.resolve_left (fun some => some rfl)]
  | cons ch rest =>
    have last := getLast?_append_of_ne_nil front (cons_ne_nil ch rest)
    have dropped : (front ++ ch :: rest).dropLast = front ++ (ch :: rest).dropLast :=
      dropLast_append_of_ne_nil (cons_ne_nil ch rest)
    simp only [undotted, last, dropped]
    split <;> rfl

/-- **The end of a valid host** is valid behind a point, and otherwise with a letter in front. -/
theorem hostValid_behind {front back : List Char} (filled : front ≠ [])
    (valid : hostValid (front ++ back) = true) :
    if front.getLast? = some '.' then back = [] ∨ hostValid back = true
    else hostValid ('x' :: back) = true := by
  rw [hostValid_eq, Bool.and_eq_true, Bool.and_eq_true, decide_eq_true_eq, isValidChars,
    all_append, Bool.and_eq_true, length_append] at valid
  obtain ⟨⟨short, -, chars⟩, fits⟩ := valid
  have size := length_pos_of_ne_nil filled
  split
  · rename_i point
    by_cases none : back = []
    · exact .inl none
    · right
      rw [undotted_append (.inl none)] at fits
      have behind := labels_behind filled fits
      rw [if_pos point] at behind
      simp only [hostValid_eq, isValidChars, chars, behind, Bool.and_true, decide_eq_true_eq]
      omega
  · rename_i other
    rw [undotted_append (.inr other)] at fits
    have behind := labels_behind filled fits
    rw [if_neg other] at behind
    have own : undotted ('x' :: back) = 'x' :: undotted back :=
      @undotted_append ['x'] back (.inr (by decide))
    have cut : labelsFrom [] ('x' :: undotted back) = labelsFrom ['x'] (undotted back) := rfl
    simp only [hostValid_eq, own, cut, behind, isValidChars, all_cons, chars, length_cons,
      Bool.and_true, Bool.and_eq_true, decide_eq_true_eq]
    exact ⟨by omega, by decide⟩

end UnixCommons.HTTP
