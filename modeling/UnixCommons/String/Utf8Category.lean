import UnixCommons.Generics.CompressedSetRuns
import UnixCommons.String.Utf8Handler

/-!
# Utf8Category

A category is a set of characters held as a tree over the octets of a character. The
root has a node for each lead octet; a node for a character whose last octet is next
is a leaf of 64 flags, any other node is absent, the shared node that ends the search
with success, or an array of 64 nodes.

The tree is built from a set of packed characters, the octets of a character read as
one number of 32 bits. A whole range below a prefix is asked for first: if all its
numbers are in the set the search ends with success there, if none is it ends with
failure. The ranges asked for also hold numbers that are no characters, so a range
that is only partly in the set is looked into, by the trailing octets only. The element
that the set keeps from the last question changes no answer and is not passed on.

Lead octets of five and six octet sequences are built as well. The shift of a 32-bit
number by 32 or more that this takes has no defined result and is a parameter here.
-/

namespace UnixCommons.Text

open Generics Intervals List

/-- The packed value of a character: its octets as one number. `none` where the source
reads past the octets given. -/
def getChar (symbol : List UInt8) : Option Nat :=
  match symbol with
  | [] => none
  | lead :: _ =>
    let octets := getOctetCount lead
    if octets = 0 ∨ 4 < octets then some (2 ^ 32 - 1)
    else if symbol.length < octets then none
    else some ((symbol.take octets).foldl (fun packed octet => packed * 256 % 2 ^ 32 ||| octet.toNat) 0)

/-- A node of the tree: absent, the shared stop node, an array of nodes, or flags. -/
inductive Node where
  | null
  | stop
  | inner (nodes : Fin 64 → Node)
  | leaf (flags : BitVec 64)

/-- Going down from a node. `none` where the source would read past the character or
take flags for an array. -/
def descend (depth : Nat) (node : Node) : List UInt8 → Option Bool
  | [] =>
    if depth = 2 then none
    else
      match node with
      | .null => some false
      | .stop => some true
      | _ => none
  | octet :: rest =>
    if depth = 2 then
      match node with
      | .leaf flags => some (decide (flags &&& (1#64 <<< (octet.toNat % 64)) ≠ 0))
      | _ => none
    else
      match node with
      | .null => some false
      | .stop => some true
      | .inner nodes => descend (depth - 1) (nodes ⟨octet.toNat % 64, Nat.mod_lt _ (by decide)⟩) rest
      | .leaf _ => none

/-- Whether a tree holds the character a text starts with. -/
def belong (tree : UInt8 → Node) : List UInt8 → Option Bool
  | [] => none
  | lead :: rest => descend (getOctetCount lead) (tree lead) rest

/-- Shift of a 32-bit number; `wide` stands for the results that are not defined. -/
def shiftLeft (wide : Nat → Nat → Nat) (number shift : Nat) : Nat :=
  if shift < 32 then number * 2 ^ shift % 2 ^ 32 else wide number shift

/-- One less, as a 32-bit number. -/
def previous (number : Nat) : Nat := (((number : Int) - 1) % 2 ^ 32).toNat

/-- The first number below a prefix whose last octet is a trailing one. -/
def firstBelow (packed : Nat) : Nat := (packed * 2 ^ 8 % 2 ^ 32 + 0x80) % 2 ^ 32

/-- The statuses of the parts taken together, with the loop's two flags. -/
def joinStatuses (all none : Bool) : List CheckStatus → CheckStatus
  | [] => if none then .none else .all
  | .none :: rest => if !none then .some else joinStatuses false none rest
  | .all :: rest => if !all then .some else joinStatuses all false rest
  | .some :: _ => .some

/-- What part of the characters below a prefix is in the set. -/
def checkInterval (wide : Nat → Nat → Nat) (chars : CompressedSet) : Nat → Nat → CheckStatus
  | 0, packed => chars.checkPresence (firstBelow packed) (firstBelow packed + 63)
  | depthLeft + 1, packed =>
    let shift := (depthLeft + 2) * 8
    match chars.checkPresence (shiftLeft wide packed shift)
        (previous (shiftLeft wide (packed + 1) shift)) with
    | .some =>
      joinStatuses true true
        ((List.range 64).map fun index => checkInterval wide chars depthLeft (firstBelow packed + index))
    | status => status

/-- The flags of the last octets below a prefix, set one by one. -/
def initLeaf (chars : CompressedSet) : Nat → Nat → BitVec 64 → BitVec 64 → BitVec 64
  | 0, _, _, flags => flags
  | count + 1, packed, flag, flags =>
    initLeaf chars count (packed + 1) (flag <<< 1)
      (if (chars.belongs packed).1 then flags ||| flag else flags)

/-- The node for a prefix. -/
def initInterval (wide : Nat → Nat → Nat) (chars : CompressedSet) : Nat → Nat → Node
  | 0, packed =>
    match chars.checkPresence (firstBelow packed) (firstBelow packed + 63) with
    | .none => .leaf 0#64
    | .all => .leaf (~~~ 0#64)
    | .some => .leaf (initLeaf chars 64 (firstBelow packed) 1#64 0#64)
  | depthLeft + 1, packed =>
    match checkInterval wide chars (depthLeft + 1) packed with
    | .none => .null
    | .all => .stop
    | .some => .inner fun index => initInterval wide chars depthLeft (firstBelow packed + index)

/-- The tree of a set of packed characters. -/
def init (wide : Nat → Nat → Nat) (chars : CompressedSet) (octet : UInt8) : Node :=
  match getOctetCount octet with
  | 0 => .null
  | 1 => if (chars.belongs octet.toNat).1 then .stop else .null
  | depth + 2 => initInterval wide chars depth octet.toNat

/-- `is_owned` of the category built from a set. -/
def isOwned (wide : Nat → Nat → Nat) (chars : CompressedSet) (symbol : List UInt8) : Option Bool :=
  belong (init wide chars) symbol

/-- The packed value of a prefix followed by more octets. -/
def extend (packed : Nat) (octets : List UInt8) : Nat :=
  octets.foldl (fun packed octet => packed * 256 + octet.toNat) packed

/-- The numbers that start with a prefix make up a range. -/
theorem extend_bounds {octets : List UInt8} (packed : Nat) :
    packed * 256 ^ octets.length ≤ extend packed octets ∧
      extend packed octets < (packed + 1) * 256 ^ octets.length := by
  induction octets generalizing packed with
  | nil => exact ⟨by simp [extend], by simp [extend]⟩
  | cons octet rest ih =>
    obtain ⟨least, most⟩ := ih (packed * 256 + octet.toNat)
    have small := octet.toNat_lt
    have lower : packed * 256 * 256 ^ rest.length ≤
        (packed * 256 + octet.toNat) * 256 ^ rest.length :=
      Nat.mul_le_mul_right _ (Nat.le_add_right _ _)
    have upper : (packed * 256 + octet.toNat + 1) * 256 ^ rest.length ≤
        (packed + 1) * 256 * 256 ^ rest.length :=
      Nat.mul_le_mul_right _ (by omega)
    rw [length_cons, pow_succ', ← mul_assoc, ← mul_assoc]
    exact ⟨le_trans lower least, lt_of_lt_of_le most upper⟩

variable {packed : Nat}

/-- Below a short prefix nothing is cut off. -/
theorem firstBelow_eq (small : (packed + 1) * 256 ≤ 2 ^ 32) :
    firstBelow packed = packed * 256 + 0x80 := by
  unfold firstBelow
  omega

/-- If a prefix leaves room for some octets and one more, so does the prefix that is
one octet longer for the others. -/
theorem room_below {depth : Nat} (small : (packed + 1) * 256 ^ (depth + 1) ≤ 2 ^ 32)
    (octet : UInt8) :
    (packed * 256 + octet.toNat + 1) * 256 ^ depth ≤ 2 ^ 32 := by
  have less := octet.toNat_lt
  have step : (packed * 256 + octet.toNat + 1) * 256 ^ depth ≤ (packed + 1) * 256 * 256 ^ depth :=
    Nat.mul_le_mul_right _ (by omega)
  rw [pow_succ', ← mul_assoc] at small
  exact le_trans step small

variable {statuses : List CheckStatus}

/-- Joined statuses that are nothing are all nothing. -/
theorem joinStatuses_none {all none : Bool} (joined : joinStatuses all none statuses = .none) :
    none = true ∧ ∀ status ∈ statuses, status = .none := by
  induction statuses generalizing all none with
  | nil =>
    cases none with
    | true => exact ⟨rfl, nofun⟩
    | false => cases joined
  | cons status rest ih =>
    cases status with
    | some => cases joined
    | none =>
      rw [joinStatuses] at joined
      split at joined
      · cases joined
      · obtain ⟨flag, others⟩ := ih joined
        exact ⟨flag, forall_mem_cons.mpr ⟨rfl, others⟩⟩
    | all =>
      rw [joinStatuses] at joined
      split at joined
      · cases joined
      · exact absurd (ih joined).1 (by decide)

theorem joinStatuses_ne_all {statuses : List CheckStatus} :
    joinStatuses false true statuses ≠ .all := by
  induction statuses with
  | nil => nofun
  | cons status rest ih =>
    cases status with
    | some => nofun
    | none => exact ih
    | all => nofun

/-- Joined statuses that are everything are all everything. -/
theorem joinStatuses_all {none : Bool} (joined : joinStatuses true none statuses = .all) :
    ∀ status ∈ statuses, status = .all := by
  induction statuses generalizing none with
  | nil => nofun
  | cons status rest ih =>
    cases status with
    | some => cases joined
    | none =>
      cases none with
      | true => exact absurd joined joinStatuses_ne_all
      | false => cases joined
    | all => exact forall_mem_cons.mpr ⟨rfl, ih joined⟩

/-- What a status says about the characters below a prefix. -/
def Speaks (holder : Holder) (count packed : Nat) : CheckStatus → Prop
  | .none => ∀ octets : List UInt8, octets.length = count → (∀ octet ∈ octets, Utf8.Trailing octet) →
      ¬ Covers holder (extend packed octets)
  | .all => ∀ octets : List UInt8, octets.length = count → (∀ octet ∈ octets, Utf8.Trailing octet) →
      Covers holder (extend packed octets)
  | .some => True

/-- A status of a range that holds all characters below a prefix speaks about them. -/
theorem Speaks.of_range {holder : Holder} {low high : Int} {count : Nat}
    (inside : ∀ octets : List UInt8, octets.length = count → (∀ octet ∈ octets, Utf8.Trailing octet) →
      low ≤ extend packed octets ∧ extend packed octets ≤ high)
    {status : CheckStatus} (describes : CheckStatus.Describes holder low high status) :
    Speaks holder count packed status := by
  cases status with
  | none | all =>
    intro octets length trailing
    obtain ⟨least, most⟩ := inside octets length trailing
    exact describes _ least most
  | some => trivial

/-- The last octets below a prefix. -/
theorem last_octets (small : (packed + 1) * 256 ≤ 2 ^ 32) (octets : List UInt8)
    (length : octets.length = 1) (trailing : ∀ octet ∈ octets, Utf8.Trailing octet) :
    (firstBelow packed : Int) ≤ extend packed octets ∧
      (extend packed octets : Int) ≤ firstBelow packed + 63 := by
  obtain ⟨octet, rfl⟩ := length_eq_one_iff.mp length
  have value := (trailing octet mem_cons_self).eq_add_mod
  rw [firstBelow_eq small]
  change ((packed * 256 + 0x80 : Nat) : Int) ≤ (packed * 256 + octet.toNat : Nat) ∧
    ((packed * 256 + octet.toNat : Nat) : Int) ≤ (packed * 256 + 0x80 : Nat) + 63
  omega

variable (wide : Nat → Nat → Nat)

/-- All numbers that start with a prefix, by two shifts. -/
theorem prefix_range {depth : Nat} (shallow : depth ≤ 1)
    (small : (packed + 1) * 256 ^ (depth + 2) ≤ 2 ^ 32) (octets : List UInt8)
    (length : octets.length = depth + 2) :
    (shiftLeft wide packed ((depth + 2) * 8) : Int) ≤ extend packed octets ∧
      (extend packed octets : Int) ≤
        previous (shiftLeft wide (packed + 1) ((depth + 2) * 8)) := by
  obtain ⟨least, most⟩ := extend_bounds packed
  rw [length] at least most
  have power : (2 : Nat) ^ ((depth + 2) * 8) = 256 ^ (depth + 2) := by
    rw [Nat.mul_comm, Nat.pow_mul]
  have narrow : (depth + 2) * 8 < 32 := by omega
  rw [shiftLeft, shiftLeft, if_pos narrow, if_pos narrow, power, previous]
  omega

/-- The node a trailing octet selects is the one for the prefix it makes longer. -/
theorem selected_below (small : (packed + 1) * 256 ≤ 2 ^ 32) {octet : UInt8}
    (trailing : Utf8.Trailing octet) :
    firstBelow packed + octet.toNat % 64 = packed * 256 + octet.toNat := by
  have value := trailing.eq_add_mod
  rw [firstBelow_eq small]
  omega

theorem room_one {depth : Nat} (small : (packed + 1) * 256 ^ (depth + 1) ≤ 2 ^ 32) :
    (packed + 1) * 256 ≤ 2 ^ 32 := by
  have larger : 256 ≤ 256 ^ (depth + 1) := Nat.le_self_pow (Nat.succ_ne_zero depth) 256
  exact Nat.le_trans (Nat.mul_le_mul_left _ larger) small

/-- Statuses of the prefixes one octet longer, joined, speak about the prefix. -/
theorem Speaks.join {holder : Holder} {count : Nat} {status : Nat → CheckStatus}
    (parts : ∀ octet, Utf8.Trailing octet →
      Speaks holder count (packed * 256 + octet.toNat) (status (firstBelow packed + octet.toNat % 64))) :
    Speaks holder (count + 1) packed
      (joinStatuses true true ((List.range 64).map fun index => status (firstBelow packed + index))) := by
  have listed : ∀ octet : UInt8, status (firstBelow packed + octet.toNat % 64) ∈
      (List.range 64).map fun index => status (firstBelow packed + index) := by
    intro octet
    exact mem_map_of_mem (mem_range.mpr (Nat.mod_lt _ (by decide)))
  cases joined : joinStatuses true true
      ((List.range 64).map fun index => status (firstBelow packed + index)) with
  | some => trivial
  | none =>
    rintro (_ | ⟨octet, rest⟩) length trailing
    · cases length
    · obtain ⟨first, others⟩ := forall_mem_cons.mp trailing
      have part := parts octet first
      rw [(joinStatuses_none joined).2 _ (listed octet)] at part
      exact part rest (Nat.succ.inj length) others
  | all =>
    rintro (_ | ⟨octet, rest⟩) length trailing
    · cases length
    · obtain ⟨first, others⟩ := forall_mem_cons.mp trailing
      have part := parts octet first
      rw [joinStatuses_all joined _ (listed octet)] at part
      exact part rest (Nat.succ.inj length) others

/-- The status of a prefix speaks about the characters below it. -/
theorem checkInterval_speaks {chars : CompressedSet} (separated : Separated chars.holder)
    {depth packed : Nat} (shallow : depth ≤ 2) (small : (packed + 1) * 256 ^ (depth + 1) ≤ 2 ^ 32) :
    Speaks chars.holder (depth + 1) packed (checkInterval wide chars depth packed) := by
  induction depth generalizing packed with
  | zero =>
    have ordered : (firstBelow packed : Int) ≤ firstBelow packed + 63 := by omega
    exact .of_range (last_octets (by simpa using small))
      (CompressedSet.checkPresence_describes separated ordered)
  | succ depth ih =>
    have range := prefix_range wide (Nat.le_of_succ_le_succ shallow) small
    -- some text of that length shows the range is not empty
    have inhabited := range (List.replicate (depth + 2) 0) length_replicate
    have describes := CompressedSet.checkPresence_describes separated
      (Int.le_trans inhabited.1 inhabited.2)
    have whole := Speaks.of_range (fun octets length _ => range octets length) describes
    rw [checkInterval]
    split
    · apply Speaks.join
      intro octet trailing
      rw [selected_below (room_one small) trailing]
      exact ih (Nat.le_of_succ_le shallow) (room_below small octet)
    · exact whole

/-- Bit tests of the source. -/
theorem flag_set {flags : BitVec 64} {index : Nat} (small : index < 64) :
    flags &&& (1#64 <<< index) ≠ 0 ↔ flags.getLsbD index = true := by
  constructor
  · intro nonzero
    by_contra unset
    apply nonzero
    ext place inRange
    by_cases same : place = index
    · simp_all
    · simp
      omega
  · intro set zero
    have bit := congrArg (fun bits : BitVec 64 => bits.getLsbD index) zero
    simp [BitVec.getLsbD_eq_getElem small] at bit set
    rw [set] at bit
    cases bit

/-- Setting the flag at a place. -/
theorem place_bit {place : Nat} (fits : place < 64) (index : Nat) :
    (1#64 <<< place).getLsbD index = decide (index = place) := by
  rw [← BitVec.twoPow_eq, BitVec.getLsbD_twoPow, decide_eq_true fits]
  exact decide_eq_decide.mpr eq_comm

/-- Flags set one by one: those from a place on tell whether the numbers belong. -/
theorem initLeaf_bit (chars : CompressedSet) (count packed place : Nat) (flags : BitVec 64)
    (index : Nat) (fits : place + count ≤ 64) :
    (initLeaf chars count packed (1#64 <<< place) flags).getLsbD index =
      (flags.getLsbD index ||
        (decide (place ≤ index ∧ index < place + count) &&
          (chars.belongs (packed + (index - place) : Nat)).1)) := by
  induction count generalizing packed place flags with
  | zero =>
    have empty : ¬ (place ≤ index ∧ index < place + 0) := by omega
    rw [initLeaf, decide_eq_false empty, Bool.false_and, Bool.or_false]
  | succ count ih =>
    rw [initLeaf, ← BitVec.shiftLeft_add, ih _ _ _ (by omega)]
    have bit := place_bit (show place < 64 by omega) index
    by_cases here : index = place
    · subst here
      rw [Nat.sub_self]
      cases (chars.belongs packed).1 <;> simp [bit]
    · have apart : (place + 1 ≤ index ∧ index < place + 1 + count) ↔
          (place ≤ index ∧ index < place + (count + 1)) := by omega
      rw [decide_eq_decide.mpr apart]
      by_cases inside : place ≤ index ∧ index < place + (count + 1)
      · have next : packed + 1 + (index - (place + 1)) = packed + (index - place) := by omega
        rw [next]
        cases (chars.belongs packed).1 <;> simp [bit, here]
      · rw [decide_eq_false inside]
        cases (chars.belongs packed).1 <;> simp [bit, here]

/-- The packed characters. -/
def words : Bounds := ⟨0, 2 ^ 32 - 1, by decide⟩

/-- A node for the last octets holds a flag for each. -/
theorem initInterval_leaf {chars : CompressedSet} (valid : chars.Valid words)
    (small : (packed + 1) * 256 ≤ 2 ^ 32) :
    ∃ flags, initInterval wide chars 0 packed = .leaf flags ∧
      ∀ octet, Utf8.Trailing octet →
        (flags.getLsbD (octet.toNat % 64) = true ↔
          Covers chars.holder (extend packed [octet])) := by
  have speaks : Speaks chars.holder 1 packed
      (chars.checkPresence (firstBelow packed) (firstBelow packed + 63)) :=
    @checkInterval_speaks wide chars valid.holder.separated 0 packed (Nat.zero_le 2)
      (by simpa using small)
  have only : ∀ octet, Utf8.Trailing octet → ∀ other ∈ [octet], Utf8.Trailing other := by
    intro octet trailing other member
    rw [mem_singleton.mp member]
    exact trailing
  rw [initInterval]
  split
  next status =>
    refine ⟨_, rfl, fun octet trailing => iff_of_false (by simp) ?_⟩
    rw [status] at speaks
    exact speaks [octet] rfl (only octet trailing)
  next status =>
    refine ⟨_, rfl, fun octet trailing => iff_of_true ?_ ?_⟩
    · have inside : octet.toNat % 64 < 64 := Nat.mod_lt _ (by decide)
      rw [BitVec.getLsbD_not, decide_eq_true inside, BitVec.getLsbD_zero]
      rfl
    · rw [status] at speaks
      exact speaks [octet] rfl (only octet trailing)
  next =>
    refine ⟨_, rfl, fun octet trailing => ?_⟩
    have bit := initLeaf_bit chars 64 (firstBelow packed) 0 0#64 (octet.toNat % 64) (le_refl 64)
    have inside : 0 ≤ octet.toNat % 64 ∧ octet.toNat % 64 < 0 + 64 :=
      ⟨Nat.zero_le _, Nat.mod_lt _ (by decide)⟩
    rw [decide_eq_true inside, Nat.sub_zero, selected_below small trailing] at bit
    rw [BitVec.shiftLeft_zero, BitVec.getLsbD_zero] at bit
    rw [bit]
    exact (CompressedSet.belongs_spec valid _).1

variable {octets : List UInt8}

/-- Going down from the node for a prefix finds whether the character is covered. -/
theorem descend_initInterval {chars : CompressedSet} (valid : chars.Valid words) {depth : Nat}
    (shallow : depth ≤ 2) (small : (packed + 1) * 256 ^ (depth + 1) ≤ 2 ^ 32)
    (length : octets.length = depth + 1) (trailing : ∀ octet ∈ octets, Utf8.Trailing octet)
    {rest : List UInt8} :
    ∃ answer, descend (depth + 2) (initInterval wide chars depth packed) (octets ++ rest) = some answer ∧
      (answer = true ↔ Covers chars.holder (extend packed octets)) := by
  induction depth generalizing packed octets with
  | zero =>
    obtain ⟨octet, rfl⟩ := length_eq_one_iff.mp length
    obtain ⟨flags, node, bits⟩ := initInterval_leaf wide valid (by simpa using small)
    have index : octet.toNat % 64 < 64 := Nat.mod_lt _ (by decide)
    rw [node]
    refine ⟨_, rfl, ?_⟩
    rw [decide_eq_true_iff, flag_set index]
    exact bits octet (trailing octet mem_cons_self)
  | succ depth ih =>
    have speaks := checkInterval_speaks wide valid.holder.separated shallow small
    obtain _ | ⟨octet, others⟩ := octets
    · cases length
    rw [initInterval]
    split
    next status =>
      rw [status] at speaks
      exact ⟨false, rfl, iff_of_false Bool.false_ne_true (speaks _ length trailing)⟩
    next status =>
      rw [status] at speaks
      exact ⟨true, rfl, iff_of_true rfl (speaks _ length trailing)⟩
    next =>
      obtain ⟨first, following⟩ := forall_mem_cons.mp trailing
      have deeper := ih (Nat.le_of_succ_le shallow)
        (room_below small octet) (Nat.succ.inj length) following
      rw [← selected_below (room_one small) first] at deeper
      obtain ⟨answer, found, exact⟩ := deeper
      refine ⟨answer, found, ?_⟩
      rw [exact, selected_below (room_one small) first]
      rfl

/-- Or-ing a shifted number with an octet writes the octet behind it. -/
theorem pack_octet {octet : UInt8} (small : (packed + 1) * 256 ≤ 2 ^ 32) :
    packed * 256 % 2 ^ 32 ||| octet.toNat = packed * 256 + octet.toNat := by
  rw [Nat.mod_eq_of_lt (by omega), mul_comm]
  exact (Nat.two_pow_add_eq_or_of_lt octet.toNat_lt packed).symm

/-- The octets are packed without a loss. -/
theorem foldl_pack (small : (packed + 1) * 256 ^ octets.length ≤ 2 ^ 32) :
    octets.foldl (fun packed octet => packed * 256 % 2 ^ 32 ||| octet.toNat) packed =
      extend packed octets := by
  induction octets generalizing packed with
  | nil => rfl
  | cons octet rest ih =>
    rw [foldl_cons, pack_octet (room_one small), ih (room_below small octet)]
    rfl

/-- A lead octet leaves room for the octets it announces. -/
theorem lead_room {lead : UInt8} {count : Nat} (few : count ≤ 3) :
    (lead.toNat + 1) * 256 ^ count ≤ 2 ^ 32 := by
  have octet : lead.toNat + 1 ≤ 256 := lead.toNat_lt
  have power : 256 ^ count ≤ 256 ^ 3 := Nat.pow_le_pow_right (by decide) few
  have product := Nat.mul_le_mul octet power
  exact product

theorem extend_lead (lead : UInt8) (octets : List UInt8) :
    extend 0 (lead :: octets) = extend lead.toNat octets := by
  simp only [extend, foldl_cons, Nat.zero_mul, Nat.zero_add]

/-- The packed value of a character in a text. -/
theorem getChar_encode {value : Nat} (scalar : Utf8.Scalar value) {rest : List UInt8} :
    getChar (Utf8.encode value ++ rest) = some (extend 0 (Utf8.encode value)) := by
  obtain ⟨lead, octets, encoded, few, count, _⟩ := encode_octets scalar
  rw [encoded, cons_append, getChar, count, if_neg (by omega), if_neg (by simp)]
  rw [← cons_append, take_left' (by simp), foldl_cons, pack_octet (by decide)]
  rw [Nat.zero_add, foldl_pack (lead_room few), extend_lead]

/-- A search for the octets of a character finds whether the set covers it. -/
theorem belong_init {chars : CompressedSet} (valid : chars.Valid words) {lead : UInt8}
    (few : octets.length ≤ 3) (count : getOctetCount lead = octets.length + 1)
    (trailing : ∀ octet ∈ octets, Utf8.Trailing octet) {rest : List UInt8} :
    ∃ answer, belong (init wide chars) (lead :: (octets ++ rest)) = some answer ∧
      (answer = true ↔ Covers chars.holder (extend lead.toNat octets)) := by
  rw [belong, init, count]
  cases octets with
  | nil =>
    have spec := (CompressedSet.belongs_spec valid lead.toNat).1
    cases answer : (chars.belongs lead.toNat).1 with
    | true =>
      refine ⟨true, ?_, iff_of_true rfl (spec.mp answer)⟩
      cases rest <;> rfl
    | false =>
      refine ⟨false, ?_, iff_of_false Bool.false_ne_true (mt spec.mpr (by simp [answer]))⟩
      cases rest <;> rfl
  | cons octet others =>
    exact descend_initInterval wide valid (Nat.le_of_succ_le_succ few) (lead_room few) rfl trailing

/-- **The tree answers as the set it is built from.** A character in a text is owned
exactly when its packed value is in the set. -/
theorem owned_exact (wide : Nat → Nat → Nat) {chars : CompressedSet} {values : Set Int}
    (holds : Holds words chars values) {value : Nat} (scalar : Utf8.Scalar value)
    (rest : List UInt8) :
    ∃ packed answer, getChar (Utf8.encode value ++ rest) = some packed ∧
      isOwned wide chars (Utf8.encode value ++ rest) = some answer ∧
      (answer = true ↔ (packed : Int) ∈ values) := by
  obtain ⟨valid, contents⟩ := holds
  obtain ⟨lead, octets, encoded, few, count, trailing⟩ := encode_octets scalar
  obtain ⟨answer, found, covers⟩ := belong_init wide valid few count trailing
  refine ⟨_, answer, getChar_encode scalar, ?_, ?_⟩
  · rw [encoded]
    exact found
  · rw [encoded, extend_lead]
    have word : extend lead.toNat octets < 2 ^ 32 :=
      lt_of_lt_of_le (extend_bounds lead.toNat).2 (lead_room few)
    exact covers.trans (contents ⟨extend lead.toNat octets, ⟨by simp [words], by simp [words]; omega⟩⟩)

/-- The first and the last of the Cyrillic small letters, packed. -/
def cyrillicFirst : words.Value := ⟨0xD0B0, by decide⟩

@[inherit_doc cyrillicFirst]
def cyrillicLast : words.Value := ⟨0xD18F, by decide⟩

/-- The set of all that lies between them; most of it is no character. -/
def cyrillicSmall : CompressedSet :=
  CompressedSet.empty.add words cyrillicFirst.1 cyrillicLast.1

theorem cyrillic_owned :
    ∃ packed answer, getChar (Utf8.encode 0x44F ++ [0x20]) = some packed ∧
      isOwned (fun _ _ => 0) cyrillicSmall (Utf8.encode 0x44F ++ [0x20]) = some answer ∧
      (answer = true ↔ (packed : Int) ∈ ∅ ∪ SetOperation.between cyrillicFirst cyrillicLast) :=
  owned_exact (fun _ _ => 0) ((holds_empty).add cyrillicFirst cyrillicLast) (by decide) [0x20]

end UnixCommons.Text
