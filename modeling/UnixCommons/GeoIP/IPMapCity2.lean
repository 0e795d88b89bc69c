import Mathlib.Data.BitVec
import UnixCommons.Library.Cut
import UnixCommons.String.StringManip

/-!
# Locations by address

A file has a record for every range of addresses: the first address of the range, the
number of bits that its addresses share, and a location. The locations are kept in tables,
one for every number of bits that may differ, and an address is looked up in one table
after another, with more and more of its bits cleared.
-/

namespace UnixCommons.GeoIP

open Cut List

/-! ## Addresses -/

/-- An address, in host order. -/
abbrev Address := BitVec 32

/-- An address as four numbers. -/
def dotted (address : Address) : List Char :=
  Nat.toDigits 10 (address.toNat / 2 ^ 24) ++ '.' :: Nat.toDigits 10 (address.toNat / 2 ^ 16 % 2 ^ 8) ++
    '.' :: Nat.toDigits 10 (address.toNat / 2 ^ 8 % 2 ^ 8) ++ '.' :: Nat.toDigits 10 (address.toNat % 2 ^ 8)

/-- What the system reads in the texts of addresses. An address of the longer kind is
given as eight words. -/
structure Inet where
  pton : List Char → Option Address
  pton6 : List Char → Option (Fin 8 → BitVec 16)
  pton_dotted : ∀ address, pton (dotted address) = some address

/-- The address in a text, or zero. -/
def ipToIpv4 (inet : Inet) (ip : List Char) : Address :=
  if ':' ∈ ip then
    match inet.pton6 ip with
    | none => 0
    | some words =>
      if words 0 = 0 ∧ words 1 = 0 then
        -- an address of the shorter kind that is written as one of the longer kind
        if words 2 = 0 ∧ words 3 = 0 ∧ words 4 = 0 ∧ words 5 = 0xFFFF then words 6 ++ words 7 else 0
      else if words 0 = 0x2002 then words 1 ++ words 2
      else 0
  else (inet.pton ip).getD 0

/-! ## The tables -/

/-- The country, region and city of a range. -/
structure CityLocation where
  countryCode : List Char
  region : List Char
  city : List Char
  deriving DecidableEq

/-- What is thrown. -/
inductive Fault where
  | invalidFormat
  | unsupportedIp
  | outOfRange
  deriving DecidableEq

/-- The tables, of which there are as many as an address has bits, and how many of them
are looked at. -/
structure IPMapCity2 where
  maxCheckBits : Nat
  maskToLocations : Nat → List (Address × CityLocation)

namespace IPMapCity2

/-- A map without ranges. -/
def new : IPMapCity2 := ⟨0, fun _ => []⟩

def newLine : Char := Char.ofNat 10

def quotationMark : Char := Char.ofNat 34

/-- The location is cut at its first two slashes. -/
def parseCityLocation (cityLocStr : List Char) : CityLocation :=
  match cutAt '/' cityLocStr with
  | (country, none) => ⟨country, [], []⟩
  | (country, some rest) =>
    match cutAt '/' rest with
    | (region, none) => ⟨country, region, []⟩
    | (region, some city) => ⟨country, region, city⟩

/-- A token of a text whose tokens are separated by slashes, and the text behind it. -/
def getToken (text : List Char) : List Char × List Char :=
  (text.dropWhile (· = '/')).span (· ≠ '/')

/-- An address and, behind a slash, the number of its leading bits. -/
def parseIpMask (inet : Inet) (ipMaskStr : List Char) : Option (Nat × Address) :=
  let (ipStr, rest) := getToken ipMaskStr
  let mask := ipToIpv4 inet ipStr
  if mask = 0 then none
  else (Text.strToUnsigned 255 (getToken rest).1).map fun bits => (bits, mask)

/-- Takes the quotation marks off. -/
def unquote (text : List Char) : List Char :=
  if 1 < text.length ∧ text.head? = some quotationMark ∧ text.getLast? = some quotationMark then text.tail.dropLast else text

/-- Adds an entry to a table unless it has one for the address. -/
def insert (level : Nat) (mask : Address) (location : CityLocation) (map : IPMapCity2) : IPMapCity2 :=
  let table := map.maskToLocations level
  { maxCheckBits := max map.maxCheckBits level
    maskToLocations := Function.update map.maskToLocations level
      (if (table.lookup mask).isSome then table else table ++ [(mask, location)]) }

/-- One line of the file. -/
def loadLine (inet : Inet) (map : IPMapCity2) (line : List Char) : Except Fault IPMapCity2 :=
  if line = [] then .ok map
  else
    match cutAt ',' line with
    | (_, none) => .ok map
    | (ipMaskStr, some cityLocStr) =>
      match parseIpMask inet ipMaskStr with
      | none => .error .invalidFormat
      | some (ipBits, ipMask) =>
        if 32 < ipBits then .error .invalidFormat
        -- there is no table for addresses that share no bits
        else if ipBits = 0 then .error .outOfRange
        else .ok (map.insert (32 - ipBits) ipMask (parseCityLocation (unquote cityLocStr)))

/-- The constructor. -/
def load (inet : Inet) (file : List Char) : Except Fault IPMapCity2 :=
  (file.splitOn newLine).foldlM (loadLine inet) new

/-- The loop over the tables. -/
def lookupLoop (map : IPMapCity2) (ip : Address) : Nat → Nat → Address → Option CityLocation
  | 0, _, _ => none
  | count + 1, level, ipMask =>
    match (map.maskToLocations level).lookup (ip &&& ipMask) with
    | some location => some location
    | none => lookupLoop map ip count (level + 1) (ipMask <<< 1)

/-- `city_location_by_addr_`. -/
def cityLocationByAddr_ (map : IPMapCity2) (ip : Address) : Option CityLocation :=
  lookupLoop map ip map.maxCheckBits 0 0xFFFFFFFF#32

/-- `city_location_by_addr`. -/
def cityLocationByAddr (inet : Inet) (map : IPMapCity2) (ip : List Char) : Except Fault (Option CityLocation) :=
  let ipv4 := ipToIpv4 inet ip
  if ipv4 = 0 then .error .unsupportedIp else .ok (map.cityLocationByAddr_ ipv4)

/-! ## What is loaded -/

/-- The addresses whose last bits, as many as the level says, are cleared. -/
def maskAt (level : Nat) : Address := 0xFFFFFFFF#32 <<< level

/-- A range of addresses that share a number of bits, and the text of its location. -/
structure Cidr where
  base : Address
  length : Nat
  locationText : List Char
  positive : 1 ≤ length
  bounded : length ≤ 32
  noHostBits : base &&& maskAt (32 - length) = base

namespace Cidr

/-- The number of bits that may differ. -/
def level (record : Cidr) : Nat := 32 - record.length

/-- The location of a range. -/
def location (record : Cidr) : CityLocation := parseCityLocation (unquote record.locationText)

/-- The line of a range. -/
def line (record : Cidr) : List Char :=
  dotted record.base ++ '/' :: Nat.toDigits 10 record.length ++ ',' :: record.locationText

/-- The addresses of a range. -/
def Contains (record : Cidr) (ip : Address) : Prop := ip &&& maskAt record.level = record.base
  deriving Decidable

end Cidr

/-- A file whose lines are the records, and maybe empty lines. -/
def FileOf (records : List Cidr) (file : List Char) : Prop :=
  (file.splitOn newLine).filter (· ≠ []) = records.map Cidr.line

/-- The location of the longest range that contains an address. -/
def Longest (records : List Cidr) (ip : Address) : Option CityLocation → Prop
  | none => ∀ record ∈ records, ¬record.Contains ip
  | some location => ∃ record ∈ records, record.Contains ip ∧ record.location = location ∧
    ∀ other ∈ records, other.Contains ip → other.length ≤ record.length

/-! ## Lines -/

theorem not_mem_toDigits {character : Char} (other : character.isDigit = false) (number : Nat) :
    character ∉ Nat.toDigits 10 number := by
  intro inside
  rw [Text.digits_toDigits character inside] at other
  cases other

theorem not_mem_dotted {character : Char} (other : character.isDigit = false) (notPoint : character ≠ '.')
    {address : Address} : character ∉ dotted address := by
  simp only [dotted]
  simp [not_mem_toDigits other, notPoint]

/-- The first token of a text is read up to the slash. -/
theorem getToken_cut {front back : List Char} (apart : '/' ∉ front) (nonempty : front ≠ []) :
    getToken (front ++ '/' :: back) = (front, '/' :: back) := by
  obtain ⟨first, rest, rfl⟩ := exists_cons_of_ne_nil nonempty
  have noSlash : first ≠ '/' := fun same => apart (same ▸ mem_cons_self)
  have starts : (first :: rest ++ '/' :: back).dropWhile (· = '/') = first :: rest ++ '/' :: back :=
    dropWhile_cons_of_neg (by simpa using noSlash)
  rw [getToken, starts, span_eq_takeWhile_dropWhile, takeWhile_cut apart, dropWhile_cut apart]

/-- The last token of a text. -/
theorem getToken_last {last : List Char} (apart : '/' ∉ last) : (getToken ('/' :: last)).1 = last := by
  have starts : ('/' :: last).dropWhile (· = '/') = last := by
    rw [dropWhile_cons_of_pos (by simp)]
    cases last with
    | nil => rfl
    | cons first rest =>
      have noSlash : first ≠ '/' := fun same => apart (same ▸ mem_cons_self)
      exact dropWhile_cons_of_neg (by simpa using noSlash)
  rw [getToken, starts, span_eq_takeWhile_dropWhile, takeWhile_whole apart]

/-- The decimal digits of an octet. -/
theorem strToUnsigned_byte {number : Nat} (small : number < 256) :
    Text.strToUnsigned 255 (Nat.toDigits 10 number) = some number :=
  Text.strToUnsigned_toDigits (Nat.le_of_lt_succ small)

variable (inet : Inet)

/-- A written address is read back. -/
theorem ipToIpv4_dotted (address : Address) : ipToIpv4 inet (dotted address) = address := by
  have noColon : ':' ∉ dotted address := not_mem_dotted (by decide) (by decide)
  rw [ipToIpv4, if_neg noColon, inet.pton_dotted, Option.getD_some]

/-- A written range is read back. -/
theorem parseIpMask_record (record : Cidr) :
    parseIpMask inet (dotted record.base ++ '/' :: Nat.toDigits 10 record.length) =
      if record.base = 0 then none else some (record.length, record.base) := by
  have noSlash : '/' ∉ dotted record.base := not_mem_dotted (by decide) (by decide)
  have nonempty : dotted record.base ≠ [] := by
    simp [dotted]
  have small : record.length < 256 := Nat.lt_of_le_of_lt record.bounded (by decide)
  rw [parseIpMask, getToken_cut noSlash nonempty]
  dsimp only
  rw [ipToIpv4_dotted, getToken_last (not_mem_toDigits (by decide) _), strToUnsigned_byte small]
  rfl

/-- A record is added to the table of its level, unless it begins with the address zero. -/
theorem loadLine_record (map : IPMapCity2) (record : Cidr) :
    loadLine inet map record.line =
      if record.base = 0 then .error .invalidFormat
      else .ok (map.insert record.level record.base record.location) := by
  have noComma : ',' ∉ dotted record.base ++ '/' :: Nat.toDigits 10 record.length := by
    simp [not_mem_dotted, not_mem_toDigits]
  have nonempty : record.line ≠ [] := by
    simp [Cidr.line]
  have cut : cutAt ',' record.line =
      (dotted record.base ++ '/' :: Nat.toDigits 10 record.length, some record.locationText) := by
    exact cutAt_cut noComma
  rw [loadLine, if_neg nonempty, cut]
  dsimp only
  rw [parseIpMask_record]
  by_cases isZero : record.base = 0
  · rw [if_pos isZero, if_pos isZero]
  · have positive := record.positive
    have bounded := record.bounded
    rw [if_neg isZero, if_neg isZero]
    dsimp only
    rw [if_neg (by omega), if_neg (by omega)]
    rfl

/-- Empty lines are passed over. -/
theorem foldlM_loadLine_filter (lines : List (List Char)) (map : IPMapCity2) :
    lines.foldlM (loadLine inet) map = (lines.filter (· ≠ [])).foldlM (loadLine inet) map := by
  induction lines generalizing map with
  | nil => rfl
  | cons line rest ih =>
    by_cases empty : line = []
    · subst empty
      exact ih map
    · simp [empty, ih]

/-! ## The tables of the records -/

/-- The tables hold the records. -/
structure Holds (map : IPMapCity2) (records : List Cidr) : Prop where
  table : ∀ level mask, (map.maskToLocations level).lookup mask =
    (records.find? fun record => record.level = level ∧ record.base = mask).map Cidr.location
  checked : ∀ level, level < map.maxCheckBits ↔ ∃ record ∈ records, level < record.level

theorem new_holds : Holds new [] where
  table := fun _ _ => rfl
  checked := by
    simp [new]

/-- An entry is added behind the others. -/
theorem lookup_insert (map : IPMapCity2) (level other : Nat) (mask wanted : Address) (location : CityLocation) :
    ((map.insert level mask location).maskToLocations other).lookup wanted =
      ((map.maskToLocations other).lookup wanted).or
        (if level = other ∧ mask = wanted then some location else none) := by
  by_cases sameLevel : level = other
  · subst sameLevel
    cases found : (map.maskToLocations level).lookup mask with
    | none =>
      by_cases sameMask : mask = wanted
      · subst sameMask
        simp [IPMapCity2.insert, found, lookup_append]
      · have different : (wanted == mask) = false := by
          simpa using fun same : wanted = mask => sameMask same.symm
        simp [IPMapCity2.insert, found, lookup_append, lookup_cons, sameMask, different]
    | some first =>
      by_cases sameMask : mask = wanted
      · subst sameMask
        simp [IPMapCity2.insert, found]
      · simp [IPMapCity2.insert, found, sameMask]
  · have untouched : other ≠ level := fun same => sameLevel same.symm
    simp [IPMapCity2.insert, Function.update_of_ne untouched, sameLevel]

variable {records : List Cidr} {map : IPMapCity2}

/-- A range that is loaded is held. -/
theorem Holds.insert (holds : Holds map records) {record : Cidr} :
    Holds (map.insert record.level record.base record.location) (records ++ [record]) where
  table := by
    intro level mask
    rw [lookup_insert, holds.table, List.find?_append]
    cases records.find? fun record => record.level = level ∧ record.base = mask with
    | some first => rfl
    | none =>
      by_cases isWanted : record.level = level ∧ record.base = mask
      · simp [isWanted]
      · simp [isWanted]
  checked := by
    simp [IPMapCity2.insert, holds.checked]

/-- The records are added one after another. -/
theorem foldlM_records {done : List Cidr} (holds : Holds map done)
    (nonzero : ∀ record ∈ records, record.base ≠ 0) :
    ∃ map', (records.map Cidr.line).foldlM (loadLine inet) map = .ok map' ∧ Holds map' (done ++ records) := by
  induction records generalizing map done with
  | nil => exact ⟨map, rfl, by simpa using holds⟩
  | cons record rest ih =>
    have first := nonzero record mem_cons_self
    obtain ⟨map', loaded, holds'⟩ := ih holds.insert fun other later =>
      nonzero other (mem_cons_of_mem _ later)
    refine ⟨map', ?_, by simpa using holds'⟩
    rw [map_cons, foldlM_cons, loadLine_record, if_neg first]
    exact loaded

/-- A record that begins with the address zero is not accepted. -/
theorem foldlM_records_zero (zero : ∃ record ∈ records, record.base = 0) :
    (records.map Cidr.line).foldlM (loadLine inet) map = .error .invalidFormat := by
  induction records generalizing map with
  | nil => simp at zero
  | cons record rest ih =>
    rw [map_cons, foldlM_cons, loadLine_record]
    by_cases first : record.base = 0
    · rw [if_pos first]
      rfl
    · rw [if_neg first]
      apply ih
      obtain ⟨other, member, isZero⟩ := zero
      rcases mem_cons.mp member with rfl | later
      · exact absurd isZero first
      · exact ⟨other, later, isZero⟩

/-- The file is loaded line by line. -/
theorem load_file {file : List Char} (isFile : FileOf records file) :
    load inet file = (records.map Cidr.line).foldlM (loadLine inet) new := by
  rw [load, foldlM_loadLine_filter, isFile]

/-! ## Looking up -/

/-- The table of a level has an entry for an address exactly if a record of the level
contains the address. -/
def matchAt (records : List Cidr) (ip : Address) (level : Nat) : Option CityLocation :=
  (records.find? fun record => record.level = level ∧ record.base = ip &&& maskAt level).map Cidr.location

/-- The loop looks for the narrowest range first. -/
theorem lookupLoop_eq (holds : Holds map records) {ip : Address} {count level : Nat} :
    lookupLoop map ip count level (maskAt level) =
      (List.range' level count).findSome? (matchAt records ip) := by
  induction count generalizing level with
  | zero => rfl
  | succ count ih =>
    have shifted : maskAt level <<< 1 = maskAt (level + 1) := by
      rw [maskAt, maskAt, BitVec.shiftLeft_add]
    have entry : (map.maskToLocations level).lookup (ip &&& maskAt level) = matchAt records ip level :=
      holds.table _ _
    rw [lookupLoop, List.range'_succ, List.findSome?_cons, entry, shifted, ih]
    cases matchAt records ip level <;> rfl

/-- No range of a level holds the address. -/
theorem matchAt_eq_none {ip : Address} {level : Nat} :
    matchAt records ip level = none ↔ ∀ record ∈ records, record.level = level → ¬record.Contains ip := by
  rw [matchAt, Option.map_eq_none_iff, List.find?_eq_none]
  constructor
  · intro notFound record member isLevel contains
    subst isLevel
    exact notFound record member (by simpa using contains.symm)
  · intro notThere record member found
    obtain ⟨isLevel, isBase⟩ := of_decide_eq_true found
    subst isLevel
    exact notThere record member rfl isBase.symm

/-- A range of a level holds the address. -/
theorem matchAt_eq_some {ip : Address} {level : Nat} {location : CityLocation}
    (found : matchAt records ip level = some location) :
    ∃ record ∈ records, record.level = level ∧ record.Contains ip ∧ record.location = location := by
  obtain ⟨record, isFirst, isLocation⟩ := Option.map_eq_some_iff.mp found
  have passed := List.find?_some isFirst
  obtain ⟨isLevel, isBase⟩ := of_decide_eq_true passed
  subst isLevel
  exact ⟨record, mem_of_find?_eq_some isFirst, rfl, isBase.symm, isLocation⟩

/-- What is found first is found at a level below which there is nothing. -/
theorem findSome?_range_eq_some {found : Nat → Option CityLocation} {count : Nat} {location : CityLocation}
    (isFound : (List.range' 0 count).findSome? found = some location) :
    ∃ level < count, found level = some location ∧ ∀ lower < level, found lower = none := by
  obtain ⟨front, level, back, split, here, before⟩ := List.findSome?_eq_some_iff.mp isFound
  obtain ⟨size, within, rfl, isBack⟩ := List.range'_eq_append_iff.mp split
  obtain ⟨isLevel, positive, -⟩ := List.range'_eq_cons_iff.mp isBack.symm
  refine ⟨level, by omega, here, fun lower below => before lower ?_⟩
  rw [mem_range'_1]
  omega

/-- The loop finds the longest range of those that are looked at, which are all but the
shortest ones. -/
theorem longest_iff_of_holds (holds : Holds map records) (ip : Address) :
    Longest records ip (map.cityLocationByAddr_ ip) ↔
      ∀ record ∈ records, record.Contains ip →
        ∃ longer ∈ records, longer.Contains ip ∧ ∃ shorter ∈ records, shorter.length < longer.length := by
  have looked : map.cityLocationByAddr_ ip =
      (List.range' 0 map.maxCheckBits).findSome? (matchAt records ip) := lookupLoop_eq holds
  rw [looked]
  cases isFound : (List.range' 0 map.maxCheckBits).findSome? (matchAt records ip) with
  | none =>
    have nothing := List.findSome?_eq_none_iff.mp isFound
    constructor
    · intro notThere record member contains
      exact absurd contains (notThere record member)
    · intro longerThere record member contains
      obtain ⟨longer, isLonger, contains', shorter, isShorter, below⟩ := longerThere record member contains
      have bounded := longer.bounded
      have isChecked : longer.level < map.maxCheckBits := by
        refine (holds.checked _).mpr ⟨shorter, isShorter, ?_⟩
        simp only [Cidr.level]
        omega
      have notThere := matchAt_eq_none.mp (nothing longer.level (by simpa using isChecked))
      exact notThere longer isLonger rfl contains'
  | some location =>
    obtain ⟨level, isChecked, here, below⟩ := findSome?_range_eq_some isFound
    obtain ⟨record, member, rfl, contains, isLocation⟩ := matchAt_eq_some here
    have isLongest : ∀ other ∈ records, other.Contains ip → other.length ≤ record.length := by
      intro other isOther contains'
      by_contra longer
      have bounded := other.bounded
      have lower : other.level < record.level := by
        simp only [Cidr.level]
        omega
      exact matchAt_eq_none.mp (below other.level lower) other isOther rfl contains'
    constructor
    · intro _ _ _ _
      obtain ⟨shorter, isShorter, above⟩ := (holds.checked record.level).mp isChecked
      simp only [Cidr.level] at above
      exact ⟨record, member, contains, shorter, isShorter, by omega⟩
    · intro _
      exact ⟨record, member, contains, isLocation, isLongest⟩

/-! ## A system that reads four numbers -/

def readDotted (text : List Char) : Option Address :=
  match (text.splitOn '.').mapM (Text.strToUnsigned 255) with
  | some [first, second, third, fourth] =>
    some (BitVec.ofNat 32 (first * 2 ^ 24 + second * 2 ^ 16 + third * 2 ^ 8 + fourth))
  | _ => none

theorem readDotted_dotted (address : Address) : readDotted (dotted address) = some address := by
  have parts : (dotted address).splitOn '.' =
      [Nat.toDigits 10 (address.toNat / 2 ^ 24), Nat.toDigits 10 (address.toNat / 2 ^ 16 % 2 ^ 8),
        Nat.toDigits 10 (address.toNat / 2 ^ 8 % 2 ^ 8), Nat.toDigits 10 (address.toNat % 2 ^ 8)] := by
    rw [← splitOn_intercalate '.' _ (cons_ne_nil _ _)]
    · simp [dotted]
    · simp [not_mem_toDigits]
  rw [readDotted, parts]
  simp only [mapM_cons, mapM_nil]
  rw [strToUnsigned_byte (by omega), strToUnsigned_byte (by omega), strToUnsigned_byte (by omega),
    strToUnsigned_byte (by omega)]
  simp only [Option.pure_def, Option.bind_eq_bind, Option.bind_some, Option.some.injEq]
  apply BitVec.eq_of_toNat_eq
  rw [BitVec.toNat_ofNat]
  omega

def dottedInet : Inet := ⟨readDotted, fun _ => none, readDotted_dotted⟩

/-! ## The answers -/

/-- The answer for an address in a file. -/
def Answered (inet : Inet) (file : List Char) (ip : Address) (records : List Cidr) : Prop :=
  ∃ map result, load inet file = .ok map ∧ map.cityLocationByAddr inet (dotted ip) = .ok result ∧
    Longest records ip result

/-- The location of the longest range that contains an address is found exactly if no
range begins with the address zero, and either no range contains the address or one does
that is longer than the shortest of the file. -/
theorem lookup_longest_iff (inet : Inet) (records : List Cidr) (file : List Char) (isFile : FileOf records file)
    (ip : Address) (nonzero : ip ≠ 0) :
    Answered inet file ip records ↔
      (∀ record ∈ records, record.base ≠ 0) ∧
        ∀ record ∈ records, record.Contains ip →
          ∃ longer ∈ records, longer.Contains ip ∧ ∃ shorter ∈ records, shorter.length < longer.length := by
  have answered : ∀ map : IPMapCity2,
      map.cityLocationByAddr inet (dotted ip) = .ok (map.cityLocationByAddr_ ip) := by
    intro map
    rw [cityLocationByAddr, ipToIpv4_dotted]
    exact if_neg nonzero
  by_cases allNonzero : ∀ record ∈ records, record.base ≠ 0
  · obtain ⟨map, loaded, holds⟩ := foldlM_records inet new_holds allNonzero
    have isLongest := longest_iff_of_holds holds ip
    constructor
    · rintro ⟨map', result, loaded', found, longest⟩
      rw [load_file inet isFile, loaded] at loaded'
      cases loaded'
      rw [answered] at found
      cases found
      exact ⟨allNonzero, isLongest.mp longest⟩
    · rintro ⟨-, longerThere⟩
      exact ⟨map, _, (load_file inet isFile).trans loaded, answered map, isLongest.mpr longerThere⟩
  · have zero : ∃ record ∈ records, record.base = 0 := by
      simpa using allNonzero
    constructor
    · rintro ⟨map, result, loaded, -⟩
      rw [load_file inet isFile, foldlM_records_zero inet zero] at loaded
      cases loaded
    · rintro ⟨every, -⟩
      exact absurd every allNonzero

/-- The range 10.0.0.0/8. -/
def wideRange : Cidr := ⟨0x0A000000#32, 8, ['U', 'S'], by decide, by decide, by decide⟩

/-- The range 10.1.0.0/16. -/
def narrowRange : Cidr := ⟨0x0A010000#32, 16, ['D', 'E', '/', '/', 'B'], by decide, by decide, by decide⟩

theorem narrowRange_found :
    FileOf [wideRange, narrowRange] (wideRange.line ++ newLine :: narrowRange.line) ∧
      Answered dottedInet (wideRange.line ++ newLine :: narrowRange.line) 0x0A010203#32 [wideRange, narrowRange] := by
  have isFile : FileOf [wideRange, narrowRange] (wideRange.line ++ newLine :: narrowRange.line) := by
    unfold FileOf
    decide +kernel
  refine ⟨isFile, (lookup_longest_iff dottedInet _ _ isFile _ (by decide)).mpr ⟨by decide, ?_⟩⟩
  decide

/-- The only range of a file is not looked at. -/
theorem onlyRange_not_found :
    FileOf [wideRange] wideRange.line ∧ (0x0A000001#32 : Address) ≠ 0 ∧
      ¬Answered dottedInet wideRange.line 0x0A000001#32 [wideRange] := by
  have isFile : FileOf [wideRange] wideRange.line := by
    unfold FileOf
    decide +kernel
  refine ⟨isFile, by decide, ?_⟩
  rintro ⟨map, result, loaded, found, longest⟩
  have notFound : (load dottedInet wideRange.line).toOption.map
      (fun map => (map.cityLocationByAddr dottedInet (dotted 0x0A000001#32)).toOption) = some (some none) := by
    decide +kernel
  rw [loaded] at notFound
  change some (map.cityLocationByAddr dottedInet (dotted 0x0A000001#32)).toOption = _ at notFound
  rw [found] at notFound
  obtain rfl : result = none := Option.some.inj (Option.some.inj notFound)
  exact longest wideRange mem_cons_self (by decide)

end IPMapCity2

end UnixCommons.GeoIP
