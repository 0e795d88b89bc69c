import UnixCommons.Language.Dictionary
import UnixCommons.String.WideText

/-!
# Segmentation of a text by the Polyglot tokenizer

`bi_tokenize` goes through the text from its end. Every position gets the weight of the best
way to go on from there: as an unknown symbol, with a word of the dictionary, or with an
unknown word that ends in a listed suffix, which is recorded back where the word begins.
`bi_tokenize_reconstruct` then goes through the text from its beginning, follows the best
variants and collects runs of unknown symbols.

Whatever the weights are, every recorded variant ends behind the position it is recorded at,
and a position that is heavier than an unknown symbol has a variant. Therefore the second
pass always moves on, and what it has written together with the run it is in is what it has
passed.

Bigrams are not compiled in, so that no variant has a next node.
-/

namespace UnixCommons.Polyglot

open Text List

/-- `is_asian_char`. -/
def isAsianChar (ch : Nat) : Bool :=
  (0x1100 ≤ ch ∧ ch < 0x11FA) ∨ (0x2E80 ≤ ch ∧ ch < 0x2EF3) ∨ (0x2F00 ≤ ch ∧ ch < 0x2FD6) ∨
  (0x2FF0 ≤ ch ∧ ch < 0x2FFC) ∨ (0x3041 ≤ ch ∧ ch < 0x3100) ∨ (0x3105 ≤ ch ∧ ch < 0x312E) ∨
  (0x3131 ≤ ch ∧ ch < 0x318F) ∨ (0x3190 ≤ ch ∧ ch < 0x31B8) ∨ (0x31C0 ≤ ch ∧ ch < 0x31E4) ∨
  (0x31F0 ≤ ch ∧ ch < 0x4DB6) ∨ (0x4E00 ≤ ch ∧ ch < 0x9FBC) ∨ (0xAC00 ≤ ch ∧ ch < 0xD7A4) ∨
  (0xF900 ≤ ch ∧ ch < 0xFADA) ∨ (0xFE10 ≤ ch ∧ ch < 0xFE1A) ∨ (0xFE30 ≤ ch ∧ ch < 0xFE50) ∨
  (0x2F800 ≤ ch ∧ ch < 0x2FA1E) ∨ (0x20000 ≤ ch ∧ ch < 0x2A6D6)

/-- How weights are collected. `collectFreq` is the overload for two weights. -/
structure WeightCollector (Weight Node : Type) where
  start : Weight
  unknownSymbol : Weight → Weight
  unknownWordStart : Weight
  unknownWordStartFrom : Weight → Weight
  collect : Weight → Node → Weight
  collectFreq : Weight → Int → Weight

/-- `SumWeightCollector`, of the least weight of the dictionary. -/
def sumWeightCollector {Node : Type} (freq : Node → Int) (minWeight : Int) :
    WeightCollector Int Node where
  start := 0
  unknownSymbol weight := minWeight + 1 + weight
  unknownWordStart := minWeight + 1
  unknownWordStartFrom weight := minWeight + 1 + weight
  collect weight node := weight + freq node
  collectFreq weight freq := weight + freq

/-- How a piece of the text is written, with the word it was found as. -/
abbrev NormalizeStrategy (Node : Type) := Word → Option Node → List UInt8

/-- The words of a plain dictionary are taken as they are. -/
def nullNormalizeStrategy : NormalizeStrategy DictionaryNode :=
  fun piece _ => wcharsToUtf8 piece

/-- A piece that begins at a point and ends before `sepPos`. -/
structure Variant (Weight Node : Type) where
  node : Node
  weight : Weight
  sepPos : Nat

/-- A position of the text with its weight and the pieces that begin there. -/
structure BiTokenizePoint (Weight Node : Type) where
  weight : Weight
  unkWeight : Weight
  variants : List (Variant Weight Node) := []
  suffixVariants : List (Variant Weight Suffix) := []

section Model

variable {Weight Node : Type} [LT Weight] [DecidableLT Weight] [DecidableEq Weight]
variable (incHash : IncHash) (coll : WeightCollector Weight Node)
variable (dict : IncHashTable Node) (suffixDict : IncHashTable SuffixDictionaryNode)

abbrev Points (Weight Node : Type) := List (BiTokenizePoint Weight Node)

/-- `std::max`. -/
def heavier (weight other : Weight) : Weight := if weight < other then other else weight

/-- The point of an unknown symbol, as the points are before the first pass. -/
def unknownPoint : BiTokenizePoint Weight Node where
  weight := coll.unknownWordStart
  unkWeight := coll.unknownWordStart

/-- The point of a position. -/
def pointAt (vec : Points Weight Node) (pos : Nat) : BiTokenizePoint Weight Node :=
  vec.getD pos (unknownPoint coll)

/-- The points before the text is read: only its end has a weight. -/
def initialPoints (size : Nat) : Points Weight Node :=
  List.replicate size (unknownPoint coll) ++
    [{ weight := coll.start, unkWeight := coll.unknownWordStart }]

/-- A word that begins at the point. -/
def BiTokenizePoint.addVariant (point : BiTokenizePoint Weight Node)
    (variant : Variant Weight Node) : BiTokenizePoint Weight Node :=
  { point with
    weight := heavier point.weight variant.weight
    variants := point.variants ++ [variant] }

/-- A suffix that begins at the point. -/
def BiTokenizePoint.addSuffixVariant (point : BiTokenizePoint Weight Node)
    (variant : Variant Weight Suffix) : BiTokenizePoint Weight Node :=
  { point with
    weight := heavier point.weight variant.weight
    suffixVariants := point.suffixVariants ++ [variant] }

/-- Drops the suffixes that a separator has cut off and weighs the point anew. -/
def BiTokenizePoint.recalculate (point : BiTokenizePoint Weight Node) (unkWeight : Weight)
    (nextSepPos : Nat) : BiTokenizePoint Weight Node :=
  let kept := point.suffixVariants.filter (·.sepPos ≤ nextSepPos)
  { point with
    unkWeight := unkWeight
    suffixVariants := kept
    weight := kept.foldl (fun weight variant => heavier weight variant.weight) unkWeight }

/-- The characters from a position on are given to a finder; `record` is called with the
position behind each element that is found. -/
def search {Element : Type} (table : IncHashTable Element)
    (record : Nat → Element → Points Weight Node → Points Weight Node) :
    Word → Nat → ConstFinder → Points Weight Node → Points Weight Node
  | [], _, _, vec => vec
  | ch :: rest, wordJ, finder, vec =>
    let finder := finder.append incHash ch
    let vec := (table.element finder).elim vec fun element => record (wordJ + 1) element vec
    if table.continues finder then search table record rest (wordJ + 1) finder vec else vec

/-- A word of the dictionary from `wordI` up to `sepPos`. -/
def recordWord (wordI sepPos : Nat) (node : Node) (vec : Points Weight Node) : Points Weight Node :=
  let weight := coll.collect (pointAt coll vec sepPos).weight node
  vec.modify wordI (·.addVariant ⟨node, weight, sepPos⟩)

/-- An unknown word that ends in a suffix before `sepPos`, if the text reaches so far back. -/
def recordSuffix (sepPos : Nat) (suffix : Suffix) (vec : Points Weight Node) : Points Weight Node :=
  if suffix.length ≤ sepPos then
    let weight := coll.collectFreq (pointAt coll vec sepPos).weight suffix.freq
    vec.modify (sepPos - suffix.length).toNat (·.addSuffixVariant ⟨suffix, weight, sepPos⟩)
  else vec

/-- All suffixes of a node. -/
def recordSuffixes (sepPos : Nat) (node : SuffixDictionaryNode) (vec : Points Weight Node) :
    Points Weight Node :=
  node.suffixes.foldl (fun vec suffix => recordSuffix coll sepPos suffix vec) vec

/-- The state of the first pass: the points and the nearest separator. -/
structure Progress (Weight Node : Type) where
  vec : Points Weight Node
  nextSepPos : Nat

/-- The body of the first pass. -/
def tokenizeAt (word : Word) (wordI : Nat) (progress : Progress Weight Node) :
    Progress Weight Node :=
  let nextSepPos := if isAsianChar (word.getD wordI 0) then progress.nextSepPos else wordI
  let next := pointAt coll progress.vec (wordI + 1)
  let unkWeight :=
    if next.variants.isEmpty ∧ wordI + 1 ≠ word.length then coll.unknownSymbol next.weight
    else coll.unknownWordStartFrom next.weight
  let weighed := progress.vec.modify wordI (·.recalculate unkWeight nextSepPos)
  let withWords := search incHash dict (recordWord coll wordI) (word.drop wordI) wordI {} weighed
  { vec := search incHash suffixDict (recordSuffixes coll) (word.drop wordI) wordI {} withWords
    nextSepPos := nextSepPos }

/-- The first pass over the positions below a given one, the last one first. -/
def tokenizeBelow (word : Word) : Nat → Progress Weight Node → Progress Weight Node
  | 0, progress => progress
  | wordI + 1, progress =>
    tokenizeBelow word wordI (tokenizeAt incHash coll dict suffixDict word wordI progress)

/-- `bi_tokenize`. -/
def biTokenize (word : Word) : Points Weight Node :=
  (tokenizeBelow incHash coll dict suffixDict word word.length
    ⟨initialPoints coll word.length, word.length⟩).vec

/-- The first of the heaviest variants. -/
def heaviest {Found : Type} (best : Variant Weight Found) :
    List (Variant Weight Found) → Variant Weight Found
  | [] => best
  | variant :: rest => heaviest (if best.weight < variant.weight then variant else best) rest

/-- The suffix that is chosen over a word of weight `cmpWeight`, if one is heavier. -/
def overtaking (cmpWeight : Weight) (chosen : Option (Variant Weight Suffix)) :
    List (Variant Weight Suffix) → Option (Variant Weight Suffix)
  | [] => chosen
  | variant :: rest =>
    if cmpWeight < variant.weight then overtaking variant.weight (some variant) rest
    else overtaking cmpWeight chosen rest

/-- The end of the variant that is followed from a point, with its word if it is not a
suffix; none when there is no variant at all. -/
def BiTokenizePoint.follow (point : BiTokenizePoint Weight Node) : Option (Nat × Option Node) :=
  match point.variants, point.suffixVariants with
  | [], [] => none
  | [], suffix :: suffixes => some ((heaviest suffix suffixes).sepPos, none)
  | variant :: variants, suffixes =>
    let best := heaviest variant variants
    match overtaking best.weight none suffixes with
    | none => some (best.sepPos, some best.node)
    | some suffix => some (suffix.sepPos, none)

/-- The characters from `first` up to `last`. -/
def slice (phrase : Word) (first last : Nat) : Word := (phrase.take last).drop first

/-- Writes the run of unknown symbols that ends at a position. -/
def writeUnknown (phrase : Word) (unknownSeqI : Option Nat) (wordI : Nat)
    (res : List (List UInt8)) : List (List UInt8) :=
  unknownSeqI.elim res fun first => res ++ [wcharsToUtf8 (slice phrase first wordI)]

/-- A piece that is written as nothing is left out. -/
def writePiece (piece : List UInt8) (res : List (List UInt8)) : List (List UInt8) :=
  if piece.isEmpty then res else res ++ [piece]

/-- The second pass. There is no result when the rounds do not suffice, or when a point
without variants is to be followed. -/
def reconstructLoop (strategy : NormalizeStrategy Node) (phrase : Word)
    (vec : Points Weight Node) :
    Nat → Nat → Option Nat → List (List UInt8) → Option (List (List UInt8))
  | 0, _, _, _ => none
  | rounds + 1, wordI, unknownSeqI, res =>
    if phrase.length ≤ wordI then some (writeUnknown phrase unknownSeqI phrase.length res)
    else
      let point := pointAt coll vec wordI
      if point.unkWeight = point.weight then
        reconstructLoop strategy phrase vec rounds (wordI + 1) (some (unknownSeqI.getD wordI)) res
      else
        match point.follow with
        | none => none
        | some (wordEnd, node) =>
          reconstructLoop strategy phrase vec rounds wordEnd none
            (writePiece (strategy (slice phrase wordI wordEnd) node)
              (writeUnknown phrase unknownSeqI wordI res))

/-- `bi_tokenize_reconstruct`. -/
def biTokenizeReconstruct (strategy : NormalizeStrategy Node) (phrase : Word)
    (vec : Points Weight Node) : Option (List (List UInt8)) :=
  reconstructLoop coll strategy phrase vec (phrase.length + 1) 0 none []

/-- `segment`. The wide text ends at its first NUL. -/
def segment (strategy : NormalizeStrategy Node) (octets : List UInt8) :
    Option (Except WideFault (List (List UInt8))) :=
  match utf8ToWchar octets with
  | .error fault => some (.error fault)
  | .ok wide =>
    let phrase := wide.takeWhile (· ≠ 0)
    if phrase.isEmpty then some (.ok [])
    else
      (biTokenizeReconstruct coll strategy phrase
        (biTokenize incHash coll dict suffixDict phrase)).map .ok

end Model

variable {size pos wordI sepPos : Nat} {word phrase : Word}

section FirstPass

variable {Weight Node : Type} {incHash : IncHash} {coll : WeightCollector Weight Node}
variable {dict : IncHashTable Node} {suffixDict : IncHashTable SuffixDictionaryNode}

/-- What the second pass relies on at a position of a text of the given size. -/
structure BiTokenizePoint.Sound (size pos : Nat) (point : BiTokenizePoint Weight Node) : Prop where
  word : ∀ variant ∈ point.variants, pos < variant.sepPos ∧ variant.sepPos ≤ size
  suffix : ∀ variant ∈ point.suffixVariants, pos < variant.sepPos ∧ variant.sepPos ≤ size
  unknown : point.variants = [] → point.suffixVariants = [] → point.unkWeight = point.weight

/-- All points are sound. -/
def PointsSound (coll : WeightCollector Weight Node) (size : Nat) (vec : Points Weight Node) : Prop :=
  ∀ pos < size, (pointAt coll vec pos).Sound size pos

theorem unknownPoint_sound : (unknownPoint coll).Sound size pos :=
  ⟨nofun, nofun, fun _ _ => rfl⟩

theorem initialPoints_sound : PointsSound coll size (initialPoints coll size) := by
  intro pos inside
  have unchanged : pointAt coll (initialPoints coll size) pos = unknownPoint coll := by
    simp [pointAt, initialPoints, List.getElem?_append_left, inside]
  rw [unchanged]
  exact unknownPoint_sound

variable {vec : Points Weight Node}

/-- Points stay sound when one of them is changed into a sound one. -/
theorem PointsSound.modify (sound : PointsSound coll size vec)
    {changed : Nat} {change : BiTokenizePoint Weight Node → BiTokenizePoint Weight Node}
    (keeps : ∀ point : BiTokenizePoint Weight Node, point.Sound size changed →
      (change point).Sound size changed) :
    PointsSound coll size (vec.modify changed change) := by
  intro pos inside
  have former := sound pos inside
  by_cases same : changed = pos
  · subst same
    unfold pointAt at former ⊢
    rw [getD_eq_getElem?_getD] at former ⊢
    rw [List.getElem?_modify_eq]
    cases found : vec[changed]? with
    | none => exact unknownPoint_sound
    | some point =>
      rw [found] at former
      exact keeps point former
  · unfold pointAt at former ⊢
    rw [getD_eq_getElem?_getD] at former ⊢
    rw [List.getElem?_modify_ne _ _ same]
    exact former

/-- A search keeps the points sound when every element it finds is recorded soundly. -/
theorem search_sound {Element : Type} {table : IncHashTable Element}
    {record : Nat → Element → Points Weight Node → Points Weight Node}
    {rest : Word} {wordJ : Nat} (inText : wordJ + rest.length ≤ size)
    (keeps : ∀ sepPos element vec, wordJ < sepPos → sepPos ≤ size →
      (∃ entry ∈ table.mainTable, entry.2 = element) →
      PointsSound coll size vec → PointsSound coll size (record sepPos element vec))
    (finder : ConstFinder) (sound : PointsSound coll size vec) :
    PointsSound coll size (search incHash table record rest wordJ finder vec) := by
  induction rest generalizing wordJ finder vec with
  | nil => exact sound
  | cons ch rest ih =>
    have room : wordJ + 1 + rest.length ≤ size := by
      simp only [length_cons] at inText
      omega
    have recorded : PointsSound coll size
        ((table.element (finder.append incHash ch)).elim vec
          fun element => record (wordJ + 1) element vec) := by
      cases found : table.element (finder.append incHash ch) with
      | none => exact sound
      | some element =>
        exact keeps (wordJ + 1) element vec (Nat.lt_succ_self wordJ) (by omega)
          (IncHashTable.mem_of_element found) sound
    simp only [search]
    split_ifs with more
    · exact ih room
        (fun sepPos element vec after => keeps sepPos element vec (by omega)) _ recorded
    · exact recorded

variable [LT Weight] [DecidableLT Weight] {point : BiTokenizePoint Weight Node}

/-- A word that ends behind the point keeps it sound. -/
theorem BiTokenizePoint.Sound.addVariant (sound : point.Sound size pos)
    {variant : Variant Weight Node} (behind : pos < variant.sepPos ∧ variant.sepPos ≤ size) :
    (point.addVariant variant).Sound size pos where
  __ := sound
  word := by
    intro other inside
    rcases mem_append.mp inside with old | new
    · exact sound.word other old
    · rw [mem_singleton.mp new]
      exact behind
  unknown none := absurd none (by simp [BiTokenizePoint.addVariant])

/-- A suffix that ends behind the point keeps it sound. -/
theorem BiTokenizePoint.Sound.addSuffixVariant (sound : point.Sound size pos)
    {variant : Variant Weight Suffix} (behind : pos < variant.sepPos ∧ variant.sepPos ≤ size) :
    (point.addSuffixVariant variant).Sound size pos where
  __ := sound
  suffix := by
    intro other inside
    rcases mem_append.mp inside with old | new
    · exact sound.suffix other old
    · rw [mem_singleton.mp new]
      exact behind
  unknown _ none := absurd none (by simp [BiTokenizePoint.addSuffixVariant])

/-- The weight of an unknown piece keeps the point sound. -/
theorem BiTokenizePoint.Sound.recalculate (sound : point.Sound size pos) {unkWeight : Weight}
    {nextSepPos : Nat} :
    (point.recalculate unkWeight nextSepPos).Sound size pos where
  word := sound.word
  suffix variant inside := sound.suffix variant (mem_of_mem_filter inside)
  unknown _ none := by
    simp only [BiTokenizePoint.recalculate] at none ⊢
    rw [none]
    rfl

/-- A suffix of a positive length is recorded before its end. -/
theorem recordSuffix_sound (inText : sepPos ≤ size) {suffix : Suffix} (positive : 0 < suffix.length)
    (sound : PointsSound coll size vec) :
    PointsSound coll size (recordSuffix coll sepPos suffix vec) := by
  unfold recordSuffix
  split_ifs with reaches
  · exact sound.modify fun _ former => former.addSuffixVariant ⟨by dsimp only; omega, inText⟩
  · exact sound

/-- The suffixes keep the points sound. -/
theorem recordSuffixes_sound (inText : sepPos ≤ size) {node : SuffixDictionaryNode}
    (positive : ∀ suffix ∈ node.suffixes, 0 < suffix.length) (sound : PointsSound coll size vec) :
    PointsSound coll size (recordSuffixes coll sepPos node vec) := by
  unfold recordSuffixes
  generalize node.suffixes = suffixes at positive
  induction suffixes generalizing vec with
  | nil => exact sound
  | cons suffix suffixes ih =>
    obtain ⟨first, others⟩ := forall_mem_cons.mp positive
    exact ih (recordSuffix_sound inText first sound) others

variable {progress : Progress Weight Node}

section

variable (positive : PositiveLengths suffixDict) (inText : wordI ≤ word.length)
  (sound : PointsSound coll word.length progress.vec)
include positive inText sound

/-- One round of the first pass keeps the points sound. -/
theorem tokenizeAt_sound :
    PointsSound coll word.length
      (tokenizeAt incHash coll dict suffixDict word wordI progress).vec := by
  have room : wordI + (word.drop wordI).length ≤ word.length := by
    rw [length_drop]
    omega
  apply search_sound room
  · rintro sepPos _ vec _ inText ⟨entry, listed, rfl⟩ former
    exact recordSuffixes_sound inText (positive entry listed) former
  · apply search_sound room
    · intro sepPos node vec behind inText _ former
      exact former.modify fun _ point => point.addVariant ⟨behind, inText⟩
    · exact sound.modify fun _ former => former.recalculate

/-- The points of a text are sound. -/
theorem tokenizeBelow_sound :
    PointsSound coll word.length
      (tokenizeBelow incHash coll dict suffixDict word wordI progress).vec := by
  induction wordI generalizing progress with
  | zero => exact sound
  | succ wordI ih =>
    exact ih (Nat.le_of_succ_le inText)
      (tokenizeAt_sound positive (Nat.le_of_succ_le inText) sound)

end

end FirstPass

section SecondPass

variable {Weight Node : Type} [LT Weight] [DecidableLT Weight]

/-- The heaviest piece is one of them. -/
theorem heaviest_mem {Found : Type} {best : Variant Weight Found} {variants : List (Variant Weight Found)} :
    heaviest best variants ∈ best :: variants := by
  induction variants generalizing best with
  | nil => exact mem_singleton.mpr rfl
  | cons variant variants ih =>
    have chosen := @ih (if best.weight < variant.weight then variant else best)
    simp only [heaviest]
    rcases mem_cons.mp chosen with first | later
    · rw [first]
      split_ifs <;> simp
    · exact mem_cons_of_mem _ (mem_cons_of_mem _ later)

/-- An overtaking suffix is one of them. -/
theorem overtaking_mem {cmpWeight : Weight} {chosen : Option (Variant Weight Suffix)}
    {suffixes : List (Variant Weight Suffix)} {suffix : Variant Weight Suffix}
    (taken : overtaking cmpWeight chosen suffixes = some suffix) :
    chosen = some suffix ∨ suffix ∈ suffixes := by
  induction suffixes generalizing cmpWeight chosen with
  | nil => exact .inl taken
  | cons variant suffixes ih =>
    simp only [overtaking] at taken
    split_ifs at taken with heavy
    · rcases ih taken with now | later
      · exact .inr (Option.some.inj now ▸ mem_cons_self)
      · exact .inr (mem_cons_of_mem _ later)
    · exact (ih taken).imp_right (mem_cons_of_mem _)

/-- A sound point that is no unknown symbol is left for a position behind it. -/
theorem BiTokenizePoint.Sound.follow {point : BiTokenizePoint Weight Node}
    (sound : point.Sound size pos) (known : point.unkWeight ≠ point.weight) :
    ∃ wordEnd node, point.follow = some (wordEnd, node) ∧ pos < wordEnd ∧ wordEnd ≤ size := by
  obtain ⟨weight, unkWeight, variants, suffixVariants⟩ := point
  cases variants with
  | nil =>
    cases suffixVariants with
    | nil => exact absurd (sound.unknown rfl rfl) known
    | cons suffix suffixes =>
      exact ⟨_, _, rfl, sound.suffix _ heaviest_mem⟩
  | cons variant variants =>
    simp only [BiTokenizePoint.follow]
    cases taken : overtaking (heaviest variant variants).weight none suffixVariants with
    | none => exact ⟨_, _, rfl, sound.word _ heaviest_mem⟩
    | some suffix =>
      have listed := (overtaking_mem taken).resolve_left nofun
      exact ⟨_, _, rfl, sound.suffix suffix listed⟩

/-- What has been passed up to a later position. -/
theorem take_slice {first last : Nat} (ordered : first ≤ last) :
    phrase.take first ++ slice phrase first last = phrase.take last := by
  have front : phrase.take first = (phrase.take last).take first := by
    rw [take_take, min_eq_left ordered]
  rw [slice, front, take_append_drop]

theorem flatten_writePiece (piece : List UInt8) (res : List (List UInt8)) :
    (writePiece piece res).flatten = res.flatten ++ piece := by
  unfold writePiece
  split_ifs with empty
  · simp [isEmpty_iff.mp empty]
  · simp

/-- The invariant of the second pass: what is written is the text up to the run of unknown
symbols, or up to the position outside of a run. -/
structure Passed (phrase : Word) (wordI : Nat) (unknownSeqI : Option Nat)
    (res : List (List UInt8)) : Prop where
  ordered : unknownSeqI.getD wordI ≤ wordI
  written : res.flatten = wcharsToUtf8 (phrase.take (unknownSeqI.getD wordI))

namespace Passed

variable {phrase : Word} {wordI : Nat} {unknownSeqI : Option Nat} {res : List (List UInt8)}

variable (passed : Passed phrase wordI unknownSeqI res)
include passed

/-- One more unknown symbol. -/
theorem unknown :
    Passed phrase (wordI + 1) (some (unknownSeqI.getD wordI)) res :=
  ⟨Nat.le_succ_of_le passed.ordered, passed.written⟩

/-- With the run written, the text is written up to the position. -/
theorem flatten_writeUnknown :
    (writeUnknown phrase unknownSeqI wordI res).flatten = wcharsToUtf8 (phrase.take wordI) := by
  cases unknownSeqI with
  | none => exact passed.written
  | some first =>
    have joined : phrase.take first ++ slice phrase first wordI = phrase.take wordI :=
      take_slice passed.ordered
    have written : res.flatten = wcharsToUtf8 (phrase.take first) := passed.written
    simp [writeUnknown, written, ← wcharsToUtf8_append, joined]

/-- A piece is followed. -/
theorem piece {wordEnd : Nat} (behind : wordI ≤ wordEnd) :
    Passed phrase wordEnd none
      (writePiece (wcharsToUtf8 (slice phrase wordI wordEnd))
        (writeUnknown phrase unknownSeqI wordI res)) where
  ordered := le_refl wordEnd
  written := by
    rw [flatten_writePiece, passed.flatten_writeUnknown, ← wcharsToUtf8_append, take_slice behind]
    rfl

end Passed

end SecondPass

section Partition

variable {Weight : Type} [LT Weight] [DecidableLT Weight] [DecidableEq Weight]
variable {incHash : IncHash} {coll : WeightCollector Weight DictionaryNode}
variable {dict : IncHashTable DictionaryNode} {suffixDict : IncHashTable SuffixDictionaryNode}

variable {vec : Points Weight DictionaryNode}

/-- Over sound points the second pass ends, with the whole text written. The rounds left
are more than the symbols left, and every round passes one of these. -/
theorem reconstructLoop_partition (sound : PointsSound coll phrase.length vec) {rounds : Nat}
    {unknownSeqI : Option Nat} {res : List (List UInt8)} (inText : wordI ≤ phrase.length)
    (enough : phrase.length - wordI < rounds) (passed : Passed phrase wordI unknownSeqI res) :
    ∃ tokens, reconstructLoop coll nullNormalizeStrategy phrase vec rounds wordI unknownSeqI res =
      some tokens ∧ tokens.flatten = wcharsToUtf8 phrase := by
  induction rounds generalizing wordI unknownSeqI res with
  | zero => exact absurd enough (Nat.not_lt_zero _)
  | succ rounds ih =>
    rw [reconstructLoop]
    by_cases ended : phrase.length ≤ wordI
    · have here : wordI = phrase.length := le_antisymm inText ended
      subst here
      refine ⟨_, if_pos ended, ?_⟩
      rw [passed.flatten_writeUnknown, take_length]
    · simp only [if_neg ended]
      have here := sound wordI (Nat.lt_of_not_le ended)
      split_ifs with unknown
      · exact ih (by omega) (by omega) passed.unknown
      · obtain ⟨wordEnd, node, followed, behind, inside⟩ := here.follow unknown
        simp only [followed]
        exact ih inside (by omega) (passed.piece (le_of_lt behind))

/-- The segmentation of a well-formed text without NUL ends, and its tokens are the text:
for every word dictionary, every way to collect weights, and every suffix dictionary loaded
from a file that lists positive lengths only. -/
theorem segment_partition (incHash : IncHash) (coll : WeightCollector Weight DictionaryNode)
    (dict : IncHashTable DictionaryNode) {lines : List SuffixLine}
    (listed : ∀ line ∈ lines, 0 < line.length) {octets : List UInt8}
    (wellFormed : Utf8.WellFormed octets) (noNul : 0 ∉ octets) (nonempty : octets ≠ []) :
    ∃ tokens, segment incHash coll dict (loadSuffixes incHash lines) nullNormalizeStrategy octets =
      some (.ok tokens) ∧ tokens.flatten = octets := by
  obtain ⟨values, scalars, rfl⟩ := wellFormed
  have wide : values.takeWhile (· ≠ 0) = values := by
    rw [takeWhile_eq_self_iff]
    intro value inside
    have written : 0 ∉ Utf8.encode value := fun nul =>
      noNul (mem_flatMap.mpr ⟨value, inside, nul⟩)
    exact decide_eq_true fun zero => written (zero ▸ by decide)
  have remains : values.isEmpty = false := by
    rw [isEmpty_eq_false_iff]
    rintro rfl
    exact nonempty rfl
  have sound : PointsSound coll values.length
      (biTokenize incHash coll dict (loadSuffixes incHash lines) values) :=
    tokenizeBelow_sound (loadSuffixes_positive listed) (le_refl _) initialPoints_sound
  have start : Passed values 0 none [] := ⟨le_refl 0, rfl⟩
  obtain ⟨tokens, found, joined⟩ :=
    reconstructLoop_partition sound (Nat.zero_le _) (Nat.lt_add_one values.length) start
  refine ⟨tokens, ?_, ?_⟩
  · simp only [segment, utf8ToWchar_encodeAll scalars, wide, remains, biTokenizeReconstruct, found]
    rfl
  · rw [joined, wcharsToUtf8_encodeAll scalars]

end Partition

/-- A dictionary of the word 日本 and a suffix of it. -/
def sampleDictionary (incHash : IncHash) : IncHashTable DictionaryNode :=
  IncHashTable.insert incHash {} [0x65E5, 0x672C] ⟨1, -10⟩

def sampleSuffixLines : List SuffixLine := [⟨[0x672C], 2, -30⟩]

/-- The text 日本x. -/
def sampleText : List UInt8 := Utf8.encodeAll [0x65E5, 0x672C, 0x78]

theorem sampleText_partition :
    ∃ tokens, segment (fun hash ch => hash * 31 + ch) (sumWeightCollector DictionaryNode.freq (-10))
      (sampleDictionary fun hash ch => hash * 31 + ch)
      (loadSuffixes (fun hash ch => hash * 31 + ch) sampleSuffixLines) nullNormalizeStrategy
      sampleText = some (.ok tokens) ∧ tokens.flatten = sampleText :=
  segment_partition _ _ _ (by decide) ⟨[0x65E5, 0x672C, 0x78], by decide, rfl⟩ (by decide)
    (by decide)

example : segment (fun hash ch => hash * 31 + ch) (sumWeightCollector DictionaryNode.freq (-10))
      (sampleDictionary fun hash ch => hash * 31 + ch)
      (loadSuffixes (fun hash ch => hash * 31 + ch) sampleSuffixLines) nullNormalizeStrategy
      sampleText = some (.ok [[0xE6, 0x97, 0xA5, 0xE6, 0x9C, 0xAC], [0x78]]) := by
  decide

end UnixCommons.Polyglot
