import UnixCommons.Generics.Time
import UnixCommons.Library.Runs
import Mathlib.Data.List.Nodup

/-!
# The file logger and its rotated files

`Handler::publish` appends the formatted line of a record to the current file. Before it
does, it asks the rotation policies in order; the first one that needs a rotation makes
the handler rename the current file to a name made of the time of the record and open a
new one.

File system calls succeed, and nobody else touches the files: the file system is a map
from names to contents, `rename` replaces what the new name held, and `fopen` in mode `a`
creates a file that is not there. The modification time that `stat` reports and the random
number of the extended name belong to the published record. Local time is a matter of the
C library and a parameter; the time zone of Greenwich is computed by the source itself.
Times are in microseconds.
-/

namespace UnixCommons.Logger

open Generics List

inductive TimeZone where
  | tzGmt
  | tzLocal
  deriving DecidableEq, Repr

/-- What the C library says about local time: `localtime_r` and `mktime`. -/
structure LocalTime where
  localtime : Int → ExtendedTime
  mktime : ExtendedTime → Int

/-- A record with what the handler and the formatter read of it. -/
structure LogRecord where
  time : Int
  timeZone : TimeZone
  message : List Char

/-- What the handler is constructed with. -/
structure Config where
  fileName : List Char
  timeZone : TimeZone
  extendedNameFormat : Bool
  fromNum : Nat
  orderNum : Nat
  /-- The formatter; it may fail. -/
  format : LogRecord → Option (List Char)
  localTime : LocalTime

/-- `Time::get_time`: the date and time of a moment in a time zone. -/
def getTime (localTime : LocalTime) (zone : TimeZone) (time : Int) : ExtendedTime :=
  let seconds := time / 1000000
  let usec := time % 1000000
  match zone with
  | .tzGmt => Time.timeToGm seconds usec
  | .tzLocal => { localTime.localtime seconds with tmUsec := usec }

/-- The conversion of `ExtendedTime` to `Time`. -/
def toTime (localTime : LocalTime) (zone : TimeZone) (time : ExtendedTime) : Int :=
  let seconds := match zone with
    | .tzGmt => Time.gmToTime time
    | .tzLocal => localTime.mktime time
  seconds * 1000000 + time.tmUsec

/-! ## Names -/

/-- `time.format("%Y%m%d.%H%M%S%q")` -/
def formatTime (time : ExtendedTime) : List Char :=
  addNum 4 (time.tmYear + 1900) ++ addNum 2 (time.tmMon + 1) ++ addNum 2 time.tmMday ++ ['.'] ++
    addNum 2 time.tmHour ++ addNum 2 time.tmMin ++ addNum 2 time.tmSec ++ addNum 6 time.tmUsec

/-- The room of a `FileName` before its terminating null: what is longer is cut off. -/
def maxNameLength : Nat := 4095

/-- `file_name_` -/
def Config.name (config : Config) : List Char := config.fileName.take maxNameLength

/-- `cur_file_name_` -/
def Config.curFileName (config : Config) : List Char :=
  if config.extendedNameFormat then
    (config.name ++ ['.'] ++ Nat.toDigits 10 config.orderNum ++ ['.'] ++
      Nat.toDigits 10 config.fromNum).take maxNameLength
  else
    config.name

/-- The name that `rotate` gives the current file. -/
def Config.newName (config : Config) (time : ExtendedTime) (random : Nat) : List Char :=
  if config.extendedNameFormat then
    (config.name ++ ['_'] ++ Nat.toDigits 10 config.orderNum ++ ['.'] ++
      Nat.toDigits 10 config.fromNum ++ ['_'] ++ formatTime time ++ ['.'] ++
      Nat.toDigits 10 random).take maxNameLength
  else
    (config.name ++ ['.'] ++ formatTime time).take maxNameLength

/-! ## Policies -/

/-- What a policy may ask the handler for. -/
structure View where
  logTime : Int
  logCreateTime : Int
  /-- `st_size` and `st_mtime` of `file_stat()` -/
  size : Nat
  modified : Int

/-- The policies with their fields. -/
inductive Policy where
  | timeSpan (rotationTime : Int)
  | sizeSpan (rotationSize : Nat)
  | alignedTimeSpan (startTime : ExtendedTime) (rotationTime lastCreateTime borderTime : Int)
  deriving DecidableEq, Repr

/-- The loop that moves the border on to the creation time. A loop that comes no closer
never ends. -/
def advanceBorder (rotationTime logCreateTime : Int) : Nat → Int → Option Int
  | 0, border => if border < logCreateTime then none else some border
  | fuel + 1, border =>
    if border < logCreateTime then advanceBorder rotationTime logCreateTime fuel (border + rotationTime)
    else some border

/-- The fuel is enough: the loop is given up only if it never ends. -/
theorem advanceBorder_ends_iff (rotationTime logCreateTime border : Int) :
    (advanceBorder rotationTime logCreateTime (logCreateTime - border).toNat border).isSome = true ↔
      logCreateTime ≤ border ∨ 0 < rotationTime := by
  have forward : ∀ (fuel : Nat) (border : Int), 0 < rotationTime → logCreateTime - border ≤ fuel →
      (advanceBorder rotationTime logCreateTime fuel border).isSome = true := by
    intro fuel
    induction fuel with
    | zero =>
      intro border _ enough
      have reached : ¬ border < logCreateTime := by simpa using enough
      simp [advanceBorder, reached]
    | succ fuel ih =>
      intro border moves enough
      rw [advanceBorder]
      split
      · exact ih (border + rotationTime) moves (by push_cast at enough; omega)
      · rfl
  have stuck : ∀ fuel border, rotationTime ≤ 0 → border < logCreateTime →
      advanceBorder rotationTime logCreateTime fuel border = none := by
    intro fuel
    induction fuel with
    | zero =>
      intro border _ short
      simp [advanceBorder, short]
    | succ fuel ih =>
      intro border back short
      rw [advanceBorder, if_pos short]
      exact ih (border + rotationTime) back (by omega)
  constructor
  · intro ends
    by_contra neither
    rw [stuck _ border (by omega) (by omega)] at ends
    contradiction
  · rintro (reached | moves)
    · have enough : (logCreateTime - border).toNat = 0 := by omega
      have arrived : ¬ border < logCreateTime := by omega
      simp [enough, advanceBorder, arrived]
    · exact forward _ border moves (by omega)

/-- The border of an aligned policy for a file created at the given time. -/
def alignBorder (config : Config) (startTime : ExtendedTime) (rotationTime logCreateTime : Int) :
    Option Int :=
  let date := getTime config.localTime config.timeZone logCreateTime
  let cur := { date with
    tmHour := startTime.tmHour
    tmMin := startTime.tmMin
    tmSec := startTime.tmSec
    tmUsec := startTime.tmUsec }
  let border := toTime config.localTime config.timeZone cur
  let border := if border > logCreateTime then border - 24 * 60 * 60 * 1000000 else border
  advanceBorder rotationTime logCreateTime (logCreateTime - border).toNat border

/-- `need_rotation` of each policy, with the policy it leaves; nothing if it never ends. -/
def needRotation (config : Config) (view : View) : Policy → Option (Bool × Policy)
  | .timeSpan rotationTime =>
    some (decide (view.size ≠ 0 ∧ view.logTime ≥ view.logCreateTime + rotationTime),
      .timeSpan rotationTime)
  | .sizeSpan rotationSize => some (decide (view.size ≥ rotationSize), .sizeSpan rotationSize)
  | .alignedTimeSpan startTime rotationTime lastCreateTime borderTime =>
    if view.size = 0 then
      some (false, .alignedTimeSpan startTime rotationTime lastCreateTime borderTime)
    else if borderTime = 0 ∨ view.logCreateTime ≠ lastCreateTime then
      let logCreateTime := if view.logCreateTime = 0 then view.modified * 1000000 else view.logCreateTime
      (alignBorder config startTime rotationTime logCreateTime).map fun border =>
        (decide (view.logTime > border),
          .alignedTimeSpan startTime rotationTime view.logCreateTime border)
    else
      some (decide (view.logTime > borderTime),
        .alignedTimeSpan startTime rotationTime lastCreateTime borderTime)

/-- The policies are asked until one of them needs a rotation. -/
def anyNeedsRotation (config : Config) (view : View) : List Policy → Option (Bool × List Policy)
  | [] => some (false, [])
  | policy :: policies =>
    (needRotation config view policy).bind fun (needed, policy) =>
      if needed then
        some (true, policy :: policies)
      else
        (anyNeedsRotation config view policies).map fun (needed, policies) => (needed, policy :: policies)

/-! ## The handler -/

/-- The files, the policies and the times of the handler. -/
structure Handler where
  files : List Char → Option (List Char)
  policies : List Policy
  logCreateTime : Int
  logTime : Int
  /-- The names of the rotated files in the order they were rotated. -/
  rotated : List (List Char)

/-- What a file holds; a file that is not there holds nothing. -/
def Handler.content (handler : Handler) (name : List Char) : List Char :=
  (handler.files name).getD []

/-- `fopen` in mode `a` -/
def openFile (name : List Char) (files : List Char → Option (List Char)) :
    List Char → Option (List Char) :=
  Function.update files name (some ((files name).getD []))

/-- The constructor of `Handler` at a moment. -/
def Config.handler (config : Config) (policies : List Policy) (now : Int)
    (files : List Char → Option (List Char)) : Handler where
  files := openFile config.curFileName files
  policies := policies
  logCreateTime := if ((files config.curFileName).getD []).length > 0 then 0 else now
  logTime := 0
  rotated := []

/-- `Handler::rotate`. Renaming a file to its own name does nothing. -/
def Handler.rotate (config : Config) (newName : List Char) (handler : Handler) : Handler :=
  if newName = config.curFileName then
    { handler with
      logCreateTime := handler.logTime
      files := openFile config.curFileName handler.files }
  else
    let renamed := Function.update
      (Function.update handler.files newName (handler.files config.curFileName)) config.curFileName none
    { handler with
      logCreateTime := handler.logTime
      files := openFile config.curFileName renamed
      rotated := handler.rotated.erase newName ++ [newName] }

/-- A record with what the world adds to its publication. -/
structure Publication where
  record : LogRecord
  /-- `st_mtime` of the current file, in seconds -/
  modified : Int
  /-- `safe_rand(1000, 9999)` -/
  random : Nat

/-- The beginning of `publish`: the time of the latest record, and the policies asked with
the current file open. -/
def Handler.check (config : Config) (publication : Publication) (handler : Handler) :
    Option (Bool × Handler) :=
  let logTime := max handler.logTime publication.record.time
  let files := openFile config.curFileName handler.files
  let view : View :=
    { logTime := logTime
      logCreateTime := handler.logCreateTime
      size := ((files config.curFileName).getD []).length
      modified := publication.modified }
  (anyNeedsRotation config view handler.policies).map fun (needed, policies) =>
    (needed, { handler with
      files := files
      policies := policies
      logTime := logTime })

/-- The name a publication rotates to. -/
def Publication.newName (config : Config) (publication : Publication) : List Char :=
  config.newName (getTime config.localTime publication.record.timeZone publication.record.time)
    publication.random

/-- The end of `publish`: the line is appended. A record that cannot be formatted raises an
exception and leaves no line. -/
def Handler.write (config : Config) (publication : Publication) (handler : Handler) : Handler :=
  match config.format publication.record with
  | none => handler
  | some line =>
    { handler with
      files := Function.update handler.files config.curFileName
        (some (handler.content config.curFileName ++ line)) }

/-- `Handler::publish`; nothing if it never returns. -/
def Handler.publish (config : Config) (publication : Publication) (handler : Handler) : Option Handler :=
  (handler.check config publication).map fun (needed, checked) =>
    (if needed then checked.rotate config (publication.newName config) else checked).write config
      publication

/-- The contents of the rotated files, followed by the current file. -/
def Handler.contents (config : Config) (handler : Handler) : List Char :=
  handler.rotated.flatMap handler.content ++ handler.content config.curFileName

/-- The line of a publication. -/
def Publication.line (config : Config) (publication : Publication) : List Char :=
  (config.format publication.record).getD []

/-! ## What publishing does to the contents -/

/-- The rotated files are distinct, and the current file is none of them. -/
structure Kept (config : Config) (handler : Handler) : Prop where
  distinct : handler.rotated.Nodup
  apart : config.curFileName ∉ handler.rotated

/-- Opening a file keeps what it holds. -/
theorem openFile_content {opened name : List Char} {files : List Char → Option (List Char)} :
    (openFile opened files name).getD [] = (files name).getD [] := by
  by_cases same : name = opened
  · subst same
    simp [openFile]
  · simp [openFile, same]

variable {config : Config} {handler : Handler} {publication : Publication}

/-- The policies and the times have no part in the contents. -/
theorem check_spec {checked : Handler} {needed : Bool}
    (ends : handler.check config publication = some (needed, checked)) :
    checked.rotated = handler.rotated ∧ checked.content = handler.content := by
  simp only [Handler.check, Option.map_eq_some_iff] at ends
  obtain ⟨⟨asked, policies⟩, _, result⟩ := ends
  obtain ⟨_, rfl⟩ := result
  refine ⟨rfl, ?_⟩
  funext name
  exact openFile_content

/-- Files that hold nothing do not count. -/
theorem flatMap_erase_of_nil {Name Item : Type} [BEq Name] [LawfulBEq Name] {content : Name → List Item}
    {name : Name} (empty : content name = []) {names : List Name} :
    (names.erase name).flatMap content = names.flatMap content := by
  induction names with
  | nil => rfl
  | cons first rest ih =>
    by_cases same : first = name
    · subst same
      simp [empty]
    · have later : ¬ (first == name) = true := by simpa using same
      simp [erase_cons_tail later, ih]

/-- Leaving a name out leaves its content out. -/
theorem flatMap_erase_iff {Name Item : Type} [BEq Name] [LawfulBEq Name] (content : Name → List Item)
    (name : Name) (names : List Name) :
    (names.erase name).flatMap content = names.flatMap content ↔ name ∉ names ∨ content name = [] := by
  constructor
  · intro same
    by_cases inside : name ∈ names
    · have permuted := (perm_cons_erase inside).flatMap_right content
      have lengths := permuted.length_eq
      rw [flatMap_cons, length_append, same] at lengths
      exact .inr (length_eq_zero_iff.mp (by omega))
    · exact .inl inside
  · rintro (outside | empty)
    · rw [erase_of_not_mem outside]
    · exact flatMap_erase_of_nil empty

section

variable (kept : Kept config handler)
include kept

/-- What the rotated files and the current file hold after a rotation. -/
theorem rotate_contents {newName : List Char} (other : newName ≠ config.curFileName) :
    (handler.rotate config newName).contents config
      = (handler.rotated.erase newName).flatMap handler.content ++ handler.content config.curFileName := by
  have moved : ∀ name, (handler.rotate config newName).content name =
      if name = config.curFileName then [] else if name = newName then handler.content config.curFileName
      else handler.content name := by
    intro name
    simp only [Handler.rotate, other, if_false, Handler.content, openFile_content]
    by_cases current : name = config.curFileName
    · simp [current]
    · by_cases new : name = newName
      · simp [new, other]
      · simp [current, new]
  have others : ∀ name ∈ handler.rotated.erase newName,
      (handler.rotate config newName).content name = handler.content name := by
    intro name inside
    obtain ⟨different, before⟩ := kept.distinct.mem_erase_iff.mp inside
    have notCurrent : name ≠ config.curFileName := by
      rintro rfl
      exact kept.apart before
    rw [moved, if_neg notCurrent, if_neg different]
  have rotated : (handler.rotate config newName).rotated = handler.rotated.erase newName ++ [newName] := by
    simp [Handler.rotate, other]
  rw [Handler.contents, rotated, flatMap_append, flatMap_congr others]
  simp [moved, other]

theorem rotate_kept {newName : List Char} : Kept config (handler.rotate config newName) := by
  by_cases same : newName = config.curFileName
  · simp only [Handler.rotate, same]
    exact ⟨kept.distinct, kept.apart⟩
  · simp only [Handler.rotate, same, if_false]
    constructor
    · apply List.Nodup.append (kept.distinct.erase newName) (nodup_singleton newName)
      simpa using kept.distinct.not_mem_erase
    · simp only [mem_append, mem_singleton, not_or]
      exact ⟨fun inside => kept.apart (mem_of_mem_erase inside), fun current => same current.symm⟩

/-- A write appends the line. -/
theorem write_contents (publication : Publication) :
    (handler.write config publication).contents config
      = handler.contents config ++ publication.line config := by
  cases formatted : config.format publication.record with
  | none => simp [Handler.write, Publication.line, formatted]
  | some line =>
    have others : ∀ name ∈ handler.rotated,
        (handler.write config publication).content name = handler.content name := by
      intro name inside
      have different : name ≠ config.curFileName := by
        rintro rfl
        exact kept.apart inside
      simp [Handler.write, formatted, Handler.content, different]
    have rotated : (handler.write config publication).rotated = handler.rotated := by
      simp [Handler.write, formatted]
    have current : (handler.write config publication).content config.curFileName
        = handler.content config.curFileName ++ line := by
      simp [Handler.write, formatted, Handler.content]
    rw [Handler.contents, rotated, flatMap_congr others, current, Handler.contents,
      Publication.line, formatted, Option.getD_some, append_assoc]

theorem write_kept :
    Kept config (handler.write config publication) := by
  cases formatted : config.format publication.record with
  | none => simpa only [Handler.write, formatted] using kept
  | some line =>
    simp only [Handler.write, formatted]
    exact ⟨kept.distinct, kept.apart⟩

/-- The rotation keeps every line exactly if it replaces no rotated file that holds
something. -/
theorem rotate_contents_iff (newName : List Char) :
    (handler.rotate config newName).contents config = handler.contents config ↔
      newName = config.curFileName ∨ newName ∉ handler.rotated ∨ handler.content newName = [] := by
  by_cases same : newName = config.curFileName
  · have unchanged : (handler.rotate config newName).contents config = handler.contents config := by
      have contents : (handler.rotate config newName).content = handler.content := by
        funext name
        simp only [Handler.rotate, same]
        exact openFile_content
      have rotated : (handler.rotate config newName).rotated = handler.rotated := by
        simp [Handler.rotate, same]
      rw [Handler.contents, contents, rotated, Handler.contents]
    exact ⟨fun _ => .inl same, fun _ => unchanged⟩
  · rw [rotate_contents kept same, Handler.contents, append_left_inj, flatMap_erase_iff]
    simp [same]

end

/-! ## Runs -/

/-- Publishing through a handler that may have stopped answering. -/
def publishStep (config : Config) (publication : Publication) (state : Option Handler) :
    Option Handler :=
  state.bind (Handler.publish config publication)

/-- The condition on a publication: the policies come to an answer, and the name of a
rotated file that already holds something is not used again. -/
def Admitted (config : Config) (publication : Publication) : Option Handler → Prop
  | none => False
  | some handler =>
    match handler.check config publication with
    | none => False
    | some (false, _) => True
    | some (true, _) =>
      publication.newName config = config.curFileName ∨
      publication.newName config ∉ handler.rotated ∨
      handler.content (publication.newName config) = []

/-- A publication keeps the rotated files apart. -/
theorem publish_kept {published : Handler} (kept : Kept config handler)
    (ends : handler.publish config publication = some published) : Kept config published := by
  simp only [Handler.publish, Option.map_eq_some_iff] at ends
  obtain ⟨⟨needed, checked⟩, answered, rfl⟩ := ends
  obtain ⟨rotated, _⟩ := check_spec answered
  have checkedKept : Kept config checked := ⟨rotated ▸ kept.distinct, rotated ▸ kept.apart⟩
  cases needed with
  | false => exact write_kept checkedKept
  | true => exact write_kept (rotate_kept checkedKept)

/-- A publication adds its line to the contents and takes nothing away exactly if it is
admitted. -/
theorem publish_contents_iff (kept : Kept config handler) :
    (handler.publish config publication).map (Handler.contents config)
      = some (handler.contents config ++ publication.line config) ↔
      Admitted config publication (some handler) := by
  cases answered : handler.check config publication with
  | none => simp [Handler.publish, Admitted, answered]
  | some answer =>
    obtain ⟨needed, checked⟩ := answer
    obtain ⟨rotated, contents⟩ := check_spec answered
    have checkedKept : Kept config checked := ⟨rotated ▸ kept.distinct, rotated ▸ kept.apart⟩
    have same : checked.contents config = handler.contents config := by
      rw [Handler.contents, rotated, contents, Handler.contents]
    cases needed with
    | false => simp [Handler.publish, Admitted, answered, write_contents checkedKept, same]
    | true =>
      have exact := rotate_contents_iff checkedKept (publication.newName config)
      rw [same, rotated, contents] at exact
      simp [Handler.publish, Admitted, answered, write_contents (rotate_kept checkedKept), exact]

/-- The lines one after another. -/
theorem after_lines (config : Config) (publications : List Publication) (text : List Char) :
    Runs.after (fun publication text => text ++ publication.line config) publications text
      = text ++ publications.flatMap (Publication.line config) := by
  induction publications generalizing text with
  | nil => simp [Runs.after]
  | cons publication rest ih => simp [Runs.after, ih]

/-- The handler still answers, and the contents are a text. -/
def Tracks (config : Config) (state : Option Handler) (text : List Char) : Prop :=
  (∀ handler ∈ state, Kept config handler) ∧ state.map (Handler.contents config) = some text

theorem publishStep_kept {state : Option Handler} (kept : ∀ handler ∈ state, Kept config handler) :
    ∀ handler ∈ publishStep config publication state, Kept config handler := by
  intro published reached
  obtain ⟨handler, before, ends⟩ := Option.bind_eq_some_iff.mp reached
  exact publish_kept (kept handler before) ends

/-- A publication adds its line exactly if it is admitted. -/
theorem publishStep_tracks_iff (publication : Publication) {state : Option Handler}
    {text : List Char} (tracks : Tracks config state text) :
    Tracks config (publishStep config publication state) (text ++ publication.line config) ↔
      Admitted config publication state := by
  obtain ⟨kept, contents⟩ := tracks
  obtain ⟨handler, rfl, rfl⟩ := Option.map_eq_some_iff.mp contents
  rw [← publish_contents_iff (kept handler rfl)]
  exact ⟨And.right, fun exact => ⟨publishStep_kept kept, exact⟩⟩

/-- The rotated files followed by the current file hold exactly the lines of the records,
after what the current file held before, as long as every publication is admitted, and no
longer after one that is not. -/
theorem contents_exact_iff (config : Config) (policies : List Policy) (now : Int)
    (files : List Char → Option (List Char)) (publications : List Publication) :
    Runs.Along (publishStep config) (Admitted config) publications
        (some (config.handler policies now files)) ↔
      ∀ part, part <+: publications →
        (Runs.after (publishStep config) part (some (config.handler policies now files))).map
            (Handler.contents config)
          = some ((files config.curFileName).getD [] ++ part.flatMap (Publication.line config)) := by
  have fresh : ∀ handler ∈ some (config.handler policies now files), Kept config handler := by
    rintro handler ⟨⟩
    exact ⟨nodup_nil, not_mem_nil⟩
  have start : Tracks config (some (config.handler policies now files))
      ((files config.curFileName).getD []) :=
    ⟨fresh, by simp [Handler.contents, Config.handler, Handler.content, openFile_content]⟩
  rw [Runs.along_iff_related (fun publication _ _ tracks => publishStep_tracks_iff publication tracks)
    publications start]
  simp only [after_lines]
  constructor
  · intro tracks part isPart
    exact (tracks part isPart).2
  · intro exact part isPart
    refine ⟨?_, exact part isPart⟩
    apply @Runs.after_invariant _ _ (fun state => ∀ handler ∈ state, Kept config handler) _
    · intro publication state kept
      exact publishStep_kept kept
    · exact fresh

/-! ## The name of a rotated file used twice -/

/-- A log rotated as soon as it holds something, with the time zone of Greenwich. -/
def smallLog : Config where
  fileName := "log".toList
  timeZone := .tzGmt
  extendedNameFormat := false
  fromNum := 1
  orderNum := 1
  format := fun record => some (record.message ++ [Char.ofNat 10])
  localTime := ⟨fun _ => Time.timeToGm 0 0, fun _ => 0⟩

/-- Three records of the same microsecond. -/
def sameMoment : List Publication :=
  ["first", "second", "third"].map fun message =>
    { record := ⟨1700000000000000, .tzGmt, message.toList⟩
      modified := 1700000000
      random := 1000 }

theorem sameMoment_first_lost :
    (Runs.after (publishStep smallLog) sameMoment
        (some (smallLog.handler [.sizeSpan 1] 1700000000000000 fun _ => none))).map
      (fun handler => (handler.rotated, handler.contents smallLog))
      = some (["log.20231114.221320000000".toList],
          "second".toList ++ [Char.ofNat 10] ++ "third".toList ++ [Char.ofNat 10]) ∧
    sameMoment.flatMap (Publication.line smallLog)
      = "first".toList ++ [Char.ofNat 10] ++ "second".toList ++ [Char.ofNat 10] ++ "third".toList ++
          [Char.ofNat 10] := by
  decide +kernel

end UnixCommons.Logger
