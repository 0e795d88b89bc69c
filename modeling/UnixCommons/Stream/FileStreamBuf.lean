import Mathlib.Data.List.Basic

/-!
# A buffered output of bytes

`Stream::File::OutStreamBuf` collects bytes in a buffer. The byte that comes when the buffer
is full goes to `overflow`, which writes the buffer and puts that byte in front of the next
ones; the destructor writes what is left. `overflow` tests its byte with `not_eof`, whose
result is the byte itself, so a zero byte is taken for the end of the file and lost.
-/

namespace UnixCommons.Stream

open List

/-! ## The buffer -/

/-- The buffer and what has been written through it. -/
structure OutStreamBuf where
  bufferSize : Nat
  /-- The bytes from `pbase()` to `pptr()` -/
  buffer : List UInt8
  /-- The data of the calls of `IO::write` -/
  writes : List (List UInt8)
  deriving DecidableEq

/-- `traits_type::eof` -/
def eof : Int := -1

def toIntType (ch : UInt8) : Int := ch.toNat

/-- `traits_type::not_eof` -/
def notEof (c : Int) : Int := if c = eof then 0 else c

namespace OutStreamBuf

/-- The constructor. -/
def create (bufferSize : Nat) : OutStreamBuf := ⟨bufferSize, [], []⟩

/-- The buffer is written and begins again with the given bytes. -/
def flush (buf : OutStreamBuf) (buffer : List UInt8) : OutStreamBuf :=
  { buf with
    buffer := buffer
    writes := buf.writes ++ [buf.buffer] }

/-- `overflow`, with nothing where its assertion fails. -/
def overflow (buf : OutStreamBuf) (c : Int) : Option (Int × OutStreamBuf) :=
  if buf.buffer = [] then none
  else if notEof c ≠ 0 then some (1, buf.flush [UInt8.ofNat c.toNat])
  else some (0, buf.flush [])

/-- `sputc` of the library -/
def sputc (buf : OutStreamBuf) (ch : UInt8) : Option (Int × OutStreamBuf) :=
  if buf.buffer.length < buf.bufferSize then
    some (toIntType ch, { buf with buffer := buf.buffer ++ [ch] })
  else
    buf.overflow (toIntType ch)

/-- `sputn` of the library: it puts its bytes as `sputc` does, one after the other, and so do
several calls. `overflow` never answers with the end of the file, which would stop it. -/
def sputn (buf : OutStreamBuf) (bytes : List UInt8) : Option OutStreamBuf :=
  bytes.foldlM (fun buf ch => Prod.snd <$> buf.sputc ch) buf

/-- The destructor. -/
def destroy (buf : OutStreamBuf) : List (List UInt8) :=
  if buf.buffer = [] then buf.writes else buf.writes ++ [buf.buffer]

end OutStreamBuf

/-! ## What is kept -/

/-- The bytes that are not lost, for the number of bytes in the buffer. -/
def kept (bufferSize : Nat) : Nat → List UInt8 → List UInt8
  | _, [] => []
  | count, ch :: rest =>
    if count < bufferSize then ch :: kept bufferSize (count + 1) rest
    else if ch = 0 then kept bufferSize 0 rest
    else ch :: kept bufferSize 1 rest

variable {bufferSize count : Nat} {ch : UInt8} {bytes rest : List UInt8} {buf : OutStreamBuf}

theorem length_kept_le : (kept bufferSize count bytes).length ≤ bytes.length := by
  induction bytes generalizing count with
  | nil => exact Nat.le_refl _
  | cons ch rest ih =>
    unfold kept
    split_ifs
    · exact Nat.succ_le_succ ih
    · exact Nat.le_succ_of_le ih
    · exact Nat.succ_le_succ ih

/-- No zero byte stands where a full buffer meets it. -/
def Unharmed (bufferSize count : Nat) (bytes : List UInt8) : Prop :=
  ∀ position, 0 < count + position → bufferSize ∣ count + position → bytes[position]? ≠ some 0

theorem unharmed_cons (harmless : 0 < count → bufferSize ∣ count → ch ≠ 0) {next : Nat} (positive : 0 < next)
    (same : ∀ position, bufferSize ∣ next + position ↔ bufferSize ∣ count + (position + 1)) :
    Unharmed bufferSize count (ch :: rest) ↔ Unharmed bufferSize next rest := by
  constructor
  · intro unharmed position _ full
    exact unharmed (position + 1) (Nat.succ_pos _) ((same position).mp full)
  · intro unharmed position some full
    cases position with
    | zero => simpa using harmless some full
    | succ position => exact unharmed position (by omega) ((same position).mpr full)

/-- Nothing is lost unless a zero byte meets a full buffer. Without a loss the buffer is full
at the multiples of its size. -/
theorem kept_eq_iff (inside : count ≤ bufferSize) (positive : 0 < bufferSize) :
    kept bufferSize count bytes = bytes ↔ Unharmed bufferSize count bytes := by
  induction bytes generalizing count with
  | nil => simp [kept, Unharmed]
  | cons ch rest ih =>
    by_cases room : count < bufferSize
    · have harmless : 0 < count → bufferSize ∣ count → ch ≠ 0 := fun some full =>
        absurd (Nat.le_of_dvd some full) (by omega)
      have shifted (position : Nat) : count + 1 + position = count + (position + 1) := by omega
      rw [kept, if_pos room, cons.injEq, ih room,
        unharmed_cons harmless (Nat.succ_pos count) fun position => shifted position ▸ Iff.rfl]
      exact and_iff_right rfl
    obtain rfl : count = bufferSize := by omega
    rw [kept, if_neg room]
    by_cases zero : ch = 0
    · subst zero
      rw [if_pos rfl]
      constructor
      · intro same
        have shorter := congrArg length same ▸ @length_kept_le count 0 rest
        exact absurd shorter (Nat.not_succ_le_self _)
      · intro unharmed
        exact absurd rfl (unharmed 0 positive (Nat.dvd_refl _))
    · have shifted (position : Nat) : count ∣ 1 + position ↔ count ∣ count + (position + 1) := by
        rw [Nat.dvd_add_right (Nat.dvd_refl _), Nat.add_comm]
      rw [if_neg zero, cons.injEq, ih positive, unharmed_cons (fun _ _ => zero) Nat.one_pos shifted]
      exact and_iff_right rfl

/-! ## Runs -/

/-- The overflow of a full buffer. -/
theorem overflow_full (full : buf.buffer ≠ []) (ch : UInt8) :
    buf.overflow (toIntType ch) =
      if ch = 0 then some (0, buf.flush []) else some (1, buf.flush [ch]) := by
  have within : notEof (toIntType ch) = 0 ↔ ch = 0 := by
    rw [notEof, if_neg (by simp only [toIntType, eof]; omega), toIntType, Int.natCast_eq_zero]
    exact UInt8.toNat_inj (b := 0)
  have byte : UInt8.ofNat (toIntType ch).toNat = ch := UInt8.ofNat_toNat
  simp only [OutStreamBuf.overflow, if_neg full, ne_eq, within, ite_not, byte]

/-- Everything is written when the buffer is destroyed. -/
theorem flatten_destroy : buf.destroy.flatten = buf.writes.flatten ++ buf.buffer := by
  unfold OutStreamBuf.destroy
  split_ifs with empty
  · rw [empty, append_nil]
  · rw [flatten_append, flatten_singleton]

/-- The bytes put and not lost follow those that were there. -/
theorem sputn_data (inside : buf.buffer.length ≤ buf.bufferSize) (positive : 0 < buf.bufferSize) :
    ∃ buf', buf.sputn bytes = some buf' ∧
      buf'.destroy.flatten = buf.destroy.flatten ++ kept buf.bufferSize buf.buffer.length bytes := by
  induction bytes generalizing buf with
  | nil => exact ⟨buf, rfl, (append_nil _).symm⟩
  | cons ch rest ih =>
    rw [OutStreamBuf.sputn, foldlM_cons, OutStreamBuf.sputc, kept]
    by_cases room : buf.buffer.length < buf.bufferSize
    · rw [if_pos room, if_pos room]
      obtain ⟨buf', run, data⟩ := @ih { buf with buffer := buf.buffer ++ [ch] }
        (by rw [length_append]; exact room) positive
      refine ⟨buf', run, ?_⟩
      rw [data]
      simp [flatten_destroy]
    · have full : buf.buffer ≠ [] := fun empty => by simp [empty, positive] at room
      rw [if_neg room, if_neg room, overflow_full full]
      split_ifs with zero
      · obtain ⟨buf', run, data⟩ := @ih (buf.flush []) (Nat.zero_le _) positive
        refine ⟨buf', run, ?_⟩
        rw [data]
        simp [flatten_destroy, OutStreamBuf.flush]
      · obtain ⟨buf', run, data⟩ := @ih (buf.flush [ch]) positive positive
        refine ⟨buf', run, ?_⟩
        rw [data]
        simp [flatten_destroy, OutStreamBuf.flush]

/-- The data written up to the destruction are the bytes put exactly when no zero byte stands
at a multiple of the size of the buffer, the beginning apart. -/
theorem written_iff (bufferSize : Nat) (positive : 0 < bufferSize) (bytes : List UInt8) :
    (∃ buf, (OutStreamBuf.create bufferSize).sputn bytes = some buf ∧ buf.destroy.flatten = bytes) ↔
    ∀ position, 0 < position → bufferSize ∣ position → bytes[position]? ≠ some 0 := by
  obtain ⟨buf, run, data⟩ := @sputn_data bytes (.create bufferSize) (Nat.zero_le _) positive
  have lossless := @kept_eq_iff bufferSize 0 bytes (Nat.zero_le _) positive
  simp only [Unharmed, Nat.zero_add] at lossless
  rw [run, ← lossless]
  constructor
  · rintro ⟨_, ⟨⟩, same⟩
    exact data.symm.trans same
  · intro same
    exact ⟨buf, rfl, data.trans same⟩

theorem written_four_bytes :
    ∃ buf, (OutStreamBuf.create 2).sputn [7, 0, 8, 9] = some buf ∧ buf.destroy.flatten = [7, 0, 8, 9] := by
  refine (written_iff 2 (by decide) [7, 0, 8, 9]).mpr ?_
  rintro (_ | _ | _ | _ | position) <;> simp

/-- The zero byte behind a full buffer is lost. -/
theorem zero_lost :
    ((OutStreamBuf.create 1).sputn [65, 0]).map (fun buf => buf.destroy.flatten) = some [65] := by
  decide

end UnixCommons.Stream
