import Px4Rs.Message

/-! A log message is rendered into a buffer on the stack, which truncates it on bytes. The host
build decodes what the buffer holds and prints it. -/
namespace Px4Rs.Log
open Px4Rs.Message

def utf8 (t : Text) : List UInt8 := t.flatMap String.utf8EncodeChar

def fromUtf8 (bytes : List UInt8) : Option Text := bytes.toByteArray.utf8Decode?.map Array.toList

def bufLen : Nat := 256

/-- A buffer of `BUF_LEN` bytes, of which those before `pos` are written. -/
structure StackBuf where
  buf : List UInt8
  pos : Nat
  sized : buf.length = bufLen

namespace StackBuf

def new : StackBuf := ⟨List.replicate bufLen 0, 0, List.length_replicate⟩

theorem sized_copy {buf src : List UInt8} {pos n : Nat} (sized : buf.length = bufLen)
    (h : pos + n ≤ bufLen ∧ n ≤ src.length) :
    (buf.take pos ++ src.take n ++ buf.drop (pos + n)).length = bufLen := by
  simp only [List.length_append, List.length_take, List.length_drop, sized]
  omega

/-- `write_str`. A slice of the buffer or of the string that is out of range panics. -/
def writeStr (b : StackBuf) (s : Text) : Option StackBuf :=
  let bytes := utf8 s
  let room := bufLen - 1 - b.pos
  let n := min bytes.length room
  if h : b.pos + n ≤ bufLen ∧ n ≤ bytes.length then
    some ⟨b.buf.take b.pos ++ bytes.take n ++ b.buf.drop (b.pos + n), b.pos + n,
      sized_copy b.sized h⟩
  else none

/-- `as_c_str`: the buffer with its terminator. -/
def asCStr (b : StackBuf) : Option StackBuf :=
  let nulPos := min b.pos (bufLen - 1)
  if nulPos < bufLen then
    some ⟨b.buf.set nulPos 0, b.pos, by rw [List.length_set, b.sized]⟩
  else none

/-- `write_fmt`, which writes the fragments of the message one after the other. -/
def writeFmt (b : StackBuf) : List Text → Option StackBuf
  | [] => some b
  | s :: ss => (b.writeStr s).bind fun b => b.writeFmt ss

end StackBuf

inductive Level where
  | debug | info | warn | error | panic
deriving DecidableEq

def Level.tag : Level → String
  | debug => "DEBUG"
  | info => "INFO"
  | warn => "WARN"
  | error => "ERROR"
  | panic => "PANIC"

/-- The message text that `__log_impl` prints. -/
def logMsg (fragments : List Text) : Option Text :=
  (StackBuf.new.writeFmt fragments).bind fun b =>
    if b.pos ≤ b.buf.length then
      some ((fromUtf8 (b.buf.take b.pos)).getD "<non-utf8>".toList)
    else none

/-- What comes before it on the line; `module` is the bytes of the module's name. -/
def logHeader (level : Level) (module : List UInt8) : Text :=
  '[' :: level.tag.toList ++ "] ".toList ++ (fromUtf8 module).getD "?".toList ++ ": ".toList

/-- The line that the host build of `__log_impl` prints. -/
def logImpl (level : Level) (module : List UInt8) (fragments : List Text) : Option Text :=
  (logMsg fragments).map fun msg => logHeader level module ++ msg ++ ['\n']

variable {b : StackBuf} {written : List UInt8} {s t u : Text} {ss : List Text}

/-! The buffer. -/

namespace StackBuf

structure Holds (b : StackBuf) (written : List UInt8) : Prop where
  pos : b.pos = min (bufLen - 1) written.length
  bytes : b.buf.take b.pos = written.take b.pos

theorem holds_new : Holds new [] := ⟨rfl, rfl⟩

theorem Holds.pos_lt (h : Holds b written) : b.pos < bufLen := by
  have pos := h.pos
  simp only [bufLen] at pos ⊢
  omega

theorem writeStr_spec (h : Holds b written) (s : Text) :
    ∃ b', b.writeStr s = some b' ∧ Holds b' (written ++ utf8 s) := by
  obtain ⟨pos, bytes⟩ := h
  simp only [bufLen] at pos
  have fits : b.pos + min (utf8 s).length (bufLen - 1 - b.pos) ≤ bufLen ∧
      min (utf8 s).length (bufLen - 1 - b.pos) ≤ (utf8 s).length := by
    simp only [bufLen]
    omega
  refine ⟨_, dif_pos fits, ?_, ?_⟩
  · simp only [bufLen, List.length_append]
    omega
  · have sized := b.sized
    simp only [bufLen] at sized ⊢
    generalize hn : min (utf8 s).length (255 - b.pos) = n
    have short : (b.buf.take b.pos ++ (utf8 s).take n).length = b.pos + n := by
      simp only [List.length_append, List.length_take]
      omega
    rw [List.take_left' short, bytes, List.take_append]
    by_cases full : written.length ≤ b.pos
    · have all : written.length = b.pos := by omega
      simp [all, List.take_of_length_le]
    · have none : n = 0 := by omega
      simp [none, Nat.sub_eq_zero_of_le (Nat.le_of_not_le full)]

theorem writeFmt_spec (h : Holds b written) (ss : List Text) :
    ∃ b', b.writeFmt ss = some b' ∧ Holds b' (written ++ utf8 ss.flatten) := by
  induction ss generalizing b written with
  | nil => exact ⟨b, rfl, by simpa [utf8] using h⟩
  | cons s ss ih =>
    obtain ⟨b₁, write, h₁⟩ := writeStr_spec h s
    obtain ⟨b₂, rest, h₂⟩ := ih h₁
    refine ⟨b₂, by rw [writeFmt, write, Option.bind_some, rest], ?_⟩
    simpa [utf8] using h₂

/-- On any buffer, whatever its bytes are, the terminator is written and nothing else. -/
theorem asCStr_spec (b : StackBuf) :
    ∃ b', b.asCStr = some b' ∧ b'.pos = b.pos ∧ b'.buf[min b.pos (bufLen - 1)]? = some 0 ∧
      ∀ i, i ≠ min b.pos (bufLen - 1) → b'.buf[i]? = b.buf[i]? := by
  have inside : min b.pos (bufLen - 1) < bufLen := by
    simp only [bufLen]
    omega
  refine ⟨_, if_pos inside, rfl, ?_, fun i other => ?_⟩
  · rw [List.getElem?_set_self (by rwa [b.sized])]
  · exact List.getElem?_set_ne other.symm

theorem asCStr_after (h : b.pos < bufLen) :
    ∃ b', b.asCStr = some b' ∧ b'.pos = b.pos ∧ b'.buf[b.pos]? = some 0 ∧
      b'.buf.take b.pos = b.buf.take b.pos := by
  obtain ⟨b', ended, pos, nul, others⟩ := asCStr_spec b
  have at_pos : min b.pos (bufLen - 1) = b.pos := by omega
  rw [at_pos] at nul others
  refine ⟨b', ended, pos, nul, List.ext_getElem? fun i => ?_⟩
  by_cases hi : i < b.pos
  · rw [List.getElem?_take_of_lt hi, List.getElem?_take_of_lt hi, others i (Nat.ne_of_lt hi)]
  · simp [Nat.le_of_not_lt hi]

/-- Whatever is written to a new buffer, no slice is out of range, and the buffer holds the
first 255 bytes; a terminator goes behind them. -/
theorem keeps_first_bytes (ss : List Text) :
    ∃ b, new.writeFmt ss = some b ∧ b.pos = min 255 (utf8 ss.flatten).length ∧
      b.buf.take b.pos = (utf8 ss.flatten).take b.pos ∧
      ∃ b', b.asCStr = some b' ∧ b'.pos = b.pos ∧ b'.buf[b.pos]? = some 0 ∧
        b'.buf.take b.pos = b.buf.take b.pos := by
  obtain ⟨b, written, h⟩ := writeFmt_spec holds_new ss
  rw [List.nil_append] at h
  exact ⟨b, written, h.pos, h.bytes, asCStr_after h.pos_lt⟩

end StackBuf

/-! Decoding. -/

theorem toByteArray_utf8 (t : Text) : (utf8 t).toByteArray = t.utf8Encode := rfl

theorem utf8_append (s t : Text) : utf8 (s ++ t) = utf8 s ++ utf8 t := List.flatMap_append

theorem fromUtf8_eq_some {bytes : List UInt8} : fromUtf8 bytes = some t ↔ bytes = utf8 t := by
  constructor
  · intro h
    obtain ⟨chars, decoded, rfl⟩ := Option.map_eq_some_iff.mp h
    have encoded : chars.toList.utf8Encode = bytes.toByteArray := by
      have again := @ByteArray.utf8Encode_get_utf8Decode? bytes.toByteArray (by simp [decoded])
      simpa only [decoded, Option.get_some] using again
    rw [← toByteArray_utf8] at encoded
    exact (List.toByteArray_inj.mp encoded).symm
  · rintro rfl
    simp [fromUtf8, toByteArray_utf8]

/-- No encoding of a text ends inside a character of another. -/
theorem prefix_of_utf8 (h : utf8 s <+: utf8 t) : s <+: t := by
  obtain ⟨rest, h⟩ := h
  refine List.isPrefix_of_utf8Encode_append_eq_utf8Encode rest.toByteArray ?_
  rw [← toByteArray_utf8, ← toByteArray_utf8, ← h]
  simp

/-- The cut after the byte `n` is between two characters of the text. -/
def Boundary (n : Nat) (t : Text) : Prop := ∃ p, p <+: t ∧ (utf8 p).length = n

theorem fromUtf8_take {n : Nat} (h : n ≤ (utf8 t).length) :
    fromUtf8 ((utf8 t).take n) = some s ↔ s <+: t ∧ (utf8 s).length = n := by
  rw [fromUtf8_eq_some]
  constructor
  · intro cut
    refine ⟨prefix_of_utf8 (cut ▸ List.take_prefix n _), ?_⟩
    rw [← cut, List.length_take]
    exact Nat.min_eq_left h
  · rintro ⟨⟨u, rfl⟩, rfl⟩
    rw [utf8_append, List.take_left]

theorem fromUtf8_inside {n : Nat} (h : n ≤ (utf8 t).length) (inside : ¬ Boundary n t) :
    fromUtf8 ((utf8 t).take n) = none := by
  cases decoded : fromUtf8 ((utf8 t).take n) with
  | none => rfl
  | some p => exact absurd ⟨p, (fromUtf8_take h).mp decoded⟩ inside

theorem length_utf8_replicate (n : Nat) (c : Char) :
    (utf8 (List.replicate n c)).length = n * (String.utf8EncodeChar c).length := by
  simp [utf8, List.length_flatMap]

/-! The message. -/

theorem logMsg_eq (ss : List Text) :
    logMsg ss = some ((fromUtf8 ((utf8 ss.flatten).take 255)).getD "<non-utf8>".toList) := by
  obtain ⟨b, written, pos, bytes⟩ := StackBuf.writeFmt_spec StackBuf.holds_new ss
  rw [List.nil_append] at pos bytes
  have fits : b.pos ≤ b.buf.length := by
    rw [b.sized, pos]
    exact Nat.le_trans (Nat.min_le_left _ _) (by decide)
  have first : (utf8 ss.flatten).take b.pos = (utf8 ss.flatten).take 255 := by
    rw [pos, ← List.take_take, List.take_length]
    rfl
  rw [logMsg, written, Option.bind_some, if_pos fits, bytes, first]

/-- The printed text begins the message, and is all of it when that is short enough. -/
def Readable (level : Level) (module : List UInt8) (ss : List Text) : Prop :=
  ∃ msg, logImpl level module ss = some (logHeader level module ++ msg ++ ['\n']) ∧
    msg <+: ss.flatten ∧ ((utf8 ss.flatten).length ≤ 255 → msg = ss.flatten)

theorem readable_iff_msg {level : Level} {module : List UInt8} :
    Readable level module ss ↔ ∃ msg, logMsg ss = some msg ∧ msg <+: ss.flatten ∧
      ((utf8 ss.flatten).length ≤ 255 → msg = ss.flatten) := by
  unfold Readable logImpl
  constructor
  · rintro ⟨msg, printed, rest⟩
    obtain ⟨msg', found, same⟩ := Option.map_eq_some_iff.mp printed
    rw [List.append_left_inj, List.append_right_inj] at same
    exact ⟨msg, same ▸ found, rest⟩
  · rintro ⟨msg, found, rest⟩
    exact ⟨msg, by rw [found]; rfl, rest⟩

/-- A message is printed as far as it fits when it is short, when the cut is between two of
its characters, or when it begins with what is printed in place of it; and never else. -/
theorem logImpl_readable_iff (level : Level) (module : List UInt8) (ss : List Text) :
    Readable level module ss ↔ (utf8 ss.flatten).length ≤ 255 ∨ Boundary 255 ss.flatten ∨
      "<non-utf8>".toList <+: ss.flatten := by
  rw [readable_iff_msg]
  simp only [logMsg_eq, Option.some.injEq, exists_eq_left']
  by_cases short : (utf8 ss.flatten).length ≤ 255
  · rw [List.take_of_length_le short, fromUtf8_eq_some.mpr rfl]
    simp [short]
  have long : 255 ≤ (utf8 ss.flatten).length := by omega
  simp only [short, false_or, false_implies, and_true]
  by_cases between : Boundary 255 ss.flatten
  · obtain ⟨p, begins, cut⟩ := between
    rw [(fromUtf8_take long).mpr ⟨begins, cut⟩]
    exact ⟨fun _ => .inl ⟨p, begins, cut⟩, fun _ => begins⟩
  · rw [fromUtf8_inside long between]
    simp [between]

/-- 127 letters of two bytes and one of one byte fill the buffer exactly. -/
theorem readable_full : Readable .info (utf8 "ekf2".toList)
    [List.replicate 127 'é', ['x'], ['y']] := by
  refine (logImpl_readable_iff .info _ _).mpr
    (.inr (.inl ⟨List.replicate 127 'é' ++ ['x'], ⟨['y'], rfl⟩, ?_⟩))
  rw [utf8_append, List.length_append, length_utf8_replicate]
  rfl

/-- Of 128 letters of two bytes the last is cut, and none is printed. -/
theorem truncated_not_readable :
    ¬ Readable .info (utf8 "ekf2".toList) [List.replicate 128 'é'] := by
  have long : 255 ≤ (utf8 [List.replicate 128 'é'].flatten).length := by
    rw [List.flatten_singleton, length_utf8_replicate]
    decide
  have inside : ¬ Boundary 255 [List.replicate 128 'é'].flatten := by
    rintro ⟨p, begins, cut⟩
    rw [List.flatten_singleton] at begins
    have two : (String.utf8EncodeChar 'é').length = 2 := rfl
    rw [(List.prefix_replicate_iff.mp begins).2, length_utf8_replicate, two] at cut
    omega
  rw [readable_iff_msg, logMsg_eq, fromUtf8_inside long inside]
  rintro ⟨_, ⟨⟩, begins, _⟩
  obtain ⟨rest, h⟩ := begins
  cases h

end Px4Rs.Log
