import Mathlib.Data.List.TakeWhile
import Px4Rs.Log

/-! The same log calls on the target, where PX4 reads the module's name and the message as C
strings, and records of the `log` crate, which go the same way under a name of 31 bytes. -/
namespace Px4Rs.LogTarget
open Px4Rs.Message Px4Rs.Log

/-- What C reads from the start of this memory: up to a NUL, and past the end without one. -/
def cString (mem : List UInt8) : Option (List UInt8) :=
  if 0 ∈ mem then some (mem.takeWhile (· ≠ 0)) else none

def code : Level → Nat
  | .debug => 0
  | .info => 1
  | .warn => 2
  | .error => 3
  | .panic => 4

/-- What `px4_log_modulename` reads through its arguments, less the `"%s"`. -/
structure Call where
  level : Nat
  module : List UInt8
  message : List UInt8

/-- The target build of `__log_impl`; `module` is the memory of the module's name. -/
def logImpl (level : Level) (module : List UInt8) (fragments : List Text) : Option Call :=
  (StackBuf.new.writeFmt fragments).bind fun b => b.asCStr.bind fun b =>
    (cString module).bind fun name => (cString b.buf).map fun msg => ⟨code level, name, msg⟩

inductive RecordLevel where
  | error | warn | info | debug | trace

def RecordLevel.level : RecordLevel → Level
  | error => .error
  | warn => .warn
  | info => .info
  | debug | trace => .debug

def nameBuf (target : Text) : List UInt8 :=
  let src := utf8 target
  let zeros := List.replicate 32 0
  let n := min src.length (zeros.length - 1)
  src.take n ++ zeros.drop n

/-- `PX4Logger::log` on the host: the line printed. -/
def recordHost (level : RecordLevel) (target : Text) (args : List Text) : Option Text :=
  (cString (nameBuf target)).bind fun module => Log.logImpl level.level module args

/-- `PX4Logger::log` on the target. -/
def recordTarget (level : RecordLevel) (target : Text) (args : List Text) : Option Call :=
  logImpl level.level (nameBuf target) args

/-- The first `n` bytes of the text are text. -/
def Cuts (n : Nat) (t : Text) : Prop := (utf8 t).length ≤ n ∨ Boundary n t

/-- There is a NUL among them. -/
def NulWithin (n : Nat) (t : Text) : Prop := ∃ p, p ++ ['\x00'] <+: t ∧ (utf8 p).length < n

variable {t q : Text} {c : Char} {n : Nat} {mem : List UInt8}

/-! NULs in a text and in its bytes. -/

theorem ofNat_ne_zero {n : Nat} (pos : 0 < n) (small : n < 256) : (0 : UInt8) ≠ UInt8.ofNat n := by
  intro h
  have := congrArg UInt8.toNat h
  simp at this
  omega

theorem zero_mem_utf8EncodeChar : 0 ∈ String.utf8EncodeChar c ↔ c = '\x00' := by
  constructor
  · intro h
    simp only [String.utf8EncodeChar] at h
    split at h
    · have zero : c.val.toNat = 0 := by
        by_contra pos
        exact ofNat_ne_zero (Nat.pos_of_ne_zero pos) (by omega) (List.mem_singleton.mp h)
      exact Char.ext (UInt32.toNat_inj.mp zero)
    -- all bytes of a longer encoding have their high bit set
    split at h
    · simp only [List.mem_cons, List.not_mem_nil, or_false] at h
      obtain h | h := h <;> exact absurd h (ofNat_ne_zero (by omega) (by omega))
    split at h
    · simp only [List.mem_cons, List.not_mem_nil, or_false] at h
      obtain h | h | h := h <;> exact absurd h (ofNat_ne_zero (by omega) (by omega))
    · simp only [List.mem_cons, List.not_mem_nil, or_false] at h
      obtain h | h | h | h := h <;> exact absurd h (ofNat_ne_zero (by omega) (by omega))
  · rintro rfl
    decide

theorem utf8_cons (c : Char) (t : Text) : utf8 (c :: t) = String.utf8EncodeChar c ++ utf8 t := rfl

theorem utf8_injective {s t : Text} (h : utf8 s = utf8 t) : s = t := by
  have decoded := fromUtf8_eq_some.mpr h
  rw [fromUtf8_eq_some.mpr rfl] at decoded
  exact Option.some.inj decoded

theorem takeWhile_of_notMem {bytes : List UInt8} (h : 0 ∉ bytes) :
    bytes.takeWhile (· ≠ 0) = bytes := by
  refine List.takeWhile_eq_self_iff.mpr fun b hb => ?_
  simpa using fun zero : b = 0 => h (zero ▸ hb)

theorem utf8_takeWhile (t : Text) :
    (utf8 t).takeWhile (· ≠ 0) = utf8 (t.takeWhile (· ≠ '\x00')) := by
  induction t with
  | nil => rfl
  | cons c t ih =>
    rw [utf8_cons]
    by_cases hc : c = '\x00'
    · subst hc
      rfl
    · have none : 0 ∉ String.utf8EncodeChar c := fun h => hc (zero_mem_utf8EncodeChar.mp h)
      rw [List.takeWhile_append_of_pos, ih, List.takeWhile_cons_of_pos (by simpa using hc),
        utf8_cons]
      intro b hb
      simpa using fun zero : b = 0 => none (zero ▸ hb)

theorem nulWithin_cons : NulWithin n (c :: t) ↔
    (c = '\x00' ∧ 0 < n) ∨
      (String.utf8EncodeChar c).length < n ∧
        NulWithin (n - (String.utf8EncodeChar c).length) t := by
  constructor
  · rintro ⟨p, begins, short⟩
    cases p with
    | nil =>
      rw [List.nil_append, List.cons_prefix_cons] at begins
      exact .inl ⟨begins.1.symm, by omega⟩
    | cons a p =>
      rw [List.cons_append, List.cons_prefix_cons] at begins
      obtain ⟨rfl, begins⟩ := begins
      rw [utf8_cons, List.length_append] at short
      exact .inr ⟨by omega, p, begins, by omega⟩
  · rintro (⟨rfl, pos⟩ | ⟨_, p, begins, short⟩)
    · exact ⟨[], by simp, by simpa [utf8] using pos⟩
    · refine ⟨c :: p, by simpa using begins, ?_⟩
      rw [utf8_cons, List.length_append]
      omega

theorem zero_mem_take : 0 ∈ (utf8 t).take n ↔ NulWithin n t := by
  induction t generalizing n with
  | nil => simp [utf8, NulWithin]
  | cons c t ih =>
    rw [utf8_cons, List.take_append, List.mem_append, ih, nulWithin_cons]
    by_cases hc : c = '\x00'
    · subst hc
      have one : (String.utf8EncodeChar '\x00') = [0] := rfl
      rw [one]
      cases n with
      | zero => simp [NulWithin]
      | succ n => simp
    · have none : 0 ∉ (String.utf8EncodeChar c).take n := fun h =>
        hc (zero_mem_utf8EncodeChar.mp (List.mem_of_mem_take h))
      simp only [none, hc, false_and, false_or]
      refine ⟨fun within => ⟨?_, within⟩, fun h => h.2⟩
      obtain ⟨p, _, short⟩ := within
      omega

/-- A C string that ends in the first `n` bytes is what C reads in all of them. -/
theorem takeWhile_take_of_within (within : NulWithin n t) :
    ((utf8 t).take n).takeWhile (· ≠ 0) = utf8 (t.takeWhile (· ≠ '\x00')) := by
  rw [← utf8_takeWhile]
  conv_rhs => rw [← List.take_append_drop n (utf8 t)]
  rw [List.takeWhile_append, if_neg]
  intro same
  have all := List.takeWhile_sublist (l := (utf8 t).take n) (fun b => decide (b ≠ 0))
  have zero := zero_mem_take.mpr within
  rw [← all.eq_of_length same] at zero
  simpa using List.mem_takeWhile_imp zero

/-! What C reads of the two buffers. -/

theorem cString_zero (bytes rest : List UInt8) :
    cString (bytes ++ 0 :: rest) = some (bytes.takeWhile (· ≠ 0)) := by
  rw [cString, if_pos (by simp), List.takeWhile_append]
  split
  · rename_i same
    rw [List.takeWhile_cons_of_neg (by simp), List.append_nil,
      (List.takeWhile_sublist _).eq_of_length same]
  · rfl

theorem cString_nameBuf (target : Text) :
    cString (nameBuf target) = some (((utf8 target).take 31).takeWhile (· ≠ 0)) := by
  have tail : nameBuf target = (utf8 target).take (min (utf8 target).length 31) ++
      0 :: List.replicate (31 - min (utf8 target).length 31) 0 := by
    simp only [nameBuf, List.length_replicate, List.drop_replicate]
    rw [← List.replicate_succ]
    congr 2
    omega
  rw [tail, cString_zero, Nat.min_comm, ← List.take_take, List.take_length]

theorem logImpl_eq (level : Level) (module : List UInt8) (ss : List Text) :
    logImpl level module ss = (cString module).map fun name =>
      ⟨code level, name, ((utf8 ss.flatten).take 255).takeWhile (· ≠ 0)⟩ := by
  obtain ⟨b, written, pos, bytes, b', ended, same, nul, front⟩ := StackBuf.keeps_first_bytes ss
  have first : b'.buf.take b'.pos = (utf8 ss.flatten).take 255 := by
    rw [same, front, bytes, pos, ← List.take_take, List.take_length]
  have split : b'.buf = (utf8 ss.flatten).take 255 ++ 0 :: b'.buf.drop (b'.pos + 1) := by
    rw [← first]
    conv_lhs => rw [← List.take_append_drop b'.pos b'.buf]
    congr 1
    rw [← same] at nul
    exact List.drop_eq_getElem?_toList_append.trans (by rw [nul]; rfl)
  have read : cString b'.buf = some (((utf8 ss.flatten).take 255).takeWhile (· ≠ 0)) := by
    rw [split]
    exact cString_zero _ _
  rw [logImpl, written, Option.bind_some, ended, Option.bind_some, read]
  cases cString module <;> rfl

/-! The host's line against the target's strings. -/

theorem cuts_iff : (∃ s, (utf8 t).take n = utf8 s) ↔ Cuts n t := by
  by_cases short : (utf8 t).length ≤ n
  · simp only [Cuts, short, true_or, iff_true]
    exact ⟨t, List.take_of_length_le short⟩
  · have long : n ≤ (utf8 t).length := by omega
    simp only [Cuts, short, false_or, Boundary, ← fromUtf8_take long, fromUtf8_eq_some]

theorem name_is_text (t : Text) (n : Nat) :
    (∃ s, ((utf8 t).take n).takeWhile (· ≠ 0) = utf8 s) ↔ Cuts n t ∨ NulWithin n t := by
  by_cases within : NulWithin n t
  · simp only [within, or_true, iff_true]
    exact ⟨_, takeWhile_take_of_within within⟩
  · rw [takeWhile_of_notMem fun zero => within (zero_mem_take.mp zero), cuts_iff]
    simp [within]

theorem takeWhile_prefix (h : '\x00' ∈ t) : t.takeWhile (· ≠ '\x00') ++ ['\x00'] <+: t := by
  induction t with
  | nil => cases h
  | cons c t ih =>
    by_cases hc : c = '\x00'
    · subst hc
      simp
    · have later := (List.mem_cons.mp h).resolve_left (Ne.symm hc)
      rw [List.takeWhile_cons_of_pos (by simpa using hc), List.cons_append, List.cons_prefix_cons]
      exact ⟨rfl, ih later⟩

theorem takeWhile_eq_iff {p : Text} (plain : '\x00' ∉ p) (h : '\x00' ∈ t) :
    t.takeWhile (· ≠ '\x00') = p ↔ p ++ ['\x00'] <+: t := by
  constructor
  · rintro rfl
    exact takeWhile_prefix h
  · rintro ⟨rest, rfl⟩
    rw [List.append_assoc, List.takeWhile_append_of_pos, List.singleton_append,
      List.takeWhile_cons_of_neg (by simp), List.append_nil]
    intro c hc
    simpa using fun nul : c = '\x00' => plain (nul ▸ hc)

def shown (t : Text) : Text := (fromUtf8 ((utf8 t).take 255)).getD "<non-utf8>".toList

/-- The message that the target reads is the one that the host prints if there is no NUL in
it and the cut is between two characters, or if the cut is inside a character and the message
begins with the text that the host prints then and a NUL behind that. -/
theorem message_is_shown (t : Text) :
    ((utf8 t).take 255).takeWhile (· ≠ 0) = utf8 (shown t) ↔
      (Cuts 255 t → ¬ NulWithin 255 t) ∧
        (¬ Cuts 255 t → "<non-utf8>\x00".toList <+: t) := by
  by_cases cuts : Cuts 255 t
  · obtain ⟨s, text⟩ := cuts_iff.mpr cuts
    have all : shown t = s := by rw [shown, fromUtf8_eq_some.mpr text, Option.getD_some]
    simp only [cuts, forall_const, not_true_eq_false, false_implies, and_true]
    rw [all, ← text, ← zero_mem_take]
    refine ⟨fun same zero => ?_, takeWhile_of_notMem⟩
    rw [← same] at zero
    simpa using List.mem_takeWhile_imp zero
  · have instead : shown t = "<non-utf8>".toList := by
      have long : 255 ≤ (utf8 t).length := by
        by_contra short
        exact cuts (.inl (by omega))
      rw [shown, fromUtf8_inside long fun between => cuts (.inr between), Option.getD_none]
    simp only [cuts, false_implies, not_false_eq_true, forall_const, true_and, instead]
    by_cases within : NulWithin 255 t
    · have mem : '\x00' ∈ t := by
        obtain ⟨p, begins, _⟩ := within
        exact begins.subset (by simp)
      rw [takeWhile_take_of_within within]
      refine Iff.trans ⟨utf8_injective, congrArg utf8⟩ ?_
      exact takeWhile_eq_iff (by decide) mem
    · rw [takeWhile_of_notMem fun zero => within (zero_mem_take.mp zero)]
      refine ⟨fun text => absurd (cuts_iff.mp ⟨_, text⟩) cuts, fun begins => absurd ?_ within⟩
      exact ⟨"<non-utf8>".toList, begins, by decide⟩

/-- The host prints of a record what the target passes to `px4_log_modulename`. -/
def Agree (level : RecordLevel) (target : Text) (args : List Text) : Prop :=
  ∃ call name msg, recordTarget level target args = some call ∧ call.level = code level.level ∧
    call.module = utf8 name ∧ call.message = utf8 msg ∧
    recordHost level target args = some ('[' :: level.level.tag.toList ++ "] ".toList ++ name ++
      ": ".toList ++ msg ++ ['\n'])

/-- Every record reaches PX4 as two C strings that end inside their buffers and begin the
target and the message; and the host prints the same exactly when the name is cut between two
characters or at a NUL, and the message has no NUL and is cut between two characters too, or
is cut inside one and begins with the host's fallback text followed by a NUL. -/
theorem record_reads_the_same_iff (level : RecordLevel) (target : Text) (args : List Text) :
    (∃ call, recordTarget level target args = some call ∧ call.module <+: utf8 target ∧
      call.message <+: utf8 args.flatten) ∧
    (Agree level target args ↔ (Cuts 31 target ∨ NulWithin 31 target) ∧
      (Cuts 255 args.flatten → ¬ NulWithin 255 args.flatten) ∧
      (¬ Cuts 255 args.flatten → "<non-utf8>\x00".toList <+: args.flatten)) := by
  have sent : recordTarget level target args = some ⟨code level.level,
      ((utf8 target).take 31).takeWhile (· ≠ 0),
      ((utf8 args.flatten).take 255).takeWhile (· ≠ 0)⟩ := by
    rw [recordTarget, logImpl_eq, cString_nameBuf, Option.map_some]
  have printed : recordHost level target args = some (logHeader level.level
      (((utf8 target).take 31).takeWhile (· ≠ 0)) ++ shown args.flatten ++ ['\n']) := by
    rw [recordHost, cString_nameBuf, Option.bind_some, Log.logImpl, logMsg_eq, Option.map_some]
    rfl
  constructor
  · exact ⟨_, sent, (List.takeWhile_prefix _).trans (List.take_prefix _ _),
      (List.takeWhile_prefix _).trans (List.take_prefix _ _)⟩
  rw [← name_is_text, ← message_is_shown]
  constructor
  · rintro ⟨call, name, msg, called, -, module, message, line⟩
    rw [sent, Option.some.injEq] at called
    subst called
    simp only at module message
    rw [printed, module, logHeader, fromUtf8_eq_some.mpr rfl, Option.getD_some,
      Option.some.injEq, List.append_left_inj, List.append_right_inj] at line
    exact ⟨⟨name, module⟩, line ▸ message⟩
  · rintro ⟨⟨name, module⟩, message⟩
    refine ⟨_, name, shown args.flatten, sent, rfl, module, message, ?_⟩
    rw [printed, module, logHeader, fromUtf8_eq_some.mpr rfl, Option.getD_some]

end Px4Rs.LogTarget
