import Px4Rs.Emit
import Px4Rs.Sizes
import Px4Rs.Uppercase

/-! All that `emit_with_paths` emits: the struct, and beside it the constants, the list of the
topics, and a type with its metadata for each topic. A panic leaves nothing emitted. -/
namespace Px4Rs.EmitItems
open Px4Rs.Message Px4Rs.Parser Px4Rs.Layout Px4Rs.Emit Px4Rs.Sizes Px4Rs.LayoutUsize

/-- What the generator calls of its libraries. `new` and `newRaw` say where `Ident::new` and
`Ident::new_raw` do not panic, and `lexes` what parses as a `TokenStream`. -/
structure Tokens where
  new : Text → Bool
  newRaw : Text → Bool
  lexes : Text → Bool

def Tokens.builds (T : Tokens) : Ident → Bool
  | .plain name => T.new name
  | .raw name => T.newRaw name

structure EmitPaths where
  uorb : Text
  sys : Text
deriving DecidableEq

def primName : Prim → String
  | .bool => "bool"
  | .i8 => "i8"
  | .i16 => "i16"
  | .i32 => "i32"
  | .i64 => "i64"
  | .u8 => "u8"
  | .u16 => "u16"
  | .u32 => "u32"
  | .u64 => "u64"
  | .f32 => "f32"
  | .f64 => "f64"

def typeText : RustType → Text
  | .prim p => (primName p).toList
  | .path name => name
  | .array elem n => '[' :: typeText elem ++ "; ".toList ++ Nat.toDigits 10 n ++ [']']

structure EmittedConst where
  name : Text
  ty : Prim
  value : Text
deriving DecidableEq

/-- The synthesized `orb_metadata`; the name is the C string with its NUL. -/
structure OrbMetadata where
  oName : Text
  oSize : BitVec 16
  oSizeNoPadding : BitVec 16
  messageHash : BitVec 32
  oId : BitVec 16
  oQueue : Text
deriving DecidableEq

/-- The unit struct of a topic with its statics and its `UorbTopic` implementation. -/
structure EmittedTopic where
  topicIdent : Text
  msg : Text
  cnameIdent : Text
  metaIdent : Text
  resolvedIdent : Text
  metadata : OrbMetadata
  paths : EmitPaths
deriving DecidableEq

structure Emitted where
  struct : EmittedStruct
  consts : List EmittedConst
  topicLits : List Text
  topicItems : List EmittedTopic
deriving DecidableEq

variable (T : Tokens) (paths : EmitPaths)

def emitsField (f : LaidOutField) : Bool :=
  T.builds (emitField f).name &&
    match f with
    | .real f => T.lexes (typeText (rustTypeFor f.ty))
    | .padding _ _ => true

def emitConstant (c : Constant) : Option EmittedConst :=
  if T.new c.name ∧ T.lexes (primName (rustType c.ty)).toList ∧ T.lexes c.value then
    some ⟨c.name, rustType c.ty, c.value⟩
  else none

/-- The value of `ORB_QUEUE_LENGTH`, or PX4's default depth. -/
def queue (constants : List Constant) : Text :=
  match constants.find? fun c => c.name = "ORB_QUEUE_LENGTH".toList with
  | some c => if T.lexes c.value then c.value else ['1']
  | none => ['1']

/-- What `emit_topic` emits where it does not panic. -/
def topicItem (structName topicName : Text) (size : Nat) (messageHash : BitVec 32)
    (constants : List Constant) : EmittedTopic :=
  let upper := Uppercase.toUppercase topicName
  -- `size as u16`
  let sizeU16 := BitVec.ofNat 16 size
  { topicIdent := topicName
    msg := structName
    cnameIdent := "__ORB_NAME_".toList ++ upper
    metaIdent := "__ORB_META_".toList ++ upper
    resolvedIdent := "__ORB_META_".toList ++ upper ++ "_RESOLVED".toList
    metadata :=
      { oName := topicName ++ [Char.ofNat 0]
        oSize := sizeU16
        oSizeNoPadding := sizeU16
        messageHash
        oId := BitVec.allOnes 16
        oQueue := queue T constants }
    paths }

def emitTopic (structName topicName : Text) (size : Nat) (messageHash : BitVec 32)
    (constants : List Constant) : Option EmittedTopic :=
  let item := topicItem T paths structName topicName size messageHash constants
  if T.new item.msg ∧ T.new item.topicIdent ∧ T.new item.metaIdent ∧ T.new item.cnameIdent ∧
      T.new item.resolvedIdent then
    some item
  else none

def emitWithPaths (laid : LaidOutMsg) : Option Emitted :=
  if T.new laid.name ∧ laid.fields.all (emitsField T) then do
    let consts ← laid.constants.mapM (emitConstant T)
    let topicItems ← laid.topics.mapM fun topicName =>
      emitTopic T paths laid.name topicName laid.size laid.messageHash laid.constants
    some { struct := emitStruct laid, consts, topicLits := laid.topics, topicItems }
  else none

variable {T paths} {laid l : LaidOutMsg} {e : Emitted} {item : EmittedTopic} {search : List Dir}
  {o : Overflow} {c c' : Cache} {d : MsgDef} {k n : Nat}

theorem eq_map_of_mapM {α β : Type} {f : α → Option β} {g : α → β} {xs : List α} {ys : List β}
    (hf : ∀ x y, f x = some y → y = g x) (h : xs.mapM f = some ys) : ys = xs.map g := by
  induction xs generalizing ys with
  | nil =>
    rw [List.mapM_nil] at h
    cases h
    rfl
  | cons x xs ih =>
    rw [List.mapM_cons] at h
    obtain ⟨y, hy, h⟩ := Option.bind_eq_some_iff.mp h
    obtain ⟨rest, hrest, h⟩ := Option.bind_eq_some_iff.mp h
    cases h
    rw [List.map_cons, hf x y hy, ih hrest]

theorem emitWithPaths_some (h : emitWithPaths T paths laid = some e) :
    e.struct = emitStruct laid ∧ e.topicLits = laid.topics ∧
      e.topicItems = laid.topics.map fun name =>
        topicItem T paths laid.name name laid.size laid.messageHash laid.constants := by
  simp only [emitWithPaths] at h
  split_ifs at h
  obtain ⟨consts, _, h⟩ := Option.bind_eq_some_iff.mp h
  obtain ⟨items, hitems, h⟩ := Option.bind_eq_some_iff.mp h
  cases h
  refine ⟨rfl, rfl, eq_map_of_mapM (fun name item hn => ?_) hitems⟩
  simp only [emitTopic] at hn
  split_ifs at hn
  exact (Option.some.inj hn).symm

/-! The size of the metadata. -/

/-- The size of the struct, by its fields and the messages they refer to. -/
def MessageHasSize (search : List Dir) (c : Cache) (d : MsgDef) (n : Nat) : Prop :=
  ∃ sizeOf, (∀ m ∈ references d.fields, HasSize search c m (sizeOf m)) ∧
    n = messageSize sizeOf d.fields

theorem MessageHasSize.unique {m : Nat} (hn : MessageHasSize search c d n)
    (hm : MessageHasSize search c d m) : n = m := by
  obtain ⟨a, ha, rfl⟩ := hn
  obtain ⟨b, hb, rfl⟩ := hm
  exact messageSize_congr fun r hr => (ha r hr).unique (hb r hr)

theorem size_of_layout (fits : Fits c)
    (h : LayoutUsize.layout search o k d c = some (.ok l, c')) :
    l.topics = d.topics ∧ ∃ n, MessageHasSize search c d n ∧ l.size = n % 2 ^ usizeBits := by
  obtain ⟨sized, v, rfl⟩ := exists_layout fits h
  refine ⟨rfl, _, ⟨_, sized, rfl⟩, ?_⟩
  rw [← sizeAccum_placed]
  rfl

/-- The size in the metadata of each topic is that of the struct as long as it fits. -/
theorem oSize_exact_iff (fits : Fits c)
    (h : LayoutUsize.layout search o k d c = some (.ok l, c'))
    (he : emitWithPaths T paths l = some e) :
    e.topicItems.map (·.topicIdent) = d.topics ∧ e.struct.assertedSize = l.size ∧
      ((∀ item ∈ e.topicItems, item.metadata.oSize.toNat = l.size) ↔
        d.topics = [] ∨ ∃ n, MessageHasSize search c d n ∧ n % 2 ^ usizeBits < 2 ^ 16) := by
  obtain ⟨topics, n, hn, size⟩ := size_of_layout fits h
  obtain ⟨struct, _, items⟩ := emitWithPaths_some he
  have represented : (BitVec.ofNat 16 l.size).toNat = l.size ↔ l.size < 2 ^ 16 := by
    rw [BitVec.toNat_ofNat]
    exact ⟨fun h => h ▸ Nat.mod_lt _ (by decide), Nat.mod_eq_of_lt⟩
  have given : (∃ m, MessageHasSize search c d m ∧ m % 2 ^ usizeBits < 2 ^ 16) ↔
      l.size < 2 ^ 16 := by
    rw [size]
    constructor
    · rintro ⟨m, hm, small⟩
      rwa [hn.unique hm]
    · exact fun small => ⟨n, hn, small⟩
  rw [struct, items, given, topics]
  refine ⟨by rw [List.map_map]; exact List.map_id d.topics, rfl, ?_⟩
  simp only [List.mem_map, forall_exists_index, and_imp, forall_apply_eq_imp_iff₂, topicItem,
    represented]
  cases d.topics with
  | nil => simp
  | cons name names => simp +contextual

/-! A message of 65536 bytes. -/

def bigField : Field := ⟨"data".toList, .scalarArray .u64 8192⟩

def bigDef : MsgDef where
  name := "Big".toList
  snakeName := "big".toList
  fields := [bigField]
  constants := []
  topics := ["big".toList]
  messageVersion := none

def bigPlaced : Placing := ⟨[.real bigField], 65536, 0⟩

def bigLaid : LaidOutMsg := padded bigDef bigPlaced (fnv1a32 "uint64[8192] data\n".toList)

/-- The libraries, on ASCII texts that are identifiers or literals. -/
def plainTokens : Tokens where
  new _ := true
  newRaw _ := true
  lexes _ := true

def defaultPaths : EmitPaths := ⟨"::px4_uorb".toList, "::px4_sys".toList⟩

theorem bigDef_layout : LayoutUsize.layout [] .panics 0 bigDef Cache.new =
    some (.ok bigLaid, Function.update Cache.new bigDef.name (some bigLaid)) := by
  have hash : messageHash [] 1 bigDef = some (.ok bigLaid.messageHash) := rfl
  have sorted : sortFields bigDef.fields = [bigField] := rfl
  have place : place .panics .start bigField 65536 = some bigPlaced := by
    have sum : Placing.start.sizeAccum + 65536 = 65536 := Nat.zero_add _
    have fits : Overflow.panics.usize 65536 = some 65536 := rfl
    simp only [place, bigField, Option.bind_some]
    rw [sum, fits]
    rfl
  have total (byName : Cache → Text → Outcome LaidOutMsg) (c : Cache) :
      LayoutUsize.fieldTotalSize .panics byName c bigField.ty = some (.ok 65536, c) := rfl
  have fields (byName : Cache → Text → Outcome LaidOutMsg) (c : Cache) :
      LayoutUsize.placeFields .panics byName [bigField] .start c = some (.ok bigPlaced, c) := by
    rw [LayoutUsize.placeFields, total]
    simp only [Outcome.andThen]
    rw [place]
    rfl
  have aligned : pad .panics bigPlaced = some bigPlaced := rfl
  rw [LayoutUsize.layout, LayoutUsize.layoutWith, hash, sorted, fields]
  simp only [Outcome.andThen, aligned]
  rfl

theorem oSize_truncated : ¬ ∀ (search : List Dir) (o : Overflow) (k : Nat) (d : MsgDef)
    (c c' : Cache) (l : LaidOutMsg) (T : Tokens) (paths : EmitPaths) (e : Emitted), Fits c →
    LayoutUsize.layout search o k d c = some (.ok l, c') → emitWithPaths T paths l = some e →
    ∀ item ∈ e.topicItems, item.metadata.oSize.toNat = l.size := by
  intro claim
  have fits : Fits Cache.new := by rintro _ _ ⟨⟩
  have exact := claim [] _ 0 bigDef _ _ bigLaid plainTokens defaultPaths _ fits bigDef_layout rfl _
    List.mem_cons_self
  revert exact
  decide

theorem oSize_exact_iff_big :
    ∃ e, emitWithPaths plainTokens defaultPaths bigLaid = some e ∧
      e.topicItems.map (·.topicIdent) = bigDef.topics ∧
      e.struct.assertedSize = bigLaid.size ∧
      ((∀ item ∈ e.topicItems, item.metadata.oSize.toNat = bigLaid.size) ↔
        bigDef.topics = [] ∨
          ∃ n, MessageHasSize [] Cache.new bigDef n ∧ n % 2 ^ usizeBits < 2 ^ 16) := by
  have fits : Fits Cache.new := by rintro _ _ ⟨⟩
  have he : emitWithPaths plainTokens defaultPaths bigLaid = some _ := rfl
  exact ⟨_, he, oSize_exact_iff fits bigDef_layout he⟩

end Px4Rs.EmitItems
