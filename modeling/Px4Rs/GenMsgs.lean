import Px4Rs.EmitItems
import Px4Rs.ResolverCache
import Px4Rs.SnakeNames
import Px4Rs.SourceHash
import Px4Rs.Writes

/-! `xtask gen-msgs`, over `msg` and `msg/versioned`. A nested message is looked up in `msg`
first, but the file of its name is written last from `msg/versioned`. -/
namespace Px4Rs.GenMsgs
open Px4Rs.Message Px4Rs.Parser Px4Rs.Layout Px4Rs.Emit Px4Rs.EmitItems Px4Rs.ResolverCache
open Px4Rs.LayoutUsize (Overflow)
open Px4Rs.SnakeNames (outFile)
open Px4Rs.SourceHash (Nests fieldEntry parsedFields targets_fieldEntry)
open Px4Rs.Memo (Sound value)

/-- The .msg files of the two directories, as `read_dir` lists them. -/
structure Tree where
  msg : Dir
  versioned : Option Dir

/-- The search path; `gen_msgs` goes through the same directories in the same order. -/
def Tree.dirs (tree : Tree) : List Dir := tree.msg :: tree.versioned.toList

def Tree.files (tree : Tree) : List (Text × File) := tree.dirs.flatten

structure Output where
  files : Text → Option Emitted
  count : Nat
  skipped : List (Text × ParseError)

variable (T : Tokens) (o : Overflow)

/-- `generate`, with nested messages to depth `k`. A panic gives no result. -/
def generate (search : List Dir) (k : Nat) (path : Text × File) :
    Option (Except ParseError Emitted) :=
  match parseFile path.1 path.2 with
  | .error e => some (.error e)
  | .ok d =>
    match layout search o k d Cache.new with
    | none => none
    | some (.error e, _) => some (.error e)
    | some (.ok l, _) => (emitWithPaths T defaultPaths l).map .ok

def genFile (search : List Dir) (k : Nat) (out : Output) (path : Text × File) : Option Output :=
  (generate T o search k path).map fun
    | .ok ts =>
      { out with
        files := Function.update out.files (outFile path.1) (some ts)
        count := out.count + 1 }
    | .error e => { out with skipped := out.skipped ++ [(path.1, e)] }

/-- `gen_msgs` into a directory that may hold files already. It has no result when it does not
come to its end. -/
def genMsgs (k : Nat) (tree : Tree) (files : Text → Option Emitted) : Option Output :=
  tree.dirs.foldlM (fun out dir => dir.foldlM (genFile T o tree.dirs k) out) ⟨files, 0, []⟩

/-- What is written for a file, if it is not skipped. -/
def contents (search : List Dir) (k : Nat) (path : Text × File) : Option Emitted :=
  match generate T o search k path with
  | some (.ok ts) => some ts
  | _ => none

/-- The last file that is written to `name`. -/
def lastWriter (k : Nat) (tree : Tree) (name : Text) : Option (Text × File) :=
  Writes.last (fun path => outFile path.1) (contents T o tree.dirs k) tree.files name

/-- The layout of `m` that laying out `d` has used: what the resolver holds when the fields are
placed, before it stores `d` itself. -/
def Uses (search : List Dir) (k : Nat) (d : MsgDef) (m : Text) (l : LaidOutMsg) : Prop :=
  ∃ p c, LayoutUsize.placeFields o (layoutByName search o k) (sortFields d.fields) .start
    Cache.new = some (.ok p, c) ∧ c m = some l

def shape (e : Emitted) : Nat × List EmittedField := (e.struct.assertedSize, e.struct.fields)

/-- For all it nests, the layout used is that of the struct left in the file of its name. -/
def Consistent (k : Nat) (tree : Tree) (out : Output) (d : MsgDef) : Prop :=
  ∀ m, Nests tree.dirs d m → ∃ l e, Uses o tree.dirs k d m l ∧ out.files (outFile m) = some e ∧
    shape e = (l.size, l.fields.map emitField)

def SelfConsistent (k : Nat) (tree : Tree) (out : Output) : Prop :=
  ∀ path ∈ tree.files, (contents T o tree.dirs k path).isSome →
    ∀ d, parseFile path.1 path.2 = .ok d → Consistent o k tree out d

/-- The last file written over that of `m` has the struct of the one that `find` returns. -/
def Settled (k : Nat) (tree : Tree) (m : Text) : Prop :=
  ∀ file, find tree.dirs m = .ok file → ∀ w, lastWriter T o k tree (outFile m) = some w →
    (contents T o tree.dirs k w).map shape = (contents T o tree.dirs k (m, file)).map shape

variable {T o} {search : List Dir} {k : Nat} {tree : Tree} {out out' : Output} {d : MsgDef}
  {c c' : Cache} {m : Text} {l : LaidOutMsg} {path : Text × File} {fs : List Field}
  {paths : List (Text × File)} {files : Text → Option Emitted}

/-! The files that are left. -/

theorem genFile_files (h : genFile T o search k out path = some out') :
    (∃ r, generate T o search k path = some r) ∧
      out'.files = Writes.write (fun path => outFile path.1) (contents T o search k)
        out.files path := by
  obtain ⟨r, generated, rfl⟩ := Option.map_eq_some_iff.mp h
  refine ⟨⟨r, generated⟩, ?_⟩
  cases r <;> simp only [Writes.write, contents, generated]

theorem genFiles_files (h : paths.foldlM (genFile T o search k) out = some out') :
    (∀ path ∈ paths, ∃ r, generate T o search k path = some r) ∧
      out'.files = paths.foldl (Writes.write (fun path => outFile path.1) (contents T o search k))
        out.files := by
  induction paths generalizing out with
  | nil =>
    cases h
    exact ⟨by simp, rfl⟩
  | cons path paths ih =>
    rw [List.foldlM_cons] at h
    obtain ⟨mid, first, rest⟩ := Option.bind_eq_some_iff.mp h
    obtain ⟨generated, here⟩ := genFile_files first
    obtain ⟨all, there⟩ := ih rest
    rw [List.forall_mem_cons, List.foldl_cons, ← here]
    exact ⟨⟨generated, all⟩, there⟩

theorem foldlM_dirs (dirs : List Dir) (out : Output) :
    dirs.foldlM (fun out dir => dir.foldlM (genFile T o search k) out) out =
      dirs.flatten.foldlM (genFile T o search k) out := by
  induction dirs generalizing out with
  | nil => rfl
  | cons dir dirs ih =>
    rw [List.foldlM_cons, List.flatten_cons, List.foldlM_append]
    exact bind_congr ih

theorem genMsgs_files (h : genMsgs T o k tree files = some out) :
    (∀ path ∈ tree.files, ∃ r, generate T o tree.dirs k path = some r) ∧
      ∀ name, out.files name =
        (lastWriter T o k tree name).elim (files name) (contents T o tree.dirs k) := by
  rw [genMsgs, foldlM_dirs] at h
  obtain ⟨all, left⟩ := genFiles_files h
  refine ⟨all, fun name => ?_⟩
  rw [left, Writes.foldl_write]
  rfl

/-! The layouts that are used. -/

/-- What is held with a message is held for all it refers to. -/
def Closed (search : List Dir) (c : Cache) : Prop :=
  ∀ n, (c n).isSome → ∀ d, loadFile search n = .ok d → ∀ m ∈ references d.fields, (c m).isSome

/-- A call of `layout_by_name` keeps what is held, and holds its message after it. -/
def Keeps (search : List Dir) (byName : Cache → Text → Layout.Outcome LaidOutMsg) : Prop :=
  ∀ c m l c', ResolverCache.Plain m → Closed search c → byName c m = some (.ok l, c') →
    Closed search c' ∧ (c' m).isSome ∧ ∀ n, (c n).isSome → (c' n).isSome

theorem closed_new : Closed search Cache.new := by
  intro n h
  cases h

theorem keeps_placeFields {byName : Cache → Text → Layout.Outcome LaidOutMsg}
    (keeps : Keeps search byName) (plain : ∀ m ∈ references fs, ResolverCache.Plain m)
    {p q : Placing} (closed : Closed search c)
    (h : LayoutUsize.placeFields o byName fs p c = some (.ok q, c')) :
    Closed search c' ∧ (∀ m ∈ references fs, (c' m).isSome) ∧
      ∀ n, (c n).isSome → (c' n).isSome := by
  induction fs generalizing p c with
  | nil =>
    cases h
    exact ⟨closed, by simp [references], fun n hn => hn⟩
  | cons f fs ih =>
    rw [LayoutUsize.placeFields, ResolverCache.fieldTotalSize_eq] at h
    have round {size : Option Nat} {c : Cache}
        (h : ((sized c size).andThen fun size c => (LayoutUsize.place o p f size).bind fun p =>
          LayoutUsize.placeFields o byName fs p c) = some (.ok q, c')) :
        ∃ p, LayoutUsize.placeFields o byName fs p c = some (.ok q, c') := by
      cases size with
      | none => cases h
      | some size =>
        obtain ⟨p, _, h⟩ := Option.bind_eq_some_iff.mp h
        exact ⟨p, h⟩
    cases hr : f.ty.reference with
    | none =>
      rw [references_cons_none hr] at plain ⊢
      simp only [hr] at h
      obtain ⟨p, h⟩ := round h
      exact ih plain closed h
    | some m =>
      rw [references_cons_some hr] at plain ⊢
      simp only [hr, andThen_assoc] at h
      cases hm : byName c m with
      | none => simp [hm, Layout.Outcome.andThen] at h
      | some r =>
        obtain ⟨r, c₁⟩ := r
        cases r with
        | error e => simp [hm, Layout.Outcome.andThen] at h
        | ok l =>
          obtain ⟨closed₁, held, kept⟩ := keeps c m l c₁ (plain m List.mem_cons_self) closed hm
          simp only [hm] at h
          obtain ⟨p, h⟩ := round h
          obtain ⟨closed', all, kept'⟩ :=
            ih (fun n hn => plain n (List.mem_cons_of_mem m hn)) closed₁ h
          exact ⟨closed', List.forall_mem_cons.mpr ⟨kept' m held, all⟩,
            fun n hn => kept' n (kept n hn)⟩

theorem keeps_layoutByName : Keeps search (layoutByName search o k) := by
  induction k with
  | zero =>
    intro c m l c' _ _ h
    cases h
  | succ k ih =>
    intro c m l c' plain closed h
    rw [ResolverCache.layoutByName] at h
    split at h
    · rename_i cached hm
      cases h
      exact ⟨closed, by simp [hm], fun n hn => hn⟩
    · split at h
      · cases h
      · rename_i d hd
        obtain ⟨p, c₁, placed, _, rfl⟩ := LayoutUsize.layoutWith_ok o h
        have named : d.name = m := (loadFile_name hd).trans (fileStem_of_plain plain)
        have refs : ∀ n ∈ references (sortFields d.fields), ResolverCache.Plain n := by
          rw [references_sortFields]
          exact plain_reference hd
        obtain ⟨closed₁, all, kept⟩ := keeps_placeFields ih refs closed placed
        rw [references_sortFields] at all
        have grown {n : Text} (hn : (c₁ n).isSome) :
            (Function.update c₁ d.name (some l) n).isSome := by
          by_cases here : n = d.name
          · simp [here]
          · rwa [Function.update_of_ne here]
        refine ⟨fun n hn e he r hr => ?_, by simp [named], fun n hn => grown (kept n hn)⟩
        by_cases here : n = m
        · subst here
          cases hd.symm.trans he
          exact grown (all r hr)
        · rw [named, Function.update_of_ne here] at hn
          exact grown (closed₁ n hn e he r hr)

theorem held_of_nests (closed : Closed search c) (h : Nests search d m)
    (plain : ∀ n ∈ references d.fields, ResolverCache.Plain n)
    (held : ∀ n ∈ references d.fields, (c n).isSome) : ResolverCache.Plain m ∧ (c m).isSome := by
  unfold Nests at h
  generalize entries : d.fields.map fieldEntry = es at h
  induction h generalizing d with
  | here mem =>
    rw [← entries, targets_fieldEntry] at mem
    exact ⟨plain _ mem, held _ mem⟩
  | deeper mem found _ ih =>
    rw [← entries, targets_fieldEntry] at mem
    unfold parsedFields at found
    split at found
    · rename_i d' loaded
      cases found
      rw [← loadFile_of_plain (plain _ mem)] at loaded
      exact ih (plain_reference loaded) (closed _ (held _ mem) d' loaded) rfl
    · cases found

theorem sound_placeFields (plain : ∀ m ∈ references fs, ResolverCache.Plain m) {p q : Placing}
    (h : LayoutUsize.placeFields o (layoutByName search o k) fs p Cache.new = some (.ok q, c)) :
    Sound (bodies search o) c := by
  have same (m : Text) (hm : m ∈ references fs) (c : Cache) :
      layoutByName search o k c m = Memo.memo (bodies search o) k c m :=
    layoutByName_eq (plain m hm)
  have rest (q : Placing) (c : Cache) : (some (.ok q, c) : Layout.Outcome Placing) =
      Memo.exec (Memo.memo (bodies search o) k) (.ret (.ok q)) c := rfl
  have computed := exec_placeProg (o := o) same rest p Cache.new
  rw [h] at computed
  exact (Memo.eval_of_exec Memo.answers_memo sound_new computed.symm).1

theorem layout_of_value {j : Nat} (plain : ResolverCache.Plain m)
    (h : value (bodies search o) j m = some (.ok l)) :
    ∃ file d, find search m = .ok file ∧ parseFile m file = .ok d ∧
      ∀ k r c, layout search o k d Cache.new = some (r, c) → r = .ok l := by
  cases j with
  | zero => cases h
  | succ j =>
    have computed := h
    rw [value, bodies_body, nameProg] at computed
    cases hd : loadFile search m with
    | error e =>
      rw [hd] at computed
      cases computed
    | ok d =>
      have named : d.name = m := (loadFile_name hd).trans (fileStem_of_plain plain)
      have loaded := hd
      unfold loadFile at loaded
      split at loaded
      · rename_i file found
        rw [fileStem_of_plain plain] at loaded
        refine ⟨file, d, found, loaded, fun k r c laid => ?_⟩
        rw [layout_eq (named.symm ▸ hd)] at laid
        obtain ⟨_, i, again⟩ := Memo.answers_fill Memo.answers_memo _ _ r c sound_new laid
        rw [named] at again
        exact Memo.value_unique again h
      · cases loaded

theorem mem_files_of_find {file : File} (h : find tree.dirs m = .ok file) :
    (m, file) ∈ tree.files := by
  unfold find at h
  split at h
  · rename_i file found
    cases h
    obtain ⟨before, dir, after, dirs, here, _⟩ := List.findSome?_eq_some_iff.mp found
    obtain ⟨l₁, l₂, rfl, _⟩ := List.lookup_eq_some_iff.mp here
    rw [Tree.files, dirs]
    simp
  · cases h

theorem layout_of_contents (h : (contents T o search k path).isSome)
    (parsed : parseFile path.1 path.2 = .ok d) :
    ∃ l c, layout search o k d Cache.new = some (.ok l, c) := by
  unfold contents generate at h
  rw [parsed] at h
  cases laid : layout search o k d Cache.new with
  | none => simp [laid] at h
  | some r =>
    obtain ⟨r, c⟩ := r
    cases r with
    | error e => simp [laid] at h
    | ok l => exact ⟨l, c, rfl⟩

/-- The file that is found for a message whose layout is known, once it has been generated. -/
theorem contents_of_found {file : File} (parsed : parseFile m file = .ok d)
    (laid : ∀ k r c, layout search o k d Cache.new = some (r, c) → r = .ok l)
    (generated : ∃ r, generate T o search k (m, file) = some r) :
    ∃ e, contents T o search k (m, file) = some e ∧ shape e = (l.size, l.fields.map emitField) := by
  obtain ⟨r, generated⟩ := generated
  have written := generated
  unfold generate at generated
  rw [parsed] at generated
  cases hl : layout search o k d Cache.new with
  | none => simp [hl] at generated
  | some x =>
    obtain ⟨x, c⟩ := x
    cases laid k x c hl
    simp only [hl, Option.map_eq_some_iff] at generated
    obtain ⟨e, emitted, rfl⟩ := generated
    refine ⟨e, by rw [contents, written], ?_⟩
    rw [shape, (emitWithPaths_some emitted).1]
    rfl

theorem Uses.unique {l' : LaidOutMsg} (h : Uses o search k d m l) (h' : Uses o search k d m l') :
    l = l' := by
  obtain ⟨p, c, placed, held⟩ := h
  obtain ⟨p', c', placed', held'⟩ := h'
  cases placed.symm.trans placed'
  exact Option.some.inj (held.symm.trans held')

theorem exists_uses (all : ∀ path ∈ tree.files, ∃ r, generate T o tree.dirs k path = some r)
    (generated : (contents T o tree.dirs k path).isSome) (parsed : parseFile path.1 path.2 = .ok d)
    (nests : Nests tree.dirs d m) :
    ∃ l file e, Uses o tree.dirs k d m l ∧ find tree.dirs m = .ok file ∧
      contents T o tree.dirs k (m, file) = some e ∧ shape e = (l.size, l.fields.map emitField) := by
  obtain ⟨_, _, laid⟩ := layout_of_contents generated parsed
  obtain ⟨p, c, placed, _⟩ := LayoutUsize.layoutWith_ok o laid
  have refs := plain_of_parseFile parsed
  have sorted : ∀ n ∈ references (sortFields d.fields), ResolverCache.Plain n := by
    rwa [references_sortFields]
  obtain ⟨closed, held, _⟩ := keeps_placeFields keeps_layoutByName sorted closed_new placed
  rw [references_sortFields] at held
  obtain ⟨plain, some⟩ := held_of_nests closed nests refs held
  obtain ⟨l, hl⟩ := Option.isSome_iff_exists.mp some
  obtain ⟨j, hj⟩ := sound_placeFields sorted placed m l hl
  obtain ⟨file, d', found, parsed', laid'⟩ := layout_of_value plain hj
  obtain ⟨e, written, shaped⟩ := contents_of_found parsed' laid' (all _ (mem_files_of_find found))
  exact ⟨l, file, e, ⟨p, c, placed, hl⟩, found, written, shaped⟩

/-- Each message that was not skipped is consistent with the files left exactly where those of
all it nests are settled. -/
theorem consistent_iff (run : genMsgs T o k tree files = some out)
    (generated : (contents T o tree.dirs k path).isSome)
    (parsed : parseFile path.1 path.2 = .ok d) :
    Consistent o k tree out d ↔ ∀ m, Nests tree.dirs d m → Settled T o k tree m := by
  obtain ⟨all, left⟩ := genMsgs_files run
  refine forall₂_congr fun m nests => ?_
  obtain ⟨l, file, e, uses, found, written, shaped⟩ := exists_uses all generated parsed nests
  cases hw : lastWriter T o k tree (outFile m) with
  | none =>
    have at_file : Writes.At (fun path => outFile path.1) (contents T o tree.dirs k) (outFile m)
      (m, file) := ⟨rfl, by rw [written]; rfl⟩
    exact absurd at_file (Writes.last_eq_none.mp hw _ (mem_files_of_find found))
  | some w =>
    obtain ⟨_, _, writes⟩ := Writes.last_eq_some hw
    obtain ⟨e', written'⟩ := Option.isSome_iff_exists.mp writes
    have here : out.files (outFile m) = some e' := by
      rw [left, hw]
      exact written'
    constructor
    · rintro ⟨l', e'', uses', here', shaped'⟩ file' found' w' hw'
      cases uses.unique uses'
      cases found.symm.trans found'
      cases hw.symm.trans hw'
      cases here.symm.trans here'
      rw [written, written', Option.map_some, Option.map_some, shaped, shaped']
    · intro settled
      have same := settled file found w hw
      rw [written, written', Option.map_some, Option.map_some, Option.some.injEq] at same
      exact ⟨l, e', uses, here, same.trans shaped⟩

/-- The files left are consistent exactly where each message nested in one that was not
skipped is settled. -/
theorem self_consistent_iff (run : genMsgs T o k tree files = some out) :
    SelfConsistent T o k tree out ↔
      ∀ path ∈ tree.files, (contents T o tree.dirs k path).isSome →
        ∀ d, parseFile path.1 path.2 = .ok d → ∀ m, Nests tree.dirs d m → Settled T o k tree m :=
  forall₃_congr fun _ _ generated => forall₂_congr fun _ parsed =>
    consistent_iff run generated parsed

/-- `Leaf` has two words in `msg` and one in `msg/versioned`; `Node`, which nests it, is only
in `msg`. -/
def shadowed : Tree where
  msg := [("Leaf".toList, .text "uint64 a\nuint64 b".toList),
    ("Node".toList, .text "Leaf leaf".toList)]
  versioned := some [("Leaf".toList, .text "uint64 a".toList)]

theorem self_consistent_iff_shadowed :
    ∃ out, genMsgs plainTokens .panics 1 shadowed (fun _ => none) = some out ∧
      (SelfConsistent plainTokens .panics 1 shadowed out ↔
        ∀ path ∈ shadowed.files, (contents plainTokens .panics shadowed.dirs 1 path).isSome →
          ∀ d, parseFile path.1 path.2 = .ok d → ∀ m, Nests shadowed.dirs d m →
            Settled plainTokens .panics 1 shadowed m) := by
  have run : ∃ out, genMsgs plainTokens .panics 1 shadowed (fun _ => none) = some out := ⟨_, rfl⟩
  obtain ⟨out, run⟩ := run
  exact ⟨out, run, self_consistent_iff run⟩

/-- `Node` is laid out with the 16 bytes of `msg/Leaf.msg`, and the `Leaf` that is left has 8. -/
theorem shadowed_differs : ¬ ∀ (T : Tokens) (o : Overflow) (k : Nat) (tree : Tree)
    (files : Text → Option Emitted) (out : Output), genMsgs T o k tree files = some out →
      SelfConsistent T o k tree out := by
  intro claim
  obtain ⟨out, run, size⟩ : ∃ out,
      genMsgs plainTokens .panics 1 shadowed (fun _ => none) = some out ∧
        (out.files (outFile "Leaf".toList)).map (fun e => (shape e).1) = some 8 := ⟨_, rfl, rfl⟩
  obtain ⟨d, parsed, nested, l', uses', used⟩ : ∃ d,
      parseFile "Node".toList (.text "Leaf leaf".toList) = .ok d ∧
        "Leaf".toList ∈ references d.fields ∧
        ∃ l, Uses .panics shadowed.dirs 1 d "Leaf".toList l ∧ l.size = 16 :=
    ⟨_, rfl, List.mem_cons_self, _, ⟨_, _, rfl, rfl⟩, rfl⟩
  have nests : Nests shadowed.dirs d "Leaf".toList := .here (by rwa [targets_fieldEntry])
  have mem : ("Node".toList, File.text "Leaf leaf".toList) ∈ shadowed.files := by
    simp [Tree.files, Tree.dirs, shadowed]
  obtain ⟨l, e, uses, here, shaped⟩ := claim _ _ _ _ _ _ run _ mem rfl d parsed _ nests
  obtain rfl := uses.unique uses'
  rw [here, Option.map_some, shaped, used] at size
  simp at size

/-! Where each output file belongs to one stem, only a name in both directories matters. -/

/-- A directory has one file for a stem, and different stems have different output files. -/
structure Distinct (tree : Tree) : Prop where
  stems : ∀ dir ∈ tree.dirs, (dir.map Prod.fst).Nodup
  outputs : ∀ f ∈ tree.files, ∀ g ∈ tree.files, outFile f.1 = outFile g.1 → f.1 = g.1

theorem own_of_writes (distinct : Distinct tree) (hm : ∃ f ∈ tree.files, f.1 = m) {dir : Dir}
    (hd : dir ∈ tree.dirs) {y : Text × File} (hy : y ∈ dir)
    (writes : Writes.At (fun path => outFile path.1) (contents T o tree.dirs k) (outFile m) y) :
    ∃ file, y = (m, file) ∧ dir.lookup m = some file := by
  obtain ⟨f, hf, rfl⟩ := hm
  have named : y.1 = f.1 :=
    distinct.outputs y (List.mem_flatten.mpr ⟨dir, hd, hy⟩) f hf writes.1
  cases hl : dir.lookup f.1 with
  | none =>
    have other := List.lookup_eq_none_iff.mp hl y hy
    simp [named] at other
  | some file =>
    obtain ⟨l₁, l₂, rfl, _⟩ := List.lookup_eq_some_iff.mp hl
    have mem : (f.1, file) ∈ l₁ ++ (f.1, file) :: l₂ := by simp
    exact ⟨file, List.inj_on_of_nodup_map (distinct.stems _ hd) hy mem named, rfl⟩

theorem last_of_lookup (distinct : Distinct tree) {dir : Dir} (hd : dir ∈ tree.dirs) {file : File}
    (hl : dir.lookup m = some file) (written : (contents T o tree.dirs k (m, file)).isSome) :
    Writes.last (fun path => outFile path.1) (contents T o tree.dirs k) dir (outFile m) =
      some (m, file) := by
  obtain ⟨l₁, l₂, rfl, _⟩ := List.lookup_eq_some_iff.mp hl
  have mem : (m, file) ∈ l₁ ++ (m, file) :: l₂ := by simp
  have here : (m, file) ∈ tree.files := List.mem_flatten.mpr ⟨_, hd, mem⟩
  refine Writes.last_eq_of_only mem ⟨rfl, written⟩ fun y hy writes => ?_
  have named : y.1 = m :=
    distinct.outputs y (List.mem_flatten.mpr ⟨_, hd, hy⟩) (m, file) here writes.1
  exact List.inj_on_of_nodup_map (distinct.stems _ hd) hy mem named

theorem find_of_msg {file : File} (h : tree.msg.lookup m = some file) :
    find tree.dirs m = .ok file := by
  simp [find, Tree.dirs, h]

theorem find_of_versioned {dir : Dir} {file : File} (none : tree.msg.lookup m = none)
    (hdir : dir ∈ tree.versioned) (h : dir.lookup m = some file) : find tree.dirs m = .ok file := by
  simp [find, Tree.dirs, none, Option.mem_def.mp hdir, h]

/-- A message is settled unless `msg/versioned` has another one of its name, which is not
skipped and has another struct. -/
theorem settled_iff_versioned (distinct : Distinct tree) {file : File}
    (found : find tree.dirs m = .ok file) :
    Settled T o k tree m ↔ ∀ dir ∈ tree.versioned, ∀ other, tree.msg.lookup m = some file →
      dir.lookup m = some other → (contents T o tree.dirs k (m, other)).isSome →
        (contents T o tree.dirs k (m, other)).map shape =
          (contents T o tree.dirs k (m, file)).map shape := by
  have hm : ∃ f ∈ tree.files, f.1 = m := ⟨_, mem_files_of_find found, rfl⟩
  have legacy {f : File} (h : tree.msg.lookup m = some f) : f = file := by
    rw [find_of_msg h] at found
    exact Except.ok.inj found
  constructor
  · intro settled dir hdir other hmsg hother hwritten
    have hd : dir ∈ tree.dirs := by simp [Tree.dirs, Option.mem_def.mp hdir]
    refine settled file found (m, other) ?_
    have files : tree.files = tree.msg ++ dir := by
      simp [Tree.files, Tree.dirs, Option.mem_def.mp hdir]
    rw [lastWriter, files, Writes.last_append, last_of_lookup distinct hd hother hwritten]
    rfl
  · intro same file' found' w hw
    cases found.symm.trans found'
    obtain ⟨mem, writes⟩ := Writes.last_eq_some hw
    obtain ⟨dir, hd, hw⟩ := List.mem_flatten.mp mem
    obtain ⟨other, rfl, hother⟩ := own_of_writes distinct hm hd hw writes
    obtain rfl | hdir := List.mem_cons.mp hd
    · rw [legacy hother]
    · have hdir := Option.mem_toList.mp hdir
      cases hmsg : tree.msg.lookup m with
      | none =>
        rw [find_of_versioned hmsg hdir hother] at found
        cases found
        rfl
      | some f => exact same dir hdir other (legacy hmsg ▸ hmsg) hother writes.2

/-- There a message is consistent exactly when none that it nests is shadowed by one with
another struct. -/
theorem consistent_iff_versioned (distinct : Distinct tree)
    (run : genMsgs T o k tree files = some out)
    (generated : (contents T o tree.dirs k path).isSome)
    (parsed : parseFile path.1 path.2 = .ok d) :
    Consistent o k tree out d ↔ ∀ m, Nests tree.dirs d m → ∀ file dir other,
      tree.msg.lookup m = some file → dir ∈ tree.versioned → dir.lookup m = some other →
        (contents T o tree.dirs k (m, other)).isSome →
          (contents T o tree.dirs k (m, other)).map shape =
            (contents T o tree.dirs k (m, file)).map shape := by
  rw [consistent_iff run generated parsed]
  refine forall₂_congr fun m nests => ?_
  obtain ⟨_, file, _, _, found, _⟩ := exists_uses (genMsgs_files run).1 generated parsed nests
  rw [settled_iff_versioned distinct found]
  constructor
  · intro same f dir other hf hdir hother hwritten
    rw [find_of_msg hf] at found
    cases found
    exact same dir hdir other hf hother hwritten
  · intro same dir hdir other hf hother hwritten
    exact same file dir other hf hdir hother hwritten

end Px4Rs.GenMsgs
