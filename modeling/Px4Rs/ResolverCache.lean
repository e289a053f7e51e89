import Px4Rs.Grammar
import Px4Rs.LayoutUsize
import Px4Rs.Memo
import Px4Rs.Runs
import Px4Rs.Resolve

/-! The resolver's cache over any sequence of calls. Names are looked up as paths here, and
a file names its message by its stem: the cache shows where the two differ, and only there. -/
namespace Px4Rs.ResolverCache
open Px4Rs.Message Px4Rs.Parser Px4Rs.Layout Px4Rs.Memo Px4Rs.Walk
open Px4Rs.Runs (Run run_of_exec)
open Px4Rs.LayoutUsize (Overflow place pad padded reduce reducePlacing)
open Px4Rs.Resolve (children)

/-- `file_stem` of the file that `find` opens for `name`. It is `name` with `.msg` behind it,
without the directories; a file called `.msg` has no extension to take off. -/
def fileStem (name : Text) : Text :=
  match (name.reverse.takeWhile (· ≠ '/')).reverse with
  | [] => ".msg".toList
  | file => file

variable (search : List Dir) (o : Overflow)

def loadFile (name : Text) : Except ParseError MsgDef :=
  match find search name with
  | .ok file => parseFile (fileStem name) file
  | .error e => .error e

def layoutByName : Nat → Cache → Text → Layout.Outcome LaidOutMsg
  | 0, _, _ => none
  | k + 1, c, name =>
    match c name with
    | some cached => some (.ok cached, c)
    | none =>
      match loadFile search name with
      | .error e => some (.error e, c)
      | .ok d => LayoutUsize.layoutWith o (layoutByName k) (messageHash search (k + 1) d) d c

def layout (k : Nat) (d : MsgDef) (c : Cache) : Layout.Outcome LaidOutMsg :=
  LayoutUsize.layoutWith o (layoutByName search o k) (messageHash search (k + 1) d) d c

inductive Call where
  | layout (d : MsgDef)
  | layoutByName (name : Text)

def call (k : Nat) (c : Cache) : Call → Layout.Outcome LaidOutMsg
  | .layout d => layout search o k d c
  | .layoutByName name => layoutByName search o k c name

/-- A call on the resolver, to some depth. -/
def step (c : Cache) (a : Nat × Call) : Option Cache := (call search o a.1 c a.2).map Prod.snd

/-- The name of a file and not a path to it. -/
def Plain (name : Text) : Prop := name ≠ [] ∧ '/' ∉ name

/-- `layout` is given what the file of its name holds, `layout_by_name` a plain name. -/
def Call.Proper : Call → Prop
  | .layout d => loadFile search d.name = .ok d
  | .layoutByName name => Plain name

instance : ∀ x : Call, Decidable (x.Proper search)
  | .layout _ => inferInstanceAs (Decidable (_ = _))
  | .layoutByName _ => inferInstanceAs (Decidable (_ ∧ _))

/-- The call returns `r`, for a depth that is enough. -/
def Returns (c : Cache) (x : Call) (r : Except ParseError LaidOutMsg) : Prop :=
  ∃ k c', call search o k c x = some (r, c')

def Call.name : Call → Text
  | .layout d => d.name
  | .layoutByName name => name

def Call.names : Call → List Text
  | .layout d => references d.fields
  | .layoutByName name => [name]

variable {search o} {name : Text} {d : MsgDef} {c : Cache} {k : Nat}

/-! Plain names. -/

theorem plain_fileStem (name : Text) : Plain (fileStem name) := by
  unfold fileStem
  split
  · exact ⟨by decide, by decide⟩
  · rename_i file ne
    refine ⟨ne, fun slash => ?_⟩
    have kept := List.mem_takeWhile_imp (List.mem_reverse.mp slash)
    simp at kept

theorem fileStem_of_plain (h : Plain name) : fileStem name = name := by
  have all : name.reverse.takeWhile (· ≠ '/') = name.reverse := by
    refine List.takeWhile_eq_self_iff.mpr fun x hx => ?_
    have ne : x ≠ '/' := by
      rintro rfl
      exact h.2 (List.mem_reverse.mp hx)
    simpa using ne
  rw [fileStem, all, List.reverse_reverse]
  split
  · exact absurd rfl h.1
  · rfl

theorem loadFile_of_plain (h : Plain name) : loadFile search name = load search name := by
  rw [loadFile, fileStem_of_plain h]
  rfl

theorem parseFile_name {file : File} (h : parseFile name file = .ok d) : d.name = name := by
  cases file with
  | text t => exact parseStr_name h
  | unreadable e => cases h

theorem loadFile_name (h : loadFile search name = .ok d) : d.name = fileStem name := by
  unfold loadFile at h
  split at h
  · exact parseFile_name h
  · cases h

theorem plain_of_loadFile (h : loadFile search d.name = .ok d) : Plain d.name := by
  rw [loadFile_name h]
  exact plain_fileStem _

theorem plain_of_parseFile {file : File} (h : parseFile name file = .ok d) :
    ∀ m ∈ references d.fields, Plain m := by
  intro m hm
  obtain ⟨f, hf, reference⟩ := mem_references.mp hm
  cases file with
  | text t =>
    obtain ⟨tok, parsed⟩ := Items.field_parsed h hf
    have identifier := Grammar.identifier_of_reference parsed m reference
    refine ⟨?_, identifier.not_mem (by decide)⟩
    rintro rfl
    exact identifier
  | unreadable e => cases h

theorem plain_reference (h : loadFile search name = .ok d) :
    ∀ m ∈ references d.fields, Plain m := by
  unfold loadFile at h
  split at h
  · exact plain_of_parseFile h
  · cases h

/-! The calls as computations with a table. -/

/-- `field_total_size`, from the size of the nested message. -/
def sizeFrom (o : Overflow) (nested : Nat) : FieldType → Option Nat
  | .scalar s => some s.size
  | .scalarArray s n => o.usize (s.size * n)
  | .nested _ => some nested
  | .nestedArray _ n => o.usize (nested * n)

abbrev Layouts := Prog Text LaidOutMsg ParseError

def roundProg (o : Overflow) {A : Type} (f : Field) (p : Placing) (nested : Nat)
    (next : Placing → Layouts A) : Layouts A :=
  match (sizeFrom o nested f.ty).bind (place o p f) with
  | some p => next p
  | none => .halt

def placeProg (o : Overflow) {A : Type} : List Field → Placing → (Placing → Layouts A) → Layouts A
  | [], p, next => next p
  | f :: fs, p, next =>
    match f.ty.reference with
    | none => roundProg o f p 0 fun p => placeProg o fs p next
    | some m => .call m fun l => roundProg o f p l.size fun p => placeProg o fs p next

/-- The tail padding and the hash. -/
def endProg (o : Overflow) (hash : Option (Except ParseError (BitVec 32))) (d : MsgDef)
    (p : Placing) : Layouts LaidOutMsg :=
  match pad o p, hash with
  | some p, some r => .ret (r.map (padded d p))
  | _, _ => .halt

def layoutProg (o : Overflow) (hash : Option (Except ParseError (BitVec 32))) (d : MsgDef) :
    Layouts LaidOutMsg :=
  placeProg o (sortFields d.fields) .start (endProg o hash d)

/-- What `layout_by_name` does when nothing is cached. -/
def nameProg (search : List Dir) (o : Overflow) (k : Nat) (name : Text) : Layouts LaidOutMsg :=
  match loadFile search name with
  | .error e => .ret (.error e)
  | .ok d => layoutProg o (messageHash search k d) d

theorem placeProg_le {A : Type} {next next' : Placing → Layouts A} (le : ∀ p, (next p).Le (next' p))
    (fs : List Field) (p : Placing) : (placeProg o fs p next).Le (placeProg o fs p next') := by
  induction fs generalizing p with
  | nil => exact le p
  | cons f fs ih =>
    have round (nested : Nat) : (roundProg o f p nested fun p => placeProg o fs p next).Le
        (roundProg o f p nested fun p => placeProg o fs p next') := by
      unfold roundProg
      split
      · exact ih _
      · exact .halt _
    rw [placeProg, placeProg]
    cases f.ty.reference with
    | none => exact round 0
    | some m => exact .call m fun l => round l.size

def bodies (search : List Dir) (o : Overflow) : Bodies Text LaidOutMsg ParseError where
  body := nameProg search o
  mono := by
    intro k name
    unfold nameProg
    split
    · exact .refl _
    · rename_i d _
      refine placeProg_le (fun p => ?_) _ _
      unfold endProg
      cases pad o p with
      | none => exact .halt _
      | some p =>
        cases hash : messageHash search k d with
        | none => exact .halt _
        | some r =>
          rw [Uncached.messageHash_le (Nat.le_succ k) hash]
          exact .refl _

theorem bodies_body : (bodies search o).body k name = nameProg search o k name := rfl

theorem andThen_assoc {A B C : Type} (x : Layout.Outcome A) (f : A → Cache → Layout.Outcome B)
    (g : B → Cache → Layout.Outcome C) :
    (x.andThen f).andThen g = x.andThen fun a c => (f a c).andThen g := by
  match x with
  | none => rfl
  | some (.ok a, c) => rfl
  | some (.error e, c) => rfl

def sized (c : Cache) (size : Option Nat) : Layout.Outcome Nat := size.map fun n => (.ok n, c)

theorem fieldTotalSize_eq (byName : Cache → Text → Layout.Outcome LaidOutMsg) (c : Cache)
    (ty : FieldType) :
    LayoutUsize.fieldTotalSize o byName c ty =
      match ty.reference with
      | none => sized c (sizeFrom o 0 ty)
      | some m => (byName c m).andThen fun l c => sized c (sizeFrom o l.size ty) := by
  cases ty <;> rfl

section
variable {A : Type} {byName ask : Cache → Text → Layout.Outcome LaidOutMsg} {fs : List Field}

/-- The loop of `layout` asks for the messages it nests, in order. -/
theorem exec_placeProg (same : ∀ m ∈ references fs, ∀ c, byName c m = ask c m)
    {next : Placing → Layouts A} {f : Placing → Cache → Layout.Outcome A}
    (rest : ∀ p c, f p c = exec ask (next p) c) (p : Placing) (c : Cache) :
    (LayoutUsize.placeFields o byName fs p c).andThen f = exec ask (placeProg o fs p next) c := by
  induction fs generalizing p c with
  | nil => exact rest p c
  | cons g fs ih =>
    have round (nested : Nat) (c : Cache) (ih : ∀ p c,
          (LayoutUsize.placeFields o byName fs p c).andThen f =
            exec ask (placeProg o fs p next) c) :
        ((sized c (sizeFrom o nested g.ty)).andThen fun size c =>
          Layout.Outcome.andThen
            ((place o p g size).bind fun p => LayoutUsize.placeFields o byName fs p c) f) =
          exec ask (roundProg o g p nested fun p => placeProg o fs p next) c := by
      unfold roundProg
      cases sizeFrom o nested g.ty with
      | none => rfl
      | some size =>
        simp only [sized, Option.map_some, Option.bind_some, Outcome.andThen]
        cases place o p g size with
        | none => rfl
        | some p => exact ih p c
    rw [LayoutUsize.placeFields, fieldTotalSize_eq, andThen_assoc, placeProg]
    cases hr : g.ty.reference with
    | none =>
      rw [references_cons_none hr] at same
      exact round 0 c (ih same)
    | some m =>
      rw [references_cons_some hr] at same
      have ih := ih fun n hn => same n (List.mem_cons_of_mem m hn)
      simp only [exec, andThen_assoc, same m List.mem_cons_self]
      cases ask c m with
      | none => rfl
      | some r =>
        obtain ⟨r, c⟩ := r
        cases r with
        | error e => rfl
        | ok l => exact round l.size c ih

/-- The end of `layout`, before the message goes into the cache. -/
def finish (o : Overflow) (hash : Option (Except ParseError (BitVec 32))) (d : MsgDef)
    (p : Placing) (c : Cache) : Layout.Outcome LaidOutMsg :=
  (pad o p).bind fun p => hash.map fun r => (r.map (padded d p), c)

theorem exec_layoutProg (same : ∀ m ∈ references d.fields, ∀ c, byName c m = ask c m)
    (hash : Option (Except ParseError (BitVec 32))) (c : Cache) :
    LayoutUsize.layoutWith o byName hash d c = store d.name (exec ask (layoutProg o hash d) c) := by
  have rest (p : Placing) (c : Cache) : finish o hash d p c = exec ask (endProg o hash d p) c := by
    unfold finish endProg
    cases pad o p with
    | none => rfl
    | some p => cases hash <;> rfl
  rw [← references_sortFields] at same
  rw [layoutProg, ← exec_placeProg same rest, LayoutUsize.layoutWith]
  cases LayoutUsize.placeFields o byName (sortFields d.fields) .start c with
  | none => rfl
  | some r =>
    obtain ⟨r, c⟩ := r
    cases r with
    | error e => rfl
    | ok p =>
      simp only [Outcome.andThen, finish]
      cases pad o p with
      | none => rfl
      | some p =>
        cases hash with
        | none => rfl
        | some r => cases r <;> rfl

end

/-- On plain names the resolver is the computation with a table. -/
theorem layoutByName_eq (h : Plain name) :
    layoutByName search o k c name = memo (bodies search o) k c name := by
  induction k generalizing c name with
  | zero => rfl
  | succ k ih =>
    rw [layoutByName, memo]
    cases c name with
    | some l => rfl
    | none =>
      rw [bodies_body, nameProg]
      cases hl : loadFile search name with
      | error e => rfl
      | ok d =>
        have named : d.name = name := (loadFile_name hl).trans (fileStem_of_plain h)
        exact named ▸ exec_layoutProg (fun m hm c => ih (plain_reference hl m hm)) _ c

theorem layout_eq (h : loadFile search d.name = .ok d) :
    layout search o k d c = fill (bodies search o) k c d.name := by
  have here : (bodies search o).body (k + 1) d.name =
      layoutProg o (messageHash search (k + 1) d) d := by
    rw [bodies_body, nameProg, h]
  rw [fill, here]
  exact exec_layoutProg (fun m hm c => layoutByName_eq (plain_reference h m hm)) _ c

variable {x : Call} {r : Except ParseError LaidOutMsg}

theorem returns_iff (proper : x.Proper search) (sound : Sound (bodies search o) c) :
    Returns search o c x r ↔ ∃ k, value (bodies search o) k x.name = some r := by
  cases x with
  | layout d =>
    rw [Call.name, ← fill_iff sound]
    simp only [Returns, call, layout_eq proper]
  | layoutByName name =>
    rw [Call.name, ← memo_iff sound]
    simp only [Returns, call, layoutByName_eq proper]

theorem sound_new : Sound (bodies search o) Cache.new := sound_empty

/-- Proper calls leave only true layouts in the cache. -/
theorem sound_run {as : List (Nat × Call)}
    (run : Run (step search o) (fun _ a => a.2.Proper search) Cache.new as c) :
    Sound (bodies search o) c := by
  refine run.invariant sound_new ?_
  intro c ⟨k, x⟩ c' sound proper next
  obtain ⟨⟨r, _⟩, called, rfl⟩ := Option.map_eq_some_iff.mp next
  cases x with
  | layout d =>
    rw [call, layout_eq proper] at called
    exact (answers_fill answers_memo c d.name r _ sound called).1
  | layoutByName name =>
    rw [call, layoutByName_eq proper] at called
    exact (answers_memo c name r _ sound called).1

/-! Where the sizes wrap around and nothing is nested in itself, every call returns. -/

theorem usize_wraps (n : Nat) : Overflow.wraps.usize n = some (n % 2 ^ usizeBits) := by
  unfold Overflow.usize
  split_ifs with h
  · rw [Nat.mod_eq_of_lt h]
  · rfl

theorem sizeFrom_wraps (n : Nat) (ty : FieldType) :
    sizeFrom .wraps (n % 2 ^ usizeBits) ty =
      some (totalSize (fun _ => n) ty % 2 ^ usizeBits) := by
  cases ty with
  | scalar s => cases s <;> rfl
  | scalarArray s m => exact usize_wraps _
  | nested m => rfl
  | nestedArray m len =>
    rw [sizeFrom, usize_wraps, Nat.mod_mul_mod]
    rfl

theorem pad_wraps (p : Placing) : pad .wraps (reducePlacing p) = some (reducePlacing p.pad) := by
  have some : ∃ q, pad .wraps (reducePlacing p) = some q := by
    simp only [pad, usize_wraps]
    split <;> exact ⟨_, rfl⟩
  obtain ⟨q, hq⟩ := some
  rw [hq, LayoutUsize.pad_reduce .wraps hq]

theorem place_wraps (p : Placing) (f : Field) (size : Nat) :
    place .wraps (reducePlacing p) f (size % 2 ^ usizeBits) =
      some (reducePlacing (p.place f size)) := by
  have some : ∃ q, place .wraps (reducePlacing p) f (size % 2 ^ usizeBits) = some q := by
    simp only [place, usize_wraps]
    cases f.ty with
    | scalar | scalarArray => exact ⟨_, rfl⟩
    | nested | nestedArray =>
      simp only [pad_wraps]
      exact ⟨_, rfl⟩
  obtain ⟨q, hq⟩ := some
  rw [hq, LayoutUsize.place_reduce .wraps hq]

theorem roundProg_wraps {A : Type} (f : Field) (p : Placing) (n : Nat)
    (next : Placing → Layouts A) :
    roundProg .wraps f (reducePlacing p) (n % 2 ^ usizeBits) next =
      next (reducePlacing (p.place f (totalSize (fun _ => n) f.ty))) := by
  rw [roundProg, sizeFrom_wraps, Option.bind_some, place_wraps]

theorem eval_placeProg {A : Type} {f : Text → Uncached.Result LaidOutMsg}
    {g : Text → Answer ParseError LaidOutMsg} {fs : List Field} {p : Placing}
    {next : Placing → Layouts A} {res : Except ParseError Placing}
    (same : ∀ m ∈ references fs, ∀ r, f m = some r → g m = some (r.map reduce)) :
    Uncached.placeAll f fs p = some res →
      eval g (placeProg .wraps fs (reducePlacing p) next) =
        match res with
        | .ok q => eval g (next (reducePlacing q))
        | .error e => some (.error e) := by
  intro h
  induction fs generalizing p with
  | nil =>
    cases h
    rfl
  | cons field fs ih =>
    rw [Uncached.placeAll] at h
    rw [placeProg]
    cases hr : field.ty.reference with
    | none =>
      rw [references_cons_none hr] at same
      have round := roundProg_wraps field p 0 fun p => placeProg .wraps fs p next
      rw [Nat.zero_mod] at round
      simp only [round]
      exact ih same (by simpa only [hr] using h)
    | some m =>
      rw [references_cons_some hr] at same
      simp only [hr] at h
      cases hm : f m with
      | none => simp [hm] at h
      | some r =>
        have asked := same m List.mem_cons_self r hm
        cases r with
        | error e =>
          simp only [hm, Option.some.injEq] at h
          subst h
          simp only [eval, asked]
          rfl
        | ok l =>
          simp only [eval, asked, Except.map]
          have round := roundProg_wraps field p l.size fun p => placeProg .wraps fs p next
          change eval g (roundProg .wraps field (reducePlacing p) (l.size % 2 ^ usizeBits) _) = _
          rw [round]
          exact ih (fun n hn => same n (List.mem_cons_of_mem m hn)) (by simpa only [hm] using h)

/-- The layout with sizes in a `usize` is the unbounded one, reduced. -/
theorem value_wraps (plain : Plain name) {res : Except ParseError LaidOutMsg}
    (h : Uncached.layOutByName search k name = some res) :
    value (bodies search .wraps) k name = some (res.map reduce) := by
  induction k generalizing name res with
  | zero => cases h
  | succ k ih =>
    rw [Uncached.layOutByName] at h
    rw [value, bodies_body, nameProg, loadFile_of_plain plain]
    cases hl : load search name with
    | error e =>
      rw [hl] at h
      cases h
      rfl
    | ok d =>
      simp only [hl] at h ⊢
      rw [← loadFile_of_plain plain] at hl
      have same (m : Text) (hm : m ∈ references (sortFields d.fields)) (r)
          (hr : Uncached.layOutByName search k m = some r) :
          value (bodies search .wraps) k m = some (r.map reduce) := by
        rw [references_sortFields] at hm
        exact ih (plain_reference hl m hm) hr
      have start : reducePlacing .start = .start := rfl
      rw [Uncached.layOut] at h
      rw [layoutProg, ← start]
      split at h
      · rename_i p placed
        obtain ⟨r, hash, rfl⟩ := Option.map_eq_some_iff.mp h
        rw [eval_placeProg same placed]
        simp only [endProg, pad_wraps, hash]
        cases r <;> rfl
      · rename_i e placed
        cases h
        rw [eval_placeProg same placed]
        rfl
      · cases h

theorem returns_of_no_cycle (proper : x.Proper search) (sound : Sound (bodies search .wraps) c)
    (acyclic : NoCycle (children search) x.names) : ∃ r, Returns search .wraps c x r := by
  suffices ∃ k res, Uncached.layOutByName search k x.name = some res by
    obtain ⟨k, res, h⟩ := this
    refine ⟨res.map reduce, (returns_iff proper sound).mpr ⟨k, ?_⟩⟩
    cases x with
    | layout d => exact value_wraps (plain_of_loadFile proper) h
    | layoutByName name => exact value_wraps proper h
  have cached := @Resolve.cached_new search
  cases x with
  | layoutByName name =>
    obtain ⟨k, ends⟩ := (Resolve.layoutByName_ends_iff cached name).mpr acyclic
    obtain ⟨⟨res, c'⟩, h⟩ := Option.isSome_iff_exists.mp ends
    obtain ⟨j, hj⟩ := Uncached.layoutByName_new_iff.mp ⟨k, c', h⟩
    exact ⟨j, res, hj⟩
  | layout d =>
    obtain ⟨k, ends⟩ := (Resolve.layout_ends_iff cached d).mpr acyclic
    obtain ⟨⟨res, c'⟩, h⟩ := Option.isSome_iff_exists.mp ends
    obtain ⟨⟨j, hj⟩, _⟩ :=
      Uncached.layOut_of_layoutWith Uncached.agrees_layoutByName Uncached.sound_new h
    refine ⟨j + 1, res, ?_⟩
    rw [Call.name, Uncached.layOutByName, ← loadFile_of_plain (plain_of_loadFile proper), proper]
    exact hj

/-- After any proper calls, whatever they have returned, a proper call returns what it
returns on a new resolver, and without cycles it does return. -/
theorem cache_invisible {as : List (Nat × Call)}
    (run : Run (step search o) (fun _ a => a.2.Proper search) Cache.new as c)
    (x : Call) (proper : x.Proper search) :
    (∀ r, Returns search o c x r ↔ Returns search o Cache.new x r) ∧
    (∀ r s, Returns search o c x r → Returns search o c x s → r = s) ∧
    (o = .wraps → NoCycle (children search) x.names → ∃ r, Returns search o c x r) := by
  have sound := sound_run run
  refine ⟨fun r => ?_, fun r s hr hs => ?_, ?_⟩
  · rw [returns_iff proper sound, returns_iff proper sound_new]
  · obtain ⟨k, hk⟩ := (returns_iff proper sound).mp hr
    obtain ⟨j, hj⟩ := (returns_iff proper sound).mp hs
    exact value_unique hk hj
  · rintro rfl acyclic
    exact returns_of_no_cycle proper sound acyclic

/-- `Leaf` after `Node`, which nests it, and after a name that has no file. -/
theorem cache_invisible_tree : ∃ c,
    Run (step Resolve.tree .wraps) (fun _ a => a.2.Proper Resolve.tree) Cache.new
      [(2, .layoutByName "Node".toList), (1, .layoutByName "Gone".toList)] c ∧
    (∀ r, Returns Resolve.tree .wraps c (.layoutByName "Leaf".toList) r ↔
      Returns Resolve.tree .wraps Cache.new (.layoutByName "Leaf".toList) r) ∧
    ∃ r, Returns Resolve.tree .wraps c (.layoutByName "Leaf".toList) r := by
  have run : Run (step Resolve.tree .wraps) (fun _ a => a.2.Proper Resolve.tree) Cache.new
    [(2, .layoutByName "Node".toList), (1, .layoutByName "Gone".toList)] _ := run_of_exec rfl
  have acyclic : NoCycle (children Resolve.tree) ["Leaf".toList] :=
    (walkList_ends_iff fun m _ => Resolve.finite_reachable m).mp ⟨1, true, by decide⟩
  obtain ⟨same, _, returns⟩ :=
    cache_invisible run (.layoutByName "Leaf".toList) ⟨by decide, by decide⟩
  exact ⟨_, run, same, returns rfl acyclic⟩

/-- Two files of the stem `Foo`, one of them in a directory below. -/
def versioned : List Dir :=
  [[("Foo".toList, .text "uint64[2] a".toList), ("versioned/Foo".toList, .text "uint8 a".toList)]]

/-- Once `versioned/Foo` has been laid out, it is what `Foo` gives. -/
theorem cache_shows : ∃ c l l',
    step versioned .wraps Cache.new (1, .layoutByName "versioned/Foo".toList) = some c ∧
    Returns versioned .wraps c (.layoutByName "Foo".toList) (.ok l) ∧
    Returns versioned .wraps Cache.new (.layoutByName "Foo".toList) (.ok l') ∧
    l.size = 8 ∧ l'.size = 16 :=
  ⟨_, _, _, rfl, ⟨1, _, rfl⟩, ⟨1, _, rfl⟩, rfl, rfl⟩

end Px4Rs.ResolverCache
