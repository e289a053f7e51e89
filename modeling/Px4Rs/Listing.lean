import Px4Rs.Needs

/-! `gen_msgs` reads each directory in the order in which the file system lists it. What that
order can change, and what it cannot. -/
namespace Px4Rs.Listing
open Px4Rs.Message Px4Rs.Parser Px4Rs.EmitItems Px4Rs.GenMsgs Px4Rs.Layout
open Px4Rs.LayoutUsize (Overflow)
open Px4Rs.SnakeNames (outFile)
open Px4Rs.Writes (Final)
open Px4Rs.Needs (generate_local)
variable {T : Tokens} {o : Overflow} {k : Nat} {tree tree' : Tree} {out out' : Output}
  {search : List Dir} {m : Text} {paths : List (Text × File)} {files : Text → Option Emitted}

/-- The same files, each directory listed in another order. -/
def Relisted (tree tree' : Tree) : Prop := List.Forall₂ List.Perm tree.dirs tree'.dirs

/-- A directory has one file for a stem. -/
def Stems (tree : Tree) : Prop := ∀ dir ∈ tree.dirs, (dir.map Prod.fst).Nodup

instance (tree : Tree) : Decidable (Stems tree) :=
  inferInstanceAs (Decidable (∀ dir ∈ tree.dirs, _))

/-! Looking up. -/

theorem lookup_eq_some_iff {dir : Dir} (nodup : (dir.map Prod.fst).Nodup) {file : File} :
    dir.lookup m = some file ↔ (m, file) ∈ dir := by
  have mem {f : File} (h : dir.lookup m = some f) : (m, f) ∈ dir := by
    obtain ⟨l₁, l₂, rfl, _⟩ := List.lookup_eq_some_iff.mp h
    simp
  refine ⟨mem, fun h => ?_⟩
  cases hl : dir.lookup m with
  | none =>
    have other := List.lookup_eq_none_iff.mp hl _ h
    simp at other
  | some f =>
    have same : (m, f) = (m, file) := List.inj_on_of_nodup_map nodup (mem hl) h rfl
    cases same
    rfl

theorem lookup_perm {dir dir' : Dir} (perm : dir.Perm dir') (nodup : (dir.map Prod.fst).Nodup) :
    dir.lookup m = dir'.lookup m := by
  have nodup' := (perm.map Prod.fst).nodup_iff.mp nodup
  refine Option.ext fun file => ?_
  rw [lookup_eq_some_iff nodup, lookup_eq_some_iff nodup', perm.mem_iff]

theorem find_perm {dirs dirs' : List Dir} (perm : List.Forall₂ List.Perm dirs dirs')
    (nodup : ∀ dir ∈ dirs, (dir.map Prod.fst).Nodup) (m : Text) :
    find dirs m = find dirs' m := by
  have found :
      (dirs.findSome? fun dir => dir.lookup m) = dirs'.findSome? fun dir => dir.lookup m := by
    induction perm with
    | nil => rfl
    | cons head _ ih =>
      rw [List.findSome?_cons, List.findSome?_cons, lookup_perm head (nodup _ List.mem_cons_self),
        ih fun dir hd => nodup dir (List.mem_cons_of_mem _ hd)]
  rw [find, find, found]

/-! Counting. -/

/-- What a file that is skipped adds to the list of them. -/
def skip (T : Tokens) (o : Overflow) (search : List Dir) (k : Nat) (path : Text × File) :
    Option (Text × ParseError) :=
  match generate T o search k path with
  | some (.error e) => some (path.1, e)
  | _ => none

theorem genFiles_counts (h : paths.foldlM (genFile T o search k) out = some out') :
    out'.count = out.count + paths.countP (fun path => (contents T o search k path).isSome) ∧
      out'.skipped = out.skipped ++ paths.filterMap (skip T o search k) := by
  induction paths generalizing out with
  | nil =>
    cases h
    simp
  | cons path paths ih =>
    rw [List.foldlM_cons] at h
    obtain ⟨mid, first, rest⟩ := Option.bind_eq_some_iff.mp h
    obtain ⟨count, skipped⟩ := ih rest
    obtain ⟨r, generated, rfl⟩ := Option.map_eq_some_iff.mp first
    cases r with
    | ok ts =>
      have here : (contents T o search k path).isSome = true := by rw [contents, generated]; rfl
      have none : skip T o search k path = none := by rw [skip, generated]
      rw [List.countP_cons, if_pos here, List.filterMap_cons_none none, skipped, count]
      exact ⟨by simp only; omega, rfl⟩
    | error e =>
      have none : ¬ (contents T o search k path).isSome = true := by
        rw [contents, generated]
        simp
      have here : skip T o search k path = some (path.1, e) := by rw [skip, generated]
      rw [List.countP_cons, if_neg none, List.filterMap_cons_some here, skipped]
      exact ⟨count, by simp⟩

theorem genFiles_some (all : ∀ path ∈ paths, ∃ r, generate T o search k path = some r)
    (out : Output) : ∃ out', paths.foldlM (genFile T o search k) out = some out' := by
  induction paths generalizing out with
  | nil => exact ⟨out, rfl⟩
  | cons path paths ih =>
    obtain ⟨r, generated⟩ := all path List.mem_cons_self
    rw [List.foldlM_cons, genFile, generated]
    exact ih (fun p hp => all p (List.mem_cons_of_mem path hp)) _

/-! The whole run. -/

theorem exists_tree {dirs : List Dir} (perm : List.Forall₂ List.Perm tree.dirs dirs) :
    ∃ tree' : Tree, tree'.dirs = dirs := by
  obtain ⟨msg, versioned⟩ := tree
  obtain ⟨msg', rest, _, tail, rfl⟩ := List.forall₂_cons_left_iff.mp perm
  cases versioned with
  | none =>
    cases List.forall₂_nil_left_iff.mp tail
    exact ⟨⟨msg', none⟩, rfl⟩
  | some dir =>
    obtain ⟨dir', _, _, nothing, rfl⟩ := List.forall₂_cons_left_iff.mp tail
    cases List.forall₂_nil_left_iff.mp nothing
    exact ⟨⟨msg', some dir'⟩, rfl⟩

theorem generate_relisted (stems : Stems tree) (h : Relisted tree tree') :
    generate T o tree'.dirs k = generate T o tree.dirs k := by
  funext path
  exact (generate_local fun _ _ m _ => find_perm h stems m).symm

theorem genFile_relisted (stems : Stems tree) (h : Relisted tree tree') :
    genFile T o tree'.dirs k = genFile T o tree.dirs k := by
  funext out path
  rw [genFile, genFile, generate_relisted stems h]

theorem genMsgs_relisted (stems : Stems tree) (h : Relisted tree tree') :
    genMsgs T o k tree' files = tree'.files.foldlM (genFile T o tree.dirs k) ⟨files, 0, []⟩ := by
  rw [genMsgs, foldlM_dirs, genFile_relisted stems h]
  rfl

theorem exists_relisted_run (stems : Stems tree) (h : Relisted tree tree')
    (run : genMsgs T o k tree files = some out) :
    ∃ out', genMsgs T o k tree' files = some out' ∧ out'.count = out.count ∧
      out'.skipped.Perm out.skipped := by
  have perm : tree.files.Perm tree'.files := Writes.flatten_perm h
  have all := (genMsgs_files run).1
  obtain ⟨out', run'⟩ : ∃ out', tree'.files.foldlM (genFile T o tree.dirs k) ⟨files, 0, []⟩ =
      some out' :=
    genFiles_some (fun path hp => all path (perm.mem_iff.mpr hp)) _
  rw [genMsgs, foldlM_dirs] at run
  obtain ⟨count, skipped⟩ := genFiles_counts run
  obtain ⟨count', skipped'⟩ := genFiles_counts run'
  refine ⟨out', (genMsgs_relisted stems h).trans run', ?_, ?_⟩
  · rw [count, count']
    exact congrArg (0 + ·) (perm.countP_eq _).symm
  · rw [skipped, skipped']
    exact (perm.filterMap _).symm

theorem files_relisted (stems : Stems tree) (h : Relisted tree tree')
    (run : genMsgs T o k tree' files = some out) :
    out.files = tree'.dirs.flatten.foldl
      (Writes.write (fun path => outFile path.1) (contents T o tree.dirs k)) files := by
  rw [genMsgs_relisted stems h] at run
  exact (genFiles_files run).2

theorem files_eq_iff (stems : Stems tree) (run : genMsgs T o k tree files = some out) :
    (∀ tree' out', Relisted tree tree' → genMsgs T o k tree' files = some out' →
      out'.files = out.files) ↔
      ∀ name x y, Final (fun path => outFile path.1) (contents T o tree.dirs k) name tree.dirs x →
        Final (fun path => outFile path.1) (contents T o tree.dirs k) name tree.dirs y →
          contents T o tree.dirs k x = contents T o tree.dirs k y := by
  have self : Relisted tree tree := List.forall₂_same.mpr fun _ _ => .refl _
  have here := files_relisted stems self run
  rw [← Writes.foldl_perm_iff files, ← here]
  constructor
  · intro same dirs perm
    obtain ⟨tree', rfl⟩ := exists_tree perm
    obtain ⟨out', run', _⟩ := exists_relisted_run stems perm run
    rw [← files_relisted stems perm run', same tree' out' perm run']
  · intro same tree' out' relisted run'
    rw [files_relisted stems relisted run', same tree'.dirs relisted]

theorem files_eq_of_distinct (distinct : Distinct tree)
    (run : genMsgs T o k tree files = some out) (h : Relisted tree tree')
    (run' : genMsgs T o k tree' files = some out') : out'.files = out.files := by
  refine (files_eq_iff distinct.stems run).mpr (fun name x y hx hy => ?_) tree' out' h run'
  refine congrArg _ (hx.unique (fun dir hd f hf g hg same => ?_) hy)
  have stem := distinct.outputs f (List.mem_flatten.mpr ⟨dir, hd, hf⟩) g
    (List.mem_flatten.mpr ⟨dir, hd, hg⟩) same
  exact List.inj_on_of_nodup_map (distinct.stems dir hd) hf hg stem

/-- The order in which the directories are listed never changes what is generated from a file,
from how many, or which are skipped and why. It does not change the files left exactly when the
files that may be written last to an output give the same. -/
theorem listing_order (stems : Stems tree) (run : genMsgs T o k tree files = some out) :
    (∀ tree', Relisted tree tree' → ∃ out', genMsgs T o k tree' files = some out' ∧
      (∀ path, contents T o tree'.dirs k path = contents T o tree.dirs k path) ∧
      out'.count = out.count ∧ out'.skipped.Perm out.skipped) ∧
    ((∀ tree' out', Relisted tree tree' → genMsgs T o k tree' files = some out' →
      out'.files = out.files) ↔
      ∀ name x y, Final (fun path => outFile path.1) (contents T o tree.dirs k) name tree.dirs x →
        Final (fun path => outFile path.1) (contents T o tree.dirs k) name tree.dirs y →
          contents T o tree.dirs k x = contents T o tree.dirs k y) := by
  refine ⟨fun tree' h => ?_, files_eq_iff stems run⟩
  obtain ⟨out', run', counts⟩ := exists_relisted_run stems h run
  refine ⟨out', run', fun path => ?_, counts⟩
  rw [contents, contents, generate_relisted stems h]

def clashing : Tree where
  msg := [("Leaf".toList, .text "uint64 a".toList), ("leaf".toList, .text "uint8 b".toList)]
  versioned := none

/-- There the order decides which of the two is left. -/
theorem listing_order_clashing : ∃ out : Output,
    genMsgs plainTokens .panics 1 clashing (fun _ => none) = some out ∧
      ¬ ∀ tree' out', Relisted clashing tree' →
        genMsgs plainTokens .panics 1 tree' (fun _ => none) = some out' →
          out'.files = out.files := by
  obtain ⟨out, run⟩ : ∃ out, genMsgs plainTokens .panics 1 clashing (fun _ => none) = some out :=
    ⟨_, rfl⟩
  have stems : Stems clashing := by decide
  refine ⟨out, run, fun same => ?_⟩
  have final (x : Text × File) (mem : x ∈ clashing.msg)
      (writes : Writes.At (fun path => outFile path.1)
        (contents plainTokens .panics clashing.dirs 1) "leaf.rs".toList x) :
      Final (fun path => outFile path.1) (contents plainTokens .panics clashing.dirs 1)
        "leaf.rs".toList clashing.dirs x := .here mem writes (by simp [clashing])
  have equal := (listing_order stems run).2.mp same "leaf.rs".toList _ _
    (final _ List.mem_cons_self ⟨by decide, by decide⟩)
    (final _ (List.mem_cons_of_mem _ List.mem_cons_self) ⟨by decide, by decide⟩)
  revert equal
  decide

end Px4Rs.Listing
