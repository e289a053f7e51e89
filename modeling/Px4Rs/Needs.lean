import Px4Rs.GenMsgs

/-! Which files the generator needs for a message: its own and those of the messages it nests.
No other file changes what is generated, and one that cannot be loaded is what it fails by. -/
namespace Px4Rs.Needs
open Px4Rs.Message Px4Rs.Parser Px4Rs.EmitItems Px4Rs.GenMsgs
open Px4Rs.Layout hiding layoutByName layout
open Px4Rs.ResolverCache hiding Plain
open Px4Rs.LayoutUsize (Overflow)
open Px4Rs.SourceHash (Nests fieldEntry parsedFields targets_fieldEntry branch grove branchMsg
  nests_branch)
variable {search search' : List Dir} {T : Tokens} {o : Overflow} {k : Nat} {d d' : MsgDef}
  {m n : Text} {fs : List Field} {c c' : Cache} {path : Text × File}

/-! Nesting. -/

theorem nests_of_reference (h : m ∈ references d.fields) : Nests search d m :=
  .here (by rwa [targets_fieldEntry])

theorem nests_of_load (hm : m ∈ references d.fields) (hd : load search m = .ok d')
    (h : Nests search d' n) : Nests search d n := by
  refine .deeper (by rwa [targets_fieldEntry]) ?_ h
  rw [parsedFields, hd]

theorem nests_inv (h : Nests search d n) : n ∈ references d.fields ∨
    ∃ m ∈ references d.fields, ∃ d', load search m = .ok d' ∧ Nests search d' n := by
  cases h with
  | here mem => exact .inl (by rwa [targets_fieldEntry] at mem)
  | @deeper _ _ m _ mem found below =>
    rw [targets_fieldEntry] at mem
    unfold parsedFields at found
    split at found
    · rename_i d' hd
      cases found
      exact .inr ⟨m, mem, d', hd, below⟩
    · cases found

theorem nests_trans (h : Nests search d m) (hm : load search m = .ok d')
    (hn : n ∈ references d'.fields) : Nests search d n := by
  have found : parsedFields search m = some (d'.fields.map fieldEntry) := by rw [parsedFields, hm]
  unfold Nests at h ⊢
  generalize d.fields.map fieldEntry = es at h ⊢
  induction h with
  | here mem => exact .deeper mem found (.here (by rwa [targets_fieldEntry]))
  | deeper mem inner _ ih => exact .deeper mem inner (ih hm found)

/-- `P` holds of the messages that are nested, as far as their files say. -/
structure Closed (search : List Dir) (P : Text → Prop) : Prop where
  plain : ∀ m, P m → ResolverCache.Plain m
  nested : ∀ m d, P m → load search m = .ok d → ∀ n ∈ references d.fields, P n

theorem closed_nests (d : MsgDef) :
    Closed search fun m => ResolverCache.Plain m ∧ Nests search d m := by
  refine ⟨fun m h => h.1, fun m e ⟨hp, hm⟩ he n hn => ⟨?_, nests_trans hm he hn⟩⟩
  rw [← loadFile_of_plain hp] at he
  exact plain_reference he n hn

/-! Two search paths that find the same files. -/

variable {P : Text → Prop}

theorem load_congr (h : find search m = find search' m) : load search m = load search' m := by
  rw [load, load, h]

theorem hashFields_congr {recurse recurse' : MsgDef → Text → Option (Except ParseError Text)}
    (same : ∀ m ∈ references fs, load search m = load search' m)
    (inner : ∀ m ∈ references fs, ∀ d out, load search m = .ok d →
      recurse d out = recurse' d out) (out : Text) :
    hashFields search recurse fs out = hashFields search' recurse' fs out := by
  induction fs generalizing out with
  | nil => rfl
  | cons f fs ih =>
    rw [hashFields, hashFields]
    cases hr : f.ty.reference with
    | none =>
      rw [references_cons_none hr] at same inner
      exact ih same inner _
    | some m =>
      rw [references_cons_some hr] at same inner
      have tail (out : Text) := ih (fun n hn => same n (List.mem_cons_of_mem m hn))
        (fun n hn => inner n (List.mem_cons_of_mem m hn)) out
      simp only [← same m List.mem_cons_self]
      cases hd : load search m with
      | error e => rfl
      | ok d =>
        simp only [inner m List.mem_cons_self d _ hd]
        cases recurse' d _ with
        | none => rfl
        | some r =>
          cases r with
          | error e => rfl
          | ok out => exact tail out

theorem messageHashFields_congr (closed : Closed search P)
    (same : ∀ m, P m → find search m = find search' m) (hd : ∀ m ∈ references d.fields, P m)
    (out : Text) : messageHashFields search k d out = messageHashFields search' k d out := by
  induction k generalizing d out with
  | zero => rfl
  | succ k ih =>
    refine hashFields_congr (fun m hm => load_congr (same m (hd m hm))) ?_ out
    exact fun m hm e out he => ih (closed.nested m e (hd m hm) he) out

theorem placeFields_congr {byName byName' : Cache → Text → Layout.Outcome LaidOutMsg}
    (same : ∀ m ∈ references fs, ∀ c, byName c m = byName' c m) (p : Placing) (c : Cache) :
    LayoutUsize.placeFields o byName fs p c = LayoutUsize.placeFields o byName' fs p c := by
  induction fs generalizing p c with
  | nil => rfl
  | cons f fs ih =>
    rw [LayoutUsize.placeFields, LayoutUsize.placeFields, ResolverCache.fieldTotalSize_eq,
      ResolverCache.fieldTotalSize_eq]
    cases hr : f.ty.reference with
    | none =>
      rw [references_cons_none hr] at same
      simp only [ih same]
    | some m =>
      rw [references_cons_some hr] at same
      simp only [same m List.mem_cons_self, ih fun n hn => same n (List.mem_cons_of_mem m hn)]

theorem layoutByName_congr (closed : Closed search P)
    (same : ∀ m, P m → find search m = find search' m) (hm : P m) (c : Cache) :
    layoutByName search o k c m = layoutByName search' o k c m := by
  induction k generalizing m c with
  | zero => rfl
  | succ k ih =>
    have plain := closed.plain m hm
    rw [layoutByName, layoutByName, loadFile_of_plain plain, loadFile_of_plain plain,
      ← load_congr (same m hm)]
    cases c m with
    | some l => rfl
    | none =>
      cases hd : load search m with
      | error e => rfl
      | ok d =>
        have nested := closed.nested m d hm hd
        have sorted : ∀ n ∈ references (sortFields d.fields), P n := by
          rwa [references_sortFields]
        simp only [LayoutUsize.layoutWith, messageHash]
        rw [placeFields_congr (fun n hn => ih (sorted n hn)),
          messageHashFields_congr closed same nested]

/-- What is generated for a message depends on its own file and on the files found for the
messages that it nests, and on nothing else in the search path. -/
theorem generate_local
    (same : ∀ d, parseFile path.1 path.2 = .ok d → ∀ m, Nests search d m →
      find search m = find search' m) :
    generate T o search k path = generate T o search' k path := by
  unfold generate
  cases hd : parseFile path.1 path.2 with
  | error e => rfl
  | ok d =>
    have closed : Closed search fun m => ResolverCache.Plain m ∧ Nests search d m :=
      closed_nests d
    have found (m : Text) (hm : ResolverCache.Plain m ∧ Nests search d m) :
        find search m = find search' m := same d hd m hm.2
    have nested (m : Text) (hm : m ∈ references d.fields) :
        ResolverCache.Plain m ∧ Nests search d m :=
      ⟨plain_of_parseFile hd m hm, nests_of_reference hm⟩
    have sorted : ∀ m ∈ references (sortFields d.fields),
        ResolverCache.Plain m ∧ Nests search d m := by
      rwa [references_sortFields]
    have laid : layout search o k d Cache.new = layout search' o k d Cache.new := by
      rw [layout, layout, LayoutUsize.layoutWith, LayoutUsize.layoutWith, messageHash, messageHash,
        placeFields_congr fun m hm => layoutByName_congr closed found (sorted m hm),
        messageHashFields_congr closed found nested]
    simp only [laid]

/-- A second directory, with another `Leaf` and a message that does not parse. -/
def overgrown : List Dir :=
  grove ++ [[("Leaf".toList, .text "uint64 x".toList), ("Root".toList, .text "]".toList)]]

theorem generate_local_grove :
    generate plainTokens .panics grove 1 ("Branch".toList, .text branch) =
      generate plainTokens .panics overgrown 1 ("Branch".toList, .text branch) := by
  refine generate_local fun d hd m hm => ?_
  have parsed : parseFile "Branch".toList (.text branch) = .ok branchMsg := by decide
  cases parsed.symm.trans hd
  rw [nests_branch hm]
  rfl

/-! Failing. -/

variable {e : ParseError} {out : Text}

theorem culprit_of_hashFields {recurse : MsgDef → Text → Option (Except ParseError Text)}
    (h : hashFields search recurse fs out = some (.error e)) :
    ∃ m ∈ references fs, load search m = .error e ∨
      ∃ d out, load search m = .ok d ∧ recurse d out = some (.error e) := by
  induction fs generalizing out with
  | nil => cases h
  | cons f fs ih =>
    rw [hashFields] at h
    cases hr : f.ty.reference with
    | none =>
      rw [references_cons_none hr]
      simp only [hr] at h
      exact ih h
    | some m =>
      rw [references_cons_some hr]
      simp only [hr] at h
      cases hd : load search m with
      | error e' =>
        simp only [hd, Option.some.injEq, Except.error.injEq] at h
        exact ⟨m, List.mem_cons_self, .inl (h ▸ hd)⟩
      | ok d =>
        simp only [hd] at h
        split at h
        · obtain ⟨n, hn, culprit⟩ := ih h
          exact ⟨n, List.mem_cons_of_mem m hn, culprit⟩
        · exact ⟨m, List.mem_cons_self, .inr ⟨d, _, hd, h⟩⟩

theorem culprit_of_messageHashFields
    (h : messageHashFields search k d out = some (.error e)) :
    ∃ m, Nests search d m ∧ load search m = .error e := by
  induction k generalizing d out with
  | zero => cases h
  | succ k ih =>
    obtain ⟨m, hm, culprit | ⟨d', out', hd, inner⟩⟩ := culprit_of_hashFields h
    · exact ⟨m, nests_of_reference hm, culprit⟩
    · obtain ⟨n, hn, culprit⟩ := ih inner
      exact ⟨n, nests_of_load hm hd hn, culprit⟩

theorem andThen_error {A B : Type} {x : Layout.Outcome A} {f : A → Cache → Layout.Outcome B}
    (h : x.andThen f = some (.error e, c')) :
    x = some (.error e, c') ∨ ∃ a c, x = some (.ok a, c) ∧ f a c = some (.error e, c') := by
  unfold Layout.Outcome.andThen at h
  split at h
  · exact .inr ⟨_, _, rfl, h⟩
  · cases h
    exact .inl rfl
  · cases h

theorem sized_ne_error {size : Option Nat} : sized c size ≠ some (.error e, c') := by
  cases size <;> simp [sized]

theorem culprit_of_placeFields {byName : Cache → Text → Layout.Outcome LaidOutMsg} {p : Placing}
    (h : LayoutUsize.placeFields o byName fs p c = some (.error e, c')) :
    ∃ m ∈ references fs, ∃ c c', byName c m = some (.error e, c') := by
  induction fs generalizing p c with
  | nil => cases h
  | cons f fs ih =>
    have rest (h : ∃ m ∈ references fs, ∃ c c', byName c m = some (.error e, c')) :
        ∃ m ∈ references (f :: fs), ∃ c c', byName c m = some (.error e, c') := by
      obtain ⟨m, hm, culprit⟩ := h
      refine ⟨m, ?_, culprit⟩
      obtain ⟨g, hg, hr⟩ := mem_references.mp hm
      exact mem_references.mpr ⟨g, List.mem_cons_of_mem f hg, hr⟩
    rw [LayoutUsize.placeFields, ResolverCache.fieldTotalSize_eq] at h
    obtain total | ⟨size, c₁, _, h⟩ := andThen_error h
    · cases hr : f.ty.reference with
      | none =>
        simp only [hr] at total
        exact absurd total sized_ne_error
      | some m =>
        simp only [hr] at total
        obtain culprit | ⟨l, c₂, _, sized⟩ := andThen_error total
        · exact ⟨m, mem_references.mpr ⟨f, List.mem_cons_self, hr⟩, c, c', culprit⟩
        · exact absurd sized sized_ne_error
    · obtain ⟨q, _, h⟩ := Option.bind_eq_some_iff.mp h
      exact rest (ih h)

theorem culprit_of_layoutWith {hash : Option (Except ParseError (BitVec 32))}
    {byName : Cache → Text → Layout.Outcome LaidOutMsg}
    (h : LayoutUsize.layoutWith o byName hash d c = some (.error e, c')) :
    hash = some (.error e) ∨
      ∃ m ∈ references d.fields, ∃ c c', byName c m = some (.error e, c') := by
  obtain placed | ⟨p, c₁, _, h⟩ := andThen_error h
  · rw [← references_sortFields]
    exact .inr (culprit_of_placeFields placed)
  · obtain ⟨q, _, h⟩ := Option.bind_eq_some_iff.mp h
    split at h <;> cases h
    exact .inl rfl

theorem culprit_of_messageHash (h : messageHash search k d = some (.error e)) :
    ∃ m, Nests search d m ∧ load search m = .error e := by
  obtain ⟨r, hashed, mapped⟩ := Option.map_eq_some_iff.mp h
  cases r with
  | ok out => cases mapped
  | error e' =>
    cases mapped
    exact culprit_of_messageHashFields hashed

theorem culprit_of_layout (plain : ∀ m ∈ references d.fields, ResolverCache.Plain m)
    (inner : ∀ m c c', ResolverCache.Plain m → layoutByName search o k c m = some (.error e, c') →
      load search m = .error e ∨
        ∃ d n, load search m = .ok d ∧ Nests search d n ∧ load search n = .error e)
    (h : layout search o k d c = some (.error e, c')) :
    ∃ n, Nests search d n ∧ load search n = .error e := by
  obtain hashed | ⟨m, hm, c₁, c₂, failed⟩ := culprit_of_layoutWith h
  · exact culprit_of_messageHash hashed
  · obtain culprit | ⟨d', n, hd, nests, culprit⟩ := inner m c₁ c₂ (plain m hm) failed
    · exact ⟨m, nests_of_reference hm, culprit⟩
    · exact ⟨n, nests_of_load hm hd nests, culprit⟩

theorem culprit_of_layoutByName (plain : ResolverCache.Plain m)
    (h : layoutByName search o k c m = some (.error e, c')) :
    load search m = .error e ∨
      ∃ d n, load search m = .ok d ∧ Nests search d n ∧ load search n = .error e := by
  induction k generalizing m c c' with
  | zero => cases h
  | succ k ih =>
    rw [layoutByName] at h
    split at h
    · cases h
    · cases hd : loadFile search m with
      | error e' =>
        simp only [hd, Option.some.injEq, Prod.mk.injEq, Except.error.injEq] at h
        rw [← loadFile_of_plain plain, hd, h.1]
        exact .inl rfl
      | ok d =>
        simp only [hd] at h
        obtain ⟨n, nests, culprit⟩ :=
          culprit_of_layout (plain_reference hd) (fun m c c' => ih) h
        rw [loadFile_of_plain plain] at hd
        exact .inr ⟨d, n, hd, nests, culprit⟩

/-! Succeeding. -/

theorem loads_of_hashFields {recurse : MsgDef → Text → Option (Except ParseError Text)}
    {s : Text} (h : hashFields search recurse fs out = some (.ok s)) :
    ∀ m ∈ references fs, ∃ d out s, load search m = .ok d ∧ recurse d out = some (.ok s) := by
  induction fs generalizing out with
  | nil => simp [references]
  | cons f fs ih =>
    rw [hashFields] at h
    cases hr : f.ty.reference with
    | none =>
      rw [references_cons_none hr]
      simp only [hr] at h
      exact ih h
    | some m =>
      rw [references_cons_some hr]
      simp only [hr] at h
      cases hd : load search m with
      | error e => simp [hd] at h
      | ok d =>
        simp only [hd] at h
        split at h
        · rename_i s' inner
          exact List.forall_mem_cons.mpr ⟨⟨d, _, s', hd, inner⟩, ih h⟩
        · rename_i ne
          exact absurd h (ne s)

theorem loads_of_messageHashFields {s : Text}
    (h : messageHashFields search k d out = some (.ok s)) (nests : Nests search d m) :
    ∃ d', load search m = .ok d' := by
  induction k generalizing d out s with
  | zero => cases h
  | succ k ih =>
    have loads := loads_of_hashFields h
    obtain hm | ⟨n, hn, d', hd, nests⟩ := nests_inv nests
    · obtain ⟨d', _, _, hd, _⟩ := loads m hm
      exact ⟨d', hd⟩
    · obtain ⟨d'', _, _, hd', inner⟩ := loads n hn
      cases hd.symm.trans hd'
      exact ih inner nests

theorem loads_of_layout {l : LaidOutMsg} (h : layout search o k d c = some (.ok l, c')) :
    ∀ m, Nests search d m → ∃ d', load search m = .ok d' := by
  obtain ⟨_, _, _, hash, _⟩ := LayoutUsize.layoutWith_ok o h
  obtain ⟨r, hashed, mapped⟩ := Option.map_eq_some_iff.mp hash
  cases r with
  | error e => cases mapped
  | ok s => exact fun m => loads_of_messageHashFields hashed

/-- A message is skipped because its own file or that of a message it nests cannot be loaded,
and the error is the one of that file; where it is not skipped all of them are loaded. -/
theorem skipped_by_a_file {r : Except ParseError Emitted}
    (h : generate T o search k path = some r) :
    (∀ e, r = .error e → parseFile path.1 path.2 = .error e ∨
      ∃ d m, parseFile path.1 path.2 = .ok d ∧ Nests search d m ∧ load search m = .error e) ∧
    (∀ ts, r = .ok ts → ∃ d, parseFile path.1 path.2 = .ok d ∧
      ∀ m, Nests search d m → ∃ d', load search m = .ok d') := by
  unfold generate at h
  cases hd : parseFile path.1 path.2 with
  | error e' =>
    simp only [hd, Option.some.injEq] at h
    subst h
    simp
  | ok d =>
    simp only [hd] at h
    cases laid : layout search o k d Cache.new with
    | none => simp [laid] at h
    | some x =>
      obtain ⟨x, c⟩ := x
      cases x with
      | error e' =>
        simp only [laid, Option.some.injEq] at h
        subst h
        refine ⟨fun e he => ?_, by simp⟩
        cases he
        obtain ⟨n, nests, culprit⟩ := culprit_of_layout (plain_of_parseFile hd)
          (fun m c c' plain => culprit_of_layoutByName plain) laid
        exact .inr ⟨d, n, rfl, nests, culprit⟩
      | ok l =>
        simp only [laid] at h
        obtain ⟨ts, _, rfl⟩ := Option.map_eq_some_iff.mp h
        refine ⟨by simp, fun _ _ => ⟨d, rfl, loads_of_layout laid⟩⟩

/-- Without `Leaf` there is no `Branch`. -/
theorem skipped_by_a_file_leafless :
    generate plainTokens .panics [] 1 ("Branch".toList, .text branch) =
        some (.error (.unresolvedNested "Leaf".toList)) ∧
      ∃ d m, parseStr "Branch".toList branch = .ok d ∧ Nests [] d m ∧
        load [] m = .error (.unresolvedNested "Leaf".toList) := by
  have skipped : generate plainTokens .panics [] 1 ("Branch".toList, .text branch) =
      some (.error (.unresolvedNested "Leaf".toList)) := rfl
  obtain own | culprit := (skipped_by_a_file skipped).1 _ rfl
  · have parsed : parseFile "Branch".toList (.text branch) = .ok branchMsg := by decide
    cases parsed.symm.trans own
  · exact ⟨skipped, culprit⟩

end Px4Rs.Needs
