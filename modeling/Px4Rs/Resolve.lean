import Px4Rs.Uncached
import Px4Rs.Walk

/-! When `layout`, `layout_by_name` and `message_hash` end. The sizes, through the cache,
and the hash, past it, both visit the references of a message depth first. -/
namespace Px4Rs.Resolve
open Px4Rs.Message Px4Rs.Layout Px4Rs.Uncached Px4Rs.Walk Relation
variable {search : List Dir}

def children (search : List Dir) (name : Text) : Option (List Text) :=
  match load search name with
  | .ok d => some (references d.fields)
  | .error _ => none

/-- All that is cached resolves by its files. -/
def Cached (search : List Dir) (c : Cache) : Prop :=
  ∀ name l, c name = some l → Resolves (children search) name

theorem cached_new : Cached search Cache.new := by
  intro name l h
  cases h

theorem resolves_of_layOutByName {k : Nat} {name : Text} {l : LaidOutMsg}
    (h : layOutByName search k name = some (.ok l)) : Resolves (children search) name := by
  induction k generalizing name l with
  | zero => cases h
  | succ k ih =>
    rw [layOutByName] at h
    split at h
    · cases h
    · rename_i d hd
      refine .intro (show children search name = some (references d.fields) by rw [children, hd])
        fun m hm => ?_
      obtain ⟨nested, hn⟩ := (laidOut_of_layOut h).1 m hm
      exact ih hn

/-- So it is with every resolver that lays out messages of the search path. -/
theorem cached_of_filled {c : Cache} (h : Filled search c) : Cached search c := by
  intro name l hl
  obtain ⟨k, hk⟩ := sound_of_filled h name l hl
  exact resolves_of_layOutByName hk

variable {byName : Cache → Text → Outcome LaidOutMsg} {fs : List Field} {p : Placing}
  {c c' : Cache} {d : MsgDef} {k : Nat} {out : Text} {b : Bool}

/-- A call of `layout_by_name` that ends has visited its name. -/
def Visits (search : List Dir) (byName : Cache → Text → Outcome LaidOutMsg) : Prop :=
  ∀ c name res c', Cached search c → byName c name = some (res, c') →
    Cached search c' ∧ ∃ j, walk (children search) j name = some res.isOk

/-! The hash. -/

theorem walkList_of_hashFields {recurse : MsgDef → Text → Option (Except ParseError Text)}
    (step : ∀ d out res, recurse d out = some res →
      walkList (walk (children search) k) (references d.fields) = some res.isOk)
    {res : Except ParseError Text} (h : hashFields search recurse fs out = some res) :
    walkList (walk (children search) (k + 1)) (references fs) = some res.isOk := by
  induction fs generalizing out with
  | nil =>
    cases h
    rfl
  | cons f fs ih =>
    rw [hashFields] at h
    cases hr : f.ty.reference with
    | none =>
      rw [references_cons_none hr]
      simp only [hr] at h
      exact ih h
    | some name =>
      rw [references_cons_some hr, walkList, walk, children]
      simp only [hr] at h
      cases hl : load search name with
      | error e =>
        simp only [hl, Option.some.injEq] at h ⊢
        rw [← h]
        rfl
      | ok nested =>
        simp only [hl] at h ⊢
        split at h
        · rename_i hn
          rw [step _ _ _ hn]
          exact ih h
        · rename_i hne
          rw [step _ _ _ h]
          cases res with
          | ok out => exact absurd h (hne out)
          | error e => rfl

theorem walkList_of_messageHashFields {res : Except ParseError Text}
    (h : messageHashFields search k d out = some res) :
    walkList (walk (children search) k) (references d.fields) = some res.isOk := by
  induction k generalizing d out res with
  | zero => cases h
  | succ k ih => exact walkList_of_hashFields (fun d out res => ih) h

theorem hashFields_of_walkList {recurse : MsgDef → Text → Option (Except ParseError Text)}
    (sound : ∀ d out res, recurse d out = some res →
      walkList (walk (children search) k) (references d.fields) = some res.isOk)
    (step : ∀ name d out b, load search name = .ok d → walk (children search) k name = some b →
      ∃ res, recurse d out = some res)
    (h : walkList (walk (children search) k) (references fs) = some b) :
    ∃ res, hashFields search recurse fs out = some res := by
  induction fs generalizing out with
  | nil => exact ⟨_, rfl⟩
  | cons f fs ih =>
    rw [hashFields]
    cases hr : f.ty.reference with
    | none =>
      rw [references_cons_none hr] at h
      exact ih h
    | some name =>
      rw [references_cons_some hr] at h
      cases hl : load search name with
      | error e => exact ⟨.error e, by simp [hl]⟩
      | ok nested =>
        rw [walkList] at h
        cases hw : walk (children search) k name with
        | none => simp [hw] at h
        | some b' =>
          obtain ⟨res, hn⟩ := step name nested (out ++ fieldToken f.ty ++ ' ' :: f.name ++ ['\n'])
            b' hl hw
          simp only [hl, hn]
          cases res with
          | error e => exact ⟨_, rfl⟩
          | ok out =>
            have resolved : walk (children search) (k + 1) name = some true := by
              simpa [walk, children, hl, Except.isOk, Except.toBool] using sound _ _ _ hn
            rw [walk_unique hw resolved] at hw
            exact ih (by simpa [hw] using h)

theorem messageHashFields_of_walkList (out : Text)
    (h : walkList (walk (children search) k) (references d.fields) = some b) :
    ∃ res, messageHashFields search (k + 1) d out = some res := by
  induction k generalizing d out b with
  | zero =>
    exact hashFields_of_walkList (fun _ _ _ h => by cases h) (fun _ _ _ _ _ h => by cases h) h
  | succ k ih =>
    refine hashFields_of_walkList (fun d out res => walkList_of_messageHashFields) ?_ h
    intro name d out b hl hw
    have visited : walkList (walk (children search) k) (references d.fields) = some b := by
      simpa [walk, children, hl] using hw
    exact ih out visited

/-! The sizes. -/

theorem walkList_of_placeFields (visits : Visits search byName) (hc : Cached search c)
    {res : Except ParseError Placing} (h : placeFields byName fs p c = some (res, c')) :
    Cached search c' ∧
      ∃ j, walkList (walk (children search) j) (references fs) = some res.isOk := by
  induction fs generalizing p c with
  | nil =>
    cases h
    exact ⟨hc, 0, rfl⟩
  | cons f fs ih =>
    rw [placeFields, fieldTotalSize_eq] at h
    cases hr : f.ty.reference with
    | none =>
      rw [references_cons_none hr]
      simp only [hr] at h
      exact ih hc h
    | some name =>
      rw [references_cons_some hr]
      simp only [hr] at h
      cases hn : byName c name with
      | none => simp [hn, Outcome.andThen] at h
      | some r =>
        obtain ⟨r, c₁⟩ := r
        obtain ⟨hc₁, j, hj⟩ := visits c name r c₁ hc hn
        cases r with
        | error e =>
          simp only [hn, Outcome.andThen, Option.some.injEq, Prod.mk.injEq] at h
          obtain ⟨rfl, rfl⟩ := h
          exact ⟨hc₁, j, by rw [walkList, hj]; rfl⟩
        | ok l =>
          simp only [hn, Outcome.andThen] at h
          obtain ⟨hc', i, hi⟩ := ih hc₁ h
          refine ⟨hc', max i j, ?_⟩
          rw [walkList, walk_le (Nat.le_max_right i j) hj]
          exact walkList_le (Nat.le_max_left i j) hi

theorem placeFields_of_walkList (visits : Visits search byName)
    (step : ∀ c name b, Cached search c → walk (children search) k name = some b →
      ∃ res c', byName c name = some (res, c'))
    (hc : Cached search c) (h : walkList (walk (children search) k) (references fs) = some b) :
    ∃ res c', placeFields byName fs p c = some (res, c') := by
  induction fs generalizing p c with
  | nil => exact ⟨_, _, rfl⟩
  | cons f fs ih =>
    rw [placeFields, fieldTotalSize_eq]
    cases hr : f.ty.reference with
    | none =>
      rw [references_cons_none hr] at h
      exact ih hc h
    | some name =>
      rw [references_cons_some hr, walkList] at h
      cases hw : walk (children search) k name with
      | none => simp [hw] at h
      | some b' =>
        obtain ⟨r, c₁, hn⟩ := step c name b' hc hw
        obtain ⟨hc₁, j, hj⟩ := visits c name r c₁ hc hn
        simp only [hn, Outcome.andThen]
        cases r with
        | error e => exact ⟨_, _, rfl⟩
        | ok l =>
          rw [walk_unique hw hj] at hw
          exact ih hc₁ (by simpa [hw, Except.isOk, Except.toBool] using h)

/-! Both together. -/

theorem isOk_messageHash {res : Except ParseError (BitVec 32)}
    (h : messageHash search (k + 1) d = some res) :
    walkList (walk (children search) (k + 1)) (references d.fields) = some res.isOk := by
  simp only [messageHash, Option.map_eq_some_iff] at h
  obtain ⟨r, hr, rfl⟩ := h
  rw [walkList_of_messageHashFields hr]
  cases r <;> rfl

/-- A `layout` that ends has visited the references of its message, and has cached more
only if it resolves. -/
theorem walkList_of_layoutWith (visits : Visits search byName) (hc : Cached search c)
    {res : Except ParseError LaidOutMsg}
    (h : layoutWith byName (messageHash search (k + 1) d) d c = some (res, c')) :
    (∃ j, walkList (walk (children search) j) (references d.fields) = some res.isOk) ∧
      (Cached search c' ∨ res.isOk = true ∧ ∀ name l, c' name = some l →
        name = d.name ∨ Resolves (children search) name) := by
  rw [layoutWith] at h
  cases hp : placeFields byName (sortFields d.fields) .start c with
  | none => simp [hp, Outcome.andThen] at h
  | some r =>
    obtain ⟨r, c₁⟩ := r
    obtain ⟨hc₁, j, hj⟩ := walkList_of_placeFields visits hc hp
    rw [references_sortFields] at hj
    cases r with
    | error e =>
      simp only [hp, Outcome.andThen, Option.some.injEq, Prod.mk.injEq] at h
      obtain ⟨rfl, rfl⟩ := h
      exact ⟨⟨j, hj⟩, .inl hc₁⟩
    | ok p =>
      simp only [hp, Outcome.andThen] at h
      split at h
      · cases h
      · rename_i e hh
        -- the references have all been resolved, so the hash cannot fail
        exact absurd (walkList_unique hj (isOk_messageHash hh))
          (by simp [Except.isOk, Except.toBool])
      · cases h
        refine ⟨⟨j, hj⟩, .inr ⟨rfl, fun name l hl => ?_⟩⟩
        by_cases hn : name = d.name
        · exact .inl hn
        · rw [Function.update_of_ne hn] at hl
          exact .inr (hc₁ name l hl)

theorem layoutWith_of_walkList (visits : Visits search byName)
    (step : ∀ c name b, Cached search c → walk (children search) k name = some b →
      ∃ res c', byName c name = some (res, c'))
    (hc : Cached search c)
    (h : walkList (walk (children search) k) (references d.fields) = some b) :
    ∃ res c', layoutWith byName (messageHash search (k + 1) d) d c = some (res, c') := by
  obtain ⟨r, c₁, hp⟩ := placeFields_of_walkList (p := .start) visits step hc
    (by rwa [references_sortFields])
  obtain ⟨t, hh⟩ := messageHashFields_of_walkList [] h
  rw [layoutWith, hp, messageHash, hh]
  cases r with
  | error e => exact ⟨_, _, rfl⟩
  | ok p => cases t <;> exact ⟨_, _, rfl⟩

theorem visits_layoutByName : Visits search (layoutByName search k) := by
  induction k with
  | zero =>
    intro c name res c' _ h
    cases h
  | succ k ih =>
    intro c name res c' hc h
    rw [layoutByName] at h
    split at h
    · rename_i l hl
      cases h
      exact ⟨hc, (hc name l hl).walk⟩
    · split at h
      · rename_i e he
        cases h
        exact ⟨hc, 1, by simp [walk, children, he, Except.isOk, Except.toBool]⟩
      · rename_i d hd
        obtain ⟨⟨j, hj⟩, hc'⟩ := walkList_of_layoutWith ih hc h
        have visited : walk (children search) (j + 1) name = some res.isOk := by
          simpa [walk, children, hd] using hj
        refine ⟨?_, j + 1, visited⟩
        obtain hc' | ⟨ok, hc'⟩ := hc'
        · exact hc'
        · intro n l hl
          obtain rfl | hn := hc' n l hl
          · rw [load_name search hd]
            exact resolves_of_walk (ok ▸ visited)
          · exact hn

theorem layoutByName_of_walk (hc : Cached search c) {name : Text}
    (h : walk (children search) k name = some b) :
    ∃ res c', layoutByName search k c name = some (res, c') := by
  induction k generalizing c name b with
  | zero => cases h
  | succ k ih =>
    rw [layoutByName]
    split
    · exact ⟨_, _, rfl⟩
    · split
      · exact ⟨_, _, rfl⟩
      · rename_i d hd
        exact layoutWith_of_walkList (b := b) visits_layoutByName (fun c name b hc => ih hc) hc
          (by simpa [walk, children, hd] using h)

/-! The references are finitely many. -/

/-- Every reference of every file of the search path. -/
def allReferences (search : List Dir) : List Text :=
  search.flatten.flatMap fun f =>
    match parseFile f.1 f.2 with
    | .ok d => references d.fields
    | .error _ => []

theorem mem_allReferences {name m : Text} {ns : List Text}
    (h : children search name = some ns) (hm : m ∈ ns) : m ∈ allReferences search := by
  simp only [children, load, find] at h
  cases hf : search.findSome? fun dir => dir.lookup name with
  | none => simp [hf] at h
  | some file =>
    obtain ⟨before, dir, after, rfl, hdir, _⟩ := List.findSome?_eq_some_iff.mp hf
    obtain ⟨l₁, l₂, rfl, _⟩ := List.lookup_eq_some_iff.mp hdir
    simp only [hf] at h
    simp only [allReferences, List.mem_flatMap]
    refine ⟨(name, file), by simp, ?_⟩
    split at h
    · rename_i d hd
      cases h
      simpa [hd] using hm
    · cases h

theorem finite_reachable (m : Text) :
    {u | ReflTransGen (Uses (children search)) m u}.Finite := by
  apply (List.finite_toSet (m :: allReferences search)).subset
  intro u hu
  obtain rfl | ⟨v, _, ns, found, before, after, rfl, _⟩ := ReflTransGen.cases_tail hu
  · simp
  · exact List.mem_cons_of_mem _ (mem_allReferences found (by simp))

theorem walkList_singleton (visit : Text → Option Bool) (name : Text) :
    walkList visit [name] = visit name := by
  rw [walkList]
  split <;> simp_all [walkList]

theorem layout_ends_iff (hc : Cached search c) (d : MsgDef) :
    (∃ k, (layout search k d c).isSome = true) ↔
      NoCycle (children search) (references d.fields) := by
  rw [← walkList_ends_iff fun m _ => finite_reachable m]
  constructor
  · rintro ⟨k, h⟩
    obtain ⟨⟨res, c'⟩, h⟩ := Option.isSome_iff_exists.mp h
    obtain ⟨⟨j, hj⟩, _⟩ := walkList_of_layoutWith visits_layoutByName hc h
    exact ⟨j, _, hj⟩
  · rintro ⟨k, b, h⟩
    obtain ⟨res, c', h⟩ := layoutWith_of_walkList visits_layoutByName
      (fun c name b hc => layoutByName_of_walk hc) hc h
    exact ⟨k, by rw [layout, h]; rfl⟩

theorem layoutByName_ends_iff (hc : Cached search c) (name : Text) :
    (∃ k, (layoutByName search k c name).isSome = true) ↔ NoCycle (children search) [name] := by
  rw [← walkList_ends_iff fun m _ => finite_reachable m]
  simp only [walkList_singleton]
  constructor
  · rintro ⟨k, h⟩
    obtain ⟨⟨res, c'⟩, h⟩ := Option.isSome_iff_exists.mp h
    obtain ⟨_, j, hj⟩ := visits_layoutByName c name res c' hc h
    exact ⟨j, _, hj⟩
  · rintro ⟨k, b, h⟩
    obtain ⟨res, c', h⟩ := layoutByName_of_walk hc h
    exact ⟨k, by rw [h]; rfl⟩

theorem messageHash_ends_iff (d : MsgDef) :
    (∃ k, (messageHash search k d).isSome = true) ↔
      NoCycle (children search) (references d.fields) := by
  rw [← walkList_ends_iff fun m _ => finite_reachable m]
  simp only [messageHash, Option.isSome_map]
  constructor
  · rintro ⟨k, h⟩
    obtain ⟨res, h⟩ := Option.isSome_iff_exists.mp h
    exact ⟨k, _, walkList_of_messageHashFields h⟩
  · rintro ⟨k, b, h⟩
    obtain ⟨res, h⟩ := messageHashFields_of_walkList [] h
    exact ⟨k + 1, by rw [h]; rfl⟩

/-- On a resolver whose cache holds only messages that resolve, a new one among them, each
of the three calls ends exactly when the visit it makes comes into no cycle. -/
theorem resolver_ends_iff (hc : Cached search c) (d : MsgDef) (name : Text) :
    ((∃ k, (layout search k d c).isSome = true) ↔
      NoCycle (children search) (references d.fields)) ∧
    ((∃ k, (layoutByName search k c name).isSome = true) ↔ NoCycle (children search) [name]) ∧
    ((∃ k, (messageHash search k d).isSome = true) ↔
      NoCycle (children search) (references d.fields)) :=
  ⟨layout_ends_iff hc d, layoutByName_ends_iff hc name, messageHash_ends_iff d⟩

/-- `Node.msg` has a `Leaf`, and `Leaf.msg` has only a byte. -/
def tree : List Dir :=
  [[("Node".toList, .text "Leaf leaf".toList), ("Leaf".toList, .text "uint8 x".toList)]]

theorem resolver_ends_iff_tree :
    ∃ d, load tree "Node".toList = .ok d ∧ (∃ k, (layout tree k d Cache.new).isSome = true) ∧
      (∃ k, (layoutByName tree k Cache.new "Node".toList).isSome = true) ∧
      ∃ k, (messageHash tree k d).isSome = true := by
  refine ⟨⟨"Node".toList, "node".toList, [⟨"leaf".toList, .nested "Leaf".toList⟩], [],
    ["node".toList], none⟩, by decide, ?_⟩
  have ends (names : List Text) (h : walkList (walk (children tree) 2) names = some true) :
      NoCycle (children tree) names :=
    (walkList_ends_iff fun m _ => finite_reachable m).mp ⟨2, true, h⟩
  obtain ⟨layouts, named, hashed⟩ := resolver_ends_iff (@cached_new tree)
    ⟨"Node".toList, "node".toList, [⟨"leaf".toList, .nested "Leaf".toList⟩], [],
      ["node".toList], none⟩ "Node".toList
  exact ⟨layouts.mpr (ends _ (by decide)), named.mpr (ends _ (by decide)),
    hashed.mpr (ends _ (by decide))⟩

/-- `A.msg` has a field of its own type: no call on it ever ends. -/
def loop : List Dir := [[("A".toList, .text "A next".toList)]]

theorem self_reference_never_ends :
    ∃ d, load loop "A".toList = .ok d ∧ (¬ ∃ k, (layout loop k d Cache.new).isSome = true) ∧
      (¬ ∃ k, (layoutByName loop k Cache.new "A".toList).isSome = true) ∧
      ¬ ∃ k, (messageHash loop k d).isSome = true := by
  have uses : Uses (children loop) "A".toList "A".toList :=
    ⟨["A".toList], by decide, [], [], rfl, by simp⟩
  have cycle : ¬ NoCycle (children loop) ["A".toList] := fun h =>
    h "A".toList ⟨[], [], rfl, by simp⟩ "A".toList .refl (.single uses)
  refine ⟨⟨"A".toList, "a".toList, [⟨"next".toList, .nested "A".toList⟩], [], ["a".toList], none⟩,
    by decide, ?_, ?_, ?_⟩
  · rwa [layout_ends_iff cached_new]
  · rwa [layoutByName_ends_iff cached_new]
  · rwa [messageHash_ends_iff]

end Px4Rs.Resolve
