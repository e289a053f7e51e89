import Px4Rs.Layout

/-! The layout without the cache: a nested message is laid out anew wherever it is used.
On a cache of such layouts `layout_by_name` returns the same results, to some depth. -/
namespace Px4Rs.Uncached
open Px4Rs.Message Px4Rs.Layout Function

abbrev Result (α : Type) := Option (Except ParseError α)

def placeAll (byName : Text → Result LaidOutMsg) : List Field → Placing → Result Placing
  | [], p => some (.ok p)
  | f :: fs, p =>
    match f.ty.reference with
    | none => placeAll byName fs (p.place f (totalSize (fun _ => 0) f.ty))
    | some name =>
      match byName name with
      | some (.ok l) => placeAll byName fs (p.place f (totalSize (fun _ => l.size) f.ty))
      | some (.error e) => some (.error e)
      | none => none

def layOut (byName : Text → Result LaidOutMsg) (hash : Result (BitVec 32)) (d : MsgDef) :
    Result LaidOutMsg :=
  match placeAll byName (sortFields d.fields) .start with
  | some (.ok p) => hash.map fun r => r.map (laidOut d p)
  | some (.error e) => some (.error e)
  | none => none

/-- `layout_by_name` to depth `k`, without the cache. -/
def layOutByName (search : List Dir) : Nat → Text → Result LaidOutMsg
  | 0, _ => none
  | k + 1, name =>
    match load search name with
    | .error e => some (.error e)
    | .ok d => layOut (layOutByName search k) (messageHash search (k + 1) d) d

/-- What is cached is what the files give. -/
def Sound (search : List Dir) (c : Cache) : Prop :=
  ∀ name l, c name = some l → ∃ k, layOutByName search k name = some (.ok l)

variable {search : List Dir} {c c' : Cache} {d : MsgDef} {fs : List Field} {p : Placing}
  {f g : Text → Result LaidOutMsg} {k j : Nat} {name : Text}

theorem sound_new : Sound search Cache.new := by
  intro name l h
  cases h

/-! More depth changes no result. -/

theorem placeAll_mono {res : Except ParseError Placing}
    (hfg : ∀ n r, f n = some r → g n = some r) (h : placeAll f fs p = some res) :
    placeAll g fs p = some res := by
  induction fs generalizing p with
  | nil => exact h
  | cons field fs ih =>
    rw [placeAll] at h ⊢
    cases hr : field.ty.reference with
    | none => exact ih (by simpa [hr] using h)
    | some m =>
      simp only [hr] at h ⊢
      cases hm : f m with
      | none => simp [hm] at h
      | some r =>
        rw [hfg m r hm]
        cases r with
        | ok l => exact ih (by simpa [hm] using h)
        | error e => simpa [hm] using h

theorem hashFields_mono {f g : MsgDef → Text → Option (Except ParseError Text)} {out : Text}
    {res : Except ParseError Text} (hfg : ∀ d out r, f d out = some r → g d out = some r)
    (h : hashFields search f fs out = some res) : hashFields search g fs out = some res := by
  induction fs generalizing out with
  | nil => exact h
  | cons field fs ih =>
    rw [hashFields] at h ⊢
    cases hr : field.ty.reference with
    | none => exact ih (by simpa [hr] using h)
    | some m =>
      simp only [hr] at h ⊢
      cases hl : load search m with
      | error e => simpa [hl] using h
      | ok nested =>
        simp only [hl] at h ⊢
        split at h
        · rename_i hn
          rw [hfg _ _ _ hn]
          exact ih h
        · rename_i hne
          rw [hfg _ _ _ h]
          cases res with
          | ok out => exact absurd h (hne out)
          | error e => rfl

theorem messageHashFields_succ {out : Text} {res : Except ParseError Text}
    (h : messageHashFields search k d out = some res) :
    messageHashFields search (k + 1) d out = some res := by
  induction k generalizing d out res with
  | zero => cases h
  | succ k ih => exact hashFields_mono (fun d out r => ih) h

theorem messageHashFields_le {out : Text} {res : Except ParseError Text} (hkj : k ≤ j)
    (h : messageHashFields search k d out = some res) :
    messageHashFields search j d out = some res := by
  induction hkj with
  | refl => exact h
  | step _ ih => exact messageHashFields_succ ih

theorem messageHash_le {res : Except ParseError (BitVec 32)} (hkj : k ≤ j)
    (h : messageHash search k d = some res) : messageHash search j d = some res := by
  obtain ⟨r, hr, rfl⟩ := Option.map_eq_some_iff.mp h
  rw [messageHash, messageHashFields_le hkj hr]
  rfl

theorem layOut_mono {res : Except ParseError LaidOutMsg} {hash hash' : Result (BitVec 32)}
    (hfg : ∀ n r, f n = some r → g n = some r) (hh : ∀ r, hash = some r → hash' = some r)
    (h : layOut f hash d = some res) : layOut g hash' d = some res := by
  rw [layOut] at h ⊢
  split at h
  · rename_i p hp
    obtain ⟨r, hr, rfl⟩ := Option.map_eq_some_iff.mp h
    rw [placeAll_mono hfg hp, hh r hr]
    rfl
  · rename_i e hp
    rw [placeAll_mono hfg hp]
    exact h
  · cases h

theorem layOutByName_succ {res : Except ParseError LaidOutMsg}
    (h : layOutByName search k name = some res) :
    layOutByName search (k + 1) name = some res := by
  induction k generalizing name res with
  | zero => cases h
  | succ k ih =>
    rw [layOutByName] at h ⊢
    split at h
    · exact h
    · exact layOut_mono (fun n r => ih) (fun r => messageHash_le (Nat.le_succ _)) h

theorem layOutByName_le {res : Except ParseError LaidOutMsg} (hkj : k ≤ j)
    (h : layOutByName search k name = some res) : layOutByName search j name = some res := by
  induction hkj with
  | refl => exact h
  | step _ ih => exact layOutByName_succ ih

theorem layOutByName_unique {r s : Except ParseError LaidOutMsg}
    (hr : layOutByName search k name = some r) (hs : layOutByName search j name = some s) :
    r = s := by
  have hr := layOutByName_le (Nat.le_max_left k j) hr
  rw [layOutByName_le (Nat.le_max_right k j) hs] at hr
  exact (Option.some.inj hr).symm

/-! With the cache. -/

variable {byName : Cache → Text → Outcome LaidOutMsg}

/-- What a call of `layout_by_name` returns is what the files give, in its cache too. -/
def Agrees (search : List Dir) (byName : Cache → Text → Outcome LaidOutMsg) : Prop :=
  ∀ c name res c', Sound search c → byName c name = some (res, c') →
    Sound search c' ∧ ∃ j, layOutByName search j name = some res

theorem placeAll_of_placeFields (agrees : Agrees search byName) (hc : Sound search c)
    {res : Except ParseError Placing} (h : placeFields byName fs p c = some (res, c')) :
    Sound search c' ∧ ∃ j, placeAll (layOutByName search j) fs p = some res := by
  induction fs generalizing p c with
  | nil =>
    cases h
    exact ⟨hc, 0, rfl⟩
  | cons field fs ih =>
    rw [placeFields, fieldTotalSize_eq] at h
    simp only [placeAll]
    cases hr : field.ty.reference with
    | none =>
      simp only [hr] at h
      exact ih hc h
    | some m =>
      simp only [hr] at h
      cases hn : byName c m with
      | none => simp [hn, Outcome.andThen] at h
      | some r =>
        obtain ⟨r, c₁⟩ := r
        obtain ⟨hc₁, j, hj⟩ := agrees c m r c₁ hc hn
        cases r with
        | error e =>
          simp only [hn, Outcome.andThen, Option.some.injEq, Prod.mk.injEq] at h
          obtain ⟨rfl, rfl⟩ := h
          exact ⟨hc₁, j, by simp [hj]⟩
        | ok l =>
          simp only [hn, Outcome.andThen] at h
          obtain ⟨hc', i, hi⟩ := ih hc₁ h
          refine ⟨hc', max i j, ?_⟩
          simp only [layOutByName_le (Nat.le_max_right i j) hj]
          exact placeAll_mono (fun n r => layOutByName_le (Nat.le_max_left i j)) hi

/-- A `layout` that ends returns what the files give, and caches no more than that. -/
theorem layOut_of_layoutWith (agrees : Agrees search byName) (hc : Sound search c)
    {res : Except ParseError LaidOutMsg}
    (h : layoutWith byName (messageHash search (k + 1) d) d c = some (res, c')) :
    (∃ j, layOut (layOutByName search j) (messageHash search (j + 1) d) d = some res) ∧
      ∀ n l, c' n = some l → (n = d.name ∧ res = .ok l) ∨
        ∃ j, layOutByName search j n = some (.ok l) := by
  rw [layoutWith] at h
  cases hp : placeFields byName (sortFields d.fields) .start c with
  | none => simp [hp, Outcome.andThen] at h
  | some r =>
    obtain ⟨r, c₁⟩ := r
    obtain ⟨hc₁, j, hj⟩ := placeAll_of_placeFields agrees hc hp
    cases r with
    | error e =>
      simp only [hp, Outcome.andThen, Option.some.injEq, Prod.mk.injEq] at h
      obtain ⟨rfl, rfl⟩ := h
      exact ⟨⟨j, by simp [layOut, hj]⟩, fun n l hl => .inr (hc₁ n l hl)⟩
    | ok p =>
      simp only [hp, Outcome.andThen] at h
      -- one depth for the sizes and the hash
      have placed := placeAll_mono
        (fun _ _ hn => layOutByName_le (Nat.le_max_left j k) hn) hj
      have hashed (r : Except ParseError (BitVec 32)) (hr : messageHash search (k + 1) d = some r) :
          layOut (layOutByName search (max j k)) (messageHash search (max j k + 1) d) d =
            some (r.map (laidOut d p)) := by
        rw [layOut, placed, messageHash_le (Nat.succ_le_succ (Nat.le_max_right j k)) hr]
        rfl
      split at h
      · cases h
      · rename_i e he
        cases h
        exact ⟨⟨_, hashed _ he⟩, fun n l hl => .inr (hc₁ n l hl)⟩
      · rename_i hash hh
        cases h
        refine ⟨⟨_, hashed _ hh⟩, fun n l hl => ?_⟩
        by_cases hn : n = d.name
        · subst hn
          rw [update_self] at hl
          exact .inl ⟨rfl, by rw [Option.some.inj hl]⟩
        · rw [update_of_ne hn] at hl
          exact .inr (hc₁ n l hl)

theorem agrees_layoutByName : Agrees search (layoutByName search k) := by
  induction k with
  | zero =>
    intro c name res c' _ h
    cases h
  | succ k ih =>
    intro c name res c' hc h
    rw [layoutByName] at h
    split at h
    · rename_i l hl
      cases h
      exact ⟨hc, hc name l hl⟩
    · split at h
      · rename_i e he
        cases h
        exact ⟨hc, 1, by simp [layOutByName, he]⟩
      · rename_i d hd
        obtain ⟨⟨j, hj⟩, hc'⟩ := layOut_of_layoutWith ih hc h
        have given : layOutByName search (j + 1) name = some res := by
          rw [layOutByName, hd]
          exact hj
        refine ⟨fun n l hl => ?_, j + 1, given⟩
        obtain ⟨rfl, rfl⟩ | hn := hc' n l hl
        · exact ⟨j + 1, by rwa [load_name search hd]⟩
        · exact hn

/-- The caches of a resolver that lays out messages of the search path only. -/
inductive Filled (search : List Dir) : Cache → Prop
  | new : Filled search Cache.new
  | layoutByName {c c' : Cache} {k : Nat} {name : Text} {res : Except ParseError LaidOutMsg} :
      Filled search c → layoutByName search k c name = some (res, c') → Filled search c'
  | layout {c c' : Cache} {k : Nat} {d : MsgDef} {res : Except ParseError LaidOutMsg} :
      Filled search c → load search d.name = .ok d → layout search k d c = some (res, c') →
      Filled search c'

theorem sound_of_filled (h : Filled search c) : Sound search c := by
  induction h with
  | new => exact sound_new
  | layoutByName _ call hc => exact (agrees_layoutByName _ _ _ _ hc call).1
  | layout _ found call hc =>
    obtain ⟨⟨j, hj⟩, hc'⟩ := layOut_of_layoutWith agrees_layoutByName hc call
    intro n l hl
    obtain ⟨rfl, rfl⟩ | hn := hc' n l hl
    · exact ⟨j + 1, by rwa [layOutByName, found]⟩
    · exact hn

/-! Without and with the cache to the same depth. -/

theorem placeFields_of_placeAll
    (step : ∀ c name res, Sound search c → layOutByName search k name = some res →
      ∃ c', Sound search c' ∧ byName c name = some (res, c'))
    (hc : Sound search c) {res : Except ParseError Placing}
    (h : placeAll (layOutByName search k) fs p = some res) :
    ∃ c', Sound search c' ∧ placeFields byName fs p c = some (res, c') := by
  induction fs generalizing p c with
  | nil =>
    cases h
    exact ⟨c, hc, rfl⟩
  | cons field fs ih =>
    rw [placeFields, fieldTotalSize_eq]
    rw [placeAll] at h
    cases hr : field.ty.reference with
    | none =>
      simp only [hr] at h
      exact ih hc h
    | some m =>
      simp only [hr] at h
      cases hm : layOutByName search k m with
      | none => simp [hm] at h
      | some r =>
        obtain ⟨c₁, hc₁, hn⟩ := step c m r hc hm
        simp only [hn, Outcome.andThen]
        simp only [hm] at h
        cases r with
        | error e =>
          cases h
          exact ⟨c₁, hc₁, rfl⟩
        | ok l => exact ih hc₁ h

theorem layoutWith_of_layOut
    (step : ∀ c name res, Sound search c → layOutByName search k name = some res →
      ∃ c', Sound search c' ∧ byName c name = some (res, c'))
    (hc : Sound search c) {res : Except ParseError LaidOutMsg} {hash : Result (BitVec 32)}
    (h : layOut (layOutByName search k) hash d = some res) :
    ∃ c', layoutWith byName hash d c = some (res, c') := by
  rw [layOut] at h
  split at h
  · rename_i p hp
    obtain ⟨c₁, _, h₁⟩ := placeFields_of_placeAll step hc hp
    obtain ⟨r, rfl, rfl⟩ := Option.map_eq_some_iff.mp h
    rw [layoutWith, h₁]
    cases r <;> exact ⟨_, rfl⟩
  · rename_i e hp
    obtain ⟨c₁, _, h₁⟩ := placeFields_of_placeAll step hc hp
    cases h
    rw [layoutWith, h₁]
    exact ⟨_, rfl⟩
  · cases h

theorem layoutByName_of_layOutByName {res : Except ParseError LaidOutMsg} (hc : Sound search c)
    (h : layOutByName search k name = some res) :
    ∃ c', Sound search c' ∧ layoutByName search k c name = some (res, c') := by
  suffices ∃ c', layoutByName search k c name = some (res, c') by
    obtain ⟨c', h'⟩ := this
    exact ⟨c', (agrees_layoutByName c name res c' hc h').1, h'⟩
  induction k generalizing c name res with
  | zero => cases h
  | succ k ih =>
    rw [layoutByName]
    cases hl : c name with
    | some l =>
      obtain ⟨j, hj⟩ := hc name l hl
      exact ⟨c, by rw [layOutByName_unique h hj]⟩
    | none =>
      rw [layOutByName] at h
      cases hd : load search name with
      | error e =>
        rw [hd] at h
        cases h
        exact ⟨c, rfl⟩
      | ok d =>
        rw [hd] at h
        refine layoutWith_of_layOut (fun c n r hc hn => ?_) hc h
        obtain ⟨c', h'⟩ := ih hc hn
        exact ⟨c', (agrees_layoutByName c n r c' hc h').1, h'⟩

theorem layoutByName_new_iff {res : Except ParseError LaidOutMsg} :
    (∃ k c', layoutByName search k Cache.new name = some (res, c')) ↔
      ∃ k, layOutByName search k name = some res := by
  constructor
  · rintro ⟨k, c', h⟩
    exact (agrees_layoutByName _ _ _ _ sound_new h).2
  · rintro ⟨k, h⟩
    obtain ⟨c', _, h'⟩ := layoutByName_of_layOutByName sound_new h
    exact ⟨k, c', h'⟩

/-! What a layout is made of. -/

def sizeBy (byName : Text → Result LaidOutMsg) (name : Text) : Nat :=
  match byName name with
  | some (.ok l) => l.size
  | _ => 0

def placed (sizeOf : Text → Nat) : List Field → Placing → Placing
  | [], p => p
  | f :: fs, p => placed sizeOf fs (p.place f (totalSize sizeOf f.ty))

theorem sizeBy_of {l : LaidOutMsg} (h : f name = some (.ok l)) : sizeBy f name = l.size := by
  rw [sizeBy, h]

theorem totalSize_congr {ty : FieldType} {a b : Text → Nat}
    (h : ∀ m, ty.reference = some m → a m = b m) : totalSize a ty = totalSize b ty := by
  cases ty <;> simp_all [totalSize, FieldType.reference]

theorem placed_of_placeAll {p' : Placing} (h : placeAll f fs p = some (.ok p')) :
    (∀ m ∈ references fs, ∃ l, f m = some (.ok l)) ∧ p' = placed (sizeBy f) fs p := by
  induction fs generalizing p with
  | nil =>
    cases h
    exact ⟨by simp [references], rfl⟩
  | cons field fs ih =>
    rw [placeAll] at h
    cases hr : field.ty.reference with
    | none =>
      simp only [hr] at h
      obtain ⟨found, rfl⟩ := ih h
      rw [references_cons_none hr, placed]
      exact ⟨found, by rw [totalSize_congr (by simp [hr])]⟩
    | some m =>
      simp only [hr] at h
      split at h
      · rename_i l hl
        obtain ⟨found, rfl⟩ := ih h
        rw [references_cons_some hr, placed]
        refine ⟨by simpa using ⟨⟨l, hl⟩, found⟩, ?_⟩
        rw [totalSize_congr fun n hn => ?_]
        obtain rfl : m = n := by simpa [hr] using hn
        exact (sizeBy_of hl).symm
      · cases h
      · cases h

theorem laidOut_of_layOut {hash : Result (BitVec 32)} {l : LaidOutMsg}
    (h : layOut f hash d = some (.ok l)) :
    (∀ m ∈ references d.fields, ∃ l, f m = some (.ok l)) ∧
      ∃ v, l = laidOut d (placed (sizeBy f) (sortFields d.fields) .start) v := by
  rw [layOut] at h
  split at h
  · rename_i p hp
    obtain ⟨r, _, hr⟩ := Option.map_eq_some_iff.mp h
    obtain ⟨found, rfl⟩ := placed_of_placeAll hp
    rw [references_sortFields] at found
    cases r with
    | error e => cases hr
    | ok v =>
      cases hr
      exact ⟨found, v, rfl⟩
  · cases h
  · cases h

end Px4Rs.Uncached
