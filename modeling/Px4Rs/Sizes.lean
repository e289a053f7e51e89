import Px4Rs.LayoutUsize
import Px4Rs.Uncached

/-! The size of a message, from those of the messages it refers to. A resolver with any cache
computes it: its cache only grows, by messages of the size they have. -/
namespace Px4Rs.Sizes
open Px4Rs.Message Px4Rs.Layout Px4Rs.Uncached Function

def isNested (f : Field) : Bool := f.ty.reference.isSome

def up (n : Nat) : Nat := n + alignGap n alignTo

/-- All scalars without gaps, then each nested field from a multiple of `alignTo` on. -/
def messageSize (sizeOf : Text → Nat) (fields : List Field) : Nat :=
  let scalars := ((fields.filter (! isNested ·)).map fun f => totalSize sizeOf f.ty).sum
  up ((fields.filter isNested).foldl (fun n f => up n + totalSize sizeOf f.ty) scalars)

/-- The size of a message: that of the cached one, or the one its file gives. -/
inductive HasSize (search : List Dir) (c : Cache) : Text → Nat → Prop
  | cached {name : Text} {l : LaidOutMsg} : c name = some l → HasSize search c name l.size
  | found {name : Text} {d : MsgDef} {sizeOf : Text → Nat} : c name = none →
      load search name = .ok d → (∀ m ∈ references d.fields, HasSize search c m (sizeOf m)) →
      HasSize search c name (messageSize sizeOf d.fields)

variable {search : List Dir} {c c₀ c' : Cache} {d : MsgDef} {fs : List Field} {p p' : Placing}
  {a b sizeOf : Text → Nat} {name : Text} {n m k : Nat}

theorem messageSize_congr (h : ∀ m ∈ references fs, a m = b m) :
    messageSize a fs = messageSize b fs := by
  have same (f : Field) (hf : f ∈ fs) : totalSize a f.ty = totalSize b f.ty :=
    totalSize_congr fun m hm => h m (mem_references.mpr ⟨f, hf, hm⟩)
  have scalars : (fs.filter (! isNested ·)).map (fun f => totalSize a f.ty) =
      (fs.filter (! isNested ·)).map fun f => totalSize b f.ty :=
    List.map_congr_left fun f hf => same f (List.mem_of_mem_filter hf)
  have nested (n : Nat) : (fs.filter isNested).foldl (fun n f => up n + totalSize a f.ty) n =
      (fs.filter isNested).foldl (fun n f => up n + totalSize b f.ty) n :=
    List.foldl_ext _ _ _ fun n f hf => by rw [same f (List.mem_of_mem_filter hf)]
  simp only [messageSize, scalars, nested]

theorem HasSize.unique (hn : HasSize search c name n) (hm : HasSize search c name m) : n = m := by
  induction hn generalizing m with
  | cached hc =>
    cases hm with
    | cached hc' =>
      rw [hc] at hc'
      cases hc'
      rfl
    | found hc' _ _ =>
      rw [hc] at hc'
      cases hc'
  | found hc load _ ih =>
    cases hm with
    | cached hc' =>
      rw [hc] at hc'
      cases hc'
    | found _ load' sized' =>
      rw [load] at load'
      cases load'
      exact messageSize_congr fun m hm => ih m hm (sized' m hm)

open Classical in
/-- The size of each message that has one. -/
noncomputable def theSize (search : List Dir) (c : Cache) (name : Text) : Nat :=
  if h : ∃ n, HasSize search c name n then h.choose else 0

theorem HasSize.eq (h : HasSize search c name n) : theSize search c name = n := by
  have ex : ∃ n, HasSize search c name n := ⟨n, h⟩
  rw [theSize, dif_pos ex]
  exact ex.choose_spec.unique h

/-! The sorted fields. -/

theorem sortFields_sorted (fs : List Field) :
    (sortFields fs).Pairwise fun a b => fieldSortSize b.ty ≤ fieldSortSize a.ty := by
  have trans : IsTrans Field fun a b => fieldSortSize b.ty ≤ fieldSortSize a.ty :=
    ⟨fun _ _ _ h h' => h'.trans h⟩
  have total : Std.Total fun a b : Field => fieldSortSize b.ty ≤ fieldSortSize a.ty :=
    ⟨fun a b => Nat.le_total (fieldSortSize b.ty) (fieldSortSize a.ty)⟩
  exact List.pairwise_insertionSort _ fs

theorem isNested_iff {f : Field} : isNested f = true ↔ fieldSortSize f.ty = 0 := by
  cases hty : f.ty with
  | scalar s | scalarArray s n =>
    have pos := s.size_pos
    simp [isNested, hty, FieldType.reference, fieldSortSize]
    omega
  | nested | nestedArray => simp [isNested, hty, FieldType.reference, fieldSortSize]

theorem split_of_sorted (h : fs.Pairwise fun a b => fieldSortSize b.ty ≤ fieldSortSize a.ty) :
    fs = fs.filter (! isNested ·) ++ fs.filter isNested := by
  induction fs with
  | nil => rfl
  | cons f fs ih =>
    obtain ⟨hf, hfs⟩ := List.pairwise_cons.mp h
    have rest := ih hfs
    cases hn : isNested f with
    | false => simpa [hn] using rest
    | true =>
      -- what follows a nested field is nested
      have all : ∀ g ∈ fs, isNested g = true := by
        intro g hg
        have le := hf g hg
        rw [isNested_iff.mp hn] at le
        exact isNested_iff.mpr (Nat.le_zero.mp le)
      have none : fs.filter (! isNested ·) = [] := by
        rw [List.filter_eq_nil_iff]
        simpa using all
      simp [hn, none, List.filter_eq_self.mpr all]

theorem sortFields_split (fs : List Field) :
    sortFields fs = (sortFields fs).filter (! isNested ·) ++ fs.filter isNested := by
  have kept : (sortFields fs).filter isNested = fs.filter isNested := by
    refine filter_sortFields fs fun a b _ hb => ?_
    rw [fieldSortSize_nested hb]
    exact Nat.zero_le _
  rw [← kept]
  exact split_of_sorted (sortFields_sorted fs)

/-! The size of what the loop places. -/

theorem sizeAccum_pad (p : Placing) : p.pad.sizeAccum = up p.sizeAccum := by
  simp only [Placing.pad, up]
  split_ifs with h
  · rfl
  · rw [Nat.eq_zero_of_not_pos h, Nat.add_zero]

theorem placed_append (gs : List Field) (p : Placing) :
    placed sizeOf (fs ++ gs) p = placed sizeOf gs (placed sizeOf fs p) := by
  induction fs generalizing p with
  | nil => rfl
  | cons f fs ih => exact ih _

theorem place_scalar {f : Field} (h : isNested f = false) (p : Placing) (size : Nat) :
    p.place f size = ⟨p.out ++ [.real f], p.sizeAccum + size, p.paddingIdx⟩ := by
  cases hty : f.ty with
  | scalar | scalarArray => simp only [Placing.place, hty]
  | nested | nestedArray => simp [isNested, hty, FieldType.reference] at h

theorem place_nested {f : Field} (h : isNested f = true) (p : Placing) (size : Nat) :
    p.place f size = ⟨p.pad.out ++ [.real f], p.pad.sizeAccum + size, p.pad.paddingIdx⟩ := by
  cases hty : f.ty with
  | scalar | scalarArray => simp [isNested, hty, FieldType.reference] at h
  | nested | nestedArray => simp only [Placing.place, hty]

theorem sizeAccum_scalars (h : ∀ f ∈ fs, isNested f = false) (p : Placing) :
    (placed sizeOf fs p).sizeAccum =
      p.sizeAccum + (fs.map fun f => totalSize sizeOf f.ty).sum := by
  induction fs generalizing p with
  | nil => rfl
  | cons f fs ih =>
    rw [placed, ih (fun g hg => h g (by simp [hg])), place_scalar (h f (by simp))]
    simp [Nat.add_assoc]

theorem sizeAccum_nested (h : ∀ f ∈ fs, isNested f = true) (p : Placing) :
    (placed sizeOf fs p).sizeAccum =
      fs.foldl (fun n f => up n + totalSize sizeOf f.ty) p.sizeAccum := by
  induction fs generalizing p with
  | nil => rfl
  | cons f fs ih =>
    rw [placed, ih (fun g hg => h g (by simp [hg])), place_nested (h f (by simp)),
      List.foldl_cons, sizeAccum_pad]

theorem sizeAccum_placed (sizeOf : Text → Nat) (fs : List Field) :
    (placed sizeOf (sortFields fs) .start).pad.sizeAccum = messageSize sizeOf fs := by
  have scalars : ((sortFields fs).filter (! isNested ·)).Perm (fs.filter (! isNested ·)) :=
    (List.perm_insertionSort _ fs).filter _
  have sum := (scalars.map fun f => totalSize sizeOf f.ty).sum_nat
  rw [sizeAccum_pad, sortFields_split, placed_append,
    sizeAccum_nested (fun f hf => List.of_mem_filter hf),
    sizeAccum_scalars (fun f hf => by simpa using List.of_mem_filter hf), sum]
  simp only [messageSize, Placing.start, Nat.zero_add]

/-! With the cache. -/

/-- A cache that has grown from `c₀`, by messages of the size they have. -/
structure Grown (search : List Dir) (c₀ c : Cache) : Prop where
  kept : ∀ m l, c₀ m = some l → c m = some l
  sized : ∀ m l, c m = some l → HasSize search c₀ m l.size

theorem grown_refl (search : List Dir) (c : Cache) : Grown search c c :=
  ⟨fun _ _ h => h, fun _ _ h => .cached h⟩

/-- Calls that lay out messages in the size they have, and cache no others. -/
def Sizing (search : List Dir) (c₀ : Cache) (byName : Cache → Text → Outcome LaidOutMsg) : Prop :=
  ∀ c name res c', Grown search c₀ c → byName c name = some (res, c') →
    Grown search c₀ c' ∧ ∀ l, res = .ok l → HasSize search c₀ name l.size

variable {byName : Cache → Text → Outcome LaidOutMsg}

theorem placed_of_placeFields (sizing : Sizing search c₀ byName) (hc : Grown search c₀ c)
    {res : Except ParseError Placing} (h : placeFields byName fs p c = some (res, c')) :
    Grown search c₀ c' ∧ ∀ p', res = .ok p' →
      (∀ m ∈ references fs, HasSize search c₀ m (theSize search c₀ m)) ∧
        p' = placed (theSize search c₀) fs p := by
  induction fs generalizing p c with
  | nil =>
    cases h
    refine ⟨hc, ?_⟩
    rintro _ ⟨⟩
    exact ⟨by simp [references], rfl⟩
  | cons f fs ih =>
    rw [placeFields, fieldTotalSize_eq] at h
    cases hr : f.ty.reference with
    | none =>
      simp only [hr] at h
      obtain ⟨hc', rest⟩ := ih hc h
      refine ⟨hc', fun p' hp' => ?_⟩
      obtain ⟨sized, rfl⟩ := rest p' hp'
      rw [references_cons_none hr, placed]
      exact ⟨sized, by rw [totalSize_congr (by simp [hr])]⟩
    | some m =>
      simp only [hr] at h
      cases hn : byName c m with
      | none => simp [hn, Outcome.andThen] at h
      | some r =>
        obtain ⟨r, c₁⟩ := r
        obtain ⟨hc₁, size⟩ := sizing c m r c₁ hc hn
        cases r with
        | error e =>
          simp only [hn, Outcome.andThen, Option.some.injEq, Prod.mk.injEq] at h
          obtain ⟨rfl, rfl⟩ := h
          exact ⟨hc₁, by rintro _ ⟨⟩⟩
        | ok l =>
          simp only [hn, Outcome.andThen] at h
          obtain ⟨hc', rest⟩ := ih hc₁ h
          refine ⟨hc', fun p' hp' => ?_⟩
          obtain ⟨sized, rfl⟩ := rest p' hp'
          have hl := size l rfl
          have eq := hl.eq
          rw [references_cons_some hr, placed]
          refine ⟨by simpa [eq] using ⟨hl, sized⟩, ?_⟩
          rw [totalSize_congr fun n hn => ?_]
          obtain rfl : m = n := by simpa [hr] using hn
          exact eq.symm

theorem placed_of_layoutWith (sizing : Sizing search c₀ byName) (hc : Grown search c₀ c)
    {hash : Option (Except ParseError (BitVec 32))} {res : Except ParseError LaidOutMsg}
    (h : layoutWith byName hash d c = some (res, c')) :
    ∃ c₁, Grown search c₀ c₁ ∧ (∀ e, res = .error e → c' = c₁) ∧ ∀ l, res = .ok l →
      c' = update c₁ d.name (some l) ∧
      (∀ m ∈ references d.fields, HasSize search c₀ m (theSize search c₀ m)) ∧
      ∃ v, l = laidOut d (placed (theSize search c₀) (sortFields d.fields) .start) v := by
  rw [layoutWith] at h
  cases hp : placeFields byName (sortFields d.fields) .start c with
  | none => simp [hp, Outcome.andThen] at h
  | some r =>
    obtain ⟨r, c₁⟩ := r
    obtain ⟨hc₁, placed⟩ := placed_of_placeFields sizing hc hp
    refine ⟨c₁, hc₁, ?_⟩
    cases r with
    | error e =>
      simp only [hp, Outcome.andThen, Option.some.injEq, Prod.mk.injEq] at h
      obtain ⟨rfl, rfl⟩ := h
      exact ⟨fun _ _ => rfl, by rintro _ ⟨⟩⟩
    | ok p =>
      obtain ⟨sized, rfl⟩ := placed p rfl
      rw [references_sortFields] at sized
      simp only [hp, Outcome.andThen] at h
      split at h
      · cases h
      · cases h
        exact ⟨fun _ _ => rfl, by rintro _ ⟨⟩⟩
      · cases h
        refine ⟨by rintro _ ⟨⟩, ?_⟩
        rintro _ ⟨⟩
        exact ⟨rfl, sized, _, rfl⟩

theorem sizing_layoutByName (search : List Dir) (c₀ : Cache) (k : Nat) :
    Sizing search c₀ (layoutByName search k) := by
  induction k with
  | zero =>
    intro c name res c' _ h
    cases h
  | succ k ih =>
    intro c name res c' hc h
    rw [layoutByName] at h
    split at h
    · rename_i l hl
      cases h
      exact ⟨hc, by rintro _ ⟨⟩; exact hc.sized name _ hl⟩
    · rename_i missed
      split at h
      · cases h
        exact ⟨hc, by rintro _ ⟨⟩⟩
      · rename_i d hd
        obtain ⟨c₁, hc₁, failed, done⟩ := placed_of_layoutWith ih hc h
        have new : c₀ name = none := by
          cases h₀ : c₀ name with
          | none => rfl
          | some l =>
            rw [hc.kept name l h₀] at missed
            cases missed
        cases res with
        | error e =>
          rw [failed e rfl]
          exact ⟨hc₁, by rintro _ ⟨⟩⟩
        | ok l =>
          obtain ⟨rfl, sized, v, hl⟩ := done l rfl
          have size : HasSize search c₀ name l.size := by
            have found := HasSize.found new hd sized
            rw [← sizeAccum_placed] at found
            rw [hl]
            exact found
          rw [load_name search hd]
          refine ⟨⟨fun m l' hm => ?_, fun m l' hm => ?_⟩, by rintro _ ⟨⟩; exact size⟩
          · rw [update_of_ne (by rintro rfl; rw [new] at hm; cases hm)]
            exact hc₁.kept m l' hm
          · by_cases hmn : m = name
            · subst hmn
              rw [update_self] at hm
              cases hm
              exact size
            · rw [update_of_ne hmn] at hm
              exact hc₁.sized m l' hm

/-- What any resolver returns for a message, in its `usize`. -/
theorem exists_layout {o : LayoutUsize.Overflow} {l : LaidOutMsg} (fits : LayoutUsize.Fits c)
    (h : LayoutUsize.layout search o k d c = some (.ok l, c')) :
    (∀ m ∈ references d.fields, HasSize search c m (theSize search c m)) ∧
      ∃ v, l = LayoutUsize.reduce
        (laidOut d (placed (theSize search c) (sortFields d.fields) .start) v) := by
  have sim := LayoutUsize.layout_simulates search o k d c
  rw [LayoutUsize.reduceCache_of_fits fits] at sim
  obtain ⟨res₀, c₀', h₀, hres, _⟩ := sim _ _ h
  obtain ⟨c₁, _, _, done⟩ :=
    placed_of_layoutWith (sizing_layoutByName search c k) (grown_refl search c) h₀
  cases res₀ with
  | error e => cases hres
  | ok l₀ =>
    obtain ⟨_, sized, v, rfl⟩ := done l₀ rfl
    exact ⟨sized, v, Except.ok.inj hres⟩

end Px4Rs.Sizes
