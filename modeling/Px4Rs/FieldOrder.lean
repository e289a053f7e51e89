import Px4Rs.Sizes

/-! The order of the fields in a layout, and where its padding goes. -/
namespace Px4Rs.FieldOrder
open Px4Rs.Message Px4Rs.Parser Px4Rs.Layout Px4Rs.Uncached Px4Rs.Sizes Px4Rs.LayoutUsize

def real? : LaidOutField → Option Field
  | .real f => some f
  | .padding _ _ => none

def reals (entries : List LaidOutField) : List Field := entries.filterMap real?

def paddings (entries : List LaidOutField) : Nat := entries.countP fun e => (real? e).isNone

variable (sizeOf : Text → Nat)

def entrySize : LaidOutField → Nat
  | .real f => totalSize sizeOf f.ty
  | .padding _ size => size

/-- The running size behind the entries. The code's is this one modulo the range of `usize`,
of which `alignTo` is a divisor. -/
def running (entries : List LaidOutField) : Nat := (entries.map (entrySize sizeOf)).sum

/-- Scalars by descending size, those of one size as they were declared; then all nested
fields as they were declared. -/
structure Ordered (fields sorted : List Field) : Prop where
  perm : sorted.Perm fields
  split : ∃ scalars, sorted = scalars ++ fields.filter isNested ∧
    (∀ f ∈ scalars, isNested f = false) ∧
    (scalars.Pairwise fun a b => fieldSortSize b.ty ≤ fieldSortSize a.ty) ∧
    ∀ n, scalars.filter (fieldSortSize ·.ty = n) =
      fields.filter fun f => ! isNested f && fieldSortSize f.ty = n

/-- Padding is before a nested field or at the end, up to the next multiple of `alignTo`, and
nowhere is it missing. -/
structure Arranged (entries : List LaidOutField) : Prop where
  padding : ∀ pre i size post, entries = pre ++ .padding i size :: post →
    (post = [] ∨ ∃ f post', post = .real f :: post' ∧ isNested f = true) ∧
      ¬ alignTo ∣ running sizeOf pre ∧ 0 < size ∧ size < alignTo ∧
      alignTo ∣ running sizeOf pre + size ∧ i = paddings pre
  nested : ∀ pre f post, entries = pre ++ .real f :: post → isNested f = true →
    alignTo ∣ running sizeOf pre
  total : alignTo ∣ running sizeOf entries

/- The same of what comes after entries of size `n` with `i` paddings among them. -/
def ArrangedFrom : Nat → Nat → List LaidOutField → Prop
  | n, _, [] => alignTo ∣ n
  | n, i, .real f :: es =>
    (isNested f = true → alignTo ∣ n) ∧ ArrangedFrom (n + totalSize sizeOf f.ty) i es
  | n, i, .padding j size :: es =>
    ((es = [] ∨ ∃ f es', es = .real f :: es' ∧ isNested f = true) ∧
      ¬ alignTo ∣ n ∧ 0 < size ∧ size < alignTo ∧ alignTo ∣ n + size ∧ j = i) ∧
    ArrangedFrom (n + size) (i + 1) es

variable {sizeOf} {search : List Dir} {o : Overflow} {c c' : Cache} {d : MsgDef} {l : LaidOutMsg}
  {k n i : Nat} {fs : List Field} {es pre post : List LaidOutField} {e : LaidOutField} {p : Placing}

theorem running_cons (e : LaidOutField) (es : List LaidOutField) :
    running sizeOf (e :: es) = entrySize sizeOf e + running sizeOf es := by simp [running]

theorem arrangedFrom_append (h : ArrangedFrom sizeOf n i (pre ++ post)) :
    ArrangedFrom sizeOf (n + running sizeOf pre) (i + paddings pre) post := by
  induction pre generalizing n i with
  | nil => exact h
  | cons e pre ih =>
    rw [running_cons]
    cases e with
    | real f =>
      have rest := ih h.2
      rw [Nat.add_assoc] at rest
      simpa [entrySize, paddings, real?] using rest
    | padding j size =>
      have rest := ih h.2
      rw [Nat.add_assoc, Nat.add_assoc, Nat.add_comm 1] at rest
      simpa [entrySize, paddings, real?] using rest

theorem arranged_of_from (h : ArrangedFrom sizeOf 0 0 es) : Arranged sizeOf es := by
  refine ⟨?_, ?_, ?_⟩
  · rintro pre i size post rfl
    have at_padding := arrangedFrom_append h
    rw [Nat.zero_add, Nat.zero_add] at at_padding
    exact at_padding.1
  · rintro pre f post rfl
    have at_real := arrangedFrom_append h
    rw [Nat.zero_add, Nat.zero_add] at at_real
    exact at_real.1
  · rw [← List.append_nil es] at h
    have at_end := arrangedFrom_append h
    rw [Nat.zero_add] at at_end
    exact at_end

/-! The loop. -/

theorem pad_cases (p : Placing) :
    (alignTo ∣ p.sizeAccum ∧ p.pad = p) ∨
      ∃ gap, ¬ alignTo ∣ p.sizeAccum ∧ 0 < gap ∧ gap < alignTo ∧ alignTo ∣ p.sizeAccum + gap ∧
        p.pad = ⟨p.out ++ [.padding p.paddingIdx gap], p.sizeAccum + gap, p.paddingIdx + 1⟩ := by
  by_cases h : p.sizeAccum % 8 = 0
  · have gap : alignGap p.sizeAccum alignTo = 0 := if_pos h
    exact .inl ⟨Nat.dvd_of_mod_eq_zero h, by simp [Placing.pad, gap]⟩
  · have gap : alignGap p.sizeAccum alignTo = 8 - p.sizeAccum % 8 := if_neg h
    have pos : 0 < 8 - p.sizeAccum % 8 := by omega
    have aligned : 8 ∣ p.sizeAccum + (8 - p.sizeAccum % 8) := by omega
    refine .inr ⟨_, fun hd => h (Nat.mod_eq_zero_of_dvd hd), pos, Nat.sub_lt (by omega) (by omega),
      aligned, ?_⟩
    simp only [Placing.pad, gap]
    rw [if_pos pos]

theorem exists_entries (fs : List Field) (p : Placing) :
    ∃ es, (placed sizeOf fs p).pad.out = p.out ++ es ∧ reals es = fs ∧
      (placed sizeOf fs p).pad.sizeAccum = p.sizeAccum + running sizeOf es ∧
      ArrangedFrom sizeOf p.sizeAccum p.paddingIdx es := by
  induction fs generalizing p with
  | nil =>
    rw [placed]
    obtain ⟨aligned, h⟩ | ⟨gap, short, pos, small, aligned, h⟩ := pad_cases p
    · rw [h]
      exact ⟨[], by simp, rfl, rfl, aligned⟩
    · rw [h]
      refine ⟨[.padding p.paddingIdx gap], rfl, rfl, by simp [running, entrySize], ?_⟩
      exact ⟨⟨.inl rfl, short, pos, small, aligned, rfl⟩, aligned⟩
  | cons f fs ih =>
    rw [placed]
    cases hn : isNested f with
    | false =>
      obtain ⟨es, out, order, sum, rest⟩ := ih (p.place f (totalSize sizeOf f.ty))
      rw [place_scalar hn] at out sum rest ⊢
      refine ⟨.real f :: es, by simp [out], congrArg (f :: ·) order, ?_, ?_⟩
      · rw [sum, running_cons, entrySize, Nat.add_assoc]
      · exact ⟨by simp [hn], rest⟩
    | true =>
      obtain ⟨es, out, order, sum, rest⟩ := ih (p.place f (totalSize sizeOf f.ty))
      rw [place_nested hn] at out sum rest ⊢
      obtain ⟨aligned, h⟩ | ⟨gap, short, pos, small, aligned, h⟩ := pad_cases p
      · rw [h] at out sum rest ⊢
        refine ⟨.real f :: es, by simp [out], congrArg (f :: ·) order, ?_, ?_⟩
        · rw [sum, running_cons, entrySize, Nat.add_assoc]
        · exact ⟨fun _ => aligned, rest⟩
      · rw [h] at out sum rest ⊢
        refine ⟨.padding p.paddingIdx gap :: .real f :: es, by rw [out]; simp,
          congrArg (f :: ·) order, ?_, ?_⟩
        · rw [sum]
          simp only [running_cons, entrySize, Nat.add_assoc]
        · exact ⟨⟨.inr ⟨f, es, rfl, hn⟩, short, pos, small, aligned, rfl⟩, fun _ => aligned, rest⟩

theorem ordered_sortFields (fs : List Field) : Ordered fs (sortFields fs) := by
  refine ⟨List.perm_insertionSort _ fs, _, sortFields_split fs, ?_, ?_, ?_⟩
  · intro f hf
    simpa using List.of_mem_filter hf
  · exact (sortFields_sorted fs).filter _
  · intro n
    have kept := filter_sortFields (p := fun f => ! isNested f && fieldSortSize f.ty = n) fs
      fun a b ha hb => by simp_all
    rw [List.filter_filter, ← kept]
    exact List.filter_congr fun f _ => Bool.and_comm _ _

/-- The layout that any resolver returns. -/
theorem layout_arranged (fits : Fits c)
    (h : LayoutUsize.layout search o k d c = some (.ok l, c')) :
    Ordered d.fields (reals l.fields) ∧ ∃ sizeOf,
      (∀ m ∈ references d.fields, HasSize search c m (sizeOf m)) ∧ Arranged sizeOf l.fields ∧
      l.size = running sizeOf l.fields % 2 ^ usizeBits := by
  obtain ⟨sized, v, rfl⟩ := exists_layout fits h
  obtain ⟨es, out, order, sum, arranged⟩ :=
    @exists_entries (theSize search c) (sortFields d.fields) .start
  rw [show Placing.start.out = [] from rfl, List.nil_append] at out
  rw [show Placing.start.sizeAccum = 0 from rfl, Nat.zero_add] at sum
  simp only [reduce, laidOut, out, sum, order]
  exact ⟨ordered_sortFields d.fields, theSize search c, sized, arranged_of_from arranged, rfl⟩

theorem layout_arranged_axes :
    let search : List Dir := [[("Axis".toList, .text "uint8 a\n".toList)]]
    let d : MsgDef :=
      { name := "Axes".toList, snakeName := "axes".toList
        fields := [⟨"x".toList, .nested "Axis".toList⟩, ⟨"n".toList, .scalar .u8⟩]
        constants := [], topics := ["axes".toList], messageVersion := none }
    ∃ l c', LayoutUsize.layout search .wraps 1 d Cache.new = some (.ok l, c') ∧
      Ordered d.fields (reals l.fields) ∧ ∃ sizeOf,
        (∀ m ∈ references d.fields, HasSize search Cache.new m (sizeOf m)) ∧
        Arranged sizeOf l.fields ∧ l.size = running sizeOf l.fields % 2 ^ usizeBits := by
  intro search d
  have fits : Fits Cache.new := by rintro _ _ ⟨⟩
  have h : LayoutUsize.layout search .wraps 1 d Cache.new = some (.ok _, _) := rfl
  exact ⟨_, _, h, layout_arranged fits h⟩

end Px4Rs.FieldOrder
