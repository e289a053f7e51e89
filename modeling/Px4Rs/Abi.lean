import Px4Rs.Emit
import Px4Rs.Uncached

/-! The emitted struct has no padding of its own: the fields, by descending size, and the
padding before the nested messages and at the end leave nothing to align. -/
namespace Px4Rs.Abi
open Px4Rs.Message Px4Rs.Layout Px4Rs.Uncached Px4Rs.ReprC Px4Rs.Emit
variable {T : Target} {ρ : Text → Repr} {search : List Dir} {sizeOf : Text → Nat} {p : Placing}
  {fs : List Field} {d : MsgDef} {l : LaidOutMsg} {k : Nat} {name : Text}

/-- The entries the loop has placed. -/
def entries (T : Target) (ρ : Text → Repr) (es : List LaidOutField) : List Repr :=
  es.map fun e => (emitField e).ty.repr T ρ

theorem entries_emitStruct : (emitStruct l).entries T ρ = entries T ρ l.fields := by
  simp [EmittedStruct.entries, emitStruct, entries]

theorem entries_append (es fs : List LaidOutField) :
    entries T ρ (es ++ fs) = entries T ρ es ++ entries T ρ fs :=
  List.map_append

/-- A struct of a size that is a multiple of 8, and no further aligned. -/
structure Fits (r : Repr) (size : Nat) : Prop where
  size_eq : r.size = size
  dvd : 8 ∣ size
  align_pos : 0 < r.align
  align_dvd : r.align ∣ 8

theorem rustType_size (s : Scalar) : (rustType s).size = s.size := by
  cases s <;> rfl

theorem align_dvd_size (T : Target) (s : Scalar) : T.align (rustType s) ∣ s.size := by
  rw [← rustType_size]
  exact T.align_dvd _

theorem size_dvd_eight (s : Scalar) : s.size ∣ 8 := by
  cases s <;> decide

theorem size_rustTypeFor {ty : FieldType}
    (h : ∀ m, ty.reference = some m → (ρ m).size = sizeOf m) :
    ((rustTypeFor ty).repr T ρ).size = totalSize sizeOf ty := by
  cases ty with
  | scalar s => exact rustType_size s
  | scalarArray s n =>
    simp [rustTypeFor, RustType.repr, array, totalSize, rustType_size, Nat.mul_comm]
  | nested m => exact h m rfl
  | nestedArray m n => simp [rustTypeFor, RustType.repr, array, totalSize, h m rfl, Nat.mul_comm]

/-! One entry after the other. -/

/-- What has been placed is aligned, and as long as the running size says. -/
structure Inv (T : Target) (ρ : Text → Repr) (p : Placing) : Prop where
  packed : Packed 0 (entries T ρ p.out)
  size : sizes (entries T ρ p.out) = p.sizeAccum
  align_dvd : ∀ t ∈ entries T ρ p.out, t.align ∣ 8

theorem inv_start : Inv T ρ .start := ⟨trivial, rfl, by simp [Placing.start, entries]⟩

theorem Inv.push {e : LaidOutField} {size idx : Nat} (h : Inv T ρ p)
    (hs : ((emitField e).ty.repr T ρ).size = size)
    (pos : 0 < ((emitField e).ty.repr T ρ).align)
    (fits : ((emitField e).ty.repr T ρ).align ∣ p.sizeAccum)
    (le : ((emitField e).ty.repr T ρ).align ∣ 8) :
    Inv T ρ ⟨p.out ++ [e], p.sizeAccum + size, idx⟩ where
  packed := by
    rw [entries_append, packed_append, Nat.zero_add, h.size]
    exact ⟨h.packed, pos, fits, trivial⟩
  size := by
    rw [entries_append, sizes_append, h.size, ← hs]
    simp [entries, sizes]
  align_dvd := by
    intro t ht
    rw [entries_append, List.mem_append] at ht
    obtain ht | ht := ht
    · exact h.align_dvd t ht
    · obtain rfl : t = (emitField e).ty.repr T ρ := by simpa [entries] using ht
      exact le

theorem dvd_alignGap (n : Nat) : 8 ∣ n + alignGap n alignTo := by
  rw [alignGap, alignTo]
  split <;> omega

theorem dvd_pad : 8 ∣ p.pad.sizeAccum := by
  have := dvd_alignGap p.sizeAccum
  simp only [Placing.pad]
  split
  · exact this
  · rwa [show alignGap p.sizeAccum alignTo = 0 by omega, Nat.add_zero] at this

theorem inv_pad (h : Inv T ρ p) : Inv T ρ p.pad := by
  have one : T.align .u8 ∣ 1 := T.align_dvd .u8
  simp only [Placing.pad]
  split
  · exact h.push (by simp [emitField, RustType.repr, array, Prim.size]) (T.align_pos .u8)
      (one.trans (Nat.one_dvd _)) (one.trans (Nat.one_dvd _))
  · exact h

/-- The size of every scalar still to come divides the running size. -/
def Ready (fs : List Field) (p : Placing) : Prop :=
  ∀ f ∈ fs, 0 < fieldSortSize f.ty → fieldSortSize f.ty ∣ p.sizeAccum

theorem place_of_none {f : Field} {size : Nat} (h : f.ty.reference = none) :
    p.place f size = ⟨p.out ++ [.real f], p.sizeAccum + size, p.paddingIdx⟩ := by
  obtain ⟨name, ty⟩ := f
  cases ty <;> simp_all [Placing.place, FieldType.reference]

theorem place_of_some {f : Field} {size : Nat} {m : Text} (h : f.ty.reference = some m) :
    p.place f size = ⟨p.pad.out ++ [.real f], p.pad.sizeAccum + size, p.pad.paddingIdx⟩ := by
  obtain ⟨name, ty⟩ := f
  cases ty <;> simp_all [Placing.place, FieldType.reference]

theorem scalar_of_none (T : Target) (ρ : Text → Repr) (sizeOf : Text → Nat) {ty : FieldType}
    (h : ty.reference = none) :
    ∃ s n, fieldSortSize ty = s.size ∧ totalSize sizeOf ty = s.size * n ∧
      ((rustTypeFor ty).repr T ρ).align = T.align (rustType s) := by
  cases ty with
  | scalar s => exact ⟨s, 1, rfl, (Nat.mul_one _).symm, rfl⟩
  | scalarArray s n => exact ⟨s, n, rfl, rfl, rfl⟩
  | nested m => cases h
  | nestedArray m n => cases h

theorem sort_size_of_some {ty : FieldType} {m : Text} (h : ty.reference = some m) :
    fieldSortSize ty = 0 ∧ ((rustTypeFor ty).repr T ρ).align = (ρ m).align := by
  cases ty <;> simp_all [FieldType.reference, fieldSortSize, rustTypeFor, RustType.repr, array]

theorem inv_place {f : Field} (h : Inv T ρ p) (ready : Ready [f] p)
    (hρ : ∀ m, f.ty.reference = some m → Fits (ρ m) (sizeOf m)) :
    Inv T ρ (p.place f (totalSize sizeOf f.ty)) := by
  have hs : ((emitField (.real f)).ty.repr T ρ).size = totalSize sizeOf f.ty :=
    size_rustTypeFor fun m hm => (hρ m hm).size_eq
  cases hr : f.ty.reference with
  | none =>
    obtain ⟨s, n, hsort, _, ha⟩ := scalar_of_none T ρ sizeOf hr
    have dvd := ready f (by simp) (by rw [hsort]; exact s.size_pos)
    have along := align_dvd_size T s
    rw [place_of_none hr]
    apply h.push hs
    · rw [emitField, ha]
      exact T.align_pos _
    · rw [emitField, ha]
      exact along.trans (hsort ▸ dvd)
    · rw [emitField, ha]
      exact along.trans (size_dvd_eight s)
  | some m =>
    have ha := (sort_size_of_some (T := T) (ρ := ρ) hr).2
    have fits := hρ m hr
    rw [place_of_some hr]
    apply (inv_pad h).push hs
    · rw [emitField, ha]
      exact fits.align_pos
    · rw [emitField, ha]
      exact fits.align_dvd.trans dvd_pad
    · rw [emitField, ha]
      exact fits.align_dvd

/-- What comes after a field is no larger, so its size still divides the running size. -/
theorem ready_place {f : Field} (ready : Ready (f :: fs) p)
    (sorted : ∀ g ∈ fs, fieldSortSize g.ty ≤ fieldSortSize f.ty) :
    Ready fs (p.place f (totalSize sizeOf f.ty)) := by
  intro g hg hpos
  have hle := sorted g hg
  cases hr : f.ty.reference with
  | none =>
    obtain ⟨s, n, hsort, htotal, _⟩ := scalar_of_none natural (fun _ => ⟨0, 1⟩) sizeOf hr
    rw [place_of_none hr, htotal]
    refine Nat.dvd_add (ready g (by simp [hg]) hpos) (Dvd.dvd.mul_right ?_ n)
    rw [hsort] at hle
    obtain ⟨name, ty⟩ := g
    cases ty with
    | scalar t => exact Scalar.size_dvd hle
    | scalarArray t n => exact Scalar.size_dvd hle
    | nested m => cases hpos
    | nestedArray m n => cases hpos
  | some m =>
    rw [(sort_size_of_some (T := natural) (ρ := fun _ => ⟨0, 1⟩) hr).1] at hle
    omega

theorem inv_placed (sorted : fs.Pairwise fun a b => fieldSortSize b.ty ≤ fieldSortSize a.ty)
    (hρ : ∀ m ∈ references fs, Fits (ρ m) (sizeOf m)) (h : Inv T ρ p) (ready : Ready fs p) :
    Inv T ρ (placed sizeOf fs p) := by
  induction fs generalizing p with
  | nil => exact h
  | cons f fs ih =>
    obtain ⟨first, sorted⟩ := List.pairwise_cons.mp sorted
    refine ih sorted (fun m hm => hρ m ?_) (inv_place h ?_ fun m hm => hρ m ?_)
      (ready_place ready first)
    · obtain ⟨g, hg, hm⟩ := mem_references.mp hm
      exact mem_references.mpr ⟨g, List.mem_cons_of_mem f hg, hm⟩
    · intro g hg
      rw [List.mem_singleton.mp hg]
      exact ready f List.mem_cons_self
    · exact mem_references.mpr ⟨f, List.mem_cons_self, hm⟩

theorem inv_laidOut {v : BitVec 32} (hρ : ∀ m ∈ references d.fields, Fits (ρ m) (sizeOf m))
    (hl : l = laidOut d (placed sizeOf (sortFields d.fields) .start) v) :
    Packed 0 (entries T ρ l.fields) ∧ sizes (entries T ρ l.fields) = l.size ∧ 8 ∣ l.size ∧
      ∀ t ∈ entries T ρ l.fields, t.align ∣ 8 := by
  have sorted : (sortFields d.fields).Pairwise
      fun a b => fieldSortSize b.ty ≤ fieldSortSize a.ty :=
    List.pairwise_insertionSort _ _
  have ready : Ready (sortFields d.fields) .start := fun f _ _ => Nat.dvd_zero _
  have inv := inv_pad (inv_placed (T := T) sorted
    (by rwa [references_sortFields]) inv_start ready)
  rw [hl]
  exact ⟨inv.packed, inv.size, dvd_pad, inv.align_dvd⟩

theorem fits_emitStruct {v : BitVec 32} (hρ : ∀ m ∈ references d.fields, Fits (ρ m) (sizeOf m))
    (hl : l = laidOut d (placed sizeOf (sortFields d.fields) .start) v) :
    Fits ((emitStruct l).repr T ρ) l.size := by
  obtain ⟨packed, size, dvd, align⟩ := inv_laidOut (T := T) hρ hl
  rw [EmittedStruct.repr, entries_emitStruct]
  have hmax := maxAlign_dvd align
  exact ⟨by rw [packed.record (size ▸ hmax.trans dvd), size], dvd, maxAlign_pos _, hmax⟩

/-! Nested messages. -/

/-- What is laid out at some depth is emitted as a struct that fits. -/
theorem fits_of_compiled (hρ : Compiled T ρ search)
    (h : layOutByName search k name = some (.ok l)) : Fits (ρ name) l.size := by
  induction k generalizing name l with
  | zero => cases h
  | succ k ih =>
    obtain ⟨j, c, call⟩ := layoutByName_new_iff.mpr ⟨_, h⟩
    rw [hρ name j l c call]
    rw [layOutByName] at h
    split at h
    · cases h
    · rename_i d hd
      obtain ⟨found, v, hl⟩ := laidOut_of_layOut h
      refine fits_emitStruct (fun m hm => ?_) hl
      obtain ⟨nested, hn⟩ := found m hm
      rw [sizeBy_of hn]
      exact ih hn

/-! The types of the nested messages exist. -/

theorem repr_congr {σ : Text → Repr} (fields : List LaidOutField)
    (h : ∀ f m, .real f ∈ fields → f.ty.reference = some m → ρ m = σ m) :
    entries T ρ fields = entries T σ fields := by
  apply List.map_congr_left
  intro e he
  cases e with
  | padding i size => rfl
  | real f =>
    obtain ⟨name, ty⟩ := f
    cases ty with
    | scalar s => rfl
    | scalarArray s n => rfl
    | nested m => exact h _ m he rfl
    | nestedArray m n =>
      simp only [emitField, rustTypeFor, RustType.repr]
      rw [h _ m he rfl]

theorem mem_pad {f : Field} (h : .real f ∈ p.pad.out) : .real f ∈ p.out := by
  simp only [Placing.pad] at h
  split at h
  · simpa using h
  · exact h

theorem mem_place {f g : Field} {size : Nat} (h : .real g ∈ (p.place f size).out) :
    g = f ∨ .real g ∈ p.out := by
  cases hr : f.ty.reference with
  | none =>
    rw [place_of_none hr] at h
    simpa [or_comm] using h
  | some m =>
    rw [place_of_some hr] at h
    obtain h | h := List.mem_append.mp h
    · exact .inr (mem_pad h)
    · exact .inl (by simpa using h)

theorem mem_placed {f : Field} (h : .real f ∈ (placed sizeOf fs p).out) :
    f ∈ fs ∨ .real f ∈ p.out := by
  induction fs generalizing p with
  | nil => exact .inr h
  | cons g fs ih =>
    obtain h | h := ih h
    · exact .inl (List.mem_cons_of_mem g h)
    · obtain rfl | h := mem_place h
      · exact .inl List.mem_cons_self
      · exact .inr h

theorem mem_laidOut {v : BitVec 32} {f : Field}
    (hl : l = laidOut d (placed sizeOf (sortFields d.fields) .start) v)
    (h : .real f ∈ l.fields) : f ∈ d.fields := by
  rw [hl] at h
  obtain h | h := mem_placed (mem_pad h)
  · exact (List.perm_insertionSort _ _).mem_iff.mp h
  · simp [Placing.start] at h

/-- The type of a name, its nested messages followed to depth `k`. -/
def reprTo (T : Target) (search : List Dir) : Nat → Text → Repr
  | 0, _ => ⟨0, 1⟩
  | k + 1, name =>
    match layOutByName search (k + 1) name with
    | some (.ok l) => (emitStruct l).repr T (reprTo T search k)
    | _ => ⟨0, 1⟩

theorem nested_of_layOutByName (h : layOutByName search (k + 1) name = some (.ok l)) {f : Field}
    {m : Text} (hf : .real f ∈ l.fields) (hm : f.ty.reference = some m) :
    ∃ l, layOutByName search k m = some (.ok l) := by
  rw [layOutByName] at h
  split at h
  · cases h
  · rename_i d hd
    obtain ⟨found, v, hl⟩ := laidOut_of_layOut h
    exact found m (mem_references.mpr ⟨f, mem_laidOut hl hf, hm⟩)

theorem reprTo_succ (h : layOutByName search (k + 1) name = some (.ok l)) :
    reprTo T search (k + 1) name = (emitStruct l).repr T (reprTo T search k) := by
  rw [reprTo, h]

theorem reprTo_le {j : Nat} (hkj : k ≤ j) (h : layOutByName search k name = some (.ok l)) :
    reprTo T search j name = reprTo T search k name := by
  induction k generalizing j name l with
  | zero => cases h
  | succ k ih =>
    obtain ⟨j, rfl⟩ : ∃ i, j = i + 1 := ⟨j - 1, by omega⟩
    rw [reprTo_succ h, reprTo_succ (layOutByName_le hkj h), EmittedStruct.repr,
      EmittedStruct.repr, entries_emitStruct, entries_emitStruct, repr_congr]
    intro f m hf hm
    obtain ⟨nested, hn⟩ := nested_of_layOutByName h hf hm
    exact ih (by omega) hn

open Classical in
/-- The type of each name that is laid out at all. -/
noncomputable def reprOf (T : Target) (search : List Dir) (name : Text) : Repr :=
  if h : ∃ k l, layOutByName search k name = some (.ok l) then reprTo T search h.choose name
  else ⟨0, 1⟩

theorem reprOf_eq (h : layOutByName search k name = some (.ok l)) :
    reprOf T search name = reprTo T search k name := by
  have laid : ∃ k l, layOutByName search k name = some (.ok l) := ⟨k, l, h⟩
  obtain ⟨l', h'⟩ := laid.choose_spec
  rw [reprOf, dif_pos laid, ← reprTo_le (Nat.le_max_left _ k) h',
    reprTo_le (Nat.le_max_right _ k) h]

theorem compiled_reprOf (T : Target) (search : List Dir) : Compiled T (reprOf T search) search := by
  intro name k l c call
  obtain ⟨j, h⟩ := layoutByName_new_iff.mp ⟨k, c, call⟩
  cases j with
  | zero => cases h
  | succ j =>
    rw [reprOf_eq h, reprTo_succ h, EmittedStruct.repr, EmittedStruct.repr, entries_emitStruct,
      entries_emitStruct, repr_congr]
    intro f m hf hm
    obtain ⟨nested, hn⟩ := nested_of_layOutByName h hf hm
    exact (reprOf_eq hn).symm

/-! Where nested messages start. -/

/-- The same structs, all aligned to 8. -/
def eightAligned (ρ : Text → Repr) (name : Text) : Repr := ⟨(ρ name).size, 8⟩

theorem fits_eightAligned {size : Nat} (h : Fits (ρ name) size) :
    Fits (eightAligned ρ name) size :=
  ⟨h.size_eq, h.dvd, Nat.succ_pos 7, Nat.dvd_refl 8⟩

theorem size_repr_eightAligned (t : RustType) :
    (t.repr T (eightAligned ρ)).size = (t.repr T ρ).size := by
  induction t with
  | prim p => rfl
  | path name => rfl
  | array elem n ih => simp [RustType.repr, array, ih]

theorem sizes_eightAligned (es : List LaidOutField) :
    sizes (entries T (eightAligned ρ) es) = sizes (entries T ρ es) := by
  induction es with
  | nil => rfl
  | cons e es ih =>
    rw [entries, entries, List.map_cons, List.map_cons, sizes, sizes, size_repr_eightAligned]
    exact congrArg _ ih

/-- Packed with every struct aligned to 8, a nested message starts at a multiple of 8. -/
theorem nested_start {es : List LaidOutField} (h : Packed 0 (entries T (eightAligned ρ) es))
    {i : Nat} {f : Field} {m : Text} (hi : es[i]? = some (.real f))
    (hm : f.ty.reference = some m) : 8 ∣ sizes ((entries T ρ es).take i) := by
  have ht : (entries T (eightAligned ρ) es)[i]? =
      some ((rustTypeFor f.ty).repr T (eightAligned ρ)) := by
    simp [entries, hi, emitField]
  have dvd := h.dvd i _ ht
  rwa [(sort_size_of_some hm).2, Nat.zero_add, entries, ← List.map_take,
    show sizes ((es.take i).map _) = sizes (entries T (eightAligned ρ) (es.take i)) from rfl,
    sizes_eightAligned, entries, List.map_take] at dvd

/-- On a resolver that lays out messages of the search path, and any other message last:
the emitted struct has no padding of its own, its nested messages start at multiples of 8,
and its size is the size of the layout, a multiple of 8. -/
theorem struct_layout (T : Target) {c c' : Cache} (hc : Filled search c)
    (h : layout search k d c = some (.ok l, c')) :
    (∃ ρ, Compiled T ρ search) ∧ ∀ ρ, Compiled T ρ search →
      (∀ i < (emitStruct l).fields.length, (offsets ((emitStruct l).entries T ρ))[i]? =
        some (sizes (((emitStruct l).entries T ρ).take i))) ∧
      (∀ (i : Nat) (f : Field) (m : Text),
        l.fields[i]? = some (.real f) → f.ty.reference = some m →
        ∃ o, (offsets ((emitStruct l).entries T ρ))[i]? = some o ∧ 8 ∣ o) ∧
      ((emitStruct l).repr T ρ).size = l.size ∧ 8 ∣ l.size := by
  refine ⟨⟨reprOf T search, compiled_reprOf T search⟩, fun ρ hρ => ?_⟩
  obtain ⟨⟨j, laid⟩, _⟩ := layOut_of_layoutWith agrees_layoutByName (sound_of_filled hc) h
  obtain ⟨found, v, hl⟩ := laidOut_of_layOut laid
  have fits (m : Text) (hm : m ∈ references d.fields) :
      Fits (ρ m) (sizeBy (layOutByName search j) m) := by
    obtain ⟨nested, hn⟩ := found m hm
    rw [sizeBy_of hn]
    exact fits_of_compiled hρ hn
  obtain ⟨packed, _, dvd, _⟩ := inv_laidOut (T := T) fits hl
  obtain ⟨wide, _⟩ := inv_laidOut (T := T) (fun m hm => fits_eightAligned (fits m hm)) hl
  have starts (i : Nat) (hi : i < (emitStruct l).fields.length) :
      (offsets ((emitStruct l).entries T ρ))[i]? =
        some (sizes (((emitStruct l).entries T ρ).take i)) := by
    rw [entries_emitStruct, offsets, packed.offsetsFrom i (by simpa [emitStruct, entries] using hi),
      Nat.zero_add]
  refine ⟨starts, ?_, (fits_emitStruct fits hl).size_eq, dvd⟩
  intro i f m hi hm
  refine ⟨_, starts i (by simpa [emitStruct] using (List.getElem?_eq_some_iff.mp hi).1), ?_⟩
  rw [entries_emitStruct]
  exact nested_start wide hi hm

/-- `Inner.msg` has 5 bytes of fields. -/
def files : List Dir := [[("Inner".toList, .text "uint32 a\nuint8 b".toList)]]

def outer : MsgDef where
  name := "Outer".toList
  snakeName := "outer".toList
  fields := [⟨"flag".toList, .scalar .u8⟩, ⟨"items".toList, .nestedArray "Inner".toList 2⟩,
    ⟨"none".toList, .scalarArray .u16 0⟩]
  constants := []
  topics := ["outer".toList]
  messageVersion := none

/-- Behind the empty array, the byte and 7 bytes of padding come the nested messages. -/
theorem struct_layout_outer :
    ∃ l c' ρ, layout files 2 outer Cache.new = some (.ok l, c') ∧ Compiled natural ρ files ∧
      (∃ o, (offsets ((emitStruct l).entries natural ρ))[3]? = some o ∧ 8 ∣ o) ∧
      ((emitStruct l).repr natural ρ).size = 24 := by
  obtain ⟨l, c', h, items, size⟩ : ∃ l c', layout files 2 outer Cache.new = some (.ok l, c') ∧
      l.fields[3]? = some (.real ⟨"items".toList, .nestedArray "Inner".toList 2⟩) ∧
      l.size = 24 := ⟨_, _, rfl, by decide, by decide⟩
  obtain ⟨⟨ρ, hρ⟩, all⟩ := struct_layout natural .new h
  obtain ⟨_, nested, total, _⟩ := all ρ hρ
  exact ⟨l, c', ρ, h, hρ, nested 3 _ _ items rfl, total.trans size⟩

end Px4Rs.Abi
