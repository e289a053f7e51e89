import Px4Rs.Sizes

/-! The order in which the fields of messages are declared is no part of their sizes. -/
namespace Px4Rs.SizeOrder
open Px4Rs.Message Px4Rs.Layout Px4Rs.Uncached Px4Rs.Sizes

/-- Every message of the one search path is found on the other with the same fields, each file
in an order of its own. -/
def Reordered (search search' : List Dir) : Prop :=
  ∀ name d, load search name = .ok d →
    ∃ d', load search' name = .ok d' ∧ d.fields.Perm d'.fields

variable {search search' : List Dir} {sizeOf : Text → Nat} {fs fs' : List Field} {d d' : MsgDef}
  {name : Text} {n k k' : Nat} {o o' : LayoutUsize.Overflow} {l l' : LaidOutMsg} {c c' : Cache}

theorem dvd_up (n : Nat) : alignTo ∣ up n := by
  rw [up, alignGap, alignTo]
  split <;> omega

theorem up_add {m : Nat} (h : alignTo ∣ m) (n : Nat) : up (up n + m) = up n + m := by
  have aligned := (Nat.dvd_add_iff_right (dvd_up n)).mp h
  rw [up, alignGap, if_pos (Nat.mod_eq_zero_of_dvd aligned), Nat.add_zero]

theorem dvd_totalSize (h : ∀ m ∈ references fs, alignTo ∣ sizeOf m) {f : Field} (hf : f ∈ fs)
    (nested : isNested f = true) : alignTo ∣ totalSize sizeOf f.ty := by
  have named (m : Text) (hm : f.ty.reference = some m) : alignTo ∣ sizeOf m :=
    h m (mem_references.mpr ⟨f, hf, hm⟩)
  cases hty : f.ty with
  | scalar | scalarArray => simp [isNested, hty, FieldType.reference] at nested
  | nested m => exact named m (by rw [hty]; rfl)
  | nestedArray m n => exact Dvd.dvd.mul_right (named m (by rw [hty]; rfl)) n

theorem foldl_nested (h : ∀ f ∈ fs, alignTo ∣ totalSize sizeOf f.ty) (n : Nat) :
    up (fs.foldl (fun n f => up n + totalSize sizeOf f.ty) n) =
      up n + (fs.map fun f => totalSize sizeOf f.ty).sum := by
  induction fs generalizing n with
  | nil => rfl
  | cons f fs ih =>
    rw [List.foldl_cons, ih (fun g hg => h g (by simp [hg])), up_add (h f (by simp)),
      List.map_cons, List.sum_cons, Nat.add_assoc]

/-- The sum over the scalars, up to a multiple of `alignTo`, and the sum over the rest. -/
theorem messageSize_eq (h : ∀ m ∈ references fs, alignTo ∣ sizeOf m) :
    messageSize sizeOf fs =
      up ((fs.filter (! isNested ·)).map fun f => totalSize sizeOf f.ty).sum +
        ((fs.filter isNested).map fun f => totalSize sizeOf f.ty).sum :=
  foldl_nested (fun _ hf => dvd_totalSize h (List.mem_of_mem_filter hf)
    (List.of_mem_filter hf)) _

theorem references_perm (perm : fs.Perm fs') {m : Text} (hm : m ∈ references fs') :
    m ∈ references fs := by
  obtain ⟨f, hf, named⟩ := mem_references.mp hm
  exact mem_references.mpr ⟨f, perm.mem_iff.mpr hf, named⟩

theorem messageSize_perm (perm : fs.Perm fs')
    (h : ∀ m ∈ references fs, alignTo ∣ sizeOf m) :
    messageSize sizeOf fs = messageSize sizeOf fs' := by
  rw [messageSize_eq h, messageSize_eq fun m hm => h m (references_perm perm hm),
    ((perm.filter _).map _).sum_nat, ((perm.filter isNested).map _).sum_nat]

theorem hasSize_dvd (h : HasSize search Cache.new name n) : alignTo ∣ n := by
  cases h with
  | cached hc => cases hc
  | found _ _ _ => exact dvd_up _

theorem hasSize_reordered (r : Reordered search search') (h : HasSize search Cache.new name n) :
    HasSize search' Cache.new name n := by
  induction h with
  | cached hc => cases hc
  | found _ hd sized ih =>
    obtain ⟨d', found, perm⟩ := r _ _ hd
    rw [messageSize_perm perm fun m hm => hasSize_dvd (sized m hm)]
    exact .found rfl found fun m hm => ih m (references_perm perm hm)

/-- Two layouts of a message, with its fields declared in two orders, and with any orders in
the files of the messages that it nests, give it the same size. -/
theorem size_ignores_order (r : Reordered search search') (perm : d.fields.Perm d'.fields)
    (h : LayoutUsize.layout search o k d Cache.new = some (.ok l, c))
    (h' : LayoutUsize.layout search' o' k' d' Cache.new = some (.ok l', c')) :
    l.size = l'.size := by
  have fits : LayoutUsize.Fits Cache.new := by rintro _ _ ⟨⟩
  obtain ⟨sized, _, rfl⟩ := exists_layout fits h
  obtain ⟨_, _, rfl⟩ := exists_layout fits h'
  have same (m : Text) (hm : m ∈ references d'.fields) :
      theSize search Cache.new m = theSize search' Cache.new m :=
    (hasSize_reordered r (sized m (references_perm perm hm))).eq.symm
  have size : messageSize (theSize search Cache.new) d.fields =
      messageSize (theSize search' Cache.new) d'.fields := by
    rw [messageSize_perm perm fun m hm => hasSize_dvd (sized m hm), messageSize_congr same]
  simp only [LayoutUsize.reduce, laidOut, sizeAccum_placed, size]

def axisDir (file : String) : List Dir := [[("Axis".toList, .text file.toList)]]

def axes (fields : List Field) : MsgDef :=
  { name := "Axes".toList, snakeName := "axes".toList, fields := fields
    constants := [], topics := ["axes".toList], messageVersion := none }

theorem axis_reordered : Reordered (axisDir "uint8 a\nuint32 b") (axisDir "uint32 b\nuint8 a") := by
  intro name d hd
  by_cases axis : name = "Axis".toList
  · subst axis
    have parsed : load (axisDir "uint8 a\nuint32 b") "Axis".toList = .ok _ := rfl
    cases parsed.symm.trans hd
    exact ⟨_, rfl, by decide⟩
  · have differs : (name == ['A', 'x', 'i', 's']) = false := by simpa using axis
    have absent : find (axisDir "uint8 a\nuint32 b") name = .error (.unresolvedNested name) := by
      simp [find, axisDir, List.lookup_cons, differs]
    rw [load, absent] at hd
    cases hd

def axisField : Field := ⟨"x".toList, .nested "Axis".toList⟩
def countField : Field := ⟨"n".toList, .scalar .u8⟩

theorem size_ignores_order_axes : ∃ l c l' c',
    LayoutUsize.layout (axisDir "uint8 a\nuint32 b") .wraps 1 (axes [axisField, countField])
      Cache.new = some (.ok l, c) ∧
    LayoutUsize.layout (axisDir "uint32 b\nuint8 a") .panics 2 (axes [countField, axisField])
      Cache.new = some (.ok l', c') ∧ l.size = l'.size := by
  obtain ⟨l, c, h⟩ : ∃ l c, LayoutUsize.layout (axisDir "uint8 a\nuint32 b") .wraps 1
    (axes [axisField, countField]) Cache.new = some (.ok l, c) := ⟨_, _, rfl⟩
  obtain ⟨l', c', h'⟩ : ∃ l c, LayoutUsize.layout (axisDir "uint32 b\nuint8 a") .panics 2
    (axes [countField, axisField]) Cache.new = some (.ok l, c) := ⟨_, _, rfl⟩
  exact ⟨l, c, l', c', h, h', size_ignores_order axis_reordered (.swap _ _ _) h h'⟩

end Px4Rs.SizeOrder
