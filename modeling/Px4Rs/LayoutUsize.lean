import Px4Rs.Layout

/-! The layout with its sizes in a `usize`. It places the fields as the layout with unbounded
sizes does, and its sizes are those modulo the range of `usize`. -/
namespace Px4Rs.LayoutUsize
open Px4Rs.Message Px4Rs.Parser Px4Rs.Layout Function

/-- A sum or product that is no `usize` wraps around, or panics in a build that checks it. -/
inductive Overflow where
  | wraps | panics
deriving DecidableEq

def Overflow.usize (o : Overflow) (n : Nat) : Option Nat :=
  if n < 2 ^ usizeBits then some n
  else
    match o with
    | wraps => some (n % 2 ^ usizeBits)
    | panics => none

variable (search : List Dir) (o : Overflow)

def fieldTotalSize (byName : Cache → Text → Outcome LaidOutMsg) (c : Cache) :
    FieldType → Outcome Nat
  | .scalar s => some (.ok s.size, c)
  | .scalarArray s n => (o.usize (s.size * n)).map fun size => (.ok size, c)
  | .nested name => (byName c name).andThen fun l c => some (.ok l.size, c)
  | .nestedArray name n => (byName c name).andThen fun l c =>
      (o.usize (l.size * n)).map fun size => (.ok size, c)

def pad (p : Placing) : Option Placing :=
  let gap := alignGap p.sizeAccum alignTo
  if 0 < gap then
    (o.usize (p.sizeAccum + gap)).map fun size =>
      { out := p.out ++ [.padding p.paddingIdx gap]
        sizeAccum := size
        paddingIdx := p.paddingIdx + 1 }
  else some p

def place (p : Placing) (f : Field) (size : Nat) : Option Placing :=
  (match f.ty with
    | .nested _ | .nestedArray _ _ => pad o p
    | .scalar _ | .scalarArray _ _ => some p).bind fun (p : Placing) =>
  (o.usize (p.sizeAccum + size)).map fun sum =>
    { p with out := p.out ++ [LaidOutField.real f], sizeAccum := sum }

def placeFields (byName : Cache → Text → Outcome LaidOutMsg) :
    List Field → Placing → Cache → Outcome Placing
  | [], p, c => some (.ok p, c)
  | f :: fs, p, c =>
    (fieldTotalSize o byName c f.ty).andThen fun size c =>
      (place o p f size).bind fun p => placeFields byName fs p c

def padded (d : MsgDef) (p : Placing) (hash : BitVec 32) : LaidOutMsg where
  name := d.name
  snakeName := d.snakeName
  fields := p.out
  constants := d.constants
  topics := d.topics
  size := p.sizeAccum
  messageHash := hash

def layoutWith (byName : Cache → Text → Outcome LaidOutMsg)
    (hash : Option (Except ParseError (BitVec 32))) (d : MsgDef) (c : Cache) :
    Outcome LaidOutMsg :=
  (placeFields o byName (sortFields d.fields) .start c).andThen fun p c =>
    (pad o p).bind fun p =>
      match hash with
      | none => none
      | some (.error e) => some (.error e, c)
      | some (.ok h) => some (.ok (padded d p h), update c d.name (some (padded d p h)))

/-- `Resolver::layout_by_name`, to depth `k`. A panic ends the generator: it has no result. -/
def layoutByName : Nat → Cache → Text → Outcome LaidOutMsg
  | 0, _, _ => none
  | k + 1, c, name =>
    match c name with
    | some cached => some (.ok cached, c)
    | none =>
      match load search name with
      | .error e => some (.error e, c)
      | .ok d => layoutWith o (layoutByName k) (messageHash search (k + 1) d) d c

def layout (k : Nat) (d : MsgDef) (c : Cache) : Outcome LaidOutMsg :=
  layoutWith o (layoutByName search o k) (messageHash search (k + 1) d) d c

/-! Modulo the range of `usize`. -/

def reduce (l : LaidOutMsg) : LaidOutMsg := { l with size := l.size % 2 ^ usizeBits }
def reduceCache (c : Cache) : Cache := fun name => (c name).map reduce
def reducePlacing (p : Placing) : Placing := { p with sizeAccum := p.sizeAccum % 2 ^ usizeBits }

/-- What the first returns is what the second does, with its sizes reduced by `r`. -/
def Simulates {α : Type} (r : α → α) (x x₀ : Outcome α) : Prop :=
  ∀ res c, x = some (res, c) →
    ∃ res₀ c₀, x₀ = some (res₀, c₀) ∧ res = res₀.map r ∧ c = reduceCache c₀

variable {α β : Type} {r : α → α} {s : β → β} {x x₀ : Outcome α} {p p' : Placing} {c : Cache}

theorem simulates_ok (a : α) (c : Cache) :
    Simulates r (some (.ok (r a), reduceCache c)) (some (.ok a, c)) := by
  rintro _ _ ⟨⟩
  exact ⟨.ok a, c, rfl, rfl, rfl⟩

theorem simulates_error (e : ParseError) (c : Cache) :
    Simulates r (some (.error e, reduceCache c)) (some (.error e, c)) := by
  rintro _ _ ⟨⟩
  exact ⟨.error e, c, rfl, rfl, rfl⟩

theorem simulates_none : Simulates r none x₀ := by
  rintro _ _ ⟨⟩

theorem Simulates.andThen {f f₀ : α → Cache → Outcome β} (h : Simulates r x x₀)
    (step : ∀ a c, Simulates s (f (r a) (reduceCache c)) (f₀ a c)) :
    Simulates s (x.andThen f) (x₀.andThen f₀) := by
  intro res c hres
  match x, h with
  | none, _ => cases hres
  | some (res', c'), h =>
    obtain ⟨res₀, c₀, rfl, rfl, rfl⟩ := h res' c' rfl
    cases res₀ with
    | ok a => exact step a c₀ res c hres
    | error e =>
      cases hres
      exact ⟨.error e, c₀, rfl, rfl, rfl⟩

theorem simulates_bind {γ : Type} {y : Option γ} {g : γ → Outcome α}
    (h : ∀ a, y = some a → Simulates r (g a) x₀) : Simulates r (y.bind g) x₀ := by
  cases y with
  | none => exact simulates_none
  | some a => exact h a rfl

theorem usize_eq {n m : Nat} (h : o.usize n = some m) : m = n % 2 ^ usizeBits := by
  unfold Overflow.usize at h
  split at h
  · rename_i hn
    rw [Nat.mod_eq_of_lt hn]
    exact (Option.some.inj h).symm
  · cases o with
    | wraps => exact (Option.some.inj h).symm
    | panics => cases h

theorem alignGap_mod (n : Nat) : alignGap (n % 2 ^ usizeBits) alignTo = alignGap n alignTo := by
  have h : n % 2 ^ usizeBits % alignTo = n % alignTo :=
    Nat.mod_mod_of_dvd n (by decide : alignTo ∣ 2 ^ usizeBits)
  simp only [alignGap, h]

theorem pad_reduce (h : pad o (reducePlacing p) = some p') : p' = reducePlacing p.pad := by
  have gap : alignGap (reducePlacing p).sizeAccum alignTo = alignGap p.sizeAccum alignTo :=
    alignGap_mod p.sizeAccum
  simp only [pad, gap] at h
  simp only [Placing.pad]
  split_ifs at h ⊢ with hg
  · obtain ⟨size, hs, rfl⟩ := Option.map_eq_some_iff.mp h
    rw [usize_eq o hs]
    simp [reducePlacing]
  · exact (Option.some.inj h).symm

theorem place_reduce {f : Field} {size : Nat}
    (h : place o (reducePlacing p) f (size % 2 ^ usizeBits) = some p') :
    p' = reducePlacing (p.place f size) := by
  have push {q q' : Placing}
      (h : (o.usize ((reducePlacing q).sizeAccum + size % 2 ^ usizeBits)).map (fun sum =>
        { reducePlacing q with out := (reducePlacing q).out ++ [.real f], sizeAccum := sum }) =
          some q') :
      q' = reducePlacing { q with out := q.out ++ [.real f], sizeAccum := q.sizeAccum + size } := by
    obtain ⟨sum, hs, rfl⟩ := Option.map_eq_some_iff.mp h
    rw [usize_eq o hs]
    simp [reducePlacing, Nat.add_mod]
  unfold place at h
  unfold Placing.place
  cases hty : f.ty with
  | scalar | scalarArray =>
    simp only [hty, Option.bind_some] at h ⊢
    exact push h
  | nested | nestedArray =>
    simp only [hty] at h ⊢
    obtain ⟨q, hq, h⟩ := Option.bind_eq_some_iff.mp h
    rw [pad_reduce o hq] at h
    exact push h

section
variable {byName byName₀ : Cache → Text → Outcome LaidOutMsg}
  (sim : ∀ c name, Simulates reduce (byName (reduceCache c) name) (byName₀ c name))
include sim

theorem fieldTotalSize_simulates (c : Cache) (ty : FieldType) :
    Simulates (· % 2 ^ usizeBits) (fieldTotalSize o byName (reduceCache c) ty)
      (Layout.fieldTotalSize byName₀ c ty) := by
  have fits {n : Nat} {c : Cache} :
      Simulates (· % 2 ^ usizeBits)
        ((o.usize n).map fun size => ((.ok size, reduceCache c) : Except ParseError Nat × Cache))
        (some (.ok n, c)) := by
    rintro _ _ h
    obtain ⟨m, hm, h⟩ := Option.map_eq_some_iff.mp h
    cases h
    exact ⟨.ok n, c, rfl, by rw [usize_eq o hm]; rfl, rfl⟩
  cases ty with
  | scalar s =>
    have small : s.size % 2 ^ usizeBits = s.size := by cases s <;> rfl
    have h := simulates_ok (r := (· % 2 ^ usizeBits)) s.size c
    simp only [small] at h
    exact h
  | scalarArray s n => exact fits
  | nested name => exact (sim c name).andThen fun l c => simulates_ok l.size c
  | nestedArray name n =>
    refine (sim c name).andThen fun l c => ?_
    rintro res c' h
    obtain ⟨m, hm, h⟩ := Option.map_eq_some_iff.mp h
    cases h
    refine ⟨.ok (l.size * n), c, rfl, ?_, rfl⟩
    rw [usize_eq o hm]
    simp [reduce, Except.map, Nat.mul_mod]

theorem placeFields_simulates (fs : List Field) (p : Placing) (c : Cache) :
    Simulates reducePlacing (placeFields o byName fs (reducePlacing p) (reduceCache c))
      (Layout.placeFields byName₀ fs p c) := by
  induction fs generalizing p c with
  | nil => exact simulates_ok p c
  | cons f fs ih =>
    refine (fieldTotalSize_simulates o sim c f.ty).andThen fun size c =>
      simulates_bind fun q hq => ?_
    rw [place_reduce o hq]
    exact ih (p.place f size) c

theorem layoutWith_simulates (hash : Option (Except ParseError (BitVec 32))) (d : MsgDef)
    (c : Cache) :
    Simulates reduce (layoutWith o byName hash d (reduceCache c))
      (Layout.layoutWith byName₀ hash d c) := by
  have start : reducePlacing .start = .start := rfl
  have placed := placeFields_simulates o sim (sortFields d.fields) .start c
  rw [start] at placed
  refine placed.andThen fun p c => simulates_bind fun q hq => ?_
  rw [pad_reduce o hq]
  match hash with
  | none => exact simulates_none
  | some (.error e) => exact simulates_error e c
  | some (.ok h) =>
    have stored : reduceCache (update c d.name (some (laidOut d p h))) =
        update (reduceCache c) d.name (some (padded d (reducePlacing p.pad) h)) := by
      funext n
      by_cases hn : n = d.name
      · subst hn
        simp only [reduceCache, update_self]
        rfl
      · simp only [reduceCache, update_of_ne hn]
    have ok := simulates_ok (r := reduce) (laidOut d p h) (update c d.name (some (laidOut d p h)))
    rw [stored] at ok
    exact ok

end

theorem layoutByName_simulates (k : Nat) (c : Cache) (name : Text) :
    Simulates reduce (layoutByName search o k (reduceCache c) name)
      (Layout.layoutByName search k c name) := by
  induction k generalizing c name with
  | zero => exact simulates_none
  | succ k ih =>
    unfold layoutByName Layout.layoutByName
    cases hc : c name with
    | some l =>
      have cached : reduceCache c name = some (reduce l) := by simp [reduceCache, hc]
      rw [cached]
      exact simulates_ok l c
    | none =>
      have missed : reduceCache c name = none := by simp [reduceCache, hc]
      rw [missed]
      cases load search name with
      | error e => exact simulates_error e c
      | ok d => exact layoutWith_simulates o ih _ d c

theorem layout_simulates (k : Nat) (d : MsgDef) (c : Cache) :
    Simulates reduce (layout search o k d (reduceCache c)) (Layout.layout search k d c) :=
  layoutWith_simulates o (layoutByName_simulates search o k) _ d c

def Fits (c : Cache) : Prop := ∀ name l, c name = some l → l.size < 2 ^ usizeBits

theorem reduceCache_of_fits (h : Fits c) : reduceCache c = c := by
  funext name
  cases hc : c name with
  | none => simp [reduceCache, hc]
  | some l =>
    have small := Nat.mod_eq_of_lt (h name l hc)
    simp only [reduceCache, hc, Option.map_some, reduce, small]

theorem layoutWith_ok {byName : Cache → Text → Outcome LaidOutMsg}
    {hash : Option (Except ParseError (BitVec 32))} {d : MsgDef} {c c' : Cache} {l : LaidOutMsg}
    (h : layoutWith o byName hash d c = some (.ok l, c')) :
    ∃ p c₁, placeFields o byName (sortFields d.fields) .start c = some (.ok p, c₁) ∧
      hash = some (.ok l.messageHash) ∧ c' = update c₁ d.name (some l) := by
  rw [layoutWith] at h
  cases hp : placeFields o byName (sortFields d.fields) .start c with
  | none => simp [hp, Outcome.andThen] at h
  | some r =>
    obtain ⟨r, c₁⟩ := r
    cases r with
    | error e => simp [hp, Outcome.andThen] at h
    | ok p =>
      simp only [hp, Outcome.andThen] at h
      obtain ⟨q, _, h⟩ := Option.bind_eq_some_iff.mp h
      split at h
      · cases h
      · cases h
      · rename_i v
        cases h
        exact ⟨p, c₁, rfl, rfl, rfl⟩

end Px4Rs.LayoutUsize
