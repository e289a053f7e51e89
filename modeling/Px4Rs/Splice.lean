import Px4Rs.Walk

/-! Documents that include one another. The text of a list of entries is theirs in order, and
right after an entry that includes a document comes, once, the text of that document. -/
namespace Px4Rs.Splice
open Px4Rs.Walk
variable {N α : Type*}

structure Entry (N α : Type*) where
  text : List α
  target : Option N

/-- What a list of entries includes, in order. -/
def targets (es : List (Entry N α)) : List N := es.filterMap Entry.target

section
variable (docs : N → Option (List (Entry N α)))

inductive Splices : List (Entry N α) → List α → Prop
  | nil : Splices [] []
  | plain {e : Entry N α} {es : List (Entry N α)} {s : List α} (target : e.target = none)
      (rest : Splices es s) : Splices (e :: es) (e.text ++ s)
  | including {e : Entry N α} {es inner : List (Entry N α)} {n : N} {t s : List α}
      (target : e.target = some n) (found : docs n = some inner) (part : Splices inner t)
      (rest : Splices es s) : Splices (e :: es) (e.text ++ (t ++ s))

/-- The documents included, directly or not. -/
inductive Below : List (Entry N α) → N → Prop
  | here {es : List (Entry N α)} {n : N} (mem : n ∈ targets es) : Below es n
  | deeper {es inner : List (Entry N α)} {n m : N} (mem : n ∈ targets es)
      (found : docs n = some inner) (below : Below inner m) : Below es m

/-- What a document includes, if there is one of the name. -/
def included (n : N) : Option (List N) := (docs n).map targets

end

variable {docs docs' : N → Option (List (Entry N α))} {e : Entry N α} {es : List (Entry N α)}
  {n m : N} {s t : List α}

theorem targets_cons_none (h : e.target = none) (es : List (Entry N α)) :
    targets (e :: es) = targets es :=
  List.filterMap_cons_none h

theorem targets_cons_some (h : e.target = some n) (es : List (Entry N α)) :
    targets (e :: es) = n :: targets es :=
  List.filterMap_cons_some h

theorem Splices.unique (hs : Splices docs es s) (ht : Splices docs es t) : s = t := by
  induction hs generalizing t with
  | nil =>
    cases ht
    rfl
  | plain target _ ih =>
    cases ht with
    | plain _ rest => rw [ih rest]
    | including target' => simp [target] at target'
  | including target found _ _ part rest =>
    cases ht with
    | plain target' => simp [target] at target'
    | including target' found' part' rest' =>
      cases target.symm.trans target'
      cases found.symm.trans found'
      rw [part part', rest rest']

theorem mem_targets_cons (e : Entry N α) (h : n ∈ targets es) : n ∈ targets (e :: es) := by
  obtain ⟨f, hf, target⟩ := List.mem_filterMap.mp h
  exact List.mem_filterMap.mpr ⟨f, List.mem_cons_of_mem e hf, target⟩

theorem Below.cons (e : Entry N α) (h : Below docs es n) : Below docs (e :: es) n := by
  cases h with
  | here mem => exact .here (mem_targets_cons e mem)
  | deeper mem found below => exact .deeper (mem_targets_cons e mem) found below

theorem Splices.congr (h : Splices docs es s) (same : ∀ n, Below docs es n → docs' n = docs n) :
    Splices docs' es s := by
  induction h with
  | nil => exact .nil
  | plain target _ ih => exact .plain target (ih fun n hn => same n (hn.cons _))
  | @including e es inner n t s target found part rest ihp ihr =>
    have mem : n ∈ targets (e :: es) := targets_cons_some target es ▸ List.mem_cons_self
    exact .including target ((same n (.here mem)).trans found)
      (ihp fun m hm => same m (.deeper mem found hm)) (ihr fun m hm => same m (hm.cons e))

/-- There is a text once the part of each document included is there. -/
theorem exists_of_parts (parts : ∀ n ∈ targets es, ∃ inner t, docs n = some inner ∧
    Splices docs inner t) : ∃ s, Splices docs es s := by
  induction es with
  | nil => exact ⟨[], .nil⟩
  | cons e es ih =>
    cases target : e.target with
    | none =>
      obtain ⟨s, rest⟩ := ih fun n hn => parts n (targets_cons_none target es ▸ hn)
      exact ⟨_, .plain target rest⟩
    | some n =>
      rw [targets_cons_some target] at parts
      obtain ⟨inner, t, found, part⟩ := parts n List.mem_cons_self
      obtain ⟨s, rest⟩ := ih fun m hm => parts m (List.mem_cons_of_mem n hm)
      exact ⟨_, .including target found part rest⟩

theorem part_of_resolves (h : Resolves (included docs) n) :
    ∃ inner t, docs n = some inner ∧ Splices docs inner t := by
  induction h with
  | intro found _ ih =>
    obtain ⟨inner, here, rfl⟩ := Option.map_eq_some_iff.mp found
    obtain ⟨t, part⟩ := exists_of_parts ih
    exact ⟨inner, t, here, part⟩

theorem exists_splices (h : ∀ n ∈ targets es, Resolves (included docs) n) :
    ∃ s, Splices docs es s :=
  exists_of_parts fun n hn => part_of_resolves (h n hn)

end Px4Rs.Splice
