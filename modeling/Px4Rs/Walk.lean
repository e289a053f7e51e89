import Mathlib.Data.Fintype.Order
import Mathlib.Data.Set.Finite.Basic
import Mathlib.Logic.Relation

/-! Depth-first resolution of references: each node names others, in order, and a node
fails when it is not found or when one it names fails, which ends its visit. -/
namespace Px4Rs.Walk
open Relation
variable {ν : Type*}

/-- Visit the nodes in order until one fails. -/
def walkList (visit : ν → Option Bool) : List ν → Option Bool
  | [] => some true
  | n :: ns =>
    match visit n with
    | some true => walkList visit ns
    | r => r

/-- Visit a node, to depth `k`: whether it resolves, or `none` when the depth is used up. -/
def walk (children : ν → Option (List ν)) : Nat → ν → Option Bool
  | 0, _ => none
  | k + 1, n =>
    match children n with
    | none => some false
    | some ns => walkList (walk children k) ns

/-- The node and all it names, directly or not, are found, and none names itself. -/
inductive Resolves (children : ν → Option (List ν)) : ν → Prop
  | intro {n : ν} {ns : List ν} (found : children n = some ns)
      (all : ∀ m ∈ ns, Resolves children m) : Resolves children n

variable (children : ν → Option (List ν))

/-- The visit of a list comes to `m`: all before it resolve. -/
def Reached (ns : List ν) (m : ν) : Prop :=
  ∃ before after, ns = before ++ m :: after ∧ ∀ x ∈ before, Resolves children x

/-- The visit of `n` comes to `m`. -/
def Uses (n m : ν) : Prop := ∃ ns, children n = some ns ∧ Reached children ns m

/-- No visit that starts with the list comes back to a node it is visiting. -/
def NoCycle (ns : List ν) : Prop :=
  ∀ m, Reached children ns m → ∀ u, ReflTransGen (Uses children) m u →
    ¬ TransGen (Uses children) u u

variable {children} {ns before rest : List ν} {n m : ν} {b : Bool} {k j : Nat}

theorem walkList_append {visit : ν → Option Bool} (h : ∀ x ∈ before, visit x = some true) :
    walkList visit (before ++ rest) = walkList visit rest := by
  induction before with
  | nil => rfl
  | cons x xs ih =>
    rw [List.cons_append, walkList, h x (by simp)]
    exact ih fun y hy => h y (by simp [hy])

theorem walkList_mono {f g : ν → Option Bool} (hfg : ∀ n b, f n = some b → g n = some b)
    (h : walkList f ns = some b) : walkList g ns = some b := by
  induction ns with
  | nil => exact h
  | cons n ns ih =>
    rw [walkList] at h ⊢
    cases hn : f n with
    | none => simp [hn] at h
    | some c =>
      rw [hfg n c hn]
      cases c with
      | true => exact ih (by simpa [hn] using h)
      | false => simpa [hn] using h

theorem walk_succ (h : walk children k n = some b) : walk children (k + 1) n = some b := by
  induction k generalizing n b with
  | zero => cases h
  | succ k ih =>
    rw [walk] at h ⊢
    cases hc : children n with
    | none => simpa [hc] using h
    | some ns =>
      simp only [hc] at h ⊢
      exact walkList_mono (fun n b => ih) h

theorem walk_le (hkj : k ≤ j) (h : walk children k n = some b) : walk children j n = some b := by
  induction hkj with
  | refl => exact h
  | step _ ih => exact walk_succ ih

theorem walk_unique {b c : Bool} (hb : walk children k n = some b)
    (hc : walk children j n = some c) : b = c := by
  have hb := walk_le (Nat.le_max_left k j) hb
  rw [walk_le (Nat.le_max_right k j) hc] at hb
  exact (Option.some.inj hb).symm

theorem walkList_le (hkj : k ≤ j) (h : walkList (walk children k) ns = some b) :
    walkList (walk children j) ns = some b :=
  walkList_mono (fun _ _ => walk_le hkj) h

theorem walkList_unique {b c : Bool} (hb : walkList (walk children k) ns = some b)
    (hc : walkList (walk children j) ns = some c) : b = c := by
  have hb := walkList_le (Nat.le_max_left k j) hb
  rw [walkList_le (Nat.le_max_right k j) hc] at hb
  exact (Option.some.inj hb).symm

theorem walkList_true {visit : ν → Option Bool} (h : walkList visit ns = some true) :
    ∀ n ∈ ns, visit n = some true := by
  induction ns with
  | nil => simp
  | cons n ns ih =>
    rw [walkList] at h
    split at h
    · rename_i hn
      simpa [hn] using ih h
    · rename_i hn
      exact absurd h hn

theorem resolves_of_walk (h : walk children k n = some true) : Resolves children n := by
  induction k generalizing n with
  | zero => cases h
  | succ k ih =>
    rw [walk] at h
    cases hc : children n with
    | none => simp [hc] at h
    | some ns =>
      simp only [hc] at h
      exact .intro hc fun m hm => ih (walkList_true h m hm)

theorem exists_depth (h : ∀ m ∈ ns, ∃ k, walk children k m = some true) :
    ∃ k, ∀ m ∈ ns, walk children k m = some true := by
  induction ns with
  | nil => exact ⟨0, by simp⟩
  | cons n ns ih =>
    obtain ⟨k, hk⟩ := h n (by simp)
    obtain ⟨j, hj⟩ := ih fun m hm => h m (by simp [hm])
    refine ⟨max k j, ?_⟩
    simp only [List.mem_cons, forall_eq_or_imp]
    exact ⟨walk_le (Nat.le_max_left k j) hk,
      fun m hm => walk_le (Nat.le_max_right k j) (hj m hm)⟩

theorem walkList_of_all (h : ∀ m ∈ ns, walk children k m = some true) :
    walkList (walk children k) ns = some true := by
  have all : walkList (walk children k) (ns ++ []) = some true := walkList_append h
  rwa [List.append_nil] at all

theorem Resolves.walk (h : Resolves children n) : ∃ k, walk children k n = some true := by
  induction h with
  | intro found _ ih =>
    obtain ⟨k, hk⟩ := exists_depth ih
    exact ⟨k + 1, by simpa [Walk.walk, found] using walkList_of_all hk⟩

/-- A visit that ends has ended the visit of every node it came to. -/
theorem walk_of_reached (h : walkList (walk children k) ns = some b) (hm : Reached children ns m) :
    ∃ c, walk children k m = some c := by
  obtain ⟨before, after, rfl, resolved⟩ := hm
  induction before with
  | nil =>
    rw [List.nil_append, walkList] at h
    cases hm : walk children k m with
    | none => simp [hm] at h
    | some c => exact ⟨c, rfl⟩
  | cons x xs ih =>
    have rest := fun y hy => resolved y (List.mem_cons_of_mem x hy)
    rw [List.cons_append, walkList] at h
    split at h
    · exact ih rest h
    · rename_i hx
      obtain ⟨j, hj⟩ := (resolved x (by simp)).walk
      cases b with
      | true => exact absurd h hx
      | false => exact absurd (walk_unique h hj) (by simp)

/-- A list is resolved, or the visit comes to a first node that is not. -/
theorem resolves_or_reached (children : ν → Option (List ν)) (ns : List ν) :
    (∀ m ∈ ns, Resolves children m) ∨
    ∃ before m after, ns = before ++ m :: after ∧ (∀ x ∈ before, Resolves children x) ∧
      ¬ Resolves children m := by
  induction ns with
  | nil => exact .inl (by simp)
  | cons n ns ih =>
    by_cases hn : Resolves children n
    · obtain all | ⟨before, m, after, rfl, hb, hm⟩ := ih
      · exact .inl (by simpa [hn] using all)
      · exact .inr ⟨n :: before, m, after, rfl, by simpa [hn] using hb, hm⟩
    · exact .inr ⟨[], n, ns, rfl, by simp, hn⟩

theorem walkList_of_reached
    (h : ∀ m, Reached children ns m → ∃ k c, walk children k m = some c) :
    ∃ k c, walkList (walk children k) ns = some c := by
  obtain all | ⟨before, m, after, rfl, resolved, hm⟩ := resolves_or_reached children ns
  · obtain ⟨k, hk⟩ := exists_depth fun m hm => (all m hm).walk
    exact ⟨k, true, walkList_of_all hk⟩
  · obtain ⟨k, hk⟩ := exists_depth fun x hx => (resolved x hx).walk
    obtain ⟨j, c, hj⟩ := h m ⟨before, after, rfl, resolved⟩
    have failed : c = false := by
      cases c with
      | true => exact absurd (resolves_of_walk hj) hm
      | false => rfl
    refine ⟨max k j, false, ?_⟩
    rw [walkList_append fun x hx => walk_le (Nat.le_max_left k j) (hk x hx), walkList,
      walk_le (Nat.le_max_right k j) hj, failed]

theorem acc_of_walk (h : walk children k n = some b) :
    Acc (fun m n => Uses children n m) n := by
  induction k generalizing n b with
  | zero => cases h
  | succ k ih =>
    refine .intro n fun m ⟨ns, found, reached⟩ => ?_
    obtain ⟨c, hc⟩ := walk_of_reached (b := b) (by simpa [walk, found] using h) reached
    exact ih hc

theorem walk_of_acc (h : Acc (fun m n => Uses children n m) n) :
    ∃ k b, walk children k n = some b := by
  induction h with
  | intro n _ ih =>
    cases found : children n with
    | none => exact ⟨1, false, by simp [walk, found]⟩
    | some ns =>
      obtain ⟨k, b, hk⟩ := walkList_of_reached fun m hm => ih m ⟨ns, found, hm⟩
      exact ⟨k + 1, b, by simpa [walk, found] using hk⟩

theorem not_cycle_of_acc (h : Acc (fun m n => Uses children n m) n) :
    ¬ TransGen (Uses children) n n := by
  have acc := h.transGen
  induction acc with
  | intro n _ ih =>
    intro cycle
    exact ih n (transGen_swap.mpr cycle) h cycle

theorem acc_of_no_cycle (finite : {u | ReflTransGen (Uses children) n u}.Finite)
    (h : ∀ u, ReflTransGen (Uses children) n u → ¬ TransGen (Uses children) u u) :
    Acc (fun m n => Uses children n m) n := by
  let S := {u | ReflTransGen (Uses children) n u}
  have : Finite S := finite
  let r : S → S → Prop := fun a b => TransGen (Uses children) b.1 a.1
  have : IsTrans S r := ⟨fun a b c hab hbc => hbc.trans hab⟩
  have : Std.Irrefl r := ⟨fun a => h a.1 a.2⟩
  have wf : WellFounded r := Finite.wellFounded_of_trans_of_irrefl r
  suffices ∀ a : S, Acc (fun m n => Uses children n m) a.1 from this ⟨n, .refl⟩
  intro a
  induction a using wf.induction with
  | _ a ih => exact .intro _ fun m hm => ih ⟨m, a.2.tail hm⟩ (.single hm)

/-- A visit of a list ends exactly when it comes into no cycle. -/
theorem walkList_ends_iff
    (finite : ∀ m ∈ ns, {u | ReflTransGen (Uses children) m u}.Finite) :
    (∃ k b, walkList (walk children k) ns = some b) ↔ NoCycle children ns := by
  constructor
  · rintro ⟨k, b, h⟩ m hm u hu
    obtain ⟨c, hc⟩ := walk_of_reached h hm
    have acc := acc_of_walk hc
    clear hc hm
    induction hu using ReflTransGen.head_induction_on with
    | refl => exact not_cycle_of_acc acc
    | head step _ ih => exact ih (acc.inv step)
  · intro h
    refine walkList_of_reached fun m hm => walk_of_acc (acc_of_no_cycle ?_ (h m hm))
    obtain ⟨before, after, rfl, _⟩ := hm
    exact finite m (by simp)

end Px4Rs.Walk
