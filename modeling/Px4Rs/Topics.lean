import Px4Rs.EmitItems
import Px4Rs.Items

/-! The topics of a file with any number of `# TOPICS` lines. The last of these lines takes the
place of all before it. -/
namespace Px4Rs.Topics
open Px4Rs.Message Px4Rs.Parser Px4Rs.Layout Px4Rs.Items Px4Rs.EmitItems Px4Rs.LayoutUsize
variable {name text l : Text} {d : MsgDef} {i : Option Item} {names : List Text}

def directive (l : Text) : Option (List Text) :=
  match stripPrefix ['#'] (trim l) with
  | some rest => (stripPrefix "TOPICS".toList (trim rest)).map splitWhitespace
  | none => none

def directives (text : Text) : List (List Text) := (lines text).filterMap directive

/-- The topics are all that are listed, and each that is listed is emitted. -/
def NoTopicLost (name text : Text) (d : MsgDef) : Prop :=
  d.topics = (if directives text = [] then [camelToSnake name] else (directives text).flatten) ∧
    ∀ (search : List Dir) (o : Overflow) (k : Nat) (c c' : Cache) (laid : LaidOutMsg)
      (T : Tokens) (paths : EmitPaths) (e : Emitted), Fits c →
      LayoutUsize.layout search o k d c = some (.ok laid, c') →
      emitWithPaths T paths laid = some e → ∀ n ∈ (directives text).flatten,
        n ∈ e.topicLits ∧ ∃ item ∈ e.topicItems, item.topicIdent = n

theorem codeItem_topics {n : Nat} {code : Text} (h : codeItem n code = .ok i) :
    i.bind Item.topics? = none := by
  unfold codeItem at h
  split_ifs at h
  · cases h
    rfl
  · split at h
    · rename_i lhs rhs _
      cases hk : parseConstant n lhs rhs with
      | error e => simp [hk, Except.map] at h
      | ok c =>
        rw [hk] at h
        cases h
        rfl
    · cases hf : parseField n code with
      | error e => simp [hf, Except.map] at h
      | ok f =>
        rw [hf] at h
        cases h
        rfl

theorem directive_of_reads (h : Reads l i) :
    directive l = i.bind Item.topics? ∧ ∀ names ∈ directive l, names ≠ [] := by
  have h := h 0
  unfold lineItem at h
  unfold directive
  cases hs : stripPrefix ['#'] (trim l) with
  | none =>
    simp only [hs] at h ⊢
    exact ⟨(codeItem_topics h).symm, by simp⟩
  | some rest =>
    simp only [hs, hashItem] at h ⊢
    cases hl : stripPrefix "TOPICS".toList (trim rest) with
    | none =>
      simp only [hl] at h
      cases h
      exact ⟨rfl, by simp⟩
    | some list =>
      simp only [hl] at h
      split_ifs at h with hn
      cases h
      exact ⟨rfl, by simpa using hn⟩

theorem directives_of_reads {ls : List Text} {is : List (Option Item)}
    (h : List.Forall₂ Reads ls is) : ls.filterMap directive = topicsOf is.reduceOption := by
  induction h with
  | nil => rfl
  | @cons l i ls is hl _ ih =>
    rw [List.filterMap_cons, (directive_of_reads hl).1, ih]
    cases i with
    | none => rfl
    | some i =>
      rw [List.reduceOption_cons_of_some, topicsOf_cons]
      cases h : i.topics? <;> simp [h]

theorem ne_nil_of_mem_directives (h : parseStr name text = .ok d)
    (hn : names ∈ directives text) : names ≠ [] := by
  obtain ⟨is, reads, _⟩ := parseStr_ok.mp h
  obtain ⟨l, hl, hd⟩ := List.mem_filterMap.mp hn
  obtain ⟨k, hk, rfl⟩ := List.mem_iff_getElem.mp hl
  have read := reads.get hk (reads.length_eq ▸ hk)
  exact (directive_of_reads read).2 names hd

theorem topics_of_parseStr (h : parseStr name text = .ok d) :
    d.topics = (directives text).getLast?.getD [camelToSnake name] := by
  obtain ⟨is, reads, rfl⟩ := parseStr_ok.mp h
  rw [directives, directives_of_reads reads, msgDef_topics]

theorem topics_kept_iff (h : parseStr name text = .ok d) :
    NoTopicLost name text d ↔ (directives text).length ≤ 1 := by
  have topics := topics_of_parseStr h
  constructor
  · rintro ⟨all, _⟩
    obtain none | ⟨init, last, split⟩ := List.eq_nil_or_concat (directives text)
    · simp [none]
    · rw [List.concat_eq_append] at split
      rw [topics, split, List.getLast?_concat, if_neg (by simp)] at all
      have rest : init.flatten = [] := by simpa using all
      have none : init = [] := by
        refine List.eq_nil_iff_forall_not_mem.mpr fun names hn => ?_
        refine ne_nil_of_mem_directives h (split ▸ List.mem_append_left _ hn) ?_
        exact List.flatten_eq_nil_iff.mp rest names hn
      simp [split, none]
  · intro once
    have all : d.topics =
        if directives text = [] then [camelToSnake name] else (directives text).flatten := by
      rw [topics]
      match hd : directives text, once with
      | [], _ => rfl
      | [names], _ => simp
    refine ⟨all, fun search o k c c' laid T paths e fits hl he n hn => ?_⟩
    have some : directives text ≠ [] := by
      rintro none
      simp [none] at hn
    rw [if_neg some] at all
    obtain ⟨same, _⟩ := size_of_layout fits hl
    have listed : n ∈ laid.topics := by rwa [same, all]
    obtain ⟨_, lits, items⟩ := emitWithPaths_some he
    rw [lits, items]
    exact ⟨listed, _, List.mem_map_of_mem listed, rfl⟩

theorem topics_kept_iff_gyro : ∃ d,
    parseStr "Gyro".toList "# TOPICS gyro gyro_sim\n".toList = .ok d ∧
      (NoTopicLost "Gyro".toList "# TOPICS gyro gyro_sim\n".toList d ↔
        (directives "# TOPICS gyro gyro_sim\n".toList).length ≤ 1) := by
  have h : parseStr "Gyro".toList "# TOPICS gyro gyro_sim\n".toList = .ok _ := rfl
  exact ⟨_, h, topics_kept_iff h⟩

/-- Of two lines the first is forgotten. -/
theorem topics_lost : ¬ ∀ (name text : Text) (d : MsgDef), parseStr name text = .ok d →
    NoTopicLost name text d := by
  intro claim
  have h : parseStr "Gyro".toList "# TOPICS gyro\n# TOPICS gyro_sim\n".toList = .ok _ := rfl
  have all := (claim _ _ _ h).1
  revert all
  decide

end Px4Rs.Topics
