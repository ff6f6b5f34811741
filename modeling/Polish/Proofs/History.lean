import Mathlib.Data.Finset.Card
import Mathlib.Data.List.DropRight
import Polish.Env

namespace Polish.Env

-- What may happen to an environment.
inductive Change
  | set (name : String) (value : Value)
  | clear

namespace Change

def apply (env : Env) : Change → Env
  | .set name value => env.set name value
  | .clear          => env.clear

def name? : Change → Option String
  | .set name _ => some name
  | .clear      => none

end Change

-- What becomes of a new environment. The oldest change comes first.
def ofHistory (changes : List Change) : Env :=
  changes.foldl Change.apply empty

-- A name was bound to a value, and since then neither bound again nor forgotten.
def LastSet (name : String) (value : Value) (changes : List Change) : Prop :=
  ∃ before after, changes = before ++ .set name value :: after ∧
    .clear ∉ after ∧ ∀ other, .set name other ∉ after

-- The names that were bound since all were forgotten, each as often as it was bound.
def recentNames (changes : List Change) : List String :=
  (changes.rtakeWhile (·.name?.isSome)).filterMap Change.name?

variable {env : Env} {name : String} {value : Value} {changes : List Change} {change : Change}

theorem ofHistory_concat : ofHistory (changes ++ [change]) = change.apply (ofHistory changes) := by
  simp [ofHistory]

theorem lastSet_concat :
    LastSet name value (changes ++ [change]) ↔
      change = .set name value ∨
      LastSet name value changes ∧ change ≠ .clear ∧ ∀ other, change ≠ .set name other := by
  constructor
  case mp =>
    intro ⟨before, after, h, hc, hs⟩
    rcases List.eq_nil_or_concat after with rfl | ⟨after, last, rfl⟩
    case inl =>
      have ⟨_, h⟩ := List.append_inj' h rfl
      exact .inl (List.singleton_inj.mp h)
    case inr =>
      rw [List.concat_eq_append, ← List.cons_append, ← List.append_assoc] at h
      have ⟨h, hl⟩ := List.append_inj' h rfl
      rw [List.singleton_inj.mp hl]
      simp only [List.concat_eq_append, List.mem_append, List.mem_singleton, not_or] at hc hs
      exact .inr ⟨⟨before, after, h, hc.left, fun v => (hs v).left⟩, Ne.symm hc.right,
        fun v => Ne.symm (hs v).right⟩
  case mpr =>
    rintro (rfl | ⟨⟨before, after, rfl, hc, hs⟩, hnc, hns⟩)
    · exact ⟨changes, [], rfl, nofun, nofun⟩
    · refine ⟨before, after ++ [change], by simp, ?_, fun v => ?_⟩
      · simpa [hc] using hnc.symm
      · simpa [hs v] using (hns v).symm

theorem recentNames_concat_clear : recentNames (changes ++ [.clear]) = [] := by
  rw [recentNames, List.rtakeWhile_concat_neg _ _ _ Bool.false_ne_true]
  rfl

theorem recentNames_concat_set :
    recentNames (changes ++ [.set name value]) = recentNames changes ++ [name] := by
  rw [recentNames, List.rtakeWhile_concat_pos _ _ _ rfl, List.filterMap_append]
  rfl

-- Induction on the changes from the latest on, as `ofHistory` and the two descriptions all go by it.
theorem get?_ofHistory : (ofHistory changes).get? name = some value ↔ LastSet name value changes := by
  induction changes using List.reverseRecOn
  case nil => simp [ofHistory, LastSet]
  case append_singleton changes change hi =>
    rw [ofHistory_concat, lastSet_concat]
    cases change
    case clear => simp [Change.apply, clear]
    case set other v =>
      by_cases hn : name = other
      case pos => simp [Change.apply, hn]
      case neg => simp [Change.apply, get?_set_of_ne hn, hi, Ne.symm hn]

theorem contains_ofHistory : (ofHistory changes).contains name ↔ name ∈ recentNames changes := by
  induction changes using List.reverseRecOn
  case nil => simp [ofHistory, contains, recentNames]
  case append_singleton changes change hi =>
    rw [ofHistory_concat]
    cases change
    case clear => simp [Change.apply, clear, contains, recentNames_concat_clear]
    case set other v =>
      rw [recentNames_concat_set, List.mem_append, ← hi]
      by_cases hn : name = other
      case pos => simp [Change.apply, contains, hn]
      case neg => simp [Change.apply, contains, get?_set_of_ne hn, hn]

theorem contains_iff_mem : env.contains name ↔ name ∈ env.bindings.map (·.1) := by
  rw [contains, get?, List.lookup_isSome_iff]
  simp

-- No name is counted twice, since none has two bindings.
theorem size_eq_card {names : List String} (h : ∀ name, env.contains name ↔ name ∈ names) :
    env.size = names.toFinset.card := by
  have hn : (env.bindings.map (·.1)).toFinset = names.toFinset := by
    ext name
    rw [List.mem_toFinset, List.mem_toFinset, ← contains_iff_mem, h]
  rw [size, ← hn, List.toFinset_card_of_nodup env.nodup, List.length_map]

theorem reflects_history (changes : List Change) :
    (∀ name value, (ofHistory changes).get? name = some value ↔ LastSet name value changes) ∧
    (∀ name, (ofHistory changes).get? name = none ↔ name ∉ recentNames changes) ∧
    (∀ name, (ofHistory changes).contains name ↔ ∃ value, (ofHistory changes).get? name = some value) ∧
    (ofHistory changes).size = (recentNames changes).toFinset.card ∧
    ((ofHistory changes).isEmpty ↔ (ofHistory changes).size = 0) := by
  refine ⟨fun _ _ => get?_ofHistory, fun name => ?_, fun name => ?_, ?_, isEmpty_iff_size⟩
  · rw [← contains_ofHistory, contains, Option.not_isSome_iff_eq_none]
  · rw [contains, Option.isSome_iff_exists]
  · exact size_eq_card fun _ => contains_ofHistory

-- Names differ in their case, and a value of another kind takes the place of the one before.
example :
    let env := ofHistory [.set "y" .none, .clear, .set "x" (.text "a"), .set "X" .none, .set "x" .none]
    env.size = 2 ∧ env.get? "x" = some .none ∧ env.get? "y" = none := by
  decide

end Polish.Env
