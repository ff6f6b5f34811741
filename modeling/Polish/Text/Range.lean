namespace Polish.Text

-- Code point ranges in ascending order, both ends included.
abbrev Ranges := List (Nat × Nat)

namespace Ranges

def contains (n : Nat) : Ranges → Bool
  | []              => false
  | (lo, hi) :: rest => lo ≤ n && (n ≤ hi || contains n rest)

theorem exists_of_contains {n : Nat} {rs : Ranges} (h : rs.contains n) :
    ∃ r ∈ rs, r.1 ≤ n ∧ n ≤ r.2 := by
  induction rs
  case nil            => cases h
  case cons r rest hi =>
    simp only [contains, Bool.and_eq_true, Bool.or_eq_true, decide_eq_true_eq] at h
    rcases h with ⟨hl, hr | hr⟩
    case inl => exact ⟨r, List.mem_cons_self, hl, hr⟩
    case inr =>
      obtain ⟨r', hm, hb⟩ := hi hr
      exact ⟨r', List.mem_cons_of_mem _ hm, hb⟩

end Ranges
end Polish.Text
