namespace Polish

section Runs

variable {α : Type} {p : α → Bool} {run rest : List α}

-- A run of elements of one kind is all that is taken if none of the kind follows.
theorem takeWhile_run (h : ∀ a ∈ run, p a) (hr : ∀ a ∈ rest.head?, ¬p a) :
    (run ++ rest).takeWhile p = run := by
  rw [List.takeWhile_append_of_pos h]
  cases rest
  case nil  => simp
  case cons => simp [hr _ rfl]

theorem dropWhile_run (h : ∀ a ∈ run, p a) (hr : ∀ a ∈ rest.head?, ¬p a) :
    (run ++ rest).dropWhile p = rest := by
  rw [List.dropWhile_append_of_pos h]
  cases rest
  case nil  => simp
  case cons => simp [hr _ rfl]

-- All runs of a kind, in order.
def runs (p : α → Bool) (as : List α) : List (List α) :=
  (as.splitOnP (!p ·)).filter (!·.isEmpty)

theorem runs_none (h : ∀ a ∈ run, !p a) : runs p (run ++ rest) = runs p rest := by
  induction run
  case nil          => rfl
  case cons a as hi =>
    obtain ⟨ha, has⟩ := List.forall_mem_cons.mp h
    rw [← hi has, runs, List.cons_append, List.splitOnP_cons_eq_if_modifyHead, if_pos ha]
    simp [runs]

theorem runs_run (h : ∀ a ∈ run, p a) (hn : run ≠ []) : runs p run = [run] := by
  rw [runs, List.splitOnP_eq_singleton (by simpa using h)]
  simp [hn]

theorem runs_run_cons {stop : α} (h : ∀ a ∈ run, p a) (hn : run ≠ []) (hs : !p stop) :
    runs p (run ++ stop :: rest) = run :: runs p (stop :: rest) := by
  have hr : runs p ([stop] ++ rest) = runs p rest := runs_none (by simpa using hs)
  rw [List.singleton_append] at hr
  rw [hr, runs, List.splitOnP_append_cons_of_forall_mem (by simpa using h) stop hs]
  simp [runs, hn]

end Runs
end Polish
