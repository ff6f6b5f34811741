import Mathlib.Data.List.Forall2
import Polish.Proofs.Lines
import Polish.Proofs.Parsing
import Polish.Session

namespace Polish

open Grammar

theorem Machine.exec_tryCatch {α : Type} (m : Machine) (x : Eval α) (f : Error → Eval α) :
    m.exec (tryCatch x f) =
      match m.exec x with
      | (.ok a, m')    => (.ok a, m')
      | (.error e, m') => m'.exec (f e) := by
  simp only [exec, tryCatch, tryCatchThe, MonadExceptOf.tryCatch, ExceptT.tryCatch, ExceptT.mk, bind,
    StateT.bind]
  rcases x m with ⟨_ | _, _⟩ <;> rfl

-- One more parenthesis around some tokens makes them one level deeper at the most.
theorem deepest_le_succ {m n : Nat} (h : m ≤ n + 1) (ts : List Token) :
    deepest m ts ≤ deepest n ts + 1 := by
  induction ts generalizing m n
  case nil          => exact h
  case cons t ts hi =>
    have hl : t.level m ≤ t.level n + 1 := by
      simp only [Token.level]
      split <;> omega
    have := hi hl
    simp only [deepest]
    omega

namespace Session

-- Runs sources in turn, up to the first one that fails.
def runAll : List String → Eval Unit
  | []                => return
  | source :: sources => do
    let _ ← run source
    runAll sources

-- The sources as the arguments of one program, each on lines of its own.
def batch (sources : List String) : String :=
  "(program\n" ++ String.join (sources.map (· ++ "\n")) ++ ")"

-- A source that spells a tree, ends outside of literals and leaves room for one more parenthesis.
structure Statement (source : String) (tree : Tree) : Prop where
  closes  : ClosesLiterals source
  parses  : parse (tokenize source) = .ok tree
  nesting : nesting (tokenize source) ≤ 255

-- What comes of a source if this comes of its tree.
def conclude : Except Error Value × Machine → Except Error (Option Value) × Machine
  | (.ok v, m)    => (.ok (some v), m)
  | (.error e, m) => (.error e, { m with env := .empty })

theorem exec_cycle_of_parse {source : String} {tree : Tree} (h : parse (tokenize source) = .ok tree)
    (m : Machine) : m.exec (cycle source) = m.exec (do return some (← tree.eval)) := by
  rw [cycle]
  split
  case h_1 ht => rw [ht] at h; cases h
  case h_2    => rw [h]; rfl

theorem exec_run_of_parse {source : String} {tree : Tree} (h : parse (tokenize source) = .ok tree)
    (m : Machine) : m.exec (run source) = conclude (m.exec tree.eval) := by
  rw [run, Machine.exec_tryCatch, exec_cycle_of_parse h, Machine.exec_bind]
  match m.exec tree.eval with
  | (.ok _, _)    => rfl
  | (.error _, _) => rfl

theorem tokenize_batch {sources : List String} (h : ∀ s ∈ sources, ClosesLiterals s) :
    tokenize (batch sources) =
      ⟨.leftParen, "("⟩ :: ⟨.operator, "program"⟩ ::
        (sources.flatMap tokenize ++ [⟨.rightParen, ")"⟩]) := by
  have hp : ClosesLiterals "(program" := by decide
  have ht : tokenize "(program" = [⟨.leftParen, "("⟩, ⟨.operator, "program"⟩] := by decide
  let lines := sources.flatMap (fun s => s.toList ++ ['\n'])
  have hb : (batch sources).toList = "(program".toList ++ '\n' :: (lines ++ [')']) := by
    simp [batch, lines, String.toList_join, List.flatMap_map]
  calc
    tokenize (batch sources)
    _ = Lexer.idle.produce ("(program".toList ++ '\n' :: (lines ++ [')'])) := by
      rw [tokenize_eq_produce, hb]
    _ = tokenize "(program" ++ (sources.flatMap tokenize ++ [⟨.rightParen, ")"⟩]) := by
      rw [hp.produce_line, produce_lines h]
      rfl
    _ = _ := by rw [ht]; rfl

theorem exists_trees {sources : List String} (h : ∀ s ∈ sources, ∃ t, Statement s t) :
    ∃ ts, List.Forall₂ Statement sources ts := by
  induction sources
  case nil          => exact ⟨[], .nil⟩
  case cons s ss hi =>
    have ⟨⟨t, ht⟩, hss⟩ := List.forall_mem_cons.mp h
    have ⟨ts, hts⟩ := hi hss
    exact ⟨t :: ts, .cons ht hts⟩

section Statements

variable {sources : List String} {trees : List Tree}

theorem closes_of_statements (h : List.Forall₂ Statement sources trees) :
    ∀ s ∈ sources, ClosesLiterals s := by
  induction h
  case nil          => nofun
  case cons ht _ hi => exact List.forall_mem_cons.mpr ⟨ht.closes, hi⟩

theorem expressions_of_statements (h : List.Forall₂ Statement sources trees) :
    Expressions (sources.flatMap tokenize) trees := by
  induction h
  case nil          => exact .nil
  case cons ht _ hi => exact .cons (sentence_of_parse ht.parses).expression hi

-- Between two statements no parenthesis is open but that of the program.
theorem deepest_of_statements (h : List.Forall₂ Statement sources trees) :
    deepest 1 (sources.flatMap tokenize) ≤ 256 := by
  induction h
  case nil          => decide
  case cons ht _ hi =>
    have hb := (sentence_of_parse ht.parses).expression.openAfter_eq 1
    have hd := Nat.le_trans (deepest_le_succ (Nat.le_refl 1) _) (Nat.succ_le_succ ht.nesting)
    rw [List.flatMap_cons, deepest_append, hb]
    exact Nat.max_le.mpr ⟨hd, hi⟩

theorem parse_batch (h : List.Forall₂ Statement sources trees) :
    parse (tokenize (batch sources)) = .ok (.apply .program trees) := by
  rw [tokenize_batch (closes_of_statements h)]
  apply Sentence.parse_eq
  constructor
  case expression => exact .apply rfl rfl (expressions_of_statements h)
  case nesting =>
    have hd := deepest_of_statements h
    have ho := (expressions_of_statements h).openAfter_eq 1
    rw [Polish.nesting, deepest_cons_leftParen rfl, Nat.zero_add, deepest]
    rw [Token.level_of_operator rfl, deepest_append, ho]
    simp only [deepest, Token.level]
    omega

-- Going through the arguments of a program is running them in turn; only what is left of the
-- variables after a failure is settled later.
theorem conclude_evalFold (h : List.Forall₂ Statement sources trees) (m : Machine) :
    conclude (m.exec (Tree.evalFold (fun _ _ => pure .none) .none trees)) =
      match m.exec (runAll sources) with
      | (.ok (), m')   => (.ok (some .none), m')
      | (.error e, m') => (.error e, m') := by
  induction h generalizing m
  case nil => rfl
  case cons s t ss ts ht _ hi =>
    rw [Tree.evalFold, runAll, Machine.exec_bind, Machine.exec_bind, exec_run_of_parse ht.parses]
    match m.exec t.eval with
    | (.ok _, m')   => exact hi m'
    | (.error _, _) => rfl

end Statements

-- Each source is read as the same tree one level further in, and a failure leaves no variables
-- either way.
theorem exec_run_batch (m : Machine) {sources : List String} (hn : sources ≠ [])
    (hs : ∀ s ∈ sources, ∃ t, Statement s t) :
    m.exec (run (batch sources)) =
      match m.exec (runAll sources) with
      | (.ok (), m')   => (.ok (some .none), m')
      | (.error e, m') => (.error e, m') := by
  have ⟨ts, h⟩ := exists_trees hs
  cases h
  case nil         => contradiction
  case cons ht hts =>
    have h := List.Forall₂.cons ht hts
    rw [exec_run_of_parse (parse_batch h)]
    exact conclude_evalFold h m

-- The second source fails after it has printed what the first one assigned.
theorem exec_run_batch_fails_midway :
    let m : Machine := { input := { bytes := [] } }
    let m' : Machine := { m with output.written := [0x61] }
    let sources := ["(assign x \"a\") # \"", "(print x y)", "x"]
    (∀ s ∈ sources, ∃ t, Statement s t) ∧
    m.exec (runAll sources) = (.error (.unassigned "y"), m') ∧
    m.exec (run (batch sources)) = (.error (.unassigned "y"), m') := by
  intro m m' sources
  have ha : tokenize "(assign x \"a\") # \"" = [⟨.leftParen, "("⟩, ⟨.operator, "assign"⟩,
      ⟨.identifier, "x"⟩, ⟨.string, "a"⟩, ⟨.rightParen, ")"⟩] := by decide
  have hp : tokenize "(print x y)" = [⟨.leftParen, "("⟩, ⟨.operator, "print"⟩,
      ⟨.identifier, "x"⟩, ⟨.identifier, "y"⟩, ⟨.rightParen, ")"⟩] := by decide
  have hx : tokenize "x" = [⟨.identifier, "x"⟩] := by decide
  have sa : Statement "(assign x \"a\") # \"" (.apply .assign [.ident "x", .const (.text "a")]) :=
    ⟨by decide, ha ▸ rfl, ha ▸ by decide⟩
  have sp : Statement "(print x y)" (.apply .print [.ident "x", .ident "y"]) :=
    ⟨by decide, hp ▸ rfl, hp ▸ by decide⟩
  have sx : Statement "x" (.ident "x") :=
    ⟨by decide, hx ▸ rfl, hx ▸ by decide⟩
  have hs : ∀ s ∈ sources, ∃ t, Statement s t := by
    simp only [sources, List.forall_mem_cons]
    exact ⟨⟨_, sa⟩, ⟨_, sp⟩, ⟨_, sx⟩, nofun⟩
  have hr : m.exec (runAll sources) = (.error (.unassigned "y"), m') := by
    rw [runAll, Machine.exec_bind, exec_run_of_parse sa.parses]
    change Machine.exec _ (runAll ["(print x y)", "x"]) = _
    rw [runAll, Machine.exec_bind, exec_run_of_parse sp.parses]
    rfl
  have h := exec_run_batch m (by simp [sources]) hs
  rw [hr] at h
  exact ⟨hs, hr, h⟩

end Session
end Polish
