import Mathlib.Data.List.Infix

/-! Patterns that are replaced in a text. It is scanned from the left; where a pattern stands, the scan
goes on after it. -/
namespace OcrSuite.Substitution

variable {α : Type}

/-- What the scan finds: a pattern or a single symbol. -/
inductive Piece (α : Type) where
  | pattern (q : List α)
  | symbol (x : α)
  deriving DecidableEq

/-- What stands for a piece after the substitution. -/
def Piece.replaced (f : List α → List α) : Piece α → List α
  | .pattern q => f q
  | .symbol x => [x]

variable [DecidableEq α] {patterns : List (List α)} {f : List α → List α}

/-- The first of the patterns that a text starts with. -/
def standing (patterns : List (List α)) (text : List α) : Option (List α) :=
  patterns.find? fun q => q.isPrefixOf text

/-- The scan, when so many symbols of a pattern are still to be passed. -/
def piecesFrom (patterns : List (List α)) : Nat → List α → List (Piece α)
  | _, [] => []
  | n + 1, _ :: rest => piecesFrom patterns n rest
  | 0, x :: rest =>
    match standing patterns (x :: rest) with
    | some q => .pattern q :: piecesFrom patterns (q.length - 1) rest
    | none => .symbol x :: piecesFrom patterns 0 rest

def pieces (patterns : List (List α)) (text : List α) : List (Piece α) := piecesFrom patterns 0 text

def substitute (patterns : List (List α)) (f : List α → List α) (text : List α) : List α :=
  (pieces patterns text).flatMap (Piece.replaced f)

def replaceAll (pattern replacement text : List α) : List α :=
  substitute [pattern] (fun _ => replacement) text

theorem standing_eq_some {text q : List α} (found : standing patterns text = some q) :
    q ∈ patterns ∧ q <+: text := by
  rw [standing] at found
  have starts := List.find?_some found
  exact ⟨List.mem_of_find?_eq_some found,List.isPrefixOf_iff_prefix.mp starts⟩

theorem standing_eq_none {text : List α} :
    standing patterns text = none ↔ ∀ q ∈ patterns, ¬ q <+: text := by
  simp [standing]

theorem standing_self (q rest : List α) : standing (q :: patterns) (q ++ rest) = some q :=
  List.find?_cons_of_pos (List.isPrefixOf_iff_prefix.mpr (List.prefix_append q rest))

theorem piecesFrom_eq (patterns : List (List α)) (n : Nat) (text : List α) :
    piecesFrom patterns n text = pieces patterns (text.drop n) := by
  induction text generalizing n with
  | nil => simp [piecesFrom,pieces]
  | cons x rest ih =>
    cases n with
    | zero => rfl
    | succ n => exact ih n

@[simp] theorem pieces_nil : pieces patterns [] = [] := by
  simp [pieces,piecesFrom]

theorem pieces_append {q rest : List α} (found : standing patterns (q ++ rest) = some q)
    (nonempty : q ≠ []) : pieces patterns (q ++ rest) = .pattern q :: pieces patterns rest := by
  obtain ⟨x,later,rfl⟩ := List.exists_cons_of_ne_nil nonempty
  rw [List.cons_append] at found ⊢
  rw [pieces,piecesFrom,found]
  simp only [piecesFrom_eq]
  rw [List.length_cons,Nat.add_sub_cancel,List.drop_left]

theorem pieces_cons {x : α} {rest : List α} (none_ : standing patterns (x :: rest) = none) :
    pieces patterns (x :: rest) = .symbol x :: pieces patterns rest := by
  rw [pieces,piecesFrom,none_]
  rfl

/-- Induction along the scan. -/
@[elab_as_elim] theorem pieces_induction {P : List α → Prop} (proper : ∀ q ∈ patterns, q ≠ [])
    (nil : P []) (pattern : ∀ q rest, standing patterns (q ++ rest) = some q → P rest → P (q ++ rest))
    (symbol : ∀ x rest, standing patterns (x :: rest) = none → P rest → P (x :: rest))
    (text : List α) : P text := by
  induction size : text.length using Nat.strong_induction_on generalizing text with
  | _ n ih =>
    cases text with
    | nil => exact nil
    | cons x rest =>
      cases found : standing patterns (x :: rest) with
      | none => exact symbol x rest found (ih rest.length (by simp [← size]) rest rfl)
      | some q =>
        obtain ⟨member,later,parts⟩ := standing_eq_some found
        have shorter : later.length < n := by
          have first := List.length_pos_iff.mpr (proper q member)
          rw [← size,← parts,List.length_append]
          omega
        rw [← parts] at found ⊢
        exact pattern q later found (ih later.length shorter later rfl)

/-! ## The text after the substitution -/

@[simp] theorem substitute_nil : substitute patterns f [] = [] := by
  simp [substitute]

theorem substitute_append {q rest : List α} (found : standing patterns (q ++ rest) = some q)
    (nonempty : q ≠ []) : substitute patterns f (q ++ rest) = f q ++ substitute patterns f rest := by
  rw [substitute,pieces_append found nonempty]
  rfl

theorem substitute_cons {x : α} {rest : List α} (none_ : standing patterns (x :: rest) = none) :
    substitute patterns f (x :: rest) = x :: substitute patterns f rest := by
  rw [substitute,pieces_cons none_]
  rfl

theorem substitute_congr {g : List α → List α} (proper : ∀ q ∈ patterns, q ≠ [])
    (same : ∀ q ∈ patterns, f q = g q) (text : List α) :
    substitute patterns f text = substitute patterns g text := by
  induction text using pieces_induction proper with
  | nil => simp
  | pattern q rest found ih =>
    have member := (standing_eq_some found).1
    rw [substitute_append found (proper q member),substitute_append found (proper q member),ih,
      same q member]
  | symbol x rest none_ ih => rw [substitute_cons none_,substitute_cons none_,ih]

/-- Symbols that no pattern starts with are kept. -/
theorem substitute_append_of_no_start {word : List α} (rest : List α)
    (other : ∀ x ∈ word, ∀ q ∈ patterns, q.head? ≠ some x) (proper : ∀ q ∈ patterns, q ≠ []) :
    substitute patterns f (word ++ rest) = word ++ substitute patterns f rest := by
  induction word with
  | nil => rfl
  | cons x word ih =>
    have none_ : standing patterns (x :: (word ++ rest)) = none := by
      refine standing_eq_none.mpr fun q member start => ?_
      obtain ⟨y,later,rfl⟩ := List.exists_cons_of_ne_nil (proper q member)
      exact other x List.mem_cons_self _ member (by rw [List.head?_cons,(List.cons_prefix_cons.mp start).1])
    rw [List.cons_append,substitute_cons none_,ih fun y inside => other y (List.mem_cons_of_mem _ inside)]
    rfl

theorem standing_cons_of_not_start {q text : List α} (other : ¬ q <+: text) :
    standing (q :: patterns) text = standing patterns text :=
  List.find?_cons_of_neg fun starts => other (List.isPrefixOf_iff_prefix.mp starts)

/-- A pattern that a text does not have is not looked for. -/
theorem pieces_cons_of_absent (proper : ∀ p ∈ patterns, p ≠ []) {q text : List α}
    (outside : ¬ q <:+: text) : pieces (q :: patterns) text = pieces patterns text := by
  induction text using pieces_induction proper with
  | nil => simp
  | pattern p rest found ih =>
    have nonempty := proper p (standing_eq_some found).1
    have same : standing (q :: patterns) (p ++ rest) = standing patterns (p ++ rest) :=
      standing_cons_of_not_start fun start => outside start.isInfix
    rw [pieces_append found nonempty,pieces_append (same.trans found) nonempty,
      ih fun inside => outside (inside.trans (List.suffix_append p rest).isInfix)]
  | symbol x rest none_ ih =>
    have same : standing (q :: patterns) (x :: rest) = standing patterns (x :: rest) :=
      standing_cons_of_not_start fun start => outside start.isInfix
    rw [pieces_cons none_,pieces_cons (same.trans none_),
      ih fun inside => outside (inside.trans (List.suffix_cons x rest).isInfix)]

theorem substitute_of_absent {text : List α} (outside : ∀ q ∈ patterns, ¬ q <:+: text) :
    substitute patterns f text = text := by
  induction text with
  | nil => simp
  | cons x rest ih =>
    have none_ : standing patterns (x :: rest) = none :=
      standing_eq_none.mpr fun q member start => outside q member start.isInfix
    rw [substitute_cons none_,ih fun q member inside =>
      outside q member (inside.trans (List.suffix_cons x rest).isInfix)]

/-- A pattern that a text has is replaced at its first place. -/
theorem exists_replaced {q text : List α} (inside : q <:+: text) (nonempty : q ≠ []) :
    ∃ front back, text = front ++ q ++ back ∧
      ∀ replacement, replaceAll q replacement text = front ++ replacement ++ replaceAll q replacement back := by
  induction text with
  | nil => exact absurd (List.infix_nil.mp inside) nonempty
  | cons x rest ih =>
    by_cases start : q <+: x :: rest
    · obtain ⟨back,parts⟩ := start
      refine ⟨[],back,parts.symm,fun replacement => ?_⟩
      rw [← parts]
      exact substitute_append (standing_self q back) nonempty
    · obtain ⟨front,back,rfl,replaced⟩ := ih ((List.infix_cons_iff.mp inside).resolve_left start)
      have none_ : standing [q] (x :: (front ++ q ++ back)) = none :=
        standing_eq_none.mpr (by simpa using start)
      refine ⟨x :: front,back,rfl,fun replacement => ?_⟩
      rw [replaceAll,substitute_cons none_]
      exact congrArg (x :: ·) (replaced replacement)

end OcrSuite.Substitution
