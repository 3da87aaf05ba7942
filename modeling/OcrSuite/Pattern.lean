import Mathlib.Data.List.TakeWhile

/-! Patterns that are matched at the start of a list of symbols with backtracking, and the lists that
they match. Where all ways to match capture the same pieces, the order in which the ways are tried
does not matter. -/
namespace OcrSuite.Pattern

variable {α : Type}

/-- `many` takes symbols of a class, as many as it can or, if it is lazy, as few; its piece may be
captured. `atEnd` takes none, it looks whether the subject may end here. -/
inductive Item (α : Type) where
  | one (p : α → Bool)
  | many (captured isLazy : Bool) (least : Nat) (most : Option Nat) (p : α → Bool)
  | atEnd (p : List α → Bool)

/-- The lengths to try, in their order. -/
def lengths (isLazy : Bool) (least : Nat) (most : Option Nat) (available : Nat) : List Nat :=
  let all := (List.range (min available (most.getD available) + 1)).filter (least ≤ ·)
  if isLazy then all else all.reverse

/-- The captured pieces of the first way to match. -/
def firstMatch : List (Item α) → List α → Option (List (List α))
  | [], _ => some []
  | .one _ :: _, [] => none
  | .one p :: items, x :: xs => if p x then firstMatch items xs else none
  | .many captured isLazy least most p :: items, xs =>
    (lengths isLazy least most (xs.takeWhile p).length).findSome? fun n =>
      (firstMatch items (xs.drop n)).map fun groups => if captured then xs.take n :: groups else groups
  | .atEnd p :: items, xs => if p xs then firstMatch items xs else none

/-- The ways to match, with what each of them captures. -/
def Matches : List (Item α) → List α → List (List α) → Prop
  | [], _, groups => groups = []
  | .one p :: items, xs, groups => ∃ x rest, xs = x :: rest ∧ p x = true ∧ Matches items rest groups
  | .many captured _ least most p :: items, xs, groups => ∃ piece rest later, xs = piece ++ rest ∧
      (∀ x ∈ piece, p x = true) ∧ least ≤ piece.length ∧ (∀ n ∈ most, piece.length ≤ n) ∧
      Matches items rest later ∧ groups = if captured then piece :: later else later
  | .atEnd p :: items, xs, groups => p xs = true ∧ Matches items xs groups

theorem mem_lengths {isLazy : Bool} {least available n : Nat} {most : Option Nat} :
    n ∈ lengths isLazy least most available ↔
      least ≤ n ∧ n ≤ available ∧ ∀ bound ∈ most, n ≤ bound := by
  cases most <;> cases isLazy <;> simp [lengths] <;> omega

theorem matches_of_firstMatch {items : List (Item α)} {xs : List α} {groups : List (List α)}
    (found : firstMatch items xs = some groups) : Matches items xs groups := by
  induction items generalizing xs groups with
  | nil => exact (Option.some.inj found).symm
  | cons item items ih =>
    cases item with
    | one p =>
      cases xs with
      | nil => simp [firstMatch] at found
      | cons x xs =>
        rw [firstMatch] at found
        split at found
        case isTrue holds => exact ⟨x,xs,rfl,holds,ih found⟩
        case isFalse => simp at found
    | many captured isLazy least most p =>
      obtain ⟨n,tried,rest⟩ := List.exists_of_findSome?_eq_some found
      obtain ⟨later,there,rfl⟩ := Option.map_eq_some_iff.mp rest
      obtain ⟨enough,available,bounded⟩ := mem_lengths.mp tried
      have size : (xs.take n).length = n :=
        List.length_take_of_le (Nat.le_trans available (List.takeWhile_prefix p).length_le)
      refine ⟨xs.take n,xs.drop n,later,(List.take_append_drop n xs).symm,fun x member => ?_,
        by rwa [size],by rwa [size],ih there,rfl⟩
      have part : xs.take n = (xs.takeWhile p).take n :=
        calc xs.take n = (xs.takeWhile p ++ xs.dropWhile p).take n := by
              rw [List.takeWhile_append_dropWhile]
          _ = _ := List.take_append_of_le_length available
      rw [part] at member
      exact List.mem_takeWhile_imp (List.mem_of_mem_take member)
    | atEnd p =>
      rw [firstMatch] at found
      split at found
      case isTrue holds => exact ⟨holds,ih found⟩
      case isFalse => simp at found

/-- If there is a way to match, one is found. -/
theorem exists_firstMatch {items : List (Item α)} {xs : List α} {groups : List (List α)}
    (way : Matches items xs groups) : ∃ found, firstMatch items xs = some found := by
  induction items generalizing xs groups with
  | nil => exact ⟨[],by rw [firstMatch]⟩
  | cons item items ih =>
    cases item with
    | one p =>
      obtain ⟨x,rest,rfl,holds,later⟩ := way
      obtain ⟨found,here⟩ := ih later
      exact ⟨found,by rw [firstMatch,if_pos holds,here]⟩
    | many captured isLazy least most p =>
      obtain ⟨piece,rest,later,rfl,holds,enough,bounded,after,rfl⟩ := way
      obtain ⟨found,here⟩ := ih after
      have tried : piece.length ∈
          lengths isLazy least most ((piece ++ rest).takeWhile p).length := by
        refine mem_lengths.mpr ⟨enough,?_,bounded⟩
        rw [List.takeWhile_append_of_pos holds,List.length_append]
        omega
      rw [firstMatch]
      refine Option.isSome_iff_exists.mp (List.findSome?_isSome_iff.mpr ⟨_,tried,?_⟩)
      simp [here]
    | atEnd p =>
      obtain ⟨holds,later⟩ := way
      obtain ⟨found,here⟩ := ih later
      exact ⟨found,by rw [firstMatch,if_pos holds,here]⟩

theorem firstMatch_eq_none {items : List (Item α)} {xs : List α}
    (none_ : ∀ groups, ¬ Matches items xs groups) : firstMatch items xs = none := by
  cases found : firstMatch items xs with
  | none => rfl
  | some groups => exact absurd (matches_of_firstMatch found) (none_ groups)

/-- What all ways capture is what the first way captures. -/
theorem firstMatch_eq_some {items : List (Item α)} {xs : List α} {groups : List (List α)}
    (way : Matches items xs groups) (same : ∀ other, Matches items xs other → other = groups) :
    firstMatch items xs = some groups := by
  obtain ⟨found,here⟩ := exists_firstMatch way
  rw [here,same found (matches_of_firstMatch here)]

/-! ## Words in patterns -/

variable [DecidableEq α]

def literal (word : List α) : List (Item α) := word.map fun x => .one (· = x)

theorem matches_literal {word : List α} {items : List (Item α)} {xs : List α}
    {groups : List (List α)} : Matches (literal word ++ items) xs groups ↔
      ∃ rest, xs = word ++ rest ∧ Matches items rest groups := by
  induction word generalizing xs with
  | nil => simp [literal]
  | cons x word ih =>
    have step : literal (x :: word) ++ items = .one (· = x) :: (literal word ++ items) := rfl
    rw [step,Matches]
    constructor
    · rintro ⟨y,rest,rfl,same,later⟩
      obtain ⟨rest,rfl,after⟩ := ih.mp later
      exact ⟨rest,by simpa using same,after⟩
    · rintro ⟨rest,rfl,after⟩
      exact ⟨x,word ++ rest,rfl,by simp,ih.mpr ⟨rest,rfl,after⟩⟩

/-! ## Where a list can be cut -/

omit [DecidableEq α] in
/-- Symbols of a class end where one outside of it comes. -/
theorem class_append_inj {p : α → Prop} {front front' back back' : List α}
    (inside : ∀ x ∈ front, p x) (inside' : ∀ x ∈ front', p x) (outside : ∀ x ∈ back.head?, ¬ p x)
    (outside' : ∀ x ∈ back'.head?, ¬ p x) (same : front ++ back = front' ++ back') :
    front = front' ∧ back = back' := by
  induction front generalizing front' with
  | nil =>
    cases front' with
    | nil => exact ⟨rfl,same⟩
    | cons x front' =>
      rw [List.nil_append] at same
      exact absurd (inside' x List.mem_cons_self) (outside x (by simp [same]))
  | cons x front ih =>
    cases front' with
    | nil =>
      rw [List.nil_append] at same
      exact absurd (inside x List.mem_cons_self) (outside' x (by simp [← same]))
    | cons y front' =>
      obtain ⟨rfl,rest⟩ := List.cons.inj same
      obtain ⟨rfl,rfl⟩ := ih (fun z member => inside z (List.mem_cons_of_mem x member))
        (fun z member => inside' z (List.mem_cons_of_mem x member)) rest
      exact ⟨rfl,rfl⟩

omit [DecidableEq α] in
theorem append_class_inj {p : α → Prop} {front front' back back' : List α}
    (inside : ∀ x ∈ back, p x) (inside' : ∀ x ∈ back', p x) (outside : ∀ x ∈ front.getLast?, ¬ p x)
    (outside' : ∀ x ∈ front'.getLast?, ¬ p x) (same : front ++ back = front' ++ back') :
    front = front' ∧ back = back' := by
  have mirroredSame : back.reverse ++ front.reverse = back'.reverse ++ front'.reverse := by
    simpa using congrArg List.reverse same
  have mirrored := class_append_inj (p := p) (by simpa using inside) (by simpa using inside')
    (by simpa using outside) (by simpa using outside') mirroredSame
  exact ⟨List.reverse_inj.mp mirrored.2,List.reverse_inj.mp mirrored.1⟩

omit [DecidableEq α] in
/-- A separator that the last piece does not have is the one before that piece, or an earlier one. -/
theorem append_cons_cases {x : α} {front front' back back' : List α} (outside : x ∉ back')
    (same : front ++ x :: back = front' ++ x :: back') :
    (front = front' ∧ back = back') ∨ ∃ more, front' = front ++ x :: more := by
  rcases List.append_eq_append_iff.mp same with ⟨more,longer,rest⟩ | ⟨more,longer,rest⟩
  · cases more with
    | nil =>
      rw [List.append_nil] at longer
      exact .inl ⟨longer.symm,(List.cons.inj rest).2⟩
    | cons y more =>
      obtain ⟨rfl,_⟩ := List.cons.inj rest
      exact .inr ⟨more,longer⟩
  · cases more with
    | nil =>
      rw [List.append_nil] at longer
      exact .inl ⟨longer,(List.cons.inj rest).2.symm⟩
    | cons y more =>
      obtain ⟨rfl,inside⟩ := List.cons.inj rest
      exact absurd (by simp [inside]) outside

end OcrSuite.Pattern
