import Mathlib.Data.List.Nodup
import Mathlib.Data.List.Flatten

/-! Lists of groups that are read one element after the other: which group comes before or after
another one, and how an order of two levels is read as one of the lower level. -/
namespace OcrSuite.Document

variable {α β : Type}

/-- The first element of the groups that come after, or else the last one of all. -/
def following (groups back : List (List α)) : Option α :=
  match back with
  | group :: _ => group.head?
  | [] => groups.flatten.getLast?

/-- The last element of the groups that come before, or else the first one of all. -/
def preceding (groups front : List (List α)) : Option α :=
  match front.getLast? with
  | some group => group.getLast?
  | none => groups.flatten.head?

theorem following_eq {groups back : List (List α)} (nonempty : ∀ group ∈ back, group ≠ []) :
    following groups back = back.flatten.head?.or groups.flatten.getLast? := by
  cases back with
  | nil => rfl
  | cons group rest =>
    obtain ⟨x,xs,rfl⟩ := List.exists_cons_of_ne_nil (nonempty group List.mem_cons_self)
    rfl

theorem preceding_eq {groups front : List (List α)} (nonempty : ∀ group ∈ front, group ≠ []) :
    preceding groups front = front.flatten.getLast?.or groups.flatten.head? := by
  rcases List.eq_nil_or_concat front with rfl | ⟨before,group,rfl⟩
  · rfl
  · have some_ : group ≠ [] := nonempty group (by simp)
    simp [preceding,List.getLast?_append_of_ne_nil _ some_,List.getLast?_eq_getLast_of_ne_nil some_]

/-! ## Two levels -/

theorem flatten_flatMap (xs : List α) (groups : α → List (List β)) :
    (xs.flatMap groups).flatten = xs.flatMap fun x => (groups x).flatten := by
  induction xs with
  | nil => rfl
  | cons x rest ih => simp [ih]

/-- A place among the elements of all groups is one in a group. -/
theorem exists_place {xs : List α} {below : α → List β} {front back : List β} {y : β}
    (parts : xs.flatMap below = front ++ y :: back) :
    ∃ i x before after, xs[i]? = some x ∧ below x = before ++ y :: after ∧
      front = (xs.take i).flatMap below ++ before ∧
      back = after ++ (xs.drop (i + 1)).flatMap below := by
  induction xs generalizing front with
  | nil => simp at parts
  | cons x rest ih =>
    rw [List.flatMap_cons] at parts
    rcases List.append_eq_append_iff.mp parts with ⟨more,rfl,later⟩ | ⟨more,inside,later⟩
    · obtain ⟨i,z,before,after,at_,found,rfl,rfl⟩ := ih later
      exact ⟨i + 1,z,before,after,at_,found,by simp,by simp⟩
    · cases more with
      | nil =>
        obtain ⟨i,z,before,after,at_,found,none,rfl⟩ := @ih [] (by simpa using later.symm)
        refine ⟨i + 1,z,before,after,at_,found,?_,by simp⟩
        rw [List.append_nil] at inside
        rw [List.take_succ_cons,List.flatMap_cons,List.append_assoc,← none,inside,List.append_nil]
      | cons other more =>
        obtain ⟨rfl,rfl⟩ := List.cons.inj later
        exact ⟨0,x,front,more,rfl,inside,by simp,by simp⟩

theorem flatMap_eq_nil {xs : List α} {below : α → List β} (nonempty : ∀ x ∈ xs, below x ≠ []) :
    xs.flatMap below = [] ↔ xs = [] := by
  rw [List.flatMap_eq_nil_iff]
  constructor
  · intro none
    exact List.eq_nil_iff_forall_not_mem.mpr fun x member => nonempty x member (none x member)
  · rintro rfl _ member
    cases member

theorem exists_place_map {xs : List α} {g : α → β} {front back : List β} {y : β}
    (parts : xs.map g = front ++ y :: back) : ∃ i x, xs[i]? = some x ∧ g x = y ∧
      front = (xs.take i).map g ∧ back = (xs.drop (i + 1)).map g := by
  obtain ⟨before,rest,rfl,rfl,later⟩ := List.map_eq_append_iff.mp parts
  obtain ⟨x,after,rfl,rfl,rfl⟩ := List.map_eq_cons_iff.mp later
  exact ⟨before.length,x,by simp,rfl,by simp,by simp⟩

theorem flatMap_eq_place {xs : List α} {i : Nat} {x : α} (there : xs[i]? = some x)
    (below : α → List β) : xs.flatMap below =
      (xs.take i).flatMap below ++ (below x ++ (xs.drop (i + 1)).flatMap below) := by
  obtain ⟨bound,rfl⟩ := List.getElem?_eq_some_iff.mp there
  have parts : xs = xs.take i ++ xs[i] :: xs.drop (i + 1) := by
    rw [← List.drop_eq_getElem_cons bound,List.take_append_drop]
  calc xs.flatMap below = (xs.take i ++ xs[i] :: xs.drop (i + 1)).flatMap below := by rw [← parts]
    _ = _ := by rw [List.flatMap_append,List.flatMap_cons]

/-- The elements of the next group come first among those of all later groups. -/
theorem head?_flatMap_drop {xs : List α} {i : Nat} {x : α} (there : xs[i]? = some x)
    {below : α → List β} {y : β} (first : (below x).head? = some y) :
    ((xs.drop i).flatMap below).head? = some y := by
  obtain ⟨bound,rfl⟩ := List.getElem?_eq_some_iff.mp there
  rw [List.drop_eq_getElem_cons bound,List.flatMap_cons,List.head?_append,first]
  rfl

theorem getLast?_flatMap_take {xs : List α} {i : Nat} {x : α} (there : xs[i]? = some x)
    {below : α → List β} {y : β} (last : (below x).getLast? = some y) :
    ((xs.take (i + 1)).flatMap below).getLast? = some y := by
  obtain ⟨bound,rfl⟩ := List.getElem?_eq_some_iff.mp there
  rw [List.take_succ_eq_append_getElem bound,List.flatMap_append,List.flatMap_singleton,
    List.getLast?_append,last]
  rfl

/-- Nothing is read twice if each group has all its elements once and no two groups share one. -/
theorem nodup_flatMap {xs : List α} {below : α → List β} (once : ∀ x ∈ xs, (below x).Nodup)
    (apart : ∀ {i j : Nat} {x x' : α} {y : β}, xs[i]? = some x → xs[j]? = some x' → y ∈ below x →
      y ∈ below x' → i = j) : (xs.flatMap below).Nodup := by
  refine List.nodup_flatMap.mpr ⟨once,List.pairwise_iff_getElem.mpr fun i j hi hj lt => ?_⟩
  intro y first second
  have same := apart (List.getElem?_eq_getElem hi) (List.getElem?_eq_getElem hj) first second
  omega

/-- To go past some elements leads to another place than to go on to them, unless there are none, or
the only one is the last of all. -/
theorem head_skip_iff {front skipped back : List α} (once : (front ++ (skipped ++ back)).Nodup) :
    back.head?.or (front ++ (skipped ++ back)).getLast? =
      (skipped ++ back).head?.or (front ++ (skipped ++ back)).getLast? ↔
        skipped = [] ∨ (back = [] ∧ skipped.length = 1) := by
  cases skipped with
  | nil => simp
  | cons x xs =>
    cases back with
    | nil =>
      simp only [List.append_nil,List.head?_nil,Option.none_or,List.head?_cons,Option.some_or,
        List.getLast?_append_of_ne_nil _ (List.cons_ne_nil x xs)]
      rw [List.append_nil] at once
      cases xs with
      | nil => simp
      | cons y ys =>
        have last := List.getLast?_eq_getLast_of_ne_nil (List.cons_ne_nil y ys)
        have other : x ≠ (y :: ys).getLast (List.cons_ne_nil y ys) := by
          have apart := (List.nodup_cons.mp (List.nodup_append.mp once).2.1).1
          exact fun same => apart (same ▸ List.getLast_mem _)
        rw [List.getLast?_cons_cons,last]
        simpa using other.symm
    | cons y ys =>
      have other : y ≠ x := by
        have apart := (List.nodup_cons.mp (List.nodup_append.mp once).2.1).1
        exact fun same => apart (same ▸ by simp)
      simpa using other

theorem last_skip_iff {front skipped back : List α} (once : ((front ++ skipped) ++ back).Nodup) :
    front.getLast?.or ((front ++ skipped) ++ back).head? =
      (front ++ skipped).getLast?.or ((front ++ skipped) ++ back).head? ↔
        skipped = [] ∨ (front = [] ∧ skipped.length = 1) := by
  have mirroredOnce : (back.reverse ++ (skipped.reverse ++ front.reverse)).Nodup := by
    simpa using List.nodup_reverse.mpr once
  have mirrored := head_skip_iff mirroredOnce
  simpa [← List.reverse_append,List.head?_reverse,List.getLast?_reverse] using mirrored

end OcrSuite.Document
