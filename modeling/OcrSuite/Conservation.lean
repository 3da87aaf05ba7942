import Mathlib.Algebra.BigOperators.Fin
import Mathlib.Algebra.Order.BigOperators.Group.Finset
import Mathlib.Algebra.Order.Group.Multiset
import Mathlib.Tactic.Abel

/-! Sums of what several parties hold, when one of them changes what it holds. -/
namespace OcrSuite.Conservation

variable {ι β M α : Type}

section Update

variable [Fintype ι] [DecidableEq ι] [AddCommMonoid M]

/-- What the party holds now for what it held before. -/
theorem sum_update (g : ι → β → M) (f : ι → β) (i : ι) (v : β) :
    (∑ k, g k (Function.update f i v k)) + g i (f i) = (∑ k, g k (f k)) + g i v := by
  have others : ∑ k ∈ Finset.univ.erase i, g k (Function.update f i v k) =
      ∑ k ∈ Finset.univ.erase i, g k (f k) :=
    Finset.sum_congr rfl fun k member => by rw [Function.update_of_ne (Finset.ne_of_mem_erase member)]
  rw [← Finset.add_sum_erase _ _ (Finset.mem_univ i),
    ← Finset.add_sum_erase _ (fun k => g k (f k)) (Finset.mem_univ i),others,Function.update_self]
  abel

theorem sum_update_same (g : ι → β → M) (f : ι → β) {i : ι} {v : β} (same : g i v = g i (f i)) :
    (∑ k, g k (Function.update f i v k)) = ∑ k, g k (f k) := by
  refine Finset.sum_congr rfl fun k _ => ?_
  by_cases here : k = i
  · subst k
    rw [Function.update_self,same]
  · rw [Function.update_of_ne here]

/-- A party that held nothing. -/
theorem sum_update_zero (g : ι → β → M) (f : ι → β) {i : ι} (v : β) (nothing : g i (f i) = 0) :
    (∑ k, g k (Function.update f i v k)) = (∑ k, g k (f k)) + g i v := by
  simpa [nothing] using sum_update g f i v

/-- A party that gives away all it held. -/
theorem sum_update_taken (g : ι → β → M) (f : ι → β) {i : ι} {v : β} (nothing : g i v = 0) :
    (∑ k, g k (Function.update f i v k)) + g i (f i) = ∑ k, g k (f k) := by
  simpa [nothing] using sum_update g f i v

end Update

/-- The lists of all parties, one after the other. -/
theorem sum_coe {n : Nat} (l : Fin n → List α) :
    (∑ i, ↑(l i) : Multiset α) = ↑((List.finRange n).flatMap l) := by
  rw [Fin.sum_univ_def]
  induction List.finRange n with
  | nil => rfl
  | cons i rest ih => simp [ih]

/-- Among lists of different keys, one is found by its key. -/
theorem filter_flatMap_key {κ : Type} [DecidableEq κ] {xs : List ι} {key : ι → κ} {values : ι → List α}
    {keyOf : α → κ} (keyed : ∀ x ∈ xs, ∀ v ∈ values x, keyOf v = key x) (distinct : (xs.map key).Nodup)
    {x : ι} (member : x ∈ xs) :
    (xs.flatMap values).filter (fun v => keyOf v = key x) = values x := by
  obtain ⟨front,back,rfl⟩ := List.append_of_mem member
  have others (y : ι) (inside : y ∈ front ∨ y ∈ back) :
      (values y).filter (fun v => keyOf v = key x) = [] := by
    apply List.filter_eq_nil_iff.mpr
    intro v held
    have mem : y ∈ front ++ x :: back := by
      rcases inside with before | after <;> simp [*]
    have apart : key y ≠ key x := by
      simp only [List.map_append,List.map_cons,List.nodup_append,List.nodup_cons] at distinct
      rcases inside with before | after
      · exact distinct.2.2 _ (List.mem_map_of_mem before) _ (by simp)
      · exact fun same => distinct.2.1.1 (same ▸ List.mem_map_of_mem after)
    simpa [keyed y mem v held] using apart
  have before : (front.flatMap values).filter (fun v => keyOf v = key x) = [] := by
    simp only [List.filter_flatMap]
    exact List.flatMap_eq_nil_iff.mpr fun y inside => others y (.inl inside)
  have after : (back.flatMap values).filter (fun v => keyOf v = key x) = [] := by
    simp only [List.filter_flatMap]
    exact List.flatMap_eq_nil_iff.mpr fun y inside => others y (.inr inside)
  have here : (values x).filter (fun v => keyOf v = key x) = values x := by
    apply List.filter_eq_self.mpr
    intro v held
    simpa using keyed x member v held
  rw [List.flatMap_append,List.flatMap_cons,List.filter_append,List.filter_append,before,after,here]
  simp

end OcrSuite.Conservation
