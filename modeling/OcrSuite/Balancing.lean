import Mathlib.Algebra.Order.BigOperators.Group.List
import Mathlib.Data.List.MinMax
import Mathlib.Data.List.Nodup
import Mathlib.Data.List.Pairwise
import Mathlib.Logic.Function.Basic

/-! Items that are put one after the other into the bin with the smallest load. -/
namespace OcrSuite.Balancing

variable {ι α M : Type} [DecidableEq ι] [AddCommMonoid M] [LinearOrder M]

/-- The sizes of what is in a bin. -/
def load (size : α → M) (content : ι → List α) (i : ι) : M := ((content i).map size).sum

/-- The item goes to the first of the bins with the smallest load, if there are bins. -/
def place (size : α → M) (bins : List ι) (content : ι → List α) (x : α) : Option (ι → List α) :=
  (bins.argmin (load size content)).map fun k => Function.update content k (content k ++ [x])

def spread (size : α → M) (bins : List ι) : (ι → List α) → List α → Option (ι → List α)
  | content, [] => some content
  | content, x :: rest => (place size bins content x).bind fun content => spread size bins content rest

/-- No two loads differ by more than `bound`. -/
def Balanced (bound : M) (loads : ι → M) : Prop := ∀ i j, loads i ≤ loads j + bound

variable {size : α → M} {bins : List ι} {content content' : ι → List α} {x : α}

theorem place_eq (placed : place size bins content x = some content') :
    ∃ k ∈ bins, (∀ j ∈ bins, load size content k ≤ load size content j) ∧
      content' = Function.update content k (content k ++ [x]) := by
  obtain ⟨k,least,rfl⟩ := Option.map_eq_some_iff.mp placed
  exact ⟨k,List.argmin_mem least,fun j member => List.le_of_mem_argmin member least,rfl⟩

theorem exists_place (size : α → M) (nonempty : bins ≠ []) (content : ι → List α) (x : α) :
    ∃ content', place size bins content x = some content' := by
  obtain ⟨k,least⟩ := Option.ne_none_iff_exists'.mp
    (fun none => nonempty (List.argmin_eq_none.mp none) : bins.argmin (load size content) ≠ none)
  exact ⟨_,by rw [place,least]; rfl⟩

omit [LinearOrder M] in
theorem load_update (size : α → M) (content : ι → List α) (k : ι) (x : α) :
    load size (Function.update content k (content k ++ [x])) =
      Function.update (load size content) k (load size content k + size x) := by
  funext i
  by_cases same : i = k
  · subst i
    simp [load]
  · simp [load,same]

/-- More in the bin with the smallest load does not unbalance the bins, as long as it is not more
than the bound. -/
theorem Balanced.update [CanonicallyOrderedAdd M] [IsOrderedAddMonoid M] {bound y : M} {loads : ι → M}
    (balanced : Balanced bound loads) {k : ι} (least : ∀ j, loads k ≤ loads j) (small : y ≤ bound) :
    Balanced bound (Function.update loads k (loads k + y)) := by
  intro i j
  by_cases first : i = k
  · subst i
    by_cases second : j = k
    · subst j
      exact le_self_add
    · simpa [second] using add_le_add (least j) small
  · by_cases second : j = k
    · subst j
      simpa [first] using (balanced i k).trans (add_le_add_left le_self_add bound)
    · simpa [first,second] using balanced i j

theorem exists_spread (size : α → M) (nonempty : bins ≠ []) (content : ι → List α) (xs : List α) :
    ∃ content', spread size bins content xs = some content' := by
  induction xs generalizing content with
  | nil => exact ⟨content,rfl⟩
  | cons x rest ih =>
    obtain ⟨next,placed⟩ := exists_place size nonempty content x
    obtain ⟨last,later⟩ := ih next
    exact ⟨last,by rw [spread,placed]; exact later⟩

/-- What holds of the contents and is kept by each placement holds in the end. -/
theorem spread_invariant {P : (ι → List α) → List α → Prop} {xs : List α}
    (kept : ∀ content content' x rest, P content (x :: rest) →
      place size bins content x = some content' → P content' rest)
    (base : P content xs) (spreads : spread size bins content xs = some content') : P content' [] := by
  induction xs generalizing content with
  | nil =>
    obtain rfl := Option.some.inj spreads
    exact base
  | cons x rest ih =>
    obtain ⟨next,placed,later⟩ := Option.bind_eq_some_iff.mp spreads
    exact ih (kept content next x rest base placed) later

omit [AddCommMonoid M] [LinearOrder M] in
/-- One more item in one of the bins is one more in all of them. -/
theorem update_perm (distinct : bins.Nodup) {k : ι} (member : k ∈ bins) (content : ι → List α) (x : α) :
    (bins.flatMap (Function.update content k (content k ++ [x]))).Perm (bins.flatMap content ++ [x]) := by
  obtain ⟨front,back,rfl⟩ := List.append_of_mem member
  obtain ⟨notBack,notFront⟩ : k ∉ back ∧ k ∉ front := by
    simp only [List.nodup_append,List.nodup_cons] at distinct
    exact ⟨distinct.2.1.1,fun inside => distinct.2.2 k inside k List.mem_cons_self rfl⟩
  have others {part : List ι} (outside : k ∉ part) :
      part.flatMap (Function.update content k (content k ++ [x])) = part.flatMap content := by
    refine List.flatMap_congr fun i inside => Function.update_of_ne ?_ _ _
    rintro rfl
    exact outside inside
  simp only [List.flatMap_append,List.flatMap_cons,others notFront,others notBack,
    Function.update_self,List.append_assoc]
  exact (List.perm_append_comm.append_left _).append_left _

theorem place_perm (distinct : bins.Nodup) (placed : place size bins content x = some content') :
    (bins.flatMap content').Perm (bins.flatMap content ++ [x]) := by
  obtain ⟨k,member,_,rfl⟩ := place_eq placed
  exact update_perm distinct member content x

/-- Every item is in exactly one bin. -/
theorem spread_perm (distinct : bins.Nodup) {xs : List α}
    (spreads : spread size bins content xs = some content') :
    (bins.flatMap content').Perm (bins.flatMap content ++ xs) := by
  suffices general : (bins.flatMap content' ++ []).Perm (bins.flatMap content ++ xs) by simpa using general
  refine spread_invariant (P := fun now rest =>
    (bins.flatMap now ++ rest).Perm (bins.flatMap content ++ xs)) ?_ (.refl _) spreads
  intro now next x rest same placing
  have one := (place_perm distinct placing).append_right rest
  rw [List.append_assoc,List.singleton_append] at one
  exact one.trans same

omit [DecidableEq ι] in
/-- An item that is in the bins once is in a single one of them. -/
theorem existsUnique_bin (complete : ∀ i, i ∈ bins) (distinct : (bins.flatMap content).Nodup)
    (member : x ∈ bins.flatMap content) : ∃! i, x ∈ content i := by
  obtain ⟨i,_,here⟩ := List.mem_flatMap.mp member
  refine ⟨i,here,fun j there => ?_⟩
  by_contra other
  have apart := (List.nodup_flatMap.mp distinct).2
  have symmetric : Std.Symm (Function.onFun List.Disjoint content) := ⟨fun _ _ apart _ here there => apart there here⟩
  have disjoint := apart.forall (complete j) (complete i) other
  exact disjoint there here

/-- Within a bin the items keep their order. -/
theorem spread_sublist {xs : List α} (spreads : spread size bins content xs = some content') (i : ι) :
    ∃ part, content' i = content i ++ part ∧ part.Sublist xs := by
  suffices general : ∃ front, xs = front ++ [] ∧ ∃ part, content' i = content i ++ part ∧
      part.Sublist front by
    obtain ⟨front,same,part,here,inside⟩ := general
    exact ⟨part,here,by simpa [same] using inside⟩
  refine spread_invariant (P := fun now rest => ∃ front, xs = front ++ rest ∧
    ∃ part, now i = content i ++ part ∧ part.Sublist front) ?_ ⟨[],rfl,[],by simp,.slnil⟩ spreads
  rintro now next x rest ⟨front,rfl,part,here,inside⟩ placing
  obtain ⟨k,_,_,rfl⟩ := place_eq placing
  refine ⟨front ++ [x],by simp,?_⟩
  by_cases same : i = k
  · subst i
    exact ⟨part ++ [x],by simp [here],inside.append (.refl _)⟩
  · exact ⟨part,by simpa [same] using here,inside.trans (List.sublist_append_left _ _)⟩

/-- The loads differ by no more than the largest item. -/
theorem spread_balanced [CanonicallyOrderedAdd M] [IsOrderedAddMonoid M] {bound : M}
    (complete : ∀ i, i ∈ bins) (balanced : Balanced bound (load size content)) {xs : List α}
    (small : ∀ x ∈ xs, size x ≤ bound) (spreads : spread size bins content xs = some content') :
    Balanced bound (load size content') := by
  suffices general : Balanced bound (load size content') ∧ ∀ x ∈ ([] : List α), size x ≤ bound from general.1
  refine spread_invariant (P := fun now rest =>
    Balanced bound (load size now) ∧ ∀ x ∈ rest, size x ≤ bound) ?_ ⟨balanced,small⟩ spreads
  rintro now next x rest ⟨balanced,small⟩ placing
  obtain ⟨k,_,least,rfl⟩ := place_eq placing
  rw [load_update]
  refine ⟨balanced.update (fun j => least j (complete j)) (small x List.mem_cons_self),fun y member => ?_⟩
  exact small y (List.mem_cons_of_mem x member)

end OcrSuite.Balancing
