import Mathlib.Data.List.Basic

/-! Statements about every place of a list, that is about its members and what stands before them. -/
namespace OcrSuite.Sequence

variable {α : Type} {P : List α → α → Prop} {x : α} {xs : List α}

/-- `P` holds of every member with the members before it. -/
def EveryPlace (P : List α → α → Prop) (xs : List α) : Prop :=
  ∀ front x back, xs = front ++ x :: back → P front x

@[simp] theorem everyPlace_nil : EveryPlace P [] := by
  intro front x back parts
  simp at parts

theorem everyPlace_cons : EveryPlace P (x :: xs) ↔ P [] x ∧ EveryPlace (fun front => P (x :: front)) xs := by
  constructor
  · exact fun all => ⟨all [] x xs rfl,fun front y back parts => all (x :: front) y back (by simp [parts])⟩
  · rintro ⟨first,later⟩ front y back parts
    cases front with
    | nil =>
      obtain ⟨rfl,_⟩ := List.cons.inj parts
      exact first
    | cons z front =>
      obtain ⟨rfl,tail⟩ := List.cons.inj parts
      exact later front y back tail

end OcrSuite.Sequence
