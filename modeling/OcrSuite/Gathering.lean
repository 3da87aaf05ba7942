import Mathlib.Data.List.Basic

/-! Machines that gather inputs and put something out from time to time. Every input belongs to
exactly one output, or it is still waiting for the next one. -/
namespace OcrSuite.Gathering

variable {σ α β : Type}

/-- The state after the inputs, with the outputs in their order. -/
def run (step : σ → α → σ × Option β) : σ → List α → σ × List β
  | s, [] => (s,[])
  | s, a :: rest =>
    let later := run step (step s a).1 rest
    (later.1,(step s a).2.toList ++ later.2)

/-- Inputs that put nothing out. -/
inductive Quiet (step : σ → α → σ × Option β) : σ → List α → σ → Prop where
  | nil : Quiet step s [] s
  | cons : step s a = (t,none) → Quiet step t rest u → Quiet step s (a :: rest) u

/-- Parts of the inputs, each with the output that its last input gave. -/
inductive Parts (step : σ → α → σ × Option β) : σ → List (List α) → List β → σ → Prop where
  | nil : Parts step s [] [] s
  | cons : Quiet step s quiet t → step t a = (u,some b) → Parts step u parts outputs v →
      Parts step s ((quiet ++ [a]) :: parts) (b :: outputs) v

variable {step : σ → α → σ × Option β} {s t : σ}

/-- A quiet input belongs to the next part. -/
theorem Parts.prepend {parts : List (List α)} {part : List α} {outputs : List β} {v : σ} {a : α}
    (moved : step s a = (t,none)) (put : Parts step t (part :: parts) outputs v) :
    Parts step s ((a :: part) :: parts) outputs v := by
  cases put with
  | cons before last later => exact .cons (.cons moved before) last later

/-- The inputs are cut into parts that were put out and a rest that was not. -/
theorem exists_parts (step : σ → α → σ × Option β) (s : σ) (inputs : List α) :
    ∃ parts rest t, inputs = parts.flatten ++ rest ∧ Parts step s parts (run step s inputs).2 t ∧
      Quiet step t rest (run step s inputs).1 := by
  induction inputs generalizing s with
  | nil => exact ⟨[],[],s,rfl,.nil,.nil⟩
  | cons a inputs ih =>
    obtain ⟨parts,rest,t,cut,put,quiet⟩ := ih (step s a).1
    cases out : (step s a).2 with
    | some b =>
      have moved : step s a = ((step s a).1,some b) := Prod.ext rfl out
      refine ⟨[a] :: parts,rest,t,by simp [cut],?_,quiet⟩
      simpa [run,out] using Parts.cons (.nil (s := s)) moved put
    | none =>
      have moved : step s a = ((step s a).1,none) := Prod.ext rfl out
      have same : (run step s (a :: inputs)).2 = (run step (step s a).1 inputs).2 := by simp [run,out]
      rw [same]
      cases parts with
      | nil =>
        generalize (run step (step s a).1 inputs).2 = outputs at put
        cases put
        exact ⟨[],a :: rest,s,by simpa using cut,.nil,.cons moved quiet⟩
      | cons part parts =>
        exact ⟨(a :: part) :: parts,rest,t,by simpa using cut,put.prepend moved,quiet⟩

end OcrSuite.Gathering
