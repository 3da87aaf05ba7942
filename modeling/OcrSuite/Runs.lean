import OcrSuite.Transition

/-! Runs as a whole: what happened in them, and that they come to an end if a measure falls with every
step of a kind and a step of that kind is left wherever the run is not over. -/
namespace OcrSuite.Transition

variable {σ α : Type} {step : σ → α → Option σ} {init s t : σ} {measure : σ → Nat} {allowed : α → Prop}

/-- Something holds after a run exactly if it held before or one of the actions brought it about. -/
theorem run_brought {P : σ → Prop} {brings : α → Prop}
    (exact : ∀ s a t, step s a = some t → (P t ↔ P s ∨ brings a)) {actions : List α}
    (ran : run step s actions = some t) : P t ↔ P s ∨ ∃ a ∈ actions, brings a := by
  induction actions generalizing s with
  | nil =>
    cases ran
    simp
  | cons a rest ih =>
    obtain ⟨next,taken,later⟩ := Option.bind_eq_some_iff.mp ran
    rw [ih later,exact s a next taken,or_assoc]
    simp

/-- What actions of a kind keep holds after a run of them. -/
theorem run_kept {P : σ → Prop} (kept : ∀ s a t, allowed a → P s → step s a = some t → P t) {actions : List α}
    (all : ∀ a ∈ actions, allowed a) (ran : run step s actions = some t) (base : P s) : P t := by
  induction actions generalizing s with
  | nil =>
    cases ran
    exact base
  | cons a rest ih =>
    obtain ⟨next,taken,later⟩ := Option.bind_eq_some_iff.mp ran
    exact ih (fun b member => all b (by simp [member])) later (kept s a next (all a (by simp)) base taken)

/-- The measure need fall only in the states that are reached. -/
theorem run_measure
    (falls : ∀ s a t, Reachable step init s → allowed a → step s a = some t → measure t < measure s)
    (reached : Reachable step init s) {actions : List α} (all : ∀ a ∈ actions, allowed a)
    (ran : run step s actions = some t) : measure t + actions.length ≤ measure s := by
  induction actions generalizing s with
  | nil =>
    cases ran
    exact Nat.le_refl _
  | cons a rest ih =>
    obtain ⟨next,taken,later⟩ := Option.bind_eq_some_iff.mp ran
    have here := falls s a next reached (all a (by simp)) taken
    have there := ih (reached.extend taken) (fun b member => all b (by simp [member])) later
    simp only [List.length_cons]
    omega

theorem exists_final (final : σ → Prop)
    (falls : ∀ s a t, Reachable step init s → allowed a → step s a = some t → measure t < measure s)
    (progress : ∀ s, Reachable step init s → ¬final s → ∃ a, allowed a ∧ (step s a).isSome = true)
    (reached : Reachable step init s) :
    ∃ actions t, (∀ a ∈ actions, allowed a) ∧ run step s actions = some t ∧ final t := by
  induction bound : measure s using Nat.strongRecOn generalizing s with
  | ind n ih =>
    by_cases ended : final s
    · exact ⟨[],s,by simp,rfl,ended⟩
    · obtain ⟨a,may,enabled⟩ := progress s reached ended
      obtain ⟨next,taken⟩ := Option.isSome_iff_exists.mp enabled
      obtain ⟨actions,t,all,ran,done⟩ :=
        ih (measure next) (bound ▸ falls s a next reached may taken) (reached.extend taken) rfl
      refine ⟨a :: actions,t,?_,by simp [run,taken,ran],done⟩
      simpa using ⟨may,all⟩

/-! ## Simulation -/

section Simulation

variable {τ β γ : Type} {step' : τ → β → Option τ} {abstract : σ → τ} {seen : α → List γ}
  {seen' : β → List γ}

/-- A step that is some steps of the other machine, in which the same is seen, makes a run one of its runs. -/
theorem exists_run_of_simulation
    (simulates : ∀ s a t, Reachable step init s → step s a = some t →
      ∃ bs, run step' (abstract s) bs = some (abstract t) ∧ bs.flatMap seen' = seen a)
    (reached : Reachable step init s) {actions : List α} (ran : run step s actions = some t) :
    ∃ bs, run step' (abstract s) bs = some (abstract t) ∧ bs.flatMap seen' = actions.flatMap seen := by
  induction actions generalizing s with
  | nil =>
    cases ran
    exact ⟨[],rfl,rfl⟩
  | cons a rest ih =>
    obtain ⟨next,taken,later⟩ := Option.bind_eq_some_iff.mp ran
    obtain ⟨front,first,shown⟩ := simulates s a next reached taken
    obtain ⟨back,second,shown'⟩ := ih (reached.extend taken) later
    refine ⟨front ++ back,run_trans first second,?_⟩
    rw [List.flatMap_append,shown,shown',List.flatMap_cons]

end Simulation

end OcrSuite.Transition
