import Mathlib.Data.List.Basic

/-! Partial step functions, their finite runs and the invariants of those runs.
An action that is not enabled has no successor, so a run is a list of actions and
every prefix of it is a possible stopping point. -/
namespace OcrSuite.Transition

variable {σ α σ' α' : Type}

/-- The state after all the actions, if each of them is enabled in its turn. -/
def run (step : σ → α → Option σ) : σ → List α → Option σ
  | s, [] => some s
  | s, a :: rest => (step s a).bind fun t => run step t rest

theorem run_append (step : σ → α → Option σ) (s : σ) (front rest : List α) :
    run step s (front ++ rest) = (run step s front).bind fun t => run step t rest := by
  induction front generalizing s with
  | nil => rfl
  | cons a front ih =>
    rw [List.cons_append,run,run,Option.bind_assoc]
    exact congrArg (Option.bind (step s a)) (funext fun t => ih t)

theorem run_trans {step : σ → α → Option σ} {s t u : σ} {front rest : List α} (first : run step s front = some t)
    (second : run step t rest = some u) : run step s (front ++ rest) = some u := by
  rw [run_append,first]
  exact second

/-- States reached when every step taken meets `cond`. -/
inductive ReachableUnder (step : σ → α → Option σ) (cond : σ → α → Prop) (init : σ) : σ → Prop where
  | start : ReachableUnder step cond init init
  | next : ReachableUnder step cond init s → cond s a → step s a = some t →
      ReachableUnder step cond init t

/-- Reachability without a condition on the steps. -/
abbrev Reachable (step : σ → α → Option σ) (init : σ) : σ → Prop :=
  ReachableUnder step (fun _ _ => True) init

variable {step : σ → α → Option σ} {cond : σ → α → Prop} {init s t : σ}

theorem ReachableUnder.extend (h : Reachable step init s) (taken : step s a = some t) :
    Reachable step init t :=
  .next h trivial taken

theorem ReachableUnder.reachable (h : ReachableUnder step cond init s) : Reachable step init s := by
  induction h with
  | start => exact .start
  | next _ _ taken ih => exact ih.extend taken

/-- An inductive invariant may rely on the reachability of the state it starts from. -/
theorem ReachableUnder.invariant {P : σ → Prop} (base : P init)
    (preserved : ∀ s a t, ReachableUnder step cond init s → P s → cond s a → step s a = some t → P t)
    (h : ReachableUnder step cond init s) : P s := by
  induction h with
  | start => exact base
  | next earlier met taken ih => exact preserved _ _ _ earlier ih met taken

theorem ReachableUnder.trans (first : ReachableUnder step cond init s)
    (second : ReachableUnder step cond s t) : ReachableUnder step cond init t := by
  induction second with
  | start => exact first
  | next _ met taken ih => exact .next ih met taken

theorem reachable_of_run {actions : List α} (ran : run step s actions = some t) :
    Reachable step s t := by
  induction actions generalizing s with
  | nil =>
    cases ran
    exact .start
  | cons a rest ih =>
    obtain ⟨next,taken,later⟩ := Option.bind_eq_some_iff.mp ran
    exact ReachableUnder.trans (.next .start trivial taken) (ih later)

theorem reachableUnder_of_run [∀ s a, Decidable (cond s a)] {actions : List α}
    (ran : run (fun s a => if cond s a then step s a else none) s actions = some t) :
    ReachableUnder step cond s t := by
  induction actions generalizing s with
  | nil =>
    cases ran
    exact .start
  | cons a rest ih =>
    obtain ⟨next,taken,later⟩ := Option.bind_eq_some_iff.mp ran
    obtain ⟨met,taken⟩ := Option.ite_none_right_eq_some.mp taken
    exact ReachableUnder.trans (.next .start met taken) (ih later)

/-- `P` holds of the state after every prefix of the run. -/
def Throughout (step : σ → α → Option σ) (P : σ → Prop) (s : σ) (actions : List α) : Prop :=
  ∀ front t, front <+: actions → run step s front = some t → P t

theorem throughout_of_reachable {P : σ → Prop} (holds : ∀ t, Reachable step s t → P t)
    (actions : List α) : Throughout step P s actions :=
  fun _ t _ ran => holds t (reachable_of_run ran)

/-- Every action of the run is taken in a state that meets `cond`. -/
def StepsMeet (step : σ → α → Option σ) (cond : σ → α → Prop) (s : σ) (actions : List α) : Prop :=
  ∀ front a t, front ++ [a] <+: actions → run step s front = some t → cond t a

theorem throughout_cons {P : σ → Prop} {actions : List α} (taken : step s a = some t) :
    Throughout step P s (a :: actions) ↔ P s ∧ Throughout step P t actions := by
  constructor
  · intro holds
    refine ⟨holds [] s List.nil_prefix rfl,fun front u inside ran => ?_⟩
    exact holds (a :: front) u (List.prefix_cons_inj a |>.mpr inside) (by simpa [run,taken] using ran)
  · rintro ⟨first,later⟩ front u inside ran
    cases front with
    | nil =>
      cases ran
      exact first
    | cons b front =>
      obtain ⟨rfl,shorter⟩ := List.cons_prefix_cons.mp inside
      exact later front u shorter (by simpa [run,taken] using ran)

theorem stepsMeet_cons {actions : List α} (taken : step s a = some t) :
    StepsMeet step cond s (a :: actions) ↔ cond s a ∧ StepsMeet step cond t actions := by
  constructor
  · intro holds
    refine ⟨holds [] a s (by simp) rfl,fun front b u inside ran => ?_⟩
    exact holds (a :: front) b u (List.prefix_cons_inj a |>.mpr inside) (by simpa [run,taken] using ran)
  · rintro ⟨first,later⟩ front b u inside ran
    cases front with
    | nil =>
      obtain ⟨rfl,_⟩ := List.cons_prefix_cons.mp inside
      cases ran
      exact first
    | cons c front =>
      obtain ⟨rfl,shorter⟩ := List.cons_prefix_cons.mp inside
      exact later front b u shorter (by simpa [run,taken] using ran)

/-- Conditions that agree on the states a run can reach are met by the same runs. -/
theorem stepsMeet_congr {cond' : σ → α → Prop} {actions : List α}
    (same : ∀ s a, Reachable step init s → (cond s a ↔ cond' s a)) :
    StepsMeet step cond init actions ↔ StepsMeet step cond' init actions :=
  forall₃_congr fun _ a t => imp_congr_right fun _ => forall_congr' fun ran =>
    same t a (reachable_of_run ran)

/-- If a step keeps `P` exactly when it meets `cond`, a run keeps `P` throughout
exactly when all its steps meet `cond`. Exactness is needed only after steps that did. -/
theorem throughout_iff_stepsMeet {P : σ → Prop} (base : P init)
    (exact : ∀ s a t, ReachableUnder step cond init s → P s → step s a = some t → (P t ↔ cond s a))
    {actions : List α} {final : σ} (ran : run step init actions = some final) :
    Throughout step P init actions ↔ StepsMeet step cond init actions := by
  suffices general : ∀ s, ReachableUnder step cond init s → P s → run step s actions = some final →
      (Throughout step P s actions ↔ StepsMeet step cond s actions) from general init .start base ran
  clear ran base
  induction actions with
  | nil =>
    intro s _ holds _
    constructor
    · intro _ front a t inside
      simp at inside
    · intro _ front t inside ran
      cases List.prefix_nil.mp inside
      cases ran
      exact holds
  | cons a rest ih =>
    intro s reached holds ran
    obtain ⟨next,taken,later⟩ := Option.bind_eq_some_iff.mp ran
    rw [throughout_cons taken,stepsMeet_cons taken]
    constructor
    · rintro ⟨_,holdsLater⟩
      have met : cond s a :=
        (exact s a next reached holds taken).mp (holdsLater [] next List.nil_prefix rfl)
      have nextHolds := (exact s a next reached holds taken).mpr met
      exact ⟨met,(ih next (.next reached met taken) nextHolds later).mp holdsLater⟩
    · rintro ⟨met,metLater⟩
      have nextHolds := (exact s a next reached holds taken).mpr met
      exact ⟨holds,(ih next (.next reached met taken) nextHolds later).mpr metLater⟩

section Simulation

variable {step' : σ' → α' → Option σ'} {init' : σ'}

/-- A simulation with stuttering lifts from steps to reachable states: each of them has
a related state that the other system reaches. -/
theorem ReachableUnder.related {R : σ → σ' → Prop} (initial : R init init')
    (simulated : ∀ s a t c, R s c → step s a = some t → ∃ c', Reachable step' c c' ∧ R t c')
    (h : Reachable step init s) : ∃ c, Reachable step' init' c ∧ R s c := by
  induction h with
  | start => exact ⟨init',.start,initial⟩
  | next _ _ taken ih =>
    obtain ⟨c,before,matched⟩ := ih
    obtain ⟨c',after,matched'⟩ := simulated _ _ _ c matched taken
    exact ⟨c',before.trans after,matched'⟩

/-- The simulation that is the graph of a function. -/
theorem ReachableUnder.simulate (abs : σ → σ')
    (simulated : ∀ s a t, step s a = some t → Reachable step' (abs s) (abs t))
    (h : Reachable step init s) : Reachable step' (abs init) (abs s) := by
  obtain ⟨c,reached,rfl⟩ := h.related (R := fun s c => abs s = c) rfl (by
    rintro s a t _ rfl taken
    exact ⟨abs t,simulated s a t taken,rfl⟩)
  exact reached

end Simulation

end OcrSuite.Transition
