import Mathlib.Algebra.BigOperators.Intervals
import OcrSuite.Execution
import OcrSuite.Monitoring

/-! `Executor.execute` with what its threads do: each runs a process for its file and reads the output of that
process to the end. -/
namespace OcrSuite

open Transition Monitoring PathNames FileFilter

/-- `monitor` is nothing at a thread whose process could not be started; `ended` are the files that threads are
done with, with what became of the process. -/
structure Supervision (α σ : Type) (k : Nat) where
  execution : Execution α k
  monitor : Fin k → Option (Monitoring σ)
  ended : List (α × Option (Monitoring σ))

namespace Supervision

variable {α σ : Type} {k : Nat}

inductive Action (k : Nat) where
  | main (a : Execution.Action k)
  | start (i : Fin k) (spawned : Bool)
  | process (i : Fin k) (a : Monitoring.Action)
  | finish (i : Fin k)

def start (files : List α) : Supervision α σ k := ⟨.start files,fun _ => none,[]⟩

/-- The threads take and finish files. -/
def ofMain : Execution.Action k → Bool
  | .start _ | .finish _ => false
  | _ => true

instance (m : Monitoring σ) : Decidable (Left m) :=
  decidable_of_iff (m.waited = true ∧ (m.pc = .done ∨ m.pc = .failed true ∨ m.pc = .failed false))
    (by simp [Left,or_comm])

/-- `output` is what the processes write, in the order in which they are started. -/
def step (methods : α → Methods σ) (output : Nat → List (Fd × Char)) (shown : σ) (capacity : Nat)
    (s : Supervision α σ k) : Action k → Option (Supervision α σ k)
  | .main a =>
    if ofMain a then (s.execution.step a).map fun execution => { s with execution := execution } else none
  | .start i spawned =>
    (s.execution.step (.start i)).map fun execution => { s with
      execution := execution
      monitor := Function.update s.monitor i
        (if spawned then some (.start (output s.execution.pool.started.length) shown) else none) }
  | .process i a => do
    let file ← s.execution.pool.running i
    let m ← s.monitor i
    let m ← m.step (methods file) capacity a
    return { s with monitor := Function.update s.monitor i (some m) }
  | .finish i => do
    let file ← s.execution.pool.running i
    if ∀ m ∈ s.monitor i, Left m then
      (s.execution.step (.finish i)).map fun execution => { s with
        execution := execution
        monitor := Function.update s.monitor i none
        ended := s.ended ++ [(file,s.monitor i)] }
    else none

/-! ## What the steps of the execution do -/

/-- How many files are still to be taken. -/
def due (e : Execution α k) : Nat := e.pool.pending.length + ((Execution.unsubmitted e.pc).getD []).length

theorem step_ofMain {e e' : Execution α k} {a : Execution.Action k} (main : ofMain a = true)
    (taken : e.step a = some e') : e'.pool.running = e.pool.running ∧ e'.pool.ended = e.pool.ended ∧
      e'.pool.started = e.pool.started ∧ due e' ≤ due e := by
  cases Execution.step_stepped taken with
  | submitted file rest pool pc done =>
    cases Pool.performed_of_perform done
    simp [due,pc,Execution.unsubmitted]
    omega
  | awaited pc => simp [due,pc,Execution.unsubmitted]
  | advanced n pc => simp [due,pc,Execution.unsubmitted]
  | completed pc => simp [due,pc,Execution.unsubmitted]
  | closed a finished which => cases finished <;> simp [due,Execution.unsubmitted]
  | interrupted pc which =>
    rcases which with ⟨_,rfl⟩ | ⟨_,rfl⟩ <;> simp [due,Execution.unsubmitted]
  | cancelled pool pc done =>
    cases Pool.performed_of_perform done
    simp [due,Execution.unsubmitted]
  | worked a op pool which =>
    obtain ⟨i,⟨rfl,_⟩ | ⟨rfl,_⟩⟩ := which <;> cases main

theorem step_start {e e' : Execution α k} {i : Fin k} (taken : e.step (.start i) = some e') :
    ∃ file, e.pool.running i = none ∧ e'.pool.running = Function.update e.pool.running i (some file) ∧
      e'.pool.ended = e.pool.ended ∧ e'.pool.started.length = e.pool.started.length + 1 ∧ due e = due e' + 1 := by
  obtain ⟨pool,done,⟨⟩⟩ := Option.bind_eq_some_iff.mp taken
  cases Pool.performed_of_perform done with
  | started _ file rest free queued =>
    refine ⟨file,free,rfl,rfl,by simp,?_⟩
    simp only [due,queued,List.length_cons]
    omega

theorem step_finish {e e' : Execution α k} {i : Fin k} (taken : e.step (.finish i) = some e') :
    ∃ file, e.pool.running i = some file ∧ e'.pool.running = Function.update e.pool.running i none ∧
      e'.pool.ended = e.pool.ended ++ [file] ∧ e'.pool.started = e.pool.started ∧ due e' = due e := by
  obtain ⟨pool,done,⟨⟩⟩ := Option.bind_eq_some_iff.mp taken
  cases Pool.performed_of_perform done with
  | finished _ file busy => exact ⟨file,busy,rfl,rfl,rfl,rfl⟩

/-! ## The invariant -/

variable {methods : α → Methods σ} {output : Nat → List (Fd × Char)} {shown : σ}
  {capacity : Nat} {files : List α} {s t : Supervision α σ k} {a : Action k}

/-- A process as it may come to be. -/
def ProcessOf (methods : α → Methods σ) (output : Nat → List (Fd × Char)) (shown : σ)
    (capacity : Nat) (file : α) (m : Monitoring σ) : Prop :=
  ∃ n, Reachable (Monitoring.step (methods file) capacity) (.start (output n) shown) m

structure Invariant (methods : α → Methods σ) (output : Nat → List (Fd × Char)) (shown : σ)
    (capacity : Nat) (files : List α) (s : Supervision α σ k) : Prop where
  execution : s.execution.Invariant files
  monitor : ∀ i m, s.monitor i = some m →
    ∃ file, s.execution.pool.running i = some file ∧ ProcessOf methods output shown capacity file m
  ended : s.ended.map Prod.fst = s.execution.pool.ended
  left : ∀ file m, (file,some m) ∈ s.ended → Left m ∧ ProcessOf methods output shown capacity file m

theorem start_invariant (files : List α) :
    Invariant methods output shown capacity files (start files : Supervision α σ k) where
  execution := Execution.start_invariant files
  monitor := by simp [start]
  ended := rfl
  left := by simp [start]

theorem step_invariant (valid : Invariant methods output shown capacity files s)
    (taken : step methods output shown capacity s a = some t) : Invariant methods output shown capacity files t := by
  cases a with
  | main a =>
    obtain ⟨main,taken⟩ := Option.ite_none_right_eq_some.mp taken
    obtain ⟨e,moved,rfl⟩ := Option.map_eq_some_iff.mp taken
    obtain ⟨running,ended,_⟩ := step_ofMain main moved
    refine ⟨Execution.step_invariant valid.execution moved,?_,valid.ended.trans ended.symm,valid.left⟩
    simpa only [running] using valid.monitor
  | start i spawned =>
    obtain ⟨e,moved,rfl⟩ := Option.map_eq_some_iff.mp taken
    obtain ⟨file,free,running,ended,_⟩ := step_start moved
    refine ⟨Execution.step_invariant valid.execution moved,fun j m there => ?_,valid.ended.trans ended.symm,
      valid.left⟩
    simp only [running]
    dsimp only at there
    by_cases same : j = i
    · subst j
      rw [Function.update_self] at there ⊢
      cases spawned with
      | true =>
        obtain ⟨⟩ := there
        exact ⟨file,rfl,_,.start⟩
      | false => cases there
    · rw [Function.update_of_ne same] at there ⊢
      exact valid.monitor j m there
  | process i a =>
    obtain ⟨file,busy,taken⟩ := Option.bind_eq_some_iff.mp taken
    obtain ⟨m,there,taken⟩ := Option.bind_eq_some_iff.mp taken
    obtain ⟨m',moved,⟨⟩⟩ := Option.bind_eq_some_iff.mp taken
    refine ⟨valid.execution,fun j n here => ?_,valid.ended,valid.left⟩
    dsimp only at here
    by_cases same : j = i
    · subst j
      rw [Function.update_self] at here
      obtain ⟨⟩ := here
      obtain ⟨file',busy',number,reached⟩ := valid.monitor i m there
      obtain rfl := Option.some.inj (busy.symm.trans busy')
      exact ⟨file,busy,number,reached.extend moved⟩
    · rw [Function.update_of_ne same] at here
      exact valid.monitor j n here
  | finish i =>
    obtain ⟨file,busy,taken⟩ := Option.bind_eq_some_iff.mp taken
    obtain ⟨ends,taken⟩ := Option.ite_none_right_eq_some.mp taken
    obtain ⟨e,moved,rfl⟩ := Option.map_eq_some_iff.mp taken
    obtain ⟨file',busy',running,ended,_⟩ := step_finish moved
    obtain rfl := Option.some.inj (busy.symm.trans busy')
    refine ⟨Execution.step_invariant valid.execution moved,fun j m there => ?_,?_,fun file' m member => ?_⟩
    · dsimp only at there
      by_cases same : j = i
      · subst j
        simp at there
      · rw [Function.update_of_ne same] at there
        simpa only [running,Function.update_of_ne same] using valid.monitor j m there
    · simp [ended,valid.ended]
    · rcases List.mem_append.mp member with old | new
      · exact valid.left file' m old
      · obtain ⟨rfl,found⟩ := Prod.mk.inj (List.mem_singleton.mp new)
        obtain ⟨other,there,made⟩ := valid.monitor i m found.symm
        obtain rfl := Option.some.inj (busy.symm.trans there)
        exact ⟨ends m found.symm,made⟩

/-- A thread without a file has no process. -/
theorem Invariant.monitor_of_idle (valid : Invariant methods output shown capacity files s) {i : Fin k}
    (idle : s.execution.pool.running i = none) : s.monitor i = none := by
  cases here : s.monitor i with
  | none => rfl
  | some m =>
    obtain ⟨file,busy,_⟩ := valid.monitor i m here
    cases busy.symm.trans idle

theorem reachable_invariant (reached : Reachable (step methods output shown capacity) (start files) s) :
    Invariant methods output shown capacity files s :=
  reached.invariant (start_invariant files) fun _ _ _ _ valid _ taken => step_invariant valid taken

/-! ## What was done -/

/-- Every file was processed when `execute` returns without an interrupt, and those that were taken after one. No
process is left then, and of each that has ended the output was read as `_monitor_output` reads it. -/
structure Outcome (methods : α → Methods σ) (output : Nat → List (Fd × Char)) (shown : σ)
    (files : List α) (s : Supervision α σ k) : Prop where
  all : s.execution.pc = .returned true → (s.ended.map Prod.fst).Perm files
  taken : s.execution.pc = .returned false → ∃ front, front <+: files ∧ (s.ended.map Prod.fst).Perm front
  none : ∀ finished, s.execution.pc = .returned finished → ∀ i, s.monitor i = none
  read : ∀ file m, (file,some m) ∈ s.ended → Left m ∧ ∃ n, Monitoring.Outcome (methods file) (output n) shown m

theorem Invariant.outcome (valid : Invariant methods output shown capacity files s) :
    Outcome methods output shown files s where
  all returned := valid.ended ▸ valid.execution.ended returned
  taken returned := by
    have idle := valid.execution.closed false returned
    refine ⟨s.execution.pool.started,?_,valid.ended ▸ valid.execution.pool.idle idle.running⟩
    exact ((List.prefix_append _ _).trans valid.execution.pool.order).trans valid.execution.order
  none finished returned i := valid.monitor_of_idle ((valid.execution.closed finished returned).running i)
  read file m member := by
    obtain ⟨left,n,reached⟩ := valid.left file m member
    exact ⟨left,n,(Monitoring.reachable_invariant reached).outcome⟩

/-! ## The end -/

/-- Without another interrupt, and as it is calm for each thread. -/
def Calm : Action k → Prop
  | .main a => a ≠ .interrupt
  | .process _ a => Monitoring.Calm a
  | _ => True

def Kills : Action k → Prop
  | .process _ a => a = .kill
  | _ => False

/-- What the processes that are not yet started will need. -/
def budget (output : Nat → List (Fd × Char)) (shown : σ) (e : Execution α k) : Nat :=
  ∑ n ∈ Finset.Ico e.pool.started.length (e.pool.started.length + due e),
    Monitoring.measure (.start (output n) shown)

def monitorMeasure (m : Option (Monitoring σ)) : Nat := m.elim 0 Monitoring.measure

/-- A bound on the calm actions. -/
def measure (output : Nat → List (Fd × Char)) (shown : σ) (s : Supervision α σ k) : Nat :=
  s.execution.measure + budget output shown s.execution + ∑ i, monitorMeasure (s.monitor i)

theorem budget_start (output : Nat → List (Fd × Char)) (shown : σ) {e e' : Execution α k} {i : Fin k}
    (taken : e.step (.start i) = some e') :
    budget output shown e =
      Monitoring.measure (.start (output e.pool.started.length) shown) + budget output shown e' := by
  obtain ⟨file,_,_,_,number,fewer⟩ := step_start taken
  have bounds : e.pool.started.length + (due e' + 1) = e.pool.started.length + 1 + due e' := by omega
  rw [budget,budget,number,fewer,Finset.sum_eq_sum_Ico_succ_bot (by omega),bounds]

theorem step_measure (valid : Invariant methods output shown capacity files s) (calm : Calm a)
    (taken : step methods output shown capacity s a = some t) :
    measure output shown t < measure output shown s := by
  have update (i : Fin k) (m : Option (Monitoring σ)) :=
    Conservation.sum_update (fun _ => monitorMeasure) s.monitor i m
  cases a with
  | main a =>
    obtain ⟨main,taken⟩ := Option.ite_none_right_eq_some.mp taken
    obtain ⟨e,moved,rfl⟩ := Option.map_eq_some_iff.mp taken
    obtain ⟨_,_,started,fewer⟩ := step_ofMain main moved
    have falls := Execution.step_measure valid.execution calm moved
    have less : budget output shown e ≤ budget output shown s.execution := by
      rw [budget,budget,started]
      exact Finset.sum_le_sum_of_subset (Finset.Ico_subset_Ico_right (by omega))
    simp only [measure]
    omega
  | start i spawned =>
    obtain ⟨e,moved,rfl⟩ := Option.map_eq_some_iff.mp taken
    have falls := Execution.step_measure valid.execution (by simp) moved
    have first := budget_start output shown moved
    obtain ⟨file,free,_⟩ := step_start moved
    have unused := valid.monitor_of_idle free
    have sum := update i (if spawned then some (.start (output s.execution.pool.started.length) shown) else none)
    have most : monitorMeasure (if spawned then some (Monitoring.start (output s.execution.pool.started.length) shown)
        else none) ≤ Monitoring.measure (.start (output s.execution.pool.started.length) shown) := by
      cases spawned
      · exact Nat.zero_le _
      · exact Nat.le_refl _
    have zero : monitorMeasure (s.monitor i) = 0 := by rw [unused]; rfl
    simp only [measure]
    omega
  | process i a =>
    obtain ⟨file,busy,taken⟩ := Option.bind_eq_some_iff.mp taken
    obtain ⟨m,there,taken⟩ := Option.bind_eq_some_iff.mp taken
    obtain ⟨m',moved,⟨⟩⟩ := Option.bind_eq_some_iff.mp taken
    obtain ⟨file',busy',_,reached⟩ := valid.monitor i m there
    obtain rfl := Option.some.inj (busy.symm.trans busy')
    have falls := Monitoring.step_measure (Monitoring.reachable_invariant reached) calm moved
    have sum := update i (some m')
    have before : monitorMeasure (s.monitor i) = m.measure := by rw [there]; rfl
    have after : monitorMeasure (some m') = m'.measure := rfl
    simp only [measure]
    omega
  | finish i =>
    obtain ⟨file,busy,taken⟩ := Option.bind_eq_some_iff.mp taken
    obtain ⟨_,taken⟩ := Option.ite_none_right_eq_some.mp taken
    obtain ⟨e,moved,rfl⟩ := Option.map_eq_some_iff.mp taken
    obtain ⟨_,_,_,_,started,same⟩ := step_finish moved
    have falls := Execution.step_measure valid.execution (by simp) moved
    have budgets : budget output shown e = budget output shown s.execution := by rw [budget,budget,started,same]
    have sum := update i none
    have zero : monitorMeasure (none : Option (Monitoring σ)) = 0 := rfl
    simp only [measure]
    omega

/-- Another thread may still be at work, but this one waits for a process that waits for room in a pipe. -/
def StuckAt (capacity : Nat) (s : Supervision α σ k) (i : Fin k) : Prop := ∃ m, s.monitor i = some m ∧ Stuck capacity m

theorem exists_calm (threads : 0 < k) (positive : 0 < capacity)
    (valid : Invariant methods output shown capacity files s)
    (busy : ¬ (Execution.Left s.execution ∨ ∃ i, StuckAt capacity s i)) :
    ∃ a : Action k, (Calm a ∧ ¬ Kills a) ∧ (step methods output shown capacity s a).isSome = true := by
  rw [not_or] at busy
  obtain ⟨a,calm,enabled⟩ := Execution.exists_calm threads valid.execution busy.1
  by_cases main : ofMain a = true
  · exact ⟨.main a,⟨calm,by simp [Kills]⟩,by simp [step,main,enabled]⟩
  · cases a with
    | start i => exact ⟨.start i true,⟨trivial,by simp [Kills]⟩,by simp [step,enabled]⟩
    | finish i =>
      obtain ⟨e,taken⟩ := Option.isSome_iff_exists.mp enabled
      obtain ⟨file,here,_⟩ := step_finish taken
      by_cases left : ∀ m ∈ s.monitor i, Left m
      · exact ⟨.finish i,⟨trivial,by simp [Kills]⟩,by simpa [step,here,taken] using left⟩
      · simp only [not_forall] at left
        obtain ⟨m,there,going⟩ := left
        obtain ⟨file',here',n,reached⟩ := valid.monitor i m there
        obtain rfl := Option.some.inj (here.symm.trans here')
        obtain ⟨a,⟨calm',alive⟩,enabled'⟩ := Monitoring.exists_calm positive (Monitoring.reachable_invariant reached)
          fun ends => ends.elim going fun stuck => busy.2 ⟨i,m,there,stuck⟩
        obtain ⟨m',moved⟩ := Option.isSome_iff_exists.mp enabled'
        exact ⟨.process i a,⟨calm',alive⟩,by simp [step,here,Option.mem_def.mp there,moved]⟩
    | _ => exact absurd rfl main

/-- Processes whose output leaves none of them stuck. -/
theorem Invariant.not_stuckAt (valid : Invariant methods output shown capacity files s) (positive : 0 < capacity)
    (flows : ∀ n, Flows capacity (output n)) (reports : ∀ file n, Reports (methods file) capacity (output n))
    (i : Fin k) : ¬ StuckAt capacity s i := by
  rintro ⟨m,there,stuck⟩
  obtain ⟨file,_,n,reached⟩ := valid.monitor i m there
  have valid' := Monitoring.reachable_invariant reached
  rcases stuck with ⟨fd,other,stuck⟩ | ⟨fd,stuck⟩
  · exact valid'.not_deadlocked positive (flows n) fd other stuck
  · exact valid'.not_abandoned (reports file n) fd stuck

theorem reachable_measure (s : Supervision α σ k) (a : Action k) (t : Supervision α σ k)
    (reached : Reachable (step methods output shown capacity) (start files) s) (calm : Calm a)
    (taken : step methods output shown capacity s a = some t) : measure output shown t < measure output shown s :=
  step_measure (reachable_invariant reached) calm taken

/-- `execute` with its processes: it comes to its end with the output of each process read, wherever it is
interrupted, if no further interrupt comes and no thread is stuck with its process. -/
theorem execute_supervised (methods : Path → Methods σ) (output : Nat → List (Fd × Char)) (shown : σ)
    (files : List Path) (threads : 0 < k) (positive : 0 < capacity) (actions : List (Action k))
    (s : Supervision Path σ k)
    (ran : run (step methods output shown capacity) (start (submitted files)) actions = some s) :
    Outcome methods output shown (submitted files) s ∧
    (∃ more t, (∀ a ∈ more, Calm a ∧ ¬ Kills a) ∧ run (step methods output shown capacity) s more = some t ∧
      (Execution.Left t.execution ∨ ∃ i, StuckAt capacity t i)) ∧
    (∀ more t, (∀ a ∈ more, Calm a) → run (step methods output shown capacity) s more = some t →
      more.length ≤ measure output shown s ∧
      ((∀ a : Action k, Calm a → ¬ Kills a → step methods output shown capacity t a = none) →
        Execution.Left t.execution ∨ ∃ i, StuckAt capacity t i)) ∧
    ((∀ n, Flows capacity (output n)) → (∀ file n, Reports (methods file) capacity (output n)) →
      ∀ more t, run (step methods output shown capacity) s more = some t → ∀ i, ¬ StuckAt capacity t i) := by
  have reached := reachable_of_run ran
  refine ⟨(reachable_invariant reached).outcome,?_,fun more t calm later => ⟨?_,fun rest => ?_⟩,
    fun flows reports more t later => ?_⟩
  · exact exists_final (fun s => Execution.Left s.execution ∨ ∃ i, StuckAt capacity s i)
      (fun s a t reached allowed taken => reachable_measure s a t reached allowed.1 taken)
      (fun _ reached busy => exists_calm threads positive (reachable_invariant reached) busy) reached
  · have bound := run_measure reachable_measure reached calm later
    omega
  · by_contra busy
    obtain ⟨a,⟨quiet,alive⟩,enabled⟩ := exists_calm threads positive
      (reachable_invariant (reached.trans (reachable_of_run later))) busy
    simp [rest a quiet alive] at enabled
  · exact (reachable_invariant (reached.trans (reachable_of_run later))).not_stuckAt positive flows reports

/-- Interrupted in the middle of a line of the first of two files, which come in the other order. -/
theorem execute_supervised_witness :
    let methods : Path → Methods Nat := fun _ => ⟨fun _ _ shown => some (shown + 1),fun _ _ shown => some shown⟩
    let output : Nat → List (Fd × Char) := fun _ => [(.stdout,'a'),(.stdout,'\n')]
    let files : List Path := [⟨true,["b.mp4"],by decide⟩,⟨true,["a.mp4"],by decide⟩]
    let actions : List (Action 1) := [.main .submit,.start 0 true,.main .submit,.process 0 .write,.main .interrupt]
    ∃ (s t : Supervision Path Nat 1) (more : List (Action 1)),
      run (step methods output 0 64) (start (submitted files)) actions = some s ∧ (∀ a ∈ more, Calm a ∧ ¬ Kills a) ∧
      run (step methods output 0 64) s more = some t ∧ Execution.Left t.execution ∧
      Outcome methods output 0 (submitted files) t := by
  intro methods output files actions
  have flows (n : Nat) : Flows 64 (output n) := by
    intro fd other different
    refine .inr ?_
    have whole := List.length_filterMap_le (fun x : Fd × Char => if x.1 = other then some x.2 else none) (output n)
    exact Nat.lt_of_le_of_lt whole (by decide)
  obtain ⟨s,ran⟩ : ∃ s : Supervision Path Nat 1,
      run (step methods output 0 64) (start (submitted files)) actions = some s := by
    have sorted : submitted files = files.reverse := submitted_eq (by decide) (by decide)
    rw [sorted]
    exact ⟨_,rfl⟩
  obtain ⟨_,⟨more,t,allowed,later,ends⟩,_,free⟩ :=
    execute_supervised methods output 0 files (by decide) (by decide) actions s ran
  have left := ends.resolve_right fun ⟨i,stuck⟩ =>
    free flows (fun _ _ => .inl fun _ _ _ _ => rfl) more t later i stuck
  have whole := (execute_supervised methods output 0 files (by decide) (by decide) _ t (run_trans ran later)).1
  exact ⟨s,t,more,ran,allowed,later,left,whole⟩

end Supervision

end OcrSuite
