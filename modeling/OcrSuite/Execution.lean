import OcrSuite.FileFilter
import OcrSuite.Pool
import OcrSuite.Runs

/-! `Executor.execute`: the files are given to a pool of threads, each of which runs the application for one
file at a time; an interrupt cancels those that no thread has taken. -/
namespace OcrSuite

open Transition PathNames FileFilter

/-- Where the main thread is, while it submits files, counts what is completed, and shuts the pool down. A
second interrupt leaves `execute` with an exception. -/
inductive Execution.Pc (α : Type) where
  | submitting (rest : List α)
  | completing (advanced : Nat)
  | shutting
  | cancelling
  | joining
  | returned (finished : Bool)
  | raised

/-- `futures` are the files that were submitted. -/
structure Execution (α : Type) (k : Nat) where
  pool : Pool α k
  futures : List α
  pc : Execution.Pc α

namespace Execution

variable {α : Type} {k : Nat}

inductive Action (k : Nat) where
  | submit
  | await
  | advance
  | complete
  | shutdown
  | interrupt
  | cancel
  | join
  | start (i : Fin k)
  | finish (i : Fin k)

/-- With the files in order. -/
def start (files : List α) : Execution α k := ⟨.new,[],.submitting files⟩

/-- What `_run_one` makes of its process, or that it throws, does not matter to `execute`. -/
def step (s : Execution α k) : Action k → Option (Execution α k)
  | .submit =>
    match s.pc with
    | .submitting (file :: rest) => do
      let pool ← s.pool.perform (.submit file)
      return ⟨pool,s.futures ++ [file],.submitting rest⟩
    | _ => none
  | .await =>
    match s.pc with
    | .submitting [] => some { s with pc := .completing 0 }
    | _ => none
  | .advance =>
    match s.pc with
    | .completing n => if n < s.pool.ended.length then some { s with pc := .completing (n + 1) } else none
    | _ => none
  | .complete =>
    match s.pc with
    | .completing n => if n = s.futures.length then some { s with pc := .shutting } else none
    | _ => none
  | .shutdown =>
    match s.pc with
    | .shutting =>
      if s.pool.pending.isEmpty ∧ ∀ i, (s.pool.running i).isNone then some { s with pc := .returned true }
      else none
    | _ => none
  | .interrupt =>
    match s.pc with
    | .submitting _ | .completing _ | .shutting => some { s with pc := .cancelling }
    | .cancelling | .joining => some { s with pc := .raised }
    | _ => none
  | .cancel =>
    match s.pc with
    | .cancelling => do
      let pool ← s.pool.perform .cancel
      return { s with pool := pool, pc := .joining }
    | _ => none
  | .join =>
    match s.pc with
    | .joining =>
      if s.pool.pending.isEmpty ∧ ∀ i, (s.pool.running i).isNone then some { s with pc := .returned false }
      else none
    | _ => none
  | .start i => do
    let pool ← s.pool.perform (.start i)
    return { s with pool := pool }
  | .finish i => do
    let pool ← s.pool.perform (.finish i)
    return { s with pool := pool }

/-! ## The steps -/

inductive Stepped (s : Execution α k) : Action k → Execution α k → Prop where
  | submitted (file : α) (rest : List α) (pool : Pool α k) : s.pc = .submitting (file :: rest) →
      s.pool.perform (.submit file) = some pool →
      Stepped s .submit ⟨pool,s.futures ++ [file],.submitting rest⟩
  | awaited : s.pc = .submitting [] → Stepped s .await { s with pc := .completing 0 }
  | advanced (n : Nat) : s.pc = .completing n → n < s.pool.ended.length →
      Stepped s .advance { s with pc := .completing (n + 1) }
  | completed : s.pc = .completing s.futures.length → Stepped s .complete { s with pc := .shutting }
  | closed (a : Action k) (finished : Bool) : a = .shutdown ∧ s.pc = .shutting ∧ finished = true ∨
      a = .join ∧ s.pc = .joining ∧ finished = false → s.pool.Idle →
      Stepped s a { s with pc := .returned finished }
  | interrupted (pc : Pc α) :
      ((∃ rest, s.pc = .submitting rest) ∨ (∃ n, s.pc = .completing n) ∨ s.pc = .shutting) ∧ pc = .cancelling ∨
      (s.pc = .cancelling ∨ s.pc = .joining) ∧ pc = .raised → Stepped s .interrupt { s with pc := pc }
  | cancelled (pool : Pool α k) : s.pc = .cancelling → s.pool.perform .cancel = some pool →
      Stepped s .cancel { s with pool := pool, pc := .joining }
  | worked (a : Action k) (op : Pool.Op α k) (pool : Pool α k) :
      (∃ i, a = .start i ∧ op = .start i ∨ a = .finish i ∧ op = .finish i) → s.pool.perform op = some pool →
      Stepped s a { s with pool := pool }

theorem idle_of_closed {p : Pool α k} (closed : p.pending.isEmpty ∧ ∀ i, (p.running i).isNone) : p.Idle :=
  ⟨List.isEmpty_iff.mp closed.1,fun i => Option.isNone_iff_eq_none.mp (closed.2 i)⟩

theorem step_stepped {s t : Execution α k} {a : Action k} (taken : step s a = some t) : Stepped s a t := by
  cases a with
  | submit =>
    simp only [step] at taken
    split at taken
    case h_1 file rest pc =>
      obtain ⟨pool,done,⟨⟩⟩ := Option.bind_eq_some_iff.mp taken
      exact .submitted file rest pool pc done
    case h_2 => cases taken
  | await =>
    simp only [step] at taken
    split at taken
    case h_1 pc =>
      obtain ⟨⟩ := taken
      exact .awaited pc
    case h_2 => cases taken
  | advance =>
    simp only [step] at taken
    split at taken
    case h_1 n pc =>
      obtain ⟨ended,⟨⟩⟩ := Option.ite_none_right_eq_some.mp taken
      exact .advanced n pc ended
    case h_2 => cases taken
  | complete =>
    simp only [step] at taken
    split at taken
    case h_1 n pc =>
      obtain ⟨rfl,⟨⟩⟩ := Option.ite_none_right_eq_some.mp taken
      exact .completed pc
    case h_2 => cases taken
  | shutdown =>
    simp only [step] at taken
    split at taken
    case h_1 pc =>
      obtain ⟨closed,⟨⟩⟩ := Option.ite_none_right_eq_some.mp taken
      exact .closed _ true (.inl ⟨rfl,pc,rfl⟩) (idle_of_closed closed)
    case h_2 => cases taken
  | interrupt =>
    simp only [step] at taken
    split at taken
    case h_1 rest pc =>
      obtain ⟨⟩ := taken
      exact .interrupted _ (.inl ⟨.inl ⟨rest,pc⟩,rfl⟩)
    case h_2 n pc =>
      obtain ⟨⟩ := taken
      exact .interrupted _ (.inl ⟨.inr (.inl ⟨n,pc⟩),rfl⟩)
    case h_3 pc =>
      obtain ⟨⟩ := taken
      exact .interrupted _ (.inl ⟨.inr (.inr pc),rfl⟩)
    case h_4 pc =>
      obtain ⟨⟩ := taken
      exact .interrupted _ (.inr ⟨.inl pc,rfl⟩)
    case h_5 pc =>
      obtain ⟨⟩ := taken
      exact .interrupted _ (.inr ⟨.inr pc,rfl⟩)
    case h_6 => cases taken
  | cancel =>
    simp only [step] at taken
    split at taken
    case h_1 pc =>
      obtain ⟨pool,done,⟨⟩⟩ := Option.bind_eq_some_iff.mp taken
      exact .cancelled pool pc done
    case h_2 => cases taken
  | join =>
    simp only [step] at taken
    split at taken
    case h_1 pc =>
      obtain ⟨closed,⟨⟩⟩ := Option.ite_none_right_eq_some.mp taken
      exact .closed _ false (.inr ⟨rfl,pc,rfl⟩) (idle_of_closed closed)
    case h_2 => cases taken
  | start i =>
    obtain ⟨pool,done,⟨⟩⟩ := Option.bind_eq_some_iff.mp taken
    exact .worked _ _ pool ⟨i,.inl ⟨rfl,rfl⟩⟩ done
  | finish i =>
    obtain ⟨pool,done,⟨⟩⟩ := Option.bind_eq_some_iff.mp taken
    exact .worked _ _ pool ⟨i,.inr ⟨rfl,rfl⟩⟩ done

/-! ## The invariant -/

/-- The files that are still to be submitted, if nothing was cancelled. -/
def unsubmitted : Pc α → Option (List α)
  | .submitting rest => some rest
  | .completing _ | .shutting | .returned true => some []
  | _ => none

structure Invariant (files : List α) (s : Execution α k) : Prop where
  pool : s.pool.Valid s.futures
  order : s.futures <+: files
  whole : ∀ rest ∈ unsubmitted s.pc, s.futures ++ rest = files ∧ s.pool.Whole s.futures
  counted : ∀ n, s.pc = .completing n → n ≤ s.pool.ended.length
  completed : s.pc = .shutting → s.pool.ended.length = s.futures.length
  dropped : s.pc = .joining → s.pool.pending = []
  closed : ∀ finished, s.pc = .returned finished → s.pool.Idle

theorem start_invariant (files : List α) : Invariant files (start files : Execution α k) where
  pool := Pool.new_valid
  order := List.nil_prefix
  whole := by simp [start,unsubmitted,Pool.new_whole]
  counted := by simp [start]
  completed := by simp [start]
  dropped := by simp [start]
  closed := by simp [start]

theorem step_invariant {files : List α} {s t : Execution α k} {a : Action k} (valid : Invariant files s)
    (taken : step s a = some t) : Invariant files t := by
  cases step_stepped taken with
  | submitted file rest pool pc done =>
    obtain ⟨parts,whole⟩ := valid.whole (file :: rest) (by simp [pc,unsubmitted])
    have whole' := whole.perform (by simp) done
    have valid' := valid.pool.perform (fun _ _ => whole) done
    constructor
    · exact valid'
    · exact ⟨rest,by simpa using parts⟩
    · simpa [unsubmitted] using ⟨parts,whole'⟩
    all_goals simp
  | awaited pc =>
    refine ⟨valid.pool,valid.order,?_,by simp,by simp,by simp,by simp⟩
    simpa [pc,unsubmitted] using valid.whole
  | advanced n pc ended =>
    refine ⟨valid.pool,valid.order,?_,?_,by simp,by simp,by simp⟩
    · simpa [pc,unsubmitted] using valid.whole
    · rintro _ ⟨⟩
      exact ended
  | completed pc =>
    refine ⟨valid.pool,valid.order,?_,by simp,fun _ => ?_,by simp,by simp⟩
    · simpa [pc,unsubmitted] using valid.whole
    · exact Nat.le_antisymm valid.pool.ended_le (valid.counted _ pc)
  | closed a finished which idle =>
    refine ⟨valid.pool,valid.order,?_,by simp,by simp,by simp,fun _ _ => idle⟩
    rcases which with ⟨_,pc,rfl⟩ | ⟨_,_,rfl⟩
    · simpa [pc,unsubmitted] using valid.whole
    · simp [unsubmitted]
  | interrupted pc which =>
    rcases which with ⟨_,rfl⟩ | ⟨_,rfl⟩ <;>
      exact ⟨valid.pool,valid.order,by simp [unsubmitted],by simp,by simp,by simp,by simp⟩
  | cancelled pool pc done =>
    refine ⟨valid.pool.perform (by simp) done,valid.order,by simp [unsubmitted],by simp,by simp,fun _ => ?_,
      by simp⟩
    cases Pool.performed_of_perform done
    rfl
  | worked a op pool which done =>
    have task : op ≠ .cancel ∧ (∀ file, op ≠ .submit file) ∧ op.added s.futures = s.futures := by
      obtain ⟨i,⟨_,rfl⟩ | ⟨_,rfl⟩⟩ := which <;> simp [Pool.Op.added]
    obtain ⟨kept,other,same⟩ := task
    have pool' := valid.pool.perform (fun file submits => absurd submits (other file)) done
    rw [same] at pool'
    have more := (Pool.ended_prefix done).length_le
    constructor
    · exact pool'
    · exact valid.order
    · intro rest here
      obtain ⟨parts,whole⟩ := valid.whole rest here
      exact ⟨parts,same ▸ whole.perform kept done⟩
    · exact fun n pc => (valid.counted n pc).trans more
    · intro pc
      have all := valid.completed pc
      exact Nat.le_antisymm pool'.ended_le (all ▸ more)
    · exact fun pc => Pool.nothing_pending (valid.dropped pc) other done
    · intro finished pc
      have idle := valid.closed finished pc
      obtain ⟨i,⟨_,rfl⟩ | ⟨_,rfl⟩⟩ := which
      · simp [(idle.stuck i).1] at done
      · simp [(idle.stuck i).2] at done

theorem reachable_invariant {files : List α} {s : Execution α k} (reached : Reachable step (start files) s) :
    Invariant files s :=
  reached.invariant (start_invariant files) fun _ _ _ _ valid _ taken => step_invariant valid taken

/-! ## The end -/

/-- Nothing but the threads of the pool goes on. -/
def Left (s : Execution α k) : Prop := (∃ finished, s.pc = .returned finished) ∨ s.pc = .raised

def pcLeft (futures : List α) : Pc α → Nat
  | .submitting rest => 3 * rest.length + (futures.length + rest.length) + 5
  | .completing n => futures.length - n + 4
  | .shutting => 3
  | .cancelling => 2
  | .joining => 1
  | .returned _ | .raised => 0

/-- A bound on the actions without another interrupt. -/
def measure (s : Execution α k) : Nat :=
  pcLeft s.futures s.pc + 2 * s.pool.pending.length + ∑ i, (s.pool.running i).toList.length

theorem step_measure {files : List α} {s t : Execution α k} {a : Action k} (valid : Invariant files s)
    (calm : a ≠ .interrupt) (taken : step s a = some t) : measure t < measure s := by
  have update (i : Fin k) (task : Option α) := Conservation.sum_update
    (fun _ (t : Option α) => t.toList.length) s.pool.running i task
  cases step_stepped taken with
  | submitted file rest pool pc done =>
    cases Pool.performed_of_perform done
    simp only [measure,pc,pcLeft,List.length_append,List.length_cons,List.length_nil]
    omega
  | awaited pc =>
    simp only [measure,pc,pcLeft,List.length_nil]
    omega
  | advanced n pc ended =>
    have bound := valid.pool.ended_le
    simp only [measure,pc,pcLeft]
    omega
  | completed pc =>
    simp only [measure,pc,pcLeft]
    omega
  | closed a finished which idle =>
    rcases which with ⟨_,pc,_⟩ | ⟨_,pc,_⟩ <;> simp [measure,pc,pcLeft]
  | interrupted => exact absurd rfl calm
  | cancelled pool pc done =>
    cases Pool.performed_of_perform done
    simp only [measure,pc,pcLeft,List.length_nil]
    omega
  | worked a op pool which done =>
    obtain ⟨i,⟨_,rfl⟩ | ⟨_,rfl⟩⟩ := which
    · cases Pool.performed_of_perform done with
      | started _ task rest free queued =>
        have sum := update i (some task)
        simp only [free,Option.toList_none,Option.toList_some,List.length_nil,List.length_cons] at sum
        simp only [measure,queued,List.length_cons]
        omega
    · cases Pool.performed_of_perform done with
      | finished _ task busy =>
        have sum := update i none
        simp only [busy,Option.toList_none,Option.toList_some,List.length_nil,List.length_cons] at sum
        simp only [measure]
        omega

/-- A thread that has a file finishes it. -/
theorem finishes {s : Execution α k} {i : Fin k} {task : α} (busy : s.pool.running i = some task) :
    (step s (.finish i)).isSome = true := by
  simp [step,Pool.perform,busy]

theorem exists_calm (positive : 0 < k) {files : List α} {s : Execution α k} (valid : Invariant files s)
    (busy : ¬ Left s) : ∃ a : Action k, a ≠ .interrupt ∧ (step s a).isSome = true := by
  cases pc : s.pc with
  | submitting rest =>
    cases rest with
    | nil => exact ⟨.await,by simp,by simp [step,pc]⟩
    | cons file rest => exact ⟨.submit,by simp,by simp [step,pc,Pool.perform]⟩
  | completing n =>
    by_cases uncounted : n < s.pool.ended.length
    · exact ⟨.advance,by simp,by simp [step,pc,uncounted]⟩
    by_cases all : n = s.futures.length
    · exact ⟨.complete,by simp,by simp [step,pc,all]⟩
    -- some future is not completed: a thread has it, or it is in the queue
    have whole := (valid.whole [] (by simp [pc,unsubmitted])).2
    have counted := valid.counted n pc
    have bound := valid.pool.ended_le
    rcases s.pool.busy_or_free with ⟨i,task,here⟩ | free
    · exact ⟨.finish i,by simp,finishes here⟩
    · have same := (valid.pool.idle free).length_eq
      cases queued : s.pool.pending with
      | nil =>
        have length := congrArg List.length whole
        rw [queued,List.append_nil] at length
        omega
      | cons file rest =>
        exact ⟨.start ⟨0,positive⟩,by simp,by simp [step,Pool.perform,free,queued]⟩
  | shutting =>
    have idle := valid.pool.idle_of_ended (valid.completed pc)
    exact ⟨.shutdown,by simp,by simp [step,pc,idle.pending,idle.running]⟩
  | cancelling => exact ⟨.cancel,by simp,by simp [step,pc,Pool.perform]⟩
  | joining =>
    rcases s.pool.busy_or_free with ⟨i,task,here⟩ | free
    · exact ⟨.finish i,by simp,finishes here⟩
    · refine ⟨.join,by simp,?_⟩
      simp [step,pc,valid.dropped pc,free]
  | returned finished => exact (busy (.inl ⟨finished,pc⟩)).elim
  | raised => exact (busy (.inr pc)).elim

/-- After an interrupt. -/
def stopped : Pc α → Bool
  | .cancelling | .joining | .returned false | .raised => true
  | _ => false

theorem step_stopped {s t : Execution α k} {a : Action k} (taken : step s a = some t) :
    stopped t.pc = true ↔ stopped s.pc = true ∨ a = .interrupt := by
  cases step_stepped taken with
  | submitted file rest pool pc => simp [pc,stopped]
  | awaited pc => simp [pc,stopped]
  | advanced n pc => simp [pc,stopped]
  | completed pc => simp [pc,stopped]
  | closed a finished which => rcases which with ⟨rfl,pc,rfl⟩ | ⟨rfl,pc,rfl⟩ <;> simp [pc,stopped]
  | interrupted pc which => rcases which with ⟨_,rfl⟩ | ⟨_,rfl⟩ <;> simp [stopped]
  | cancelled pool pc => simp [pc,stopped]
  | worked a op pool which => obtain ⟨i,⟨rfl,_⟩ | ⟨rfl,_⟩⟩ := which <;> simp

theorem run_stopped {files : List α} {s : Execution α k} {actions : List (Action k)}
    (ran : run step (start files) actions = some s) : stopped s.pc = true ↔ .interrupt ∈ actions := by
  rw [run_brought (P := fun s : Execution α k => stopped s.pc = true)
    (fun _ _ _ taken => step_stopped taken) ran]
  simp [start,stopped]

/-- What `execute` has done: it takes the files in their order, and returns only when no process runs, after
all files if there was no interrupt, and after those that were taken if there was one. -/
structure Outcome (files : List α) (actions : List (Action k)) (s : Execution α k) : Prop where
  order : s.pool.started <+: files
  finished : s.pc = .returned true → .interrupt ∉ actions ∧ s.pool.started = files ∧ s.pool.ended.Perm files ∧
    s.pool.Idle
  interrupted : s.pc = .returned false → .interrupt ∈ actions ∧ s.pool.ended.Perm s.pool.started ∧ s.pool.Idle

/-- Without an interrupt every file is started, in order, and ended. -/
theorem Invariant.all {files : List α} {s : Execution α k} (valid : Invariant files s)
    (returned : s.pc = .returned true) : s.pool.started = files := by
  obtain ⟨parts,whole⟩ := valid.whole [] (by simp [returned,unsubmitted])
  rw [← parts,List.append_nil,whole,(valid.closed true returned).pending,List.append_nil]

theorem Invariant.ended {files : List α} {s : Execution α k} (valid : Invariant files s)
    (returned : s.pc = .returned true) : s.pool.ended.Perm files := by
  have idle := valid.pool.idle (valid.closed true returned).running
  rwa [valid.all returned] at idle

theorem Invariant.outcome {files : List α} {s : Execution α k} {actions : List (Action k)}
    (valid : Invariant files s) (ran : run step (start files) actions = some s) : Outcome files actions s := by
  have history := run_stopped ran
  constructor
  · exact ((List.prefix_append _ _).trans valid.pool.order).trans valid.order
  · intro pc
    refine ⟨?_,valid.all pc,valid.ended pc,valid.closed true pc⟩
    rw [← history,pc]
    simp [stopped]
  · intro pc
    have idle := valid.closed false pc
    exact ⟨history.mp (by rw [pc]; rfl),valid.pool.idle idle.running,idle⟩

end Execution

end OcrSuite
