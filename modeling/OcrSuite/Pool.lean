import OcrSuite.Conservation

/-! A pool of workers with a queue of tasks. Workers take the tasks in the order in which they were submitted;
those that no worker has taken can be cancelled. -/
namespace OcrSuite

open Conservation

/-- `started` and `ended` are the tasks in the order in which workers took and finished them. -/
structure Pool (α : Type) (k : Nat) where
  pending : List α
  running : Fin k → Option α
  started : List α
  ended : List α

namespace Pool

variable {α : Type} {k : Nat}

inductive Op (α : Type) (k : Nat) where
  | submit (task : α)
  | start (i : Fin k)
  | finish (i : Fin k)
  | cancel

def new : Pool α k := ⟨[],fun _ => none,[],[]⟩

def perform (p : Pool α k) : Op α k → Option (Pool α k)
  | .submit task => some { p with pending := p.pending ++ [task] }
  | .start i =>
    match p.running i,p.pending with
    | none,task :: rest => some { p with
        pending := rest
        running := Function.update p.running i (some task)
        started := p.started ++ [task] }
    | _,_ => none
  | .finish i =>
    match p.running i with
    | some task => some { p with
        running := Function.update p.running i none
        ended := p.ended ++ [task] }
    | none => none
  | .cancel => some { p with pending := [] }

/-- Nothing is queued and no worker is at work. -/
structure Idle (p : Pool α k) : Prop where
  pending : p.pending = []
  running : ∀ i, p.running i = none

/-- The tasks were taken in order, and each that was taken is at a worker or finished. -/
structure Valid (tasks : List α) (p : Pool α k) : Prop where
  order : p.started ++ p.pending <+: tasks
  balance : (↑p.started : Multiset α) = ↑p.ended + ∑ i, ↑(p.running i).toList

/-- No task has been cancelled. -/
def Whole (tasks : List α) (p : Pool α k) : Prop := tasks = p.started ++ p.pending

variable {tasks : List α} {p q : Pool α k} {op : Op α k}

inductive Performed (p : Pool α k) : Op α k → Pool α k → Prop where
  | submitted (task : α) : Performed p (.submit task) { p with pending := p.pending ++ [task] }
  | started (i : Fin k) (task : α) (rest : List α) : p.running i = none → p.pending = task :: rest →
      Performed p (.start i) { p with
        pending := rest
        running := Function.update p.running i (some task)
        started := p.started ++ [task] }
  | finished (i : Fin k) (task : α) : p.running i = some task → Performed p (.finish i) { p with
      running := Function.update p.running i none
      ended := p.ended ++ [task] }
  | cancelled : Performed p .cancel { p with pending := [] }

theorem performed_of_perform (done : p.perform op = some q) : Performed p op q := by
  cases op with
  | submit task =>
    obtain rfl := Option.some.inj done
    exact .submitted task
  | start i =>
    simp only [perform] at done
    split at done
    case h_1 task rest free queued =>
      obtain rfl := Option.some.inj done
      exact .started i task rest free queued
    case h_2 => cases done
  | finish i =>
    simp only [perform] at done
    split at done
    case h_1 task busy =>
      obtain rfl := Option.some.inj done
      exact .finished i task busy
    case h_2 => cases done
  | cancel =>
    obtain rfl := Option.some.inj done
    exact .cancelled

theorem new_valid : Valid [] (new : Pool α k) := by
  constructor <;> simp [new]

theorem new_whole : Whole [] (new : Pool α k) := rfl

/-- The tasks that were submitted so far, after an operation. -/
def Op.added : Op α k → List α → List α
  | .submit task,tasks => tasks ++ [task]
  | _,tasks => tasks

/-- While tasks are submitted, none is cancelled. -/
theorem Valid.perform (valid : Valid tasks p) (whole : ∀ task, op = .submit task → Whole tasks p)
    (done : p.perform op = some q) : Valid (op.added tasks) q := by
  cases performed_of_perform done with
  | submitted task =>
    refine ⟨?_,valid.balance⟩
    rw [Op.added,whole task rfl,List.append_assoc]
  | started i task rest free queued =>
    have order := valid.order
    rw [queued] at order
    refine ⟨by simpa [Op.added] using order,?_⟩
    have sum := sum_update_zero (fun _ t => (↑t.toList : Multiset α)) p.running (some task) (i := i)
      (by simp [free])
    rw [sum,← add_assoc,← valid.balance,← Multiset.coe_add]
    rfl
  | finished i task busy =>
    refine ⟨valid.order,?_⟩
    have sum := sum_update_taken (fun _ t => (↑t.toList : Multiset α)) p.running (i := i) (v := none) (by simp)
    simp only [busy,Option.toList_some] at sum
    rw [valid.balance,← sum,← Multiset.coe_add,add_assoc,add_comm (↑[task] : Multiset α)]
  | cancelled =>
    refine ⟨?_,valid.balance⟩
    rw [List.append_nil]
    exact (List.prefix_append _ _).trans valid.order

theorem Whole.perform (whole : Whole tasks p) (kept : op ≠ .cancel) (done : p.perform op = some q) :
    Whole (op.added tasks) q := by
  cases performed_of_perform done with
  | submitted task =>
    rw [Whole,Op.added,whole,List.append_assoc]
  | started i task rest free queued => simpa [Whole,Op.added,queued] using whole
  | finished i task busy => exact whole
  | cancelled => exact absurd rfl kept

theorem busy_or_free (p : Pool α k) : (∃ i task, p.running i = some task) ∨ ∀ i, p.running i = none := by
  by_cases busy : ∃ i task, p.running i = some task
  · exact .inl busy
  · refine .inr fun i => Option.eq_none_iff_forall_ne_some.mpr fun task here => ?_
    exact busy ⟨i,task,here⟩

/-- A pool that is idle has finished what was taken. -/
theorem Valid.idle (valid : Valid tasks p) (idle : ∀ i, p.running i = none) : p.ended.Perm p.started := by
  have balance := valid.balance
  simp only [idle,Option.toList_none,Multiset.coe_nil,Finset.sum_const_zero,add_zero] at balance
  exact (Multiset.coe_eq_coe.mp balance).symm

theorem Valid.length (valid : Valid tasks p) :
    p.started.length = p.ended.length + ∑ i, (p.running i).toList.length := by
  have balance := congrArg Multiset.card valid.balance
  simpa [Multiset.card_sum] using balance

theorem Valid.ended_le (valid : Valid tasks p) : p.ended.length ≤ tasks.length := by
  have taken := valid.length
  have order := valid.order.length_le
  rw [List.length_append] at order
  omega

/-- Nothing is left when all tasks are finished. -/
theorem Valid.idle_of_ended (valid : Valid tasks p) (all : p.ended.length = tasks.length) : p.Idle := by
  have taken := valid.length
  have order := valid.order.length_le
  rw [List.length_append] at order
  constructor
  · apply List.length_eq_zero_iff.mp
    omega
  · intro i
    have none : ∑ i, (p.running i).toList.length = 0 := by omega
    simpa using (Finset.sum_eq_zero_iff.mp none) i (Finset.mem_univ i)

theorem ended_prefix (done : p.perform op = some q) : p.ended <+: q.ended := by
  cases performed_of_perform done with
  | finished => exact List.prefix_append _ _
  | _ => exact List.prefix_rfl

theorem nothing_pending (empty : p.pending = []) (other : ∀ task, op ≠ .submit task)
    (done : p.perform op = some q) : q.pending = [] := by
  cases performed_of_perform done with
  | submitted task => exact absurd rfl (other task)
  | started i task rest _ queued => simp [empty] at queued
  | finished => exact empty
  | cancelled => rfl

theorem Idle.stuck (idle : p.Idle) (i : Fin k) :
    p.perform (.start i) = none ∧ p.perform (.finish i) = none := by
  simp [perform,idle.pending,idle.running i]

end Pool

end OcrSuite
