import Mathlib.Logic.Function.Basic

/-! A mutex with a condition variable. Some threads wait under the mutex for a predicate of what it guards,
others change this under the mutex and notify after they have released it. A notification reaches only
threads that are blocked, and a blocked thread may wake without one. -/
namespace OcrSuite

/-- Where a thread is with the mutex: on its way into a wait or out of it, at the predicate, behind it,
changing what the mutex guards, or about to notify. -/
inductive Monitor.Pc where
  | away
  | contending
  | testing
  | blocked
  | passed
  | changing
  | notifying
  deriving DecidableEq, Repr

structure Monitor (κ : Type) where
  owner : Option κ
  pc : κ → Monitor.Pc

namespace Monitor

inductive Op where
  | await
  | acquire
  | test
  | wake
  | leave
  | lock
  | unlock
  | unlockToNotify
  | notify
  deriving DecidableEq, Repr

def Pc.holds : Pc → Bool
  | .testing | .passed | .changing => true
  | _ => false

def Op.before : Op → Pc
  | .await | .lock => .away
  | .acquire => .contending
  | .test => .testing
  | .wake => .blocked
  | .leave => .passed
  | .unlock | .unlockToNotify => .changing
  | .notify => .notifying

/-- `ready` is the predicate of the waits. -/
def Op.after (ready : Bool) : Op → Pc
  | .await | .wake => .contending
  | .acquire => .testing
  | .test => if ready then .passed else .blocked
  | .leave | .unlock | .notify => .away
  | .lock => .changing
  | .unlockToNotify => .notifying

/-- Leaves the mutex after a change. -/
def Op.changes : Op → Bool
  | .leave | .unlock | .unlockToNotify => true
  | _ => false

/-- A notification makes a blocked thread contend for the mutex. -/
def Op.hit (op : Op) (pc : Pc) : Pc :=
  if op = .notify ∧ pc = .blocked then .contending else pc

variable {κ : Type}

def new (pc : κ → Pc) : Monitor κ := ⟨none,pc⟩

/-- The owner is the thread that holds the mutex, a wait that returns has found the predicate true, and no
thread sleeps through it unless it is about to be notified. -/
structure Valid (ready : Bool) (m : Monitor κ) : Prop where
  owner : ∀ k, m.owner = some k ↔ (m.pc k).holds = true
  passed : ∀ k, m.pc k = .passed → ready = true
  awake : ready = true → ∀ k, m.pc k = .blocked → ∃ u, m.pc u = .notifying

variable {ready now : Bool} {m m' : Monitor κ} {k u : κ} {op : Op}

theorem new_valid {pc : κ → Pc} (outside : ∀ k, pc k = .away ∨ pc k = .contending) :
    Valid ready (new pc) := by
  constructor
  · intro k
    rcases outside k with away | contending
    · simp [new,away,Pc.holds]
    · simp [new,contending,Pc.holds]
  · intro k passed
    rcases outside k with away | contending <;> simp_all [new]
  · intro _ k blocked
    rcases outside k with away | contending <;> simp_all [new]

/-- Only one thread holds the mutex. -/
theorem Valid.exclusive (valid : Valid ready m) (first : (m.pc k).holds = true)
    (second : (m.pc u).holds = true) : k = u :=
  Option.some.inj (((valid.owner k).mpr first).symm.trans ((valid.owner u).mpr second))

theorem Valid.free_iff (valid : Valid ready m) : m.owner = none ↔ ∀ k, (m.pc k).holds = false := by
  constructor
  · intro free k
    by_contra holds
    have := (valid.owner k).mpr (by simpa using holds)
    rw [free] at this
    cases this
  · intro none
    cases owner : m.owner with
    | none => rfl
    | some k => simpa [none k] using (valid.owner k).mp owner

/-! ## What an operation does -/

variable [DecidableEq κ]

def perform (ready : Bool) (m : Monitor κ) (k : κ) (op : Op) : Option (Monitor κ) :=
  if m.pc k = op.before ∧ ((op.after ready).holds → op.before.holds ∨ m.owner = none) then
    some {
      owner := if (op.after ready).holds then some k else if op.before.holds then none else m.owner
      pc := fun u => if u = k then op.after ready else op.hit (m.pc u) }
  else none

theorem perform_before (done : perform ready m k op = some m') : m.pc k = op.before := by
  simp only [perform,Option.ite_none_right_eq_some] at done
  exact done.1.1

theorem perform_free (done : perform ready m k op = some m') (takes : (op.after ready).holds = true) :
    op.before.holds = true ∨ m.owner = none := by
  simp only [perform,Option.ite_none_right_eq_some] at done
  exact done.1.2 takes

theorem perform_owner (done : perform ready m k op = some m') : m'.owner =
    if (op.after ready).holds then some k else if op.before.holds then none else m.owner := by
  simp only [perform,Option.ite_none_right_eq_some,Option.some.injEq] at done
  rw [← done.2]

theorem perform_self (done : perform ready m k op = some m') : m'.pc k = op.after ready := by
  simp only [perform,Option.ite_none_right_eq_some,Option.some.injEq] at done
  simp [← done.2]

theorem perform_other (done : perform ready m k op = some m') (other : u ≠ k) :
    m'.pc u = op.hit (m.pc u) := by
  simp only [perform,Option.ite_none_right_eq_some,Option.some.injEq] at done
  simp [← done.2,other]

@[simp] theorem hit_eq (op : Op) {pc pc' : Pc} (waits : pc' ≠ .blocked) (contends : pc' ≠ .contending) :
    op.hit pc = pc' ↔ pc = pc' := by
  unfold Op.hit
  split
  case isTrue hit =>
    obtain ⟨_,rfl⟩ := hit
    exact ⟨fun same => (contends same.symm).elim,fun same => (waits same.symm).elim⟩
  case isFalse => rfl

theorem hit_holds (op : Op) (pc : Pc) : (op.hit pc).holds = pc.holds := by
  unfold Op.hit
  split
  case isTrue hit =>
    obtain ⟨_,rfl⟩ := hit
    rfl
  case isFalse => rfl

/-- Where no other thread notifies, a thread that was blocked stays so. -/
theorem hit_of_ne (ne : op ≠ .notify) (pc : Pc) : op.hit pc = pc := by
  simp [Op.hit,ne]

/-! ## The invariant -/

/-- The predicate changes only under the mutex, and if it comes true, threads are notified of that. -/
theorem Valid.perform (valid : Valid ready m) (done : perform ready m k op = some m')
    (kept : op.changes = false → now = ready)
    (notified : now = true → ready = false → op = .unlockToNotify) : Valid now m' := by
  have before := perform_before done
  have self := perform_self done
  have other {u : κ} (ne : u ≠ k) := perform_other done ne
  -- before a change nobody else is behind the predicate
  have alone {u : κ} (changes : op.changes = true) (holds : (m.pc u).holds = true) : u = k := by
    apply valid.exclusive holds
    rw [before]
    cases op <;> simp_all [Op.changes,Op.before,Pc.holds]
  constructor
  · intro u
    rw [perform_owner done]
    by_cases same : u = k
    · subst u
      rw [self]
      cases after : (op.after ready).holds with
      | true => simp
      | false =>
        have owner := valid.owner k
        rw [before] at owner
        cases holds : op.before.holds <;> simp_all
    · rw [other same,hit_holds]
      cases after : (op.after ready).holds with
      | true =>
        have free : (m.pc u).holds = false := by
          by_contra busy
          rcases perform_free done after with holds | free
          · exact same (valid.exclusive (by simpa using busy) (by rw [before]; exact holds))
          · exact busy (valid.free_iff.mp free u)
        simp [free,Ne.symm same]
      | false =>
        cases holds : op.before.holds with
        | true =>
          have free : (m.pc u).holds = false := by
            by_contra busy
            exact same (valid.exclusive (by simpa using busy) (by rw [before]; exact holds))
          simp [free]
        | false => simpa using valid.owner u
  · intro u passed
    by_cases same : u = k
    · subst u
      rw [self] at passed
      have test : op = .test ∧ ready = true := by
        cases op <;> simp_all [Op.after]
      rw [kept (by rw [test.1]; rfl)]
      exact test.2
    · rw [other same,hit_eq op (by decide) (by decide)] at passed
      have holds : (m.pc u).holds = true := by rw [passed]; rfl
      cases changes : op.changes with
      | true => exact (same (alone changes holds)).elim
      | false => exact kept changes ▸ valid.passed u passed
  · intro comes u blocked
    cases was : ready with
    | false =>
      have notifies := notified comes was
      subst op
      exact ⟨k,self⟩
    | true =>
      subst was
      have asleep : u ≠ k := by
        rintro rfl
        rw [self] at blocked
        cases op <;> simp [Op.after] at blocked
      have quiet : op ≠ .notify := by
        rintro rfl
        rw [other asleep,Op.hit] at blocked
        split at blocked <;> simp_all
      rw [other asleep,hit_of_ne quiet] at blocked
      obtain ⟨v,notifies⟩ := valid.awake rfl u blocked
      have apart : v ≠ k := by
        rintro rfl
        rw [before] at notifies
        cases op <;> simp_all [Op.before]
      refine ⟨v,?_⟩
      rw [other apart,hit_of_ne quiet]
      exact notifies

/-! ## Progress -/

theorem perform_isSome (here : m.pc k = op.before)
    (free : (op.after ready).holds = true → op.before.holds = true ∨ m.owner = none) :
    (perform ready m k op).isSome = true := by
  simp only [perform,here,true_and]
  rw [if_pos free]
  rfl

end Monitor

end OcrSuite
