import OcrSuite.Monitor
import OcrSuite.SearchRows

/-! The search threads with their mutexes and condition variables, from the start of the UI to the end of
`~search`, which stops and joins them. What a mutex guards changes where it is released. -/
namespace OcrSuite.Viewer

open Transition Monitor

variable {n : Nat} {F : Type}

inductive Party where
  | ui
  | thread
  deriving DecidableEq, Repr

/-- `search::thread`. What `work_once` does outside the mutex is in the worker. -/
structure Thread (F : Type) where
  monitor : Monitor Party
  worker : Worker F
  shouldStop : Bool
  ended : Bool

/-- The predicate of `cv_`. -/
def Thread.ready (t : Thread F) : Bool := t.shouldStop || t.worker.shouldStart

/-- The UI thread draws, or it is in the destructor with the threads that it has not joined. -/
inductive UiAt (n : Nat) where
  | frame (ui : UiPc n)
  | notifying (text : String) (i : Fin n) (rest : List (Fin n))
  | destroying (rest : List (Fin n))
  | notifyingStop (i : Fin n) (rest : List (Fin n))
  | joining (i : Fin n) (rest : List (Fin n))

/-- As in `Search`, with the threads for their workers. -/
structure SearchThreads (n : Nat) (F : Type) where
  remainingSize : UInt64
  results : List (Nat × Row F)
  thread : Fin n → Thread F
  ui : UiAt n
  search : Nat
  unreported : Fin n → List DatabaseFile

namespace UiAt

/-- What the UI thread does for the search. -/
def pc : UiAt n → UiPc n
  | .frame ui => ui
  | .notifying text _ rest => .running text rest
  | _ => .drawn

/-- The thread whose mutex it locks next. -/
def target : UiAt n → Option (Fin n)
  | .frame (.running _ (i :: _)) => some i
  | .frame (.flagging _ i _) => some i
  | .destroying (i :: _) => some i
  | _ => none

/-- The thread that it is about to notify. -/
def notified : UiAt n → Option (Fin n)
  | .notifying _ i _ => some i
  | .notifyingStop i _ => some i
  | _ => none

theorem notified_of_target {ui : UiAt n} {i : Fin n} (target : ui.target = some i) : ui.notified = none := by
  cases ui <;> simp_all [UiAt.target,notified]

/-- The threads that are not stopped. -/
def unstopped : UiAt n → List (Fin n)
  | .destroying rest | .notifyingStop _ rest | .joining _ rest => rest
  | _ => List.finRange n

/-- The threads that are not joined. -/
def unjoined : UiAt n → List (Fin n)
  | .destroying rest => rest
  | .notifyingStop i rest | .joining i rest => i :: rest
  | _ => List.finRange n

end UiAt

namespace SearchThreads

inductive Action (n : Nat) where
  | draw (a : Search.Action n)
  | lock
  | setText
  | setShouldStart
  | notify
  | destroy (order : List (Fin n))
  | setShouldStop
  | join
  | acquire (i : Fin n)
  | test (i : Fin n)
  | wake (i : Fin n)
  | leave (i : Fin n)
  | work (a : Search.Action n)
  | finishWork (i : Fin n)

/-- Without the mutexes. -/
def abstract (s : SearchThreads n F) : Search n F :=
  ⟨s.remainingSize,s.results,fun i => (s.thread i).worker,s.ui.pc,s.search,s.unreported⟩

/-- What was done without a mutex. -/
def lift (s : SearchThreads n F) (t : Search n F) : SearchThreads n F :=
  { s with
    remainingSize := t.remainingSize
    results := t.results
    thread := fun i => { s.thread i with worker := t.worker i }
    search := t.search
    unreported := t.unreported }

def setThread (s : SearchThreads n F) (i : Fin n) (t : Thread F) : SearchThreads n F :=
  { s with thread := Function.update s.thread i t }

def start : SearchThreads n F where
  remainingSize := 0
  results := []
  thread _ := ⟨.new fun p => if p = .thread then .contending else .away,⟨"",false,[],.waiting,0,0⟩,false,false⟩
  ui := .frame .polling
  search := 0
  unreported _ := []

/-- The actions of `draw` and `find_text` in which the UI thread uses no thread's mutex. -/
def drawing : Search.Action n → Bool
  | .poll | .leave | .findText _ | .clear | .finishFindText | .nextFrame => true
  | _ => false

/-- Those of `work_once`. -/
def working : Search.Action n → Bool
  | .findInFile _ | .decrementRemainingSize _ => true
  | _ => false

def perform (s : SearchThreads n F) (i : Fin n) (p : Party) (op : Op) : Option (Monitor Party) :=
  (s.thread i).monitor.perform (s.thread i).ready p op

/-- The vector of threads is cleared in an order that the standard does not say. -/
def step (c : Collection n F) (s : SearchThreads n F) : Action n → Option (SearchThreads n F)
  | .draw a =>
    match s.ui with
    | .frame _ => if drawing a then (Search.step c s.abstract a).map fun t => { s.lift t with ui := .frame t.ui }
      else none
    | _ => none
  | .lock => do
    let i ← s.ui.target
    let m ← s.perform i .ui .lock
    return s.setThread i { s.thread i with monitor := m }
  | .setText =>
    match s.ui with
    | .frame (.running text (i :: rest)) => do
      let m ← s.perform i .ui .unlock
      let w := { (s.thread i).worker with searchText := text }
      return { s.setThread i { s.thread i with monitor := m, worker := w } with
        ui := .frame (.flagging text i rest) }
    | _ => none
  | .setShouldStart =>
    match s.ui with
    | .frame (.flagging text i rest) => do
      let m ← s.perform i .ui .unlockToNotify
      let w := { (s.thread i).worker with shouldStart := true, flagged := s.search }
      return { s.setThread i { s.thread i with monitor := m, worker := w } with ui := .notifying text i rest }
    | _ => none
  | .notify =>
    match s.ui with
    | .notifying text i rest => do
      let m ← s.perform i .ui .notify
      return { s.setThread i { s.thread i with monitor := m } with ui := .frame (.running text rest) }
    | .notifyingStop i rest => do
      let m ← s.perform i .ui .notify
      return { s.setThread i { s.thread i with monitor := m } with ui := .joining i rest }
    | _ => none
  | .destroy order =>
    match s.ui with
    | .frame .polling | .frame .drawn =>
      if order.isPerm (List.finRange n) then some { s with ui := .destroying order } else none
    | _ => none
  | .setShouldStop =>
    match s.ui with
    | .destroying (i :: rest) => do
      let m ← s.perform i .ui .unlockToNotify
      return { s.setThread i { s.thread i with monitor := m, shouldStop := true } with ui := .notifyingStop i rest }
    | _ => none
  | .join =>
    match s.ui with
    | .joining i rest => if (s.thread i).ended then some { s with ui := .destroying rest } else none
    | _ => none
  | .acquire i => do
    let m ← s.perform i .thread .acquire
    return s.setThread i { s.thread i with monitor := m }
  | .test i => do
    let m ← s.perform i .thread .test
    return s.setThread i { s.thread i with monitor := m }
  | .wake i => do
    let m ← s.perform i .thread .wake
    return s.setThread i { s.thread i with monitor := m }
  | .leave i => do
    let t := s.thread i
    let m ← s.perform i .thread .leave
    if t.shouldStop then
      return s.setThread i { t with monitor := m, ended := true }
    else if t.worker.shouldStart then
      let w := { t.worker with shouldStart := false, pc := .looping (c.files i), pass := t.worker.flagged }
      return s.setThread i { t with monitor := m, worker := w }
    else
      -- the next round of the loop
      let m ← m.perform t.ready .thread .await
      return s.setThread i { t with monitor := m }
  | .work a => if working a then (Search.step c s.abstract a).map s.lift else none
  | .finishWork i =>
    match (s.thread i).worker.pc with
    | .looping [] => do
      let m ← s.perform i .thread .await
      return s.setThread i { s.thread i with monitor := m, worker := { (s.thread i).worker with pc := .waiting } }
    | _ => none

/-! ## The steps -/

inductive Stepped (c : Collection n F) (s : SearchThreads n F) : Action n → SearchThreads n F → Prop where
  | drawn (a : Search.Action n) (ui : UiPc n) (t : Search n F) : s.ui = .frame ui → drawing a = true →
      Search.step c s.abstract a = some t → Stepped c s (.draw a) { s.lift t with ui := .frame t.ui }
  | locked (i : Fin n) (m : Monitor Party) : s.ui.target = some i → s.perform i .ui .lock = some m →
      Stepped c s .lock (s.setThread i { s.thread i with monitor := m })
  | texted (text : String) (i : Fin n) (rest : List (Fin n)) (m : Monitor Party) :
      s.ui = .frame (.running text (i :: rest)) → s.perform i .ui .unlock = some m →
      Stepped c s .setText { s.setThread i { s.thread i with
        monitor := m, worker := { (s.thread i).worker with searchText := text } } with
          ui := .frame (.flagging text i rest) }
  | flagged (text : String) (i : Fin n) (rest : List (Fin n)) (m : Monitor Party) :
      s.ui = .frame (.flagging text i rest) → s.perform i .ui .unlockToNotify = some m →
      Stepped c s .setShouldStart { s.setThread i { s.thread i with
        monitor := m, worker := { (s.thread i).worker with shouldStart := true, flagged := s.search } } with
          ui := .notifying text i rest }
  | notified (ui : UiAt n) (i : Fin n) (m : Monitor Party) :
      (∃ text rest, s.ui = .notifying text i rest ∧ ui = .frame (.running text rest)) ∨
      (∃ rest, s.ui = .notifyingStop i rest ∧ ui = .joining i rest) → s.perform i .ui .notify = some m →
      Stepped c s .notify { s.setThread i { s.thread i with monitor := m } with ui := ui }
  | destroyed (order : List (Fin n)) : s.ui = .frame .polling ∨ s.ui = .frame .drawn →
      order.Perm (List.finRange n) → Stepped c s (.destroy order) { s with ui := .destroying order }
  | stopped (i : Fin n) (rest : List (Fin n)) (m : Monitor Party) : s.ui = .destroying (i :: rest) →
      s.perform i .ui .unlockToNotify = some m →
      Stepped c s .setShouldStop { s.setThread i { s.thread i with monitor := m, shouldStop := true } with
        ui := .notifyingStop i rest }
  | joined (i : Fin n) (rest : List (Fin n)) : s.ui = .joining i rest → (s.thread i).ended = true →
      Stepped c s .join { s with ui := .destroying rest }
  | waited (a : Action n) (i : Fin n) (op : Op) (m : Monitor Party) :
      a = .acquire i ∧ op = .acquire ∨ a = .test i ∧ op = .test ∨ a = .wake i ∧ op = .wake →
      s.perform i .thread op = some m → Stepped c s a (s.setThread i { s.thread i with monitor := m })
  | ended (i : Fin n) (m : Monitor Party) : (s.thread i).shouldStop = true →
      s.perform i .thread .leave = some m →
      Stepped c s (.leave i) (s.setThread i { s.thread i with monitor := m, ended := true })
  | begun (i : Fin n) (m : Monitor Party) : (s.thread i).shouldStop = false →
      (s.thread i).worker.shouldStart = true → s.perform i .thread .leave = some m →
      Stepped c s (.leave i) (s.setThread i { s.thread i with
        monitor := m
        worker := { (s.thread i).worker with
          shouldStart := false, pc := .looping (c.files i), pass := (s.thread i).worker.flagged } })
  | again (i : Fin n) (m m' : Monitor Party) : (s.thread i).ready = false →
      s.perform i .thread .leave = some m → m.perform (s.thread i).ready .thread .await = some m' →
      Stepped c s (.leave i) (s.setThread i { s.thread i with monitor := m' })
  | worked (a : Search.Action n) (t : Search n F) : working a = true →
      Search.step c s.abstract a = some t → Stepped c s (.work a) (s.lift t)
  | finished (i : Fin n) (m : Monitor Party) : (s.thread i).worker.pc = .looping [] →
      s.perform i .thread .await = some m →
      Stepped c s (.finishWork i) (s.setThread i { s.thread i with
        monitor := m, worker := { (s.thread i).worker with pc := .waiting } })

theorem step_stepped {c : Collection n F} {s t : SearchThreads n F} {a : Action n}
    (taken : step c s a = some t) : Stepped c s a t := by
  cases a with
  | draw a =>
    cases ui : s.ui with
    | frame pc =>
      simp only [step,ui,Option.ite_none_right_eq_some,Option.map_eq_some_iff] at taken
      obtain ⟨draws,next,stepped,rfl⟩ := taken
      exact .drawn a pc next ui draws stepped
    | _ => simp [step,ui] at taken
  | lock =>
    simp only [step,Option.bind_eq_bind,Option.bind_eq_some_iff,Option.pure_def,Option.some.injEq] at taken
    obtain ⟨i,target,m,done,rfl⟩ := taken
    exact .locked i m target done
  | setText =>
    simp only [step] at taken
    split at taken
    case h_1 text i rest ui =>
      obtain ⟨m,done,⟨⟩⟩ := Option.bind_eq_some_iff.mp taken
      exact .texted text i rest m ui done
    case h_2 => cases taken
  | setShouldStart =>
    simp only [step] at taken
    split at taken
    case h_1 text i rest ui =>
      obtain ⟨m,done,⟨⟩⟩ := Option.bind_eq_some_iff.mp taken
      exact .flagged text i rest m ui done
    case h_2 => cases taken
  | notify =>
    simp only [step] at taken
    split at taken
    case h_1 text i rest ui =>
      obtain ⟨m,done,⟨⟩⟩ := Option.bind_eq_some_iff.mp taken
      exact .notified _ i m (.inl ⟨text,rest,ui,rfl⟩) done
    case h_2 i rest ui =>
      obtain ⟨m,done,⟨⟩⟩ := Option.bind_eq_some_iff.mp taken
      exact .notified _ i m (.inr ⟨rest,ui,rfl⟩) done
    case h_3 => cases taken
  | destroy order =>
    simp only [step] at taken
    split at taken
    case h_1 ui =>
      obtain ⟨perm,⟨⟩⟩ := Option.ite_none_right_eq_some.mp taken
      exact .destroyed order (.inl ui) (List.isPerm_iff.mp perm)
    case h_2 ui =>
      obtain ⟨perm,⟨⟩⟩ := Option.ite_none_right_eq_some.mp taken
      exact .destroyed order (.inr ui) (List.isPerm_iff.mp perm)
    case h_3 => cases taken
  | setShouldStop =>
    simp only [step] at taken
    split at taken
    case h_1 i rest ui =>
      obtain ⟨m,done,⟨⟩⟩ := Option.bind_eq_some_iff.mp taken
      exact .stopped i rest m ui done
    case h_2 => cases taken
  | join =>
    simp only [step] at taken
    split at taken
    case h_1 i rest ui =>
      obtain ⟨ended,⟨⟩⟩ := Option.ite_none_right_eq_some.mp taken
      exact .joined i rest ui ended
    case h_2 => cases taken
  | acquire i =>
    obtain ⟨m,done,⟨⟩⟩ := Option.bind_eq_some_iff.mp taken
    exact .waited _ i .acquire m (by simp) done
  | test i =>
    obtain ⟨m,done,⟨⟩⟩ := Option.bind_eq_some_iff.mp taken
    exact .waited _ i .test m (by simp) done
  | wake i =>
    obtain ⟨m,done,⟨⟩⟩ := Option.bind_eq_some_iff.mp taken
    exact .waited _ i .wake m (by simp) done
  | leave i =>
    obtain ⟨m,done,branch⟩ := Option.bind_eq_some_iff.mp taken
    split at branch
    case isTrue stop =>
      cases branch
      exact .ended i m stop done
    case isFalse stay =>
      rw [Bool.not_eq_true] at stay
      split at branch
      case isTrue start =>
        cases branch
        exact .begun i m stay start done
      case isFalse idle =>
        obtain ⟨m',awaits,⟨⟩⟩ := Option.bind_eq_some_iff.mp branch
        exact .again i m m' (by simp [Thread.ready,stay,idle]) done awaits
  | work a =>
    simp only [step,Option.ite_none_right_eq_some,Option.map_eq_some_iff] at taken
    obtain ⟨works,next,stepped,rfl⟩ := taken
    exact .worked a next works stepped
  | finishWork i =>
    simp only [step] at taken
    split at taken
    case h_1 pc =>
      obtain ⟨m,done,⟨⟩⟩ := Option.bind_eq_some_iff.mp taken
      exact .finished i m pc done
    case h_2 => cases taken

@[simp] theorem setThread_same (s : SearchThreads n F) (i : Fin n) (t : Thread F) :
    (s.setThread i t).thread i = t := by
  simp [setThread]

theorem setThread_other (s : SearchThreads n F) {i k : Fin n} (other : k ≠ i) (t : Thread F) :
    (s.setThread i t).thread k = s.thread k := by
  simp [setThread,other]

/-! ## The invariant -/

/-- A thread waits in its monitor while it has no work. -/
structure Tracks (s : SearchThreads n F) (i : Fin n) : Prop where
  monitor : (s.thread i).monitor.Valid (s.thread i).ready
  waiting : (s.thread i).monitor.pc .thread ≠ .away ↔
    (s.thread i).worker.pc = .waiting ∧ (s.thread i).ended = false
  thread : (s.thread i).monitor.pc .thread ≠ .changing ∧ (s.thread i).monitor.pc .thread ≠ .notifying
  ui : (s.thread i).monitor.pc .ui = .away ∨
    (s.thread i).monitor.pc .ui = .changing ∧ s.ui.target = some i ∨
    (s.thread i).monitor.pc .ui = .notifying ∧ s.ui.notified = some i
  notified : s.ui.notified = some i → (s.thread i).monitor.pc .ui = .notifying
  stopped : (s.thread i).shouldStop = true ↔ i ∉ s.ui.unstopped
  ended : (s.thread i).ended = true → (s.thread i).shouldStop = true ∧ (s.thread i).worker.pc = .waiting
  joined : i ∉ s.ui.unjoined → (s.thread i).ended = true

structure Invariant (s : SearchThreads n F) : Prop where
  distinct : s.ui.unjoined.Nodup
  tracks : ∀ i, Tracks s i

theorem start_invariant : Invariant (start : SearchThreads n F) := by
  refine ⟨List.nodup_finRange n,fun i => ?_⟩
  constructor
  · apply new_valid
    intro p
    cases p <;> simp
  all_goals simp [start,Monitor.new,UiAt.notified,UiAt.unstopped,UiAt.unjoined]

theorem Tracks.congr {s t : SearchThreads n F} {i : Fin n} (tracks : Tracks s i) (thread : t.thread i = s.thread i)
    (target : s.ui.target = some i → t.ui.target = some i)
    (notified : t.ui.notified = some i ↔ s.ui.notified = some i)
    (unstopped : i ∈ t.ui.unstopped ↔ i ∈ s.ui.unstopped)
    (unjoined : i ∈ s.ui.unjoined → i ∈ t.ui.unjoined ∨ (s.thread i).ended = true) : Tracks t i := by
  constructor
  · exact thread ▸ tracks.monitor
  · exact thread ▸ tracks.waiting
  · exact thread ▸ tracks.thread
  · rw [thread,notified]
    exact tracks.ui.imp_right (.imp_left (.imp_right target))
  · rw [thread,notified]
    exact tracks.notified
  · rw [thread,unstopped]
    exact tracks.stopped
  · exact thread ▸ tracks.ended
  · intro outside
    rw [thread]
    by_cases inside : i ∈ s.ui.unjoined
    · exact (unjoined inside).resolve_left outside
    · exact tracks.joined inside

/-- The UI thread is at another one, and what a thread does leaves the others. -/
theorem tracks_setThread {s t : SearchThreads n F} {i : Fin n} {th : Thread F} (tracks : ∀ k, Tracks s k)
    (thread : t.thread = (s.setThread i th).thread)
    (target : ∀ k, k ≠ i → s.ui.target = some k → t.ui.target = some k)
    (notified : ∀ k, k ≠ i → (t.ui.notified = some k ↔ s.ui.notified = some k))
    (unstopped : ∀ k, k ≠ i → (k ∈ t.ui.unstopped ↔ k ∈ s.ui.unstopped))
    (unjoined : ∀ k, k ≠ i → k ∈ s.ui.unjoined → k ∈ t.ui.unjoined) (here : Tracks t i) :
    ∀ k, Tracks t k := by
  intro k
  by_cases same : k = i
  · exact same ▸ here
  · have other : t.thread k = s.thread k := by rw [thread,setThread_other _ same]
    exact (tracks k).congr other (target k same) (notified k same) (unstopped k same)
      fun inside => .inl (unjoined k same inside)

/-- What a thread does is not seen by the UI thread. -/
theorem Invariant.setThread {s : SearchThreads n F} (valid : Invariant s) {i : Fin n} {th : Thread F}
    (here : Tracks (s.setThread i th) i) : Invariant (s.setThread i th) :=
  ⟨valid.distinct,tracks_setThread valid.tracks rfl (fun _ _ => id) (fun _ _ => Iff.rfl) (fun _ _ => Iff.rfl)
    (fun _ _ => id) here⟩

theorem perform_ui {s : SearchThreads n F} {i : Fin n} {op : Op} {m : Monitor Party}
    (done : s.perform i .ui op = some m) : m.pc .ui = op.after (s.thread i).ready ∧
      m.pc .thread = op.hit ((s.thread i).monitor.pc .thread) :=
  ⟨perform_self done,perform_other done (by simp)⟩

theorem perform_thread {s : SearchThreads n F} {i : Fin n} {op : Op} {m : Monitor Party} (quiet : op ≠ .notify)
    (done : s.perform i .thread op = some m) : m.pc .thread = op.after (s.thread i).ready ∧
      m.pc .ui = (s.thread i).monitor.pc .ui :=
  ⟨perform_self done,(perform_other done (by simp)).trans (hit_of_ne quiet _)⟩

/-- After the UI thread used the mutex of the thread. -/
theorem Tracks.ofUi {s t : SearchThreads n F} {i : Fin n} {op : Op} {th : Thread F} (tracks : Tracks s i)
    (done : s.perform i .ui op = some th.monitor) (thread : t.thread i = th)
    (pc : th.worker.pc = (s.thread i).worker.pc) (ended : th.ended = (s.thread i).ended)
    (told : th.ready = (s.thread i).ready ∨ op = .unlockToNotify)
    (ui : op.after (s.thread i).ready = .away ∨ op.after (s.thread i).ready = .changing ∧ t.ui.target = some i ∨
      op.after (s.thread i).ready = .notifying ∧ t.ui.notified = some i)
    (notified : t.ui.notified = some i → op.after (s.thread i).ready = .notifying)
    (stopped : th.shouldStop = true ↔ i ∉ t.ui.unstopped)
    (still : (s.thread i).shouldStop = true → th.shouldStop = true)
    (unjoined : i ∈ s.ui.unjoined → i ∈ t.ui.unjoined) : Tracks t i := by
  obtain ⟨self,other⟩ := perform_ui done
  constructor
  · rw [thread]
    apply tracks.monitor.perform done
    · rintro kept
      apply told.resolve_right
      rintro rfl
      cases kept
    · intro now was
      apply told.resolve_left
      rw [now,was]
      decide
  · rw [thread,other,pc,ended,ne_eq,hit_eq op (by decide) (by decide)]
    exact tracks.waiting
  · rw [thread,other,ne_eq,ne_eq,hit_eq op (by decide) (by decide),hit_eq op (by decide) (by decide)]
    exact tracks.thread
  · rw [thread,self]
    exact ui
  · rw [thread,self]
    exact notified
  · rw [thread]
    exact stopped
  · rw [thread,pc,ended]
    exact fun here => (tracks.ended here).imp_left still
  · rw [thread,ended]
    exact fun outside => tracks.joined (mt unjoined outside)

/-- After the thread used its own mutex. -/
theorem Tracks.ofThread {s t : SearchThreads n F} {i : Fin n} {th : Thread F} (tracks : Tracks s i)
    (valid : th.monitor.Valid th.ready) (apart : th.monitor.pc .ui = (s.thread i).monitor.pc .ui)
    (thread : t.thread i = th) (ui : t.ui = s.ui)
    (waiting : th.monitor.pc .thread ≠ .away ↔ th.worker.pc = .waiting ∧ th.ended = false)
    (here : th.monitor.pc .thread ≠ .changing ∧ th.monitor.pc .thread ≠ .notifying)
    (stop : th.shouldStop = (s.thread i).shouldStop)
    (ended : th.ended = true → th.shouldStop = true ∧ th.worker.pc = .waiting)
    (still : (s.thread i).ended = true → th.ended = true) : Tracks t i := by
  constructor
  · exact thread ▸ valid
  · exact thread ▸ waiting
  · exact thread ▸ here
  · rw [thread,apart,ui]
    exact tracks.ui
  · rw [thread,apart,ui]
    exact tracks.notified
  · rw [thread,stop,ui]
    exact tracks.stopped
  · exact thread ▸ ended
  · rw [thread,ui]
    exact fun outside => still (tracks.joined outside)

theorem step_working {c : Collection n F} {s t : Search n F} {a : Search.Action n} (works : working a = true)
    (taken : Search.step c s a = some t) : t.ui = s.ui ∧ ∀ i,
      ((t.worker i).pc = .waiting ↔ (s.worker i).pc = .waiting) ∧
      (t.worker i).shouldStart = (s.worker i).shouldStart := by
  have update {k : Fin n} {w : Worker F} (pc : w.pc = .waiting ↔ (s.worker k).pc = .waiting)
      (flag : w.shouldStart = (s.worker k).shouldStart) (i : Fin n) :
      (((s.setWorker k w).worker i).pc = .waiting ↔ (s.worker i).pc = .waiting) ∧
        ((s.setWorker k w).worker i).shouldStart = (s.worker i).shouldStart := by
    by_cases same : i = k
    · subst i
      simpa using ⟨pc,flag⟩
    · rw [Search.setWorker_other s same]
      exact ⟨Iff.rfl,rfl⟩
  cases a with
  | findInFile k =>
    simp only [Search.step] at taken
    split at taken
    case h_1 f rest pc =>
      cases taken
      exact ⟨rfl,update (by simp [pc]) rfl⟩
    case h_2 => cases taken
  | decrementRemainingSize k =>
    simp only [Search.step] at taken
    split at taken
    case h_1 f rest pc =>
      cases taken
      exact ⟨rfl,update (by simp [pc]) rfl⟩
    case h_2 => cases taken
  | _ => cases works

theorem step_drawing {c : Collection n F} {s t : Search n F} {a : Search.Action n} (draws : drawing a = true)
    (taken : Search.step c s a = some t) : t.worker = s.worker ∧ (UiAt.frame s.ui).target = none := by
  cases Search.step_stepped taken with
  | moved a ui moves =>
    refine ⟨rfl,?_⟩
    rcases moves with ⟨_,pc,_⟩ | ⟨pc,_⟩ | ⟨_,pc,_⟩ | ⟨_,pc,_⟩ <;> simp [pc,UiAt.target]
  | started text pc => exact ⟨rfl,by simp [pc,UiAt.target]⟩
  | cleared text pc => exact ⟨rfl,by simp [pc,UiAt.target]⟩
  | _ => cases draws

/-- A thread in its monitor is waiting and has not ended. -/
theorem Tracks.inside {s : SearchThreads n F} {i : Fin n} (tracks : Tracks s i) {op : Op} {m : Monitor Party}
    (done : s.perform i .thread op = some m) (monitor : op.before ≠ .away) :
    (s.thread i).worker.pc = .waiting ∧ (s.thread i).ended = false := by
  apply tracks.waiting.mp
  rw [perform_before done]
  exact monitor

theorem step_invariant {c : Collection n F} {s t : SearchThreads n F} {a : Action n} (valid : Invariant s)
    (taken : step c s a = some t) : Invariant t := by
  cases step_stepped taken with
  | drawn a ui next pc draws stepped =>
    obtain ⟨workers,free⟩ := step_drawing draws stepped
    refine ⟨?_,fun i => ?_⟩
    · exact List.nodup_finRange n
    · refine (valid.tracks i).congr ?_ ?_ ?_ ?_ ?_
      · simp [lift,workers,abstract]
      · intro target
        simp [abstract,pc,UiAt.pc] at free
        simp [pc,free] at target
      · simp [pc,UiAt.notified]
      · simp [pc,UiAt.unstopped]
      · simp [pc,UiAt.unjoined]
  | locked i m target done =>
    refine ⟨valid.distinct,tracks_setThread valid.tracks rfl (by simp [setThread]) (by simp [setThread])
      (by simp [setThread]) (by simp [setThread]) ?_⟩
    refine (valid.tracks i).ofUi done (setThread_same s i _) rfl rfl (.inl rfl) (.inr (.inl ⟨rfl,target⟩)) ?_
      (valid.tracks i).stopped id id
    simp [setThread,UiAt.notified_of_target target]
  | texted text i rest m ui done =>
    refine ⟨List.nodup_finRange n,tracks_setThread valid.tracks rfl ?_ ?_ ?_ ?_ ?_⟩
    · intro k other target
      simp [ui,UiAt.target,Ne.symm other] at target
    · simp [ui,UiAt.notified]
    · simp [ui,UiAt.unstopped]
    · simp [UiAt.unjoined]
    · refine (valid.tracks i).ofUi done (setThread_same s i _) rfl rfl (.inl rfl) (.inl rfl) ?_ ?_ id ?_
      · simp [UiAt.notified]
      · simpa [ui,UiAt.unstopped] using (valid.tracks i).stopped
      · simp [UiAt.unjoined]
  | flagged text i rest m ui done =>
    refine ⟨List.nodup_finRange n,tracks_setThread valid.tracks rfl ?_ ?_ ?_ ?_ ?_⟩
    · intro k other target
      simp [ui,UiAt.target,Ne.symm other] at target
    · intro k other
      simp [ui,UiAt.notified,Ne.symm other]
    · simp [ui,UiAt.unstopped]
    · simp [UiAt.unjoined]
    · refine (valid.tracks i).ofUi done (setThread_same s i _) rfl rfl (.inr rfl) (.inr (.inr ⟨rfl,rfl⟩))
        (fun _ => rfl) ?_ id ?_
      · simpa [ui,UiAt.unstopped] using (valid.tracks i).stopped
      · simp [UiAt.unjoined]
  | notified ui i m moves done =>
    have same : ui.unjoined = s.ui.unjoined ∧ ui.unstopped = s.ui.unstopped ∧ s.ui.target = none ∧
        s.ui.notified = some i ∧ ui.notified = none := by
      rcases moves with ⟨text,rest,pc,rfl⟩ | ⟨rest,pc,rfl⟩ <;>
        simp [pc,UiAt.unjoined,UiAt.unstopped,UiAt.target,UiAt.notified]
    obtain ⟨unjoined,unstopped,target,notified,quiet⟩ := same
    refine ⟨unjoined ▸ valid.distinct,tracks_setThread valid.tracks rfl ?_ ?_ ?_ ?_ ?_⟩
    · simp [target]
    · intro k other
      simp [notified,quiet,Ne.symm other]
    · simp [unstopped]
    · simp [unjoined]
    · refine (valid.tracks i).ofUi done (setThread_same s i _) rfl rfl (.inl rfl) (.inl rfl) ?_ ?_ id ?_
      · simp [quiet]
      · rw [unstopped]
        exact (valid.tracks i).stopped
      · exact unjoined ▸ id
  | destroyed order ui perm =>
    refine ⟨perm.nodup_iff.mpr (List.nodup_finRange n),fun i => ?_⟩
    have all : i ∈ order := perm.mem_iff.mpr (List.mem_finRange i)
    refine (valid.tracks i).congr rfl ?_ ?_ ?_ ?_
    · rcases ui with pc | pc <;> simp [pc,UiAt.target]
    · rcases ui with pc | pc <;> simp [pc,UiAt.notified]
    · rcases ui with pc | pc <;> simp [pc,UiAt.unstopped,all]
    · simp [UiAt.unjoined,all]
  | stopped i rest m ui done =>
    have distinct := valid.distinct
    simp only [ui,UiAt.unjoined,List.nodup_cons] at distinct
    refine ⟨List.nodup_cons.mpr distinct,tracks_setThread valid.tracks rfl ?_ ?_ ?_ ?_ ?_⟩
    · intro k other target
      simp [ui,UiAt.target,Ne.symm other] at target
    · intro k other
      simp [ui,UiAt.notified,Ne.symm other]
    · intro k other
      simp [ui,UiAt.unstopped,other]
    · simp [ui,UiAt.unjoined]
    · refine (valid.tracks i).ofUi done (setThread_same s i _) rfl rfl (.inr rfl) (.inr (.inr ⟨rfl,rfl⟩))
        (fun _ => rfl) ?_ (fun _ => rfl) ?_
      · simpa [UiAt.unstopped] using distinct.1
      · simp [ui,UiAt.unjoined]
  | joined i rest ui ended =>
    have distinct := valid.distinct
    simp only [ui,UiAt.unjoined,List.nodup_cons] at distinct
    refine ⟨distinct.2,fun k => (valid.tracks k).congr rfl ?_ ?_ ?_ ?_⟩
    · simp [ui,UiAt.target]
    · simp [ui,UiAt.notified]
    · simp [ui,UiAt.unstopped]
    · simp only [ui,UiAt.unjoined,List.mem_cons]
      rintro (rfl | inside)
      · exact .inr ended
      · exact .inl inside
  | waited a i op m which done =>
    have monitor : op.before ≠ .away ∧ op ≠ .notify ∧ op.changes = false ∧
        (∀ ready, op.after ready ≠ .away ∧ op.after ready ≠ .changing ∧ op.after ready ≠ .notifying) := by
      rcases which with ⟨_,rfl⟩ | ⟨_,rfl⟩ | ⟨_,rfl⟩ <;> decide
    obtain ⟨inside,quiet,unchanged,after⟩ := monitor
    obtain ⟨self,other⟩ := perform_thread quiet done
    refine valid.setThread ?_
    refine (valid.tracks i).ofThread ?_ other (setThread_same s i _) rfl ?_ ?_ rfl (valid.tracks i).ended id
    · exact (valid.tracks i).monitor.perform done (fun _ => rfl) fun now was => by simp_all [Thread.ready]
    · rw [self]
      exact iff_of_true (after _).1 ((valid.tracks i).inside done inside)
    · rw [self]
      exact (after _).2
  | ended i m stop done =>
    obtain ⟨self,other⟩ := perform_thread (by decide) done
    refine valid.setThread ?_
    refine (valid.tracks i).ofThread ?_ other (setThread_same s i _) rfl ?_ ?_ rfl ?_ fun _ => rfl
    · exact (valid.tracks i).monitor.perform done (fun kept => nomatch kept) (by simp_all [Thread.ready])
    · simp [self,Op.after]
    · simp [self,Op.after]
    · exact fun _ => ⟨stop,((valid.tracks i).inside done (by decide)).1⟩
  | begun i m stay start done =>
    obtain ⟨self,other⟩ := perform_thread (by decide) done
    have open_ := ((valid.tracks i).inside done (by decide)).2
    refine valid.setThread ?_
    refine (valid.tracks i).ofThread ?_ other (setThread_same s i _) rfl ?_ ?_ rfl ?_ id
    · exact (valid.tracks i).monitor.perform done (fun kept => nomatch kept) (by simp [Thread.ready,stay])
    · simp [self,Op.after]
    · simp [self,Op.after]
    · simp [open_]
  | again i m m' idle done awaits =>
    have busy := (valid.tracks i).monitor.passed _ (perform_before done)
    rw [idle] at busy
    cases busy
  | worked a next works stepped =>
    obtain ⟨_,same⟩ := step_working works stepped
    refine ⟨valid.distinct,fun i => ?_⟩
    have tracks := valid.tracks i
    obtain ⟨pc,flag⟩ := same i
    have ready : ({ s.thread i with worker := next.worker i } : Thread F).ready = (s.thread i).ready := by
      rw [Thread.ready,flag]
      rfl
    let here : Thread F := { s.thread i with worker := next.worker i }
    refine @Tracks.ofThread n F s (s.lift next) i here tracks ?_ rfl rfl rfl ?_ tracks.thread rfl ?_ id
    · rw [ready]
      exact tracks.monitor
    · exact tracks.waiting.trans (and_congr_left' pc.symm)
    · exact fun ended => (tracks.ended ended).imp_right pc.mpr
  | finished i m pc done =>
    obtain ⟨self,other⟩ := perform_thread (by decide) done
    have open_ : (s.thread i).ended = false := by
      by_contra ended
      have := ((valid.tracks i).ended (by simpa using ended)).2
      simp [pc] at this
    refine valid.setThread ?_
    refine (valid.tracks i).ofThread ?_ other (setThread_same s i _) rfl ?_ ?_ rfl ?_ id
    · exact (valid.tracks i).monitor.perform done (fun _ => rfl) fun now was => by simp_all [Thread.ready]
    · simp [self,Op.after,open_]
    · simp [self,Op.after]
    · simp [open_]

theorem reachable_invariant {c : Collection n F} {s : SearchThreads n F} (reached : Reachable (step c) start s) :
    Invariant s :=
  reached.invariant start_invariant fun _ _ _ _ valid _ taken => step_invariant valid taken

/-! ## The search without the mutexes -/

theorem abstract_setThread (s : SearchThreads n F) (i : Fin n) (t : Thread F) (ui : UiAt n) :
    ({ s.setThread i t with ui := ui } : SearchThreads n F).abstract =
      { s.abstract.setWorker i t.worker with ui := ui.pc } := by
  have workers : (fun k => ((s.setThread i t).thread k).worker) =
      Function.update (fun k => (s.thread k).worker) i t.worker := by
    funext k
    by_cases same : k = i
    · subst k
      simp
    · rw [setThread_other s same,Function.update_of_ne same]
  simp only [abstract,Search.setWorker,setThread] at workers ⊢
  rw [workers]

theorem setWorker_self (s : Search n F) (i : Fin n) : s.setWorker i (s.worker i) = s := by
  simp [Search.setWorker]

/-- The worker is as before. -/
theorem abstract_monitor (s : SearchThreads n F) (i : Fin n) (t : Thread F) (ui : UiAt n)
    (worker : t.worker = (s.thread i).worker) (pc : ui.pc = s.ui.pc) :
    ({ s.setThread i t with ui := ui } : SearchThreads n F).abstract = s.abstract := by
  rw [abstract_setThread,worker,pc]
  exact setWorker_self s.abstract i

/-- The texts that a search is started for. -/
def texts : Search.Action n → List String
  | .findText text => if text.utf8ByteSize < Search.minTextLength then [] else [text]
  | _ => []

def Action.texts : Action n → List String
  | .draw a => SearchThreads.texts a
  | _ => []

/-- The text that was searched last. -/
def latest (actions : List (Action n)) : String := ((actions.flatMap Action.texts).getLast?).getD ""

theorem searched_eq (text : String) (a : Search.Action n) :
    Search.Action.searched text a = ((texts a).getLast?).getD text := by
  cases a with
  | findText entered => by_cases short : entered.utf8ByteSize < Search.minTextLength <;>
      simp [Search.Action.searched,texts,short]
  | _ => rfl

theorem foldl_searched (text : String) (actions : List (Search.Action n)) :
    actions.foldl Search.Action.searched text = ((actions.flatMap texts).getLast?).getD text := by
  induction actions generalizing text with
  | nil => rfl
  | cons a rest ih =>
    rw [List.foldl_cons,ih,searched_eq,List.flatMap_cons,List.getLast?_append]
    cases (rest.flatMap texts).getLast? <;> rfl

/-- A step is one of the search, or none, or the end of a last frame. -/
theorem step_abstract {c : Collection n F} {s t : SearchThreads n F} {a : Action n} (valid : Invariant s)
    (taken : step c s a = some t) :
    ∃ as, run (Search.step c) s.abstract as = some t.abstract ∧ as.flatMap texts = a.texts := by
  have one (a' : Search.Action n) (same : texts a' = a.texts)
      (stepped : Search.step c s.abstract a' = some t.abstract) :
      ∃ as, run (Search.step c) s.abstract as = some t.abstract ∧ as.flatMap texts = a.texts :=
    ⟨[a'],by simp [run,stepped],by simpa using same⟩
  have none (silent : a.texts = []) (same : t.abstract = s.abstract) :
      ∃ as, run (Search.step c) s.abstract as = some t.abstract ∧ as.flatMap texts = a.texts :=
    ⟨[],by rw [same]; rfl,by rw [silent]; rfl⟩
  cases step_stepped taken with
  | drawn a ui next pc draws stepped => exact one a rfl stepped
  | locked i m target done => exact none rfl (abstract_monitor s i _ s.ui rfl rfl)
  | texted text i rest m ui done =>
    apply one .setText rfl
    have pc : s.abstract.ui = .running text (i :: rest) := by simp [abstract,ui,UiAt.pc]
    rw [abstract_setThread]
    simp only [Search.step,pc]
    rfl
  | flagged text i rest m ui done =>
    apply one .setShouldStart rfl
    have pc : s.abstract.ui = .flagging text i rest := by simp [abstract,ui,UiAt.pc]
    rw [abstract_setThread]
    simp only [Search.step,pc]
    rfl
  | notified ui i m moves done =>
    have pc : ui.pc = s.ui.pc := by
      rcases moves with ⟨text,rest,pc,rfl⟩ | ⟨rest,pc,rfl⟩ <;> simp [pc,UiAt.pc]
    exact none rfl (abstract_monitor s i { s.thread i with monitor := m } ui rfl pc)
  | destroyed order ui perm =>
    rcases ui with polling | drawn
    · have pc : s.abstract.ui = .polling := by simp [abstract,polling,UiAt.pc]
      cases finished : s.abstract.isFinished with
      | true =>
        refine ⟨[.poll,.leave],?_,rfl⟩
        simp only [run,Search.step,pc,finished]
        rfl
      | false =>
        refine ⟨[.poll],?_,rfl⟩
        simp only [run,Search.step,pc,finished]
        rfl
    · exact none rfl (by simp [abstract,drawn,UiAt.pc])
  | stopped i rest m ui done => exact none rfl (abstract_monitor s i _ _ rfl (by simp [ui,UiAt.pc]))
  | joined i rest ui ended => exact none rfl (by simp [abstract,ui,UiAt.pc])
  | waited a i op m which done =>
    refine none ?_ (abstract_monitor s i _ s.ui rfl rfl)
    rcases which with ⟨rfl,_⟩ | ⟨rfl,_⟩ | ⟨rfl,_⟩ <;> rfl
  | ended i m stop done => exact none rfl (abstract_monitor s i _ s.ui rfl rfl)
  | begun i m stay start done =>
    apply one (.wake i) rfl
    have waiting : (s.abstract.worker i).pc = .waiting := ((valid.tracks i).inside done (by decide)).1
    have flag : (s.abstract.worker i).shouldStart = true := start
    have same := abstract_setThread s i { s.thread i with
      monitor := m
      worker := { (s.thread i).worker with
        shouldStart := false, pc := .looping (c.files i), pass := (s.thread i).worker.flagged } } s.ui
    simp only [Search.step,waiting,flag]
    exact congrArg some same.symm
  | again i m m' idle done awaits => exact none rfl (abstract_monitor s i _ s.ui rfl rfl)
  | worked a next works stepped =>
    have silent : texts a = [] := by cases a <;> first | rfl | cases works
    have same : (s.lift next).abstract = next := by
      have ui : s.ui.pc = next.ui := (step_working works stepped).1.symm
      rw [abstract]
      simp only [lift,ui]
    exact one a silent (stepped.trans (congrArg some same.symm))
  | finished i m pc done =>
    apply one (.finishWork i) rfl
    have empty : (s.abstract.worker i).pc = .looping [] := pc
    have same := abstract_setThread s i { s.thread i with
      monitor := m, worker := { (s.thread i).worker with pc := .waiting } } s.ui
    simp only [Search.step,empty]
    exact congrArg some same.symm

/-- Every run is one of the search without mutexes, for the same text. -/
theorem run_abstract {c : Collection n F} {s : SearchThreads n F} {actions : List (Action n)}
    (ran : run (step c) start actions = some s) :
    ∃ as, run (Search.step c) Search.start as = some s.abstract ∧ Search.latest as = latest actions := by
  obtain ⟨as,abstracted,same⟩ := exists_run_of_simulation
    (fun _ _ _ reached taken => step_abstract (reachable_invariant reached) taken) .start ran
  refine ⟨as,abstracted,?_⟩
  rw [Search.latest,foldl_searched,same]
  rfl

end SearchThreads

end OcrSuite.Viewer
