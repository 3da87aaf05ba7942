import OcrSuite.SearchThreads

/-! The end of every search and of the search threads: no request is slept through, and `~search` returns. -/
namespace OcrSuite.Viewer.SearchThreads

open Transition Monitor

variable {n : Nat} {F : Type}

/-- Neither the user does something nor does a thread wake without a notification. -/
def Action.Calm : Action n → Prop
  | .draw a => a.Continues
  | .destroy _ => False
  | .wake _ => False
  | _ => True

/-! ## A bound on the actions -/

/-- Until the thread is blocked or has work. -/
def waitLeft : Monitor.Pc → Nat
  | .contending => 3
  | .testing => 2
  | .passed => 1
  | _ => 0

/-- Until it is in its monitor again. -/
def workLeft : WorkerPc → Nat
  | .waiting => 0
  | .looping rest => 2 * rest.length + 4
  | .reporting _ rest => 2 * rest.length + 5

/-- For a search that is requested. -/
def passLeft (c : Collection n F) (i : Fin n) : Nat := workLeft (.looping (c.files i))

/-- The UI thread locks the mutex. -/
def lockLeft (pc : Monitor.Pc) : Nat := if pc = .changing then 0 else 1

def threadLeft (c : Collection n F) (i : Fin n) (t : Thread F) : Nat :=
  waitLeft (t.monitor.pc .thread) + workLeft t.worker.pc + (if t.worker.shouldStart then passLeft c i else 0) +
    lockLeft (t.monitor.pc .ui)

def uiLeft (c : Collection n F) : UiAt n → Nat
  | .frame .polling => 2
  | .frame .enabled => 1
  | .frame (.clearing _) => ((List.finRange n).map fun i => passLeft c i + 10).sum + 2
  | .frame (.running _ rest) => (rest.map fun i => passLeft c i + 10).sum + 1
  | .frame (.flagging _ i rest) => (rest.map fun i => passLeft c i + 10).sum + passLeft c i + 9
  | .notifying _ _ rest => (rest.map fun i => passLeft c i + 10).sum + 6
  | .frame .drawn => 0
  | .destroying rest => 10 * rest.length
  | .notifyingStop _ rest => 10 * rest.length + 8
  | .joining _ rest => 10 * rest.length + 4

/-- A bound on the calm actions. -/
def measure (c : Collection n F) (s : SearchThreads n F) : Nat := uiLeft c s.ui + ∑ i, threadLeft c i (s.thread i)

theorem measure_setThread {c : Collection n F} {s t : SearchThreads n F} {i : Fin n} {th : Thread F}
    (thread : t.thread = (s.setThread i th).thread)
    (less : uiLeft c t.ui + threadLeft c i th < uiLeft c s.ui + threadLeft c i (s.thread i)) :
    measure c t < measure c s := by
  have moved := Conservation.sum_update (threadLeft c) s.thread i th
  unfold measure
  rw [thread]
  change (∑ k, threadLeft c k ((s.setThread i th).thread k)) + _ = _ at moved
  omega

theorem hit_waitLeft (op : Op) (pc : Monitor.Pc) : waitLeft (op.hit pc) ≤ waitLeft pc + 3 := by
  unfold Op.hit
  split
  case isTrue => simp [waitLeft]
  case isFalse => omega

theorem lift_setWorker (s : SearchThreads n F) (i : Fin n) (w : Worker F) :
    (s.lift (s.abstract.setWorker i w)).thread = (s.setThread i { s.thread i with worker := w }).thread := by
  funext k
  by_cases same : k = i
  · subst k
    simp [lift]
  · rw [setThread_other _ same]
    simp [lift,Search.setWorker_other _ same,abstract]

/-- In a pass only what is left of it changes. -/
theorem measure_worker {c : Collection n F} {s : SearchThreads n F} {i : Fin n} {t : Search n F} {w : Worker F}
    (workers : t.worker = (s.abstract.setWorker i w).worker)
    (flag : w.shouldStart = (s.thread i).worker.shouldStart)
    (less : workLeft w.pc < workLeft (s.thread i).worker.pc) : measure c (s.lift t) < measure c s := by
  have thread : (s.lift t).thread = (s.setThread i { s.thread i with worker := w }).thread := by
    rw [← lift_setWorker]
    simp only [lift,workers]
  refine measure_setThread thread (Nat.add_lt_add_left ?_ _)
  simp only [threadLeft,flag]
  omega

theorem step_measure {c : Collection n F} {s t : SearchThreads n F} {a : Action n} (valid : Invariant s)
    (calm : a.Calm) (taken : step c s a = some t) : measure c t < measure c s := by
  cases step_stepped taken with
  | drawn a ui next pc draws stepped =>
    have at_ : s.abstract.ui = ui := by simp [abstract,pc,UiAt.pc]
    have less : uiLeft c (.frame next.ui) < uiLeft c s.ui := by
      rw [pc]
      cases Search.step_stepped stepped with
      | moved a ui' moves =>
        rcases moves with ⟨_,here,rfl⟩ | ⟨here,rfl⟩ | ⟨entered,here,rfl⟩ | ⟨rfl,_⟩
        · rw [at_] at here
          split <;> simp [here,uiLeft]
        · rw [at_] at here
          simp [here,uiLeft]
        · rw [at_] at here
          simp [here,uiLeft]
        · exact calm.elim
      | started text => exact calm.elim
      | cleared text here =>
        rw [at_] at here
        simp [here,uiLeft]
      | _ => cases draws
    have workers : (s.lift next).thread = s.thread := by
      funext i
      simp only [lift,(step_drawing draws stepped).1]
      rfl
    unfold measure
    rw [show ({ s.lift next with ui := .frame next.ui } : SearchThreads n F).thread = s.thread from workers]
    exact Nat.add_lt_add_right less _
  | locked i m target done =>
    obtain ⟨self,other⟩ := perform_ui done
    refine measure_setThread (i := i) rfl (Nat.add_lt_add_left ?_ _)
    have before := perform_before done
    simp [threadLeft,self,other,before,Op.before,Op.after,lockLeft,Op.hit]
  | texted text i rest m ui done =>
    obtain ⟨self,other⟩ := perform_ui done
    refine measure_setThread (i := i) rfl ?_
    have before := perform_before done
    simp [threadLeft,self,other,before,Op.before,Op.after,lockLeft,Op.hit,ui,uiLeft]
    omega
  | flagged text i rest m ui done =>
    obtain ⟨self,other⟩ := perform_ui done
    refine measure_setThread (i := i) rfl ?_
    have before := perform_before done
    simp [threadLeft,self,other,before,Op.before,Op.after,lockLeft,Op.hit,ui,uiLeft]
    omega
  | notified ui i m moves done =>
    obtain ⟨self,other⟩ := perform_ui done
    refine measure_setThread (i := i) rfl ?_
    have before := perform_before done
    have woken := hit_waitLeft .notify ((s.thread i).monitor.pc .thread)
    have less : uiLeft c ui + 3 < uiLeft c s.ui := by
      rcases moves with ⟨text,rest,pc,rfl⟩ | ⟨rest,pc,rfl⟩ <;> simp [pc,uiLeft]
    simp only [threadLeft,self,other,before,Op.before,Op.after,lockLeft]
    simp
    omega
  | destroyed order ui perm => exact calm.elim
  | stopped i rest m ui done =>
    obtain ⟨self,other⟩ := perform_ui done
    refine measure_setThread (i := i) rfl ?_
    have before := perform_before done
    simp [threadLeft,self,other,before,Op.before,Op.after,lockLeft,Op.hit,ui,uiLeft]
    omega
  | joined i rest ui ended =>
    simp [measure,ui,uiLeft]
  | waited a i op m which done =>
    have before := perform_before done
    refine measure_setThread (i := i) rfl (Nat.add_lt_add_left ?_ _)
    rcases which with ⟨rfl,rfl⟩ | ⟨rfl,rfl⟩ | ⟨rfl,rfl⟩
    · obtain ⟨self,other⟩ := perform_thread (by decide) done
      simp [threadLeft,self,other,before,Op.before,Op.after,waitLeft]
    · obtain ⟨self,other⟩ := perform_thread (by decide) done
      simp only [threadLeft,self,other,before,Op.before,Op.after]
      split <;> simp [waitLeft]
    · exact calm.elim
  | ended i m stop done =>
    have before := perform_before done
    obtain ⟨self,other⟩ := perform_thread (by decide) done
    refine measure_setThread (i := i) rfl (Nat.add_lt_add_left ?_ _)
    simp [threadLeft,self,other,before,Op.before,Op.after,waitLeft]
  | begun i m stay start done =>
    have before := perform_before done
    have waiting := ((valid.tracks i).inside done (by decide)).1
    obtain ⟨self,other⟩ := perform_thread (by decide) done
    refine measure_setThread (i := i) rfl (Nat.add_lt_add_left ?_ _)
    simp [threadLeft,self,other,before,Op.before,Op.after,waitLeft,waiting,start,passLeft,workLeft]
  | again i m m' idle done awaits =>
    have busy := (valid.tracks i).monitor.passed _ (perform_before done)
    rw [idle] at busy
    cases busy
  | worked a next works stepped =>
    cases a with
    | findInFile i =>
      simp only [Search.step] at stepped
      split at stepped
      case h_1 f rest pc =>
        obtain ⟨⟩ := stepped
        refine measure_worker (i := i) rfl rfl ?_
        have here : (s.thread i).worker.pc = .looping (f :: rest) := pc
        rw [here]
        simp only [workLeft,List.length_cons]
        omega
      case h_2 => cases stepped
    | decrementRemainingSize i =>
      simp only [Search.step] at stepped
      split at stepped
      case h_1 f rest pc =>
        obtain ⟨⟩ := stepped
        refine measure_worker (i := i) rfl rfl ?_
        have here : (s.thread i).worker.pc = .reporting f rest := pc
        rw [here]
        exact Nat.lt_succ_self _
      case h_2 => cases stepped
    | _ => cases works
  | finished i m pc done =>
    have before := perform_before done
    obtain ⟨self,other⟩ := perform_thread (by decide) done
    refine measure_setThread (i := i) rfl (Nat.add_lt_add_left ?_ _)
    simp [threadLeft,self,other,before,Op.before,Op.after,waitLeft,workLeft,pc]

/-! ## Progress -/

/-- Nothing is left to do but for the user, or all is over. -/
structure AtRest (s : SearchThreads n F) : Prop where
  ui : s.ui = .frame .drawn ∨ s.ui = .destroying []
  threads : ∀ i, ((s.thread i).monitor.pc .thread = .blocked ∧ (s.thread i).ready = false ∧
    s.ui = .frame .drawn) ∨ (s.thread i).ended = true

/-- No thread sleeps through a request or its end. -/
theorem Tracks.told {s : SearchThreads n F} {i : Fin n} (tracks : Tracks s i)
    (blocked : (s.thread i).monitor.pc .thread = .blocked) (ready : (s.thread i).ready = true) :
    s.ui.notified = some i := by
  obtain ⟨p,notifying⟩ := tracks.monitor.awake ready _ blocked
  cases p with
  | ui => rcases tracks.ui with away | ⟨changing,_⟩ | ⟨_,notified⟩ <;> simp_all
  | thread => exact (tracks.thread.2 notifying).elim

/-- A thread that neither sleeps nor has ended can go on, unless the UI thread is in its monitor. -/
theorem thread_continues (c : Collection n F) {s : SearchThreads n F} {i : Fin n} (tracks : Tracks s i)
    (apart : (s.thread i).monitor.pc .ui ≠ .changing) (asleep : (s.thread i).monitor.pc .thread ≠ .blocked)
    (open_ : (s.thread i).ended = false) : ∃ a, Action.Calm a ∧ (step c s a).isSome = true := by
  have performs (op : Op) (here : (s.thread i).monitor.pc .thread = op.before)
      (free : (op.after (s.thread i).ready).holds = true →
        op.before.holds = true ∨ (s.thread i).monitor.owner = none) :
      ∃ m, s.perform i .thread op = some m := Option.isSome_iff_exists.mp (perform_isSome here free)
  cases pc : (s.thread i).monitor.pc .thread with
  | away =>
    have busy : (s.thread i).worker.pc ≠ .waiting := fun waiting => tracks.waiting.mpr ⟨waiting,open_⟩ pc
    cases work : (s.thread i).worker.pc with
    | waiting => exact (busy work).elim
    | looping files =>
      cases files with
      | nil =>
        obtain ⟨m,done⟩ := performs .await pc (by simp [Op.after,Pc.holds])
        exact ⟨.finishWork i,trivial,by simp [step,work,done]⟩
      | cons f rest =>
        refine ⟨.work (.findInFile i),trivial,?_⟩
        simp [step,working,Search.step,abstract,work]
    | reporting f rest =>
      refine ⟨.work (.decrementRemainingSize i),trivial,?_⟩
      simp [step,working,Search.step,abstract,work]
  | contending =>
    have free : (s.thread i).monitor.owner = none := by
      apply tracks.monitor.free_iff.mpr
      intro p
      cases p with
      | ui => rcases tracks.ui with away | ⟨changing,_⟩ | ⟨notifying,_⟩ <;> simp_all [Pc.holds]
      | thread => simp [pc,Pc.holds]
    obtain ⟨m,done⟩ := performs .acquire pc fun _ => .inr free
    exact ⟨.acquire i,trivial,by simp [step,done]⟩
  | testing =>
    obtain ⟨m,done⟩ := performs .test pc fun _ => .inl rfl
    exact ⟨.test i,trivial,by simp [step,done]⟩
  | blocked => exact (asleep pc).elim
  | passed =>
    obtain ⟨m,done⟩ := performs .leave pc (by simp [Op.after,Pc.holds])
    have ready := tracks.monitor.passed _ pc
    refine ⟨.leave i,trivial,?_⟩
    cases stop : (s.thread i).shouldStop with
    | true => simp [step,done,stop]
    | false =>
      have start : (s.thread i).worker.shouldStart = true := by simpa [Thread.ready,stop] using ready
      simp [step,done,stop,start]
  | changing => exact (tracks.thread.1 pc).elim
  | notifying => exact (tracks.thread.2 pc).elim

/-- The UI thread at a mutex: it has it, it can have it, or the thread that has it can go on. -/
theorem target_continues (c : Collection n F) {s : SearchThreads n F} (valid : Invariant s) {i : Fin n}
    (target : s.ui.target = some i)
    (changes : (s.thread i).monitor.pc .ui = .changing → ∃ a, Action.Calm a ∧ (step c s a).isSome = true) :
    ∃ a, Action.Calm a ∧ (step c s a).isSome = true := by
  have tracks := valid.tracks i
  rcases tracks.ui with away | ⟨changing,_⟩ | ⟨_,notified⟩
  · cases owner : (s.thread i).monitor.owner with
    | none =>
      have enabled : (s.perform i .ui .lock).isSome = true := perform_isSome away fun _ => .inr owner
      obtain ⟨m,locked⟩ := Option.isSome_iff_exists.mp enabled
      exact ⟨.lock,trivial,by simp [step,target,locked]⟩
    | some p =>
      have holds := (tracks.monitor.owner p).mp owner
      have thread : p = .thread := by
        cases p with
        | ui => simp [away,Pc.holds] at holds
        | thread => rfl
      subst p
      apply thread_continues c tracks (by simp [away])
      · intro blocked
        simp [blocked,Pc.holds] at holds
      · by_contra ended
        have gone : ¬ (s.thread i).monitor.pc .thread ≠ .away := fun inside =>
          ended (tracks.waiting.mp inside).2
        rw [not_ne_iff] at gone
        simp [gone,Pc.holds] at holds
  · exact changes changing
  · rw [UiAt.notified_of_target target] at notified
    cases notified

theorem exists_calm (c : Collection n F) {s : SearchThreads n F} (valid : Invariant s) (busy : ¬ AtRest s) :
    ∃ a, Action.Calm a ∧ (step c s a).isSome = true := by
  have changes {i : Fin n} (op : Op) (changing : (s.thread i).monitor.pc .ui = op.before)
      (releases : ∀ ready, (op.after ready).holds = false) : ∃ m, s.perform i .ui op = some m :=
    Option.isSome_iff_exists.mp (perform_isSome changing (by simp [releases]))
  have apart {i : Fin n} (target : s.ui.target ≠ some i) : (s.thread i).monitor.pc .ui ≠ .changing := by
    rcases (valid.tracks i).ui with pc | ⟨_,here⟩ | ⟨pc,_⟩
    · simp [pc]
    · exact (target here).elim
    · simp [pc]
  cases ui : s.ui with
  | frame pc =>
    cases pc with
    | polling => exact ⟨.draw .poll,trivial,by simp [step,ui,drawing,Search.step,abstract,UiAt.pc]⟩
    | enabled => exact ⟨.draw .leave,trivial,by simp [step,ui,drawing,Search.step,abstract,UiAt.pc]⟩
    | clearing text => exact ⟨.draw .clear,trivial,by simp [step,ui,drawing,Search.step,abstract,UiAt.pc]⟩
    | running text rest =>
      cases rest with
      | nil => exact ⟨.draw .finishFindText,trivial,by simp [step,ui,drawing,Search.step,abstract,UiAt.pc]⟩
      | cons i rest =>
        refine target_continues c valid (i := i) (by simp [ui,UiAt.target]) fun changing => ?_
        obtain ⟨m,done⟩ := changes .unlock changing fun _ => rfl
        exact ⟨.setText,trivial,by simp [step,ui,done]⟩
    | flagging text i rest =>
      refine target_continues c valid (i := i) (by simp [ui,UiAt.target]) fun changing => ?_
      obtain ⟨m,done⟩ := changes .unlockToNotify changing fun _ => rfl
      exact ⟨.setShouldStart,trivial,by simp [step,ui,done]⟩
    | drawn =>
      obtain ⟨i,active⟩ : ∃ i, ¬ (((s.thread i).monitor.pc .thread = .blocked ∧ (s.thread i).ready = false ∧
          s.ui = .frame .drawn) ∨ (s.thread i).ended = true) := by
        by_contra none
        exact busy ⟨.inl ui,by simpa only [not_exists,not_not] using none⟩
      rw [not_or,Bool.not_eq_true] at active
      apply thread_continues c (valid.tracks i) (apart (by simp [ui,UiAt.target])) _ active.2
      intro blocked
      apply active.1
      refine ⟨blocked,?_,ui⟩
      by_contra ready
      simpa [ui,UiAt.notified] using (valid.tracks i).told blocked (by simpa using ready)
  | notifying text i rest =>
    have pc := (valid.tracks i).notified (by simp [ui,UiAt.notified])
    obtain ⟨m,done⟩ := changes .notify pc fun _ => rfl
    exact ⟨.notify,trivial,by simp [step,ui,done]⟩
  | destroying rest =>
    cases rest with
    | nil =>
      exact (busy ⟨.inr ui,fun i => .inr ((valid.tracks i).joined (by simp [ui,UiAt.unjoined]))⟩).elim
    | cons i rest =>
      refine target_continues c valid (i := i) (by simp [ui,UiAt.target]) fun changing => ?_
      obtain ⟨m,done⟩ := changes .unlockToNotify changing fun _ => rfl
      exact ⟨.setShouldStop,trivial,by simp [step,ui,done]⟩
  | notifyingStop i rest =>
    have pc := (valid.tracks i).notified (by simp [ui,UiAt.notified])
    obtain ⟨m,done⟩ := changes .notify pc fun _ => rfl
    exact ⟨.notify,trivial,by simp [step,ui,done]⟩
  | joining i rest =>
    cases ended : (s.thread i).ended with
    | true => exact ⟨.join,trivial,by simp [step,ui,ended]⟩
    | false =>
      have distinct := valid.distinct
      simp only [ui,UiAt.unjoined,List.nodup_cons] at distinct
      have stop := (valid.tracks i).stopped.mpr (by simpa [ui,UiAt.unstopped] using distinct.1)
      apply thread_continues c (valid.tracks i) (apart (by simp [ui,UiAt.target])) _ ended
      intro blocked
      simpa [ui,UiAt.notified] using (valid.tracks i).told blocked (by simp [Thread.ready,stop])

/-! ## The ends -/

variable {c : Collection n F} {s t : SearchThreads n F} {actions more : List (Action n)}

/-- The UI thread is in the destructor. -/
def inDestructor : UiAt n → Prop
  | .destroying _ | .notifyingStop _ _ | .joining _ _ => True
  | _ => False

theorem step_inDestructor {a : Action n} (taken : step c s a = some t) :
    inDestructor t.ui ↔ inDestructor s.ui ∨ ∃ order, a = .destroy order := by
  cases step_stepped taken with
  | drawn a ui next pc => simp [inDestructor,pc]
  | texted text i rest m ui => simp [inDestructor,ui]
  | flagged text i rest m ui => simp [inDestructor,ui]
  | notified ui i m moves =>
    rcases moves with ⟨text,rest,pc,rfl⟩ | ⟨rest,pc,rfl⟩ <;> simp [inDestructor,pc]
  | destroyed order => simp [inDestructor]
  | stopped i rest m ui => simp [inDestructor,ui]
  | joined i rest ui => simp [inDestructor,ui]
  | waited a i op m which => rcases which with ⟨rfl,_⟩ | ⟨rfl,_⟩ | ⟨rfl,_⟩ <;> simp [setThread]
  | worked => simp [lift]
  | _ => simp [setThread]

theorem run_inDestructor (ran : run (step c) start actions = some s) :
    inDestructor s.ui ↔ ∃ order, .destroy order ∈ actions := by
  have history := run_brought (P := fun s : SearchThreads n F => inDestructor s.ui)
    (fun _ _ _ taken => step_inDestructor taken) ran
  rw [history]
  constructor
  · rintro (outside | ⟨_,member,order,rfl⟩)
    · exact outside.elim
    · exact ⟨order,member⟩
  · rintro ⟨order,member⟩
    exact .inr ⟨_,member,order,rfl⟩

/-- The threads at rest have reported all files of the passes they took up. -/
theorem AtRest.unreported (rest : AtRest t) (valid : Invariant t) (covered : Search.Invariant c t.abstract)
    (i : Fin n) : t.unreported i = if (t.thread i).worker.shouldStart then c.files i else [] := by
  have waiting : (t.thread i).worker.pc = .waiting := by
    rcases rest.threads i with ⟨blocked,_,_⟩ | ended
    · exact ((valid.tracks i).waiting.mp (by simp [blocked])).1
    · exact ((valid.tracks i).ended ended).2
  have drawn : t.abstract.ui = .drawn := by
    rcases rest.ui with ui | ui <;> simp [abstract,ui,UiAt.pc]
  have tracks := covered.tracks i
  split
  case isTrue start => exact (tracks.before (.inr start)).2
  case isFalse idle =>
    have left := tracks.after (by simp [drawn,Search.toRun]) (by simpa [abstract] using idle)
    simpa [abstract,waiting,Search.WorkerPc.rest] using left

/-- So the table has the rows of these passes. -/
theorem AtRest.rows (rest : AtRest t) (fresh : c.Fresh) (countable : Search.Countable c)
    (ran : run (step c) start actions = some t) (searching : 0 < t.search) :
    (t.results.map Prod.snd).Perm ((List.finRange n).flatMap fun i =>
      if (t.thread i).worker.shouldStart then [] else c.hits (latest actions) (c.files i)) := by
  obtain ⟨as,abstracted,same⟩ := run_abstract ran
  have drawn : t.abstract.ui = .drawn := by
    rcases rest.ui with ui | ui <;> simp [abstract,ui,UiAt.pc]
  obtain ⟨reported,parts,rows⟩ :=
    Search.results_perm fresh countable abstracted searching (by simp [drawn])
  have covered := Search.reachable_invariant countable (reachable_of_run abstracted)
  refine rows.trans (.of_eq (List.flatMap_congr fun i _ => ?_))
  have left := rest.unreported (reachable_invariant (reachable_of_run ran)) covered i
  have split : c.files i = reported i ++ t.unreported i := parts i
  rw [left] at split
  rw [same]
  cases flag : (t.thread i).worker.shouldStart with
  | true =>
    simp only [flag,if_true,List.self_eq_append_left] at split
    simp [split,Collection.hits]
  | false =>
    simp only [flag,Bool.false_eq_true,if_false,List.append_nil] at split
    simp [split]

/-- All threads sleep, and the table has the hits of all files. -/
structure Finished (c : Collection n F) (text : String) (t : SearchThreads n F) : Prop where
  drawn : t.ui = .frame .drawn
  asleep : ∀ i, (t.thread i).monitor.pc .thread = .blocked ∧ (t.thread i).ready = false
  finished : t.abstract.isFinished = true
  rows : 0 < t.search → (t.results.map Prod.snd).Perm
    ((List.finRange n).flatMap fun i => c.hits text (c.files i))

/-- All threads have ended. A pass that a thread had taken up is done to its end, one that was only requested
is dropped. -/
structure Destroyed (c : Collection n F) (text : String) (t : SearchThreads n F) : Prop where
  returned : t.ui = .destroying []
  ended : ∀ i, (t.thread i).ended = true
  unreported : ∀ i, t.unreported i = if (t.thread i).worker.shouldStart then c.files i else []
  rows : 0 < t.search → (t.results.map Prod.snd).Perm ((List.finRange n).flatMap fun i =>
    if (t.thread i).worker.shouldStart then [] else c.hits text (c.files i))

theorem AtRest.finished (rest : AtRest t) (fresh : c.Fresh) (countable : Search.Countable c)
    (ran : run (step c) start actions = some t) (alive : ∀ order, .destroy order ∉ actions) :
    Finished c (latest actions) t := by
  have valid := reachable_invariant (reachable_of_run ran)
  have outside : ¬ inDestructor t.ui := by
    rw [run_inDestructor ran]
    exact fun ⟨order,member⟩ => alive order member
  have drawn : t.ui = .frame .drawn := by
    apply rest.ui.resolve_right
    intro ui
    simp [ui,inDestructor] at outside
  have asleep (i : Fin n) : (t.thread i).monitor.pc .thread = .blocked ∧ (t.thread i).ready = false := by
    rcases rest.threads i with ⟨blocked,idle,_⟩ | ended
    · exact ⟨blocked,idle⟩
    · have stopped := (valid.tracks i).stopped.mp ((valid.tracks i).ended ended).1
      simp [drawn,UiAt.unstopped] at stopped
  have unflagged (i : Fin n) : (t.thread i).worker.shouldStart = false := by
    have idle := (asleep i).2
    simp only [Thread.ready,Bool.or_eq_false_iff] at idle
    exact idle.2
  obtain ⟨as,abstracted,_⟩ := run_abstract ran
  have covered := Search.reachable_invariant countable (reachable_of_run abstracted)
  constructor
  · exact drawn
  · exact asleep
  · apply (covered.exact countable).finished.mpr
    intro i
    have left := rest.unreported valid covered i
    rwa [unflagged i] at left
  · intro searching
    have rows := rest.rows fresh countable ran searching
    simpa only [unflagged,Bool.false_eq_true,if_false] using rows

theorem AtRest.destroyed (rest : AtRest t) (fresh : c.Fresh) (countable : Search.Countable c)
    (ran : run (step c) start actions = some t) (destroying : ∃ order, .destroy order ∈ actions) :
    Destroyed c (latest actions) t := by
  have inside := (run_inDestructor ran).mpr destroying
  have returned : t.ui = .destroying [] := by
    apply rest.ui.resolve_left
    intro ui
    simp [ui,inDestructor] at inside
  have valid := reachable_invariant (reachable_of_run ran)
  obtain ⟨as,abstracted,_⟩ := run_abstract ran
  constructor
  · exact returned
  · exact fun i => (valid.tracks i).joined (by simp [returned,UiAt.unjoined])
  · exact rest.unreported valid (Search.reachable_invariant countable (reachable_of_run abstracted))
  · exact rest.rows fresh countable ran

end OcrSuite.Viewer.SearchThreads
