import OcrSuite.Transition

/-! The watcher's loop: it processes all files, then waits for the observer thread to report a
change, or for the time of the next periodic check. -/
namespace OcrSuite.Watcher

open Transition

/-- `suffix` is that of `pathlib`. -/
structure Config where
  fileExtensions : List String
  checkingFrequency : Nat
  suffix : String → String

structure FileEvent where
  srcPath : String
  isFileModified : Bool
  deriving DecidableEq

/-- Where `Runner.run` is, with what `_process_all_files` has got so far. `returned` is the head of
the loop. -/
inductive RunnerPc where
  | starting
  | collecting
  | executing (files : List String)
  | resetting (canContinue : Bool)
  | stamping (canContinue : Bool)
  | returning (canContinue : Bool)
  | returned (canContinue : Bool)
  | sleeping
  | checking
  | checkingTime
  | leaving
  | stopped
  deriving DecidableEq

/-- The observer thread assigns the flag some time after it has called `_on_file_change`. -/
inductive ObserverPc where
  | waiting
  | called (path : String)
  deriving DecidableEq

/-- `called` tells of the last pass whether `_on_file_change` was called between its collection of
files and its return, `assigned` whether the flag was set between its reset and its return. -/
structure Runner where
  shouldRun : Bool
  lastCheckTime : Rat
  pc : RunnerPc
  observer : ObserverPc
  called : Bool
  assigned : Bool
  deriving DecidableEq

/-- A pass that has collected its files and has not returned. -/
def RunnerPc.insidePass : RunnerPc → Bool
  | .executing _ | .resetting _ | .stamping _ | .returning _ => true
  | _ => false

/-- The part of a pass after the reset of the flag. -/
def RunnerPc.afterReset : RunnerPc → Bool
  | .stamping _ | .returning _ => true
  | _ => false

def RunnerPc.watching : RunnerPc → Bool
  | .starting | .stopped => false
  | _ => true

/-- Between the return of a pass and the start of the next one. -/
def RunnerPc.betweenPasses : RunnerPc → Bool
  | .returned _ | .sleeping | .checking | .checkingTime => true
  | _ => false

namespace Runner

inductive Action where
  | enter
  | collect (files : List String)
  | execute (interrupted : Bool)
  | reset
  | stamp (now : Rat)
  | ret
  | loop
  | wake
  | check
  | checkTime (now : Rat)
  | interrupt
  | exit
  | onModified (event : FileEvent)
  | setShouldRun

def start : Runner := ⟨false,0,.starting,.waiting,false,false⟩

def checkingFrequencySeconds (config : Config) : Rat := config.checkingFrequency * 60

/-- `execute` catches a keyboard interrupt itself; one elsewhere, or another exception, ends the loop. -/
def step (config : Config) (s : Runner) : Action → Option Runner
  | .enter => if s.pc = .starting then some { s with pc := .collecting } else none
  | .collect files =>
    if s.pc = .collecting then some { s with pc := .executing files, called := false, assigned := false }
    else none
  | .execute interrupted =>
    match s.pc with
    | .executing _ => some { s with pc := .resetting (!interrupted) }
    | _ => none
  | .reset =>
    match s.pc with
    | .resetting canContinue =>
      some { s with shouldRun := false, pc := .stamping canContinue, assigned := false }
    | _ => none
  | .stamp now =>
    match s.pc with
    | .stamping canContinue => some { s with lastCheckTime := now, pc := .returning canContinue }
    | _ => none
  | .ret =>
    match s.pc with
    | .returning canContinue => some { s with pc := .returned canContinue }
    | _ => none
  | .loop =>
    match s.pc with
    | .returned canContinue => some { s with pc := if canContinue then .sleeping else .leaving }
    | _ => none
  | .wake => if s.pc = .sleeping then some { s with pc := .checking } else none
  | .check =>
    if s.pc = .checking then some { s with pc := if s.shouldRun then .collecting else .checkingTime }
    else none
  | .checkTime now =>
    if s.pc = .checkingTime then
      some { s with pc :=
        if now - s.lastCheckTime > checkingFrequencySeconds config then .collecting else .returned true }
    else none
  | .interrupt =>
    match s.pc with
    | .starting | .leaving | .stopped => none
    | _ => some { s with pc := .leaving }
  | .exit => if s.pc = .leaving ∧ s.observer = .waiting then some { s with pc := .stopped } else none
  | .onModified event =>
    if s.pc.watching ∧ s.observer = .waiting then
      if event.isFileModified ∧ config.suffix event.srcPath ∈ config.fileExtensions then
        some { s with observer := .called event.srcPath, called := s.called || s.pc.insidePass }
      else some s
    else none
  | .setShouldRun =>
    match s.observer with
    | .called _ =>
      some { s with shouldRun := true, observer := .waiting, assigned := s.assigned || s.pc.afterReset }
    | .waiting => none

/-- A change that was reported while the last pass was under way will start another one. -/
def NoneLost (config : Config) (s : Runner) : Prop :=
  s.called = true → s.pc.betweenPasses = true →
    s.shouldRun = true ∧ ∀ t, step config s .check = some t → t.pc = .collecting

/-- Where a change was reported during the pass, the flag is set after its reset. -/
def SetsAgain (s : Runner) (a : Action) : Prop :=
  a = .ret → s.called = true → s.assigned = true

/-! ## The steps -/

inductive Stepped (config : Config) (s : Runner) : Action → Runner → Prop where
  | moved (a : Action) (pc : RunnerPc) (time : Rat) : a ≠ .ret →
      (pc.afterReset = true → s.pc.afterReset = true) →
      (pc.betweenPasses = true → s.pc.betweenPasses = true) →
      Stepped config s a { s with lastCheckTime := time, pc := pc }
  | collected (files : List String) : s.pc = .collecting → Stepped config s (.collect files)
      { s with pc := .executing files, called := false, assigned := false }
  | reset (canContinue : Bool) : s.pc = .resetting canContinue → Stepped config s .reset
      { s with shouldRun := false, pc := .stamping canContinue, assigned := false }
  | returned (canContinue : Bool) : s.pc = .returning canContinue →
      Stepped config s .ret { s with pc := .returned canContinue }
  | reported (event : FileEvent) : s.observer = .waiting → Stepped config s (.onModified event)
      { s with observer := .called event.srcPath, called := s.called || s.pc.insidePass }
  | assigned (path : String) : s.observer = .called path → Stepped config s .setShouldRun
      { s with shouldRun := true, observer := .waiting, assigned := s.assigned || s.pc.afterReset }

theorem step_stepped {config : Config} {s t : Runner} {a : Action}
    (taken : step config s a = some t) : Stepped config s a t := by
  cases a with
  | enter =>
    obtain ⟨pc,rfl⟩ : s.pc = .starting ∧ { s with pc := .collecting } = t := by
      simpa [step] using taken
    exact .moved _ _ _ (by simp) (by simp [RunnerPc.afterReset]) (by simp [RunnerPc.betweenPasses])
  | collect files =>
    obtain ⟨pc,rfl⟩ : s.pc = .collecting ∧
        { s with pc := .executing files, called := false, assigned := false } = t := by
      simpa [step] using taken
    exact .collected files pc
  | execute interrupted =>
    cases pc : s.pc with
    | executing files =>
      obtain rfl : { s with pc := .resetting (!interrupted) } = t := by simpa [step,pc] using taken
      exact .moved _ _ _ (by simp) (by simp [RunnerPc.afterReset]) (by simp [RunnerPc.betweenPasses])
    | _ => simp [step,pc] at taken
  | reset =>
    cases pc : s.pc with
    | resetting canContinue =>
      obtain rfl : { s with shouldRun := false, pc := .stamping canContinue, assigned := false } = t := by
        simpa [step,pc] using taken
      exact .reset canContinue pc
    | _ => simp [step,pc] at taken
  | stamp now =>
    cases pc : s.pc with
    | stamping canContinue =>
      obtain rfl : { s with lastCheckTime := now, pc := .returning canContinue } = t := by
        simpa [step,pc] using taken
      exact .moved _ _ _ (by simp) (by simp [pc,RunnerPc.afterReset]) (by simp [RunnerPc.betweenPasses])
    | _ => simp [step,pc] at taken
  | ret =>
    cases pc : s.pc with
    | returning canContinue =>
      obtain rfl : { s with pc := .returned canContinue } = t := by simpa [step,pc] using taken
      exact .returned canContinue pc
    | _ => simp [step,pc] at taken
  | loop =>
    cases pc : s.pc with
    | returned canContinue =>
      obtain rfl : { s with pc := if canContinue then .sleeping else .leaving } = t := by
        simpa [step,pc] using taken
      exact .moved _ _ _ (by simp) (by cases canContinue <;> simp [RunnerPc.afterReset])
        (by simp [pc,RunnerPc.betweenPasses])
    | _ => simp [step,pc] at taken
  | wake =>
    obtain ⟨pc,rfl⟩ : s.pc = .sleeping ∧ { s with pc := .checking } = t := by
      simpa [step] using taken
    exact .moved _ _ _ (by simp) (by simp [RunnerPc.afterReset]) (by simp [pc,RunnerPc.betweenPasses])
  | check =>
    obtain ⟨pc,rfl⟩ : s.pc = .checking ∧
        { s with pc := if s.shouldRun then .collecting else .checkingTime } = t := by
      simpa [step] using taken
    exact .moved _ _ _ (by simp) (by cases s.shouldRun <;> simp [RunnerPc.afterReset])
      (by simp [pc,RunnerPc.betweenPasses])
  | checkTime now =>
    obtain ⟨pc,taken⟩ := Option.ite_none_right_eq_some.mp taken
    obtain rfl := Option.some.inj taken
    refine .moved _ _ _ (by simp) ?_ (by simp [pc,RunnerPc.betweenPasses])
    split <;> simp [RunnerPc.afterReset]
  | interrupt =>
    obtain rfl : { s with pc := .leaving } = t := by
      cases pc : s.pc <;> simp [step,pc] at taken <;> exact taken
    exact .moved _ _ _ (by simp) (by simp [RunnerPc.afterReset]) (by simp [RunnerPc.betweenPasses])
  | exit =>
    obtain ⟨_,rfl⟩ : (s.pc = .leaving ∧ s.observer = .waiting) ∧ { s with pc := .stopped } = t := by
      simpa [step] using taken
    exact .moved _ _ _ (by simp) (by simp [RunnerPc.afterReset]) (by simp [RunnerPc.betweenPasses])
  | onModified event =>
    simp only [step,Option.ite_none_right_eq_some] at taken
    obtain ⟨⟨_,waiting⟩,taken⟩ := taken
    split at taken
    · obtain rfl := Option.some.inj taken
      exact .reported event waiting
    · obtain rfl := Option.some.inj taken
      exact .moved _ s.pc s.lastCheckTime (by simp) id id
  | setShouldRun =>
    cases observer : s.observer with
    | called path =>
      obtain rfl : { s with
          shouldRun := true, observer := .waiting, assigned := s.assigned || s.pc.afterReset } = t := by
        simpa [step,observer] using taken
      exact .assigned path observer
    | waiting => simp [step,observer] at taken

theorem check_collects {config : Config} {s t : Runner} (flag : s.shouldRun = true)
    (taken : step config s .check = some t) : t.pc = .collecting := by
  obtain ⟨_,rfl⟩ : s.pc = .checking ∧ { s with pc := .collecting } = t := by
    simpa [step,flag] using taken
  rfl

theorem noneLost_iff {config : Config} {s : Runner} :
    NoneLost config s ↔ (s.called = true → s.pc.betweenPasses = true → s.shouldRun = true) :=
  ⟨fun kept called between => (kept called between).1,
    fun kept called between =>
      ⟨kept called between,fun _ taken => check_collects (kept called between) taken⟩⟩

/-- After its reset the flag tells whether it was set since. -/
def Tracks (s : Runner) : Prop := s.pc.afterReset = true → s.shouldRun = s.assigned

theorem reachable_tracks {config : Config} {s : Runner} (reached : Reachable (step config) start s) :
    Tracks s := by
  refine reached.invariant (by simp [Tracks,start,RunnerPc.afterReset]) fun s a t _ tracks _ taken => ?_
  cases step_stepped taken with
  | moved a pc time other after between => exact fun inside => tracks (after inside)
  | collected files pc => simp [Tracks,RunnerPc.afterReset]
  | reset canContinue pc => simp [Tracks]
  | returned canContinue pc => simp [Tracks,RunnerPc.afterReset]
  | reported event waiting => exact tracks
  | assigned path called => simp +contextual [Tracks]

theorem step_noneLost {config : Config} {s t : Runner} {a : Action} (tracks : Tracks s)
    (kept : NoneLost config s) (taken : step config s a = some t) :
    NoneLost config t ↔ SetsAgain s a := by
  rw [noneLost_iff] at kept ⊢
  cases step_stepped taken with
  | moved a pc time other after between =>
    exact iff_of_true (fun called inside => kept called (between inside)) fun same => absurd same other
  | collected files pc => exact iff_of_true (by simp) (by simp [SetsAgain])
  | reset canContinue pc =>
    exact iff_of_true (by simp [RunnerPc.betweenPasses]) (by simp [SetsAgain])
  | returned canContinue pc =>
    have same := tracks (by simp [pc,RunnerPc.afterReset])
    simp [SetsAgain,RunnerPc.betweenPasses,same]
  | reported event waiting =>
    refine iff_of_true (fun called between => ?_) (by simp [SetsAgain])
    cases pc : s.pc <;> simp_all [RunnerPc.betweenPasses,RunnerPc.insidePass]
  | assigned path called => exact iff_of_true (by simp) (by simp [SetsAgain])

/-- A change of which the observer tells while the files are processed is forgotten by the reset. -/
theorem change_during_pass_lost : ¬ ∀ (config : Config) (s : Runner),
    Reachable (step config) start s → NoneLost config s := by
  intro claim
  let config : Config := ⟨[".mp4"],10,fun _ => ".mp4"⟩
  obtain ⟨s,ran,called,between,flag⟩ : ∃ s, run (step config) start [.enter,.collect ["a.mp4"],
      .onModified ⟨"b.mp4",true⟩,.setShouldRun,.execute false,.reset,.stamp 1,.ret] = some s ∧
      s.called = true ∧ s.pc.betweenPasses = true ∧ s.shouldRun = false := ⟨_,rfl,rfl,rfl,rfl⟩
  have set := (claim config s (reachable_of_run ran) called between).1
  cases flag.symm.trans set

/-- No change is lost in a run exactly if, in every pass during which one is reported, the flag is
set between its reset and the return of the pass. -/
theorem none_lost_iff_setsAgain (config : Config) {actions : List Action} {final : Runner}
    (ran : run (step config) start actions = some final) :
    Throughout (step config) (NoneLost config) start actions ↔
      StepsMeet (step config) SetsAgain start actions :=
  throughout_iff_stepsMeet (by simp [NoneLost,start])
    (fun _ _ _ reached kept taken => step_noneLost (reachable_tracks reached.reachable) kept taken) ran

/-- A change that is reported while the files are processed, with the flag set after the reset. -/
theorem none_lost_iff_setsAgain_witness :
    let config : Config := ⟨[".mp4"],10,fun _ => ".mp4"⟩
    let actions : List Action := [.enter,.collect ["a.mp4"],.onModified ⟨"b.mp4",true⟩,.execute false,
      .reset,.setShouldRun,.stamp 1,.ret,.loop,.wake,.check]
    ∃ final, run (step config) start actions = some final ∧ final.pc = .collecting ∧
      (Throughout (step config) (NoneLost config) start actions ↔
        StepsMeet (step config) SetsAgain start actions) := by
  intro config actions
  obtain ⟨final,ran,pc⟩ : ∃ final, run (step config) start actions = some final ∧
      final.pc = .collecting := ⟨_,rfl,rfl⟩
  exact ⟨final,ran,pc,none_lost_iff_setsAgain config ran⟩

end Runner

end OcrSuite.Watcher
