import Mathlib.Data.Fintype.Pi
import OcrSuite.PipelineShutdown
import OcrSuite.Runs

/-! The whole of `main` around the threads: the handlers of the exceptions and of the signal, the
joining of all threads, the text that is shown at the end and the code that is returned. -/
namespace OcrSuite

/-- `catching` until the handler of the exception has set the final text. -/
inductive CatchPc where
  | trying
  | catching
  | caught
  deriving DecidableEq

/-- The signal handler runs at most once, and not any more after the context was stopped. -/
inductive HandlerPc where
  | waiting
  | stoppingProducer
  | stoppingConsumers
  | returned
  | stopped
  deriving DecidableEq

inductive ExitCode where
  | success
  | failure
  deriving DecidableEq

inductive MainPc where
  | starting
  | joiningConsumers
  | joiningSignals
  | exited (code : ExitCode)
  deriving DecidableEq

inductive FinalText where
  | done
  | interrupted
  | error
  deriving DecidableEq

def FinalText.text : FinalText → String
  | .done => "Done!"
  | .interrupted => "Interrupted!"
  | .error => "Error!"

/-- `producer` and `consumer` are where the threads are in their `try` blocks. -/
structure Main (κ : Type) where
  threads : Pipeline κ Unit
  producer : CatchPc
  consumer : κ → CatchPc
  handler : HandlerPc
  pc : MainPc
  done : Bool
  stopping : Bool
  finalText : FinalText

namespace Main

open Transition Pipeline

variable {κ : Type}

inductive Action (κ : Type) where
  | threads (a : Pipeline.Action κ Unit)
  | startReturned
  | consumerCaught (i : κ)
  | signal
  | joinConsumers
  | exit

def start (maxObjects frames : Nat) : Main κ :=
  ⟨.start maxObjects frames,.trying,fun _ => .trying,.waiting,.starting,false,false,.done⟩

def producerReturned : ProducerPc → Bool
  | .exited _ => true
  | _ => false

def consumerReturned : ConsumerPc → Bool
  | .exited _ => true
  | _ => false

/-- The consumer's thread has ended. -/
def consumerEnded (s : Main κ) (i : κ) : Bool :=
  consumerReturned (s.threads.consumer i) && s.consumer i ≠ .catching

variable [DecidableEq κ]

def setConsumer (s : Main κ) (i : κ) (pc : CatchPc) : κ → CatchPc := Function.update s.consumer i pc

/-- What a step of the threads means for their handlers. -/
def threadStep (s : Main κ) (a : Pipeline.Action κ Unit) : Option (Main κ) := do
  let threads ← Pipeline.step s.threads a
  match a with
  | .producerThrow => some { s with threads := threads, producer := .catching }
  | .consumerThrow i => some { s with threads := threads, consumer := s.setConsumer i .catching }
  | .signalShutdown _ =>
    match s.handler with
    | .stoppingProducer => some { s with threads := threads, handler := .stoppingConsumers }
    | .stoppingConsumers => some { s with threads := threads, handler := .returned }
    | _ => none
  | _ => some { s with threads := threads }

def step [Fintype κ] (s : Main κ) : Action κ → Option (Main κ)
  | .threads a => s.threadStep a
  | .startReturned =>
    if s.pc = .starting ∧ producerReturned s.threads.producer then
      match s.producer with
      | .catching =>
        some { s with pc := .joiningConsumers, producer := .caught, finalText := .error }
      | _ => some { s with pc := .joiningConsumers, done := true }
    else none
  | .consumerCaught i =>
    if s.consumer i = .catching ∧ consumerReturned (s.threads.consumer i) then
      some { s with consumer := s.setConsumer i .caught, finalText := .error }
    else none
  | .signal =>
    if s.handler = .waiting then
      some { s with handler := .stoppingProducer, finalText := .interrupted, stopping := true }
    else none
  | .joinConsumers =>
    if s.pc = .joiningConsumers ∧ ∀ i, s.consumerEnded i then
      some { s with
        pc := .joiningSignals
        handler := if s.handler = .waiting then .stopped else s.handler }
    else none
  | .exit =>
    if s.pc = .joiningSignals ∧ (s.handler = .returned ∨ s.handler = .stopped) then
      some { s with pc := .exited (if s.done && !s.stopping then .success else .failure) }
    else none

/-- The effects of a step, one constructor for each branch. -/
inductive Stepped (s : Main κ) : Action κ → Main κ → Prop where
  | threads (a : Pipeline.Action κ Unit) (threads : Pipeline κ Unit) :
      Pipeline.step s.threads a = some threads → a.isThrow = false → (∀ j, a ≠ .signalShutdown j) →
      Stepped s (.threads a) { s with threads := threads }
  | producerThrew (threads : Pipeline κ Unit) :
      Pipeline.step s.threads .producerThrow = some threads →
      Stepped s (.threads .producerThrow) { s with threads := threads, producer := .catching }
  | consumerThrew (i : κ) (threads : Pipeline κ Unit) :
      Pipeline.step s.threads (.consumerThrow i) = some threads →
      Stepped s (.threads (.consumerThrow i))
        { s with threads := threads, consumer := s.setConsumer i .catching }
  | stoppedProducer (threads : Pipeline κ Unit) :
      Pipeline.step s.threads (.signalShutdown ()) = some threads → s.handler = .stoppingProducer →
      Stepped s (.threads (.signalShutdown ()))
        { s with threads := threads, handler := .stoppingConsumers }
  | stoppedConsumers (threads : Pipeline κ Unit) :
      Pipeline.step s.threads (.signalShutdown ()) = some threads → s.handler = .stoppingConsumers →
      Stepped s (.threads (.signalShutdown ())) { s with threads := threads, handler := .returned }
  | failed : s.pc = .starting → producerReturned s.threads.producer = true → s.producer = .catching →
      Stepped s .startReturned
        { s with pc := .joiningConsumers, producer := .caught, finalText := .error }
  | finished : s.pc = .starting → producerReturned s.threads.producer = true → s.producer ≠ .catching →
      Stepped s .startReturned { s with pc := .joiningConsumers, done := true }
  | caught (i : κ) : s.consumer i = .catching → consumerReturned (s.threads.consumer i) = true →
      Stepped s (.consumerCaught i) { s with consumer := s.setConsumer i .caught, finalText := .error }
  | signalled : s.handler = .waiting → Stepped s .signal
      { s with handler := .stoppingProducer, finalText := .interrupted, stopping := true }
  | joined : s.pc = .joiningConsumers → (∀ i, s.consumerEnded i = true) →
      Stepped s .joinConsumers { s with
        pc := .joiningSignals
        handler := if s.handler = .waiting then .stopped else s.handler }
  | exited : s.pc = .joiningSignals → (s.handler = .returned ∨ s.handler = .stopped) →
      Stepped s .exit { s with
        pc := .exited (if s.done && !s.stopping then .success else .failure) }

theorem step_stepped [Fintype κ] {s t : Main κ} {a : Action κ} (taken : step s a = some t) :
    Stepped s a t := by
  cases a with
  | threads a =>
    obtain ⟨threads,moved,later⟩ := Option.bind_eq_some_iff.mp taken
    cases a with
    | producerThrow =>
      cases later
      exact .producerThrew threads moved
    | consumerThrow i =>
      cases later
      exact .consumerThrew i threads moved
    | signalShutdown j =>
      simp only at later
      split at later <;> cases later
      · exact .stoppedProducer threads moved ‹_›
      · exact .stoppedConsumers threads moved ‹_›
    | _ =>
      cases later
      exact .threads _ threads moved rfl (by simp)
  | startReturned =>
    simp only [step] at taken
    split at taken
    case isTrue ready =>
      split at taken <;> cases taken
      · exact .failed ready.1 ready.2 ‹_›
      · exact .finished ready.1 ready.2 ‹_›
    case isFalse => contradiction
  | consumerCaught i =>
    obtain ⟨ready,same⟩ := Option.ite_none_right_eq_some.mp taken
    cases same
    exact .caught i ready.1 ready.2
  | signal =>
    obtain ⟨ready,same⟩ := Option.ite_none_right_eq_some.mp taken
    cases same
    exact .signalled ready
  | joinConsumers =>
    obtain ⟨ready,same⟩ := Option.ite_none_right_eq_some.mp taken
    cases same
    exact .joined ready.1 ready.2
  | exit =>
    obtain ⟨ready,same⟩ := Option.ite_none_right_eq_some.mp taken
    cases same
    exact .exited ready.1 ready.2

/-! ## Threads that have returned stay so -/

theorem step_producerReturned {s t : Pipeline κ Unit} {a : Pipeline.Action κ Unit}
    (taken : Pipeline.step s a = some t) (returned : producerReturned s.producer = true) :
    t.producer = s.producer ∧ a ≠ .producerThrow := by
  cases Pipeline.step_stepped taken <;> simp_all [producerReturned]

theorem step_consumerReturned {s t : Pipeline κ Unit} {a : Pipeline.Action κ Unit} {i : κ}
    (taken : Pipeline.step s a = some t) (returned : consumerReturned (s.consumer i) = true) :
    t.consumer i = s.consumer i ∧ a ≠ .consumerThrow i := by
  have other {k : κ} {pc : ConsumerPc} (running : consumerReturned (s.consumer k) = false) :
      s.setConsumer k pc i = s.consumer i := by
    have apart : i ≠ k := by
      rintro rfl
      simp [returned] at running
    simp [Pipeline.setConsumer,apart]
  have apart {k : κ} (running : consumerReturned (s.consumer k) = false) : k ≠ i := by
    rintro rfl
    simp [returned] at running
  cases Pipeline.step_stepped taken with
  | finished k pc | delivered k _ _ pc | returned k _ pc | consumerStopped k _ pc | consumerExited k _ pc =>
    exact ⟨other (by simp [pc,consumerReturned]),by simp⟩
  | consumerThrew k pc | consumerLost k _ pc =>
    have running : consumerReturned (s.consumer k) = false := by simp [pc,consumerReturned]
    exact ⟨other running,by simpa using apart running⟩
  | _ => exact ⟨rfl,by simp⟩

/-- Only the signal thread moves the signal thread. -/
theorem step_signal {s t : Pipeline κ Unit} {a : Pipeline.Action κ Unit}
    (taken : Pipeline.step s a = some t) (other : ∀ j, a ≠ .signalShutdown j) :
    t.signal = s.signal := by
  cases Pipeline.step_stepped taken with
  | signalStopped j | signalFinished j => exact absurd rfl (other j)
  | _ => rfl

structure Invariant (s : Main κ) : Prop where
  text : s.finalText = .done ↔
    s.stopping = false ∧ s.producer ≠ .caught ∧ ∀ i, s.consumer i ≠ .caught
  stopping : s.stopping = true ↔ s.handler ≠ .waiting ∧ s.handler ≠ .stopped
  shutting : s.threads.signal () = .closingConsumers ↔ s.handler = .stoppingConsumers
  starting : s.pc = .starting → s.done = false ∧ s.producer ≠ .caught
  returned : s.pc ≠ .starting → producerReturned s.threads.producer = true ∧
    (s.done = true ∧ s.producer = .trying ∨ s.done = false ∧ s.producer = .caught)
  caught : ∀ i, s.consumer i = .caught → consumerReturned (s.threads.consumer i) = true
  joined : s.pc ≠ .starting → s.pc ≠ .joiningConsumers →
    (∀ i, s.consumerEnded i = true) ∧ s.handler ≠ .waiting
  ended : ∀ code, s.pc = .exited code → (s.handler = .returned ∨ s.handler = .stopped) ∧
    code = if s.done && !s.stopping then .success else .failure

omit [DecidableEq κ] in
theorem start_invariant (maxObjects frames : Nat) :
    Invariant (start maxObjects frames : Main κ) := by
  constructor <;> simp [start,Pipeline.start]

omit [DecidableEq κ] in
theorem consumerEnded_iff {s : Main κ} {i : κ} : s.consumerEnded i = true ↔
    consumerReturned (s.threads.consumer i) = true ∧ s.consumer i ≠ .catching := by
  simp [consumerEnded]

/-- A step of the threads leaves what is said of those that have returned. -/
theorem Invariant.moved {s : Main κ} (valid : Invariant s) {a : Pipeline.Action κ Unit}
    {threads : Pipeline κ Unit} (taken : Pipeline.step s.threads a = some threads)
    (other : ∀ j, a ≠ .signalShutdown j) : Invariant { s with threads := threads } where
  text := valid.text
  stopping := valid.stopping
  shutting := by
    rw [step_signal taken other]
    exact valid.shutting
  starting := valid.starting
  returned pc := by
    obtain ⟨returned,outcome⟩ := valid.returned pc
    exact ⟨(step_producerReturned taken returned).1 ▸ returned,outcome⟩
  caught i at_ := by
    have returned := valid.caught i at_
    exact (step_consumerReturned taken returned).1 ▸ returned
  joined pc later := by
    obtain ⟨ended,handler⟩ := valid.joined pc later
    refine ⟨fun i => ?_,handler⟩
    obtain ⟨returned,caught⟩ := consumerEnded_iff.mp (ended i)
    exact consumerEnded_iff.mpr ⟨(step_consumerReturned taken returned).1 ▸ returned,caught⟩
  ended := valid.ended

/-- What the signal thread does at its two halves. -/
theorem signalShutdown_cases {s t : Pipeline κ Unit}
    (taken : Pipeline.step s (.signalShutdown ()) = some t) :
    (s.signal () = .closingConsumers ↔ t.signal () ≠ .closingConsumers) ∧
    t.producer = s.producer ∧ t.consumer = s.consumer := by
  cases Pipeline.step_stepped taken with
  | signalStopped j pc => simp [pc,Pipeline.setSignal]
  | signalFinished j pc => simp [pc,Pipeline.setSignal]

theorem setConsumer_ne_iff {s : Main κ} {i : κ} {pc no : CatchPc} :
    (∀ k, s.setConsumer i pc k ≠ no) ↔ pc ≠ no ∧ ∀ k, k ≠ i → s.consumer k ≠ no := by
  constructor
  · intro all
    refine ⟨by simpa [setConsumer] using all i,fun k other => ?_⟩
    simpa [setConsumer,other] using all k
  · rintro ⟨here,others⟩ k
    by_cases same : k = i
    · subst k
      simpa [setConsumer] using here
    · simpa [setConsumer,same] using others k same

omit [DecidableEq κ] in
/-- Steps of the main thread and of the handlers that leave the threads. -/
theorem Invariant.joined_not {s : Main κ} (valid : Invariant s) {i : κ}
    (running : s.consumerEnded i ≠ true) : s.pc = .starting ∨ s.pc = .joiningConsumers := by
  by_contra later
  obtain ⟨notStarting,notJoining⟩ := not_or.mp later
  exact running ((valid.joined notStarting notJoining).1 i)

theorem step_invariant [Fintype κ] {s t : Main κ} {a : Action κ} (valid : Invariant s)
    (taken : step s a = some t) : Invariant t := by
  cases step_stepped taken with
  | threads a threads moved _ other => exact valid.moved moved other
  | producerThrew threads moved =>
    have starting : s.pc = .starting := by
      by_contra later
      exact (step_producerReturned moved (valid.returned later).1).2 rfl
    have before := valid.starting starting
    obtain ⟨text,stopping,shutting,_,_,caught,_,_⟩ := valid.moved moved (by simp)
    refine ⟨?_,stopping,shutting,?_,?_,caught,?_,?_⟩
    · simpa [before.2] using text
    · simpa using fun _ => before.1
    · exact fun later => absurd starting later
    · exact fun later => absurd starting later
    · simp [starting]
  | consumerThrew i threads moved =>
    have running : ¬consumerReturned (s.threads.consumer i) = true := fun returned =>
      (step_consumerReturned moved returned).2 rfl
    have early := valid.joined_not (i := i) fun ended => running (consumerEnded_iff.mp ended).1
    obtain ⟨text,stopping,shutting,start,returned,caught,_,_⟩ := valid.moved moved (by simp)
    refine ⟨?_,stopping,shutting,start,returned,?_,?_,?_⟩
    · rw [setConsumer_ne_iff]
      have fresh : s.consumer i ≠ .caught := fun at_ => running (valid.caught i at_)
      rw [text]
      simp only [ne_eq,reduceCtorEq,not_false_eq_true,true_and]
      refine and_congr_right fun _ => and_congr_right fun _ => ⟨fun all k _ => all k,fun all k => ?_⟩
      by_cases same : k = i
      · exact same ▸ fresh
      · exact all k same
    · intro k at_
      by_cases same : k = i
      · subst k
        simp [setConsumer] at at_
      · exact caught k (by simpa [setConsumer,same] using at_)
    · rcases early with at_ | at_ <;> simp [at_]
    · rcases early with at_ | at_ <;> simp [at_]
  | stoppedProducer threads moved at_ =>
    obtain ⟨flips,producer,consumer⟩ := signalShutdown_cases moved
    obtain ⟨text,stopping,shutting,start,returned,caught,joined,ended⟩ := valid
    have idle : s.threads.signal () ≠ .closingConsumers := fun busy => by
      simp [shutting.mp busy] at at_
    have busy : threads.signal () = .closingConsumers := not_not.mp (mt flips.mpr idle)
    refine ⟨text,by simpa [at_] using stopping,by simp [busy],start,by simpa [producer] using returned,
      by simpa [consumer] using caught,?_,?_⟩
    · simpa [at_,consumerEnded,consumer] using joined
    · simpa [at_] using ended
  | stoppedConsumers threads moved at_ =>
    obtain ⟨flips,producer,consumer⟩ := signalShutdown_cases moved
    obtain ⟨text,stopping,shutting,start,returned,caught,joined,ended⟩ := valid
    have idle : threads.signal () ≠ .closingConsumers := flips.mp (shutting.mpr at_)
    refine ⟨text,by simpa [at_] using stopping,by simp [idle],start,by simpa [producer] using returned,
      by simpa [consumer] using caught,?_,?_⟩
    · simpa [at_,consumerEnded,consumer] using joined
    · intro code exited
      simpa [at_] using ended code exited
  | failed at_ returned catching =>
    obtain ⟨text,stopping,shutting,start,_,caught,joined,ended⟩ := valid
    refine ⟨by simp,stopping,shutting,by simp,fun _ => ⟨returned,.inr ⟨(start at_).1,rfl⟩⟩,caught,?_,?_⟩
    · simp
    · simp
  | finished at_ returned trying =>
    obtain ⟨text,stopping,shutting,start,_,caught,joined,ended⟩ := valid
    have untouched : s.producer = .trying := by
      cases pc : s.producer with
      | trying => rfl
      | catching => exact absurd pc trying
      | caught => exact absurd pc (start at_).2
    exact ⟨text,stopping,shutting,by simp,fun _ => ⟨returned,.inl ⟨rfl,untouched⟩⟩,caught,by simp,by simp⟩
  | caught i catching returned =>
    have early := valid.joined_not (i := i) fun ended => (consumerEnded_iff.mp ended).2 catching
    obtain ⟨text,stopping,shutting,start,back,caught,_,_⟩ := valid
    refine ⟨?_,stopping,shutting,start,back,?_,?_,?_⟩
    · simp [setConsumer_ne_iff]
    · intro k at_
      by_cases same : k = i
      · exact same ▸ returned
      · exact caught k (by simpa [setConsumer,same] using at_)
    · rcases early with at_ | at_ <;> simp [at_]
    · rcases early with at_ | at_ <;> simp [at_]
  | signalled waiting =>
    obtain ⟨text,stopping,shutting,start,returned,caught,joined,ended⟩ := valid
    have idle : s.threads.signal () ≠ .closingConsumers := by simp [shutting,waiting]
    refine ⟨by simp,by simp,by simp [idle],start,returned,caught,?_,?_⟩
    · intro notStarting notJoining
      exact absurd waiting (joined notStarting notJoining).2
    · intro code exited
      simp [waiting] at ended
      exact absurd exited (ended code)
  | joined at_ ended =>
    obtain ⟨text,stopping,shutting,start,returned,caught,_,_⟩ := valid
    refine ⟨text,?_,?_,by simp,fun _ => returned (by simp [at_]),caught,?_,by simp⟩
    · by_cases waiting : s.handler = .waiting <;> simp [waiting,stopping]
    · by_cases waiting : s.handler = .waiting <;> simp [waiting,shutting]
    · intro _ _
      refine ⟨ended,?_⟩
      by_cases waiting : s.handler = .waiting <;> simp [waiting]
  | exited at_ handled =>
    obtain ⟨text,stopping,shutting,start,returned,caught,joined,_⟩ := valid
    refine ⟨text,stopping,shutting,by simp,fun _ => returned (by simp [at_]),caught,
      fun _ _ => joined (by simp [at_]) (by simp [at_]),?_⟩
    intro code same
    exact ⟨handled,(MainPc.exited.inj same).symm⟩

theorem reachable_invariant [Fintype κ] {maxObjects frames : Nat} {s : Main κ}
    (reached : Reachable step (start maxObjects frames) s) : Invariant s :=
  reached.invariant (start_invariant maxObjects frames)
    fun _ _ _ _ valid _ taken => step_invariant valid taken

/-! ## What happened in a run -/

theorem step_producer [Fintype κ] {s t : Main κ} {a : Action κ} (taken : step s a = some t) :
    t.producer ≠ .trying ↔ s.producer ≠ .trying ∨ a = .threads .producerThrow := by
  cases step_stepped taken with
  | threads b threads moved quiet =>
    have other : b ≠ .producerThrow := by
      rintro rfl
      simp [Pipeline.Action.isThrow] at quiet
    simp [other]
  | failed at_ returned catching => simp [catching]
  | _ => simp

theorem step_stopping [Fintype κ] {s t : Main κ} {a : Action κ} (taken : step s a = some t) :
    t.stopping = true ↔ s.stopping = true ∨ a = .signal := by
  cases step_stepped taken <;> simp

theorem step_consumer [Fintype κ] (i : κ) {s t : Main κ} {a : Action κ} (taken : step s a = some t) :
    t.consumer i ≠ .trying ↔ s.consumer i ≠ .trying ∨ a = .threads (.consumerThrow i) := by
  cases step_stepped taken with
  | threads b threads moved quiet =>
    have other : b ≠ .consumerThrow i := by
      rintro rfl
      simp [Pipeline.Action.isThrow] at quiet
    simp [other]
  | consumerThrew k threads moved =>
    by_cases same : i = k
    · subst k
      simp [setConsumer]
    · simp [setConsumer,same,Ne.symm same]
  | caught k catching =>
    by_cases same : i = k
    · subst k
      simp [setConsumer,catching]
    · simp [setConsumer,same]
  | _ => simp

section History

variable [Fintype κ] {maxObjects frames : Nat} {s : Main κ} {actions : List (Action κ)}
  (ran : run step (start maxObjects frames) actions = some s)
include ran

theorem run_producer : s.producer ≠ .trying ↔ .threads .producerThrow ∈ actions := by
  have history := run_brought (P := fun s : Main κ => s.producer ≠ .trying)
    (fun _ _ _ taken => step_producer taken) ran
  simpa [start] using history

theorem run_stopping : s.stopping = true ↔ .signal ∈ actions := by
  have history := run_brought (P := fun s : Main κ => s.stopping = true)
    (fun _ _ _ taken => step_stopping taken) ran
  simpa [start] using history

theorem run_consumer (i : κ) : s.consumer i ≠ .trying ↔ .threads (.consumerThrow i) ∈ actions := by
  have history := run_brought (P := fun s : Main κ => s.consumer i ≠ .trying)
    (fun _ _ _ taken => step_consumer i taken) ran
  simpa [start] using history

end History

/-! ## Runs without exceptions and signals -/

/-- Nothing has gone wrong with the threads: the producer closed the queue, if anybody did. -/
structure Orderly (s : Pipeline κ Unit) : Prop where
  producer : s.queue.stopProducer = true → producerStopped s.producer = true
  nothing : ∀ held, s.producer = .closing held ∨ s.producer = .closingConsumers held ∨
    s.producer = .exited held → held = []
  consumer : ∀ i, s.consumer i = .waiting ∨ (∃ value, s.consumer i = .processing value) ∨
    s.consumer i = .exited [] ∧ s.queue.stopConsumer = true

omit [DecidableEq κ] in
theorem start_orderly (maxObjects frames : Nat) :
    Orderly (Pipeline.start maxObjects frames : Pipeline κ Unit) := by
  constructor <;> simp [Pipeline.start,ValueQueue.new]

omit [DecidableEq κ] in
theorem Orderly.drained {s : Pipeline κ Unit} {a : Pipeline.Action κ Unit} (orderly : Orderly s)
    (other : ∀ j, a ≠ .signalShutdown j) : Drained s a := by
  rintro ⟨_,closes⟩ value filling
  cases a with
  | producerShutdown =>
    obtain ⟨held,closing⟩ := closes
    simp [filling] at closing
  | consumerShutdown i =>
    obtain ⟨held,closing⟩ := closes
    rcases orderly.consumer i with at_ | ⟨_,at_⟩ | ⟨at_,_⟩ <;> simp [at_] at closing
  | signalShutdown j => exact other j rfl
  | addProducerValue i => simpa [filling,producerStopped] using orderly.producer closes
  | _ => exact closes

theorem step_orderly {s t : Pipeline κ Unit} {a : Pipeline.Action κ Unit} (orderly : Orderly s)
    (taken : Pipeline.step s a = some t) (quiet : a.isThrow = false)
    (other : ∀ j, a ≠ .signalShutdown j) : Orderly t := by
  obtain ⟨producer,nothing,consumer⟩ := orderly
  have goto {i : κ} {pc : ConsumerPc} {stopped : Bool}
      (still : s.queue.stopConsumer = true → stopped = true)
      (here : pc = .waiting ∨ (∃ value, pc = .processing value) ∨ pc = .exited [] ∧ stopped = true) :
      ∀ k, s.setConsumer i pc k = .waiting ∨ (∃ value, s.setConsumer i pc k = .processing value) ∨
        s.setConsumer i pc k = .exited [] ∧ stopped = true :=
    forall_setConsumer (P := fun pc => pc = .waiting ∨ (∃ value, pc = .processing value) ∨
      pc = .exited [] ∧ stopped = true)
      (fun k => (consumer k).imp_right (Or.imp_right (And.imp_right still))) here
  cases Pipeline.step_stepped taken with
  | closed n pc count stopped => exact absurd (producer stopped) (by simp [pc,producerStopped])
  | filled n value rest pc count running values => exact ⟨by simp [running],by simp,consumer⟩
  | added value pc =>
    refine ⟨fun stopped => ?_,by simp,consumer⟩
    exact absurd (producer stopped) (by simp [pc,producerStopped])
  | ended pc =>
    refine ⟨fun stopped => ?_,by simp,consumer⟩
    exact absurd (producer stopped) (by simp [pc,producerStopped])
  | producerThrew pc | producerLost value pc => simp [Pipeline.Action.isThrow] at quiet
  | producerStopped held pc =>
    exact ⟨fun _ => rfl,by simpa using nothing held (.inl pc),consumer⟩
  | producerExited held pc =>
    refine ⟨fun _ => rfl,by simpa using nothing held (.inr (.inl pc)),fun k => ?_⟩
    refine (consumer k).imp_right (Or.imp_right (And.imp_right fun closed => ?_))
    simp [closed]
  | finished i pc closed => exact ⟨producer,nothing,goto id (.inr (.inr ⟨rfl,closed⟩))⟩
  | delivered i value rest pc running values =>
    exact ⟨producer,nothing,goto id (.inr (.inl ⟨value,rfl⟩))⟩
  | returned i value pc =>
    refine ⟨by simpa using producer,nothing,goto (fun closed => ?_) (.inl rfl)⟩
    simp [closed]
  | consumerThrew i pc | consumerLost i value pc => simp [Pipeline.Action.isThrow] at quiet
  | consumerStopped i held pc | consumerExited i held pc =>
    rcases consumer i with at_ | ⟨_,at_⟩ | ⟨at_,_⟩ <;> simp [at_] at pc
  | signalStopped j pc | signalFinished j pc => exact absurd rfl (other j)

/-- No exception was thrown and no signal was handled. -/
def Undisturbed (s : Main κ) : Prop :=
  s.stopping = false ∧ s.producer = .trying ∧ ∀ i, s.consumer i = .trying

theorem step_undisturbed [Fintype κ] {s t : Main κ} {a : Action κ} (taken : step s a = some t)
    (calm : Undisturbed t) : Undisturbed s ∧ a ≠ .signal ∧ a ≠ .threads .producerThrow ∧
      ∀ i, a ≠ .threads (.consumerThrow i) := by
  obtain ⟨stopping,producer,consumer⟩ := calm
  have stopped := not_or.mp (mt (step_stopping taken).mpr (by simp [stopping]))
  have threw := not_or.mp (mt (step_producer taken).mpr (by simp [producer]))
  have consumers i := not_or.mp (mt (step_consumer i taken).mpr (by simp [consumer i]))
  exact ⟨⟨by simpa using stopped.1,by simpa using threw.1,fun i => by simpa using (consumers i).1⟩,
    stopped.2,threw.2,fun i => (consumers i).2⟩

theorem undisturbed_orderly [Fintype κ] {maxObjects frames : Nat} {s : Main κ}
    (reached : Reachable step (start maxObjects frames) s) (calm : Undisturbed s) :
    ReachableUnder Pipeline.step Drained (.start maxObjects frames) s.threads ∧ Orderly s.threads := by
  induction reached with
  | start => exact ⟨.start,start_orderly maxObjects frames⟩
  | @next s a t earlier _ taken ih =>
    obtain ⟨before,_,noProducer,noConsumer⟩ := step_undisturbed taken calm
    obtain ⟨drained,orderly⟩ := ih before
    have valid := reachable_invariant earlier
    have handler : s.handler = .waiting ∨ s.handler = .stopped := by
      have := mt valid.stopping.mpr (by simp [before.1])
      tauto
    cases step_stepped taken with
    | threads b threads moved quiet other =>
      exact ⟨drained.next (orderly.drained other) moved,step_orderly orderly moved quiet other⟩
    | producerThrew => exact absurd rfl noProducer
    | consumerThrew i => exact absurd rfl (noConsumer i)
    | stoppedProducer _ _ at_ | stoppedConsumers _ _ at_ => simp [at_] at handler
    | _ => exact ⟨drained,orderly⟩

theorem reachable_threads [Fintype κ] {maxObjects frames : Nat} {s : Main κ}
    (reached : Reachable step (start maxObjects frames) s) :
    Reachable Pipeline.step (.start maxObjects frames) s.threads := by
  refine reached.simulate threads fun s a t taken => ?_
  cases step_stepped taken with
  | threads _ _ moved | producerThrew _ moved | consumerThrew _ _ moved | stoppedProducer _ moved
    | stoppedConsumers _ moved => exact ReachableUnder.extend .start moved
  | _ => exact .start

/-- Every frame that the producer added was handed to a consumer, which has returned its buffer. -/
structure Complete (maxObjects : Nat) (s : Pipeline κ Unit) : Prop where
  delivered : s.added = s.delivered.map Prod.snd
  nothingLeft : s.queue.consumerValues = []
  returned : s.queue.producerValues.Perm (List.range maxObjects)

/-- All threads have ended. -/
structure Ended (s : Main κ) : Prop where
  producer : producerReturned s.threads.producer = true
  consumer : ∀ i, consumerReturned (s.threads.consumer i) = true ∧ s.consumer i ≠ .catching
  handler : s.handler = .returned ∨ s.handler = .stopped

omit [DecidableEq κ] in
theorem Invariant.allEnded {s : Main κ} (valid : Invariant s) {code : ExitCode}
    (exited : s.pc = .exited code) : Ended s where
  producer := (valid.returned (by simp [exited])).1
  consumer i := consumerEnded_iff.mp ((valid.joined (by simp [exited]) (by simp [exited])).1 i)
  handler := (valid.ended code exited).1

theorem complete_of_undisturbed {K frames : Nat} {s : Main (Fin K)}
    (reached : Reachable step (start (2 * K) frames) s) (calm : Undisturbed s) (ended : Ended s) :
    Complete (2 * K) s.threads := by
  obtain ⟨drained,orderly⟩ := undisturbed_orderly reached calm
  have exclusive := Clients.reachable_exclusive (reachable_clients (reachable_threads reached))
  have left i : s.threads.consumer i = .exited [] ∧ s.threads.queue.stopConsumer = true := by
    rcases orderly.consumer i with at_ | ⟨value,at_⟩ | out
    · simpa [at_,consumerReturned] using (ended.consumer i).1
    · simpa [at_,consumerReturned] using (ended.consumer i).1
    · exact out
  have nothingLeft : s.threads.queue.consumerValues = [] := by
    rcases Nat.eq_zero_or_pos K with rfl | positive
    · apply List.eq_nil_iff_forall_not_mem.mpr
      intro b inside
      have := (exclusive.covers b).mpr ⟨.consumerValues,inside⟩
      simp at this
    · exact (drained_closedEmpty drained).empty (left ⟨0,positive⟩).2
  refine ⟨?_,nothingLeft,?_⟩
  · have once := (drained_noFrameLost drained).once
    rwa [nothingLeft,List.append_nil] at once
  · apply exclusive.perm_of_empty List.nodup_range .producerValues
    intro place other
    cases place with
    | producerValues => exact absurd rfl other
    | consumerValues => exact nothingLeft
    | hands t =>
      cases t with
      | producer =>
        cases at_ : s.threads.producer with
        | exited held =>
          simpa [Clients.contents,hands,at_] using orderly.nothing held (.inr (.inr at_))
        | _ => simpa [at_,producerReturned] using ended.producer
      | consumer i => simp [Clients.contents,hands,(left i).1]
      | signal j => rfl

/-- What the end of the program tells of its run. -/
structure Outcome (K : Nat) (actions : List (Action (Fin K))) (code : ExitCode) (s : Main (Fin K)) :
    Prop where
  code : code = .success ↔ .threads .producerThrow ∉ actions ∧ .signal ∉ actions
  text : s.finalText = .done ↔ .threads .producerThrow ∉ actions ∧ .signal ∉ actions ∧
    ∀ i, .threads (.consumerThrow i) ∉ actions
  complete : s.finalText = .done → Complete (2 * K) s.threads
  ended : Ended s

/-- The code is that of success exactly if the producer did not fail and no signal came, whatever
happened to the consumers; the text is "Done!" exactly if no consumer failed either, and then every
frame has been through a consumer. -/
theorem exit_tells_outcome (K frames : Nat) (actions : List (Action (Fin K))) (s : Main (Fin K))
    (code : ExitCode) (ran : run step (start (2 * K) frames) actions = some s)
    (exited : s.pc = .exited code) : Outcome K actions code s := by
  have reached := reachable_of_run ran
  have valid := reachable_invariant reached
  have ended := valid.allEnded exited
  obtain ⟨_,outcome⟩ := valid.returned (by simp [exited])
  have producer := not_congr (run_producer ran)
  have stopping := not_congr (run_stopping ran)
  have consumer i := not_congr (run_consumer ran i)
  have text : s.finalText = .done ↔ Undisturbed s := by
    rw [valid.text]
    refine and_congr_right fun _ => and_congr ?_ (forall_congr' fun i => ?_)
    · rcases outcome with ⟨_,at_⟩ | ⟨_,at_⟩ <;> simp [at_]
    · have := (ended.consumer i).2
      cases at_ : s.consumer i <;> simp_all
  refine ⟨?_,?_,fun done => complete_of_undisturbed reached (text.mp done) ended,ended⟩
  · rw [← producer,← stopping,(valid.ended code exited).2]
    rcases outcome with ⟨done,at_⟩ | ⟨done,at_⟩ <;> cases s.stopping <;> simp [done,at_]
  · rw [text,← producer,← stopping]
    simp only [Undisturbed,← consumer,not_not,Bool.not_eq_true]
    tauto

/-- The only consumer dies of an exception: the frame is lost, but the code is that of success. -/
theorem exit_tells_outcome_witness : ∃ (actions : List (Action (Fin 1))) (s : Main (Fin 1)),
    run step (start (2 * 1) 1) actions = some s ∧ s.pc = .exited .success ∧ s.finalText = .error ∧
    Outcome 1 actions .success s := by
  let actions : List (Action (Fin 1)) :=
    [.threads .onFrame,.threads .addConsumerValue,.threads (.getConsumerValue 0),
      .threads (.consumerThrow 0),.threads (.consumerShutdown 0),.threads .endOfVideo,
      .threads (.consumerShutdown 0),.consumerCaught 0,.threads .producerShutdown,
      .threads .producerShutdown,.startReturned,.joinConsumers,.exit]
  obtain ⟨s,ran,exited,text⟩ : ∃ s : Main (Fin 1), run step (start (2 * 1) 1) actions = some s ∧
      s.pc = .exited .success ∧ s.finalText = .error := ⟨_,rfl,rfl,rfl⟩
  exact ⟨actions,s,ran,exited,text,exit_tells_outcome 1 1 actions s .success ran exited⟩

end Main

end OcrSuite
