import OcrSuite.Conservation
import OcrSuite.Main

/-! The program comes to its end: some thread can always go on, and there is a bound on what is left to
do once no exceptions are thrown and no signals come any more. -/
namespace OcrSuite.Main

open Transition Pipeline ValueQueue

variable {κ : Type} [DecidableEq κ]

def producerMeasure : ProducerPc → Nat
  | .filling _ => 7
  | .decoding => 3
  | .closing _ => 2
  | .closingConsumers _ => 1
  | .exited _ => 0

def consumerMeasure : ConsumerPc → Nat
  | .processing _ | .closing _ => 2
  | .waiting | .closingConsumers _ => 1
  | .exited _ => 0

/-- The steps that the threads can still take without an exception. -/
def threadsMeasure [Fintype κ] (s : Pipeline κ Unit) : Nat :=
  5 * s.frames + producerMeasure s.producer + 3 * s.queue.consumerValues.length +
    ∑ i, consumerMeasure (s.consumer i)

theorem step_threadsMeasure [Fintype κ] {s t : Pipeline κ Unit} {a : Pipeline.Action κ Unit}
    (taken : Pipeline.step s a = some t) (quiet : a.isThrow = false)
    (other : ∀ j, a ≠ .signalShutdown j) : threadsMeasure t < threadsMeasure s := by
  have update i pc := Conservation.sum_update (fun _ => consumerMeasure) s.consumer i pc
  cases Pipeline.step_stepped taken with
  | closed n pc count stopped =>
    simp only [threadsMeasure,pc,count,producerMeasure]
    omega
  | filled n value rest pc count running values =>
    simp only [threadsMeasure,pc,count,producerMeasure]
    omega
  | added value pc =>
    simp only [threadsMeasure,pc,producerMeasure,ValueQueue.addConsumerValue,List.length_append,
      List.length_singleton]
    omega
  | ended pc => simp [threadsMeasure,pc,producerMeasure]
  | producerThrew pc | producerLost value pc => simp [Pipeline.Action.isThrow] at quiet
  | producerStopped held pc =>
    simp [threadsMeasure,pc,producerMeasure,ValueQueue.shutdownProducer]
  | producerExited held pc => simp [threadsMeasure,pc,producerMeasure]
  | finished i pc closed =>
    have := update i (.exited [])
    simp only [threadsMeasure,pc,consumerMeasure,Pipeline.setConsumer] at this ⊢
    omega
  | delivered i value rest pc running values =>
    have := update i (.processing value)
    simp only [threadsMeasure,pc,consumerMeasure,Pipeline.setConsumer,values,List.length_cons] at this ⊢
    omega
  | returned i value pc =>
    have := update i .waiting
    simp only [threadsMeasure,pc,consumerMeasure,Pipeline.setConsumer,
      addProducerValue_consumerValues] at this ⊢
    omega
  | consumerThrew i pc | consumerLost i value pc => simp [Pipeline.Action.isThrow] at quiet
  | consumerStopped i held pc =>
    have := update i (.closingConsumers held)
    simp only [threadsMeasure,pc,consumerMeasure,Pipeline.setConsumer,ValueQueue.shutdownProducer] at this ⊢
    omega
  | consumerExited i held pc =>
    have := update i (.exited held)
    simp only [threadsMeasure,pc,consumerMeasure,Pipeline.setConsumer,
      shutdownConsumer_consumerValues] at this ⊢
    omega
  | signalStopped j pc | signalFinished j pc => exact absurd rfl (other j)

def handlerMeasure : HandlerPc → Nat
  | .stoppingProducer => 2
  | .stoppingConsumers => 1
  | .waiting | .returned | .stopped => 0

def pcMeasure : MainPc → Nat
  | .starting => 3
  | .joiningConsumers => 2
  | .joiningSignals => 1
  | .exited _ => 0

def catchMeasure : CatchPc → Nat
  | .catching => 1
  | .trying | .caught => 0

/-- The steps that are left if no exception is thrown and no signal comes any more. -/
def measure [Fintype κ] (s : Main κ) : Nat :=
  threadsMeasure s.threads + handlerMeasure s.handler + pcMeasure s.pc +
    ∑ i, catchMeasure (s.consumer i)

/-- Neither an exception nor a signal. -/
def Action.calm : Action κ → Prop
  | .threads a => a.isThrow = false
  | .signal => False
  | _ => True

theorem threadsMeasure_signal [Fintype κ] {s t : Pipeline κ Unit}
    (taken : Pipeline.step s (.signalShutdown ()) = some t) : threadsMeasure t = threadsMeasure s := by
  cases Pipeline.step_stepped taken with
  | signalStopped j => rfl
  | signalFinished j => simp only [threadsMeasure,shutdownConsumer_consumerValues]

theorem step_measure [Fintype κ] {s t : Main κ} {a : Action κ} (calm : a.calm)
    (taken : step s a = some t) : measure t < measure s := by
  cases step_stepped taken with
  | threads b threads moved quiet other =>
    have := step_threadsMeasure moved quiet other
    simp only [measure]
    omega
  | producerThrew | consumerThrew => simp [Action.calm,Pipeline.Action.isThrow] at calm
  | stoppedProducer threads moved at_ | stoppedConsumers threads moved at_ =>
    simp only [measure,threadsMeasure_signal moved,at_,handlerMeasure]
    omega
  | failed at_ | finished at_ =>
    simp only [measure,at_,pcMeasure]
    omega
  | caught i catching =>
    have := Conservation.sum_update (fun _ => catchMeasure) s.consumer i .caught
    simp only [measure,catching,catchMeasure,setConsumer] at this ⊢
    omega
  | signalled => exact calm.elim
  | joined at_ =>
    by_cases waiting : s.handler = .waiting
    · simp only [measure,at_,waiting,if_true,handlerMeasure,pcMeasure]
      omega
    · simp only [measure,at_,waiting,if_false,pcMeasure]
      omega
  | exited at_ =>
    simp only [measure,at_,pcMeasure]
    omega

/-- Where the program is not over, one of its threads has a step that is not an exception. -/
theorem exists_calm {K frames : Nat} (positive : 0 < K) {s : Main (Fin K)}
    (reached : Reachable step (start (2 * K) frames) s) (running : ¬∃ code, s.pc = .exited code) :
    ∃ a : Action (Fin K), a.calm ∧ (step s a).isSome = true := by
  have valid := reachable_invariant reached
  by_cases left : ¬ProducerExited s.threads ∨ ∃ i, ¬ConsumerExited s.threads i
  · obtain ⟨thread,runnable⟩ :=
      exists_runnable (by omega) ⟨⟨0,positive⟩⟩ (reachable_threads reached) left
    obtain ⟨a,own,quiet,enabled⟩ := runnable_step runnable
    obtain ⟨threads,moved⟩ := Option.isSome_iff_exists.mp enabled
    refine ⟨.threads a,quiet,?_⟩
    cases a with
    | producerThrow | consumerThrow => simp [Pipeline.Action.isThrow] at quiet
    | signalShutdown j =>
      obtain rfl : Thread.signal j = thread := own
      have handler := valid.shutting.mp runnable
      simp [step,threadStep,moved,handler]
    | _ => simp [step,threadStep,moved]
  · simp only [not_or,not_not,not_exists] at left
    obtain ⟨⟨held,producer⟩,consumers⟩ := left
    have returned i : consumerReturned (s.threads.consumer i) = true := by
      obtain ⟨held,at_⟩ := consumers i
      simp [at_,consumerReturned]
    cases at_ : s.pc with
    | starting =>
      refine ⟨.startReturned,trivial,?_⟩
      cases threw : s.producer <;> simp [step,at_,producer,producerReturned,threw]
    | joiningConsumers =>
      by_cases catching : ∃ i, s.consumer i = .catching
      · obtain ⟨i,inside⟩ := catching
        exact ⟨.consumerCaught i,trivial,by simp [step,inside,returned i]⟩
      · have ended i : s.consumerEnded i = true :=
          consumerEnded_iff.mpr ⟨returned i,fun inside => catching ⟨i,inside⟩⟩
        exact ⟨.joinConsumers,trivial,by simp [step,at_,ended]⟩
    | joiningSignals =>
      have waiting := (valid.joined (by simp [at_]) (by simp [at_])).2
      cases handler : s.handler with
      | waiting => exact absurd handler waiting
      | returned | stopped => exact ⟨.exit,trivial,by simp [step,at_,handler]⟩
      | stoppingProducer | stoppingConsumers =>
        refine ⟨.threads (.signalShutdown ()),rfl,?_⟩
        cases signal : s.threads.signal () <;> simp [step,threadStep,Pipeline.step,signal,handler]
    | exited code => exact absurd ⟨code,at_⟩ running

end OcrSuite.Main
