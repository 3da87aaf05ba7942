import OcrSuite.PipelineProgress

/-! What `shutdown` keeps of the frames in the queue. The consumer side is closed as soon as
its list is seen empty, also while the producer still fills a buffer it is going to add. -/
namespace OcrSuite.Pipeline

open ValueQueue Transition

variable {κ γ : Type}

/-- The action takes the branch that sets `stop_consumer_`. -/
def ClosesConsumers (s : Pipeline κ γ) (a : Action κ γ) : Prop :=
  s.queue.consumerValues = [] ∧
    match a with
    | .producerShutdown => ∃ held, s.producer = .closingConsumers held
    | .consumerShutdown i => ∃ held, s.consumer i = .closingConsumers held
    | .signalShutdown j => s.signal j = .closingConsumers
    | .addProducerValue _ => s.queue.stopProducer = true
    | _ => False

/-- The consumer side is not closed between `get_producer_value` and `add_consumer_value`. -/
def Drained (s : Pipeline κ γ) (a : Action κ γ) : Prop :=
  ClosesConsumers s a → ∀ value, s.producer ≠ .filling value

/-- A closed consumer side is empty and nothing is on its way to it. -/
structure ClosedEmpty (s : Pipeline κ γ) : Prop where
  empty : s.queue.stopConsumer = true → s.queue.consumerValues = []
  idle : s.queue.stopConsumer = true → ∀ value, s.producer ≠ .filling value
  stopped : s.queue.stopConsumer = true → s.queue.stopProducer = true

variable [DecidableEq κ] [DecidableEq γ]

omit [DecidableEq κ] [DecidableEq γ] in
/-- The second half of `shutdown`, whichever thread runs it. -/
theorem closedEmpty_shutdownConsumer {s t : Pipeline κ γ} (valid : ClosedEmpty s)
    (queue : t.queue = s.queue.shutdownConsumer)
    (producer : ∀ value, t.producer = .filling value → s.producer = .filling value)
    (stopped : s.queue.stopProducer = true)
    (drained : s.queue.consumerValues = [] → ∀ value, s.producer ≠ .filling value) : ClosedEmpty t := by
  have cases (closed : t.queue.stopConsumer = true) :
      s.queue.stopConsumer = true ∨ s.queue.consumerValues = [] := by
    simpa [queue] using closed
  constructor
  · intro closed
    rcases cases closed with before | now
    · simpa [queue] using valid.empty before
    · simpa [queue] using now
  · intro closed value filling
    rcases cases closed with before | now
    · exact valid.idle before value (producer value filling)
    · exact drained now value (producer value filling)
  · intro _
    simpa [queue] using stopped

theorem step_closedEmpty {s t : Pipeline κ γ} {a : Action κ γ} (valid : ClosedEmpty s)
    (invariant : Invariant s) (drained : Drained s a) (taken : step s a = some t) : ClosedEmpty t := by
  obtain ⟨empty,idle,stopped⟩ := valid
  cases step_stepped taken with
  | closed n pc count closed | ended pc | producerThrew pc | producerLost value pc =>
    exact ⟨empty,by simp,stopped⟩
  | filled n value rest pc count running values =>
    have open_ : s.queue.stopConsumer = false := by
      cases closed : s.queue.stopConsumer with
      | false => rfl
      | true => simp [stopped closed] at running
    constructor <;> simp [open_]
  | added value pc =>
    have open_ : s.queue.stopConsumer = false := by
      cases closed : s.queue.stopConsumer with
      | false => rfl
      | true => exact absurd pc (idle closed value)
    constructor <;> simp [addConsumerValue,open_]
  | producerStopped held pc => exact ⟨empty,by simp,fun _ => rfl⟩
  | producerExited held pc =>
    exact closedEmpty_shutdownConsumer ⟨empty,idle,stopped⟩ rfl (by simp)
      (invariant.producer (by simp [pc,Pipeline.producerStopped])) (by simp [pc])
  | finished i pc closed | consumerThrew i pc | consumerLost i value pc => exact ⟨empty,idle,stopped⟩
  | delivered i value rest pc running values => constructor <;> simp [running]
  | returned i value pc =>
    constructor
    · simp only [addProducerValue_stopConsumer,addProducerValue_consumerValues,Bool.or_eq_true,
        Bool.and_eq_true,List.isEmpty_iff]
      rintro (closed | ⟨now,_⟩)
      · exact empty closed
      · exact now
    · simp only [addProducerValue_stopConsumer,Bool.or_eq_true,Bool.and_eq_true,List.isEmpty_iff]
      rintro (closed | now)
      · exact idle closed
      · exact drained now
    · simp only [addProducerValue_stopConsumer,addProducerValue_stopProducer,Bool.or_eq_true,
        Bool.and_eq_true]
      rintro (closed | ⟨_,now⟩)
      · exact stopped closed
      · exact now
  | consumerStopped i held pc | signalStopped j pc => exact ⟨empty,idle,fun _ => rfl⟩
  | consumerExited i held pc =>
    exact closedEmpty_shutdownConsumer ⟨empty,idle,stopped⟩ rfl (by simp)
      (invariant.consumer i (by simp [pc,Pipeline.consumerStopped]))
      (fun now => drained ⟨now,held,pc⟩)
  | signalFinished j pc =>
    exact closedEmpty_shutdownConsumer ⟨empty,idle,stopped⟩ rfl (by simp) (invariant.signal j pc)
      (fun now => drained ⟨now,pc⟩)

theorem drained_closedEmpty {maxObjects frames : Nat} {s : Pipeline κ γ}
    (reached : ReachableUnder step Drained (start maxObjects frames) s) : ClosedEmpty s := by
  refine reached.invariant (P := ClosedEmpty) ?_ ?_
  · constructor <;> simp [start,ValueQueue.new]
  · intro s a t earlier valid drained taken
    exact step_closedEmpty valid (reachable_invariant earlier.reachable) drained taken

/-- `stop_consumer_` is never reset. -/
theorem step_stopConsumer {s t : Pipeline κ γ} {a : Action κ γ} (taken : step s a = some t)
    (closed : s.queue.stopConsumer = true) : t.queue.stopConsumer = true := by
  cases step_stepped taken <;>
    simp [closed,addConsumerValue,shutdownProducer]

theorem reachable_stopConsumer {cond : Pipeline κ γ → Action κ γ → Prop} {s t : Pipeline κ γ}
    (later : ReachableUnder step cond s t) (closed : s.queue.stopConsumer = true) :
    t.queue.stopConsumer = true :=
  later.invariant (P := fun t => t.queue.stopConsumer = true) closed
    fun _ _ _ _ before _ taken => step_stopConsumer taken before

/-- A consumer that keeps calling gets every buffer that is still in the list. -/
theorem consumer_drains {s : Pipeline κ γ} {i : κ} (waiting : s.consumer i = .waiting)
    (once : s.added = s.delivered.map Prod.snd ++ s.queue.consumerValues)
    (open_ : s.queue.consumerValues ≠ [] → s.queue.stopConsumer = false) :
    ∃ actions t, (∀ a ∈ actions, a = .getConsumerValue i ∨ a = .addProducerValue i) ∧
      run step s actions = some t ∧ t.added = s.added ∧ t.delivered.map Prod.snd = s.added := by
  generalize values : s.queue.consumerValues = remaining at once open_
  induction remaining generalizing s with
  | nil => exact ⟨[],s,by simp,rfl,rfl,by simp [once]⟩
  | cons value rest ih =>
    have running := open_ (by simp)
    let taken : Pipeline κ γ := { s with
      queue := { s.queue with consumerValues := rest }
      consumer := s.setConsumer i (.processing value)
      delivered := s.delivered ++ [(.consumer i,value)] }
    have first : step s (.getConsumerValue i) = some taken := by
      simp [step,waiting,getConsumerValue_head s.queue running values,taken]
    cases rest with
    | nil => exact ⟨[.getConsumerValue i],taken,by simp,by simp [run,first],rfl,by simp [taken,once]⟩
    | cons head tail =>
      let returned : Pipeline κ γ := { taken with
        queue := taken.queue.addProducerValue value, consumer := taken.setConsumer i .waiting }
      have second : step taken (.addProducerValue i) = some returned := by
        simp [step,taken,returned]
      obtain ⟨actions,t,own,ran,same,all⟩ := ih (s := returned) (by simp [returned])
        (by simp [returned,taken]) (by simp [returned,taken,once]) (by simp [returned,taken,running])
      refine ⟨.getConsumerValue i :: .addProducerValue i :: actions,t,?_,?_,same,all⟩
      · simpa using own
      · simp [run,first,second,ran]

/-- What the queue promises about frames, in one state. -/
structure NoFrameLost (s : Pipeline κ γ) : Prop where
  /-- a closed consumer side is empty -/
  empty : s.queue.stopConsumer = true → s.queue.consumerValues = []
  /-- every buffer passed to `add_consumer_value` was handed to one consumer or is still queued -/
  once : s.added = s.delivered.map Prod.snd ++ s.queue.consumerValues
  /-- any consumer that keeps calling gets the rest -/
  served : ∀ i, s.consumer i = .waiting →
    ∃ actions t, (∀ a ∈ actions, a = .getConsumerValue i ∨ a = .addProducerValue i) ∧
      run step s actions = some t ∧ t.added = s.added ∧ t.delivered.map Prod.snd = s.added

theorem drained_noFrameLost {maxObjects frames : Nat} {s : Pipeline κ γ}
    (reached : ReachableUnder step Drained (start maxObjects frames) s) : NoFrameLost s := by
  have valid := drained_closedEmpty reached
  have once := Clients.delivered_in_order (reachable_clients reached.reachable)
  refine ⟨valid.empty,once,fun i waiting => consumer_drains waiting once ?_⟩
  intro nonempty
  cases closed : s.queue.stopConsumer with
  | false => rfl
  | true => exact absurd (valid.empty closed) nonempty

/-- Closing the consumer side under a producer that holds a buffer is noticed one step
later: `add_consumer_value` fills a list nobody will read. -/
theorem undrained_loses {s t : Pipeline κ γ} {a : Action κ γ} {value : Buffer}
    (taken : step s a = some t) (closes : ClosesConsumers s a) (filling : s.producer = .filling value) :
    ∃ u, ReachableUnder step Drained t u ∧ u.queue.stopConsumer = true ∧ u.queue.consumerValues ≠ [] := by
  obtain ⟨now,branch⟩ := closes
  have closed : t.queue.stopConsumer = true ∧ t.producer = .filling value := by
    cases step_stepped taken with
    | producerExited held pc => simp [filling] at pc
    | producerStopped held pc => simp [filling] at pc
    | returned i value' pc =>
      have stopped : s.queue.stopProducer = true := branch
      simp [now,stopped,filling]
    | consumerExited i held pc => simp [now,filling]
    | consumerStopped i held pc => simp [pc] at branch
    | signalFinished j pc => simp [now,filling]
    | signalStopped j pc => simp [pc] at branch
    | _ => exact absurd branch not_false
  let lost : Pipeline κ γ := { t with
    queue := t.queue.addConsumerValue value
    producer := .decoding
    added := t.added ++ [value] }
  have adds : step t .addConsumerValue = some lost := by simp [step,closed.2,lost]
  have allowed : Drained t .addConsumerValue := fun closes => closes.2.elim
  exact ⟨lost,.next .start allowed adds,closed.1,by simp [lost,addConsumerValue]⟩

/-- One buffer is with the producer when the signal thread shuts down an empty queue: the
frame is added to a closed list and the consumer leaves without it. -/
theorem frame_lost_at_shutdown :
    ¬ ∀ (maxObjects frames : Nat) (s : Pipeline Unit Unit),
      Reachable step (start maxObjects frames) s → s.queue.stopConsumer = true →
      s.queue.consumerValues = [] := by
  intro claim
  obtain ⟨s,ran,closed,values⟩ : ∃ s : Pipeline Unit Unit,
      run step (start 2 1) [.onFrame,.signalShutdown (),.signalShutdown (),.addConsumerValue,
        .getConsumerValue ()] = some s ∧
      s.queue.stopConsumer = true ∧ s.queue.consumerValues = [0] := ⟨_,rfl,rfl,rfl⟩
  simp [claim 2 1 s (reachable_of_run ran) closed] at values

/-- As long as the consumer side is only closed while the producer holds no buffer, no
frame is lost and the closed list stays empty; and a step that closes it under a
producer with a buffer can always be continued to a lost frame. -/
theorem no_frame_lost_when_drained (maxObjects frames : Nat) (s : Pipeline κ γ)
    (reached : ReachableUnder step Drained (start maxObjects frames) s) :
    NoFrameLost s ∧
    (s.queue.stopConsumer = true → ∀ t, ReachableUnder step Drained s t →
      t.queue.stopConsumer = true ∧ t.queue.consumerValues = []) ∧
    ∀ a t, step s a = some t → (Drained s a ↔ ∀ u, ReachableUnder step Drained t u →
      u.queue.stopConsumer = true → u.queue.consumerValues = []) := by
  refine ⟨drained_noFrameLost reached,?_,?_⟩
  · intro closed t later
    have still := reachable_stopConsumer later closed
    exact ⟨still,(drained_closedEmpty (reached.trans later)).empty still⟩
  · intro a t taken
    constructor
    · intro drained u later
      exact (drained_closedEmpty ((reached.next drained taken).trans later)).empty
    · intro kept closes value filling
      obtain ⟨u,later,closed,lost⟩ := undrained_loses taken closes filling
      exact lost (kept u later closed)

/-- The producer shuts down by itself after its last frame. -/
theorem no_frame_lost_when_drained_witness : ∃ s : Pipeline Unit Unit,
    run step (start 2 1) [.onFrame,.addConsumerValue,.endOfVideo,.producerShutdown] = some s ∧
    s.queue.consumerValues = [0] ∧ NoFrameLost s := by
  have reached : ReachableUnder step Drained (start 2 1 : Pipeline Unit Unit) _ :=
    ((((ReachableUnder.start.next (a := .onFrame) (by simp [Drained,ClosesConsumers]) rfl).next
      (a := .addConsumerValue) (by simp [Drained,ClosesConsumers]) rfl).next
      (a := .endOfVideo) (by simp [Drained,ClosesConsumers]) rfl).next
      (a := .producerShutdown) (by simp [Drained,ClosesConsumers]) rfl)
  exact ⟨_,rfl,rfl,(no_frame_lost_when_drained 2 1 _ reached).1⟩

end OcrSuite.Pipeline
