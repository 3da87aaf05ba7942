import OcrSuite.Pipeline

/-! The pipeline cannot get stuck. Once the producer side is stopped, an empty consumer
list keeps at least one thread that will look at it again and close the consumer side. -/
namespace OcrSuite.Pipeline

open ValueQueue Ownership Transition

variable {κ γ : Type}

def Action.thread : Action κ γ → Thread κ γ
  | .onFrame | .addConsumerValue | .endOfVideo | .producerThrow | .producerShutdown => .producer
  | .getConsumerValue i | .addProducerValue i | .consumerThrow i | .consumerShutdown i => .consumer i
  | .signalShutdown j => .signal j

def Action.isThrow : Action κ γ → Bool
  | .producerThrow | .consumerThrow _ => true
  | _ => false

/-- The thread is not in a wait, or the predicate it waits for is true. An idle signal
thread and an exited thread do not count. -/
def Runnable (s : Pipeline κ γ) : Thread κ γ → Prop
  | .producer =>
    match s.producer with
    | .decoding => s.frames = 0 ∨ s.queue.producerReady = true
    | .exited _ => False
    | _ => True
  | .consumer i =>
    match s.consumer i with
    | .waiting => s.queue.consumerReady = true
    | .exited _ => False
    | _ => True
  | .signal j => s.signal j = .closingConsumers

def ProducerExited (s : Pipeline κ γ) : Prop := ∃ held, s.producer = .exited held
def ConsumerExited (s : Pipeline κ γ) (i : κ) : Prop := ∃ held, s.consumer i = .exited held

/-- The producer has run the first half of its `shutdown`. -/
def producerStopped : ProducerPc → Bool
  | .closingConsumers _ | .exited _ => true
  | _ => false

def consumerStopped : ConsumerPc → Bool
  | .closingConsumers _ | .exited _ => true
  | _ => false

/-- The producer will still run the second half of its `shutdown`. -/
def producerPending : ProducerPc → Bool
  | .closing _ | .closingConsumers _ => true
  | _ => false

/-- The consumer will still return its buffer or run the second half of its `shutdown`. -/
def consumerPending : ConsumerPc → Bool
  | .processing _ | .closing _ | .closingConsumers _ => true
  | _ => false

/-- Some thread will still look whether the consumer list is empty. -/
def Draining (s : Pipeline κ γ) : Prop :=
  producerPending s.producer = true ∨ (∃ i, consumerPending (s.consumer i) = true) ∨
    ∃ j, s.signal j = .closingConsumers

structure Invariant (s : Pipeline κ γ) : Prop where
  closed : s.queue.stopConsumer = true → s.queue.stopProducer = true
  producer : producerStopped s.producer = true → s.queue.stopProducer = true
  consumer : ∀ i, consumerStopped (s.consumer i) = true → s.queue.stopProducer = true
  signal : ∀ j, s.signal j = .closingConsumers → s.queue.stopProducer = true
  draining : s.queue.stopProducer = true → s.queue.consumerValues = [] →
    s.queue.stopConsumer = false → Draining s

theorem start_invariant (maxObjects frames : Nat) :
    Invariant (start maxObjects frames : Pipeline κ γ) := by
  constructor <;> simp [start,ValueQueue.new,producerStopped,consumerStopped]

@[simp] theorem setConsumer_same [DecidableEq κ] (s : Pipeline κ γ) (i : κ) (pc : ConsumerPc) :
    s.setConsumer i pc i = pc := by simp [setConsumer]

@[simp] theorem setSignal_same [DecidableEq γ] (s : Pipeline κ γ) (j : γ) (pc : SignalPc) :
    s.setSignal j pc j = pc := by simp [setSignal]

/-- A property of all consumers after one of them moved to `pc`. -/
theorem forall_setConsumer [DecidableEq κ] {s : Pipeline κ γ} {i : κ} {pc : ConsumerPc}
    {P : ConsumerPc → Prop} (others : ∀ k, P (s.consumer k)) (here : P pc) :
    ∀ k, P (s.setConsumer i pc k) := by
  intro k
  by_cases same : k = i
  · subst k
    simpa using here
  · simpa [setConsumer,same] using others k

variable [DecidableEq κ] [DecidableEq γ]

theorem step_invariant {s t : Pipeline κ γ} {a : Action κ γ} (valid : Invariant s)
    (taken : step s a = some t) : Invariant t := by
  obtain ⟨closed,producer,consumer,signal,draining⟩ := valid
  have active i pc (running : Pipeline.consumerStopped pc = false) : ∀ k,
      Pipeline.consumerStopped (s.setConsumer i pc k) = true → s.queue.stopProducer = true :=
    forall_setConsumer (P := fun pc => Pipeline.consumerStopped pc = true → s.queue.stopProducer = true)
      consumer (by simp [running])
  cases step_stepped taken with
  | closed n pc count stopped =>
    exact ⟨closed,fun _ => stopped,consumer,signal,fun _ _ _ => .inl rfl⟩
  | filled n value rest pc count running values =>
    exact ⟨closed,by simp [Pipeline.producerStopped],consumer,signal,by simp [running]⟩
  | added value pc =>
    exact ⟨closed,by simp [Pipeline.producerStopped],consumer,signal,by simp [addConsumerValue]⟩
  | ended pc | producerThrew pc | producerLost value pc =>
    exact ⟨closed,by simp [Pipeline.producerStopped],consumer,signal,fun _ _ _ => .inl rfl⟩
  | producerStopped held pc =>
    exact ⟨fun _ => rfl,fun _ => rfl,fun _ _ => rfl,fun _ _ => rfl,fun _ _ _ => .inl rfl⟩
  | producerExited held pc =>
    have stopped := producer (by simp [pc,Pipeline.producerStopped])
    constructor <;> simp [stopped]
    intro empty _ nonempty
    exact absurd empty nonempty
  | finished i pc stopped =>
    have noMore := closed stopped
    exact ⟨closed,producer,fun _ _ => noMore,signal,by simp [stopped]⟩
  | delivered i value rest pc running values =>
    exact ⟨closed,producer,active i _ rfl,signal,
      fun _ _ _ => .inr (.inl ⟨i,by simp [consumerPending]⟩)⟩
  | returned i value pc =>
    refine ⟨?_,by simpa using producer,by simpa using active i .waiting rfl,by simpa using signal,?_⟩
    · simp only [addProducerValue_stopConsumer,addProducerValue_stopProducer,Bool.or_eq_true,
        Bool.and_eq_true]
      rintro (stopped | ⟨_,stopped⟩)
      · exact closed stopped
      · exact stopped
    · intro stopped empty open_
      simp_all
  | consumerThrew i pc | consumerLost i value pc =>
    exact ⟨closed,producer,active i _ rfl,signal,
      fun _ _ _ => .inr (.inl ⟨i,by simp [consumerPending]⟩)⟩
  | consumerStopped i held pc =>
    exact ⟨fun _ => rfl,fun _ => rfl,fun _ _ => rfl,fun _ _ => rfl,
      fun _ _ _ => .inr (.inl ⟨i,by simp [consumerPending]⟩)⟩
  | consumerExited i held pc =>
    have stopped := consumer i (by simp [pc,Pipeline.consumerStopped])
    constructor <;> simp [stopped]
    intro empty _ nonempty
    exact absurd empty nonempty
  | signalStopped j pc =>
    exact ⟨fun _ => rfl,fun _ => rfl,fun _ _ => rfl,fun _ _ => rfl,
      fun _ _ _ => .inr (.inr ⟨j,by simp⟩)⟩
  | signalFinished j pc =>
    have stopped := signal j pc
    constructor <;> simp [stopped]
    intro empty _ nonempty
    exact absurd empty nonempty

theorem reachable_invariant {maxObjects frames : Nat} {s : Pipeline κ γ}
    (reached : Reachable step (start maxObjects frames) s) : Invariant s :=
  reached.invariant (start_invariant maxObjects frames)
    fun _ _ _ _ valid _ taken => step_invariant valid taken

/-- A buffer that is in no list is held by the producer or by a consumer. -/
theorem buffer_held {maxObjects frames : Nat} {s : Pipeline κ γ}
    (reached : Reachable step (start maxObjects frames) s) {b : Buffer} (exists_ : b < maxObjects)
    (notProducer : b ∉ s.queue.producerValues) (notConsumer : b ∉ s.queue.consumerValues) :
    b ∈ producerHeld s.producer ∨ ∃ i, b ∈ consumerHeld (s.consumer i) := by
  have valid := Clients.reachable_exclusive (reachable_clients reached)
  obtain ⟨p,inside⟩ := (valid.covers b).mp (List.mem_range.mpr exists_)
  cases p with
  | producerValues => exact absurd inside notProducer
  | consumerValues => exact absurd inside notConsumer
  | hands t =>
    cases t with
    | producer => exact .inl inside
    | consumer i => exact .inr ⟨i,inside⟩
    | signal j => cases inside

/-- A runnable thread has a step of its own that is not an exception. -/
theorem runnable_step {s : Pipeline κ γ} {thread : Thread κ γ} (runnable : Runnable s thread) :
    ∃ a : Action κ γ, a.thread = thread ∧ a.isThrow = false ∧ (step s a).isSome = true := by
  cases thread with
  | producer =>
    cases pc : s.producer with
    | decoding =>
      cases count : s.frames with
      | zero => exact ⟨.endOfVideo,rfl,rfl,by simp [step,pc]⟩
      | succ n =>
        have ready : s.queue.producerReady = true := by simpa [Runnable,pc,count] using runnable
        refine ⟨.onFrame,rfl,rfl,?_⟩
        obtain ⟨⟨result,q⟩,got⟩ :=
          Option.isSome_iff_exists.mp ((getProducerValue_isSome s.queue).trans ready)
        cases result <;> simp [step,pc,count,got]
    | filling value => exact ⟨.addConsumerValue,rfl,rfl,by simp [step,pc]⟩
    | closing held => exact ⟨.producerShutdown,rfl,rfl,by simp [step,pc]⟩
    | closingConsumers held => exact ⟨.producerShutdown,rfl,rfl,by simp [step,pc]⟩
    | exited held => simp [Runnable,pc] at runnable
  | consumer i =>
    cases pc : s.consumer i with
    | waiting =>
      have ready : s.queue.consumerReady = true := by simpa [Runnable,pc] using runnable
      refine ⟨.getConsumerValue i,rfl,rfl,?_⟩
      obtain ⟨⟨result,q⟩,got⟩ :=
        Option.isSome_iff_exists.mp ((getConsumerValue_isSome s.queue).trans ready)
      cases result <;> simp [step,pc,got]
    | processing value => exact ⟨.addProducerValue i,rfl,rfl,by simp [step,pc]⟩
    | closing held => exact ⟨.consumerShutdown i,rfl,rfl,by simp [step,pc]⟩
    | closingConsumers held => exact ⟨.consumerShutdown i,rfl,rfl,by simp [step,pc]⟩
    | exited held => simp [Runnable,pc] at runnable
  | signal j =>
    have pc : s.signal j = .closingConsumers := runnable
    exact ⟨.signalShutdown j,rfl,rfl,by simp [step,pc]⟩

section Stuck

variable {s : Pipeline κ γ} (stuck : ∀ thread, ¬Runnable s thread)
include stuck

omit [DecidableEq κ] [DecidableEq γ] in
theorem stuck_producer : (s.producer = .decoding ∧ s.queue.producerReady = false) ∨ ProducerExited s := by
  have blocked := stuck .producer
  cases pc : s.producer with
  | decoding =>
    simp only [Runnable,pc,not_or,Bool.not_eq_true] at blocked
    exact .inl ⟨rfl,blocked.2⟩
  | exited held => exact .inr ⟨held,pc⟩
  | _ => simp [Runnable,pc] at blocked

omit [DecidableEq κ] [DecidableEq γ] in
theorem stuck_consumer (i : κ) :
    (s.consumer i = .waiting ∧ s.queue.consumerReady = false) ∨ ConsumerExited s i := by
  have blocked := stuck (.consumer i)
  cases pc : s.consumer i with
  | waiting =>
    simp only [Runnable,pc,Bool.not_eq_true] at blocked
    exact .inl ⟨rfl,blocked⟩
  | exited held => exact .inr ⟨held,pc⟩
  | _ => simp [Runnable,pc] at blocked

omit [DecidableEq κ] [DecidableEq γ] in
theorem stuck_not_draining : ¬Draining s := by
  rintro (pending | ⟨i,pending⟩ | ⟨j,pending⟩)
  · rcases stuck_producer stuck with ⟨pc,_⟩ | ⟨held,pc⟩ <;> simp [pc,producerPending] at pending
  · rcases stuck_consumer stuck i with ⟨pc,_⟩ | ⟨held,pc⟩ <;> simp [pc,consumerPending] at pending
  · exact stuck (.signal j) pending

/-- A consumer that is still there would be blocked on an open and empty list; then nobody
has stopped the producer side, so every buffer would have to be somewhere it is not. -/
theorem stuck_consumers_exited {maxObjects frames : Nat} (positive : 0 < maxObjects)
    (reached : Reachable step (start maxObjects frames) s) (i : κ) : ConsumerExited s i := by
  obtain ⟨closed,producer,consumer,signal,draining⟩ := reachable_invariant reached
  rcases stuck_consumer stuck i with ⟨pc,blocked⟩ | exited
  · simp only [consumerReady,Bool.or_eq_false_iff,Bool.not_eq_eq_eq_not,Bool.not_false,
      List.isEmpty_iff] at blocked
    obtain ⟨empty,open_⟩ := blocked
    have running : s.queue.stopProducer = false := by
      cases stopped : s.queue.stopProducer with
      | false => rfl
      | true => exact absurd (draining stopped empty open_) (stuck_not_draining stuck)
    have noProducer : s.producer = .decoding ∧ s.queue.producerReady = false := by
      rcases stuck_producer stuck with waits | ⟨held,pc⟩
      · exact waits
      · simp [producer (by simp [pc,Pipeline.producerStopped])] at running
    have noBuffer : s.queue.producerValues = [] := by
      simpa [producerReady,running] using noProducer.2
    have held := buffer_held reached positive (by simp [noBuffer]) (by simp [empty])
    rcases held with inProducer | ⟨k,inConsumer⟩
    · simp [noProducer.1] at inProducer
    · rcases stuck_consumer stuck k with ⟨pc,_⟩ | ⟨held,pc⟩
      · simp [pc] at inConsumer
      · simp [consumer k (by simp [pc,Pipeline.consumerStopped])] at running
  · exact exited

end Stuck

/-- With at least one buffer and one consumer, a state in which some thread of the
pipeline is left has a thread that can go on. -/
theorem exists_runnable {maxObjects frames : Nat} {s : Pipeline κ γ} (positive : 0 < maxObjects)
    (someConsumer : Nonempty κ) (reached : Reachable step (start maxObjects frames) s)
    (left : ¬ProducerExited s ∨ ∃ i, ¬ConsumerExited s i) : ∃ thread, Runnable s thread := by
  by_contra none
  have stuck : ∀ thread, ¬Runnable s thread := fun thread runnable => none ⟨thread,runnable⟩
  rcases left with producerLeft | ⟨i,consumerLeft⟩
  · rcases stuck_producer stuck with ⟨_,blocked⟩ | exited
    · obtain ⟨i⟩ := someConsumer
      obtain ⟨held,pc⟩ := stuck_consumers_exited stuck positive reached i
      have stopped := (reachable_invariant reached).consumer i (by simp [pc,consumerStopped])
      simp [producerReady,stopped] at blocked
    · exact producerLeft exited
  · exact consumerLeft (stuck_consumers_exited stuck positive reached i)

/-- `main` gives `K` consumers `2 * K` buffers. Whatever throws and whoever calls `shutdown`,
some thread can take a step as long as the producer or a consumer is left. -/
theorem pipeline_never_stuck (K : Nat) (positive : 0 < K) (frames : Nat) (s : Pipeline (Fin K) γ)
    (reached : Reachable step (start (2 * K) frames) s)
    (left : ¬ProducerExited s ∨ ∃ i, ¬ConsumerExited s i) :
    ∃ thread, Runnable s thread ∧
      ∃ a : Action (Fin K) γ, a.thread = thread ∧ a.isThrow = false ∧ (step s a).isSome = true := by
  obtain ⟨thread,runnable⟩ := exists_runnable (by omega) ⟨⟨0,positive⟩⟩ reached left
  exact ⟨thread,runnable,runnable_step runnable⟩

/-- Both consumers died with a buffer, the second before its `shutdown`; the producer waits. -/
theorem pipeline_never_stuck_witness : ∃ s : Pipeline (Fin 2) Unit,
    run step (start (2 * 2) 9) [.onFrame,.addConsumerValue,.onFrame,.addConsumerValue,
      .getConsumerValue 0,.getConsumerValue 1,.consumerThrow 0,.consumerThrow 1,
      .consumerShutdown 0] = some s ∧ s.producer = .decoding ∧
    ∃ thread, Runnable s thread := by
  obtain ⟨s,ran,pc⟩ : ∃ s : Pipeline (Fin 2) Unit,
      run step (start (2 * 2) 9) [.onFrame,.addConsumerValue,.onFrame,.addConsumerValue,
        .getConsumerValue 0,.getConsumerValue 1,.consumerThrow 0,.consumerThrow 1,
        .consumerShutdown 0] = some s ∧ s.producer = .decoding := ⟨_,rfl,rfl⟩
  obtain ⟨thread,runnable,_⟩ := pipeline_never_stuck 2 (by decide) 9 s (reachable_of_run ran)
    (.inl (by simp [ProducerExited,pc]))
  exact ⟨s,ran,pc,thread,runnable⟩

end OcrSuite.Pipeline
