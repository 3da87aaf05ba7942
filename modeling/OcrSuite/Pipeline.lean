import OcrSuite.ValueQueue

/-! The threads of the recogniser around one frame queue: the producer decodes, any number
of consumers recognise, and other threads may call `shutdown` at any time. Exceptions end
a thread through the `shutdown` of its handler; a buffer it held is never returned. -/
namespace OcrSuite

/-- `closing` is about to run the first half of `shutdown`, `closingConsumers` the second.
`held` is a buffer the thread kept when an exception unwound it. -/
inductive ProducerPc where
  | decoding
  | filling (value : Buffer)
  | closing (held : List Buffer)
  | closingConsumers (held : List Buffer)
  | exited (held : List Buffer)
  deriving DecidableEq

inductive ConsumerPc where
  | waiting
  | processing (value : Buffer)
  | closing (held : List Buffer)
  | closingConsumers (held : List Buffer)
  | exited (held : List Buffer)
  deriving DecidableEq

inductive SignalPc where
  | idle
  | closingConsumers
  deriving DecidableEq

inductive Thread (κ γ : Type) where
  | producer
  | consumer (i : κ)
  | signal (j : γ)
  deriving DecidableEq

/-- `frames` counts the frames the decoder has still to deliver. -/
structure Pipeline (κ γ : Type) where
  queue : ValueQueue
  frames : Nat
  producer : ProducerPc
  consumer : κ → ConsumerPc
  signal : γ → SignalPc
  added : List Buffer
  delivered : List (Thread κ γ × Buffer)

namespace Pipeline

open ValueQueue Ownership Transition

inductive Action (κ γ : Type) where
  | onFrame
  | addConsumerValue
  | endOfVideo
  | producerThrow
  | producerShutdown
  | getConsumerValue (i : κ)
  | addProducerValue (i : κ)
  | consumerThrow (i : κ)
  | consumerShutdown (i : κ)
  | signalShutdown (j : γ)

variable {κ γ : Type}

/-! What a thread holds at each program point, and whether it is inside `shutdown`. -/

@[simp] def producerHeld : ProducerPc → List Buffer
  | .decoding => []
  | .filling value => [value]
  | .closing held | .closingConsumers held | .exited held => held

@[simp] def consumerHeld : ConsumerPc → List Buffer
  | .waiting => []
  | .processing value => [value]
  | .closing held | .closingConsumers held | .exited held => held

@[simp] def producerClosing : ProducerPc → Bool
  | .closingConsumers _ => true
  | _ => false

@[simp] def consumerClosing : ConsumerPc → Bool
  | .closingConsumers _ => true
  | _ => false

@[simp] def signalClosing : SignalPc → Bool
  | .idle => false
  | .closingConsumers => true

def hands (s : Pipeline κ γ) : Thread κ γ → List Buffer
  | .producer => producerHeld s.producer
  | .consumer i => consumerHeld (s.consumer i)
  | .signal _ => []

def closing (s : Pipeline κ γ) : Thread κ γ → Bool
  | .producer => producerClosing s.producer
  | .consumer i => consumerClosing (s.consumer i)
  | .signal j => signalClosing (s.signal j)

/-- The pipeline without its program counters. -/
def clients (s : Pipeline κ γ) : Clients (Thread κ γ) :=
  ⟨s.queue,s.hands,s.closing,s.added,s.delivered⟩

@[simp] theorem clients_queue (s : Pipeline κ γ) : s.clients.queue = s.queue := rfl
@[simp] theorem clients_hands (s : Pipeline κ γ) : s.clients.hands = s.hands := rfl
@[simp] theorem clients_closing (s : Pipeline κ γ) : s.clients.closing = s.closing := rfl
@[simp] theorem clients_added (s : Pipeline κ γ) : s.clients.added = s.added := rfl
@[simp] theorem clients_delivered (s : Pipeline κ γ) : s.clients.delivered = s.delivered := rfl

def start (maxObjects frames : Nat) : Pipeline κ γ :=
  ⟨.new maxObjects,frames,.decoding,fun _ => .waiting,fun _ => .idle,[],[]⟩

variable [DecidableEq κ] [DecidableEq γ]

def setConsumer (s : Pipeline κ γ) (i : κ) (pc : ConsumerPc) : κ → ConsumerPc :=
  Function.update s.consumer i pc

def setSignal (s : Pipeline κ γ) (j : γ) (pc : SignalPc) : γ → SignalPc :=
  Function.update s.signal j pc

/-- One critical section, or one event outside the queue, of one thread. Decoding may
end before the last frame because a decoding error ends the run without an exception. -/
def step (s : Pipeline κ γ) : Action κ γ → Option (Pipeline κ γ)
  | .onFrame =>
    match s.producer,s.frames with
    | .decoding,frames + 1 =>
      match s.queue.getProducerValue with
      | none => none
      | some (none,q) => some { s with queue := q, frames := frames, producer := .closing [] }
      | some (some value,q) => some { s with queue := q, frames := frames, producer := .filling value }
    | _,_ => none
  | .addConsumerValue =>
    match s.producer with
    | .filling value => some { s with
        queue := s.queue.addConsumerValue value
        producer := .decoding
        added := s.added ++ [value] }
    | _ => none
  | .endOfVideo =>
    match s.producer with
    | .decoding => some { s with producer := .closing [] }
    | _ => none
  | .producerThrow =>
    match s.producer with
    | .decoding => some { s with producer := .closing [] }
    | .filling value => some { s with producer := .closing [value] }
    | _ => none
  | .producerShutdown =>
    match s.producer with
    | .closing held => some { s with
        queue := s.queue.shutdownProducer
        producer := .closingConsumers held }
    | .closingConsumers held => some { s with
        queue := s.queue.shutdownConsumer
        producer := .exited held }
    | _ => none
  | .getConsumerValue i =>
    match s.consumer i with
    | .waiting =>
      match s.queue.getConsumerValue with
      | none => none
      | some (none,q) => some { s with queue := q, consumer := s.setConsumer i (.exited []) }
      | some (some value,q) => some { s with
          queue := q
          consumer := s.setConsumer i (.processing value)
          delivered := s.delivered ++ [(.consumer i,value)] }
    | _ => none
  | .addProducerValue i =>
    match s.consumer i with
    | .processing value => some { s with
        queue := s.queue.addProducerValue value
        consumer := s.setConsumer i .waiting }
    | _ => none
  | .consumerThrow i =>
    match s.consumer i with
    | .waiting => some { s with consumer := s.setConsumer i (.closing []) }
    | .processing value => some { s with consumer := s.setConsumer i (.closing [value]) }
    | _ => none
  | .consumerShutdown i =>
    match s.consumer i with
    | .closing held => some { s with
        queue := s.queue.shutdownProducer
        consumer := s.setConsumer i (.closingConsumers held) }
    | .closingConsumers held => some { s with
        queue := s.queue.shutdownConsumer
        consumer := s.setConsumer i (.exited held) }
    | _ => none
  | .signalShutdown j =>
    match s.signal j with
    | .idle => some { s with
        queue := s.queue.shutdownProducer
        signal := s.setSignal j .closingConsumers }
    | .closingConsumers => some { s with
        queue := s.queue.shutdownConsumer
        signal := s.setSignal j .idle }

/-- The effects of a step, one constructor for each branch of the threads' code. -/
inductive Stepped (s : Pipeline κ γ) : Action κ γ → Pipeline κ γ → Prop where
  | closed (n : Nat) : s.producer = .decoding → s.frames = n + 1 → s.queue.stopProducer = true →
      Stepped s .onFrame { s with frames := n, producer := .closing [] }
  | filled (n : Nat) (value : Buffer) (rest : List Buffer) : s.producer = .decoding →
      s.frames = n + 1 → s.queue.stopProducer = false → s.queue.producerValues = value :: rest →
      Stepped s .onFrame { s with
        queue := { s.queue with producerValues := rest }, frames := n, producer := .filling value }
  | added (value : Buffer) : s.producer = .filling value →
      Stepped s .addConsumerValue { s with
        queue := s.queue.addConsumerValue value
        producer := .decoding
        added := s.added ++ [value] }
  | ended : s.producer = .decoding → Stepped s .endOfVideo { s with producer := .closing [] }
  | producerThrew : s.producer = .decoding →
      Stepped s .producerThrow { s with producer := .closing [] }
  | producerLost (value : Buffer) : s.producer = .filling value →
      Stepped s .producerThrow { s with producer := .closing [value] }
  | producerStopped (held : List Buffer) : s.producer = .closing held →
      Stepped s .producerShutdown { s with
        queue := s.queue.shutdownProducer, producer := .closingConsumers held }
  | producerExited (held : List Buffer) : s.producer = .closingConsumers held →
      Stepped s .producerShutdown { s with
        queue := s.queue.shutdownConsumer, producer := .exited held }
  | finished (i : κ) : s.consumer i = .waiting → s.queue.stopConsumer = true →
      Stepped s (.getConsumerValue i) { s with consumer := s.setConsumer i (.exited []) }
  | delivered (i : κ) (value : Buffer) (rest : List Buffer) : s.consumer i = .waiting →
      s.queue.stopConsumer = false → s.queue.consumerValues = value :: rest →
      Stepped s (.getConsumerValue i) { s with
        queue := { s.queue with consumerValues := rest }
        consumer := s.setConsumer i (.processing value)
        delivered := s.delivered ++ [(.consumer i,value)] }
  | returned (i : κ) (value : Buffer) : s.consumer i = .processing value →
      Stepped s (.addProducerValue i) { s with
        queue := s.queue.addProducerValue value, consumer := s.setConsumer i .waiting }
  | consumerThrew (i : κ) : s.consumer i = .waiting →
      Stepped s (.consumerThrow i) { s with consumer := s.setConsumer i (.closing []) }
  | consumerLost (i : κ) (value : Buffer) : s.consumer i = .processing value →
      Stepped s (.consumerThrow i) { s with consumer := s.setConsumer i (.closing [value]) }
  | consumerStopped (i : κ) (held : List Buffer) : s.consumer i = .closing held →
      Stepped s (.consumerShutdown i) { s with
        queue := s.queue.shutdownProducer, consumer := s.setConsumer i (.closingConsumers held) }
  | consumerExited (i : κ) (held : List Buffer) : s.consumer i = .closingConsumers held →
      Stepped s (.consumerShutdown i) { s with
        queue := s.queue.shutdownConsumer, consumer := s.setConsumer i (.exited held) }
  | signalStopped (j : γ) : s.signal j = .idle →
      Stepped s (.signalShutdown j) { s with
        queue := s.queue.shutdownProducer, signal := s.setSignal j .closingConsumers }
  | signalFinished (j : γ) : s.signal j = .closingConsumers →
      Stepped s (.signalShutdown j) { s with
        queue := s.queue.shutdownConsumer, signal := s.setSignal j .idle }

theorem step_stepped {s t : Pipeline κ γ} {a : Action κ γ} (taken : step s a = some t) :
    Stepped s a t := by
  cases a with
  | onFrame =>
    simp only [step] at taken
    split at taken
    · rename_i frames pc count
      split at taken
      · contradiction
      · rename_i q got
        cases taken
        rcases getProducerValue_cases got with ⟨stopped,_,rfl⟩ | ⟨_,_,_,_,wrong,_⟩
        · exact .closed frames pc count stopped
        · cases wrong
      · rename_i value q got
        cases taken
        rcases getProducerValue_cases got with ⟨_,wrong,_⟩ | ⟨running,_,rest,values,same,rfl⟩
        · cases wrong
        · cases same
          exact .filled frames value rest pc count running values
    · contradiction
  | getConsumerValue i =>
    simp only [step] at taken
    split at taken
    · rename_i pc
      split at taken
      · contradiction
      · rename_i q got
        cases taken
        rcases getConsumerValue_cases got with ⟨stopped,_,rfl⟩ | ⟨_,_,_,_,wrong,_⟩
        · exact .finished i pc stopped
        · cases wrong
      · rename_i value q got
        cases taken
        rcases getConsumerValue_cases got with ⟨_,wrong,_⟩ | ⟨running,_,rest,values,same,rfl⟩
        · cases wrong
        · cases same
          exact .delivered i value rest pc running values
    · contradiction
  | addConsumerValue =>
    simp only [step] at taken
    split at taken <;> cases taken
    exact .added _ ‹_›
  | endOfVideo =>
    simp only [step] at taken
    split at taken <;> cases taken
    exact .ended ‹_›
  | producerThrow =>
    simp only [step] at taken
    split at taken <;> cases taken
    · exact .producerThrew ‹_›
    · exact .producerLost _ ‹_›
  | producerShutdown =>
    simp only [step] at taken
    split at taken <;> cases taken
    · exact .producerStopped _ ‹_›
    · exact .producerExited _ ‹_›
  | addProducerValue i =>
    simp only [step] at taken
    split at taken <;> cases taken
    exact .returned i _ ‹_›
  | consumerThrow i =>
    simp only [step] at taken
    split at taken <;> cases taken
    · exact .consumerThrew i ‹_›
    · exact .consumerLost i _ ‹_›
  | consumerShutdown i =>
    simp only [step] at taken
    split at taken <;> cases taken
    · exact .consumerStopped i _ ‹_›
    · exact .consumerExited i _ ‹_›
  | signalShutdown j =>
    simp only [step] at taken
    split at taken <;> cases taken
    · exact .signalStopped j ‹_›
    · exact .signalFinished j ‹_›

/-! ## The pipeline uses the queue as `Clients` do -/

theorem clients_setProducer (s : Pipeline κ γ) (q : ValueQueue) (frames : Nat) (pc : ProducerPc)
    (added : List Buffer) :
    clients { s with queue := q, frames := frames, producer := pc, added := added } =
      { s.clients with
        queue := q
        hands := Function.update s.hands .producer (producerHeld pc)
        closing := Function.update s.closing .producer (producerClosing pc)
        added := added } := by
  simp only [clients,Clients.mk.injEq,true_and,and_true]
  constructor <;> funext t <;> cases t <;> simp [hands,closing]

theorem clients_setConsumer (s : Pipeline κ γ) (q : ValueQueue) (i : κ) (pc : ConsumerPc)
    (delivered : List (Thread κ γ × Buffer)) :
    clients { s with queue := q, consumer := s.setConsumer i pc, delivered := delivered } =
      { s.clients with
        queue := q
        hands := Function.update s.hands (.consumer i) (consumerHeld pc)
        closing := Function.update s.closing (.consumer i) (consumerClosing pc)
        delivered := delivered } := by
  simp only [clients,Clients.mk.injEq,true_and,and_true]
  constructor <;> funext t <;> cases t with
  | consumer k => by_cases same : k = i <;> simp [hands,closing,setConsumer,same]
  | _ => simp [hands,closing]

theorem clients_setSignal (s : Pipeline κ γ) (q : ValueQueue) (j : γ) (pc : SignalPc) :
    clients { s with queue := q, signal := s.setSignal j pc } =
      { s.clients with
        queue := q
        closing := Function.update s.closing (.signal j) (signalClosing pc) } := by
  simp only [clients,Clients.mk.injEq,true_and,and_true]
  constructor <;> funext t <;> cases t with
  | signal k => by_cases same : k = j <;> simp [hands,closing,setSignal,same]
  | _ => simp [hands,closing]

/-- Program points with the same buffers look the same from the queue. -/
theorem clients_keepProducer (s : Pipeline κ γ) (pc : ProducerPc)
    (held : producerHeld pc = producerHeld s.producer)
    (closed : producerClosing pc = producerClosing s.producer) :
    clients { s with producer := pc } = s.clients := by
  have changed := clients_setProducer s s.queue s.frames pc s.added
  rw [changed,held,closed]
  simp [clients,hands,closing]

theorem clients_keepConsumer (s : Pipeline κ γ) (i : κ) (pc : ConsumerPc)
    (held : consumerHeld pc = consumerHeld (s.consumer i))
    (closed : consumerClosing pc = consumerClosing (s.consumer i)) :
    clients { s with consumer := s.setConsumer i pc } = s.clients := by
  have changed := clients_setConsumer s s.queue i pc s.delivered
  rw [changed,held,closed]
  simp [clients,hands,closing]

/-- A step of the pipeline is one step of a client of the queue, or none of them. -/
theorem step_clients {s t : Pipeline κ γ} {a : Action κ γ} (taken : step s a = some t) :
    Reachable Clients.step s.clients t.clients := by
  have producerHands : s.hands .producer = producerHeld s.producer := rfl
  have producerClose : s.closing .producer = producerClosing s.producer := rfl
  have consumerHands i : s.hands (.consumer i) = consumerHeld (s.consumer i) := rfl
  have consumerClose i : s.closing (.consumer i) = consumerClosing (s.consumer i) := rfl
  have signalClose j : s.closing (.signal j) = signalClosing (s.signal j) := rfl
  cases step_stepped taken with
  | closed n pc count stopped =>
    apply ReachableUnder.extend .start (a := .getProducerValue .producer)
    rw [clients_setProducer s s.queue n (.closing []) s.added]
    simp [Clients.step,getProducerValue,producerReady,producerHands,producerClose,pc,stopped]
  | filled n value rest pc count running values =>
    apply ReachableUnder.extend .start (a := .getProducerValue .producer)
    rw [clients_setProducer s _ n (.filling value) s.added]
    simp [Clients.step,Clients.take,getProducerValue,producerReady,producerHands,producerClose,pc,
      running,values]
  | added value pc =>
    apply ReachableUnder.extend .start (a := .addConsumerValue .producer value)
    rw [clients_setProducer s _ s.frames .decoding]
    simp [Clients.step,Clients.release,producerHands,producerClose,pc]
  | ended pc | producerThrew pc =>
    rw [clients_keepProducer s (.closing []) (by simp [pc]) (by simp [pc])]
    exact .start
  | producerLost value pc =>
    rw [clients_keepProducer s (.closing [value]) (by simp [pc]) (by simp [pc])]
    exact .start
  | producerStopped held pc =>
    apply ReachableUnder.extend .start (a := .shutdownProducer .producer)
    rw [clients_setProducer s _ s.frames (.closingConsumers held) s.added]
    simp [Clients.step,producerHands,producerClose,pc]
  | producerExited held pc =>
    apply ReachableUnder.extend .start (a := .shutdownConsumer .producer)
    rw [clients_setProducer s _ s.frames (.exited held) s.added]
    simp [Clients.step,producerHands,producerClose,pc]
  | finished i pc stopped =>
    apply ReachableUnder.extend .start (a := .getConsumerValue (.consumer i))
    rw [clients_setConsumer s s.queue i (.exited []) s.delivered]
    simp [Clients.step,getConsumerValue,consumerReady,consumerHands,consumerClose,pc,stopped]
  | delivered i value rest pc running values =>
    apply ReachableUnder.extend .start (a := .getConsumerValue (.consumer i))
    rw [clients_setConsumer s _ i (.processing value)]
    simp [Clients.step,Clients.take,getConsumerValue,consumerReady,consumerHands,consumerClose,pc,
      running,values]
  | returned i value pc =>
    apply ReachableUnder.extend .start (a := .addProducerValue (.consumer i) value)
    rw [clients_setConsumer s _ i .waiting s.delivered]
    simp [Clients.step,Clients.release,consumerHands,consumerClose,pc]
  | consumerThrew i pc =>
    rw [clients_keepConsumer s i (.closing []) (by simp [pc]) (by simp [pc])]
    exact .start
  | consumerLost i value pc =>
    rw [clients_keepConsumer s i (.closing [value]) (by simp [pc]) (by simp [pc])]
    exact .start
  | consumerStopped i held pc =>
    apply ReachableUnder.extend .start (a := .shutdownProducer (.consumer i))
    rw [clients_setConsumer s _ i (.closingConsumers held) s.delivered]
    simp [Clients.step,consumerHands,consumerClose,pc]
  | consumerExited i held pc =>
    apply ReachableUnder.extend .start (a := .shutdownConsumer (.consumer i))
    rw [clients_setConsumer s _ i (.exited held) s.delivered]
    simp [Clients.step,consumerHands,consumerClose,pc]
  | signalStopped j pc =>
    apply ReachableUnder.extend .start (a := .shutdownProducer (.signal j))
    rw [clients_setSignal s _ j .closingConsumers]
    simp [Clients.step,signalClose,pc]
  | signalFinished j pc =>
    apply ReachableUnder.extend .start (a := .shutdownConsumer (.signal j))
    rw [clients_setSignal s _ j .idle]
    simp [Clients.step,signalClose,pc]

theorem reachable_clients {maxObjects frames : Nat} {s : Pipeline κ γ}
    (reached : Reachable step (start maxObjects frames) s) :
    Reachable Clients.step (Clients.start maxObjects) s.clients := by
  have initial : (start maxObjects frames : Pipeline κ γ).clients = Clients.start maxObjects := by
    simp only [clients,start,Clients.start,Clients.mk.injEq,true_and,and_true]
    constructor <;> funext t <;> cases t <;> rfl
  rw [← initial]
  exact reached.simulate clients fun _ _ _ taken => step_clients taken

end Pipeline

end OcrSuite
