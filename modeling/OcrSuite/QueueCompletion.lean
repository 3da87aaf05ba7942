import Mathlib.Data.List.Perm.Basic
import OcrSuite.ValueQueue

/-! A producer that sends a finite sequence of items through the queue and shuts it down
after its last one, and consumers that read and return every buffer they get. The items
live in the buffers, so what a consumer reads depends on nobody writing meanwhile. -/
namespace OcrSuite.Completion

open ValueQueue Ownership Transition

inductive ProducerPc where
  | getting
  | writing (value : Buffer)
  | adding (value : Buffer)
  | closing
  | closingConsumers
  | done
  deriving DecidableEq

inductive ConsumerPc where
  | getting
  | reading (value : Buffer)
  | returning (value : Buffer)
  | done
  deriving DecidableEq

/-- `handed` records the content of each buffer when `get_consumer_value` returns it,
`obtained` the items when the consumers read them. -/
structure State (κ ι : Type) where
  queue : ValueQueue
  memory : Buffer → ι
  remaining : List ι
  producer : ProducerPc
  consumer : κ → ConsumerPc
  handed : List (κ × ι)
  obtained : List (κ × ι)

inductive Action (κ : Type) where
  | getProducerValue
  | write
  | addConsumerValue
  | shutdown
  | getConsumerValue (i : κ)
  | read (i : κ)
  | addProducerValue (i : κ)

variable {κ ι : Type}

/-- After its last item the producer calls `shutdown`, before that it fetches a buffer. -/
def resume (remaining : List ι) : ProducerPc :=
  if remaining.isEmpty then .closing else .getting

def start (maxObjects : Nat) (memory : Buffer → ι) (items : List ι) : State κ ι :=
  ⟨.new maxObjects,memory,items,resume items,fun _ => .getting,[],[]⟩

variable [DecidableEq κ]

def setConsumer (s : State κ ι) (i : κ) (pc : ConsumerPc) : κ → ConsumerPc :=
  Function.update s.consumer i pc

def step (s : State κ ι) : Action κ → Option (State κ ι)
  | .getProducerValue =>
    match s.producer with
    | .getting =>
      match s.queue.getProducerValue with
      | none => none
      | some (none,q) => some { s with queue := q, producer := .done }
      | some (some value,q) => some { s with queue := q, producer := .writing value }
    | _ => none
  | .write =>
    match s.producer,s.remaining with
    | .writing value,item :: rest => some { s with
        memory := Function.update s.memory value item
        remaining := rest
        producer := .adding value }
    | _,_ => none
  | .addConsumerValue =>
    match s.producer with
    | .adding value => some { s with
        queue := s.queue.addConsumerValue value
        producer := resume s.remaining }
    | _ => none
  | .shutdown =>
    match s.producer with
    | .closing => some { s with
        queue := s.queue.shutdownProducer
        producer := .closingConsumers }
    | .closingConsumers => some { s with
        queue := s.queue.shutdownConsumer
        producer := .getting }
    | _ => none
  | .getConsumerValue i =>
    match s.consumer i with
    | .getting =>
      match s.queue.getConsumerValue with
      | none => none
      | some (none,q) => some { s with queue := q, consumer := setConsumer s i .done }
      | some (some value,q) => some { s with
          queue := q
          consumer := setConsumer s i (.reading value)
          handed := s.handed ++ [(i,s.memory value)] }
    | _ => none
  | .read i =>
    match s.consumer i with
    | .reading value => some { s with
        consumer := setConsumer s i (.returning value)
        obtained := s.obtained ++ [(i,s.memory value)] }
    | _ => none
  | .addProducerValue i =>
    match s.consumer i with
    | .returning value => some { s with
        queue := s.queue.addProducerValue value
        consumer := setConsumer s i .getting }
    | _ => none

inductive Stepped (s : State κ ι) : Action κ → State κ ι → Prop where
  | closed : s.producer = .getting → s.queue.stopProducer = true →
      Stepped s .getProducerValue { s with producer := .done }
  | fetched (value : Buffer) (rest : List Buffer) : s.producer = .getting →
      s.queue.stopProducer = false → s.queue.producerValues = value :: rest →
      Stepped s .getProducerValue { s with
        queue := { s.queue with producerValues := rest }, producer := .writing value }
  | wrote (value : Buffer) (item : ι) (rest : List ι) : s.producer = .writing value →
      s.remaining = item :: rest →
      Stepped s .write { s with
        memory := Function.update s.memory value item, remaining := rest, producer := .adding value }
  | added (value : Buffer) : s.producer = .adding value →
      Stepped s .addConsumerValue { s with
        queue := s.queue.addConsumerValue value, producer := resume s.remaining }
  | stopped : s.producer = .closing →
      Stepped s .shutdown { s with
        queue := s.queue.shutdownProducer, producer := .closingConsumers }
  | drained : s.producer = .closingConsumers →
      Stepped s .shutdown { s with queue := s.queue.shutdownConsumer, producer := .getting }
  | finished (i : κ) : s.consumer i = .getting → s.queue.stopConsumer = true →
      Stepped s (.getConsumerValue i) { s with consumer := setConsumer s i .done }
  | delivered (i : κ) (value : Buffer) (rest : List Buffer) : s.consumer i = .getting →
      s.queue.stopConsumer = false → s.queue.consumerValues = value :: rest →
      Stepped s (.getConsumerValue i) { s with
        queue := { s.queue with consumerValues := rest }
        consumer := setConsumer s i (.reading value)
        handed := s.handed ++ [(i,s.memory value)] }
  | read (i : κ) (value : Buffer) : s.consumer i = .reading value →
      Stepped s (.read i) { s with
        consumer := setConsumer s i (.returning value)
        obtained := s.obtained ++ [(i,s.memory value)] }
  | returned (i : κ) (value : Buffer) : s.consumer i = .returning value →
      Stepped s (.addProducerValue i) { s with
        queue := s.queue.addProducerValue value, consumer := setConsumer s i .getting }

theorem step_stepped {s t : State κ ι} {a : Action κ} (taken : step s a = some t) : Stepped s a t := by
  cases a with
  | getProducerValue =>
    simp only [step] at taken
    split at taken
    · rename_i pc
      split at taken
      · contradiction
      · rename_i q got
        cases taken
        rcases getProducerValue_cases got with ⟨stopped,_,rfl⟩ | ⟨_,_,_,_,wrong,_⟩
        · exact .closed pc stopped
        · cases wrong
      · rename_i value q got
        cases taken
        rcases getProducerValue_cases got with ⟨_,wrong,_⟩ | ⟨running,_,rest,values,same,rfl⟩
        · cases wrong
        · cases same
          exact .fetched value rest pc running values
    · contradiction
  | getConsumerValue i =>
    simp only [step] at taken
    split at taken
    · rename_i pc
      split at taken
      · contradiction
      · rename_i q got
        cases taken
        rcases getConsumerValue_cases got with ⟨stopped,_,rfl⟩ | ⟨_,_,_,_,wrong,_⟩
        · exact .finished i pc stopped
        · cases wrong
      · rename_i value q got
        cases taken
        rcases getConsumerValue_cases got with ⟨_,wrong,_⟩ | ⟨running,_,rest,values,same,rfl⟩
        · cases wrong
        · cases same
          exact .delivered i value rest pc running values
    · contradiction
  | write =>
    simp only [step] at taken
    split at taken <;> cases taken
    exact .wrote _ _ _ ‹_› ‹_›
  | addConsumerValue =>
    simp only [step] at taken
    split at taken <;> cases taken
    exact .added _ ‹_›
  | shutdown =>
    simp only [step] at taken
    split at taken <;> cases taken
    · exact .stopped ‹_›
    · exact .drained ‹_›
  | read i =>
    simp only [step] at taken
    split at taken <;> cases taken
    exact .read i _ ‹_›
  | addProducerValue i =>
    simp only [step] at taken
    split at taken <;> cases taken
    exact .returned i _ ‹_›

/-! ## The threads are clients of the queue -/

@[simp] def producerHeld : ProducerPc → List Buffer
  | .writing value | .adding value => [value]
  | _ => []

@[simp] def consumerHeld : ConsumerPc → List Buffer
  | .reading value | .returning value => [value]
  | _ => []

@[simp] def producerClosing : ProducerPc → Bool
  | .closingConsumers => true
  | _ => false

/-- The buffers of each thread at the given program points; thread `none` is the producer. -/
@[simp] def hands (p : ProducerPc) (c : κ → ConsumerPc) : Option κ → List Buffer
  | none => producerHeld p
  | some i => consumerHeld (c i)

@[simp] def closing (κ : Type) (p : ProducerPc) : Option κ → Bool
  | none => producerClosing p
  | some _ => false

structure Matches (s : State κ ι) (c : Clients (Option κ)) : Prop where
  queue : c.queue = s.queue
  held : c.hands = hands s.producer s.consumer
  closed : c.closing = closing κ s.producer

theorem hands_producer (p : ProducerPc) (c : κ → ConsumerPc) (pc : ProducerPc) :
    hands pc c = Function.update (hands p c) none (producerHeld pc) := by
  funext thread
  cases thread <;> simp

theorem hands_consumer (p : ProducerPc) (c : κ → ConsumerPc) (i : κ) (pc : ConsumerPc) :
    hands p (Function.update c i pc) = Function.update (hands p c) (some i) (consumerHeld pc) := by
  funext thread
  cases thread with
  | none => simp
  | some k => by_cases here : k = i <;> simp [here]

theorem closing_producer (p pc : ProducerPc) :
    closing κ pc = Function.update (closing κ p) none (producerClosing pc) := by
  funext thread
  cases thread <;> simp

/-- A step that only moves a thread between program points with the same buffers. -/
theorem Matches.keep {s t : State κ ι} {c : Clients (Option κ)} (matched : Matches s c)
    (queue : t.queue = s.queue) (held : hands t.producer t.consumer = hands s.producer s.consumer)
    (closed : closing κ t.producer = closing κ s.producer) :
    ∃ c', Reachable Clients.step c c' ∧ Matches t c' :=
  ⟨c,.start,matched.queue.trans queue.symm,matched.held.trans held.symm,
    matched.closed.trans closed.symm⟩

/-- A step that is a critical section of the queue. -/
theorem Matches.extend {t : State κ ι} {c : Clients (Option κ)} (a : Clients.Action (Option κ))
    (added : List Buffer) (delivered : List (Option κ × Buffer))
    (taken : c.step a =
      some ⟨t.queue,hands t.producer t.consumer,closing κ t.producer,added,delivered⟩) :
    ∃ c', Reachable Clients.step c c' ∧ Matches t c' :=
  ⟨_,ReachableUnder.extend .start taken,rfl,rfl,rfl⟩

theorem step_matches {s t : State κ ι} {a : Action κ} {c : Clients (Option κ)}
    (matched : Matches s c) (taken : step s a = some t) :
    ∃ c', Reachable Clients.step c c' ∧ Matches t c' := by
  have queue := matched.queue
  have held := matched.held
  have closed := matched.closed
  cases step_stepped taken with
  | closed pc stopped =>
    exact matched.keep rfl (by simp [hands_producer s.producer _ .done,pc])
      (by simp [closing_producer s.producer .done,pc])
  | fetched value rest pc running values =>
    apply Matches.extend (.getProducerValue none) c.added c.delivered
    simp [Clients.step,Clients.take,getProducerValue,producerReady,queue,held,closed,running,values,
      hands_producer s.producer s.consumer (.writing value),closing_producer s.producer (.writing value),pc]
  | wrote value item rest pc items =>
    exact matched.keep rfl (by simp [hands_producer s.producer _ (.adding value),pc])
      (by simp [closing_producer s.producer (.adding value),pc])
  | added value pc =>
    apply Matches.extend (.addConsumerValue none value) (c.added ++ [value]) c.delivered
    rw [hands_producer s.producer,closing_producer s.producer]
    cases items : s.remaining <;> simp [Clients.step,Clients.release,queue,held,closed,pc,resume]
  | stopped pc =>
    apply Matches.extend (.shutdownProducer none) c.added c.delivered
    rw [hands_producer s.producer,closing_producer s.producer]
    simp [Clients.step,queue,held,closed,pc]
  | drained pc =>
    apply Matches.extend (.shutdownConsumer none) c.added c.delivered
    rw [hands_producer s.producer,closing_producer s.producer]
    simp [Clients.step,queue,held,closed,pc]
  | finished i pc stopped =>
    exact matched.keep rfl (by simp [setConsumer,hands_consumer,pc]) rfl
  | delivered i value rest pc running values =>
    apply Matches.extend (.getConsumerValue (some i)) c.added (c.delivered ++ [(some i,value)])
    simp [Clients.step,Clients.take,getConsumerValue,consumerReady,queue,held,closed,running,values,
      setConsumer,hands_consumer,pc]
  | read i value pc =>
    exact matched.keep rfl (by simp [setConsumer,hands_consumer,pc]) rfl
  | returned i value pc =>
    apply Matches.extend (.addProducerValue (some i) value) c.added c.delivered
    simp [Clients.step,Clients.release,queue,held,closed,setConsumer,hands_consumer,pc]

theorem reachable_matches {maxObjects : Nat} {memory : Buffer → ι} {items : List ι} {s : State κ ι}
    (reached : Reachable step (start maxObjects memory items) s) :
    ∃ c, Reachable Clients.step (Clients.start maxObjects) c ∧ Matches s c := by
  refine reached.related ?_ fun _ _ _ _ matched taken => step_matches matched taken
  refine ⟨rfl,?_,?_⟩ <;> funext thread <;> cases thread <;>
    cases items <;> simp [Clients.start,start,resume]

/-- The places of the buffers, read off the program points. -/
theorem reachable_exclusive {maxObjects : Nat} {memory : Buffer → ι} {items : List ι} {s : State κ ι}
    (reached : Reachable step (start maxObjects memory items) s) :
    ∃ c : Clients (Option κ), Matches s c ∧ Exclusive c.contents (List.range maxObjects) := by
  obtain ⟨c,reached,matched⟩ := reachable_matches reached
  exact ⟨c,matched,Clients.reachable_exclusive reached⟩

/-! ## What has been sent, handed out and read -/

/-- The item the producer has written and not yet added. -/
@[simp] def current (memory : Buffer → ι) : ProducerPc → List ι
  | .adding value => [memory value]
  | _ => []

/-- The item a consumer has been handed and not yet read. -/
@[simp] def unread (memory : Buffer → ι) : ConsumerPc → List ι
  | .reading value => [memory value]
  | _ => []

/-- The part of a log that belongs to one consumer. -/
def own (log : List (κ × ι)) (i : κ) : List ι := (log.filter fun entry => entry.1 = i).map Prod.snd

@[simp] theorem own_append_same (log : List (κ × ι)) (i : κ) (item : ι) :
    own (log ++ [(i,item)]) i = own log i ++ [item] := by
  simp [own,List.filter_append]

theorem own_append_other (log : List (κ × ι)) {i k : κ} (other : k ≠ i) (item : ι) :
    own (log ++ [(i,item)]) k = own log k := by
  simp [own,List.filter_append,Ne.symm other]

structure Invariant (items : List ι) (s : State κ ι) : Prop where
  sent : items = s.handed.map Prod.snd ++ s.queue.consumerValues.map s.memory ++
    current s.memory s.producer ++ s.remaining
  taken : ∀ i, own s.handed i = own s.obtained i ++ unread s.memory (s.consumer i)
  last : s.producer = .closing → s.remaining = []
  stopped : s.queue.stopProducer = true → s.remaining = [] ∧
    (s.producer = .closingConsumers ∨ s.producer = .getting ∨ s.producer = .done)
  closing : s.producer = .closingConsumers ∨ s.producer = .done → s.queue.stopProducer = true
  closed : s.queue.stopConsumer = true → s.queue.consumerValues = [] ∧ s.queue.stopProducer = true
  finished : ∀ i, s.consumer i = .done → s.queue.stopConsumer = true

theorem start_invariant (maxObjects : Nat) (memory : Buffer → ι) (items : List ι) :
    Invariant items (start maxObjects memory items : State κ ι) := by
  cases items <;> constructor <;> simp [start,ValueQueue.new,own,resume]

theorem resume_eq (remaining : List ι) :
    (resume remaining = .closing ∧ remaining = []) ∨ resume remaining = .getting := by
  cases remaining with
  | nil => exact .inl ⟨rfl,rfl⟩
  | cons item rest => exact .inr rfl

/-- The buffer the producer writes is in no list and in no consumer's hands. -/
theorem writing_apart {maxObjects : Nat} {memory : Buffer → ι} {items : List ι} {s : State κ ι}
    (reached : Reachable step (start maxObjects memory items) s) {value : Buffer}
    (pc : s.producer = .writing value) :
    value ∉ s.queue.consumerValues ∧ ∀ i, value ∉ consumerHeld (s.consumer i) := by
  obtain ⟨c,matched,valid⟩ := reachable_exclusive reached
  have here : value ∈ c.contents (.hands none) := by
    simp [Clients.contents,matched.held,pc]
  constructor
  · intro queued
    have there : value ∈ c.contents .consumerValues := by
      simpa [Clients.contents,matched.queue] using queued
    cases valid.unique here there
  · intro i held
    have there : value ∈ c.contents (.hands (some i)) := by
      simpa [Clients.contents,matched.held] using held
    cases valid.unique here there

omit [DecidableEq κ] in
/-- One consumer moved; the others keep what they have been handed and read. -/
theorem received_setConsumer [DecidableEq κ] {s : State κ ι} {i : κ} {pc : ConsumerPc}
    {handed obtained : List (κ × ι)}
    (before : ∀ k, own s.handed k = own s.obtained k ++ unread s.memory (s.consumer k))
    (here : own handed i = own obtained i ++ unread s.memory pc)
    (others : ∀ k, k ≠ i → own handed k = own s.handed k ∧ own obtained k = own s.obtained k) :
    ∀ k, own handed k = own obtained k ++ unread s.memory (setConsumer s i pc k) := by
  intro k
  by_cases same : k = i
  · subst k
    simpa [setConsumer] using here
  · rw [(others k same).1,(others k same).2,before k]
    simp [setConsumer,same]

/-- One consumer moved to a program point other than the last. -/
theorem finished_setConsumer {s : State κ ι} {i : κ} {pc : ConsumerPc} {P : Prop}
    (before : ∀ k, s.consumer k = .done → P) (running : pc ≠ .done) :
    ∀ k, setConsumer s i pc k = .done → P := by
  intro k ended
  by_cases same : k = i
  · subst k
    exact absurd (by simpa [setConsumer] using ended) running
  · exact before k (by simpa [setConsumer,same] using ended)

/-- The item that is being written is seen neither in the queue nor by a consumer. -/
theorem write_unseen {maxObjects : Nat} {memory : Buffer → ι} {items : List ι} {s : State κ ι}
    (reached : Reachable step (start maxObjects memory items) s) {value : Buffer}
    (pc : s.producer = .writing value) (item : ι) :
    s.queue.consumerValues.map (Function.update s.memory value item) =
      s.queue.consumerValues.map s.memory ∧
    ∀ i, unread (Function.update s.memory value item) (s.consumer i) =
      unread s.memory (s.consumer i) := by
  obtain ⟨notQueued,notHeld⟩ := writing_apart reached pc
  constructor
  · apply List.map_congr_left
    intro b queued
    have different : b ≠ value := fun same => notQueued (same ▸ queued)
    simp [different]
  · intro i
    cases state : s.consumer i with
    | reading b =>
      have different : b ≠ value := fun same => notHeld i (by simp [state,same])
      simp [different]
    | _ => simp

/-- A producer that holds a buffer has not called `shutdown`. -/
theorem Invariant.running {items : List ι} {s : State κ ι} (valid : Invariant items s)
    (busy : producerHeld s.producer ≠ []) : s.queue.stopProducer = false := by
  cases flag : s.queue.stopProducer with
  | false => rfl
  | true =>
    rcases (valid.stopped flag).2 with pc | pc | pc <;> simp [pc] at busy

/-- The consumers' side is closed after the producer's only. -/
theorem Invariant.opened {items : List ι} {s : State κ ι} (valid : Invariant items s)
    (flag : s.queue.stopProducer = false) : s.queue.stopConsumer = false := by
  cases early : s.queue.stopConsumer with
  | false => rfl
  | true => simp [(valid.closed early).2] at flag

theorem step_invariant {maxObjects : Nat} {memory : Buffer → ι} {items : List ι} {s t : State κ ι}
    {a : Action κ} (reached : Reachable step (start maxObjects memory items) s)
    (valid : Invariant items s) (taken : step s a = some t) : Invariant items t := by
  have running := valid.running
  have opened := valid.opened
  obtain ⟨sent,received,last,stopped,closing,closed,finished⟩ := valid
  cases step_stepped taken with
  | closed pc flag =>
    refine ⟨by simpa [pc] using sent,received,by simp,?_,fun _ => flag,closed,finished⟩
    exact fun _ => ⟨(stopped flag).1,by simp⟩
  | fetched value rest pc flag values =>
    exact ⟨by simpa [pc] using sent,received,by simp,by simp [flag],by simp,
      by simp [opened flag],finished⟩
  | wrote value item rest pc more =>
    have flag := running (by simp [pc])
    obtain ⟨queued,unseen⟩ := write_unseen reached pc item
    refine ⟨?_,fun i => ?_,by simp,by simp [flag],by simp,closed,finished⟩
    · simpa [pc,queued,more] using sent
    · exact (received i).trans (by rw [unseen i])
  | added value pc =>
    have flag := running (by simp [pc])
    rcases resume_eq s.remaining with ⟨pause,noMore⟩ | more
    · refine ⟨?_,received,fun _ => noMore,by simp [addConsumerValue,flag],by simp [pause],
        by simp [addConsumerValue,opened flag],finished⟩
      simpa [pc,pause,addConsumerValue] using sent
    · refine ⟨?_,received,by simp [more],by simp [addConsumerValue,flag],by simp [more],
        by simp [addConsumerValue,opened flag],finished⟩
      simpa [pc,more,addConsumerValue] using sent
  | stopped pc =>
    refine ⟨by simpa [pc,shutdownProducer] using sent,received,by simp,
      fun _ => ⟨last pc,by simp⟩,fun _ => rfl,?_,finished⟩
    exact fun early => ⟨(closed early).1,rfl⟩
  | drained pc =>
    have flag := closing (.inl pc)
    refine ⟨by simpa [pc] using sent,received,by simp,fun _ => ⟨(stopped flag).1,by simp⟩,
      by simp,?_,fun i ended => by simp [finished i ended]⟩
    simp only [shutdownConsumer_stopConsumer,Bool.or_eq_true,List.isEmpty_iff,
      shutdownConsumer_consumerValues,shutdownConsumer_stopProducer]
    rintro (early | now)
    · exact closed early
    · exact ⟨now,flag⟩
  | finished i pc flag =>
    refine ⟨sent,?_,last,stopped,closing,closed,fun _ _ => flag⟩
    exact received_setConsumer received (by simpa [pc] using received i) (by simp)
  | delivered i value rest pc flag values =>
    refine ⟨by simpa [values] using sent,?_,last,stopped,closing,by simp [flag],
      finished_setConsumer finished (by simp)⟩
    have before : own s.handed i = own s.obtained i := by simpa [pc] using received i
    exact received_setConsumer received (by simp [before])
      fun k other => ⟨own_append_other _ other _,rfl⟩
  | read i value pc =>
    refine ⟨sent,?_,last,stopped,closing,closed,finished_setConsumer finished (by simp)⟩
    have before : own s.handed i = own s.obtained i ++ [s.memory value] := by
      simpa [pc] using received i
    exact received_setConsumer received (by simp [before])
      fun k other => ⟨rfl,own_append_other _ other _⟩
  | returned i value pc =>
    refine ⟨by simpa using sent,?_,last,by simpa using stopped,by simpa using closing,?_,?_⟩
    · exact received_setConsumer received (by simpa [pc] using received i) (by simp)
    · simp only [addProducerValue_stopConsumer,addProducerValue_consumerValues,
        addProducerValue_stopProducer,Bool.or_eq_true,Bool.and_eq_true,List.isEmpty_iff]
      rintro (early | now)
      · exact closed early
      · exact now
    · exact finished_setConsumer (fun k ended => by simp [finished k ended]) (by simp)

theorem reachable_invariant {maxObjects : Nat} {memory : Buffer → ι} {items : List ι} {s : State κ ι}
    (reached : Reachable step (start maxObjects memory items) s) : Invariant items s :=
  reached.invariant (start_invariant maxObjects memory items)
    fun _ _ _ earlier valid _ taken => step_invariant earlier valid taken

/-- Logs with the same part for every consumer are permutations of each other. -/
theorem perm_of_own {first second : List (κ × ι)} (same : ∀ i, own first i = own second i) :
    first.Perm second := by
  classical
  apply List.perm_iff_count.mpr
  rintro ⟨i,item⟩
  have count (log : List (κ × ι)) : log.count (i,item) = (own log i).count item := by
    induction log with
    | nil => rfl
    | cons entry rest ih =>
      obtain ⟨k,other⟩ := entry
      by_cases here : k = i
      · subst k
        simpa [own,List.count_cons] using ih
      · simpa [own,List.count_cons,here] using ih
  rw [count,count,same i]

/-- All threads have received the null option. -/
def Finished (s : State κ ι) : Prop := s.producer = .done ∧ ∀ i, s.consumer i = .done

/-- With a consumer to see the queue closed, everything has been handed out in order. -/
theorem finished_handed {maxObjects : Nat} {memory : Buffer → ι} {items : List ι} {s : State κ ι}
    (reached : Reachable step (start maxObjects memory items) s) (finished : Finished s) (i : κ) :
    s.handed.map Prod.snd = items ∧ s.queue.consumerValues = [] ∧
    ∀ k, own s.handed k = own s.obtained k := by
  obtain ⟨sent,received,_,stopped,closing,closed,ended⟩ := reachable_invariant reached
  obtain ⟨producer,consumer⟩ := finished
  have empty := (closed (ended i (consumer i))).1
  have nothingLeft := (stopped (closing (.inr producer))).1
  refine ⟨by simp [sent,empty,producer,nothingLeft],empty,fun k => ?_⟩
  simpa [consumer k] using received k

/-- A consumer that is alone reads the items in the order of their production. -/
theorem finished_alone {maxObjects : Nat} {memory : Buffer → ι} {items : List ι}
    {s : State (Fin 1) ι} (reached : Reachable step (start maxObjects memory items) s)
    (finished : Finished s) : s.obtained.map Prod.snd = items := by
  obtain ⟨order,_,same⟩ := finished_handed reached finished 0
  have all (log : List (Fin 1 × ι)) : own log 0 = log.map Prod.snd := by
    simp [own,Fin.fin_one_eq_zero]
  rw [← order,← all,← all,same]

/-- With one consumer that takes each item as soon as it is there, all threads finish. -/
theorem exists_finished_from (items : List ι) (s : State (Fin 1) ι) (rest : s.remaining = items)
    (producer : s.producer = resume items) (consumer : s.consumer 0 = .getting)
    (values : s.queue.producerValues ≠ []) (empty : s.queue.consumerValues = [])
    (running : s.queue.stopProducer = false) (opened : s.queue.stopConsumer = false) :
    ∃ t, Reachable step s t ∧ Finished t := by
  induction items generalizing s with
  | nil =>
    let closed : State (Fin 1) ι := { s with
      queue := { s.queue with stopProducer := true, stopConsumer := true }
      producer := .done
      consumer := setConsumer s 0 .done }
    have ran : run step s [.shutdown,.shutdown,.getProducerValue,.getConsumerValue 0] =
        some closed := by
      simp [run,step,producer,resume,shutdownProducer,shutdownConsumer,empty,getProducerValue,
        producerReady,consumer,getConsumerValue,consumerReady,setConsumer,closed]
    have alone : closed.consumer 0 = .done := by simp [closed,setConsumer]
    exact ⟨closed,reachable_of_run ran,rfl,fun i => Fin.fin_one_eq_zero i ▸ alone⟩
  | cons item items ih =>
    obtain ⟨value,others,there⟩ := List.exists_cons_of_ne_nil values
    let next : State (Fin 1) ι := {
      queue := { s.queue with producerValues := others ++ [value], consumerValues := [] }
      memory := Function.update s.memory value item
      remaining := items
      producer := resume items
      consumer := setConsumer s 0 .getting
      handed := s.handed ++ [(0,item)]
      obtained := s.obtained ++ [(0,item)] }
    have ran : run step s [.getProducerValue,.write,.addConsumerValue,.getConsumerValue 0,.read 0,
        .addProducerValue 0] = some next := by
      simp [run,step,producer,resume,getProducerValue,producerReady,running,there,rest,consumer,
        addConsumerValue,getConsumerValue,consumerReady,opened,empty,setConsumer,addProducerValue,next]
    obtain ⟨t,later,finished⟩ := ih next rfl rfl (by simp [next,setConsumer]) (by simp [next]) rfl
      running opened
    exact ⟨t,(reachable_of_run ran).trans later,finished⟩

/-- Every sequence of items can be sent to its end. -/
theorem exists_finished (maxObjects : Nat) (buffers : 1 ≤ maxObjects) (memory : Buffer → ι)
    (items : List ι) :
    ∃ s : State (Fin 1) ι, Reachable step (start maxObjects memory items) s ∧ Finished s := by
  apply exists_finished_from items <;> simp [start,ValueQueue.new]
  omega

/-- Any number of buffers and of consumers, any items and any interleaving: when all threads
have finished, the items were handed out in the order of their production, the consumers
read exactly them, the list is empty and every buffer is back with the producer. -/
theorem orderly_completion (N K : Nat) (_buffers : 1 ≤ N) (consumers : 1 ≤ K) (memory : Buffer → ι)
    (items : List ι) (s : State (Fin K) ι) (reached : Reachable step (start N memory items) s)
    (finished : Finished s) :
    s.handed.map Prod.snd = items ∧ (s.obtained.map Prod.snd).Perm items ∧
    s.queue.consumerValues = [] ∧ s.queue.producerValues.Perm (List.range N) := by
  obtain ⟨order,empty,same⟩ := finished_handed reached finished ⟨0,consumers⟩
  have read : s.handed.Perm s.obtained := perm_of_own same
  refine ⟨order,order ▸ (read.map Prod.snd).symm,empty,?_⟩
  obtain ⟨producer,consumer⟩ := finished
  obtain ⟨c,matched,valid⟩ := reachable_exclusive reached
  have home := valid.perm_of_empty List.nodup_range .producerValues ?_
  · simpa [Clients.contents,matched.queue] using home
  · intro place elsewhere
    cases place with
    | producerValues => contradiction
    | consumerValues => simpa [Clients.contents,matched.queue] using empty
    | hands thread => cases thread <;> simp [Clients.contents,matched.held,producer,consumer]

/-- One buffer carries two items to one consumer. -/
theorem orderly_completion_witness : ∃ s : State (Fin 1) Nat,
    Reachable step (start 1 (fun _ => 0) [7,8]) s ∧ Finished s ∧ s.handed.map Prod.snd = [7,8] ∧
    (s.obtained.map Prod.snd).Perm [7,8] ∧ s.queue.consumerValues = [] ∧
    s.queue.producerValues.Perm (List.range 1) := by
  let send : List (Action (Fin 1)) := [.getProducerValue,.write,.addConsumerValue]
  let receive : List (Action (Fin 1)) := [.getConsumerValue 0,.read 0,.addProducerValue 0]
  obtain ⟨s,ran,producer,consumer⟩ : ∃ s : State (Fin 1) Nat,
      run step (start 1 (fun _ => 0) [7,8])
        (send ++ receive ++ send ++ [.shutdown] ++ receive ++
          [.shutdown,.getProducerValue,.getConsumerValue 0]) = some s ∧
      s.producer = .done ∧ s.consumer 0 = .done := ⟨_,rfl,rfl,rfl⟩
  have reached := reachable_of_run ran
  have finished : Finished s := ⟨producer,fun i => Fin.fin_one_eq_zero i ▸ consumer⟩
  exact ⟨s,reached,finished,
    orderly_completion 1 1 (by decide) (by decide) (fun _ => 0) [7,8] s reached finished⟩

end OcrSuite.Completion
