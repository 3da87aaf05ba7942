import Mathlib.Logic.Function.Basic
import OcrSuite.Ownership
import OcrSuite.Transition

/-! The bounded frame queue, one definition for each critical section of its operations.
A buffer is the identity of the shared pointer. `none` stands for a thread that stays
blocked in its wait; the two halves of `shutdown` are separate critical sections. -/
namespace OcrSuite

abbrev Buffer := Nat

structure ValueQueue where
  producerValues : List Buffer
  consumerValues : List Buffer
  stopProducer : Bool
  stopConsumer : Bool
  deriving DecidableEq, Repr

namespace ValueQueue

def new (maxObjects : Nat) : ValueQueue := ⟨List.range maxObjects,[],false,false⟩

/-- The predicate the producer waits for. -/
def producerReady (q : ValueQueue) : Bool := !q.producerValues.isEmpty || q.stopProducer

/-- The predicate a consumer waits for. -/
def consumerReady (q : ValueQueue) : Bool := !q.consumerValues.isEmpty || q.stopConsumer

/-- `some (none, _)` is the null option handed out once the queue is closed. -/
def getProducerValue (q : ValueQueue) : Option (Option Buffer × ValueQueue) :=
  if q.producerReady then
    if q.stopProducer then some (none,q)
    else match q.producerValues with
      | [] => none
      | value :: rest => some (some value,{ q with producerValues := rest })
  else none

def getConsumerValue (q : ValueQueue) : Option (Option Buffer × ValueQueue) :=
  if q.consumerReady then
    if q.stopConsumer then some (none,q)
    else match q.consumerValues with
      | [] => none
      | value :: rest => some (some value,{ q with consumerValues := rest })
  else none

def addConsumerValue (q : ValueQueue) (value : Buffer) : ValueQueue :=
  { q with consumerValues := q.consumerValues ++ [value] }

def addProducerValue (q : ValueQueue) (value : Buffer) : ValueQueue :=
  let pushed := { q with producerValues := q.producerValues ++ [value] }
  if pushed.consumerValues.isEmpty && pushed.stopProducer then
    { pushed with stopConsumer := true }
  else pushed

/-- The section of `shutdown` under the producer mutex. -/
def shutdownProducer (q : ValueQueue) : ValueQueue := { q with stopProducer := true }

/-- The section of `shutdown` under the consumer mutex. -/
def shutdownConsumer (q : ValueQueue) : ValueQueue :=
  if q.consumerValues.isEmpty then { q with stopConsumer := true } else q

/-- Everything a producer's call can return, with the state it leaves. -/
theorem getProducerValue_cases (got : getProducerValue q = some (result,next)) :
    (q.stopProducer = true ∧ result = none ∧ next = q) ∨
    (q.stopProducer = false ∧ ∃ value rest, q.producerValues = value :: rest ∧ result = some value ∧
      next = { q with producerValues := rest }) := by
  unfold getProducerValue at got
  cases stopped : q.stopProducer with
  | true =>
    simp [producerReady,stopped] at got
    exact .inl ⟨rfl,got.1.symm,got.2.symm⟩
  | false =>
    cases values : q.producerValues with
    | nil => simp [producerReady,stopped,values] at got
    | cons value rest =>
      simp [producerReady,stopped,values] at got
      exact .inr ⟨rfl,value,rest,rfl,got.1.symm,got.2.symm⟩

theorem getConsumerValue_cases (got : getConsumerValue q = some (result,next)) :
    (q.stopConsumer = true ∧ result = none ∧ next = q) ∨
    (q.stopConsumer = false ∧ ∃ value rest, q.consumerValues = value :: rest ∧ result = some value ∧
      next = { q with consumerValues := rest }) := by
  unfold getConsumerValue at got
  cases stopped : q.stopConsumer with
  | true =>
    simp [consumerReady,stopped] at got
    exact .inl ⟨rfl,got.1.symm,got.2.symm⟩
  | false =>
    cases values : q.consumerValues with
    | nil => simp [consumerReady,stopped,values] at got
    | cons value rest =>
      simp [consumerReady,stopped,values] at got
      exact .inr ⟨rfl,value,rest,rfl,got.1.symm,got.2.symm⟩

theorem getProducerValue_isSome (q : ValueQueue) :
    q.getProducerValue.isSome = q.producerReady := by
  unfold getProducerValue
  cases stopped : q.stopProducer <;> cases values : q.producerValues <;>
    simp [producerReady,stopped,values]

theorem getConsumerValue_isSome (q : ValueQueue) :
    q.getConsumerValue.isSome = q.consumerReady := by
  unfold getConsumerValue
  cases stopped : q.stopConsumer <;> cases values : q.consumerValues <;>
    simp [consumerReady,stopped,values]

theorem getConsumerValue_head (q : ValueQueue) (running : q.stopConsumer = false)
    (values : q.consumerValues = value :: rest) :
    q.getConsumerValue = some (some value,{ q with consumerValues := rest }) := by
  simp [getConsumerValue,consumerReady,running,values]

@[simp] theorem addProducerValue_producerValues :
    (addProducerValue q value).producerValues = q.producerValues ++ [value] := by
  unfold addProducerValue
  dsimp only
  split <;> rfl

@[simp] theorem addProducerValue_consumerValues :
    (addProducerValue q value).consumerValues = q.consumerValues := by
  unfold addProducerValue
  dsimp only
  split <;> rfl

@[simp] theorem addProducerValue_stopProducer :
    (addProducerValue q value).stopProducer = q.stopProducer := by
  unfold addProducerValue
  dsimp only
  split <;> rfl

@[simp] theorem addProducerValue_stopConsumer :
    (addProducerValue q value).stopConsumer =
      (q.stopConsumer || q.consumerValues.isEmpty && q.stopProducer) := by
  unfold addProducerValue
  dsimp only
  split <;> simp_all

@[simp] theorem shutdownConsumer_producerValues :
    (shutdownConsumer q).producerValues = q.producerValues := by
  unfold shutdownConsumer
  split <;> rfl

@[simp] theorem shutdownConsumer_consumerValues :
    (shutdownConsumer q).consumerValues = q.consumerValues := by
  unfold shutdownConsumer
  split <;> rfl

@[simp] theorem shutdownConsumer_stopProducer :
    (shutdownConsumer q).stopProducer = q.stopProducer := by
  unfold shutdownConsumer
  split <;> rfl

@[simp] theorem shutdownConsumer_stopConsumer :
    (shutdownConsumer q).stopConsumer = (q.stopConsumer || q.consumerValues.isEmpty) := by
  unfold shutdownConsumer
  split <;> simp_all

end ValueQueue

/-! Any number of threads that use one queue. A thread returns only buffers it holds,
and between the two halves of `shutdown` it does nothing else. -/

/-- `added` and `delivered` record the arguments of `add_consumer_value` and the
results of `get_consumer_value` in the order of their critical sections. -/
structure Clients (τ : Type) where
  queue : ValueQueue
  hands : τ → List Buffer
  closing : τ → Bool
  added : List Buffer
  delivered : List (τ × Buffer)

namespace Clients

open ValueQueue Ownership Transition

inductive Action (τ : Type) where
  | getProducerValue (thread : τ)
  | addConsumerValue (thread : τ) (value : Buffer)
  | getConsumerValue (thread : τ)
  | addProducerValue (thread : τ) (value : Buffer)
  | shutdownProducer (thread : τ)
  | shutdownConsumer (thread : τ)

def Action.thread : Action τ → τ
  | .getProducerValue t | .addConsumerValue t _ | .getConsumerValue t
  | .addProducerValue t _ | .shutdownProducer t | .shutdownConsumer t => t

variable {τ : Type} [DecidableEq τ]

def start (maxObjects : Nat) : Clients τ :=
  ⟨.new maxObjects,fun _ => [],fun _ => false,[],[]⟩

def take (s : Clients τ) (t : τ) (value : Buffer) : τ → List Buffer :=
  Function.update s.hands t (value :: s.hands t)

def release (s : Clients τ) (t : τ) (value : Buffer) : τ → List Buffer :=
  Function.update s.hands t ((s.hands t).erase value)

def step (s : Clients τ) : Action τ → Option (Clients τ)
  | .getProducerValue t =>
    if s.closing t then none
    else match s.queue.getProducerValue with
      | none => none
      | some (none,q) => some { s with queue := q }
      | some (some value,q) => some { s with queue := q, hands := s.take t value }
  | .addConsumerValue t value =>
    if s.closing t = false ∧ value ∈ s.hands t then
      some { s with
        queue := s.queue.addConsumerValue value
        hands := s.release t value
        added := s.added ++ [value] }
    else none
  | .getConsumerValue t =>
    if s.closing t then none
    else match s.queue.getConsumerValue with
      | none => none
      | some (none,q) => some { s with queue := q }
      | some (some value,q) =>
        some { s with queue := q, hands := s.take t value, delivered := s.delivered ++ [(t,value)] }
  | .addProducerValue t value =>
    if s.closing t = false ∧ value ∈ s.hands t then
      some { s with queue := s.queue.addProducerValue value, hands := s.release t value }
    else none
  | .shutdownProducer t =>
    if s.closing t then none
    else some { s with
      queue := s.queue.shutdownProducer
      closing := Function.update s.closing t true }
  | .shutdownConsumer t =>
    if s.closing t then
      some { s with
        queue := s.queue.shutdownConsumer
        closing := Function.update s.closing t false }
    else none

/-- Where a buffer can be. -/
inductive Place (τ : Type) where
  | producerValues
  | consumerValues
  | hands (thread : τ)

def contents (s : Clients τ) : Place τ → List Buffer
  | .producerValues => s.queue.producerValues
  | .consumerValues => s.queue.consumerValues
  | .hands t => s.hands t

/-- What a step does to the buffers: nothing, or one of them changes place. -/
inductive Moved (s t : Clients τ) : Prop where
  | none : (∀ p, t.contents p = s.contents p) → Moved s t
  | one (source target : Place τ) (value : Buffer) : source ≠ target →
      (s.contents source).Perm (value :: t.contents source) →
      (t.contents target).Perm (value :: s.contents target) →
      (∀ p, p ≠ source → p ≠ target → t.contents p = s.contents p) → Moved s t

/-- One constructor for each way a critical section can end. -/
inductive Stepped (s : Clients τ) : Action τ → Clients τ → Prop where
  | refused (t : τ) : Stepped s (.getProducerValue t) s
  | fetched (t : τ) (value : Buffer) (rest : List Buffer) : s.queue.producerValues = value :: rest →
      Stepped s (.getProducerValue t) { s with
        queue := { s.queue with producerValues := rest }, hands := s.take t value }
  | added (t : τ) (value : Buffer) : value ∈ s.hands t → Stepped s (.addConsumerValue t value) { s with
      queue := s.queue.addConsumerValue value
      hands := s.release t value
      added := s.added ++ [value] }
  | finished (t : τ) : Stepped s (.getConsumerValue t) s
  | delivered (t : τ) (value : Buffer) (rest : List Buffer) : s.queue.consumerValues = value :: rest →
      Stepped s (.getConsumerValue t) { s with
        queue := { s.queue with consumerValues := rest }
        hands := s.take t value
        delivered := s.delivered ++ [(t,value)] }
  | returned (t : τ) (value : Buffer) : value ∈ s.hands t → Stepped s (.addProducerValue t value)
      { s with queue := s.queue.addProducerValue value, hands := s.release t value }
  | stopped (t : τ) : Stepped s (.shutdownProducer t) { s with
      queue := s.queue.shutdownProducer, closing := Function.update s.closing t true }
  | drained (t : τ) : Stepped s (.shutdownConsumer t) { s with
      queue := s.queue.shutdownConsumer, closing := Function.update s.closing t false }

theorem step_stepped {s next : Clients τ} {a : Action τ} (taken : step s a = some next) :
    Stepped s a next := by
  cases a with
  | getProducerValue t =>
    simp only [step] at taken
    split at taken
    · contradiction
    split at taken
    · contradiction
    · rename_i q got
      cases taken
      rcases getProducerValue_cases got with ⟨_,_,rfl⟩ | ⟨_,_,_,_,wrong,_⟩
      · exact .refused t
      · cases wrong
    · rename_i value q got
      cases taken
      rcases getProducerValue_cases got with ⟨_,wrong,_⟩ | ⟨_,_,rest,values,same,rfl⟩
      · cases wrong
      · cases same
        exact .fetched t value rest values
  | addConsumerValue t value =>
    simp only [step] at taken
    split at taken
    · rename_i held
      cases taken
      exact .added t value held.2
    · contradiction
  | getConsumerValue t =>
    simp only [step] at taken
    split at taken
    · contradiction
    split at taken
    · contradiction
    · rename_i q got
      cases taken
      rcases getConsumerValue_cases got with ⟨_,_,rfl⟩ | ⟨_,_,_,_,wrong,_⟩
      · exact .finished t
      · cases wrong
    · rename_i value q got
      cases taken
      rcases getConsumerValue_cases got with ⟨_,wrong,_⟩ | ⟨_,_,rest,values,same,rfl⟩
      · cases wrong
      · cases same
        exact .delivered t value rest values
  | addProducerValue t value =>
    simp only [step] at taken
    split at taken
    · rename_i held
      cases taken
      exact .returned t value held.2
    · contradiction
  | shutdownProducer t =>
    simp only [step] at taken
    split at taken
    · contradiction
    · cases taken
      exact .stopped t
  | shutdownConsumer t =>
    simp only [step] at taken
    split at taken
    · cases taken
      exact .drained t
    · contradiction

/-- A buffer that comes into a thread's hands leaves the others' as they are. -/
theorem take_other (s : Clients τ) {t u : τ} (value : Buffer) (other : u ≠ t) :
    s.take t value u = s.hands u := by
  simp [take,other]

theorem release_other (s : Clients τ) {t u : τ} (value : Buffer) (other : u ≠ t) :
    s.release t value u = s.hands u := by
  simp [release,other]

theorem step_moved {s next : Clients τ} {a : Action τ} (taken : step s a = some next) :
    Moved s next := by
  cases step_stepped taken with
  | refused t | finished t => exact .none fun p => rfl
  | stopped t => exact .none fun p => by cases p <;> rfl
  | drained t => exact .none fun p => by cases p <;> simp [contents]
  | fetched t value rest values =>
    refine .one .producerValues (.hands t) value (by simp) ?_ ?_ ?_
    · simp [contents,values]
    · simp [contents,take]
    · intro p notSource notTarget
      cases p with
      | producerValues => contradiction
      | consumerValues => rfl
      | hands u => exact s.take_other value fun same => notTarget (by rw [same])
  | delivered t value rest values =>
    refine .one .consumerValues (.hands t) value (by simp) ?_ ?_ ?_
    · simp [contents,values]
    · simp [contents,take]
    · intro p notSource notTarget
      cases p with
      | producerValues => rfl
      | consumerValues => contradiction
      | hands u => exact s.take_other value fun same => notTarget (by rw [same])
  | added t value held =>
    refine .one (.hands t) .consumerValues value (by simp) ?_ ?_ ?_
    · simpa [contents,release] using List.perm_cons_erase held
    · simp [contents,ValueQueue.addConsumerValue,List.perm_append_singleton]
    · intro p notSource notTarget
      cases p with
      | producerValues => rfl
      | consumerValues => contradiction
      | hands u => exact s.release_other value fun same => notSource (by rw [same])
  | returned t value held =>
    refine .one (.hands t) .producerValues value (by simp) ?_ ?_ ?_
    · simpa [contents,release] using List.perm_cons_erase held
    · simp [contents,List.perm_append_singleton]
    · intro p notSource notTarget
      cases p with
      | producerValues => contradiction
      | consumerValues => simp [contents]
      | hands u => exact s.release_other value fun same => notSource (by rw [same])

omit [DecidableEq τ] in
theorem start_exclusive (maxObjects : Nat) :
    Exclusive (start (τ := τ) maxObjects).contents (List.range maxObjects) where
  nodup p := by cases p <;> simp [contents,start,ValueQueue.new,List.nodup_range]
  unique := by
    intro p q b atP atQ
    cases p <;> cases q <;> simp_all [contents,start,ValueQueue.new]
  covers b := by
    constructor
    · exact fun member => ⟨.producerValues,member⟩
    · rintro ⟨p,inside⟩
      cases p <;> simp_all [contents,start,ValueQueue.new]

/-- The partition of the buffers is an invariant of every interleaving. -/
theorem reachable_exclusive {maxObjects : Nat} {s : Clients τ}
    (reached : Reachable step (start maxObjects) s) :
    Exclusive s.contents (List.range maxObjects) := by
  refine reached.invariant (P := fun s : Clients τ => Exclusive s.contents (List.range maxObjects))
    (start_exclusive maxObjects) ?_
  intro s a next _ valid _ taken
  cases step_moved taken with
  | none same => exact valid.congr fun p => by rw [same p]
  | one source target value apart left given others => exact valid.move apart left given others

/-- Every buffer is in exactly one place, once, whatever the interleaving. -/
theorem buffer_ownership_exclusive (maxObjects : Nat) (s : Clients τ)
    (reached : Reachable step (start maxObjects) s) :
    (∀ b < maxObjects, ∃! p, b ∈ s.contents p) ∧
    (∀ p b, b ∈ s.contents p → b < maxObjects ∧ (s.contents p).count b = 1) ∧
    s.queue.producerValues.length ≤ maxObjects ∧ s.queue.consumerValues.length ≤ maxObjects := by
  have valid := reachable_exclusive reached
  refine ⟨fun b small => valid.existsUnique (List.mem_range.mpr small),?_,?_,?_⟩
  · intro p b inside
    exact ⟨List.mem_range.mp ((valid.covers b).mpr ⟨p,inside⟩),
      List.count_eq_one_of_mem (valid.nodup p) inside⟩
  · simpa [contents] using valid.length_le .producerValues
  · simpa [contents] using valid.length_le .consumerValues

/-- The producer holds buffer 1 and a consumer buffer 0 while another thread shuts down. -/
theorem buffer_ownership_exclusive_witness : ∃ s : Clients Bool,
    run step (start 2) [.getProducerValue true,.addConsumerValue true 0,.getProducerValue true,
      .getConsumerValue false,.shutdownProducer false] = some s ∧
    s.hands true = [1] ∧ s.hands false = [0] ∧ ∀ b < 2, ∃! p, b ∈ s.contents p := by
  obtain ⟨s,ran,held⟩ : ∃ s : Clients Bool,
      run step (start 2) [.getProducerValue true,.addConsumerValue true 0,.getProducerValue true,
        .getConsumerValue false,.shutdownProducer false] = some s ∧
      s.hands true = [1] ∧ s.hands false = [0] := ⟨_,rfl,rfl,rfl⟩
  exact ⟨s,ran,held.1,held.2,(buffer_ownership_exclusive 2 s (reachable_of_run ran)).1⟩

/-- First in, first out, and nothing twice: what was handed out is what was added
without the buffers still in the list. -/
theorem delivered_in_order {maxObjects : Nat} {s : Clients τ}
    (reached : Reachable step (start maxObjects) s) :
    s.added = s.delivered.map Prod.snd ++ s.queue.consumerValues := by
  refine reached.invariant
    (P := fun s : Clients τ => s.added = s.delivered.map Prod.snd ++ s.queue.consumerValues) rfl ?_
  intro s a next _ valid _ taken
  cases step_stepped taken with
  | refused t | finished t | fetched t value rest values | stopped t => exact valid
  | added t value held => simp [valid,ValueQueue.addConsumerValue]
  | delivered t value rest values => simp [valid,values]
  | returned t value held | drained t => simpa using valid

end Clients

end OcrSuite
