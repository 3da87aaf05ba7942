import OcrSuite.ValueQueue

/-! The queue below its critical sections: every mutex is acquired and released in a step of its
own, a wait evaluates its predicate before it blocks, and a notification only reaches threads
that are already blocked. The updates under a mutex are those of `ValueQueue`. -/
namespace OcrSuite.Wakeup

open ValueQueue Transition

/-- Either half of the queue: its mutex, its condition variable and its list. -/
inductive Side where
  | producer
  | consumer
  deriving DecidableEq, Repr

/-- The producer calls `get_producer_value` and `add_consumer_value`. Every other thread may do
what a consumer does; the signal thread is one that only calls `shutdown`. -/
inductive Thread (κ : Type) where
  | producer
  | consumer (i : κ)
  deriving DecidableEq, Repr

/-- The critical sections that update the queue and notify after they are left. -/
inductive Update where
  | addConsumerValue (value : Buffer)
  | addProducerValue (value : Buffer)
  | shutdownProducer
  | shutdownConsumer
  deriving DecidableEq, Repr

inductive Pc where
  | idle
  | locking (side : Side)
  | testing (side : Side)
  | blocking (side : Side)
  | blocked (side : Side)
  | taking (side : Side)
  | entering (update : Update)
  | inside (update : Update)
  | leaving (update : Update)
  | notifying (update : Update)
  | testingStop
  | notifyingStop
  deriving DecidableEq, Repr

inductive Call where
  | getProducerValue
  | getConsumerValue
  | addConsumerValue (value : Buffer)
  | addProducerValue (value : Buffer)
  | shutdown
  deriving DecidableEq, Repr

/-- `owner` is the holder of each mutex, `held` the buffers a thread got and has not added. -/
structure State (κ : Type) where
  queue : ValueQueue
  owner : Side → Option (Thread κ)
  pc : Thread κ → Pc
  held : Thread κ → List Buffer

inductive Action (κ : Type) where
  | call (t : Thread κ) (c : Call)
  | advance (t : Thread κ)
  deriving DecidableEq, Repr

variable {κ : Type}

def start (maxObjects : Nat) : State κ :=
  ⟨.new maxObjects,fun _ => none,fun _ => .idle,fun _ => []⟩

/-- The predicate of the wait on one side. -/
def ready : Side → ValueQueue → Bool
  | .producer => producerReady
  | .consumer => consumerReady

/-- The rest of a getter once its predicate holds. -/
def take : Side → ValueQueue → Option (Option Buffer × ValueQueue)
  | .producer => getProducerValue
  | .consumer => getConsumerValue

namespace Update

/-- `add_producer_value` pushes to the producer's list under the mutex of the consumers. -/
def mutex : Update → Side
  | .shutdownProducer => .producer
  | _ => .consumer

def apply : Update → ValueQueue → ValueQueue
  | .addConsumerValue value,q => q.addConsumerValue value
  | .addProducerValue value,q => q.addProducerValue value
  | .shutdownProducer,q => q.shutdownProducer
  | .shutdownConsumer,q => q.shutdownConsumer

/-- The condition variable that is notified when the mutex has been released. -/
def notifies : Update → Side
  | .addConsumerValue _ => .consumer
  | .addProducerValue _ => .producer
  | .shutdownProducer => .producer
  | .shutdownConsumer => .consumer

def after : Update → Pc
  | .addProducerValue _ => .testingStop
  | .shutdownProducer => .entering .shutdownConsumer
  | _ => .idle

/-- The buffer that the update adds to the queue. -/
def carried : Update → List Buffer
  | .addConsumerValue value | .addProducerValue value => [value]
  | .shutdownProducer | .shutdownConsumer => []

end Update

variable [DecidableEq κ]

def State.goto (s : State κ) (t : Thread κ) (pc : Pc) : State κ :=
  { s with pc := Function.update s.pc t pc }

def State.acquire (s : State κ) (side : Side) (t : Thread κ) (pc : Pc) : Option (State κ) :=
  if s.owner side = none then
    some { s.goto t pc with owner := Function.update s.owner side (some t) }
  else none

def State.release (s : State κ) (side : Side) (t : Thread κ) (pc : Pc) : State κ :=
  { s.goto t pc with owner := Function.update s.owner side none }

/-- Threads blocked on the condition variable contend for its mutex again. On the producer's
side, where `notify_one` is used, only one thread ever waits. -/
def State.notify (s : State κ) (side : Side) : State κ :=
  { s with pc := fun t => if s.pc t = .blocked side then .locking side else s.pc t }

def call (s : State κ) (t : Thread κ) (c : Call) : Option (State κ) :=
  if s.pc t = .idle then
    match t,c with
    | .producer,.getProducerValue => some (s.goto t (.locking .producer))
    | .consumer _,.getConsumerValue => some (s.goto t (.locking .consumer))
    | .producer,.addConsumerValue value =>
      if value ∈ s.held t then
        some { s.goto t (.entering (.addConsumerValue value)) with
          held := Function.update s.held t ((s.held t).erase value) }
      else none
    | .consumer _,.addProducerValue value =>
      if value ∈ s.held t then
        some { s.goto t (.entering (.addProducerValue value)) with
          held := Function.update s.held t ((s.held t).erase value) }
      else none
    | _,.shutdown => some (s.goto t (.entering .shutdownProducer))
    | _,_ => none
  else none

def advance (s : State κ) (t : Thread κ) : Option (State κ) :=
  match s.pc t with
  | .idle => none
  | .locking side => s.acquire side t (.testing side)
  | .testing side => some (s.goto t (if ready side s.queue then .taking side else .blocking side))
  | .blocking side => some (s.release side t (.blocked side))
  | .blocked _ => none
  | .taking side => (take side s.queue).map fun (result,q) =>
      { s.release side t .idle with
        queue := q
        held := Function.update s.held t (s.held t ++ result.toList) }
  | .entering update => s.acquire update.mutex t (.inside update)
  | .inside update => some { s.goto t (.leaving update) with queue := update.apply s.queue }
  | .leaving update => some (s.release update.mutex t (.notifying update))
  | .notifying update => some ((s.notify update.notifies).goto t update.after)
  | .testingStop => some (s.goto t (if s.queue.stopConsumer then .notifyingStop else .idle))
  | .notifyingStop => some ((s.notify .consumer).goto t .idle)

def step (s : State κ) : Action κ → Option (State κ)
  | .call t c => call s t c
  | .advance t => advance s t

/-! ## Lost wake-ups -/

/-- The rest of the update's operation notifies the condition variable of that side. After
`add_producer_value` the consumers are notified only if `stop_consumer_` is set by then. -/
def Update.owes (stopConsumer : Bool) : Update → Side → Bool
  | .addConsumerValue _,side => side = .consumer
  | .addProducerValue _,.producer => true
  | .addProducerValue _,.consumer => stopConsumer
  | .shutdownProducer,_ => true
  | .shutdownConsumer,side => side = .consumer

/-- The thread still has a notification of that side to perform. -/
def Pc.owes (stopConsumer : Bool) : Pc → Side → Bool
  | .entering update,side | .inside update,side | .leaving update,side | .notifying update,side =>
    update.owes stopConsumer side
  | .testingStop,side => side = .consumer && stopConsumer
  | .notifyingStop,side => side = .consumer
  | _,_ => false

def Owed (s : State κ) (side : Side) : Prop :=
  ∃ t, (s.pc t).owes s.queue.stopConsumer side = true

/-- A blocked thread whose predicate holds and that nobody is going to notify. -/
def Lost (s : State κ) (side : Side) : Prop :=
  (∃ t, s.pc t = .blocked side) ∧ ready side s.queue = true ∧ ¬ Owed s side

/-! ## The steps -/

/-- Every way a thread can move, with the program point it comes from. -/
inductive Stepped (s : State κ) : Action κ → State κ → Prop where
  | getting (t : Thread κ) (c : Call) (side : Side) : s.pc t = .idle →
      Stepped s (.call t c) (s.goto t (.locking side))
  | adding (t : Thread κ) (c : Call) (update : Update) (value : Buffer) : s.pc t = .idle →
      update.carried = [value] → value ∈ s.held t →
      Stepped s (.call t c) { s.goto t (.entering update) with
        held := Function.update s.held t ((s.held t).erase value) }
  | closing (t : Thread κ) (c : Call) : s.pc t = .idle →
      Stepped s (.call t c) (s.goto t (.entering .shutdownProducer))
  | locked (t : Thread κ) (side : Side) : s.pc t = .locking side → s.owner side = none →
      Stepped s (.advance t) { s.goto t (.testing side) with
        owner := Function.update s.owner side (some t) }
  | tested (t : Thread κ) (side : Side) : s.pc t = .testing side → ready side s.queue = true →
      Stepped s (.advance t) (s.goto t (.taking side))
  | failed (t : Thread κ) (side : Side) : s.pc t = .testing side → ready side s.queue = false →
      Stepped s (.advance t) (s.goto t (.blocking side))
  | blocked (t : Thread κ) (side : Side) : s.pc t = .blocking side →
      Stepped s (.advance t) (s.release side t (.blocked side))
  | took (t : Thread κ) (side : Side) (result : Option Buffer) (q : ValueQueue) :
      s.pc t = .taking side → take side s.queue = some (result,q) →
      Stepped s (.advance t) { s.release side t .idle with
        queue := q
        held := Function.update s.held t (s.held t ++ result.toList) }
  | entered (t : Thread κ) (update : Update) : s.pc t = .entering update →
      s.owner update.mutex = none →
      Stepped s (.advance t) { s.goto t (.inside update) with
        owner := Function.update s.owner update.mutex (some t) }
  | updated (t : Thread κ) (update : Update) : s.pc t = .inside update →
      Stepped s (.advance t) { s.goto t (.leaving update) with queue := update.apply s.queue }
  | left (t : Thread κ) (update : Update) : s.pc t = .leaving update →
      Stepped s (.advance t) (s.release update.mutex t (.notifying update))
  | notified (t : Thread κ) (update : Update) : s.pc t = .notifying update →
      Stepped s (.advance t) ((s.notify update.notifies).goto t update.after)
  | stopped (t : Thread κ) : s.pc t = .testingStop → s.queue.stopConsumer = true →
      Stepped s (.advance t) (s.goto t .notifyingStop)
  | returned (t : Thread κ) : s.pc t = .testingStop → s.queue.stopConsumer = false →
      Stepped s (.advance t) (s.goto t .idle)
  | finished (t : Thread κ) : s.pc t = .notifyingStop →
      Stepped s (.advance t) ((s.notify .consumer).goto t .idle)

theorem call_stepped {s s' : State κ} {t : Thread κ} {c : Call} (taken : call s t c = some s') :
    Stepped s (.call t c) s' := by
  unfold call at taken
  split at taken
  case isFalse => simp at taken
  case isTrue pc =>
    split at taken
    case h_1 | h_2 =>
      cases taken
      exact .getting _ _ _ pc
    case h_3 value | h_4 value =>
      split at taken
      case isTrue held =>
        cases taken
        exact .adding _ _ _ value pc rfl held
      case isFalse => simp at taken
    case h_5 =>
      cases taken
      exact .closing _ _ pc
    case h_6 => simp at taken

theorem acquire_eq {s s' : State κ} {side : Side} {t : Thread κ} {pc : Pc}
    (taken : s.acquire side t pc = some s') : s.owner side = none ∧
      s' = { s.goto t pc with owner := Function.update s.owner side (some t) } := by
  unfold State.acquire at taken
  split at taken
  · exact ⟨by assumption,(Option.some.inj taken).symm⟩
  · simp at taken

theorem advance_stepped {s s' : State κ} {t : Thread κ} (taken : advance s t = some s') :
    Stepped s (.advance t) s' := by
  unfold advance at taken
  cases pc : s.pc t with
  | idle => simp [pc] at taken
  | blocked side => simp [pc] at taken
  | locking side =>
    obtain ⟨free,rfl⟩ := acquire_eq (by simpa [pc] using taken)
    exact .locked t side pc free
  | testing side =>
    cases holds : ready side s.queue with
    | true =>
      obtain rfl : s.goto t (.taking side) = s' := by simpa [pc,holds] using taken
      exact .tested t side pc holds
    | false =>
      obtain rfl : s.goto t (.blocking side) = s' := by simpa [pc,holds] using taken
      exact .failed t side pc holds
  | blocking side =>
    obtain rfl : s.release side t (.blocked side) = s' := by simpa [pc] using taken
    exact .blocked t side pc
  | taking side =>
    obtain ⟨⟨result,q⟩,got,rfl⟩ := Option.map_eq_some_iff.mp (by simpa only [pc] using taken)
    exact .took t side result q pc got
  | entering update =>
    obtain ⟨free,rfl⟩ := acquire_eq (by simpa [pc] using taken)
    exact .entered t update pc free
  | inside update =>
    cases (by simpa only [pc] using taken :
      some { s.goto t (.leaving update) with queue := update.apply s.queue } = some s')
    exact .updated t update pc
  | leaving update =>
    obtain rfl : s.release update.mutex t (.notifying update) = s' := by simpa [pc] using taken
    exact .left t update pc
  | notifying update =>
    obtain rfl : (s.notify update.notifies).goto t update.after = s' := by simpa [pc] using taken
    exact .notified t update pc
  | testingStop =>
    cases stop : s.queue.stopConsumer with
    | true =>
      obtain rfl : s.goto t .notifyingStop = s' := by simpa [pc,stop] using taken
      exact .stopped t pc stop
    | false =>
      obtain rfl : s.goto t .idle = s' := by simpa [pc,stop] using taken
      exact .returned t pc stop
  | notifyingStop =>
    obtain rfl : (s.notify .consumer).goto t .idle = s' := by simpa [pc] using taken
    exact .finished t pc

theorem step_stepped {s s' : State κ} {a : Action κ} (taken : step s a = some s') :
    Stepped s a s' := by
  cases a with
  | call t c => exact call_stepped taken
  | advance t => exact advance_stepped taken

/-! ## Mutual exclusion and what a thread about to block knows -/

/-- The thread is between the acquisition and the release of that side's mutex. -/
def Pc.holds (side : Side) : Pc → Bool
  | .testing other | .blocking other | .taking other => other = side
  | .inside update | .leaving update => update.mutex = side
  | _ => false

structure Invariant (s : State κ) : Prop where
  owned : ∀ t side, (s.pc t).holds side = true → s.owner side = some t
  stale : ∀ t, s.pc t = .blocking .consumer → s.queue.consumerReady = false
  running : ∀ t, s.pc t = .blocking .producer → s.queue.stopProducer = false

omit [DecidableEq κ] in
theorem Invariant.exclusive {s : State κ} (valid : Invariant s) {t u : Thread κ} {side : Side}
    (here : (s.pc t).holds side = true) (there : (s.pc u).holds side = true) : t = u :=
  Option.some.inj ((valid.owned t side here).symm.trans (valid.owned u side there))

omit [DecidableEq κ] in
theorem start_invariant (maxObjects : Nat) : Invariant (start maxObjects : State κ) := by
  constructor <;> simp [start,Pc.holds]

section Goto

variable {s : State κ} {t : Thread κ} {pc : Pc} {side : Side}

@[simp] theorem goto_here : (s.goto t pc).pc t = pc := by simp [State.goto]

@[simp] theorem goto_there (other : u ≠ t) : (s.goto t pc).pc u = s.pc u := by
  simp [State.goto,other]

@[simp] theorem goto_queue : (s.goto t pc).queue = s.queue := rfl

@[simp] theorem goto_owner : (s.goto t pc).owner = s.owner := rfl

@[simp] theorem goto_held : (s.goto t pc).held = s.held := rfl

@[simp] theorem release_pc : (s.release side t pc).pc = (s.goto t pc).pc := rfl

@[simp] theorem release_queue : (s.release side t pc).queue = s.queue := rfl

@[simp] theorem release_held : (s.release side t pc).held = s.held := rfl

@[simp] theorem release_owner :
    (s.release side t pc).owner = Function.update s.owner side none := rfl

omit [DecidableEq κ] in
@[simp] theorem notify_queue : (s.notify side).queue = s.queue := rfl

omit [DecidableEq κ] in
@[simp] theorem notify_owner : (s.notify side).owner = s.owner := rfl

omit [DecidableEq κ] in
@[simp] theorem notify_held : (s.notify side).held = s.held := rfl

omit [DecidableEq κ] in
theorem notify_pc (s : State κ) (side : Side) (u : Thread κ) :
    (s.pc u = .blocked side ∧ (s.notify side).pc u = .locking side) ∨
    (s.pc u ≠ .blocked side ∧ (s.notify side).pc u = s.pc u) := by
  unfold State.notify
  by_cases waiting : s.pc u = .blocked side <;> simp [waiting]

omit [DecidableEq κ] in
@[simp] theorem notify_holds (u : Thread κ) (other : Side) :
    ((s.notify side).pc u).holds other = (s.pc u).holds other := by
  rcases notify_pc s side u with ⟨waiting,woken⟩ | ⟨_,same⟩
  · simp [waiting,woken,Pc.holds]
  · rw [same]

omit [DecidableEq κ] in
@[simp] theorem notify_owes (u : Thread κ) (stop : Bool) (other : Side) :
    ((s.notify side).pc u).owes stop other = (s.pc u).owes stop other := by
  rcases notify_pc s side u with ⟨waiting,woken⟩ | ⟨_,same⟩
  · simp [waiting,woken,Pc.owes]
  · rw [same]

omit [DecidableEq κ] in
@[simp] theorem notify_blocking (u : Thread κ) (other : Side) :
    (s.notify side).pc u = .blocking other ↔ s.pc u = .blocking other := by
  rcases notify_pc s side u with ⟨waiting,woken⟩ | ⟨_,same⟩
  · simp [waiting,woken]
  · rw [same]

end Goto

/-- A thread that moves and leaves the others' mutexes, the queue and the program points
before a block as they are. -/
theorem Invariant.moved {s s' : State κ} (valid : Invariant s) (t : Thread κ)
    (queue : s'.queue = s.queue)
    (others : ∀ u, u ≠ t → ∀ side, (s'.pc u).holds side = (s.pc u).holds side ∧
      (s'.pc u = .blocking side ↔ s.pc u = .blocking side))
    (kept : ∀ u, u ≠ t → ∀ side, s.owner side = some u → s'.owner side = some u)
    (mine : ∀ side, (s'.pc t).holds side = true → s'.owner side = some t)
    (failed : ∀ side, s'.pc t = .blocking side → ready side s.queue = false) : Invariant s' := by
  constructor
  · intro u side holds
    by_cases same : u = t
    · exact same ▸ mine side (same ▸ holds)
    · exact kept u same side (valid.owned u side ((others u same side).1 ▸ holds))
  · intro u pc
    rw [queue]
    by_cases same : u = t
    · exact failed .consumer (same ▸ pc)
    · exact valid.stale u ((others u same _).2.mp pc)
  · intro u pc
    rw [queue]
    by_cases same : u = t
    · have unready := failed .producer (same ▸ pc)
      simp only [ready,producerReady,Bool.or_eq_false_iff] at unready
      exact unready.2
    · exact valid.running u ((others u same _).2.mp pc)

/-- A step that leaves the mutexes alone. -/
theorem Invariant.goto {s : State κ} (valid : Invariant s) {t : Thread κ} {pc : Pc}
    (mine : ∀ side, pc.holds side = true → (s.pc t).holds side = true)
    (failed : ∀ side, pc = .blocking side → ready side s.queue = false) : Invariant (s.goto t pc) :=
  valid.moved t rfl (fun u other side => by simp [other]) (fun u _ side owned => owned)
    (fun side holds => valid.owned t side (mine side (by simpa using holds)))
    fun side waits => failed side (by simpa using waits)

theorem Invariant.acquired {s : State κ} (valid : Invariant s) {t : Thread κ} {pc : Pc} {side : Side}
    (free : s.owner side = none) (mine : ∀ other, pc.holds other = true → other = side)
    (running : ∀ other, pc ≠ .blocking other) :
    Invariant { s.goto t pc with owner := Function.update s.owner side (some t) } := by
  refine Invariant.moved valid t ?_ (fun u other side => by simp [State.goto,other]) ?_ ?_ ?_
  · rfl
  · intro u _ taken owned
    have different : taken ≠ side := fun same => by simp [same,free] at owned
    simp [different,owned]
  · intro other holds
    obtain rfl := mine other (by simpa [State.goto] using holds)
    simp
  · exact fun other waits => absurd (by simpa [State.goto] using waits) (running other)

theorem Invariant.released {s : State κ} (valid : Invariant s) {t : Thread κ} {pc : Pc} {side : Side}
    (held : (s.pc t).holds side = true) (mine : ∀ other, pc.holds other = false)
    (running : ∀ other, pc ≠ .blocking other) : Invariant (s.release side t pc) := by
  apply Invariant.moved valid t (release_queue)
  · exact fun u other side => by simp [other]
  · intro u different taken owned
    have apart : taken ≠ side := by
      rintro rfl
      exact different (Option.some.inj (owned.symm.trans (valid.owned t taken held)))
    simp [apart,owned]
  · exact fun other holds => by simp [mine] at holds
  · exact fun other waits => absurd (by simpa using waits) (running other)

omit [DecidableEq κ] in
theorem Invariant.notify {s : State κ} (valid : Invariant s) (side : Side) :
    Invariant (s.notify side) :=
  ⟨fun t other holds => valid.owned t other (by simpa using holds),
    fun t pc => valid.stale t (by simpa using pc),fun t pc => valid.running t (by simpa using pc)⟩

theorem take_cases {q q' : ValueQueue} {side : Side} {result : Option Buffer}
    (got : take side q = some (result,q')) :
    q'.stopProducer = q.stopProducer ∧ q'.stopConsumer = q.stopConsumer ∧
    (ready side q' = true → ready side q = true) ∧
    ∀ other, other ≠ side → ready other q' = ready other q := by
  cases side with
  | producer =>
    rcases getProducerValue_cases got with ⟨stopped,rfl,rfl⟩ | ⟨running,value,rest,values,rfl,rfl⟩
    · simp
    · refine ⟨rfl,rfl,by simp [ready,producerReady,values],fun other different => ?_⟩
      cases other <;> simp [ready,consumerReady] at different ⊢
  | consumer =>
    rcases getConsumerValue_cases got with ⟨stopped,rfl,rfl⟩ | ⟨running,value,rest,values,rfl,rfl⟩
    · simp
    · refine ⟨rfl,rfl,by simp [ready,consumerReady,values],fun other different => ?_⟩
      cases other <;> simp [ready,producerReady] at different ⊢

theorem apply_consumerReady {update : Update} (q : ValueQueue) (other : update.mutex ≠ .consumer) :
    (update.apply q).consumerReady = q.consumerReady := by
  cases update <;> simp [Update.mutex] at other
  simp [Update.apply,consumerReady,shutdownProducer]

theorem apply_stopProducer {update : Update} (q : ValueQueue) (other : update.mutex ≠ .producer) :
    (update.apply q).stopProducer = q.stopProducer := by
  cases update <;> simp [Update.mutex] at other <;> simp [Update.apply,addConsumerValue]

theorem apply_stopConsumer {update : Update} {q : ValueQueue} (stopped : q.stopConsumer = true) :
    (update.apply q).stopConsumer = true := by
  cases update <;> simp [Update.apply,addConsumerValue,shutdownProducer,stopped]

/-- A new reason to wake up a side is always announced to it. -/
theorem apply_owes {update : Update} {q : ValueQueue} {side : Side} (before : ready side q = false)
    (now : ready side (update.apply q) = true) :
    update.owes (update.apply q).stopConsumer side = true := by
  cases update <;> cases side <;>
    simp_all [Update.apply,Update.owes,ready,producerReady,consumerReady,addConsumerValue]

omit [DecidableEq κ] in
/-- A thread that updates the queue: a waiting thread has its own mutex, so what it knows
is not touched. -/
theorem Invariant.updated {s s' : State κ} (valid' : Invariant s') (valid : Invariant s)
    {t : Thread κ} {side : Side} (holding : (s.pc t).holds side = true) (q : ValueQueue)
    (held : Thread κ → List Buffer)
    (stale : side ≠ .consumer → q.consumerReady = s.queue.consumerReady)
    (running : side ≠ .producer → q.stopProducer = s.queue.stopProducer)
    (others : ∀ u other, s'.pc u = .blocking other → u ≠ t ∧ s.pc u = .blocking other) :
    Invariant { s' with queue := q, held := held } := by
  have apart (u : Thread κ) (waits : s'.pc u = .blocking side) : False := by
    obtain ⟨different,pc⟩ := others u side waits
    exact different (valid.exclusive (by simp [Pc.holds,pc]) holding)
  refine ⟨valid'.owned,fun u pc => ?_,fun u pc => ?_⟩
  · have different : side ≠ .consumer := by
      rintro rfl
      exact apart u pc
    exact (stale different).trans (valid.stale u (others u _ pc).2)
  · have different : side ≠ .producer := by
      rintro rfl
      exact apart u pc
    exact (running different).trans (valid.running u (others u _ pc).2)

theorem blocking_elsewhere {s : State κ} {t u : Thread κ} {pc : Pc} {side : Side}
    (running : ∀ other, pc ≠ .blocking other) (waits : (s.goto t pc).pc u = .blocking side) :
    u ≠ t ∧ s.pc u = .blocking side := by
  by_cases same : u = t
  · subst u
    exact absurd (by simpa using waits) (running side)
  · exact ⟨same,by simpa [same] using waits⟩

theorem step_invariant {s s' : State κ} {a : Action κ} (valid : Invariant s)
    (taken : step s a = some s') : Invariant s' := by
  cases step_stepped taken with
  | getting t c side pc | closing t c pc => exact valid.goto (by simp [Pc.holds]) (by simp)
  | adding t c update value pc carried held =>
    have moved : Invariant (s.goto t (.entering update)) := valid.goto (by simp [Pc.holds]) (by simp)
    exact ⟨moved.owned,moved.stale,moved.running⟩
  | locked t side pc free => exact valid.acquired free (by simp [Pc.holds]) (by simp)
  | tested t side pc holds => exact valid.goto (by simp [Pc.holds,pc]) (by simp)
  | failed t side pc unready =>
    apply valid.goto (by simp [Pc.holds,pc])
    rintro other ⟨⟩
    exact unready
  | blocked t side pc => exact valid.released (by simp [Pc.holds,pc]) (by simp [Pc.holds]) (by simp)
  | took t side result q pc got =>
    obtain ⟨stopProducer,_,_,others⟩ := take_cases got
    have holding : (s.pc t).holds side = true := by simp [Pc.holds,pc]
    have moved : Invariant (s.release side t .idle) :=
      valid.released holding (by simp [Pc.holds]) (by simp)
    exact moved.updated valid holding q _ (fun other => others .consumer other.symm)
      (fun _ => stopProducer) fun u other waits => blocking_elsewhere (by simp) waits
  | entered t update pc free => exact valid.acquired free (by simp [Pc.holds]) (by simp)
  | updated t update pc =>
    have moved : Invariant (s.goto t (.leaving update)) := valid.goto (by simp [Pc.holds,pc]) (by simp)
    exact moved.updated valid (by simp [Pc.holds,pc]) _ s.held (apply_consumerReady s.queue)
      (apply_stopProducer s.queue) fun u other waits => blocking_elsewhere (by simp) waits
  | left t update pc => exact valid.released (by simp [Pc.holds,pc]) (by simp [Pc.holds]) (by simp)
  | notified t update pc =>
    refine (valid.notify _).goto ?_ ?_ <;> cases update <;> simp [Update.after,Pc.holds]
  | stopped t pc stop | returned t pc stop => exact valid.goto (by simp [Pc.holds]) (by simp)
  | finished t pc => exact (valid.notify _).goto (by simp [Pc.holds]) (by simp)

theorem reachable_invariant {maxObjects : Nat} {s : State κ}
    (reached : Reachable step (start maxObjects) s) : Invariant s :=
  reached.invariant (start_invariant maxObjects) fun _ _ _ _ valid _ taken => step_invariant valid taken

/-! ## When a wake-up is lost -/

/-- The producer does not block on a predicate that has become true since it was evaluated,
unless a thread is still going to notify it. -/
def BlocksFresh (s : State κ) (a : Action κ) : Prop :=
  ∀ t, a = .advance t → s.pc t = .blocking .producer →
    s.queue.producerValues = [] ∨ Owed s .producer

omit [DecidableEq κ] in
/-- A step that blocks nobody and drops no pending notification loses no wake-up. -/
theorem not_lost {s s' : State κ} {side : Side} (before : ¬ Lost s side)
    (waiting : ∀ u, s'.pc u = .blocked side → s.pc u = .blocked side)
    (announced : ready side s'.queue = true → ready side s.queue = true ∨ Owed s' side)
    (owed : (∃ u, s'.pc u = .blocked side) → Owed s side → Owed s' side) : ¬ Lost s' side := by
  rintro ⟨⟨u,blocked⟩,now,nobody⟩
  rcases announced now with early | later
  · have earlier : Owed s side := by
      by_contra none
      exact before ⟨⟨u,waiting u blocked⟩,early,none⟩
    exact nobody (owed ⟨u,blocked⟩ earlier)
  · exact nobody later

/-- A thread that moves without a notification keeps what it owes. -/
theorem not_lost_goto {s : State κ} {t : Thread κ} {pc : Pc} {side : Side} (before : ¬ Lost s side)
    (running : pc ≠ .blocked side)
    (kept : (s.pc t).owes s.queue.stopConsumer side = true →
      pc.owes s.queue.stopConsumer side = true) : ¬ Lost (s.goto t pc) side := by
  apply not_lost before
  · intro u blocked
    by_cases same : u = t
    · subst u
      exact absurd (by simpa using blocked) running
    · simpa [same] using blocked
  · exact fun now => .inl now
  · rintro _ ⟨u,owes⟩
    by_cases same : u = t
    · subst u
      exact ⟨t,by simpa using kept owes⟩
    · exact ⟨u,by simpa [same] using owes⟩

/-- A notification wakes up everyone on its side; on the other side nothing changes. -/
theorem not_lost_notify {s : State κ} {t : Thread κ} {pc : Pc} {side other : Side}
    (before : ¬ Lost s side) (running : pc ≠ .blocked side)
    (kept : side ≠ other → (s.pc t).owes s.queue.stopConsumer side = true →
      pc.owes s.queue.stopConsumer side = true) : ¬ Lost ((s.notify other).goto t pc) side := by
  by_cases same : side = other
  · subst other
    rintro ⟨⟨u,blocked⟩,_⟩
    by_cases here : u = t
    · subst u
      exact running (by simpa using blocked)
    · rw [goto_there here] at blocked
      rcases notify_pc s side u with ⟨_,woken⟩ | ⟨waits,same⟩
      · simp [woken] at blocked
      · exact waits (same ▸ blocked)
  · apply not_lost_goto _ running
    · simpa using kept same
    · rintro ⟨⟨u,blocked⟩,now,nobody⟩
      refine before ⟨⟨u,?_⟩,now,fun owed => nobody (owed.imp fun w owes => by simpa using owes)⟩
      rcases notify_pc s other u with ⟨_,woken⟩ | ⟨_,kept⟩
      · simp [woken] at blocked
      · exact kept ▸ blocked

/-- What a thread owes after an update it owed before it: `stop_consumer_` is never reset. -/
theorem owes_of_stop {stop stop' : Bool} {pc : Pc} {side : Side} (kept : stop = true → stop' = true)
    (owes : pc.owes stop side = true) : pc.owes stop' side = true := by
  cases pc with
  | entering update | inside update | leaving update | notifying update =>
    cases update <;> cases side <;> simp_all [Pc.owes,Update.owes]
  | testingStop | notifyingStop => cases side <;> simp_all [Pc.owes]
  | _ => simp [Pc.owes] at owes

/-- A thread that changes the queue without blocking, and owes what the change announces. -/
theorem not_lost_update {s s' : State κ} {t : Thread κ} {side : Side} (before : ¬ Lost s side)
    (others : ∀ u, u ≠ t → s'.pc u = s.pc u) (running : s'.pc t ≠ .blocked side)
    (stop : s.queue.stopConsumer = true → s'.queue.stopConsumer = true)
    (kept : (s.pc t).owes s'.queue.stopConsumer side = true →
      (s'.pc t).owes s'.queue.stopConsumer side = true)
    (announced : ready side s.queue = false → ready side s'.queue = true →
      (s'.pc t).owes s'.queue.stopConsumer side = true) : ¬ Lost s' side := by
  apply not_lost before
  · intro u blocked
    by_cases same : u = t
    · exact absurd (same ▸ blocked) running
    · exact others u same ▸ blocked
  · intro now
    cases early : ready side s.queue with
    | true => exact .inl rfl
    | false => exact .inr ⟨t,announced early now⟩
  · rintro _ ⟨u,owes⟩
    have later := owes_of_stop stop owes
    by_cases same : u = t
    · exact ⟨t,kept (same ▸ later)⟩
    · exact ⟨u,by rw [others u same]; exact later⟩

/-- A thread about to block owes nothing, so the block leaves everything owed as it was. -/
theorem owed_block {s : State κ} {t : Thread κ} {side other : Side} (pc : s.pc t = .blocking other) :
    Owed (s.release other t (.blocked other)) side ↔ Owed s side := by
  refine exists_congr fun u => ?_
  by_cases same : u = t
  · simp [same,pc,Pc.owes]
  · simp [same]

theorem step_not_lost {s s' : State κ} {a : Action κ} {side : Side} (before : ¬ Lost s side)
    (valid : Invariant s) (current : side = .producer → BlocksFresh s a)
    (taken : step s a = some s') : ¬ Lost s' side := by
  cases step_stepped taken with
  | getting t c other pc | closing t c pc => exact not_lost_goto before (by simp) (by simp [pc,Pc.owes])
  | adding t c update value pc carried held =>
    have idle : ¬ Lost (s.goto t (.entering update)) side :=
      not_lost_goto before (by simp) (by simp [pc,Pc.owes])
    exact idle
  | locked t other pc free | tested t other pc holds | failed t other pc unready =>
    exact not_lost_goto before (by simp) (by simp [pc,Pc.owes])
  | blocked t other pc =>
    by_cases same : side = other
    · subst other
      rintro ⟨_,now,nobody⟩
      rw [owed_block pc] at nobody
      cases side with
      | consumer => simp [ready,valid.stale t pc] at now
      | producer =>
        rcases current rfl t rfl pc with empty | owed
        · simp [ready,producerReady,empty,valid.running t pc] at now
        · exact nobody owed
    · exact not_lost_goto before (by simpa using Ne.symm same) (by simp [pc,Pc.owes])
  | took t other result q pc got =>
    obtain ⟨_,stop,unready,others⟩ := take_cases got
    apply not_lost_update (t := t) before
    · exact fun u different => by simp [State.release,State.goto,different]
    · simp [State.release,State.goto]
    · exact fun stopped => stop.trans stopped
    · simp [pc,Pc.owes]
    · intro early now
      by_cases same : side = other
      · subst other
        cases early.symm.trans (unready now)
      · cases early.symm.trans ((others side same).symm.trans now)
  | entered t update pc free => exact not_lost_goto before (by simp) (by simp [pc,Pc.owes])
  | updated t update pc =>
    apply not_lost_update (t := t) before
    · exact fun u other => by simp [State.goto,other]
    · simp [State.goto]
    · exact apply_stopConsumer
    · simp [State.goto,pc,Pc.owes]
    · simpa [State.goto,Pc.owes] using apply_owes
  | left t update pc => exact not_lost_goto before (by simp) (by simp [pc,Pc.owes])
  | notified t update pc =>
    apply not_lost_notify before
    · cases update <;> simp [Update.after]
    · cases update <;> cases side <;> simp [pc,Pc.owes,Update.owes,Update.after,Update.notifies]
  | stopped t pc stop | returned t pc stop =>
    exact not_lost_goto before (by simp) (by simp [pc,Pc.owes,stop])
  | finished t pc => exact not_lost_notify before (by simp) (by cases side <;> simp [pc,Pc.owes])

omit [DecidableEq κ] in
theorem start_not_lost (maxObjects : Nat) (side : Side) : ¬ Lost (start maxObjects : State κ) side := by
  rintro ⟨⟨t,blocked⟩,_⟩
  simp [start] at blocked

theorem reachable_not_lost {maxObjects : Nat} {s : State κ}
    (reached : ReachableUnder step BlocksFresh (start maxObjects) s) (side : Side) :
    ¬ Lost s side :=
  reached.invariant (P := fun s => ¬ Lost s side) (start_not_lost maxObjects side)
    fun _ _ _ earlier before current taken =>
      step_not_lost before (reachable_invariant earlier.reachable) (fun _ => current) taken

/-- The consumers test and block under the mutex of every update of theirs. -/
theorem consumer_not_lost {maxObjects : Nat} {s : State κ}
    (reached : Reachable step (start maxObjects) s) : ¬ Lost s .consumer :=
  reached.invariant (P := fun s => ¬ Lost s .consumer) (start_not_lost maxObjects .consumer)
    fun _ _ _ earlier before _ taken =>
      step_not_lost before (reachable_invariant earlier) (by simp) taken

/-- Blocking on a stale predicate with nobody left to notify is the loss itself. -/
theorem stale_block_lost {s s' : State κ} {a : Action κ} (taken : step s a = some s')
    (stale : ¬ BlocksFresh s a) : Lost s' .producer := by
  unfold BlocksFresh at stale
  push Not at stale
  obtain ⟨t,rfl,pc,values,nobody⟩ := stale
  obtain rfl : s.release .producer t (.blocked .producer) = s' := by
    simpa [step,advance,pc] using taken
  refine ⟨⟨t,by simp⟩,?_,fun owed => nobody ((owed_block pc).mp owed)⟩
  simp [ready,producerReady,values]

/-- No thread is blocked on either condition variable without a reason to be. -/
def NoLostWakeup (s : State κ) : Prop := ∀ side, ¬ Lost s side

theorem block_exact {maxObjects : Nat} {s s' : State κ} {a : Action κ}
    (reached : ReachableUnder step BlocksFresh (start maxObjects) s) (taken : step s a = some s') :
    NoLostWakeup s' ↔ BlocksFresh s a := by
  constructor
  · intro kept
    by_contra stale
    exact kept .producer (stale_block_lost taken stale)
  · exact fun current => reachable_not_lost (.next reached current taken)

/-- The only buffer comes back between the producer's test and its block: it is notified
too early and sleeps although the buffer is there and every other thread is idle. -/
theorem producer_wakeup_lost :
    ¬ ∀ (maxObjects : Nat) (s : State Unit), Reachable step (start maxObjects) s → NoLostWakeup s := by
  intro claim
  let advances (t : Thread Unit) (n : Nat) : List (Action Unit) := List.replicate n (.advance t)
  obtain ⟨s,ran,blocked,values,idle⟩ : ∃ s : State Unit,
      run step (start 1)
        ([.call .producer .getProducerValue] ++ advances .producer 3 ++
          [.call .producer (.addConsumerValue 0)] ++ advances .producer 4 ++
          [.call (.consumer ()) .getConsumerValue] ++ advances (.consumer ()) 3 ++
          [.call .producer .getProducerValue] ++ advances .producer 2 ++
          [.call (.consumer ()) (.addProducerValue 0)] ++ advances (.consumer ()) 5 ++
          [.advance .producer]) = some s ∧
      s.pc .producer = .blocked .producer ∧ s.queue.producerValues = [0] ∧
      s.pc (.consumer ()) = .idle := ⟨_,rfl,rfl,rfl,rfl⟩
  refine claim 1 s (reachable_of_run ran) .producer ⟨⟨_,blocked⟩,by simp [ready,producerReady,values],?_⟩
  rintro ⟨t,owes⟩
  cases t with
  | producer => simp [blocked,Pc.owes] at owes
  | consumer => simp [idle,Pc.owes] at owes

/-- A run loses no wake-up at all exactly when the producer never blocks on a stale predicate
with nobody left to notify it. The consumers never miss one. -/
theorem no_lost_wakeup_iff (maxObjects : Nat) (actions : List (Action κ)) (final : State κ)
    (ran : run step (start maxObjects) actions = some final) :
    (Throughout step NoLostWakeup (start maxObjects) actions ↔
      StepsMeet step BlocksFresh (start maxObjects) actions) ∧
    Throughout step (fun s => ¬ Lost s .consumer) (start maxObjects) actions :=
  ⟨throughout_iff_stepsMeet (start_not_lost maxObjects)
    (fun _ _ _ reached _ taken => block_exact reached taken) ran,
    throughout_of_reachable (fun _ => consumer_not_lost) actions⟩

/-- Here the producer blocks before the only buffer comes back, and is woken up by it. -/
theorem no_lost_wakeup_iff_witness : ∃ (actions : List (Action Unit)) (final : State Unit),
    run step (start 1) actions = some final ∧ final.pc .producer = .locking .producer ∧
    final.queue.producerValues = [0] ∧
    (Throughout step NoLostWakeup (start 1) actions ↔
      StepsMeet step BlocksFresh (start 1) actions) ∧
    Throughout step (fun s => ¬ Lost s .consumer) (start 1) actions := by
  let advances (t : Thread Unit) (n : Nat) : List (Action Unit) := List.replicate n (.advance t)
  obtain ⟨final,ran,woken,values⟩ : ∃ final : State Unit,
      run step (start 1)
        ([.call .producer .getProducerValue] ++ advances .producer 3 ++
          [.call .producer (.addConsumerValue 0)] ++ advances .producer 4 ++
          [.call .producer .getProducerValue] ++ advances .producer 3 ++
          [.call (.consumer ()) .getConsumerValue] ++ advances (.consumer ()) 3 ++
          [.call (.consumer ()) (.addProducerValue 0)] ++ advances (.consumer ()) 4) = some final ∧
      final.pc .producer = .locking .producer ∧ final.queue.producerValues = [0] :=
    ⟨_,rfl,rfl,rfl⟩
  exact ⟨_,final,ran,woken,values,no_lost_wakeup_iff 1 _ final ran⟩

end OcrSuite.Wakeup
