import OcrSuite.QueueWakeup

/-! The queue with its mutexes and waits refines the queue whose critical sections are single
steps. A thread's operation takes effect where it updates the lists under the mutex; what it
does before and after that is invisible to the other threads. -/
namespace OcrSuite.Wakeup

open ValueQueue Ownership Transition

/-- The buffer of a pending call of `add_consumer_value` or `add_producer_value`. -/
def Pc.carried : Pc → List Buffer
  | .entering update | .inside update => update.carried
  | _ => []

/-- The thread is between the effects of the two halves of `shutdown`. -/
def Pc.closing : Pc → Bool
  | .entering update | .inside update => update = .shutdownConsumer
  | .leaving update | .notifying update => update = .shutdownProducer
  | _ => false

variable {κ : Type}

/-- The buffers at each place, those of a pending call among the buffers of its thread. -/
def State.contents (s : State κ) : Clients.Place (Thread κ) → List Buffer
  | .producerValues => s.queue.producerValues
  | .consumerValues => s.queue.consumerValues
  | .hands t => (s.pc t).carried ++ s.held t

structure Matches (s : State κ) (c : Clients (Thread κ)) : Prop where
  queue : c.queue = s.queue
  held : ∀ t, (c.hands t).Perm ((s.pc t).carried ++ s.held t)
  closed : ∀ t, c.closing t = (s.pc t).closing

theorem start_matches (maxObjects : Nat) :
    Matches (start maxObjects : State κ) (Clients.start maxObjects) := by
  constructor <;> simp [start,Clients.start,Pc.carried,Pc.closing]

theorem Matches.contents {s : State κ} {c : Clients (Thread κ)} (matched : Matches s c)
    (p : Clients.Place (Thread κ)) : (s.contents p).Perm (c.contents p) := by
  cases p with
  | producerValues => simp [State.contents,Clients.contents,matched.queue]
  | consumerValues => simp [State.contents,Clients.contents,matched.queue]
  | hands t => exact (matched.held t).symm

variable [DecidableEq κ]

omit [DecidableEq κ] in
@[simp] theorem notify_carried (s : State κ) (side : Side) (u : Thread κ) :
    ((s.notify side).pc u).carried = (s.pc u).carried := by
  rcases notify_pc s side u with ⟨waiting,woken⟩ | ⟨_,same⟩
  · simp [waiting,woken,Pc.carried]
  · rw [same]

omit [DecidableEq κ] in
@[simp] theorem notify_closing (s : State κ) (side : Side) (u : Thread κ) :
    ((s.notify side).pc u).closing = (s.pc u).closing := by
  rcases notify_pc s side u with ⟨waiting,woken⟩ | ⟨_,same⟩
  · simp [waiting,woken,Pc.closing]
  · rw [same]

/-- A step of one thread in both systems. The other threads may at most be woken up. -/
theorem Matches.acted {s s' : State κ} {c c' : Clients (Thread κ)} (matched : Matches s c)
    (t : Thread κ) (queue : c'.queue = s'.queue)
    (held : (c'.hands t).Perm ((s'.pc t).carried ++ s'.held t))
    (closed : c'.closing t = (s'.pc t).closing)
    (others : ∀ u, u ≠ t → (s'.pc u).carried = (s.pc u).carried ∧
      (s'.pc u).closing = (s.pc u).closing ∧ s'.held u = s.held u)
    (apart : ∀ u, u ≠ t → c'.hands u = c.hands u ∧ c'.closing u = c.closing u) :
    Matches s' c' := by
  refine ⟨queue,fun u => ?_,fun u => ?_⟩
  · by_cases same : u = t
    · exact same ▸ held
    · obtain ⟨carried,_,kept⟩ := others u same
      rw [(apart u same).1,carried,kept]
      exact matched.held u
  · by_cases same : u = t
    · exact same ▸ closed
    · rw [(apart u same).2,(others u same).2.1]
      exact matched.closed u

/-- A step before or after the effect of the thread's operation. -/
theorem Matches.silent {s s' : State κ} {c : Clients (Thread κ)} (matched : Matches s c)
    (t : Thread κ) (queue : s'.queue = s.queue)
    (held : ((s.pc t).carried ++ s.held t).Perm ((s'.pc t).carried ++ s'.held t))
    (closed : (s'.pc t).closing = (s.pc t).closing)
    (others : ∀ u, u ≠ t → (s'.pc u).carried = (s.pc u).carried ∧
      (s'.pc u).closing = (s.pc u).closing ∧ s'.held u = s.held u) :
    ∃ c', Reachable Clients.step c c' ∧ Matches s' c' :=
  ⟨c,.start,matched.acted t (matched.queue.trans queue.symm) ((matched.held t).trans held)
    ((matched.closed t).trans closed.symm) others fun _ _ => ⟨rfl,rfl⟩⟩

/-- The critical section of a getter in the atomic queue. -/
theorem take_step {c : Clients (Thread κ)} {t : Thread κ} {side : Side} {result : Option Buffer}
    {q : ValueQueue} (running : c.closing t = false) (got : take side c.queue = some (result,q)) :
    ∃ a delivered, c.step a = some { c with
      queue := q
      hands := Function.update c.hands t (result.toList ++ c.hands t)
      delivered := delivered } := by
  cases side with
  | producer =>
    have got : c.queue.getProducerValue = some (result,q) := got
    refine ⟨.getProducerValue t,c.delivered,?_⟩
    cases result <;> simp [Clients.step,Clients.take,running,got]
  | consumer =>
    have got : c.queue.getConsumerValue = some (result,q) := got
    cases result with
    | none => exact ⟨.getConsumerValue t,c.delivered,by simp [Clients.step,running,got]⟩
    | some value =>
      exact ⟨.getConsumerValue t,c.delivered ++ [(t,value)],by
        simp [Clients.step,Clients.take,running,got]⟩

/-- A getter takes effect when it takes a buffer or finds the queue closed. -/
theorem took_matches {s : State κ} {c : Clients (Thread κ)} {t : Thread κ} {side : Side}
    {result : Option Buffer} {q : ValueQueue} (matched : Matches s c) (pc : s.pc t = .taking side)
    (got : take side s.queue = some (result,q)) :
    ∃ c', Reachable Clients.step c c' ∧ Matches { s.release side t .idle with
      queue := q
      held := Function.update s.held t (s.held t ++ result.toList) } c' := by
  have running : c.closing t = false := by simp [matched.closed,pc,Pc.closing]
  have mine : (c.hands t).Perm (s.held t) := by simpa [pc,Pc.carried] using matched.held t
  obtain ⟨a,delivered,taken⟩ := take_step running (by rw [matched.queue]; exact got)
  refine ⟨_,.extend .start taken,matched.acted t rfl ?_ ?_ ?_ ?_⟩
  · simpa [Pc.carried] using List.perm_append_comm.trans (mine.append_right result.toList)
  · simp [running,Pc.closing]
  · intro u other
    simp [other]
  · intro u other
    simp [other]

/-- The critical section of an addition or of a half of `shutdown` in the atomic queue. -/
theorem update_step {c : Clients (Thread κ)} {t : Thread κ} {update : Update}
    (closed : c.closing t = decide (update = .shutdownConsumer))
    (held : update.carried ⊆ c.hands t) :
    ∃ a added, c.step a = some { c with
      queue := update.apply c.queue
      hands := Function.update c.hands t ((c.hands t).diff update.carried)
      closing := Function.update c.closing t (decide (update = .shutdownProducer))
      added := added } := by
  cases update with
  | addConsumerValue value =>
    have running : c.closing t = false := by simpa using closed
    have same : Function.update c.closing t false = c.closing := by
      rw [← running,Function.update_eq_self]
    have here : value ∈ c.hands t := by simpa [Update.carried] using held
    exact ⟨.addConsumerValue t value,c.added ++ [value],by
      simp [Clients.step,Clients.release,Update.carried,Update.apply,running,same,here]⟩
  | addProducerValue value =>
    have running : c.closing t = false := by simpa using closed
    have same : Function.update c.closing t false = c.closing := by
      rw [← running,Function.update_eq_self]
    have here : value ∈ c.hands t := by simpa [Update.carried] using held
    exact ⟨.addProducerValue t value,c.added,by
      simp [Clients.step,Clients.release,Update.carried,Update.apply,running,same,here]⟩
  | shutdownProducer =>
    have running : c.closing t = false := by simpa using closed
    exact ⟨.shutdownProducer t,c.added,by simp [Clients.step,Update.carried,Update.apply,running]⟩
  | shutdownConsumer =>
    have running : c.closing t = true := by simpa using closed
    exact ⟨.shutdownConsumer t,c.added,by simp [Clients.step,Update.carried,Update.apply,running]⟩

/-- An addition or a half of `shutdown` takes effect when it updates the lists. -/
theorem updated_matches {s : State κ} {c : Clients (Thread κ)} {t : Thread κ} {update : Update}
    (matched : Matches s c) (pc : s.pc t = .inside update) :
    ∃ c', Reachable Clients.step c c' ∧
      Matches { s.goto t (.leaving update) with queue := update.apply s.queue } c' := by
  have mine : (c.hands t).Perm (update.carried ++ s.held t) := by
    simpa [pc,Pc.carried] using matched.held t
  have held : update.carried ⊆ c.hands t := fun value inside =>
    mine.mem_iff.mpr (List.mem_append_left _ inside)
  obtain ⟨a,added,taken⟩ := update_step (by simp [matched.closed,pc,Pc.closing]) held
  refine ⟨_,.extend .start taken,matched.acted t ?_ ?_ ?_ ?_ ?_⟩
  · simp [matched.queue]
  · have rest := mine.diff_right update.carried
    cases update <;> simpa [Pc.carried,Update.carried] using rest
  · simp [Pc.closing]
  · intro u other
    simp [other]
  · intro u other
    simp [other]

theorem step_matches {s s' : State κ} {a : Action κ} {c : Clients (Thread κ)}
    (matched : Matches s c) (taken : step s a = some s') :
    ∃ c', Reachable Clients.step c c' ∧ Matches s' c' := by
  cases step_stepped taken with
  | took t side result q pc got => exact took_matches matched pc got
  | updated t update pc => exact updated_matches matched pc
  | adding t call update value pc carried held =>
    refine matched.silent t rfl ?_ ?_ fun u other => by simp [other]
    · simpa [pc,Pc.carried,carried] using List.perm_cons_erase held
    · cases update <;> simp_all [Pc.closing,Update.carried]
  | notified t update pc =>
    refine matched.silent t rfl ?_ ?_ fun u other => by simp [other]
    · cases update <;> simp [pc,Update.after,Pc.carried,Update.carried]
    · cases update <;> simp [pc,Update.after,Pc.closing]
  | getting t call side pc | closing t call pc | locked t side pc free | tested t side pc holds
  | failed t side pc unready | blocked t side pc | entered t update pc free | left t update pc
  | stopped t pc stop | returned t pc stop | finished t pc =>
    refine matched.silent t rfl ?_ ?_ fun u other => by simp [other]
    · simp [pc,Pc.carried,Update.carried]
    · simp [pc,Pc.closing]

/-- Every state of the queue with its mutexes stands for a state that the atomic queue reaches. -/
theorem reachable_matches {maxObjects : Nat} {s : State κ}
    (reached : Reachable step (start maxObjects) s) :
    ∃ c, Reachable Clients.step (Clients.start maxObjects) c ∧ Matches s c :=
  reached.related (start_matches maxObjects) fun _ _ _ _ matched taken => step_matches matched taken

/-- Between any two instructions every buffer is in one place, also while a thread waits for
the mutex to give it back. -/
theorem reachable_exclusive {maxObjects : Nat} {s : State κ}
    (reached : Reachable step (start maxObjects) s) :
    Exclusive s.contents (List.range maxObjects) := by
  obtain ⟨c,reached,matched⟩ := reachable_matches reached
  exact (Clients.reachable_exclusive reached).congr matched.contents

end OcrSuite.Wakeup
