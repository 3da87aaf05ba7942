import OcrSuite.Checkpoint
import OcrSuite.Decoder
import OcrSuite.Migration

/-! A complete run of the recogniser: the decoder starts behind the checkpoint of the database,
the queue carries what the decoder passes on, and the consumers look each frame up in the
database before they give it to the provider. -/
namespace OcrSuite.Coverage

open Transition Recogniser Migration

variable {κ F R φ V : Type} [Mul V] [Div V] [IntCast V] [Arithmetic V]

/-- A frame that a consumer has looked up. -/
structure Examination (κ φ : Type) where
  consumer : κ
  frame : Frame φ
  processed : Bool

/-- The threads of `main`: `queue` has where they are with their buffers, `work` where the
consumers are with the content. `asked` are the frames that the provider was called with. -/
structure State (κ F R φ : Type) where
  queue : Completion.State κ (Frame φ)
  work : Checkpoint.State κ F R φ
  examined : List (Examination κ φ)
  asked : List (Frame φ)

/-- No step throws and no statement fails. -/
inductive Action (κ : Type) where
  | queue (a : Completion.Action κ)
  | doOcr (i : κ)
  | storeLastFrameNumber (i : κ)
  | storeEntries (i : κ)

/-- What `to_frame` takes over. -/
def toFrame (call : AvFrame φ × Int) : Frame φ := ⟨call.2,call.1.image⟩

/-- The frames that `on_frame` puts into the queue. -/
def passedOn (db : Store R) (d : Decoder V) (seek : SeekFile φ) (packets : List (Packet φ)) :
    List (Frame φ) :=
  (({ d with startingFrame := db.getStartingFrameNumber } : Decoder V).decode seek
    (fun _ _ => .decodeNext) packets).map toFrame

/-- The run of a new process with two buffers for each of its consumers. -/
def main (db : Store R) (threads : Nat) (memory : Buffer → Frame φ) (frames : List (Frame φ)) :
    State (Fin threads) F R φ :=
  ⟨Completion.start (threads * 2) memory frames,Checkpoint.start db [],[],[]⟩

variable [DecidableEq κ]

/-- A consumer works on a frame from the time it reads it until it returns the buffer. -/
def step (driver : Driver F R) (provider : Provider F φ) (s : State κ F R φ) :
    Action κ → Option (State κ F R φ)
  | .queue a => do
    let queue ← Completion.step s.queue a
    match a with
    | .read i =>
      match s.queue.consumer i with
      | .reading value =>
        let work ← Checkpoint.step driver provider { s.work with frames := [s.queue.memory value] }
          (.getConsumerValue i)
        some { s with queue := queue, work := work }
      | _ => none
    | .addProducerValue i =>
      match s.work.consumer i with
      | .idle => some { s with queue := queue }
      | _ => none
    | _ => some { s with queue := queue }
  | .doOcr i =>
    match s.work.consumer i with
    | .holding f =>
      if s.work.process.store.isFrameProcessed f.frameNumber then
        some { s with work := s.work.goto i .idle, examined := s.examined ++ [⟨i,f,true⟩] }
      else
        let asked : State κ F R φ :=
          { s with examined := s.examined ++ [⟨i,f,false⟩], asked := s.asked ++ [f] }
        match Recogniser.doOcr provider f with
        | none => some { asked with work := s.work.goto i .idle }
        | some result => some { asked with work := s.work.goto i (.storing result) }
    | _ => none
  | .storeLastFrameNumber i => do
    let work ← Checkpoint.step driver provider s.work (.storeLastFrameNumber i false)
    some { s with work := work }
  | .storeEntries i => do
    let work ← Checkpoint.step driver provider s.work (.storeEntries i none)
    some { s with work := work }

/-- The frames whose numbers had rows when they were looked up. -/
def found (examined : List (Examination κ φ)) : List (Frame φ) :=
  (examined.filter Examination.processed).map Examination.frame

/-- The frames whose numbers had none. -/
def offered (examined : List (Examination κ φ)) : List (Frame φ) :=
  (examined.filter fun e => !e.processed).map Examination.frame

/-- The decoded frames that pass the filter. -/
def wantedFrames (d : Decoder V) (packets : List (Packet φ)) : List (Frame φ) :=
  ((delivered packets).filter d.wanted).map fun f => toFrame (f,d.frameNumber f)

/-- The provider was called with every frame that is wanted, as often as it was decoded, except
where the number of the frame had rows. -/
def Covered (d : Decoder V) (packets : List (Packet φ)) (s : State κ F R φ) : Prop :=
  (wantedFrames d packets).Subperm (s.asked ++ found s.examined)

/-! ## The steps -/

inductive Stepped (driver : Driver F R) (provider : Provider F φ) (s : State κ F R φ) :
    Action κ → State κ F R φ → Prop where
  | read (i : κ) (value : Buffer) (queue : Completion.State κ (Frame φ)) :
      s.queue.consumer i = .reading value → s.work.consumer i = .idle →
      Completion.step s.queue (.read i) = some queue →
      Stepped driver provider s (.queue (.read i)) { s with
        queue := queue
        work := { s.work.goto i (.holding (s.queue.memory value)) with
          frames := []
          handed := s.work.handed ++ [s.queue.memory value] } }
  | queue (a : Completion.Action κ) (queue : Completion.State κ (Frame φ)) :
      (∀ i, a ≠ .read i) → (∀ i, a = .addProducerValue i → s.work.consumer i = .idle) →
      Completion.step s.queue a = some queue →
      Stepped driver provider s (.queue a) { s with queue := queue }
  | examined (i : κ) (f : Frame φ) (processed : Bool) (pc : Checkpoint.ConsumerPc F φ) :
      s.work.consumer i = .holding f → (∀ g, pc ≠ .holding g) →
      Checkpoint.step driver provider s.work (.doOcr i) = some (s.work.goto i pc) →
      Stepped driver provider s (.doOcr i) { s with
        work := s.work.goto i pc
        examined := s.examined ++ [⟨i,f,processed⟩]
        asked := s.asked ++ if processed then [] else [f] }
  | stored (a : Action κ) (i : κ) (pc : Checkpoint.ConsumerPc F φ) (process : Process R) :
      (a = .storeLastFrameNumber i ∨ a = .storeEntries i) →
      s.work.consumer i ≠ .idle → (∀ f, s.work.consumer i ≠ .holding f) → (∀ f, pc ≠ .holding f) →
      Stepped driver provider s a { s with work := { s.work.goto i pc with process := process } }

theorem step_stepped {driver : Driver F R} {provider : Provider F φ} {s t : State κ F R φ}
    {a : Action κ} (taken : step driver provider s a = some t) : Stepped driver provider s a t := by
  cases a with
  | queue a =>
    obtain ⟨queue,moved,later⟩ := Option.bind_eq_some_iff.mp taken
    cases a with
    | read i =>
      cases at_ : s.queue.consumer i with
      | reading value =>
        simp only [at_] at later
        obtain ⟨work,fetched,same⟩ := Option.bind_eq_some_iff.mp later
        obtain rfl := Option.some.inj same
        cases Checkpoint.step_stepped fetched with
        | handed _ f rest idle first =>
          obtain ⟨rfl,rfl⟩ : s.queue.memory value = f ∧ [] = rest := by simpa using first
          exact .read i value queue at_ idle moved
      | _ => simp [at_] at later
    | addProducerValue i =>
      cases idle : s.work.consumer i with
      | idle =>
        simp only [idle,Option.some.injEq] at later
        subst t
        exact .queue _ queue (by simp) (by simp [idle]) moved
      | _ => simp [idle] at later
    | _ =>
      obtain rfl := Option.some.inj later
      exact .queue _ queue (by simp) (by simp) moved
  | doOcr i =>
    cases holding : s.work.consumer i with
    | holding f =>
      simp only [step,holding] at taken
      split at taken
      case isTrue processed =>
        obtain rfl := Option.some.inj taken
        have same : Checkpoint.step driver provider s.work (.doOcr i) = some (s.work.goto i .idle) := by
          simp [Checkpoint.step,holding,processed]
        have looked := Stepped.examined i f true .idle holding (by simp) same
        rwa [if_pos rfl,List.append_nil] at looked
      case isFalse unprocessed =>
        split at taken
        case h_1 failed =>
          obtain rfl := Option.some.inj taken
          have same : Checkpoint.step driver provider s.work (.doOcr i) = some (s.work.goto i .idle) := by
            simp [Checkpoint.step,holding,unprocessed,failed]
          exact .examined i f false .idle holding (by simp) same
        case h_2 result recognised =>
          obtain rfl := Option.some.inj taken
          have same : Checkpoint.step driver provider s.work (.doOcr i) =
              some (s.work.goto i (.storing result)) := by
            simp [Checkpoint.step,holding,unprocessed,recognised]
          exact .examined i f false (.storing result) holding (by simp) same
    | _ => simp [step,holding] at taken
  | storeLastFrameNumber i =>
    obtain ⟨work,checked,same⟩ := Option.bind_eq_some_iff.mp taken
    obtain rfl := Option.some.inj same
    cases Checkpoint.step_stepped checked with
    | checkpointed _ result storing =>
      exact .stored _ i _ _ (.inl rfl) (by simp [storing]) (by simp [storing])
        (by split <;> simp)
  | storeEntries i =>
    obtain ⟨work,inserted,same⟩ := Option.bind_eq_some_iff.mp taken
    obtain rfl := Option.some.inj same
    cases Checkpoint.step_stepped inserted with
    | inserted _ result _ inserting =>
      exact .stored _ i _ _ (.inr rfl) (by simp [inserting]) (by simp [inserting])
        (by split <;> simp)

/-! ## Who has looked at what -/

def pending : Checkpoint.ConsumerPc F φ → List (Frame φ)
  | .holding f => [f]
  | _ => []

@[simp] theorem pending_holding (f : Frame φ) : pending (.holding f : Checkpoint.ConsumerPc F φ) = [f] :=
  rfl

@[simp] theorem pending_idle : pending (.idle : Checkpoint.ConsumerPc F φ) = [] := rfl

theorem pending_eq_nil {pc : Checkpoint.ConsumerPc F φ} (other : ∀ f, pc ≠ .holding f) :
    pending pc = [] := by
  cases pc with
  | holding f => exact absurd rfl (other f)
  | _ => rfl

def log (examined : List (Examination κ φ)) : List (κ × Frame φ) :=
  examined.map fun e => (e.consumer,e.frame)

structure Invariant (s : State κ F R φ) : Prop where
  read : ∀ i, Completion.own s.queue.obtained i =
    Completion.own (log s.examined) i ++ pending (s.work.consumer i)
  busy : ∀ i, s.work.consumer i ≠ .idle → ∃ value, s.queue.consumer i = .returning value

/-- Other actions than `read` leave what has been read, and where the consumers are that work. -/
theorem queue_step {s t : Completion.State κ (Frame φ)} {a : Completion.Action κ}
    (other : ∀ i, a ≠ .read i) (taken : Completion.step s a = some t) :
    t.obtained = s.obtained ∧ ∀ i value, a ≠ .addProducerValue i →
      s.consumer i = .returning value → t.consumer i = .returning value := by
  cases Completion.step_stepped taken with
  | read i => exact absurd rfl (other i)
  | closed | fetched | wrote | added | stopped | drained => exact ⟨rfl,fun _ _ _ at_ => at_⟩
  | finished i pc | delivered i value rest pc | returned i value pc =>
    refine ⟨rfl,fun k held elsewhere at_ => ?_⟩
    by_cases same : k = i
    · subst k
      simp_all
    · simpa [Completion.setConsumer,same] using at_

omit [DecidableEq κ] in
@[simp] theorem log_append (examined : List (Examination κ φ)) (e : Examination κ φ) :
    log (examined ++ [e]) = log examined ++ [(e.consumer,e.frame)] := by
  simp [log]

theorem step_invariant {driver : Driver F R} {provider : Provider F φ} {s t : State κ F R φ}
    {a : Action κ} (valid : Invariant s) (taken : step driver provider s a = some t) :
    Invariant t := by
  cases step_stepped taken with
  | read i value queue at_ idle moved =>
    cases Completion.step_stepped moved with
    | read _ same reading =>
      obtain rfl : value = same := by simpa [at_] using reading
      constructor
      · intro k
        have before := valid.read k
        by_cases same : k = i
        · subst k
          simpa [idle] using before
        · simpa [Completion.own_append_other _ same,Checkpoint.State.goto_other _ same] using before
      · intro k working
        by_cases same : k = i
        · subst k
          exact ⟨value,by simp [Completion.setConsumer]⟩
        · obtain ⟨held,returning⟩ := valid.busy k (by simpa [Checkpoint.State.goto_other _ same] using working)
          exact ⟨held,by simpa [Completion.setConsumer,same] using returning⟩
  | queue a queue other idle moved =>
    obtain ⟨obtained,kept⟩ := queue_step other moved
    refine ⟨fun k => by simpa [obtained] using valid.read k,fun k working => ?_⟩
    obtain ⟨held,returning⟩ := valid.busy k working
    exact ⟨held,kept k held (fun here => working (idle k here)) returning⟩
  | examined i f processed pc holding past =>
    constructor
    · intro k
      have before := valid.read k
      by_cases same : k = i
      · subst k
        simpa [holding,pending_eq_nil past] using before
      · simpa [Completion.own_append_other _ same,Checkpoint.State.goto_other _ same] using before
    · intro k working
      by_cases same : k = i
      · exact valid.busy k (by simp [same,holding])
      · exact valid.busy k (by simpa [Checkpoint.State.goto_other _ same] using working)
  | stored a i pc process _ working looked past =>
    constructor
    · intro k
      have before := valid.read k
      by_cases same : k = i
      · subst k
        simpa [pending_eq_nil looked,pending_eq_nil past] using before
      · simpa [Checkpoint.State.goto_other _ same] using before
    · intro k later
      by_cases same : k = i
      · exact valid.busy k (by simpa [same] using working)
      · exact valid.busy k (by simpa [Checkpoint.State.goto_other _ same] using later)

omit [DecidableEq κ] in
theorem main_invariant (db : Store R) (threads : Nat) (memory : Buffer → Frame φ)
    (frames : List (Frame φ)) : Invariant (F := F) (main db threads memory frames) := by
  constructor
  · simp [main,Completion.start,Checkpoint.start,Completion.own,log]
  · simp [main,Checkpoint.start]

theorem reachable_invariant {driver : Driver F R} {provider : Provider F φ} {db : Store R}
    {threads : Nat} {memory : Buffer → Frame φ} {frames : List (Frame φ)}
    {s : State (Fin threads) F R φ}
    (reached : Reachable (step driver provider) (main db threads memory frames) s) : Invariant s :=
  reached.invariant (main_invariant db threads memory frames)
    fun _ _ _ _ valid _ taken => step_invariant valid taken

/-- The queue is used as in the system of the queue alone. -/
theorem reachable_queue {driver : Driver F R} {provider : Provider F φ} {db : Store R}
    {threads : Nat} {memory : Buffer → Frame φ} {frames : List (Frame φ)}
    {s : State (Fin threads) F R φ}
    (reached : Reachable (step driver provider) (main db threads memory frames) s) :
    Reachable Completion.step (Completion.start (threads * 2) memory frames) s.queue := by
  refine reached.simulate State.queue fun s a t taken => ?_
  cases step_stepped taken with
  | read i value queue _ _ moved => exact .next .start trivial moved
  | queue a queue _ _ moved => exact .next .start trivial moved
  | examined | stored => exact .start

/-- Without buffers and consumers there is no first step, unless there is nothing to send. -/
theorem nothing_sent {ι : Type} {memory : Buffer → ι} {items : List ι}
    {s : Completion.State (Fin 0) ι}
    (reached : Reachable Completion.step (Completion.start 0 memory items) s)
    (finished : Completion.Finished s) : items = [] := by
  have stuck : items = [] ∨ s = Completion.start 0 memory items := by
    refine reached.invariant (P := fun s => items = [] ∨ s = Completion.start 0 memory items)
      (.inr rfl) ?_
    rintro s a t _ (none | rfl) _ taken
    · exact .inl none
    · cases items with
      | nil => exact .inl rfl
      | cons item rest =>
        cases a with
        | getConsumerValue i | read i | addProducerValue i => exact i.elim0
        | _ => simp [Completion.step,Completion.start,Completion.resume,ValueQueue.new,
            ValueQueue.getProducerValue,ValueQueue.producerReady] at taken
  rcases stuck with none | rfl
  · exact none
  · cases items with
    | nil => rfl
    | cons => simp [Completion.Finished,Completion.start,Completion.resume] at finished

/-- When all threads have finished, every frame that was put into the queue has been looked up. -/
theorem finished_examined {driver : Driver F R} {provider : Provider F φ} {db : Store R}
    {threads : Nat} {memory : Buffer → Frame φ} {frames : List (Frame φ)}
    {s : State (Fin threads) F R φ}
    (reached : Reachable (step driver provider) (main db threads memory frames) s)
    (finished : Completion.Finished s.queue) : frames.Perm (s.examined.map Examination.frame) := by
  have queue := reachable_queue reached
  have valid := reachable_invariant reached
  have same (i : Fin threads) :
      Completion.own s.queue.obtained i = Completion.own (log s.examined) i := by
    have idle : s.work.consumer i = .idle := by
      by_contra working
      obtain ⟨value,returning⟩ := valid.busy i working
      simp [finished.2 i] at returning
    simpa [idle] using valid.read i
  cases threads with
  | zero =>
    obtain rfl := nothing_sent queue finished
    have none : s.examined = [] := by
      cases first : s.examined with
      | nil => rfl
      | cons e => exact e.consumer.elim0
    simp [none]
  | succ n =>
    obtain ⟨order,_,received⟩ := Completion.finished_handed queue finished 0
    have read := Completion.perm_of_own fun i => (received i).trans (same i)
    simpa [order,log,Function.comp_def] using read.map Prod.snd

/-! ## What the provider was called with -/

theorem step_asked {driver : Driver F R} {provider : Provider F φ} {s t : State κ F R φ} {a : Action κ}
    (same : s.asked = offered s.examined) (taken : step driver provider s a = some t) :
    t.asked = offered t.examined := by
  cases step_stepped taken with
  | read | queue | stored => exact same
  | examined i f processed => cases processed <;> simp [same,offered]

theorem reachable_asked {driver : Driver F R} {provider : Provider F φ} {db : Store R}
    {threads : Nat} {memory : Buffer → Frame φ} {frames : List (Frame φ)}
    {s : State (Fin threads) F R φ}
    (reached : Reachable (step driver provider) (main db threads memory frames) s) :
    s.asked = offered s.examined :=
  reached.invariant (P := fun s => s.asked = offered s.examined) rfl
    fun _ _ _ _ same _ taken => step_asked same taken

/-- When all threads have finished, the provider was called with all frames but those that were
found in the database. -/
theorem finished_asked {driver : Driver F R} {provider : Provider F φ} {db : Store R}
    {threads : Nat} {memory : Buffer → Frame φ} {frames : List (Frame φ)}
    {s : State (Fin threads) F R φ}
    (reached : Reachable (step driver provider) (main db threads memory frames) s)
    (finished : Completion.Finished s.queue) : frames.Perm (s.asked ++ found s.examined) := by
  have parts : (found s.examined ++ offered s.examined).Perm (s.examined.map Examination.frame) := by
    rw [found,offered,← List.map_append]
    exact (List.filter_append_perm Examination.processed s.examined).map _
  rw [reachable_asked reached]
  exact (finished_examined reached finished).trans (parts.symm.trans List.perm_append_comm)

/-! ## Runs that finish -/

section Finish

variable {driver : Driver F R} (provider : Provider F φ)

/-- The tables are such that nothing fails that is stored. -/
def Sound (driver : Driver F R) (db : Store R) : Prop :=
  ∃ words : List (Word F), db.toTextTables.Refines (words.map (Word.row driver))

theorem sound_fresh (driver : Driver F R) : Sound driver .fresh := ⟨[],TextTables.empty_refines⟩

theorem Sound.storeLastFrameNumber {p : Process R} (sound : Sound driver p.store) (number : Int) :
    Sound driver (p.storeLastFrameNumber number).store := by
  unfold Process.storeLastFrameNumber
  split <;> exact sound

/-- A consumer that holds a frame can come to its end with it. -/
theorem exists_handled {s : State κ F R φ} {i : κ} {f : Frame φ} (holding : s.work.consumer i = .holding f)
    (sound : Sound driver s.work.process.store) : ∃ t, Reachable (step driver provider) s t ∧
      t.queue = s.queue ∧ t.work.consumer = Function.update s.work.consumer i .idle ∧
      Sound driver t.work.process.store := by
  by_cases processed : s.work.process.store.isFrameProcessed f.frameNumber = true
  · have looked : step driver provider s (.doOcr i) =
        some { s with work := s.work.goto i .idle, examined := s.examined ++ [⟨i,f,true⟩] } := by
      simp [step,holding,processed]
    exact ⟨_,.next .start trivial looked,rfl,rfl,sound⟩
  let asked : State κ F R φ := { s with examined := s.examined ++ [⟨i,f,false⟩], asked := s.asked ++ [f] }
  cases found : Recogniser.doOcr provider f with
  | none =>
    have looked : step driver provider s (.doOcr i) = some { asked with work := s.work.goto i .idle } := by
      simp [step,holding,processed,found,asked]
    exact ⟨_,.next .start trivial looked,rfl,rfl,sound⟩
  | some result =>
    let storing : State κ F R φ := { asked with work := s.work.goto i (.storing result) }
    have looked : step driver provider s (.doOcr i) = some storing := by
      simp [step,holding,processed,found,asked,storing]
    let checked : Process R := s.work.process.storeLastFrameNumber result.frameNumber
    let later : Checkpoint.ConsumerPc F φ := if result.entries.isEmpty then .idle else .inserting result
    have here : storing.work.consumer i = .storing result := s.work.goto_same i _
    have stored : step driver provider storing (.storeLastFrameNumber i) =
        some { storing with work := { storing.work.goto i later with process := checked } } := by
      simp only [step,Checkpoint.step,here]
      rfl
    have after : Sound driver checked.store := sound.storeLastFrameNumber _
    have twice (pc other : Checkpoint.ConsumerPc F φ) : Function.update
        (Function.update s.work.consumer i pc) i other = Function.update s.work.consumer i other := by simp
    by_cases empty : result.entries = []
    · refine ⟨_,.next (.next .start trivial looked) trivial stored,rfl,?_,after⟩
      have done : later = .idle := by simp [later,empty]
      rw [done]
      exact twice _ _
    · obtain ⟨words,refines⟩ := after
      have finished := storeEntries_finished driver refines result
      have refined := (storeEntries_refines driver refines ⟨result,none⟩ empty).1
      have inserting : (storing.work.goto i later).consumer i = .inserting result := by
        simp [Checkpoint.State.goto,later,empty]
      have inserted : step driver provider
          { storing with work := { storing.work.goto i later with process := checked } } (.storeEntries i) =
          some { storing with work := { (storing.work.goto i later).goto i .idle with
            process := (checked.storeEntries driver result none).1 } } := by
        have flag : (checked.storeEntries driver result none).2 = true := finished
        simp only [step,Checkpoint.step,inserting,flag,if_true]
        rfl
      refine ⟨_,.next (.next (.next .start trivial looked) trivial stored) trivial inserted,rfl,?_,_,refined⟩
      change Function.update (Function.update (Function.update s.work.consumer i _) i later) i _ = _
      rw [twice,twice]

/-- Whatever the queue can do, the threads can do with it. -/
theorem exists_with_queue {db : Store R} (sound : Sound driver db) {threads : Nat}
    {memory : Buffer → Frame φ} {frames : List (Frame φ)} {q : Completion.State (Fin threads) (Frame φ)}
    (reached : Reachable Completion.step (Completion.start (threads * 2) memory frames) q) :
    ∃ s : State (Fin threads) F R φ, Reachable (step driver provider) (main db threads memory frames) s ∧
      s.queue = q ∧ (∀ i, s.work.consumer i = .idle) ∧ Sound driver s.work.process.store := by
  induction reached with
  | start => exact ⟨_,.start,rfl,fun _ => rfl,sound⟩
  | @next _ a q' _ _ moved ih =>
    obtain ⟨s,there,rfl,idle,sound⟩ := ih
    by_cases reads : ∃ i, a = .read i
    · obtain ⟨i,rfl⟩ := reads
      obtain ⟨value,at_⟩ : ∃ value, s.queue.consumer i = .reading value := by
        cases Completion.step_stepped moved with
        | read _ value at_ => exact ⟨value,at_⟩
      let work : Checkpoint.State (Fin threads) F R φ := { s.work.goto i (.holding (s.queue.memory value)) with
        frames := []
        handed := s.work.handed ++ [s.queue.memory value] }
      have taken : step driver provider s (.queue (.read i)) = some { s with queue := q', work := work } := by
        simp [step,moved,at_,Checkpoint.step,idle,work,Checkpoint.State.goto]
      have holding : work.consumer i = .holding (s.queue.memory value) := s.work.goto_same i _
      obtain ⟨t,later,queue,consumer,sound⟩ :=
        exists_handled provider (s := { s with queue := q', work := work }) holding sound
      refine ⟨t,(there.extend taken).trans later,queue,fun k => ?_,sound⟩
      by_cases same : k = i
      · simp [consumer,same]
      · simp [consumer,same,work,Checkpoint.State.goto,idle]
    · have taken : step driver provider s (.queue a) = some { s with queue := q' } := by
        cases a with
        | read i => exact absurd ⟨i,rfl⟩ reads
        | addProducerValue i => simp [step,moved,idle]
        | _ => simp [step,moved]
      exact ⟨_,there.extend taken,rfl,idle,sound⟩

/-- A run can always be finished. -/
theorem exists_finished {db : Store R} (sound : Sound driver db) (memory : Buffer → Frame φ)
    (frames : List (Frame φ)) : ∃ s : State (Fin 1) F R φ,
      Reachable (step driver provider) (main db 1 memory frames) s ∧ Completion.Finished s.queue := by
  obtain ⟨q,reached,finished⟩ := Completion.exists_finished (1 * 2) (by decide) memory frames
  obtain ⟨s,there,rfl,_⟩ := exists_with_queue provider sound reached
  exact ⟨s,there,finished⟩

end Finish

/-! ## From the beginning of the video -/

/-- The run on a fresh database starts with frame 1. -/
theorem passedOn_fresh {d : Decoder V} {packets : List (Packet φ)} {seek : SeekFile φ}
    (demuxes : Decoder.Demuxes packets seek)
    (inTime : ∀ f ∈ delivered packets, ({ d with startingFrame := 1 } : Decoder V).InTime f)
    (inTimeThere : ∀ sought position, seek sought = some position → ∀ f ∈ delivered position,
      ({ d with startingFrame := 1 } : Decoder V).InTime f) :
    passedOn (Store.fresh : Store R) d seek packets =
      (({ d with startingFrame := 1 } : Decoder V).calls (delivered packets)).map toFrame := by
  have all := Decoder.decode_eq (d := { d with startingFrame := 1 }) (by simp) demuxes inTime inTimeThere
    fun _ _ => .decodeNext
  rw [upTo_decodeNext] at all
  exact congrArg (List.map toFrame) all

theorem one_le_of_passedOn {d : Decoder V} {packets : List (Packet φ)} {seek : SeekFile φ} {f : Frame φ}
    (member : f ∈ passedOn (Store.fresh : Store R) d seek packets) : 1 ≤ f.frameNumber := by
  obtain ⟨call,inside,rfl⟩ := List.mem_map.mp member
  rw [Decoder.decode,Decoder.run_eq,upTo_decodeNext] at inside
  exact of_decide_eq_true (List.mem_filter.mp inside).2

variable {driver : Driver F R} {provider : Provider F φ}

section Run

variable {d : Decoder V} {packets : List (Packet φ)} {seek : SeekFile φ} {threads : Nat}
  {memory : Buffer → Frame φ} {s : State (Fin threads) F R φ}
  (reached : Reachable (step driver provider)
    (main .fresh threads memory (passedOn (Store.fresh : Store R) d seek packets)) s)
  (finished : Completion.Finished s.queue)

include reached finished

/-- A frame that is wanted and has the number 0 is not seen by the provider. -/
theorem frameNumber_ne_zero (covered : Covered d packets s) {f : AvFrame φ} (member : f ∈ delivered packets)
    (wanted : d.wanted f = true) : d.frameNumber f ≠ 0 := by
  have seen : toFrame (f,d.frameNumber f) ∈ s.asked ++ found s.examined :=
    covered.subset (List.mem_map_of_mem (List.mem_filter.mpr ⟨member,wanted⟩))
  have positive := one_le_of_passedOn ((finished_asked reached finished).mem_iff.mpr seen)
  simp only [toFrame] at positive
  omega

theorem length_wantedFrames_le (covered : Covered d packets s) : (wantedFrames d packets).length ≤
    (passedOn (Store.fresh : Store R) d seek packets).length :=
  (finished_asked reached finished).length_eq ▸ covered.length_le

/-- Frames from number 1 on that are not before a time that is sought are all seen. -/
theorem covered_of_inTime (demuxes : Decoder.Demuxes packets seek)
    (later : ∀ f ∈ delivered packets, d.wanted f = true → 1 ≤ d.frameNumber f)
    (inTime : ∀ f ∈ delivered packets, d.wanted f = true →
      ({ d with startingFrame := 1 } : Decoder V).InTime f) : Covered d packets s := by
  have kept := Decoder.calls_sublist_decode (d := { d with startingFrame := 1 }) (by simp) demuxes inTime
  have all : (({ d with startingFrame := 1 } : Decoder V).calls (delivered packets)).map toFrame =
      wantedFrames d packets := by
    have every : ({ d with startingFrame := 1 } : Decoder V).calls (delivered packets) =
        ((delivered packets).filter d.wanted).map fun f => (f,d.frameNumber f) := by
      refine List.filter_eq_self.mpr fun call member => ?_
      obtain ⟨f,inside,rfl⟩ := List.mem_map.mp member
      obtain ⟨there,wanted⟩ := List.mem_filter.mp inside
      exact decide_eq_true (later f there wanted)
    rw [every,List.map_map]
    rfl
  rw [Covered,← all]
  exact (kept.map toFrame).subperm.trans (finished_asked reached finished).subperm

end Run

/-- A frame before the time that is sought for frame 1 is not seen if the file is positioned there. -/
theorem exists_not_covered (provider : Provider F φ) (driver : Driver F R) {d : Decoder V}
    {packets : List (Packet φ)} {f : AvFrame φ} (member : f ∈ delivered packets) (wanted : d.wanted f = true)
    (early : f.pts < d.frameNumberToTimestamp 1) (memory : Buffer → Frame φ) :
    ∃ (seek : SeekFile φ) (s : State (Fin 1) F R φ), Decoder.Demuxes packets seek ∧
      Reachable (step driver provider)
        (main .fresh 1 memory (passedOn (Store.fresh : Store R) d seek packets)) s ∧
      Completion.Finished s.queue ∧ ¬ Covered d packets s := by
  let kept := (delivered packets).filter fun g => d.frameNumberToTimestamp 1 ≤ g.pts
  let seek : SeekFile φ := fun sought =>
    if sought.head? = some (d.frameNumberToTimestamp 1) then some [⟨kept,false⟩] else none
  have demuxes : Decoder.Demuxes packets seek := by
    intro timestamp before position found
    obtain ⟨there,same⟩ := Option.ite_none_right_eq_some.mp found
    obtain rfl := Option.some.inj same
    obtain rfl : timestamp = d.frameNumberToTimestamp 1 := by simpa using there
    simp [delivered,kept]
  obtain ⟨s,reached,finished⟩ := exists_finished provider (sound_fresh driver) memory
    (passedOn (Store.fresh : Store R) d seek packets)
  refine ⟨seek,s,demuxes,reached,finished,fun covered => ?_⟩
  let first : Decoder V := { d with startingFrame := 1 }
  have opened : first.openInput seek packets = ⟨[⟨kept,false⟩],[(1,true)]⟩ := by
    have time : first.frameNumberToTimestamp 1 = d.frameNumberToTimestamp 1 := rfl
    rw [Decoder.openInput,Decoder.seekToClosestFrame]
    simp [Decoder.seekToFrame,seek,first,time]
  have passed : passedOn (Store.fresh : Store R) d seek packets = (first.calls kept).map toFrame := by
    change (first.decode seek (fun _ _ => .decodeNext) packets).map toFrame = _
    rw [Decoder.decode,opened,Decoder.run_eq,upTo_decodeNext]
    simp [delivered]
  have fewer : (kept.filter d.wanted).length < ((delivered packets).filter d.wanted).length := by
    have less : kept.filter d.wanted =
        ((delivered packets).filter d.wanted).filter fun g => d.frameNumberToTimestamp 1 ≤ g.pts := by
      rw [List.filter_filter,List.filter_filter]
      simp only [Bool.and_comm]
    rw [less,List.length_filter_lt_length_iff_exists]
    exact ⟨f,List.mem_filter.mpr ⟨member,wanted⟩,by simpa using early⟩
  have calls : (first.calls kept).length ≤ (kept.filter d.wanted).length := by
    refine (List.length_filter_le _ _).trans ?_
    rw [List.length_map]
    exact le_rfl
  have bound := length_wantedFrames_le reached finished covered
  rw [passed,wantedFrames,List.length_map,List.length_map] at bound
  omega

/-- On a fresh database the provider is never called in the run of a video whose only frame has the
number 0. -/
theorem first_frame_skipped : ¬ ∀ (provider : Provider Int Unit) (db : Store Int) (d : Decoder Binary64)
    (packets : List (Packet Unit)) (seek : SeekFile Unit) (memory : Buffer → Frame Unit)
    (s : State (Fin 1) Int Int Unit),
    openDatabase Driver.exact .empty = ((Contents.normalised db).disk,true) →
    0 < d.frameRatio.value → 0 < d.timeRatio.value → Decoder.Demuxes packets seek →
    (∀ f ∈ delivered packets, 0 ≤ d.frameNumber f) →
    Reachable (step Driver.exact provider) (main db 1 memory (passedOn db d seek packets)) s →
    Completion.Finished s.queue → Covered d packets s := by
  intro claim
  let d : Decoder Binary64 := ⟨7,0,avQ2d 25 1,avQ2d 1 1000⟩
  let packets : List (Packet Unit) := [⟨[⟨0,.i,()⟩],false⟩]
  let seek : SeekFile Unit := fun _ => none
  have demuxes : Decoder.Demuxes packets seek := by rintro _ _ _ ⟨⟩
  obtain ⟨s,reached,finished⟩ := exists_finished (fun _ => none) (sound_fresh Driver.exact)
    (fun _ => ⟨0,()⟩) (passedOn (Store.fresh : Store Int) d seek packets)
  have covered := claim (fun _ => none) .fresh d packets seek (fun _ => ⟨0,()⟩) s (open_empty _)
    (by decide +kernel) (by decide +kernel) demuxes (by decide +kernel) reached finished
  have zero : d.frameNumber (⟨0,.i,()⟩ : AvFrame Unit) = 0 := by decide +kernel
  exact frameNumber_ne_zero reached finished covered (f := ⟨0,.i,()⟩) (by simp [packets,delivered])
    (by decide) zero

/-- A complete run on a fresh database hands every frame that passes the filter to the provider,
wherever its seeks lead, exactly if none of these has the number 0 or comes before the time that is
sought for frame 1. Below 2^50 ticks none does the latter, and each run with a frame 0 misses it. -/
theorem complete_run_covers_iff (driver : Driver F R) (provider : Provider F φ) (db : Store R)
    (created : openDatabase driver .empty = ((Contents.normalised db).disk,true)) (d : Decoder Binary64)
    (rate : 0 < d.frameRatio.value) (base : 0 < d.timeRatio.value) (packets : List (Packet φ))
    (nonneg : ∀ f ∈ delivered packets, 0 ≤ d.frameNumber f) :
    ((∀ seek, Decoder.Demuxes packets seek → ∀ threads memory (s : State (Fin threads) F R φ),
        Reachable (step driver provider) (main db threads memory (passedOn db d seek packets)) s →
        Completion.Finished s.queue → Covered d packets s) ↔
      ∀ f ∈ delivered packets, d.wanted f = true →
        d.frameNumber f ≠ 0 ∧ d.frameNumberToTimestamp 1 ≤ f.pts) ∧
    ((∀ f ∈ delivered packets, f.pts < 2 ^ 50) →
      ∀ seek, Decoder.Demuxes packets seek → ∀ threads memory (s : State (Fin threads) F R φ),
        Reachable (step driver provider) (main db threads memory (passedOn db d seek packets)) s →
        Completion.Finished s.queue →
        (Covered d packets s ↔ ∀ f ∈ delivered packets, d.wanted f = true → d.frameNumber f ≠ 0)) := by
  obtain rfl : db = .fresh :=
    normalised_injective (congrArg Prod.fst (created.symm.trans (open_empty driver)))
  have positive {f : AvFrame φ} (member : f ∈ delivered packets) (other : d.frameNumber f ≠ 0) :
      1 ≤ d.frameNumber f := by
    have := nonneg f member
    omega
  constructor
  · constructor
    · intro all f member wanted
      constructor
      · obtain ⟨s,reached,finished⟩ := exists_finished provider (sound_fresh driver) (fun _ => ⟨0,f.image⟩)
          (passedOn (Store.fresh : Store R) d (fun _ => none) packets)
        have demuxes : Decoder.Demuxes packets fun _ => none := by rintro _ _ _ ⟨⟩
        exact frameNumber_ne_zero reached finished (all _ demuxes 1 _ s reached finished) member wanted
      · by_contra early
        obtain ⟨seek,s,demuxes,reached,finished,missed⟩ :=
          exists_not_covered provider driver member wanted (not_le.mp early) fun _ => ⟨0,f.image⟩
        exact missed (all seek demuxes 1 _ s reached finished)
    · intro good seek demuxes threads memory s reached finished
      refine covered_of_inTime reached finished demuxes
        (fun f member wanted => positive member (good f member wanted).1)
        fun f member wanted _ n least most => ?_
      obtain ⟨other,inTime⟩ := good f member wanted
      have le : n ≤ 1 := most
      obtain rfl | rfl : n = 0 ∨ n = 1 := by omega
      · have start := Decoder.pts_pos rate base _ (positive member other)
        exact (Decoder.frameNumberToTimestamp_zero (d := d) rate base _).le.trans start.le
      · exact inTime
  · intro short seek demuxes threads memory s reached finished
    refine ⟨fun covered f member wanted => frameNumber_ne_zero reached finished covered member wanted,
      fun other => ?_⟩
    exact covered_of_inTime reached finished demuxes
      (fun f member wanted => positive member (other f member wanted))
      fun f member _ => Decoder.inTime_binary64 (d := { d with startingFrame := 1 }) rate base (.inl le_rfl)
        (short f member)

/-- A video of one frame with the number 1, which is recognised and stored. -/
theorem complete_run_covers_iff_witness :
    let provider : Provider Int Unit := fun _ => some [⟨0,0,9,9,90,"a"⟩]
    let d : Decoder Binary64 := ⟨7,0,avQ2d 25 1,avQ2d 1 1000⟩
    let packets : List (Packet Unit) := [⟨[⟨40,.i,()⟩],false⟩]
    ∀ seek, Decoder.Demuxes packets seek → ∀ threads memory (s : State (Fin threads) Int Int Unit),
      Reachable (step Driver.exact provider)
        (main .fresh threads memory (passedOn (Store.fresh : Store Int) d seek packets)) s →
      Completion.Finished s.queue → Covered d packets s := by
  intro provider d packets
  have criterion := (complete_run_covers_iff Driver.exact provider .fresh (open_empty _) d
    (by decide +kernel) (by decide +kernel) packets (by decide +kernel)).1
  exact criterion.mpr (by decide +kernel)

end OcrSuite.Coverage
