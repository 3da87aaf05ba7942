import OcrSuite.Recogniser

/-! The checkpoint against the texts that are stored, while several consumers handle the frames
of one run. Every state the run reaches is one it may be killed in, and the next run starts
behind the checkpoint it finds. -/
namespace OcrSuite.Checkpoint

open Interning Transition Recogniser

variable {κ F R φ : Type}

/-- Where a consumer is with its frame: `storing` comes before the checkpoint of `store`,
`inserting` after it. A consumer that `store` threw at has ended. -/
inductive ConsumerPc (F φ : Type) where
  | idle
  | holding (frame : Frame φ)
  | storing (result : OcrResult F)
  | inserting (result : OcrResult F)
  | ended

/-- `frames` are still to be handed out, `handed` are those that have been. -/
structure State (κ F R φ : Type) where
  process : Process R
  frames : List (Frame φ)
  handed : List (Frame φ)
  consumer : κ → ConsumerPc F φ

inductive Action (κ : Type) where
  | getConsumerValue (i : κ)
  | doOcr (i : κ)
  | storeLastFrameNumber (i : κ) (throws : Bool)
  | storeEntries (i : κ) (fault : Option Nat)

def start (db : Store R) (frames : List (Frame φ)) : State κ F R φ :=
  ⟨.start db,frames,[],fun _ => .idle⟩

variable [DecidableEq κ]

def State.goto (s : State κ F R φ) (i : κ) (pc : ConsumerPc F φ) : State κ F R φ :=
  { s with consumer := Function.update s.consumer i pc }

@[simp] theorem State.goto_same (s : State κ F R φ) (i : κ) (pc : ConsumerPc F φ) :
    (s.goto i pc).consumer i = pc := by
  simp [State.goto]

theorem State.goto_other (s : State κ F R φ) {i k : κ} (other : k ≠ i) (pc : ConsumerPc F φ) :
    (s.goto i pc).consumer k = s.consumer k := by
  simp [State.goto,other]

def step (driver : Driver F R) (provider : Provider F φ) (s : State κ F R φ) :
    Action κ → Option (State κ F R φ)
  | .getConsumerValue i =>
    match s.consumer i,s.frames with
    | .idle,f :: rest => some { s.goto i (.holding f) with
        frames := rest
        handed := s.handed ++ [f] }
    | _,_ => none
  | .doOcr i =>
    match s.consumer i with
    | .holding f =>
      if s.process.store.isFrameProcessed f.frameNumber then some (s.goto i .idle)
      else match Recogniser.doOcr provider f with
        | none => some (s.goto i .idle)
        | some result => some (s.goto i (.storing result))
    | _ => none
  | .storeLastFrameNumber i throws =>
    match s.consumer i with
    | .storing result =>
      if throws then some (s.goto i .ended)
      else some { s.goto i (if result.entries.isEmpty then .idle else .inserting result) with
        process := s.process.storeLastFrameNumber result.frameNumber }
    | _ => none
  | .storeEntries i fault =>
    match s.consumer i with
    | .inserting result =>
      let (process,finished) := s.process.storeEntries driver result fault
      some { s.goto i (if finished then .idle else .ended) with process := process }
    | _ => none

/-! ## The checkpoint's promise -/

/-- The frame has a text that is not in the database when the run starts. -/
def Due (db : Store R) (provider : Provider F φ) (f : Frame φ) : Prop :=
  db.isFrameProcessed f.frameNumber = false ∧
    ∃ result, Recogniser.doOcr provider f = some result ∧ result.entries ≠ []

/-- The entries of the frame are in `text_instances`. -/
def Stored (driver : Driver F R) (provider : Provider F φ) (s : State κ F R φ) (f : Frame φ) : Prop :=
  ∀ result, Recogniser.doOcr provider f = some result →
    ∀ entry ∈ result.entries, Word.row driver ⟨f.frameNumber,entry⟩ ∈ s.process.store.join

/-- The next run does not skip a frame of this one whose text is missing. -/
def Safe (driver : Driver F R) (provider : Provider F φ) (db : Store R) (s : State κ F R φ) : Prop :=
  ∀ f ∈ s.handed, Due db provider f →
    f.frameNumber < s.process.store.getStartingFrameNumber → Stored driver provider s f

/-- Frames with text are handed out above the checkpoint, and where the checkpoint is written
it stays below all of them that have been handed out. -/
def StaysBelow (provider : Provider F φ) (db : Store R) (s : State κ F R φ) (a : Action κ) : Prop :=
  match a with
  | .getConsumerValue _ => ∀ f, s.frames.head? = some f → Due db provider f →
      s.process.store.lastProcessedFrame < f.frameNumber
  | .storeLastFrameNumber i throws => ∀ result, s.consumer i = .storing result → throws = false →
      s.process.maxFrameNumber < result.frameNumber →
      ∀ f ∈ s.handed, Due db provider f → result.frameNumber < f.frameNumber
  | _ => True

/-! ## The steps -/

inductive Stepped (driver : Driver F R) (provider : Provider F φ) (s : State κ F R φ) :
    Action κ → State κ F R φ → Prop where
  | handed (i : κ) (f : Frame φ) (rest : List (Frame φ)) : s.consumer i = .idle →
      s.frames = f :: rest → Stepped driver provider s (.getConsumerValue i)
        { s.goto i (.holding f) with frames := rest, handed := s.handed ++ [f] }
  | skipped (i : κ) (f : Frame φ) : s.consumer i = .holding f →
      Stepped driver provider s (.doOcr i) (s.goto i .idle)
  | recognised (i : κ) (f : Frame φ) (result : OcrResult F) : s.consumer i = .holding f →
      s.process.store.isFrameProcessed f.frameNumber = false →
      Recogniser.doOcr provider f = some result →
      Stepped driver provider s (.doOcr i) (s.goto i (.storing result))
  | threw (i : κ) (result : OcrResult F) : s.consumer i = .storing result →
      Stepped driver provider s (.storeLastFrameNumber i true) (s.goto i .ended)
  | checkpointed (i : κ) (result : OcrResult F) : s.consumer i = .storing result →
      Stepped driver provider s (.storeLastFrameNumber i false)
        { s.goto i (if result.entries.isEmpty then .idle else .inserting result) with
          process := s.process.storeLastFrameNumber result.frameNumber }
  | inserted (i : κ) (result : OcrResult F) (fault : Option Nat) : s.consumer i = .inserting result →
      Stepped driver provider s (.storeEntries i fault)
        { s.goto i (if (s.process.storeEntries driver result fault).2 then .idle else .ended) with
          process := (s.process.storeEntries driver result fault).1 }

theorem step_stepped {driver : Driver F R} {provider : Provider F φ} {s t : State κ F R φ}
    {a : Action κ} (taken : step driver provider s a = some t) : Stepped driver provider s a t := by
  cases a with
  | getConsumerValue i =>
    cases pc : s.consumer i with
    | idle =>
      cases more : s.frames with
      | nil => simp [step,pc,more] at taken
      | cons f rest =>
        simp only [step,pc,more,Option.some.injEq] at taken
        subst t
        exact .handed i f rest pc more
    | _ => simp [step,pc] at taken
  | doOcr i =>
    cases pc : s.consumer i with
    | holding f =>
      cases processed : s.process.store.isFrameProcessed f.frameNumber with
      | true =>
        obtain rfl : s.goto i .idle = t := by simpa [step,pc,processed] using taken
        exact .skipped i f pc
      | false =>
        cases recognised : Recogniser.doOcr provider f with
        | none =>
          obtain rfl : s.goto i .idle = t := by simpa [step,pc,processed,recognised] using taken
          exact .skipped i f pc
        | some result =>
          obtain rfl : s.goto i (.storing result) = t := by
            simpa [step,pc,processed,recognised] using taken
          exact .recognised i f result pc processed recognised
    | _ => simp [step,pc] at taken
  | storeLastFrameNumber i throws =>
    cases pc : s.consumer i with
    | storing result =>
      cases throws with
      | true =>
        obtain rfl : s.goto i .ended = t := by simpa [step,pc] using taken
        exact .threw i result pc
      | false =>
        simp only [step,pc,Bool.false_eq_true,if_false,Option.some.injEq] at taken
        subst t
        exact .checkpointed i result pc
    | _ => simp [step,pc] at taken
  | storeEntries i fault =>
    cases pc : s.consumer i with
    | inserting result =>
      simp only [step,pc,Option.some.injEq] at taken
      subst t
      exact .inserted i result fault pc
    | _ => simp [step,pc] at taken

/-! ## Runs that keep the checkpoint below their texts -/

structure Invariant (provider : Provider F φ) (db : Store R) (s : State κ F R φ) : Prop where
  tables : s.process.store.toTextTables = db.toTextTables
  below : ∀ f ∈ s.handed, Due db provider f →
    s.process.store.lastProcessedFrame < f.frameNumber
  max : s.process.maxFrameNumber ≤ s.process.store.lastProcessedFrame
  holding : ∀ i f, s.consumer i = .holding f → f ∈ s.handed
  storing : ∀ i result, s.consumer i = .storing result → ∃ f ∈ s.handed,
    Recogniser.doOcr provider f = some result ∧ db.isFrameProcessed f.frameNumber = false
  inserting : ∀ i result, s.consumer i ≠ .inserting result

omit [DecidableEq κ] in
theorem start_invariant (provider : Provider F φ) {db : Store R}
    (checkpoint : 0 ≤ db.lastProcessedFrame) (frames : List (Frame φ)) :
    Invariant provider db (start db frames : State κ F R φ) where
  tables := rfl
  below := by simp [start]
  max := by
    simp only [start,Process.start]
    omega
  holding := by simp [start]
  storing := by simp [start]
  inserting := by simp [start]

/-- A consumer that moves on without touching the database. -/
theorem Invariant.goto {provider : Provider F φ} {db : Store R} {s : State κ F R φ}
    (valid : Invariant provider db s) {i : κ} {pc : ConsumerPc F φ} {handed : List (Frame φ)}
    (more : s.handed ⊆ handed)
    (below : ∀ f ∈ handed, Due db provider f → s.process.store.lastProcessedFrame < f.frameNumber)
    (holding : ∀ f, pc = .holding f → f ∈ handed)
    (storing : ∀ result, pc = .storing result → ∃ f ∈ handed,
      Recogniser.doOcr provider f = some result ∧ db.isFrameProcessed f.frameNumber = false)
    (inserting : ∀ result, pc ≠ .inserting result) (frames : List (Frame φ)) :
    Invariant provider db { s.goto i pc with frames := frames, handed := handed } where
  tables := valid.tables
  below := below
  max := valid.max
  holding k f at_ := by
    by_cases same : k = i
    · subst k
      exact holding f (s.goto_same i pc ▸ at_)
    · exact more (valid.holding k f (s.goto_other same pc ▸ at_))
  storing k result at_ := by
    by_cases same : k = i
    · subst k
      exact storing result (s.goto_same i pc ▸ at_)
    · obtain ⟨f,member,known⟩ := valid.storing k result (s.goto_other same pc ▸ at_)
      exact ⟨f,more member,known⟩
  inserting k result at_ := by
    by_cases same : k = i
    · subst k
      exact inserting result (s.goto_same i pc ▸ at_)
    · exact valid.inserting k result (s.goto_other same pc ▸ at_)

omit [DecidableEq κ] in
theorem Invariant.process {provider : Provider F φ} {db : Store R} {s : State κ F R φ}
    (valid : Invariant provider db s) (p : Process R)
    (tables : p.store.toTextTables = s.process.store.toTextTables)
    (below : ∀ f ∈ s.handed, Due db provider f → p.store.lastProcessedFrame < f.frameNumber)
    (max : p.maxFrameNumber ≤ p.store.lastProcessedFrame) :
    Invariant provider db { s with process := p } :=
  ⟨tables.trans valid.tables,below,max,valid.holding,valid.storing,valid.inserting⟩

omit [DecidableEq κ] in
/-- A result that comes to its checkpoint while all steps kept it below the texts is empty. -/
theorem storing_empty {provider : Provider F φ} {db : Store R} {s : State κ F R φ}
    (valid : Invariant provider db s) {i : κ} {result : OcrResult F}
    (pc : s.consumer i = .storing result)
    (stays : StaysBelow provider db s (.storeLastFrameNumber i false)) : result.entries = [] := by
  obtain ⟨f,member,recognised,unprocessed⟩ := valid.storing i result pc
  have label := doOcr_frameNumber recognised
  by_contra text
  have due : Due db provider f := ⟨unprocessed,result,recognised,text⟩
  have above := valid.below f member due
  have max := valid.max
  by_cases written : s.process.maxFrameNumber < result.frameNumber
  · have := stays result pc rfl written f member due
    omega
  · omega

theorem step_invariant {driver : Driver F R} {provider : Provider F φ} {db : Store R}
    {s t : State κ F R φ} {a : Action κ} (valid : Invariant provider db s)
    (stays : StaysBelow provider db s a) (taken : step driver provider s a = some t) :
    Invariant provider db t := by
  cases step_stepped taken with
  | handed i f rest pc more =>
    refine valid.goto (List.subset_append_left _ _) ?_ (by simp) (by simp) (by simp) rest
    intro g member due
    rcases List.mem_append.mp member with old | new
    · exact valid.below g old due
    · obtain rfl := List.mem_singleton.mp new
      exact stays g (by simp [more]) due
  | skipped i f pc | threw i result pc =>
    exact valid.goto (List.Subset.refl _) valid.below (by simp) (by simp) (by simp) s.frames
  | recognised i f result pc unprocessed recognised =>
    refine valid.goto (List.Subset.refl _) valid.below (by simp) ?_ (by simp) s.frames
    rintro _ ⟨⟩
    have same : db.isFrameProcessed f.frameNumber = false := by rw [← valid.tables]; exact unprocessed
    exact ⟨f,valid.holding i f pc,recognised,same⟩
  | checkpointed i result pc =>
    have empty := storing_empty valid pc stays
    have moved : Invariant provider db (s.goto i .idle) :=
      valid.goto (List.Subset.refl _) valid.below (by simp) (by simp) (by simp) s.frames
    have checked : Invariant provider db { s.goto i .idle with
        process := s.process.storeLastFrameNumber result.frameNumber } := by
      unfold Process.storeLastFrameNumber
      split
      case isTrue skipped => exact moved
      case isFalse written =>
        refine moved.process _ rfl ?_ (Int.le_refl _)
        exact stays result pc rfl (Int.not_le.mp written)
    simpa [empty] using checked
  | inserted i result fault pc => exact absurd pc (valid.inserting i result)

theorem reachable_invariant {driver : Driver F R} {provider : Provider F φ} {db : Store R}
    (checkpoint : 0 ≤ db.lastProcessedFrame) {frames : List (Frame φ)} {s : State κ F R φ}
    (reached : ReachableUnder (step driver provider) (StaysBelow provider db) (start db frames) s) :
    Invariant provider db s :=
  reached.invariant (start_invariant provider checkpoint frames)
    fun _ _ _ _ valid stays taken => step_invariant valid stays taken

omit [DecidableEq κ] in
theorem Invariant.safe {driver : Driver F R} {provider : Provider F φ} {db : Store R}
    {s : State κ F R φ} (valid : Invariant provider db s) : Safe driver provider db s := by
  intro f member due reached
  have := valid.below f member due
  simp only [Store.getStartingFrameNumber] at reached
  omega

omit [DecidableEq κ] in
/-- With the tables of the start, a frame that is due is not stored. -/
theorem not_stored (driver : Driver F R) {provider : Provider F φ} {db : Store R}
    {s : State κ F R φ} (tables : s.process.store.toTextTables = db.toTextTables) {f : Frame φ}
    (due : Due db provider f) : ¬ Stored driver provider s f := by
  obtain ⟨unprocessed,result,recognised,text⟩ := due
  intro stored
  obtain ⟨entry,member⟩ := List.exists_mem_of_ne_nil _ text
  have row := stored result recognised entry member
  rw [tables] at row
  have processed : db.isFrameProcessed f.frameNumber = true := TextTables.isFrameProcessed_of_join row
  simp [unprocessed] at processed

/-- A step after which the checkpoint has reached a text is a step after which it is missing. -/
theorem unsafe_step {driver : Driver F R} {provider : Provider F φ} {db : Store R}
    {s t : State κ F R φ} {a : Action κ} (valid : Invariant provider db s)
    (stays : ¬ StaysBelow provider db s a) (taken : step driver provider s a = some t) :
    ¬ Safe driver provider db t := by
  cases step_stepped taken with
  | handed i f rest pc more =>
    have reached : Due db provider f ∧ f.frameNumber ≤ s.process.store.lastProcessedFrame := by
      simpa [StaysBelow,more] using stays
    intro safe
    exact not_stored driver valid.tables reached.1
      (safe f (by simp) reached.1 (Int.lt_add_one_of_le reached.2))
  | checkpointed i result pc =>
    obtain ⟨written,f,member,due,reached⟩ : s.process.maxFrameNumber < result.frameNumber ∧
        ∃ f ∈ s.handed, Due db provider f ∧ f.frameNumber ≤ result.frameNumber := by
      simpa [StaysBelow,pc] using stays
    have moved : s.process.storeLastFrameNumber result.frameNumber =
        ⟨{ s.process.store with lastProcessedFrame := result.frameNumber },result.frameNumber⟩ := by
      simp [Process.storeLastFrameNumber,Int.not_le.mpr written]
    rw [moved]
    intro safe
    exact not_stored driver valid.tables due
      (safe f member due (Int.lt_add_one_of_le reached))
  | skipped | recognised | threw | inserted => exact absurd (by simp [StaysBelow]) stays

theorem step_exact {driver : Driver F R} {provider : Provider F φ} {db : Store R}
    (checkpoint : 0 ≤ db.lastProcessedFrame) {frames : List (Frame φ)} {s t : State κ F R φ}
    {a : Action κ}
    (reached : ReachableUnder (step driver provider) (StaysBelow provider db) (start db frames) s)
    (taken : step driver provider s a = some t) :
    Safe driver provider db t ↔ StaysBelow provider db s a := by
  constructor
  · intro safe
    by_contra stays
    exact unsafe_step (reachable_invariant checkpoint reached) stays taken safe
  · exact fun stays => (reachable_invariant checkpoint (.next reached stays taken)).safe

/-- The process is killed between the checkpoint of its only frame and the frame's entry. -/
theorem checkpoint_passes_text : ¬ ∀ (provider : Provider Int Unit) (frames : List (Frame Unit))
    (s : State Unit Int Int Unit),
    Reachable (step Driver.exact provider) (start Store.fresh frames) s →
    Safe Driver.exact provider Store.fresh s := by
  intro claim
  let provider : Provider Int Unit := fun _ => some [⟨0,0,9,9,90,"a"⟩]
  obtain ⟨s,ran,handed,last,join⟩ : ∃ s : State Unit Int Int Unit,
      run (step Driver.exact provider) (start Store.fresh [⟨1,()⟩])
        [.getConsumerValue (),.doOcr (),.storeLastFrameNumber () false] = some s ∧
      s.handed = [⟨1,()⟩] ∧ s.process.store.lastProcessedFrame = 1 ∧ s.process.store.join = [] :=
    ⟨_,rfl,rfl,rfl,rfl⟩
  have due : Due (Store.fresh : Store Int) provider ⟨1,()⟩ := ⟨rfl,_,rfl,by simp⟩
  have stored := claim provider _ s (reachable_of_run ran) ⟨1,()⟩ (by simp [handed]) due
    (by simp [Store.getStartingFrameNumber,last])
  simpa [join] using stored _ rfl _ List.mem_cons_self

/-- A run keeps its promise in all its states exactly when none of its steps writes a checkpoint
that reaches a text not stored before the run, its own frame's included. -/
theorem checkpoint_safe_iff (driver : Driver F R) (provider : Provider F φ) (db : Store R)
    (checkpoint : 0 ≤ db.lastProcessedFrame) (frames : List (Frame φ)) (actions : List (Action κ))
    (final : State κ F R φ)
    (ran : run (step driver provider) (start db frames) actions = some final) :
    Throughout (step driver provider) (Safe driver provider db) (start db frames) actions ↔
    StepsMeet (step driver provider) (StaysBelow provider db) (start db frames) actions :=
  throughout_iff_stepsMeet (start_invariant provider checkpoint frames).safe
    (fun _ _ _ reached _ taken => step_exact checkpoint reached taken) ran

/-- A frame without text passes its checkpoint while a frame with text waits behind it. -/
theorem checkpoint_safe_iff_witness :
    let provider : Provider Int Bool := fun f => some (if f.image then [⟨0,0,9,9,90,"a"⟩] else [])
    let frames : List (Frame Bool) := [⟨1,false⟩,⟨2,true⟩]
    let actions : List (Action (Fin 2)) :=
      [.getConsumerValue 0,.getConsumerValue 1,.doOcr 0,.storeLastFrameNumber 0 false,.doOcr 1]
    ∃ final : State (Fin 2) Int Int Bool,
      run (step Driver.exact provider) (start Store.fresh frames) actions = some final ∧
      final.process.store.getStartingFrameNumber = 2 ∧
      (Throughout (step Driver.exact provider) (Safe Driver.exact provider Store.fresh)
          (start (κ := Fin 2) Store.fresh frames) actions ↔
        StepsMeet (step Driver.exact provider) (StaysBelow provider (Store.fresh : Store Int))
          (start Store.fresh frames) actions) := by
  intro provider frames actions
  obtain ⟨final,ran,last⟩ : ∃ final : State (Fin 2) Int Int Bool,
      run (step Driver.exact provider) (start Store.fresh frames) actions = some final ∧
      final.process.store.getStartingFrameNumber = 2 := ⟨_,rfl,rfl⟩
  exact ⟨final,ran,last,checkpoint_safe_iff Driver.exact provider .fresh (by decide) frames actions
    final ran⟩

end OcrSuite.Checkpoint
