import OcrSuite.DatabaseStore
import OcrSuite.QueueCompletion

/-! A run of the recogniser: the decoder skips the frames below the checkpoint, the queue hands
the others to the consumer, and the consumer stores what the provider recognises. Runs over
longer and longer parts of a recording are compared with one run over the last of them. -/
namespace OcrSuite

open Transition

/-- A decoded frame. -/
structure Frame (φ : Type) where
  frameNumber : Int
  image : φ
  deriving DecidableEq

namespace Recogniser

variable {F R φ : Type}

/-- What is recognised in a frame: nothing if that fails, no entries if it has no text. -/
abbrev Provider (F φ : Type) := Frame φ → Option (List (TextEntry F))

/-- A result carries the number of its frame. -/
def doOcr (provider : Provider F φ) (f : Frame φ) : Option (OcrResult F) :=
  (provider f).map fun entries => ⟨f.frameNumber,entries⟩

/-- The frames the decoder does not skip. -/
def decoded (startingFrame : Int) (frames : List (Frame φ)) : List (Frame φ) :=
  frames.filter fun f => startingFrame ≤ f.frameNumber

theorem doOcr_frameNumber {provider : Provider F φ} {f : Frame φ} {result : OcrResult F}
    (recognised : doOcr provider f = some result) : result.frameNumber = f.frameNumber := by
  obtain ⟨entries,_,rfl⟩ := Option.map_eq_some_iff.mp recognised
  rfl

/-- The body of the consumer's loop: filter, recognition, `store`. -/
def consume (driver : Driver F R) (provider : Provider F φ) (p : Process R) (f : Frame φ) :
    Process R :=
  if p.store.isFrameProcessed f.frameNumber then p
  else match doOcr provider f with
    | none => p
    | some result => p.storeResult driver result

/-- What a new process makes of the frames its only consumer gets, in their order. -/
def processed (driver : Driver F R) (provider : Provider F φ) (db : Store R)
    (frames : List (Frame φ)) : Store R :=
  (frames.foldl (consume driver provider) (.start db)).store

/-- A run of `main` with one consumer and its two buffers, to completion: the queue carries the
decoded frames in any interleaving, and the consumer handles those that it reads. -/
def Completed (driver : Driver F R) (provider : Provider F φ) (frames : List (Frame φ))
    (db db' : Store R) : Prop :=
  ∃ (memory : Buffer → Frame φ) (s : Completion.State (Fin 1) (Frame φ)),
    Reachable Completion.step
      (Completion.start 2 memory (decoded db.getStartingFrameNumber frames)) s ∧
    Completion.Finished s ∧ db' = processed driver provider db (s.obtained.map Prod.snd)

/-- Completed runs one after the other, each in a new process on the database of the last. -/
inductive Runs (driver : Driver F R) (provider : Provider F φ) :
    Store R → List (List (Frame φ)) → Store R → Prop where
  | nil : Runs driver provider db [] db
  | cons : Completed driver provider frames db next → Runs driver provider next rest db' →
      Runs driver provider db (frames :: rest) db'

theorem completed_eq {driver : Driver F R} {provider : Provider F φ} {frames : List (Frame φ)}
    {db db' : Store R} (run : Completed driver provider frames db db') :
    db' = processed driver provider db (decoded db.getStartingFrameNumber frames) := by
  obtain ⟨memory,s,reached,finished,rfl⟩ := run
  rw [Completion.finished_alone reached finished]

/-- Every recording can be processed to its end, whatever the buffers held before. -/
theorem exists_completed (driver : Driver F R) (provider : Provider F φ) (memory : Buffer → Frame φ)
    (frames : List (Frame φ)) (db : Store R) : ∃ db', Completed driver provider frames db db' := by
  obtain ⟨s,reached,finished⟩ := Completion.exists_finished 2 (by decide) memory
    (decoded db.getStartingFrameNumber frames)
  exact ⟨_,memory,s,reached,finished,rfl⟩

/-! ## How far a run has come -/

/-- A process that started on a fresh database and has handled `frames`, all from frame 1 on:
the rows are of frames up to the checkpoint, and no later frame had a result. -/
structure Progress (driver : Driver F R) (provider : Provider F φ) (frames : List (Frame φ))
    (p : Process R) : Prop where
  stored : ∃ words : List (Word F), p.store.toTextTables.Refines (words.map (Word.row driver)) ∧
    ∀ w ∈ words, w.frameNumber ≤ p.maxFrameNumber
  checkpoint : (p.maxFrameNumber = -1 ∧ p.store.lastProcessedFrame = 0) ∨
    (p.maxFrameNumber = p.store.lastProcessedFrame ∧
      ∃ f ∈ frames, f.frameNumber = p.store.lastProcessedFrame)
  unrecognised : ∀ f ∈ frames, p.maxFrameNumber < f.frameNumber → doOcr provider f = none

theorem Progress.start (driver : Driver F R) (provider : Provider F φ) :
    Progress driver provider [] (.start .fresh) where
  stored := ⟨[],TextTables.empty_refines,by simp⟩
  checkpoint := .inl ⟨rfl,rfl⟩
  unrecognised := by simp

/-- A frame beyond the checkpoint has no rows. -/
theorem Progress.unprocessed {driver : Driver F R} {provider : Provider F φ}
    {frames : List (Frame φ)} {p : Process R} (progress : Progress driver provider frames p) {n : Int}
    (beyond : p.maxFrameNumber < n) : p.store.isFrameProcessed n = false := by
  obtain ⟨words,refines,below⟩ := progress.stored
  rw [Bool.eq_false_iff,ne_eq,refines.isFrameProcessed_iff]
  rintro ⟨row,member,rfl⟩
  obtain ⟨w,inside,rfl⟩ := List.mem_map.mp member
  exact absurd (below w inside) (Int.not_le.mpr beyond)

theorem Progress.max_lt {driver : Driver F R} {provider : Provider F φ} {frames : List (Frame φ)}
    {p : Process R} (progress : Progress driver provider frames p) {n : Int} (positive : 1 ≤ n)
    (later : ∀ f ∈ frames, f.frameNumber < n) : p.maxFrameNumber < n := by
  rcases progress.checkpoint with ⟨unset,_⟩ | ⟨max,f,member,last⟩
  · omega
  · have := later f member
    omega

/-- What `store` makes of a process whose checkpoint is below the frame. -/
theorem storeResult_beyond (driver : Driver F R) {p : Process R} {words : List (Word F)}
    (refines : p.store.toTextTables.Refines (words.map (Word.row driver)))
    (below : ∀ w ∈ words, w.frameNumber ≤ p.maxFrameNumber) (result : OcrResult F)
    (beyond : p.maxFrameNumber < result.frameNumber) :
    (p.storeResult driver result).maxFrameNumber = result.frameNumber ∧
    (p.storeResult driver result).store.lastProcessedFrame = result.frameNumber ∧
    ∃ words' : List (Word F),
      (p.storeResult driver result).store.toTextTables.Refines (words'.map (Word.row driver)) ∧
      ∀ w ∈ words', w.frameNumber ≤ result.frameNumber := by
  have older : ∀ w ∈ words, w.frameNumber ≤ result.frameNumber := fun w member =>
    Int.le_trans (below w member) (Int.le_of_lt beyond)
  have checked : p.storeLastFrameNumber result.frameNumber =
      ⟨{ p.store with lastProcessedFrame := result.frameNumber },result.frameNumber⟩ := by
    simp [Process.storeLastFrameNumber,Int.not_le.mpr beyond]
  unfold Process.storeResult
  rw [checked]
  by_cases nothing : result.entries = []
  · simpa [nothing] using ⟨words,refines,older⟩
  · have stored := storeEntries_refines driver
      (s := { p.store with lastProcessedFrame := result.frameNumber }) refines ⟨result,none⟩ nothing
    simp only [List.isEmpty_iff,nothing,if_false,Process.storeEntries]
    refine ⟨trivial,stored.2,_,stored.1,fun w member => ?_⟩
    unfold record at member
    split at member
    · rcases List.mem_append.mp member with old | new
      · exact older w old
      · exact Int.le_of_eq (words_frameNumber new)
    · exact older w member

theorem Progress.consume {driver : Driver F R} {provider : Provider F φ} {frames : List (Frame φ)}
    {p : Process R} (progress : Progress driver provider frames p)
    {f : Frame φ} (positive : 1 ≤ f.frameNumber)
    (later : ∀ g ∈ frames, g.frameNumber < f.frameNumber) :
    Progress driver provider (frames ++ [f]) (consume driver provider p f) := by
  have beyond := progress.max_lt positive later
  obtain ⟨words,refines,below⟩ := progress.stored
  unfold Recogniser.consume
  rw [progress.unprocessed beyond]
  cases recognised : doOcr provider f with
  | none =>
    refine ⟨progress.stored,?_,fun g member ahead => ?_⟩
    · rcases progress.checkpoint with unset | ⟨max,g,member,last⟩
      · exact .inl unset
      · exact .inr ⟨max,g,List.mem_append_left _ member,last⟩
    · rcases List.mem_append.mp member with old | new
      · exact progress.unrecognised g old ahead
      · exact List.mem_singleton.mp new ▸ recognised
  | some result =>
    have label := doOcr_frameNumber recognised
    obtain ⟨max,last,words',refines',below'⟩ :=
      storeResult_beyond driver refines below result (label ▸ beyond)
    refine ⟨⟨words',refines',by simpa [max] using below'⟩,.inr ⟨max.trans last.symm,f,by simp,?_⟩,?_⟩
    · exact label.symm.trans last.symm
    · intro g member ahead
      have : g.frameNumber ≤ f.frameNumber := by
        rcases List.mem_append.mp member with old | new
        · exact Int.le_of_lt (later g old)
        · exact List.mem_singleton.mp new ▸ Int.le_refl _
      simp only [Bool.false_eq_true,if_false,max,label] at ahead
      omega

/-- Strictly increasing frame numbers, as the decoder delivers them. -/
abbrev Increasing (frames : List (Frame φ)) : Prop :=
  frames.Pairwise fun f g => f.frameNumber < g.frameNumber

theorem progress_of_run {driver : Driver F R} {provider : Provider F φ}
    (frames : List (Frame φ)) (increasing : Increasing frames)
    (positive : ∀ f ∈ frames, 1 ≤ f.frameNumber) :
    Progress driver provider frames (frames.foldl (consume driver provider) (.start .fresh)) := by
  induction frames using List.reverseRecOn with
  | nil => exact .start driver provider
  | append_singleton frames f ih =>
    obtain ⟨before,_,apart⟩ := List.pairwise_append.mp increasing
    have progress := ih before fun g member => positive g (List.mem_append_left _ member)
    rw [List.foldl_append]
    exact progress.consume (positive f (by simp)) fun g member => apart g member f (by simp)

/-! ## Two processes on the same database -/

theorem consume_unrecognised {driver : Driver F R} {provider : Provider F φ} {frames : List (Frame φ)}
    (p : Process R) (unrecognised : ∀ f ∈ frames, doOcr provider f = none) :
    frames.foldl (consume driver provider) p = p := by
  induction frames with
  | nil => rfl
  | cons f frames ih =>
    have skipped : consume driver provider p f = p := by
      simp [consume,unrecognised f List.mem_cons_self]
    rw [List.foldl_cons,skipped]
    exact ih fun g member => unrecognised g (List.mem_cons_of_mem f member)

/-- Above both their static variables, two processes treat a frame alike. -/
theorem consume_congr (driver : Driver F R) (provider : Provider F φ)
    {p q : Process R} (same : p.store = q.store) {f : Frame φ}
    (beyond : p.maxFrameNumber < f.frameNumber) (beyond' : q.maxFrameNumber < f.frameNumber) :
    (consume driver provider p f).store = (consume driver provider q f).store ∧
    ∀ n, f.frameNumber < n → (consume driver provider p f).maxFrameNumber < n ∧
      (consume driver provider q f).maxFrameNumber < n := by
  unfold consume
  rw [same]
  cases processed : q.store.isFrameProcessed f.frameNumber with
  | true => exact ⟨same,fun n later => by constructor <;> simp only [if_true] <;> omega⟩
  | false =>
    cases recognised : doOcr provider f with
    | none =>
      exact ⟨same,fun n later => by constructor <;> simp only [Bool.false_eq_true,if_false] <;> omega⟩
    | some result =>
      have label := doOcr_frameNumber recognised
      have equal : p.storeLastFrameNumber result.frameNumber =
          q.storeLastFrameNumber result.frameNumber := by
        simp [Process.storeLastFrameNumber,label,Int.not_le.mpr beyond,Int.not_le.mpr beyond',same]
      have max : ∀ p : Process R, p.maxFrameNumber < f.frameNumber →
          (p.storeResult driver result).maxFrameNumber = f.frameNumber := by
        intro p beyond
        simp only [Process.storeResult,Process.storeLastFrameNumber,label,Int.not_le.mpr beyond,if_false]
        split <;> rfl
      refine ⟨by simp [Process.storeResult,equal],fun n later => ?_⟩
      simp [max p beyond,max q beyond',later]

theorem foldl_consume_congr {driver : Driver F R} {provider : Provider F φ}
    {frames : List (Frame φ)} (increasing : Increasing frames) {p q : Process R}
    (same : p.store = q.store)
    (beyond : ∀ f ∈ frames, p.maxFrameNumber < f.frameNumber ∧ q.maxFrameNumber < f.frameNumber) :
    (frames.foldl (consume driver provider) p).store =
      (frames.foldl (consume driver provider) q).store := by
  induction frames generalizing p q with
  | nil => exact same
  | cons f frames ih =>
    obtain ⟨later,rest⟩ := List.pairwise_cons.mp increasing
    obtain ⟨here,here'⟩ := beyond f List.mem_cons_self
    obtain ⟨stores,below⟩ := consume_congr driver provider same here here'
    exact ih rest stores fun g member => below _ (later g member)

/-! ## Runs over prefixes -/

/-- A run over a prefix and then a run over the whole are a run over the whole. -/
theorem processed_twice {driver : Driver F R} {provider : Provider F φ}
    (front rest : List (Frame φ)) (increasing : Increasing (front ++ rest)) :
    let once := processed driver provider .fresh (decoded 1 front)
    processed driver provider once (decoded once.getStartingFrameNumber (front ++ rest)) =
      processed driver provider .fresh (decoded 1 (front ++ rest)) := by
  intro once
  obtain ⟨frontUp,restUp,apart⟩ := List.pairwise_append.mp increasing
  let p := (decoded 1 front).foldl (consume driver provider) (.start .fresh)
  have positive : ∀ f ∈ decoded 1 front, 1 ≤ f.frameNumber := fun f member => by
    simpa using (List.mem_filter.mp member).2
  have progress : Progress driver provider (decoded 1 front) p :=
    progress_of_run _ (frontUp.filter _) positive
  have last : 0 ≤ p.store.lastProcessedFrame ∧ p.maxFrameNumber ≤ p.store.lastProcessedFrame ∧
      ∀ f ∈ rest, 1 ≤ f.frameNumber → p.store.lastProcessedFrame < f.frameNumber := by
    rcases progress.checkpoint with ⟨unset,zero⟩ | ⟨max,g,member,here⟩
    · exact ⟨by omega,by omega,fun f _ _ => by omega⟩
    · have := positive g member
      refine ⟨by omega,by omega,fun f inside _ => ?_⟩
      have := apart g (List.mem_of_mem_filter member) f inside
      omega
  -- what is left of the front has no result, and of the rest the same frames are left
  have again : ∀ f ∈ decoded once.getStartingFrameNumber front, doOcr provider f = none := by
    intro f member
    obtain ⟨inside,from_⟩ := List.mem_filter.mp member
    have start : p.store.lastProcessedFrame + 1 ≤ f.frameNumber := of_decide_eq_true from_
    exact progress.unrecognised f (List.mem_filter.mpr ⟨inside,by simp; omega⟩) (by omega)
  have restSame : decoded once.getStartingFrameNumber rest = decoded 1 rest := by
    apply List.filter_congr
    intro f inside
    have start : once.getStartingFrameNumber = p.store.lastProcessedFrame + 1 := rfl
    have := last.2.2 f inside
    simp only [start,decide_eq_decide]
    omega
  have restUp' : Increasing (decoded 1 rest) := restUp.filter _
  have split (n : Int) : decoded n (front ++ rest) = decoded n front ++ decoded n rest :=
    List.filter_append _ _
  rw [processed,processed,split,split,List.foldl_append,List.foldl_append,restSame,
    consume_unrecognised _ again]
  refine foldl_consume_congr restUp' rfl fun f member => ?_
  obtain ⟨inside,from_⟩ := List.mem_filter.mp member
  have start : 1 ≤ f.frameNumber := by simpa using from_
  have := last.2.2 f inside start
  exact ⟨by simp only [Process.start]; omega,by change p.maxFrameNumber < _; omega⟩

/-- Runs over growing prefixes leave what a single run over the last of them leaves. -/
theorem runs_eq {driver : Driver F R} {provider : Provider F φ}
    (frames : List (Frame φ)) (increasing : Increasing frames) (prefixes : List (List (Frame φ)))
    (inside : ∀ part ∈ prefixes, part <+: frames) {front : List (Frame φ)}
    (growing : (front :: prefixes).IsChain (· <+: ·)) {db : Store R}
    (reruns : Runs driver provider (processed driver provider .fresh (decoded 1 front)) prefixes db) :
    db = processed driver provider .fresh
      (decoded 1 ((front :: prefixes).getLast (List.cons_ne_nil _ _))) := by
  induction prefixes generalizing front with
  | nil =>
    cases reruns
    rfl
  | cons part prefixes ih =>
    cases reruns with
    | cons first later =>
      obtain ⟨grown,chain⟩ := List.isChain_cons_cons.mp growing
      obtain ⟨rest,rfl⟩ := grown
      have up : Increasing (front ++ rest) := increasing.sublist (inside _ List.mem_cons_self).sublist
      rw [completed_eq first,processed_twice front rest up] at later
      rw [List.getLast_cons (List.cons_ne_nil _ _)]
      exact ih (fun other member => inside other (List.mem_cons_of_mem _ member)) chain later

/-- One consumer, any provider, and any chain of growing prefixes of a
recording: processed one after the other, from a fresh database on, they leave the same
tables and the same checkpoint as a single run over the last of them. -/
theorem reruns_equal_single_run (driver : Driver F R) (provider : Provider F φ)
    (frames : List (Frame φ)) (increasing : Increasing frames) (prefixes : List (List (Frame φ)))
    (inside : ∀ part ∈ prefixes, part <+: frames) (growing : prefixes.IsChain (· <+: ·))
    (nonempty : prefixes ≠ []) (db db' : Store R) (reruns : Runs driver provider .fresh prefixes db)
    (single : Completed driver provider (prefixes.getLast nonempty) .fresh db') : db = db' := by
  cases reruns with
  | nil => contradiction
  | cons first later =>
    rw [completed_eq first] at later
    rw [completed_eq single]
    exact runs_eq frames increasing _
      (fun part member => inside part (List.mem_cons_of_mem _ member)) growing later

/-- Frame 3 is not recognised in the first run and is tried again in the second. -/
theorem reruns_equal_single_run_witness :
    let provider : Provider Int (Option (List (TextEntry Int))) := fun f => f.image
    let early : List (Frame (Option (List (TextEntry Int)))) :=
      [⟨1,some [⟨0,0,9,9,90,"a"⟩]⟩,⟨3,none⟩]
    let all := early ++ [⟨4,some [⟨0,0,9,9,80,"b"⟩,⟨0,9,9,9,70,"a"⟩]⟩]
    ∃ db : Store Int, Runs Driver.exact provider .fresh [early,all] db ∧
      Completed Driver.exact provider all .fresh db := by
  intro provider early all
  have increasing : Increasing all := by
    simp [all,early]
  let memory : Buffer → Frame (Option (List (TextEntry Int))) := fun _ => ⟨0,none⟩
  obtain ⟨first,run⟩ := exists_completed Driver.exact provider memory early (.fresh : Store Int)
  obtain ⟨second,rerun⟩ := exists_completed Driver.exact provider memory all first
  obtain ⟨single,once⟩ := exists_completed Driver.exact provider memory all (.fresh : Store Int)
  have same := reruns_equal_single_run Driver.exact provider all increasing [early,all]
    (by simp [all]) (by simp [all]) (by simp) second single (.cons run (.cons rerun .nil)) once
  exact ⟨second,.cons run (.cons rerun .nil),same ▸ once⟩

end Recogniser

end OcrSuite
