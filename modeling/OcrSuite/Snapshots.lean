import Mathlib.Logic.Relation
import OcrSuite.CompleteRun

/-! What a search sees of a database at any moment of its history: while the recogniser is at work, after it
was killed, and after it was started again. -/
namespace OcrSuite.Coverage

open Transition Recogniser

variable {F R φ : Type}

/-- A process that goes through frames of a recording makes the second database of the first, before it ends
or is killed. -/
def Leaves (driver : Driver F R) (provider : Provider F φ) (recording : List (Frame φ)) (db db' : Store R) :
    Prop :=
  ∃ (threads : Nat) (memory : Buffer → Frame φ) (frames : List (Frame φ)) (s : State (Fin threads) F R φ),
    frames.Sublist recording ∧ Reachable (step driver provider) (main db threads memory frames) s ∧
      db' = s.work.process.store

/-- Any number of processes one after the other. -/
abbrev History (driver : Driver F R) (provider : Provider F φ) (recording : List (Frame φ)) :
    Store R → Store R → Prop :=
  Relation.ReflTransGen (Leaves driver provider recording)

/-- The words with the text in frames, as a search returns them. -/
def hits (driver : Driver F R) (provider : Provider F φ) (text : String) (frames : List (Frame φ)) :
    List (SearchEntry F) :=
  ((frames.flatMap (recognised provider)).filter fun w => driver.like text w.entry.text).map fun w =>
    .read driver (w.row driver)

/-- The database has the words of these frames. -/
structure Whole (driver : Driver F R) (provider : Provider F φ) (recording kept : List (Frame φ))
    (db : Store R) : Prop where
  refines : db.toTextTables.Refines ((kept.flatMap (recognised provider)).map (Word.row driver))
  subset : kept ⊆ recording
  distinct : (kept.map Frame.frameNumber).Nodup
  shown : ∀ f ∈ kept, recognised provider f ≠ []

/-! ## Frames that were looked up in a run that goes on -/

section Logs

variable {κ ι : Type} [DecidableEq κ]

theorem count_own [DecidableEq ι] (entries : List (κ × ι)) (i : κ) (item : ι) :
    entries.count (i,item) = (Completion.own entries i).count item := by
  induction entries with
  | nil => rfl
  | cons entry rest ih =>
    obtain ⟨k,other⟩ := entry
    by_cases here : k = i
    · subst k
      simpa [Completion.own,List.count_cons] using ih
    · simpa [Completion.own,List.count_cons,here] using ih

/-- A log with a part of the other's for every consumer. -/
theorem subperm_of_own {first second : List (κ × ι)}
    (parts : ∀ i, Completion.own first i <+: Completion.own second i) : first.Subperm second := by
  classical
  apply List.subperm_ext_iff.mpr
  rintro ⟨i,item⟩ _
  rw [count_own,count_own]
  exact (parts i).sublist.count_le item

theorem subperm_map {α β : Type} (f : α → β) {first second : List α} (part : first.Subperm second) :
    (first.map f).Subperm (second.map f) := by
  obtain ⟨order,same,inside⟩ := part
  exact ⟨order.map f,same.map f,inside.map f⟩

end Logs

variable {driver : Driver F R} {provider : Provider F φ} {n : Nat} {s : State (Fin n) F R φ}

theorem examined_subperm {db : Store R} {memory : Buffer → Frame φ} {frames : List (Frame φ)}
    (reached : Reachable (step driver provider) (main db n memory frames) s) :
    (s.examined.map Examination.frame).Subperm frames := by
  have queue := Completion.reachable_invariant (reachable_queue reached)
  have valid := reachable_invariant reached
  have looked : (log s.examined).Subperm s.queue.handed := by
    apply subperm_of_own
    intro i
    rw [queue.taken i,valid.read i,List.append_assoc]
    exact List.prefix_append _ _
  have handed : (s.queue.handed.map Prod.snd).Sublist frames := by
    rw [queue.sent,List.append_assoc,List.append_assoc]
    exact List.sublist_append_left _ _
  have same : (log s.examined).map Prod.snd = s.examined.map Examination.frame := by
    simp [log,Function.comp_def]
  rw [← same]
  exact (subperm_map Prod.snd looked).trans handed.subperm

/-! ## Histories -/

variable {recording kept : List (Frame φ)} {db db' : Store R}

theorem Whole.findText (whole : Whole driver provider recording kept db) (text : String) :
    db.findText driver text = hits driver provider text kept := by
  rw [whole.refines.findText,List.filter_map,List.map_map]
  rfl

/-- A process adds whole frames to those that are there. -/
theorem Whole.leaves (whole : Whole driver provider recording kept db)
    (distinct : (recording.map Frame.frameNumber).Nodup) (leaves : Leaves driver provider recording db db') :
    ∃ more, Whole driver provider recording (kept ++ more) db' := by
  obtain ⟨n,memory,frames,s,part,reached,rfl⟩ := leaves
  have looked := examined_subperm reached
  have apart : Distinct s.examined := by
    obtain ⟨order,same,inside⟩ :=
      (subperm_map Frame.frameNumber looked).trans (part.map Frame.frameNumber).subperm
    have unique := same.nodup_iff.mp (inside.nodup distinct)
    simpa [Distinct,Function.comp_def] using unique
  obtain ⟨words,stored,after,added⟩ := reachable_stored whole.refines reached apart
  refine ⟨stored,?_,?_,?_,?_⟩
  · rw [List.flatMap_append,← added.words]
    exact after.refines
  · apply List.append_subset.mpr
    refine ⟨whole.subset,fun f member => ?_⟩
    obtain ⟨e,here,_,rfl⟩ := mem_offered.mp (added.subset member)
    exact part.subset (looked.subset (List.mem_map_of_mem here))
  · rw [List.map_append,List.nodup_append]
    refine ⟨whole.distinct,added.distinct,?_⟩
    intro number old other new same
    obtain ⟨g,there,rfl⟩ := List.mem_map.mp old
    obtain ⟨f,here,rfl⟩ := List.mem_map.mp new
    obtain ⟨w,found⟩ := List.exists_mem_of_ne_nil _ (whole.shown g there)
    exact added.apart f here w (List.mem_flatMap.mpr ⟨g,there,found⟩)
      ((recognised_frameNumber found).trans same)
  · intro f member
    rcases List.mem_append.mp member with old | new
    · exact whole.shown f old
    · exact added.shown f new

theorem Whole.history (whole : Whole driver provider recording kept db)
    (distinct : (recording.map Frame.frameNumber).Nodup) (history : History driver provider recording db db') :
    ∃ more, Whole driver provider recording (kept ++ more) db' := by
  induction history with
  | refl => exact ⟨[],by simpa using whole⟩
  | tail _ leaves ih =>
    obtain ⟨more,later⟩ := ih
    obtain ⟨more',last⟩ := later.leaves distinct leaves
    exact ⟨more ++ more',by simpa using last⟩

end OcrSuite.Coverage
