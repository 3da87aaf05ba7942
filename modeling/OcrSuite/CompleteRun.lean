import Mathlib.Tactic.Abel
import OcrSuite.CheckpointCache
import OcrSuite.Conservation
import OcrSuite.Coverage

/-! What a complete run leaves in the database, whatever the interleaving of its consumers: the words of
all frames that were not processed before, and the highest number of a frame with a result. -/
namespace OcrSuite.Coverage

open Transition Recogniser Conservation

variable {F R φ : Type} {n : Nat}

/-- The words of a frame, none if the recognition fails. -/
def recognised (provider : Provider F φ) (f : Frame φ) : List (Word F) :=
  ((Recogniser.doOcr provider f).map OcrResult.words).getD []

/-- The words that a consumer has recognised and not stored yet. -/
def flying : Checkpoint.ConsumerPc F φ → List (Word F)
  | .storing result => result.words
  | .inserting result => result.words
  | _ => []

/-- The number that a consumer has not given to the checkpoint yet. -/
def due : Checkpoint.ConsumerPc F φ → Multiset Int
  | .storing result => {result.frameNumber}
  | _ => 0

def numbers (provider : Provider F φ) (frames : List (Frame φ)) : List Int :=
  frames.filterMap fun f => (Recogniser.doOcr provider f).map OcrResult.frameNumber

/-- The highest of the numbers, -1 if there is none. -/
def top (ms : Multiset Int) : Int := ms.fold max (-1)

/-- What the checkpoint is when it was given the numbers. -/
def checkpointAfter (lastProcessedFrame : Int) (ms : Multiset Int) : Int :=
  if top ms = -1 then lastProcessedFrame else top ms

/-- `words` are in the database, those of `before` since before the run. -/
structure Kept (driver : Driver F R) (provider : Provider F φ) (before words : List (Word F))
    (s : State (Fin n) F R φ) : Prop where
  refines : s.work.process.store.toTextTables.Refines (words.map (Word.row driver))
  older : before <+: words
  conserved : (↑words + ∑ i, ↑(flying (s.work.consumer i)) : Multiset (Word F)) =
    ↑before + ↑((offered s.examined).flatMap (recognised provider))
  known : ∀ e ∈ s.examined, e.processed = true ↔ ∃ w ∈ before, w.frameNumber = e.frame.frameNumber
  own : ∀ i result, s.work.consumer i = .storing result ∨ s.work.consumer i = .inserting result →
    ∃ f ∈ offered s.examined, Recogniser.doOcr provider f = some result
  nonempty : ∀ i result, s.work.consumer i = .inserting result → result.entries ≠ []

/-- The checkpoint has been given all numbers but those that are due. -/
def Checkpointed (provider : Provider F φ) (last : Int) (s : State (Fin n) F R φ) : Prop :=
  ∃ done : Multiset Int, done + ∑ i, due (s.work.consumer i) = ↑(numbers provider (offered s.examined)) ∧
    s.work.process.maxFrameNumber = top done ∧
    s.work.process.store.lastProcessedFrame = checkpointAfter last done

/-! ## The steps -/

/-- What a step does to the consumers' work and to the database. -/
inductive Worked (driver : Driver F R) (provider : Provider F φ) (s : State (Fin n) F R φ) :
    State (Fin n) F R φ → Prop where
  | same (t : State (Fin n) F R φ) : t.work = s.work → t.examined = s.examined → Worked driver provider s t
  | read (i : Fin n) (f : Frame φ) (t : State (Fin n) F R φ) : s.work.consumer i = .idle →
      t.work.consumer = Function.update s.work.consumer i (.holding f) → t.work.process = s.work.process →
      t.examined = s.examined → Worked driver provider s t
  | skipped (i : Fin n) (f : Frame φ) (t : State (Fin n) F R φ) : s.work.consumer i = .holding f →
      s.work.process.store.isFrameProcessed f.frameNumber = true ∨ Recogniser.doOcr provider f = none →
      t.work.consumer = Function.update s.work.consumer i .idle → t.work.process = s.work.process →
      t.examined = s.examined ++ [⟨i,f,s.work.process.store.isFrameProcessed f.frameNumber⟩] →
      Worked driver provider s t
  | recognised (i : Fin n) (f : Frame φ) (result : OcrResult F) (t : State (Fin n) F R φ) :
      s.work.consumer i = .holding f → s.work.process.store.isFrameProcessed f.frameNumber = false →
      Recogniser.doOcr provider f = some result →
      t.work.consumer = Function.update s.work.consumer i (.storing result) →
      t.work.process = s.work.process → t.examined = s.examined ++ [⟨i,f,false⟩] →
      Worked driver provider s t
  | checkpointed (i : Fin n) (result : OcrResult F) (t : State (Fin n) F R φ) :
      s.work.consumer i = .storing result →
      t.work.consumer =
        Function.update s.work.consumer i (if result.entries.isEmpty then .idle else .inserting result) →
      t.work.process = s.work.process.storeLastFrameNumber result.frameNumber →
      t.examined = s.examined → Worked driver provider s t
  | inserted (i : Fin n) (result : OcrResult F) (t : State (Fin n) F R φ) :
      s.work.consumer i = .inserting result →
      t.work.consumer = Function.update s.work.consumer i
        (if (s.work.process.storeEntries driver result none).2 then .idle else .ended) →
      t.work.process = (s.work.process.storeEntries driver result none).1 →
      t.examined = s.examined → Worked driver provider s t

theorem step_worked {driver : Driver F R} {provider : Provider F φ} {s t : State (Fin n) F R φ}
    {a : Action (Fin n)} (taken : step driver provider s a = some t) : Worked driver provider s t := by
  cases a with
  | queue a =>
    cases step_stepped taken with
    | read i value queue _ idle _ => exact .read i _ _ idle rfl rfl rfl
    | queue => exact .same _ rfl rfl
    | stored _ _ _ _ wrong => simp at wrong
  | doOcr i =>
    cases holding : s.work.consumer i with
    | holding f =>
      cases processed : s.work.process.store.isFrameProcessed f.frameNumber with
      | true =>
        simp only [step,holding,processed,if_true,Option.some.injEq] at taken
        subst t
        exact .skipped i f _ holding (.inl processed) rfl rfl (by simp [processed])
      | false =>
        cases found : Recogniser.doOcr provider f with
        | none =>
          simp only [step,holding,processed,Bool.false_eq_true,if_false,found,Option.some.injEq] at taken
          subst t
          exact .skipped i f _ holding (.inr found) rfl rfl (by simp [processed])
        | some result =>
          simp only [step,holding,processed,Bool.false_eq_true,if_false,found,Option.some.injEq] at taken
          subst t
          exact .recognised i f result _ holding processed found rfl rfl rfl
    | _ => simp [step,holding] at taken
  | storeLastFrameNumber i =>
    obtain ⟨work,checked,same⟩ := Option.bind_eq_some_iff.mp taken
    obtain rfl := Option.some.inj same
    cases Checkpoint.step_stepped checked with
    | checkpointed _ result storing => exact .checkpointed i result _ storing rfl rfl rfl
  | storeEntries i =>
    obtain ⟨work,inserted,same⟩ := Option.bind_eq_some_iff.mp taken
    obtain rfl := Option.some.inj same
    cases Checkpoint.step_stepped inserted with
    | inserted _ result _ inserting => exact .inserted i result _ inserting rfl rfl rfl

/-! ## Words on their way -/

variable {driver : Driver F R} {provider : Provider F φ} {before words : List (Word F)}
  {s t : State (Fin n) F R φ}

theorem recognised_of_some {f : Frame φ} {result : OcrResult F}
    (found : Recogniser.doOcr provider f = some result) : recognised provider f = result.words := by
  simp [recognised,found]

theorem recognised_of_none {f : Frame φ} (failed : Recogniser.doOcr provider f = none) :
    recognised provider f = [] := by
  simp [recognised,failed]

theorem recognised_frameNumber {f : Frame φ} {w : Word F} (member : w ∈ recognised provider f) :
    w.frameNumber = f.frameNumber := by
  cases found : Recogniser.doOcr provider f with
  | none => simp [recognised_of_none found] at member
  | some result =>
    rw [recognised_of_some found] at member
    exact (words_frameNumber member).trans (doOcr_frameNumber found)

@[simp] theorem offered_append (examined : List (Examination κ φ)) (e : Examination κ φ) :
    offered (examined ++ [e]) = offered examined ++ if e.processed then [] else [e.frame] := by
  cases processed : e.processed <;> simp [offered,processed]

theorem mem_offered {examined : List (Examination κ φ)} {f : Frame φ} :
    f ∈ offered examined ↔ ∃ e ∈ examined, e.processed = false ∧ e.frame = f := by
  simp [offered,and_assoc]

/-- The frames that were looked up have different numbers. -/
def Distinct (examined : List (Examination κ φ)) : Prop :=
  (examined.map fun e => e.frame.frameNumber).Nodup

theorem Distinct.offered {examined : List (Examination κ φ)} (distinct : Distinct examined) :
    ((offered examined).map Frame.frameNumber).Nodup := by
  rw [Coverage.offered,List.map_map]
  exact distinct.sublist (List.filter_sublist.map _)

/-- The last frame has a number of its own, and those before it have. -/
theorem Distinct.parts {examined : List (Examination κ φ)} {e : Examination κ φ}
    (distinct : Distinct (examined ++ [e])) :
    Distinct examined ∧ ∀ g ∈ examined, g.frame.frameNumber ≠ e.frame.frameNumber := by
  simpa [Distinct,List.nodup_append] using distinct

/-- What is stored was there before or is of a frame that was given to the provider. -/
theorem Kept.source (kept : Kept driver provider before words s) {w : Word F} (member : w ∈ words) :
    w ∈ before ∨ ∃ f ∈ offered s.examined, w.frameNumber = f.frameNumber := by
  have inside : w ∈ (↑words + ∑ i, ↑(flying (s.work.consumer i)) : Multiset (Word F)) := by
    simp [member]
  rw [kept.conserved,Multiset.mem_add,Multiset.mem_coe,Multiset.mem_coe,List.mem_flatMap] at inside
  rcases inside with old | ⟨f,here,found⟩
  · exact .inl old
  · exact .inr ⟨f,here,recognised_frameNumber found⟩

/-- A frame that nobody looked up is processed exactly if it was before the run. -/
theorem Kept.isFrameProcessed_iff (kept : Kept driver provider before words s) {f : Frame φ}
    (other : ∀ e ∈ s.examined, e.frame.frameNumber ≠ f.frameNumber) :
    s.work.process.store.isFrameProcessed f.frameNumber = true ↔
      ∃ w ∈ before, w.frameNumber = f.frameNumber := by
  have stored : s.work.process.store.isFrameProcessed f.frameNumber = true ↔
      ∃ w ∈ words, w.frameNumber = f.frameNumber := by
    simp [kept.refines.isFrameProcessed_iff,Word.row]
  rw [stored]
  constructor
  · rintro ⟨w,member,same⟩
    rcases kept.source member with old | ⟨g,here,number⟩
    · exact ⟨w,old,same⟩
    · obtain ⟨e,inside,_,rfl⟩ := mem_offered.mp here
      exact absurd (number.symm.trans same) (other e inside)
  · rintro ⟨w,member,same⟩
    exact ⟨w,kept.older.subset member,same⟩

/-- The words that a consumer is about to store are not in the database. -/
theorem Kept.unstored (kept : Kept driver provider before words s) (distinct : Distinct s.examined)
    {i : Fin n} {result : OcrResult F}
    (pc : s.work.consumer i = .storing result ∨ s.work.consumer i = .inserting result) :
    ∀ w ∈ words, w.frameNumber ≠ result.frameNumber := by
  obtain ⟨f,here,found⟩ := kept.own i result pc
  have label := doOcr_frameNumber found
  let p : Word F → Prop := fun w => w.frameNumber = f.frameNumber
  have mine : flying (s.work.consumer i) = result.words := by
    rcases pc with pc | pc <;> rw [pc] <;> rfl
  have whole : Multiset.filter p ↑((offered s.examined).flatMap (recognised provider)) =
      (↑result.words : Multiset (Word F)) := by
    rw [Multiset.filter_coe,Multiset.coe_eq_coe,← recognised_of_some found]
    have keyed : ∀ g ∈ offered s.examined, ∀ w ∈ recognised provider g, w.frameNumber = g.frameNumber :=
      fun _ _ _ member => recognised_frameNumber member
    exact .of_eq (filter_flatMap_key keyed distinct.offered here)
  have fresh : Multiset.filter p (↑before : Multiset (Word F)) = 0 := by
    obtain ⟨e,inside,unprocessed,rfl⟩ := mem_offered.mp here
    rw [Multiset.filter_eq_nil]
    intro w member same
    have := (kept.known e inside).mpr ⟨w,member,same⟩
    simp [unprocessed] at this
  have all : Multiset.filter p ↑result.words = (↑result.words : Multiset (Word F)) := by
    rw [Multiset.filter_eq_self]
    intro w member
    exact (words_frameNumber member).trans label
  have parts := congrArg (Multiset.filter p) kept.conserved
  rw [← Finset.add_sum_erase _ _ (Finset.mem_univ i),mine] at parts
  simp only [Multiset.filter_add,whole,fresh,all,zero_add] at parts
  rw [add_left_comm] at parts
  have none := (add_eq_zero.mp (add_eq_left.mp parts)).1
  intro w member same
  exact Multiset.filter_eq_nil.mp none w member (same.trans label)

/-- A consumer that goes on without the database having changed. -/
theorem Kept.moved (kept : Kept driver provider before words s) {i : Fin n} {pc : Checkpoint.ConsumerPc F φ}
    {examined : List (Examination (Fin n) φ)}
    (consumer : t.work.consumer = Function.update s.work.consumer i pc)
    (tables : t.work.process.store.toTextTables = s.work.process.store.toTextTables)
    (added : t.examined = s.examined ++ examined)
    (known : ∀ e ∈ examined, e.processed = true ↔ ∃ w ∈ before, w.frameNumber = e.frame.frameNumber)
    (given : (↑(flying pc) : Multiset (Word F)) =
      ↑(flying (s.work.consumer i)) + ↑((offered examined).flatMap (recognised provider)))
    (own : ∀ result, pc = .storing result ∨ pc = .inserting result →
      ∃ f ∈ offered t.examined, Recogniser.doOcr provider f = some result)
    (nonempty : ∀ result, pc = .inserting result → result.entries ≠ []) :
    Kept driver provider before words t := by
  have more : offered t.examined = offered s.examined ++ offered examined := by simp [added,offered]
  constructor
  · rw [tables]
    exact kept.refines
  · exact kept.older
  · have sum := sum_update (fun _ pc => (↑(flying pc) : Multiset (Word F))) s.work.consumer i pc
    rw [given,← add_assoc,add_right_comm] at sum
    rw [consumer,add_right_cancel sum,more,List.flatMap_append,← Multiset.coe_add,← add_assoc,
      kept.conserved,add_assoc]
  · intro e member
    rcases List.mem_append.mp (added ▸ member) with old | new
    · exact kept.known e old
    · exact known e new
  · intro k result at_
    rw [consumer] at at_
    by_cases same : k = i
    · subst k
      rw [Function.update_self] at at_
      exact own result at_
    · rw [Function.update_of_ne same] at at_
      obtain ⟨f,here,found⟩ := kept.own k result at_
      exact ⟨f,by simp [more,here],found⟩
  · intro k result at_
    rw [consumer] at at_
    by_cases same : k = i
    · subst k
      rw [Function.update_self] at at_
      exact nonempty result at_
    · rw [Function.update_of_ne same] at at_
      exact kept.nonempty k result at_

/-- The words that were on their way are in the database. -/
theorem Kept.inserted (kept : Kept driver provider before words s) (distinct : Distinct s.examined) {i : Fin n}
    {result : OcrResult F} {pc : Checkpoint.ConsumerPc F φ} (inserting : s.work.consumer i = .inserting result)
    (consumer : t.work.consumer = Function.update s.work.consumer i pc) (gone : flying pc = [])
    (past : ∀ result, pc ≠ .storing result ∧ pc ≠ .inserting result)
    (process : t.work.process = (s.work.process.storeEntries driver result none).1)
    (examined : t.examined = s.examined) : Kept driver provider before (words ++ result.words) t := by
  have nonempty := kept.nonempty i result inserting
  have appends : (⟨result,none⟩ : Call F).appends words = true :=
    Call.appends_iff.mpr ⟨rfl,nonempty,kept.unstored distinct (.inr inserting)⟩
  have stored := (storeEntries_refines driver kept.refines ⟨result,none⟩ nonempty).1
  rw [record,if_pos appends] at stored
  constructor
  · rw [process]
    exact stored
  · exact kept.older.trans (List.prefix_append _ _)
  · have sum := sum_update_taken (fun _ pc => (↑(flying pc) : Multiset (Word F))) s.work.consumer
      (i := i) (v := pc) (by simp [gone])
    have here : flying (s.work.consumer i) = result.words := by rw [inserting]; rfl
    rw [here] at sum
    rw [consumer,examined,← kept.conserved,← sum,← Multiset.coe_add,add_assoc,
      add_comm (↑result.words : Multiset (Word F))]
  · rw [examined]
    exact kept.known
  · intro k other at_
    rw [consumer] at at_
    by_cases same : k = i
    · subst k
      rw [Function.update_self] at at_
      rcases at_ with at_ | at_
      · exact absurd at_ (past other).1
      · exact absurd at_ (past other).2
    · rw [Function.update_of_ne same] at at_
      exact examined ▸ kept.own k other at_
  · intro k other at_
    rw [consumer] at at_
    by_cases same : k = i
    · subst k
      rw [Function.update_self] at at_
      exact absurd at_ (past other).2
    · rw [Function.update_of_ne same] at at_
      exact kept.nonempty k other at_

theorem storeLastFrameNumber_tables (p : Process R) (frameNum : Int) :
    (p.storeLastFrameNumber frameNum).store.toTextTables = p.store.toTextTables := by
  unfold Process.storeLastFrameNumber
  split <;> rfl

/-- Nothing was added to the words, or those of a frame that has none there. -/
def Added (provider : Provider F φ) (frames : List (Frame φ)) (words words' : List (Word F)) : Prop :=
  words' = words ∨ ∃ f ∈ frames, recognised provider f ≠ [] ∧ (∀ w ∈ words, w.frameNumber ≠ f.frameNumber) ∧
    words' = words ++ recognised provider f

/-- What a step looks up is added to what was looked up. -/
theorem Worked.examined (worked : Worked driver provider s t) :
    ∃ more, t.examined = s.examined ++ more := by
  cases worked with
  | skipped i f _ _ _ _ _ examined => exact ⟨_,examined⟩
  | recognised i f result _ _ _ _ _ _ examined => exact ⟨_,examined⟩
  | same | read | checkpointed | inserted => exact ⟨[],by simpa⟩

theorem Worked.offered (worked : Worked driver provider s t) :
    Coverage.offered s.examined ⊆ Coverage.offered t.examined := by
  obtain ⟨more,examined⟩ := worked.examined
  simp [examined,Coverage.offered]

theorem step_kept (kept : Kept driver provider before words s) (worked : Worked driver provider s t)
    (distinct : Distinct t.examined) : ∃ words', Kept driver provider before words' t ∧
      Added provider (offered s.examined) words words' := by
  -- only an insertion changes the words
  suffices next : Kept driver provider before words t ∨ ∃ i result, s.work.consumer i = .inserting result ∧
      Kept driver provider before (words ++ result.words) t by
    rcases next with same | ⟨i,result,inserting,more⟩
    · exact ⟨words,same,.inl rfl⟩
    · obtain ⟨f,here,found⟩ := kept.own i result (.inr inserting)
      rw [← recognised_of_some found] at more
      refine ⟨_,more,.inr ⟨f,here,?_,?_,rfl⟩⟩
      · rw [recognised_of_some found]
        simpa [OcrResult.words] using kept.nonempty i result inserting
      · rw [← doOcr_frameNumber found]
        have apart : Distinct s.examined := by
          obtain ⟨more,examined⟩ := worked.examined
          exact (List.nodup_append.mp (by simpa [Distinct,examined] using distinct)).1
        exact kept.unstored apart (.inr inserting)
  cases worked with
  | same _ work examined =>
    obtain ⟨refines,older,conserved,known,own,nonempty⟩ := kept
    refine .inl ⟨?_,older,?_,?_,?_,?_⟩ <;> simp only [work,examined] <;> assumption
  | read i f _ idle consumer process examined =>
    refine .inl (kept.moved consumer (by rw [process]) (examined.trans (List.append_nil _).symm) (by simp) ?_
      (by simp) (by simp))
    simp [idle,flying,offered]
  | skipped i f _ holding nothing consumer process examined =>
    have other := (Distinct.parts (examined ▸ distinct)).2
    refine .inl (kept.moved consumer (by rw [process]) examined ?_ ?_ (by simp) (by simp))
    · simpa using kept.isFrameProcessed_iff other
    · rcases nothing with processed | failed
      · simp [holding,flying,offered,processed]
      · cases processed : s.work.process.store.isFrameProcessed f.frameNumber <;>
          simp [holding,flying,offered,recognised_of_none failed]
  | recognised i f result _ holding unprocessed found consumer process examined =>
    have other := (Distinct.parts (examined ▸ distinct)).2
    refine .inl (kept.moved consumer (by rw [process]) examined ?_ ?_ ?_ (by simp))
    · simpa [unprocessed] using kept.isFrameProcessed_iff other
    · simp [holding,flying,offered,recognised_of_some found]
    · intro other same
      obtain rfl : result = other := by simpa using same
      exact ⟨f,by simp [examined],found⟩
  | checkpointed i result _ storing consumer process examined =>
    have next (other : OcrResult F) : ((if result.entries.isEmpty then .idle else .inserting result :
        Checkpoint.ConsumerPc F φ) = .inserting other → result = other ∧ result.entries ≠ []) ∧
        (if result.entries.isEmpty then .idle else .inserting result :
          Checkpoint.ConsumerPc F φ) ≠ .storing other := by
      cases empty : result.entries <;> simp
    refine .inl (kept.moved consumer (by rw [process,storeLastFrameNumber_tables])
      (examined.trans (List.append_nil _).symm) (by simp) ?_ ?_ fun other at_ => ?_)
    · cases empty : result.entries <;> simp [storing,flying,offered,OcrResult.words,empty]
    · rintro other (at_ | at_)
      · exact absurd at_ (next other).2
      · exact ((next other).1 at_).1 ▸ examined ▸ kept.own i result (.inl storing)
    · obtain ⟨rfl,some⟩ := (next other).1 at_
      exact some
  | inserted i result _ inserting consumer process examined =>
    refine .inr ⟨i,result,inserting,
      kept.inserted (examined ▸ distinct) inserting consumer ?_ ?_ process examined⟩
    · split <;> rfl
    · intro other
      split <;> simp

/-! ## The checkpoint on its way -/

theorem neg_one_le_top (ms : Multiset Int) : -1 ≤ top ms := by
  induction ms using Multiset.induction with
  | empty => simp [top]
  | cons m ms ih =>
    rw [top,Multiset.fold_cons_left]
    exact le_max_of_le_right ih

theorem top_cons (m : Int) (ms : Multiset Int) : top (m ::ₘ ms) = max m (top ms) :=
  Multiset.fold_cons_left _ _ _ _

theorem numbers_append (front back : List (Frame φ)) :
    numbers provider (front ++ back) = numbers provider front ++ numbers provider back :=
  List.filterMap_append

/-- The two branches of `store_last_frame_number`. -/
theorem storeLastFrameNumber_top {p : Process R} {last : Int} {done : Multiset Int}
    (max : p.maxFrameNumber = top done) (checkpoint : p.store.lastProcessedFrame = checkpointAfter last done)
    (m : Int) : (p.storeLastFrameNumber m).maxFrameNumber = top (m ::ₘ done) ∧
      (p.storeLastFrameNumber m).store.lastProcessedFrame = checkpointAfter last (m ::ₘ done) := by
  have least := neg_one_le_top done
  unfold Process.storeLastFrameNumber
  split
  case isTrue older =>
    have same : top (m ::ₘ done) = top done := by rw [top_cons,max_eq_right (max ▸ older)]
    exact ⟨max.trans same.symm,by rw [checkpoint,checkpointAfter,checkpointAfter,same]⟩
  case isFalse newer =>
    have above : top done < m := by omega
    have next : top (m ::ₘ done) = m := by rw [top_cons,max_eq_left above.le]
    refine ⟨next.symm,?_⟩
    rw [checkpointAfter,next,if_neg (by omega)]

theorem step_checkpointed {last : Int} (kept : Checkpointed provider last s)
    (worked : Worked driver provider s t) : Checkpointed provider last t := by
  obtain ⟨done,sum,max,checkpoint⟩ := kept
  cases worked with
  | same _ work examined => exact ⟨done,by rw [work,examined,sum],by rw [work,max],by rw [work,checkpoint]⟩
  | read i f _ idle consumer process examined =>
    refine ⟨done,?_,by rw [process,max],by rw [process,checkpoint]⟩
    rw [consumer,examined,sum_update_same (fun _ pc => due pc) _ (by simp [idle,due]),sum]
  | skipped i f _ holding nothing consumer process examined =>
    refine ⟨done,?_,by rw [process,max],by rw [process,checkpoint]⟩
    have none : numbers provider (offered t.examined) = numbers provider (offered s.examined) := by
      rw [examined,offered_append,numbers_append]
      rcases nothing with processed | failed
      · simp [processed,numbers]
      · split <;> simp [numbers,failed]
    rw [consumer,none,sum_update_same (fun _ pc => due pc) _ (by simp [holding,due]),sum]
  | recognised i f result _ holding unprocessed found consumer process examined =>
    refine ⟨done,?_,by rw [process,max],by rw [process,checkpoint]⟩
    have one : numbers provider (offered t.examined) =
        numbers provider (offered s.examined) ++ [result.frameNumber] := by
      rw [examined,offered_append,numbers_append]
      simp [numbers,found]
    rw [consumer,one,sum_update_zero (fun _ pc => due pc) _ _ (by simp [holding,due]),← add_assoc,sum]
    rfl
  | checkpointed i result _ storing consumer process examined =>
    obtain ⟨max,checkpoint⟩ := storeLastFrameNumber_top max checkpoint result.frameNumber
    refine ⟨result.frameNumber ::ₘ done,?_,by rw [process,max],by rw [process,checkpoint]⟩
    have taken := sum_update_taken (fun _ pc => due pc) s.work.consumer (i := i)
      (v := if result.entries.isEmpty then .idle else .inserting result) (by split <;> rfl)
    rw [consumer,examined,← sum,← taken,storing,due,← Multiset.singleton_add]
    abel
  | inserted i result _ inserting consumer process examined =>
    refine ⟨done,?_,?_,?_⟩
    · rw [consumer,examined,sum_update_same (fun _ pc => due pc) _ (by split <;> simp [inserting,due]),sum]
    · rw [process]
      exact max
    · rw [process,← checkpoint]
      exact Databases.storeEntries_lastProcessedFrame driver _ result none

/-! ## Complete runs -/

theorem main_kept {db : Store R} (refines : db.toTextTables.Refines (before.map (Word.row driver)))
    (memory : Buffer → Frame φ) (frames : List (Frame φ)) :
    Kept driver provider before before (main db n memory frames) := by
  constructor
  · exact refines
  · exact List.prefix_rfl
  all_goals simp [main,Checkpoint.start,flying,offered]

theorem main_checkpointed (db : Store R) (memory : Buffer → Frame φ) (frames : List (Frame φ)) :
    Checkpointed provider db.lastProcessedFrame (main db n memory frames : State (Fin n) F R φ) := by
  refine ⟨0,?_,rfl,?_⟩
  · simp [main,Checkpoint.start,due,offered,numbers]
  · simp [main,Checkpoint.start,Process.start,checkpointAfter,top]

/-- The words that a run has added are those of whole frames, none twice. -/
structure Stored (provider : Provider F φ) (frames : List (Frame φ)) (before words : List (Word F))
    (stored : List (Frame φ)) : Prop where
  words : words = before ++ stored.flatMap (recognised provider)
  subset : stored ⊆ frames
  distinct : (stored.map Frame.frameNumber).Nodup
  apart : ∀ f ∈ stored, ∀ w ∈ before, w.frameNumber ≠ f.frameNumber
  shown : ∀ f ∈ stored, recognised provider f ≠ []

theorem Stored.added {frames : List (Frame φ)} {words' : List (Word F)} {stored : List (Frame φ)}
    (whole : Stored provider frames before words stored) (added : Added provider frames words words') :
    ∃ stored', Stored provider frames before words' stored' := by
  obtain rfl | ⟨f,here,shown,unstored,rfl⟩ := added
  · exact ⟨stored,whole⟩
  · refine ⟨stored ++ [f],?_,?_,?_,?_,?_⟩
    · simp [whole.words]
    · simpa using ⟨whole.subset,here⟩
    · rw [List.map_append,List.nodup_append]
      refine ⟨whole.distinct,List.nodup_singleton _,?_⟩
      intro number member other inside
      obtain ⟨g,there,rfl⟩ := List.mem_map.mp member
      obtain rfl : other = f.frameNumber := by simpa using inside
      obtain ⟨w,found⟩ := List.exists_mem_of_ne_nil _ (whole.shown g there)
      have stays : w ∈ words := by
        rw [whole.words]
        exact List.mem_append_right _ (List.mem_flatMap.mpr ⟨g,there,found⟩)
      exact fun same => unstored w stays ((recognised_frameNumber found).trans same)
    · intro g member w old
      rcases List.mem_append.mp member with there | new
      · exact whole.apart g there w old
      · obtain rfl := List.mem_singleton.mp new
        exact unstored w (by rw [whole.words]; exact List.mem_append_left _ old)
    · intro g member
      rcases List.mem_append.mp member with there | new
      · exact whole.shown g there
      · exact List.mem_singleton.mp new ▸ shown

/-- As long as the frames that were looked up have different numbers. -/
theorem reachable_stored {db : Store R} (refines : db.toTextTables.Refines (before.map (Word.row driver)))
    {memory : Buffer → Frame φ} {frames : List (Frame φ)}
    (reached : Reachable (step driver provider) (main db n memory frames) s) (distinct : Distinct s.examined) :
    ∃ words stored, Kept driver provider before words s ∧
      Stored provider (offered s.examined) before words stored := by
  induction reached with
  | start => exact ⟨before,[],main_kept refines memory frames,by constructor <;> simp⟩
  | next earlier _ taken ih =>
    have worked := step_worked taken
    obtain ⟨more,examined⟩ := worked.examined
    have parts := List.nodup_append.mp (by simpa [Distinct,examined] using distinct)
    obtain ⟨words,stored,kept,whole⟩ := ih parts.1
    obtain ⟨words',kept',added⟩ := step_kept kept worked distinct
    obtain ⟨stored',whole'⟩ := whole.added added
    exact ⟨words',stored',kept',whole'.words,fun f member => worked.offered (whole'.subset member),
      whole'.distinct,whole'.apart,whole'.shown⟩

theorem reachable_kept {db : Store R} (refines : db.toTextTables.Refines (before.map (Word.row driver)))
    {memory : Buffer → Frame φ} {frames : List (Frame φ)}
    (reached : Reachable (step driver provider) (main db n memory frames) s) (distinct : Distinct s.examined) :
    ∃ words, Kept driver provider before words s := by
  obtain ⟨words,_,kept,_⟩ := reachable_stored refines reached distinct
  exact ⟨words,kept⟩

theorem reachable_checkpointed {db : Store R} {memory : Buffer → Frame φ} {frames : List (Frame φ)}
    (reached : Reachable (step driver provider) (main db n memory frames) s) :
    Checkpointed provider db.lastProcessedFrame s :=
  reached.invariant (main_checkpointed db memory frames)
    fun _ _ _ _ kept _ taken => step_checkpointed kept (step_worked taken)

/-- A consumer that has finished is not at work. -/
theorem finished_idle {db : Store R} {memory : Buffer → Frame φ} {frames : List (Frame φ)}
    (reached : Reachable (step driver provider) (main db n memory frames) s)
    (finished : Completion.Finished s.queue) (i : Fin n) : s.work.consumer i = .idle := by
  by_contra working
  obtain ⟨value,returning⟩ := (reachable_invariant reached).busy i working
  simp [finished.2 i] at returning

/-- The frames that are not in the database yet. -/
def unprocessed (db : Store R) (frames : List (Frame φ)) : List (Frame φ) :=
  frames.filter fun f => !db.isFrameProcessed f.frameNumber

/-- The frames that were given to the provider are those that were not in the database before. -/
theorem finished_offered {db : Store R} (refines : db.toTextTables.Refines (before.map (Word.row driver)))
    {memory : Buffer → Frame φ} {frames : List (Frame φ)} (distinct : (frames.map Frame.frameNumber).Nodup)
    (reached : Reachable (step driver provider) (main db n memory frames) s)
    (finished : Completion.Finished s.queue) :
    (∃ words, Kept driver provider before words s) ∧ (offered s.examined).Perm (unprocessed db frames) := by
  have examined := finished_examined reached finished
  have apart : Distinct s.examined := by
    have same := (examined.map Frame.frameNumber).nodup_iff.mp distinct
    simpa [Distinct,Function.comp_def] using same
  obtain ⟨words,kept⟩ := reachable_kept refines reached apart
  have known : ∀ e ∈ s.examined, e.processed = db.isFrameProcessed e.frame.frameNumber := by
    intro e member
    rw [Bool.eq_iff_iff,kept.known e member,refines.isFrameProcessed_iff]
    simp [Word.row]
  have here : offered s.examined = unprocessed db (s.examined.map Examination.frame) := by
    rw [offered,unprocessed,List.filter_map]
    congr 1
    apply List.filter_congr
    intro e member
    simp [known e member]
  refine ⟨⟨words,kept⟩,?_⟩
  rw [here]
  exact (examined.filter _).symm

theorem finished_words {db : Store R} (refines : db.toTextTables.Refines (before.map (Word.row driver)))
    {memory : Buffer → Frame φ} {frames : List (Frame φ)} (distinct : (frames.map Frame.frameNumber).Nodup)
    (reached : Reachable (step driver provider) (main db n memory frames) s)
    (finished : Completion.Finished s.queue) :
    ∃ words, s.work.process.store.toTextTables.Refines (words.map (Word.row driver)) ∧ before <+: words ∧
      words.Perm (before ++ (unprocessed db frames).flatMap (recognised provider)) := by
  obtain ⟨⟨words,kept⟩,given⟩ := finished_offered refines distinct reached finished
  refine ⟨words,kept.refines,kept.older,?_⟩
  have conserved := kept.conserved
  simp only [finished_idle reached finished,flying,Multiset.coe_nil,Finset.sum_const_zero,add_zero,
    Multiset.coe_add,Multiset.coe_eq_coe] at conserved
  exact conserved.trans ((given.flatMap_right _).append_left _)

theorem finished_checkpoint {db : Store R} (refines : db.toTextTables.Refines (before.map (Word.row driver)))
    {memory : Buffer → Frame φ} {frames : List (Frame φ)} (distinct : (frames.map Frame.frameNumber).Nodup)
    (reached : Reachable (step driver provider) (main db n memory frames) s)
    (finished : Completion.Finished s.queue) : s.work.process.store.lastProcessedFrame =
      checkpointAfter db.lastProcessedFrame ↑(numbers provider (unprocessed db frames)) := by
  obtain ⟨done,sum,_,checkpoint⟩ := reachable_checkpointed reached
  simp only [finished_idle reached finished,due,Finset.sum_const_zero,add_zero] at sum
  have same : (numbers provider (offered s.examined)).Perm (numbers provider (unprocessed db frames)) :=
    (finished_offered refines distinct reached finished).2.filterMap _
  rw [checkpoint,sum,Multiset.coe_eq_coe.mpr same]

/-- Any number of consumers, any interleaving: with frames of different numbers a complete run adds the words
of exactly those frames that were not in the database, each once, and the checkpoint is then the highest
number of such a frame with a result, however they overtook each other. -/
theorem complete_run_stores (driver : Driver F R) (provider : Provider F φ) (db : Store R)
    (before : List (Word F)) (refines : db.toTextTables.Refines (before.map (Word.row driver)))
    (frames : List (Frame φ)) (distinct : (frames.map Frame.frameNumber).Nodup) (threads : Nat)
    (memory : Buffer → Frame φ) (s : State (Fin threads) F R φ)
    (reached : Reachable (step driver provider) (main db threads memory frames) s)
    (finished : Completion.Finished s.queue) :
    (∃ words, s.work.process.store.toTextTables.Refines (words.map (Word.row driver)) ∧ before <+: words ∧
      words.Perm (before ++ (unprocessed db frames).flatMap (recognised provider))) ∧
    s.work.process.store.lastProcessedFrame =
      checkpointAfter db.lastProcessedFrame ↑(numbers provider (unprocessed db frames)) := by
  exact ⟨finished_words refines distinct reached finished,
    finished_checkpoint refines distinct reached finished⟩

/-- The second of two consumers stores frame 2 before the first one stores frame 1. -/
theorem complete_run_stores_witness :
    let provider : Provider Int Nat := fun f => some [⟨0,0,9,9,90,toString f.image⟩]
    ∃ s : State (Fin 2) Int Int Nat, Reachable (step Driver.exact provider)
        (main .fresh 2 (fun _ => ⟨0,0⟩) [⟨1,10⟩,⟨2,20⟩]) s ∧ Completion.Finished s.queue ∧
      (∃ words : List (Word Int), s.work.process.store.toTextTables.Refines (words.map (Word.row Driver.exact)) ∧
        words.Perm [⟨1,⟨0,0,9,9,90,"10"⟩⟩,⟨2,⟨0,0,9,9,90,"20"⟩⟩]) ∧
      s.work.process.store.lastProcessedFrame = 2 := by
  intro provider
  obtain ⟨s,ran,producer,first,second⟩ : ∃ s : State (Fin 2) Int Int Nat,
      run (step Driver.exact provider) (main .fresh 2 (fun _ => ⟨0,0⟩) [⟨1,10⟩,⟨2,20⟩])
        [.queue .getProducerValue,.queue .write,.queue .addConsumerValue,.queue .getProducerValue,
          .queue .write,.queue .addConsumerValue,.queue (.getConsumerValue 0),.queue (.getConsumerValue 1),
          .queue (.read 0),.queue (.read 1),.doOcr 0,.doOcr 1,.storeLastFrameNumber 1,.storeEntries 1,
          .storeLastFrameNumber 0,.storeEntries 0,.queue (.addProducerValue 0),.queue (.addProducerValue 1),
          .queue .shutdown,.queue .shutdown,.queue .getProducerValue,.queue (.getConsumerValue 0),
          .queue (.getConsumerValue 1)] = some s ∧
      s.queue.producer = .done ∧ s.queue.consumer 0 = .done ∧ s.queue.consumer 1 = .done :=
    ⟨_,rfl,rfl,rfl,rfl⟩
  have reached := reachable_of_run ran
  have finished : Completion.Finished s.queue := ⟨producer,Fin.forall_fin_two.mpr ⟨first,second⟩⟩
  obtain ⟨⟨words,refined,_,same⟩,checkpoint⟩ := complete_run_stores Driver.exact provider .fresh []
    TextTables.empty_refines [⟨1,10⟩,⟨2,20⟩] (by decide) 2 (fun _ => ⟨0,0⟩) s reached finished
  exact ⟨s,reached,finished,⟨words,refined,same⟩,checkpoint⟩

end OcrSuite.Coverage
