import OcrSuite.CompleteRun

/-! Runs of the recogniser over longer and longer parts of a recording, each with consumers of its own
number, against one run over the last of them. -/
namespace OcrSuite.Coverage

open Transition Recogniser

variable {F R φ : Type} {driver : Driver F R} {provider : Provider F φ}

/-- A run of `main` to its end, on a database that says where it starts. -/
def Complete (driver : Driver F R) (provider : Provider F φ) (frames : List (Frame φ)) (db db' : Store R) :
    Prop :=
  ∃ (threads : Nat) (memory : Buffer → Frame φ) (s : State (Fin threads) F R φ),
    Reachable (step driver provider)
      (main db threads memory (decoded db.getStartingFrameNumber frames)) s ∧
    Completion.Finished s.queue ∧ db' = s.work.process.store

/-- Complete runs one after the other, each in a new process on the database of the last. -/
inductive CompleteRuns (driver : Driver F R) (provider : Provider F φ) :
    Store R → List (List (Frame φ)) → Store R → Prop where
  | nil : CompleteRuns driver provider db [] db
  | cons : Complete driver provider frames db next → CompleteRuns driver provider next rest db' →
      CompleteRuns driver provider db (frames :: rest) db'

/-- The database has the words of these frames, and the highest number of one with a result. -/
structure Holds (driver : Driver F R) (provider : Provider F φ) (frames : List (Frame φ)) (db : Store R) :
    Prop where
  stored : ∃ words : List (Word F), db.toTextTables.Refines (words.map (Word.row driver)) ∧
    words.Perm ((decoded 1 frames).flatMap (recognised provider))
  checkpoint : db.lastProcessedFrame = checkpointAfter 0 ↑(numbers provider (decoded 1 frames))

/-! ## The highest number -/

theorem le_top {m : Int} {ms : Multiset Int} (member : m ∈ ms) : m ≤ top ms := by
  obtain ⟨rest,rfl⟩ := Multiset.exists_cons_of_mem member
  rw [top_cons]
  exact le_max_left _ _

theorem top_mem (ms : Multiset Int) : top ms = -1 ∨ top ms ∈ ms := by
  induction ms using Multiset.induction with
  | empty => exact .inl rfl
  | cons m ms ih =>
    rw [top_cons]
    rcases le_total m (top ms) with less | more
    · rw [max_eq_right less]
      exact ih.imp id Multiset.mem_cons_of_mem
    · rw [max_eq_left more]
      exact .inr (Multiset.mem_cons_self m ms)

theorem top_add (front back : Multiset Int) : top (front + back) = max (top front) (top back) := by
  have split := Multiset.fold_add max (-1 : Int) (-1) front back
  rwa [max_self] at split

/-- Given in two parts, of which the second is above the first. -/
theorem checkpointAfter_add (last : Int) {front back : Multiset Int} (positive : ∀ m ∈ back, 1 ≤ m)
    (above : ∀ m ∈ back, top front < m) :
    checkpointAfter (checkpointAfter last front) back = checkpointAfter last (front + back) := by
  rcases top_mem back with none | here
  · have same : top (front + back) = top front := by
      rw [top_add,none,max_eq_left (neg_one_le_top front)]
    unfold checkpointAfter
    rw [same,if_pos none]
  · have least := positive _ here
    have same : top (front + back) = top back := by rw [top_add,max_eq_right (above _ here).le]
    unfold checkpointAfter
    rw [same,if_neg (by omega),if_neg (by omega)]

theorem mem_numbers {frames : List (Frame φ)} {m : Int} : m ∈ numbers provider frames ↔
    ∃ f ∈ frames, f.frameNumber = m ∧ (Recogniser.doOcr provider f).isSome = true := by
  simp only [numbers,List.mem_filterMap,Option.map_eq_some_iff,Option.isSome_iff_exists]
  constructor
  · rintro ⟨f,member,result,found,rfl⟩
    exact ⟨f,member,(doOcr_frameNumber found).symm,result,found⟩
  · rintro ⟨f,member,rfl,result,found⟩
    exact ⟨f,member,result,found,doOcr_frameNumber found⟩

theorem mem_decoded {n : Int} {frames : List (Frame φ)} {f : Frame φ} :
    f ∈ decoded n frames ↔ f ∈ frames ∧ n ≤ f.frameNumber := by
  simp [decoded]

/-! ## The next run -/

variable {frames rest : List (Frame φ)} {db db' : Store R}

theorem fresh_holds : Holds driver provider [] (Store.fresh : Store R) where
  stored := ⟨[],TextTables.empty_refines,by simp [decoded]⟩
  checkpoint := rfl

/-- A frame with a result is not above the checkpoint. -/
theorem Holds.le_checkpoint (holds : Holds driver provider frames db) {f : Frame φ}
    (member : f ∈ decoded 1 frames) (found : (Recogniser.doOcr provider f).isSome = true) :
    f.frameNumber ≤ db.lastProcessedFrame := by
  have inside : f.frameNumber ∈ numbers provider (decoded 1 frames) := mem_numbers.mpr ⟨f,member,rfl,found⟩
  have below := le_top (Multiset.mem_coe.mpr inside)
  have positive := (mem_decoded.mp member).2
  rw [holds.checkpoint,checkpointAfter,if_neg (by omega)]
  exact below

/-- What comes after these frames is above the checkpoint. -/
theorem Holds.checkpoint_lt (holds : Holds driver provider frames db) {m : Int} (positive : 1 ≤ m)
    (later : ∀ f ∈ frames, f.frameNumber < m) : db.lastProcessedFrame < m := by
  rw [holds.checkpoint,checkpointAfter]
  split
  case isTrue => omega
  case isFalse some =>
    have here := (top_mem _).resolve_left some
    obtain ⟨f,member,number,_⟩ := mem_numbers.mp (Multiset.mem_coe.mp here)
    have := later f (mem_decoded.mp member).1
    omega

theorem Holds.unprocessed (holds : Holds driver provider frames db) {f : Frame φ}
    (beyond : db.lastProcessedFrame < f.frameNumber) : db.isFrameProcessed f.frameNumber = false := by
  obtain ⟨words,refines,same⟩ := holds.stored
  rw [Bool.eq_false_iff,ne_eq,refines.isFrameProcessed_iff]
  rintro ⟨row,member,number⟩
  obtain ⟨w,inside,rfl⟩ := List.mem_map.mp member
  obtain ⟨g,there,found⟩ := List.mem_flatMap.mp (same.mem_iff.mp inside)
  have result : (Recogniser.doOcr provider g).isSome = true := by
    cases failed : Recogniser.doOcr provider g with
    | none => simp [recognised_of_none failed] at found
    | some => rfl
  have := holds.le_checkpoint there result
  have := recognised_frameNumber found
  simp only [Word.row] at number
  omega

theorem Holds.nonneg (holds : Holds driver provider frames db) : 0 ≤ db.lastProcessedFrame := by
  have least := neg_one_le_top ↑(numbers provider (decoded 1 frames))
  rw [holds.checkpoint,checkpointAfter]
  split <;> omega

/-- The frames that the next run decodes again have no result. -/
theorem Holds.again (holds : Holds driver provider frames db) :
    (decoded db.getStartingFrameNumber frames).flatMap (recognised provider) = [] ∧
      numbers provider (decoded db.getStartingFrameNumber frames) = [] := by
  have nonneg := holds.nonneg
  have failed : ∀ f ∈ decoded db.getStartingFrameNumber frames, Recogniser.doOcr provider f = none := by
    intro f member
    obtain ⟨inside,later⟩ := mem_decoded.mp member
    unfold Store.getStartingFrameNumber at later
    by_contra found
    have := holds.le_checkpoint (mem_decoded.mpr ⟨inside,by omega⟩) (Option.ne_none_iff_isSome.mp found)
    omega
  constructor
  · exact List.flatMap_eq_nil_iff.mpr fun f member => recognised_of_none (failed f member)
  · exact List.filterMap_eq_nil_iff.mpr fun f member => by rw [failed f member]; rfl

theorem decoded_append (n : Int) (front back : List (Frame φ)) :
    decoded n (front ++ back) = decoded n front ++ decoded n back :=
  List.filter_append _ _

theorem Holds.next (holds : Holds driver provider frames db) (increasing : Increasing (frames ++ rest))
    (run : Complete driver provider (frames ++ rest) db db') : Holds driver provider (frames ++ rest) db' := by
  obtain ⟨words,refines,same⟩ := holds.stored
  obtain ⟨threads,memory,s,reached,finished,rfl⟩ := run
  obtain ⟨none,nothing⟩ := holds.again
  have nonneg := holds.nonneg
  have later : ∀ f ∈ rest, 1 ≤ f.frameNumber → db.lastProcessedFrame < f.frameNumber := fun f member positive =>
    holds.checkpoint_lt positive fun g inside => (List.pairwise_append.mp increasing).2.2 g inside f member
  have fresh : decoded db.getStartingFrameNumber rest = decoded 1 rest := by
    apply List.filter_congr
    intro f member
    have := later f member
    have start : db.getStartingFrameNumber = db.lastProcessedFrame + 1 := rfl
    rw [decide_eq_decide,start]
    omega
  have distinct : ((decoded db.getStartingFrameNumber (frames ++ rest)).map Frame.frameNumber).Nodup :=
    List.pairwise_map.mpr ((increasing.filter _).imp fun less => less.ne)
  have all : Coverage.unprocessed db (decoded db.getStartingFrameNumber (frames ++ rest)) =
      decoded db.getStartingFrameNumber (frames ++ rest) := by
    apply List.filter_eq_self.mpr
    intro f member
    have beyond := (mem_decoded.mp member).2
    rw [holds.unprocessed (Int.lt_of_add_one_le beyond)]
    rfl
  constructor
  · obtain ⟨words',refines',_,added⟩ := finished_words refines distinct reached finished
    rw [all,decoded_append,List.flatMap_append,none,List.nil_append,fresh] at added
    refine ⟨words',refines',added.trans ?_⟩
    rw [decoded_append,List.flatMap_append]
    exact same.append_right _
  · have checkpoint := finished_checkpoint refines distinct reached finished
    rw [all,decoded_append,numbers_append,nothing,List.nil_append,fresh] at checkpoint
    rw [checkpoint,holds.checkpoint,decoded_append,numbers_append,← Multiset.coe_add]
    have above : ∀ m ∈ (↑(numbers provider (decoded 1 rest)) : Multiset Int), 1 ≤ m ∧
        top ↑(numbers provider (decoded 1 frames)) < m := by
      intro m member
      obtain ⟨f,inside,rfl,_⟩ := mem_numbers.mp (Multiset.mem_coe.mp member)
      obtain ⟨there,positive⟩ := mem_decoded.mp inside
      have past := later f there positive
      rw [holds.checkpoint,checkpointAfter] at past
      refine ⟨positive,?_⟩
      split at past <;> omega
    exact checkpointAfter_add 0 (fun m member => (above m member).1) fun m member => (above m member).2

/-- Runs over growing parts of a recording hold what is in the last part. -/
theorem CompleteRuns.holds {recording front : List (Frame φ)} {prefixes : List (List (Frame φ))}
    (increasing : Increasing recording) (inside : ∀ part ∈ prefixes, part <+: recording)
    (growing : (front :: prefixes).IsChain (· <+: ·)) (before : Holds driver provider front db)
    (runs : CompleteRuns driver provider db prefixes db') :
    Holds driver provider ((front :: prefixes).getLast (List.cons_ne_nil _ _)) db' := by
  induction prefixes generalizing front db with
  | nil =>
    cases runs
    exact before
  | cons part prefixes ih =>
    cases runs with
    | cons first later =>
      obtain ⟨grown,chain⟩ := List.isChain_cons_cons.mp growing
      obtain ⟨rest,rfl⟩ := grown
      have up : Increasing (front ++ rest) := increasing.sublist (inside _ List.mem_cons_self).sublist
      rw [List.getLast_cons (List.cons_ne_nil _ _)]
      exact ih (fun other member => inside other (List.mem_cons_of_mem _ member)) chain
        (before.next up first) later

/-- A recording that is processed as it grows, by any numbers of consumers in any interleavings: the words
are those of all its frames from number 1 on, each once, and the checkpoint is the highest number of one
with a result. So it is for a single run over the last part, and a search finds the same in both. -/
theorem growing_recording (driver : Driver F R) (provider : Provider F φ) (recording : List (Frame φ))
    (increasing : Increasing recording) (prefixes : List (List (Frame φ)))
    (inside : ∀ part ∈ prefixes, part <+: recording) (growing : prefixes.IsChain (· <+: ·))
    (nonempty : prefixes ≠ []) (db once : Store R) (runs : CompleteRuns driver provider .fresh prefixes db)
    (single : Complete driver provider (prefixes.getLast nonempty) .fresh once) :
    (∃ words : List (Word F), db.toTextTables.Refines (words.map (Word.row driver)) ∧
      words.Perm ((decoded 1 (prefixes.getLast nonempty)).flatMap (recognised provider))) ∧
    db.lastProcessedFrame = once.lastProcessedFrame ∧
    ∀ text, (db.findText driver text).Perm (once.findText driver text) := by
  have chain : ([] :: prefixes).IsChain (· <+: ·) :=
    List.isChain_cons.mpr ⟨fun _ _ => List.nil_prefix,growing⟩
  have many := runs.holds increasing inside chain fresh_holds
  rw [List.getLast_cons nonempty] at many
  have last : Increasing ([] ++ prefixes.getLast nonempty) :=
    increasing.sublist (inside _ (List.getLast_mem nonempty)).sublist
  have empty : Holds driver provider [] (Store.fresh : Store R) := fresh_holds
  have one := empty.next last single
  obtain ⟨words,refines,same⟩ := many.stored
  obtain ⟨words',refines',same'⟩ := one.stored
  refine ⟨⟨words,refines,same⟩,many.checkpoint.trans one.checkpoint.symm,fun text => ?_⟩
  rw [refines.findText,refines'.findText]
  exact (((same.trans same'.symm).map _).filter _).map _

/-- Frame 1 is not recognised in the first run, by one consumer, and is tried again in the second, by two. -/
theorem growing_recording_witness :
    let provider : Provider Int (Option (List (TextEntry Int))) := fun f => f.image
    let early : List (Frame (Option (List (TextEntry Int)))) := [⟨1,none⟩]
    let all := early ++ [⟨2,some [⟨0,0,9,9,90,"a"⟩]⟩]
    ∃ db once : Store Int, CompleteRuns Driver.exact provider .fresh [early,all] db ∧
      Complete Driver.exact provider all .fresh once ∧
      ∀ text, (db.findText Driver.exact text).Perm (once.findText Driver.exact text) := by
  intro provider early all
  have first : Complete Driver.exact provider early (.fresh : Store Int) .fresh := by
    obtain ⟨s,ran,producer,consumer,store⟩ : ∃ s : State (Fin 1) Int Int _,
        run (step Driver.exact provider) (main .fresh 1 (fun _ => ⟨0,none⟩) early)
          [.queue .getProducerValue,.queue .write,.queue .addConsumerValue,.queue (.getConsumerValue 0),
            .queue (.read 0),.doOcr 0,.queue (.addProducerValue 0),.queue .shutdown,.queue .shutdown,
            .queue .getProducerValue,.queue (.getConsumerValue 0)] = some s ∧ s.queue.producer = .done ∧
        s.queue.consumer 0 = .done ∧ .fresh = s.work.process.store := ⟨_,rfl,rfl,rfl,rfl⟩
    exact ⟨1,_,s,reachable_of_run ran,⟨producer,fun i => Fin.fin_one_eq_zero i ▸ consumer⟩,store⟩
  obtain ⟨db,second⟩ : ∃ db : Store Int, Complete Driver.exact provider all .fresh db := by
    obtain ⟨s,ran,producer,zero,one⟩ : ∃ s : State (Fin 2) Int Int _,
        run (step Driver.exact provider) (main .fresh 2 (fun _ => ⟨0,none⟩) all)
          [.queue .getProducerValue,.queue .write,.queue .addConsumerValue,.queue .getProducerValue,
            .queue .write,.queue .addConsumerValue,.queue (.getConsumerValue 0),.queue (.getConsumerValue 1),
            .queue (.read 0),.queue (.read 1),.doOcr 0,.doOcr 1,.storeLastFrameNumber 1,.storeEntries 1,
            .queue (.addProducerValue 0),.queue (.addProducerValue 1),.queue .shutdown,.queue .shutdown,
            .queue .getProducerValue,.queue (.getConsumerValue 0),.queue (.getConsumerValue 1)] = some s ∧
        s.queue.producer = .done ∧ s.queue.consumer 0 = .done ∧ s.queue.consumer 1 = .done :=
      ⟨_,rfl,rfl,rfl,rfl⟩
    exact ⟨_,2,_,s,reachable_of_run ran,⟨producer,Fin.forall_fin_two.mpr ⟨zero,one⟩⟩,rfl⟩
  have runs : CompleteRuns Driver.exact provider .fresh [early,all] db := .cons first (.cons second .nil)
  have same := growing_recording Driver.exact provider all (by simp [all,early]) [early,all] (by simp [all])
    (by simp [all]) (by simp) db db runs second
  exact ⟨db,db,runs,second,same.2.2⟩

end OcrSuite.Coverage
