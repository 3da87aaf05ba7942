import OcrSuite.CompleteRun
import OcrSuite.ResultPass
import OcrSuite.SearchRows

/-! From the videos to the tree of results: recordings that were processed to their end by any number of
consumers, their databases searched by any number of threads, and the table sorted into the tree. The tree
shows exactly the recognised words with the text. -/
namespace OcrSuite.Viewer

open Grouping Transition Coverage

variable {F R φ : Type}

/-! ## What the tree says of words -/

def Row.word (row : Row F) : Word F :=
  ⟨row.frame,⟨row.left,row.top,row.right,row.bottom,row.confidence,row.text⟩⟩

def Text.word (number : Int) (text : Text F) : Word F :=
  ⟨number,⟨text.left,text.top,text.right,text.bottom,text.confidence,text.value⟩⟩

def Frame.words (f : Frame F) : List (Word F) := f.texts.map (Text.word f.number)

/-- The words in the order of the document. -/
def Tree.words (t : Tree F) : List (Word F) := t.frames.flatMap Frame.words

/-- The words with the video that a click on their frame opens. -/
def Tree.attributed (t : Tree F) : List (String × Word F) :=
  t.frames.flatMap fun f => f.words.map (f.videoFile,·)

/-- Rows of one node are of one video. -/
def OneVideo (r : Recordings) (rows : List (Row F)) : Prop :=
  ∀ a ∈ rows, ∀ b ∈ rows, r.key a = r.key b → a.videoFile = b.videoFile

theorem ofRow_word {row : Row F} {number : Int} (i : Nat) (same : number = row.frame) :
    (Text.ofRow i row).word number = row.word := by
  rw [same]
  rfl

/-- The frame of a run of rows has their words. -/
theorem frameOf_words {r : Recordings} {rows run : List (Row F)} (member : run ∈ runs r.key rows) :
    (frameOf 0 run).words = run.map Row.word ∧
      ∃ first ∈ run, (frameOf 0 run).videoFile = first.videoFile ∧ ∀ row ∈ run, r.key first = r.key row := by
  obtain ⟨first,rest,rfl⟩ := List.exists_cons_of_ne_nil (runs_ne_nil member)
  obtain ⟨texts,pair⟩ := frameOf_eq (List.head?_cons (a := first) (l := rest))
  obtain ⟨video,number⟩ := Prod.mk.inj pair
  have same : ∀ row ∈ first :: rest, r.key first = r.key row := fun row inside =>
    key_eq_of_isChain (isChain_of_mem_runs member) List.mem_cons_self inside
  refine ⟨?_,first,List.mem_cons_self,video,same⟩
  rw [Frame.words,texts,number]
  refine List.ext_getElem (by simp) fun i _ inside => ?_
  rw [List.getElem_map,List.getElem_mapIdx,List.getElem_map]
  apply ofRow_word
  exact congrArg Prod.snd (same _ (List.getElem_mem _))

theorem ofRows_words (r : Recordings) (generation : Nat) (rows : List (Row F)) :
    (Tree.ofRows r generation rows).words = rows.map Row.word := by
  have runsOf := map_frames r generation rows Frame.words fun _ => rfl
  calc (Tree.ofRows r generation rows).words
    _ = ((frames (sortResults r generation rows)).map Frame.words).flatten := rfl
    _ = (runs r.key rows).flatMap fun run => (frameOf 0 run).words := by rw [runsOf,← List.flatMap_def]
    _ = (runs r.key rows).flatMap (List.map Row.word) :=
      List.flatMap_congr fun run member => (frameOf_words member).1
    _ = rows.map Row.word := by rw [List.flatMap_def,← List.map_flatten,flatten_runs]

theorem ofRows_attributed (r : Recordings) (generation : Nat) {rows : List (Row F)} (one : OneVideo r rows) :
    (Tree.ofRows r generation rows).attributed = rows.map fun row => (row.videoFile,row.word) := by
  have runsOf := map_frames r generation rows (fun f => f.words.map (f.videoFile,·)) fun _ => rfl
  have run : ∀ run ∈ runs r.key rows, (frameOf 0 run).words.map ((frameOf 0 run).videoFile,·) =
      run.map fun row => (row.videoFile,row.word) := by
    intro run member
    obtain ⟨words,first,inside,video,same⟩ := frameOf_words member
    have stays := (infix_of_mem_runs member).subset
    rw [words,video,List.map_map]
    apply List.map_congr_left
    intro row here
    rw [Function.comp_apply,one first (stays inside) row (stays here) (same row here)]
  calc (Tree.ofRows r generation rows).attributed
    _ = ((frames (sortResults r generation rows)).map fun f => f.words.map (f.videoFile,·)).flatten := rfl
    _ = (runs r.key rows).flatMap fun run => (frameOf 0 run).words.map ((frameOf 0 run).videoFile,·) := by
      rw [runsOf,← List.flatMap_def]
    _ = (runs r.key rows).flatMap (List.map fun row => (row.videoFile,row.word)) := List.flatMap_congr run
    _ = rows.map fun row => (row.videoFile,row.word) := by
      rw [List.flatMap_def,← List.map_flatten,flatten_runs]

/-! ## What the databases have of videos -/

/-- No frame comes after 2^50 ticks, from the beginning or from a position that is found. -/
def Short (packets : List (Packet φ)) (seek : SeekFile φ) : Prop :=
  (∀ f ∈ delivered packets, f.pts < 2 ^ 50) ∧
    ∀ sought position, seek sought = some position → ∀ f ∈ delivered position, f.pts < 2 ^ 50

/-- A video that the decoder can go through, with frames of different numbers. -/
structure Video (φ : Type) where
  decoder : Decoder Binary64
  packets : List (Packet φ)
  seek : SeekFile φ
  rate : 0 < decoder.frameRatio.value
  base : 0 < decoder.timeRatio.value
  demuxes : Decoder.Demuxes packets seek
  short : Short packets seek
  distinct : (((delivered packets).filter decoder.wanted).map decoder.frameNumber).Nodup
  fits : ∀ f ∈ delivered packets, FitsInt (decoder.frameNumber f)

namespace Video

/-- The frames that pass the filter, from number 1 on. -/
def frames (v : Video φ) : List (OcrSuite.Frame φ) :=
  ((({ v.decoder with startingFrame := 1 } : Decoder Binary64).calls (delivered v.packets))).map toFrame

def words (provider : Recogniser.Provider F φ) (v : Video φ) : List (Word F) :=
  v.frames.flatMap (recognised provider)

/-- The database of a complete run of `main` that began on a new one. -/
def Processed (driver : Driver F R) (provider : Recogniser.Provider F φ) (v : Video φ) (db : Store R) :
    Prop :=
  ∃ (threads : Nat) (memory : Buffer → OcrSuite.Frame φ) (s : State (Fin threads) F R φ),
    Reachable (step driver provider)
      (main .fresh threads memory (passedOn (Store.fresh : Store R) v.decoder v.seek v.packets)) s ∧
    Completion.Finished s.queue ∧ db = s.work.process.store

theorem passedOn_eq (v : Video φ) :
    passedOn (Store.fresh : Store R) v.decoder v.seek v.packets = v.frames := by
  let first : Decoder Binary64 := { v.decoder with startingFrame := 1 }
  have timely {f : AvFrame φ} (early : f.pts < 2 ^ 50) : first.InTime f :=
    Decoder.inTime_binary64 (d := first) v.rate v.base (.inl le_rfl) early
  exact passedOn_fresh v.demuxes (fun f member => timely (v.short.1 f member))
    fun _ _ found f member => timely (v.short.2 _ _ found f member)

theorem mem_frames {v : Video φ} {f : OcrSuite.Frame φ} (member : f ∈ v.frames) :
    ∃ g ∈ delivered v.packets, v.decoder.wanted g = true ∧ 1 ≤ v.decoder.frameNumber g ∧
      f = ⟨v.decoder.frameNumber g,g.image⟩ := by
  obtain ⟨call,inside,rfl⟩ := List.mem_map.mp member
  obtain ⟨passed,positive⟩ := List.mem_filter.mp inside
  obtain ⟨g,here,rfl⟩ := List.mem_map.mp passed
  obtain ⟨there,wanted⟩ := List.mem_filter.mp here
  exact ⟨g,there,wanted,of_decide_eq_true positive,rfl⟩

theorem frames_distinct (v : Video φ) : (v.frames.map OcrSuite.Frame.frameNumber).Nodup := by
  have kept : (v.frames.map OcrSuite.Frame.frameNumber).Sublist
      ((((delivered v.packets).filter v.decoder.wanted).map fun f => (f,v.decoder.frameNumber f)).map
        Prod.snd) := by
    rw [frames,List.map_map]
    exact List.filter_sublist.map _
  refine kept.nodup ?_
  rw [List.map_map]
  exact v.distinct

theorem words_fit {provider : Recogniser.Provider F φ} {v : Video φ} {w : Word F}
    (member : w ∈ v.words provider) : FitsInt w.frameNumber := by
  obtain ⟨f,inside,here⟩ := List.mem_flatMap.mp member
  obtain ⟨g,there,_,_,rfl⟩ := mem_frames inside
  rw [recognised_frameNumber here]
  exact v.fits g there

/-- The words of the video, in the order in which the consumers stored them. -/
theorem Processed.refines {driver : Driver F R} {provider : Recogniser.Provider F φ} {v : Video φ}
    {db : Store R} (processed : v.Processed driver provider db) :
    ∃ words : List (Word F), db.toTextTables.Refines (words.map (Word.row driver)) ∧
      words.Perm (v.words provider) := by
  obtain ⟨threads,memory,s,reached,finished,rfl⟩ := processed
  rw [passedOn_eq] at reached
  have empty : (Store.fresh : Store R).toTextTables.Refines (([] : List (Word F)).map (Word.row driver)) :=
    TextTables.empty_refines
  obtain ⟨words,refined,_,same⟩ := finished_words empty v.frames_distinct reached finished
  have all : unprocessed (Store.fresh : Store R) v.frames = v.frames :=
    List.filter_eq_self.mpr fun _ _ => rfl
  rw [all,List.nil_append] at same
  exact ⟨words,refined,same⟩

end Video

/-! ## The search -/

/-- Files for the threads of a search, each with the database of its processed video. -/
structure Archive (driver : Driver F R) (provider : Recogniser.Provider F φ) (n : Nat) where
  files : Fin n → List DatabaseFile
  recordings : Recordings
  video : String → Video φ
  database : DatabaseFile → Store R
  processed : ∀ i, ∀ f ∈ files i, (video f.videoPath).Processed driver provider (database f)

namespace Archive

variable {driver : Driver F R} {provider : Recogniser.Provider F φ} {n : Nat}

/-- Every file can be opened and searched. -/
def collection (a : Archive driver provider n) : Collection n F :=
  ⟨a.files,a.recordings,fun f text _ => (a.database f).findText driver text⟩

/-- The words with the text in one of the videos. -/
def matching (a : Archive driver provider n) (text : String) (f : DatabaseFile) : List (Word F) :=
  ((a.video f.videoPath).words provider).filter fun w => driver.like text w.entry.text

/-- The words with the text in all of them. -/
def sought (a : Archive driver provider n) (text : String) : List (String × Word F) :=
  (List.finRange n).flatMap fun i => (a.files i).flatMap fun f => (a.matching text f).map (f.videoPath,·)

theorem row_word (driver : Driver F R) (r : Recordings) (path : String) {w : Word F}
    (fits : FitsInt w.frameNumber) : (r.row path (.read driver (w.row driver))).word = w := by
  have number : (driver.getInt (some w.frameNumber)).toInt = w.frameNumber := by
    rw [driver.getInt_eq fits,fits.kept]
  simp [Row.word,Recordings.row,SearchEntry.read,Word.row,number,driver.int_kept,driver.float_kept]

/-- A file's rows are its matching words. -/
theorem hits_of_file (a : Archive driver provider n) {i : Fin n} {f : DatabaseFile} (member : f ∈ a.files i)
    (text : String) :
    ((a.recordings.store ⟨f.videoPath,a.collection.find f text []⟩).map
      fun row => (row.videoFile,row.word)).Perm ((a.matching text f).map (f.videoPath,·)) := by
  obtain ⟨words,refines,same⟩ := (a.processed i f member).refines
  have found : a.collection.find f text [] =
      (words.filter fun w => driver.like text w.entry.text).map fun w => .read driver (w.row driver) := by
    change (a.database f).findText driver text = _
    rw [refines.findText,List.filter_map,List.map_map]
    rfl
  have rows : (a.recordings.store ⟨f.videoPath,a.collection.find f text []⟩).map
      (fun row => (row.videoFile,row.word)) =
        (words.filter fun w => driver.like text w.entry.text).map (f.videoPath,·) := by
    rw [found,Recordings.store,List.map_map,List.map_map]
    apply List.map_congr_left
    intro w inside
    have fits := Video.words_fit (same.mem_iff.mp (List.mem_filter.mp inside).1)
    simp only [Function.comp_apply,row_word driver a.recordings f.videoPath fits]
    rfl
  rw [rows]
  exact (same.filter _).map _

/-- The table of a finished search has the sought words. -/
theorem table_sought (a : Archive driver provider n) (countable : Search.Countable a.collection)
    {actions : List (Search.Action n)} {s : Search n F}
    (ran : run (Search.step a.collection) Search.start actions = some s) (searching : 0 < s.search)
    (uncleared : ∀ text, s.ui ≠ .clearing text) (finished : s.isFinished = true) :
    ((s.results.map Prod.snd).map fun row => (row.videoFile,row.word)).Perm
      (a.sought (Search.latest actions)) := by
  obtain ⟨reported,parts,rows⟩ :=
    Search.results_perm (fun _ _ _ => rfl) countable ran searching uncleared
  have valid := Search.reachable_invariant countable (reachable_of_run ran)
  have done := (valid.exact countable).finished.mp finished
  have all (i : Fin n) : reported i = a.files i := by
    have := parts i
    rw [done,List.append_nil] at this
    exact this.symm
  refine (rows.map _).trans ?_
  simp only [all,sought,Collection.hits,List.map_flatMap]
  refine List.Perm.flatMap_left _ fun i _ => List.Perm.flatMap_left _ fun f member => ?_
  exact a.hits_of_file member _

end Archive

/-! ## An archive of one video -/

/-- A video of one frame, with the number 1. -/
def oneFrame : Video Unit where
  decoder := ⟨7,0,avQ2d 25 1,avQ2d 1 1000⟩
  packets := [⟨[⟨40,.i,()⟩],false⟩]
  seek := fun _ => none
  rate := by decide +kernel
  base := by decide +kernel
  demuxes := by rintro _ _ _ ⟨⟩
  short := ⟨by decide,by rintro _ _ ⟨⟩⟩
  distinct := by decide +kernel
  fits := by decide +kernel

theorem oneFrame_frames : oneFrame.frames = [⟨1,()⟩] := by decide +kernel

def oneWord : Recogniser.Provider Int Unit := fun _ => some [⟨0,0,9,9,90,"abc"⟩]

theorem oneFrame_processed : ∃ db, oneFrame.Processed Driver.exact oneWord db := by
  obtain ⟨m,ran,producer,consumer⟩ : ∃ m : State (Fin 1) Int Int Unit,
      run (step Driver.exact oneWord) (main .fresh 1 (fun _ => ⟨0,()⟩) [⟨1,()⟩])
        [.queue .getProducerValue,.queue .write,.queue .addConsumerValue,.queue (.getConsumerValue 0),
          .queue (.read 0),.doOcr 0,.storeLastFrameNumber 0,.storeEntries 0,
          .queue (.addProducerValue 0),.queue .shutdown,.queue .shutdown,.queue .getProducerValue,
          .queue (.getConsumerValue 0)] = some m ∧
      m.queue.producer = .done ∧ m.queue.consumer 0 = .done := ⟨_,rfl,rfl,rfl⟩
  refine ⟨_,1,fun _ => ⟨0,()⟩,m,?_,⟨producer,fun i => Fin.fin_one_eq_zero i ▸ consumer⟩,rfl⟩
  rw [Video.passedOn_eq,oneFrame_frames]
  exact reachable_of_run ran

theorem exists_selected (table : List (Row F)) : ∃ rows, Selected table rows := by
  let earlier : Row F → Row F → Bool := fun a b => a.timestamp ≤ b.timestamp
  have trans : ∀ a b c, earlier a b = true → earlier b c = true → earlier a c = true := by
    intro a b c first second
    simp only [earlier,decide_eq_true_eq] at *
    omega
  have total : ∀ a b, (earlier a b || earlier b a) = true := by
    intro a b
    simp only [earlier,Bool.or_eq_true,decide_eq_true_eq]
    omega
  exact ⟨table.mergeSort earlier,List.mergeSort_perm _ _,
    (List.pairwise_mergeSort trans total table).imp fun before => of_decide_eq_true before⟩

/-- A thread has searched the database of the video. -/
theorem exists_searched : ∃ (a : Archive Driver.exact oneWord 1) (actions : List (Search.Action 1))
    (s : Search 1 Int) (rows : List (Row Int)), (∀ path, a.video path = oneFrame) ∧
    Search.Countable a.collection ∧ run (Search.step a.collection) Search.start actions = some s ∧
    0 < s.search ∧ (∀ text, s.ui ≠ .clearing text) ∧ s.isFinished = true ∧
    Selected (s.results.map Prod.snd) rows ∧
    a.sought (Search.latest actions) = [("a.mp4",⟨1,⟨0,0,9,9,90,"abc"⟩⟩)] := by
  obtain ⟨db,processed⟩ := oneFrame_processed
  let a : Archive Driver.exact oneWord 1 :=
    ⟨fun _ => [⟨"a.db","a.mp4",100⟩],twoRecordings,fun _ => oneFrame,fun _ => db,fun _ _ _ => processed⟩
  have size : ∑ _i : Fin 1, sizes [⟨"a.db","a.mp4",100⟩] = 100 := by decide
  have total : a.collection.totalSize - 100 = 0 := by
    change UInt64.ofNat (∑ _i : Fin 1, sizes [⟨"a.db","a.mp4",100⟩]) - 100 = 0
    rw [size]
    rfl
  have countable : Search.Countable a.collection := by
    constructor
    · change ∑ _i : Fin 1, sizes [⟨"a.db","a.mp4",100⟩] < _
      rw [size]
      norm_num
    · rintro _ _ ⟨⟩
      decide
  obtain ⟨s,searched,ui,search,finished⟩ : ∃ s, run (Search.step a.collection) Search.start
      [.poll,.findText "abc",.clear,.setText,.setShouldStart,.finishFindText,.wake 0,.findInFile 0,
        .decrementRemainingSize 0] = some s ∧ s.ui = .drawn ∧ s.search = 1 ∧ s.isFinished = true :=
    ⟨_,rfl,rfl,rfl,decide_eq_true total⟩
  obtain ⟨rows,selected⟩ := exists_selected (s.results.map Prod.snd)
  refine ⟨a,_,s,rows,fun _ => rfl,countable,searched,by simp [search],by simp [ui],finished,selected,?_⟩
  have text : Search.latest ([.poll,.findText "abc",.clear,.setText,.setShouldStart,.finishFindText,.wake 0,
      .findInFile 0,.decrementRemainingSize 0] : List (Search.Action 1)) = "abc" := by decide
  rw [text]
  simp [Archive.sought,Archive.matching,Video.words,oneFrame_frames,a,recognised,Recogniser.doOcr,oneWord,
    OcrResult.words,Driver.exact,List.finRange_succ]

/-- A search that is finished, however its threads and those of the recogniser interleaved: the tree that
the rows are sorted into in the order of their times shows exactly the words with the text that the provider
recognised in the frames of the videos. Each is under its video if the rows of no node are of two. -/
theorem shown_iff_recognised {n : Nat} (driver : Driver F R) (provider : Recogniser.Provider F φ)
    (a : Archive driver provider n) (countable : Search.Countable a.collection)
    (actions : List (Search.Action n)) (s : Search n F)
    (ran : run (Search.step a.collection) Search.start actions = some s) (searching : 0 < s.search)
    (uncleared : ∀ text, s.ui ≠ .clearing text) (finished : s.isFinished = true) (generation : Nat)
    (rows : List (Row F)) (selected : Selected (s.results.map Prod.snd) rows) :
    ∃ t, ResultPass.sortResults a.recordings generation rows = some t ∧ t.Groups rows ∧
      t.words.Perm ((a.sought (Search.latest actions)).map Prod.snd) ∧
      (OneVideo a.recordings rows → t.attributed.Perm (a.sought (Search.latest actions))) := by
  have table := a.table_sought countable ran searching uncleared finished
  have sorted := (selected.1.map fun row => (row.videoFile,row.word)).trans table
  refine ⟨_,ResultPass.sortResults_eq a.recordings generation rows,Tree.ofRows_groups _ _ _,?_,fun one => ?_⟩
  · rw [ofRows_words]
    simpa [List.map_map,Function.comp_def] using sorted.map Prod.snd
  · rw [ofRows_attributed a.recordings generation one]
    exact sorted

theorem shown_iff_recognised_witness :
    ∃ (a : Archive Driver.exact oneWord 1) (s : Search 1 Int) (rows : List (Row Int)) (t : Tree Int),
      Selected (s.results.map Prod.snd) rows ∧ ResultPass.sortResults a.recordings 0 rows = some t ∧
      t.words = [⟨1,⟨0,0,9,9,90,"abc"⟩⟩] := by
  obtain ⟨a,actions,s,rows,_,countable,searched,searching,uncleared,finished,selected,sought⟩ := exists_searched
  obtain ⟨t,tree,_,words,_⟩ := shown_iff_recognised Driver.exact oneWord a countable actions s searched
    searching uncleared finished 0 rows selected
  rw [sought] at words
  exact ⟨a,s,rows,t,selected,tree,List.perm_singleton.mp words⟩

end OcrSuite.Viewer
