import Mathlib.Data.UInt
import OcrSuite.Search
import OcrSuite.Sequence

/-! A pass of a search thread over its files, any of which may fail to open, to be searched, or to
have its hits stored: `current_entries_` outlives a file that fails, and an exception while the hits
are stored leaves the thread. -/
namespace OcrSuite.Viewer

open Script Sequence

variable {F R : Type}

/-- How the attempt to search a file ends. `find_text` may throw with some rows read. -/
inductive Attempt (F R : Type) where
  | constructorThrows
  | findTextThrows (read : List (SearchEntry F))
  | searched (database : Store R)

/-- `results::store` throws as it opens the video, or at a command of its transaction. -/
inductive ResultsFault where
  | video
  | command (point : Nat)
  deriving DecidableEq

/-- A file of the thread with what happens to it in the pass. -/
structure Item (F R : Type) where
  file : DatabaseFile
  attempt : Attempt F R
  fault : Option ResultsFault

namespace Attempt

/-- What is in the vector after a database was opened. -/
def opened (driver : Driver F R) (text : String) : Attempt F R → Option (List (SearchEntry F))
  | .constructorThrows => none
  | .findTextThrows read => some read
  | .searched database => some (database.findText driver text)

/-- `find_text` clears the vector, the constructor does not know of it. -/
def leave (driver : Driver F R) (text : String) (a : Attempt F R) (current : List (SearchEntry F)) :
    List (SearchEntry F) :=
  (a.opened driver text).getD current

/-- The hits in the file's own database. -/
def own (driver : Driver F R) (text : String) : Attempt F R → List (SearchEntry F)
  | .searched database => database.findText driver text
  | _ => []

end Attempt

namespace Pass

/-- What is passed to `decrement_remaining_size` for each of the files. -/
def reports (driver : Driver F R) (text : String) :
    List (SearchEntry F) → List (Item F R) → List (DatabaseFile × List (SearchEntry F))
  | _, [] => []
  | current, item :: rest =>
    let current := item.attempt.leave driver text current
    (item.file,current) :: reports driver text current rest

/-- What the last of the files that could be opened left in the vector, or the passes before. -/
def left (driver : Driver F R) (text : String) (current : List (SearchEntry F))
    (items : List (Item F R)) : List (SearchEntry F) :=
  (items.reverse.findSome? fun item => item.attempt.opened driver text).getD current

/-- Nothing of another file or of a part of this one is in the vector where a file fails. -/
def NothingStale (driver : Driver F R) (text : String) (current : List (SearchEntry F))
    (front : List (Item F R)) (item : Item F R) : Prop :=
  match item.attempt with
  | .constructorThrows => left driver text current front = []
  | .findTextThrows read => read = []
  | .searched _ => True

theorem left_cons (driver : Driver F R) (text : String) (current : List (SearchEntry F))
    (item : Item F R) (items : List (Item F R)) : left driver text current (item :: items) =
      left driver text (item.attempt.leave driver text current) items := by
  simp only [left,List.reverse_cons,List.findSome?_append]
  cases items.reverse.findSome? fun item => item.attempt.opened driver text with
  | none => simp [Attempt.leave]
  | some entries => simp

theorem nothingStale_cons (driver : Driver F R) (text : String) (current : List (SearchEntry F))
    (item : Item F R) : NothingStale driver text current [] item ↔
      item.attempt.leave driver text current = item.attempt.own driver text := by
  unfold NothingStale
  cases item.attempt with
  | constructorThrows => simp [left,Attempt.leave,Attempt.opened,Attempt.own]
  | findTextThrows read => simp [Attempt.leave,Attempt.opened,Attempt.own]
  | searched database => simp [Attempt.leave,Attempt.opened,Attempt.own]

/-- The hit in the first file is reported for the second one, which could not be opened. -/
theorem hits_of_other_file : ¬ ∀ (text : String) (current : List (SearchEntry Int))
    (items : List (Item Int Int)), reports Driver.exact text current items =
      items.map fun item => (item.file,item.attempt.own Driver.exact text) := by
  intro claim
  let database := (Process.start .fresh).storeResult Driver.exact ⟨5,[⟨1,2,3,4,90,"abc"⟩]⟩
  have same := claim "abc" [] [⟨⟨"a.db","a.mp4",100⟩,.searched database.store,none⟩,
    ⟨⟨"b.db","b.mp4",100⟩,.constructorThrows,none⟩]
  exact absurd same (by decide)

/-- Every file is reported with its own hits, none if it failed, exactly if nothing stale is in the
vector where a file fails. -/
theorem reports_own_iff (driver : Driver F R) (text : String) (current : List (SearchEntry F))
    (items : List (Item F R)) :
    (reports driver text current items =
      items.map fun item => (item.file,item.attempt.own driver text)) ↔
      EveryPlace (NothingStale driver text current) items := by
  induction items generalizing current with
  | nil => simp [reports]
  | cons item rest ih =>
    have later : (fun front => NothingStale driver text current (item :: front)) =
        NothingStale driver text (item.attempt.leave driver text current) := by
      funext front other
      simp only [NothingStale,left_cons]
    rw [everyPlace_cons,nothingStale_cons,later,← ih]
    simp [reports]

end Pass

/-! ## Reporting the files -/

/-- The rows of the file are inserted in one transaction; the flag says whether the call returned. -/
def Recordings.tryStore (r : Recordings) (result : FileEntries F) (fault : Option ResultsFault)
    (table : List (Row F)) : List (Row F) × Bool :=
  let script := transaction ((r.store result).map fun row table => some (table ++ [row]))
  match fault with
  | some .video => (table,false)
  | some (.command point) => attempt (some point) script table
  | none => attempt none script table

/-- The transaction has a command for each entry, its begin and its commit. -/
def storeThrows (entries : List (SearchEntry F)) : Option ResultsFault → Bool
  | some .video => true
  | some (.command point) => point < entries.length + 2
  | none => false

theorem Recordings.tryStore_eq (r : Recordings) (result : FileEntries F) (fault : Option ResultsFault)
    (table : List (Row F)) : r.tryStore result fault table =
      if storeThrows result.entries fault then (table,false) else (table ++ r.store result,true) := by
  have applied (rows table : List (Row F)) :
      applyAll (rows.map fun row table => some (table ++ [row])) table = some (table ++ rows) := by
    induction rows generalizing table with
    | nil => simp [applyAll]
    | cons row rows ih => simp [applyAll,ih]
  have atomic (fault : Option Nat) := attempt_transaction (applied (r.store result) table) fault
  have length : (r.store result).length = result.entries.length := List.length_map _
  cases fault with
  | none => simp [tryStore,storeThrows,atomic]
  | some fault =>
    cases fault with
    | video => simp [tryStore,storeThrows]
    | command point =>
      by_cases early : point < result.entries.length + 2
      · simp [tryStore,storeThrows,atomic,length,early,Nat.not_le.mpr early]
      · simp [tryStore,storeThrows,atomic,length,early,Nat.not_lt.mp early]

/-- What a thread has of the search's members in a pass, and the files it has searched. -/
structure Pass (F : Type) where
  remainingSize : UInt64
  results : List (Row F)
  currentEntries : List (SearchEntry F)
  searched : List DatabaseFile

namespace Pass

/-- An exception of `results::store` leaves the counter as it is. -/
def decrementRemainingSize (r : Recordings) (s : Pass F) (file : DatabaseFile)
    (fault : Option ResultsFault) : Pass F × Bool :=
  let (table,stored) :=
    if s.currentEntries.isEmpty then (s.results,true)
    else r.tryStore ⟨file.videoPath,s.currentEntries⟩ fault s.results
  if stored then ({ s with results := table, remainingSize := s.remainingSize - file.size },true)
  else ({ s with results := table },false)

/-- `work_once`; the flag says whether it returned. An exception leaves the thread function too. -/
def workOnce (driver : Driver F R) (r : Recordings) (text : String) :
    Pass F → List (Item F R) → Pass F × Bool
  | s, [] => (s,true)
  | s, item :: rest =>
    let s := { s with
      currentEntries := item.attempt.leave driver text s.currentEntries
      searched := s.searched ++ [item.file] }
    let (s,returned) := s.decrementRemainingSize r item.file item.fault
    if returned then workOnce driver r text s rest else (s,false)

/-- The rows of a report, none if they could not be stored. -/
def rowsOf (r : Recordings) (item : Item F R) (entries : List (SearchEntry F)) : List (Row F) :=
  if storeThrows entries item.fault then [] else r.store ⟨item.file.videoPath,entries⟩

/-- The pass has come to its end: all files are searched and counted, and the rows are there of all
those, and no others, whose hits could be stored. -/
structure Survives (driver : Driver F R) (r : Recordings) (text : String) (s : Pass F)
    (items : List (Item F R)) : Prop where
  returned : (workOnce driver r text s items).2 = true
  searched : (workOnce driver r text s items).1.searched = s.searched ++ items.map Item.file
  remaining : (workOnce driver r text s items).1.remainingSize =
    s.remainingSize - (items.map fun item => item.file.size).sum
  results : (workOnce driver r text s items).1.results = s.results ++
    (List.zipWith (fun item report => rowsOf r item report.2) items
      (reports driver text s.currentEntries items)).flatten

/-- The hits that are reported for the file, if there are any, can be stored. -/
def Storable (driver : Driver F R) (text : String) (current : List (SearchEntry F))
    (front : List (Item F R)) (item : Item F R) : Prop :=
  left driver text current (front ++ [item]) = [] ∨
    storeThrows (left driver text current (front ++ [item])) item.fault = false

/-- The state in which a file is reported. -/
def searching (driver : Driver F R) (text : String) (s : Pass F) (item : Item F R) : Pass F :=
  { s with
    currentEntries := item.attempt.leave driver text s.currentEntries
    searched := s.searched ++ [item.file] }

def stored (driver : Driver F R) (r : Recordings) (text : String) (s : Pass F) (item : Item F R) :
    Pass F :=
  { searching driver text s item with
    results := s.results ++ rowsOf r item (item.attempt.leave driver text s.currentEntries)
    remainingSize := s.remainingSize - item.file.size }

/-- A file either ends the pass with an exception or is stored and counted. -/
theorem workOnce_cons (driver : Driver F R) (r : Recordings) (text : String) (s : Pass F)
    (item : Item F R) (rest : List (Item F R)) :
    (Storable driver text s.currentEntries [] item ∧ workOnce driver r text s (item :: rest) =
      workOnce driver r text (stored driver r text s item) rest) ∨
    (¬ Storable driver text s.currentEntries [] item ∧
      (workOnce driver r text s (item :: rest)).2 = false) := by
  have here : left driver text s.currentEntries ([] ++ [item]) =
      item.attempt.leave driver text s.currentEntries := by simp [left,Attempt.leave]
  simp only [Storable,here,workOnce,decrementRemainingSize,Recordings.tryStore_eq]
  by_cases nothing : item.attempt.leave driver text s.currentEntries = []
  · refine .inl ⟨.inl nothing,?_⟩
    simp [nothing,stored,searching,rowsOf,Recordings.store]
  · by_cases throws : storeThrows (item.attempt.leave driver text s.currentEntries) item.fault = true
    · exact .inr (by simp [nothing,throws])
    · exact .inl (by simp [nothing,throws,stored,searching,rowsOf])

theorem survives_cons (driver : Driver F R) (r : Recordings) (text : String) (s : Pass F)
    (item : Item F R) (rest : List (Item F R)) (same : workOnce driver r text s (item :: rest) =
      workOnce driver r text (stored driver r text s item) rest) :
    Survives driver r text s (item :: rest) ↔ Survives driver r text (stored driver r text s item) rest := by
  have files : s.searched ++ (item :: rest).map Item.file =
      (stored driver r text s item).searched ++ rest.map Item.file := by
    simp [stored,searching]
  have sizes : s.remainingSize - ((item :: rest).map fun item => item.file.size).sum =
      (stored driver r text s item).remainingSize - (rest.map fun item => item.file.size).sum := by
    simp only [List.map_cons,List.sum_cons,stored]
    grind
  have rows : s.results ++ (List.zipWith (fun item report => rowsOf r item report.2) (item :: rest)
      (reports driver text s.currentEntries (item :: rest))).flatten =
        (stored driver r text s item).results ++
          (List.zipWith (fun item report => rowsOf r item report.2) rest
            (reports driver text (stored driver r text s item).currentEntries rest)).flatten := by
    simp [stored,searching,reports]
  constructor
  · rintro ⟨returned,searched,remaining,results⟩
    rw [same] at returned searched remaining results
    exact ⟨returned,searched.trans files,remaining.trans sizes,results.trans rows⟩
  · rintro ⟨returned,searched,remaining,results⟩
    rw [← same] at returned searched remaining results
    exact ⟨returned,searched.trans files.symm,remaining.trans sizes.symm,results.trans rows.symm⟩

/-- The video of the first of two files with hits is missing, and the second is never searched. -/
theorem missing_video_ends_search : ¬ ∀ (text : String) (s : Pass Int) (items : List (Item Int Int)),
    Survives Driver.exact ⟨fun _ => 0,fun _ n => n * 40,fun _ => ""⟩ text s items := by
  intro claim
  let database := (Process.start .fresh).storeResult Driver.exact ⟨5,[⟨1,2,3,4,90,"abc"⟩]⟩
  have searched := (claim "abc" ⟨200,[],[],[]⟩ [⟨⟨"a.db","a.mp4",100⟩,.searched database.store,some .video⟩,
    ⟨⟨"b.db","b.mp4",100⟩,.searched database.store,none⟩]).searched
  exact absurd searched (by decide)

/-- A pass comes to its end with all rows that can be stored exactly if no file with hits to report
is one whose hits cannot be stored. -/
theorem survives_iff_storable (driver : Driver F R) (r : Recordings) (text : String) (s : Pass F)
    (items : List (Item F R)) :
    Survives driver r text s items ↔ EveryPlace (Storable driver text s.currentEntries) items := by
  induction items generalizing s with
  | nil =>
    refine iff_of_true ⟨rfl,?_,?_,?_⟩ everyPlace_nil <;> simp [workOnce]
  | cons item rest ih =>
    have later : (fun front => Storable driver text s.currentEntries (item :: front)) =
        Storable driver text (stored driver r text s item).currentEntries := by
      funext front other
      simp only [Storable,List.cons_append,left_cons,stored,searching]
    rw [everyPlace_cons,later,← ih]
    rcases workOnce_cons driver r text s item rest with ⟨storable,same⟩ | ⟨throws,ended⟩
    · rw [survives_cons driver r text s item rest same]
      exact (and_iff_right storable).symm
    · refine iff_of_false (fun survives => ?_) fun both => throws both.1
      exact absurd survives.returned (by simp [ended])

/-! ## The pass as a part of the search -/

section Machine

open Transition

variable {n : Nat}

/-- What the thread sees of the search. -/
def ofSearch (s : Search n F) (i : Fin n) (searched : List DatabaseFile) : Pass F :=
  ⟨s.remainingSize,s.results.map Prod.snd,(s.worker i).currentEntries,searched⟩

/-- A file to which nothing happens while it is reported. -/
def unfaulted (attempt : DatabaseFile → Attempt F R) (f : DatabaseFile) : Item F R := ⟨f,attempt f,none⟩

/-- The two steps of a thread that search a file and report it. -/
theorem stored_of_steps (driver : Driver F R) (attempt : DatabaseFile → Attempt F R)
    {c : Collection n F} (finds : ∀ f text current, c.find f text current =
      (attempt f).leave driver text current) {s : Search n F} {i : Fin n} {f : DatabaseFile}
    {rest : List DatabaseFile} (pc : (s.worker i).pc = .looping (f :: rest))
    (searched : List DatabaseFile) :
    ∃ t, run (Search.step c) s [.findInFile i,.decrementRemainingSize i] = some t ∧
      (t.worker i).pc = .looping rest ∧ (t.worker i).searchText = (s.worker i).searchText ∧
      stored driver c.recordings (s.worker i).searchText (ofSearch s i searched) (unfaulted attempt f) =
        ofSearch t i (searched ++ [f]) := by
  let found := s.setWorker i { s.worker i with
    currentEntries := c.find f (s.worker i).searchText (s.worker i).currentEntries
    pc := .reporting f rest }
  have first : Search.step c s (.findInFile i) = some found := by simp [Search.step,pc,found]
  have reporting : (found.worker i).pc = .reporting f rest := by simp [found]
  obtain ⟨t,second,pc',text,entries,size,results⟩ : ∃ t,
      Search.step c found (.decrementRemainingSize i) = some t ∧
      (t.worker i).pc = .looping rest ∧
      (t.worker i).searchText = (s.worker i).searchText ∧
      (t.worker i).currentEntries = (found.worker i).currentEntries ∧
      t.remainingSize = s.remainingSize - f.size ∧
      t.results.map Prod.snd = s.results.map Prod.snd ++
        c.recordings.store ⟨f.videoPath,(found.worker i).currentEntries⟩ := by
    simp only [Search.step,reporting]
    refine ⟨_,rfl,by simp,by simp [found],by simp,rfl,?_⟩
    have empty (entries : List (SearchEntry F)) : (if entries = [] then []
        else c.recordings.store ⟨f.videoPath,entries⟩) = c.recordings.store ⟨f.videoPath,entries⟩ := by
      split
      case isTrue nothing => simp [nothing,Recordings.store]
      case isFalse => rfl
    simp [found,Search.setWorker,Function.comp_def,empty]
  have left : (found.worker i).currentEntries =
      (attempt f).leave driver (s.worker i).searchText (s.worker i).currentEntries := by
    simp [found,finds]
  refine ⟨t,by simp [run,first,second],pc',text,?_⟩
  simp [stored,searching,ofSearch,unfaulted,rowsOf,storeThrows,entries,size,results,left]

/-- The steps of a thread that goes through its files are the pass over them. -/
theorem workOnce_of_run (driver : Driver F R) (attempt : DatabaseFile → Attempt F R)
    {c : Collection n F} (finds : ∀ f text current, c.find f text current =
      (attempt f).leave driver text current) {s : Search n F} {i : Fin n} (files rest : List DatabaseFile)
    (pc : (s.worker i).pc = .looping (files ++ rest)) (searched : List DatabaseFile) :
    ∃ t, run (Search.step c) s (files.flatMap fun _ => [.findInFile i,.decrementRemainingSize i]) = some t ∧
      (t.worker i).pc = .looping rest ∧
      workOnce driver c.recordings (s.worker i).searchText (ofSearch s i searched)
        (files.map (unfaulted attempt)) = (ofSearch t i (searched ++ files),true) := by
  induction files generalizing s searched with
  | nil => exact ⟨s,rfl,by simpa using pc,by simp [workOnce]⟩
  | cons f files ih =>
    obtain ⟨t,ran,pc',text,same⟩ := stored_of_steps driver attempt finds pc searched
    obtain ⟨u,later,done,whole⟩ := ih pc' (searched ++ [f])
    refine ⟨u,?_,done,?_⟩
    · rw [List.flatMap_cons,run_append,ran]
      exact later
    · have next := workOnce_cons driver c.recordings (s.worker i).searchText (ofSearch s i searched)
        (unfaulted attempt f) (files.map (unfaulted attempt))
      rcases next with ⟨_,next⟩ | ⟨throws,_⟩
      · rw [List.map_cons,next,same,← text,whole]
        simp
      · exact absurd (.inr rfl) throws

end Machine

end Pass

end OcrSuite.Viewer
