import OcrSuite.Conservation
import OcrSuite.ResultTree
import OcrSuite.Transition

/-! The viewer's search: the UI thread starts one for all worker threads, each of these searches
its own database files one after the other, and a counter of bytes tells whether all is done. -/
namespace OcrSuite.Viewer

open Transition

variable {n : Nat} {F : Type}

structure DatabaseFile where
  databasePath : String
  videoPath : String
  size : UInt64
  deriving DecidableEq

def sizes (files : List DatabaseFile) : Nat := (files.map fun f => f.size.toNat).sum

/-- Where a thread is in `work_once`, with the files that come after. -/
inductive WorkerPc where
  | waiting
  | looping (rest : List DatabaseFile)
  | reporting (file : DatabaseFile) (rest : List DatabaseFile)

/-- `flagged` is the search that `should_start_` was last set for, `pass` the one that the thread
took up last. -/
structure Worker (F : Type) where
  searchText : String
  shouldStart : Bool
  currentEntries : List (SearchEntry F)
  pc : WorkerPc
  flagged : Nat
  pass : Nat

/-- Where the UI thread is in `search_view::draw`: it fires the callback only if it found the
search finished, and `find_text` then goes through the threads. -/
inductive UiPc (n : Nat) where
  | polling
  | enabled
  | clearing (text : String)
  | running (text : String) (rest : List (Fin n))
  | flagging (text : String) (i : Fin n) (rest : List (Fin n))
  | drawn

/-- Searches are numbered. `results` has each row with the search it was found by, `unreported`
the files that are not yet reported for the current search. -/
structure Search (n : Nat) (F : Type) where
  remainingSize : UInt64
  results : List (Nat × Row F)
  worker : Fin n → Worker F
  ui : UiPc n
  search : Nat
  unreported : Fin n → List DatabaseFile

/-- The files that were collected for each thread. `find` says what an attempt to search a file
leaves in `current_entries_`, whether it succeeds or throws. -/
structure Collection (n : Nat) (F : Type) where
  files : Fin n → List DatabaseFile
  recordings : Recordings
  find : DatabaseFile → String → List (SearchEntry F) → List (SearchEntry F)

/-- `total_size_`, which wraps around. -/
def Collection.totalSize (c : Collection n F) : UInt64 := .ofNat (∑ i, sizes (c.files i))

namespace Search

inductive Action (n : Nat) where
  | poll
  | leave
  | findText (text : String)
  | clear
  | setText
  | setShouldStart
  | finishFindText
  | nextFrame
  | wake (i : Fin n)
  | findInFile (i : Fin n)
  | decrementRemainingSize (i : Fin n)
  | finishWork (i : Fin n)

def start : Search n F :=
  ⟨0,[],fun _ => ⟨"",false,[],.waiting,0,0⟩,.polling,0,fun _ => []⟩

def isFinished (s : Search n F) : Bool := s.remainingSize = 0

def setWorker (s : Search n F) (i : Fin n) (w : Worker F) : Search n F :=
  { s with worker := Function.update s.worker i w }

def minTextLength : Nat := 3

def step (c : Collection n F) (s : Search n F) : Action n → Option (Search n F)
  | .poll =>
    match s.ui with
    | .polling => some { s with ui := if s.isFinished then .enabled else .drawn }
    | _ => none
  | .leave =>
    match s.ui with
    | .enabled => some { s with ui := .drawn }
    | _ => none
  | .findText text =>
    match s.ui with
    | .enabled =>
      if text.utf8ByteSize < minTextLength then some { s with ui := .drawn }
      else some { s with
        remainingSize := c.totalSize
        ui := .clearing text
        search := s.search + 1
        unreported := c.files }
    | _ => none
  | .clear =>
    match s.ui with
    | .clearing text => some { s with results := [], ui := .running text (List.finRange n) }
    | _ => none
  | .setText =>
    match s.ui with
    | .running text (i :: rest) => some { s.setWorker i { s.worker i with searchText := text } with
        ui := .flagging text i rest }
    | _ => none
  | .setShouldStart =>
    match s.ui with
    | .flagging text i rest =>
      some { s.setWorker i { s.worker i with shouldStart := true, flagged := s.search } with
        ui := .running text rest }
    | _ => none
  | .finishFindText =>
    match s.ui with
    | .running _ [] => some { s with ui := .drawn }
    | _ => none
  | .nextFrame =>
    match s.ui with
    | .drawn => some { s with ui := .polling }
    | _ => none
  | .wake i =>
    match (s.worker i).pc,(s.worker i).shouldStart with
    | .waiting,true => some (s.setWorker i { s.worker i with
        shouldStart := false
        pc := .looping (c.files i)
        pass := (s.worker i).flagged })
    | _,_ => none
  | .findInFile i =>
    match (s.worker i).pc with
    | .looping (f :: rest) => some (s.setWorker i { s.worker i with
        currentEntries := c.find f (s.worker i).searchText (s.worker i).currentEntries
        pc := .reporting f rest })
    | _ => none
  | .decrementRemainingSize i =>
    match (s.worker i).pc with
    | .reporting f rest =>
      let w := s.worker i
      let rows := if w.currentEntries.isEmpty then []
        else c.recordings.store ⟨f.videoPath,w.currentEntries⟩
      some { s.setWorker i { w with pc := .looping rest } with
        results := s.results ++ rows.map fun row => (w.pass,row)
        remainingSize := s.remainingSize - f.size
        unreported := if w.pass = s.search then
          Function.update s.unreported i (s.unreported i).tail else s.unreported }
    | _ => none
  | .finishWork i =>
    match (s.worker i).pc with
    | .looping [] => some (s.setWorker i { s.worker i with pc := .waiting })
    | _ => none

/-- The counter is exact, the search is finished when all files are reported, and the table has
only rows of the current search once it was cleared for it. -/
structure Exact (s : Search n F) : Prop where
  remaining : s.remainingSize.toNat = ∑ i, sizes (s.unreported i)
  finished : s.isFinished = true ↔ ∀ i, s.unreported i = []
  current : (∀ text, s.ui ≠ .clearing text) → ∀ entry ∈ s.results, entry.1 = s.search

/-! ## The steps -/

inductive Stepped (c : Collection n F) (s : Search n F) : Action n → Search n F → Prop where
  | moved (a : Action n) (ui : UiPc n) :
      (a = .poll ∧ s.ui = .polling ∧ ui = (if s.isFinished then .enabled else .drawn)) ∨
      (s.ui = .enabled ∧ ui = .drawn) ∨ (∃ text, s.ui = .running text [] ∧ ui = .drawn) ∨
      (a = .nextFrame ∧ s.ui = .drawn ∧ ui = .polling) → Stepped c s a { s with ui := ui }
  | started (text : String) : s.ui = .enabled → minTextLength ≤ text.utf8ByteSize →
      Stepped c s (.findText text) { s with
        remainingSize := c.totalSize, ui := .clearing text, search := s.search + 1
        unreported := c.files }
  | cleared (text : String) : s.ui = .clearing text →
      Stepped c s .clear { s with results := [], ui := .running text (List.finRange n) }
  | texted (text : String) (i : Fin n) (rest : List (Fin n)) : s.ui = .running text (i :: rest) →
      Stepped c s .setText { s.setWorker i { s.worker i with searchText := text } with
        ui := .flagging text i rest }
  | flagged (text : String) (i : Fin n) (rest : List (Fin n)) : s.ui = .flagging text i rest →
      Stepped c s .setShouldStart
        { s.setWorker i { s.worker i with shouldStart := true, flagged := s.search } with
          ui := .running text rest }
  | woken (i : Fin n) : (s.worker i).pc = .waiting → (s.worker i).shouldStart = true →
      Stepped c s (.wake i) (s.setWorker i { s.worker i with
        shouldStart := false, pc := .looping (c.files i), pass := (s.worker i).flagged })
  | found (i : Fin n) (f : DatabaseFile) (rest : List DatabaseFile) :
      (s.worker i).pc = .looping (f :: rest) → Stepped c s (.findInFile i) (s.setWorker i
        { s.worker i with
          currentEntries := c.find f (s.worker i).searchText (s.worker i).currentEntries
          pc := .reporting f rest })
  | reported (i : Fin n) (f : DatabaseFile) (rest : List DatabaseFile) (rows : List (Row F)) :
      (s.worker i).pc = .reporting f rest → Stepped c s (.decrementRemainingSize i)
        { s.setWorker i { s.worker i with pc := .looping rest } with
          results := s.results ++ rows.map fun row => ((s.worker i).pass,row)
          remainingSize := s.remainingSize - f.size
          unreported := if (s.worker i).pass = s.search then
            Function.update s.unreported i (s.unreported i).tail else s.unreported }
  | ended (i : Fin n) : (s.worker i).pc = .looping [] →
      Stepped c s (.finishWork i) (s.setWorker i { s.worker i with pc := .waiting })

theorem step_stepped {c : Collection n F} {s t : Search n F} {a : Action n}
    (taken : step c s a = some t) : Stepped c s a t := by
  cases a with
  | poll =>
    cases pc : s.ui with
    | polling =>
      simp only [step,pc,Option.some.injEq] at taken
      subst t
      exact .moved _ _ (.inl ⟨rfl,pc,rfl⟩)
    | _ => simp [step,pc] at taken
  | leave =>
    cases pc : s.ui with
    | enabled =>
      simp only [step,pc,Option.some.injEq] at taken
      subst t
      exact .moved _ _ (.inr (.inl ⟨pc,rfl⟩))
    | _ => simp [step,pc] at taken
  | findText text =>
    cases pc : s.ui with
    | enabled =>
      by_cases short : text.utf8ByteSize < minTextLength
      · simp only [step,pc,short,if_true,Option.some.injEq] at taken
        subst t
        exact .moved _ _ (.inr (.inl ⟨pc,rfl⟩))
      · simp only [step,pc,short,if_false,Option.some.injEq] at taken
        subst t
        exact .started text pc (Nat.not_lt.mp short)
    | _ => simp [step,pc] at taken
  | clear =>
    cases pc : s.ui with
    | clearing text =>
      simp only [step,pc,Option.some.injEq] at taken
      subst t
      exact .cleared text pc
    | _ => simp [step,pc] at taken
  | setText =>
    cases pc : s.ui with
    | running text queue =>
      cases queue with
      | nil => simp [step,pc] at taken
      | cons i rest =>
        simp only [step,pc,Option.some.injEq] at taken
        subst t
        exact .texted text i rest pc
    | _ => simp [step,pc] at taken
  | setShouldStart =>
    cases pc : s.ui with
    | flagging text i rest =>
      simp only [step,pc,Option.some.injEq] at taken
      subst t
      exact .flagged text i rest pc
    | _ => simp [step,pc] at taken
  | finishFindText =>
    cases pc : s.ui with
    | running text queue =>
      cases queue with
      | nil =>
        simp only [step,pc,Option.some.injEq] at taken
        subst t
        exact .moved _ _ (.inr (.inr (.inl ⟨text,pc,rfl⟩)))
      | cons => simp [step,pc] at taken
    | _ => simp [step,pc] at taken
  | nextFrame =>
    cases pc : s.ui with
    | drawn =>
      simp only [step,pc,Option.some.injEq] at taken
      subst t
      exact .moved _ _ (.inr (.inr (.inr ⟨rfl,pc,rfl⟩)))
    | _ => simp [step,pc] at taken
  | wake i =>
    cases pc : (s.worker i).pc with
    | waiting =>
      cases flag : (s.worker i).shouldStart with
      | false => simp [step,pc,flag] at taken
      | true =>
        simp only [step,pc,flag,Option.some.injEq] at taken
        subst t
        exact .woken i pc flag
    | _ => simp [step,pc] at taken
  | findInFile i =>
    cases pc : (s.worker i).pc with
    | looping files =>
      cases files with
      | nil => simp [step,pc] at taken
      | cons f rest =>
        simp only [step,pc,Option.some.injEq] at taken
        subst t
        exact .found i f rest pc
    | _ => simp [step,pc] at taken
  | decrementRemainingSize i =>
    cases pc : (s.worker i).pc with
    | reporting f rest =>
      simp only [step,pc,Option.some.injEq] at taken
      subst t
      exact .reported i f rest _ pc
    | _ => simp [step,pc] at taken
  | finishWork i =>
    cases pc : (s.worker i).pc with
    | looping files =>
      cases files with
      | nil =>
        simp only [step,pc,Option.some.injEq] at taken
        subst t
        exact .ended i pc
      | cons => simp [step,pc] at taken
    | _ => simp [step,pc] at taken

/-! ## What the threads still have to do -/

/-- The files of the pass that are not reported. -/
def WorkerPc.rest : WorkerPc → List DatabaseFile
  | .waiting => []
  | .looping rest => rest
  | .reporting f rest => f :: rest

/-- The threads that `find_text` has not come to yet. -/
def toRun : UiPc n → List (Fin n)
  | .clearing _ => List.finRange n
  | .running _ rest => rest
  | .flagging _ i rest => i :: rest
  | _ => []

@[simp] theorem toRun_running (text : String) (rest : List (Fin n)) :
    toRun (.running text rest) = rest := rfl

@[simp] theorem toRun_flagging (text : String) (i : Fin n) (rest : List (Fin n)) :
    toRun (.flagging text i rest) = i :: rest := rfl

/-- A thread that is to start has its files before it, another one those that it has left. -/
structure Tracks (c : Collection n F) (s : Search n F) (i : Fin n) : Prop where
  before : i ∈ toRun s.ui ∨ (s.worker i).shouldStart = true →
    WorkerPc.rest (s.worker i).pc = [] ∧ s.unreported i = c.files i
  unflagged : i ∈ toRun s.ui → (s.worker i).shouldStart = true → c.files i = []
  flagged : (s.worker i).shouldStart = true → (s.worker i).flagged = s.search ∨ c.files i = []
  after : i ∉ toRun s.ui → (s.worker i).shouldStart = false →
    s.unreported i = WorkerPc.rest (s.worker i).pc
  pass : WorkerPc.rest (s.worker i).pc ≠ [] → (s.worker i).pass = s.search

structure Invariant (c : Collection n F) (s : Search n F) : Prop where
  remaining : s.remainingSize.toNat = ∑ i, sizes (s.unreported i)
  current : (∀ text, s.ui ≠ .clearing text) → ∀ entry ∈ s.results, entry.1 = s.search
  tracks : ∀ i, Tracks c s i
  suffix : ∀ i, s.unreported i <:+ c.files i
  distinct : (toRun s.ui).Nodup
  enabled : s.ui = .enabled → ∀ i, s.unreported i = []

/-- The sum of the sizes does not wrap around, and no thread's last file is empty. -/
def Countable (c : Collection n F) : Prop :=
  ∑ i, sizes (c.files i) < 2 ^ 64 ∧ ∀ i, ∀ f ∈ (c.files i).getLast?, f.size ≠ 0

theorem Tracks.congr {c : Collection n F} {s t : Search n F} {i : Fin n} (tracks : Tracks c s i)
    (run : i ∈ toRun t.ui ↔ i ∈ toRun s.ui)
    (rest : WorkerPc.rest (t.worker i).pc = WorkerPc.rest (s.worker i).pc)
    (flag : (t.worker i).shouldStart = (s.worker i).shouldStart)
    (flagged : (t.worker i).flagged = (s.worker i).flagged)
    (pass : (t.worker i).pass = (s.worker i).pass)
    (unreported : t.unreported i = s.unreported i) (search : t.search = s.search) : Tracks c t i := by
  obtain ⟨before,unflagged,wasFlagged,after,wasPass⟩ := tracks
  constructor <;> simp only [run,rest,flag,flagged,pass,unreported,search] <;> assumption

/-- A thread that has a file to report is at work for the current search. -/
theorem Tracks.reporting {c : Collection n F} {s : Search n F} {i : Fin n} (tracks : Tracks c s i)
    {f : DatabaseFile} {rest : List DatabaseFile} (pc : (s.worker i).pc = .reporting f rest) :
    i ∉ toRun s.ui ∧ (s.worker i).shouldStart = false ∧ s.unreported i = f :: rest ∧
      (s.worker i).pass = s.search := by
  have work : WorkerPc.rest (s.worker i).pc = f :: rest := by rw [pc]; rfl
  have outside : i ∉ toRun s.ui := fun inside => by simpa [work] using (tracks.before (.inl inside)).1
  have unflagged : (s.worker i).shouldStart = false := by
    by_contra flag
    simpa [work] using (tracks.before (.inr (by simpa using flag))).1
  exact ⟨outside,unflagged,(tracks.after outside unflagged).trans work,tracks.pass (by simp [work])⟩

@[simp] theorem setWorker_same (s : Search n F) (i : Fin n) (w : Worker F) :
    (s.setWorker i w).worker i = w := by
  simp [setWorker]

@[simp] theorem setWorker_unreported (s : Search n F) (i : Fin n) (w : Worker F) :
    (s.setWorker i w).unreported = s.unreported := rfl

@[simp] theorem setWorker_search (s : Search n F) (i : Fin n) (w : Worker F) :
    (s.setWorker i w).search = s.search := rfl

theorem setWorker_other (s : Search n F) {i k : Fin n} (other : k ≠ i) (w : Worker F) :
    (s.setWorker i w).worker k = s.worker k := by
  simp [setWorker,other]

/-- What one thread, or the UI thread for it, does leaves the other threads' work. -/
theorem tracks_setWorker {c : Collection n F} {s t : Search n F} {i : Fin n} {w : Worker F}
    (tracks : ∀ k, Tracks c s k) (worker : t.worker = (s.setWorker i w).worker)
    (run : ∀ k, k ≠ i → (k ∈ toRun t.ui ↔ k ∈ toRun s.ui))
    (unreported : ∀ k, k ≠ i → t.unreported k = s.unreported k) (search : t.search = s.search)
    (here : Tracks c t i) : ∀ k, Tracks c t k := by
  intro k
  by_cases same : k = i
  · exact same ▸ here
  · have other : t.worker k = s.worker k := by rw [worker,setWorker_other _ same]
    exact (tracks k).congr (run k same) (by rw [other]) (by rw [other]) (by rw [other])
      (by rw [other]) (unreported k same) search

theorem sizes_cons {f : DatabaseFile} {rest : List DatabaseFile} :
    sizes (f :: rest) = f.size.toNat + sizes rest := by
  simp [sizes]

theorem sum_report (unreported : Fin n → List DatabaseFile) {i : Fin n} {f : DatabaseFile}
    {rest : List DatabaseFile} (first : unreported i = f :: rest) :
    ∑ k, sizes (unreported k) =
      f.size.toNat + ∑ k, sizes (Function.update unreported i rest k) := by
  have moved := Conservation.sum_update (fun _ => sizes) unreported i rest
  rw [first,sizes_cons] at moved
  omega

theorem start_invariant (c : Collection n F) : Invariant c start where
  remaining := by simp [start,sizes]
  current := by simp [start]
  tracks i := by constructor <;> simp [start,toRun,WorkerPc.rest]
  suffix _ := List.nil_suffix
  distinct := List.nodup_nil
  enabled := by simp [start]

/-- A thread that reports a file takes its size off and adds its rows to those of the search. -/
theorem Invariant.report {c : Collection n F} {s : Search n F} (valid : Invariant c s) {i : Fin n}
    {f : DatabaseFile} {rest : List DatabaseFile} (pc : (s.worker i).pc = .reporting f rest)
    (rows : List (Row F)) : Invariant c { s.setWorker i { s.worker i with pc := .looping rest } with
      results := s.results ++ rows.map fun row => ((s.worker i).pass,row)
      remainingSize := s.remainingSize - f.size
      unreported := if (s.worker i).pass = s.search then
        Function.update s.unreported i (s.unreported i).tail else s.unreported } := by
  obtain ⟨remaining,current,tracks,suffix,distinct,enabled⟩ := valid
  obtain ⟨outside,unflagged,here,current_⟩ := (tracks i).reporting pc
  have less := sum_report s.unreported here
  simp only [current_,if_true,here,List.tail_cons]
  refine ⟨?_,?_,?_,?_,distinct,?_⟩
  · have fits : f.size ≤ s.remainingSize := by
      rw [UInt64.le_iff_toNat_le]
      omega
    rw [UInt64.toNat_sub_of_le _ _ fits]
    exact (Nat.sub_eq_of_eq_add' (remaining.trans less))
  · intro cleared entry member
    rcases List.mem_append.mp member with old | new
    · exact current cleared entry old
    · obtain ⟨row,_,rfl⟩ := List.mem_map.mp new
      rfl
  · refine tracks_setWorker tracks rfl (fun _ _ => Iff.rfl) (fun k other => by simp [other]) rfl ?_
    constructor
    · rintro (run | start)
      · exact absurd run outside
      · simp [unflagged] at start
    · exact fun run => absurd run outside
    · intro start
      simp [unflagged] at start
    · simp [WorkerPc.rest]
    · simp
  · intro k
    by_cases same : k = i
    · subst k
      simpa using (List.suffix_cons f rest).trans (here ▸ suffix i)
    · simpa [same] using suffix k
  · intro now
    simpa [here] using enabled now i

theorem step_invariant {c : Collection n F} {s t : Search n F} {a : Action n} (valid : Invariant c s)
    (total : ∑ i, sizes (c.files i) < 2 ^ 64)
    (ready : a = .poll → s.isFinished = true → ∀ i, s.unreported i = [])
    (taken : step c s a = some t) : Invariant c t := by
  have invariant := valid
  obtain ⟨remaining,current,tracks,suffix,distinct,enabled⟩ := valid
  cases step_stepped taken with
  | moved a ui moves =>
    have none : toRun s.ui = [] ∧ toRun ui = [] ∧ ∀ text, s.ui ≠ .clearing text := by
      rcases moves with ⟨_,pc,rfl⟩ | ⟨pc,rfl⟩ | ⟨text,pc,rfl⟩ | ⟨_,pc,rfl⟩
      · refine ⟨by simp [pc,toRun],?_,by simp [pc]⟩
        split <;> rfl
      · simp [pc,toRun]
      · simp [pc,toRun]
      · simp [pc,toRun]
    refine ⟨remaining,fun _ => current none.2.2,fun i => ?_,suffix,by simp [none.2.1],?_⟩
    · exact (tracks i).congr (by simp [none.1,none.2.1]) rfl rfl rfl rfl rfl rfl
    · intro now
      rcases moves with ⟨polled,pc,rfl⟩ | ⟨pc,rfl⟩ | ⟨text,pc,rfl⟩ | ⟨_,pc,rfl⟩
      · apply ready polled
        by_contra unfinished
        simp [unfinished] at now
      · cases now
      · cases now
      · cases now
  | started text pc long =>
    have done := enabled pc
    have none : toRun s.ui = [] := by simp [pc,toRun]
    refine ⟨?_,fun other => absurd rfl (other text),fun i => ?_,fun i => List.suffix_rfl,
      List.nodup_finRange n,by simp⟩
    · simp [Collection.totalSize,UInt64.toNat_ofNat_of_lt' total]
    · obtain ⟨before,_,_,after,pass⟩ := tracks i
      have empty : WorkerPc.rest (s.worker i).pc = [] := by
        cases flag : (s.worker i).shouldStart with
        | true => exact (before (.inr flag)).1
        | false => rw [← after (by simp [none]) flag,done i]
      have noFiles : (s.worker i).shouldStart = true → c.files i = [] := fun flag => by
        rw [← (before (.inr flag)).2,done i]
      exact ⟨fun _ => ⟨empty,rfl⟩,fun _ => noFiles,fun flag => .inr (noFiles flag),
        fun outside => absurd (List.mem_finRange i) outside,fun work => absurd empty work⟩
  | cleared text pc =>
    have all : toRun s.ui = List.finRange n := by simp [pc,toRun]
    refine ⟨remaining,by simp,fun i => ?_,suffix,List.nodup_finRange n,by simp⟩
    exact (tracks i).congr (by rw [all,toRun_running]) rfl rfl rfl rfl rfl rfl
  | texted text i rest pc =>
    have all : toRun s.ui = i :: rest := by simp [pc]
    refine ⟨remaining,fun _ => current (by simp [pc]),?_,suffix,by simpa [all] using distinct,by simp⟩
    refine tracks_setWorker tracks rfl (fun k _ => by simp [all]) (fun _ _ => rfl) rfl ?_
    exact (tracks i).congr (by simp [all]) (by simp) (by simp) (by simp) (by simp) rfl rfl
  | flagged text i rest pc =>
    have all : toRun s.ui = i :: rest := by simp [pc]
    obtain ⟨apart,later⟩ := List.nodup_cons.mp (all ▸ distinct)
    refine ⟨remaining,fun _ => current (by simp [pc]),?_,suffix,later,by simp⟩
    refine tracks_setWorker tracks rfl (fun k other => by simp [all,other]) (fun _ _ => rfl) rfl ?_
    obtain ⟨empty,whole⟩ := (tracks i).before (.inl (by simp [all]))
    constructor
    · exact fun _ => ⟨by simpa using empty,whole⟩
    · exact fun inside => absurd inside apart
    · simp
    · simp
    · simp [empty]
  | woken i pc flag =>
    obtain ⟨empty,whole⟩ := (tracks i).before (.inr flag)
    refine ⟨remaining,current,?_,suffix,distinct,enabled⟩
    refine tracks_setWorker tracks rfl (fun _ _ => Iff.rfl) (fun _ _ => rfl) rfl ?_
    constructor
    · rintro (run | start)
      · exact ⟨by simpa [WorkerPc.rest] using (tracks i).unflagged run flag,whole⟩
      · simp at start
    · simp
    · simp
    · simp [WorkerPc.rest,whole]
    · intro work
      simp only [setWorker_same,WorkerPc.rest] at work ⊢
      exact ((tracks i).flagged flag).resolve_right work
  | found i f rest pc =>
    refine ⟨remaining,current,?_,suffix,distinct,enabled⟩
    refine tracks_setWorker tracks rfl (fun _ _ => Iff.rfl) (fun _ _ => rfl) rfl ?_
    exact (tracks i).congr Iff.rfl (by simp [pc,WorkerPc.rest]) (by simp) (by simp) (by simp) rfl rfl
  | reported i f rest rows pc => exact invariant.report pc rows
  | ended i pc =>
    refine ⟨remaining,current,?_,suffix,distinct,enabled⟩
    refine tracks_setWorker tracks rfl (fun _ _ => Iff.rfl) (fun _ _ => rfl) rfl ?_
    exact (tracks i).congr Iff.rfl (by simp [pc,WorkerPc.rest]) (by simp) (by simp) (by simp) rfl rfl

/-! ## When nothing is left to report -/

/-- The rows that the current search has found. -/
def found (s : Search n F) : List (Row F) :=
  (s.results.filter fun entry => entry.1 = s.search).map Prod.snd

theorem found_of_current {s : Search n F} (current : ∀ entry ∈ s.results, entry.1 = s.search) :
    s.found = s.results.map Prod.snd := by
  rw [found,List.filter_eq_self.mpr fun entry member => decide_eq_true (current entry member)]

theorem step_search {c : Collection n F} {s t : Search n F} {a : Action n}
    (taken : step c s a = some t) : s.search ≤ t.search := by
  cases step_stepped taken <;> simp [setWorker]

/-- A search with all files reported does nothing until the next one is started. -/
theorem step_reported {c : Collection n F} {s t : Search n F} {a : Action n}
    (valid : Invariant c s) (reported : ∀ i, s.unreported i = [])
    (cleared : ∀ text, s.ui ≠ .clearing text) (taken : step c s a = some t) :
    s.search < t.search ∨ (t.search = s.search ∧ t.results = s.results ∧ t.unreported = s.unreported ∧
      ∀ text, t.ui ≠ .clearing text) := by
  cases step_stepped taken with
  | moved a ui moves =>
    refine .inr ⟨rfl,rfl,rfl,fun text => ?_⟩
    rcases moves with ⟨_,_,rfl⟩ | ⟨_,rfl⟩ | ⟨_,_,rfl⟩ | ⟨_,_,rfl⟩
    · dsimp only
      split <;> simp
    all_goals simp
  | started text pc long => exact .inl (Nat.lt_succ_self _)
  | cleared text pc => exact absurd pc (cleared text)
  | texted text i rest pc => exact .inr ⟨rfl,rfl,rfl,by simp⟩
  | flagged text i rest pc => exact .inr ⟨rfl,rfl,rfl,by simp⟩
  | woken i pc flag => exact .inr ⟨rfl,rfl,rfl,cleared⟩
  | found i f rest pc => exact .inr ⟨rfl,rfl,rfl,cleared⟩
  | reported i f rest rows pc =>
    obtain ⟨_,_,left,_⟩ := (valid.tracks i).reporting pc
    simp [reported i] at left
  | ended i pc => exact .inr ⟨rfl,rfl,rfl,cleared⟩

/-- Once the search view is drawn the UI thread leaves the search alone until the next frame. -/
theorem step_drawn {c : Collection n F} {s t : Search n F} {a : Action n} (ui : s.ui = .drawn)
    (other : a ≠ .nextFrame) (taken : step c s a = some t) : t.ui = .drawn ∧ t.search = s.search := by
  cases step_stepped taken with
  | moved a ui' moves =>
    rcases moves with ⟨_,pc,_⟩ | ⟨pc,_⟩ | ⟨_,pc,_⟩ | ⟨last,_,_⟩
    · cases ui.symm.trans pc
    · cases ui.symm.trans pc
    · cases ui.symm.trans pc
    · exact absurd last other
  | started text pc => cases ui.symm.trans pc
  | cleared text pc => cases ui.symm.trans pc
  | texted text i rest pc => cases ui.symm.trans pc
  | flagged text i rest pc => cases ui.symm.trans pc
  | woken i pc flag => exact ⟨ui,rfl⟩
  | found i f rest pc => exact ⟨ui,rfl⟩
  | reported i f rest rows pc => exact ⟨ui,rfl⟩
  | ended i pc => exact ⟨ui,rfl⟩

/-! ## Counting to zero -/

/-- Files that are left over after some were reported have a size, if the last file has one. -/
theorem eq_nil_of_sizes {files rest : List DatabaseFile} (last : ∀ f ∈ files.getLast?, f.size ≠ 0)
    (suffix : rest <:+ files) (zero : sizes rest = 0) : rest = [] := by
  rcases List.eq_nil_or_concat rest with rfl | ⟨front,f,rfl⟩
  · rfl
  · obtain ⟨before,rfl⟩ := suffix
    have size : f.size ≠ 0 := last f (by simp)
    have empty : f.size.toNat = 0 := by
      simp only [sizes,List.concat_eq_append,List.map_append,List.sum_append,List.map_cons,
        List.map_nil,List.sum_cons,List.sum_nil] at zero
      omega
    exact absurd (UInt64.toNat_inj.mp empty) size

theorem Invariant.exact {c : Collection n F} {s : Search n F} (valid : Invariant c s)
    (countable : Countable c) : Exact s where
  remaining := valid.remaining
  current := valid.current
  finished := by
    have zero : s.isFinished = true ↔ ∑ i, sizes (s.unreported i) = 0 := by
      rw [← valid.remaining,isFinished,decide_eq_true_eq]
      exact UInt64.toNat_inj.symm
    rw [zero,Finset.sum_eq_zero_iff]
    constructor
    · exact fun none i => eq_nil_of_sizes (countable.2 i) (valid.suffix i) (none i (Finset.mem_univ i))
    · intro reported i _
      rw [reported i]
      rfl

theorem reachable_invariant {c : Collection n F} {s : Search n F} (countable : Countable c)
    (reached : Reachable (step c) start s) : Invariant c s :=
  reached.invariant (start_invariant c) fun _ _ _ _ valid _ taken =>
    step_invariant valid countable.1 (fun _ => (valid.exact countable).finished.mp) taken

/-! ## A search with all but one file reported -/

/-- One thread reports the first part of its files, and nothing else happens. -/
theorem exists_reported {c : Collection n F} {s : Search n F} {i : Fin n}
    (front back : List DatabaseFile) (pc : (s.worker i).pc = .looping (front ++ back))
    (pass : (s.worker i).pass = s.search) (unreported : s.unreported i = front ++ back) :
    ∃ t, Reachable (step c) s t ∧ t.unreported i = back ∧ t.search = s.search ∧
      ∀ k, k ≠ i → t.worker k = s.worker k ∧ t.unreported k = s.unreported k := by
  induction front generalizing s with
  | nil => exact ⟨s,.start,unreported,rfl,fun _ _ => ⟨rfl,rfl⟩⟩
  | cons f front ih =>
    let found := s.setWorker i { s.worker i with
      currentEntries := c.find f (s.worker i).searchText (s.worker i).currentEntries
      pc := .reporting f (front ++ back) }
    have first : step c s (.findInFile i) = some found := by simp [step,pc,found]
    obtain ⟨t,second,pc',pass',unreported',search,others⟩ : ∃ t,
        step c found (.decrementRemainingSize i) = some t ∧
        (t.worker i).pc = .looping (front ++ back) ∧ (t.worker i).pass = t.search ∧
        t.unreported i = front ++ back ∧ t.search = s.search ∧
        ∀ k, k ≠ i → t.worker k = s.worker k ∧ t.unreported k = s.unreported k := by
      have reporting : (found.worker i).pc = .reporting f (front ++ back) := by simp [found]
      simp only [step,reporting]
      refine ⟨_,rfl,by simp,by simp [found,pass],by simp [found,pass,unreported],rfl,fun k other => ?_⟩
      simp [found,setWorker_other _ other,pass,other]
    have ran : Reachable (step c) s t := .extend (.extend .start first) second
    obtain ⟨u,later,done,same,rest⟩ := ih pc' pass' unreported'
    refine ⟨u,ran.trans later,done,same.trans search,fun k other => ?_⟩
    exact ⟨(rest k other).1.trans (others k other).1,(rest k other).2.trans (others k other).2⟩

/-- A thread that the current search was started for, and that has not taken it up yet. -/
def Started (s : Search n F) (i : Fin n) : Prop :=
  (s.worker i).shouldStart = true ∧ (s.worker i).flagged = s.search

/-- `find_text` comes to all the threads that it has before it. -/
theorem exists_run {c : Collection n F} {s : Search n F} {text : String} {rest : List (Fin n)}
    (ui : s.ui = .running text rest) : ∃ t, Reachable (step c) s t ∧ t.search = s.search ∧
      t.unreported = s.unreported ∧ (∀ i, (t.worker i).pc = (s.worker i).pc) ∧
      ∀ i, i ∈ rest ∨ s.Started i → t.Started i := by
  induction rest generalizing s with
  | nil => exact ⟨s,.start,rfl,rfl,fun _ => rfl,by simp⟩
  | cons i rest ih =>
    let texted : Search n F := { s.setWorker i { s.worker i with searchText := text } with
      ui := .flagging text i rest }
    have first : step c s .setText = some texted := by simp [step,ui,texted]
    let flagged : Search n F := { texted.setWorker i { texted.worker i with
      shouldStart := true, flagged := s.search } with ui := .running text rest }
    have second : step c texted .setShouldStart = some flagged := by
      simp [step,texted,flagged]
    obtain ⟨t,later,search,unreported,pc,started⟩ := ih (s := flagged) rfl
    refine ⟨t,(ReachableUnder.extend (.extend .start first) second).trans later,search,unreported,
      fun k => (pc k).trans ?_,fun k which => ?_⟩
    · by_cases same : k = i
      · subst k
        simp [flagged,texted]
      · simp [flagged,texted,setWorker_other _ same]
    · by_cases same : k = i
      · subst k
        exact started i (.inr (by simp [Started,flagged,texted]))
      · refine started k (which.imp (fun inside => (List.mem_cons.mp inside).resolve_left same) ?_)
        simp [Started,flagged,texted,setWorker_other _ same]

/-- Threads that were started report the first part of their files each. -/
theorem exists_reported_all {c : Collection n F} (front back : Fin n → List DatabaseFile)
    (parts : ∀ i, c.files i = front i ++ back i) {threads : List (Fin n)} (distinct : threads.Nodup)
    {s : Search n F} (ready : ∀ i ∈ threads, (s.worker i).pc = .waiting ∧ s.Started i ∧
      s.unreported i = c.files i) :
    ∃ t, Reachable (step c) s t ∧ ∀ i ∈ threads, t.unreported i = back i := by
  suffices general : ∃ t, Reachable (step c) s t ∧ t.search = s.search ∧
      (∀ i ∈ threads, t.unreported i = back i) ∧
      ∀ k, k ∉ threads → t.worker k = s.worker k ∧ t.unreported k = s.unreported k by
    obtain ⟨t,reached,_,reported,_⟩ := general
    exact ⟨t,reached,reported⟩
  induction threads generalizing s with
  | nil => exact ⟨s,.start,rfl,by simp,fun _ _ => ⟨rfl,rfl⟩⟩
  | cons i rest ih =>
    obtain ⟨apart,later⟩ := List.nodup_cons.mp distinct
    obtain ⟨waiting,⟨flag,current⟩,whole⟩ := ready i List.mem_cons_self
    let woken := s.setWorker i { s.worker i with
      shouldStart := false, pc := .looping (c.files i), pass := (s.worker i).flagged }
    have first : step c s (.wake i) = some woken := by simp [step,waiting,flag,woken]
    obtain ⟨t,reported,done,search,others⟩ := exists_reported (c := c) (s := woken) (i := i)
      (front i) (back i) (by simp [woken,parts]) (by simp [woken,current])
      (by simp [woken,whole,parts])
    have untouched : ∀ k, k ≠ i → t.worker k = s.worker k ∧ t.unreported k = s.unreported k := by
      intro k other
      rw [(others k other).1,(others k other).2]
      simp [woken,setWorker_other _ other]
    have same : t.search = s.search := search
    obtain ⟨u,finished,searchU,reportedU,othersU⟩ := ih later (s := t) (by
      intro k inside
      have other : k ≠ i := fun equal => apart (equal ▸ inside)
      obtain ⟨pc,started,files⟩ := ready k (List.mem_cons_of_mem i inside)
      simpa [Started,untouched k other,same] using ⟨pc,started,files⟩)
    have reach := (ReachableUnder.extend .start first).trans (reported.trans finished)
    refine ⟨u,reach,searchU.trans same,?_,fun k outside => ?_⟩
    · intro k inside
      rcases List.mem_cons.mp inside with rfl | inside
      · rw [(othersU k apart).2,done]
      · exact reportedU k inside
    · obtain ⟨other,outsideRest⟩ : k ≠ i ∧ k ∉ rest := by simpa using outside
      rw [(othersU k outsideRest).1,(othersU k outsideRest).2]
      exact untouched k other

/-- Every part of every thread's files is left to report at some time of some search. -/
theorem exists_left (c : Collection n F) (front back : Fin n → List DatabaseFile)
    (parts : ∀ i, c.files i = front i ++ back i) :
    ∃ t, Reachable (step c) start t ∧ ∀ i, t.unreported i = back i := by
  obtain ⟨s,ran,ui,ready⟩ : ∃ s, run (step c) start [.poll,.findText "abc",.clear] = some s ∧
      s.ui = .running "abc" (List.finRange n) ∧
      ∀ i, (s.worker i).pc = .waiting ∧ s.unreported i = c.files i :=
    ⟨_,rfl,rfl,fun _ => ⟨rfl,rfl⟩⟩
  obtain ⟨t,started,search,unreported,pc,flags⟩ := exists_run (c := c) ui
  obtain ⟨u,reported,left⟩ := exists_reported_all front back parts (List.nodup_finRange n) (s := t) fun i _ =>
    ⟨(pc i).trans (ready i).1,flags i (.inl (List.mem_finRange i)),by rw [unreported,(ready i).2]⟩
  exact ⟨u,((reachable_of_run ran).trans started).trans reported,fun i => left i (List.mem_finRange i)⟩

/-- The search for a thread whose only file is empty is finished before the thread has begun. -/
theorem empty_file_unreported : ¬ ∀ (c : Collection 1 Int) (s : Search 1 Int),
    Reachable (step c) start s → Exact s := by
  intro claim
  let c : Collection 1 Int := ⟨fun _ => [⟨"a.db","a.mp4",0⟩],⟨fun _ => 0,fun _ n => n * 40,fun _ => ""⟩,
    fun _ _ _ => []⟩
  obtain ⟨s,ran,finished,unreported⟩ : ∃ s, run (step c) start [.poll,.findText "abc",.clear] = some s ∧
      s.isFinished = true ∧ s.unreported 0 = [⟨"a.db","a.mp4",0⟩] := ⟨_,rfl,rfl,rfl⟩
  have empty := (claim c s (reachable_of_run ran)).finished.mp finished 0
  rw [unreported] at empty
  exact absurd empty (by decide)

/-- In all states of all runs of searches the count is exact, exactly if the sizes of the files add
up without wrapping around and the last file of every thread that has files is not empty. -/
theorem completion_exact_iff (c : Collection n F) :
    (∀ s, Reachable (step c) start s → Exact s) ↔ Countable c := by
  constructor
  · intro exact
    constructor
    · obtain ⟨s,reached,left⟩ := exists_left c (fun _ => []) c.files fun _ => rfl
      have remaining := (exact s reached).remaining
      simp only [left] at remaining
      rw [← remaining]
      exact s.remainingSize.toNat_lt
    · intro i f last zero
      obtain ⟨front,files⟩ := List.getLast?_eq_some_iff.mp last
      let back : Fin n → List DatabaseFile := fun k => if k = i then [f] else []
      obtain ⟨s,reached,left⟩ := exists_left c (fun k => if k = i then front else c.files k) back
        fun k => by
          by_cases same : k = i
          · simp [same,files,back]
          · simp [same,back]
      obtain ⟨remaining,finished,_⟩ := exact s reached
      have none : ∑ k, sizes (s.unreported k) = 0 := by
        refine Finset.sum_eq_zero fun k _ => ?_
        by_cases same : k = i
        · simp [left,back,same,sizes,zero]
        · simp [left,back,same,sizes]
      have done : s.isFinished = true := by
        rw [none] at remaining
        exact decide_eq_true (UInt64.toNat_inj.mp remaining)
      have empty := finished.mp done i
      simp [left,back] at empty
  · exact fun countable s reached => (reachable_invariant countable reached).exact countable

end Search

end OcrSuite.Viewer
