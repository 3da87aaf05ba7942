import OcrSuite.Database
import OcrSuite.Grouping

/-! The viewer's results: the rows that are stored for what is found in the video files, and the
tree of days, hours, minutes and frames that one pass over the rows in the order of their
timestamps builds. -/
namespace OcrSuite.Viewer

open Grouping

variable {F : Type}

/-- What the viewer learns of a video file by its name, times in milliseconds. -/
structure Recordings where
  startTimeForVideo : String → Int
  frameNumberToMilliseconds : String → Int → Int
  dateToString : Int → String

/-- `search::search_entry`, the hits in one file. -/
structure FileEntries (F : Type) where
  videoFilePath : String
  entries : List (SearchEntry F)

/-- `results::entry`, a row of the results table. -/
structure Row (F : Type) where
  timestamp : Int
  frame : Int
  left : Int32
  top : Int32
  right : Int32
  bottom : Int32
  confidence : F
  text : String
  videoFile : String
  hour : Int32
  minute : Int32
  deriving DecidableEq

namespace Recordings

/-- Hours and minutes are those since the start of the file. -/
def row (r : Recordings) (videoFilePath : String) (e : SearchEntry F) : Row F :=
  let startTime := r.startTimeForVideo videoFilePath
  let timestamp := startTime + r.frameNumberToMilliseconds videoFilePath e.frameNumber.toInt
  let totalSeconds := (timestamp - startTime).tdiv 1000
  let numHours := totalSeconds.tdiv 3600
  let numMinutes := (totalSeconds - numHours * 3600).tdiv 60
  ⟨timestamp,e.frameNumber.toInt,e.left,e.top,e.right,e.bottom,e.confidence,e.text,videoFilePath,
    Int32.ofInt numHours,Int32.ofInt numMinutes⟩

def store (r : Recordings) (result : FileEntries F) : List (Row F) :=
  result.entries.map (r.row result.videoFilePath)

/-- The Julian day of the start of the row's file. -/
def dayNumber (r : Recordings) (row : Row F) : Int :=
  r.startTimeForVideo row.videoFile / 86400000 + 2440588

end Recordings

/-- The rows of the table in the order of `select_`, which leaves equal timestamps in any. -/
def Selected (table rows : List (Row F)) : Prop :=
  rows.Perm table ∧ rows.Pairwise fun a b => a.timestamp ≤ b.timestamp

/-! ## The tree -/

/-- A pointer to a node: the tree it was taken in and the positions on the way down. -/
structure Pointer where
  generation : Nat
  path : List Nat
  deriving DecidableEq

structure Text (F : Type) where
  left : Int32
  top : Int32
  right : Int32
  bottom : Int32
  confidence : F
  value : String
  ownerIdx : Nat
  deriving DecidableEq

structure Frame (F : Type) where
  name : String
  number : Int
  timestamp : Int
  videoFile : String
  texts : List (Text F)
  owner : Option Pointer
  ownerIdx : Nat
  deriving DecidableEq, Inhabited

structure Minute (F : Type) where
  name : String
  number : Int
  frames : List (Frame F)
  owner : Option Pointer
  ownerIdx : Nat
  deriving DecidableEq, Inhabited

structure Hour (F : Type) where
  name : String
  number : Int
  minutes : List (Minute F)
  owner : Option Pointer
  ownerIdx : Nat
  deriving DecidableEq, Inhabited

structure Day (F : Type) where
  name : String
  number : Int
  hours : List (Hour F)
  ownerIdx : Nat
  deriving DecidableEq, Inhabited

/-- A number with at least two places. -/
def twoDigits (n : Int) : String := if 0 ≤ n ∧ n < 10 then "0" ++ toString n else toString n

def Text.ofRow (i : Nat) (row : Row F) : Text F :=
  ⟨row.left,row.top,row.right,row.bottom,row.confidence,row.text,i⟩

/-- The name is completed when the pass leaves the frame. -/
def Frame.updateFrameText (f : Frame F) : Frame F :=
  { f with name := f.name ++ " - " ++ toString f.texts.length }

def frameLevel : Level (Row F) Int (Frame F) where
  key := Row.frame
  number := Frame.number
  new i row := ⟨toString row.frame,row.frame,row.timestamp,row.videoFile,[],none,i⟩
  add f row := { f with texts := f.texts ++ [Text.ofRow f.texts.length row] }
  close := Frame.updateFrameText
  number_new _ _ := rfl
  number_add _ _ := rfl

def minuteLevel : Level (Row F) Int (Minute F) where
  key row := row.minute.toInt
  number := Minute.number
  new i row := ⟨twoDigits row.minute.toInt,row.minute.toInt,[],none,i⟩
  add m row := { m with frames := frameLevel.continueLast m.frames row }
  close m := { m with frames := frameLevel.closeLast m.frames }
  number_new _ _ := rfl
  number_add _ _ := rfl

def hourLevel : Level (Row F) Int (Hour F) where
  key row := row.hour.toInt
  number := Hour.number
  new i row := ⟨twoDigits row.hour.toInt ++ ":??",row.hour.toInt,[],none,i⟩
  add h row := { h with minutes := minuteLevel.continueLast h.minutes row }
  close h := { h with minutes := minuteLevel.closeLast h.minutes }
  number_new _ _ := rfl
  number_add _ _ := rfl

def dayLevel (r : Recordings) : Level (Row F) Int (Day F) where
  key := r.dayNumber
  number := Day.number
  new i row := ⟨r.dateToString (r.dayNumber row),r.dayNumber row,[],i⟩
  add d row := { d with hours := hourLevel.continueLast d.hours row }
  close d := { d with hours := hourLevel.closeLast d.hours }
  number_new _ _ := rfl
  number_add _ _ := rfl

/-- The owners are assigned after the pass, when the nodes do not move any more. -/
def assignOwners (generation : Nat) (days : List (Day F)) : List (Day F) :=
  days.mapIdx fun d day => { day with
    hours := day.hours.mapIdx fun h hour => { hour with
      owner := some ⟨generation,[d]⟩
      minutes := hour.minutes.mapIdx fun m minute => { minute with
        owner := some ⟨generation,[d,h]⟩
        frames := minute.frames.map fun frame => { frame with
          owner := some ⟨generation,[d,h,m]⟩ } } } }

/-- `sort_results` on the rows of a selection. -/
def sortResults (r : Recordings) (generation : Nat) (rows : List (Row F)) : List (Day F) :=
  assignOwners generation ((dayLevel r).nodes rows)

/-- The frames in the order of the document. -/
def frames (days : List (Day F)) : List (Frame F) :=
  days.flatMap fun day => day.hours.flatMap fun hour => hour.minutes.flatMap Minute.frames

/-! ## The frames of the tree -/

/-- What a frame has without regard to its place in the tree. -/
def Frame.detached (f : Frame F) : Frame F := { f with owner := none, ownerIdx := 0 }

/-- The numbers on the way down to the frame of a row. -/
def Recordings.key (r : Recordings) (row : Row F) : ((Int × Int) × Int) × Int :=
  (((r.dayNumber row,row.hour.toInt),row.minute.toInt),row.frame)

def frameOf (i : Nat) (run : List (Row F)) : Frame F := (frameLevel.build i run).updateFrameText

theorem build_frame (i : Nat) {run : List (Row F)} {first : Row F} (head : run.head? = some first) :
    frameLevel.build i run =
      ⟨toString first.frame,first.frame,first.timestamp,first.videoFile,run.mapIdx Text.ofRow,none,i⟩ := by
  induction run using List.reverseRecOn with
  | nil => simp at head
  | append_singleton run row ih =>
    cases run with
    | nil =>
      obtain rfl : row = first := by simpa using head
      rfl
    | cons second rest =>
      obtain rfl : second = first := by simpa using head
      rw [Level.build_concat _ (by simp),ih (by simp)]
      simp [frameLevel,List.mapIdx_append]

/-- Frames of different positions differ in nothing else. -/
theorem detached_build (i : Nat) (run : List (Row F)) :
    (frameLevel.build i run).updateFrameText.detached = (frameOf 0 run).detached := by
  cases run with
  | nil => rfl
  | cons first rest =>
    simp [frameOf,build_frame _ (List.head?_cons),Frame.updateFrameText,Frame.detached]

theorem frames_assignOwners (generation : Nat) (days : List (Day F)) :
    (frames (assignOwners generation days)).map Frame.detached = (frames days).map Frame.detached := by
  simp only [frames,assignOwners,List.map_flatMap]
  refine flatMap_mapIdx fun d day _ => flatMap_mapIdx fun h hour _ => flatMap_mapIdx fun m minute _ => ?_
  simp [Frame.detached]

/-- The frames of the tree are those of the runs of rows with the same numbers at all levels. -/
theorem frames_sortResults (r : Recordings) (generation : Nat) (rows : List (Row F)) :
    (frames (sortResults r generation rows)).map Frame.detached =
      (runs r.key rows).map fun run => (frameOf 0 run).detached := by
  have nodes (run : List (Row F)) : (frameLevel.nodes run).map Frame.detached =
      (runs Row.frame run).map fun run => (frameOf 0 run).detached := by
    rw [Level.nodes_eq]
    exact map_mapIdx fun i run _ => detached_build i run
  have minutes (run : List (Row F)) : (minuteLevel.nodes run).flatMap Minute.frames =
      (runs (fun row => row.minute.toInt) run).flatMap frameLevel.nodes :=
    flatMap_children minuteLevel frameLevel Minute.frames (fun _ _ => rfl) (fun _ _ => rfl)
      (fun _ => rfl) (fun frames => frames) run
  have hours (run : List (Row F)) :
      (hourLevel.nodes run).flatMap (fun hour => hour.minutes.flatMap Minute.frames) =
        (runs (fun row => row.hour.toInt) run).flatMap fun run =>
          (minuteLevel.nodes run).flatMap Minute.frames :=
    flatMap_children hourLevel minuteLevel Hour.minutes (fun _ _ => rfl) (fun _ _ => rfl)
      (fun _ => rfl) (fun minutes => minutes.flatMap Minute.frames) run
  have days := flatMap_children (dayLevel r) hourLevel Day.hours (fun _ _ => rfl) (fun _ _ => rfl)
    (fun _ => rfl) (fun hours => hours.flatMap fun hour => hour.minutes.flatMap Minute.frames) rows
  have key : runs r.key rows = (((runs r.dayNumber rows).flatMap
      (runs fun row => row.hour.toInt)).flatMap (runs fun row => row.minute.toInt)).flatMap
        (runs Row.frame) := by
    rw [flatMap_runs,flatMap_runs,flatMap_runs]
    rfl
  rw [sortResults,frames_assignOwners,frames,days,key]
  simp only [hours,minutes,List.map_flatMap,nodes,List.flatMap_assoc]
  rfl

/-! ## Frames and their rows -/

/-- What a row says of the frame its text was found in. -/
def Row.pair (row : Row F) : String × Int := (row.videoFile,row.frame)

def Frame.pair (f : Frame F) : String × Int := (f.videoFile,f.number)

/-- The rows that went to each of the frames: the pass fills them one after the other. -/
def held (fs : List (Frame F)) (rows : List (Row F)) : List (List (Row F)) :=
  (fs.map fun f => f.texts.length).splitLengths rows

/-- There is one frame for each pair of a file and a number that has rows, with their texts. -/
structure Faithful (fs : List (Frame F)) (rows : List (Row F)) : Prop where
  texts : fs.map Frame.texts = (held fs rows).map fun part => part.mapIdx Text.ofRow
  own : ∀ entry ∈ fs.zip (held fs rows), entry.2 = rows.filter fun row => row.pair = entry.1.pair
  once : (fs.map Frame.pair).Nodup
  complete : ∀ row ∈ rows, row.pair ∈ fs.map Frame.pair

theorem frameOf_eq {run : List (Row F)} {first : Row F} (head : run.head? = some first) :
    (frameOf 0 run).texts = run.mapIdx Text.ofRow ∧ (frameOf 0 run).pair = first.pair := by
  simp [frameOf,build_frame 0 head,Frame.updateFrameText,Frame.pair,Row.pair]

/-- A property of frames that their places do not matter for, read off the runs. -/
theorem map_frames (r : Recordings) (generation : Nat) (rows : List (Row F)) {β : Type}
    (f : Frame F → β) (free : ∀ frame, f frame.detached = f frame) :
    (frames (sortResults r generation rows)).map f = (runs r.key rows).map fun run => f (frameOf 0 run) := by
  have same := congrArg (List.map f) (frames_sortResults r generation rows)
  simpa [Function.comp_def,free] using same

theorem held_eq (r : Recordings) (generation : Nat) (rows : List (Row F)) :
    held (frames (sortResults r generation rows)) rows = runs r.key rows := by
  rw [held,map_frames r generation rows (fun f => f.texts.length) fun _ => rfl]
  have lengths : (runs r.key rows).map (fun run => (frameOf 0 run).texts.length) =
      (runs r.key rows).map List.length := by
    refine List.map_congr_left fun run member => ?_
    obtain ⟨first,rest,rfl⟩ := List.exists_cons_of_ne_nil (runs_ne_nil member)
    simp [(frameOf_eq (List.head?_cons (a := first) (l := rest))).1]
  have cut := splitLengths_flatten (runs r.key rows)
  rwa [flatten_runs,← lengths] at cut

/-- The frames are as they should be exactly if each run holds all rows of one pair. -/
theorem faithful_iff_runs (r : Recordings) (generation : Nat) (rows : List (Row F)) :
    Faithful (frames (sortResults r generation rows)) rows ↔
      (∀ run ∈ runs r.key rows, ∃ p, run = rows.filter fun row => row.pair = p) ∧
        ((runs r.key rows).filterMap fun run => run.head?.map Row.pair).Nodup := by
  have pairs := map_frames r generation rows Frame.pair fun _ => rfl
  have head : ∀ run ∈ runs r.key rows, ∃ first ∈ run, run.head?.map Row.pair = some first.pair ∧
      (frameOf 0 run).pair = first.pair ∧ (frameOf 0 run).texts = run.mapIdx Text.ofRow := by
    intro run member
    obtain ⟨first,rest,rfl⟩ := List.exists_cons_of_ne_nil (runs_ne_nil member)
    have same := frameOf_eq (List.head?_cons (a := first) (l := rest))
    exact ⟨first,List.mem_cons_self,rfl,same.2,same.1⟩
  have heads : ((runs r.key rows).filterMap fun run => run.head?.map Row.pair) =
      (runs r.key rows).map fun run => (frameOf 0 run).pair := by
    refine List.filterMap_eq_map_iff_forall_eq_some.mpr fun run member => ?_
    obtain ⟨first,_,some,same,_⟩ := head run member
    rw [some,same]
  have own := forall_mem_zip pairs fun pair (run : List (Row F)) =>
    run = rows.filter fun row => row.pair = pair
  rw [heads,← pairs]
  constructor
  · intro faithful
    refine ⟨fun run member => ⟨_,own.mp ?_ run member⟩,faithful.once⟩
    simpa [held_eq] using faithful.own
  · rintro ⟨classes,once⟩
    have whole : ∀ run ∈ runs r.key rows, run = rows.filter fun row => row.pair = (frameOf 0 run).pair := by
      intro run member
      obtain ⟨p,class_⟩ := classes run member
      obtain ⟨first,inside,_,same,_⟩ := head run member
      rw [class_] at inside
      obtain rfl : first.pair = p := by simpa using (List.mem_filter.mp inside).2
      rw [same]
      exact class_
    refine ⟨?_,?_,once,fun row member => ?_⟩
    · rw [held_eq,map_frames r generation rows Frame.texts fun _ => rfl]
      refine List.map_congr_left fun run inside => ?_
      obtain ⟨_,_,_,_,texts⟩ := head run inside
      exact texts
    · rw [held_eq]
      exact own.mpr whole
    · obtain ⟨run,inside,here⟩ := List.mem_flatten.mp ((flatten_runs r.key rows).symm ▸ member)
      rw [whole run inside] at here
      have same : row.pair = (frameOf 0 run).pair := by simpa using (List.mem_filter.mp here).2
      rw [pairs,same]
      exact List.mem_map_of_mem inside

/-- Rows of one frame of a file have the same numbers at all levels. -/
theorem key_of_pair (r : Recordings) {found : List (FileEntries F)} {a b : Row F}
    (first : a ∈ found.flatMap r.store) (second : b ∈ found.flatMap r.store)
    (same : a.pair = b.pair) : r.key a = r.key b := by
  obtain ⟨fileA,_,inA⟩ := List.mem_flatMap.mp first
  obtain ⟨fileB,_,inB⟩ := List.mem_flatMap.mp second
  obtain ⟨eA,_,rfl⟩ := List.mem_map.mp inA
  obtain ⟨eB,_,rfl⟩ := List.mem_map.mp inB
  obtain ⟨files,numbers⟩ : fileA.videoFilePath = fileB.videoFilePath ∧
      eA.frameNumber.toInt = eB.frameNumber.toInt := by
    simpa [Row.pair,Recordings.row] using same
  simp [Recordings.key,Recordings.dayNumber,Recordings.row,files,numbers]

/-- Two recordings at 25 frames a second, the second started one second after the first. -/
def twoRecordings : Recordings where
  startTimeForVideo file := if file = "2023-03-11 10-00-00.mp4" then 1678528800000 else 1678528801000
  frameNumberToMilliseconds _ n := n * 40
  dateToString _ := "2023-03-11"

/-- The texts in frame 5 of both recordings come into one node, which is that of the first. -/
theorem recordings_merged : ¬ ∀ (r : Recordings) (generation : Nat) (found : List (FileEntries Int))
    (rows : List (Row Int)), Selected (found.flatMap r.store) rows →
      Faithful (frames (sortResults r generation rows)) rows := by
  intro claim
  let found : List (FileEntries Int) := [⟨"2023-03-11 10-00-00.mp4",[⟨5,"a",0,0,9,9,90⟩]⟩,
    ⟨"2023-03-11 10-00-01.mp4",[⟨5,"b",0,0,9,9,90⟩]⟩]
  have faithful := claim twoRecordings 0 found (found.flatMap twoRecordings.store)
    ⟨List.Perm.refl _,by decide⟩
  have second := faithful.complete (twoRecordings.row "2023-03-11 10-00-01.mp4" ⟨5,"b",0,0,9,9,90⟩)
    (by decide)
  exact absurd second (by decide)

/-- Each frame node has all the rows of one frame of one file, and there is one for each, exactly
if neighbouring rows that agree on day, hour, minute and frame number are of one file, and the rows
of each frame stand together. -/
theorem frame_nodes_faithful_iff (r : Recordings) (generation : Nat) (found : List (FileEntries F))
    (rows : List (Row F)) (selected : Selected (found.flatMap r.store) rows) :
    Faithful (frames (sortResults r generation rows)) rows ↔
      (rows.IsChain fun a b => r.key a = r.key b → a.videoFile = b.videoFile) ∧
        ∀ row ∈ rows, (rows.filter fun other => other.pair = row.pair) <:+: rows := by
  have stored {row : Row F} (member : row ∈ rows) : row ∈ found.flatMap r.store :=
    selected.1.mem_iff.mp member
  have refines : ∀ a ∈ rows, ∀ b ∈ rows, a.pair = b.pair → r.key a = r.key b :=
    fun a first b second => key_of_pair r (stored first) (stored second)
  have files : (rows.IsChain fun a b => r.key a = r.key b → a.videoFile = b.videoFile) ↔
      rows.IsChain fun a b => r.key a = r.key b → a.pair = b.pair := by
    refine List.IsChain.iff fun a b => imp_congr_right fun same => ?_
    simp only [Row.pair,Prod.mk.injEq,iff_self_and]
    exact fun _ => congrArg Prod.snd same
  rw [faithful_iff_runs,files,← runs_are_classes_iff Row.pair rows refines]
  refine ⟨And.left,fun classes => ⟨classes,?_⟩⟩
  have apart := (runs_are_classes_iff Row.pair rows refines).mp classes
  exact classes_nodup refines apart.1 apart.2

/-- Frames 5 and 6 of two recordings. -/
theorem frame_nodes_faithful_iff_witness :
    let found : List (FileEntries Int) := [⟨"2023-03-11 10-00-00.mp4",[⟨5,"a",0,0,9,9,90⟩]⟩,
      ⟨"2023-03-11 10-00-01.mp4",[⟨6,"b",0,0,9,9,90⟩]⟩]
    let rows := found.flatMap twoRecordings.store
    Selected rows rows ∧ (Faithful (frames (sortResults twoRecordings 0 rows)) rows ↔
      (rows.IsChain fun a b => twoRecordings.key a = twoRecordings.key b → a.videoFile = b.videoFile) ∧
        ∀ row ∈ rows, (rows.filter fun other => other.pair = row.pair) <:+: rows) := by
  intro found rows
  have selected : Selected rows rows := ⟨List.Perm.refl _,by decide⟩
  exact ⟨selected,frame_nodes_faithful_iff twoRecordings 0 found rows selected⟩

end OcrSuite.Viewer
