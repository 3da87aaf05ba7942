import OcrSuite.FrameOrder

/-! `sort_results` as the code has it, with its pointers to the current nodes, and the tree that it
makes of any sequence of rows. -/
namespace OcrSuite.Viewer

open Grouping

variable {F : Type}

/-- The tree so far and the pointers of the pass, as positions in it. -/
structure ResultPass (F : Type) extends Tree F where
  currentDay : Option Nat
  currentHour : Option (Nat × Nat)
  currentMinute : Option (Nat × Nat × Nat)
  currentFrame : Option (Nat × Nat × Nat × Nat)

namespace ResultPass

def start (generation : Nat) : ResultPass F := ⟨⟨generation,[]⟩,none,none,none,none⟩

def day? (s : ResultPass F) : Option (Day F) := s.currentDay.bind fun d => s.days[d]?

def hour? (s : ResultPass F) : Option (Hour F) := s.currentHour.bind fun (d,h) => s.hourAt d h

def minute? (s : ResultPass F) : Option (Minute F) :=
  s.currentMinute.bind fun (d,h,m) => s.minuteAt d h m

def frame? (s : ResultPass F) : Option (Frame F) :=
  s.currentFrame.bind fun (d,h,m,i) => s.frameAt d h m i

def modifyDay (s : ResultPass F) (d : Nat) (change : Day F → Day F) : ResultPass F :=
  { s with days := s.days.modify d change }

def modifyHour (s : ResultPass F) (d h : Nat) (change : Hour F → Hour F) : ResultPass F :=
  s.modifyDay d fun day => { day with hours := day.hours.modify h change }

def modifyMinute (s : ResultPass F) (d h m : Nat) (change : Minute F → Minute F) : ResultPass F :=
  s.modifyHour d h fun hour => { hour with minutes := hour.minutes.modify m change }

def modifyFrame (s : ResultPass F) (d h m i : Nat) (change : Frame F → Frame F) : ResultPass F :=
  s.modifyMinute d h m fun minute => { minute with frames := minute.frames.modify i change }

/-- Nothing happens without a current frame. -/
def updateFrameText (s : ResultPass F) : ResultPass F :=
  match s.currentFrame with
  | some (d,h,m,i) => s.modifyFrame d h m i Frame.updateFrameText
  | none => s

/-! A new node is pushed through the pointer to its parent, which must not be null. -/

def enterDay (r : Recordings) (s : ResultPass F) (row : Row F) : ResultPass F :=
  if s.day?.map Day.number = some (r.dayNumber row) then s
  else { s with
    days := s.days ++ [⟨r.dateToString (r.dayNumber row),r.dayNumber row,[],s.days.length⟩]
    currentDay := some s.days.length
    currentHour := none }

def enterHour (s : ResultPass F) (row : Row F) : Option (ResultPass F) :=
  if s.hour?.map Hour.number = some row.hour.toInt then some s
  else do
    let d ← s.currentDay
    let day ← s.day?
    let hour := ⟨twoDigits row.hour.toInt ++ ":??",row.hour.toInt,[],none,day.hours.length⟩
    some { s.modifyDay d fun day => { day with hours := day.hours ++ [hour] } with
      currentHour := some (d,day.hours.length)
      currentMinute := none }

def enterMinute (s : ResultPass F) (row : Row F) : Option (ResultPass F) :=
  if s.minute?.map Minute.number = some row.minute.toInt then some s
  else do
    let (d,h) ← s.currentHour
    let hour ← s.hour?
    let minute := ⟨twoDigits row.minute.toInt,row.minute.toInt,[],none,hour.minutes.length⟩
    let s := s.modifyHour d h fun hour => { hour with minutes := hour.minutes ++ [minute] }
    some { s.updateFrameText with
      currentMinute := some (d,h,hour.minutes.length)
      currentFrame := none }

def enterFrame (s : ResultPass F) (row : Row F) : Option (ResultPass F) :=
  if s.frame?.map Frame.number = some row.frame then some s
  else do
    let s := s.updateFrameText
    let (d,h,m) ← s.currentMinute
    let minute ← s.minute?
    let frame := ⟨toString row.frame,row.frame,row.timestamp,row.videoFile,[],none,minute.frames.length⟩
    some { s.modifyMinute d h m fun minute => { minute with frames := minute.frames ++ [frame] } with
      currentFrame := some (d,h,m,minute.frames.length) }

def addText (s : ResultPass F) (row : Row F) : Option (ResultPass F) := do
  let (d,h,m,i) ← s.currentFrame
  let _ ← s.frame?
  some (s.modifyFrame d h m i fun frame =>
    { frame with texts := frame.texts ++ [Text.ofRow frame.texts.length row] })

/-- The body of the loop. -/
def visit (r : Recordings) (s : ResultPass F) (row : Row F) : Option (ResultPass F) := do
  let s ← (s.enterDay r row).enterHour row
  let s ← s.enterMinute row
  let s ← s.enterFrame row
  s.addText row

def run (r : Recordings) (generation : Nat) (rows : List (Row F)) : Option (ResultPass F) :=
  rows.foldlM (visit r) (start generation)

/-- The last frame gets its text after the owners are assigned. -/
def finish (s : ResultPass F) : Tree F :=
  { s with days := assignOwners s.generation s.days : ResultPass F }.updateFrameText.toTree

def sortResults (r : Recordings) (generation : Nat) (rows : List (Row F)) : Option (Tree F) :=
  (run r generation rows).map finish

end ResultPass

/-! ## The open nodes -/

/-- The nodes that the pointers are at, each with the siblings before it; the node of a level that is
not the lowest one gets its children from the level below. -/
structure OpenNodes (F : Type) where
  days : List (Day F)
  day : Day F
  hours : List (Hour F)
  hour : Hour F
  minutes : List (Minute F)
  minute : Minute F
  frames : List (Frame F)
  frame : Frame F

namespace OpenNodes

def minuteNode (o : OpenNodes F) : Minute F := { o.minute with frames := o.frames ++ [o.frame] }

def hourNode (o : OpenNodes F) : Hour F := { o.hour with minutes := o.minutes ++ [o.minuteNode] }

def dayNode (o : OpenNodes F) : Day F := { o.day with hours := o.hours ++ [o.hourNode] }

def nodes (o : OpenNodes F) : List (Day F) := o.days ++ [o.dayNode]

def pass (generation : Nat) (o : OpenNodes F) : ResultPass F :=
  ⟨⟨generation,o.nodes⟩,some o.days.length,some (o.days.length,o.hours.length),
    some (o.days.length,o.hours.length,o.minutes.length),
    some (o.days.length,o.hours.length,o.minutes.length,o.frames.length)⟩

def close (o : OpenNodes F) : OpenNodes F := { o with frame := o.frame.updateFrameText }

/-! A row goes to the open nodes as far as their numbers are its own, and the one that opens a node
opens one at each level below. -/

def addToMinute (o : OpenNodes F) (row : Row F) : OpenNodes F :=
  if o.frame.number = row.frame then { o with frame := frameLevel.add o.frame row }
  else { o with
    frames := o.frames ++ [o.frame.updateFrameText]
    frame := frameLevel.add (frameLevel.new (o.frames.length + 1) row) row }

def addToHour (o : OpenNodes F) (row : Row F) : OpenNodes F :=
  if o.minute.number = row.minute.toInt then o.addToMinute row
  else { o with
    minutes := o.minutes ++ [o.close.minuteNode]
    minute := minuteLevel.new (o.minutes.length + 1) row
    frames := []
    frame := frameLevel.add (frameLevel.new 0 row) row }

def addToDay (o : OpenNodes F) (row : Row F) : OpenNodes F :=
  if o.hour.number = row.hour.toInt then o.addToHour row
  else { o with
    hours := o.hours ++ [o.close.hourNode]
    hour := hourLevel.new (o.hours.length + 1) row
    minutes := []
    minute := minuteLevel.new 0 row
    frames := []
    frame := frameLevel.add (frameLevel.new 0 row) row }

def first (r : Recordings) (days : List (Day F)) (row : Row F) : OpenNodes F where
  days := days
  day := (dayLevel r).new days.length row
  hours := []
  hour := hourLevel.new 0 row
  minutes := []
  minute := minuteLevel.new 0 row
  frames := []
  frame := frameLevel.add (frameLevel.new 0 row) row

def add (r : Recordings) (o : OpenNodes F) (row : Row F) : OpenNodes F :=
  if o.day.number = r.dayNumber row then o.addToDay row else first r o.close.nodes row

theorem close_minuteNode (o : OpenNodes F) : minuteLevel.close o.minuteNode = o.close.minuteNode := by
  simp [minuteLevel,minuteNode,close,Level.closeLast_concat,frameLevel]

theorem close_hourNode (o : OpenNodes F) : hourLevel.close o.hourNode = o.close.hourNode := by
  simp only [hourLevel,hourNode,Level.closeLast_concat,close_minuteNode]
  rfl

theorem close_dayNode (r : Recordings) (o : OpenNodes F) :
    (dayLevel r).close o.dayNode = o.close.dayNode := by
  simp only [dayLevel,dayNode,Level.closeLast_concat,close_hourNode]
  rfl

theorem addToMinute_node (o : OpenNodes F) (row : Row F) :
    (o.addToMinute row).minuteNode = minuteLevel.add o.minuteNode row := by
  have step : minuteLevel.add o.minuteNode row =
    { o.minute with frames := frameLevel.continueLast (o.frames ++ [o.frame]) row } := rfl
  rw [step,Level.continueLast_concat,addToMinute]
  by_cases same : o.frame.number = row.frame
  · rw [if_pos same,if_pos (by exact same)]
    rfl
  · rw [if_neg same,if_neg (by exact same)]
    rfl

theorem addToHour_node (o : OpenNodes F) (row : Row F) :
    (o.addToHour row).hourNode = hourLevel.add o.hourNode row := by
  have step : hourLevel.add o.hourNode row =
    { o.hour with minutes := minuteLevel.continueLast (o.minutes ++ [o.minuteNode]) row } := rfl
  rw [step,Level.continueLast_concat,addToHour,close_minuteNode]
  by_cases same : o.minute.number = row.minute.toInt
  · rw [if_pos same,if_pos (by exact same),← addToMinute_node,addToMinute]
    split <;> rfl
  · rw [if_neg same,if_neg (by exact same)]
    rfl

theorem addToDay_node (r : Recordings) (o : OpenNodes F) (row : Row F) :
    (o.addToDay row).dayNode = (dayLevel r).add o.dayNode row := by
  have step : (dayLevel r).add o.dayNode row =
    { o.day with hours := hourLevel.continueLast (o.hours ++ [o.hourNode]) row } := rfl
  rw [step,Level.continueLast_concat,addToDay,close_hourNode]
  by_cases same : o.hour.number = row.hour.toInt
  · rw [if_pos same,if_pos (by exact same),← addToHour_node,addToHour,addToMinute]
    split <;> (try split) <;> rfl
  · rw [if_neg same,if_neg (by exact same)]
    rfl

theorem add_nodes (r : Recordings) (o : OpenNodes F) (row : Row F) :
    (o.add r row).nodes = (dayLevel r).continueLast o.nodes row := by
  rw [nodes,nodes,Level.continueLast_concat,add,close_dayNode]
  by_cases same : o.day.number = r.dayNumber row
  · rw [if_pos same,if_pos (by exact same),← addToDay_node,addToDay,addToHour,addToMinute]
    split <;> (try split) <;> (try split) <;> rfl
  · rw [if_neg same,if_neg (by exact same)]
    simp only [first,nodes,List.length_append,List.length_singleton]
    rfl

variable (generation : Nat) (o : OpenNodes F)

@[simp] theorem pass_day? : (o.pass generation).day? = some o.dayNode := by
  simp [ResultPass.day?,pass,nodes]

@[simp] theorem pass_hour? : (o.pass generation).hour? = some o.hourNode := by
  simp [ResultPass.hour?,Tree.hourAt,pass,nodes,dayNode]

@[simp] theorem pass_minute? : (o.pass generation).minute? = some o.minuteNode := by
  simp [ResultPass.minute?,Tree.minuteAt,Tree.hourAt,pass,nodes,dayNode,hourNode]

@[simp] theorem pass_frame? : (o.pass generation).frame? = some o.frame := by
  simp [ResultPass.frame?,Tree.frameAt,Tree.minuteAt,Tree.hourAt,pass,nodes,dayNode,hourNode,minuteNode]

theorem modify_append_right {α : Type} (front back : List α) (i : Nat) (change : α → α) :
    (front ++ back).modify (front.length + i) change = front ++ back.modify i change := by
  induction front with
  | nil => simp
  | cons y front ih => simp [Nat.succ_add,ih]

theorem modify_append_length {α : Type} (front back : List α) (x : α) (change : α → α) :
    (front ++ x :: back).modify front.length change = front ++ change x :: back :=
  modify_append_right front (x :: back) 0 change

theorem pass_modifyFrame (change : Frame F → Frame F) : (o.pass generation).modifyFrame o.days.length
    o.hours.length o.minutes.length o.frames.length change =
      { o with frame := change o.frame }.pass generation := by
  simp [ResultPass.modifyFrame,ResultPass.modifyMinute,ResultPass.modifyHour,ResultPass.modifyDay,
    pass,nodes,dayNode,hourNode,minuteNode,modify_append_length]

/-! ## The pass on open nodes -/

theorem pass_updateFrameText : (o.pass generation).updateFrameText = o.close.pass generation :=
  pass_modifyFrame generation o Frame.updateFrameText

theorem pass_addText (row : Row F) : (o.pass generation).addText row =
    some ({ o with frame := frameLevel.add o.frame row }.pass generation) := by
  have changed := pass_modifyFrame generation o fun frame =>
    { frame with texts := frame.texts ++ [Text.ofRow frame.texts.length row] }
  have there := pass_frame? generation o
  rw [ResultPass.addText,there]
  exact congrArg some changed

theorem pass_enterFrame (row : Row F) : ((o.pass generation).enterFrame row).bind (fun s => s.addText row) =
    some ((o.addToMinute row).pass generation) := by
  rw [ResultPass.enterFrame,pass_frame?,Option.map_some]
  by_cases same : o.frame.number = row.frame
  · rw [if_pos (congrArg some same),addToMinute,if_pos same]
    exact pass_addText generation o row
  · rw [if_neg (by simpa using same),addToMinute,if_neg same,pass_updateFrameText]
    let opened : OpenNodes F := { o with
      frames := o.frames ++ [o.frame.updateFrameText]
      frame := frameLevel.new (o.frames.length + 1) row }
    rw [← pass_addText generation opened row]
    simp only [pass_minute?]
    simp [pass,nodes,opened,dayNode,hourNode,minuteNode,close,ResultPass.modifyMinute,
      ResultPass.modifyHour,ResultPass.modifyDay,modify_append_length,frameLevel]

/-- The state between a new minute and its first frame. -/
def freshMinute (generation : Nat) (o : OpenNodes F) : ResultPass F :=
  { o.pass generation with
    days := o.days ++ [{ o.day with hours := o.hours ++ [{ o.hour with
      minutes := o.minutes ++ [{ o.minute with frames := [] }] }] }]
    currentFrame := none }

theorem freshMinute_enterFrame (row : Row F) : ((o.freshMinute generation).enterFrame row).bind
    (fun s => s.addText row) = some ({ o with
      frames := []
      frame := frameLevel.add (frameLevel.new 0 row) row }.pass generation) := by
  let opened : OpenNodes F := { o with
    frames := []
    frame := frameLevel.new 0 row }
  have entered : (o.freshMinute generation).enterFrame row = some (opened.pass generation) := by
    simp [freshMinute,pass,nodes,opened,dayNode,hourNode,minuteNode,ResultPass.enterFrame,
      ResultPass.frame?,ResultPass.updateFrameText,ResultPass.minute?,Tree.minuteAt,Tree.hourAt,
      ResultPass.modifyMinute,ResultPass.modifyHour,ResultPass.modifyDay,modify_append_length,frameLevel]
  rw [entered]
  exact pass_addText generation opened row

theorem pass_enterMinute (row : Row F) : ((o.pass generation).enterMinute row).bind (fun s =>
    (s.enterFrame row).bind (fun s => s.addText row)) = some ((o.addToHour row).pass generation) := by
  rw [ResultPass.enterMinute,pass_minute?,Option.map_some]
  by_cases same : o.minute.number = row.minute.toInt
  · rw [if_pos (by exact congrArg some same),addToHour,if_pos same]
    exact pass_enterFrame generation o row
  · rw [if_neg (by simpa [minuteNode] using same),addToHour,if_neg same,
      ← freshMinute_enterFrame generation { o with
        minutes := o.minutes ++ [o.close.minuteNode]
        minute := minuteLevel.new (o.minutes.length + 1) row }]
    simp only [pass_hour?]
    simp [freshMinute,pass,nodes,dayNode,hourNode,minuteNode,close,ResultPass.updateFrameText,
      ResultPass.modifyFrame,ResultPass.modifyMinute,ResultPass.modifyHour,ResultPass.modifyDay,
      modify_append_length,minuteLevel]

theorem pass_enterHour (row : Row F) : ((o.pass generation).enterHour row).bind (fun s =>
    (s.enterMinute row).bind (fun s => (s.enterFrame row).bind (fun s => s.addText row))) =
      some ((o.addToDay row).pass generation) := by
  rw [ResultPass.enterHour,pass_hour?,Option.map_some]
  by_cases same : o.hour.number = row.hour.toInt
  · rw [if_pos (by exact congrArg some same),addToDay,if_pos same]
    exact pass_enterMinute generation o row
  · rw [if_neg (by simpa [hourNode] using same),addToDay,if_neg same,
      ← freshMinute_enterFrame generation { o with
        hours := o.hours ++ [o.close.hourNode]
        hour := hourLevel.new (o.hours.length + 1) row
        minutes := []
        minute := minuteLevel.new 0 row }]
    simp only [pass_day?]
    simp [freshMinute,pass,nodes,dayNode,hourNode,minuteNode,close,ResultPass.updateFrameText,
      ResultPass.enterMinute,ResultPass.minute?,ResultPass.hour?,Tree.hourAt,
      ResultPass.modifyFrame,ResultPass.modifyMinute,ResultPass.modifyHour,ResultPass.modifyDay,
      modify_append_length,modify_append_right,hourLevel,minuteLevel]

theorem visit_pass (r : Recordings) (row : Row F) :
    ResultPass.visit r (o.pass generation) row = some ((o.add r row).pass generation) := by
  rw [ResultPass.visit,ResultPass.enterDay,pass_day?,Option.map_some]
  by_cases same : o.day.number = r.dayNumber row
  · rw [if_pos (by exact congrArg some same),add,if_pos same]
    exact pass_enterHour generation o row
  · rw [if_neg (by simpa [dayNode] using same),add,if_neg same]
    refine Eq.trans ?_ (freshMinute_enterFrame generation (first r o.close.nodes row) row)
    simp [freshMinute,first,pass,nodes,dayNode,hourNode,minuteNode,close,ResultPass.updateFrameText,
      ResultPass.enterHour,ResultPass.day?,
      ResultPass.enterMinute,ResultPass.minute?,ResultPass.hour?,Tree.hourAt,
      ResultPass.modifyFrame,ResultPass.modifyMinute,ResultPass.modifyHour,ResultPass.modifyDay,
      modify_append_length,modify_append_right,dayLevel,hourLevel,minuteLevel]

omit o in
theorem visit_start (r : Recordings) (row : Row F) :
    ResultPass.visit r (.start generation) row = some ((first r [] row).pass generation) := by
  refine Eq.trans ?_ (freshMinute_enterFrame generation (first r [] row) row)
  simp [ResultPass.visit,freshMinute,first,pass,ResultPass.start,ResultPass.enterDay,ResultPass.updateFrameText,
    ResultPass.enterHour,ResultPass.day?,ResultPass.enterMinute,ResultPass.minute?,ResultPass.hour?,
    Tree.hourAt,ResultPass.modifyHour,ResultPass.modifyDay,dayLevel,hourLevel,minuteLevel]

theorem foldlM_visit (r : Recordings) (rows : List (Row F)) :
    rows.foldlM (ResultPass.visit r) (o.pass generation) =
      some ((rows.foldl (add r) o).pass generation) := by
  induction rows generalizing o with
  | nil => rfl
  | cons row rest ih =>
    rw [List.foldlM_cons,visit_pass]
    exact ih (o.add r row)

theorem foldl_nodes (r : Recordings) (rows : List (Row F)) :
    (rows.foldl (add r) o).nodes = rows.foldl (dayLevel r).continueLast o.nodes := by
  induction rows generalizing o with
  | nil => rfl
  | cons row rest ih => rw [List.foldl_cons,List.foldl_cons,ih,add_nodes]

theorem modify_at_end {α : Type} {front : List α} {n : Nat} (here : front.length = n) (x : α)
    (change : α → α) : (front ++ [x]).modify n change = front ++ [change x] := by
  rw [← here,modify_append_length]

/-- The last frame is still the one that the pointer is at. -/
theorem finish_pass : (o.pass generation).finish = ⟨generation,assignOwners generation o.close.nodes⟩ := by
  simp [ResultPass.finish,assignOwners,List.mapIdx_append,pass,nodes,dayNode,hourNode,minuteNode,close,
    ResultPass.updateFrameText,ResultPass.modifyFrame,ResultPass.modifyMinute,ResultPass.modifyHour,
    ResultPass.modifyDay,modify_at_end,Frame.updateFrameText]

end OpenNodes

/-- The pass with its pointers makes the tree of runs; no pointer is null where it is used. -/
theorem ResultPass.sortResults_eq (r : Recordings) (generation : Nat) (rows : List (Row F)) :
    sortResults r generation rows = some (Tree.ofRows r generation rows) := by
  cases rows with
  | nil => rfl
  | cons row rest =>
    have opened := OpenNodes.visit_start generation r row
    have passed := OpenNodes.foldlM_visit generation (OpenNodes.first r [] row) r rest
    have nodes := OpenNodes.foldl_nodes (OpenNodes.first r [] row) r rest
    have closed := OpenNodes.close_dayNode r (rest.foldl (OpenNodes.add r) (.first r [] row))
    rw [sortResults,run,List.foldlM_cons,opened]
    simp only [Option.bind_eq_bind,Option.bind_some,passed,Option.map_some,OpenNodes.finish_pass]
    have same : (dayLevel r).nodes (row :: rest) =
        (rest.foldl (OpenNodes.add r) (.first r [] row)).close.nodes := by
      rw [Level.nodes,List.foldl_cons]
      rw [show (dayLevel r).continueLast [] row = (OpenNodes.first r [] row).nodes from rfl,← nodes,
        OpenNodes.nodes,Level.closeLast_concat,closed]
      rfl
    rw [Tree.ofRows,Viewer.sortResults,same]

/-! ## The tree as a grouping of the rows -/

def Text.detached (text : Text F) : Text F := { text with ownerIdx := 0 }

/-- The tree has the texts of the rows in their order, its nodes know their places and parents, none
is empty, neighbours differ in their numbers, and the name of a frame ends in its number of texts. -/
structure Tree.Groups (t : Tree F) (rows : List (Row F)) : Prop where
  texts : (t.frames.flatMap Frame.texts).map Text.detached = rows.map (Text.ofRow 0)
  indexed : t.Indexed
  textPlaces : ∀ f ∈ t.frames, f.texts ≠ [] ∧ f.texts.map Text.ownerIdx = List.range f.texts.length
  days : (t.days.map Day.number).IsChain (· ≠ ·)
  hours : ∀ day ∈ t.days, (day.hours.map Hour.number).IsChain (· ≠ ·)
  minutes : ∀ day ∈ t.days, ∀ hour ∈ day.hours, (hour.minutes.map Minute.number).IsChain (· ≠ ·)
  frames : ∀ day ∈ t.days, ∀ hour ∈ day.hours, ∀ minute ∈ hour.minutes,
    (minute.frames.map Frame.number).IsChain (· ≠ ·)
  names : ∀ f ∈ t.frames, f.name = toString f.number ++ " - " ++ toString f.texts.length

namespace Tree

variable (r : Recordings) (generation : Nat) (rows : List (Row F))

theorem ofRows_texts :
    ((ofRows r generation rows).frames.flatMap Frame.texts).map Text.detached =
      rows.map (Text.ofRow 0) := by
  have texts := map_frames r generation rows Frame.texts fun _ => rfl
  have run : ∀ run ∈ runs r.key rows, (frameOf 0 run).texts.map Text.detached =
      run.map (Text.ofRow 0) := by
    intro run member
    obtain ⟨first,rest,rfl⟩ := List.exists_cons_of_ne_nil (runs_ne_nil member)
    rw [(frameOf_eq (List.head?_cons (a := first) (l := rest))).1]
    exact map_mapIdx fun _ _ _ => rfl
  calc ((ofRows r generation rows).frames.flatMap Frame.texts).map Text.detached
    _ = (((Viewer.frames (sortResults r generation rows)).map Frame.texts).flatten).map Text.detached := rfl
    _ = (runs r.key rows).flatMap fun run => (frameOf 0 run).texts.map Text.detached := by
      rw [texts,← List.flatMap_def,List.map_flatMap]
    _ = (runs r.key rows).flatMap fun run => run.map (Text.ofRow 0) := List.flatMap_congr run
    _ = rows.map (Text.ofRow 0) := by
      rw [List.flatMap_def,← List.map_flatten,flatten_runs]

/-- Each frame is, apart from its place, the one of a run of rows. -/
theorem exists_frameOf {f : Frame F} (member : f ∈ (ofRows r generation rows).frames) :
    ∃ run first, run.head? = some first ∧ f.detached = (frameOf 0 run).detached := by
  have inside : f.detached ∈ (Viewer.frames (sortResults r generation rows)).map Frame.detached :=
    List.mem_map_of_mem member
  rw [frames_sortResults] at inside
  obtain ⟨run,here,same⟩ := List.mem_map.mp inside
  obtain ⟨first,rest,rfl⟩ := List.exists_cons_of_ne_nil (runs_ne_nil here)
  exact ⟨first :: rest,first,rfl,same.symm⟩

theorem ofRows_textPlaces {f : Frame F} (member : f ∈ (ofRows r generation rows).frames) :
    f.texts ≠ [] ∧ f.texts.map Text.ownerIdx = List.range f.texts.length := by
  obtain ⟨run,first,head,same⟩ := exists_frameOf r generation rows member
  have texts : f.detached.texts = run.mapIdx Text.ofRow := by
    rw [same]
    exact (frameOf_eq head).1
  change f.texts = _ at texts
  rw [texts]
  constructor
  · rintro none
    obtain rfl := List.mapIdx_eq_nil_iff.mp none
    cases head
  · refine List.ext_getElem (by simp) fun i _ _ => ?_
    simp [Text.ofRow]

theorem ofRows_name {f : Frame F} (member : f ∈ (ofRows r generation rows).frames) :
    f.name = toString f.number ++ " - " ++ toString f.texts.length := by
  obtain ⟨run,first,head,same⟩ := exists_frameOf r generation rows member
  have named : (frameOf 0 run).name =
      toString (frameOf 0 run).number ++ " - " ++ toString (frameOf 0 run).texts.length := by
    rw [frameOf,build_frame 0 head]
    rfl
  change f.detached.name = toString f.detached.number ++ " - " ++ toString f.detached.texts.length
  rw [same]
  exact named

theorem ofRows_days : ((ofRows r generation rows).days.map Day.number).IsChain (· ≠ ·) := by
  rw [ofRows,sortResults,assignOwners,map_mapIdx (h := Day.number)]
  · exact (dayLevel r).nodes_isChain (fun _ => rfl) rows
  · exact fun _ _ _ => rfl

theorem ofRows_hours {d : Nat} {day : Day F} (there : (ofRows r generation rows).days[d]? = some day) :
    (day.hours.map Hour.number).IsChain (· ≠ ·) := by
  obtain ⟨node,atNode,_,hours⟩ := ofRows_day there
  obtain ⟨_,run,_,built⟩ := day_node atNode
  rw [hours,map_mapIdx (h := Hour.number),built]
  · exact hourLevel.nodes_isChain (fun _ => rfl) run
  · exact fun _ _ _ => rfl

theorem ofRows_minutes {d h : Nat} {hour : Hour F}
    (there : (ofRows r generation rows).hourAt d h = some hour) :
    (hour.minutes.map Minute.number).IsChain (· ≠ ·) := by
  obtain ⟨_,node,atNode,_,_,minutes⟩ := ofRows_hour there
  obtain ⟨_,run,_,built⟩ := hour_node atNode
  rw [minutes,map_mapIdx (h := Minute.number),built]
  · exact minuteLevel.nodes_isChain (fun _ => rfl) run
  · exact fun _ _ _ => rfl

theorem ofRows_frames {d h m : Nat} {minute : Minute F}
    (there : (ofRows r generation rows).minuteAt d h m = some minute) :
    (minute.frames.map Frame.number).IsChain (· ≠ ·) := by
  obtain ⟨_,node,atNode,_,_,frames⟩ := ofRows_minute there
  obtain ⟨_,run,_,built⟩ := minute_node atNode
  rw [frames,List.map_map,built]
  exact frameLevel.nodes_isChain (fun _ => rfl) run

theorem ofRows_groups : (ofRows r generation rows).Groups rows where
  texts := ofRows_texts r generation rows
  indexed := ofRows_indexed r generation rows
  textPlaces _ member := ofRows_textPlaces r generation rows member
  days := ofRows_days r generation rows
  hours day member := by
    obtain ⟨d,atDay⟩ := List.mem_iff_getElem?.mp member
    exact ofRows_hours r generation rows atDay
  minutes day member hour within := by
    obtain ⟨d,atDay⟩ := List.mem_iff_getElem?.mp member
    obtain ⟨h,atHour⟩ := List.mem_iff_getElem?.mp within
    exact ofRows_minutes r generation rows ((hourAt_eq atDay h).trans atHour)
  frames day member hour within minute lowest := by
    obtain ⟨d,atDay⟩ := List.mem_iff_getElem?.mp member
    obtain ⟨h,atHour⟩ := List.mem_iff_getElem?.mp within
    obtain ⟨m,atMinute⟩ := List.mem_iff_getElem?.mp lowest
    exact ofRows_frames r generation rows
      ((minuteAt_eq ((hourAt_eq atDay h).trans atHour) m).trans atMinute)
  names _ member := ofRows_name r generation rows member

end Tree

/-- The pass over any rows ends with a tree that groups them. -/
theorem ResultPass.groups_rows (r : Recordings) (generation : Nat) (rows : List (Row F)) :
    ∃ t, ResultPass.sortResults r generation rows = some t ∧ t.Groups rows :=
  ⟨_,sortResults_eq r generation rows,Tree.ofRows_groups r generation rows⟩

end OcrSuite.Viewer
