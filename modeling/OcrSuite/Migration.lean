import OcrSuite.DatabaseStore

/-! The updates from the older schemas, statement by statement, and the versions of the
database they lead through. An update that returns without an error has its version recorded
by a statement of its own. -/
namespace OcrSuite

open Interning Script

variable {F R : Type}

structure MetadataRow where
  version : Nat
  lastProcessedFrame : Int
  deriving DecidableEq

/-- Before the column is added, the rows' last frames mean nothing. -/
structure Metadata where
  rows : List MetadataRow
  hasLastProcessedFrame : Bool
  deriving DecidableEq

inductive Index where
  | frameNumbersIdx
  | frameTextIdx
  | textEntriesValueIdx
  | textInstancesFrameNumIdx
  deriving DecidableEq

/-- A database file of any version. `ocr_entries` is kept in the order of its row ids. -/
structure Disk (R : Type) where
  metadata : Option Metadata
  ocrEntries : Option (List (OcrRow R))
  textEntries : Option (Dictionary String)
  textInstances : Option (Table (TextInstance R))
  indices : List Index
  deriving DecidableEq

namespace Disk

def empty : Disk R := ⟨none,none,none,none,[]⟩

/-- Creating what exists already is an error, and so is the use of what does not. -/
def createMetadata : Statement (Disk R) := fun d =>
  match d.metadata with
  | some _ => none
  | none => some { d with metadata := some ⟨[],false⟩ }

def insertMetadata (version : Nat) : Statement (Disk R) := fun d =>
  d.metadata.map fun m => { d with metadata := some { m with rows := m.rows ++ [⟨version,0⟩] } }

def createOcrEntries : Statement (Disk R) := fun d =>
  match d.ocrEntries with
  | some _ => none
  | none => some { d with ocrEntries := some [] }

def createTextEntries : Statement (Disk R) := fun d =>
  match d.textEntries with
  | some _ => none
  | none => some { d with textEntries := some .empty }

def createTextInstances : Statement (Disk R) := fun d =>
  match d.textInstances with
  | some _ => none
  | none => some { d with textInstances := some .empty }

/-- Whether the table of the index is there. -/
def indexed (d : Disk R) : Index → Bool
  | .frameNumbersIdx | .frameTextIdx => d.ocrEntries.isSome
  | .textEntriesValueIdx => d.textEntries.isSome
  | .textInstancesFrameNumIdx => d.textInstances.isSome

def createIndex (index : Index) : Statement (Disk R) := fun d =>
  if index ∈ d.indices || !d.indexed index then none
  else some { d with indices := d.indices ++ [index] }

/-- `ALTER TABLE metadata ADD COLUMN last_processed_frame INT DEFAULT(0)`. -/
def addLastProcessedFrame : Statement (Disk R) := fun d =>
  d.metadata.bind fun m =>
    if m.hasLastProcessedFrame then none
    else some { d with metadata := some {
      rows := m.rows.map fun row => { row with lastProcessedFrame := 0 }
      hasLastProcessedFrame := true } }

def setLastProcessedFrame (frame : Int) : Statement (Disk R) := fun d =>
  d.metadata.bind fun m =>
    if m.hasLastProcessedFrame then
      some { d with metadata := some { m with
        rows := m.rows.map fun row => { row with lastProcessedFrame := frame } } }
    else none

/-- A `SELECT` from `ocr_entries` changes nothing. -/
def selectOcrEntries : Statement (Disk R) := fun d => d.ocrEntries.map fun _ => d

def addTextEntry (text : String) : Statement (Disk R) := fun d =>
  d.textEntries.map fun entries => { d with textEntries := some (entries.insertOrIgnore text) }

def addTextInstance (text : String) (row : Nat → TextInstance R) : Statement (Disk R) := fun d =>
  d.textEntries.bind fun entries => d.textInstances.bind fun instances =>
    (TextTables.addTextInstance text row ⟨entries,instances⟩).map fun t =>
      { d with textInstances := some t.textInstances }

/-- The indices of a table go with it. -/
def dropOcrEntries : Statement (Disk R) := fun d =>
  d.ocrEntries.map fun _ => { d with
    ocrEntries := none
    indices := d.indices.filter fun index => index ≠ .frameNumbersIdx ∧ index ≠ .frameTextIdx }

def vacuum : Statement (Disk R) := fun d => some d

/-- The version that is stored, 0 without a table for it. -/
def version (d : Disk R) : Nat :=
  ((d.metadata.bind fun m => m.rows.head?).map MetadataRow.version).getD 0

def recordVersion (version : Nat) : Statement (Disk R) := fun d =>
  d.metadata.map fun m => { d with
    metadata := some { m with rows := m.rows.map fun row => { row with version := version } } }

end Disk

/-! ## The updates -/

namespace Migration

open Disk

def currentDbVersion : Nat := 4

def updateV0 : List (Command (Disk R)) :=
  transaction [createMetadata,insertMetadata 0,createOcrEntries]

def updateV1 : List (Command (Disk R)) :=
  transaction [createIndex .frameNumbersIdx,createIndex .frameTextIdx]

/-- `SELECT MAX(frame_num) FROM ocr_entries`, 0 where that is null. -/
def currentMax (d : Disk R) : Int :=
  (((d.ocrEntries.getD []).map OcrRow.frameNum).max?).getD 0

def updateV2 (d : Disk R) : List (Command (Disk R)) :=
  [.execute selectOcrEntries] ++ transaction [addLastProcessedFrame] ++
    [.execute (setLastProcessedFrame (currentMax d))]

/-- The row that is bound for an entry that has been read. -/
def instanceOf (driver : Driver F R) (e : SearchEntry F) (textId : Nat) : TextInstance R where
  textEntryId := textId
  frameNum := e.frameNumber.toInt
  left := some e.left.toInt
  top := some e.top.toInt
  right := some e.right.toInt
  bottom := some e.bottom.toInt
  confidence := some (driver.bindFloat e.confidence)

def migrateOneEntry (driver : Driver F R) (row : OcrRow R) : List (Statement (Disk R)) :=
  let e := SearchEntry.read driver row
  [addTextEntry e.text,addTextInstance e.text (instanceOf driver e)]

def schemaUpdate : List (Statement (Disk R)) :=
  [createTextEntries,createIndex .textEntriesValueIdx,createTextInstances,
    createIndex .textInstancesFrameNumIdx]

def updateV3Safe (driver : Driver F R) (d : Disk R) : List (Statement (Disk R)) :=
  schemaUpdate ++ [selectOcrEntries] ++ (d.ocrEntries.getD []).flatMap (migrateOneEntry driver)

def updateV3 (driver : Driver F R) (d : Disk R) : List (Command (Disk R)) :=
  transaction (updateV3Safe driver d) ++ [.execute dropOcrEntries,.execute vacuum]

/-- The commands of the update from a version; there is none from other versions. -/
def dbUpdate (driver : Driver F R) (d : Disk R) : Nat → Option (List (Command (Disk R)))
  | 0 => some updateV0
  | 1 => some updateV1
  | 2 => some (updateV2 d)
  | 3 => some (updateV3 driver d)
  | _ => none

/-- An update and the record of the version it leads to. -/
def recorded (script : List (Command (Disk R))) (version : Nat) : List (Command (Disk R)) :=
  script ++ [.execute (recordVersion (version + 1))]

/-- `count` updates from the given version on, as long as they return without an error. -/
def upgrade (driver : Driver F R) : Nat → Nat → Disk R → Disk R × Bool
  | 0,_,d => (d,true)
  | count + 1,version,d =>
    match dbUpdate driver d version with
    | none => (d,false)
    | some script =>
      match completed (recorded script version) d with
      | (d',true) => upgrade driver count (version + 1) d'
      | (d',false) => (d',false)

/-- The database file after it was opened, and whether that went without an error. -/
def openDatabase (driver : Driver F R) (d : Disk R) : Disk R × Bool :=
  upgrade driver (currentDbVersion - d.version) d.version d

/-- What is left of the updates when they stop before the command at `point`, counted from
the first command of the first of them. -/
def stoppedUpgrade (driver : Driver F R) : Nat → Nat → Nat → Disk R → Disk R
  | 0,_,_,d => d
  | count + 1,point,version,d =>
    match dbUpdate driver d version with
    | none => d
    | some script =>
      let steps := recorded script version
      if point < steps.length then stoppedAt point steps d
      else match completed steps d with
        | (d',true) => stoppedUpgrade driver count (point - steps.length) (version + 1) d'
        | (d',false) => d'

def stoppedOpen (driver : Driver F R) (point : Nat) (d : Disk R) : Disk R :=
  stoppedUpgrade driver (currentDbVersion - d.version) point d.version d

/-! ## The versions -/

end Migration

/-- What a database of each version holds. -/
inductive Contents (R : Type) where
  | nothing
  | entries (rows : List (OcrRow R))
  | indexed (rows : List (OcrRow R))
  | checkpointed (rows : List (OcrRow R)) (lastProcessedFrame : Int)
  | normalised (store : Store R)

namespace Contents

def version : Contents R → Nat
  | .nothing => 0
  | .entries _ => 1
  | .indexed _ => 2
  | .checkpointed _ _ => 3
  | .normalised _ => 4

def disk : Contents R → Disk R
  | .nothing => .empty
  | .entries rows => { Disk.empty with
      metadata := some ⟨[⟨1,0⟩],false⟩, ocrEntries := some rows }
  | .indexed rows => { Disk.empty with
      metadata := some ⟨[⟨2,0⟩],false⟩, ocrEntries := some rows
      indices := [.frameNumbersIdx,.frameTextIdx] }
  | .checkpointed rows last => { Disk.empty with
      metadata := some ⟨[⟨3,last⟩],true⟩, ocrEntries := some rows
      indices := [.frameNumbersIdx,.frameTextIdx] }
  | .normalised store => {
      metadata := some ⟨[⟨4,store.lastProcessedFrame⟩],true⟩
      ocrEntries := none
      textEntries := some store.textEntries
      textInstances := some store.textInstances
      indices := [.textEntriesValueIdx,.textInstancesFrameNumIdx] }

/-- The rows of `ocr_entries` in the versions that have them. -/
def legacyRows : Contents R → Option (List (OcrRow R))
  | .entries rows | .indexed rows | .checkpointed rows _ => some rows
  | _ => none

def migrateRow (driver : Driver F R) (t : TextTables R) (row : OcrRow R) : TextTables R :=
  let e := SearchEntry.read driver row
  (t.insertEntry e.text (Migration.instanceOf driver e)).getD t

def migrated (driver : Driver F R) (rows : List (OcrRow R)) : TextTables R :=
  rows.foldl (migrateRow driver) .empty

/-- What each update makes of a version. -/
def next (driver : Driver F R) : Contents R → Contents R
  | .nothing => .entries []
  | .entries rows => .indexed rows
  | .indexed rows => .checkpointed rows ((rows.map OcrRow.frameNum).max?.getD 0)
  | .checkpointed rows last => .normalised { migrated driver rows with lastProcessedFrame := last }
  | .normalised store => .normalised store

end Contents

namespace Migration

open Disk

/-- The migration of the rows, on a disk where the new tables are there. -/
theorem applyAll_migrate (driver : Driver F R) (rows : List (OcrRow R)) {d : Disk R} {t : TextTables R}
    (entries : d.textEntries = some t.textEntries) (instances : d.textInstances = some t.textInstances) :
    applyAll (rows.flatMap (migrateOneEntry driver)) d = some { d with
      textEntries := some (rows.foldl (Contents.migrateRow driver) t).textEntries
      textInstances := some (rows.foldl (Contents.migrateRow driver) t).textInstances } := by
  induction rows generalizing d t with
  | nil => simp [applyAll,← entries,← instances]
  | cons row rows ih =>
    let e := SearchEntry.read driver row
    obtain ⟨id,_,inserted⟩ := t.exists_insertEntry e.text (instanceOf driver e)
    have moved : Contents.migrateRow driver t row =
        ⟨t.textEntries.insertOrIgnore e.text,t.textInstances.insert (instanceOf driver e id)⟩ := by
      simp [Contents.migrateRow,e,inserted]
    have first : applyAll (migrateOneEntry driver row) d = some { d with
        textEntries := some (Contents.migrateRow driver t row).textEntries
        textInstances := some (Contents.migrateRow driver t row).textInstances } := by
      rw [moved]
      simp only [TextTables.insertEntry,TextTables.addTextEntry] at inserted
      simp [applyAll,migrateOneEntry,addTextEntry,addTextInstance,entries,instances,e,inserted]
    rw [List.flatMap_cons,applyAll_append,first]
    exact ih rfl rfl

theorem applyAll_updateV3Safe (driver : Driver F R) (rows : List (OcrRow R)) (last : Int) :
    applyAll (updateV3Safe driver (Contents.checkpointed rows last).disk)
      (Contents.checkpointed rows last).disk = some {
        metadata := some ⟨[⟨3,last⟩],true⟩
        ocrEntries := some rows
        textEntries := some (Contents.migrated driver rows).textEntries
        textInstances := some (Contents.migrated driver rows).textInstances
        indices := [.frameNumbersIdx,.frameTextIdx,.textEntriesValueIdx,.textInstancesFrameNumIdx] } := by
  unfold updateV3Safe
  rw [applyAll_append]
  exact applyAll_migrate driver rows (t := .empty) rfl rfl

/-- Every update leads from its version to the next one. -/
theorem update_completes (driver : Driver F R) {c : Contents R} (older : c.version < currentDbVersion) :
    ∃ script, dbUpdate driver c.disk c.version = some script ∧
      completed (recorded script c.version) c.disk = ((c.next driver).disk,true) := by
  cases c with
  | nothing => exact ⟨_,rfl,rfl⟩
  | entries rows => exact ⟨_,rfl,rfl⟩
  | indexed rows => exact ⟨_,rfl,rfl⟩
  | checkpointed rows last =>
    refine ⟨_,rfl,?_⟩
    rw [recorded,updateV3,List.append_assoc,
      completed_transaction (applyAll_updateV3Safe driver rows last)]
    rfl
  | normalised store => exact absurd older (by simp [Contents.version,currentDbVersion])

theorem version_disk (c : Contents R) : c.disk.version = c.version := by
  cases c <;> rfl

theorem version_next (driver : Driver F R) {c : Contents R} (older : c.version < currentDbVersion) :
    (c.next driver).version = c.version + 1 := by
  cases c with
  | normalised store => exact absurd older (by simp [Contents.version,currentDbVersion])
  | _ => rfl

theorem upgrade_completes (driver : Driver F R) (count : Nat) (c : Contents R)
    (left : c.version + count = currentDbVersion) :
    upgrade driver count c.version c.disk = (((Contents.next driver)^[count] c).disk,true) := by
  induction count generalizing c with
  | zero => rfl
  | succ count ih =>
    have older : c.version < currentDbVersion := by omega
    obtain ⟨script,update,done⟩ := update_completes driver older
    have nextVersion := version_next driver older
    have rest := ih (c.next driver) (by omega)
    rw [nextVersion] at rest
    simpa [upgrade,update,done] using rest

theorem version_le (c : Contents R) : c.version ≤ currentDbVersion := by
  cases c <;> simp [Contents.version,currentDbVersion]

/-- An update that nothing interrupts ends at the current version. -/
theorem open_completes (driver : Driver F R) (c : Contents R) : openDatabase driver c.disk =
    (((Contents.next driver)^[currentDbVersion - c.version] c).disk,true) := by
  rw [openDatabase,version_disk]
  exact upgrade_completes driver _ c (Nat.add_sub_of_le (version_le c))

/-- A new file becomes the empty database with its checkpoint at 0. -/
theorem open_empty (driver : Driver F R) :
    openDatabase driver .empty = ((Contents.normalised Store.fresh).disk,true) :=
  open_completes driver .nothing

/-! ## What the chain of updates keeps -/

/-- The column is not null and fits the variable it is read into. -/
def FitsColumn (column : Option Int) : Prop := ∃ n, column = some n ∧ FitsInt n

structure Fits (row : OcrRow R) : Prop where
  frameNum : FitsInt row.frameNum
  left : FitsColumn row.left
  top : FitsColumn row.top
  right : FitsColumn row.right
  bottom : FitsColumn row.bottom

/-- What is read from such a column and bound again is the same. -/
theorem FitsColumn.kept {column : Option Int} (driver : Driver F R) (fits : FitsColumn column) :
    some (driver.getInt column).toInt = column := by
  obtain ⟨n,rfl,fits⟩ := fits
  rw [driver.getInt_eq fits,fits.kept]

/-- The row with its confidence as it comes back from a `float`. -/
def throughFloat (driver : Driver F R) (row : OcrRow R) : OcrRow R :=
  { row with confidence := some (driver.bindFloat (driver.getFloat row.confidence)) }

theorem throughFloat_of_float (driver : Driver F R) {row : OcrRow R} {c : F}
    (float : row.confidence = some (driver.bindFloat c)) : throughFloat driver row = row := by
  rw [throughFloat,float,driver.float_kept,← float]

theorem migrateRow_refines (driver : Driver F R) {t : TextTables R} {rows : List (OcrRow R)}
    (refines : t.Refines rows) {row : OcrRow R} (fits : Fits row) :
    (Contents.migrateRow driver t row).Refines (rows ++ [throughFloat driver row]) := by
  have joins : ∀ id, TextTables.joinRow (instanceOf driver (SearchEntry.read driver row) id,
      row.ocrText) = throughFloat driver row := by
    simp [TextTables.joinRow,instanceOf,SearchEntry.read,throughFloat,driver.getInt_eq fits.frameNum,
      fits.frameNum.kept,fits.left.kept,fits.top.kept,fits.right.kept,fits.bottom.kept]
  obtain ⟨t',inserted,refined⟩ := refines.insertEntry (fun _ => rfl) joins
  have text : (SearchEntry.read driver row).text = row.ocrText := rfl
  simpa [Contents.migrateRow,text,inserted] using refined

theorem migrated_refines (driver : Driver F R) {rows : List (OcrRow R)}
    (fits : ∀ row ∈ rows, Fits row) :
    (Contents.migrated driver rows).Refines (rows.map (throughFloat driver)) := by
  suffices general : ∀ (t : TextTables R) before, t.Refines before →
      (rows.foldl (Contents.migrateRow driver) t).Refines (before ++ rows.map (throughFloat driver)) from
    general .empty [] TextTables.empty_refines
  induction rows with
  | nil => simp
  | cons row rows ih =>
    intro t before refines
    have first := migrateRow_refines driver refines (fits row List.mem_cons_self)
    have rest := ih (fun other member => fits other (List.mem_cons_of_mem row member)) _ _ first
    simpa using rest

/-- The checkpoint that a database of an older version ends with. -/
def finalFrame : Contents R → Int
  | .nothing => 0
  | .entries rows | .indexed rows => (rows.map OcrRow.frameNum).max?.getD 0
  | .checkpointed _ last => last
  | .normalised store => store.lastProcessedFrame

theorem open_legacy (driver : Driver F R) {c : Contents R} {rows : List (OcrRow R)}
    (legacy : c.legacyRows = some rows) : openDatabase driver c.disk =
      ((Contents.normalised { Contents.migrated driver rows with
        lastProcessedFrame := finalFrame c }).disk,true) := by
  rw [open_completes]
  cases c <;> simp only [Contents.legacyRows,Option.some.injEq,reduceCtorEq] at legacy <;>
    subst legacy <;> rfl

theorem normalised_injective {s s' : Store R}
    (same : (Contents.normalised s).disk = (Contents.normalised s').disk) : s = s' := by
  obtain ⟨⟨entries,instances⟩,last⟩ := s
  obtain ⟨⟨entries',instances'⟩,last'⟩ := s'
  simp only [Contents.disk,Disk.mk.injEq,Option.some.injEq,Metadata.mk.injEq,List.cons.injEq,
    MetadataRow.mk.injEq,true_and,and_true] at same
  simp [same]

/-- Confidences from 1 up to 2, counted in units of the last places of single and of double
precision: 2^29 of these fall on one of those, and the nearest is taken. -/
def roundingDriver : Driver Int Int where
  bindFloat c := c * 536870912
  getFloat c := (c.getD 0 + 268435456) / 536870912
  getInt n := Int32.ofInt (n.getD 0)
  like pattern text := pattern = text
  float_kept c := by
    simp only [Option.getD_some]
    omega
  int_kept n := Int32.ofInt_toInt n

/-- The double 1 + 2^-30 is no float and comes back as 1. -/
theorem confidence_rounded : ¬ ∀ (driver : Driver Int Int) (rows : List (OcrRow Int)),
    (∀ row ∈ rows, Fits row) → ∃ s : Store Int,
      openDatabase driver (Contents.entries rows).disk = ((Contents.normalised s).disk,true) ∧
      s.join.Perm rows := by
  intro claim
  let row : OcrRow Int := ⟨1,some 2,some 3,some 4,some 5,some 4503599631564800,"a"⟩
  have fits : ∀ r ∈ [row], Fits r := by
    intro r member
    obtain rfl := List.mem_singleton.mp member
    exact ⟨by decide,⟨2,rfl,by decide⟩,⟨3,rfl,by decide⟩,⟨4,rfl,by decide⟩,⟨5,rfl,by decide⟩⟩
  obtain ⟨s,opened,kept⟩ := claim roundingDriver [row] fits
  rw [open_legacy roundingDriver rfl] at opened
  obtain rfl := normalised_injective (Prod.mk.inj opened).1
  have joined := (migrated_refines roundingDriver fits).joined
  rw [joined] at kept
  have confidence := kept.map OcrRow.confidence
  simp [throughFloat,roundingDriver,row] at confidence

/-- Every update chain from the versions 1 to 3 keeps the rows, with their confidences as a
`float` holds them, each text once, the processed frames, and the frame to start from. -/
theorem migration_preserves (driver : Driver F R) (c : Contents R) (rows : List (OcrRow R))
    (legacy : c.legacyRows = some rows) (fits : ∀ row ∈ rows, Fits row) :
    ∃ s : Store R, openDatabase driver c.disk = ((Contents.normalised s).disk,true) ∧
      s.join.Perm (rows.map (throughFloat driver)) ∧
      (∀ row ∈ rows, (∃ x, row.confidence = some (driver.bindFloat x)) →
        throughFloat driver row = row) ∧
      s.textEntries.values.Nodup ∧
      (∀ text, text ∈ s.textEntries.values ↔ ∃ row ∈ rows, row.ocrText = text) ∧
      (∀ f, s.isFrameProcessed f = true ↔ ∃ row ∈ rows, row.frameNum = f) ∧
      s.getStartingFrameNumber = match c with
        | .checkpointed _ last => last + 1
        | _ => 1 + (rows.map OcrRow.frameNum).max?.getD 0 := by
  have refines := migrated_refines driver fits
  refine ⟨_,open_legacy driver legacy,.of_eq refines.joined,?_,
    (Contents.migrated driver rows).textEntries.unique,?_,?_,?_⟩
  · rintro row _ ⟨x,float⟩
    exact throughFloat_of_float driver float
  · intro text
    simp [refines.texts,throughFloat]
  · intro f
    simp [refines.isFrameProcessed_iff,throughFloat]
  · cases c <;> simp only [Contents.legacyRows,Option.some.injEq,reduceCtorEq] at legacy <;>
      subst legacy <;> simp [Store.getStartingFrameNumber,finalFrame,Int.add_comm]

/-- Two rows of one text, from version 2. -/
theorem migration_preserves_witness : ∃ s : Store Int,
    openDatabase Driver.exact (Contents.indexed
      [⟨4,some 1,some 2,some 3,some 4,some 90,"a"⟩,⟨9,some 1,some 2,some 3,some 4,some 80,"a"⟩]).disk =
        ((Contents.normalised s).disk,true) ∧
    s.join.Perm
      [⟨4,some 1,some 2,some 3,some 4,some 90,"a"⟩,⟨9,some 1,some 2,some 3,some 4,some 80,"a"⟩] ∧
    s.getStartingFrameNumber = 10 := by
  let rows : List (OcrRow Int) :=
    [⟨4,some 1,some 2,some 3,some 4,some 90,"a"⟩,⟨9,some 1,some 2,some 3,some 4,some 80,"a"⟩]
  have fits : ∀ row ∈ rows, Fits row := by
    intro row member
    obtain rfl | rfl : row = ⟨4,some 1,some 2,some 3,some 4,some 90,"a"⟩ ∨
        row = ⟨9,some 1,some 2,some 3,some 4,some 80,"a"⟩ := by simpa [rows] using member
    all_goals
      exact ⟨by decide,⟨1,rfl,by decide⟩,⟨2,rfl,by decide⟩,⟨3,rfl,by decide⟩,⟨4,rfl,by decide⟩⟩
  obtain ⟨s,opened,joined,_,_,_,_,starting⟩ :=
    migration_preserves Driver.exact (.indexed rows) rows rfl fits
  exact ⟨s,opened,joined,starting⟩

end Migration

end OcrSuite
