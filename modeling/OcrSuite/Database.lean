import OcrSuite.Interning
import OcrSuite.Script

/-! The result database at the current version: the recognised words as rows that refer to
their texts by id, and the checkpoint of the frame that was reached last. A C++ `int` is an
`Int32`, a 64-bit number of the program or the database is an `Int`. -/
namespace OcrSuite

open Interning Script

/-- How values pass between the program and SQLite columns, and the `LIKE` operator. `F` is
the C++ `float` without NaN, which SQLite binds as null, and `R` the `FLOAT` column type. A
column that is read may be null. -/
structure Driver (F R : Type) where
  bindFloat : F → R
  getFloat : Option R → F
  getInt : Option Int → Int32
  like : String → String → Bool
  float_kept : ∀ c, getFloat (some (bindFloat c)) = c
  int_kept : ∀ n : Int32, getInt (some n.toInt) = n

/-- Confidences that are whole numbers, patterns without wildcards. -/
def Driver.exact : Driver Int Int where
  bindFloat c := c
  getFloat c := c.getD 0
  getInt n := Int32.ofInt (n.getD 0)
  like pattern text := pattern = text
  float_kept _ := rfl
  int_kept n := Int32.ofInt_toInt n

/-- The number fits a C++ `int`. -/
def FitsInt (n : Int) : Prop := Int32.minValue.toInt ≤ n ∧ n ≤ Int32.maxValue.toInt

instance (n : Int) : Decidable (FitsInt n) := inferInstanceAs (Decidable (_ ∧ _))

theorem FitsInt.kept {n : Int} (fits : FitsInt n) : (Int32.ofInt n).toInt = n :=
  Int32.toInt_ofInt_of_le fits.1 (Int.lt_add_one_of_le fits.2)

theorem Driver.getInt_eq {F R : Type} (driver : Driver F R) {n : Int} (fits : FitsInt n) :
    driver.getInt (some n) = Int32.ofInt n := by
  rw [← driver.int_kept (Int32.ofInt n),fits.kept]

/-- `text_entry`, a recognised text with its box. -/
structure TextEntry (F : Type) where
  left : Int32
  top : Int32
  right : Int32
  bottom : Int32
  confidence : F
  text : String
  deriving DecidableEq

structure OcrResult (F : Type) where
  frameNumber : Int
  entries : List (TextEntry F)
  deriving DecidableEq

structure SearchEntry (F : Type) where
  frameNumber : Int32
  text : String
  left : Int32
  top : Int32
  right : Int32
  bottom : Int32
  confidence : F
  deriving DecidableEq

/-- A row of `text_instances`; the row's own id is kept by its table. -/
structure TextInstance (R : Type) where
  textEntryId : Nat
  frameNum : Int
  left : Option Int
  top : Option Int
  right : Option Int
  bottom : Option Int
  confidence : Option R
  deriving DecidableEq

/-- A row of `ocr_entries`, the layout up to version 3, and of the join that replaces it. -/
structure OcrRow (R : Type) where
  frameNum : Int
  left : Option Int
  top : Option Int
  right : Option Int
  bottom : Option Int
  confidence : Option R
  ocrText : String
  deriving DecidableEq

variable {F R : Type}

/-- The columns of a selected row as the program reads them. -/
def SearchEntry.read (driver : Driver F R) (row : OcrRow R) : SearchEntry F where
  frameNumber := driver.getInt (some row.frameNum)
  left := driver.getInt row.left
  top := driver.getInt row.top
  right := driver.getInt row.right
  bottom := driver.getInt row.bottom
  confidence := driver.getFloat row.confidence
  text := row.ocrText

structure TextTables (R : Type) where
  textEntries : Dictionary String
  textInstances : Table (TextInstance R)
  deriving DecidableEq

/-- An open database; `metadata` has a single row. -/
structure Store (R : Type) extends TextTables R where
  lastProcessedFrame : Int
  deriving DecidableEq

namespace TextTables

def empty : TextTables R := ⟨.empty,.empty⟩

def addTextEntry (text : String) (t : TextTables R) : TextTables R :=
  { t with textEntries := t.textEntries.insertOrIgnore text }

def getTextEntryId (t : TextTables R) (text : String) : Option Nat := t.textEntries.idOf text

/-- The row is built from the id of its text, which has to be there. -/
def addTextInstance (text : String) (row : Nat → TextInstance R) (t : TextTables R) :
    Option (TextTables R) :=
  (t.getTextEntryId text).map fun id => { t with textInstances := t.textInstances.insert (row id) }

/-- `SELECT COUNT(*) ... WHERE frame_num = :pnum`, read as a `bool`. -/
def isFrameProcessed (t : TextTables R) (frameNum : Int) : Bool :=
  (t.textInstances.values.filter fun row => row.frameNum = frameNum).length != 0

def joinRow (row : TextInstance R × String) : OcrRow R :=
  ⟨row.1.frameNum,row.1.left,row.1.top,row.1.right,row.1.bottom,row.1.confidence,row.2⟩

/-- The instances joined with the entries on `text_entry_id`. -/
def join (t : TextTables R) : List (OcrRow R) :=
  (t.textEntries.join TextInstance.textEntryId t.textInstances.values).map joinRow

/-- The `LEFT JOIN` of the search: an instance without an entry has a null value. -/
def leftJoin (t : TextTables R) : List (TextInstance R × Option String) :=
  t.textInstances.values.flatMap fun row =>
    match t.textEntries.resolve row.textEntryId with
    | [] => [(row,none)]
    | values => values.map fun value => (row,some value)

/-- `LIKE` on a null value is null, which the `WHERE` clause drops. -/
def findText (driver : Driver F R) (t : TextTables R) (pattern : String) : List (SearchEntry F) :=
  t.leftJoin.filterMap fun (row,value) => value.bind fun text =>
    if driver.like pattern text then some (.read driver (joinRow (row,text))) else none

end TextTables

namespace Store

/-- A database that has just been created. -/
def fresh : Store R := { TextTables.empty with lastProcessedFrame := 0 }

def getStartingFrameNumber (s : Store R) : Int := s.lastProcessedFrame + 1

/-- The row that `store` binds for an entry of the result. -/
def instanceOf (driver : Driver F R) (frameNumber : Int) (entry : TextEntry F) (textId : Nat) :
    TextInstance R where
  textEntryId := textId
  frameNum := frameNumber
  left := some entry.left.toInt
  top := some entry.top.toInt
  right := some entry.right.toInt
  bottom := some entry.bottom.toInt
  confidence := some (driver.bindFloat entry.confidence)

/-- The statements for one entry of the result. -/
def storeEntry (driver : Driver F R) (frameNumber : Int) (entry : TextEntry F) :
    List (Statement (Store R)) :=
  [fun s => some { s with toTextTables := s.addTextEntry entry.text },
    fun s => (s.addTextInstance entry.text (instanceOf driver frameNumber entry)).map
      fun tables => { s with toTextTables := tables }]

def storeScript (driver : Driver F R) (result : OcrResult F) : List (Command (Store R)) :=
  transaction (result.entries.flatMap (storeEntry driver result.frameNumber))

/-- The section of `store` under the mutex. The flag says whether it returned normally; the
statement at the position `fault` of the transaction throws. -/
def storeEntries (driver : Driver F R) (result : OcrResult F) (fault : Option Nat) (s : Store R) :
    Store R × Bool :=
  if s.isFrameProcessed result.frameNumber then (s,true)
  else attempt fault (storeScript driver result) s

end Store

/-- A process with the database open. `maxFrameNumber` is its static variable. -/
structure Process (R : Type) where
  store : Store R
  maxFrameNumber : Int
  deriving DecidableEq

namespace Process

/-- The variable is fresh in every process. -/
def start (s : Store R) : Process R := ⟨s,-1⟩

def storeLastFrameNumber (p : Process R) (frameNum : Int) : Process R :=
  if frameNum ≤ p.maxFrameNumber then p
  else ⟨{ p.store with lastProcessedFrame := frameNum },frameNum⟩

def storeEntries (driver : Driver F R) (p : Process R) (result : OcrResult F) (fault : Option Nat) :
    Process R × Bool :=
  let (store,finished) := p.store.storeEntries driver result fault
  ({ p with store := store },finished)

/-- A call of `store` that nothing interrupts. -/
def storeResult (driver : Driver F R) (p : Process R) (result : OcrResult F) : Process R :=
  let checked := p.storeLastFrameNumber result.frameNumber
  if result.entries.isEmpty then checked else (checked.storeEntries driver result none).1

end Process

end OcrSuite
