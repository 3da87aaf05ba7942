import OcrSuite.DatabaseStore

/-! A call of `store` any of whose statements may throw: what it leaves of the checkpoint, which
is written before the transaction, and of the two tables. -/
namespace OcrSuite

open Interning Script

variable {F R : Type}

/-- The statement of a call that throws; the commands of the transaction are counted. -/
inductive StoreFault where
  | storeLastFrameNumber
  | isFrameProcessed
  | command (point : Nat)
  deriving DecidableEq

def StoreFault.point : StoreFault → Option Nat
  | .command point => some point
  | _ => none

namespace TextTables

/-- The joined rows of a frame. -/
def rowsOf (t : TextTables R) (frameNum : Int) : List (OcrRow R) :=
  t.join.filter fun row => row.frameNum = frameNum

/-- The instances of a frame refer to entries, whatever those of the others do. -/
def ResolvedIn (t : TextTables R) (frameNum : Int) : Prop :=
  ∀ row ∈ t.textInstances.values, row.frameNum = frameNum →
    ∃ text, (row.textEntryId,text) ∈ t.textEntries.rows

theorem rowsOf_eq (t : TextTables R) (frameNum : Int) :
    t.rowsOf frameNum = (t.textEntries.join TextInstance.textEntryId
      (t.textInstances.values.filter fun row => row.frameNum = frameNum)).map joinRow := by
  rw [rowsOf,join,List.filter_map,← Dictionary.filter_join]
  rfl

theorem not_processed_iff {t : TextTables R} {frameNum : Int} :
    t.isFrameProcessed frameNum = false ↔
      ∀ row ∈ t.textInstances.values, row.frameNum ≠ frameNum := by
  simp [isFrameProcessed,List.filter_eq_nil_iff]

theorem resolvedIn_of_not_processed {t : TextTables R} {frameNum : Int}
    (unseen : t.isFrameProcessed frameNum = false) : t.ResolvedIn frameNum :=
  fun row member same => absurd same (not_processed_iff.mp unseen row member)

theorem rowsOf_of_not_processed {t : TextTables R} {frameNum : Int}
    (unseen : t.isFrameProcessed frameNum = false) : t.rowsOf frameNum = [] := by
  have none : t.textInstances.values.filter (fun row => row.frameNum = frameNum) = [] := by
    simpa [List.filter_eq_nil_iff] using not_processed_iff.mp unseen
  rw [rowsOf_eq,none]
  rfl

theorem isFrameProcessed_of_rowsOf {t : TextTables R} {frameNum : Int}
    (some_ : t.rowsOf frameNum ≠ []) : t.isFrameProcessed frameNum = true := by
  obtain ⟨row,member⟩ := List.exists_mem_of_ne_nil _ some_
  obtain ⟨inside,same⟩ := List.mem_filter.mp member
  obtain rfl : row.frameNum = frameNum := by simpa using same
  exact isFrameProcessed_of_join inside

/-- An entry of the frame adds its row to those of the frame. -/
theorem ResolvedIn.insertEntry {t : TextTables R} {frameNum : Int} (resolved : t.ResolvedIn frameNum)
    {text : String} {row : Nat → TextInstance R} {joined : OcrRow R}
    (keyed : ∀ id, (row id).textEntryId = id) (frame : ∀ id, (row id).frameNum = frameNum)
    (joins : ∀ id, joinRow (row id,text) = joined) :
    ∃ t', t.insertEntry text row = some t' ∧ t'.ResolvedIn frameNum ∧
      t'.rowsOf frameNum = t.rowsOf frameNum ++ [joined] := by
  have grown := t.textEntries.rows_insertOrIgnore text
  obtain ⟨id,found,inserted⟩ := t.exists_insertEntry text row
  refine ⟨_,inserted,?_,?_⟩
  · intro inst member same
    rw [Table.values_insert] at member
    rcases List.mem_append.mp member with old | new
    · obtain ⟨value,inside⟩ := resolved inst old same
      exact ⟨value,grown.subset inside⟩
    · obtain rfl := List.mem_singleton.mp new
      exact ⟨text,by rw [keyed]; exact Dictionary.idOf_eq_some_iff.mp found⟩
  · have here : (t.textEntries.insertOrIgnore text).resolve (row id).textEntryId = [text] := by
      rw [keyed]
      exact Dictionary.resolve_of_idOf found List.prefix_rfl
    let rows := t.textInstances.values.filter fun row => row.frameNum = frameNum
    have before : (t.textEntries.insertOrIgnore text).join TextInstance.textEntryId rows =
        t.textEntries.join TextInstance.textEntryId rows := by
      refine Dictionary.join_grown grown fun inst member => ?_
      obtain ⟨inside,same⟩ := List.mem_filter.mp member
      exact resolved inst inside (by simpa using same)
    simp [rowsOf_eq,List.filter_append,frame,rows,before,Dictionary.join_singleton here,joins]

end TextTables

/-- The statements of the transaction all succeed and add the rows of the result. -/
theorem applyAll_storeScript_rowsOf (driver : Driver F R) (frameNumber : Int)
    (entries : List (TextEntry F)) {s : Store R} (resolved : s.ResolvedIn frameNumber) :
    ∃ tables : TextTables R,
      applyAll (entries.flatMap (Store.storeEntry driver frameNumber)) s =
        some { s with toTextTables := tables } ∧
      tables.rowsOf frameNumber =
        s.rowsOf frameNumber ++ entries.map fun entry => Word.row driver ⟨frameNumber,entry⟩ := by
  induction entries generalizing s with
  | nil => exact ⟨s.toTextTables,rfl,by simp⟩
  | cons entry entries ih =>
    obtain ⟨next,inserted,still,added⟩ := resolved.insertEntry (fun _ => rfl) (fun _ => rfl)
      (join_row driver frameNumber entry)
    obtain ⟨last,applied,rows⟩ := ih (s := { s with toTextTables := next }) still
    refine ⟨last,?_,?_⟩
    · simp [applyAll_append,applyAll_storeEntry,inserted,applied]
    · simp [rows,added]

namespace Process

/-- The flag says whether the call returned; no statement is executed for a number that is not
above the static variable. -/
def tryStoreLastFrameNumber (p : Process R) (frameNum : Int) (throws : Bool) : Process R × Bool :=
  if throws ∧ p.maxFrameNumber < frameNum then (p,false)
  else (p.storeLastFrameNumber frameNum,true)

/-- `store`, with the statement that throws. -/
def tryStoreResult (driver : Driver F R) (p : Process R) (result : OcrResult F)
    (fault : Option StoreFault) : Process R × Bool :=
  let recorded :=
    p.tryStoreLastFrameNumber result.frameNumber (fault = some .storeLastFrameNumber)
  if !recorded.2 || result.entries.isEmpty then recorded
  else if fault = some .isFrameProcessed then (recorded.1,false)
  else recorded.1.storeEntries driver result (fault.bind StoreFault.point)

/-- A call that throws leaves the database as it was; one that returns leaves the rows of the
frame, of this call if the frame had none, and a checkpoint that is not below the frame. -/
structure AllOrNothing (driver : Driver F R) (p : Process R) (result : OcrResult F)
    (outcome : Process R × Bool) : Prop where
  thrown : outcome.2 = false → outcome.1.store = p.store
  processed : outcome.2 = true → result.entries ≠ [] →
    outcome.1.store.isFrameProcessed result.frameNumber = true
  rows : outcome.2 = true → result.entries ≠ [] → outcome.1.store.rowsOf result.frameNumber =
    if p.store.isFrameProcessed result.frameNumber then p.store.rowsOf result.frameNumber
    else result.words.map (Word.row driver)
  checkpoint : outcome.2 = true → result.entries ≠ [] →
    result.frameNumber ≤ outcome.1.store.lastProcessedFrame

/-- The check of the frame throws, or it finds nothing and one of the commands that follow it does. -/
def ThrowsLater (p : Process R) (result : OcrResult F) : Option StoreFault → Prop
  | some .isFrameProcessed => True
  | some (.command point) =>
    p.store.isFrameProcessed result.frameNumber = false ∧ point < 2 * result.entries.length + 2
  | _ => False

theorem throwsLater_iff {p : Process R} {result : OcrResult F} {fault : Option StoreFault} :
    p.ThrowsLater result fault ↔ fault = some .isFrameProcessed ∨
      p.store.isFrameProcessed result.frameNumber = false ∧
        ∃ point, fault.bind StoreFault.point = some point ∧ point < 2 * result.entries.length + 2 := by
  match fault with
  | some .isFrameProcessed => simp [ThrowsLater]
  | some (.command point) => simp [ThrowsLater,StoreFault.point]
  | none | some .storeLastFrameNumber => simp [ThrowsLater,StoreFault.point]

/-- A number above the static variable becomes the checkpoint, and should not if a later statement
throws; another one should be below the checkpoint already, unless a statement throws. -/
def CheckpointSafe (p : Process R) (result : OcrResult F) (fault : Option StoreFault) : Prop :=
  if p.maxFrameNumber < result.frameNumber then
    fault = some .storeLastFrameNumber ∨ ¬ p.ThrowsLater result fault ∨
      p.store.lastProcessedFrame = result.frameNumber
  else p.ThrowsLater result fault ∨ result.frameNumber ≤ p.store.lastProcessedFrame

@[simp] theorem storeLastFrameNumber_tables (p : Process R) (frameNum : Int) :
    (p.storeLastFrameNumber frameNum).store.toTextTables = p.store.toTextTables := by
  unfold storeLastFrameNumber
  split <;> rfl

theorem storeLastFrameNumber_checkpoint (p : Process R) (frameNum : Int) :
    (p.storeLastFrameNumber frameNum).store.lastProcessedFrame =
      if p.maxFrameNumber < frameNum then frameNum else p.store.lastProcessedFrame := by
  unfold storeLastFrameNumber
  split
  case isTrue low => simp [Int.not_lt.mpr low]
  case isFalse high => simp [Int.not_le.mp high]

theorem storeLastFrameNumber_unchanged_iff (p : Process R) (frameNum : Int) :
    (p.storeLastFrameNumber frameNum).store = p.store ↔
      (p.storeLastFrameNumber frameNum).store.lastProcessedFrame = p.store.lastProcessedFrame := by
  refine ⟨congrArg _,fun same => ?_⟩
  have tables := p.storeLastFrameNumber_tables frameNum
  calc (p.storeLastFrameNumber frameNum).store
      = ⟨(p.storeLastFrameNumber frameNum).store.toTextTables,
        (p.storeLastFrameNumber frameNum).store.lastProcessedFrame⟩ := rfl
    _ = p.store := by rw [tables,same]

/-- The locked section succeeds as a whole or changes nothing. -/
theorem storeEntries_cases (driver : Driver F R) (p : Process R) {result : OcrResult F}
    (nonempty : result.entries ≠ []) (fault : Option Nat) :
    (p.store.isFrameProcessed result.frameNumber = false ∧
      (∃ point, fault = some point ∧ point < 2 * result.entries.length + 2) ∧
      p.storeEntries driver result fault = (p,false)) ∨
    ((p.store.isFrameProcessed result.frameNumber = false →
        ∀ point, fault = some point → 2 * result.entries.length + 2 ≤ point) ∧
      (p.storeEntries driver result fault).2 = true ∧
      (p.storeEntries driver result fault).1.store.lastProcessedFrame = p.store.lastProcessedFrame ∧
      (p.storeEntries driver result fault).1.store.isFrameProcessed result.frameNumber = true ∧
      (p.storeEntries driver result fault).1.store.rowsOf result.frameNumber =
        if p.store.isFrameProcessed result.frameNumber then p.store.rowsOf result.frameNumber
        else result.words.map (Word.row driver)) := by
  cases seen : p.store.isFrameProcessed result.frameNumber with
  | true => exact .inr (by simp [storeEntries,Store.storeEntries,seen])
  | false =>
    obtain ⟨tables,applied,rows⟩ := applyAll_storeScript_rowsOf driver result.frameNumber
      result.entries (TextTables.resolvedIn_of_not_processed seen)
    have outcome := attempt_transaction applied fault
    rw [← Store.storeScript,storeScript_length] at outcome
    rw [TextTables.rowsOf_of_not_processed seen,List.nil_append] at rows
    by_cases succeeds : fault.all (2 * result.entries.length + 2 ≤ ·) = true
    · have some_ : tables.rowsOf result.frameNumber ≠ [] := by simpa [rows] using nonempty
      have processed := TextTables.isFrameProcessed_of_rowsOf some_
      rw [if_pos (by simpa using succeeds)] at outcome
      refine .inr ⟨fun _ point same => by simpa [same] using succeeds,?_⟩
      simp [storeEntries,Store.storeEntries,seen,outcome,processed,rows,OcrResult.words,
        Function.comp_def]
    · rw [if_neg (by simpa using succeeds)] at outcome
      obtain ⟨point,same,early⟩ : ∃ point, fault = some point ∧
          point < 2 * result.entries.length + 2 := by
        cases fault with
        | none => simp at succeeds
        | some point => exact ⟨point,rfl,by simpa using succeeds⟩
      exact .inl ⟨rfl,⟨point,same,early⟩,by simp [storeEntries,Store.storeEntries,seen,outcome]⟩

/-- How a call ends. -/
inductive Stored (driver : Driver F R) (p : Process R) (result : OcrResult F)
    (fault : Option StoreFault) : Process R × Bool → Prop where
  | refused : p.maxFrameNumber < result.frameNumber → fault = some .storeLastFrameNumber →
      Stored driver p result fault (p,false)
  | empty (q : Process R) : result.entries = [] → Stored driver p result fault (q,true)
  | thrown : ¬ (p.maxFrameNumber < result.frameNumber ∧ fault = some .storeLastFrameNumber) →
      result.entries ≠ [] → p.ThrowsLater result fault →
      Stored driver p result fault (p.storeLastFrameNumber result.frameNumber,false)
  | returned (q : Process R) : result.entries ≠ [] → ¬ p.ThrowsLater result fault →
      q.store.lastProcessedFrame =
        (p.storeLastFrameNumber result.frameNumber).store.lastProcessedFrame →
      q.store.isFrameProcessed result.frameNumber = true →
      q.store.rowsOf result.frameNumber =
        (if p.store.isFrameProcessed result.frameNumber then p.store.rowsOf result.frameNumber
        else result.words.map (Word.row driver)) →
      Stored driver p result fault (q,true)

theorem tryStoreResult_stored (driver : Driver F R) (p : Process R) (result : OcrResult F)
    (fault : Option StoreFault) :
    Stored driver p result fault (p.tryStoreResult driver result fault) := by
  unfold tryStoreResult
  by_cases early : p.maxFrameNumber < result.frameNumber ∧ fault = some .storeLastFrameNumber
  · have refused : p.tryStoreLastFrameNumber result.frameNumber
        (fault = some .storeLastFrameNumber) = (p,false) := by
      rw [tryStoreLastFrameNumber,if_pos (by simpa [and_comm] using early)]
    rw [refused,if_pos (by simp)]
    exact .refused early.1 early.2
  have recorded : p.tryStoreLastFrameNumber result.frameNumber (fault = some .storeLastFrameNumber) =
      (p.storeLastFrameNumber result.frameNumber,true) := by
    rw [tryStoreLastFrameNumber,if_neg (by simpa [and_comm] using early)]
  rw [recorded]
  by_cases nonempty : result.entries = []
  · rw [if_pos (by simp [nonempty])]
    exact .empty _ nonempty
  rw [if_neg (by simp [nonempty])]
  by_cases check : fault = some .isFrameProcessed
  · rw [if_pos check]
    exact .thrown early nonempty (by rw [check]; trivial)
  rw [if_neg check]
  have locked := storeEntries_cases driver (p.storeLastFrameNumber result.frameNumber) nonempty
    (fault.bind StoreFault.point)
  simp only [storeLastFrameNumber_tables] at locked
  rcases locked with ⟨unseen,command,thrown⟩ | ⟨outside,returned,last,processed,rows⟩
  · rw [thrown]
    exact .thrown early nonempty (throwsLater_iff.mpr (.inr ⟨unseen,command⟩))
  · have never : ¬ p.ThrowsLater result fault := by
      rw [throwsLater_iff]
      rintro (first | ⟨unseen,point,same,inside⟩)
      · exact check first
      · have := outside unseen point same
        omega
    have outcome : (p.storeLastFrameNumber result.frameNumber).storeEntries driver result
        (fault.bind StoreFault.point) = (_,true) := Prod.ext rfl returned
    rw [outcome]
    exact .returned _ nonempty never last processed rows

/-- The second word of frame 5 cannot be stored, and the frame is behind the checkpoint. -/
theorem checkpoint_of_rolled_back : ¬ ∀ (p : Process Int) (result : OcrResult Int)
    (fault : Option StoreFault),
      p.AllOrNothing Driver.exact result (p.tryStoreResult Driver.exact result fault) := by
  intro claim
  let result : OcrResult Int := ⟨5,[⟨1,2,3,4,90,"a"⟩,⟨1,2,3,4,90,"b"⟩]⟩
  have unchanged := (claim (.start .fresh) result (some (.command 4))).thrown (by decide)
  have same := congrArg Store.lastProcessedFrame unchanged
  exact absurd same (by decide)

/-- A call is all or nothing exactly if it has no entries or its number is safe. -/
theorem store_all_or_nothing_iff (driver : Driver F R) (p : Process R) (result : OcrResult F)
    (fault : Option StoreFault) :
    p.AllOrNothing driver result (p.tryStoreResult driver result fault) ↔
      result.entries = [] ∨ p.CheckpointSafe result fault := by
  have checkpoint := p.storeLastFrameNumber_checkpoint result.frameNumber
  have stored := p.tryStoreResult_stored driver result fault
  generalize p.tryStoreResult driver result fault = outcome at stored
  cases stored with
  | refused above first =>
    refine iff_of_true ?_ (.inr (by simp [CheckpointSafe,above,first]))
    exact ⟨fun _ => rfl,by simp,by simp,by simp⟩
  | empty q nothing =>
    refine iff_of_true ?_ (.inl nothing)
    exact ⟨by simp,fun _ some_ => absurd nothing some_,fun _ some_ => absurd nothing some_,
      fun _ some_ => absurd nothing some_⟩
  | thrown reached some_ throws =>
    have atomic : p.AllOrNothing driver result (p.storeLastFrameNumber result.frameNumber,false) ↔
        (p.storeLastFrameNumber result.frameNumber).store = p.store :=
      ⟨fun holds => holds.thrown rfl,fun same => ⟨fun _ => same,by simp,by simp,by simp⟩⟩
    rw [atomic,storeLastFrameNumber_unchanged_iff,checkpoint]
    simp only [some_,false_or,CheckpointSafe]
    split
    case isTrue above =>
      have later : fault ≠ some .storeLastFrameNumber := fun first => reached ⟨above,first⟩
      simp [throws,later,eq_comm]
    case isFalse low => simp [throws]
  | returned q some_ never last processed rows =>
    have atomic : p.AllOrNothing driver result (q,true) ↔
        result.frameNumber ≤ q.store.lastProcessedFrame :=
      ⟨fun holds => holds.checkpoint rfl some_,fun below =>
        ⟨by simp,fun _ _ => processed,fun _ _ => rows,fun _ _ => below⟩⟩
    rw [atomic,last,checkpoint]
    simp only [some_,false_or,CheckpointSafe]
    split
    case isTrue above => simp [never]
    case isFalse low => simp [never]

end Process

end OcrSuite
