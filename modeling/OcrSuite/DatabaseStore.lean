import Mathlib.Data.List.Infix
import OcrSuite.Database
import OcrSuite.Transition

/-! The normalised store against the flat list of recognised words it stands for, over all
orders in which the sections of any number of `store` calls run. -/
namespace OcrSuite

open Interning Script Transition

variable {F R : Type}

/-- Every instance refers to an entry. -/
def TextTables.Resolved (t : TextTables R) : Prop :=
  ∀ row ∈ t.textInstances.values, ∃ text, (row.textEntryId,text) ∈ t.textEntries.rows

/-- The two tables stand for `rows`: every instance refers to an entry, their join is `rows`
in this order, and the entries are exactly the texts that occur. -/
structure TextTables.Refines (t : TextTables R) (rows : List (OcrRow R)) : Prop where
  resolved : t.Resolved
  joined : t.join = rows
  texts : ∀ text, text ∈ t.textEntries.values ↔ ∃ row ∈ rows, row.ocrText = text

namespace TextTables

theorem empty_refines : (empty : TextTables R).Refines [] := by
  constructor <;> simp [empty,Resolved,Table.empty,Table.values,Dictionary.empty,join,Dictionary.join]

/-- A text is added to the dictionary, looked up again, and referred to by a new instance. -/
def insertEntry (text : String) (row : Nat → TextInstance R) (t : TextTables R) :
    Option (TextTables R) :=
  (t.addTextEntry text).addTextInstance text row

theorem exists_insertEntry (t : TextTables R) (text : String) (row : Nat → TextInstance R) :
    ∃ id, (t.textEntries.insertOrIgnore text).idOf text = some id ∧ t.insertEntry text row =
      some ⟨t.textEntries.insertOrIgnore text,t.textInstances.insert (row id)⟩ := by
  have present : text ∈ (t.textEntries.insertOrIgnore text).values := by simp
  obtain ⟨id,found⟩ := Dictionary.exists_idOf present
  exact ⟨id,found,by simp [insertEntry,addTextInstance,addTextEntry,getTextEntryId,found]⟩

theorem Refines.insertEntry {t : TextTables R} {rows : List (OcrRow R)} (refines : t.Refines rows)
    {text : String} {row : Nat → TextInstance R} {joined : OcrRow R}
    (keyed : ∀ id, (row id).textEntryId = id) (joins : ∀ id, joinRow (row id,text) = joined) :
    ∃ t', t.insertEntry text row = some t' ∧ t'.Refines (rows ++ [joined]) := by
  have grown := t.textEntries.rows_insertOrIgnore text
  obtain ⟨id,found,inserted⟩ := t.exists_insertEntry text row
  have text_of_joined : joined.ocrText = text := by rw [← joins 0]; rfl
  refine ⟨_,inserted,?_,?_,?_⟩
  · intro inst member
    rw [Table.values_insert] at member
    rcases List.mem_append.mp member with old | new
    · obtain ⟨value,inside⟩ := refines.resolved inst old
      exact ⟨value,grown.subset inside⟩
    · obtain rfl := List.mem_singleton.mp new
      exact ⟨text,by rw [keyed]; exact Dictionary.idOf_eq_some_iff.mp found⟩
  · have here : (t.textEntries.insertOrIgnore text).resolve (row id).textEntryId = [text] := by
      rw [keyed]
      exact Dictionary.resolve_of_idOf found List.prefix_rfl
    have before := Dictionary.join_grown grown refines.resolved
    have kept : (t.textEntries.join TextInstance.textEntryId t.textInstances.values).map joinRow =
        rows := refines.joined
    simp [join,before,kept,Dictionary.join_singleton here,joins]
  · intro value
    simp only [Dictionary.mem_values_insertOrIgnore,refines.texts,List.mem_append,
      List.mem_singleton]
    constructor
    · rintro (⟨old,member,same⟩ | rfl)
      · exact ⟨old,.inl member,same⟩
      · exact ⟨joined,.inr rfl,text_of_joined⟩
    · rintro ⟨other,old | rfl,same⟩
      · exact .inl ⟨other,old,same⟩
      · exact .inr (same.symm.trans text_of_joined)

/-- A row of the join belongs to a frame that is processed. -/
theorem isFrameProcessed_of_join {t : TextTables R} {row : OcrRow R} (member : row ∈ t.join) :
    t.isFrameProcessed row.frameNum = true := by
  obtain ⟨⟨inst,text⟩,pair,rfl⟩ := List.mem_map.mp member
  obtain ⟨other,inside,here⟩ := List.mem_flatMap.mp pair
  obtain ⟨_,_,same⟩ := List.mem_map.mp here
  obtain rfl : other = inst := congrArg Prod.fst same
  have counted : other ∈ t.textInstances.values.filter fun row => row.frameNum = other.frameNum := by
    simp [inside]
  exact bne_iff_ne.mpr (List.length_pos_of_mem counted).ne'

/-- The frame numbers of the join are those of the instances. -/
theorem join_frameNum {t : TextTables R} (resolved : t.Resolved) :
    t.join.map OcrRow.frameNum = t.textInstances.values.map TextInstance.frameNum := by
  unfold Resolved at resolved
  unfold join Dictionary.join
  generalize t.textInstances.values = instances at resolved
  induction instances with
  | nil => rfl
  | cons row rest ih =>
    obtain ⟨text,inside⟩ := resolved row List.mem_cons_self
    have later := ih fun other member => resolved other (List.mem_cons_of_mem row member)
    simp only [List.map_map] at later
    simp [Dictionary.resolve_of_mem inside,later,joinRow]

theorem Refines.isFrameProcessed_iff {t : TextTables R} {rows : List (OcrRow R)}
    (refines : t.Refines rows) (f : Int) :
    t.isFrameProcessed f = true ↔ ∃ row ∈ rows, row.frameNum = f := by
  have frames := join_frameNum refines.resolved
  rw [refines.joined] at frames
  have same : f ∈ rows.map OcrRow.frameNum ↔ f ∈ t.textInstances.values.map TextInstance.frameNum := by
    rw [frames]
  simpa [isFrameProcessed,List.filter_eq_nil_iff] using same.symm

/-- Where every instance refers to an entry, the outer join has no null values. -/
theorem leftJoin_of_resolved {t : TextTables R} (resolved : t.Resolved) :
    t.leftJoin = (t.textEntries.join TextInstance.textEntryId t.textInstances.values).map
      fun (row,text) => (row,some text) := by
  unfold leftJoin Dictionary.join
  rw [List.map_flatMap]
  apply List.flatMap_congr
  intro row member
  obtain ⟨text,inside⟩ := resolved row member
  simp [Dictionary.resolve_of_mem inside]

theorem Refines.findText {t : TextTables R} {rows : List (OcrRow R)} (refines : t.Refines rows)
    (driver : Driver F R) (pattern : String) :
    t.findText driver pattern =
      (rows.filter fun row => driver.like pattern row.ocrText).map (SearchEntry.read driver) := by
  rw [TextTables.findText,leftJoin_of_resolved refines.resolved,← refines.joined,join]
  generalize t.textEntries.join TextInstance.textEntryId t.textInstances.values = pairs
  induction pairs with
  | nil => rfl
  | cons pair rest ih =>
    obtain ⟨row,text⟩ := pair
    by_cases matched : driver.like pattern text = true <;>
      simp [matched,joinRow] <;> simpa [Function.comp_def,joinRow] using ih

end TextTables

/-! ## The flat list of words -/

/-- A recognised word with the frame it was seen in. -/
structure Word (F : Type) where
  frameNumber : Int
  entry : TextEntry F
  deriving DecidableEq

def OcrResult.words (result : OcrResult F) : List (Word F) :=
  result.entries.map (⟨result.frameNumber,·⟩)

/-- The word as its columns. -/
def Word.row (driver : Driver F R) (w : Word F) : OcrRow R where
  frameNum := w.frameNumber
  left := some w.entry.left.toInt
  top := some w.entry.top.toInt
  right := some w.entry.right.toInt
  bottom := some w.entry.bottom.toInt
  confidence := some (driver.bindFloat w.entry.confidence)
  ocrText := w.entry.text

/-- The word as the search returns it. -/
def Word.searchEntry (w : Word F) : SearchEntry F where
  frameNumber := Int32.ofInt w.frameNumber
  left := w.entry.left
  top := w.entry.top
  right := w.entry.right
  bottom := w.entry.bottom
  confidence := w.entry.confidence
  text := w.entry.text

/-- A run of the locked section of `store`. -/
structure Call (F : Type) where
  result : OcrResult F
  fault : Option Nat
  deriving DecidableEq

/-- No statement of the transaction fails: it has two for each entry, its begin and its commit. -/
def Call.succeeds (c : Call F) : Bool := c.fault.all (2 * c.result.entries.length + 2 ≤ ·)

/-- A call adds its words if it succeeds, has some, and its frame has none yet. -/
def Call.appends (c : Call F) (words : List (Word F)) : Bool :=
  c.succeeds && !c.result.entries.isEmpty &&
    words.all fun w => w.frameNumber != c.result.frameNumber

def record (words : List (Word F)) (c : Call F) : List (Word F) :=
  if c.appends words then words ++ c.result.words else words

/-- The words the calls leave behind, in the order of their locked sections. -/
def flat (calls : List (Call F)) : List (Word F) := calls.foldl record []

@[simp] theorem flat_append_singleton (calls : List (Call F)) (c : Call F) :
    flat (calls ++ [c]) = record (flat calls) c := by
  simp [flat]

theorem words_frameNumber {result : OcrResult F} {w : Word F} (member : w ∈ result.words) :
    w.frameNumber = result.frameNumber := by
  obtain ⟨entry,_,rfl⟩ := List.mem_map.mp member
  rfl

theorem words_ne_nil {result : OcrResult F} (nonempty : result.entries ≠ []) :
    result.words ≠ [] := by
  simpa [OcrResult.words] using nonempty

theorem Call.appends_iff {c : Call F} {words : List (Word F)} : c.appends words = true ↔
    c.succeeds = true ∧ c.result.entries ≠ [] ∧ ∀ w ∈ words, w.frameNumber ≠ c.result.frameNumber := by
  simp [Call.appends,and_assoc]

theorem prefix_record (words : List (Word F)) (c : Call F) : words <+: record words c := by
  unfold record
  split
  · exact List.prefix_append _ _
  · exact List.prefix_rfl

theorem prefix_flat_take (calls : List (Call F)) {m n : Nat} (le : m ≤ n) :
    flat (calls.take m) <+: flat (calls.take n) := by
  induction n, le using Nat.le_induction with
  | base => exact List.prefix_rfl
  | succ n _ ih =>
    rw [List.take_add_one]
    cases calls[n]? with
    | none => simpa using ih
    | some c => simpa using ih.trans (prefix_record _ c)

/-- The call at this position has stored the frame. -/
def StoredBy (calls : List (Call F)) (f : Int) (n : Nat) : Prop :=
  ∃ c, calls[n]? = some c ∧ c.result.frameNumber = f ∧ c.appends (flat (calls.take n)) = true ∧
    (flat calls).filter (fun w => w.frameNumber = f) = c.result.words

theorem not_storedBy_twice {calls : List (Call F)} {f : Int} {m n : Nat} (first : StoredBy calls f m)
    (second : StoredBy calls f n) : ¬ m < n := by
  intro before
  obtain ⟨c,there,frame,appends,_⟩ := first
  obtain ⟨d,_,frame',appends',_⟩ := second
  obtain ⟨_,nonempty,_⟩ := Call.appends_iff.mp appends
  obtain ⟨_,_,unseen⟩ := Call.appends_iff.mp appends'
  obtain ⟨w,member⟩ := List.exists_mem_of_ne_nil _ (words_ne_nil nonempty)
  have inside : w ∈ flat (calls.take (m + 1)) := by
    rw [List.take_add_one,there]
    simp [record,appends,member]
  have later := (prefix_flat_take calls before).subset inside
  exact unseen w later ((words_frameNumber member).trans (frame.trans frame'.symm))

theorem exists_storedBy {calls : List (Call F)} {f : Int} (seen : ∃ w ∈ flat calls, w.frameNumber = f) :
    ∃ n, StoredBy calls f n := by
  induction calls using List.reverseRecOn with
  | nil => simp [flat] at seen
  | append_singleton calls c ih =>
    by_cases appends : c.appends (flat calls) = true
    · obtain ⟨_,_,unseen⟩ := Call.appends_iff.mp appends
      by_cases same : c.result.frameNumber = f
      · refine ⟨calls.length,c,by simp,same,by simpa using appends,?_⟩
        have before : (flat calls).filter (fun w => w.frameNumber = f) = [] := by
          simpa [List.filter_eq_nil_iff,same] using unseen
        have here : c.result.words.filter (fun w => w.frameNumber = f) = c.result.words := by
          apply List.filter_eq_self.mpr
          intro w member
          simpa using (words_frameNumber member).trans same
        simp [record,appends,before,here]
      · have others : c.result.words.filter (fun w => w.frameNumber = f) = [] := by
          apply List.filter_eq_nil_iff.mpr
          intro w member
          simpa [words_frameNumber member] using same
        have earlier : ∃ w ∈ flat calls, w.frameNumber = f := by
          obtain ⟨w,member,frame⟩ := seen
          simp only [flat_append_singleton,record,appends,if_true,List.mem_append] at member
          rcases member with old | new
          · exact ⟨w,old,frame⟩
          · exact absurd ((words_frameNumber new).symm.trans frame) same
        obtain ⟨n,d,there,frame,appended,rows⟩ := ih earlier
        have inside : n < calls.length := List.getElem?_eq_some_iff.mp there |>.1
        refine ⟨n,d,by rw [List.getElem?_append_left inside,there],frame,?_,?_⟩
        · simpa [List.take_append_of_le_length inside.le] using appended
        · simp [record,appends,rows,others]
    · have same : flat (calls ++ [c]) = flat calls := by simp [record,appends]
      obtain ⟨n,d,there,frame,appended,rows⟩ := ih (same ▸ seen)
      have inside : n < calls.length := List.getElem?_eq_some_iff.mp there |>.1
      refine ⟨n,d,by rw [List.getElem?_append_left inside,there],frame,?_,same ▸ rows⟩
      simpa [List.take_append_of_le_length inside.le] using appended

/-- A frame with words has them from exactly one call. -/
theorem existsUnique_storedBy {calls : List (Call F)} {f : Int}
    (seen : ∃ w ∈ flat calls, w.frameNumber = f) : ∃! n, StoredBy calls f n := by
  obtain ⟨n,stored⟩ := exists_storedBy seen
  refine ⟨n,stored,fun m other => ?_⟩
  have := not_storedBy_twice other stored
  have := not_storedBy_twice stored other
  omega

/-! ## The store's transaction -/

theorem join_row (driver : Driver F R) (frameNumber : Int) (entry : TextEntry F) (id : Nat) :
    TextTables.joinRow (Store.instanceOf driver frameNumber entry id,entry.text) =
      Word.row driver ⟨frameNumber,entry⟩ := rfl

theorem applyAll_storeEntry (driver : Driver F R) (frameNumber : Int) (entry : TextEntry F)
    (s : Store R) : applyAll (Store.storeEntry driver frameNumber entry) s =
      (s.insertEntry entry.text (Store.instanceOf driver frameNumber entry)).map
        fun tables => { s with toTextTables := tables } := by
  simp [applyAll,Store.storeEntry,TextTables.insertEntry]

/-- All statements of the transaction succeed and add the words of the result. -/
theorem applyAll_storeScript (driver : Driver F R) (frameNumber : Int) (entries : List (TextEntry F))
    {s : Store R} {rows : List (OcrRow R)} (refines : s.toTextTables.Refines rows) :
    ∃ tables : TextTables R,
      applyAll (entries.flatMap (Store.storeEntry driver frameNumber)) s =
        some { s with toTextTables := tables } ∧
      tables.Refines (rows ++ entries.map fun entry => Word.row driver ⟨frameNumber,entry⟩) := by
  induction entries generalizing s rows with
  | nil => exact ⟨s.toTextTables,rfl,by simpa using refines⟩
  | cons entry entries ih =>
    obtain ⟨next,inserted,added⟩ := refines.insertEntry (fun _ => rfl)
      (join_row driver frameNumber entry)
    obtain ⟨last,applied,refined⟩ := ih (s := { s with toTextTables := next }) added
    refine ⟨last,?_,by simpa using refined⟩
    simp [applyAll_append,applyAll_storeEntry,inserted,applied]

theorem storeScript_length (driver : Driver F R) (result : OcrResult F) :
    (Store.storeScript driver result).length = 2 * result.entries.length + 2 := by
  have statements : ((result.entries.flatMap
      (Store.storeEntry driver result.frameNumber)).length : Nat) = 2 * result.entries.length := by
    induction result.entries with
    | nil => rfl
    | cons entry entries ih =>
      simp only [List.flatMap_cons,List.length_append,ih,List.length_cons,Store.storeEntry]
      simp
      omega
  simp [Store.storeScript,statements]

/-- One run of the locked section, on the database and on the list of words. -/
theorem storeEntries_refines (driver : Driver F R) {s : Store R} {words : List (Word F)}
    (refines : s.toTextTables.Refines (words.map (Word.row driver))) (c : Call F)
    (nonempty : c.result.entries ≠ []) :
    (s.storeEntries driver c.result c.fault).1.toTextTables.Refines
      ((record words c).map (Word.row driver)) ∧
    (s.storeEntries driver c.result c.fault).1.lastProcessedFrame = s.lastProcessedFrame := by
  have processed : s.isFrameProcessed c.result.frameNumber = true ↔
      ∃ w ∈ words, w.frameNumber = c.result.frameNumber := by
    simp [refines.isFrameProcessed_iff,Word.row]
  by_cases seen : s.isFrameProcessed c.result.frameNumber = true
  · obtain ⟨w,member,frame⟩ := processed.mp seen
    have ignored : ¬ c.appends words = true := fun appends =>
      (Call.appends_iff.mp appends).2.2 w member frame
    simpa [Store.storeEntries,seen,record,ignored] using refines
  · have unseen : ∀ w ∈ words, w.frameNumber ≠ c.result.frameNumber := fun w member frame =>
      seen (processed.mpr ⟨w,member,frame⟩)
    obtain ⟨tables,applied,refined⟩ :=
      applyAll_storeScript driver c.result.frameNumber c.result.entries refines
    have outcome := attempt_transaction applied c.fault
    rw [← Store.storeScript,storeScript_length] at outcome
    by_cases succeeds : c.succeeds = true
    · have appends : c.appends words = true := Call.appends_iff.mpr ⟨succeeds,nonempty,unseen⟩
      rw [if_pos (by simpa [Call.succeeds] using succeeds)] at outcome
      simpa [Store.storeEntries,seen,outcome,record,appends,OcrResult.words,Function.comp_def]
        using refined
    · have ignored : ¬ c.appends words = true := fun appends =>
        succeeds (Call.appends_iff.mp appends).1
      rw [if_neg (by simpa [Call.succeeds] using succeeds)] at outcome
      simpa [Store.storeEntries,seen,outcome,record,ignored] using refines

/-- Without a fault the locked section comes to its end. -/
theorem storeEntries_finished (driver : Driver F R) {s : Store R} {words : List (Word F)}
    (refines : s.toTextTables.Refines (words.map (Word.row driver))) (result : OcrResult F) :
    (s.storeEntries driver result none).2 = true := by
  by_cases seen : s.isFrameProcessed result.frameNumber = true
  · simp [Store.storeEntries,seen]
  · obtain ⟨tables,applied,_⟩ := applyAll_storeScript driver result.frameNumber result.entries refines
    have outcome := attempt_transaction applied none
    rw [← Store.storeScript] at outcome
    simpa [Store.storeEntries,seen] using congrArg Prod.snd outcome

/-! ## Any number of threads -/

/-- Threads that call `store` on one database. `pending` is the result whose checkpoint has been
written and whose locked section is still to come, `calls` the locked sections so far. -/
structure Writers (κ F R : Type) where
  process : Process R
  pending : κ → Option (OcrResult F)
  calls : List (Call F)

namespace Writers

inductive Action (κ F : Type) where
  | storeLastFrameNumber (i : κ) (result : OcrResult F) (throws : Bool)
  | storeEntries (i : κ) (fault : Option Nat)

variable {κ : Type} [DecidableEq κ]

/-- A result without entries is done after the checkpoint, and so is a call that threw there. -/
def step (driver : Driver F R) (s : Writers κ F R) : Action κ F → Option (Writers κ F R)
  | .storeLastFrameNumber i result throws =>
    match s.pending i with
    | some _ => none
    | none =>
      if throws then some s
      else some { s with
        process := s.process.storeLastFrameNumber result.frameNumber
        pending := Function.update s.pending i
          (if result.entries.isEmpty then none else some result) }
  | .storeEntries i fault =>
    match s.pending i with
    | none => none
    | some result => some {
        process := (s.process.storeEntries driver result fault).1
        pending := Function.update s.pending i none
        calls := s.calls ++ [⟨result,fault⟩] }

omit [DecidableEq κ] in
def start : Writers κ F R := ⟨.start .fresh,fun _ => none,[]⟩

structure Invariant (driver : Driver F R) (s : Writers κ F R) : Prop where
  refines : s.process.store.toTextTables.Refines ((flat s.calls).map (Word.row driver))
  nonempty : ∀ i result, s.pending i = some result → result.entries ≠ []

theorem step_invariant {driver : Driver F R} {s t : Writers κ F R} {a : Action κ F}
    (valid : Invariant driver s) (taken : step driver s a = some t) : Invariant driver t := by
  obtain ⟨refines,nonempty⟩ := valid
  cases a with
  | storeLastFrameNumber i result throws =>
    cases pending : s.pending i with
    | some _ => simp [step,pending] at taken
    | none =>
      cases throws with
      | true =>
        obtain rfl : s = t := by simpa [step,pending] using taken
        exact ⟨refines,nonempty⟩
      | false =>
        simp only [step,pending,Bool.false_eq_true,if_false,Option.some.injEq] at taken
        subst t
        refine ⟨?_,fun k other waits => ?_⟩
        · unfold Process.storeLastFrameNumber
          split <;> exact refines
        · by_cases same : k = i
          · subst k
            cases entries : result.entries <;> simp [entries] at waits
            simp [← waits,entries]
          · exact nonempty k other (by simpa [same] using waits)
  | storeEntries i fault =>
    cases pending : s.pending i with
    | none => simp [step,pending] at taken
    | some result =>
      simp only [step,pending,Option.some.injEq] at taken
      subst t
      have stored := storeEntries_refines driver refines ⟨result,fault⟩ (nonempty i result pending)
      refine ⟨by simpa [Process.storeEntries] using stored.1,fun k other waits => ?_⟩
      by_cases same : k = i
      · simp [same] at waits
      · exact nonempty k other (by simpa [same] using waits)

theorem reachable_invariant {driver : Driver F R} {s : Writers κ F R}
    (reached : Reachable (step driver) start s) : Invariant driver s :=
  reached.invariant ⟨TextTables.empty_refines,by simp [start]⟩
    fun _ _ _ _ valid _ taken => step_invariant valid taken

omit [DecidableEq κ] in
/-- Searching the tables finds the words whose texts match. -/
theorem Invariant.findText {driver : Driver F R} {s : Writers κ F R} (valid : Invariant driver s)
    (fits : ∀ w ∈ flat s.calls, FitsInt w.frameNumber) (pattern : String) :
    s.process.store.findText driver pattern =
      ((flat s.calls).filter fun w => driver.like pattern w.entry.text).map Word.searchEntry := by
  rw [valid.refines.findText,List.filter_map,List.map_map]
  apply List.map_congr_left
  intro w member
  have frame := driver.getInt_eq (fits w (List.mem_filter.mp member).1)
  simp [SearchEntry.read,Word.row,Word.searchEntry,frame,driver.int_kept,driver.float_kept]

/-- Joined, the two tables are the flat list of the words of the calls that succeeded first for
their frames. No text is kept twice or without an instance, every instance refers to one
text, every frame has its rows from one call, and searches see exactly this list. -/
theorem store_refines_flat_list (driver : Driver F R) (s : Writers κ F R)
    (reached : Reachable (step driver) start s) :
    s.process.store.join = (flat s.calls).map (Word.row driver) ∧
    s.process.store.textEntries.values.Nodup ∧
    (∀ text, text ∈ s.process.store.textEntries.values ↔
      ∃ row ∈ s.process.store.join, row.ocrText = text) ∧
    (∀ row ∈ s.process.store.textInstances.values,
      ∃ text, s.process.store.textEntries.resolve row.textEntryId = [text]) ∧
    (∀ f, (∃ w ∈ flat s.calls, w.frameNumber = f) → ∃! n, StoredBy s.calls f n) ∧
    (∀ f, s.process.store.isFrameProcessed f = true ↔
      ∃ row ∈ s.process.store.join, row.frameNum = f) ∧
    ((∀ w ∈ flat s.calls, FitsInt w.frameNumber) →
      ∀ pattern, (s.process.store.findText driver pattern).Perm
        (((flat s.calls).filter fun w => driver.like pattern w.entry.text).map Word.searchEntry)) := by
  have valid := reachable_invariant reached
  have joined := valid.refines.joined
  refine ⟨joined,s.process.store.textEntries.unique,?_,?_,?_,?_,?_⟩
  · exact joined ▸ valid.refines.texts
  · intro row member
    obtain ⟨text,inside⟩ := valid.refines.resolved row member
    exact ⟨text,Dictionary.resolve_of_mem inside⟩
  · exact fun f seen => existsUnique_storedBy seen
  · exact joined ▸ valid.refines.isFrameProcessed_iff
  · exact fun fits pattern => .of_eq (valid.findText fits pattern)

/-- Two threads race on frame 5, the one that loses stores nothing; then frame 7 fails at its
third statement and is stored when it is tried again. -/
theorem store_refines_flat_list_witness : ∃ s : Writers (Fin 2) Int Int,
    Reachable (step Driver.exact) start s ∧
    s.process.store.join = (flat s.calls).map (Word.row Driver.exact) ∧
    (flat s.calls).map (fun w => (w.frameNumber,w.entry.text)) = [(5,"a"),(5,"b"),(7,"a")] ∧
    ((s.process.store.findText Driver.exact "a").map fun e => e.frameNumber).Perm [5,7] := by
  let word (text : String) : TextEntry Int := ⟨1,2,3,4,90,text⟩
  obtain ⟨s,ran,words⟩ : ∃ s : Writers (Fin 2) Int Int,
      run (step Driver.exact) start [.storeLastFrameNumber 0 ⟨5,[word "a",word "b"]⟩ false,
        .storeLastFrameNumber 1 ⟨5,[word "c"]⟩ false,.storeEntries 0 none,.storeEntries 1 none,
        .storeLastFrameNumber 1 ⟨7,[word "a"]⟩ false,.storeEntries 1 (some 2),
        .storeLastFrameNumber 0 ⟨7,[word "a"]⟩ false,.storeEntries 0 none] = some s ∧
      flat s.calls = [⟨5,word "a"⟩,⟨5,word "b"⟩,⟨7,word "a"⟩] := ⟨_,rfl,rfl⟩
  have reached := reachable_of_run ran
  obtain ⟨joined,_,_,_,_,_,search⟩ := store_refines_flat_list Driver.exact s reached
  refine ⟨s,reached,joined,by rw [words]; rfl,?_⟩
  have found := search (by rw [words]; decide) "a"
  rw [words] at found
  exact found.map fun e => e.frameNumber

end Writers

end OcrSuite
