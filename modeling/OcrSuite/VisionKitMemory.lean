import OcrSuite.Database
import OcrSuite.Heap
import OcrSuite.VisionKit

/-! What the two languages of the VisionKit provider share: the memory that the Swift side allocates for
the callback, what the callback reads there, and that it is freed. -/
namespace OcrSuite.VisionKit

/-! ## What crosses the border -/

/-- A block of memory that the Swift side allocates. -/
inductive Block where
  | cString (s : String)
  | pointers (ps : List Nat)
  | uint32s (ns : List UInt32)
  | floats (xs : List ℚ)

/-- The arguments of the callback. A pointer may be null. -/
structure Arguments where
  count : UInt32
  texts : Option Nat
  lefts : Option Nat
  tops : Option Nat
  rights : Option Nat
  bottoms : Option Nat
  confidences : Option Nat
  error : Option Nat

/-- What `strdup` copies of a text. -/
def cString (s : String) : String := .ofList (s.toList.takeWhile (· ≠ '\x00'))

section Memory

variable (h : Heap Block)

def readString (p : Nat) : Option String :=
  match h.block p with
  | some (.cString s) => some s
  | _ => none

def readPointers (p : Nat) : Option (List Nat) :=
  match h.block p with
  | some (.pointers ps) => some ps
  | _ => none

def readUInt32s (p : Nat) : Option (List UInt32) :=
  match h.block p with
  | some (.uint32s ns) => some ns
  | _ => none

def readFloats (p : Nat) : Option (List ℚ) :=
  match h.block p with
  | some (.floats xs) => some xs
  | _ => none

def uint32At (p : Option Nat) (i : Nat) : Option UInt32 := do
  let ns ← readUInt32s h (← p)
  ns[i]?

/-- `deallocate` through an optional pointer. -/
def deallocate : Option Nat → Option (Heap Block)
  | none => some h
  | some p => h.free p

end Memory

def strings (entries : List RecognitionEntry) : List Block :=
  entries.map fun e => Block.cString (cString e.text)

/-- The memory that one call of the callback gets for these entries. The arrays are written as a
whole. -/
def marshal (h : Heap Block) (entries : List RecognitionEntry) : Arguments × Heap Block :=
  let h₁ := h.allocAll (strings entries)
  let h₂ := h₁.alloc (.pointers (h.pointers (strings entries)))
  let h₃ := h₂.alloc (.uint32s (entries.map RecognitionEntry.left))
  let h₄ := h₃.alloc (.uint32s (entries.map RecognitionEntry.top))
  let h₅ := h₄.alloc (.uint32s (entries.map RecognitionEntry.right))
  let h₆ := h₅.alloc (.uint32s (entries.map RecognitionEntry.bottom))
  let h₇ := h₆.alloc (.floats (entries.map RecognitionEntry.confidence))
  ({
    count := .ofNat entries.length
    texts := some h₁.next
    lefts := some h₂.next
    tops := some h₃.next
    rights := some h₄.next
    bottoms := some h₅.next
    confidences := some h₆.next
    error := none },h₇)

/-- `vk_free_ocr_results`. -/
def freeResults (h : Heap Block) (r : Arguments) : Option (Heap Block) := do
  let h ← match r.texts with
    | none => some h
    | some p => do
      let texts ← readPointers h p
      if texts.length < r.count.toNat then none
      else
        let h ← h.freeAll (texts.take r.count.toNat)
        h.free p
  let h ← deallocate h r.lefts
  let h ← deallocate h r.tops
  let h ← deallocate h r.rights
  let h ← deallocate h r.bottoms
  let h ← deallocate h r.confidences
  deallocate h r.error

/-- One round of the loop over the results, which skips short texts. -/
def entryAt (h : Heap Block) (r : Arguments) (i : Nat) : Option (Option (TextEntry ℚ)) := do
  let pointers ← readPointers h (← r.texts)
  let text ← readString h (← pointers[i]?)
  if text.utf8ByteSize < 3 then some none
  else
    let confidences ← readFloats h (← r.confidences)
    some (some {
      text := text
      left := (← uint32At h r.lefts i).toInt32
      top := (← uint32At h r.tops i).toInt32
      right := (← uint32At h r.rights i).toInt32
      bottom := (← uint32At h r.bottoms i).toInt32
      confidence := ← confidences[i]? })

def entriesAt (h : Heap Block) (r : Arguments) : List Nat → Option (List (TextEntry ℚ))
  | [] => some []
  | i :: rest => do
    let entry ← entryAt h r i
    let entries ← entriesAt h r rest
    some (entry.toList ++ entries)

/-- `handle_ocr_results` up to the promise: the memory after it and the value it sets. There is no
result if it reads or frees what is not there. -/
def handleOcrResults (h : Heap Block) (frameNumber : UInt32) (r : Arguments) :
    Option (Heap Block × Option (OcrResult ℚ)) := do
  let errorMessage ← match r.error with
    | none => some ""
    | some p => readString h p
  let result ← match r.error with
    | none => (entriesAt h r (List.range r.count.toNat)).map fun entries => ⟨frameNumber.toNat,entries⟩
    | some _ => some ⟨0,[]⟩
  let h ← freeResults h r
  some (h,if errorMessage = "" then some result else none)

/-! ## The callback -/

/-- The entry that the provider returns for one of the Swift side. -/
def RecognitionEntry.textEntry (e : RecognitionEntry) : Option (TextEntry ℚ) :=
  if (cString e.text).utf8ByteSize < 3 then none
  else some {
    text := cString e.text
    left := e.left.toInt32
    top := e.top.toInt32
    right := e.right.toInt32
    bottom := e.bottom.toInt32
    confidence := e.confidence }

/-- What the callback reads is what was written. -/
theorem entriesAt_eq {h : Heap Block} {r : Arguments} {entries : List RecognitionEntry}
    (read : ∀ i e, entries[i]? = some e → entryAt h r i = some e.textEntry) :
    entriesAt h r (List.range entries.length) = some (entries.filterMap RecognitionEntry.textEntry) := by
  suffices general : ∀ k rest, entries.drop k = rest →
      entriesAt h r (List.range' k rest.length) =
        some (rest.filterMap RecognitionEntry.textEntry) by
    rw [List.range_eq_range']
    exact general 0 entries rfl
  intro k rest
  induction rest generalizing k with
  | nil => simp [entriesAt]
  | cons e rest ih =>
    intro left
    have here : entries[k]? = some e := by
      have := congrArg List.head? left
      simpa using this
    have later : entries.drop (k + 1) = rest := by
      have := congrArg List.tail left
      simpa using this
    rw [List.length_cons,List.range'_succ,entriesAt,read k e here,ih (k + 1) later]
    cases kept : e.textEntry <;> simp [kept]

/-- The arrays of a call, in the order in which they are freed. -/
def arrays (h : Heap Block) (entries : List RecognitionEntry) : List (Nat × Block) :=
  let first := (h.allocAll (strings entries)).next
  [(first,.pointers (h.pointers (strings entries))),
    (first + 1,.uint32s (entries.map RecognitionEntry.left)),
    (first + 2,.uint32s (entries.map RecognitionEntry.top)),
    (first + 3,.uint32s (entries.map RecognitionEntry.right)),
    (first + 4,.uint32s (entries.map RecognitionEntry.bottom)),
    (first + 5,.floats (entries.map RecognitionEntry.confidence))]

theorem marshal_ledger (h : Heap Block) (entries : List RecognitionEntry) :
    Heap.Ledger h (marshal h entries).2
      ((h.pointers (strings entries)).zip (strings entries) ++ arrays h entries) := by
  have ledger : Heap.Ledger h (marshal h entries).2 ((arrays h entries).reverse ++
      ((h.pointers (strings entries)).zip (strings entries) ++ [])) :=
    ((((((Heap.Ledger.start h).allocAll (strings entries)).alloc
      (.pointers (h.pointers (strings entries)))).alloc (.uint32s (entries.map RecognitionEntry.left))).alloc
      (.uint32s (entries.map RecognitionEntry.top))).alloc
      (.uint32s (entries.map RecognitionEntry.right))).alloc
      (.uint32s (entries.map RecognitionEntry.bottom)) |>.alloc
      (.floats (entries.map RecognitionEntry.confidence))
  rw [List.append_nil] at ledger
  exact ledger.perm (List.perm_append_comm.trans (List.Perm.append_left _ (List.reverse_perm _)))

section Marshalled

variable (h : Heap Block) (entries : List RecognitionEntry)

@[simp] theorem marshal_count : (marshal h entries).1.count = .ofNat entries.length := rfl

@[simp] theorem marshal_texts : (marshal h entries).1.texts = some (h.allocAll (strings entries)).next :=
  rfl

@[simp] theorem marshal_lefts :
    (marshal h entries).1.lefts = some ((h.allocAll (strings entries)).next + 1) := rfl

@[simp] theorem marshal_tops :
    (marshal h entries).1.tops = some ((h.allocAll (strings entries)).next + 2) := rfl

@[simp] theorem marshal_rights :
    (marshal h entries).1.rights = some ((h.allocAll (strings entries)).next + 3) := rfl

@[simp] theorem marshal_bottoms :
    (marshal h entries).1.bottoms = some ((h.allocAll (strings entries)).next + 4) := rfl

@[simp] theorem marshal_confidences :
    (marshal h entries).1.confidences = some ((h.allocAll (strings entries)).next + 5) := rfl

@[simp] theorem marshal_error : (marshal h entries).1.error = none := rfl

/-- A block that the ledger of the call has. -/
theorem block_marshal {e : Nat × Block}
    (member : e ∈ (h.pointers (strings entries)).zip (strings entries) ++ arrays h entries) :
    (marshal h entries).2.block e.1 = some e.2 :=
  (marshal_ledger h entries).owned e member

theorem readPointers_marshal : readPointers (marshal h entries).2 (h.allocAll (strings entries)).next =
    some (h.pointers (strings entries)) := by
  rw [readPointers,block_marshal h entries (e := (_,.pointers (h.pointers (strings entries))))
    (List.mem_append_right _ (List.mem_cons_self ..))]

theorem entryAt_marshal {i : Nat} {e : RecognitionEntry} (there : entries[i]? = some e) :
    entryAt (marshal h entries).2 (marshal h entries).1 i = some e.textEntry := by
  have array (e : Nat × Block) (member : e ∈ arrays h entries) :
      (marshal h entries).2.block e.1 = some e.2 :=
    block_marshal h entries (List.mem_append_right _ member)
  have texts := readPointers_marshal h entries
  have number (k : Nat) (field : RecognitionEntry → UInt32)
      (member : ((h.allocAll (strings entries)).next + k,.uint32s (entries.map field)) ∈ arrays h entries) :
      uint32At (marshal h entries).2 (some ((h.allocAll (strings entries)).next + k)) i =
        some (field e) := by
    simp [uint32At,readUInt32s,array _ member,there]
  have left := number 1 RecognitionEntry.left (by simp [arrays])
  have top := number 2 RecognitionEntry.top (by simp [arrays])
  have right := number 3 RecognitionEntry.right (by simp [arrays])
  have bottom := number 4 RecognitionEntry.bottom (by simp [arrays])
  have confidences : readFloats (marshal h entries).2 ((h.allocAll (strings entries)).next + 5) =
      some (entries.map RecognitionEntry.confidence) := by
    rw [readFloats,array (_,.floats (entries.map RecognitionEntry.confidence)) (by simp [arrays])]
  have pointer : (h.pointers (strings entries))[i]? = some (h.next + i) := by
    have inside : i < entries.length := (List.getElem?_eq_some_iff.mp there).1
    simp [Heap.pointers,strings,inside]
  have text : readString (marshal h entries).2 (h.next + i) = some (cString e.text) := by
    have paired : ((h.pointers (strings entries)).zip (strings entries))[i]? =
        some (h.next + i,.cString (cString e.text)) :=
      List.getElem?_zip_eq_some.mpr ⟨pointer,by simp [strings,there]⟩
    rw [readString,block_marshal h entries (List.mem_append_left _ (List.mem_of_getElem? paired))]
  by_cases short : (cString e.text).utf8ByteSize < 3
  · simp [entryAt,RecognitionEntry.textEntry,texts,pointer,text,short]
  · simp [entryAt,RecognitionEntry.textEntry,texts,pointer,text,short,left,top,right,bottom,confidences,
      there]

/-- The whole of a call: everything is read as it was written, and freed. -/
theorem handleOcrResults_marshal (frameNumber : UInt32) (few : entries.length < 2 ^ 32) :
    ∃ h', handleOcrResults (marshal h entries).2 frameNumber (marshal h entries).1 =
        some (h',some ⟨frameNumber.toNat,entries.filterMap RecognitionEntry.textEntry⟩) ∧
      h'.block = h.block := by
  have count : (UInt32.ofNat entries.length).toNat = entries.length := UInt32.toNat_ofNat_of_lt' few
  have read := entriesAt_eq fun i e there => entryAt_marshal h entries (i := i) (e := e) there
  have same : (h.pointers (strings entries)).length = (strings entries).length := by
    simp [Heap.pointers]
  have number : (strings entries).length = entries.length := by simp [strings]
  have texts := readPointers_marshal h entries
  obtain ⟨h₁,freed₁,ledger⟩ := (marshal_ledger h entries).freeAll same
  obtain ⟨h₂,freed₂,ledger⟩ := ledger.free
  obtain ⟨h₃,freed₃,ledger⟩ := ledger.free
  obtain ⟨h₄,freed₄,ledger⟩ := ledger.free
  obtain ⟨h₅,freed₅,ledger⟩ := ledger.free
  obtain ⟨h₆,freed₆,ledger⟩ := ledger.free
  obtain ⟨h₇,freed₇,ledger⟩ := ledger.free
  refine ⟨h₇,?_,ledger.closed⟩
  have freed : freeResults (marshal h entries).2 (marshal h entries).1 = some h₇ := by
    have whole : (h.pointers (strings entries)).take entries.length = h.pointers (strings entries) :=
      List.take_of_length_le (by rw [same,number])
    simp [freeResults,texts,count,same,number,whole,freed₁,freed₂,deallocate,freed₃,freed₄,freed₅,freed₆,
      freed₇]
  simp [handleOcrResults,count,read,freed]

end Marshalled

end OcrSuite.VisionKit
