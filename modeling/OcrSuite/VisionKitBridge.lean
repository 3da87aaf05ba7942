import Mathlib.Data.List.TakeWhile
import OcrSuite.FrameLayout
import OcrSuite.VisionKitMemory

/-! The VisionKit provider across its two languages: what the Swift side reports, the promise that the
provider waits for, and what comes of a frame. -/
namespace OcrSuite.VisionKit

open FrameLayout

/-! ## The promise -/

/-- How the provider's process can die here: memory that is not there, a promise that is set twice, a
number that is too large for its type. -/
inductive Crash where
  | badAccess
  | promiseAlreadySatisfied
  | overflow
  deriving DecidableEq

/-- The memory and the promise of the provider. -/
structure Bridge where
  heap : Heap Block
  promise : Option (Option (OcrResult ℚ))

/-- `handle_ocr_results`. An exception of `set_value` cannot leave the Swift side. -/
def callback (b : Bridge) (frameNumber : UInt32) (r : Arguments) : Except Crash Bridge :=
  match handleOcrResults b.heap frameNumber r,b.promise with
  | none,_ => .error .badAccess
  | some _,some _ => .error .promiseAlreadySatisfied
  | some (h,result),none => .ok ⟨h,some result⟩

def noArguments : Arguments := ⟨0,none,none,none,none,none,none,none⟩

def sendError (b : Bridge) (frameNumber : UInt32) (message : String) : Except Crash Bridge :=
  callback { b with heap := b.heap.alloc (.cString (cString message)) } frameNumber
    { noArguments with error := some b.heap.next }

/-! ## The Swift side -/

/-- A call of the request's completion handler: the description of an error, results that are not text
observations, or these observations. -/
inductive Completion where
  | failed (description : String)
  | noResults
  | observed (observations : List Observation)

/-- What `perform` does: its calls of the completion handler, and whether it throws after them. -/
structure Performed where
  completions : List Completion
  throws : Option String

structure Request where
  recognitionLanguages : List String
  minimumTextHeight : ℚ

/-- Which of the steps to an image succeed. -/
structure Graphics where
  dataProvider : Bool
  colorSpace : Bool
  image : Bool

/-- The frameworks, asked about a frame. -/
structure Framework where
  graphics : VideoFrame → Graphics
  perform : VideoFrame → Request → Performed

/-- The error message of `createCGImage`, if any. The size is computed with checked arithmetic. -/
def createCGImage (g : Graphics) (height bytesPerLine : UInt32) : Except Crash (Option String) :=
  if 2 ^ 32 ≤ bytesPerLine.toNat * height.toNat then .error .overflow
  else if !g.dataProvider then .ok (some "Error making CGDataProvider")
  else if !g.colorSpace then .ok (some "Error making CGColorSpace")
  else if !g.image then .ok (some "Error making CGImage")
  else .ok none

/-- The entries of all observations, unless a conversion traps. -/
def recognitionEntries (width height : UInt32) : List Observation → Option (List RecognitionEntry)
  | [] => some []
  | o :: rest => do
    let entries ← RecognitionEntry.fromObservation o width.toNat height.toNat
    let later ← recognitionEntries width height rest
    some (entries ++ later)

/-- The completion handler. -/
def complete (frameNumber width height : UInt32) (b : Bridge) : Completion → Except Crash Bridge
  | .failed description => sendError b frameNumber ("Vision error: " ++ description)
  | .noResults => callback b frameNumber noArguments
  | .observed observations =>
    match recognitionEntries width height observations with
    | none => .error .overflow
    | some entries =>
      if entries.length = 0 then callback b frameNumber noArguments
      else if 2 ^ 32 ≤ entries.length then .error .overflow
      else
        let (arguments,h) := marshal b.heap entries
        callback { b with heap := h } frameNumber arguments

def completeAll (frameNumber width height : UInt32) (b : Bridge) : List Completion → Except Crash Bridge
  | [] => .ok b
  | c :: rest => do
    let b ← complete frameNumber width height b c
    completeAll frameNumber width height b rest

/-- `String.split`, which leaves out what is empty. -/
def languageList (languages : String) : List String :=
  (languages.splitOn "+").filter fun language => language ≠ ""

/-- `vk_do_ocr`. The languages are a pointer that may be null, to bytes that may not be UTF-8. -/
def vkDoOcr (framework : Framework) (f : VideoFrame) (b : Bridge) (frameNumber : UInt32)
    (languages : Option (Option String)) (width height bytesPerLine : UInt32) : Except Crash Bridge :=
  match languages with
  | none => sendError b frameNumber "Missing languages string"
  | some none => sendError b frameNumber "Error splitting languages string"
  | some (some languages) => do
    match ← createCGImage (framework.graphics f) height bytesPerLine with
    | some error => sendError b frameNumber error
    | none =>
      let performed := framework.perform f ⟨languageList languages,8 / (height.toNat : ℚ)⟩
      let b ← completeAll frameNumber width height b performed.completions
      match performed.throws with
      | none => .ok b
      | some error => sendError b frameNumber ("VisionKit error: " ++ error)

/-- What comes of waiting for the future. -/
inductive Outcome where
  | crashed (crash : Crash)
  | blocked
  | returned (result : Option (OcrResult ℚ)) (heap : Heap Block)

/-- `do_ocr`. The configured languages come from the command line, as bytes. -/
def doOcr (framework : Framework) (languages : Option String) (h : Heap Block) (f : VideoFrame) :
    Outcome :=
  match vkDoOcr framework f ⟨h,none⟩ (.ofInt f.frameNumber) (some languages) (.ofNat f.width)
      (.ofNat f.height) (.ofNat f.bytesPerLine) with
  | .error crash => .crashed crash
  | .ok ⟨_,none⟩ => .blocked
  | .ok ⟨h,some result⟩ => .returned result h

/-! ## Reports -/

/-- What one call of the callback tells the provider. -/
inductive Report where
  | failed
  | recognized (entries : List RecognitionEntry)

def Report.result (frameNumber : UInt32) : Report → Option (OcrResult ℚ)
  | .failed => none
  | .recognized entries =>
    some ⟨frameNumber.toNat,entries.filterMap RecognitionEntry.textEntry⟩

/-- A call that gets through sets the promise to what was reported, leaves the memory as it was, and
cannot be made twice. -/
structure Delivers (frameNumber : UInt32) (call : Bridge → Except Crash Bridge) (r : Report) : Prop where
  first : ∀ h, ∃ h', call ⟨h,none⟩ = .ok ⟨h',some (r.result frameNumber)⟩ ∧ h'.block = h.block
  again : ∀ h result, call ⟨h,some result⟩ = .error .promiseAlreadySatisfied

theorem callback_noArguments (frameNumber : UInt32) :
    Delivers frameNumber (fun b => callback b frameNumber noArguments) (.recognized []) := by
  have handled (h : Heap Block) :
      handleOcrResults h frameNumber noArguments = some (h,some ⟨frameNumber.toNat,[]⟩) := by
    simp [handleOcrResults,noArguments,entriesAt,freeResults,deallocate]
  constructor
  · exact fun h => ⟨h,by simp [callback,handled,Report.result],rfl⟩
  · exact fun h result => by simp [callback,handled]

theorem callback_marshal (frameNumber : UInt32) {entries : List RecognitionEntry}
    (few : entries.length < 2 ^ 32) :
    Delivers frameNumber (fun b => callback { b with heap := (marshal b.heap entries).2 } frameNumber
      (marshal b.heap entries).1) (.recognized entries) := by
  constructor
  · intro h
    obtain ⟨h',handled,same⟩ := handleOcrResults_marshal h entries frameNumber few
    exact ⟨h',by simp [callback,handled,Report.result],same⟩
  · intro h result
    obtain ⟨h',handled,_⟩ := handleOcrResults_marshal h entries frameNumber few
    simp [callback,handled]

/-- The message has a text, so the provider takes it for an error. -/
theorem sendError_delivers (frameNumber : UInt32) {message : String} (text : cString message ≠ "") :
    Delivers frameNumber (fun b => sendError b frameNumber message) .failed := by
  have handled (h : Heap Block) : ∃ h',
      handleOcrResults (h.alloc (.cString (cString message))) frameNumber
        { noArguments with error := some h.next } = some (h',none) ∧ h'.block = h.block := by
    have ledger := (Heap.Ledger.start h).alloc (.cString (cString message))
    obtain ⟨h',freed,closed⟩ := ledger.free
    have there := ledger.owned _ (List.mem_cons_self ..)
    refine ⟨h',?_,closed.closed⟩
    simp [handleOcrResults,noArguments,readString,there,freeResults,deallocate,freed,text]
  constructor
  · intro h
    obtain ⟨h',done,same⟩ := handled h
    exact ⟨h',by simp [sendError,callback,done,Report.result],same⟩
  · intro h result
    obtain ⟨h',done,_⟩ := handled h
    simp [sendError,callback,done]

theorem cString_ne_empty {s : String} {c : Char} {rest : List Char} (starts : s.toList = c :: rest)
    (printable : c ≠ '\x00') : cString s ≠ "" := by
  simp [cString,starts,printable]

theorem cString_append_ne_empty {s : String} (nonempty : cString s ≠ "") (t : String) :
    cString (s ++ t) ≠ "" := by
  simp only [cString,String.toList_append,ne_eq,String.ofList_eq_empty_iff] at nonempty ⊢
  cases starts : s.toList with
  | nil => simp [starts] at nonempty
  | cons c rest =>
    by_cases printable : c = '\x00'
    · simp [starts,printable] at nonempty
    · simp [printable]

/-! ## The outcome -/

/-- What the completion handler reports. -/
def Completion.report (width height : UInt32) : Completion → Report
  | .failed _ => .failed
  | .noResults => .recognized []
  | .observed observations => .recognized ((recognitionEntries width height observations).getD [])

/-- The boxes of all words are within the image, so no conversion traps. -/
theorem recognitionEntries_wellFormed (width height : UInt32) (observations : List Observation) :
    ∃ entries, recognitionEntries width height observations = some entries ∧
      List.Forall₂ (fun word e => e.WellFormed width height word)
        (observations.flatMap Observation.kept) entries := by
  induction observations with
  | nil => exact ⟨[],rfl,.nil⟩
  | cons o rest ih =>
    obtain ⟨later,collected,formedLater⟩ := ih
    obtain ⟨entries,converted,formed⟩ : ∃ entries,
        RecognitionEntry.fromObservation o width.toNat height.toNat = some entries ∧
        List.Forall₂ (fun word e => e.WellFormed width height word) o.kept entries := by
      unfold RecognitionEntry.fromObservation Observation.kept
      cases o.topCandidate with
      | none => exact ⟨[],rfl,.nil⟩
      | some c => simpa using RecognitionEntry.collect_wellFormed width height c.confidence c.words []
    refine ⟨entries ++ later,by simp [recognitionEntries,converted,collected],?_⟩
    simpa using List.rel_append formed formedLater

/-- The entries can be counted. -/
def Completion.Few : Completion → Prop
  | .observed observations => (observations.flatMap Observation.kept).length < 2 ^ 32
  | _ => True

theorem complete_delivers (frameNumber width height : UInt32) {c : Completion} (few : c.Few) :
    Delivers frameNumber (fun b => complete frameNumber width height b c) (c.report width height) := by
  cases c with
  | failed description =>
    exact sendError_delivers frameNumber
      (cString_append_ne_empty (cString_ne_empty (c := 'V') rfl (by decide)) description)
  | noResults => exact callback_noArguments frameNumber
  | observed observations =>
    obtain ⟨entries,collected,formed⟩ := recognitionEntries_wellFormed width height observations
    replace few : entries.length < 2 ^ 32 := formed.length_eq ▸ few
    simp only [complete,collected,Completion.report,Option.getD_some]
    by_cases nothing : entries.length = 0
    · obtain rfl := List.length_eq_zero_iff.mp nothing
      exact callback_noArguments frameNumber
    · simp only [nothing,if_false,Nat.not_le.mpr few]
      exact callback_marshal frameNumber few

theorem completeAll_again (frameNumber width height : UInt32) (completions : List Completion)
    (few : ∀ c ∈ completions, c.Few) (h : Heap Block) (result : Option (OcrResult ℚ)) :
    completeAll frameNumber width height ⟨h,some result⟩ completions =
      if completions = [] then .ok ⟨h,some result⟩ else .error .promiseAlreadySatisfied := by
  cases completions with
  | nil => rfl
  | cons c rest =>
    have again := (complete_delivers frameNumber width height (few c (by simp))).again h result
    simp only [completeAll,again,reduceCtorEq,if_false]
    rfl

/-- Everything that the frameworks lead to, in the order in which it is reported. -/
def reports (framework : Framework) (languages : Option String) (f : VideoFrame) : List Report :=
  match languages,createCGImage (framework.graphics f) (.ofNat f.height) (.ofNat f.bytesPerLine) with
  | some languages,.ok none =>
    let performed := framework.perform f ⟨languageList languages,8 / ((UInt32.ofNat f.height).toNat : ℚ)⟩
    performed.completions.map (Completion.report (.ofNat f.width) (.ofNat f.height)) ++
      (performed.throws.map fun _ => Report.failed).toList
  | _,_ => [.failed]

/-- No number is too large: the size of the image, and how much is recognised. -/
structure Fits (framework : Framework) (f : VideoFrame) : Prop where
  size : (UInt32.ofNat f.bytesPerLine).toNat * (UInt32.ofNat f.height).toNat < 2 ^ 32
  few : ∀ request, ∀ c ∈ (framework.perform f request).completions, c.Few

theorem createCGImage_cases {g : Graphics} {height bytesPerLine : UInt32}
    (size : bytesPerLine.toNat * height.toNat < 2 ^ 32) :
    createCGImage g height bytesPerLine = .ok none ∨
      ∃ error, createCGImage g height bytesPerLine = .ok (some error) ∧ cString error ≠ "" := by
  unfold createCGImage
  rw [if_neg (Nat.not_le.mpr size)]
  split
  case isTrue => exact .inr ⟨_,rfl,cString_ne_empty (c := 'E') rfl (by decide)⟩
  case isFalse =>
    split
    case isTrue => exact .inr ⟨_,rfl,cString_ne_empty (c := 'E') rfl (by decide)⟩
    case isFalse =>
      split
      case isTrue => exact .inr ⟨_,rfl,cString_ne_empty (c := 'E') rfl (by decide)⟩
      case isFalse => exact .inl rfl

/-- What comes of these reports: nothing to wait for, one result, or a promise that is set twice. -/
structure ComesTo (frameNumber : UInt32) (h : Heap Block) (reports : List Report)
    (outcome : Except Crash Bridge) : Prop where
  nothing : reports = [] → outcome = .ok ⟨h,none⟩
  one : ∀ r, reports = [r] → ∃ h', outcome = .ok ⟨h',some (r.result frameNumber)⟩ ∧ h'.block = h.block
  more : 2 ≤ reports.length → outcome = .error .promiseAlreadySatisfied

theorem Delivers.comesTo {frameNumber : UInt32} {call : Bridge → Except Crash Bridge} {r : Report}
    (delivers : Delivers frameNumber call r) (h : Heap Block) :
    ComesTo frameNumber h [r] (call ⟨h,none⟩) := by
  refine ⟨by simp,fun same one => ?_,by simp⟩
  obtain rfl := (List.cons.inj one).1
  exact delivers.first h

theorem performed_comesTo (frameNumber width height : UInt32) (h : Heap Block) (p : Performed)
    (few : ∀ c ∈ p.completions, c.Few) :
    ComesTo frameNumber h
      (p.completions.map (Completion.report width height) ++ (p.throws.map fun _ => Report.failed).toList)
      (do
        let b ← completeAll frameNumber width height ⟨h,none⟩ p.completions
        match p.throws with
        | none => .ok b
        | some error => sendError b frameNumber ("VisionKit error: " ++ error)) := by
  have thrown (error : String) : Delivers frameNumber
      (fun b => sendError b frameNumber ("VisionKit error: " ++ error)) .failed :=
    sendError_delivers frameNumber
      (cString_append_ne_empty (cString_ne_empty (c := 'V') rfl (by decide)) error)
  obtain ⟨completions,throws⟩ := p
  cases completions with
  | nil =>
    cases throws with
    | none => exact ⟨fun _ => rfl,by simp,by simp⟩
    | some error => exact (thrown error).comesTo h
  | cons c rest =>
    obtain ⟨h',called,same⟩ := (complete_delivers frameNumber width height (few c (by simp))).first h
    have later := completeAll_again frameNumber width height rest
      (fun d member => few d (by simp [member])) h' ((c.report width height).result frameNumber)
    have whole : completeAll frameNumber width height ⟨h,none⟩ (c :: rest) =
        if rest = [] then .ok ⟨h',some ((c.report width height).result frameNumber)⟩
        else .error .promiseAlreadySatisfied := by
      rw [← later]
      simp only [completeAll,called]
      rfl
    simp only [whole]
    cases rest with
    | nil =>
      cases throws with
      | none =>
        refine ⟨by simp,fun r one => ?_,by simp⟩
        obtain rfl := (List.cons.inj one).1
        exact ⟨h',rfl,same⟩
      | some error =>
        refine ⟨by simp,by simp,fun _ => ?_⟩
        exact (thrown error).again h' _
    | cons d rest => exact ⟨by simp,by simp,fun _ => by simp; rfl⟩

/-- The provider returns exactly if the Swift side reports once, then with what was reported and with
all memory freed; it never reads or frees what is not there. -/
theorem promise_set_once (framework : Framework) (languages : Option String) (h : Heap Block)
    (f : VideoFrame) (fits : Fits framework f) :
    (reports framework languages f = [] → doOcr framework languages h f = .blocked) ∧
    (∀ r, reports framework languages f = [r] → ∃ h',
      doOcr framework languages h f = .returned (r.result (.ofInt f.frameNumber)) h' ∧
      h'.block = h.block) ∧
    (2 ≤ (reports framework languages f).length →
      doOcr framework languages h f = .crashed .promiseAlreadySatisfied) := by
  have comes : ComesTo (.ofInt f.frameNumber) h (reports framework languages f)
      (vkDoOcr framework f ⟨h,none⟩ (.ofInt f.frameNumber) (some languages) (.ofNat f.width)
        (.ofNat f.height) (.ofNat f.bytesPerLine)) := by
    cases languages with
    | none => exact (sendError_delivers _ (cString_ne_empty (c := 'E') rfl (by decide))).comesTo h
    | some languages =>
      rcases createCGImage_cases (g := framework.graphics f) fits.size with image | ⟨error,image,text⟩
      · simp only [reports,vkDoOcr,image]
        exact performed_comesTo _ _ _ h _ (fits.few _)
      · simp only [reports,vkDoOcr,image]
        exact (sendError_delivers _ text).comesTo h
  refine ⟨fun nothing => ?_,fun r one => ?_,fun more => ?_⟩
  · simp [doOcr,comes.nothing nothing]
  · obtain ⟨h',ended,same⟩ := comes.one r one
    exact ⟨h',by simp [doOcr,ended],same⟩
  · simp [doOcr,comes.more more]

/-- Images are made, and requests fail with the handler being told and an exception besides. -/
def failing : Framework := ⟨fun _ => ⟨true,true,true⟩,fun _ _ => ⟨[.failed "no model"],some "no model"⟩⟩

theorem promise_set_once_witness : let f : VideoFrame := ⟨7,[],2,1,6⟩
    (reports failing (some "en-US+de-DE") f).length = 2 ∧
    doOcr failing (some "en-US+de-DE") .empty f = .crashed .promiseAlreadySatisfied := by
  intro f
  have fits : Fits failing f := ⟨by decide,fun _ c member => by
    obtain rfl := List.mem_singleton.mp member
    trivial⟩
  exact ⟨rfl,(promise_set_once failing (some "en-US+de-DE") .empty f fits).2.2 (le_refl 2)⟩

/-! ## What is returned for an image -/

/-- What is known of a word: it has no more letters than code points, and no zero byte. -/
structure Word.Counted (word : Word) : Prop where
  letters : word.count ≤ word.text.length
  printable : '\x00' ∉ word.text.toList

/-- The entry has the text of a word and a box in the image, that of the word if this is in the
image. -/
structure InImage (width height : Nat) (word : String × Rect) (e : TextEntry ℚ) : Prop where
  text : e.text = word.1
  horizontal : 0 ≤ e.left.toInt ∧ e.left.toInt ≤ e.right.toInt ∧ e.right.toInt ≤ width
  vertical : 0 ≤ e.top.toInt ∧ e.top.toInt ≤ e.bottom.toInt ∧ e.bottom.toInt ≤ height
  scaled : word.2.Inside → e.left.toInt = ⌊word.2.x * width⌋ ∧
    e.top.toInt = ⌊(1 - (word.2.y + word.2.height)) * height⌋ ∧
    e.right.toInt = ⌊(word.2.x + word.2.width) * width⌋ ∧
    e.bottom.toInt = ⌊(1 - word.2.y) * height⌋

theorem length_le_utf8ByteSize (s : String) : s.length ≤ s.utf8ByteSize := by
  induction s using String.push_induction with
  | empty => simp
  | push s c ih =>
    have := c.utf8Size_pos
    simp only [String.length_push,String.utf8ByteSize_push]
    omega

theorem cString_of_printable {s : String} (printable : '\x00' ∉ s.toList) : cString s = s := by
  have all : s.toList.takeWhile (· ≠ '\x00') = s.toList := by
    apply List.takeWhile_eq_self_iff.mpr
    intro c member
    simp only [ne_eq,decide_eq_true_eq]
    rintro rfl
    exact printable member
  rw [cString,all,String.ofList_toList]

theorem toInt_toInt32 {n bound : UInt32} (le : n ≤ bound) (small : bound.toNat < 2 ^ 31) :
    n.toInt32.toInt = n.toNat := by
  have below := UInt32.le_iff_toNat_le.mp le
  have unsigned : 2 * n.toBitVec.toNat < 2 ^ 32 := by
    change 2 * n.toNat < 2 ^ 32
    omega
  exact BitVec.toInt_eq_toNat_of_lt unsigned

/-- The entry of a word that was kept gets through, and its numbers stay what they are. -/
theorem RecognitionEntry.WellFormed.inImage {width height : Nat} (narrow : width < 2 ^ 31)
    (low : height < 2 ^ 31) {word : String × Rect} {e : RecognitionEntry}
    (formed : e.WellFormed (.ofNat width) (.ofNat height) word) (long : 3 ≤ word.1.length)
    (printable : '\x00' ∉ word.1.toList) :
    ∃ entry, e.textEntry = some entry ∧ InImage width height word entry := by
  have wide : (UInt32.ofNat width).toNat = width := UInt32.toNat_ofNat_of_lt' (Nat.lt_trans narrow (by decide))
  have high : (UInt32.ofNat height).toNat = height := UInt32.toNat_ofNat_of_lt' (Nat.lt_trans low (by decide))
  obtain ⟨text,⟨leftRight,rightmost⟩,⟨topBottom,lowest⟩,scaled⟩ := formed
  have same : cString e.text = word.1 := by rw [text,cString_of_printable printable]
  have enough : ¬(cString e.text).utf8ByteSize < 3 := by
    have := length_le_utf8ByteSize word.1
    rw [same]
    omega
  have right := toInt_toInt32 rightmost (by omega)
  have bottom := toInt_toInt32 lowest (by omega)
  have left := toInt_toInt32 (UInt32.le_trans leftRight rightmost) (by omega)
  have top := toInt_toInt32 (UInt32.le_trans topBottom lowest) (by omega)
  rw [UInt32.le_iff_toNat_le] at leftRight rightmost topBottom lowest
  refine ⟨_,by rw [RecognitionEntry.textEntry,if_neg enough],same,⟨?_,?_,?_⟩,⟨?_,?_,?_⟩,fun inside => ?_⟩
  · simp only [left]
    omega
  · simp only [left,right]
    omega
  · simp only [right]
    omega
  · simp only [top]
    omega
  · simp only [top,bottom]
    omega
  · simp only [bottom]
    omega
  · simpa only [left,top,right,bottom,wide,high] using scaled inside

theorem textEntries_inImage {width height : Nat} (narrow : width < 2 ^ 31) (low : height < 2 ^ 31)
    {words : List (String × Rect)} {entries : List RecognitionEntry}
    (formed : List.Forall₂ (fun word e => e.WellFormed (.ofNat width) (.ofNat height) word) words entries)
    (kept : ∀ word ∈ words, 3 ≤ word.1.length ∧ '\x00' ∉ word.1.toList) :
    List.Forall₂ (InImage width height) words (entries.filterMap RecognitionEntry.textEntry) := by
  induction formed with
  | nil => exact .nil
  | @cons word e words entries here _ ih =>
    obtain ⟨long,printable⟩ := kept word (by simp)
    obtain ⟨entry,through,inside⟩ := here.inImage narrow low long printable
    rw [List.filterMap_cons_some through]
    exact .cons inside (ih fun word member => kept word (by simp [member]))

theorem kept_counted {o : Observation} (counted : ∀ c ∈ o.topCandidate, ∀ word ∈ c.words, word.Counted)
    {word : String × Rect} (member : word ∈ o.kept) :
    3 ≤ word.1.length ∧ '\x00' ∉ word.1.toList := by
  unfold Observation.kept at member
  cases top : o.topCandidate with
  | none => simp [top] at member
  | some c =>
    simp only [top,Option.elim_some,Candidate.kept,List.mem_filterMap,List.mem_filter,
      decide_eq_true_eq,Option.map_eq_some_iff] at member
    obtain ⟨w,⟨inside,letters⟩,box,_,rfl⟩ := member
    have known := counted c (by simp [top]) w inside
    exact ⟨Nat.le_trans letters known.letters,known.printable⟩

theorem toNat_ofInt_eq_iff (n : Int) :
    ((UInt32.ofInt n).toNat : Int) = n ↔ 0 ≤ n ∧ n < 2 ^ 32 := by
  have value : ((UInt32.ofInt n).toNat : Int) = n % 2 ^ 32 := by
    have small : (n % 2 ^ 32).toNat < UInt32.size := by
      change (n % 2 ^ 32).toNat < 2 ^ 32
      omega
    rw [UInt32.ofInt,UInt32.toNat_ofNat_of_lt' small]
    omega
  rw [value]
  omega

/-- Where the request is answered once with observations, every word of three letters that has a box
is returned, in order, in numbers of the image; the frame keeps its number below `2 ^ 32`. -/
theorem words_returned (framework : Framework) (languages : String) (h : Heap Block) (f : VideoFrame)
    (observations : List Observation) (fits : Fits framework f)
    (image : createCGImage (framework.graphics f) (.ofNat f.height) (.ofNat f.bytesPerLine) = .ok none)
    (answer : framework.perform f
      ⟨languageList languages,8 / ((UInt32.ofNat f.height).toNat : ℚ)⟩ = ⟨[.observed observations],none⟩)
    (counted : ∀ o ∈ observations, ∀ c ∈ o.topCandidate, ∀ word ∈ c.words, word.Counted)
    (narrow : f.width < 2 ^ 31) (low : f.height < 2 ^ 31) :
    ∃ h' result, doOcr framework (some languages) h f = .returned (some result) h' ∧
      h'.block = h.block ∧
      List.Forall₂ (InImage f.width f.height) (observations.flatMap Observation.kept) result.entries ∧
      (result.frameNumber = f.frameNumber ↔ 0 ≤ f.frameNumber ∧ f.frameNumber < 2 ^ 32) := by
  obtain ⟨entries,collected,formed⟩ :=
    recognitionEntries_wellFormed (.ofNat f.width) (.ofNat f.height) observations
  have one : reports framework (some languages) f = [.recognized entries] := by
    simp only [reports,image,answer]
    simp [Completion.report,collected]
  obtain ⟨h',returned,same⟩ := (promise_set_once framework (some languages) h f fits).2.1 _ one
  refine ⟨h',_,returned,same,?_,toNat_ofInt_eq_iff f.frameNumber⟩
  apply textEntries_inImage narrow low formed
  intro word member
  obtain ⟨o,inside,kept⟩ := List.mem_flatMap.mp member
  exact kept_counted (counted o inside) kept

/-- Two words, the second too short to be kept. -/
def words : List Word := [⟨"word",4,some ⟨1/4,1/4,1/2,1/2⟩⟩,⟨"it",2,none⟩]

def answering : Framework where
  graphics _ := ⟨true,true,true⟩
  perform _ _ := ⟨[.observed [⟨some ⟨words,1⟩⟩]],none⟩

theorem words_returned_witness : let f : VideoFrame := ⟨2 ^ 32 + 7,[],200,100,600⟩
    ∃ h' result, doOcr answering (some "en-US") .empty f = .returned (some result) h' ∧
      List.Forall₂ (InImage 200 100) [("word",⟨1/4,1/4,1/2,1/2⟩)] result.entries ∧
      result.frameNumber ≠ f.frameNumber := by
  intro f
  have fits : Fits answering f := ⟨by decide,fun _ c member => by
    obtain rfl := List.mem_singleton.mp member
    change ([⟨some ⟨words,1⟩⟩].flatMap Observation.kept).length < 2 ^ 32
    decide⟩
  have counted : ∀ word ∈ words, word.Counted := by
    intro word member
    rcases List.mem_pair.mp member with rfl | rfl
    · exact ⟨by decide,by decide⟩
    · exact ⟨by decide,by decide⟩
  have image : createCGImage (answering.graphics f) (.ofNat f.height) (.ofNat f.bytesPerLine) =
      .ok none := by
    rw [createCGImage,if_neg (by decide)]
    rfl
  obtain ⟨h',result,returned,_,inside,number⟩ := words_returned answering "en-US" .empty f _ fits
    image rfl (by simpa using counted) (by decide) (by decide)
  exact ⟨h',result,returned,inside,mt number.mp (by decide)⟩

end OcrSuite.VisionKit
