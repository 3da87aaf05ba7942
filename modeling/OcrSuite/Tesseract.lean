import OcrSuite.Recogniser

/-! The provider that asks the Tesseract library: the loop over the words that the library found,
behind the contract of its iterator. -/
namespace OcrSuite.Tesseract

variable {F φ σ : Type}

/-! ## Trimming -/

/-- `std::isspace` of the C locale. The bytes of other characters are never among these. -/
def isspace (c : Char) : Bool := c = ' ' || ('\t' ≤ c && c ≤ '\r')

def ltrim (s : String) : String := .ofList (s.toList.dropWhile isspace)

def rtrim (s : String) : String := .ofList (s.toList.reverse.dropWhile isspace).reverse

def trim (s : String) : String := ltrim (rtrim s)

/-! ## The library -/

structure Box where
  left : Int32
  top : Int32
  right : Int32
  bottom : Int32
  deriving DecidableEq

/-- A word that was found, with a box or without. -/
structure PageWord (F : Type) where
  boundingBox : Option Box
  confidence : F
  text : String
  deriving DecidableEq

/-- `tesseract::ResultIterator` at the level of words. `next` also says whether it got to a word. -/
structure ResultIterator (σ F : Type) where
  begin : σ → σ
  next : σ → σ × Bool
  boundingBox : σ → Option Box
  confidence : σ → F
  getUTF8Text : σ → String

namespace ResultIterator

/-- The accessors tell of this word. -/
structure Describes (it : ResultIterator σ F) (s : σ) (w : PageWord F) : Prop where
  boundingBox : it.boundingBox s = w.boundingBox
  confidence : it.confidence s = w.confidence
  text : it.getUTF8Text s = w.text

/-- The iterator is on the first of these words, and `next` goes on to each of the others. -/
def Walks (it : ResultIterator σ F) : σ → List (PageWord F) → Prop
  | s, [] => (it.next s).2 = false
  | s, [w] => it.Describes s w ∧ (it.next s).2 = false
  | s, w :: v :: rest => it.Describes s w ∧ (it.next s).2 = true ∧ Walks it (it.next s).1 (v :: rest)

end ResultIterator

/-- What the library makes of a frame: the code that `Recognize` returns, and the iterator. -/
structure Api (σ F φ : Type) where
  recognize : Frame φ → Int
  getIterator : Frame φ → Option σ
  iterator : ResultIterator σ F

/-! ## The provider -/

def minLettersThreshold : Nat := 3

/-- The loop of `do_ocr`, for at most so many rounds. -/
def collect (it : ResultIterator σ F) : Nat → σ → List (TextEntry F) → Option (List (TextEntry F))
  | 0, _, _ => none
  | fuel + 1, s, entries =>
    if (it.next s).2 then
      let s := (it.next s).1
      match it.boundingBox s with
      | none => collect it fuel s entries
      | some box =>
        let entry : TextEntry F :=
          ⟨box.left,box.top,box.right,box.bottom,it.confidence s,trim (it.getUTF8Text s)⟩
        if entry.text.utf8ByteSize < minLettersThreshold then collect it fuel s entries
        else collect it fuel s (entries ++ [entry])
    else some entries

/-- There is no outcome if the loop did not end in time. -/
def doOcr (api : Api σ F φ) (fuel : Nat) (f : Frame φ) : Option (Option (OcrResult F)) :=
  if api.recognize f ≠ 0 then some none
  else match api.getIterator f with
    | none => some none
    | some s => (collect api.iterator fuel (api.iterator.begin s) []).map fun entries =>
      some ⟨f.frameNumber,entries⟩

def provider (api : Api σ F φ) (fuel : Nat) : Recogniser.Provider F φ := fun f =>
  (doOcr api fuel f).join.map OcrResult.entries

/-- A word that is worth keeping, as an entry. -/
def PageWord.entry (w : PageWord F) : Option (TextEntry F) :=
  w.boundingBox.bind fun box =>
    if minLettersThreshold ≤ (trim w.text).utf8ByteSize then
      some ⟨box.left,box.top,box.right,box.bottom,w.confidence,trim w.text⟩
    else none

theorem PageWord.entry_eq_none_iff {w : PageWord F} : w.entry = none ↔
    w.boundingBox = none ∨ (trim w.text).utf8ByteSize < minLettersThreshold := by
  cases box : w.boundingBox <;> simp [entry,box]

/-- The loop advances before it looks, so it never looks at the word that it starts on. -/
theorem collect_eq (it : ResultIterator σ F) {page : List (PageWord F)} {s : σ}
    (walks : it.Walks s page) (entries : List (TextEntry F)) {fuel : Nat}
    (enough : page.length < fuel) :
    collect it fuel s entries = some (entries ++ page.tail.filterMap PageWord.entry) := by
  induction page generalizing s entries fuel with
  | nil =>
    obtain ⟨fuel,rfl⟩ := Nat.exists_eq_add_one_of_ne_zero (Nat.ne_zero_of_lt enough)
    have done : (it.next s).2 = false := walks
    simp [collect,done]
  | cons w rest ih =>
    obtain ⟨fuel,rfl⟩ := Nat.exists_eq_add_one_of_ne_zero (Nat.ne_zero_of_lt enough)
    have below : rest.length < fuel := by simpa using enough
    cases rest with
    | nil =>
      have done : (it.next s).2 = false := walks.2
      simp [collect,done]
    | cons v rest =>
      obtain ⟨_,more,later⟩ := walks
      have here : it.Describes (it.next s).1 v := by
        cases rest with
        | nil => exact later.1
        | cons => exact later.1
      have next (entries : List (TextEntry F)) := ih later entries below
      rw [collect,if_pos more]
      simp only [here.boundingBox,here.confidence,here.text,List.tail_cons,List.filterMap_cons]
      cases box : v.boundingBox with
      | none => simp [PageWord.entry,box,next]
      | some b =>
        by_cases short : (trim v.text).utf8ByteSize < minLettersThreshold
        · simp [PageWord.entry,box,short,Nat.not_le.mpr short,next]
        · simp [PageWord.entry,box,short,Nat.not_lt.mp short,next]

/-- The results are those that the consumer of the frame stores. -/
theorem doOcr_provider (api : Api σ F φ) (fuel : Nat) (f : Frame φ) :
    Recogniser.doOcr (provider api fuel) f = (doOcr api fuel f).join := by
  unfold Recogniser.doOcr provider doOcr
  split
  · rfl
  · cases api.getIterator f with
    | none => rfl
    | some s =>
      cases outcome : collect api.iterator fuel (api.iterator.begin s) [] <;> simp [outcome]

/-- An iterator over words that are there as a list. -/
def listIterator : ResultIterator (List (PageWord Int)) Int where
  begin s := s
  next s := if s.length ≤ 1 then (s,false) else (s.tail,true)
  boundingBox s := s.head?.bind PageWord.boundingBox
  confidence s := (s.head?.map PageWord.confidence).getD 0
  getUTF8Text s := (s.head?.map PageWord.text).getD ""

theorem listIterator_walks (page : List (PageWord Int)) : listIterator.Walks page page := by
  have describes (w : PageWord Int) (rest : List (PageWord Int)) :
      listIterator.Describes (w :: rest) w := ⟨rfl,rfl,rfl⟩
  induction page with
  | nil => rfl
  | cons w rest ih =>
    cases rest with
    | nil => exact ⟨describes w [],rfl⟩
    | cons v rest => exact ⟨describes w (v :: rest),rfl,ih⟩

/-- Every image is recognised as one page. -/
def listApi (page : List (PageWord Int)) : Api (List (PageWord Int)) Int Unit where
  recognize _ := 0
  getIterator _ := some page
  iterator := listIterator

/-- The only word of the page is lost. -/
theorem first_word_lost : ¬ ∀ (api : Api (List (PageWord Int)) Int Unit) (f : Frame Unit)
    (s page : List (PageWord Int)), api.recognize f = 0 → api.getIterator f = some s →
      api.iterator.Walks (api.iterator.begin s) page → ∀ fuel, page.length < fuel →
        doOcr api fuel f = some (some ⟨f.frameNumber,page.filterMap PageWord.entry⟩) := by
  intro claim
  let page : List (PageWord Int) := [⟨some ⟨1,2,3,4⟩,90,"word"⟩]
  have kept := claim (listApi page) ⟨7,()⟩ page page rfl rfl (listIterator_walks page) 2 (by decide)
  have lost : doOcr (listApi page) 2 ⟨7,()⟩ = some (some ⟨7,[]⟩) := rfl
  exact absurd (lost.symm.trans kept) (by decide)

/-- All words that are worth keeping are returned exactly if the first word of the page has no box
or too short a text. -/
theorem keeps_every_word_iff (api : Api σ F φ) (f : Frame φ) (s : σ) (page : List (PageWord F))
    (recognised : api.recognize f = 0) (iterator : api.getIterator f = some s)
    (walks : api.iterator.Walks (api.iterator.begin s) page) {fuel : Nat}
    (enough : page.length < fuel) :
    doOcr api fuel f = some (some ⟨f.frameNumber,page.filterMap PageWord.entry⟩) ↔
      ∀ w ∈ page.head?,
        w.boundingBox = none ∨ (trim w.text).utf8ByteSize < minLettersThreshold := by
  have outcome : doOcr api fuel f =
      some (some ⟨f.frameNumber,page.tail.filterMap PageWord.entry⟩) := by
    simp [doOcr,recognised,iterator,collect_eq api.iterator walks [] enough]
  rw [outcome]
  simp only [Option.some.injEq,OcrResult.mk.injEq,true_and,← PageWord.entry_eq_none_iff]
  cases page with
  | nil => simp
  | cons w rest =>
    cases kept : w.entry with
    | none => simp [kept]
    | some entry => simp [kept]

/-- A page that begins with a letter by itself. -/
theorem keeps_every_word_iff_witness :
    let page : List (PageWord Int) :=
      [⟨some ⟨0,0,9,9⟩,80," a "⟩,⟨some ⟨1,2,3,4⟩,90," word\n"⟩,⟨none,70,"other"⟩]
    doOcr (listApi page) 4 ⟨7,()⟩ = some (some ⟨7,[⟨1,2,3,4,90,"word"⟩]⟩) ∧
    (doOcr (listApi page) 4 ⟨7,()⟩ = some (some ⟨7,page.filterMap PageWord.entry⟩) ↔
      ∀ w ∈ page.head?,
        w.boundingBox = none ∨ (trim w.text).utf8ByteSize < minLettersThreshold) := by
  intro page
  exact ⟨by decide,keeps_every_word_iff (listApi page) ⟨7,()⟩ page page rfl rfl
    (listIterator_walks page) (by decide)⟩

end OcrSuite.Tesseract
