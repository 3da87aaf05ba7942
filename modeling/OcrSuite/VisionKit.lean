import Mathlib.Data.List.Forall2
import OcrSuite.Rounding

/-! The provider that asks the Vision framework: the words of an observation with their boxes, which
are clamped to the image, turned to a top-left origin and scaled. Numbers are exact rationals. -/
namespace OcrSuite.VisionKit

open Rounding

/-! ## Rectangles -/

structure Rect where
  x : ℚ
  y : ℚ
  width : ℚ
  height : ℚ
  deriving DecidableEq

def clamp (rect : Rect) : Rect :=
  let clampedX := max 0 (min 1 rect.x)
  let clampedY := max 0 (min 1 rect.y)
  let maxWidth := 1 - clampedX
  let maxHeight := 1 - clampedY
  ⟨clampedX,clampedY,max 0 (min maxWidth rect.width),max 0 (min maxHeight rect.height)⟩

/-- The rectangle is a part of the unit square. -/
structure Rect.Inside (rect : Rect) : Prop where
  left : 0 ≤ rect.x
  bottom : 0 ≤ rect.y
  width : 0 ≤ rect.width
  height : 0 ≤ rect.height
  right : rect.x + rect.width ≤ 1
  top : rect.y + rect.height ≤ 1

theorem clamp_inside (rect : Rect) : (clamp rect).Inside := by
  have fits (x width : ℚ) : max 0 (min 1 x) + max 0 (min (1 - max 0 (min 1 x)) width) ≤ 1 := by
    have low : max 0 (min 1 x) ≤ 1 := max_le zero_le_one (min_le_left _ _)
    have part : max 0 (min (1 - max 0 (min 1 x)) width) ≤ 1 - max 0 (min 1 x) :=
      max_le (sub_nonneg.mpr low) (min_le_left _ _)
    linarith
  exact ⟨le_max_left _ _,le_max_left _ _,le_max_left _ _,le_max_left _ _,fits _ _,fits _ _⟩

theorem clamp_of_inside {rect : Rect} (inside : rect.Inside) : clamp rect = rect := by
  obtain ⟨left,bottom,width,height,right,top⟩ := inside
  have x : max 0 (min 1 rect.x) = rect.x := by
    rw [min_eq_right (by linarith),max_eq_right left]
  have y : max 0 (min 1 rect.y) = rect.y := by
    rw [min_eq_right (by linarith),max_eq_right bottom]
  unfold clamp
  simp only [x,y]
  rw [min_eq_right (by linarith),max_eq_right width,min_eq_right (by linarith),max_eq_right height]

/-! ## Conversion -/

/-- The conversion of a number to an unsigned one, which traps outside of the type's range. -/
def uint32 (x : ℚ) : Option UInt32 :=
  if -1 < x ∧ x < 2 ^ 32 then some (.ofNat (trunc x).toNat) else none

/-- Numbers within an image are rounded down. -/
theorem uint32_of_le {x : ℚ} {bound : UInt32} (nonneg : 0 ≤ x) (le : x ≤ bound.toNat) :
    ∃ n, uint32 x = some n ∧ (n.toNat : ℤ) = ⌊x⌋ ∧ n ≤ bound := by
  have below : ((bound.toNat : ℕ) : ℚ) < 2 ^ 32 := by exact_mod_cast bound.toNat_lt
  have floor_nonneg : 0 ≤ ⌊x⌋ := Int.floor_nonneg.mpr nonneg
  have floor_le : ⌊x⌋ ≤ bound.toNat := by
    have := Int.floor_le_floor le
    rwa [Int.floor_natCast] at this
  have value : (UInt32.ofNat ⌊x⌋.toNat).toNat = ⌊x⌋.toNat := by
    have := bound.toNat_lt
    have fits : ⌊x⌋.toNat < 2 ^ 32 := by omega
    exact UInt32.toNat_ofNat_of_lt' fits
  refine ⟨.ofNat ⌊x⌋.toNat,?_,?_,?_⟩
  · rw [uint32,if_pos ⟨by linarith,by linarith⟩,trunc_of_nonneg nonneg]
  · rw [value]
    omega
  · rw [UInt32.le_iff_toNat_le,value]
    omega

/-- A part of the unit interval is scaled to a number within the image. -/
theorem uint32_of_part {x : ℚ} (nonneg : 0 ≤ x) (le : x ≤ 1) (bound : UInt32) :
    ∃ n, uint32 (x * bound.toNat) = some n ∧ (n.toNat : ℤ) = ⌊x * bound.toNat⌋ ∧ n ≤ bound := by
  have scale : (0 : ℚ) ≤ bound.toNat := Nat.cast_nonneg _
  exact uint32_of_le (mul_nonneg nonneg scale) (mul_le_of_le_one_left scale le)

theorem le_of_floor {x y : ℚ} (le : x ≤ y) {m n : UInt32} (here : (m.toNat : ℤ) = ⌊x⌋)
    (there : (n.toNat : ℤ) = ⌊y⌋) : m ≤ n := by
  have := Int.floor_le_floor le
  rw [UInt32.le_iff_toNat_le]
  omega

/-! ## Observations -/

/-- A word of the text with the number of its letters. There is no box where asking for it fails. -/
structure Word where
  text : String
  count : Nat
  boundingBox : Option Rect
  deriving DecidableEq

/-- The text that is most likely what was observed, cut into its words. -/
structure Candidate where
  words : List Word
  confidence : ℚ

structure Observation where
  topCandidate : Option Candidate

structure RecognitionEntry where
  text : String
  left : UInt32
  top : UInt32
  right : UInt32
  bottom : UInt32
  confidence : ℚ
  deriving DecidableEq

namespace RecognitionEntry

/-- The entry of a word, unless a conversion traps. -/
def ofBox (imageWidth imageHeight : ℚ) (confidence : ℚ) (word : String) (box : Rect) :
    Option RecognitionEntry := do
  let boundingBox := clamp box
  let textWidth := boundingBox.width
  let textHeight := boundingBox.height
  let x := boundingBox.x
  let y := 1 - boundingBox.y - boundingBox.height
  let cgLeft := x * imageWidth
  let cgTop := y * imageHeight
  some {
    text := word
    left := ← uint32 cgLeft
    top := ← uint32 cgTop
    right := ← uint32 (cgLeft + textWidth * imageWidth)
    bottom := ← uint32 (cgTop + textHeight * imageHeight)
    confidence := confidence * 100 }

def minLetters : Nat := 3

/-- The loop over the words. -/
def collect (imageWidth imageHeight : ℚ) (confidence : ℚ) :
    List Word → List RecognitionEntry → Option (List RecognitionEntry)
  | [], result => some result
  | word :: rest, result =>
    if word.count < minLetters then collect imageWidth imageHeight confidence rest result
    else match word.boundingBox with
      | none => collect imageWidth imageHeight confidence rest result
      | some box => do
        let normalized ← ofBox imageWidth imageHeight confidence word.text box
        collect imageWidth imageHeight confidence rest (result ++ [normalized])

/-- `RecognitionEntry.from`. -/
def fromObservation (observation : Observation) (imageWidth imageHeight : ℚ) :
    Option (List RecognitionEntry) :=
  match observation.topCandidate with
  | none => some []
  | some topCandidate => collect imageWidth imageHeight topCandidate.confidence topCandidate.words []

end RecognitionEntry

/-- The words that become entries, with their boxes. -/
def Candidate.kept (c : Candidate) : List (String × Rect) :=
  (c.words.filter fun word => RecognitionEntry.minLetters ≤ word.count).filterMap fun word =>
    word.boundingBox.map fun box => (word.text,box)

/-- The words of an observation that become entries. -/
def Observation.kept (o : Observation) : List (String × Rect) :=
  o.topCandidate.elim [] Candidate.kept

/-- The entry has a box in the image, and that of the word if this is in the image. -/
structure RecognitionEntry.WellFormed (w h : UInt32) (word : String × Rect) (e : RecognitionEntry) :
    Prop where
  text : e.text = word.1
  horizontal : e.left ≤ e.right ∧ e.right ≤ w
  vertical : e.top ≤ e.bottom ∧ e.bottom ≤ h
  scaled : word.2.Inside →
    (e.left.toNat : ℤ) = ⌊word.2.x * w.toNat⌋ ∧
    (e.top.toNat : ℤ) = ⌊(1 - (word.2.y + word.2.height)) * h.toNat⌋ ∧
    (e.right.toNat : ℤ) = ⌊(word.2.x + word.2.width) * w.toNat⌋ ∧
    (e.bottom.toNat : ℤ) = ⌊(1 - word.2.y) * h.toNat⌋

namespace RecognitionEntry

theorem ofBox_wellFormed (w h : UInt32) (confidence : ℚ) (word : String) (box : Rect) :
    ∃ e, ofBox w.toNat h.toNat confidence word box = some e ∧ e.WellFormed w h (word,box) := by
  obtain ⟨left,bottom,width,height,right,top⟩ := clamp_inside box
  obtain ⟨l,leftward,floorLeft,_⟩ := uint32_of_part left (by linarith) w
  obtain ⟨r,rightward,floorRight,inWidth⟩ := uint32_of_part (add_nonneg left width) right w
  obtain ⟨t,topmost,floorTop,_⟩ : ∃ n, uint32 ((1 - (clamp box).y - (clamp box).height) * h.toNat) = some n ∧
      (n.toNat : ℤ) = ⌊(1 - (clamp box).y - (clamp box).height) * h.toNat⌋ ∧ n ≤ h :=
    uint32_of_part (by linarith) (by linarith) h
  obtain ⟨b,lowest,floorBottom,inHeight⟩ : ∃ n, uint32 ((1 - (clamp box).y) * h.toNat) = some n ∧
      (n.toNat : ℤ) = ⌊(1 - (clamp box).y) * h.toNat⌋ ∧ n ≤ h :=
    uint32_of_part (by linarith) (by linarith) h
  have scaleW : (0 : ℚ) ≤ w.toNat := Nat.cast_nonneg _
  have scaleH : (0 : ℚ) ≤ h.toNat := Nat.cast_nonneg _
  have across : (clamp box).x * w.toNat + (clamp box).width * w.toNat =
      ((clamp box).x + (clamp box).width) * w.toNat := by ring
  have down : (1 - (clamp box).y - (clamp box).height) * h.toNat + (clamp box).height * h.toNat =
      (1 - (clamp box).y) * h.toNat := by ring
  refine ⟨⟨word,l,t,r,b,confidence * 100⟩,?_,rfl,⟨?_,inWidth⟩,⟨?_,inHeight⟩,fun inside => ?_⟩
  · simp only [ofBox,across,down,leftward,rightward,topmost,lowest,Option.bind_eq_bind,Option.bind_some]
  · exact le_of_floor (mul_le_mul_of_nonneg_right (by linarith) scaleW) floorLeft floorRight
  · exact le_of_floor (mul_le_mul_of_nonneg_right (by linarith) scaleH) floorTop floorBottom
  · rw [clamp_of_inside inside] at floorLeft floorRight floorTop floorBottom
    rw [sub_sub] at floorTop
    exact ⟨floorLeft,floorTop,floorRight,floorBottom⟩

theorem collect_wellFormed (w h : UInt32) (confidence : ℚ) (words : List Word)
    (result : List RecognitionEntry) :
    ∃ entries, collect w.toNat h.toNat confidence words result = some (result ++ entries) ∧
      List.Forall₂ (fun word e => e.WellFormed w h word) (Candidate.kept ⟨words,confidence⟩) entries := by
  induction words generalizing result with
  | nil => exact ⟨[],by simp [collect],.nil⟩
  | cons word rest ih =>
    by_cases short : word.count < minLetters
    · obtain ⟨entries,collected,formed⟩ := ih result
      refine ⟨entries,by rw [collect,if_pos short,collected],?_⟩
      simpa [Candidate.kept,Nat.not_le.mpr short] using formed
    · cases asked : word.boundingBox with
      | none =>
        obtain ⟨entries,collected,formed⟩ := ih result
        refine ⟨entries,by simp only [collect,if_neg short,asked,collected],?_⟩
        simpa [Candidate.kept,Nat.not_lt.mp short,asked] using formed
      | some box =>
        obtain ⟨e,entered,first⟩ := ofBox_wellFormed w h confidence word.text box
        obtain ⟨entries,collected,formed⟩ := ih (result ++ [e])
        refine ⟨e :: entries,?_,?_⟩
        · simp only [collect,if_neg short,asked,entered,Option.bind_eq_bind,Option.bind_some,collected,
            List.append_assoc,List.singleton_append]
        · simpa [Candidate.kept,Nat.not_lt.mp short,asked] using List.Forall₂.cons first formed

/-- No conversion traps, and the entries are those of the words that are kept, with boxes in the
image. -/
theorem boxes_well_formed (o : Observation) (w h : UInt32) :
    ∃ entries, fromObservation o w.toNat h.toNat = some entries ∧
      List.Forall₂ (fun word e => e.WellFormed w h word) o.kept entries := by
  unfold fromObservation Observation.kept
  cases o.topCandidate with
  | none => exact ⟨[],rfl,.nil⟩
  | some c => simpa using collect_wellFormed w h c.confidence c.words []

end RecognitionEntry

end OcrSuite.VisionKit
