import OcrSuite.Recogniser
import OcrSuite.Sequence

/-! The consumer's loop with the bitmaps that it saves for debugging: the writer swaps the colours
of the very frame that is recognised afterwards. -/
namespace OcrSuite

open Sequence

/-- The pixels of a decoded frame, as three bytes each, row by row without gaps. -/
structure Image where
  data : List UInt8
  width : UInt32
  height : UInt32
  size : data.length = 3 * (width.toNat * height.toNat)
  positive : height ≠ 0
  deriving DecidableEq

namespace Bitmap

variable {F : Type}

/-! ## The file -/

def fileHeaderSize : Nat := 14

def infoHeaderSize : Nat := 40

/-- The bytes of a number, the lowest first. -/
def littleEndian (n : Nat) : List UInt8 :=
  [.ofNat n,.ofNat (n >>> 8),.ofNat (n >>> 16),.ofNat (n >>> 24)]

def makeFileHeader (height stride : UInt32) : List UInt8 :=
  let fileSize := fileHeaderSize + infoHeaderSize + (stride * height).toNat
  [66,77] ++ littleEndian fileSize ++ List.replicate 4 0 ++
    [.ofNat (fileHeaderSize + infoHeaderSize)] ++ List.replicate 3 0

def makeInfoHeader (width height : UInt32) : List UInt8 :=
  [.ofNat infoHeaderSize] ++ List.replicate 3 0 ++ littleEndian width.toNat ++
    littleEndian height.toNat ++ [1,0,24] ++ List.replicate 25 0

/-- The red and the blue byte of every pixel change places. -/
def swapRb : List UInt8 → List UInt8
  | r :: g :: b :: rest => b :: g :: r :: swapRb rest
  | rest => rest

@[simp] theorem length_swapRb (data : List UInt8) : (swapRb data).length = data.length := by
  induction data using swapRb.induct with
  | case1 r g b rest ih => simp [swapRb,ih]
  | case2 rest short => rw [swapRb]; exact short

/-- `save_image`: what it leaves of the image, and the file. -/
def saveImage (image : Image) (flipRb : Bool) : Image × List UInt8 :=
  let widthInBytes := (image.width * 3).toNat
  let paddingSize := (4 - widthInBytes % 4) % 4
  let stride := widthInBytes + paddingSize
  let image := if flipRb then { image with
    data := swapRb image.data
    size := (length_swapRb image.data).trans image.size } else image
  let rows := (List.range image.height.toNat).reverse.flatMap fun i =>
    (image.data.drop (i * widthInBytes)).take (3 * image.width.toNat) ++ List.replicate paddingSize 0
  (image,makeFileHeader image.height (.ofNat stride) ++ makeInfoHeader image.width image.height ++ rows)

/-! ## The consumer -/

/-- What a consumer has done: the frames it gave to the provider, the results it got, and the files
it wrote. -/
structure Outcome (F : Type) where
  calls : List (Frame Image)
  results : List (OcrResult F)
  files : List (String × List UInt8)

/-- A consumer as it is set up. What its filter says may depend on the results so far. -/
structure Consumer (F : Type) where
  bitmapDirectory : String
  filter : List (OcrResult F) → Int → Bool
  provider : Recogniser.Provider F Image

namespace Consumer

def getFramePath (c : Consumer F) (frameNumber : Int) : String :=
  c.bitmapDirectory ++ "/out-" ++ toString frameNumber ++ ".bmp"

/-- One round of `ocr::start`. -/
def handle (c : Consumer F) (saveBitmaps : Bool) (o : Outcome F) (f : Frame Image) : Outcome F :=
  let (f,o) :=
    if saveBitmaps then
      let (image,file) := saveImage f.image true
      ({ f with image := image },{ o with files := o.files ++ [(c.getFramePath f.frameNumber,file)] })
    else (f,o)
  if c.filter o.results f.frameNumber then
    { o with
      calls := o.calls ++ [f]
      results := o.results ++ (Recogniser.doOcr c.provider f).toList }
  else o

/-- `ocr::start` on the frames that it takes from the queue. -/
def start (c : Consumer F) (saveBitmaps : Bool) (frames : List (Frame Image)) : Outcome F :=
  frames.foldl (c.handle saveBitmaps) ⟨[],[],[]⟩

end Consumer

/-- The provider gets the same frames, and the results are the same. -/
def Outcome.SameRecognition (o o' : Outcome F) : Prop := o.calls = o'.calls ∧ o.results = o'.results

end Bitmap

/-- In every pixel red and blue are equal. -/
def Image.Symmetric (image : Image) : Prop := ∀ i, image.data[3 * i]? = image.data[3 * i + 2]?

namespace Bitmap

/-- Induction over the pixels of an image. -/
@[elab_as_elim] theorem pixel_induction {P : List UInt8 → Prop} (empty : P [])
    (pixel : ∀ r g b rest, rest.length % 3 = 0 → P rest → P (r :: g :: b :: rest)) (data : List UInt8)
    (whole : data.length % 3 = 0) : P data := by
  induction data using swapRb.induct with
  | case1 r g b rest ih =>
    have shorter : rest.length % 3 = 0 := by
      simp only [List.length_cons] at whole
      omega
    exact pixel r g b rest shorter (ih shorter)
  | case2 rest short =>
    match rest with
    | [] => exact empty
    | [_] | [_,_] => simp at whole
    | r :: g :: b :: rest => exact absurd rfl (short r g b rest)

theorem swapRb_eq_self_iff {data : List UInt8} (whole : data.length % 3 = 0) :
    swapRb data = data ↔ ∀ i, data[3 * i]? = data[3 * i + 2]? := by
  refine pixel_induction ?_ (fun r g b rest _ ih => ?_) data whole
  · simp [swapRb]
  simp only [swapRb,List.cons.injEq,true_and]
  rw [ih]
  constructor
  · rintro ⟨same,_,later⟩ i
    cases i with
    | zero => simp [same]
    | succ i => simpa [Nat.mul_add] using later i
  · intro same
    have first : r = b := by simpa using same 0
    exact ⟨first.symm,first,fun i => by simpa [Nat.mul_add] using same (i + 1)⟩

/-- The writer leaves an image as it was exactly if that is symmetric. -/
theorem saveImage_keeps_iff (image : Image) : (saveImage image true).1 = image ↔ image.Symmetric := by
  obtain ⟨data,width,height,size,positive⟩ := image
  simpa [saveImage,Image.Symmetric] using swapRb_eq_self_iff (by omega)

namespace Consumer

variable (c : Consumer F)

/-- A round with a bitmap is one without on the image that the writer leaves. -/
theorem handle_true (o : Outcome F) (f : Frame Image) : (c.handle true o f).SameRecognition
    (c.handle false o { f with image := (saveImage f.image true).1 }) := by
  unfold handle
  simp only [if_true,Bool.false_eq_true,if_false]
  split <;> exact ⟨rfl,rfl⟩

theorem handle_false (o : Outcome F) (f : Frame Image) : c.handle false o f =
    if c.filter o.results f.frameNumber then
      { o with
        calls := o.calls ++ [f]
        results := o.results ++ (Recogniser.doOcr c.provider f).toList }
    else o := rfl

theorem handle_calls (saveBitmaps : Bool) (o : Outcome F) (f : Frame Image) :
    o.calls <+: (c.handle saveBitmaps o f).calls := by
  cases saveBitmaps with
  | true =>
    rw [(c.handle_true o f).1,handle_false]
    split <;> simp
  | false =>
    rw [handle_false]
    split <;> simp

theorem foldl_calls (saveBitmaps : Bool) (o : Outcome F) (frames : List (Frame Image)) :
    o.calls <+: (frames.foldl (c.handle saveBitmaps) o).calls := by
  induction frames generalizing o with
  | nil => exact List.prefix_rfl
  | cons f rest ih => exact (c.handle_calls saveBitmaps o f).trans (ih _)

/-- The calls show whether the writer changed a frame that is let through. -/
theorem handle_same_iff {o o' : Outcome F} (same : o.SameRecognition o') (f : Frame Image) :
    (c.handle true o f).SameRecognition (c.handle false o' f) ↔
      (c.filter o'.results f.frameNumber = true → f.image.Symmetric) := by
  have saved := c.handle_true o f
  rw [Outcome.SameRecognition,saved.1,saved.2,handle_false,handle_false,same.1,same.2]
  by_cases passes : c.filter o'.results f.frameNumber = true
  · rw [if_pos passes,if_pos passes]
    simp only [passes,forall_const,← saveImage_keeps_iff]
    constructor
    · rintro ⟨calls,_⟩
      have last : ({ f with image := (saveImage f.image true).1 } : Frame Image) = f := by simpa using calls
      exact congrArg Frame.image last
    · intro kept
      rw [kept]
      exact ⟨rfl,rfl⟩
  · simp [passes,same.1,same.2]

/-- Two runs that agree so far go on to do so exactly if every frame that the filter lets through is
symmetric. -/
theorem foldl_same_iff {o o' : Outcome F} (same : o.SameRecognition o') (frames : List (Frame Image)) :
    (frames.foldl (c.handle true) o).SameRecognition (frames.foldl (c.handle false) o') ↔
      EveryPlace (fun front f => c.filter (front.foldl (c.handle false) o').results f.frameNumber = true →
        f.image.Symmetric) frames := by
  induction frames generalizing o o' with
  | nil => simpa using same
  | cons f rest ih =>
    simp only [everyPlace_cons,List.foldl_cons,List.foldl_nil]
    rw [← c.handle_same_iff same f]
    by_cases next : (c.handle true o f).SameRecognition (c.handle false o' f)
    · rw [ih next]
      exact (and_iff_right next).symm
    · -- both runs have made the same number of calls, and later ones do not hide a difference
      refine iff_of_false (fun final => next ?_) fun both => next both.1
      refine (c.handle_same_iff same f).mpr fun passes => (saveImage_keeps_iff f.image).mp ?_
      have saving := c.foldl_calls true (c.handle true o f) rest
      have plain := c.foldl_calls false (c.handle false o' f) rest
      have saved : (c.handle true o f).calls =
          o'.calls ++ [{ f with image := (saveImage f.image true).1 }] := by
        rw [(c.handle_true o f).1,handle_false,same.1,same.2,if_pos passes]
      have unsaved : (c.handle false o' f).calls = o'.calls ++ [f] := by
        rw [handle_false,if_pos passes]
      rw [final.1,saved] at saving
      rw [unsaved] at plain
      have calls := (List.prefix_of_prefix_length_le saving plain (by simp)).eq_of_length (by simp)
      have last : ({ f with image := (saveImage f.image true).1 } : Frame Image) = f := by simpa using calls
      exact congrArg Frame.image last

end Consumer

/-- The red pixel of the only frame reaches the provider as a blue one. -/
theorem bitmap_changes_frame : ¬ ∀ (c : Consumer Int) (frames : List (Frame Image)),
    (c.start true frames).SameRecognition (c.start false frames) := by
  intro claim
  let red : Frame Image := ⟨1,⟨[255,0,0],1,1,rfl,by decide⟩⟩
  have calls := (claim ⟨"out",fun _ _ => true,fun _ => some []⟩ [red]).1
  exact absurd calls (by decide)

/-- Saving bitmaps goes unnoticed exactly if red and blue are equal in all pixels of each frame that
the filter lets through. -/
theorem saving_bitmaps_unnoticed_iff (c : Consumer F) (frames : List (Frame Image)) :
    (c.start true frames).SameRecognition (c.start false frames) ↔
      EveryPlace (fun front f => c.filter (c.start false front).results f.frameNumber = true →
        f.image.Symmetric) frames :=
  c.foldl_same_iff ⟨rfl,rfl⟩ frames

end Bitmap

end OcrSuite
