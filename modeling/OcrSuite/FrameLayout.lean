import Mathlib.Tactic.Ring
import OcrSuite.ByteFormat

/-! The pixels of a frame as its producers lay them out, and as the providers read them: three bytes
a pixel, in rows of a length that the frame says. -/
namespace OcrSuite.FrameLayout

open ByteFormat

/-! ## Frames -/

/-- `decoder::frame`. -/
structure VideoFrame where
  frameNumber : Int
  data : List UInt8
  width : Nat
  height : Nat
  bytesPerLine : Nat
  deriving DecidableEq

/-- What the Tesseract provider passes to `SetImage`. -/
def bytesPerPixel : Nat := 3

/-- What the VisionKit provider makes an image with. -/
def bitsPerPixel : Nat := 24

namespace VideoFrame

/-- A byte of a pixel where the Tesseract provider finds it. -/
def byte (f : VideoFrame) (x y c : Nat) : Option UInt8 :=
  f.data[y * f.bytesPerLine + bytesPerPixel * x + c]?

def visionKitByte (f : VideoFrame) (x y c : Nat) : Option UInt8 :=
  f.data[y * f.bytesPerLine + bitsPerPixel * x / 8 + c]?

/-- The bytes of each pixel are there, and they are its red, green and blue. -/
def HonoursRgb24 (f : VideoFrame) (colour : Nat → Nat → Nat → Option UInt8) : Prop :=
  ∀ x < f.width, ∀ y < f.height, ∀ c < 3, ∃ b, f.byte x y c = some b ∧ colour x y c = some b

/-- Both providers read the same bytes. -/
theorem visionKitByte_eq (f : VideoFrame) : f.visionKitByte = f.byte := by
  funext x y c
  have place : bitsPerPixel * x / 8 = bytesPerPixel * x := by
    simp only [bitsPerPixel,bytesPerPixel]
    omega
  rw [visionKitByte,byte,place]

end VideoFrame

/-- Pixels of a row and rows of an image come one after the other. -/
theorem place_lt {width height n x y c : Nat} (column : x < width) (row : y < height) (inside : c < n) :
    (y * width + x) * n + c < width * height * n := by
  have pixel : y * width + x + 1 ≤ width * height := by
    calc y * width + x + 1 ≤ (y + 1) * width := by rw [Nat.succ_mul]; omega
      _ ≤ height * width := Nat.mul_le_mul_right _ row
      _ = width * height := Nat.mul_comm _ _
  calc (y * width + x) * n + c < (y * width + x + 1) * n := by rw [Nat.succ_mul]; omega
    _ ≤ width * height * n := Nat.mul_le_mul_right _ pixel

/-! ## A frame of the decoder -/

/-- What the scaler makes of a decoded picture, in lines as the library allocates them without
alignment. -/
structure RgbFrame where
  width : Nat
  height : Nat
  linesize : Nat
  data : List UInt8
  unaligned : linesize = 3 * width
  size : data.length = height * linesize

/-- `av_image_copy_to_buffer`: the lines without what may follow their pixels. -/
def copyToBuffer (rgb : RgbFrame) : List UInt8 :=
  (List.range rgb.height).flatMap fun y => (rgb.data.drop (y * rgb.linesize)).take (3 * rgb.width)

def toFrame (rgb : RgbFrame) (frameNumber : Int) : VideoFrame where
  frameNumber := frameNumber
  width := rgb.width
  height := rgb.height
  data := copyToBuffer rgb
  bytesPerLine := rgb.linesize

/-- The decoder's frames are laid out as the providers read them. -/
theorem toFrame_honours (rgb : RgbFrame) (frameNumber : Int) :
    (toFrame rgb frameNumber).HonoursRgb24 fun x y c => rgb.data[y * rgb.linesize + 3 * x + c]? := by
  intro x column y row c inside
  have copied : copyToBuffer rgb = rgb.data := by
    rw [copyToBuffer,← rgb.unaligned]
    exact flatMap_rows rgb.size
  have place : y * rgb.linesize + 3 * x + c < rgb.data.length := by
    have within := place_lt column row inside
    rw [rgb.size,rgb.unaligned]
    calc y * (3 * rgb.width) + 3 * x + c = (y * rgb.width + x) * 3 + c := by ring
      _ < rgb.width * rgb.height * 3 := within
      _ = rgb.height * (3 * rgb.width) := by ring
  refine ⟨rgb.data[y * rgb.linesize + 3 * x + c],?_,List.getElem?_eq_getElem place⟩
  rw [VideoFrame.byte,toFrame,copied]
  exact List.getElem?_eq_getElem place

/-! ## An image from a file -/

/-- What `stbi_load` returns: as many channels as the file has, one byte each, row by row. -/
structure StbImage where
  x : Nat
  y : Nat
  n : Nat
  data : List UInt8
  some_ : 1 ≤ n
  most : n ≤ 4
  size : data.length = x * y * n

namespace StbImage

/-- Red, green or blue of a pixel: with fewer than three channels the first of them is grey. -/
def colour (image : StbImage) (x y c : Nat) : Option UInt8 :=
  image.data[(y * image.x + x) * image.n + if image.n < 3 then 0 else c]?

end StbImage

/-- The frame that `load_frame` makes of an image. -/
def ofImage (image : StbImage) : VideoFrame :=
  let totalSize := image.x * image.y * image.n
  { width := image.x
    height := image.y
    frameNumber := 0
    bytesPerLine := image.n * image.x
    data := image.data.take totalSize }

/-- `load_frame`, which throws if the library cannot load the file. -/
def loadFrame (stbiLoad : String → Option StbImage) (imagePath : String) : Option VideoFrame :=
  (stbiLoad imagePath).map ofImage

/-- With four channels: each colour stands where it would without the fourth. An opaque image has this
if it is white but for its first column. -/
def StbImage.Unmoved (image : StbImage) : Prop :=
  ∀ x < image.x, ∀ y < image.y, ∀ c < 3,
    image.data[y * (4 * image.x) + 4 * x + c]? = image.data[y * (4 * image.x) + 3 * x + c]?

section Image

variable {image : StbImage}

theorem byte_ofImage (x y c : Nat) : (ofImage image).byte x y c =
    image.data[y * (image.n * image.x) + 3 * x + c]? := by
  rw [VideoFrame.byte,ofImage,List.take_of_length_le (Nat.le_of_eq image.size)]
  rfl

theorem colour_isSome {x y c : Nat} (column : x < image.x) (row : y < image.y) (inside : c < 3) :
    ∃ b, image.colour x y c = some b := by
  have channel : (if image.n < 3 then 0 else c) < image.n := by
    have := image.some_
    split <;> omega
  have place := place_lt column row channel
  rw [← image.size] at place
  exact ⟨_,List.getElem?_eq_getElem place⟩

/-- With fewer than three channels the last pixel is read past the end. -/
theorem last_byte_of_few (few : image.n < 3) (wide : 0 < image.x) (tall : 0 < image.y) :
    (ofImage image).byte (image.x - 1) (image.y - 1) 2 = none := by
  rw [byte_ofImage]
  refine List.getElem?_eq_none ?_
  have lines : image.x * image.y * image.n =
      (image.y - 1) * (image.n * image.x) + image.n * image.x := by
    obtain ⟨h,some_⟩ : ∃ h, image.y = h + 1 := ⟨image.y - 1,by omega⟩
    rw [some_,Nat.add_sub_cancel]
    ring
  have short : image.n * image.x ≤ 2 * image.x := Nat.mul_le_mul_right _ (by omega)
  rw [image.size,lines]
  omega

theorem honours_of_three (three : image.n = 3) : (ofImage image).HonoursRgb24 image.colour := by
  intro x column y row c inside
  obtain ⟨b,shown⟩ := colour_isSome column row inside
  refine ⟨b,?_,shown⟩
  rw [← shown,byte_ofImage,StbImage.colour,three,if_neg (Nat.lt_irrefl 3)]
  congr 1
  ring

theorem honours_of_four_iff (four : image.n = 4) :
    (ofImage image).HonoursRgb24 image.colour ↔ image.Unmoved := by
  have shown (x y c : Nat) : image.colour x y c = image.data[y * (4 * image.x) + 4 * x + c]? := by
    rw [StbImage.colour,four,if_neg (by decide)]
    congr 1
    ring
  have read (x y c : Nat) : (ofImage image).byte x y c = image.data[y * (4 * image.x) + 3 * x + c]? := by
    rw [byte_ofImage,four]
  constructor
  · intro honours x column y row c inside
    obtain ⟨b,there,same⟩ := honours x column y row c inside
    rw [← shown,← read,there,same]
  · intro unmoved x column y row c inside
    obtain ⟨b,same⟩ := colour_isSome column row inside
    refine ⟨b,?_,same⟩
    rw [read,← unmoved x column y row c inside,← shown,same]

end Image

/-- The second pixel of a picture with an alpha channel is read from the first one's alpha on. -/
theorem alpha_read_as_red : ¬ ∀ (stbiLoad : String → Option StbImage) (path : String) (image : StbImage),
    stbiLoad path = some image →
    ∃ f, loadFrame stbiLoad path = some f ∧ f.HonoursRgb24 image.colour := by
  intro claim
  let image : StbImage := ⟨2,1,4,[10,20,30,255,40,50,60,255],by decide,by decide,rfl⟩
  obtain ⟨f,loaded,honours⟩ := claim (fun _ => some image) "a.png" image rfl
  obtain rfl : ofImage image = f := by simpa [loadFrame] using loaded
  obtain ⟨b,there,same⟩ := honours 1 (by decide) 0 (by decide) 0 (by decide)
  have red : image.colour 1 0 0 = some 40 := by decide
  have read : (ofImage image).byte 1 0 0 = some 255 := by decide
  rw [red] at same
  rw [read,← same] at there
  exact absurd there (by decide)

/-- The frame of an image is laid out as the providers read it exactly if the image has no pixels or
three channels, or four of which the last moves no colour. -/
theorem load_frame_honours_iff (stbiLoad : String → Option StbImage) (path : String) (image : StbImage)
    (loads : stbiLoad path = some image) :
    (∃ f, loadFrame stbiLoad path = some f ∧ f.HonoursRgb24 image.colour) ↔
      image.x = 0 ∨ image.y = 0 ∨ image.n = 3 ∨ (image.n = 4 ∧ image.Unmoved) := by
  have frame : (∃ f, loadFrame stbiLoad path = some f ∧ f.HonoursRgb24 image.colour) ↔
      (ofImage image).HonoursRgb24 image.colour := by
    simp [loadFrame,loads]
  rw [frame]
  by_cases empty : image.x = 0 ∨ image.y = 0
  · have none (x y : Nat) (column : x < image.x) (row : y < image.y) : False := by omega
    exact iff_of_true (fun x column y row => (none x y column row).elim) (by tauto)
  · have wide : 0 < image.x := by omega
    have tall : 0 < image.y := by omega
    have most := image.most
    rcases (by omega : image.n < 3 ∨ image.n = 3 ∨ image.n = 4) with few | three | four
    · refine iff_of_false (fun honours => ?_) (by omega)
      obtain ⟨b,there,_⟩ := honours (image.x - 1) (Nat.sub_one_lt_of_lt wide) (image.y - 1)
        (Nat.sub_one_lt_of_lt tall) 2 (by decide)
      rw [last_byte_of_few few wide tall] at there
      cases there
    · exact iff_of_true (honours_of_three three) (.inr (.inr (.inl three)))
    · rw [honours_of_four_iff four]
      simp [four,Nat.ne_of_gt wide,Nat.ne_of_gt tall]

/-- A picture of one pixel without an alpha channel. -/
theorem load_frame_honours_iff_witness :
    let image : StbImage := ⟨1,1,3,[10,20,30],by decide,by decide,rfl⟩
    ∃ f, loadFrame (fun _ => some image) "a.png" = some f ∧ f.HonoursRgb24 image.colour := by
  intro image
  exact (load_frame_honours_iff _ "a.png" image rfl).mpr (.inr (.inr (.inl rfl)))

end OcrSuite.FrameLayout
