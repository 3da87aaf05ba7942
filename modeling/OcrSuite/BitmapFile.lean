import OcrSuite.Bitmap
import OcrSuite.ByteFormat

/-! The files that the bitmap writer makes, read as the format has it. -/
namespace OcrSuite.Bitmap

open ByteFormat

/-! ## The format -/

/-- A picture as red, green and blue bytes, row by row from the top. -/
structure Picture where
  width : Nat
  height : Nat
  data : List UInt8
  deriving DecidableEq

/-- In the file the bytes of a pixel are blue, green and red. -/
def ofBgr : List UInt8 → List UInt8
  | blue :: green :: red :: rest => red :: green :: blue :: ofBgr rest
  | _ => []

/-- Rows are padded to a multiple of four bytes. -/
def rowSize (width : Nat) : Nat := (3 * width + 3) / 4 * 4

/-- Reads a file of 24 bits a pixel, not compressed, whose rows come from the bottom up. -/
def readBitmap (file : List UInt8) : Option Picture :=
  let offset := field file 10 4
  let width := (signed 32 (field file 18 4)).toNat
  let height := (signed 32 (field file 22 4)).toNat
  let row (y : Nat) := (file.drop (offset + (height - 1 - y) * rowSize width)).take (3 * width)
  if file.take 2 = [66,77] ∧ infoHeaderSize ≤ field file 14 4 ∧ 0 < width ∧ 0 < height ∧
      field file 26 2 = 1 ∧ field file 28 2 = 24 ∧ field file 30 4 = 0 ∧
      offset + height * rowSize width ≤ file.length then
    some ⟨width,height,(List.range height).flatMap fun y => ofBgr (row y)⟩
  else none

/-- The colours of a whole row come back. -/
theorem ofBgr_swapRb {data : List UInt8} (whole : data.length % 3 = 0) : ofBgr (swapRb data) = data := by
  refine pixel_induction ?_ (fun r g b rest _ ih => ?_) data whole
  · rfl
  · rw [swapRb,ofBgr,ih]

theorem swapRb_append {data more : List UInt8} (whole : data.length % 3 = 0) :
    swapRb (data ++ more) = swapRb data ++ swapRb more := by
  refine pixel_induction ?_ (fun r g b rest _ ih => ?_) data whole
  · rfl
  · simp [swapRb,ih]

/-- A row of the swapped data is the row with its pixels swapped. -/
theorem swapRb_row {data : List UInt8} {start length : Nat} (place : start % 3 = 0)
    (even : length % 3 = 0) (inside : start + length ≤ data.length) :
    ((swapRb data).drop start).take length = swapRb ((data.drop start).take length) := by
  have front : (data.take start).length = start := by
    rw [List.length_take]
    omega
  have middle : ((data.drop start).take length).length = length := by
    rw [List.length_take,List.length_drop]
    omega
  have parts : swapRb data = swapRb (data.take start) ++ (swapRb ((data.drop start).take length) ++
      swapRb ((data.drop start).drop length)) := by
    rw [← swapRb_append (by omega),List.take_append_drop,← swapRb_append (by omega),
      List.take_append_drop]
  rw [parts,List.drop_left' (by simpa using front),List.take_left' (by simpa using middle)]

/-! ## The file of an image -/

/-- The headers as the numbers that they hold. -/
def headers (width height : Nat) : List UInt8 :=
  [66,77] ++ littleEndian (54 + rowSize width * height) ++ [0,0,0,0,54,0,0,0,40,0,0,0] ++
    littleEndian width ++ littleEndian height ++ [1,0,24] ++ List.replicate 25 0

/-- A row of the file. -/
def paddedRow (image : Image) (i : Nat) : List UInt8 :=
  swapRb ((image.data.drop (i * (3 * image.width.toNat))).take (3 * image.width.toNat)) ++
    List.replicate (rowSize image.width.toNat - 3 * image.width.toNat) 0

def paddedRows (image : Image) : List UInt8 :=
  (List.range image.height.toNat).reverse.flatMap (paddedRow image)

theorem le_rowSize (width : Nat) : 3 * width ≤ rowSize width := by
  unfold rowSize
  omega

/-- The fields of the headers are the numbers that were put there, where these fit. -/
theorem headers_fields {width height : Nat} (rows : List UInt8)
    (fits : 54 + rowSize width * height < 2 ^ 32) (broad : width < 2 ^ 32) (tall : height < 2 ^ 32) :
    (headers width height ++ rows).take 2 = [66,77] ∧
    field (headers width height ++ rows) 2 4 = 54 + rowSize width * height ∧
    field (headers width height ++ rows) 10 4 = 54 ∧ field (headers width height ++ rows) 14 4 = 40 ∧
    field (headers width height ++ rows) 18 4 = width ∧
    field (headers width height ++ rows) 22 4 = height ∧ field (headers width height ++ rows) 26 2 = 1 ∧
    field (headers width height ++ rows) 28 2 = 24 ∧ field (headers width height ++ rows) 30 4 = 0 :=
  ⟨rfl,number_four fits,rfl,rfl,number_four broad,number_four tall,rfl,rfl,rfl⟩

section File

variable {image : Image} (wide : image.width ≠ 0)
  (fits : 54 + rowSize image.width.toNat * image.height.toNat < 2 ^ 32)
include wide fits

/-- What the file has room for does not wrap around and is not taken for a negative number. -/
theorem small_of_fits : (image.width * 3).toNat = 3 * image.width.toNat ∧
    0 < image.width.toNat ∧ image.width.toNat < 2 ^ 31 ∧
    0 < image.height.toNat ∧ image.height.toNat < 2 ^ 31 ∧ rowSize image.width.toNat < 2 ^ 32 := by
  have nonzero {n : UInt32} (some_ : n ≠ 0) : 0 < n.toNat :=
    Nat.pos_of_ne_zero fun zero => some_ (UInt32.toNat_inj.mp zero)
  have broad := nonzero wide
  have tall := nonzero image.positive
  have four : 4 ≤ rowSize image.width.toNat := by
    unfold rowSize
    omega
  have row := le_rowSize image.width.toNat
  have one : rowSize image.width.toNat ≤ rowSize image.width.toNat * image.height.toNat :=
    Nat.le_mul_of_pos_right _ tall
  have rows : 4 * image.height.toNat ≤ rowSize image.width.toNat * image.height.toNat :=
    Nat.mul_le_mul_right _ four
  have product : (image.width * 3).toNat = 3 * image.width.toNat := by
    have three : (3 : UInt32).toNat = 3 := rfl
    rw [UInt32.toNat_mul,three,Nat.mod_eq_of_lt (by omega),Nat.mul_comm]
  omega

omit wide fits in
theorem swapRb_row_of_lt {i : Nat} (inside : i < image.height.toNat) :
    ((swapRb image.data).drop (i * (3 * image.width.toNat))).take (3 * image.width.toNat) =
      swapRb ((image.data.drop (i * (3 * image.width.toNat))).take (3 * image.width.toNat)) := by
  refine swapRb_row ?_ (Nat.mul_mod_right _ _) ?_
  · rw [Nat.mul_left_comm]
    exact Nat.mul_mod_right _ _
  · rw [image.size]
    calc i * (3 * image.width.toNat) + 3 * image.width.toNat
        = (i + 1) * (3 * image.width.toNat) := by ring
      _ ≤ image.height.toNat * (3 * image.width.toNat) := Nat.mul_le_mul_right _ inside
      _ = 3 * (image.width.toNat * image.height.toNat) := by ring

/-- The file is the headers, and then the rows with their colours swapped from the last to the first. -/
theorem saveImage_file : (saveImage image true).2 =
    headers image.width.toNat image.height.toNat ++ paddedRows image := by
  obtain ⟨bytes,_,_,_,_,small⟩ := small_of_fits wide fits
  have row := le_rowSize image.width.toNat
  have padding : (4 - 3 * image.width.toNat % 4) % 4 =
      rowSize image.width.toNat - 3 * image.width.toNat := by
    unfold rowSize
    omega
  have stride : 3 * image.width.toNat + (rowSize image.width.toNat - 3 * image.width.toNat) =
      rowSize image.width.toNat := by omega
  have size : (UInt32.ofNat (rowSize image.width.toNat) * image.height).toNat =
      rowSize image.width.toNat * image.height.toNat := by
    rw [UInt32.toNat_mul,UInt32.toNat_ofNat_of_lt' small]
    exact Nat.mod_eq_of_lt (by omega)
  have swapped : ((List.range image.height.toNat).reverse.flatMap fun i =>
      ((swapRb image.data).drop (i * (3 * image.width.toNat))).take (3 * image.width.toNat) ++
        List.replicate (rowSize image.width.toNat - 3 * image.width.toNat) 0) = paddedRows image :=
    List.flatMap_congr fun i member => by rw [swapRb_row_of_lt (by simpa using member),paddedRow]
  simp only [saveImage,if_true,bytes,padding,stride,makeFileHeader,makeInfoHeader,size,fileHeaderSize,
    infoHeaderSize,swapped]
  simp [headers]

end File

section Rows

variable (image : Image) {i : Nat} (inside : i < image.height.toNat)
include inside

theorem length_row : ((image.data.drop (i * (3 * image.width.toNat))).take (3 * image.width.toNat)).length =
    3 * image.width.toNat := by
  have rows : (i + 1) * (3 * image.width.toNat) ≤ image.height.toNat * (3 * image.width.toNat) :=
    Nat.mul_le_mul_right _ inside
  have size : image.data.length = image.height.toNat * (3 * image.width.toNat) := by
    rw [image.size]
    ring
  rw [Nat.add_mul,Nat.one_mul,← size] at rows
  rw [List.length_take,List.length_drop]
  omega

theorem length_paddedRow : (paddedRow image i).length = rowSize image.width.toNat := by
  have row := le_rowSize image.width.toNat
  rw [paddedRow,List.length_append,length_swapRb,length_row image inside,List.length_replicate]
  omega

/-- From the bottom of the file the rows are those of the image from its top. -/
theorem row_of_paddedRows : ((paddedRows image).drop
    ((image.height.toNat - 1 - i) * rowSize image.width.toNat)).take (3 * image.width.toNat) =
      swapRb ((image.data.drop (i * (3 * image.width.toNat))).take (3 * image.width.toNat)) := by
  have even : ∀ j ∈ (List.range image.height.toNat).reverse,
      (paddedRow image j).length = rowSize image.width.toNat :=
    fun j member => length_paddedRow image (by simpa using member)
  have there : (List.range image.height.toNat).reverse[image.height.toNat - 1 - i]? = some i := by
    rw [List.getElem?_reverse (by rw [List.length_range]; omega),List.length_range,
      List.getElem?_range (by omega)]
    exact congrArg some (by omega)
  have row := congrArg (List.take (3 * image.width.toNat)) (row_of_flatMap even there)
  rw [List.take_take,Nat.min_eq_left (le_rowSize _)] at row
  rw [paddedRows,row,paddedRow]
  exact List.take_left' (by rw [length_swapRb,length_row image inside])

end Rows

/-- A file that the writer makes of an image with its colours swapped is read back as that image, and
it is as long as its header says. -/
theorem readBitmap_saveImage (image : Image) (wide : image.width ≠ 0)
    (fits : 54 + rowSize image.width.toNat * image.height.toNat < 2 ^ 32) :
    readBitmap (saveImage image true).2 = some ⟨image.width.toNat,image.height.toNat,image.data⟩ ∧
    (saveImage image true).2.length = field (saveImage image true).2 2 4 := by
  obtain ⟨_,broad,narrow,tall,low,_⟩ := small_of_fits wide fits
  have header : (headers image.width.toNat image.height.toNat).length = 54 := rfl
  have rows : (paddedRows image).length = rowSize image.width.toNat * image.height.toNat := by
    rw [paddedRows,length_flatMap_rows fun j member => length_paddedRow image (by simpa using member),
      List.length_reverse,List.length_range,Nat.mul_comm]
  obtain ⟨magic,fileSize,offset,infoSize,width,height,planes,bits,compression⟩ :=
    headers_fields (paddedRows image) fits (by omega) (by omega)
  rw [saveImage_file wide fits]
  constructor
  · have signedWidth : signed 32 image.width.toNat = image.width.toNat := signed_of_small (by omega)
    have signedHeight : signed 32 image.height.toNat = image.height.toNat := signed_of_small (by omega)
    have length : 54 + image.height.toNat * rowSize image.width.toNat ≤
        (headers image.width.toNat image.height.toNat ++ paddedRows image).length := by
      rw [List.length_append,header,rows,Nat.mul_comm]
    have pixels : ((List.range image.height.toNat).flatMap fun y =>
        ofBgr (((headers image.width.toNat image.height.toNat ++ paddedRows image).drop
          (54 + (image.height.toNat - 1 - y) * rowSize image.width.toNat)).take
            (3 * image.width.toNat))) = image.data := by
      have size : image.data.length = image.height.toNat * (3 * image.width.toNat) := by
        rw [image.size]
        ring
      refine (List.flatMap_congr fun y member => ?_).trans (flatMap_rows size)
      have inside : y < image.height.toNat := by simpa using member
      rw [← header,List.drop_length_add_append,row_of_paddedRows image inside]
      exact ofBgr_swapRb (by rw [length_row image inside]; exact Nat.mul_mod_right _ _)
    simp only [readBitmap,magic,offset,infoSize,width,height,planes,bits,compression,signedWidth,
      signedHeight,Int.toNat_natCast,pixels]
    rw [if_pos ⟨trivial,by decide,broad,tall,trivial,trivial,trivial,length⟩]
  · rw [fileSize,List.length_append,header,rows]

/-- Two pixels above two others, in rows with two bytes of padding. -/
theorem readBitmap_saveImage_witness :
    let image : Image := ⟨[1,2,3,4,5,6,7,8,9,10,11,12],2,2,rfl,by decide⟩
    readBitmap (saveImage image true).2 = some ⟨2,2,[1,2,3,4,5,6,7,8,9,10,11,12]⟩ ∧
    (saveImage image true).2.length = field (saveImage image true).2 2 4 :=
  readBitmap_saveImage ⟨[1,2,3,4,5,6,7,8,9,10,11,12],2,2,rfl,by decide⟩ (by decide) (by decide)

end OcrSuite.Bitmap
