import OcrSuite.Retrieval

/-! The picture that the frame view loads for a frame of the tree: that of the frame whose words the tree
has there. The view opens the video anew and stops the decoder at the first frame it is called for. -/
namespace OcrSuite.Viewer

open Transition Coverage

variable {F R φ : Type}

/-- `frame_filter::all_frames` -/
def allFrames : UInt16 := 7

/-- `load_image_from_frame`: the picture in the texture, none if the callback is never called. Each opened
file has its own seeks. -/
def Video.loadImage (v : Video φ) (seek : SeekFile φ) (number : Int) : Option φ :=
  ((({ v.decoder with filter := allFrames, startingFrame := number } : Decoder Binary64).decode seek
    (fun _ _ => .stop) v.packets).getLast?).map fun call => call.1.image

/-- Before a frame that passes the filter only frames of smaller numbers come out of the decoder. -/
def Video.Ordered (v : Video φ) : Prop :=
  (delivered v.packets).Pairwise fun f g =>
    v.decoder.wanted g = true → v.decoder.frameNumber f < v.decoder.frameNumber g

theorem wanted_allFrames (d : Decoder Binary64) (f : AvFrame φ) :
    ({ d with filter := allFrames } : Decoder Binary64).wanted f = true := by
  have every (pictType : PictureType) : (pictureTypeToFilter pictType &&& allFrames != 0) = true := by
    cases pictType <;> decide
  exact every f.pictType

theorem upTo_stop (calls : List (AvFrame φ × Int)) : upTo (fun _ _ => .stop) calls = calls.take 1 := by
  cases calls <;> rfl

namespace Video

variable {v : Video φ}

/-- Wherever the seeks lead, the first frame of this number or a later one is shown. -/
theorem loadImage_eq {seek : SeekFile φ} (demuxes : Decoder.Demuxes v.packets seek)
    (short : Short v.packets seek) {number : Int} (positive : 1 ≤ number) : v.loadImage seek number =
      ((delivered v.packets).find? fun f => number ≤ v.decoder.frameNumber f).map AvFrame.image := by
  let d : Decoder Binary64 := { v.decoder with filter := allFrames, startingFrame := number }
  have all : d.calls (delivered v.packets) =
      ((delivered v.packets).filter fun f => number ≤ v.decoder.frameNumber f).map fun f =>
        (f,v.decoder.frameNumber f) := by
    have every : (delivered v.packets).filter d.wanted = delivered v.packets :=
      List.filter_eq_self.mpr fun f _ => wanted_allFrames { v.decoder with startingFrame := number } f
    rw [Decoder.calls,every,List.filter_map]
    rfl
  have timely {f : AvFrame φ} (early : f.pts < 2 ^ 50) : d.InTime f :=
    Decoder.inTime_binary64 (d := d) v.rate v.base (.inl positive) early
  have decoded := Decoder.decode_eq (d := d) (show 0 ≤ number by omega) demuxes
    (fun f member => timely (short.1 f member))
    (fun _ _ found f member => timely (short.2 _ _ found f member)) fun _ _ => .stop
  rw [upTo_stop,all] at decoded
  rw [loadImage,decoded,← List.head?_filter]
  cases (delivered v.packets).filter fun f => number ≤ v.decoder.frameNumber f <;> rfl

/-- Where frames come in order, a frame that was recognised is found again by its number. -/
theorem loadImage_of_mem {seek : SeekFile φ} (demuxes : Decoder.Demuxes v.packets seek)
    (short : Short v.packets seek) (ordered : v.Ordered) {f : OcrSuite.Frame φ} (member : f ∈ v.frames) :
    v.loadImage seek f.frameNumber = some f.image := by
  obtain ⟨g,here,wanted,positive,rfl⟩ := mem_frames member
  obtain ⟨front,back,parts⟩ := List.append_of_mem here
  have earlier : front.find? (fun h => v.decoder.frameNumber g ≤ v.decoder.frameNumber h) = none := by
    apply List.find?_eq_none.mpr
    intro h before
    have less : v.decoder.frameNumber h < v.decoder.frameNumber g := by
      unfold Ordered at ordered
      rw [parts] at ordered
      exact (List.pairwise_append.mp ordered).2.2 h before g List.mem_cons_self wanted
    simpa using less
  rw [loadImage_eq demuxes short positive,parts,List.find?_append,earlier]
  simp

end Video

/-- A click on a frame of the tree: if the rows of no node are of two videos and the videos' frames come in
order, the picture that is loaded is one in which the provider recognised every word that is drawn on it. -/
theorem picture_has_words {n : Nat} (driver : Driver F R) (provider : Recogniser.Provider F φ)
    (a : Archive driver provider n) (ordered : ∀ path, (a.video path).Ordered)
    (countable : Search.Countable a.collection) (actions : List (Search.Action n)) (s : Search n F)
    (ran : run (Search.step a.collection) Search.start actions = some s) (searching : 0 < s.search)
    (uncleared : ∀ text, s.ui ≠ .clearing text) (finished : s.isFinished = true) (generation : Nat)
    (rows : List (Row F)) (selected : Selected (s.results.map Prod.snd) rows)
    (one : OneVideo a.recordings rows) :
    ∃ t, ResultPass.sortResults a.recordings generation rows = some t ∧
      ∀ f ∈ t.frames, ∀ seek, Decoder.Demuxes (a.video f.videoFile).packets seek →
        Short (a.video f.videoFile).packets seek →
        ∃ image, (a.video f.videoFile).loadImage seek f.number = some image ∧
          ∀ w ∈ f.words, w ∈ recognised provider ⟨f.number,image⟩ ∧
            driver.like (Search.latest actions) w.entry.text = true := by
  refine ⟨_,ResultPass.sortResults_eq a.recordings generation rows,fun f member seek demuxes short => ?_⟩
  have table := a.table_sought countable ran searching uncleared finished
  have sought := (selected.1.map fun row => (row.videoFile,row.word)).trans table
  rw [← ofRows_attributed a.recordings generation one] at sought
  -- each word is of a frame of the video with this number, and there is only one
  have found : ∀ w ∈ f.words, ∃ g ∈ (a.video f.videoFile).frames, g.frameNumber = f.number ∧
      w ∈ recognised provider g ∧ driver.like (Search.latest actions) w.entry.text = true := by
    intro w inside
    have attributed : (f.videoFile,w) ∈ (Tree.ofRows a.recordings generation rows).attributed :=
      List.mem_flatMap.mpr ⟨f,member,List.mem_map_of_mem inside⟩
    obtain ⟨i,_,here⟩ := List.mem_flatMap.mp (sought.mem_iff.mp attributed)
    obtain ⟨file,_,matching⟩ := List.mem_flatMap.mp here
    obtain ⟨w',words,same⟩ := List.mem_map.mp matching
    obtain ⟨path,rfl⟩ := Prod.mk.inj same
    obtain ⟨words,likes⟩ := List.mem_filter.mp words
    obtain ⟨g,there,recognised⟩ := List.mem_flatMap.mp words
    have number : w'.frameNumber = f.number := by
      obtain ⟨text,_,rfl⟩ := List.mem_map.mp inside
      rfl
    exact ⟨g,path ▸ there,(recognised_frameNumber recognised).symm.trans number,recognised,likes⟩
  have nonempty : f.words ≠ [] := by
    have texts := (Tree.ofRows_textPlaces a.recordings generation rows member).1
    simpa [Frame.words] using texts
  obtain ⟨w,inside⟩ := List.exists_mem_of_ne_nil _ nonempty
  obtain ⟨g,there,number,_,_⟩ := found w inside
  have loaded := Video.loadImage_of_mem demuxes short (ordered f.videoFile) there
  rw [number] at loaded
  refine ⟨g.image,loaded,fun w inside => ?_⟩
  obtain ⟨h,there',number',recognised,likes⟩ := found w inside
  have again := Video.loadImage_of_mem demuxes short (ordered f.videoFile) there'
  rw [number',loaded] at again
  have same : (⟨f.number,g.image⟩ : OcrSuite.Frame φ) = h := by
    rw [← number',Option.some.inj again]
  exact ⟨same ▸ recognised,likes⟩

theorem oneFrame_ordered : oneFrame.Ordered :=
  List.pairwise_singleton _ _

theorem picture_has_words_witness :
    ∃ (a : Archive Driver.exact oneWord 1) (t : Tree Int) (f : Frame Int), f ∈ t.frames ∧
      (∃ rows, ResultPass.sortResults a.recordings 0 rows = some t) ∧
      ∃ image, (a.video f.videoFile).loadImage (fun _ => none) f.number = some image ∧
        ∀ w ∈ f.words, w ∈ recognised oneWord ⟨f.number,image⟩ := by
  obtain ⟨a,actions,s,rows,videos,countable,searched,searching,uncleared,finished,selected,sought⟩ :=
    exists_searched
  have table := a.table_sought countable searched searching uncleared finished
  have same := (selected.1.map fun row => (row.videoFile,row.word)).trans table
  rw [sought] at same
  have one : OneVideo a.recordings rows := by
    have video (row) (member : row ∈ rows) : row.videoFile = "a.mp4" := by
      have pair := same.mem_iff.mp (List.mem_map_of_mem member)
      exact congrArg Prod.fst (List.mem_singleton.mp pair)
    intro first member second member' _
    rw [video first member,video second member']
  obtain ⟨t,tree,pictures⟩ := picture_has_words Driver.exact oneWord a
    (fun path => (videos path).symm ▸ oneFrame_ordered) countable actions s searched searching uncleared
    finished 0 rows selected one
  have attributed := ofRows_attributed a.recordings 0 one
  have shown : ("a.mp4",(⟨1,⟨0,0,9,9,90,"abc"⟩⟩ : Word Int)) ∈ (Tree.ofRows a.recordings 0 rows).attributed := by
    rw [attributed]
    exact same.mem_iff.mpr List.mem_cons_self
  obtain ⟨f,member,_⟩ := List.mem_flatMap.mp shown
  rw [← Option.some.inj (tree.symm.trans (ResultPass.sortResults_eq a.recordings 0 rows))] at member
  have demuxes : Decoder.Demuxes (a.video f.videoFile).packets (fun _ => none) := by
    rintro _ _ _ ⟨⟩
  have short : Short (a.video f.videoFile).packets (fun _ => none) :=
    ⟨(a.video f.videoFile).short.1,by rintro _ _ ⟨⟩⟩
  obtain ⟨image,loaded,words⟩ := pictures f member _ demuxes short
  exact ⟨a,t,f,member,⟨rows,tree⟩,image,loaded,fun w inside => (words w inside).1⟩

end OcrSuite.Viewer
