import OcrSuite.Binary64

/-! The decoder: the numbers it gives to frames, its seeks to the frame it starts from, and its
run over what the file holds from there on. Rates and time bases are doubles or, where results
are about exact arithmetic, rationals. -/
namespace OcrSuite

open Rounding Arithmetic

/-- The types that the filter tells apart; all the rest count as `i`. -/
inductive PictureType where
  | i
  | p
  | b
  | other
  deriving DecidableEq, Repr

/-- The bits of `frame_filter`. -/
def pictureTypeToFilter : PictureType → UInt16
  | .i => 1
  | .p => 2
  | .b => 4
  | .other => 1

/-- A frame as the codec returns it. -/
structure AvFrame (φ : Type) where
  pts : Int
  pictType : PictureType
  image : φ
  deriving DecidableEq

/-- What the codec returns for a packet before it asks for the next one, or fails. -/
structure Packet (φ : Type) where
  frames : List (AvFrame φ)
  failed : Bool

structure Decoder (V : Type) where
  filter : UInt16
  startingFrame : Int
  frameRatio : V
  timeRatio : V

/-- The answer of the callback to a frame. -/
inductive Verdict where
  | decodeNext
  | stop
  deriving DecidableEq

/-- `av_q2d` -/
def avQ2d (num den : Int) : Binary64 := (num : Binary64) / (den : Binary64)

variable {V φ : Type} [Mul V] [Div V] [IntCast V] [Arithmetic V]

namespace Decoder

def frameNumberToTimestamp (d : Decoder V) (frameNumber : Int) : Int :=
  truncate ((frameNumber : V) / d.frameRatio / d.timeRatio)

def frameNumber (d : Decoder V) (f : AvFrame φ) : Int :=
  truncate ((f.pts : V) * d.timeRatio * d.frameRatio)

omit [Mul V] [Div V] [IntCast V] [Arithmetic V] in
def wanted (d : Decoder V) (f : AvFrame φ) : Bool := pictureTypeToFilter f.pictType &&& d.filter != 0

/-! ## Running -/

/-- The calls of the callback for the frames of a packet, and whether none of them stopped. -/
def receiveFrames (d : Decoder V) (cb : AvFrame φ → Int → Verdict) :
    List (AvFrame φ) → List (AvFrame φ × Int) × Bool
  | [] => ([],true)
  | f :: rest =>
    if d.wanted f then
      if d.frameNumber f < d.startingFrame then d.receiveFrames cb rest
      else match cb f (d.frameNumber f) with
        | .decodeNext =>
          let (calls,canRun) := d.receiveFrames cb rest
          ((f,d.frameNumber f) :: calls,canRun)
        | .stop => ([(f,d.frameNumber f)],false)
    else d.receiveFrames cb rest

def handleDecodedFrames (d : Decoder V) (cb : AvFrame φ → Int → Verdict) (p : Packet φ) :
    List (AvFrame φ × Int) × Bool :=
  let (calls,canRun) := d.receiveFrames cb p.frames
  (calls,canRun && !p.failed)

/-- The packets of the video stream; the last of them stands for the flush. -/
def run (d : Decoder V) (cb : AvFrame φ → Int → Verdict) : List (Packet φ) → List (AvFrame φ × Int)
  | [] => []
  | p :: rest =>
    let (calls,canRun) := d.handleDecodedFrames cb p
    if canRun then calls ++ d.run cb rest else calls

end Decoder

/-! ## Seeking -/

/-- The packets from the position of the file on, and the frames sought so far, newest first,
with the outcome of each seek. -/
structure Input (φ : Type) where
  packets : List (Packet φ)
  tried : List (Int × Bool)

/-- `avformat_seek_file` after the seeks to the given timestamps, the last of which comes first. -/
abbrev SeekFile (φ : Type) := List Int → Option (List (Packet φ))

namespace Decoder

def seekToFrame (d : Decoder V) (seek : SeekFile φ) (frameNumber : Int) (s : Input φ) : Input φ × Bool :=
  match seek ((frameNumber :: s.tried.map Prod.fst).map d.frameNumberToTimestamp) with
  | some packets => (⟨packets,(frameNumber,true) :: s.tried⟩,true)
  | none => (⟨s.packets,(frameNumber,false) :: s.tried⟩,false)

/-- Halving rounds toward zero. -/
theorem tdiv_two (x : Int) : (0 ≤ x ∧ x.tdiv 2 = x / 2) ∨ (x < 0 ∧ x.tdiv 2 = -((-x) / 2)) := by
  rcases lt_or_ge x 0 with negative | nonneg
  · refine .inr ⟨negative,?_⟩
    rw [← Int.tdiv_eq_ediv_of_nonneg (by omega),Int.neg_tdiv,Int.neg_neg]
  · exact .inl ⟨nonneg,Int.tdiv_eq_ediv_of_nonneg nonneg⟩

def seekToClosestFrame (d : Decoder V) (seek : SeekFile φ) (minFrame maxFrame lastWorking : Int)
    (s : Input φ) : Input φ :=
  if maxFrame = 0 then (d.seekToFrame seek lastWorking s).1
  else match d.seekToFrame seek maxFrame s with
    | (s,true) => s
    | (s,false) =>
      let middleFrame := minFrame + (maxFrame - minFrame).tdiv 2
      if middleFrame = minFrame ∨ middleFrame = maxFrame then (d.seekToFrame seek lastWorking s).1
      else match d.seekToFrame seek middleFrame s with
        | (s,true) => d.seekToClosestFrame seek middleFrame maxFrame middleFrame s
        | (s,false) => d.seekToClosestFrame seek minFrame middleFrame lastWorking s
termination_by (maxFrame - minFrame).natAbs
decreasing_by
  all_goals
    have half := tdiv_two (maxFrame - minFrame)
    omega

/-- The constructor: the file is open and a starting position has been sought. -/
def openInput (d : Decoder V) (seek : SeekFile φ) (packets : List (Packet φ)) : Input φ :=
  d.seekToClosestFrame seek 0 d.startingFrame 0 ⟨packets,[]⟩

/-- The calls of the callback by a decoder that is opened and run. -/
def decode (d : Decoder V) (seek : SeekFile φ) (cb : AvFrame φ → Int → Verdict)
    (packets : List (Packet φ)) : List (AvFrame φ × Int) :=
  d.run cb (d.openInput seek packets).packets

end Decoder

/-! ## The numbers of the frames of a stream -/

namespace Decoder

variable {d : Decoder ℚ}

theorem frameNumber_eq_floor (rate : 0 < d.frameRatio) (base : 0 < d.timeRatio) {f : AvFrame φ}
    (nonneg : 0 ≤ f.pts) : d.frameNumber f = ⌊(f.pts : ℚ) * d.timeRatio * d.frameRatio⌋ := by
  have time : (0 : ℚ) ≤ f.pts := by exact_mod_cast nonneg
  exact trunc_of_nonneg (x := (f.pts : ℚ) * d.timeRatio * d.frameRatio) (by positivity)

/-- The frame gets its index as its number, or the one before if its time was rounded down. -/
theorem frameNumber_of_nearest (rate : 0 < d.frameRatio) (base : 0 < d.timeRatio)
    (fine : d.frameRatio ≤ 1 / d.timeRatio) {f : AvFrame φ} {k : ℕ}
    (near : Nearest ((k : ℚ) / (d.frameRatio * d.timeRatio)) f.pts) :
    d.frameNumber f = if (k : ℚ) / (d.frameRatio * d.timeRatio) ≤ f.pts then (k : ℤ) else k - 1 := by
  have step : 0 < d.frameRatio * d.timeRatio := by positivity
  have short : d.frameRatio * d.timeRatio ≤ 1 := by rwa [le_div_iff₀ base] at fine
  have nonneg : 0 ≤ f.pts := near.nonneg (by positivity)
  obtain ⟨lower,upper⟩ := nearest_iff.mp near
  have scaled : (k : ℚ) / (d.frameRatio * d.timeRatio) * (d.frameRatio * d.timeRatio) = k :=
    div_mul_cancel₀ _ step.ne'
  have product : (f.pts : ℚ) * d.timeRatio * d.frameRatio = f.pts * (d.frameRatio * d.timeRatio) := by
    ring
  have below := mul_le_mul_of_nonneg_right lower step.le
  have above := mul_le_mul_of_nonneg_right upper step.le
  rw [frameNumber_eq_floor rate base nonneg,product,Int.floor_eq_iff]
  split
  case isTrue up =>
    have := mul_le_mul_of_nonneg_right up step.le
    push_cast
    constructor <;> linarith
  case isFalse down =>
    have := mul_lt_mul_of_pos_right (not_le.mp down) step
    push_cast
    constructor <;> linarith

/-- The frames of a stream get different numbers exactly if none of their times is rounded down.
Where halves are rounded up, that is if there is a whole number of half ticks to a frame. -/
theorem frame_numbers_injective_iff (d : Decoder ℚ) (rate : 0 < d.frameRatio) (base : 0 < d.timeRatio)
    (fine : d.frameRatio ≤ 1 / d.timeRatio) (frames : ℕ → AvFrame φ)
    (constant : ∀ k : ℕ, Nearest ((k : ℚ) / (d.frameRatio * d.timeRatio)) (frames k).pts) :
    (Function.Injective (fun k => d.frameNumber (frames k)) ↔
      ∀ k : ℕ, (k : ℚ) / (d.frameRatio * d.timeRatio) ≤ (frames k).pts) ∧
    ((∀ k : ℕ, (frames k).pts = round ((k : ℚ) / (d.frameRatio * d.timeRatio))) →
      (Function.Injective (fun k => d.frameNumber (frames k)) ↔
        ∃ m : ℤ, 2 / (d.frameRatio * d.timeRatio) = m)) := by
  have number k := frameNumber_of_nearest rate base fine (constant k)
  have general : Function.Injective (fun k => d.frameNumber (frames k)) ↔
      ∀ k : ℕ, (k : ℚ) / (d.frameRatio * d.timeRatio) ≤ (frames k).pts := by
    constructor
    · intro injective
      by_contra down
      push Not at down
      -- the first frame that is rounded down follows one that is not
      let k := Nat.find down
      have here : ((frames k).pts : ℚ) < (k : ℚ) / (d.frameRatio * d.timeRatio) := Nat.find_spec down
      have positive : k ≠ 0 := by
        intro zero
        have : (0 : ℚ) ≤ (frames k).pts := by exact_mod_cast (constant k).nonneg (by positivity)
        simp only [zero,Nat.cast_zero,zero_div] at here
        rw [zero] at this
        linarith
      obtain ⟨j,next⟩ := Nat.exists_eq_succ_of_ne_zero positive
      have before : (j : ℚ) / (d.frameRatio * d.timeRatio) ≤ (frames j).pts :=
        not_lt.mp (Nat.find_min down (m := j) (by omega))
      have collide : d.frameNumber (frames j) = d.frameNumber (frames k) := by
        rw [number j,number k,if_pos before,if_neg (not_le.mpr here)]
        omega
      have := injective collide
      omega
    · intro up j k same
      have : (j : ℤ) = k := by simpa [number,up] using same
      exact_mod_cast this
  refine ⟨general,fun rounded => general.trans ?_⟩
  rw [← mul_one_div 2,← forall_mul_le_round_iff]
  refine forall_congr' fun k => ?_
  rw [rounded k,mul_one_div]

/-- Film at 24 frames a second in a container that counts milliseconds: the frames 1 and 2, at
42 ms and 83 ms, both get the number 1. -/
theorem frame_numbers_collide : ¬ ∀ (d : Decoder ℚ) (frames : ℕ → AvFrame Unit),
    0 < d.frameRatio → 0 < d.timeRatio → d.frameRatio ≤ 1 / d.timeRatio →
    (∀ k : ℕ, Nearest ((k : ℚ) / (d.frameRatio * d.timeRatio)) (frames k).pts) →
    Function.Injective fun k => d.frameNumber (frames k) := by
  intro claim
  let film : Decoder ℚ := ⟨7,0,24,1 / 1000⟩
  let frames (k : ℕ) : AvFrame Unit := ⟨round ((k : ℚ) / (24 * (1 / 1000))),.i,()⟩
  have injective := claim film frames (by norm_num [film]) (by norm_num [film])
    (by norm_num [film]) fun k => nearest_round _
  have same : film.frameNumber (frames 1) = film.frameNumber (frames 2) := by decide +kernel
  exact absurd (injective same) (by decide)

/-- At 25 frames a second every frame has its own number. -/
theorem frame_numbers_injective_iff_witness :
    Function.Injective fun k : ℕ => (⟨7,0,25,1 / 1000⟩ : Decoder ℚ).frameNumber
      (⟨round ((k : ℚ) / (25 * (1 / 1000))),.i,()⟩ : AvFrame Unit) := by
  have iff := (frame_numbers_injective_iff ⟨7,0,25,1 / 1000⟩ (by norm_num) (by norm_num)
    (by norm_num) (fun k => (⟨round ((k : ℚ) / (25 * (1 / 1000))),.i,()⟩ : AvFrame Unit))
    fun k => nearest_round _).2 fun k => rfl
  exact iff.mpr ⟨80,by norm_num⟩

end Decoder

/-! ## What the callback gets -/

/-- The frames that the codec returns before it fails. -/
def delivered : List (Packet φ) → List (AvFrame φ)
  | [] => []
  | p :: rest => p.frames ++ if p.failed then [] else delivered rest

/-- The calls up to the first that stops the decoder. -/
def upTo (cb : AvFrame φ → Int → Verdict) : List (AvFrame φ × Int) → List (AvFrame φ × Int)
  | [] => []
  | call :: rest =>
    match cb call.1 call.2 with
    | .decodeNext => call :: upTo cb rest
    | .stop => [call]

def goesOn (cb : AvFrame φ → Int → Verdict) (calls : List (AvFrame φ × Int)) : Bool :=
  calls.all fun call => cb call.1 call.2 = .decodeNext

theorem upTo_append (cb : AvFrame φ → Int → Verdict) (calls later : List (AvFrame φ × Int)) :
    upTo cb (calls ++ later) = if goesOn cb calls then upTo cb calls ++ upTo cb later
      else upTo cb calls := by
  induction calls with
  | nil => simp [upTo,goesOn]
  | cons call rest ih =>
    cases verdict : cb call.1 call.2 with
    | stop => simp [upTo,goesOn,verdict]
    | decodeNext =>
      have goes : goesOn cb (call :: rest) = goesOn cb rest := by simp [goesOn,verdict]
      rw [List.cons_append,goes]
      simp only [upTo,verdict,ih]
      split <;> rfl

@[simp] theorem upTo_decodeNext (calls : List (AvFrame φ × Int)) :
    upTo (fun _ _ => .decodeNext) calls = calls := by
  induction calls with
  | nil => rfl
  | cons call rest ih => simp [upTo,ih]

namespace Decoder

variable (d : Decoder V)

/-- The frames a decoder passes on, with their numbers. -/
def calls (frames : List (AvFrame φ)) : List (AvFrame φ × Int) :=
  ((frames.filter d.wanted).map fun f => (f,d.frameNumber f)).filter fun call =>
    d.startingFrame ≤ call.2

@[simp] theorem calls_nil : d.calls ([] : List (AvFrame φ)) = [] := rfl

theorem calls_cons (f : AvFrame φ) (rest : List (AvFrame φ)) : d.calls (f :: rest) =
    if d.wanted f = true ∧ d.startingFrame ≤ d.frameNumber f then (f,d.frameNumber f) :: d.calls rest
    else d.calls rest := by
  by_cases wanted : d.wanted f = true <;>
    by_cases started : d.startingFrame ≤ d.frameNumber f <;> simp [calls,wanted,started]

theorem calls_append (frames later : List (AvFrame φ)) :
    d.calls (frames ++ later) = d.calls frames ++ d.calls later := by
  simp [calls]

theorem receiveFrames_eq (cb : AvFrame φ → Int → Verdict) (frames : List (AvFrame φ)) :
    d.receiveFrames cb frames = (upTo cb (d.calls frames),goesOn cb (d.calls frames)) := by
  induction frames with
  | nil => rfl
  | cons f rest ih =>
    rw [calls_cons]
    unfold receiveFrames
    by_cases wanted : d.wanted f = true
    · by_cases started : d.startingFrame ≤ d.frameNumber f
      · cases verdict : cb f (d.frameNumber f) with
        | decodeNext => simp [wanted,started,not_lt.mpr started,verdict,ih,upTo,goesOn]
        | stop => simp [wanted,started,not_lt.mpr started,verdict,upTo,goesOn]
      · simp [wanted,started,not_le.mp started,ih]
    · simp [wanted,ih]

/-- A run calls back for the frames the decoder passes on, until it is told to stop. -/
theorem run_eq (cb : AvFrame φ → Int → Verdict) (packets : List (Packet φ)) :
    d.run cb packets = upTo cb (d.calls (delivered packets)) := by
  induction packets with
  | nil => rfl
  | cons p rest ih =>
    simp only [run,handleDecodedFrames,receiveFrames_eq,delivered,calls_append,upTo_append,ih]
    cases p.failed <;> cases goesOn cb (d.calls p.frames) <;> simp [upTo]

/-! ## Seeking to a frame -/

variable {d}

/-- Not before any time that is sought for a decoder that calls back for it. -/
def InTime (d : Decoder V) (f : AvFrame φ) : Prop :=
  d.startingFrame ≤ d.frameNumber f →
    ∀ n, 0 ≤ n → n ≤ d.startingFrame → d.frameNumberToTimestamp n ≤ f.pts

section Approximates

variable {u : ℚ} [Approximates V u] {f : AvFrame φ}

/-- A number is computed in three steps. -/
theorem frameNumber_approximates (d : Decoder V) (rate : 0 < value d.frameRatio)
    (base : 0 < value d.timeRatio) (f : AvFrame φ) :
    (0 ≤ f.pts → 0 ≤ value ((f.pts : V) * d.timeRatio * d.frameRatio) ∧
      value ((f.pts : V) * d.timeRatio * d.frameRatio) ≤
        f.pts * value d.timeRatio * value d.frameRatio * (1 + u) ^ 3) ∧
    (f.pts ≤ 0 → value ((f.pts : V) * d.timeRatio * d.frameRatio) ≤ 0) := by
  obtain ⟨least,small⟩ := Approximates.small (V := V)
  have cast := Approximates.intCast (V := V) f.pts
  have scaled := Approximates.mul (f.pts : V) d.timeRatio
  have counted := Approximates.mul ((f.pts : V) * d.timeRatio) d.frameRatio
  constructor
  · intro sign
    have pts : (0 : ℚ) ≤ f.pts := by exact_mod_cast sign
    have first := Approximates.nonneg small cast pts
    have second := Approximates.nonneg small scaled (by positivity)
    refine ⟨Approximates.nonneg small counted (by positivity),?_⟩
    calc value ((f.pts : V) * d.timeRatio * d.frameRatio)
      _ ≤ value ((f.pts : V) * d.timeRatio) * value d.frameRatio * (1 + u) :=
        Approximates.le_mul counted (by positivity)
      _ ≤ value (f.pts : V) * value d.timeRatio * (1 + u) * value d.frameRatio * (1 + u) := by
        gcongr
        exact Approximates.le_mul scaled (by positivity)
      _ ≤ f.pts * (1 + u) * value d.timeRatio * (1 + u) * value d.frameRatio * (1 + u) := by
        gcongr
        exact Approximates.le_mul cast pts
      _ = f.pts * value d.timeRatio * value d.frameRatio * (1 + u) ^ 3 := by ring
  · intro sign
    have pts : (f.pts : ℚ) ≤ 0 := by exact_mod_cast sign
    have first := Approximates.nonpos small cast pts
    have second := Approximates.nonpos small scaled (mul_nonpos_of_nonpos_of_nonneg first base.le)
    exact Approximates.nonpos small counted (mul_nonpos_of_nonpos_of_nonneg second rate.le)

theorem frameNumberToTimestamp_approximates (d : Decoder V) (rate : 0 < value d.frameRatio)
    (base : 0 < value d.timeRatio) {n : Int} (nonneg : 0 ≤ n) :
    0 ≤ value ((n : V) / d.frameRatio / d.timeRatio) ∧
      value ((n : V) / d.frameRatio / d.timeRatio) ≤
        n / value d.frameRatio / value d.timeRatio * (1 + u) ^ 3 := by
  obtain ⟨least,small⟩ := Approximates.small (V := V)
  have number : (0 : ℚ) ≤ n := by exact_mod_cast nonneg
  have cast := Approximates.intCast (V := V) n
  have seconds := Approximates.div (n : V) d.frameRatio
  have ticks := Approximates.div ((n : V) / d.frameRatio) d.timeRatio
  have first := Approximates.nonneg small cast number
  have second := Approximates.nonneg small seconds (by positivity)
  refine ⟨Approximates.nonneg small ticks (by positivity),?_⟩
  calc value ((n : V) / d.frameRatio / d.timeRatio)
    _ ≤ value ((n : V) / d.frameRatio) / value d.timeRatio * (1 + u) :=
      Approximates.le_mul ticks (by positivity)
    _ ≤ value (n : V) / value d.frameRatio * (1 + u) / value d.timeRatio * (1 + u) := by
      gcongr
      exact Approximates.le_mul seconds (by positivity)
    _ ≤ n * (1 + u) / value d.frameRatio * (1 + u) / value d.timeRatio * (1 + u) := by
      gcongr
      exact Approximates.le_mul cast number
    _ = n / value d.frameRatio / value d.timeRatio * (1 + u) ^ 3 := by ring

/-- Before time 0 there is no frame with a number from 1 on. -/
theorem pts_pos (rate : 0 < value d.frameRatio) (base : 0 < value d.timeRatio) (u : ℚ)
    [Approximates V u] (number : 1 ≤ d.frameNumber f) : 0 < f.pts := by
  by_contra early
  have least := (frameNumber_approximates (u := u) d rate base f).2 (not_lt.mp early)
  have reached := le_of_le_trunc one_pos number
  norm_num at reached
  linarith

theorem frameNumberToTimestamp_zero (rate : 0 < value d.frameRatio) (base : 0 < value d.timeRatio)
    (u : ℚ) [Approximates V u] : d.frameNumberToTimestamp 0 = 0 := by
  obtain ⟨nonneg,le⟩ := frameNumberToTimestamp_approximates (u := u) d rate base le_rfl
  have zero : value (((0 : Int) : V) / d.frameRatio / d.timeRatio) = 0 :=
    le_antisymm (by simpa using le) nonneg
  rw [frameNumberToTimestamp,truncate,zero]
  rfl

/-- Six roundings do not make up for one tick. -/
theorem inTime (rate : 0 < value d.frameRatio) (base : 0 < value d.timeRatio)
    (pts : 1 ≤ d.startingFrame ∨ 0 ≤ f.pts) (short : f.pts * ((1 + u) ^ 6 - 1) < 1) :
    d.InTime f := by
  intro started n nonneg le
  have sign : 0 ≤ f.pts := pts.elim (fun first => (pts_pos rate base u (first.trans started)).le) id
  obtain ⟨least,_⟩ := Approximates.small (V := V)
  obtain ⟨positive,counted⟩ := (frameNumber_approximates (u := u) d rate base f).1 sign
  obtain ⟨later,ticks⟩ := frameNumberToTimestamp_approximates (u := u) d rate base nonneg
  have reached : (n : ℚ) ≤ f.pts * value d.timeRatio * value d.frameRatio * (1 + u) ^ 3 :=
    ((le_trunc_iff positive).mp (le.trans started)).trans counted
  have sought : ((d.frameNumberToTimestamp n : ℤ) : ℚ) ≤
      n / value d.frameRatio / value d.timeRatio * (1 + u) ^ 3 :=
    ((le_trunc_iff later).mp le_rfl).trans ticks
  have early : ((d.frameNumberToTimestamp n : ℤ) : ℚ) < ((f.pts + 1 : ℤ) : ℚ) := by
    calc ((d.frameNumberToTimestamp n : ℤ) : ℚ)
      _ ≤ n / value d.frameRatio / value d.timeRatio * (1 + u) ^ 3 := sought
      _ ≤ f.pts * value d.timeRatio * value d.frameRatio * (1 + u) ^ 3 / value d.frameRatio /
          value d.timeRatio * (1 + u) ^ 3 := by gcongr
      _ = f.pts * (1 + u) ^ 6 := by field_simp
      _ < ((f.pts + 1 : ℤ) : ℚ) := by
        push_cast
        linarith
  exact Int.lt_add_one_iff.mp (by exact_mod_cast early)

end Approximates

/-- With doubles it takes 2^50 ticks until one is rounded off. -/
theorem inTime_binary64 {d : Decoder Binary64} (rate : 0 < d.frameRatio.value)
    (base : 0 < d.timeRatio.value) {f : AvFrame φ} (pts : 1 ≤ d.startingFrame ∨ 0 ≤ f.pts)
    (short : f.pts < 2 ^ 50) : d.InTime f := by
  refine inTime rate base pts ?_
  rcases le_or_gt 0 f.pts with sign | sign
  · have bound : (f.pts : ℚ) ≤ 2 ^ 50 := by exact_mod_cast short.le
    calc (f.pts : ℚ) * ((1 + 1 / 2 ^ (52 + 1)) ^ 6 - 1)
      _ ≤ 2 ^ 50 * ((1 + 1 / 2 ^ (52 + 1)) ^ 6 - 1) := by
        refine mul_le_mul_of_nonneg_right bound ?_
        norm_num
      _ < 1 := by norm_num
  · have negative : (f.pts : ℚ) < 0 := by exact_mod_cast sign
    have grown : (0 : ℚ) < (1 + 1 / 2 ^ (52 + 1)) ^ 6 - 1 := by norm_num
    linarith [mul_neg_of_neg_of_pos negative grown]

/-- What is promised of seeking in a file: from the position that is found, the frames from the
sought time on are decoded as they are from the beginning. -/
def Demuxes (packets : List (Packet φ)) (seek : SeekFile φ) : Prop :=
  ∀ timestamp before position, seek (timestamp :: before) = some position →
    (delivered position).filter (fun f => timestamp ≤ f.pts) =
      (delivered packets).filter fun f => timestamp ≤ f.pts

/-- No frame comes before time 0, from the beginning or from a position that is found. -/
def Nonneg (packets : List (Packet φ)) (seek : SeekFile φ) : Prop :=
  (∀ f ∈ delivered packets, 0 ≤ f.pts) ∧
    ∀ sought position, seek sought = some position → ∀ f ∈ delivered position, 0 ≤ f.pts

/-- Frames that come before the starting frame are not passed on. -/
theorem calls_filter (p : AvFrame φ → Bool) (frames : List (AvFrame φ))
    (kept : ∀ f ∈ frames, d.wanted f = true → d.startingFrame ≤ d.frameNumber f → p f = true) :
    d.calls (frames.filter p) = d.calls frames := by
  induction frames with
  | nil => rfl
  | cons f rest ih =>
    have later := ih fun g member => kept g (List.mem_cons_of_mem f member)
    by_cases keep : p f = true
    · simp [keep,calls_cons,later]
    · have skipped : ¬ (d.wanted f = true ∧ d.startingFrame ≤ d.frameNumber f) := fun ⟨wanted,started⟩ =>
        keep (kept f List.mem_cons_self wanted started)
      rw [List.filter_cons_of_neg keep,calls_cons,if_neg skipped,later]

theorem calls_sublist {frames later : List (AvFrame φ)} (part : frames.Sublist later) :
    (d.calls frames).Sublist (d.calls later) :=
  ((part.filter _).map _).filter _

/-- The position is one from which all that is wanted is passed on. -/
def Covers (d : Decoder V) (packets : List (Packet φ)) (s : Input φ) : Prop :=
  d.calls (delivered s.packets) = d.calls (delivered packets)

section Covers

variable {packets : List (Packet φ)} {seek : SeekFile φ} (demuxes : Demuxes packets seek)

include demuxes

/-- Whatever else comes from the position. -/
theorem seekToFrame_sublist
    (inTime : ∀ f ∈ delivered packets, d.wanted f = true → d.InTime f) {n : Int} (nonneg : 0 ≤ n)
    (le : n ≤ d.startingFrame) {s : Input φ}
    (covers : (d.calls (delivered packets)).Sublist (d.calls (delivered s.packets))) :
    (d.calls (delivered packets)).Sublist (d.calls (delivered (d.seekToFrame seek n s).1.packets)) := by
  unfold seekToFrame
  split
  case h_1 position found =>
    have early := calls_filter (d := d) (fun f => decide (d.frameNumberToTimestamp n ≤ f.pts)) (delivered packets)
      fun f member wanted started => decide_eq_true (inTime f member wanted started n nonneg le)
    rw [← early,← demuxes _ _ _ found]
    exact calls_sublist List.filter_sublist
  case h_2 => exact covers

theorem seekToFrame_covers (inTime : ∀ f ∈ delivered packets, d.InTime f)
    (inTimeThere : ∀ sought position, seek sought = some position → ∀ f ∈ delivered position, d.InTime f)
    {n : Int} (nonneg : 0 ≤ n) (le : n ≤ d.startingFrame) {s : Input φ}
    (covers : d.Covers packets s) : d.Covers packets (d.seekToFrame seek n s).1 := by
  unfold seekToFrame
  split
  case h_1 position found =>
    have early {frames : List (AvFrame φ)} (timely : ∀ f ∈ frames, d.InTime f) :=
      calls_filter (d := d) (fun f => decide (d.frameNumberToTimestamp n ≤ f.pts)) frames
        fun f member _ started => decide_eq_true (timely f member started n nonneg le)
    unfold Covers
    rw [← early (inTimeThere _ _ found),demuxes _ _ _ found,early inTime]
  case h_2 => exact covers

end Covers

/-- What every seek between two frames keeps is kept by the search between them. -/
theorem seekToClosestFrame_invariant {P : Input φ → Prop} {seek : SeekFile φ} {first last : Int}
    (kept : ∀ n s, first ≤ n → n ≤ last → P s → P (d.seekToFrame seek n s).1)
    (minFrame maxFrame lastWorking : Int) (s : Input φ) (lower : first ≤ minFrame)
    (ordered : minFrame ≤ maxFrame) (upper : maxFrame ≤ last)
    (working : first ≤ lastWorking ∧ lastWorking ≤ last) (holds : P s) :
    P (d.seekToClosestFrame seek minFrame maxFrame lastWorking s) := by
  fun_induction seekToClosestFrame d seek minFrame maxFrame lastWorking s with
  | case1 => exact kept _ _ working.1 working.2 holds
  | case2 minFrame maxFrame lastWorking s _ next found =>
    have := kept maxFrame s (by omega) upper holds
    rwa [found] at this
  | case3 minFrame maxFrame lastWorking s _ next failed =>
    have := kept maxFrame s (by omega) upper holds
    rw [failed] at this
    exact kept _ _ working.1 working.2 this
  | case4 minFrame maxFrame lastWorking s _ next failed middle inside later found ih =>
    have half := tdiv_two (maxFrame - minFrame)
    have between : minFrame ≤ middle ∧ middle ≤ maxFrame := by omega
    have first := kept maxFrame s (by omega) upper holds
    rw [failed] at first
    have second := kept middle next (by omega) (by omega) first
    rw [found] at second
    exact ih (by omega) between.2 upper (by omega) second
  | case5 minFrame maxFrame lastWorking s _ next failed middle inside later found ih =>
    have half := tdiv_two (maxFrame - minFrame)
    have between : minFrame ≤ middle ∧ middle ≤ maxFrame := by omega
    have first := kept maxFrame s (by omega) upper holds
    rw [failed] at first
    have second := kept middle next (by omega) (by omega) first
    rw [found] at second
    exact ih lower between.1 (by omega) working second

section Decode

variable (start : 0 ≤ d.startingFrame) {packets : List (Packet φ)} {seek : SeekFile φ}
  (demuxes : Demuxes packets seek)

include start demuxes

/-- Whatever seeks succeed, an opened decoder is at a position that covers its frames. -/
theorem openInput_covers (inTime : ∀ f ∈ delivered packets, d.InTime f)
    (inTimeThere : ∀ sought position, seek sought = some position → ∀ f ∈ delivered position, d.InTime f) :
    d.Covers packets (d.openInput seek packets) :=
  seekToClosestFrame_invariant
    (fun _ _ nonneg le covers => seekToFrame_covers demuxes inTime inTimeThere nonneg le covers) 0
    d.startingFrame 0 _ le_rfl start le_rfl ⟨le_rfl,start⟩ rfl

theorem decode_eq (inTime : ∀ f ∈ delivered packets, d.InTime f)
    (inTimeThere : ∀ sought position, seek sought = some position → ∀ f ∈ delivered position, d.InTime f)
    (cb : AvFrame φ → Int → Verdict) :
    d.decode seek cb packets = upTo cb (d.calls (delivered packets)) := by
  rw [decode,run_eq,openInput_covers start demuxes inTime inTimeThere]

/-- Nothing that is wanted is lost, whatever the file has before the times that are sought. -/
theorem calls_sublist_decode (inTime : ∀ f ∈ delivered packets, d.wanted f = true → d.InTime f) :
    (d.calls (delivered packets)).Sublist (d.decode seek (fun _ _ => .decodeNext) packets) := by
  rw [decode,run_eq,upTo_decodeNext]
  exact seekToClosestFrame_invariant
    (P := fun s => (d.calls (delivered packets)).Sublist (d.calls (delivered s.packets)))
    (fun _ _ nonneg le covers => seekToFrame_sublist demuxes inTime nonneg le covers) 0 d.startingFrame 0 _
    le_rfl start le_rfl ⟨le_rfl,start⟩ (List.Sublist.refl _)

end Decode

/-- In exact arithmetic no frame is too late. -/
theorem decode_exact {d : Decoder ℚ} (rate : 0 < d.frameRatio) (base : 0 < d.timeRatio)
    (start : 0 ≤ d.startingFrame) {packets : List (Packet φ)} {seek : SeekFile φ}
    (stream : Nonneg packets seek) (demuxes : Demuxes packets seek) (cb : AvFrame φ → Int → Verdict) :
    d.decode seek cb packets = upTo cb (d.calls (delivered packets)) := by
  have timely {f : AvFrame φ} (pts : 0 ≤ f.pts) : d.InTime f := inTime rate base (.inr pts) (by simp)
  exact decode_eq start demuxes (fun f member => timely (stream.1 f member))
    (fun _ _ found f member => timely (stream.2 _ _ found f member)) cb

/-- A later starting frame only drops the frames before it. -/
theorem calls_later {s : Int} (later : d.startingFrame ≤ s) (frames : List (AvFrame φ)) :
    ({ d with startingFrame := s } : Decoder V).calls frames =
      (d.calls frames).filter fun call => s ≤ call.2 := by
  unfold calls
  rw [List.filter_filter]
  apply List.filter_congr
  intro call _
  by_cases started : s ≤ call.2
  · simp [started,later.trans started]
  · simp [started]

/-- A decoder that starts at a frame calls back for what a decoder that starts at frame 0 calls
back for, from that frame on, whichever seeks of both succeed. A callback that stops the
decoder gets these up to the one it stops at. -/
theorem seeking_loses_no_frame (d : Decoder ℚ) (rate : 0 < d.frameRatio) (base : 0 < d.timeRatio)
    (start : 0 ≤ d.startingFrame) (packets : List (Packet φ)) (seek seekFromZero : SeekFile φ)
    (stream : Nonneg packets seek) (streamFromZero : Nonneg packets seekFromZero)
    (demuxes : Demuxes packets seek) (demuxesFromZero : Demuxes packets seekFromZero) :
    d.decode seek (fun _ _ => .decodeNext) packets =
      (({ d with startingFrame := 0 } : Decoder ℚ).decode seekFromZero
        (fun _ _ => .decodeNext) packets).filter (fun call => d.startingFrame ≤ call.2) ∧
    ∀ cb, d.decode seek cb packets = upTo cb (d.decode seek (fun _ _ => .decodeNext) packets) := by
  have all := decode_exact (d := { d with startingFrame := 0 }) rate base le_rfl streamFromZero
    demuxesFromZero fun _ _ => .decodeNext
  simp only [decode_exact rate base start stream demuxes,all,upTo_decodeNext]
  exact ⟨calls_later (d := { d with startingFrame := 0 }) start _,fun _ => trivial⟩

/-- Of the seeks to the frames 3, 1 and 0 only the last succeeds, which finds the beginning. -/
theorem seeking_loses_no_frame_witness :
    let packet (pts : Int) : Packet Unit := ⟨[⟨pts,.i,()⟩],false⟩
    let packets : List (Packet Unit) := [packet 0,packet 40,packet 120,packet 160]
    let seek : SeekFile Unit := fun sought => if sought.head? = some 0 then some packets else none
    (⟨7,3,25,1 / 1000⟩ : Decoder ℚ).decode seek (fun _ _ => .decodeNext) packets =
      [(⟨120,.i,()⟩,3),(⟨160,.i,()⟩,4)] := by
  intro packet packets seek
  have beginning : ∀ sought position, seek sought = some position → position = packets := by
    intro sought position found
    simp only [seek] at found
    split at found
    · exact (Option.some.inj found).symm
    · cases found
  have times : ∀ f ∈ delivered packets, 0 ≤ f.pts := by decide
  have stream : Nonneg packets seek := by
    refine ⟨times,fun _ position found => ?_⟩
    rwa [beginning _ position found]
  have demuxes : Demuxes packets seek := by
    intro _ _ position found
    rw [beginning _ position found]
  have same := (seeking_loses_no_frame ⟨7,3,25,1 / 1000⟩ (by norm_num) (by norm_num) (by norm_num)
    packets seek seek stream stream demuxes demuxes).1
  have all := decode_exact (d := ⟨7,0,25,1 / 1000⟩) (by norm_num) (by norm_num) le_rfl stream demuxes
    fun _ _ => .decodeNext
  rw [same,all]
  decide +kernel

end Decoder

end OcrSuite
