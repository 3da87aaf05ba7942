import Mathlib.Data.List.Forall2
import OcrSuite.Binary64
import OcrSuite.Gathering

/-! The speed meter that the consumers tell of their frames, one at a time under its lock. Times
are ticks of the steady clock, rates are doubles. -/
namespace OcrSuite

structure SpeedMeter where
  lastReportTime : Int
  framesProcessed : Nat
  lastFrameNumber : Int
  lastPrintFrameNumber : Int
  deriving DecidableEq

namespace SpeedMeter

open Arithmetic (value)

structure Progress where
  recognizedFramesPerSecond : Binary64
  totalFramesPerSecond : Binary64
  lastFrameNumber : Int
  deriving DecidableEq

/-- What the callback gets, with the time of the report before it and its own. -/
structure Report where
  since : Int
  now : Int
  progress : Progress
  deriving DecidableEq

/-- The constructor, called at `now`. -/
def new (startingFrameNum now : Int) : SpeedMeter := ⟨now,0,0,startingFrameNum⟩

/-- Five seconds. -/
def reportInterval : Int := 5 * 10 ^ 9

/-- `duration_cast` to milliseconds. -/
def milliseconds (elapsed : Int) : Int := elapsed.tdiv (10 ^ 6)

def perSecond (frames elapsedMs : Int) : Binary64 :=
  (frames : Binary64) / (elapsedMs : Binary64) * ((1000 : Int) : Binary64)

def checkProgress (m : SpeedMeter) (now : Int) : SpeedMeter × Option Report :=
  let elapsed := now - m.lastReportTime
  if elapsed < reportInterval then (m,none)
  else
    let elapsedMs := milliseconds elapsed
    let framesSeeked := max (m.lastFrameNumber - m.lastPrintFrameNumber) 0
    let report : Progress :=
      ⟨perSecond m.framesProcessed elapsedMs,perSecond framesSeeked elapsedMs,m.lastFrameNumber⟩
    (⟨now,0,m.lastFrameNumber,m.lastFrameNumber⟩,some ⟨m.lastReportTime,now,report⟩)

def addOcrFrame (m : SpeedMeter) (num now : Int) : SpeedMeter × Option Report :=
  checkProgress { m with
    lastFrameNumber := max m.lastFrameNumber num, framesProcessed := m.framesProcessed + 1 } now

def addSkippedFrame (m : SpeedMeter) (num now : Int) : SpeedMeter × Option Report :=
  checkProgress { m with lastFrameNumber := max m.lastFrameNumber num } now

/-- A call that got the lock, with the time it read from the clock. -/
structure Call where
  skipped : Bool
  num : Int
  now : Int
  deriving DecidableEq

def step (m : SpeedMeter) (c : Call) : SpeedMeter × Option Report :=
  if c.skipped then m.addSkippedFrame c.num c.now else m.addOcrFrame c.num c.now

/-- Any number of consumers, in the order in which they got the lock. -/
abbrev run : SpeedMeter → List Call → SpeedMeter × List Report := Gathering.run step

/-! ## What a report is about -/

def ocrFrames (calls : List Call) : Nat := calls.countP fun c => !c.skipped

/-- The highest frame number so far. -/
def highest (last : Int) (calls : List Call) : Int := calls.foldl (fun last c => max last c.num) last

theorem le_highest (last : Int) (calls : List Call) : last ≤ highest last calls := by
  induction calls generalizing last with
  | nil => exact le_refl _
  | cons c calls ih => exact le_trans (le_max_left _ _) (ih _)

/-- The rate is that of this number of frames, which can be told from it below 2^49. -/
structure Tells (rate : Binary64) (elapsedMs frames : Int) : Prop where
  rate_eq : rate = perSecond frames elapsedMs
  back : 0 ≤ frames → frames < 2 ^ 49 → round (rate.value * elapsedMs / 1000) = frames

namespace Report

def elapsedMs (r : Report) : Int := milliseconds (r.now - r.since)

/-- The report was made by the first of these calls that came five seconds after the report before,
and tells the number of frames recognised in them. -/
structure Covers (calls : List Call) (r : Report) : Prop where
  recognized : Tells r.progress.recognizedFramesPerSecond r.elapsedMs (ocrFrames calls)
  due : r.since + reportInterval ≤ r.now
  first : ∃ front c, calls = front ++ [c] ∧ c.now = r.now ∧ ∀ d ∈ front, d.now < r.since + reportInterval

/-- The number of frames that were passed since the report before. -/
abbrev Seeked (frames : Int) (r : Report) : Prop := Tells r.progress.totalFramesPerSecond r.elapsedMs frames

end Report

/-- What is in the meter is about the calls since the last report. -/
structure Waiting (s : SpeedMeter) (calls : List Call) (t : SpeedMeter) : Prop where
  frames : t.framesProcessed = s.framesProcessed + ocrFrames calls
  number : t.lastFrameNumber = highest s.lastFrameNumber calls
  time : t.lastReportTime = s.lastReportTime
  print : t.lastPrintFrameNumber = s.lastPrintFrameNumber
  early : ∀ c ∈ calls, c.now < s.lastReportTime + reportInterval

theorem step_eq (m : SpeedMeter) (c : Call) : m.step c = checkProgress { m with
    lastFrameNumber := max m.lastFrameNumber c.num
    framesProcessed := m.framesProcessed + ocrFrames [c] } c.now := by
  cases skipped : c.skipped <;> simp [step,skipped,addOcrFrame,addSkippedFrame,ocrFrames]

theorem quiet_waiting {s t : SpeedMeter} {calls : List Call} (quiet : Gathering.Quiet step s calls t) :
    s.Waiting calls t := by
  induction quiet with
  | nil => exact ⟨rfl,rfl,rfl,rfl,by simp⟩
  | @cons s c t calls u moved _ ih =>
    rw [step_eq] at moved
    simp only [checkProgress] at moved
    split at moved
    case isTrue early =>
      obtain rfl := (Prod.mk.inj moved).1
      obtain ⟨frames,number,time,print,later⟩ := ih
      refine ⟨?_,number,time,print,?_⟩
      · rw [frames]
        simp only [ocrFrames,List.countP_cons,List.countP_nil]
        omega
      · rintro d member
        rcases List.mem_cons.mp member with rfl | member
        · omega
        · exact later d member
    case isFalse => simp at moved

/-- What the meter is after a report. -/
structure Reported (s : SpeedMeter) (calls : List Call) (r : Report) (t : SpeedMeter) : Prop where
  covers : s.framesProcessed = 0 → r.Covers calls
  since : r.since = s.lastReportTime
  number : r.progress.lastFrameNumber = highest s.lastFrameNumber calls
  seeked : r.Seeked (max (r.progress.lastFrameNumber - s.lastPrintFrameNumber) 0)
  after : t = ⟨r.now,0,r.progress.lastFrameNumber,r.progress.lastFrameNumber⟩

theorem milliseconds_pos {elapsed : Int} (due : reportInterval ≤ elapsed) : 0 < milliseconds elapsed := by
  unfold reportInterval at due
  rw [milliseconds,Int.tdiv_eq_ediv_of_nonneg (by omega)]
  omega

/-- Five roundings do not make up for half a frame. -/
theorem round_perSecond {frames ms : Int} (positive : 0 < ms) (nonneg : 0 ≤ frames) (few : frames < 2 ^ 49) :
    round ((perSecond frames ms).value * ms / 1000) = frames := by
  obtain ⟨_,small⟩ := Approximates.small (V := Binary64)
  have time : (0 : ℚ) < ms := by exact_mod_cast positive
  have count : (0 : ℚ) ≤ frames := by exact_mod_cast nonneg
  have bound : (frames : ℚ) < 2 ^ 49 := by exact_mod_cast few
  have castFrames := Approximates.intCast (V := Binary64) frames
  have castMs := Approximates.intCast (V := Binary64) ms
  have castThousand := Approximates.intCast (V := Binary64) 1000
  have divided := Approximates.div (frames : Binary64) (ms : Binary64)
  have scaled := Approximates.mul ((frames : Binary64) / (ms : Binary64)) ((1000 : Int) : Binary64)
  have same : value ((frames : Binary64) / (ms : Binary64) * ((1000 : Int) : Binary64)) =
      (perSecond frames ms).value := rfl
  rw [same] at scaled
  generalize value (frames : Binary64) = x at *
  generalize value (ms : Binary64) = y at *
  generalize value ((1000 : Int) : Binary64) = k at *
  generalize value ((frames : Binary64) / (ms : Binary64)) = q at *
  generalize (perSecond frames ms).value = v at *
  generalize exact : (1 / 2 ^ (52 + 1) : ℚ) = u at *
  have least : 0 < u := by rw [← exact]; norm_num
  have msLower := Approximates.mul_le castMs time.le
  have msUpper := Approximates.le_mul castMs time.le
  have thousand : (0 : ℚ) ≤ ((1000 : Int) : ℚ) := by norm_num
  have x0 := Approximates.nonneg small castFrames count
  have k0 := Approximates.nonneg small castThousand thousand
  have y0 : 0 < y := lt_of_lt_of_le (mul_pos time (by linarith)) msLower
  have q0 := Approximates.nonneg small divided (by positivity)
  have rest : 0 < 1 - u := by linarith
  have upper : v ≤ frames * (1 + u) / (ms * (1 - u)) * (1 + u) * (1000 * (1 + u)) * (1 + u) := by
    calc v ≤ q * k * (1 + u) := Approximates.le_mul scaled (by positivity)
      _ ≤ x / y * (1 + u) * k * (1 + u) := by
        gcongr
        exact Approximates.le_mul divided (by positivity)
      _ ≤ frames * (1 + u) / (ms * (1 - u)) * (1 + u) * (1000 * (1 + u)) * (1 + u) := by
        gcongr
        · exact Approximates.le_mul castFrames count
        · simpa using Approximates.le_mul castThousand thousand
  have lower : frames * (1 - u) / (ms * (1 + u)) * (1 - u) * (1000 * (1 - u)) * (1 - u) ≤ v := by
    calc frames * (1 - u) / (ms * (1 + u)) * (1 - u) * (1000 * (1 - u)) * (1 - u)
      _ ≤ x / y * (1 - u) * k * (1 - u) := by
        gcongr
        · exact Approximates.mul_le castFrames count
        · simpa using Approximates.mul_le castThousand thousand
      _ ≤ q * k * (1 - u) := by
        gcongr
        exact Approximates.mul_le divided (by positivity)
      _ ≤ v := Approximates.mul_le scaled (by positivity)
  rw [round_eq_iff]
  constructor
  · calc (frames : ℚ) - 1 / 2 ≤ frames * ((1 - u) ^ 4 / (1 + u)) := by
          have near : 1 - 1 / 2 ^ 50 ≤ (1 - u) ^ 4 / (1 + u) := by rw [← exact]; norm_num
          nlinarith
      _ = frames * (1 - u) / (ms * (1 + u)) * (1 - u) * (1000 * (1 - u)) * (1 - u) * ms / 1000 := by
          field_simp
      _ ≤ v * ms / 1000 := by gcongr
  · calc v * ms / 1000
      _ ≤ frames * (1 + u) / (ms * (1 - u)) * (1 + u) * (1000 * (1 + u)) * (1 + u) * ms / 1000 := by gcongr
      _ = frames * ((1 + u) ^ 4 / (1 - u)) := by field_simp
      _ < frames + 1 / 2 := by
          have near : (1 + u) ^ 4 / (1 - u) ≤ 1 + 1 / 2 ^ 50 := by rw [← exact]; norm_num
          nlinarith

theorem tells_perSecond {ms : Int} (positive : 0 < ms) (frames : Int) : Tells (perSecond frames ms) ms frames :=
  ⟨rfl,round_perSecond positive⟩

theorem step_reported {s t u : SpeedMeter} {front : List Call} {c : Call} {r : Report}
    (quiet : Gathering.Quiet step s front t) (moved : step t c = (u,some r)) :
    s.Reported (front ++ [c]) r u := by
  obtain ⟨frames,number,time,print,early⟩ := quiet_waiting quiet
  rw [step_eq] at moved
  simp only [checkProgress] at moved
  split at moved
  case isTrue => simp at moved
  case isFalse due =>
    have positive := milliseconds_pos (not_lt.mp due)
    obtain ⟨after,told⟩ := Prod.mk.inj moved
    obtain rfl := Option.some.inj told
    have last : max t.lastFrameNumber c.num = highest s.lastFrameNumber (front ++ [c]) := by
      simp [highest,number]
    refine ⟨fun empty => ⟨?_,?_,front,c,rfl,rfl,?_⟩,time,last,?_,after.symm⟩
    · have all : ((t.framesProcessed + ocrFrames [c] : Nat) : Int) = ocrFrames (front ++ [c]) := by
        rw [frames,empty]
        simp [ocrFrames]
      rw [all]
      exact tells_perSecond positive _
    · change t.lastReportTime + reportInterval ≤ c.now
      omega
    · simpa [time] using early
    · rw [print]
      exact tells_perSecond positive _

/-! ## The reports of a run -/

/-- The reports against the calls, of which a part was counted for each report and the rest waits
for the next one. -/
structure Accounts (s : SpeedMeter) (parts : List (List Call)) (rest : List Call) (t : SpeedMeter)
    (reports : List Report) : Prop where
  covers : List.Forall₂ Report.Covers parts reports
  waiting : t.framesProcessed = ocrFrames rest ∧ ∀ c ∈ rest, c.now < t.lastReportTime + reportInterval
  /-- a report begins where the one before ended -/
  consecutive : s.lastReportTime :: reports.map Report.now =
    reports.map Report.since ++ [t.lastReportTime]
  /-- each report tells the highest number of all parts so far -/
  numbers : List.scanl highest s.lastFrameNumber parts =
    s.lastFrameNumber :: reports.map fun r => r.progress.lastFrameNumber
  /-- the frames that were passed add up -/
  seeked : ∃ passed, List.Forall₂ Report.Seeked passed reports ∧ ∀ r ∈ reports.head?,
    passed.sum = t.lastPrintFrameNumber - min s.lastPrintFrameNumber r.progress.lastFrameNumber
  printed : ∀ r ∈ reports.getLast?, t.lastPrintFrameNumber = r.progress.lastFrameNumber

/-- The parts that were put out after a report. -/
theorem parts_seeked {s t : SpeedMeter} {parts : List (List Call)} {reports : List Report}
    (put : Gathering.Parts step s parts reports t)
    (told : s.lastPrintFrameNumber = s.lastFrameNumber) : ∃ passed,
      List.Forall₂ Report.Seeked passed reports ∧
        passed.sum = t.lastPrintFrameNumber - s.lastPrintFrameNumber := by
  induction put with
  | nil => exact ⟨[],.nil,by simp⟩
  | @cons s front t c u r parts reports v quiet moved _ ih =>
    obtain ⟨_,_,number,seeked,after⟩ := step_reported quiet moved
    have grown : s.lastPrintFrameNumber ≤ r.progress.lastFrameNumber := by
      rw [number,told]
      exact le_highest _ _
    subst after
    obtain ⟨passed,each,sum⟩ := ih rfl
    rw [max_eq_left (by omega)] at seeked
    refine ⟨_ :: passed,.cons seeked each,?_⟩
    rw [List.sum_cons,sum]
    dsimp only
    omega

theorem parts_account {s t u : SpeedMeter} {parts : List (List Call)} {rest : List Call}
    {reports : List Report} (put : Gathering.Parts step s parts reports t)
    (quiet : Gathering.Quiet step t rest u) (fresh : s.framesProcessed = 0) :
    s.Accounts parts rest u reports := by
  induction put with
  | nil =>
    obtain ⟨frames,_,time,_,early⟩ := quiet_waiting quiet
    exact ⟨.nil,⟨by simpa [fresh] using frames,by simpa [time] using early⟩,by simp [time],rfl,
      by simp,by simp⟩
  | @cons s front t c v r parts reports w before moved later ih =>
    obtain ⟨covers,since,number,seeked,after⟩ := step_reported before moved
    have print := (quiet_waiting quiet).print
    obtain ⟨passed,each,sum⟩ : ∃ passed, List.Forall₂ Report.Seeked passed reports ∧
        passed.sum = u.lastPrintFrameNumber - r.progress.lastFrameNumber := by
      have told := parts_seeked later (by rw [after])
      rwa [after,← print] at told
    obtain ⟨coversLater,waiting,consecutive,numbers,_,printed⟩ := ih quiet (by rw [after])
    subst after
    refine ⟨.cons (covers fresh) coversLater,waiting,?_,?_,?_,?_⟩
    · simpa [since] using consecutive
    · simpa [number] using numbers
    · refine ⟨_ :: passed,.cons seeked each,fun first head => ?_⟩
      obtain rfl : r = first := by simpa using head
      rw [List.sum_cons,sum]
      omega
    · intro last tail
      cases reports with
      | nil =>
        obtain rfl : r = last := by simpa using tail
        cases later
        exact print
      | cons next reports => exact printed last (by simpa using tail)

/-- Whatever the consumers report in any order, each frame that was recognised is in exactly one
report or still waits, the reports follow each other at five seconds at least, and they tell the
highest frame number so far. -/
theorem reports_account_for_calls (startingFrameNum now : Int) (calls : List Call) :
    ∃ parts rest, calls = parts.flatten ++ rest ∧
      (new startingFrameNum now).Accounts parts rest
        (run (new startingFrameNum now) calls).1 (run (new startingFrameNum now) calls).2 := by
  obtain ⟨parts,rest,t,cut,put,quiet⟩ :=
    Gathering.exists_parts step (new startingFrameNum now) calls
  exact ⟨parts,rest,cut,parts_account put quiet rfl⟩

end SpeedMeter

end OcrSuite
