import Mathlib.Data.List.Basic

/-! The line that the recogniser shows its progress in. Texts are lists of characters. -/
namespace OcrSuite.ProgressLine

/-! ## Numbers -/

def decimal (n : Nat) : List Char := Nat.toDigits 10 n

/-- Zeros in front up to a width. -/
def zeroPad (width : Nat) (text : List Char) : List Char :=
  List.replicate (width - text.length) '0' ++ text

/-- A number of hundredths with two places behind the point, five characters at least. -/
def fixedPoint (hundredths : Nat) : List Char :=
  zeroPad 5 (decimal (hundredths / 100) ++ '.' :: zeroPad 2 (decimal (hundredths % 100)))

/-- `frame_number_to_time_string`, from the second that the frame is at. -/
def timeString (seconds : Nat) : List Char :=
  let totalHours := seconds / 3600
  let seconds := seconds - totalHours * 3600
  let totalMinutes := seconds / 60
  let seconds := seconds - totalMinutes * 60
  zeroPad 2 (decimal totalHours) ++ ':' :: (zeroPad 2 (decimal totalMinutes) ++
    ':' :: zeroPad 2 (decimal seconds))

theorem isDigit_of_mem_decimal {n : Nat} {c : Char} (member : c ∈ decimal n) : c.isDigit = true :=
  Nat.isDigit_of_mem_toDigits (by decide) (by decide) member

theorem mem_zeroPad {width : Nat} {text : List Char} {c : Char} (member : c ∈ zeroPad width text) :
    c = '0' ∨ c ∈ text := by
  rcases List.mem_append.mp member with zeros | inside
  · exact .inl (List.eq_of_mem_replicate zeros)
  · exact .inr inside

theorem isDigit_of_mem_zeroPad {width n : Nat} {c : Char} (member : c ∈ zeroPad width (decimal n)) :
    c.isDigit = true := by
  rcases mem_zeroPad member with rfl | inside
  · decide
  · exact isDigit_of_mem_decimal inside

theorem mem_fixedPoint {hundredths : Nat} {c : Char} (member : c ∈ fixedPoint hundredths) :
    c.isDigit = true ∨ c = '.' := by
  rcases mem_zeroPad member with rfl | inside
  · exact .inl (by decide)
  · simp only [List.mem_append,List.mem_cons] at inside
    rcases inside with whole | rfl | fraction
    · exact .inl (isDigit_of_mem_decimal whole)
    · exact .inr rfl
    · exact .inl (isDigit_of_mem_zeroPad fraction)

theorem mem_timeString {seconds : Nat} {c : Char} (member : c ∈ timeString seconds) :
    c.isDigit = true ∨ c = ':' := by
  simp only [timeString,List.mem_append,List.mem_cons] at member
  rcases member with hours | rfl | minutes | rfl | seconds
  · exact .inl (isDigit_of_mem_zeroPad hours)
  · exact .inr rfl
  · exact .inl (isDigit_of_mem_zeroPad minutes)
  · exact .inr rfl
  · exact .inl (isDigit_of_mem_zeroPad seconds)

/-! ## The line -/

inductive SpinnerState where
  | backslash
  | bar
  | slash
  | dash
  deriving DecidableEq

def SpinnerState.char : SpinnerState → Char
  | .backslash => '\\'
  | .bar => '|'
  | .slash => '/'
  | .dash => '-'

/-- What is known if the number of frames is: how much of it is done, which an estimate may be below,
and the second that the last frame is at. -/
structure MaxFrames where
  percentage : Nat
  seconds : Nat
  deriving DecidableEq

/-- What a report and the state of the spinner determine of the line. The rates are in hundredths,
the last frame in seconds. The spinner pads its line, and a line ends where the next one starts. -/
structure Report where
  spinner : SpinnerState
  maxFrames : Option MaxFrames
  stopping : Bool
  recognizedFramesPerSecond : Nat
  totalFramesPerSecond : Nat
  leftInQueue : Nat
  lastFrame : Nat
  padding : List Char
  blank : ∀ c ∈ padding, c = ' ' ∨ c = '\r' ∨ c = '\n'

namespace Report

/-- The word of the postfix, which three points follow. -/
def activity (r : Report) : List Char := if r.stopping then "Stopping".toList else "Processing".toList

def time (r : Report) : List Char :=
  match r.maxFrames with
  | some m => "[".toList ++ timeString r.lastFrame ++ " / ".toList ++ timeString m.seconds ++ "]".toList
  | none => "[".toList ++ timeString r.lastFrame ++ "]".toList

def percentage (r : Report) : List Char :=
  match r.maxFrames with
  | some m => ' ' :: (decimal m.percentage ++ ['%'])
  | none => []

/-- The text that `progress_callback` makes of a report. -/
def text (r : Report) : List Char :=
  r.activity ++ " ... ".toList ++ fixedPoint r.recognizedFramesPerSecond ++ " OCR/s, ".toList ++
    fixedPoint r.totalFramesPerSecond ++ " seek/s, ".toList ++ decimal r.leftInQueue ++
    " in queue ".toList ++ r.time

def line (r : Report) : List Char :=
  r.spinner.char :: (r.percentage ++ ' ' :: (r.text ++ r.padding))

end Report

end OcrSuite.ProgressLine
