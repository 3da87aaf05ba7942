import Mathlib.Data.Rat.Defs
import Mathlib.Algebra.Order.Field.Rat
import Mathlib.Data.List.Infix
import OcrSuite.Pattern
import OcrSuite.ProgressLine
import OcrSuite.SingleInstance

/-! What the watcher makes of a line that the recogniser prints: four patterns are tried one after
the other, and what they capture is shown in the task's progress. -/
namespace OcrSuite.Executor

open Pattern SingleInstance

variable {V : Type}

/-! ## Floating-point numbers in texts -/

/-- The language's floating-point numbers. `nearest` is how a decimal number is rounded to one. -/
structure Floats (V : Type) where
  nearest : ℚ → V
  infinity : V
  nan : V
  neg : V → V

/-- A number, or nothing, which is zero. -/
def digits (text : List Char) : Option Nat := if text = [] then some 0 else natural text

def fixedPoint? (text : List Char) : Option ℚ :=
  let whole := text.takeWhile (· ≠ '.')
  let fraction := (text.dropWhile (· ≠ '.')).drop 1
  if whole = [] ∧ fraction = [] then none
  else do
    let n ← digits whole
    let m ← digits fraction
    some (n + m / 10 ^ (fraction.filter (· ≠ '_')).length)

def exponent? : List Char → Option Int
  | '-' :: rest => (natural rest).map fun n => -(n : Int)
  | '+' :: rest => (natural rest).map fun n => (n : Int)
  | text => (natural text).map fun n => (n : Int)

def decimal? (text : List Char) : Option ℚ :=
  match text.dropWhile (· ≠ 'e') with
  | [] => fixedPoint? text
  | _ :: power => do
    let mantissa ← fixedPoint? (text.takeWhile (· ≠ 'e'))
    let exponent ← exponent? power
    some (mantissa * 10 ^ exponent)

def unsigned (d : Floats V) (text : List Char) : Option V :=
  let lower := text.map Char.toLower
  if lower = "inf".toList ∨ lower = "infinity".toList then some d.infinity
  else if lower = "nan".toList then some d.nan
  else (decimal? lower).map d.nearest

/-- The language's conversion of a text to a floating-point number. -/
def float (d : Floats V) (text : List Char) : Option V :=
  match strip text with
  | '-' :: rest => (unsigned d rest).map d.neg
  | '+' :: rest => unsigned d rest
  | stripped => unsigned d stripped

/-! ## The patterns

A pattern is matched from the start of the line, which is all that its first symbol says. -/

def isSpace (c : Char) : Bool := c = ' ' || (9 ≤ c.toNat && c.toNat ≤ 13) || (28 ≤ c.toNat && c.toNat ≤ 31)

def isWord (c : Char) : Bool := c.isAlphanum || c = '_'

def isAny (c : Char) : Bool := c ≠ '\n'

/-- The end, or a last line break. -/
def isEnd (text : List Char) : Bool := text = [] ∨ text = ['\n']

def lazyAny : Item Char := .many false true 0 none isAny

def spaces : Item Char := .many false false 1 none isSpace

def word : Item Char := .many false false 1 none isWord

def any : Item Char := .one isAny

def anyGroup : Item Char := .many true false 0 none isAny

def percentGroup : Item Char := .many true false 1 (some 2) Char.isDigit

def lineEnd : List (Item Char) := [.many false false 0 none isSpace,.atEnd isEnd]

/-- From the rates to the times, whose pattern is `times`. -/
def rates (times : List (Item Char)) : List (Item Char) :=
  anyGroup :: (literal " OCR/s, ".toList ++ anyGroup :: (literal " seek/s, ".toList ++
    anyGroup :: (literal " in queue [".toList ++ times)))

def percentageRegex : List (Item Char) :=
  lazyAny :: spaces :: percentGroup :: (literal "%".toList ++ spaces :: word :: (literal " ".toList ++
    any :: any :: any :: (literal " ".toList ++ rates (anyGroup :: (literal " / ".toList ++
      anyGroup :: (literal "]".toList ++ lineEnd))))))

def nonPercentageRegex : List (Item Char) :=
  lazyAny :: word :: (literal " ".toList ++ any :: any :: any :: (literal " ".toList ++
    rates (anyGroup :: (literal "]".toList ++ lineEnd))))

def startingPercentageRegex : List (Item Char) :=
  lazyAny :: spaces :: percentGroup :: (literal "%".toList ++ spaces :: (literal "Starting".toList ++
    [.many false false 0 none isAny,.atEnd isEnd]))

def stoppingPercentageRegex : List (Item Char) :=
  lazyAny :: spaces :: percentGroup :: (literal "%".toList ++ spaces :: (literal "Stopping".toList ++
    [.many false false 0 none isAny,.atEnd isEnd]))

/-! ## The task -/

/-- The fields of a task. It has no `current_time` before the first update that gives one. -/
structure Task (V : Type) where
  completed : Int
  ocrPerSecond : V
  seekPerSecond : V
  inQueue : Int
  currentTime : Option (List Char)
  timeInfo : List Char
  deriving DecidableEq

/-- A task and the lines on the console. -/
structure Shown (V : Type) where
  task : Task V
  log : List (List Char)
  deriving DecidableEq

def toSkip : List (List Char) :=
  ["Stopping".toList,"Starting decoder".toList,"consumer threads".toList,"Done!".toList]

/-- A line for the console. `logs` are the texts whose mark-up it takes; others make it throw. -/
def log (logs : List Char → Bool) (text : List Char) (s : Shown V) : Option (Shown V) :=
  if logs text then some { s with log := s.log ++ [text] } else none

/-- A text that is not a number where one is read makes it throw. -/
def processStdout (d : Floats V) (logs : List Char → Bool) (path line : List Char) (s : Shown V) :
    Option (Shown V) :=
  match firstMatch percentageRegex line with
  | some m => do
    let percentage ← int (← m[0]?)
    let ocrPerSecond ← float d (← m[1]?)
    let seekPerSecond ← float d (← m[2]?)
    let inQueue ← int (← m[3]?)
    let currentTime ← m[4]?
    let totalTime ← m[5]?
    let timeInfo := "[".toList ++ currentTime ++ " / ".toList ++ totalTime ++ "]".toList
    some { s with task := ⟨percentage,ocrPerSecond,seekPerSecond,inQueue,some currentTime,timeInfo⟩ }
  | none =>
  match firstMatch nonPercentageRegex line with
  | some m => do
    let ocrPerSecond ← float d (← m[0]?)
    let seekPerSecond ← float d (← m[1]?)
    let inQueue ← int (← m[2]?)
    let currentTime ← m[3]?
    let timeInfo := "[".toList ++ currentTime ++ " / ??:??:??]".toList
    some { s with task := ⟨0,ocrPerSecond,seekPerSecond,inQueue,some currentTime,timeInfo⟩ }
  | none =>
  match firstMatch startingPercentageRegex line with
  | some m => do
    let percentage ← int (← m[0]?)
    some { s with task := { s.task with completed := percentage } }
  | none =>
  match firstMatch stoppingPercentageRegex line with
  | some m => do
    let percentage ← int (← m[0]?)
    some { s with task := { s.task with completed := percentage } }
  | none =>
    if ∃ pattern ∈ toSkip, pattern <:+: strip line then some s
    else log logs (path ++ ": ".toList ++ strip line) s

def processStderr (logs : List Char → Bool) (path line : List Char) (s : Shown V) : Option (Shown V) :=
  log logs ("[bold red]".toList ++ path ++ ": ".toList ++ strip line) s

end OcrSuite.Executor
