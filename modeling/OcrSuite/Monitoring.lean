import Mathlib.Data.List.Induction
import Mathlib.Logic.Function.Basic
import OcrSuite.LineReader
import OcrSuite.Runs

/-! A process of the watcher and the thread that reads its output: `_monitor_output` with the pipes of the
process, from which lines are read in chunks, until the process has ended and all of its output is read. -/
namespace OcrSuite

open Transition LineReader

namespace Monitoring

inductive Fd where
  | stdout
  | stderr
  deriving DecidableEq

/-- Where the thread is: in `readline` with the rest of what `select` returned, or in what follows the loop,
`readlines` and the loop over its lines. A thread that failed has closed the pipes if it could log why. -/
inductive Pc where
  | polling
  | selecting
  | reading (fd : Fd) (rest : List Fd)
  | draining (fd : Fd)
  | processing (fd : Fd) (lines : List (List Char))
  | done
  | failed (closed : Bool)
  deriving DecidableEq

inductive Action where
  | write
  | exit
  | kill
  | wait
  | poll
  | pollBusy
  | select
  | timeout
  | chunk (n : Nat)
  | line
  | eof
  | process

/-- What belongs to one of the two streams. -/
def of {β : Type} (fd : Fd) (l : List (Fd × β)) : List β :=
  l.filterMap fun (other,x) => if other = fd then some x else none

end Monitoring

open Monitoring

/-- What the thread calls with a line, and with what a line made it throw. A method that throws has no value. -/
structure Monitoring.Methods (σ : Type) where
  process : Fd → List Char → σ → Option σ
  logError : Fd → List Char → σ → Option σ

/-- `rest` is what the process is still to write, `sent` what it has written into its pipes, `given` the lines
that were processed. Another thread waits for the process; before that has noticed the end, `poll` does not. -/
structure Monitoring (σ : Type) where
  rest : List (Fd × Char)
  sent : List (Fd × Char)
  exited : Bool
  waited : Bool
  pipe : Fd → List Char
  reader : Fd → Reader
  pc : Pc
  shown : σ
  given : List (Fd × List Char)

namespace Monitoring

variable {σ : Type}

def start (script : List (Fd × Char)) (shown : σ) : Monitoring σ :=
  ⟨script,[],false,false,fun _ => [],fun _ => .new,.polling,shown,[]⟩

/-- The next of what `select` returned. -/
def Pc.next : List Fd → Pc
  | [] => .polling
  | fd :: rest => .reading fd rest

/-- The pipe has something to read, or its end. -/
def ready (s : Monitoring σ) (fd : Fd) : Bool := s.exited || !(s.pipe fd).isEmpty

def rlist (s : Monitoring σ) : List Fd := [Fd.stdout,Fd.stderr].filter s.ready

/-- The stream that is read. -/
def Pc.source : Pc → Option Fd
  | .reading fd _ | .draining fd => some fd
  | _ => none

def Pc.closed : Pc → Bool
  | .done | .failed true => true
  | _ => false

/-- Whatever a line makes it throw is caught after the loops and logged, which may throw as well. The thread ends
then before it closes the pipes. -/
def handle (m : Methods σ) (s : Monitoring σ) (fd : Fd) (line : List Char) (pc : Pc) : Monitoring σ :=
  match m.process fd line s.shown with
  | some shown => { s with shown := shown, given := s.given ++ [(fd,line)], pc := pc }
  | none =>
    match m.logError fd line s.shown with
    | some shown => { s with shown := shown, given := s.given ++ [(fd,line)], pc := .failed true }
    | none => { s with given := s.given ++ [(fd,line)], pc := .failed false }

/-- A pipe holds at most `capacity` characters. What is written to a closed one is lost, unless the process ends
there, which is a kill. -/
def step (m : Methods σ) (capacity : Nat) (s : Monitoring σ) : Action → Option (Monitoring σ)
  | .write =>
    match s.exited,s.rest with
    | false,(fd,c) :: rest =>
      if s.pc.closed then some { s with rest := rest }
      else if (s.pipe fd).length < capacity then
        some { s with
          rest := rest
          sent := s.sent ++ [(fd,c)]
          pipe := Function.update s.pipe fd (s.pipe fd ++ [c]) }
      else none
    | _,_ => none
  | .exit => if s.exited = false ∧ s.rest.isEmpty then some { s with exited := true } else none
  | .kill => if s.exited = false then some { s with exited := true } else none
  | .wait => if s.exited ∧ s.waited = false then some { s with waited := true } else none
  | .poll =>
    match s.pc with
    | .polling =>
      if s.waited then some { s with pc := .draining .stdout }
      else if s.exited = false then some { s with pc := .selecting }
      else none
    | _ => none
  | .pollBusy =>
    match s.pc with
    | .polling => if s.exited ∧ s.waited = false then some { s with pc := .selecting } else none
    | _ => none
  | .select =>
    match s.pc,s.rlist with
    | .selecting,fd :: rest => some { s with pc := .reading fd rest }
    | _,_ => none
  | .timeout =>
    match s.pc,s.rlist with
    | .selecting,[] => some { s with pc := .polling }
    | _,_ => none
  | .chunk n =>
    match s.pc.source with
    | some fd =>
      -- `readline` first looks for a line in what was read before
      if s.pipe fd ≠ [] ∧ (s.pc = .draining fd ∨ (s.reader fd).line? = none) then
        some { s with
          pipe := Function.update s.pipe fd ((s.pipe fd).drop (n + 1))
          reader := Function.update s.reader fd ((s.reader fd).feed ((s.pipe fd).take (n + 1))) }
      else none
    | none => none
  | .line =>
    match s.pc with
    | .reading fd rest => do
      let (line,reader) ← (s.reader fd).line?
      return handle m { s with reader := Function.update s.reader fd reader } fd line (.next rest)
    | _ => none
  | .eof =>
    match s.pc with
    | .reading fd rest =>
      if s.exited ∧ s.pipe fd = [] ∧ (s.reader fd).line? = none then
        let s' := { s with reader := Function.update s.reader fd .new }
        match (s.reader fd).final with
        | [] => some { s' with pc := .next rest }
        | line => some (handle m s' fd line (.next rest))
      else none
    | .draining fd =>
      if s.exited ∧ s.pipe fd = [] then
        some { s with
          reader := Function.update s.reader fd .new
          pc := .processing fd (lines (s.reader fd).final) }
      else none
    | _ => none
  | .process =>
    match s.pc with
    | .processing fd (line :: rest) => some (handle m s fd line (.processing fd rest))
    | .processing .stdout [] => some { s with pc := .draining .stderr }
    | .processing .stderr [] => some { s with pc := .done }
    | _ => none

/-! ## The steps -/

variable {m : Methods σ} {capacity : Nat} {s t : Monitoring σ} {a : Action}

/-- A line of a stream is given to its method, and the thread goes on at `pc` unless that throws. -/
inductive Handled (m : Methods σ) (s : Monitoring σ) (fd : Fd) (line : List Char) (pc : Pc) : Monitoring σ → Prop where
  | shown (shown : σ) : m.process fd line s.shown = some shown →
      Handled m s fd line pc { s with shown := shown, given := s.given ++ [(fd,line)], pc := pc }
  | failed (closed : Bool) (shown : σ) : m.process fd line s.shown = none →
      (m.logError fd line s.shown = if closed then some shown else none) →
      Handled m s fd line pc { s with shown := shown, given := s.given ++ [(fd,line)], pc := .failed closed }

theorem handled (s : Monitoring σ) (fd : Fd) (line : List Char) (pc : Pc) :
    Handled m s fd line pc (handle m s fd line pc) := by
  unfold handle
  split
  case h_1 shown done => exact .shown shown done
  case h_2 fails =>
    split
    case h_1 shown logged => exact .failed true shown fails logged
    case h_2 thrown => exact .failed false s.shown fails thrown

def setReader (s : Monitoring σ) (fd : Fd) (reader : Reader) : Monitoring σ :=
  { s with reader := Function.update s.reader fd reader }

def setPc (s : Monitoring σ) (pc : Pc) : Monitoring σ := { s with pc := pc }

inductive Stepped (m : Methods σ) (capacity : Nat) (s : Monitoring σ) : Action → Monitoring σ → Prop where
  | lost (fd : Fd) (c : Char) (rest : List (Fd × Char)) : s.exited = false → s.rest = (fd,c) :: rest →
      s.pc.closed = true → Stepped m capacity s .write { s with rest := rest }
  | wrote (fd : Fd) (c : Char) (rest : List (Fd × Char)) : s.exited = false → s.rest = (fd,c) :: rest →
      s.pc.closed = false → (s.pipe fd).length < capacity → Stepped m capacity s .write { s with
        rest := rest
        sent := s.sent ++ [(fd,c)]
        pipe := Function.update s.pipe fd (s.pipe fd ++ [c]) }
  | exited (a : Action) : a = .exit ∧ s.rest = [] ∨ a = .kill → s.exited = false →
      Stepped m capacity s a { s with exited := true }
  | waited : s.exited = true → s.waited = false → Stepped m capacity s .wait { s with waited := true }
  | drain : s.pc = .polling → s.waited = true → Stepped m capacity s .poll { s with pc := .draining .stdout }
  | polled (a : Action) : a = .poll ∧ s.exited = false ∨ a = .pollBusy ∧ s.exited = true →
      s.pc = .polling → s.waited = false → Stepped m capacity s a { s with pc := .selecting }
  | selected (fd : Fd) (rest : List Fd) : s.pc = .selecting → s.rlist = fd :: rest →
      Stepped m capacity s .select { s with pc := .reading fd rest }
  | timedOut : s.pc = .selecting → s.rlist = [] → Stepped m capacity s .timeout { s with pc := .polling }
  | fed (n : Nat) (fd : Fd) : s.pc.source = some fd → s.pipe fd ≠ [] →
      (s.pc = .draining fd ∨ (s.reader fd).line? = none) → Stepped m capacity s (.chunk n) { s with
        pipe := Function.update s.pipe fd ((s.pipe fd).drop (n + 1))
        reader := Function.update s.reader fd ((s.reader fd).feed ((s.pipe fd).take (n + 1))) }
  | line (fd : Fd) (rest : List Fd) (line : List Char) (reader : Reader) (t : Monitoring σ) :
      s.pc = .reading fd rest → (s.reader fd).line? = some (line,reader) →
      Handled m (s.setReader fd reader) fd line (.next rest) t → Stepped m capacity s .line t
  | ended (fd : Fd) (rest : List Fd) : s.pc = .reading fd rest → s.exited = true → s.pipe fd = [] →
      (s.reader fd).final = [] → Stepped m capacity s .eof ((s.setReader fd .new).setPc (.next rest))
  | last (fd : Fd) (rest : List Fd) (t : Monitoring σ) : s.pc = .reading fd rest → s.exited = true →
      s.pipe fd = [] → (s.reader fd).line? = none → (s.reader fd).final ≠ [] →
      Handled m (s.setReader fd .new) fd (s.reader fd).final (.next rest) t → Stepped m capacity s .eof t
  | drained (fd : Fd) : s.pc = .draining fd → s.exited = true → s.pipe fd = [] →
      Stepped m capacity s .eof ((s.setReader fd .new).setPc
        (.processing fd (lines (s.reader fd).final)))
  | processed (fd : Fd) (line : List Char) (rest : List (List Char)) (t : Monitoring σ) :
      s.pc = .processing fd (line :: rest) → Handled m s fd line (.processing fd rest) t →
      Stepped m capacity s .process t
  | next : s.pc = .processing .stdout [] → Stepped m capacity s .process { s with pc := .draining .stderr }
  | finished : s.pc = .processing .stderr [] → Stepped m capacity s .process { s with pc := .done }

theorem step_stepped (taken : step m capacity s a = some t) : Stepped m capacity s a t := by
  cases a with
  | write =>
    simp only [step] at taken
    split at taken
    case h_1 fd c rest running script =>
      split at taken
      case isTrue closed =>
        obtain ⟨⟩ := taken
        exact .lost fd c rest running script closed
      case isFalse opened =>
        obtain ⟨room,⟨⟩⟩ := Option.ite_none_right_eq_some.mp taken
        exact .wrote fd c rest running script (by simpa using opened) room
    case h_2 => cases taken
  | exit =>
    obtain ⟨⟨running,empty⟩,⟨⟩⟩ := Option.ite_none_right_eq_some.mp taken
    exact .exited _ (.inl ⟨rfl,List.isEmpty_iff.mp empty⟩) running
  | kill =>
    obtain ⟨running,⟨⟩⟩ := Option.ite_none_right_eq_some.mp taken
    exact .exited _ (.inr rfl) running
  | wait =>
    obtain ⟨⟨ended,unnoticed⟩,⟨⟩⟩ := Option.ite_none_right_eq_some.mp taken
    exact .waited ended unnoticed
  | poll =>
    simp only [step] at taken
    split at taken
    case h_1 pc =>
      split at taken
      case isTrue waited =>
        obtain ⟨⟩ := taken
        exact .drain pc waited
      case isFalse unnoticed =>
        obtain ⟨running,⟨⟩⟩ := Option.ite_none_right_eq_some.mp taken
        exact .polled _ (.inl ⟨rfl,running⟩) pc (Bool.not_eq_true _ ▸ unnoticed)
    case h_2 => cases taken
  | pollBusy =>
    simp only [step] at taken
    split at taken
    case h_1 pc =>
      obtain ⟨⟨ended,unnoticed⟩,⟨⟩⟩ := Option.ite_none_right_eq_some.mp taken
      exact .polled _ (.inr ⟨rfl,ended⟩) pc unnoticed
    case h_2 => cases taken
  | select =>
    simp only [step] at taken
    split at taken
    case h_1 fd rest pc found =>
      obtain ⟨⟩ := taken
      exact .selected fd rest pc found
    case h_2 => cases taken
  | timeout =>
    simp only [step] at taken
    split at taken
    case h_1 pc none =>
      obtain ⟨⟩ := taken
      exact .timedOut pc none
    case h_2 => cases taken
  | chunk n =>
    simp only [step] at taken
    split at taken
    case h_1 fd source =>
      obtain ⟨⟨nonempty,unread⟩,⟨⟩⟩ := Option.ite_none_right_eq_some.mp taken
      exact .fed n fd source nonempty unread
    case h_2 => cases taken
  | line =>
    simp only [step] at taken
    split at taken
    case h_1 fd rest pc =>
      obtain ⟨⟨line,reader⟩,found,⟨⟩⟩ := Option.bind_eq_some_iff.mp taken
      exact .line fd rest line reader _ pc found (handled _ _ _ _)
    case h_2 => cases taken
  | eof =>
    simp only [step] at taken
    split at taken
    case h_1 fd rest pc =>
      obtain ⟨⟨ended,empty,unread⟩,taken⟩ := Option.ite_none_right_eq_some.mp taken
      split at taken
      case h_1 none =>
        obtain ⟨⟩ := taken
        exact .ended fd rest pc ended empty none
      case h_2 some =>
        obtain ⟨⟩ := taken
        exact .last fd rest _ pc ended empty unread some (handled _ _ _ _)
    case h_2 fd pc =>
      obtain ⟨⟨ended,empty⟩,⟨⟩⟩ := Option.ite_none_right_eq_some.mp taken
      exact .drained fd pc ended empty
    case h_3 => cases taken
  | process =>
    simp only [step] at taken
    split at taken
    case h_1 fd line rest pc =>
      obtain ⟨⟩ := taken
      exact .processed fd line rest _ pc (handled _ _ _ _)
    case h_2 pc =>
      obtain ⟨⟩ := taken
      exact .next pc
    case h_3 pc =>
      obtain ⟨⟩ := taken
      exact .finished pc
    case h_4 => cases taken

/-! ## The streams -/

/-- What is known of one of the two streams. -/
structure Stream where
  exited : Bool
  pipe : List Char
  reader : Reader
  sent : List Char
  given : List (List Char)

def stream (s : Monitoring σ) (fd : Fd) : Stream :=
  ⟨s.exited,s.pipe fd,s.reader fd,of fd s.sent,of fd s.given⟩

@[simp] theorem stream_exited (s : Monitoring σ) (fd : Fd) : (s.stream fd).exited = s.exited := rfl

@[simp] theorem stream_pipe (s : Monitoring σ) (fd : Fd) : (s.stream fd).pipe = s.pipe fd := rfl

@[simp] theorem stream_reader (s : Monitoring σ) (fd : Fd) : (s.stream fd).reader = s.reader fd := rfl

/-- Whole lines were processed, and the rest is in the reader and in the pipe. -/
def Stream.Open (v : Stream) : Prop :=
  ∃ read, v.sent = read ++ v.pipe ∧ v.reader.Reads read v.given.flatten ∧ ∀ line ∈ v.given, Whole line

/-- Everything was read, and the lines that were not yet processed are known. -/
structure Stream.Ended (v : Stream) (left : List (List Char)) : Prop where
  exited : v.exited = true
  pipe : v.pipe = []
  reader : v.reader = .new
  given : v.given ++ left = lines (translate v.sent)

variable {v : Stream}

theorem Stream.Open.write (valid : v.Open) (c : Char) :
    Open { v with pipe := v.pipe ++ [c], sent := v.sent ++ [c] } := by
  obtain ⟨read,sent,reads,whole⟩ := valid
  exact ⟨read,by simp [sent],reads,whole⟩

theorem Stream.Open.feed (valid : v.Open) (n : Nat) :
    Open { v with pipe := v.pipe.drop n, reader := v.reader.feed (v.pipe.take n) } := by
  obtain ⟨read,sent,reads,whole⟩ := valid
  exact ⟨read ++ v.pipe.take n,by simp [sent],reads.feed _,whole⟩

theorem Stream.Open.take (valid : v.Open) {line : List Char} {reader : Reader}
    (found : v.reader.line? = some (line,reader)) : Open { v with reader := reader, given := v.given ++ [line] } := by
  obtain ⟨read,sent,reads,whole⟩ := valid
  refine ⟨read,sent,?_,?_⟩
  · simpa using reads.take found
  · intro other member
    rcases List.mem_append.mp member with old | new
    · exact whole other old
    · rw [List.mem_singleton.mp new]
      exact (Reader.line?_eq_some found).1

theorem Stream.Open.lines (valid : v.Open) (empty : v.pipe = []) :
    v.given ++ lines v.reader.final = LineReader.lines (translate v.sent) := by
  obtain ⟨read,sent,reads,whole⟩ := valid
  rw [sent,empty,List.append_nil,reads.final,lines_flatten whole]

theorem Stream.Open.ended (valid : v.Open) (exited : v.exited = true) (empty : v.pipe = []) :
    Ended { v with reader := .new } (LineReader.lines v.reader.final) where
  exited := exited
  pipe := empty
  reader := rfl
  given := valid.lines empty

theorem Stream.Ended.give {line : List Char} {rest : List (List Char)} (valid : v.Ended (line :: rest)) :
    Ended { v with given := v.given ++ [line] } rest where
  exited := valid.exited
  pipe := valid.pipe
  reader := valid.reader
  given := by simpa using valid.given

theorem Stream.Ended.final {left : List (List Char)} (valid : v.Ended left) : v.reader.final = [] := by
  rw [valid.reader]
  rfl

/-- Whatever is still written, the lines that were processed are the first ones. -/
theorem Stream.Open.initial (valid : v.Open) (more : List Char) :
    v.given <+: LineReader.lines (translate (v.sent ++ more)) := by
  obtain ⟨read,sent,reads,whole⟩ := valid
  obtain ⟨settled,parts,_,later⟩ := reads.settled (v.pipe ++ more)
  rw [sent,List.append_assoc,parts,later _ List.prefix_rfl,List.append_assoc,lines_flatten whole]
  exact List.prefix_append _ _

/-! ## The invariant -/

/-- The lines of `readlines` that are left. -/
def Pc.held : Pc → Fd → List (List Char)
  | .processing other lines,fd => if other = fd then lines else []
  | _,_ => []

/-- Everything of the stream was read after the loop. -/
def Pc.passed : Pc → Fd → Bool
  | .processing .stdout _,.stdout | .draining .stderr,.stdout | .processing .stderr _,_ | .done,_ => true
  | _,_ => false

/-- The process has ended, as far as the thread knows. -/
def Pc.past : Pc → Bool
  | .draining _ | .processing _ _ | .done => true
  | _ => false

def Pc.regular : Pc → Bool
  | .failed _ => false
  | _ => true

/-- How far a stream is, of which only whole lines are left. -/
def Stream.Valid (v : Stream) (pc : Pc) (fd : Fd) : Prop :=
  v.Open ∧ pc.passed fd = false ∨ ∃ left, v.Ended left ∧ (pc.regular = true → left = pc.held fd)

/-- There is something to read, or the end of the stream. -/
def Stream.Fresh (v : Stream) : Prop := v.exited = true ∨ v.pipe ≠ [] ∨ 0 < v.reader.load

/-- What is shown after some lines, if none of them throws. -/
def Methods.processAll (m : Methods σ) (given : List (Fd × List Char)) (shown : σ) : Option σ :=
  given.foldlM (fun shown (fd,line) => m.process fd line shown) shown

/-- The last line that was processed made the thread fail. -/
def FailedAt (m : Methods σ) (shown : σ) (s : Monitoring σ) (closed : Bool) : Prop :=
  ∃ front fd line before, s.given = front ++ [(fd,line)] ∧ m.processAll front shown = some before ∧
    m.process fd line before = none ∧ m.logError fd line before = if closed then some s.shown else none

structure Invariant (m : Methods σ) (script : List (Fd × Char)) (shown : σ) (s : Monitoring σ) : Prop where
  streams : ∀ fd, (s.stream fd).Valid s.pc fd
  script : ∃ lost, script = s.sent ++ (lost ++ s.rest) ∧ (s.pc ≠ .failed true → lost = [])
  failed : ∀ closed, s.pc = .failed closed → FailedAt m shown s closed
  shown : s.pc.regular = true → m.processAll s.given shown = some s.shown
  past : s.pc.past = true → s.waited = true
  waited : s.waited = true → s.exited = true
  fresh : ∀ fd rest, s.pc = .reading fd rest →
    (fd :: rest).Nodup ∧ ∀ other ∈ fd :: rest, (s.stream other).Fresh

theorem start_invariant (script : List (Fd × Char)) (shown : σ) :
    Invariant m script shown (start script shown) where
  streams fd := .inl ⟨⟨[],rfl,Reader.new_reads,by simp [stream,start,of]⟩,rfl⟩
  script := ⟨[],rfl,fun _ => rfl⟩
  failed := by simp [start]
  shown _ := rfl
  past := by simp [start,Pc.past]
  waited := by simp [start]
  fresh := by simp [start]

theorem Stream.Valid.failed {pc : Pc} {fd : Fd} (valid : v.Valid pc fd) (closed : Bool) :
    v.Valid (.failed closed) fd := by
  rcases valid with ⟨opened,_⟩ | ⟨left,ended,_⟩
  · exact .inl ⟨opened,rfl⟩
  · exact .inr ⟨left,ended,by simp [Pc.regular]⟩

/-- The thread goes on without a change of the stream. -/
theorem Stream.Valid.move {pc pc' : Pc} {fd : Fd} (valid : v.Valid pc fd) (regular : pc.regular = true)
    (passed : pc'.passed fd = true → pc.passed fd = true) (held : pc'.held fd = pc.held fd) : v.Valid pc' fd := by
  rcases valid with ⟨opened,before⟩ | ⟨left,ended,known⟩
  · refine .inl ⟨opened,?_⟩
    by_contra after
    rw [passed (by simpa using after)] at before
    cases before
  · exact .inr ⟨left,ended,fun _ => by rw [held,known regular]⟩

theorem Stream.Valid.opened {pc : Pc} {fd : Fd} (valid : v.Valid pc fd) (unread : ∀ left, ¬ v.Ended left) :
    v.Open ∧ pc.passed fd = false :=
  valid.resolve_right fun ⟨left,ended,_⟩ => unread left ended

/-- At the end of a stream all that it is left with are lines, once more than once. -/
theorem Stream.Valid.ended {pc : Pc} {fd : Fd} (valid : v.Valid pc fd) (regular : pc.regular = true)
    (held : pc.held fd = []) (exited : v.exited = true) (empty : v.pipe = []) :
    Ended { v with reader := .new } (LineReader.lines v.reader.final) := by
  rcases valid with ⟨opened,_⟩ | ⟨left,ended,known⟩
  · exact opened.ended exited empty
  · rw [ended.final]
    rw [known regular,held] at ended
    exact ⟨exited,empty,rfl,ended.given⟩

theorem of_append_same {β : Type} (fd : Fd) (l : List (Fd × β)) (x : β) : of fd (l ++ [(fd,x)]) = of fd l ++ [x] := by
  simp [of]

theorem of_append_of_ne {β : Type} {fd other : Fd} (different : other ≠ fd) (l : List (Fd × β)) (x : β) :
    of fd (l ++ [(other,x)]) = of fd l := by
  simp [of,different]

variable {script : List (Fd × Char)} {shown : σ} {fd : Fd} {line : List Char} {pc : Pc}

theorem Invariant.parts (valid : Invariant m script shown s) (opened : s.pc ≠ .failed true) :
    script = s.sent ++ s.rest := by
  obtain ⟨lost,parts,none⟩ := valid.script
  rwa [none opened] at parts

theorem Invariant.parts_of_regular (valid : Invariant m script shown s) (regular : s.pc.regular = true) :
    script = s.sent ++ s.rest :=
  valid.parts fun pc => by simp [pc,Pc.regular] at regular

/-- Until the process ends the rest of a stream is in the reader and the pipe. -/
theorem Invariant.opened (valid : Invariant m script shown s) (running : s.exited = false) (fd : Fd) :
    (s.stream fd).Open ∧ s.pc.passed fd = false :=
  (valid.streams fd).opened fun _ ended => by simpa [running] using ended.exited

theorem processAll_append (given : List (Fd × List Char)) (fd : Fd) (line : List Char) (shown : σ) :
    m.processAll (given ++ [(fd,line)]) shown = (m.processAll given shown).bind (m.process fd line) := by
  simp [Methods.processAll,List.foldlM_append]

theorem Handled.invariant {u : Monitoring σ} (done : Handled m u fd line pc t) (regular : pc.regular = true)
    (streams : ∀ other, Stream.Valid { u.stream other with given := of other (u.given ++ [(fd,line)]) } pc other)
    (parts : script = u.sent ++ u.rest) (before : m.processAll u.given shown = some u.shown)
    (past : pc.past = true → u.waited = true) (waited : u.waited = true → u.exited = true)
    (fresh : ∀ fd rest, pc = .reading fd rest → (fd :: rest).Nodup ∧ ∀ other ∈ fd :: rest, (u.stream other).Fresh) :
    Invariant m script shown t := by
  have whole : ∀ pc : Pc, ∃ lost, script = u.sent ++ (lost ++ u.rest) ∧ (pc ≠ .failed true → lost = []) :=
    fun _ => ⟨[],parts,fun _ => rfl⟩
  cases done with
  | shown after done =>
    refine ⟨streams,whole pc,fun closed failed => ?_,fun _ => ?_,past,waited,fresh⟩
    · dsimp only at failed
      simp [failed,Pc.regular] at regular
    · rw [processAll_append,before]
      exact done
  | failed closed after fails logged =>
    refine ⟨fun other => (streams other).failed closed,whole _,?_,by simp [Pc.regular],by simp [Pc.past],waited,
      by simp⟩
    rintro _ ⟨⟩
    exact ⟨u.given,fd,line,u.shown,rfl,before,fails,logged⟩

theorem invariant_setPc {u : Monitoring σ} (regular : pc.regular = true)
    (streams : ∀ other, (u.stream other).Valid pc other) (parts : script = u.sent ++ u.rest)
    (before : m.processAll u.given shown = some u.shown)
    (past : pc.past = true → u.waited = true) (waited : u.waited = true → u.exited = true)
    (fresh : ∀ fd rest, pc = .reading fd rest → (fd :: rest).Nodup ∧ ∀ other ∈ fd :: rest, (u.stream other).Fresh) :
    Invariant m script shown (u.setPc pc) := by
  refine ⟨streams,⟨[],parts,fun _ => rfl⟩,fun closed failed => ?_,fun _ => before,past,waited,fresh⟩
  have same : pc = .failed closed := failed
  simp [same,Pc.regular] at regular

theorem stream_setReader_of_ne {other : Fd} (different : other ≠ fd) (s : Monitoring σ) (r : Reader) :
    (s.setReader fd r).stream other = s.stream other := by
  simp [stream,setReader,Function.update_of_ne different]

theorem stream_setReader (s : Monitoring σ) (fd : Fd) (r : Reader) :
    (s.setReader fd r).stream fd = { s.stream fd with reader := r } := by
  simp [stream,setReader]

theorem held_next (rest : List Fd) (fd : Fd) : (Pc.next rest).held fd = [] := by
  cases rest <;> rfl

theorem passed_next (rest : List Fd) (fd : Fd) : (Pc.next rest).passed fd = false := by
  cases rest <;> rfl

theorem past_next (rest : List Fd) : (Pc.next rest).past = false := by
  cases rest <;> rfl

theorem regular_next (rest : List Fd) : (Pc.next rest).regular = true := by
  cases rest <;> rfl

theorem Invariant.move (valid : Invariant m script shown s) (regular : s.pc.regular = true)
    (regular' : pc.regular = true)
    (passed : ∀ fd, pc.passed fd = true → s.pc.passed fd = true) (held : ∀ fd, pc.held fd = s.pc.held fd)
    (past : pc.past = true → s.waited = true)
    (fresh : ∀ fd rest, pc = .reading fd rest → (fd :: rest).Nodup ∧ ∀ other ∈ fd :: rest, (s.stream other).Fresh) :
    Invariant m script shown { s with pc := pc } where
  streams fd := (valid.streams fd).move regular (passed fd) (held fd)
  script := ⟨[],valid.parts_of_regular regular,fun _ => rfl⟩
  failed closed failed := by
    have same : pc = .failed closed := failed
    simp [same,Pc.regular] at regular'
  shown _ := valid.shown regular
  past := past
  waited := valid.waited
  fresh := fresh

theorem fresh_of_mem_rlist (member : fd ∈ s.rlist) : (s.stream fd).Fresh := by
  have there := (List.mem_filter.mp member).2
  cases ended : s.exited with
  | true => exact .inl ended
  | false => exact .inr (.inl (by simpa [ready,ended] using there))

theorem Invariant.other (valid : Invariant m script shown s) (regular : s.pc.regular = true) {other : Fd}
    (different : other ≠ fd) (r : Reader) (passed : pc.passed other = true → s.pc.passed other = true)
    (held : pc.held other = s.pc.held other) : ((s.setReader fd r).stream other).Valid pc other := by
  rw [stream_setReader_of_ne different]
  exact (valid.streams other).move regular passed held

/-- What was ready before one stream was read and what comes after it. -/
theorem Invariant.fresh_next (valid : Invariant m script shown s) {rest : List Fd}
    (pc : s.pc = .reading fd rest) {r : Reader} (other : Fd) (more : List Fd)
    (next : Pc.next rest = .reading other more) :
    (other :: more).Nodup ∧ ∀ later ∈ other :: more, ((s.setReader fd r).stream later).Fresh := by
  obtain ⟨distinct,fresh⟩ := valid.fresh fd rest pc
  cases rest with
  | nil => cases next
  | cons first others =>
    obtain ⟨⟩ := next
    obtain ⟨apart,distinct'⟩ := List.nodup_cons.mp distinct
    refine ⟨distinct',fun later member => ?_⟩
    rw [stream_setReader_of_ne (by rintro rfl; exact apart member)]
    exact fresh later (List.mem_cons_of_mem _ member)

theorem step_invariant (valid : Invariant m script shown s) (taken : step m capacity s a = some t) :
    Invariant m script shown t := by
  cases step_stepped taken with
  | lost fd c rest running next closed =>
    have failed : s.pc = .failed true := by
      cases pc : s.pc with
      | failed c => cases c <;> simp_all [Pc.closed]
      | done => simpa [running] using valid.waited (valid.past (by simp [pc,Pc.past]))
      | _ => simp [pc,Pc.closed] at closed
    obtain ⟨before,parts,_⟩ := valid.script
    refine ⟨valid.streams,⟨before ++ [(fd,c)],?_,fun other => absurd failed other⟩,valid.failed,valid.shown,valid.past,
      valid.waited,valid.fresh⟩
    simpa [next] using parts
  | wrote fd c rest running next opened room =>
    have unfailed : s.pc ≠ .failed true := fun pc => by simp [pc,Pc.closed] at opened
    refine ⟨fun other => ?_,⟨[],?_,fun _ => rfl⟩,valid.failed,valid.shown,valid.past,valid.waited,
      fun source more pc => ?_⟩
    · have before := valid.opened running other
      by_cases same : fd = other
      · subst fd
        exact .inl ⟨by simpa [stream,of_append_same] using before.1.write c,before.2⟩
      · refine .inl ⟨?_,before.2⟩
        simpa [stream,of_append_of_ne same,Function.update_of_ne (Ne.symm same)] using before.1
    · rw [valid.parts unfailed,next,List.append_assoc]
      rfl
    · obtain ⟨distinct,fresh⟩ := valid.fresh source more pc
      refine ⟨distinct,fun other member => ?_⟩
      by_cases same : fd = other
      · exact .inr (.inl (by simp [stream,same]))
      · simpa [Stream.Fresh,stream,Function.update_of_ne (Ne.symm same)] using fresh other member
  | exited a which running =>
    refine ⟨fun fd => ?_,valid.script,valid.failed,valid.shown,valid.past,fun _ => rfl,fun fd rest pc => ?_⟩
    · exact .inl (valid.opened running fd)
    · exact ⟨(valid.fresh fd rest pc).1,fun _ _ => .inl rfl⟩
  | waited ended unnoticed =>
    exact ⟨valid.streams,valid.script,valid.failed,valid.shown,fun _ => rfl,fun _ => ended,valid.fresh⟩
  | drain pc waited =>
    apply valid.move <;> simp [pc,Pc.regular,Pc.passed,Pc.held,waited]
  | polled a which pc unnoticed =>
    apply valid.move <;> simp [pc,Pc.regular,Pc.passed,Pc.held,Pc.past]
  | selected fd rest pc found =>
    apply valid.move
    case fresh =>
      rintro _ _ ⟨⟩
      have distinct : s.rlist.Nodup := List.Pairwise.filter _ (by decide)
      rw [← found]
      exact ⟨distinct,fun other member => fresh_of_mem_rlist member⟩
    all_goals simp [pc,Pc.regular,Pc.passed,Pc.held,Pc.past]
  | timedOut pc none =>
    apply valid.move <;> simp [pc,Pc.regular,Pc.passed,Pc.held,Pc.past]
  | fed n fd source nonempty unread =>
    have before := (valid.streams fd).opened fun _ ended => nonempty ended.pipe
    refine ⟨fun other => ?_,valid.script,valid.failed,valid.shown,valid.past,valid.waited,fun first rest pc => ?_⟩
    · by_cases same : other = fd
      · subst other
        exact .inl ⟨by simpa [stream] using before.1.feed (n + 1),before.2⟩
      · simpa [stream,Function.update_of_ne same] using valid.streams other
    · obtain ⟨distinct,fresh⟩ := valid.fresh first rest pc
      refine ⟨distinct,fun other member => ?_⟩
      by_cases same : other = fd
      · subst other
        have some : (s.pipe fd).take (n + 1) ≠ [] := by simp [nonempty]
        exact .inr (.inr (by simpa using Reader.load_feed_pos _ some))
      · simpa [Stream.Fresh,stream,Function.update_of_ne same] using fresh other member
  | line fd rest line reader t pc found done =>
    have regular : s.pc.regular = true := by simp [pc,Pc.regular]
    apply done.invariant
    case regular => exact regular_next rest
    case parts => exact valid.parts_of_regular regular
    case before => exact valid.shown regular
    case past => simp [past_next]
    case waited => exact valid.waited
    case fresh => exact valid.fresh_next pc
    case streams =>
      intro other
      by_cases same : other = fd
      · subst other
        have before := (valid.streams fd).opened fun _ ended => by
          have new := ended.reader
          rw [stream_reader] at new
          simp [new,Reader.line?,Reader.new,cut] at found
        rw [stream_setReader,of_append_same]
        exact .inl ⟨before.1.take found,passed_next rest fd⟩
      · rw [of_append_of_ne (Ne.symm same)]
        exact valid.other regular same reader (by simp [passed_next]) (by rw [held_next,pc]; rfl)
  | ended fd rest pc ended empty none =>
    have regular : s.pc.regular = true := by simp [pc,Pc.regular]
    apply invariant_setPc
    case regular => exact regular_next rest
    case parts => exact valid.parts_of_regular regular
    case before => exact valid.shown regular
    case past => simp [past_next]
    case waited => exact valid.waited
    case fresh => exact valid.fresh_next pc
    case streams =>
      intro other
      by_cases same : other = fd
      · subst other
        have all := (valid.streams fd).ended regular (by simp [pc,Pc.held]) ended empty
        rw [stream_reader,none] at all
        rw [stream_setReader]
        exact .inr ⟨[],by simpa [lines] using all,fun _ => (held_next rest fd).symm⟩
      · exact valid.other regular same .new (by simp [passed_next]) (by rw [held_next,pc]; rfl)
  | last fd rest t pc ended empty unread some done =>
    have regular : s.pc.regular = true := by simp [pc,Pc.regular]
    apply done.invariant
    case regular => exact regular_next rest
    case parts => exact valid.parts_of_regular regular
    case before => exact valid.shown regular
    case past => simp [past_next]
    case waited => exact valid.waited
    case fresh => exact valid.fresh_next pc
    case streams =>
      intro other
      by_cases same : other = fd
      · subst other
        have all := (valid.streams fd).ended regular (by simp [pc,Pc.held]) ended empty
        rw [stream_reader,Reader.lines_final unread some] at all
        rw [stream_setReader,of_append_same]
        exact .inr ⟨[],all.give,fun _ => (held_next rest fd).symm⟩
      · rw [of_append_of_ne (Ne.symm same)]
        exact valid.other regular same .new (by simp [passed_next]) (by rw [held_next,pc]; rfl)
  | drained fd pc ended empty =>
    have regular : s.pc.regular = true := by simp [pc,Pc.regular]
    apply invariant_setPc
    case regular => rfl
    case parts => exact valid.parts_of_regular regular
    case before => exact valid.shown regular
    case past => exact fun _ => valid.past (by simp [pc,Pc.past])
    case waited => exact valid.waited
    case fresh => simp
    case streams =>
      intro other
      by_cases same : other = fd
      · subst other
        have all := (valid.streams fd).ended regular (by simp [pc,Pc.held]) ended empty
        rw [stream_setReader]
        exact .inr ⟨_,all,fun _ => by simp [Pc.held]⟩
      · refine valid.other regular same .new ?_ (by simp [pc,Pc.held,Ne.symm same])
        cases fd <;> cases other <;> simp_all [Pc.passed]
  | processed fd line rest t pc done =>
    have regular : s.pc.regular = true := by simp [pc,Pc.regular]
    apply done.invariant
    case regular => rfl
    case parts => exact valid.parts_of_regular regular
    case before => exact valid.shown regular
    case past => exact fun _ => valid.past (by simp [pc,Pc.past])
    case waited => exact valid.waited
    case fresh => simp
    case streams =>
      intro other
      by_cases same : other = fd
      · subst other
        rcases valid.streams fd with ⟨_,before⟩ | ⟨left,ended,known⟩
        · cases fd <;> simp [pc,Pc.passed] at before
        · rw [known regular,pc,Pc.held,if_pos rfl] at ended
          rw [of_append_same]
          exact .inr ⟨rest,ended.give,fun _ => by simp [Pc.held]⟩
      · rw [of_append_of_ne (Ne.symm same)]
        refine (valid.streams other).move regular ?_ (by simp [pc,Pc.held,Ne.symm same])
        cases fd <;> cases other <;> simp [pc,Pc.passed]
  | next pc =>
    apply valid.move
    case passed => intro fd; cases fd <;> simp [pc,Pc.passed]
    case past => exact fun _ => valid.past (by simp [pc,Pc.past])
    all_goals simp [pc,Pc.regular,Pc.held]
  | finished pc =>
    apply valid.move
    case past => exact fun _ => valid.past (by simp [pc,Pc.past])
    all_goals simp [pc,Pc.regular,Pc.passed,Pc.held]

theorem reachable_invariant (reached : Reachable (step m capacity) (start script shown) s) :
    Invariant m script shown s :=
  reached.invariant (start_invariant script shown) fun _ _ _ _ valid _ taken => step_invariant valid taken

/-! ## What was processed -/

/-- The lines of each stream were processed in their order, once each, and all of them when the thread has come to
its regular end; what is shown is what they make of it. A thread that failed did so at the last line that it
processed. -/
structure Outcome (m : Methods σ) (script : List (Fd × Char)) (shown : σ) (s : Monitoring σ) : Prop where
  partly : ∀ fd, of fd s.given <+: lines (translate (of fd s.sent))
  all : s.pc = .done → ∀ fd, of fd s.given = lines (translate (of fd s.sent))
  script : ∃ lost, script = s.sent ++ (lost ++ s.rest) ∧ (s.pc ≠ .failed true → lost = [])
  failed : ∀ closed, s.pc = .failed closed → FailedAt m shown s closed
  shown : s.pc.regular = true → m.processAll s.given shown = some s.shown

theorem Invariant.outcome (valid : Invariant m script shown s) : Outcome m script shown s where
  partly fd := by
    rcases valid.streams fd with ⟨opened,_⟩ | ⟨left,ended,_⟩
    · simpa [stream] using opened.initial []
    · exact ⟨left,ended.given⟩
  all pc fd := by
    rcases valid.streams fd with ⟨_,before⟩ | ⟨left,ended,known⟩
    · simp [pc,Pc.passed] at before
    · have none : left = [] := by simpa [pc,Pc.held,Pc.regular] using known
      simpa [none,stream] using ended.given
  script := valid.script
  failed := valid.failed
  shown := valid.shown

theorem of_append {β : Type} (fd : Fd) (l l' : List (Fd × β)) : of fd (l ++ l') = of fd l ++ of fd l' :=
  List.filterMap_append

/-- The process has written or will write the whole script. -/
theorem Invariant.initial (valid : Invariant m script shown s) (parts : script = s.sent ++ s.rest)
    (written : s.exited = true → s.rest = []) (fd : Fd) : of fd s.given <+: lines (translate (of fd script)) := by
  rw [parts,of_append]
  rcases valid.streams fd with ⟨opened,_⟩ | ⟨left,ended,_⟩
  · exact opened.initial _
  · rw [written ended.exited]
    exact ⟨left,by simpa [of,stream] using ended.given⟩

/-- A process that is not killed writes all that it has to. -/
theorem step_written (other : a ≠ .kill) (before : s.exited = true → s.rest = [])
    (taken : step m capacity s a = some t) : t.exited = true → t.rest = [] := by
  cases step_stepped taken with
  | lost _ _ _ running => simp [running]
  | wrote _ _ _ running => simp [running]
  | exited a which =>
    rcases which with ⟨_,empty⟩ | kill
    · exact fun _ => empty
    · exact absurd kill other
  | line _ _ _ _ _ _ _ done => cases done <;> exact before
  | last _ _ _ _ _ _ _ _ done => cases done <;> exact before
  | processed _ _ _ _ _ done => cases done <;> exact before
  | _ => exact before

/-- A thread that failed does nothing more. -/
theorem step_given (failed : s.pc.regular = false) (taken : step m capacity s a = some t) : t.given = s.given := by
  cases step_stepped taken with
  | line _ _ _ _ _ pc => simp [pc,Pc.regular] at failed
  | last _ _ _ pc => simp [pc,Pc.regular] at failed
  | processed _ _ _ _ pc => simp [pc,Pc.regular] at failed
  | _ => rfl

/-- A line that makes the thread fail takes nothing from the script. -/
theorem step_parts (valid : Invariant m script shown s) (regular : s.pc.regular = true)
    (taken : step m capacity s a = some t) : script = t.sent ++ t.rest := by
  have parts := valid.parts_of_regular regular
  cases step_stepped taken with
  | lost fd c rest running next closed =>
    cases pc : s.pc with
    | done => simpa [running] using valid.waited (valid.past (by simp [pc,Pc.past]))
    | failed => simp [pc,Pc.regular] at regular
    | _ => simp [pc,Pc.closed] at closed
  | wrote fd c rest running next => simpa [next] using parts
  | line _ _ _ _ _ _ _ done => cases done <;> exact parts
  | last _ _ _ _ _ _ _ _ done => cases done <;> exact parts
  | processed _ _ _ _ _ done => cases done <;> exact parts
  | _ => exact parts

/-- A process that ends by itself, and the thread with it. -/
structure Alive (m : Methods σ) (script : List (Fd × Char)) (shown : σ) (s : Monitoring σ) : Prop where
  valid : Invariant m script shown s
  written : s.exited = true → s.rest = []
  initial : ∀ fd, of fd s.given <+: lines (translate (of fd script))

theorem run_alive {actions : List Action} (alive : .kill ∉ actions)
    (ran : run (step m capacity) (start script shown) actions = some s) : Alive m script shown s := by
  have kept (s : Monitoring σ) (a : Action) (t : Monitoring σ) (other : a ≠ .kill)
      (before : Alive m script shown s) (taken : step m capacity s a = some t) : Alive m script shown t := by
    have valid := step_invariant before.valid taken
    have written := step_written other before.written taken
    refine ⟨valid,written,fun fd => ?_⟩
    cases regular : s.pc.regular with
    | true => exact valid.initial (step_parts before.valid regular taken) written fd
    | false =>
      rw [step_given regular taken]
      exact before.initial fd
  refine run_kept kept (fun a member => ?_) ran ⟨start_invariant script shown,by simp [start],by simp [start,of]⟩
  rintro rfl
  exact alive member

theorem Alive.all (alive : Alive m script shown s) (finished : s.pc = .done) (fd : Fd) :
    of fd s.given = lines (translate (of fd script)) := by
  have ended := alive.valid.waited (alive.valid.past (by simp [finished,Pc.past]))
  rw [alive.valid.outcome.all finished fd,alive.valid.parts (by simp [finished]),alive.written ended,List.append_nil]

/-- Without a kill the line at which the thread failed is one of the script. -/
theorem Alive.throws (alive : Alive m script shown s) {closed : Bool} (failed : s.pc = .failed closed) :
    ∃ fd, ∃ line ∈ lines (translate (of fd script)), ∃ before, m.process fd line before = none := by
  obtain ⟨front,fd,line,before,given,_,throws,_⟩ := alive.valid.failed closed failed
  refine ⟨fd,line,(alive.initial fd).subset ?_,before,throws⟩
  rw [given,of_append_same]
  exact List.mem_concat_self

/-! ## The end -/

/-- Nothing is left to do. -/
def Left (s : Monitoring σ) : Prop := s.waited = true ∧ (s.pc = .done ∨ ∃ closed, s.pc = .failed closed)

/-- The thread waits for the rest of a line of one stream, and the process for room in the pipe of the other. -/
structure Deadlocked (capacity : Nat) (s : Monitoring σ) (fd other : Fd) : Prop where
  reading : ∃ rest, s.pc = .reading fd rest
  writing : ∃ c rest, s.rest = (other,c) :: rest
  running : s.exited = false
  empty : s.pipe fd = []
  inside : '\n' ∉ (s.reader fd).decoded
  full : capacity ≤ (s.pipe other).length

/-- The thread failed with the pipes open, and the process waits for room in one of them. -/
structure Abandoned (capacity : Nat) (s : Monitoring σ) (fd : Fd) : Prop where
  failed : s.pc = .failed false
  writing : ∃ c rest, s.rest = (fd,c) :: rest
  running : s.exited = false
  full : capacity ≤ (s.pipe fd).length

def Stuck (capacity : Nat) (s : Monitoring σ) : Prop :=
  (∃ fd other, Deadlocked capacity s fd other) ∨ ∃ fd, Abandoned capacity s fd

/-- The process goes from one stream to the other only after a line feed, or all that it writes to the other fits
into a pipe. -/
def Flows (capacity : Nat) (script : List (Fd × Char)) : Prop :=
  ∀ fd other, fd ≠ other → (∀ front c d rest, script = front ++ (fd,c) :: (other,d) :: rest → c = '\n') ∨
    (of other script).length < capacity

/-- Whatever a line makes the thread throw can be logged, or all that the process writes fits into the pipes. -/
def Reports (m : Methods σ) (capacity : Nat) (script : List (Fd × Char)) : Prop :=
  (∀ fd line shown, m.process fd line shown = none → (m.logError fd line shown).isSome = true) ∨
    ∀ fd, (of fd script).length ≤ capacity

theorem getLast?_of {front rest : List (Fd × Char)} {other : Fd} {d : Char} (different : fd ≠ other)
    (separate : ∀ front' c d' rest',
      front ++ (other,d) :: rest = front' ++ (fd,c) :: (other,d') :: rest' → c = '\n') :
    ∀ c ∈ (of fd front).getLast?, c = '\n' := by
  induction front using List.reverseRecOn generalizing d rest with
  | nil => simp [of]
  | append_singleton front x ih =>
    obtain ⟨first,c⟩ := x
    rw [List.append_assoc] at separate
    by_cases same : first = fd
    · subst first
      rw [of_append_same,List.getLast?_concat]
      rintro _ ⟨⟩
      exact separate front c d rest rfl
    · rw [of_append_of_ne same]
      have there : first = other := by cases first <;> cases fd <;> cases other <;> simp_all
      subst first
      exact ih separate

theorem Invariant.not_deadlocked (valid : Invariant m script shown s) (positive : 0 < capacity)
    (flows : Flows capacity script) (fd other : Fd) : ¬ Deadlocked capacity s fd other := by
  intro stuck
  obtain ⟨rest,pc⟩ := stuck.reading
  obtain ⟨c,later,writing⟩ := stuck.writing
  have full := stuck.full
  have different : fd ≠ other := by
    rintro rfl
    rw [stuck.empty,List.length_nil] at full
    omega
  have parts := valid.parts (by simp [pc])
  have opened (fd : Fd) := (valid.opened stuck.running fd).1
  rcases flows fd other different with separate | short
  · rw [parts,writing] at separate
    obtain ⟨read,sent,reads,_⟩ := opened fd
    have whole : of fd s.sent = read := by simpa [stream,stuck.empty] using sent
    rcases (valid.fresh fd rest pc).2 fd List.mem_cons_self with ended | some | some
    · simp [stuck.running] at ended
    · exact some stuck.empty
    · exact stuck.inside (reads.mem_of_last (whole ▸ getLast?_of different separate) some)
  · obtain ⟨read,sent,_⟩ := opened other
    have number := congrArg List.length sent
    rw [parts,of_append,List.length_append] at short
    simp only [stream,List.length_append] at number
    omega

theorem Invariant.not_abandoned (valid : Invariant m script shown s) (reports : Reports m capacity script) (fd : Fd) :
    ¬ Abandoned capacity s fd := by
  intro stuck
  obtain ⟨c,later,writing⟩ := stuck.writing
  have full := stuck.full
  rcases reports with logs | short
  · obtain ⟨_,fd',line,before,_,_,throws,thrown⟩ := valid.failed false stuck.failed
    simpa [thrown] using logs fd' line before throws
  · have parts := valid.parts (by simp [stuck.failed])
    obtain ⟨read,sent,_⟩ := (valid.opened stuck.running fd).1
    have number := congrArg List.length sent
    have fits := short fd
    rw [parts,writing,of_append,List.length_append] at fits
    simp only [stream,List.length_append] at number
    simp only [of,List.filterMap_cons,if_true,List.length_cons] at fits number
    omega

/-- Only a kill helps a process that is stuck. -/
theorem Stuck.step (stuck : Stuck capacity s) (other : a ≠ .kill) : step m capacity s a = none := by
  rcases stuck with ⟨fd,fd',stuck⟩ | ⟨fd,stuck⟩
  · obtain ⟨rest,pc⟩ := stuck.reading
    obtain ⟨c,later,writing⟩ := stuck.writing
    have unread := Reader.line?_eq_none.mpr stuck.inside
    cases a <;> simp [Monitoring.step,pc,writing,stuck.running,stuck.empty,unread,Pc.closed,Pc.source,
      stuck.full] at other ⊢
  · obtain ⟨c,later,writing⟩ := stuck.writing
    cases a <;> simp [Monitoring.step,stuck.failed,writing,stuck.running,Pc.closed,Pc.source,stuck.full] at other ⊢

/-- Without rounds of the loop in which there is nothing to read. -/
def Calm (a : Action) : Prop := a ≠ .timeout ∧ a ≠ .pollBusy

def load (s : Monitoring σ) (fd : Fd) : Nat := 2 * (s.pipe fd).length + (s.reader fd).load

def rank (exited : Bool) : Pc → Nat
  | .polling => if exited then 21 else 25
  | .selecting => 24
  | .reading _ rest => 22 + rest.length
  | .draining .stdout => 5
  | .draining .stderr => 3
  | .processing .stdout lines => 4 + lines.length
  | .processing .stderr lines => 2 + lines.length
  | .done | .failed _ => 0

/-- A bound on the calm actions. -/
def measure (s : Monitoring σ) : Nat :=
  10 * (3 * s.rest.length + s.load .stdout + s.load .stderr) + rank s.exited s.pc +
    (if s.exited then 0 else 1) + (if s.waited then 0 else 1)

theorem load_setReader (s : Monitoring σ) (fd : Fd) (r : Reader) :
    (s.setReader fd r).load .stdout + (s.setReader fd r).load .stderr + (s.reader fd).load =
      s.load .stdout + s.load .stderr + r.load := by
  cases fd <;> simp [load,setReader] <;> omega

theorem rank_next_le (exited : Bool) (rest : List Fd) :
    rank exited (Pc.next rest) < 22 + rest.length + (if exited then 0 else 10) := by
  cases rest <;> cases exited <;> simp only [Pc.next,rank,List.length_nil,List.length_cons] <;> simp
  omega

theorem measure_setReader (s : Monitoring σ) (fd : Fd) (r : Reader) (pc : Pc) :
    measure ((s.setReader fd r).setPc pc) + 10 * (s.reader fd).load + rank s.exited s.pc =
      measure s + 10 * r.load + rank s.exited pc := by
  have sum := load_setReader s fd r
  have same : measure ((s.setReader fd r).setPc pc) = 10 * (3 * s.rest.length +
      (s.setReader fd r).load .stdout + (s.setReader fd r).load .stderr) + rank s.exited pc +
        (if s.exited then 0 else 1) + (if s.waited then 0 else 1) := rfl
  rw [same,measure]
  omega

theorem measure_setPc (s : Monitoring σ) (pc : Pc) :
    measure (s.setPc pc) + rank s.exited s.pc = measure s + rank s.exited pc := by
  have same : measure (s.setPc pc) = 10 * (3 * s.rest.length + s.load .stdout + s.load .stderr) +
      rank s.exited pc + (if s.exited then 0 else 1) + (if s.waited then 0 else 1) := rfl
  rw [same,measure]
  omega

theorem Handled.measure_le {u : Monitoring σ} (done : Handled m u fd line pc t) :
    measure t ≤ measure (u.setPc pc) := by
  cases done with
  | shown => exact Nat.le_refl _
  | failed closed =>
    have here := measure_setPc u (.failed closed)
    have there := measure_setPc u pc
    have least : rank u.exited (.failed closed) = 0 := rfl
    calc measure (u.setPc (.failed closed)) ≤ measure (u.setPc pc) := by omega

theorem step_measure (valid : Invariant m script shown s) (calm : Calm a)
    (taken : step m capacity s a = some t) : measure t < measure s := by
  cases step_stepped taken with
  | lost fd c rest running next closed =>
    simp only [measure,next,List.length_cons,load]
    omega
  | wrote fd c rest running next going room =>
    cases fd <;> simp [measure,next,load] <;> omega
  | exited a which running =>
    have less : rank true s.pc ≤ rank false s.pc := by
      unfold rank
      split <;> simp
    simp only [measure,running,load]
    simp
    omega
  | waited ended unnoticed => simp [measure,unnoticed,load]
  | drain pc waited =>
    have ended := valid.waited waited
    simp [measure,pc,rank,ended,load]
  | polled a which pc unnoticed =>
    have running : s.exited = false := by
      rcases which with ⟨_,running⟩ | ⟨busy,_⟩
      · exact running
      · exact absurd busy calm.2
    simp [measure,pc,rank,running,load]
  | selected fd rest pc found =>
    have size : s.rlist.length ≤ 2 := List.length_filter_le _ _
    rw [found,List.length_cons] at size
    simp only [measure,pc,rank,load]
    omega
  | timedOut => exact absurd rfl calm.1
  | fed n fd source nonempty unread =>
    have positive := List.length_pos_of_ne_nil nonempty
    have more := (s.reader fd).load_feed_le ((s.pipe fd).take (n + 1))
    rw [List.length_take] at more
    cases fd <;> simp only [measure,load,Function.update_self,List.length_drop] <;> simp <;> omega
  | line fd rest line reader t pc found done =>
    refine Nat.lt_of_le_of_lt done.measure_le ?_
    have taken := Reader.load_lt_of_line? found
    have change := measure_setReader s fd reader (.next rest)
    have next := rank_next_le s.exited rest
    have here : rank s.exited s.pc = 22 + rest.length := by rw [pc,rank]
    have bound : (if s.exited = true then 0 else 10) ≤ 10 := by split <;> omega
    omega
  | ended fd rest pc ended empty none =>
    have change := measure_setReader s fd .new (.next rest)
    have next := rank_next_le s.exited rest
    have here : rank s.exited s.pc = 22 + rest.length := by rw [pc,rank]
    have new : Reader.new.load = 0 := rfl
    rw [if_pos ended] at next
    omega
  | last fd rest t pc ended empty unread some done =>
    refine Nat.lt_of_le_of_lt done.measure_le ?_
    have change := measure_setReader s fd .new (.next rest)
    have next := rank_next_le s.exited rest
    have here : rank s.exited s.pc = 22 + rest.length := by rw [pc,rank]
    have new : Reader.new.load = 0 := rfl
    rw [if_pos ended] at next
    omega
  | drained fd pc ended empty =>
    have change := measure_setReader s fd .new (.processing fd (lines (s.reader fd).final))
    have number := Nat.le_trans (length_lines_le _) (s.reader fd).length_final_le
    have new : Reader.new.load = 0 := rfl
    cases fd <;> simp only [pc,rank] at change <;> omega
  | processed fd line rest t pc done =>
    refine Nat.lt_of_le_of_lt done.measure_le ?_
    have change := measure_setPc s (.processing fd rest)
    cases fd <;> simp only [pc,rank,List.length_cons] at change <;> omega
  | next pc => simp [measure,pc,rank,load]
  | finished pc => simp [measure,pc,rank,load]

/-- Before its end the process can go on unless the pipe that it writes to is full. -/
theorem exists_child (running : s.exited = false) (room : ∀ fd c rest, s.rest = (fd,c) :: rest →
    s.pc.closed = true ∨ (s.pipe fd).length < capacity) :
    ∃ a, (Calm a ∧ a ≠ .kill) ∧ (step m capacity s a).isSome = true := by
  cases next : s.rest with
  | nil => exact ⟨.exit,by simp [Calm],by simp [step,running,next]⟩
  | cons x rest =>
    obtain ⟨fd,c⟩ := x
    refine ⟨.write,by simp [Calm],?_⟩
    simp only [step,running,next]
    split
    case isTrue => rfl
    case isFalse opened =>
      rcases room fd c rest next with closed | free
      · exact absurd closed opened
      · rw [if_pos free]
        rfl

theorem exists_calm (positive : 0 < capacity) (valid : Invariant m script shown s)
    (unfinished : ¬ (Left s ∨ Stuck capacity s)) :
    ∃ a, (Calm a ∧ a ≠ .kill) ∧ (step m capacity s a).isSome = true := by
  rw [not_or] at unfinished
  cases pc : s.pc with
  | polling =>
    cases waited : s.waited with
    | true => exact ⟨.poll,by simp [Calm],by simp [step,pc,waited]⟩
    | false =>
      cases ended : s.exited with
      | true => exact ⟨.wait,by simp [Calm],by simp [step,waited,ended]⟩
      | false => exact ⟨.poll,by simp [Calm],by simp [step,pc,waited,ended]⟩
  | selecting =>
    cases found : s.rlist with
    | cons fd rest => exact ⟨.select,by simp [Calm],by simp [step,pc,found]⟩
    | nil =>
      have none (fd : Fd) : s.ready fd = false := by
        have all := List.filter_eq_nil_iff.mp found fd (by cases fd <;> simp)
        simpa using all
      have running : s.exited = false := by
        have stdout := none .stdout
        simp only [ready,Bool.or_eq_false_iff] at stdout
        exact stdout.1
      refine exists_child running fun fd _ _ _ => .inr ?_
      have empty : s.pipe fd = [] := by simpa [ready,running] using none fd
      rwa [empty]
  | reading fd rest =>
    cases found : (s.reader fd).line? with
    | some p => exact ⟨.line,by simp [Calm],by simp [step,pc,found]⟩
    | none =>
      by_cases empty : s.pipe fd = []
      · cases ended : s.exited with
        | true =>
          refine ⟨.eof,by simp [Calm],?_⟩
          simp only [step,pc,ended,empty,found,and_self,if_true]
          split <;> rfl
        | false =>
          refine exists_child ended fun other c more next => .inr ?_
          by_contra full
          have inside := Reader.line?_eq_none.mp found
          exact unfinished.2 (.inl ⟨fd,other,⟨rest,pc⟩,⟨c,more,next⟩,ended,empty,inside,by omega⟩)
      · exact ⟨.chunk 0,by simp [Calm],by simp [step,pc,Pc.source,empty,found]⟩
  | draining fd =>
    have ended := valid.waited (valid.past (by simp [pc,Pc.past]))
    by_cases empty : s.pipe fd = []
    · exact ⟨.eof,by simp [Calm],by simp [step,pc,ended,empty]⟩
    · exact ⟨.chunk 0,by simp [Calm],by simp [step,pc,Pc.source,empty]⟩
  | processing fd lines =>
    refine ⟨.process,by simp [Calm],?_⟩
    cases lines with
    | cons line rest => simp [step,pc]
    | nil => cases fd <;> simp [step,pc]
  | done => exact (unfinished.1 ⟨valid.past (by simp [pc,Pc.past]),.inl pc⟩).elim
  | failed closed =>
    have alone : s.waited = false := by
      by_contra waited
      exact unfinished.1 ⟨by simpa using waited,.inr ⟨closed,pc⟩⟩
    cases ended : s.exited with
    | true => exact ⟨.wait,by simp [Calm],by simp [step,alone,ended]⟩
    | false =>
      refine exists_child ended fun fd c rest next => ?_
      cases closed with
      | true => exact .inl (by rw [pc]; rfl)
      | false =>
        refine .inr ?_
        by_contra full
        exact unfinished.2 (.inr ⟨fd,pc,⟨c,rest,next⟩,ended,by omega⟩)

/-- After both have ended nothing is done. -/
theorem Left.step (valid : Invariant m script shown s) (left : Left s) : step m capacity s a = none := by
  obtain ⟨waited,pc⟩ := left
  have ended := valid.waited waited
  rcases pc with pc | ⟨closed,pc⟩ <;> cases a <;> simp [Monitoring.step,pc,waited,ended,Pc.source]

theorem reachable_measure (s : Monitoring σ) (a : Action) (t : Monitoring σ)
    (reached : Reachable (step m capacity) (start script shown) s) (calm : Calm a)
    (taken : step m capacity s a = some t) : measure t < measure s :=
  step_measure (reachable_invariant reached) calm taken

theorem exists_end (positive : 0 < capacity) (reached : Reachable (step m capacity) (start script shown) s) :
    ∃ more t, (∀ a ∈ more, Calm a ∧ a ≠ .kill) ∧ run (step m capacity) s more = some t ∧
      (Left t ∨ Stuck capacity t) :=
  exists_final _ (fun s a t reached allowed taken => reachable_measure s a t reached allowed.1 taken)
    (fun _ reached unfinished => exists_calm positive (reachable_invariant reached) unfinished) reached

/-- Whatever a process writes and in which chunks it is read: each of its lines is processed once, in order. The
thread and the process come to their end, unless the process waits for room in a pipe that the thread does not read:
because it waits for the rest of a line in the other one, which does not happen with a process that writes whole
lines, or because it failed twice at a line. -/
theorem every_line_once (m : Methods σ) (script : List (Fd × Char)) (shown : σ) (positive : 0 < capacity)
    (actions : List Action) (s : Monitoring σ)
    (ran : run (step m capacity) (start script shown) actions = some s) :
    Outcome m script shown s ∧
    (.kill ∉ actions → (s.pc = .done → ∀ fd, of fd s.given = lines (translate (of fd script))) ∧
      ∀ fd, of fd s.given <+: lines (translate (of fd script))) ∧
    (Flows capacity script → ∀ fd other, ¬ Deadlocked capacity s fd other) ∧
    (Reports m capacity script → ∀ fd, ¬ Abandoned capacity s fd) ∧
    (∃ more t, (∀ a ∈ more, Calm a ∧ a ≠ .kill) ∧ run (step m capacity) s more = some t ∧
      (Left t ∨ Stuck capacity t)) ∧
    ∀ more t, (∀ a ∈ more, Calm a) → run (step m capacity) s more = some t → more.length ≤ measure s ∧
      ((∀ a, Calm a → a ≠ .kill → step m capacity t a = none) ↔ Left t ∨ Stuck capacity t) := by
  have reached := reachable_of_run ran
  have valid := reachable_invariant reached
  refine ⟨valid.outcome,fun alive => ?_,valid.not_deadlocked positive,valid.not_abandoned,
    exists_end positive reached,fun more t calm later => ⟨?_,fun rest => ?_,fun ended a _ other => ?_⟩⟩
  · have alive := run_alive alive ran
    exact ⟨alive.all,alive.initial⟩
  · have bound := run_measure reachable_measure reached calm later
    omega
  · by_contra unfinished
    obtain ⟨a,⟨quiet,other⟩,enabled⟩ :=
      exists_calm positive (reachable_invariant (reached.trans (reachable_of_run later))) unfinished
    simp [rest a quiet other] at enabled
  · rcases ended with left | stuck
    · exact left.step (reachable_invariant (reached.trans (reachable_of_run later)))
    · exact stuck.step other

/-- A carriage return that is read before it is known what follows it, and lines without an end. -/
theorem every_line_once_witness :
    let m : Methods (List (List Char)) :=
      ⟨fun _ line shown => some (shown ++ [line]),fun _ line shown => some (shown ++ [line])⟩
    let script : List (Fd × Char) := [(.stdout,'a'),(.stdout,'\r'),(.stderr,'e'),(.stdout,'b')]
    let actions : List Action := [.write,.write,.poll,.select,.chunk 0,.chunk 0,.write,.write,.chunk 5,.line,.exit,
      .pollBusy,.select,.eof,.chunk 0,.eof,.wait,.poll,.eof,.process,.eof,.process]
    ∃ s : Monitoring (List (List Char)), run (step m 4) (start script []) actions = some s ∧
      of .stdout s.given = [['a','\n'],['b']] := by
  intro m script actions
  obtain ⟨s,ran,finished⟩ : ∃ s : Monitoring (List (List Char)),
      run (step m 4) (start script []) actions = some s ∧ s.pc = .done := ⟨_,rfl,rfl⟩
  obtain ⟨_,whole,_⟩ := every_line_once m script [] (by decide) actions s ran
  exact ⟨s,ran,(whole (by simp [actions])).1 finished .stdout⟩

end Monitoring

end OcrSuite
