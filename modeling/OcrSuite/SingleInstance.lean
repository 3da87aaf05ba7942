import Mathlib.Logic.Function.Basic
import OcrSuite.Transition

/-! The lock file that is to keep the watcher to one process: a process looks whether the file
names a live one before it writes its own number into it, and removes the file when it leaves. -/
namespace OcrSuite.SingleInstance

open Transition

/-! ## The text in the file -/

def strip (text : List Char) : List Char :=
  ((text.dropWhile Char.isWhitespace).reverse.dropWhile Char.isWhitespace).reverse

/-- Digits with single underscores between them. -/
def isNumeral : List Char → Bool
  | [] => false
  | [c] => c.isDigit
  | c :: '_' :: rest => c.isDigit && isNumeral rest
  | c :: rest => c.isDigit && isNumeral rest

def natural (text : List Char) : Option Nat :=
  if isNumeral text then some (Nat.ofDigitChars 10 (text.filter (· ≠ '_')) 0) else none

/-- The language's conversion of a text to an integer, but for digits outside ASCII and blanks other than spaces,
tabs and line ends, which it knows as well. -/
def int (text : List Char) : Option Int :=
  match strip text with
  | '-' :: rest => (natural rest).map fun n => -(n : Int)
  | '+' :: rest => (natural rest).map fun n => (n : Int)
  | stripped => (natural stripped).map fun n => (n : Int)

def str (pid : Nat) : List Char := Nat.toDigits 10 pid

/-- Writing at the start of a file leaves what is longer. -/
def overwrite (text old : List Char) : List Char := text ++ old.drop text.length

@[simp] theorem int_nil : int [] = none := rfl

theorem ne_of_isDigit {c x : Char} (digit : c.isDigit = true) (other : x.isDigit = false) : c ≠ x := by
  rintro rfl
  simp [digit] at other

theorem filter_underscores {text : List Char} (digits : ∀ c ∈ text, c.isDigit = true) :
    text.filter (· ≠ '_') = text := by
  refine List.filter_eq_self.mpr fun c member => ?_
  have other : c ≠ '_' := ne_of_isDigit (digits c member) rfl
  simpa using other

theorem isNumeral_of_digits {text : List Char} (nonempty : text ≠ [])
    (digits : ∀ c ∈ text, c.isDigit = true) : isNumeral text = true := by
  induction text with
  | nil => exact absurd rfl nonempty
  | cons c rest ih =>
    cases rest with
    | nil => exact digits c (by simp)
    | cons d rest =>
      have plain : d ≠ '_' := ne_of_isDigit (digits d (by simp)) rfl
      have later := ih (by simp) fun e member => digits e (List.mem_cons_of_mem c member)
      rw [isNumeral,digits c (by simp),later]
      · rfl
      · simp
      · exact fun _ same => absurd (List.cons.inj same).1 plain

theorem not_isWhitespace_of_isDigit {c : Char} (digit : c.isDigit = true) : ¬ c.isWhitespace = true := by
  intro blank
  simp only [Char.isWhitespace,Bool.or_eq_true,decide_eq_true_eq] at blank
  rcases blank with ((rfl | rfl) | rfl) | rfl <;> exact absurd digit (by decide)

theorem dropWhile_of_solid {text : List Char} (solid : ∀ c ∈ text, ¬ c.isWhitespace = true) :
    text.dropWhile Char.isWhitespace = text := by
  cases text with
  | nil => rfl
  | cons c rest => exact List.dropWhile_cons_of_neg (solid c List.mem_cons_self)

theorem strip_of_solid {text : List Char} (solid : ∀ c ∈ text, ¬ c.isWhitespace = true) :
    strip text = text := by
  rw [strip,dropWhile_of_solid solid,dropWhile_of_solid fun c member => ?_,List.reverse_reverse]
  exact solid c (List.mem_reverse.mp member)

theorem int_str (pid : Nat) : int (str pid) = some (pid : Int) := by
  have digits : ∀ c ∈ str pid, c.isDigit = true := fun c member =>
    Nat.isDigit_of_mem_toDigits (by decide) (by decide) member
  have value : natural (str pid) = some pid := by
    have numeral : isNumeral (str pid) = true := isNumeral_of_digits Nat.toDigits_ne_nil digits
    rw [natural,if_pos numeral,filter_underscores digits,str,Nat.ofDigitChars_ten_toDigits]
  rw [int,strip_of_solid fun c member => not_isWhitespace_of_isDigit (digits c member)]
  split
  · rename_i rest same
    exact absurd (digits '-' (by simp [same])) (by decide)
  · rename_i rest same
    exact absurd (digits '+' (by simp [same])) (by decide)
  · simp [value]

/-! ## The processes -/

/-- `_cleanup` is called when the file has no number in it, by `__exit__`, and once the process
ends for each time it has entered. -/
inductive Caller where
  | isRunning
  | exit
  | atexit
  deriving DecidableEq

inductive Stage where
  | looking
  | reading
  | unlinking
  deriving DecidableEq

/-- Where a process is. `opening` is one that `is_running` has let through. -/
inductive Pc where
  | unborn
  | outside
  | checking
  | reading
  | probing (pid : Int)
  | cleaning (caller : Caller) (stage : Stage)
  | opening
  | writing (inode : Nat)
  | inside
  | dead
  deriving DecidableEq

def Pc.live : Pc → Bool
  | .unborn | .dead => false
  | _ => true

/-- The lock file is a file with that number, if there is one. `missed p q` is set when `q` writes
its number after `p` looked for the file, or into it, for the last time in `is_running`. -/
structure State where
  pc : Nat → Pc
  path : Option Nat
  content : Nat → List Char
  nextInode : Nat
  registered : Nat → Nat
  missed : Nat → Nat → Bool

inductive Operation where
  | spawn
  | enter
  | pathExists
  | read
  | pidExists
  | openTruncate
  | write
  | leave
  | unlink
  | finish
  | die
  deriving DecidableEq

structure Action where
  process : Nat
  operation : Operation

/-- A lock file from before is that of a dead process, as no number is given out again. -/
def start (file : Option (List Char)) : State where
  pc p := if file.bind int = some (p : Int) then .dead else .unborn
  path := file.map fun _ => 0
  content _ := file.getD []
  nextInode := 1
  registered _ := 0
  missed _ _ := false

namespace State

def goto (s : State) (p : Nat) (pc : Pc) : State := { s with pc := Function.update s.pc p pc }

def look (s : State) (p : Nat) : State :=
  { s with missed := Function.update s.missed p fun _ => false }

/-- The number in the lock file, if it can be read. -/
def lockPid (s : State) : Option Int := s.path.bind fun inode => int (s.content inode)

/-- `psutil.pid_exists`. -/
def pidExists (s : State) (pid : Int) : Bool := 0 ≤ pid ∧ (s.pc pid.toNat).live

/-- The end of `_cleanup`. -/
def cleaned (s : State) (p : Nat) : Caller → State
  | .isRunning => s.goto p .opening
  | .exit => s.goto p .outside
  | .atexit => { s.goto p (if s.registered p ≤ 1 then .dead else .cleaning .atexit .looking) with
      registered := Function.update s.registered p (s.registered p - 1) }

end State

def step (s : State) (a : Action) : Option State :=
  let p := a.process
  match a.operation,s.pc p with
  | .spawn,.unborn => some (s.goto p .outside)
  | .enter,.outside => some (s.goto p .checking)
  | .pathExists,.checking =>
    some ((s.look p).goto p (if s.path.isSome then .reading else .opening))
  | .read,.reading =>
    match s.lockPid with
    | some pid => some ((s.look p).goto p (.probing pid))
    | none => some ((s.look p).goto p (.cleaning .isRunning .looking))
  | .pidExists,.probing pid => some (s.goto p (if s.pidExists pid then .outside else .opening))
  | .openTruncate,.opening =>
    let inode := s.path.getD s.nextInode
    some { s.goto p (.writing inode) with
      path := some inode
      content := Function.update s.content inode []
      nextInode := if s.path.isSome then s.nextInode else s.nextInode + 1 }
  | .write,.writing inode =>
    some { s.goto p .inside with
      content := Function.update s.content inode (overwrite (str p) (s.content inode))
      registered := Function.update s.registered p (s.registered p + 1)
      missed := fun r q => s.missed r q || q = p }
  | .leave,.inside => some (s.goto p (.cleaning .exit .looking))
  | .pathExists,.cleaning caller .looking =>
    if s.path.isSome then some (s.goto p (.cleaning caller .reading)) else some (s.cleaned p caller)
  | .read,.cleaning caller .reading =>
    if s.lockPid = some (p : Int) then some (s.goto p (.cleaning caller .unlinking))
    else some (s.cleaned p caller)
  | .unlink,.cleaning caller .unlinking => some ({ s with path := none }.cleaned p caller)
  | .finish,.outside =>
    some (s.goto p (if s.registered p = 0 then .dead else .cleaning .atexit .looking))
  | .die,pc => if pc.live then some (s.goto p .dead) else none
  | _,_ => none

def MutualExclusion (s : State) : Prop := ∀ p q, s.pc p = .inside → s.pc q = .inside → p = q

/-- The step in which `is_running` lets the process through. -/
def Passes (s : State) (a : Action) : Prop :=
  match a.operation,s.pc a.process with
  | .pathExists,.checking => s.path = none
  | .pidExists,.probing pid => s.pidExists pid = false
  | .pathExists,.cleaning .isRunning .looking => s.path = none
  | .read,.cleaning .isRunning .reading => s.lockPid ≠ some (a.process : Int)
  | .unlink,.cleaning .isRunning .unlinking => True
  | _,_ => False

/-- The process has its number in the file. -/
def Pc.Written : Pc → Prop
  | .inside | .cleaning .exit _ => True
  | _ => False

/-- The process has been let through and has not left. -/
def Pc.Busy : Pc → Prop
  | .opening | .writing _ | .inside | .cleaning .exit _ => True
  | _ => False

/-- No process is let through while another one is between being let through and having written its
number, or is in the block, or on its way out of it, and has written its number since the first one
looked. -/
def Alone (s : State) (a : Action) : Prop :=
  Passes s a → ∀ q, q ≠ a.process → (s.pc q).Busy →
    (s.pc q).Written ∧ (s.pc a.process = .checking ∨ s.missed a.process q = false)

/-! ## The steps -/

inductive Stepped (s : State) (p : Nat) : Operation → State → Prop where
  | spawned : s.pc p = .unborn → Stepped s p .spawn (s.goto p .outside)
  | entered : s.pc p = .outside → Stepped s p .enter (s.goto p .checking)
  | found : s.pc p = .checking → s.path ≠ none → Stepped s p .pathExists ((s.look p).goto p .reading)
  | absent : s.pc p = .checking → s.path = none →
      Stepped s p .pathExists ((s.look p).goto p .opening)
  | parsed (pid : Int) : s.pc p = .reading → s.lockPid = some pid →
      Stepped s p .read ((s.look p).goto p (.probing pid))
  | unparsed : s.pc p = .reading → s.lockPid = none →
      Stepped s p .read ((s.look p).goto p (.cleaning .isRunning .looking))
  | refused (pid : Int) : s.pc p = .probing pid → s.pidExists pid = true →
      Stepped s p .pidExists (s.goto p .outside)
  | stale (pid : Int) : s.pc p = .probing pid → s.pidExists pid = false →
      Stepped s p .pidExists (s.goto p .opening)
  | opened (inode next : Nat) : s.pc p = .opening → Stepped s p .openTruncate
      { s.goto p (.writing inode) with
        path := some inode, content := Function.update s.content inode [], nextInode := next }
  | wrote (inode : Nat) : s.pc p = .writing inode → Stepped s p .write { s.goto p .inside with
      content := Function.update s.content inode (overwrite (str p) (s.content inode))
      registered := Function.update s.registered p (s.registered p + 1)
      missed := fun r q => s.missed r q || q = p }
  | left : s.pc p = .inside → Stepped s p .leave (s.goto p (.cleaning .exit .looking))
  | seen (caller : Caller) : s.pc p = .cleaning caller .looking → s.path ≠ none →
      Stepped s p .pathExists (s.goto p (.cleaning caller .reading))
  | own (caller : Caller) : s.pc p = .cleaning caller .reading → s.lockPid = some (p : Int) →
      Stepped s p .read (s.goto p (.cleaning caller .unlinking))
  | gone (caller : Caller) : s.pc p = .cleaning caller .looking → s.path = none →
      Stepped s p .pathExists (s.cleaned p caller)
  | foreign (caller : Caller) : s.pc p = .cleaning caller .reading → s.lockPid ≠ some (p : Int) →
      Stepped s p .read (s.cleaned p caller)
  | unlinked (caller : Caller) : s.pc p = .cleaning caller .unlinking →
      Stepped s p .unlink ({ s with path := none }.cleaned p caller)
  | finished (pc : Pc) : s.pc p = .outside → pc = .dead ∨ pc = .cleaning .atexit .looking →
      Stepped s p .finish (s.goto p pc)
  | died : (s.pc p).live = true → Stepped s p .die (s.goto p .dead)

theorem step_stepped {s t : State} {a : Action} (taken : step s a = some t) :
    Stepped s a.process a.operation t := by
  obtain ⟨p,operation⟩ := a
  cases operation with
  | spawn =>
    cases pc : s.pc p with
    | unborn =>
      simp only [step,pc,Option.some.injEq] at taken
      subst t
      exact .spawned pc
    | _ => simp [step,pc] at taken
  | enter =>
    cases pc : s.pc p with
    | outside =>
      simp only [step,pc,Option.some.injEq] at taken
      subst t
      exact .entered pc
    | _ => simp [step,pc] at taken
  | pathExists =>
    cases pc : s.pc p with
    | checking =>
      simp only [step,pc,Option.some.injEq] at taken
      subst t
      cases path : s.path with
      | none => exact .absent pc path
      | some inode => exact .found pc (by simp [path])
    | cleaning caller stage =>
      cases stage with
      | looking =>
        cases path : s.path with
        | none =>
          simp only [step,pc,path,Option.isSome_none,Bool.false_eq_true,if_false,Option.some.injEq] at taken
          subst t
          exact .gone caller pc path
        | some inode =>
          simp only [step,pc,path,Option.isSome_some,if_true,Option.some.injEq] at taken
          subst t
          exact .seen caller pc (by simp [path])
      | _ => simp [step,pc] at taken
    | _ => simp [step,pc] at taken
  | read =>
    cases pc : s.pc p with
    | reading =>
      cases number : s.lockPid with
      | none =>
        simp only [step,pc,number,Option.some.injEq] at taken
        subst t
        exact .unparsed pc number
      | some pid =>
        simp only [step,pc,number,Option.some.injEq] at taken
        subst t
        exact .parsed pid pc number
    | cleaning caller stage =>
      cases stage with
      | reading =>
        by_cases own : s.lockPid = some (p : Int)
        · simp only [step,pc,own,if_true,Option.some.injEq] at taken
          subst t
          exact .own caller pc own
        · simp only [step,pc,own,if_false,Option.some.injEq] at taken
          subst t
          exact .foreign caller pc own
      | _ => simp [step,pc] at taken
    | _ => simp [step,pc] at taken
  | pidExists =>
    cases pc : s.pc p with
    | probing pid =>
      cases live : s.pidExists pid with
      | true =>
        simp only [step,pc,live,if_true,Option.some.injEq] at taken
        subst t
        exact .refused pid pc live
      | false =>
        simp only [step,pc,live,Bool.false_eq_true,if_false,Option.some.injEq] at taken
        subst t
        exact .stale pid pc live
    | _ => simp [step,pc] at taken
  | openTruncate =>
    cases pc : s.pc p with
    | opening =>
      simp only [step,pc,Option.some.injEq] at taken
      subst t
      exact .opened _ _ pc
    | _ => simp [step,pc] at taken
  | write =>
    cases pc : s.pc p with
    | writing inode =>
      simp only [step,pc,Option.some.injEq] at taken
      subst t
      exact .wrote inode pc
    | _ => simp [step,pc] at taken
  | leave =>
    cases pc : s.pc p with
    | inside =>
      simp only [step,pc,Option.some.injEq] at taken
      subst t
      exact .left pc
    | _ => simp [step,pc] at taken
  | unlink =>
    cases pc : s.pc p with
    | cleaning caller stage =>
      cases stage with
      | unlinking =>
        simp only [step,pc,Option.some.injEq] at taken
        subst t
        exact .unlinked caller pc
      | _ => simp [step,pc] at taken
    | _ => simp [step,pc] at taken
  | finish =>
    cases pc : s.pc p with
    | outside =>
      simp only [step,pc,Option.some.injEq] at taken
      subst t
      refine .finished _ pc ?_
      split <;> simp
    | _ => simp [step,pc] at taken
  | die =>
    simp only [step,Option.ite_none_right_eq_some,Option.some.injEq] at taken
    obtain ⟨live,rfl⟩ := taken
    exact .died live

namespace State

variable (s : State) (p : Nat) (pc : Pc)

@[simp] theorem goto_same : (s.goto p pc).pc p = pc := by simp [goto]

@[simp] theorem goto_path : (s.goto p pc).path = s.path := rfl

theorem goto_other {q : Nat} (other : q ≠ p) : (s.goto p pc).pc q = s.pc q := by simp [goto,other]

end State

theorem Pc.Written.busy {pc : Pc} (written : pc.Written) : pc.Busy := by
  cases pc with
  | inside => trivial
  | cleaning caller stage =>
    cases caller with
    | exit => trivial
    | _ => exact written.elim
  | _ => exact written.elim

theorem Pc.Busy.live {pc : Pc} (busy : pc.Busy) : pc.live = true := by
  cases pc with
  | unborn | dead => exact busy.elim
  | _ => rfl

/-! ## One process at a time -/

/-- What is known of a process by where it is. -/
def Fits (s : State) (p : Nat) : Pc → Prop
  | .probing pid => ∀ q : Nat, (s.pc q).Written → s.missed p q = false → pid = q
  | .cleaning .isRunning stage => stage ≠ .unlinking ∧ ∀ q, (s.pc q).Written → s.missed p q = true
  | .cleaning .atexit stage => stage ≠ .unlinking
  | .writing inode => s.path = some inode ∧ s.content inode = []
  | .inside | .cleaning .exit _ => s.lockPid = some (p : Int)
  | _ => True

/-- Only the process that has written the last number, or nobody any more, answers to it. -/
structure Invariant (s : State) : Prop where
  one : ∀ p q, (s.pc p).Busy → (s.pc q).Busy → p = q
  fits : ∀ p, Fits s p (s.pc p)
  owner : ∀ p : Nat, s.lockPid = some (p : Int) → s.pc p = .dead ∨ (s.pc p).Written

theorem Fits.of_written {s : State} {p : Nat} {pc : Pc} (fits : Fits s p pc) (written : pc.Written) :
    s.lockPid = some (p : Int) := by
  cases pc with
  | inside => exact fits
  | cleaning caller stage =>
    cases caller with
    | exit => exact fits
    | _ => exact written.elim
  | _ => exact written.elim

/-- What is known of a process that does not own the file is kept when no other one gets to have
its number in it unnoticed. -/
theorem Fits.of_idle {s t : State} {p : Nat} {pc : Pc} (fits : Fits s p pc) (idle : ¬ pc.Busy)
    (missed : ∀ q, s.missed p q = true → t.missed p q = true)
    (written : ∀ q, (t.pc q).Written → (s.pc q).Written ∨ t.missed p q = true) : Fits t p pc := by
  cases pc with
  | probing pid =>
    intro q now unmissed
    have before : s.missed p q = false := by
      by_contra was
      simp [missed q (by simpa using was)] at unmissed
    refine fits q ((written q now).resolve_right ?_) before
    simp [unmissed]
  | cleaning caller stage =>
    cases caller with
    | isRunning => exact ⟨fits.1,fun q now => (written q now).elim (missed q ∘ fits.2 q) id⟩
    | exit => exact absurd trivial idle
    | atexit => exact fits
  | writing inode => exact absurd trivial idle
  | inside => exact absurd trivial idle
  | _ => trivial

theorem written_goto {s : State} {p q : Nat} {pc : Pc} (idle : ¬ pc.Written)
    (written : ((s.goto p pc).pc q).Written) : (s.pc q).Written := by
  by_cases same : q = p
  · subst q
    exact absurd (s.goto_same p pc ▸ written) idle
  · rwa [s.goto_other p pc same] at written

theorem lockPid_congr {s t : State} (path : t.path = s.path) (content : t.content = s.content) :
    t.lockPid = s.lockPid := by
  simp [State.lockPid,path,content]

theorem Fits.congr {s t : State} {p : Nat} {pc : Pc} (fits : Fits s p pc) (path : t.path = s.path)
    (content : t.content = s.content) (missed : t.missed p = s.missed p)
    (written : ∀ q, (t.pc q).Written → (s.pc q).Written) : Fits t p pc := by
  have number := lockPid_congr path content
  by_cases busy : pc.Busy
  · cases pc with
    | opening => trivial
    | writing inode => exact ⟨path.trans fits.1,(congrFun content inode).trans fits.2⟩
    | inside => exact number.trans fits
    | cleaning caller stage =>
      cases caller with
      | exit => exact number.trans fits
      | _ => exact busy.elim
    | _ => exact busy.elim
  · exact fits.of_idle busy (by simp [missed]) fun q now => .inl (written q now)

namespace Invariant

variable {s t : State} {p : Nat} {pc : Pc}

/-- A step that leaves the file as it is. -/
theorem move (valid : Invariant s) (moved : t.pc = Function.update s.pc p pc) (path : t.path = s.path)
    (content : t.content = s.content) (missed : ∀ q, q ≠ p → t.missed q = s.missed q)
    (alive : s.pc p ≠ .dead) (busy : pc.Busy → (s.pc p).Busy ∨ ∀ q, q ≠ p → ¬ (s.pc q).Busy)
    (written : pc.Written → (s.pc p).Written) (left : (s.pc p).Written → pc = .dead ∨ pc.Written)
    (fits : Fits t p pc) : Invariant t := by
  have here : t.pc p = pc := by simp [moved]
  have other : ∀ q, q ≠ p → t.pc q = s.pc q := fun q apart => by simp [moved,apart]
  have only : ∀ q, q ≠ p → pc.Busy → ¬ (s.pc q).Busy := by
    intro q apart now before
    rcases busy now with was | none
    · exact apart (valid.one q p before was)
    · exact none q apart before
  refine ⟨?_,?_,?_⟩
  · intro q r first second
    by_cases sameQ : q = p <;> by_cases sameR : r = p
    · rw [sameQ,sameR]
    · subst q
      exact absurd (other r sameR ▸ second) (only r sameR (here ▸ first))
    · subst r
      exact absurd (other q sameQ ▸ first) (only q sameQ (here ▸ second))
    · exact valid.one q r (other q sameQ ▸ first) (other r sameR ▸ second)
  · intro q
    by_cases same : q = p
    · subst q
      exact here ▸ fits
    · rw [other q same]
      refine (valid.fits q).congr path content (missed q same) fun r now => ?_
      by_cases mine : r = p
      · subst r
        exact written (here ▸ now)
      · exact other r mine ▸ now
  · intro q number
    have before := valid.owner q ((lockPid_congr path content) ▸ number)
    by_cases same : q = p
    · subst q
      rw [here]
      exact left (before.resolve_left alive)
    · rwa [other q same]

/-- A step of the only process that has been let through. -/
theorem alone (valid : Invariant s) (moved : t.pc = Function.update s.pc p pc) (busy : (s.pc p).Busy)
    (missed : ∀ q r, s.missed q r = true → t.missed q r = true)
    (noticed : pc.Written → ∀ q, q ≠ p → t.missed q p = true) (fits : Fits t p pc)
    (owner : ∀ q : Nat, t.lockPid = some (q : Int) → q = p ∧ pc.Written) : Invariant t := by
  have here : t.pc p = pc := by simp [moved]
  have other : ∀ q, q ≠ p → t.pc q = s.pc q := fun q apart => by simp [moved,apart]
  have idle : ∀ q, q ≠ p → ¬ (s.pc q).Busy := fun q apart now => apart (valid.one q p now busy)
  have only : ∀ q, (t.pc q).Busy → q = p := by
    intro q now
    by_contra apart
    exact idle q apart (other q apart ▸ now)
  refine ⟨fun q r first second => (only q first).trans (only r second).symm,?_,?_⟩
  · intro q
    by_cases same : q = p
    · subst q
      exact here ▸ fits
    · rw [other q same]
      refine (valid.fits q).of_idle (idle q same) (missed q) fun r now => .inr ?_
      obtain rfl := only r now.busy
      exact noticed (here ▸ now) q same
  · intro q number
    obtain ⟨rfl,now⟩ := owner q number
    exact .inr (here ▸ now)

/-- When a process is let through alone, no other one has been. -/
theorem passes {a : Action} (valid : Invariant s) (passes : Passes s a) (alone : Alone s a) :
    ∀ q, q ≠ a.process → ¬ (s.pc q).Busy := by
  obtain ⟨p,operation⟩ := a
  intro q apart busy
  obtain ⟨written,looked⟩ := alone passes q apart busy
  have number := (valid.fits q).of_written written
  have fits := valid.fits p
  cases at_ : s.pc p with
  | checking =>
    have absent : s.path = none := by cases operation <;> simp_all [Passes]
    simp [State.lockPid,absent] at number
  | probing pid =>
    have unmissed : s.missed p q = false := by simpa [at_] using looked
    have dead : s.pidExists pid = false := by cases operation <;> simp_all [Passes]
    rw [at_] at fits
    rw [fits q written unmissed] at dead
    simp [State.pidExists,busy.live] at dead
  | cleaning caller stage =>
    have unmissed : s.missed p q = false := by simpa [at_] using looked
    cases caller with
    | isRunning =>
      rw [at_] at fits
      simp [fits.2 q written] at unmissed
    | _ => cases operation <;> simp [Passes,at_] at passes
  | _ => cases operation <;> simp [Passes,at_] at passes

/-- A step of a process that has not been let through. -/
theorem outside (valid : Invariant s) (moved : t.pc = Function.update s.pc p pc) (path : t.path = s.path)
    (content : t.content = s.content) (missed : ∀ q, q ≠ p → t.missed q = s.missed q)
    (alive : s.pc p ≠ .dead) (idle : ¬ (s.pc p).Busy)
    (busy : pc.Busy → pc = .opening ∧ ∀ q, q ≠ p → ¬ (s.pc q).Busy) (fits : Fits t p pc) :
    Invariant t := by
  refine valid.move moved path content missed alive (fun now => .inr (busy now).2) (fun now => ?_)
    (fun was => absurd was.busy idle) fits
  rw [(busy now.busy).1] at now
  exact now.elim

/-- The end of `_cleanup` of a process whose number is not in the file. -/
theorem cleaned (valid : Invariant s) {caller : Caller} {stage : Stage}
    (at_ : s.pc p = .cleaning caller stage) (number : s.lockPid ≠ some (p : Int))
    (through : caller = .isRunning → ∀ q, q ≠ p → ¬ (s.pc q).Busy) : Invariant (s.cleaned p caller) := by
  have alive : s.pc p ≠ .dead := by simp [at_]
  cases caller with
  | isRunning =>
    exact valid.outside rfl rfl rfl (fun _ _ => rfl) alive (by simp [at_,Pc.Busy])
      (fun _ => ⟨rfl,through rfl⟩) trivial
  | exit =>
    have fits := valid.fits p
    rw [at_] at fits
    exact absurd fits number
  | atexit =>
    refine valid.outside rfl rfl rfl (fun _ _ => rfl) alive (by simp [at_,Pc.Busy]) ?_ ?_
    · split <;> exact False.elim
    · split <;> simp [Fits]

theorem step (valid : Invariant s) {a : Action} (alone : Alone s a)
    (taken : SingleInstance.step s a = some t) : Invariant t := by
  have through : Passes s a → ∀ q, q ≠ a.process → ¬ (s.pc q).Busy :=
    fun passes => valid.passes passes alone
  have stepped := step_stepped taken
  obtain ⟨p,operation⟩ := a
  have fits := valid.fits p
  have looked : ∀ q, q ≠ p → (s.look p).missed q = s.missed q := fun q apart => by
    simp [State.look,apart]
  cases stepped with
  | spawned at_ | entered at_ | refused pid at_ live =>
    exact valid.outside rfl rfl rfl (fun _ _ => rfl) (by simp [at_]) (by simp [at_,Pc.Busy])
      False.elim trivial
  | found at_ path =>
    exact valid.outside rfl rfl rfl looked (by simp [at_]) (by simp [at_,Pc.Busy]) False.elim trivial
  | absent at_ path =>
    exact valid.outside rfl rfl rfl looked (by simp [at_]) (by simp [at_,Pc.Busy])
      (fun _ => ⟨rfl,through (by simpa [Passes,at_] using path)⟩) trivial
  | parsed pid at_ number =>
    refine valid.outside rfl rfl rfl looked (by simp [at_]) (by simp [at_,Pc.Busy]) False.elim ?_
    intro q written _
    have own := (valid.fits q).of_written (written_goto id written)
    exact Option.some.inj (number.symm.trans own)
  | unparsed at_ number =>
    refine valid.outside rfl rfl rfl looked (by simp [at_]) (by simp [at_,Pc.Busy]) False.elim ?_
    refine ⟨by simp,fun q written => ?_⟩
    have own := (valid.fits q).of_written (written_goto id written)
    cases number.symm.trans own
  | stale pid at_ dead =>
    exact valid.outside rfl rfl rfl (fun _ _ => rfl) (by simp [at_]) (by simp [at_,Pc.Busy])
      (fun _ => ⟨rfl,through (by simpa [Passes,at_] using dead)⟩) trivial
  | opened inode next at_ =>
    refine valid.alone rfl (by simp [at_,Pc.Busy]) (fun _ _ => id) False.elim ⟨rfl,by simp⟩ ?_
    intro q number
    simp [State.lockPid] at number
  | wrote inode at_ =>
    rw [at_] at fits
    have number : State.lockPid { s.goto p .inside with
        content := Function.update s.content inode (overwrite (str p) (s.content inode)) } =
        some (p : Int) := by
      simp [State.lockPid,fits.1,fits.2,overwrite,int_str]
    refine valid.alone rfl (by simp [at_,Pc.Busy]) (by simp +contextual) (by simp) number ?_
    intro q number'
    have same : (p : Int) = q := Option.some.inj (number.symm.trans number')
    exact ⟨(Int.ofNat.inj same).symm,trivial⟩
  | left at_ =>
    rw [at_] at fits
    exact valid.move rfl rfl rfl (fun _ _ => rfl) (by simp [at_]) (by simp [at_,Pc.Busy])
      (by simp [at_,Pc.Written]) (fun _ => .inr trivial) fits
  | seen caller at_ path =>
    rw [at_] at fits
    cases caller with
    | isRunning =>
      refine valid.outside rfl rfl rfl (fun _ _ => rfl) (by simp [at_]) (by simp [at_,Pc.Busy])
        False.elim ⟨by simp,fun q written => ?_⟩
      exact fits.2 q (written_goto id written)
    | exit =>
      exact valid.move rfl rfl rfl (fun _ _ => rfl) (by simp [at_]) (by simp [at_,Pc.Busy])
        (by simp [at_,Pc.Written]) (fun _ => .inr trivial) fits
    | atexit =>
      exact valid.outside rfl rfl rfl (fun _ _ => rfl) (by simp [at_]) (by simp [at_,Pc.Busy])
        False.elim (by simp [Fits])
  | own caller at_ number =>
    rw [at_] at fits
    cases caller with
    | exit =>
      exact valid.move rfl rfl rfl (fun _ _ => rfl) (by simp [at_]) (by simp [at_,Pc.Busy])
        (by simp [at_,Pc.Written]) (fun _ => .inr trivial) fits
    | _ =>
      have owner := valid.owner p number
      simp [at_,Pc.Written] at owner
  | gone caller at_ path =>
    apply valid.cleaned at_ (by simp [State.lockPid,path])
    rintro rfl
    exact through (by simpa [Passes,at_] using path)
  | foreign caller at_ number =>
    apply valid.cleaned at_ number
    rintro rfl
    exact through (by simpa [Passes,at_] using number)
  | unlinked caller at_ =>
    rw [at_] at fits
    cases caller with
    | isRunning => exact absurd rfl fits.1
    | exit =>
      refine valid.alone rfl (by simp [at_,Pc.Busy]) (fun _ _ => id) False.elim trivial ?_
      intro q number
      cases number
    | atexit => exact absurd rfl fits
  | finished pc at_ which =>
    refine valid.outside rfl rfl rfl (fun _ _ => rfl) (by simp [at_]) (by simp [at_,Pc.Busy]) ?_ ?_
    · rcases which with rfl | rfl <;> exact False.elim
    · rcases which with rfl | rfl <;> simp [Fits]
  | died live =>
    refine valid.move rfl rfl rfl (fun _ _ => rfl) ?_ False.elim False.elim (fun _ => .inl rfl) trivial
    intro dead
    simp [dead,Pc.live] at live

end Invariant

theorem start_pc (file : Option (List Char)) (p : Nat) :
    (start file).pc p = .dead ∨ (start file).pc p = .unborn := by
  simp only [start]
  split <;> simp

theorem start_invariant (file : Option (List Char)) : Invariant (start file) where
  one p q first := by
    rcases start_pc file p with at_ | at_ <;> simp [at_,Pc.Busy] at first
  fits p := by
    rcases start_pc file p with at_ | at_ <;> simp [at_,Fits]
  owner p number := by
    cases file with
    | none => cases number
    | some text =>
      have before : int text = some (p : Int) := number
      exact .inl (by simp [start,before])

theorem reachable_invariant {file : Option (List Char)} {s : State}
    (reached : ReachableUnder step Alone (start file) s) : Invariant s :=
  reached.invariant (start_invariant file) fun _ _ _ _ valid alone taken => valid.step alone taken

/-- Two processes that look before either of them opens the file are both let through. -/
theorem both_let_through : ¬ ∀ file s, Reachable step (start file) s → MutualExclusion s := by
  intro claim
  obtain ⟨s,ran,first,second⟩ : ∃ s, run step (start none) [⟨1,.spawn⟩,⟨2,.spawn⟩,⟨1,.enter⟩,⟨2,.enter⟩,
      ⟨1,.pathExists⟩,⟨2,.pathExists⟩,⟨1,.openTruncate⟩,⟨1,.write⟩,⟨2,.openTruncate⟩,⟨2,.write⟩] = some s ∧
      s.pc 1 = .inside ∧ s.pc 2 = .inside := ⟨_,rfl,rfl,rfl⟩
  exact absurd (claim none s (reachable_of_run ran) 1 2 first second) (by decide)

/-! ## Two processes in the block -/

/-- A process that has been let through can enter the block. -/
theorem exists_inside {s : State} {p : Nat} (at_ : s.pc p = .opening) :
    ∃ u, ReachableUnder step Alone s u ∧ u.pc = Function.update s.pc p .inside := by
  obtain ⟨t,first,pc⟩ : ∃ t, step s ⟨p,.openTruncate⟩ = some t ∧
      t.pc = Function.update s.pc p (.writing (s.path.getD s.nextInode)) := by
    simp [step,at_,State.goto]
  obtain ⟨u,second,inside⟩ : ∃ u, step t ⟨p,.write⟩ = some u ∧ u.pc = Function.update t.pc p .inside := by
    simp [step,pc,State.goto]
  refine ⟨u,(ReachableUnder.start.next (fun passes => ?_) first).next (fun passes => ?_) second,?_⟩
  · simp [Passes] at passes
  · simp [Passes] at passes
  · rw [inside,pc,Function.update_idem]

/-- A process on its way out can come to the removal of the file, which still has its number. -/
theorem exists_unlinking {s : State} {p : Nat} {stage : Stage} (at_ : s.pc p = .cleaning .exit stage)
    (number : s.lockPid = some (p : Int)) : ∃ u, ReachableUnder step Alone s u ∧
      u.pc = Function.update s.pc p (.cleaning .exit .unlinking) := by
  have read : ∀ t, t.pc p = .cleaning .exit .reading → t.lockPid = some (p : Int) →
      ReachableUnder step Alone t (t.goto p (.cleaning .exit .unlinking)) := fun t pc own =>
    .next .start (fun passes => by simp [Passes,pc] at passes) (by simp [step,pc,own] : step t ⟨p,.read⟩ = _)
  cases stage with
  | looking =>
    have exists_ : s.path.isSome = true := by
      cases path : s.path with
      | none => simp [State.lockPid,path] at number
      | some inode => rfl
    have first : step s ⟨p,.pathExists⟩ = some (s.goto p (.cleaning .exit .reading)) := by
      simp [step,at_,exists_]
    have later := read (s.goto p (.cleaning .exit .reading)) (by simp) number
    refine ⟨_,(ReachableUnder.start.next (fun passes => ?_) first).trans later,?_⟩
    · simp [Passes,at_] at passes
    · simp [State.goto]
  | reading => exact ⟨_,read s at_ number,rfl⟩
  | unlinking => exact ⟨s,.start,by rw [← at_,Function.update_eq_self]⟩

/-- What a process that is let through finds is left as it is. -/
theorem passed {s t : State} {a : Action} (valid : Invariant s) (passes : Passes s a)
    (taken : step s a = some t) :
    t.pc = Function.update s.pc a.process .opening ∧ t.lockPid = s.lockPid := by
  have stepped := step_stepped taken
  obtain ⟨p,operation⟩ := a
  have fits := valid.fits p
  cases stepped with
  | absent at_ path => exact ⟨rfl,rfl⟩
  | stale pid at_ dead => exact ⟨rfl,rfl⟩
  | gone caller at_ path | foreign caller at_ number =>
    cases caller with
    | isRunning => exact ⟨rfl,rfl⟩
    | _ => simp [Passes,at_] at passes
  | unlinked caller at_ =>
    rw [at_] at fits
    cases caller with
    | isRunning => exact absurd rfl fits.1
    | _ => simp [Passes,at_] at passes
  | own caller at_ number | seen caller at_ number =>
    cases caller <;> simp [Passes,at_,number] at passes
  | _ => simp_all [Passes]

theorem exists_second {s : State} {p q : Nat} (first : s.pc q = .inside) (second : s.pc p = .opening) :
    ∃ u, ReachableUnder step Alone s u ∧ ¬ MutualExclusion u := by
  have apart : q ≠ p := by
    rintro rfl
    cases first.symm.trans second
  obtain ⟨u,reached,pc⟩ := exists_inside second
  refine ⟨u,reached,fun exclusion => apart (exclusion q p ?_ ?_)⟩
  · simp [pc,apart,first]
  · simp [pc]

/-- A process that has been let through while another one leaves loses the file that it writes. -/
theorem exists_lost_file {s : State} {p q : Nat} {stage : Stage} (first : s.pc p = .opening)
    (second : s.pc q = .cleaning .exit stage) (number : s.lockPid = some (q : Int))
    (others : ∀ r, (s.pc r).Busy → r = p ∨ r = q) :
    ∃ u, ReachableUnder step Alone s u ∧ ¬ MutualExclusion u := by
  have apart : p ≠ q := by
    rintro rfl
    cases first.symm.trans second
  obtain ⟨u₁,reached₁,pc₁⟩ := exists_unlinking second number
  obtain ⟨u₂,reached₂,pc₂⟩ := exists_inside (s := u₁) (p := p) (by simp [pc₁,apart,first])
  obtain ⟨u₃,taken₃,pc₃,path₃⟩ : ∃ u₃, step u₂ ⟨q,.unlink⟩ = some u₃ ∧
      u₃.pc = Function.update u₂.pc q .outside ∧ u₃.path = none := by
    simp [step,pc₂,pc₁,apart.symm,State.cleaned,State.goto]
  obtain ⟨u₄,taken₄,pc₄,path₄⟩ : ∃ u₄, step u₃ ⟨q,.enter⟩ = some u₄ ∧
      u₄.pc = Function.update u₃.pc q .checking ∧ u₄.path = none := by
    simp [step,pc₃,path₃,State.goto]
  obtain ⟨u₅,taken₅,pc₅⟩ : ∃ u₅, step u₄ ⟨q,.pathExists⟩ = some u₅ ∧
      u₅.pc = Function.update u₄.pc q .opening := by
    simp [step,pc₄,path₄,State.goto,State.look]
  have inside : u₅.pc p = .inside := by simp [pc₅,pc₄,pc₃,pc₂,apart]
  have alone : Alone u₄ ⟨q,.pathExists⟩ := by
    intro _ r other busy
    have looking : u₄.pc q = .checking := by simp [pc₄]
    refine ⟨?_,.inl looking⟩
    by_cases same : r = p
    · subst r
      simp [pc₄,pc₃,pc₂,apart,Pc.Written]
    · have before : (s.pc r).Busy := by simpa [pc₄,pc₃,pc₂,pc₁,other,same] using busy
      exact absurd (others r before) (by simp [same,other])
  obtain ⟨u,later,both⟩ := exists_second inside (p := q) (by simp [pc₅])
  refine ⟨u,(((((reached₁.trans reached₂).next (fun passes => ?_) taken₃).next (fun passes => ?_)
    taken₄).next alone taken₅).trans later),both⟩
  · simp [Passes,pc₂,pc₁,apart.symm] at passes
  · simp [Passes] at passes

/-- Two processes that have both been let through can both get into the block. -/
theorem exists_both {s : State} {p q : Nat} (first : s.pc p = .opening) (second : (s.pc q).Busy)
    (apart : q ≠ p) (number : (s.pc q).Written → s.lockPid = some (q : Int))
    (others : ∀ r, (s.pc r).Busy → r = p ∨ r = q) :
    ∃ u, ReachableUnder step Alone s u ∧ ¬ MutualExclusion u := by
  cases at_ : s.pc q with
  | opening =>
    obtain ⟨t,reached,pc⟩ := exists_inside at_
    obtain ⟨u,later,both⟩ := exists_second (s := t) (q := q) (p := p) (by simp [pc])
      (by simp [pc,apart.symm,first])
    exact ⟨u,reached.trans later,both⟩
  | writing inode =>
    obtain ⟨t,taken,pc⟩ : ∃ t, step s ⟨q,.write⟩ = some t ∧ t.pc = Function.update s.pc q .inside := by
      simp [step,at_,State.goto]
    obtain ⟨u,later,both⟩ := exists_second (s := t) (q := q) (p := p) (by simp [pc])
      (by simp [pc,apart.symm,first])
    refine ⟨u,(ReachableUnder.start.next (fun passes => ?_) taken).trans later,both⟩
    simp [Passes] at passes
  | inside => exact exists_second at_ first
  | cleaning caller stage =>
    rw [at_] at second number
    cases caller with
    | exit => exact exists_lost_file first at_ (number trivial) others
    | _ => exact second.elim
  | _ =>
    rw [at_] at second
    exact second.elim

/-- At most one live process is in the block, if none is let through while another one has been let
through and has not written its number, or has not left and has written it since the first looked.
Every step that lets one through otherwise can be continued to two of them in the block. -/
theorem mutual_exclusion_when_alone (file : Option (List Char)) (s : State)
    (reached : ReachableUnder step Alone (start file) s) :
    MutualExclusion s ∧ ∀ a t, step s a = some t →
      (Alone s a ↔ ∀ u, ReachableUnder step Alone t u → MutualExclusion u) := by
  have exclusion : ∀ u, ReachableUnder step Alone (start file) u → MutualExclusion u :=
    fun u reached p q first second =>
      (reachable_invariant reached).one p q (by simp [first,Pc.Busy]) (by simp [second,Pc.Busy])
  refine ⟨exclusion s reached,fun a t taken => ⟨fun alone u later => ?_,fun kept passes q apart busy => ?_⟩⟩
  · exact exclusion u ((reached.next alone taken).trans later)
  · have valid := reachable_invariant reached
    obtain ⟨pc,number⟩ := passed valid passes taken
    have second : t.pc q = s.pc q := by simp [pc,apart]
    obtain ⟨u,later,both⟩ := exists_both (s := t) (p := a.process) (by simp [pc]) (second ▸ busy) apart
      (fun written => number.trans ((valid.fits q).of_written (second ▸ written))) fun r now => by
        by_cases same : r = a.process
        · exact .inl same
        · have before : t.pc r = s.pc r := by simp [pc,same]
          exact .inr (valid.one r q (before ▸ now) busy)
    exact absurd (kept u later) both

/-- The first process dies in the block while the second has its number, which then takes over. -/
theorem mutual_exclusion_when_alone_witness : ∃ s : State, s.pc 1 = .dead ∧ s.pc 2 = .inside ∧
    MutualExclusion s := by
  have begun : ReachableUnder step Alone (start none) (start none) := .start
  have spawned := begun.next (a := ⟨1,.spawn⟩) (by exact False.elim) rfl
  have entered := spawned.next (a := ⟨1,.enter⟩) (by exact False.elim) rfl
  have passed := entered.next (a := ⟨1,.pathExists⟩) (by
    intro _ q apart busy
    simp [start,State.goto,Pc.Busy,apart] at busy) rfl
  have opened := passed.next (a := ⟨1,.openTruncate⟩) (by exact False.elim) rfl
  have written := opened.next (a := ⟨1,.write⟩) (by exact False.elim) rfl
  have spawned' := written.next (a := ⟨2,.spawn⟩) (by exact False.elim) rfl
  have entered' := spawned'.next (a := ⟨2,.enter⟩) (by exact False.elim) rfl
  have found := entered'.next (a := ⟨2,.pathExists⟩) (by intro passes; cases passes) rfl
  have parsed := found.next (a := ⟨2,.read⟩) (by exact False.elim) rfl
  have died := parsed.next (a := ⟨1,.die⟩) (by exact False.elim) rfl
  have passed' := died.next (a := ⟨2,.pidExists⟩) (by
    intro _ q apart busy
    by_cases same : q = 1
    · subst q
      exact busy.elim
    · simp [start,State.goto,State.look,Pc.Busy,apart,same] at busy) rfl
  have opened' := passed'.next (a := ⟨2,.openTruncate⟩) (by exact False.elim) rfl
  have written' := opened'.next (a := ⟨2,.write⟩) (by exact False.elim) rfl
  exact ⟨_,rfl,rfl,(mutual_exclusion_when_alone none _ written').1⟩

end OcrSuite.SingleInstance
