import OcrSuite.Execution
import OcrSuite.FileFilter

/-! The watcher with the threads that run the application for the files: over all its passes no two of its
processes are ever for one file. -/
namespace OcrSuite.Watcher

open Transition DirectoryTree PathNames FileFilter

/-- `older` are the pools of the passes before the last one. -/
structure Passes (k : Nat) where
  runner : Runner
  execution : Execution Path k
  older : List (Pool Path k)

namespace Passes

variable {k : Nat}

inductive Action (k : Nat) where
  | runner (a : Runner.Action)
  | collect (d : Directory)
  | execute (a : Execution.Action k)
  | ret
  | raise
  | older (n : Nat) (i : Fin k) (finishes : Bool)

def start : Passes k := ⟨.start,⟨.new,[],.returned true⟩,[]⟩

def executing : RunnerPc → Bool
  | .executing _ => true
  | _ => false

/-- The runner's own actions: an interrupt in `execute` is one of the execution. -/
def own (pc : RunnerPc) : Runner.Action → Bool
  | .collect _ | .execute _ => false
  | .interrupt => !executing pc
  | _ => true

/-- The threads of a pool go on also after `execute` was left with an exception. -/
def ofThread : Execution.Action k → Bool
  | .start _ | .finish _ => true
  | _ => false

def step (extensions : List String) (checkingFrequency : Nat) (s : Passes k) : Action k → Option (Passes k)
  | .runner a =>
    if own s.runner.pc a then
      (Runner.step (config extensions checkingFrequency) s.runner a).map fun runner => { s with runner := runner }
    else none
  | .collect d =>
    let files := submitted (collectByExtension d extensions)
    (Runner.step (config extensions checkingFrequency) s.runner (.collect (files.map Path.str))).map fun runner =>
      ⟨runner,.start files,s.execution.pool :: s.older⟩
  | .execute a =>
    if ofThread a || executing s.runner.pc then
      (Execution.step s.execution a).map fun execution => { s with execution := execution }
    else none
  | .ret =>
    match s.execution.pc with
    | .returned finished =>
      (Runner.step (config extensions checkingFrequency) s.runner (.execute !finished)).map fun runner =>
        { s with runner := runner }
    | _ => none
  | .raise =>
    match s.execution.pc with
    | .raised =>
      if executing s.runner.pc then
        (Runner.step (config extensions checkingFrequency) s.runner .interrupt).map fun runner =>
          { s with runner := runner }
      else none
    | _ => none
  | .older n i finishes => do
    let p ← s.older[n]?
    let p ← p.perform (if finishes then .finish i else .start i)
    return { s with older := s.older.set n p }

/-- How often the configuration lists the extension of a file. -/
def listings (extensions : List String) (file : Path) : Nat :=
  extensions.count file.suffix + extensions.count file.name

/-! ## The files of a pass -/

theorem name_child {base other : Path} {way : List String} (named : ∀ name ∈ way, IsPart name)
    (nonempty : way ≠ []) : (child base way).name = (child other way).name := by
  have last (p : Path) : (child p way).name = way.getLast nonempty := by
    rw [Path.name,(child_parts named).2,List.getLast?_append_of_ne_nil _ nonempty,
      List.getLast?_eq_some_getLast nonempty]
    rfl
  rw [last,last]

theorem suffix_congr {p q : Path} (same : p.name = q.name) : p.suffix = q.suffix := by
  rw [Path.suffix,Path.suffix,same]

/-- A file is collected once for each time that its extension is listed. -/
theorem count_submitted_le {w : WordClass} {extensions : List String} (accepted : w.Accepts extensions)
    (d : Directory) (file : Path) :
    (submitted (collectByExtension d extensions)).count file ≤ listings extensions file := by
  by_cases member : file ∈ submitted (collectByExtension d extensions)
  · obtain ⟨_,_,way,regular,_,rfl⟩ := exists_way_of_mem member
    have inside := mem_walk_of_isFile regular
    have nonempty : way ≠ [] := by
      obtain ⟨first,_,below,rfl⟩ := Entries.head_of_mem_walk inside
      simp
    have name : (child d.resolved way).name = (child d.path way).name :=
      name_child (d.named way inside) nonempty
    rw [count_submitted,count_collectByExtension (fun ext member => plain_of_fileExtension (accepted.2 ext member))
      regular,listings,name,suffix_congr name]
  · rw [List.count_eq_zero_of_not_mem member]
    exact Nat.zero_le _

/-- A pass is under way, the last one has returned, or the watcher was left in it. -/
structure Invariant (extensions : List String) (s : Passes k) : Prop where
  execution : ∃ files, Execution.Invariant files s.execution ∧
    ∀ file, files.count file ≤ listings extensions file
  between : executing s.runner.pc = true ∨ (∃ finished, s.execution.pc = .returned finished) ∨
    s.execution.pc = .raised ∧ (s.runner.pc = .leaving ∨ s.runner.pc = .stopped)
  older : ∀ p ∈ s.older, p.Idle

theorem start_invariant (extensions : List String) : Invariant extensions (start : Passes k) where
  execution := by
    refine ⟨[],⟨Pool.new_valid,List.nil_prefix,?_,?_,?_,?_,?_⟩,by simp⟩
    · simp [start,Execution.unsubmitted,Pool.Whole,Pool.new]
    · simp [start]
    · simp [start]
    · simp [start]
    · exact fun _ _ => ⟨rfl,fun _ => rfl⟩
  between := .inr (.inl ⟨true,rfl⟩)
  older := by simp [start]

/-- In a pass and at its end the runner's own actions lead nowhere else. -/
theorem runner_own {config : Config} {r r' : Runner} {a : Runner.Action} (ours : own r.pc a = true)
    (taken : Runner.step config r a = some r') (there : (∃ files, r.pc = .executing files) ∨ r.pc = .leaving ∨
      r.pc = .stopped) : r'.pc = r.pc ∨ r.pc = .leaving ∧ r'.pc = .stopped := by
  cases a with
  | onModified event =>
    simp only [Runner.step,Option.ite_none_right_eq_some] at taken
    obtain ⟨_,taken⟩ := taken
    split at taken <;> obtain rfl := Option.some.inj taken <;> exact .inl rfl
  | setShouldRun =>
    cases observer : r.observer with
    | called path =>
      simp only [Runner.step,observer,Option.some.injEq] at taken
      exact .inl (by rw [← taken])
    | waiting => simp [Runner.step,observer] at taken
  | exit =>
    simp only [Runner.step,Option.ite_none_right_eq_some,Option.some.injEq] at taken
    obtain ⟨⟨leaving,_⟩,rfl⟩ := taken
    exact .inr ⟨leaving,rfl⟩
  | collect | execute => cases ours
  | interrupt =>
    rcases there with ⟨files,pc⟩ | pc | pc
    · simp [own,pc,executing] at ours
    · simp [Runner.step,pc] at taken
    · simp [Runner.step,pc] at taken
  | _ => rcases there with ⟨files,pc⟩ | pc | pc <;> simp [Runner.step,pc] at taken

theorem executing_iff {pc : RunnerPc} : executing pc = true ↔ ∃ files, pc = .executing files := by
  cases pc <;> simp [executing]

theorem step_execution {e e' : Execution Path k} {a : Execution.Action k} (thread : ofThread a = true)
    (taken : e.step a = some e') : e'.pc = e.pc := by
  cases Execution.step_stepped taken with
  | worked => rfl
  | closed _ _ which => rcases which with ⟨rfl,_⟩ | ⟨rfl,_⟩ <;> cases thread
  | _ => cases thread

variable {extensions : List String} {checkingFrequency : Nat} {s t : Passes k} {a : Action k}

/-- A pass is one of the files that were collected last. -/
theorem step_files {files : List Path} (valid : Execution.Invariant files s.execution)
    (same : ∀ d, a ≠ .collect d) (taken : step extensions checkingFrequency s a = some t) :
    Execution.Invariant files t.execution := by
  cases a with
  | runner a =>
    obtain ⟨_,taken⟩ := Option.ite_none_right_eq_some.mp taken
    obtain ⟨runner,_,rfl⟩ := Option.map_eq_some_iff.mp taken
    exact valid
  | collect d => exact absurd rfl (same d)
  | execute a =>
    obtain ⟨_,taken⟩ := Option.ite_none_right_eq_some.mp taken
    obtain ⟨next,moved,rfl⟩ := Option.map_eq_some_iff.mp taken
    exact Execution.step_invariant valid moved
  | ret =>
    simp only [step] at taken
    split at taken
    case h_1 =>
      obtain ⟨runner,_,rfl⟩ := Option.map_eq_some_iff.mp taken
      exact valid
    case h_2 => cases taken
  | raise =>
    simp only [step] at taken
    split at taken
    case h_1 =>
      obtain ⟨_,taken⟩ := Option.ite_none_right_eq_some.mp taken
      obtain ⟨runner,_,rfl⟩ := Option.map_eq_some_iff.mp taken
      exact valid
    case h_2 => cases taken
  | older n i finishes =>
    obtain ⟨p,_,taken⟩ := Option.bind_eq_some_iff.mp taken
    obtain ⟨p',_,⟨⟩⟩ := Option.bind_eq_some_iff.mp taken
    exact valid

theorem step_invariant {w : WordClass} (accepted : w.Accepts extensions) (valid : Invariant extensions s)
    (taken : step extensions checkingFrequency s a = some t) : Invariant extensions t := by
  have kept (same : ∀ d, a ≠ .collect d) : ∃ files, Execution.Invariant files t.execution ∧
      ∀ file, files.count file ≤ listings extensions file := by
    obtain ⟨files,execution,limited⟩ := valid.execution
    exact ⟨files,step_files execution same taken,limited⟩
  obtain ⟨⟨files,execution,_⟩,between,older⟩ := valid
  cases a with
  | runner a =>
    obtain ⟨ours,taken⟩ := Option.ite_none_right_eq_some.mp taken
    obtain ⟨runner,moved,rfl⟩ := Option.map_eq_some_iff.mp taken
    refine ⟨kept (by simp),?_,older⟩
    rcases between with inside | returned | ⟨raised,out⟩
    · rcases runner_own ours moved (.inl (executing_iff.mp inside)) with same | ⟨leaving,_⟩
      · exact .inl (by rw [same]; exact inside)
      · simp [leaving,executing] at inside
    · exact .inr (.inl returned)
    · refine .inr (.inr ⟨raised,?_⟩)
      rcases runner_own ours moved (.inr out) with same | ⟨_,stopped⟩
      · rw [same]
        exact out
      · exact .inr stopped
  | collect d =>
    obtain ⟨runner,moved,rfl⟩ := Option.map_eq_some_iff.mp taken
    obtain ⟨collecting,collected⟩ := Option.ite_none_right_eq_some.mp moved
    have idle : s.execution.pool.Idle := by
      rcases between with inside | ⟨finished,returned⟩ | ⟨_,leaving | stopped⟩
      · simp [collecting,executing] at inside
      · exact execution.closed finished returned
      · simp [collecting] at leaving
      · simp [collecting] at stopped
    refine ⟨⟨_,Execution.start_invariant _,count_submitted_le accepted d⟩,.inl ?_,?_⟩
    · rw [← Option.some.inj collected]
      rfl
    · simpa using ⟨idle,older⟩
  | execute a =>
    obtain ⟨may,taken⟩ := Option.ite_none_right_eq_some.mp taken
    obtain ⟨next,moved,rfl⟩ := Option.map_eq_some_iff.mp taken
    refine ⟨kept (by simp),?_,older⟩
    by_cases inside : executing s.runner.pc = true
    · exact .inl inside
    · have thread : ofThread a = true := by simpa [inside] using may
      have same := step_execution thread moved
      simpa [inside,same] using between
  | ret =>
    simp only [step] at taken
    split at taken
    case h_1 finished pc =>
      obtain ⟨runner,moved,rfl⟩ := Option.map_eq_some_iff.mp taken
      exact ⟨kept (by simp),.inr (.inl ⟨finished,pc⟩),older⟩
    case h_2 => cases taken
  | raise =>
    simp only [step] at taken
    split at taken
    case h_1 pc =>
      obtain ⟨inside,taken⟩ := Option.ite_none_right_eq_some.mp taken
      obtain ⟨runner,moved,rfl⟩ := Option.map_eq_some_iff.mp taken
      obtain ⟨files',here⟩ := executing_iff.mp inside
      simp only [Runner.step,here,Option.some.injEq] at moved
      subst runner
      exact ⟨kept (by simp),.inr (.inr ⟨pc,.inl rfl⟩),older⟩
    case h_2 => cases taken
  | older n i finishes =>
    obtain ⟨p,found,taken⟩ := Option.bind_eq_some_iff.mp taken
    obtain ⟨p',done,_⟩ := Option.bind_eq_some_iff.mp taken
    have stuck := (older p (List.mem_of_getElem? found)).stuck i
    cases finishes <;> simp [stuck] at done

theorem reachable_invariant {w : WordClass} (accepted : w.Accepts extensions)
    (reached : Reachable (step extensions checkingFrequency) start s) : Invariant extensions s :=
  reached.invariant (start_invariant extensions) fun _ _ _ _ valid _ taken => step_invariant accepted valid taken

end Passes

end OcrSuite.Watcher
