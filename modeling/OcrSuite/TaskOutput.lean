import OcrSuite.Monitoring
import OcrSuite.ProgressParsing

/-! A process of the watcher that runs the recogniser: what the task shows of its output at the end. -/
namespace OcrSuite.Executor

open Transition LineReader Monitoring Pattern ProgressLine SingleInstance

variable {V : Type} (d : Floats V) (logs : List Char → Bool) (message : Fd → List Char → List Char) (path : List Char)

def processLine : Fd → List Char → Shown V → Option (Shown V)
  | .stdout,line,s => processStdout d logs path line s
  | .stderr,line,s => processStderr logs path line s

/-- `message` is the text of what a line makes the thread throw. -/
def methods : Methods (Shown V) where
  process := processLine d logs path
  logError fd line := log logs ("[bold red]Error monitoring subprocess: ".toList ++ message fd line)

/-! ## The task -/

variable {s t : Shown V} {line : List Char}

/-- What was logged before makes no difference to the task. -/
theorem processStdout_task (line : List Char) (same : s.task = t.task) :
    (processStdout d logs path line s).map Shown.task = (processStdout d logs path line t).map Shown.task := by
  simp only [processStdout]
  split
  · simp [Option.map_bind]
  · split
    · simp [Option.map_bind]
    · split
      · simp [Option.map_bind,same]
      · split
        · simp [Option.map_bind,same]
        · split
          · simp [same]
          · simp only [log]
            split <;> simp [same]

theorem task_of_processStderr (read : processStderr logs path line s = some t) : t.task = s.task := by
  obtain ⟨_,⟨⟩⟩ := Option.ite_none_right_eq_some.mp read
  rfl

/-- The lines of the error stream and when they come make no difference either. -/
theorem exists_foldlM_stdout {given : List (Fd × List Char)} {u : Shown V}
    (done : (methods d logs message path).processAll given s = some t) (same : u.task = s.task) :
    ∃ v, (of .stdout given).foldlM (fun s line => processStdout d logs path line s) u = some v ∧ v.task = t.task := by
  induction given generalizing s u with
  | nil =>
    obtain rfl := Option.some.inj done
    exact ⟨u,rfl,same⟩
  | cons x given ih =>
    obtain ⟨fd,line⟩ := x
    rw [Methods.processAll,List.foldlM_cons] at done
    obtain ⟨s',first,rest⟩ := Option.bind_eq_some_iff.mp done
    cases fd with
    | stdout =>
      have tasks := processStdout_task d logs path line same
      rw [show processStdout d logs path line s = some s' from first,Option.map_some,Option.map_eq_some_iff] at tasks
      obtain ⟨u',read,same'⟩ := tasks
      obtain ⟨v,later,task⟩ := ih rest same'
      refine ⟨v,?_,task⟩
      simp only [of,List.filterMap_cons,if_true,List.foldlM_cons,read] at later ⊢
      exact later
    | stderr =>
      obtain ⟨v,later,task⟩ := ih rest (u := u) (same.trans (task_of_processStderr logs path first).symm)
      refine ⟨v,?_,task⟩
      simpa [of] using later

/-! ## The last report -/

variable {r : Report}

/-- No line ends inside of the line of a report. -/
theorem not_mem_line (spaces : ∀ c ∈ r.padding, c = ' ') {c : Char} (feed : c = '\n' ∨ c = '\r') : c ∉ r.line := by
  have digit : c.isDigit = false := by rcases feed with rfl | rfl <;> rfl
  have spinner : c ≠ r.spinner.char := by
    intro same
    have inside := spinner_char_mem r.spinner
    rcases feed with rfl | rfl <;> exact absurd (same ▸ inside) (by decide)
  have activity : c ∉ r.activity := not_mem_activity (by rcases feed with rfl | rfl <;> decide) r
  have padding : c ∉ r.padding := by
    intro member
    have blank := spaces c member
    rcases feed with rfl | rfl <;> cases blank
  have number := not_mem_decimal digit
  have rate := not_mem_fixedPoint digit (by rcases feed with rfl | rfl <;> decide)
  have time := not_mem_timeString digit (by rcases feed with rfl | rfl <;> decide)
  have literal {text : List Char} (plain : '\n' ∉ text ∧ '\r' ∉ text) : c ∉ text := by
    rcases feed with rfl | rfl
    · exact plain.1
    · exact plain.2
  have blank : c ≠ ' ' := by rcases feed with rfl | rfl <;> decide
  have percentage : c ∉ r.percentage := by
    unfold Report.percentage
    split
    · simpa [blank,number] using literal (show '\n' ∉ ['%'] ∧ '\r' ∉ ['%'] by decide)
    · simp
  have interval : c ∉ r.time := by
    unfold Report.time
    split
    · simp only [List.mem_append,not_or]
      exact ⟨⟨⟨⟨literal (by decide),time _⟩,literal (by decide)⟩,time _⟩,literal (by decide)⟩
    · simp only [List.mem_append,not_or]
      exact ⟨⟨literal (by decide),time _⟩,literal (by decide)⟩
  simp only [Report.line,Report.text,List.mem_cons,List.mem_append,not_or]
  exact ⟨spinner,percentage,blank,⟨⟨⟨⟨⟨⟨⟨⟨⟨activity,literal (by decide)⟩,rate _⟩,literal (by decide)⟩,rate _⟩,
    literal (by decide)⟩,number _⟩,literal (by decide)⟩,interval⟩,padding⟩⟩

/-- The line of a report comes out with a line feed for the carriage return of the spinner. -/
theorem processStdout_report (spaces : ∀ c ∈ r.padding, c = ' ') (small : ∀ m ∈ r.maxFrames, m.percentage < 100)
    (s : Shown V) : processStdout d logs path (r.line ++ ['\n']) s = some { s with task := reported d r } := by
  obtain ⟨ended,line,same,frames⟩ : ∃ ended : Report, ended.line = r.line ++ ['\n'] ∧
      reported d ended = reported d r ∧ ended.maxFrames = r.maxFrames := by
    refine ⟨{ r with padding := r.padding ++ ['\n'], blank := fun c member => ?_ },?_,rfl,rfl⟩
    · rcases List.mem_append.mp member with inside | last
      · exact .inl (spaces c inside)
      · exact .inr (.inr (List.mem_singleton.mp last))
    · change r.spinner.char :: (r.percentage ++ ' ' :: (r.text ++ (r.padding ++ ['\n']))) = _
      simp only [Report.line,List.cons_append,List.append_assoc]
  rw [← line,← same]
  cases known : ended.maxFrames with
  | none => exact processStdout_unknown d logs path s known
  | some m => exact processStdout_known d logs path s known (small m (frames ▸ known))

theorem lines_report (spaces : ∀ c ∈ r.padding, c = ' ') (before after : List Char)
    (front : ∀ c ∈ before.getLast?, c = '\n' ∨ c = '\r') (rest : after.head? ≠ some '\n') :
    lines (translate (before ++ (r.line ++ ['\r'] ++ after))) =
      lines (translate before) ++ (r.line ++ ['\n']) :: lines (translate after) := by
  have feed : '\n' ∉ r.line := not_mem_line spaces (.inl rfl)
  have cr : '\r' ∉ r.line := not_mem_line spaces (.inr rfl)
  have first : Between before (r.line ++ ['\r'] ++ after) := by
    refine ⟨front,fun _ same => feed ?_⟩
    have spinner : r.spinner.char = '\n' := by simpa [Report.line] using same
    simp [Report.line,spinner]
  have second : Between (r.line ++ ['\r']) after := by
    refine ⟨fun c last => .inr ?_,fun _ => rest⟩
    simpa using last.symm
  have whole : translate (r.line ++ ['\r']) = r.line ++ '\n' :: [] := by
    rw [translate_append (by simp),translate_of_not_mem cr]
    rfl
  rw [lines_translate_append first,lines_translate_append second,whole,lines_append feed]
  rfl

/-- Lines that leave the task as it is. -/
def Quiet (text : List Char) : Prop :=
  ∀ line ∈ lines (translate text), ∀ s : Shown V, ∃ t, processStdout d logs path line s = some t ∧ t.task = s.task

theorem task_of_quiet {given : List (List Char)} (quiet : ∀ line ∈ given, ∀ s : Shown V,
    ∃ t, processStdout d logs path line s = some t ∧ t.task = s.task)
    (done : given.foldlM (fun s line => processStdout d logs path line s) s = some t) : t.task = s.task := by
  induction given generalizing s with
  | nil =>
    obtain rfl := Option.some.inj done
    rfl
  | cons line given ih =>
    rw [List.foldlM_cons] at done
    obtain ⟨u,read,rest⟩ := Option.bind_eq_some_iff.mp done
    obtain ⟨u',read',same⟩ := quiet line List.mem_cons_self s
    obtain rfl := Option.some.inj (read.symm.trans read')
    exact (ih (fun other member => quiet other (List.mem_cons_of_mem _ member)) rest).trans same

/-- A recogniser that is not killed, whatever it wrote before its last report and whatever else it writes: the
thread that reads its output does not fail, and at the end the task shows what that report says. -/
theorem last_report_shown {capacity : Nat} (positive : 0 < capacity) (shown : Shown V) (script : List (Fd × Char))
    (flows : Flows capacity script) (r : Report) (spaces : ∀ c ∈ r.padding, c = ' ')
    (small : ∀ m ∈ r.maxFrames, m.percentage < 100) (before after : List Char)
    (stdout : of .stdout script = before ++ (r.line ++ ['\r'] ++ after))
    (front : ∀ c ∈ before.getLast?, c = '\n' ∨ c = '\r') (rest : after.head? ≠ some '\n')
    (readable : ∀ line ∈ lines (translate before), ∀ s : Shown V, (processStdout d logs path line s).isSome = true)
    (quiet : Quiet d logs path after)
    (stderr : ∀ line ∈ lines (translate (of .stderr script)), ∀ s : Shown V,
      (processStderr logs path line s).isSome = true)
    (actions : List Monitoring.Action) (s : Monitoring (Shown V))
    (ran : run (step (methods d logs message path) capacity) (start script shown) actions = some s)
    (alive : .kill ∉ actions) :
    (∃ more t, (∀ a ∈ more, Calm a ∧ a ≠ .kill) ∧ run (step (methods d logs message path) capacity) s more = some t ∧
      Left t) ∧
    (Left s → s.pc = .done ∧ s.shown.task = reported d r) := by
  have written := lines_report spaces before after front rest
  rw [← stdout] at written
  have unfailed (actions : List Monitoring.Action) (s : Monitoring (Shown V)) (alive : .kill ∉ actions)
      (ran : run (step (methods d logs message path) capacity) (start script shown) actions = some s)
      (closed : Bool) : s.pc ≠ .failed closed := by
    intro failed
    obtain ⟨fd,line,member,u,throws⟩ := (run_alive alive ran).throws failed
    cases fd with
    | stderr =>
      have fails : processStderr logs path line u = none := throws
      simpa [fails] using stderr line member u
    | stdout =>
      rw [written,List.mem_append,List.mem_cons] at member
      have fails : processStdout d logs path line u = none := throws
      rcases member with early | rfl | late
      · simpa [fails] using readable line early u
      · simp [processStdout_report d logs path spaces small] at fails
      · obtain ⟨_,read,_⟩ := quiet line late u
        simp [fails] at read
  have reached := reachable_of_run ran
  refine ⟨?_,fun left => ?_⟩
  · obtain ⟨more,t,allowed,later,left | ⟨fd,other,stuck⟩ | ⟨fd,stuck⟩⟩ := exists_end positive reached
    · exact ⟨more,t,allowed,later,left⟩
    · have valid := reachable_invariant (reached.trans (reachable_of_run later))
      exact (valid.not_deadlocked positive flows fd other stuck).elim
    · have alive' : .kill ∉ actions ++ more := by
        rw [List.mem_append,not_or]
        exact ⟨alive,fun member => (allowed _ member).2 rfl⟩
      exact absurd stuck.failed (unfailed _ t alive' (run_trans ran later) false)
  · have regular : s.pc = .done :=
      left.2.resolve_right fun ⟨closed,failed⟩ => unfailed actions s alive ran closed failed
    refine ⟨regular,?_⟩
    have all := run_alive alive ran
    have fold := all.valid.shown (by rw [regular]; rfl)
    obtain ⟨v,read,task⟩ := exists_foldlM_stdout d logs message path fold rfl
    rw [all.all regular .stdout,written,List.foldlM_append] at read
    obtain ⟨a,_,read⟩ := Option.bind_eq_some_iff.mp read
    rw [List.foldlM_cons,processStdout_report d logs path spaces small] at read
    have last := task_of_quiet d logs path quiet read
    rw [← task,last]

/-- Two reports and the last line of the recogniser. -/
theorem last_report_shown_witness :
    let d : Floats ℚ := ⟨id,0,0,fun x => -x⟩
    let first : Report := ⟨.bar,some ⟨7,3600⟩,false,100,250,3,60,[' '],by simp⟩
    let r : Report := ⟨.slash,some ⟨42,3600⟩,false,100,250,0,1500,[],by simp⟩
    let text := (first.line ++ ['\r']) ++ (r.line ++ ['\r'] ++ "✔ Done!\n".toList)
    let shown : Shown ℚ := ⟨⟨0,0,0,0,none,[]⟩,[]⟩
    let logs : List Char → Bool := fun text => '[' ∉ text
    let m := methods d logs (fun _ line => line) "a.mkv".toList
    ∃ actions t, run (step m 4096) (start (text.map (Prod.mk .stdout)) shown) actions = some t ∧ Left t ∧
      t.shown.task = reported d r := by
  intro d first r text shown logs m
  have alone : ∀ x ∈ text.map (Prod.mk Fd.stdout), x.1 = .stdout := by
    intro x member
    obtain ⟨c,_,rfl⟩ := List.mem_map.mp member
    rfl
  have stdout : of .stdout (text.map (Prod.mk .stdout)) = text := by
    simp [of,List.filterMap_map]
  have flows : Flows 4096 (text.map (Prod.mk .stdout)) := by
    intro fd other different
    cases other with
    | stderr => exact .inr (by simp [of,List.filterMap_map])
    | stdout =>
      refine .inl fun front c d rest parts => ?_
      have there := alone (fd,c) (by simp [parts])
      exact absurd there different
  have readable : ∀ line ∈ lines (translate (first.line ++ ['\r'])), ∀ s : Shown ℚ,
      (processStdout d logs "a.mkv".toList line s).isSome = true := by
    have single := lines_report (r := first) (by simp [first]) [] [] (by simp) (by simp)
    simp only [List.nil_append,List.append_nil,LineReader.translate,lines] at single
    rw [single]
    intro line member s
    rw [List.mem_singleton.mp member,processStdout_report d logs _ (by simp [first]) (by simp [first])]
    rfl
  have quiet : Quiet d logs "a.mkv".toList "✔ Done!\n".toList := by
    have single : lines (translate "✔ Done!\n".toList) = ["✔ Done!\n".toList] := by decide
    intro line member s
    rw [single,List.mem_singleton] at member
    subst line
    have percentage : firstMatch percentageRegex "✔ Done!\n".toList = none := by decide
    have plain : firstMatch nonPercentageRegex "✔ Done!\n".toList = none := by decide
    have starting : firstMatch startingPercentageRegex "✔ Done!\n".toList = none := by decide
    have stopping : firstMatch stoppingPercentageRegex "✔ Done!\n".toList = none := by decide
    have skipped : ∃ pattern ∈ toSkip, pattern <:+: strip "✔ Done!\n".toList := by decide
    exact ⟨s,by simp only [processStdout,percentage,plain,starting,stopping,if_pos skipped],rfl⟩
  have none : of .stderr (text.map (Prod.mk .stdout)) = [] := by simp [of,List.filterMap_map]
  have stderr : ∀ line ∈ lines (translate (of .stderr (text.map (Prod.mk .stdout)))), ∀ s : Shown ℚ,
      (processStderr logs "a.mkv".toList line s).isSome = true := by
    simp [none,LineReader.translate,lines]
  have main := last_report_shown d logs (fun _ line => line) "a.mkv".toList (by decide) shown
    (text.map (Prod.mk .stdout)) flows r (by simp [r]) (by simp [r]) (first.line ++ ['\r']) "✔ Done!\n".toList stdout
    (by simp) (by decide) readable quiet stderr
  obtain ⟨⟨more,t,calm,ran,left⟩,_⟩ := main [] _ rfl (by simp)
  have alive : Monitoring.Action.kill ∉ more := fun member => (calm _ member).2 rfl
  exact ⟨more,t,ran,left,((main more t ran alive).2 left).2⟩

end OcrSuite.Executor
