import OcrSuite.Conservation
import OcrSuite.Runs
import OcrSuite.Search

/-! What a search finds: the rows of the table are those of the files that are reported, with the text that
was searched last, in any order; and every search comes to its end. -/
namespace OcrSuite.Viewer

open Transition Conservation

variable {n : Nat} {F : Type}

/-- No file fails, so that what is left of other files does not matter. -/
def Collection.Fresh (c : Collection n F) : Prop :=
  ∀ f text current, c.find f text current = c.find f text []

/-- The rows for files that are searched for a text. -/
def Collection.hits (c : Collection n F) (text : String) (files : List DatabaseFile) : List (Row F) :=
  files.flatMap fun f => c.recordings.store ⟨f.videoPath,c.find f text []⟩

namespace Search

/-- The text of the search that is under way after the action, and of the last one if it starts none. -/
def Action.searched (text : String) : Action n → String
  | .findText entered => if entered.utf8ByteSize < minTextLength then text else entered
  | _ => text

/-- The text that was searched last. -/
def latest (actions : List (Action n)) : String := actions.foldl Action.searched ""

/-- Where `find_text` still has the text for the threads. -/
def UiPc.text? : UiPc n → Option String
  | .clearing text => some text
  | .running text _ => some text
  | .flagging text _ _ => some text
  | _ => none

/-- The rows in the table and those that files are still to be searched for are all the rows. -/
structure Holds (c : Collection n F) (text : String) (s : Search n F) : Prop where
  named : ∀ t ∈ UiPc.text? s.ui, t = text
  told : ∀ i, i ∉ toRun s.ui → (s.worker i).searchText = text
  telling : ∀ t i rest, s.ui = .flagging t i rest → (s.worker i).searchText = text
  found : ∀ i f rest, (s.worker i).pc = .reporting f rest → (s.worker i).currentEntries = c.find f text []
  conserved : 0 < s.search → (∀ t, s.ui ≠ .clearing t) →
    (↑(s.results.map Prod.snd) + ∑ i, ↑(c.hits text (s.unreported i)) : Multiset (Row F)) =
      ∑ i, ↑(c.hits text (c.files i))

/-- The rows of the report are those of the file. -/
theorem reported_rows {c : Collection n F} {s t : Search n F} {i : Fin n} {f : DatabaseFile}
    {rest : List DatabaseFile} (pc : (s.worker i).pc = .reporting f rest)
    (taken : step c s (.decrementRemainingSize i) = some t) :
    t.results.map Prod.snd = s.results.map Prod.snd ++
      c.recordings.store ⟨f.videoPath,(s.worker i).currentEntries⟩ := by
  simp only [step,pc,Option.some.injEq] at taken
  subst t
  cases entries : (s.worker i).currentEntries <;> simp [Recordings.store,Function.comp_def]

theorem start_holds (c : Collection n F) : Holds c "" start := by
  constructor <;> simp [start,UiPc.text?]

theorem hits_cons (c : Collection n F) (text : String) (f : DatabaseFile) (rest : List DatabaseFile) :
    c.hits text (f :: rest) = c.recordings.store ⟨f.videoPath,c.find f text []⟩ ++ c.hits text rest := by
  simp [Collection.hits]

/-- A reported file is taken out of what is still to be found. -/
theorem sum_hits (c : Collection n F) (text : String) (unreported : Fin n → List DatabaseFile) {i : Fin n}
    {f : DatabaseFile} {rest : List DatabaseFile} (first : unreported i = f :: rest) :
    (∑ k, ↑(c.hits text (unreported k)) : Multiset (Row F)) =
      ↑(c.recordings.store ⟨f.videoPath,c.find f text []⟩) +
        ∑ k, ↑(c.hits text (Function.update unreported i rest k)) := by
  have moved := sum_update (fun _ files => (↑(c.hits text files) : Multiset (Row F))) unreported i rest
  rw [first,hits_cons,← Multiset.coe_add,← add_assoc] at moved
  exact (add_right_cancel moved).symm.trans (add_comm _ _)

/-- Only a new search changes the text. -/
theorem searched_of_step {c : Collection n F} {s t : Search n F} {a : Action n} (taken : step c s a = some t)
    (same : t.search = s.search) (text : String) : a.searched text = text := by
  cases a with
  | findText entered =>
    by_cases short : entered.utf8ByteSize < minTextLength
    · simp [Action.searched,short]
    · cases pc : s.ui with
      | enabled =>
        simp only [step,pc,short,if_false,Option.some.injEq] at taken
        subst t
        exact absurd same (Nat.succ_ne_self _)
      | _ => simp [step,pc] at taken
  | _ => rfl

theorem Holds.setWorker_found {c : Collection n F} {text : String} {s t : Search n F} {i : Fin n} {w : Worker F}
    (holds : Holds c text s) (worker : t.worker = (s.setWorker i w).worker)
    (here : ∀ f rest, w.pc = .reporting f rest → w.currentEntries = c.find f text []) :
    ∀ k f rest, (t.worker k).pc = .reporting f rest → (t.worker k).currentEntries = c.find f text [] := by
  intro k f rest pc
  rw [worker] at pc ⊢
  by_cases same : k = i
  · subst k
    rw [setWorker_same] at pc ⊢
    exact here f rest pc
  · rw [setWorker_other _ same] at pc ⊢
    exact holds.found k f rest pc

/-- What a thread does for itself. -/
theorem Holds.setWorker {c : Collection n F} {text : String} {s t : Search n F} {i : Fin n} {w : Worker F}
    (holds : Holds c text s) (worker : t.worker = (s.setWorker i w).worker) (ui : t.ui = s.ui)
    (same : w.searchText = (s.worker i).searchText)
    (here : ∀ f rest, w.pc = .reporting f rest → w.currentEntries = c.find f text [])
    (conserved : 0 < t.search → (∀ t, s.ui ≠ .clearing t) →
      (↑(t.results.map Prod.snd) + ∑ i, ↑(c.hits text (t.unreported i)) : Multiset (Row F)) =
        ∑ i, ↑(c.hits text (c.files i))) : Holds c text t := by
  have found := holds.setWorker_found worker here
  obtain ⟨named,told,telling,_,_⟩ := holds
  have texts (k : Fin n) : (t.worker k).searchText = (s.worker k).searchText := by
    rw [worker]
    by_cases this : k = i
    · subst k
      simpa using same
    · rw [setWorker_other _ this]
  refine ⟨by rwa [ui],fun k outside => ?_,fun entered k rest pc => ?_,found,?_⟩
  · rw [texts]
    exact told k (ui ▸ outside)
  · rw [texts]
    exact telling entered k rest (ui ▸ pc)
  · simpa only [ui] using conserved

theorem step_holds {c : Collection n F} {text : String} {s t : Search n F} {a : Action n} (fresh : c.Fresh)
    (valid : Invariant c s) (holds : Holds c text s) (taken : step c s a = some t) :
    Holds c (a.searched text) t := by
  have before := holds
  obtain ⟨named,told,telling,found,conserved⟩ := holds
  cases step_stepped taken with
  | moved a ui moves =>
    rw [searched_of_step taken rfl]
    have kept : toRun s.ui = [] ∧ UiPc.text? ui = none ∧ (∀ t, s.ui ≠ .clearing t) ∧
        ∀ t i rest, ui ≠ .flagging t i rest := by
      rcases moves with ⟨_,pc,rfl⟩ | ⟨pc,rfl⟩ | ⟨entered,pc,rfl⟩ | ⟨_,pc,rfl⟩
      · refine ⟨by simp [pc,toRun],?_,by simp [pc],?_⟩ <;> split <;> simp [UiPc.text?]
      all_goals simp [pc,toRun,UiPc.text?]
    obtain ⟨none,nameless,uncleared,apart⟩ := kept
    refine ⟨by simp [nameless],fun i _ => told i (by simp [none]),?_,found,fun searching _ => ?_⟩
    · exact fun entered i rest pc => absurd pc (apart entered i rest)
    · exact conserved searching uncleared
  | started entered pc long =>
    have searched : Action.searched text (.findText entered : Action n) = entered := by
      simp [Action.searched,Nat.not_lt.mpr long]
    rw [searched]
    refine ⟨by simp [UiPc.text?],?_,by simp,fun i f rest reporting => ?_,?_⟩
    · exact fun i outside => absurd (List.mem_finRange i) outside
    · obtain ⟨_,_,left,_⟩ := (valid.tracks i).reporting reporting
      simp [valid.enabled pc i] at left
    · exact fun _ uncleared => absurd rfl (uncleared entered)
  | cleared entered pc =>
    have all : toRun s.ui = List.finRange n := by simp [pc,toRun]
    have same : entered = text := named entered (by simp [pc,UiPc.text?])
    have whole (i : Fin n) : s.unreported i = c.files i :=
      ((valid.tracks i).before (.inl (all ▸ List.mem_finRange i))).2
    refine ⟨?_,fun i outside => told i (all ▸ outside),by simp,found,fun _ _ => ?_⟩
    · simpa [UiPc.text?,Action.searched] using same
    · simp [whole,Action.searched]
  | texted entered i rest pc =>
    have all : toRun s.ui = i :: rest := by simp [pc]
    have same : entered = text := named entered (by simp [pc,UiPc.text?])
    refine ⟨?_,fun k outside => ?_,?_,before.setWorker_found rfl (found i),?_⟩
    · simpa [UiPc.text?,Action.searched] using same
    · have other : k ≠ i := fun equal => outside (by simp [equal])
      change ((s.setWorker i _).worker k).searchText = _
      rw [setWorker_other _ other]
      exact told k (all ▸ outside)
    · rintro _ _ _ ⟨⟩
      simpa [Action.searched] using same
    · exact fun searching _ => conserved searching (by simp [pc])
  | flagged entered i rest pc =>
    have all : toRun s.ui = i :: rest := by simp [pc]
    have same : entered = text := named entered (by simp [pc,UiPc.text?])
    refine ⟨?_,fun k outside => ?_,by simp,before.setWorker_found rfl (found i),?_⟩
    · simpa [UiPc.text?,Action.searched] using same
    · by_cases this : k = i
      · subst k
        simpa [Action.searched] using telling entered i rest pc
      · change ((s.setWorker i _).worker k).searchText = _
        rw [setWorker_other _ this]
        exact told k (by simpa [all,this] using outside)
    · exact fun searching _ => conserved searching (by simp [pc])
  | woken i pc flag => exact before.setWorker rfl rfl rfl (by simp) conserved
  | found i f rest pc =>
    refine before.setWorker rfl rfl rfl ?_ conserved
    rintro _ _ ⟨⟩
    have outside : i ∉ toRun s.ui := fun inside => by
      simpa [pc,WorkerPc.rest] using ((valid.tracks i).before (.inl inside)).1
    dsimp only
    rw [told i outside,fresh]
  | reported i f rest rows pc =>
    refine before.setWorker rfl rfl rfl (by simp) fun searching uncleared => ?_
    obtain ⟨_,_,left,current⟩ := (valid.tracks i).reporting pc
    have added := reported_rows pc taken
    rw [added,found i f rest pc,← Multiset.coe_add,← conserved searching uncleared,
      sum_hits c text s.unreported left,add_assoc]
    simp [current,left]
  | ended i pc => exact before.setWorker rfl rfl rfl (by simp) conserved

theorem run_holds {c : Collection n F} {text : String} {s t : Search n F} {actions : List (Action n)}
    (fresh : c.Fresh) (countable : Countable c) (reached : Reachable (step c) start s) (holds : Holds c text s)
    (ran : run (step c) s actions = some t) : Holds c (actions.foldl Action.searched text) t := by
  induction actions generalizing s text with
  | nil =>
    cases ran
    exact holds
  | cons a rest ih =>
    obtain ⟨next,taken,later⟩ := Option.bind_eq_some_iff.mp ran
    have valid := reachable_invariant countable reached
    exact ih (reached.extend taken) (step_holds fresh valid holds taken) later

/-- The table of a search that is under way: the rows of the files that were reported, in any order. -/
theorem results_perm {c : Collection n F} (fresh : c.Fresh) (countable : Countable c)
    {actions : List (Action n)} {s : Search n F} (ran : run (step c) start actions = some s)
    (searching : 0 < s.search) (uncleared : ∀ text, s.ui ≠ .clearing text) :
    ∃ reported : Fin n → List DatabaseFile, (∀ i, c.files i = reported i ++ s.unreported i) ∧
      (s.results.map Prod.snd).Perm
        ((List.finRange n).flatMap fun i => c.hits (latest actions) (reported i)) := by
  have valid := reachable_invariant countable (reachable_of_run ran)
  have holds : Holds c (latest actions) s := run_holds fresh countable .start (start_holds c) ran
  choose reported parts using fun i => valid.suffix i
  refine ⟨reported,fun i => (parts i).symm,?_⟩
  have split (i : Fin n) : (↑(c.hits (latest actions) (c.files i)) : Multiset (Row F)) =
      ↑(c.hits (latest actions) (reported i)) + ↑(c.hits (latest actions) (s.unreported i)) := by
    rw [← parts i,Collection.hits,List.flatMap_append,Multiset.coe_add]
    rfl
  have conserved := holds.conserved searching uncleared
  rw [Finset.sum_congr rfl fun i _ => split i,Finset.sum_add_distrib] at conserved
  rw [← Multiset.coe_eq_coe,← sum_coe]
  exact add_right_cancel conserved

/-! ## Every search ends -/

/-- The action is none of the user's. -/
def Action.Continues : Action n → Prop
  | .findText _ => False
  | .nextFrame => False
  | _ => True

def pcLeft : WorkerPc → Nat
  | .waiting => 0
  | .looping rest => 2 * rest.length + 1
  | .reporting _ rest => 2 * rest.length + 2

/-- The actions of a thread from its start to its end. -/
def work (c : Collection n F) (i : Fin n) : Nat := 2 * (c.files i).length + 2

def uiLeft (c : Collection n F) : UiPc n → Nat
  | .polling => 2
  | .enabled => 1
  | .clearing _ => ((List.finRange n).map fun i => work c i + 2).sum + 2
  | .running _ rest => (rest.map fun i => work c i + 2).sum + 1
  | .flagging _ i rest => (rest.map fun i => work c i + 2).sum + work c i + 2
  | .drawn => 0

def workerLeft (c : Collection n F) (i : Fin n) (w : Worker F) : Nat :=
  pcLeft w.pc + if w.shouldStart then work c i else 0

/-- A bound on the actions until the user does something. -/
def measure (c : Collection n F) (s : Search n F) : Nat := uiLeft c s.ui + ∑ i, workerLeft c i (s.worker i)

theorem measure_setWorker {c : Collection n F} {s t : Search n F} {i : Fin n} {w : Worker F}
    (worker : t.worker = (s.setWorker i w).worker)
    (less : uiLeft c t.ui + workerLeft c i w < uiLeft c s.ui + workerLeft c i (s.worker i)) :
    measure c t < measure c s := by
  have moved := sum_update (workerLeft c) s.worker i w
  unfold measure
  rw [worker]
  change (∑ k, workerLeft c k ((s.setWorker i w).worker k)) + _ = _ at moved
  omega

theorem step_measure {c : Collection n F} {s t : Search n F} {a : Action n} (continues : a.Continues)
    (taken : step c s a = some t) : measure c t < measure c s := by
  cases step_stepped taken with
  | moved a ui moves =>
    have less : uiLeft c ui < uiLeft c s.ui := by
      rcases moves with ⟨_,pc,rfl⟩ | ⟨pc,rfl⟩ | ⟨entered,pc,rfl⟩ | ⟨rfl,_⟩
      · split <;> simp [pc,uiLeft]
      · simp [pc,uiLeft]
      · simp [pc,uiLeft]
      · exact continues.elim
    unfold measure
    dsimp only
    omega
  | started entered pc long => exact continues.elim
  | cleared entered pc =>
    simp only [measure,pc,uiLeft]
    omega
  | texted entered i rest pc =>
    refine measure_setWorker (i := i) (by rfl) ?_
    simp only [pc,uiLeft,workerLeft,List.map_cons,List.sum_cons]
    omega
  | flagged entered i rest pc =>
    refine measure_setWorker (i := i) (by rfl) ?_
    simp only [pc,uiLeft,workerLeft,if_true]
    omega
  | woken i pc flag =>
    refine measure_setWorker (i := i) (by rfl) ?_
    simp [setWorker,workerLeft,pc,flag,pcLeft,work]
  | found i f rest pc =>
    refine measure_setWorker (i := i) (by rfl) ?_
    simp only [setWorker,workerLeft,pc,pcLeft,List.length_cons]
    omega
  | reported i f rest rows pc =>
    refine measure_setWorker (i := i) (by rfl) ?_
    simp [setWorker,workerLeft,pc,pcLeft]
  | ended i pc =>
    refine measure_setWorker (i := i) (by rfl) ?_
    simp [setWorker,workerLeft,pc,pcLeft]

/-- Nothing is left to do for any thread. -/
structure Quiet (s : Search n F) : Prop where
  ui : s.ui = .drawn
  workers : ∀ i, (s.worker i).pc = .waiting ∧ (s.worker i).shouldStart = false

/-- Threads that are all waiting have reported everything. -/
theorem Quiet.unreported {c : Collection n F} {s : Search n F} (quiet : Quiet s) (valid : Invariant c s)
    (i : Fin n) : s.unreported i = [] := by
  obtain ⟨waiting,unflagged⟩ := quiet.workers i
  rw [(valid.tracks i).after (by simp [quiet.ui,toRun]) unflagged,waiting]
  rfl

/-- Whatever the interleaving, a search without failing files has the hits of the files that were reported in
its table, and the hits of all files, each once, when it is finished. -/
theorem table_has_hits (c : Collection n F) (fresh : c.Fresh) (countable : Countable c)
    (actions : List (Action n)) (s : Search n F) (ran : run (step c) start actions = some s)
    (searching : 0 < s.search) (uncleared : ∀ text, s.ui ≠ .clearing text) :
    (∃ reported : Fin n → List DatabaseFile, (∀ i, c.files i = reported i ++ s.unreported i) ∧
      (s.results.map Prod.snd).Perm
        ((List.finRange n).flatMap fun i => c.hits (latest actions) (reported i))) ∧
    (s.isFinished = true → (s.results.map Prod.snd).Perm
      ((List.finRange n).flatMap fun i => c.hits (latest actions) (c.files i))) := by
  obtain ⟨reported,parts,rows⟩ := results_perm fresh countable ran searching uncleared
  refine ⟨⟨reported,parts,rows⟩,fun finished => ?_⟩
  have valid := reachable_invariant countable (reachable_of_run ran)
  have done := (valid.exact countable).finished.mp finished
  have all (i : Fin n) : c.files i = reported i := by rw [parts,done,List.append_nil]
  simpa only [all] using rows

/-- Two threads with a file each, of which only the first has the text. -/
def twoThreads : Collection 2 Int where
  files i := if i = 0 then [⟨"a.db","a.mp4",100⟩] else [⟨"b.db","b.mp4",50⟩]
  recordings := twoRecordings
  find f text _ := if f.databasePath = text then [⟨5,text,0,0,9,9,90⟩] else []

theorem twoThreads_countable : Countable twoThreads := by
  constructor
  · decide
  · decide

/-- The second thread is the faster one. -/
theorem table_has_hits_witness : ∃ s : Search 2 Int, run (step twoThreads) start
      [.poll,.findText "a.db",.clear,.setText,.setShouldStart,.setText,.setShouldStart,.wake 1,.findInFile 1,
        .decrementRemainingSize 1,.wake 0,.findInFile 0,.decrementRemainingSize 0] = some s ∧
    s.isFinished = true ∧ (s.results.map Prod.snd).Perm [twoRecordings.row "a.mp4" ⟨5,"a.db",0,0,9,9,90⟩] := by
  obtain ⟨s,ran,ui,search,finished⟩ : ∃ s : Search 2 Int, run (step twoThreads) start
      [.poll,.findText "a.db",.clear,.setText,.setShouldStart,.setText,.setShouldStart,.wake 1,.findInFile 1,
        .decrementRemainingSize 1,.wake 0,.findInFile 0,.decrementRemainingSize 0] = some s ∧
      s.ui = .running "a.db" [] ∧ s.search = 1 ∧ s.isFinished = true := ⟨_,rfl,rfl,rfl,by decide +kernel⟩
  have all := (table_has_hits twoThreads (fun _ _ _ => rfl) twoThreads_countable _ s ran (by simp [search])
    (by simp [ui])).2 finished
  exact ⟨s,ran,finished,all⟩

end Search

end OcrSuite.Viewer
