import OcrSuite.Navigation
import OcrSuite.Search

/-! One frame of the viewer after the other: the search view, the view of the results, which polls
the search and builds the tree anew when it finds it finished, and the view of a frame. The
search's threads run all the time. -/
namespace OcrSuite.Viewer

open Transition

variable {n : Nat} {F : Type}

/-- Where `viewer::draw` is. From the poll to the end of the draw the value of `is_finished()`
is kept. -/
inductive DrawPc where
  | searchView
  | sorting
  | listing (finished : Bool)
  | frameView (finished : Bool)
  deriving DecidableEq

/-- `polled` is the search at the last poll of `search_results_view::draw`. -/
structure Views (n : Nat) (F : Type) where
  search : Search n F
  isFinished : Bool
  tree : Tree F
  currentFrame : Option (Frame F)
  textureLoaded : Bool
  pc : DrawPc
  polled : Nat

instance [DecidableEq F] (table rows : List (Row F)) : Decidable (Selected table rows) :=
  inferInstanceAs (Decidable (_ ∧ _))

namespace Views

inductive Action (n : Nat) (F : Type) where
  | search (a : Search.Action n)
  | drawResults
  | sortResults (rows : List (Row F))
  | click (d h m i : Nat) (loaded : Bool)
  | endResults
  | drawFrame (key : Option (Bool × JumpKey)) (loaded : Bool)

def start : Views n F := ⟨.start,true,⟨0,[]⟩,none,false,.searchView,0⟩

/-- The search view is drawn by the steps of the search itself, which has none for the UI thread
once it is `drawn`. A frame that cannot be loaded has no texture and takes no keys. -/
def step [DecidableEq F] (c : Collection n F) (s : Views n F) : Action n F → Option (Views n F)
  | .search .nextFrame => none
  | .search a => (s.search.step c a).map fun search => { s with search := search }
  | .drawResults =>
    match s.pc,s.search.ui with
    | .searchView,.drawn =>
      let finished := s.search.isFinished
      if finished && !s.isFinished then
        some { s with isFinished := true, pc := .sorting, polled := s.search.search }
      else if !finished && s.isFinished then
        some { s with isFinished := false, pc := .listing finished, polled := s.search.search }
      else some { s with pc := .listing finished, polled := s.search.search }
    | _,_ => none
  | .sortResults rows =>
    match s.pc with
    | .sorting =>
      if Selected (s.search.results.map Prod.snd) rows then
        some { s with tree := .ofRows c.recordings (s.tree.generation + 1) rows, pc := .listing true }
      else none
    | _ => none
  | .click d h m i loaded =>
    match s.pc with
    | .listing _ => do
      let frame ← s.tree.frameAt d h m i
      some { s with currentFrame := some (← s.tree.setCurrentFrame frame), textureLoaded := loaded }
    | _ => none
  | .endResults =>
    match s.pc with
    | .listing finished => some { s with pc := .frameView finished }
    | _ => none
  | .drawFrame key loaded =>
    match s.pc with
    | .frameView _ => do
      let search ← s.search.step c .nextFrame
      let after := { s with search := search, pc := .searchView }
      match key,s.currentFrame,s.textureLoaded with
      | some (shift,key),some current,true =>
        some { after with currentFrame := some (← s.tree.jump shift key current), textureLoaded := loaded }
      | _,_,_ => some after
    | _ => none

/-- The tree is the one that `sort_results` builds from the results of the last search. -/
def Follows (c : Collection n F) (s : Views n F) : Prop :=
  ∃ rows, Selected s.search.found rows ∧
    s.tree.days = sortResults c.recordings s.tree.generation rows

/-- The views find a search finished only when its files are all reported, and the results view does
not find one finished that was started after its last poll, at which it found one finished, too. -/
def Noticed (s : Views n F) : Action n F → Prop
  | .search .poll => s.search.isFinished = true → ∀ i, s.search.unreported i = []
  | .drawResults => s.search.isFinished = true →
    (∀ i, s.search.unreported i = []) ∧ (s.isFinished = true → s.polled = s.search.search)
  | _ => True

instance (s : Views n F) : (a : Action n F) → Decidable (s.Noticed a)
  | .search .poll | .drawResults => inferInstanceAs (Decidable (_ → _))
  | .search .leave | .search (.findText _) | .search .clear | .search .setText
  | .search .setShouldStart | .search .finishFindText | .search .nextFrame | .search (.wake _)
  | .search (.findInFile _) | .search (.decrementRemainingSize _) | .search (.finishWork _)
  | .sortResults _ | .click .. | .endResults | .drawFrame _ _ => .isTrue trivial

/-! ## The steps -/

inductive Stepped (c : Collection n F) (s : Views n F) : Action n F → Views n F → Prop where
  | searched (a : Search.Action n) (search : Search n F) : s.search.step c a = some search →
      a ≠ .nextFrame → Stepped c s (.search a) { s with search := search }
  | polled : s.pc = .searchView → s.search.ui = .drawn →
      Stepped c s .drawResults { s with
        isFinished := s.search.isFinished
        pc := if s.search.isFinished && !s.isFinished then .sorting else .listing s.search.isFinished
        polled := s.search.search }
  | sorted (rows : List (Row F)) : s.pc = .sorting → Selected (s.search.results.map Prod.snd) rows →
      Stepped c s (.sortResults rows) { s with
        tree := .ofRows c.recordings (s.tree.generation + 1) rows, pc := .listing true }
  | clicked (d h m i : Nat) (loaded finished : Bool) (f g : Frame F) : s.pc = .listing finished →
      s.tree.frameAt d h m i = some f → s.tree.setCurrentFrame f = some g →
      Stepped c s (.click d h m i loaded) { s with
        currentFrame := some g, textureLoaded := loaded, pc := .listing finished }
  | ended (finished : Bool) : s.pc = .listing finished →
      Stepped c s .endResults { s with pc := .frameView finished }
  | drawn (key : Option (Bool × JumpKey)) (loaded finished : Bool) (search : Search n F) :
      s.pc = .frameView finished → s.search.step c .nextFrame = some search →
      Stepped c s (.drawFrame key loaded) { s with search := search, pc := .searchView }
  | jumped (shift : Bool) (key : JumpKey) (loaded finished : Bool) (search : Search n F)
      (current g : Frame F) : s.pc = .frameView finished → s.search.step c .nextFrame = some search →
      s.currentFrame = some current → s.tree.jump shift key current = some g →
      Stepped c s (.drawFrame (some (shift,key)) loaded) { s with
        search := search, pc := .searchView, currentFrame := some g, textureLoaded := loaded }

theorem step_stepped [DecidableEq F] {c : Collection n F} {s t : Views n F} {a : Action n F}
    (taken : step c s a = some t) : Stepped c s a t := by
  cases a with
  | search a =>
    by_cases last : a = .nextFrame
    · subst a
      simp [step] at taken
    · have inner : (s.search.step c a).map (fun search => { s with search := search }) = some t := by
        cases a <;> simp_all [step]
      obtain ⟨search,next,rfl⟩ := Option.map_eq_some_iff.mp inner
      exact .searched a search next last
  | drawResults =>
    cases pc : s.pc with
    | searchView =>
      cases ui : s.search.ui with
      | drawn =>
        have same : t = { s with
            isFinished := s.search.isFinished
            pc := if s.search.isFinished && !s.isFinished then .sorting else .listing s.search.isFinished
            polled := s.search.search } := by
          cases now : s.search.isFinished <;> cases before : s.isFinished <;>
            simp [step,pc,ui,now,before] at taken ⊢ <;> exact taken.symm
        subst t
        exact .polled pc ui
      | _ => simp [step,pc,ui] at taken
    | _ => simp [step,pc] at taken
  | sortResults rows =>
    cases pc : s.pc with
    | sorting =>
      simp only [step,pc,Option.ite_none_right_eq_some,Option.some.injEq] at taken
      obtain ⟨selected,rfl⟩ := taken
      exact .sorted rows pc selected
    | _ => simp [step,pc] at taken
  | click d h m i loaded =>
    cases pc : s.pc with
    | listing finished =>
      simp only [step,pc,Option.bind_eq_bind,Option.bind_eq_some_iff,Option.some.injEq] at taken
      obtain ⟨f,there,g,set,rfl⟩ := taken
      exact .clicked d h m i loaded finished f g pc there set
    | _ => simp [step,pc] at taken
  | endResults =>
    cases pc : s.pc with
    | listing finished =>
      simp only [step,pc,Option.some.injEq] at taken
      subst t
      exact .ended finished pc
    | _ => simp [step,pc] at taken
  | drawFrame key loaded =>
    cases pc : s.pc with
    | frameView finished =>
      simp only [step,pc,Option.bind_eq_bind,Option.bind_eq_some_iff] at taken
      obtain ⟨search,next,taken⟩ := taken
      split at taken
      · rename_i shift key current found _
        simp only [Option.bind_eq_some_iff,Option.some.injEq] at taken
        obtain ⟨g,jump,rfl⟩ := taken
        exact .jumped shift key loaded finished search current g pc next found jump
      · obtain rfl := Option.some.inj taken
        exact .drawn _ loaded finished search pc next
    | _ => simp [step,pc] at taken

/-- The last poll found the last search finished. -/
def Settled (s : Views n F) : Prop := s.isFinished = true ∧ s.polled = s.search.search

/-- Between the poll and the end of the draw, or after it. -/
def Showing : DrawPc → Prop
  | .searchView => False
  | .sorting => True
  | .listing finished | .frameView finished => finished = true

structure Kept (c : Collection n F) (s : Views n F) : Prop where
  search : Search.Invariant c s.search
  polled : s.polled ≤ s.search.search
  drawn : s.pc ≠ .searchView → s.search.ui = .drawn
  showing : Showing s.pc → s.Settled
  reported : s.Settled → (∀ i, s.search.unreported i = []) ∧ ∀ text, s.search.ui ≠ .clearing text
  follows : s.Settled → s.pc ≠ .sorting → Follows c s

theorem start_kept (c : Collection n F) : Kept c start where
  search := Search.start_invariant c
  polled := Nat.le_refl 0
  drawn := by simp [start]
  showing := by simp [start,Showing]
  reported _ := ⟨fun _ => rfl,by simp [start,Search.start]⟩
  follows _ _ := ⟨[],⟨List.Perm.nil,List.Pairwise.nil⟩,rfl⟩

/-- A step of the search after which it is still the one that the last poll found finished. -/
theorem Kept.settled_step {c : Collection n F} {s : Views n F} {next : Search n F}
    {a : Search.Action n} (kept : Kept c s) (inner : s.search.step c a = some next)
    (finished : s.isFinished = true) (same : s.polled = next.search) :
    s.Settled ∧ next.found = s.search.found ∧ (∀ i, next.unreported i = []) ∧
      ∀ text, next.ui ≠ .clearing text := by
  have later := Search.step_search inner
  have polled := kept.polled
  have number : next.search = s.search.search := by omega
  have settled : s.Settled := ⟨finished,same.trans number⟩
  obtain ⟨all,cleared⟩ := kept.reported settled
  rcases Search.step_reported kept.search all cleared inner with more | ⟨_,results,unreported,ui⟩
  · omega
  · exact ⟨settled,by simp [Search.found,number,results],fun i => by simp [unreported,all],ui⟩

theorem Kept.nextFrame {c : Collection n F} {s : Views n F} {next : Search n F} {finished : Bool}
    (kept : Kept c s) (total : ∑ i, sizes (c.files i) < 2 ^ 64) (pc : s.pc = .frameView finished)
    (inner : s.search.step c .nextFrame = some next) (current : Option (Frame F)) (loaded : Bool) :
    Kept c { s with
      search := next, pc := .searchView, currentFrame := current, textureLoaded := loaded } := by
  refine ⟨Search.step_invariant kept.search total (by simp) inner,kept.polled.trans ?_,by simp,
    fun now => absurd now id,?_,?_⟩
  · exact Search.step_search inner
  · rintro ⟨finished,same⟩
    exact (kept.settled_step inner finished same).2.2
  · rintro ⟨finished,same⟩ _
    obtain ⟨settled,found,_⟩ := kept.settled_step inner finished same
    simpa only [Follows,found] using kept.follows settled (by simp [pc])

theorem step_kept [DecidableEq F] {c : Collection n F} {s t : Views n F} {a : Action n F}
    (total : ∑ i, sizes (c.files i) < 2 ^ 64) (kept : Kept c s) (noticed : s.Noticed a)
    (taken : step c s a = some t) : Kept c t := by
  cases step_stepped taken with
  | searched a next inner other =>
    refine ⟨Search.step_invariant kept.search total (by rintro rfl; exact noticed) inner,
      kept.polled.trans (Search.step_search inner),
      fun inside => (Search.step_drawn (kept.drawn inside) other inner).1,fun now => ?_,?_,?_⟩
    · have inside : s.pc ≠ .searchView := fun pc => by simp [Showing,pc] at now
      have same := (Search.step_drawn (kept.drawn inside) other inner).2
      exact ⟨(kept.showing now).1,(kept.showing now).2.trans same.symm⟩
    · rintro ⟨finished,same⟩
      exact (kept.settled_step inner finished same).2.2
    · rintro ⟨finished,same⟩ pc
      obtain ⟨settled,found,_⟩ := kept.settled_step inner finished same
      simpa only [Follows,found] using kept.follows settled pc
  | polled pc ui =>
    refine ⟨kept.search,Nat.le_refl _,fun _ => ui,fun now => ⟨?_,rfl⟩,?_,?_⟩
    · by_contra unfinished
      simp [Showing,unfinished] at now
    · rintro ⟨finished,_⟩
      exact ⟨(noticed finished).1,by simp [ui]⟩
    · rintro ⟨finished,_⟩ unsorted
      by_cases before : s.isFinished = true
      · exact kept.follows ⟨before,(noticed finished).2 before⟩ (by simp [pc])
      · have now : s.search.isFinished = true := finished
        simp [now,before] at unsorted
  | sorted rows pc selected =>
    have settled : s.Settled := kept.showing (by simp [Showing,pc])
    have drawn := kept.drawn (by simp [pc])
    refine ⟨kept.search,kept.polled,fun _ => drawn,fun _ => settled,kept.reported,fun _ _ => ?_⟩
    refine ⟨rows,?_,rfl⟩
    rwa [Search.found_of_current (kept.search.current (kept.reported settled).2)]
  | clicked d h m i loaded finished f g pc there set =>
    have drawn := kept.drawn (by simp [pc])
    refine ⟨kept.search,kept.polled,fun _ => drawn,fun now => ?_,kept.reported,fun settled _ => ?_⟩
    · exact kept.showing (pc ▸ now)
    · exact kept.follows settled (by simp [pc])
  | ended finished pc =>
    have drawn := kept.drawn (by simp [pc])
    refine ⟨kept.search,kept.polled,fun _ => drawn,fun now => ?_,kept.reported,fun settled _ => ?_⟩
    · exact kept.showing (pc ▸ now)
    · exact kept.follows settled (by simp [pc])
  | drawn key loaded finished next pc inner =>
    exact kept.nextFrame total pc inner s.currentFrame s.textureLoaded
  | jumped shift key loaded finished next current g pc inner found jump =>
    exact kept.nextFrame total pc inner (some g) loaded

/-- One database, in which every search has one hit. -/
def oneHit : Collection 1 Int where
  files _ := [⟨"2023-03-11 10-00-00.db","2023-03-11 10-00-00.mp4",8⟩]
  recordings := twoRecordings
  find _ _ _ := [⟨5,"abc",0,0,9,9,90⟩]

/-- A search that is over in the second frame, up to the sorting of its hit. -/
def showHit (text : String) : List (Action 1 Int) :=
  [.search .poll,.search (.findText text),.search .clear,.search .setText,.search .setShouldStart,
    .search .finishFindText,.drawResults,.endResults,.drawFrame none false,.search (.wake 0),
    .search (.findInFile 0),.search (.decrementRemainingSize 0),.search (.finishWork 0),.search .poll,
    .search .leave,.drawResults,
    .sortResults [twoRecordings.row "2023-03-11 10-00-00.mp4" ⟨5,"abc",0,0,9,9,90⟩]]

/-- The only hit of a search that is over before the results view polls it is never shown. -/
theorem short_search_unshown : ¬ ∀ (c : Collection 1 Int) (s : Views 1 Int),
    Reachable (step c) start s → s.pc = .frameView true → Follows c s := by
  intro claim
  obtain ⟨s,ran,pc,tree,found⟩ : ∃ s, run (step oneHit) start
      [.search .poll,.search (.findText "abc"),.search .clear,.search .setText,.search .setShouldStart,
        .search (.wake 0),.search (.findInFile 0),.search (.decrementRemainingSize 0),
        .search .finishFindText,.drawResults,.endResults] = some s ∧
      s.pc = .frameView true ∧ s.tree = ⟨0,[]⟩ ∧ s.search.found.length = 1 := ⟨_,rfl,rfl,rfl,rfl⟩
  obtain ⟨rows,selected,days⟩ := claim oneHit s (reachable_of_run ran) pc
  obtain ⟨row,rfl⟩ := List.length_eq_one_iff.mp (selected.1.length_eq.trans found)
  rw [tree] at days
  have one : (sortResults oneHit.recordings 0 [row]).length = 1 := by
    simp [sortResults,assignOwners,Grouping.Level.nodes,Grouping.Level.closeLast,
      Grouping.Level.continueLast]
  rw [← days] at one
  cases one

/-- After a draw of the results view that found the search finished, its tree is that of the last
search, if the views find searches finished only when all is reported, and none that was started
after a poll that found one finished, too. -/
theorem results_follow_search [DecidableEq F] (c : Collection n F) (s : Views n F)
    (total : ∑ i, sizes (c.files i) < 2 ^ 64)
    (reached : ReachableUnder (step c) (fun s a => s.Noticed a) start s)
    (drawn : s.pc = .frameView true) : Follows c s := by
  have kept : Kept c s := reached.invariant (start_kept c) fun _ _ _ _ kept noticed taken =>
    step_kept total kept noticed taken
  exact kept.follows (kept.showing (by simp [Showing,drawn])) (by simp [drawn])

/-- The hit is shown when the results view polls the search once before it is over. -/
theorem results_follow_search_witness : ∃ s : Views 1 Int, s.pc = .frameView true ∧
    s.tree.days.length = 1 ∧ Follows oneHit s := by
  obtain ⟨s,ran,pc,days⟩ : ∃ s,
      run (fun s a => if s.Noticed a then step oneHit s a else none) start
        (showHit "abc" ++ [.endResults]) = some s ∧
      s.pc = .frameView true ∧ s.tree.days.length = 1 := ⟨_,rfl,rfl,rfl⟩
  exact ⟨s,pc,days,results_follow_search oneHit s (by decide) (reachableUnder_of_run ran) pc⟩

end Views

end OcrSuite.Viewer
