import OcrSuite.Viewer

/-! The frame that is shown and the tree it was taken from. -/
namespace OcrSuite.Viewer

open Transition

variable {n : Nat} {F : Type}

namespace Tree

theorem minute?_eq_some {t : Tree F} {owner : Option Pointer} {minute : Minute F}
    (found : t.minute? owner = some minute) :
    ∃ d h m, owner = some ⟨t.generation,[d,h,m]⟩ ∧ t.minuteAt d h m = some minute := by
  match owner with
  | some ⟨generation,[d,h,m]⟩ =>
    simp only [Tree.minute?,Option.ite_none_right_eq_some] at found
    exact ⟨d,h,m,by rw [found.1],found.2⟩
  | none | some ⟨_,[]⟩ | some ⟨_,[_]⟩ | some ⟨_,[_,_]⟩ | some ⟨_,_ :: _ :: _ :: _ :: _⟩ =>
    simp [Tree.minute?] at found

theorem setCurrentFrame_eq {t : Tree F} {f g : Frame F} (set : t.setCurrentFrame f = some g) :
    g = f := by
  simp only [setCurrentFrame,Option.bind_eq_bind,Option.bind_eq_some_iff,Option.some.injEq] at set
  obtain ⟨_,_,_,_,_,_,same⟩ := set
  exact same.symm

namespace Rooted

variable {t : Tree F} {f : Frame F} (rooted : t.Rooted f)
include rooted

theorem has : t.Has f := by
  obtain ⟨_,_,minute,owner,_,_,_,_,_,there⟩ := rooted
  obtain ⟨d,h,m,_,place⟩ := minute?_eq_some owner
  exact ⟨d,h,m,f.ownerIdx,by simp [frameAt,place,there]⟩

/-- The owner of a frame in a tree is a pointer into it. -/
theorem generation : ∃ path, f.owner = some ⟨t.generation,path⟩ := by
  obtain ⟨_,_,minute,owner,_⟩ := rooted
  obtain ⟨d,h,m,same,_⟩ := minute?_eq_some owner
  exact ⟨[d,h,m],same⟩

end Rooted

end Tree

namespace Views

/-- The current frame's owners are in the tree that is shown, and all jumps go to frames. -/
def Navigable (s : Views n F) : Prop := ∀ f, s.currentFrame = some f →
  s.tree.Rooted f ∧ ∀ shift key, (s.tree.jump shift key f).isSome

/-- The tree is not built anew while a frame of it is shown. -/
def KeepsTree (s : Views n F) (a : Action n F) : Prop :=
  ∀ rows, a = .sortResults rows → s.currentFrame = none

theorem navigable_of_has {s : Views n F} (indexed : s.tree.Indexed)
    (inside : ∀ f, s.currentFrame = some f → s.tree.Has f) : s.Navigable := by
  intro f current
  obtain ⟨_,_,_,_,_,_,_,way⟩ := Tree.way_of_has (inside f current)
  refine ⟨way.rooted indexed,fun shift key => ?_⟩
  obtain ⟨g,jumped,_⟩ := indexed.jump shift key (inside f current)
  simp [jumped]

variable [DecidableEq F]

theorem reachable_indexed {c : Collection n F} {s : Views n F} (reached : Reachable (step c) start s) :
    s.tree.Indexed := by
  refine reached.invariant (P := fun s => s.tree.Indexed) ?_ fun s a t _ indexed _ taken => ?_
  · constructor <;> simp [start,Tree.hourAt,Tree.minuteAt,Tree.frameAt]
  · cases step_stepped taken with
    | sorted rows pc selected => exact Tree.ofRows_indexed _ _ _
    | _ => exact indexed

theorem step_navigable {c : Collection n F} {s t : Views n F} {a : Action n F}
    (indexed : s.tree.Indexed) (indexed' : t.tree.Indexed) (navigable : s.Navigable)
    (taken : step c s a = some t) : t.Navigable ↔ s.KeepsTree a := by
  cases step_stepped taken with
  | searched a search inner other => exact iff_of_true navigable (by simp [KeepsTree])
  | polled pc ui => exact iff_of_true navigable (by simp [KeepsTree])
  | sorted rows pc selected =>
    constructor
    · intro later rows' same
      by_contra frame
      obtain ⟨f,current⟩ := Option.ne_none_iff_exists'.mp frame
      obtain ⟨_,before⟩ := (navigable f current).1.generation
      obtain ⟨_,after⟩ := (later f current).1.generation
      simp [before,Tree.ofRows] at after
    · intro keeps f current
      have none : s.currentFrame = none := keeps rows rfl
      cases none.symm.trans current
  | clicked d h m i loaded finished f g pc there set =>
    refine iff_of_true (navigable_of_has indexed ?_) (by simp [KeepsTree])
    rintro f' current
    obtain rfl := Option.some.inj current
    obtain rfl := Tree.setCurrentFrame_eq set
    exact ⟨d,h,m,i,there⟩
  | ended finished pc => exact iff_of_true navigable (by simp [KeepsTree])
  | drawn key loaded finished search pc inner => exact iff_of_true navigable (by simp [KeepsTree])
  | jumped shift key loaded finished search current g pc inner found jump =>
    refine iff_of_true (navigable_of_has indexed ?_) (by simp [KeepsTree])
    rintro f' current'
    obtain rfl := Option.some.inj current'
    obtain ⟨g',jumped,there⟩ := indexed.jump shift key (navigable current found).1.has
    obtain rfl := Option.some.inj (jump.symm.trans jumped)
    exact there

/-- The frame that was clicked after the first search points into a tree that the second has
replaced. -/
theorem frame_outlives_tree : ¬ ∀ (c : Collection 1 Int) (s : Views 1 Int),
    Reachable (step c) start s → s.Navigable := by
  intro claim
  obtain ⟨s,ran,tree,owner⟩ : ∃ s, run (step oneHit) start (showHit "abc" ++
      [.click 0 0 0 0 true,.endResults,.drawFrame none false] ++ showHit "abcd") = some s ∧
      s.tree.generation = 2 ∧ s.currentFrame.map Frame.owner = some (some ⟨1,[0,0,0]⟩) := ⟨_,rfl,rfl,rfl⟩
  obtain ⟨f,current,old⟩ := Option.map_eq_some_iff.mp owner
  obtain ⟨path,new⟩ := (claim oneHit s (reachable_of_run ran) f current).1.generation
  simp [tree,old] at new

/-- In every state of a run navigation starts inside the tree, exactly if no results are sorted
once a frame was chosen. -/
theorem navigable_iff_keepsTree (c : Collection n F) {actions : List (Action n F)}
    {final : Views n F} (ran : run (step c) start actions = some final) :
    Throughout (step c) Navigable start actions ↔ StepsMeet (step c) KeepsTree start actions := by
  refine throughout_iff_stepsMeet ?_ (fun s a t reached navigable taken => ?_) ran
  · exact fun f current => by cases current
  · have indexed := reachable_indexed reached.reachable
    exact step_navigable indexed (reachable_indexed (reached.reachable.extend taken)) navigable taken

/-- One search, one click and one jump. -/
theorem navigable_iff_keepsTree_witness :
    let actions := showHit "abc" ++
      [.click 0 0 0 0 true,.endResults,.drawFrame (some (false,.downArrow)) true]
    ∃ final, run (step oneHit) start actions = some final ∧ final.currentFrame.isSome ∧
      (Throughout (step oneHit) Navigable start actions ↔
        StepsMeet (step oneHit) KeepsTree start actions) := by
  intro actions
  obtain ⟨final,ran,chosen⟩ : ∃ final, run (step oneHit) start actions = some final ∧
      final.currentFrame.isSome := ⟨_,rfl,rfl⟩
  exact ⟨final,ran,chosen,navigable_iff_keepsTree oneHit ran⟩

end Views

end OcrSuite.Viewer
