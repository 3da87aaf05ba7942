import OcrSuite.DatabaseStore

/-! The checkpoint behind its cache: one static variable of the process stands before the
checkpoints of all the databases that the process has open, and starts anew with each process. -/
namespace OcrSuite

open Transition

variable {δ F R : Type}

/-- Databases on different files and the process that has them open. `given` are the frame
numbers that have been passed to any of them since the process started. -/
structure Databases (δ R : Type) where
  stores : δ → Store R
  maxFrameNumber : Int
  given : List Int

namespace Databases

inductive Action (δ F : Type) where
  | store (d : δ) (result : OcrResult F) (fault : Option Nat)
  | storeLastFrameNumber (d : δ) (frameNum : Int)
  | restart

/-- The database and the frame number of a call. -/
def Action.call : Action δ F → Option (δ × Int)
  | .store d result _ => some (d,result.frameNumber)
  | .storeLastFrameNumber d frameNum => some (d,frameNum)
  | .restart => none

/-- A process has just started on databases that are there. -/
def start (stores : δ → Store R) : Databases δ R := ⟨stores,-1,[]⟩

def process (s : Databases δ R) (d : δ) : Process R := ⟨s.stores d,s.maxFrameNumber⟩

def checkpoint (s : Databases δ R) (d : δ) : Int := (s.stores d).lastProcessedFrame

variable [DecidableEq δ]

def called (s : Databases δ R) (d : δ) (frameNum : Int) (p : Process R) : Databases δ R :=
  ⟨Function.update s.stores d p.store,p.maxFrameNumber,frameNum :: s.given⟩

def step (driver : Driver F R) (s : Databases δ R) : Action δ F → Option (Databases δ R)
  | .store d result fault =>
    let checked := (s.process d).storeLastFrameNumber result.frameNumber
    some (s.called d result.frameNumber
      (if result.entries.isEmpty then checked else (checked.storeEntries driver result fault).1))
  | .storeLastFrameNumber d frameNum =>
    some (s.called d frameNum ((s.process d).storeLastFrameNumber frameNum))
  | .restart => some { s with maxFrameNumber := -1, given := [] }

/-- A call raises the checkpoint of its own database and leaves the others alone. -/
def Lawful (driver : Driver F R) (s : Databases δ R) (a : Action δ F) : Prop :=
  ∀ t, step driver s a = some t → ∀ d n, a.call = some (d,n) →
    t.checkpoint d = max (s.checkpoint d) n ∧ ∀ e, e ≠ d → t.stores e = s.stores e

/-- A number above -1 and all that the process was given before is not below the checkpoint of
its database, and any other number is not above it. -/
def InOrder (s : Databases δ R) (a : Action δ F) : Prop :=
  ∀ d n, a.call = some (d,n) →
    ((∀ m ∈ -1 :: s.given, m < n) → s.checkpoint d ≤ n) ∧
    ((∃ m ∈ -1 :: s.given, n ≤ m) → n ≤ s.checkpoint d)

/-- The insertion of a result does not touch the checkpoint. -/
theorem storeEntries_lastProcessedFrame (driver : Driver F R) (s : Store R) (result : OcrResult F)
    (fault : Option Nat) : (s.storeEntries driver result fault).1.lastProcessedFrame =
      s.lastProcessedFrame := by
  unfold Store.storeEntries
  split
  · rfl
  · refine Script.attempt_invariant (P := fun db : Store R =>
      db.lastProcessedFrame = s.lastProcessedFrame) ?_ rfl fault
    intro statement member db db' same executed
    obtain ⟨entry,_,inside⟩ : ∃ entry ∈ result.entries,
        statement ∈ Store.storeEntry driver result.frameNumber entry := by
      simpa [Store.storeScript,Script.transaction] using member
    simp only [Store.storeEntry,List.mem_cons,List.not_mem_nil,or_false] at inside
    rcases inside with rfl | rfl
    · obtain rfl := Option.some.inj executed
      exact same
    · obtain ⟨tables,_,rfl⟩ := Option.map_eq_some_iff.mp executed
      exact same

/-- What a call does: the static variable decides whether the number becomes the checkpoint. -/
theorem step_call {driver : Driver F R} {s t : Databases δ R} {a : Action δ F} {d : δ} {n : Int}
    (call : a.call = some (d,n)) (taken : step driver s a = some t) :
    t.given = n :: s.given ∧ (∀ e, e ≠ d → t.stores e = s.stores e) ∧
    t.maxFrameNumber = max s.maxFrameNumber n ∧
    t.checkpoint d = if n ≤ s.maxFrameNumber then s.checkpoint d else n := by
  have raised : ((s.process d).storeLastFrameNumber n).maxFrameNumber = max s.maxFrameNumber n ∧
      ((s.process d).storeLastFrameNumber n).store.lastProcessedFrame =
        if n ≤ s.maxFrameNumber then s.checkpoint d else n := by
    unfold Process.storeLastFrameNumber process checkpoint
    by_cases low : n ≤ s.maxFrameNumber
    · have below : s.maxFrameNumber = max s.maxFrameNumber n := by omega
      simp only [low,if_true]
      exact ⟨below,trivial⟩
    · have above : n = max s.maxFrameNumber n := by omega
      simpa [low] using above
  cases a with
  | restart => simp [Action.call] at call
  | storeLastFrameNumber d' n' =>
    obtain ⟨rfl,rfl⟩ : d' = d ∧ n' = n := by simpa [Action.call] using call
    obtain rfl := Option.some.inj taken
    refine ⟨rfl,fun e other => by simp [called,other],raised.1,?_⟩
    simpa [called,checkpoint] using raised.2
  | store d' result fault =>
    obtain ⟨rfl,rfl⟩ : d' = d ∧ result.frameNumber = n := by simpa [Action.call] using call
    obtain rfl := Option.some.inj taken
    refine ⟨rfl,fun e other => by simp [called,other],?_,?_⟩
    · rw [← raised.1]
      simp only [called]
      split <;> rfl
    · rw [← raised.2]
      simp only [called,checkpoint,Function.update_self]
      split
      · rfl
      · exact storeEntries_lastProcessedFrame driver _ result fault

/-- The static variable is the largest number that the process was given. -/
structure Cached (s : Databases δ R) : Prop where
  bound : ∀ m ∈ -1 :: s.given, m ≤ s.maxFrameNumber
  attained : s.maxFrameNumber ∈ -1 :: s.given

omit [DecidableEq δ] in
theorem Cached.le_iff {s : Databases δ R} (cached : Cached s) (n : Int) :
    (∃ m ∈ -1 :: s.given, n ≤ m) ↔ n ≤ s.maxFrameNumber := by
  constructor
  · rintro ⟨m,member,le⟩
    exact Int.le_trans le (cached.bound m member)
  · exact fun le => ⟨_,cached.attained,le⟩

omit [DecidableEq δ] in
theorem Cached.lt_iff {s : Databases δ R} (cached : Cached s) (n : Int) :
    (∀ m ∈ -1 :: s.given, m < n) ↔ ¬ n ≤ s.maxFrameNumber := by
  simp [← cached.le_iff n]

theorem reachable_cached {driver : Driver F R} {stores : δ → Store R} {s : Databases δ R}
    (reached : Reachable (step driver) (start stores) s) : Cached s := by
  refine reached.invariant ⟨by simp [start],by simp [start]⟩ ?_
  intro s a t _ cached _ taken
  cases call : a.call with
  | none =>
    cases a with
    | restart =>
      obtain rfl := Option.some.inj taken
      exact ⟨by simp,by simp⟩
    | _ => simp [Action.call] at call
  | some target =>
    obtain ⟨given,_,max,_⟩ := step_call call taken
    refine ⟨fun m member => ?_,?_⟩
    · rw [max]
      rcases List.mem_cons.mp member with rfl | member
      · exact Int.le_trans (cached.bound (-1) List.mem_cons_self) (Int.le_max_left _ _)
      · rw [given] at member
        rcases List.mem_cons.mp member with rfl | earlier
        · exact Int.le_max_right _ _
        · exact Int.le_trans (cached.bound m (List.mem_cons_of_mem _ earlier)) (Int.le_max_left _ _)
    · rw [given,max]
      rcases Int.le_total s.maxFrameNumber target.2 with le | le
      · simp [Int.max_eq_right le]
      · rw [Int.max_eq_left le]
        have := cached.attained
        simp only [List.mem_cons] at this ⊢
        tauto

/-- The restarted process moves the checkpoint back from 7 to 3, and the number that one database
gets freezes the checkpoint of the other. -/
theorem checkpoint_moves_back_or_freezes :
    ¬ StepsMeet (step (F := Int) Driver.exact) (Lawful Driver.exact)
      (start fun _ : Unit => Store.fresh) [.storeLastFrameNumber () 7,.restart,.storeLastFrameNumber () 3] ∧
    ¬ StepsMeet (step (F := Int) Driver.exact) (Lawful Driver.exact)
      (start fun _ : Bool => Store.fresh) [.storeLastFrameNumber false 7,.storeLastFrameNumber true 3] := by
  constructor
  · intro claim
    obtain ⟨s,t,ran,taken,before,after⟩ : ∃ s t : Databases Unit Int,
        run (step Driver.exact) (start fun _ => Store.fresh) [.storeLastFrameNumber () 7,.restart] = some s ∧
        step Driver.exact s (.storeLastFrameNumber () 3) = some t ∧
        s.checkpoint () = 7 ∧ t.checkpoint () = 3 := ⟨_,_,rfl,rfl,rfl,rfl⟩
    have raised := (claim _ _ s List.prefix_rfl ran t taken () 3 rfl).1
    rw [before,after] at raised
    exact absurd raised (by decide)
  · intro claim
    obtain ⟨s,t,ran,taken,before,after⟩ : ∃ s t : Databases Bool Int,
        run (step Driver.exact) (start fun _ => Store.fresh) [.storeLastFrameNumber false 7] = some s ∧
        step Driver.exact s (.storeLastFrameNumber true 3) = some t ∧
        s.checkpoint true = 0 ∧ t.checkpoint true = 0 := ⟨_,_,rfl,rfl,rfl,rfl⟩
    have raised := (claim _ _ s List.prefix_rfl ran t taken true 3 rfl).1
    rw [before,after] at raised
    exact absurd raised (by decide)

/-- Every call of a run raises the checkpoint of its own database, and no other, exactly if
every number comes in order. -/
theorem checkpoints_monotone_iff (driver : Driver F R) (stores : δ → Store R)
    (actions : List (Action δ F)) :
    StepsMeet (step driver) (Lawful driver) (start stores) actions ↔
      StepsMeet (step driver) InOrder (start stores) actions := by
  refine stepsMeet_congr fun s a reached => ?_
  have cached := reachable_cached reached
  constructor
  · intro lawful d n call
    obtain ⟨t,taken⟩ : ∃ t, step driver s a = some t := by cases a <;> exact ⟨_,rfl⟩
    obtain ⟨_,_,_,checkpoint⟩ := step_call call taken
    have raised := (lawful t taken d n call).1
    rw [checkpoint] at raised
    rw [cached.lt_iff,cached.le_iff]
    split at raised
    case isTrue low => exact ⟨fun high => absurd low high,fun _ => by omega⟩
    case isFalse high => exact ⟨fun _ => by omega,fun low => absurd low high⟩
  · intro inOrder t taken d n call
    obtain ⟨_,others,_,checkpoint⟩ := step_call call taken
    have order := inOrder d n call
    rw [cached.lt_iff,cached.le_iff] at order
    refine ⟨?_,others⟩
    rw [checkpoint]
    split
    case isTrue low => exact (Int.max_eq_left (order.2 low)).symm
    case isFalse high => exact (Int.max_eq_right (order.1 high)).symm

end Databases

end OcrSuite
