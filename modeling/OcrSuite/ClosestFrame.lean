import Mathlib.Data.Nat.Log
import Mathlib.Tactic.IntervalCases
import OcrSuite.Decoder

/-! The search for the closest frame that can be sought: how many seeks it makes and to which frames,
and where it ends if what can be sought is a beginning of the file. -/
namespace OcrSuite

variable {φ : Type}

/-- The frame of the last seek that succeeded. -/
def Input.lastSought (s : Input φ) : Option Int := (s.tried.find? Prod.snd).map Prod.fst

namespace Decoder

variable {V : Type} [Mul V] [Div V] [IntCast V] [Arithmetic V] {d : Decoder V} {seek : SeekFile φ} {s t u : Input φ}

/-! ## The seeks between two states -/

/-- From the one state to the other no more than `count` seeks were made, to frames of an interval. -/
def Sought (first last : Int) (count : Nat) (s t : Input φ) : Prop :=
  ∃ sought, t.tried = sought ++ s.tried ∧ sought.length ≤ count ∧
    ∀ call ∈ sought, first ≤ call.1 ∧ call.1 ≤ last

theorem tried_of_seek {n : Int} {worked : Bool} (seeks : d.seekToFrame seek n s = (t,worked)) :
    t.tried = (n,worked) :: s.tried := by
  unfold seekToFrame at seeks
  split at seeks
  all_goals
    obtain ⟨rfl,rfl⟩ := Prod.mk.inj seeks
    rfl

section Sought

variable {first last : Int} {count more : Nat}

theorem sought_of_seek {n : Int} {worked : Bool} (seeks : d.seekToFrame seek n s = (t,worked))
    (lower : first ≤ n) (upper : n ≤ last) : Sought first last 1 s t :=
  ⟨[(n,worked)],tried_of_seek seeks,le_rfl,by simpa using ⟨lower,upper⟩⟩

theorem Sought.trans (before : Sought first last count s t) (after : Sought first last more t u) :
    Sought first last (count + more) s u := by
  obtain ⟨early,tried,short,within⟩ := before
  obtain ⟨late,tried',short',within'⟩ := after
  refine ⟨late ++ early,by rw [tried',tried,List.append_assoc],?_,fun call member => ?_⟩
  · rw [List.length_append]
    omega
  · exact (List.mem_append.mp member).elim (within' call) (within call)

theorem Sought.mono (sought : Sought first last count s t) (le : count ≤ more) :
    Sought first last more s t := by
  obtain ⟨calls,tried,short,within⟩ := sought
  exact ⟨calls,tried,short.trans le,within⟩

end Sought

/-- What remains of an interval after a seek to its middle has a smaller logarithm. -/
theorem clog_half {width part : Nat} (wide : 2 ≤ width) (le : part ≤ (width + 1) / 2) :
    Nat.clog 2 part + 1 ≤ Nat.clog 2 width := by
  rw [Nat.clog_of_two_le (by decide) wide]
  exact Nat.succ_le_succ (Nat.clog_mono_right 2 le)

/-- A search makes no more than two seeks for each time that its interval can be halved and two more,
all of them in the interval or to the frame that worked before. -/
theorem seekToClosestFrame_sought {first last : Int} (minFrame maxFrame lastWorking : Int) (s : Input φ)
    (lower : first ≤ minFrame) (ordered : minFrame ≤ maxFrame) (upper : maxFrame ≤ last)
    (working : first ≤ lastWorking ∧ lastWorking ≤ last) :
    Sought first last (2 * Nat.clog 2 (maxFrame - minFrame).toNat + 2) s
      (d.seekToClosestFrame seek minFrame maxFrame lastWorking s) := by
  fun_induction seekToClosestFrame d seek minFrame maxFrame lastWorking s with
  | case1 => exact (sought_of_seek rfl working.1 working.2).mono (by omega)
  | case2 minFrame maxFrame lastWorking s _ next found =>
    exact (sought_of_seek found (by omega) upper).mono (by omega)
  | case3 minFrame maxFrame lastWorking s _ next failed =>
    have one : Sought first last 1 s next := sought_of_seek failed (by omega) upper
    exact (one.trans (sought_of_seek rfl working.1 working.2)).mono (by omega)
  | case4 minFrame maxFrame lastWorking s _ next failed middle inside later found ih =>
    have half := tdiv_two (maxFrame - minFrame)
    have between : minFrame ≤ middle ∧ middle ≤ maxFrame := by omega
    have halved : Nat.clog 2 (maxFrame - middle).toNat + 1 ≤ Nat.clog 2 (maxFrame - minFrame).toNat :=
      clog_half (by omega) (by omega)
    have one : Sought first last 1 s next := sought_of_seek failed (by omega) upper
    have two := one.trans (sought_of_seek found (by omega) (by omega))
    exact (two.trans (ih (by omega) between.2 upper (by omega))).mono (by omega)
  | case5 minFrame maxFrame lastWorking s _ next failed middle inside later found ih =>
    have half := tdiv_two (maxFrame - minFrame)
    have between : minFrame ≤ middle ∧ middle ≤ maxFrame := by omega
    have halved : Nat.clog 2 (middle - minFrame).toNat + 1 ≤ Nat.clog 2 (maxFrame - minFrame).toNat :=
      clog_half (by omega) (by omega)
    have one : Sought first last 1 s next := sought_of_seek failed (by omega) upper
    have two := one.trans (sought_of_seek found (by omega) (by omega))
    exact (two.trans (ih lower between.1 (by omega) working)).mono (by omega)

/-! ## Where the search ends -/

/-- Seeks to the frames up to `reach` succeed, and those to the later ones fail. -/
def SeeksUpTo (d : Decoder V) (seek : SeekFile φ) (start reach : Int) : Prop :=
  ∀ n s, 0 ≤ n → n ≤ start → (d.seekToFrame seek n s).2 = decide (n ≤ reach)

theorem lastSought_of_seek {n : Int} (seeks : d.seekToFrame seek n s = (t,true)) :
    t.lastSought = some n := by
  simp [Input.lastSought,tried_of_seek seeks]

/-- The lower end of the interval is the last frame that worked, the upper end is not reached. -/
theorem seekToClosestFrame_lastSought {start reach : Int} (seeks : SeeksUpTo d seek start reach)
    (minFrame maxFrame lastWorking : Int) (s : Input φ) (nonneg : 0 ≤ minFrame)
    (ordered : minFrame ≤ maxFrame) (upper : maxFrame ≤ start) (working : lastWorking = minFrame)
    (reached : minFrame ≤ reach) :
    (d.seekToClosestFrame seek minFrame maxFrame lastWorking s).lastSought =
      some (min maxFrame reach) := by
  have outcome (n : Int) (s : Input φ) (lower : 0 ≤ n) (le : n ≤ start) :
      d.seekToFrame seek n s = ((d.seekToFrame seek n s).1,decide (n ≤ reach)) :=
    Prod.ext rfl (seeks n s lower le)
  fun_induction seekToClosestFrame d seek minFrame maxFrame lastWorking s with
  | case1 minFrame lastWorking s =>
    have zero : lastWorking = 0 := by omega
    have works := outcome 0 s le_rfl (by omega)
    rw [decide_eq_true (by omega : 0 ≤ reach)] at works
    rw [zero,lastSought_of_seek works,min_eq_left (by omega)]
  | case2 minFrame maxFrame lastWorking s _ next found =>
    have within : maxFrame ≤ reach := by
      have works := outcome maxFrame s (by omega) upper
      simpa [found] using works
    rw [lastSought_of_seek found,min_eq_left within]
  | case3 minFrame maxFrame lastWorking s _ next failed narrow =>
    have half := tdiv_two (maxFrame - minFrame)
    have beyond : reach < maxFrame := by
      have works := outcome maxFrame s (by omega) upper
      simpa [failed] using works
    have works := outcome lastWorking next (by omega) (by omega)
    rw [decide_eq_true (by omega : lastWorking ≤ reach)] at works
    rw [lastSought_of_seek works,min_eq_right beyond.le]
    exact congrArg some (by omega)
  | case4 minFrame maxFrame lastWorking s _ next failed middle inside later found ih =>
    have half := tdiv_two (maxFrame - minFrame)
    have within : middle ≤ reach := by
      have works := outcome middle next (by omega) (by omega)
      simpa [found] using works
    exact ih (by omega) (by omega) upper rfl within
  | case5 minFrame maxFrame lastWorking s _ next failed middle inside later found ih =>
    have half := tdiv_two (maxFrame - minFrame)
    have beyond : reach < middle := by
      have works := outcome middle next (by omega) (by omega)
      simpa [found] using works
    rw [ih nonneg (by omega) (by omega) working reached,min_eq_right beyond.le,min_eq_right (by omega)]

/-- The search for the starting frame comes to an end after a few seeks between frame 0 and that one,
whatever seeks succeed. Of the frames of a beginning it arrives at the last one that is wanted. -/
theorem closest_frame_sought (d : Decoder V) (seek : SeekFile φ) (packets : List (Packet φ)) {start : Int}
    (nonneg : 0 ≤ start) :
    let t := d.seekToClosestFrame seek 0 start 0 ⟨packets,[]⟩
    t.tried.length ≤ 2 * Nat.clog 2 start.toNat + 2 ∧
    (∀ call ∈ t.tried, 0 ≤ call.1 ∧ call.1 ≤ start) ∧
    ∀ reach, 0 ≤ reach → SeeksUpTo d seek start reach → t.lastSought = some (min start reach) := by
  intro t
  obtain ⟨sought,tried,short,within⟩ : Sought 0 start (2 * Nat.clog 2 (start - 0).toNat + 2)
      ⟨packets,[]⟩ t := seekToClosestFrame_sought 0 start 0 _ le_rfl nonneg le_rfl ⟨le_rfl,nonneg⟩
  rw [List.append_nil] at tried
  rw [Int.sub_zero,← tried] at short
  rw [← tried] at within
  refine ⟨short,within,fun reach reached seeks => ?_⟩
  exact seekToClosestFrame_lastSought seeks 0 start 0 _ le_rfl nonneg le_rfl rfl reached

/-- Of 25 frames a second the first four can be sought, and the sixth is wanted. -/
theorem closest_frame_sought_witness :
    let seek : SeekFile Unit := fun sought => if sought.head?.all (· ≤ 120) then some [] else none
    let d : Decoder Binary64 := ⟨7,5,avQ2d 25 1,avQ2d 1 1000⟩
    (d.seekToClosestFrame seek 0 5 0 ⟨[],[]⟩).lastSought = some 3 := by
  intro seek d
  have seeks : SeeksUpTo d seek 5 3 := by
    intro n s nonneg le
    have time : d.frameNumberToTimestamp n = 40 * n := by
      interval_cases n <;> decide +kernel
    simp only [seekToFrame,List.map_cons,time,seek,List.head?_cons,Option.all_some,decide_eq_true_eq]
    by_cases early : n ≤ 3
    · simp [early,show 40 * n ≤ 120 by omega]
    · simp [early,show ¬ 40 * n ≤ 120 by omega]
  exact (closest_frame_sought _ seek [] (by decide)).2.2 3 (by decide) seeks

end Decoder

end OcrSuite
