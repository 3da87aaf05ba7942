import OcrSuite.Document
import OcrSuite.ResultTree

/-! The jumps of the frame view: from the owners of a copied frame through the tree of results to
another of its frames. A pointer into an earlier tree is dangling, an index out of range and a
dangling pointer give no frame. -/
namespace OcrSuite.Viewer

open Grouping

variable {F : Type}

structure Tree (F : Type) where
  generation : Nat
  days : List (Day F)

/-- `shift` is the state of the key that `jump_to_next_hour` and `jump_to_previous_hour` look at. -/
inductive JumpKey where
  | upArrow
  | downArrow
  | leftArrow
  | rightArrow
  | pageUp
  | pageDown
  deriving DecidableEq

def Hour.frames (hour : Hour F) : List (Frame F) := hour.minutes.flatMap Minute.frames

def Day.frames (day : Day F) : List (Frame F) := day.hours.flatMap Hour.frames

namespace Tree

def frames (t : Tree F) : List (Frame F) := t.days.flatMap Day.frames

def hourAt (t : Tree F) (d h : Nat) : Option (Hour F) := t.days[d]?.bind fun day => day.hours[h]?

def minuteAt (t : Tree F) (d h m : Nat) : Option (Minute F) :=
  (t.hourAt d h).bind fun hour => hour.minutes[m]?

def frameAt (t : Tree F) (d h m i : Nat) : Option (Frame F) :=
  (t.minuteAt d h m).bind fun minute => minute.frames[i]?

def day? (t : Tree F) : Option Pointer → Option (Day F)
  | some ⟨generation,[d]⟩ => if generation = t.generation then t.days[d]? else none
  | _ => none

def hour? (t : Tree F) : Option Pointer → Option (Hour F)
  | some ⟨generation,[d,h]⟩ => if generation = t.generation then t.hourAt d h else none
  | _ => none

def minute? (t : Tree F) : Option Pointer → Option (Minute F)
  | some ⟨generation,[d,h,m]⟩ => if generation = t.generation then t.minuteAt d h m else none
  | _ => none

/-- The owners are followed for the window's title. -/
def setCurrentFrame (t : Tree F) (f : Frame F) : Option (Frame F) := do
  let minute ← t.minute? f.owner
  let hour ← t.hour? minute.owner
  let _ ← t.day? hour.owner
  some f

def jumpToNextDay (t : Tree F) (current : Frame F) : Option (Frame F) := do
  let minute ← t.minute? current.owner
  let hour ← t.hour? minute.owner
  let day ← t.day? hour.owner
  if day.ownerIdx + 1 = t.days.length then
    let lastDay ← t.days[t.days.length - 1]?
    let lastHour ← lastDay.hours[lastDay.hours.length - 1]?
    let lastMinute ← lastHour.minutes[lastHour.minutes.length - 1]?
    t.setCurrentFrame (← lastMinute.frames[lastMinute.frames.length - 1]?)
  else
    let nextDay ← t.days[day.ownerIdx + 1]?
    let firstHour ← nextDay.hours[0]?
    let firstMinute ← firstHour.minutes[0]?
    t.setCurrentFrame (← firstMinute.frames[0]?)

def jumpToPreviousDay (t : Tree F) (current : Frame F) : Option (Frame F) := do
  let minute ← t.minute? current.owner
  let hour ← t.hour? minute.owner
  let day ← t.day? hour.owner
  if day.ownerIdx = 0 then
    let firstDay ← t.days[0]?
    let firstHour ← firstDay.hours[0]?
    let firstMinute ← firstHour.minutes[0]?
    t.setCurrentFrame (← firstMinute.frames[0]?)
  else
    let prevDay ← t.days[day.ownerIdx - 1]?
    let lastHour ← prevDay.hours[prevDay.hours.length - 1]?
    let lastMinute ← lastHour.minutes[lastHour.minutes.length - 1]?
    t.setCurrentFrame (← lastMinute.frames[lastMinute.frames.length - 1]?)

def jumpToNextHour (t : Tree F) (shift : Bool) (current : Frame F) : Option (Frame F) :=
  if shift then t.jumpToNextDay current
  else do
    let minute ← t.minute? current.owner
    let hour ← t.hour? minute.owner
    let day ← t.day? hour.owner
    if hour.ownerIdx + 1 = day.hours.length then t.jumpToNextDay current
    else
      let nextHour ← day.hours[hour.ownerIdx + 1]?
      let firstMinute ← nextHour.minutes[0]?
      t.setCurrentFrame (← firstMinute.frames[0]?)

def jumpToPreviousHour (t : Tree F) (shift : Bool) (current : Frame F) : Option (Frame F) :=
  if shift then t.jumpToPreviousDay current
  else do
    let minute ← t.minute? current.owner
    let hour ← t.hour? minute.owner
    let day ← t.day? hour.owner
    if hour.ownerIdx = 0 then t.jumpToPreviousDay current
    else
      let prevHour ← day.hours[hour.ownerIdx - 1]?
      let lastMinute ← prevHour.minutes[prevHour.minutes.length - 1]?
      t.setCurrentFrame (← lastMinute.frames[lastMinute.frames.length - 1]?)

def jumpToNextMinute (t : Tree F) (shift : Bool) (current : Frame F) : Option (Frame F) := do
  let minute ← t.minute? current.owner
  let hour ← t.hour? minute.owner
  if minute.ownerIdx + 1 = hour.minutes.length then t.jumpToNextHour shift current
  else
    let nextMinute ← hour.minutes[minute.ownerIdx + 1]?
    t.setCurrentFrame (← nextMinute.frames[0]?)

def jumpToPreviousMinute (t : Tree F) (shift : Bool) (current : Frame F) : Option (Frame F) := do
  let minute ← t.minute? current.owner
  let hour ← t.hour? minute.owner
  if minute.ownerIdx = 0 then t.jumpToPreviousHour shift current
  else
    let prevMinute ← hour.minutes[minute.ownerIdx - 1]?
    t.setCurrentFrame (← prevMinute.frames[prevMinute.frames.length - 1]?)

def jumpToNextFrame (t : Tree F) (shift : Bool) (current : Frame F) : Option (Frame F) := do
  let minute ← t.minute? current.owner
  if current.ownerIdx + 1 = minute.frames.length then t.jumpToNextMinute shift current
  else t.setCurrentFrame (← minute.frames[current.ownerIdx + 1]?)

def jumpToPreviousFrame (t : Tree F) (shift : Bool) (current : Frame F) : Option (Frame F) := do
  let minute ← t.minute? current.owner
  if current.ownerIdx = 0 then t.jumpToPreviousMinute shift current
  else t.setCurrentFrame (← minute.frames[current.ownerIdx - 1]?)

/-- `handle_jump_hotkeys`. -/
def jump (t : Tree F) (shift : Bool) : JumpKey → Frame F → Option (Frame F)
  | .upArrow => t.jumpToPreviousFrame shift
  | .downArrow => t.jumpToNextFrame shift
  | .leftArrow => t.jumpToPreviousMinute shift
  | .rightArrow => t.jumpToNextMinute shift
  | .pageUp => t.jumpToPreviousHour shift
  | .pageDown => t.jumpToNextHour shift

/-- The frame's owners are nodes of the tree, at the positions that they say. -/
def Rooted (t : Tree F) (f : Frame F) : Prop :=
  ∃ day hour minute, t.minute? f.owner = some minute ∧ t.hour? minute.owner = some hour ∧
    t.day? hour.owner = some day ∧ t.days[day.ownerIdx]? = some day ∧
    day.hours[hour.ownerIdx]? = some hour ∧ hour.minutes[minute.ownerIdx]? = some minute ∧
    minute.frames[f.ownerIdx]? = some f

/-! ## Trees whose nodes know their places -/

structure Indexed (t : Tree F) : Prop where
  day : ∀ {d : Nat} {day : Day F}, t.days[d]? = some day → day.ownerIdx = d ∧ day.hours ≠ []
  hour : ∀ {d h : Nat} {hour : Hour F}, t.hourAt d h = some hour →
    hour.ownerIdx = h ∧ hour.owner = some ⟨t.generation,[d]⟩ ∧ hour.minutes ≠ []
  minute : ∀ {d h m : Nat} {minute : Minute F}, t.minuteAt d h m = some minute →
    minute.ownerIdx = m ∧ minute.owner = some ⟨t.generation,[d,h]⟩ ∧ minute.frames ≠ []
  frame : ∀ {d h m i : Nat} {f : Frame F}, t.frameAt d h m i = some f →
    f.ownerIdx = i ∧ f.owner = some ⟨t.generation,[d,h,m]⟩

def Has (t : Tree F) (f : Frame F) : Prop := ∃ d h m i, t.frameAt d h m i = some f

/-- The nodes on the way to a frame of the tree. -/
structure Way (t : Tree F) (f : Frame F) (d h m i : Nat) (day : Day F) (hour : Hour F)
    (minute : Minute F) : Prop where
  atDay : t.days[d]? = some day
  atHour : day.hours[h]? = some hour
  atMinute : hour.minutes[m]? = some minute
  atFrame : minute.frames[i]? = some f

theorem way_of_has {t : Tree F} {f : Frame F} (inside : t.Has f) :
    ∃ d h m i day hour minute, t.Way f d h m i day hour minute := by
  obtain ⟨d,h,m,i,found⟩ := inside
  obtain ⟨minute,atMinute,frame⟩ := Option.bind_eq_some_iff.mp found
  obtain ⟨hour,atHour,minute_⟩ := Option.bind_eq_some_iff.mp atMinute
  obtain ⟨day,atDay,hour_⟩ := Option.bind_eq_some_iff.mp atHour
  exact ⟨d,h,m,i,day,hour,minute,atDay,hour_,minute_,frame⟩

namespace Way

variable {t : Tree F} {f : Frame F} {d h m i : Nat} {day : Day F} {hour : Hour F} {minute : Minute F}

theorem hourAt (way : t.Way f d h m i day hour minute) : t.hourAt d h = some hour := by
  simp [Tree.hourAt,way.atDay,way.atHour]

theorem minuteAt (way : t.Way f d h m i day hour minute) : t.minuteAt d h m = some minute := by
  simp [Tree.minuteAt,way.hourAt,way.atMinute]

theorem frameAt (way : t.Way f d h m i day hour minute) : t.frameAt d h m i = some f := by
  simp [Tree.frameAt,way.minuteAt,way.atFrame]

theorem has (way : t.Way f d h m i day hour minute) : t.Has f := ⟨d,h,m,i,way.frameAt⟩

variable (indexed : t.Indexed) (way : t.Way f d h m i day hour minute)
include indexed way

theorem minute? : t.minute? f.owner = some minute := by
  simp [Tree.minute?,(indexed.frame way.frameAt).2,way.minuteAt]

theorem hour? : t.hour? minute.owner = some hour := by
  simp [Tree.hour?,(indexed.minute way.minuteAt).2.1,way.hourAt]

theorem day? : t.day? hour.owner = some day := by
  simp [Tree.day?,(indexed.hour way.hourAt).2.1,way.atDay]

theorem setCurrentFrame : t.setCurrentFrame f = some f := by
  simp [Tree.setCurrentFrame,way.minute? indexed,way.hour? indexed,way.day? indexed]

theorem rooted : t.Rooted f := by
  refine ⟨day,hour,minute,way.minute? indexed,way.hour? indexed,way.day? indexed,?_,?_,?_,?_⟩
  · rw [(indexed.day way.atDay).1,way.atDay]
  · rw [(indexed.hour way.hourAt).1,way.atHour]
  · rw [(indexed.minute way.minuteAt).1,way.atMinute]
  · rw [(indexed.frame way.frameAt).1,way.atFrame]

end Way

/-- The first position of a list, or its last one. -/
def endOf {α : Type} (last : Bool) (xs : List α) : Nat := if last then xs.length - 1 else 0

theorem getElem?_endOf {α : Type} (last : Bool) (xs : List α) :
    xs[endOf last xs]? = if last then xs.getLast? else xs.head? := by
  cases last <;> simp [endOf,List.getLast?_eq_getElem?,List.head?_eq_getElem?]

theorem exists_endOf {α : Type} (last : Bool) {xs : List α} (nonempty : xs ≠ []) :
    ∃ x, xs[endOf last xs]? = some x := by
  have positive := List.length_pos_iff.mpr nonempty
  have bound : endOf last xs < xs.length := by
    unfold endOf
    split <;> omega
  exact ⟨_,List.getElem?_eq_getElem bound⟩

/-- The first of the first is the first of all, and so is the last. -/
theorem endOf_flatMap {α β : Type} {last : Bool} {xs : List α} {below : α → List β} {x : α} {y : β}
    (outer : xs[endOf last xs]? = some x) (inner : (below x)[endOf last (below x)]? = some y) :
    (xs.flatMap below)[endOf last (xs.flatMap below)]? = some y := by
  rw [getElem?_endOf] at outer inner ⊢
  cases last with
  | false =>
    rw [List.head?_eq_getElem?] at outer
    simpa using Document.head?_flatMap_drop outer inner
  | true =>
    obtain ⟨front,rfl⟩ := List.getLast?_eq_some_iff.mp outer
    simp only [if_true] at inner
    simp [inner]

/-- The frames of all later days, the shift key skips the later hours of the day. -/
def afterDay (t : Tree F) (d : Nat) : List (Frame F) := (t.days.drop (d + 1)).flatMap Day.frames

def afterHour (t : Tree F) (shift : Bool) (day : Day F) (d h : Nat) : List (Frame F) :=
  (if shift then [] else (day.hours.drop (h + 1)).flatMap Hour.frames) ++ t.afterDay d

def beforeDay (t : Tree F) (d : Nat) : List (Frame F) := (t.days.take d).flatMap Day.frames

def beforeHour (t : Tree F) (shift : Bool) (day : Day F) (d h : Nat) : List (Frame F) :=
  t.beforeDay d ++ if shift then [] else (day.hours.take h).flatMap Hour.frames

/-- A jump arrives at a place, and a frame of the tree is there. -/
def Lands (t : Tree F) (jump place : Option (Frame F)) : Prop :=
  ∃ g, place = some g ∧ jump = some g ∧ t.Has g

namespace Indexed

variable {t : Tree F} (indexed : t.Indexed)
include indexed

theorem enter {d h m i : Nat} {minute : Minute F} {g : Frame F}
    (atMinute : t.minuteAt d h m = some minute) (atFrame : minute.frames[i]? = some g) :
    t.setCurrentFrame g = some g ∧ t.Has g := by
  have inside : t.Has g := ⟨d,h,m,i,by simp [Tree.frameAt,atMinute,atFrame]⟩
  obtain ⟨_,_,_,_,_,_,_,way⟩ := way_of_has inside
  exact ⟨way.setCurrentFrame indexed,inside⟩

theorem enterMinute (last : Bool) {d h m : Nat} {minute : Minute F}
    (atMinute : t.minuteAt d h m = some minute) :
    ∃ g, minute.frames[endOf last minute.frames]? = some g ∧ t.setCurrentFrame g = some g ∧ t.Has g := by
  obtain ⟨g,atFrame⟩ := exists_endOf last (indexed.minute atMinute).2.2
  exact ⟨g,atFrame,indexed.enter atMinute atFrame⟩

theorem enterHour (last : Bool) {d h : Nat} {hour : Hour F} (atHour : t.hourAt d h = some hour) :
    ∃ minute g, hour.minutes[endOf last hour.minutes]? = some minute ∧
      minute.frames[endOf last minute.frames]? = some g ∧
      hour.frames[endOf last hour.frames]? = some g ∧ t.setCurrentFrame g = some g ∧ t.Has g := by
  obtain ⟨minute,there⟩ := exists_endOf last (indexed.hour atHour).2.2
  have atMinute : t.minuteAt d h (endOf last hour.minutes) = some minute := by
    simp [Tree.minuteAt,atHour,there]
  obtain ⟨g,atFrame,entered⟩ := indexed.enterMinute last atMinute
  exact ⟨minute,g,there,atFrame,endOf_flatMap there atFrame,entered⟩

theorem enterDay (last : Bool) {d : Nat} {day : Day F} (atDay : t.days[d]? = some day) :
    ∃ hour minute g, day.hours[endOf last day.hours]? = some hour ∧
      hour.minutes[endOf last hour.minutes]? = some minute ∧
      minute.frames[endOf last minute.frames]? = some g ∧
      day.frames[endOf last day.frames]? = some g ∧ t.setCurrentFrame g = some g ∧ t.Has g := by
  obtain ⟨hour,there⟩ := exists_endOf last (indexed.day atDay).2
  have atHour : t.hourAt d (endOf last day.hours) = some hour := by
    simp [Tree.hourAt,atDay,there]
  obtain ⟨minute,g,atMinute,atFrame,ofHour,entered⟩ := indexed.enterHour last atHour
  exact ⟨hour,minute,g,there,atMinute,atFrame,endOf_flatMap there ofHour,entered⟩

end Indexed

namespace Way

variable {t : Tree F} {f : Frame F} {d h m i : Nat} {day : Day F} {hour : Hour F} {minute : Minute F}
  (indexed : t.Indexed) (way : t.Way f d h m i day hour minute)
include indexed way

theorem jumpToNextDay :
    t.Lands (t.jumpToNextDay f) ((t.afterDay d).head?.or t.frames.getLast?) := by
  obtain ⟨bound,_⟩ := List.getElem?_eq_some_iff.mp way.atDay
  have place := (indexed.day way.atDay).1
  by_cases final : d + 1 = t.days.length
  · have lastDay : t.days[t.days.length - 1]? = some day := by
      rw [← final,Nat.add_sub_cancel]
      exact way.atDay
    obtain ⟨hour',minute',g,atHour,atMinute,atFrame,ofDay,entered,there⟩ :=
      indexed.enterDay true lastDay
    have ofTree : t.frames[endOf true t.frames]? = some g := endOf_flatMap lastDay ofDay
    rw [getElem?_endOf,if_pos rfl] at ofTree
    simp only [endOf,if_true] at atHour atMinute atFrame
    refine ⟨g,?_,?_,there⟩
    · simpa [afterDay,Tree.frames,final,List.drop_eq_nil_of_le] using ofTree
    · simp [Tree.jumpToNextDay,way.minute? indexed,way.hour? indexed,way.day? indexed,place,final,
        lastDay,atHour,atMinute,atFrame,entered]
  · obtain ⟨nextDay,next⟩ : ∃ day, t.days[d + 1]? = some day :=
      ⟨_,List.getElem?_eq_getElem (by omega)⟩
    obtain ⟨hour',minute',g,atHour,atMinute,atFrame,ofDay,entered,there⟩ := indexed.enterDay false next
    rw [getElem?_endOf] at ofDay
    simp only [endOf,Bool.false_eq_true,if_false] at atHour atMinute atFrame ofDay
    refine ⟨g,?_,?_,there⟩
    · rw [afterDay,Document.head?_flatMap_drop next ofDay]
      rfl
    · simp [Tree.jumpToNextDay,way.minute? indexed,way.hour? indexed,way.day? indexed,place,final,
        next,atHour,atMinute,atFrame,entered]

theorem jumpToPreviousDay :
    t.Lands (t.jumpToPreviousDay f) ((t.beforeDay d).getLast?.or t.frames.head?) := by
  obtain ⟨bound,_⟩ := List.getElem?_eq_some_iff.mp way.atDay
  have place := (indexed.day way.atDay).1
  cases d with
  | zero =>
    have firstDay : t.days[0]? = some day := way.atDay
    obtain ⟨hour',minute',g,atHour,atMinute,atFrame,ofDay,entered,there⟩ :=
      indexed.enterDay false firstDay
    have ofTree : t.frames[endOf false t.frames]? = some g := endOf_flatMap firstDay ofDay
    rw [getElem?_endOf,if_neg (by simp)] at ofTree
    simp only [endOf,Bool.false_eq_true,if_false] at atHour atMinute atFrame
    refine ⟨g,?_,?_,there⟩
    · simpa [beforeDay,Tree.frames] using ofTree
    · simp [Tree.jumpToPreviousDay,way.minute? indexed,way.hour? indexed,way.day? indexed,place,
        firstDay,atHour,atMinute,atFrame,entered]
  | succ d =>
    obtain ⟨prevDay,prev⟩ : ∃ day, t.days[d]? = some day := ⟨_,List.getElem?_eq_getElem (by omega)⟩
    obtain ⟨hour',minute',g,atHour,atMinute,atFrame,ofDay,entered,there⟩ := indexed.enterDay true prev
    rw [getElem?_endOf] at ofDay
    simp only [endOf,if_true] at atHour atMinute atFrame ofDay
    refine ⟨g,?_,?_,there⟩
    · rw [beforeDay,Document.getLast?_flatMap_take prev ofDay]
      rfl
    · simp [Tree.jumpToPreviousDay,way.minute? indexed,way.hour? indexed,way.day? indexed,place,
        prev,atHour,atMinute,atFrame,entered]

theorem jumpToNextHour (shift : Bool) :
    t.Lands (t.jumpToNextHour shift f) ((t.afterHour shift day d h).head?.or t.frames.getLast?) := by
  cases shift with
  | true => exact way.jumpToNextDay indexed
  | false =>
    obtain ⟨bound,_⟩ := List.getElem?_eq_some_iff.mp way.atHour
    have place := (indexed.hour way.hourAt).1
    by_cases final : h + 1 = day.hours.length
    · obtain ⟨g,landing,jumped,there⟩ := way.jumpToNextDay indexed
      refine ⟨g,?_,?_,there⟩
      · simpa [afterHour,final,List.drop_eq_nil_of_le] using landing
      · simp [Tree.jumpToNextHour,way.minute? indexed,way.hour? indexed,way.day? indexed,place,final,
          jumped]
    · obtain ⟨nextHour,next⟩ : ∃ hour, day.hours[h + 1]? = some hour :=
        ⟨_,List.getElem?_eq_getElem (by omega)⟩
      have atHour : t.hourAt d (h + 1) = some nextHour := by simp [Tree.hourAt,way.atDay,next]
      obtain ⟨minute',g,atMinute,atFrame,ofHour,entered,there⟩ := indexed.enterHour false atHour
      rw [getElem?_endOf] at ofHour
      simp only [endOf,Bool.false_eq_true,if_false] at atMinute atFrame ofHour
      refine ⟨g,?_,?_,there⟩
      · simp [afterHour,List.head?_append,Document.head?_flatMap_drop next ofHour]
      · simp [Tree.jumpToNextHour,way.minute? indexed,way.hour? indexed,way.day? indexed,place,final,
          next,atMinute,atFrame,entered]

theorem jumpToPreviousHour (shift : Bool) :
    t.Lands (t.jumpToPreviousHour shift f) ((t.beforeHour shift day d h).getLast?.or t.frames.head?) := by
  cases shift with
  | true => simpa [beforeHour,Tree.jumpToPreviousHour] using way.jumpToPreviousDay indexed
  | false =>
    obtain ⟨bound,_⟩ := List.getElem?_eq_some_iff.mp way.atHour
    have place := (indexed.hour way.hourAt).1
    cases h with
    | zero =>
      obtain ⟨g,landing,jumped,there⟩ := way.jumpToPreviousDay indexed
      refine ⟨g,?_,?_,there⟩
      · simpa [beforeHour] using landing
      · simp [Tree.jumpToPreviousHour,way.minute? indexed,way.hour? indexed,way.day? indexed,place,
          jumped]
    | succ h =>
      obtain ⟨prevHour,prev⟩ : ∃ hour, day.hours[h]? = some hour :=
        ⟨_,List.getElem?_eq_getElem (by omega)⟩
      have atHour : t.hourAt d h = some prevHour := by simp [Tree.hourAt,way.atDay,prev]
      obtain ⟨minute',g,atMinute,atFrame,ofHour,entered,there⟩ := indexed.enterHour true atHour
      rw [getElem?_endOf] at ofHour
      simp only [endOf,if_true] at atMinute atFrame ofHour
      refine ⟨g,?_,?_,there⟩
      · simp [beforeHour,List.getLast?_append,Document.getLast?_flatMap_take prev ofHour]
      · simp [Tree.jumpToPreviousHour,way.minute? indexed,way.hour? indexed,way.day? indexed,place,
          prev,atMinute,atFrame,entered]

theorem jumpToNextMinute (shift : Bool) : t.Lands (t.jumpToNextMinute shift f)
    (((hour.minutes.drop (m + 1)).flatMap Minute.frames ++ t.afterHour shift day d h).head?.or
      t.frames.getLast?) := by
  obtain ⟨bound,_⟩ := List.getElem?_eq_some_iff.mp way.atMinute
  have place := (indexed.minute way.minuteAt).1
  by_cases final : m + 1 = hour.minutes.length
  · obtain ⟨g,landing,jumped,there⟩ := way.jumpToNextHour indexed shift
    refine ⟨g,?_,?_,there⟩
    · simpa [final,List.drop_eq_nil_of_le] using landing
    · simp [Tree.jumpToNextMinute,way.minute? indexed,way.hour? indexed,place,final,jumped]
  · obtain ⟨nextMinute,next⟩ : ∃ minute, hour.minutes[m + 1]? = some minute :=
      ⟨_,List.getElem?_eq_getElem (by omega)⟩
    have atMinute : t.minuteAt d h (m + 1) = some nextMinute := by
      simp [Tree.minuteAt,way.hourAt,next]
    obtain ⟨g,atFrame,entered,there⟩ := indexed.enterMinute false atMinute
    have ofMinute := atFrame
    rw [getElem?_endOf] at ofMinute
    simp only [endOf,Bool.false_eq_true,if_false] at atFrame ofMinute
    refine ⟨g,?_,?_,there⟩
    · simp [List.head?_append,Document.head?_flatMap_drop next ofMinute]
    · simp [Tree.jumpToNextMinute,way.minute? indexed,way.hour? indexed,place,final,next,atFrame,
        entered]

theorem jumpToPreviousMinute (shift : Bool) : t.Lands (t.jumpToPreviousMinute shift f)
    ((t.beforeHour shift day d h ++ (hour.minutes.take m).flatMap Minute.frames).getLast?.or
      t.frames.head?) := by
  obtain ⟨bound,_⟩ := List.getElem?_eq_some_iff.mp way.atMinute
  have place := (indexed.minute way.minuteAt).1
  cases m with
  | zero =>
    obtain ⟨g,landing,jumped,there⟩ := way.jumpToPreviousHour indexed shift
    refine ⟨g,?_,?_,there⟩
    · simpa using landing
    · simp [Tree.jumpToPreviousMinute,way.minute? indexed,way.hour? indexed,place,jumped]
  | succ m =>
    obtain ⟨prevMinute,prev⟩ : ∃ minute, hour.minutes[m]? = some minute :=
      ⟨_,List.getElem?_eq_getElem (by omega)⟩
    have atMinute : t.minuteAt d h m = some prevMinute := by
      simp [Tree.minuteAt,way.hourAt,prev]
    obtain ⟨g,atFrame,entered,there⟩ := indexed.enterMinute true atMinute
    have ofMinute := atFrame
    rw [getElem?_endOf] at ofMinute
    simp only [endOf,if_true] at atFrame ofMinute
    refine ⟨g,?_,?_,there⟩
    · simp [List.getLast?_append,Document.getLast?_flatMap_take prev ofMinute]
    · simp [Tree.jumpToPreviousMinute,way.minute? indexed,way.hour? indexed,place,prev,atFrame,
        entered]

theorem jumpToNextFrame (shift : Bool) : t.Lands (t.jumpToNextFrame shift f)
    ((minute.frames.drop (i + 1) ++ ((hour.minutes.drop (m + 1)).flatMap Minute.frames ++
      t.afterHour shift day d h)).head?.or t.frames.getLast?) := by
  obtain ⟨bound,_⟩ := List.getElem?_eq_some_iff.mp way.atFrame
  have place := (indexed.frame way.frameAt).1
  by_cases final : i + 1 = minute.frames.length
  · obtain ⟨g,landing,jumped,there⟩ := way.jumpToNextMinute indexed shift
    refine ⟨g,?_,?_,there⟩
    · simpa [final,List.drop_eq_nil_of_le] using landing
    · simp [Tree.jumpToNextFrame,way.minute? indexed,place,final,jumped]
  · obtain ⟨g,next⟩ : ∃ g, minute.frames[i + 1]? = some g :=
      ⟨_,List.getElem?_eq_getElem (by omega)⟩
    obtain ⟨entered,there⟩ := indexed.enter way.minuteAt next
    refine ⟨g,?_,?_,there⟩
    · simp [List.head?_append,List.head?_drop,next]
    · simp [Tree.jumpToNextFrame,way.minute? indexed,place,final,next,entered]

theorem jumpToPreviousFrame (shift : Bool) : t.Lands (t.jumpToPreviousFrame shift f)
    (((t.beforeHour shift day d h ++ (hour.minutes.take m).flatMap Minute.frames) ++
      minute.frames.take i).getLast?.or t.frames.head?) := by
  obtain ⟨bound,_⟩ := List.getElem?_eq_some_iff.mp way.atFrame
  have place := (indexed.frame way.frameAt).1
  cases i with
  | zero =>
    obtain ⟨g,landing,jumped,there⟩ := way.jumpToPreviousMinute indexed shift
    refine ⟨g,?_,?_,there⟩
    · simpa using landing
    · simp [Tree.jumpToPreviousFrame,way.minute? indexed,place,jumped]
  | succ i =>
    obtain ⟨g,prev⟩ : ∃ g, minute.frames[i]? = some g :=
      ⟨_,List.getElem?_eq_getElem (by omega)⟩
    obtain ⟨entered,there⟩ := indexed.enter way.minuteAt prev
    refine ⟨g,?_,?_,there⟩
    · simp [List.getLast?_append,List.getLast?_take,prev]
    · simp [Tree.jumpToPreviousFrame,way.minute? indexed,place,prev,entered]

end Way

/-- Every jump from a frame of the tree arrives at one. -/
theorem Indexed.jump {t : Tree F} (indexed : t.Indexed) (shift : Bool) (key : JumpKey) {f : Frame F}
    (inside : t.Has f) : ∃ g, t.jump shift key f = some g ∧ t.Has g := by
  obtain ⟨d,h,m,i,day,hour,minute,way⟩ := way_of_has inside
  have arrives {place : Option (Frame F)} (lands : t.Lands (t.jump shift key f) place) :
      ∃ g, t.jump shift key f = some g ∧ t.Has g := by
    obtain ⟨g,_,there⟩ := lands
    exact ⟨g,there⟩
  cases key with
  | upArrow => exact arrives (way.jumpToPreviousFrame indexed shift)
  | downArrow => exact arrives (way.jumpToNextFrame indexed shift)
  | leftArrow => exact arrives (way.jumpToPreviousMinute indexed shift)
  | rightArrow => exact arrives (way.jumpToNextMinute indexed shift)
  | pageUp => exact arrives (way.jumpToPreviousHour indexed shift)
  | pageDown => exact arrives (way.jumpToNextHour indexed shift)

/-! ## The tree of results -/

theorem frame_node {run : List (Row F)} {i : Nat} {f : Frame F}
    (there : (frameLevel.nodes run)[i]? = some f) : f.ownerIdx = i := by
  obtain ⟨part,nonempty,rfl⟩ := frameLevel.getElem?_nodes there
  obtain ⟨_,same⟩ := frameLevel.field_build Frame.ownerIdx (fun _ _ => rfl) i nonempty
  exact same

theorem minute_node {run : List (Row F)} {m : Nat} {minute : Minute F}
    (there : (minuteLevel.nodes run)[m]? = some minute) :
    minute.ownerIdx = m ∧ ∃ part, part ≠ [] ∧ minute.frames = frameLevel.nodes part := by
  obtain ⟨part,nonempty,rfl⟩ := minuteLevel.getElem?_nodes there
  obtain ⟨_,same⟩ := minuteLevel.field_build Minute.ownerIdx (fun _ _ => rfl) m nonempty
  exact ⟨same,part,nonempty,children_build minuteLevel frameLevel Minute.frames (fun _ _ => rfl)
    (fun _ _ => rfl) (fun _ => rfl) m nonempty⟩

theorem hour_node {run : List (Row F)} {h : Nat} {hour : Hour F}
    (there : (hourLevel.nodes run)[h]? = some hour) :
    hour.ownerIdx = h ∧ ∃ part, part ≠ [] ∧ hour.minutes = minuteLevel.nodes part := by
  obtain ⟨part,nonempty,rfl⟩ := hourLevel.getElem?_nodes there
  obtain ⟨_,same⟩ := hourLevel.field_build Hour.ownerIdx (fun _ _ => rfl) h nonempty
  exact ⟨same,part,nonempty,children_build hourLevel minuteLevel Hour.minutes (fun _ _ => rfl)
    (fun _ _ => rfl) (fun _ => rfl) h nonempty⟩

theorem day_node {r : Recordings} {run : List (Row F)} {d : Nat} {day : Day F}
    (there : ((dayLevel r).nodes run)[d]? = some day) :
    day.ownerIdx = d ∧ ∃ part, part ≠ [] ∧ day.hours = hourLevel.nodes part := by
  obtain ⟨part,nonempty,rfl⟩ := (dayLevel r).getElem?_nodes there
  obtain ⟨_,same⟩ := (dayLevel r).field_build Day.ownerIdx (fun _ _ => rfl) d nonempty
  exact ⟨same,part,nonempty,children_build (dayLevel r) hourLevel Day.hours (fun _ _ => rfl)
    (fun _ _ => rfl) (fun _ => rfl) d nonempty⟩

/-- The results for a selection of rows. -/
def ofRows (r : Recordings) (generation : Nat) (rows : List (Row F)) : Tree F :=
  ⟨generation,sortResults r generation rows⟩

theorem ofRows_day {r : Recordings} {generation : Nat} {rows : List (Row F)} {d : Nat} {day : Day F}
    (there : (ofRows r generation rows).days[d]? = some day) :
    ∃ node, ((dayLevel r).nodes rows)[d]? = some node ∧ day.ownerIdx = node.ownerIdx ∧
      day.hours = node.hours.mapIdx fun h hour => { hour with
        owner := some ⟨generation,[d]⟩
        minutes := hour.minutes.mapIdx fun m minute => { minute with
          owner := some ⟨generation,[d,h]⟩
          frames := minute.frames.map fun f => { f with owner := some ⟨generation,[d,h,m]⟩ } } } := by
  simp only [ofRows,sortResults,assignOwners,List.getElem?_mapIdx] at there
  obtain ⟨node,at_,rfl⟩ := Option.map_eq_some_iff.mp there
  exact ⟨node,at_,rfl,rfl⟩

theorem ofRows_hour {r : Recordings} {generation : Nat} {rows : List (Row F)} {d h : Nat}
    {hour : Hour F} (there : (ofRows r generation rows).hourAt d h = some hour) :
    ∃ run node, (hourLevel.nodes run)[h]? = some node ∧ hour.ownerIdx = node.ownerIdx ∧
      hour.owner = some ⟨generation,[d]⟩ ∧
      hour.minutes = node.minutes.mapIdx fun m minute => { minute with
        owner := some ⟨generation,[d,h]⟩
        frames := minute.frames.map fun f => { f with owner := some ⟨generation,[d,h,m]⟩ } } := by
  obtain ⟨day,atDay,atHour⟩ := Option.bind_eq_some_iff.mp there
  obtain ⟨node,atNode,_,hours⟩ := ofRows_day atDay
  obtain ⟨_,run,_,built⟩ := day_node atNode
  rw [hours,built,List.getElem?_mapIdx] at atHour
  obtain ⟨below,at_,rfl⟩ := Option.map_eq_some_iff.mp atHour
  exact ⟨run,below,at_,rfl,rfl,rfl⟩

theorem ofRows_minute {r : Recordings} {generation : Nat} {rows : List (Row F)} {d h m : Nat}
    {minute : Minute F} (there : (ofRows r generation rows).minuteAt d h m = some minute) :
    ∃ run node, (minuteLevel.nodes run)[m]? = some node ∧ minute.ownerIdx = node.ownerIdx ∧
      minute.owner = some ⟨generation,[d,h]⟩ ∧
      minute.frames = node.frames.map fun f => { f with owner := some ⟨generation,[d,h,m]⟩ } := by
  obtain ⟨hour,atHour,atMinute⟩ := Option.bind_eq_some_iff.mp there
  obtain ⟨_,node,atNode,_,_,minutes⟩ := ofRows_hour atHour
  obtain ⟨_,run,_,built⟩ := hour_node atNode
  rw [minutes,built,List.getElem?_mapIdx] at atMinute
  obtain ⟨below,at_,rfl⟩ := Option.map_eq_some_iff.mp atMinute
  exact ⟨run,below,at_,rfl,rfl,rfl⟩

/-- The nodes of a tree of results know their places, and none is empty. -/
theorem ofRows_indexed (r : Recordings) (generation : Nat) (rows : List (Row F)) :
    (ofRows r generation rows).Indexed where
  day there := by
    obtain ⟨node,atNode,idx,hours⟩ := ofRows_day there
    obtain ⟨place,run,nonempty,built⟩ := day_node atNode
    refine ⟨idx.trans place,?_⟩
    simpa [hours,built] using hourLevel.nodes_ne_nil nonempty
  hour there := by
    obtain ⟨_,node,atNode,idx,owner,minutes⟩ := ofRows_hour there
    obtain ⟨place,run,nonempty,built⟩ := hour_node atNode
    refine ⟨idx.trans place,owner,?_⟩
    simpa [minutes,built] using minuteLevel.nodes_ne_nil nonempty
  minute there := by
    obtain ⟨_,node,atNode,idx,owner,frames⟩ := ofRows_minute there
    obtain ⟨place,run,nonempty,built⟩ := minute_node atNode
    refine ⟨idx.trans place,owner,?_⟩
    simpa [frames,built] using frameLevel.nodes_ne_nil nonempty
  frame there := by
    obtain ⟨minute,atMinute,atFrame⟩ := Option.bind_eq_some_iff.mp there
    obtain ⟨_,node,atNode,_,_,frames⟩ := ofRows_minute atMinute
    obtain ⟨_,run,_,built⟩ := minute_node atNode
    rw [frames,built,List.getElem?_map] at atFrame
    obtain ⟨below,at_,rfl⟩ := Option.map_eq_some_iff.mp atFrame
    have place := frame_node at_
    exact ⟨place,rfl⟩

end Tree

end OcrSuite.Viewer
