import OcrSuite.Navigation

/-! The jumps as movement through the frames in the order of the document: what each of them arrives
at in the tree of results, and where the shift key makes a difference. -/
namespace OcrSuite.Viewer

open Document

variable {F : Type}

namespace Tree

variable {t : Tree F}

def dayGroups (t : Tree F) : List (List (Frame F)) := t.days.map Day.frames

def hourGroups (t : Tree F) : List (List (Frame F)) := t.days.flatMap fun day => day.hours.map Hour.frames

def minuteGroups (t : Tree F) : List (List (Frame F)) :=
  t.days.flatMap fun day => day.hours.flatMap fun hour => hour.minutes.map Minute.frames

/-- From any frame of a group the jumps arrive at the first frame of the next group and at the last
frame of the one before. -/
structure MovesAmong (groups : List (List (Frame F))) (next previous : Frame F → Option (Frame F)) :
    Prop where
  next : ∀ {front group back}, groups = front ++ group :: back → ∀ f ∈ group,
    ∃ g, following groups back = some g ∧ next f = some g
  previous : ∀ {front group back}, groups = front ++ group :: back → ∀ f ∈ group,
    ∃ g, preceding groups front = some g ∧ previous f = some g

/-! ## The frames below a node -/

theorem hourAt_eq {d : Nat} {day : Day F} (there : t.days[d]? = some day) (h : Nat) :
    t.hourAt d h = day.hours[h]? := by
  simp [hourAt,there]

theorem minuteAt_eq {d h : Nat} {hour : Hour F} (there : t.hourAt d h = some hour) (m : Nat) :
    t.minuteAt d h m = hour.minutes[m]? := by
  simp [minuteAt,there]

theorem mem_minute_frames {d h m : Nat} {minute : Minute F} (there : t.minuteAt d h m = some minute)
    {f : Frame F} : f ∈ minute.frames ↔ ∃ i, t.frameAt d h m i = some f := by
  simp [frameAt,there,List.mem_iff_getElem?]

theorem mem_hour_frames {d h : Nat} {hour : Hour F} (there : t.hourAt d h = some hour)
    {f : Frame F} : f ∈ hour.frames ↔ ∃ m i, t.frameAt d h m i = some f := by
  rw [Hour.frames,List.mem_flatMap]
  constructor
  · rintro ⟨minute,member,inside⟩
    obtain ⟨m,at_⟩ := List.mem_iff_getElem?.mp member
    have atMinute := (minuteAt_eq there m).trans at_
    exact ⟨m,(mem_minute_frames atMinute).mp inside⟩
  · rintro ⟨m,i,found⟩
    obtain ⟨minute,atMinute,_⟩ := Option.bind_eq_some_iff.mp found
    have inside := (mem_minute_frames atMinute).mpr ⟨i,found⟩
    rw [minuteAt_eq there] at atMinute
    exact ⟨minute,List.mem_of_getElem? atMinute,inside⟩

theorem mem_day_frames {d : Nat} {day : Day F} (there : t.days[d]? = some day) {f : Frame F} :
    f ∈ day.frames ↔ ∃ h m i, t.frameAt d h m i = some f := by
  rw [Day.frames,List.mem_flatMap]
  constructor
  · rintro ⟨hour,member,inside⟩
    obtain ⟨h,at_⟩ := List.mem_iff_getElem?.mp member
    have atHour := (hourAt_eq there h).trans at_
    exact ⟨h,(mem_hour_frames atHour).mp inside⟩
  · rintro ⟨h,m,i,found⟩
    obtain ⟨minute,atMinute,_⟩ := Option.bind_eq_some_iff.mp found
    obtain ⟨hour,atHour,_⟩ := Option.bind_eq_some_iff.mp atMinute
    have inside := (mem_hour_frames atHour).mpr ⟨m,i,found⟩
    rw [hourAt_eq there] at atHour
    exact ⟨hour,List.mem_of_getElem? atHour,inside⟩

namespace Way

variable {f : Frame F} {d h m i : Nat} {day : Day F} {hour : Hour F} {minute : Minute F}

theorem of_minute (atDay : t.days[d]? = some day) (atHour : day.hours[h]? = some hour)
    (atMinute : hour.minutes[m]? = some minute) (inside : f ∈ minute.frames) :
    ∃ i, t.Way f d h m i day hour minute := by
  obtain ⟨i,atFrame⟩ := List.mem_iff_getElem?.mp inside
  exact ⟨i,atDay,atHour,atMinute,atFrame⟩

theorem of_hour (atDay : t.days[d]? = some day) (atHour : day.hours[h]? = some hour)
    (inside : f ∈ hour.frames) : ∃ m i minute, t.Way f d h m i day hour minute := by
  obtain ⟨minute,member,below⟩ := List.mem_flatMap.mp inside
  obtain ⟨m,atMinute⟩ := List.mem_iff_getElem?.mp member
  obtain ⟨i,way⟩ := of_minute atDay atHour atMinute below
  exact ⟨m,i,minute,way⟩

theorem of_day (atDay : t.days[d]? = some day) (inside : f ∈ day.frames) :
    ∃ h m i hour minute, t.Way f d h m i day hour minute := by
  obtain ⟨hour,member,below⟩ := List.mem_flatMap.mp inside
  obtain ⟨h,atHour⟩ := List.mem_iff_getElem?.mp member
  obtain ⟨m,i,minute,way⟩ := of_hour atDay atHour below
  exact ⟨h,m,i,hour,minute,way⟩

/-- The rest of the day and the later days are the end of the document. -/
theorem frames_eq_after (way : t.Way f d h m i day hour minute) : ∃ front,
    t.frames = front ++ ((day.hours.drop (h + 1)).flatMap Hour.frames ++ t.afterDay d) := by
  refine ⟨(t.days.take d).flatMap Day.frames ++ (day.hours.take h).flatMap Hour.frames ++ hour.frames,?_⟩
  have ofDay : day.frames = _ := flatMap_eq_place way.atHour Hour.frames
  rw [Tree.frames,flatMap_eq_place way.atDay Day.frames,ofDay,afterDay]
  simp only [List.append_assoc]

theorem frames_eq_before (way : t.Way f d h m i day hour minute) : ∃ back,
    t.frames = (t.beforeDay d ++ (day.hours.take h).flatMap Hour.frames) ++ back := by
  refine ⟨hour.frames ++ ((day.hours.drop (h + 1)).flatMap Hour.frames ++ t.afterDay d),?_⟩
  have ofDay : day.frames = _ := flatMap_eq_place way.atHour Hour.frames
  rw [Tree.frames,flatMap_eq_place way.atDay Day.frames,ofDay,beforeDay,afterDay]
  simp only [List.append_assoc]

end Way

/-- What the jumps of a level have to arrive at, for groups that make up the document. -/
theorem movesAmong {groups : List (List (Frame F))} {next previous : Frame F → Option (Frame F)}
    (nonempty : ∀ group ∈ groups, group ≠ []) (whole : groups.flatten = t.frames)
    (lands : ∀ {front group back}, groups = front ++ group :: back → ∀ f ∈ group,
      t.Lands (next f) (back.flatten.head?.or t.frames.getLast?) ∧
      t.Lands (previous f) (front.flatten.getLast?.or t.frames.head?)) :
    MovesAmong groups next previous where
  next {front group back} parts f inside := by
    obtain ⟨g,place,jumped,_⟩ := (lands parts f inside).1
    have later : ∀ other ∈ back, other ≠ [] := fun other member =>
      nonempty other (by simp [parts,member])
    exact ⟨g,by rw [following_eq later,whole,place],jumped⟩
  previous {front group back} parts f inside := by
    obtain ⟨g,place,jumped,_⟩ := (lands parts f inside).2
    have earlier : ∀ other ∈ front, other ≠ [] := fun other member =>
      nonempty other (by simp [parts,member])
    exact ⟨g,by rw [preceding_eq earlier,whole,place],jumped⟩

section Indexed

variable (indexed : t.Indexed)
include indexed

theorem Indexed.day_frames {day : Day F} (member : day ∈ t.days) : day.frames ≠ [] := by
  obtain ⟨d,atDay⟩ := List.mem_iff_getElem?.mp member
  obtain ⟨_,_,_,_,_,_,inside,_⟩ := indexed.enterDay false atDay
  exact List.ne_nil_of_mem (List.mem_of_getElem? inside)

theorem Indexed.hour_frames {d : Nat} {day : Day F} (atDay : t.days[d]? = some day) {hour : Hour F}
    (member : hour ∈ day.hours) : hour.frames ≠ [] := by
  obtain ⟨h,there⟩ := List.mem_iff_getElem?.mp member
  obtain ⟨_,_,_,_,inside,_⟩ := indexed.enterHour false ((hourAt_eq atDay h).trans there)
  exact List.ne_nil_of_mem (List.mem_of_getElem? inside)

theorem Indexed.minute_frames {d h : Nat} {hour : Hour F} (atHour : t.hourAt d h = some hour)
    {minute : Minute F} (member : minute ∈ hour.minutes) : minute.frames ≠ [] := by
  obtain ⟨m,there⟩ := List.mem_iff_getElem?.mp member
  exact (indexed.minute ((minuteAt_eq atHour m).trans there)).2.2

/-- The frames tell their places apart. -/
theorem Indexed.same_place {d h m i d' h' m' i' : Nat} {f : Frame F}
    (first : t.frameAt d h m i = some f) (second : t.frameAt d' h' m' i' = some f) :
    d = d' ∧ h = h' ∧ m = m' ∧ i = i' := by
  have own := indexed.frame first
  have other := indexed.frame second
  have path := own.2.symm.trans other.2
  simp only [Option.some.injEq,Pointer.mk.injEq,List.cons.injEq,and_true,true_and] at path
  exact ⟨path.1,path.2.1,path.2.2,own.1.symm.trans other.1⟩

theorem Indexed.frames_nodup : t.frames.Nodup := by
  refine nodup_flatMap (fun day member => ?_) fun first second one other => ?_
  · obtain ⟨d,atDay⟩ := List.mem_iff_getElem?.mp member
    refine nodup_flatMap (fun hour member => ?_) fun first second one other => ?_
    · obtain ⟨h,there⟩ := List.mem_iff_getElem?.mp member
      have atHour := (hourAt_eq atDay h).trans there
      refine nodup_flatMap (fun minute member => ?_) fun first second one other => ?_
      · obtain ⟨m,there⟩ := List.mem_iff_getElem?.mp member
        have atMinute := (minuteAt_eq atHour m).trans there
        refine List.nodup_iff_injective_getElem.mpr fun a b same => Fin.ext ?_
        have at_ (k : Fin minute.frames.length) : t.frameAt d h m k = some (minute.frames[k]) := by
          simp [frameAt,atMinute]
        exact (indexed.same_place (at_ a) ((at_ b).trans (congrArg some same.symm))).2.2.2
      · obtain ⟨_,one⟩ := (mem_minute_frames ((minuteAt_eq atHour _).trans first)).mp one
        obtain ⟨_,other⟩ := (mem_minute_frames ((minuteAt_eq atHour _).trans second)).mp other
        exact (indexed.same_place one other).2.2.1
    · obtain ⟨_,_,one⟩ := (mem_hour_frames ((hourAt_eq atDay _).trans first)).mp one
      obtain ⟨_,_,other⟩ := (mem_hour_frames ((hourAt_eq atDay _).trans second)).mp other
      exact (indexed.same_place one other).2.1
  · obtain ⟨_,_,_,one⟩ := (mem_day_frames first).mp one
    obtain ⟨_,_,_,other⟩ := (mem_day_frames second).mp other
    exact (indexed.same_place one other).1

theorem Indexed.groups_nonempty {group : List (Frame F)}
    (member : group ∈ t.dayGroups ∨ group ∈ t.hourGroups ∨ group ∈ t.minuteGroups) : group ≠ [] := by
  rcases member with member | member | member
  · obtain ⟨day,inside,rfl⟩ := List.mem_map.mp member
    exact indexed.day_frames inside
  · obtain ⟨day,inside,below⟩ := List.mem_flatMap.mp member
    obtain ⟨hour,within,rfl⟩ := List.mem_map.mp below
    obtain ⟨d,atDay⟩ := List.mem_iff_getElem?.mp inside
    exact indexed.hour_frames atDay within
  · obtain ⟨day,inside,below⟩ := List.mem_flatMap.mp member
    obtain ⟨hour,within,lower⟩ := List.mem_flatMap.mp below
    obtain ⟨minute,lowest,rfl⟩ := List.mem_map.mp lower
    obtain ⟨d,atDay⟩ := List.mem_iff_getElem?.mp inside
    obtain ⟨h,there⟩ := List.mem_iff_getElem?.mp within
    exact indexed.minute_frames ((hourAt_eq atDay h).trans there) lowest

theorem Indexed.moves_days : MovesAmong t.dayGroups t.jumpToNextDay t.jumpToPreviousDay := by
  have nonempty (group : List (Frame F)) (member : group ∈ t.dayGroups) :=
    indexed.groups_nonempty (.inl member)
  refine movesAmong (t := t) nonempty rfl fun {front group back} parts f inside => ?_
  obtain ⟨d,day,atDay,rfl,rfl,rfl⟩ := exists_place_map parts
  obtain ⟨h,m,i,hour,minute,way⟩ := Way.of_day atDay inside
  exact ⟨way.jumpToNextDay indexed,way.jumpToPreviousDay indexed⟩

theorem Indexed.moves_hours :
    MovesAmong t.hourGroups (t.jumpToNextHour false) (t.jumpToPreviousHour false) := by
  have nonempty (group : List (Frame F)) (member : group ∈ t.hourGroups) :=
    indexed.groups_nonempty (.inr (.inl member))
  refine movesAmong (t := t) nonempty (flatten_flatMap _ _) fun {front group back} parts f inside => ?_
  obtain ⟨d,day,_,_,atDay,ofDay,rfl,rfl⟩ := exists_place parts
  obtain ⟨h,hour,atHour,rfl,rfl,rfl⟩ := exists_place_map ofDay
  obtain ⟨m,i,minute,way⟩ := Way.of_hour atDay atHour inside
  rw [List.flatten_append,List.flatten_append,flatten_flatMap,flatten_flatMap]
  exact ⟨way.jumpToNextHour indexed false,way.jumpToPreviousHour indexed false⟩

theorem Indexed.moves_minutes :
    MovesAmong t.minuteGroups (t.jumpToNextMinute false) (t.jumpToPreviousMinute false) := by
  have nonempty (group : List (Frame F)) (member : group ∈ t.minuteGroups) :=
    indexed.groups_nonempty (.inr (.inr member))
  have hours (hours : List (Hour F)) :
      (hours.flatMap fun hour => hour.minutes.map Minute.frames).flatten = hours.flatMap Hour.frames :=
    flatten_flatMap _ _
  have days (days : List (Day F)) :
      (days.flatMap fun day => day.hours.flatMap fun hour => hour.minutes.map Minute.frames).flatten =
        days.flatMap Day.frames := by
    rw [flatten_flatMap]
    exact List.flatMap_congr fun day _ => hours day.hours
  refine movesAmong (t := t) nonempty (days t.days) fun {front group back} parts f inside => ?_
  obtain ⟨d,day,_,_,atDay,ofDay,rfl,rfl⟩ := exists_place parts
  obtain ⟨h,hour,_,_,atHour,ofHour,rfl,rfl⟩ := exists_place ofDay
  obtain ⟨m,minute,atMinute,rfl,rfl,rfl⟩ := exists_place_map ofHour
  obtain ⟨i,way⟩ := Way.of_minute atDay atHour atMinute inside
  simp only [List.flatten_append,days,hours]
  rw [List.append_assoc,← List.append_assoc (List.flatMap Day.frames (t.days.take d))]
  exact ⟨way.jumpToNextMinute indexed false,way.jumpToPreviousMinute indexed false⟩

/-- Frame by frame the jumps go through the document and stay on its first and last frame. -/
theorem Indexed.moves_frames {front back : List (Frame F)} {f : Frame F}
    (parts : t.frames = front ++ f :: back) :
    t.jumpToNextFrame false f = some (back.head?.getD f) ∧
      t.jumpToPreviousFrame false f = some (front.getLast?.getD f) := by
  obtain ⟨d,day,_,_,atDay,ofDay,first,last⟩ := exists_place parts
  obtain ⟨h,hour,_,_,atHour,ofHour,rfl,rfl⟩ := exists_place ofDay
  obtain ⟨m,minute,before,after,atMinute,ofMinute,rfl,rfl⟩ := exists_place ofHour
  have way : t.Way f d h m before.length day hour minute :=
    ⟨atDay,atHour,atMinute,by simp [ofMinute]⟩
  constructor
  · obtain ⟨g,place,jumped,_⟩ := way.jumpToNextFrame indexed false
    have here : minute.frames.drop (before.length + 1) = after := by simp [ofMinute]
    have later : after ++ ((hour.minutes.drop (m + 1)).flatMap Minute.frames ++
        t.afterHour false day d h) = back := by
      simp [last,afterHour,afterDay]
    rw [here,later,parts] at place
    rw [jumped,← place]
    cases back <;> simp
  · obtain ⟨g,place,jumped,_⟩ := way.jumpToPreviousFrame indexed false
    have here : minute.frames.take before.length = before := by simp [ofMinute]
    have earlier : t.beforeHour false day d h ++ (hour.minutes.take m).flatMap Minute.frames ++
        before = front := by
      simp [first,beforeHour,beforeDay]
    rw [here,earlier,parts] at place
    rw [jumped,← place]
    rcases List.eq_nil_or_concat front with rfl | ⟨_,_,rfl⟩ <;> simp

end Indexed

/-- In the results of a selection the jumps are movement through the document, frame by frame and
from group to group of each level. -/
theorem jumps_move_through_document (r : Recordings) (generation : Nat) (rows : List (Row F)) :
    let t := ofRows r generation rows
    (∀ front f back, t.frames = front ++ f :: back →
      t.jumpToNextFrame false f = some (back.head?.getD f) ∧
      t.jumpToPreviousFrame false f = some (front.getLast?.getD f)) ∧
    MovesAmong t.minuteGroups (t.jumpToNextMinute false) (t.jumpToPreviousMinute false) ∧
    MovesAmong t.hourGroups (t.jumpToNextHour false) (t.jumpToPreviousHour false) ∧
    MovesAmong t.dayGroups t.jumpToNextDay t.jumpToPreviousDay := by
  have indexed := ofRows_indexed r generation rows
  exact ⟨fun _ _ _ parts => indexed.moves_frames parts,indexed.moves_minutes,indexed.moves_hours,
    indexed.moves_days⟩

/-! ## The shift key -/

/-- Shift leaves out nothing after the hour: it is the last one of its day, or all that comes after is
the last frame of the document. -/
def NothingAfter (t : Tree F) (day : Day F) (d h : Nat) : Prop :=
  h + 1 = day.hours.length ∨
    (d + 1 = t.days.length ∧ ((day.hours.drop (h + 1)).flatMap Hour.frames).length = 1)

/-- Shift leaves out nothing before the hour. -/
def NothingBefore (day : Day F) (d h : Nat) : Prop :=
  h = 0 ∨ (d = 0 ∧ ((day.hours.take h).flatMap Hour.frames).length = 1)

section Shift

variable {f : Frame F} {d h m i : Nat} {day : Day F} {hour : Hour F} {minute : Minute F}
  (indexed : t.Indexed)
include indexed

omit indexed in
theorem Lands.same_iff {jump jump' place place' : Option (Frame F)} (lands : t.Lands jump place)
    (lands' : t.Lands jump' place') : jump = jump' ↔ place = place' := by
  obtain ⟨g,here,jumped,_⟩ := lands
  obtain ⟨g',here',jumped',_⟩ := lands'
  rw [here,jumped,here',jumped']

theorem Way.skips_after_iff (way : t.Way f d h m i day hour minute) :
    (t.afterHour true day d h).head?.or t.frames.getLast? =
      (t.afterHour false day d h).head?.or t.frames.getLast? ↔ t.NothingAfter day d h := by
  obtain ⟨front,parts⟩ := way.frames_eq_after
  obtain ⟨dayBound,_⟩ := List.getElem?_eq_some_iff.mp way.atDay
  obtain ⟨hourBound,_⟩ := List.getElem?_eq_some_iff.mp way.atHour
  have noHour : (day.hours.drop (h + 1)).flatMap Hour.frames = [] ↔ h + 1 = day.hours.length := by
    rw [flatMap_eq_nil fun _ member => indexed.hour_frames way.atDay (List.mem_of_mem_drop member),
      List.drop_eq_nil_iff]
    omega
  have noDay : t.afterDay d = [] ↔ d + 1 = t.days.length := by
    rw [afterDay,flatMap_eq_nil fun _ member => indexed.day_frames (List.mem_of_mem_drop member),
      List.drop_eq_nil_iff]
    omega
  have skip := head_skip_iff (parts ▸ indexed.frames_nodup)
  rwa [← parts,noHour,noDay] at skip

theorem Way.skips_before_iff (way : t.Way f d h m i day hour minute) :
    (t.beforeHour true day d h).getLast?.or t.frames.head? =
      (t.beforeHour false day d h).getLast?.or t.frames.head? ↔ NothingBefore day d h := by
  obtain ⟨back,parts⟩ := way.frames_eq_before
  obtain ⟨dayBound,_⟩ := List.getElem?_eq_some_iff.mp way.atDay
  obtain ⟨hourBound,_⟩ := List.getElem?_eq_some_iff.mp way.atHour
  have noHour : (day.hours.take h).flatMap Hour.frames = [] ↔ h = 0 := by
    rw [flatMap_eq_nil fun _ member => indexed.hour_frames way.atDay (List.mem_of_mem_take member),
      List.take_eq_nil_iff,or_iff_left (List.ne_nil_of_length_pos (by omega))]
  have noDay : t.beforeDay d = [] ↔ d = 0 := by
    rw [beforeDay,flatMap_eq_nil fun _ member => indexed.day_frames (List.mem_of_mem_take member),
      List.take_eq_nil_iff,or_iff_left (List.ne_nil_of_length_pos (by omega))]
  have skip := last_skip_iff (parts ▸ indexed.frames_nodup)
  rw [← parts,noHour,noDay] at skip
  simpa [beforeHour,NothingBefore] using skip

theorem Way.next_minute_shift_iff (way : t.Way f d h m i day hour minute) :
    t.jumpToNextMinute true f = t.jumpToNextMinute false f ↔
      (m + 1 = hour.minutes.length → t.NothingAfter day d h) := by
  obtain ⟨bound,_⟩ := List.getElem?_eq_some_iff.mp way.atMinute
  rw [(way.jumpToNextMinute indexed true).same_iff (way.jumpToNextMinute indexed false),
    ← way.skips_after_iff indexed]
  by_cases final : m + 1 = hour.minutes.length
  · simp [final]
  · have some_ : (hour.minutes.drop (m + 1)).flatMap Minute.frames ≠ [] := by
      rw [Ne,flatMap_eq_nil fun _ member =>
        indexed.minute_frames way.hourAt (List.mem_of_mem_drop member),List.drop_eq_nil_iff]
      omega
    simp [final,List.head?_append_of_ne_nil _ some_]

theorem Way.previous_minute_shift_iff (way : t.Way f d h m i day hour minute) :
    t.jumpToPreviousMinute true f = t.jumpToPreviousMinute false f ↔ (m = 0 → NothingBefore day d h) := by
  obtain ⟨bound,_⟩ := List.getElem?_eq_some_iff.mp way.atMinute
  rw [(way.jumpToPreviousMinute indexed true).same_iff (way.jumpToPreviousMinute indexed false),
    ← way.skips_before_iff indexed]
  by_cases first : m = 0
  · simp [first]
  · have some_ : (hour.minutes.take m).flatMap Minute.frames ≠ [] := by
      rw [Ne,flatMap_eq_nil fun _ member =>
        indexed.minute_frames way.hourAt (List.mem_of_mem_take member),List.take_eq_nil_iff]
      exact not_or.mpr ⟨first,List.ne_nil_of_length_pos (by omega)⟩
    simp [first,List.getLast?_append_of_ne_nil _ some_]

theorem Way.next_frame_shift_iff (way : t.Way f d h m i day hour minute) :
    t.jumpToNextFrame true f = t.jumpToNextFrame false f ↔
      (i + 1 = minute.frames.length → m + 1 = hour.minutes.length → t.NothingAfter day d h) := by
  have place := (indexed.frame way.frameAt).1
  simp only [Tree.jumpToNextFrame,way.minute? indexed,Option.bind_eq_bind,Option.bind_some,place]
  by_cases final : i + 1 = minute.frames.length
  · simpa [final] using way.next_minute_shift_iff indexed
  · simp [final]

theorem Way.previous_frame_shift_iff (way : t.Way f d h m i day hour minute) :
    t.jumpToPreviousFrame true f = t.jumpToPreviousFrame false f ↔
      (i = 0 → m = 0 → NothingBefore day d h) := by
  have place := (indexed.frame way.frameAt).1
  simp only [Tree.jumpToPreviousFrame,way.minute? indexed,Option.bind_eq_bind,Option.bind_some,place]
  by_cases first : i = 0
  · simpa [first] using way.previous_minute_shift_iff indexed
  · simp [first]

end Shift

/-- The jumps by frames and minutes arrive at the same frame with and without shift. -/
structure ShiftUnnoticed (t : Tree F) (f : Frame F) : Prop where
  nextFrame : t.jumpToNextFrame true f = t.jumpToNextFrame false f
  previousFrame : t.jumpToPreviousFrame true f = t.jumpToPreviousFrame false f
  nextMinute : t.jumpToNextMinute true f = t.jumpToNextMinute false f
  previousMinute : t.jumpToPreviousMinute true f = t.jumpToPreviousMinute false f

/-- From the only frame of the first hour of a day, shift skips the second one. -/
theorem shift_skips_hour : ¬ ∀ (r : Recordings) (generation : Nat) (rows : List (Row Int)) (f : Frame Int),
    (ofRows r generation rows).Has f → (ofRows r generation rows).ShiftUnnoticed f := by
  intro claim
  let r : Recordings := ⟨fun _ => 0,fun _ n => n * 1000,fun _ => "day"⟩
  let rows : List (Row Int) := [1,3600,3601].map fun n => r.row "a.mp4" ⟨n,"abc",1,2,3,4,90⟩
  let t := ofRows r 1 rows
  let numbers (shift : Bool) := ((t.frameAt 0 0 0 0).bind (t.jumpToNextFrame shift)).map Frame.number
  have skipped : numbers true = some 3601 := by decide
  have next : numbers false = some 3600 := by decide
  obtain ⟨f,first⟩ : ∃ f, t.frameAt 0 0 0 0 = some f := Option.isSome_iff_exists.mp (by decide)
  have same := (claim r 1 rows f ⟨0,0,0,0,first⟩).nextFrame
  simp only [numbers,first,Option.bind_some] at skipped next
  rw [same,next] at skipped
  exact absurd skipped (by decide)

/-- Shift goes unnoticed by the jumps by frames and minutes exactly where it leaves out nothing. -/
theorem shift_unnoticed_iff (r : Recordings) (generation : Nat) (rows : List (Row F)) {f : Frame F}
    {d h m i : Nat} {day : Day F} {hour : Hour F} {minute : Minute F}
    (way : (ofRows r generation rows).Way f d h m i day hour minute) :
    let t := ofRows r generation rows
    (t.jumpToNextMinute true f = t.jumpToNextMinute false f ↔
      (m + 1 = hour.minutes.length → t.NothingAfter day d h)) ∧
    (t.jumpToPreviousMinute true f = t.jumpToPreviousMinute false f ↔
      (m = 0 → NothingBefore day d h)) ∧
    (t.jumpToNextFrame true f = t.jumpToNextFrame false f ↔
      (i + 1 = minute.frames.length → m + 1 = hour.minutes.length → t.NothingAfter day d h)) ∧
    (t.jumpToPreviousFrame true f = t.jumpToPreviousFrame false f ↔
      (i = 0 → m = 0 → NothingBefore day d h)) := by
  have indexed := ofRows_indexed r generation rows
  exact ⟨way.next_minute_shift_iff indexed,way.previous_minute_shift_iff indexed,
    way.next_frame_shift_iff indexed,way.previous_frame_shift_iff indexed⟩

/-- The only frame of an hour that another one follows. -/
theorem shift_unnoticed_iff_witness :
    let r : Recordings := ⟨fun _ => 0,fun _ n => n * 1000,fun _ => "day"⟩
    let rows : List (Row Int) := [1,3600,3601].map fun n => r.row "a.mp4" ⟨n,"abc",1,2,3,4,90⟩
    let t := ofRows r 1 rows
    ∃ f day hour minute, t.Way f 0 0 0 0 day hour minute ∧
      (t.jumpToNextMinute true f = t.jumpToNextMinute false f ↔
        (0 + 1 = hour.minutes.length → t.NothingAfter day 0 0)) ∧
      (t.jumpToPreviousMinute true f = t.jumpToPreviousMinute false f ↔
        ((0 : Nat) = 0 → NothingBefore day 0 0)) ∧
      (t.jumpToNextFrame true f = t.jumpToNextFrame false f ↔
        (0 + 1 = minute.frames.length → 0 + 1 = hour.minutes.length → t.NothingAfter day 0 0)) ∧
      (t.jumpToPreviousFrame true f = t.jumpToPreviousFrame false f ↔
        ((0 : Nat) = 0 → (0 : Nat) = 0 → NothingBefore day 0 0)) := by
  intro r rows t
  obtain ⟨f,there⟩ : ∃ f, t.frameAt 0 0 0 0 = some f := Option.isSome_iff_exists.mp (by decide)
  obtain ⟨minute,atMinute,frame⟩ := Option.bind_eq_some_iff.mp there
  obtain ⟨hour,atHour,minute_⟩ := Option.bind_eq_some_iff.mp atMinute
  obtain ⟨day,atDay,hour_⟩ := Option.bind_eq_some_iff.mp atHour
  have way : t.Way f 0 0 0 0 day hour minute := ⟨atDay,hour_,minute_,frame⟩
  exact ⟨f,day,hour,minute,way,shift_unnoticed_iff r 1 rows way⟩

end Tree

end OcrSuite.Viewer
