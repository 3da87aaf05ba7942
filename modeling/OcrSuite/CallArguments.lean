import OcrSuite.PathNames
import OcrSuite.Substitution

/-! The arguments that the watcher calls its application with. -/
namespace OcrSuite.CallArguments

open PathNames Substitution

def inputFilePlaceholder : String := "%file_path%"

def inputFileStemPlaceholder : String := "%file_stem_path%"

def validateCallArguments (v : List String) : Except String (List String) :=
  if inputFilePlaceholder ∈ v then .ok v
  else .error "call_arguments should contain a file placeholder: %file_path%"

def getStemPath (filePath : Path) : Path := filePath.parent.join filePath.stem

/-- One argument; the path itself comes before the path without its suffix. -/
def makeArgument (inputFile : Path) (arg : String) : String :=
  if inputFilePlaceholder.toList <:+: arg.toList then
    .ofList (replaceAll inputFilePlaceholder.toList inputFile.str.toList arg.toList)
  else if inputFileStemPlaceholder.toList <:+: arg.toList then
    .ofList (replaceAll inputFileStemPlaceholder.toList (getStemPath inputFile).str.toList arg.toList)
  else arg

def makeSubprocessArgs (targetApp : String) (callArguments : List String) (inputFile : Path) :
    List String :=
  targetApp :: callArguments.map (makeArgument inputFile)

/-- The placeholders that a scan of an argument finds. -/
def placeholders : List (List Char) := [inputFilePlaceholder.toList,inputFileStemPlaceholder.toList]

/-- An argument with all placeholders of both kinds replaced. -/
def filled (inputFile : Path) (arg : String) : String :=
  .ofList (substitute placeholders (fun q => if q = inputFilePlaceholder.toList then inputFile.str.toList
    else (getStemPath inputFile).str.toList) arg.toList)

/-- An argument is made with the path where it had the placeholder. -/
def PutIn (inputFile : Path) (arg : String) : Prop :=
  ∃ front back, arg.toList = front ++ inputFilePlaceholder.toList ++ back ∧
    (makeArgument inputFile arg).toList = front ++ inputFile.str.toList ++
      replaceAll inputFilePlaceholder.toList inputFile.str.toList back

/-- Lists are accepted if the path is put into some argument; then each argument is filled. -/
structure Agrees (targetApp : String) (callArguments : List String) (inputFile : Path) : Prop where
  accepted : (∃ v, validateCallArguments callArguments = .ok v) ↔
    ∃ arg ∈ callArguments, PutIn inputFile arg
  substituted : ∀ v, validateCallArguments callArguments = .ok v →
    makeSubprocessArgs targetApp v inputFile = targetApp :: callArguments.map (filled inputFile)

theorem placeholders_proper : ∀ q ∈ placeholders, q ≠ [] := by decide

theorem inputFilePlaceholder_ne_nil : inputFilePlaceholder.toList ≠ [] :=
  placeholders_proper _ List.mem_cons_self

theorem validateCallArguments_eq_ok {v v' : List String} :
    validateCallArguments v = .ok v' ↔ inputFilePlaceholder ∈ v ∧ v = v' := by
  by_cases member : inputFilePlaceholder ∈ v <;> simp [validateCallArguments,member]

theorem putIn_iff {inputFile : Path} {arg : String} :
    PutIn inputFile arg ↔ inputFilePlaceholder.toList <:+: arg.toList := by
  constructor
  · rintro ⟨front,back,parts,_⟩
    exact ⟨front,back,parts.symm⟩
  · intro inside
    obtain ⟨front,back,parts,replaced⟩ := exists_replaced inside inputFilePlaceholder_ne_nil
    refine ⟨front,back,parts,?_⟩
    rw [makeArgument,if_pos inside,String.toList_ofList,replaced]

/-! ## The two scans -/

/-- The placeholders without the signs around them. -/
def filePath : List Char := "file_path".toList

def fileStemPath : List Char := "file_stem_path".toList

theorem inputFilePlaceholder_eq (rest : List Char) :
    inputFilePlaceholder.toList ++ rest = '%' :: (filePath ++ '%' :: rest) := rfl

theorem inputFileStemPlaceholder_eq (rest : List Char) :
    inputFileStemPlaceholder.toList ++ rest = '%' :: (fileStemPath ++ '%' :: rest) := rfl

/-- Only the path is put in. -/
def put (p text : List Char) : List Char := replaceAll inputFilePlaceholder.toList p text

/-- The path and the path without its suffix are put in. -/
def fill (p s text : List Char) : List Char :=
  substitute placeholders (fun q => if q = inputFilePlaceholder.toList then p else s) text

theorem length_placeholder : inputFilePlaceholder.toList.length = 11 := rfl

theorem length_stem : inputFileStemPlaceholder.toList.length = 16 := rfl

theorem percent_not_mem_filePath : '%' ∉ filePath := by decide

theorem percent_not_mem_fileStemPath : '%' ∉ fileStemPath := by decide

variable {p s text rest : List Char}

theorem put_placeholder : put p (inputFilePlaceholder.toList ++ rest) = p ++ put p rest :=
  substitute_append (standing_self _ _) inputFilePlaceholder_ne_nil

theorem put_cons {c : Char} (other : ¬ inputFilePlaceholder.toList <+: c :: rest) :
    put p (c :: rest) = c :: put p rest :=
  substitute_cons (standing_eq_none.mpr (by simpa using other))

theorem put_word {word : List Char} (outside : '%' ∉ word) : put p (word ++ rest) = word ++ put p rest := by
  refine substitute_append_of_no_start rest (fun x member q known start => ?_) (by decide)
  obtain rfl := List.mem_singleton.mp known
  obtain rfl : '%' = x := Option.some.inj start
  exact outside member

theorem fill_word {word : List Char} (outside : '%' ∉ word) :
    fill p s (word ++ rest) = word ++ fill p s rest := by
  refine substitute_append_of_no_start rest (fun x member q known start => ?_) placeholders_proper
  obtain rfl : '%' = x := by
    rcases List.mem_pair.mp known with rfl | rfl <;> exact Option.some.inj start
  exact outside member

theorem not_prefix_stem : ¬ inputFilePlaceholder.toList <+: inputFileStemPlaceholder.toList ++ rest := by
  intro start
  have within := List.prefix_of_prefix_length_le start (List.prefix_append _ rest) (by decide)
  exact absurd within (by decide)

theorem standing_stem : standing placeholders (inputFileStemPlaceholder.toList ++ rest) =
    some inputFileStemPlaceholder.toList :=
  (standing_cons_of_not_start not_prefix_stem).trans (standing_self _ _)

theorem fill_placeholder : fill p s (inputFilePlaceholder.toList ++ rest) = p ++ fill p s rest :=
  substitute_append (standing_self _ _) inputFilePlaceholder_ne_nil

theorem fill_stem : fill p s (inputFileStemPlaceholder.toList ++ rest) = s ++ fill p s rest :=
  substitute_append standing_stem (placeholders_proper _ (List.mem_cons_of_mem _ List.mem_cons_self))

theorem fill_cons {c : Char} (none_ : standing placeholders (c :: rest) = none) :
    fill p s (c :: rest) = c :: fill p s rest :=
  substitute_cons none_

/-- The scan that knows the path's placeholder only goes through the other one up to its last sign. -/
theorem put_stem : put p (inputFileStemPlaceholder.toList ++ rest) =
    '%' :: (fileStemPath ++ put p ('%' :: rest)) := by
  have other : ¬ inputFilePlaceholder.toList <+: inputFileStemPlaceholder.toList ++ rest :=
    not_prefix_stem
  rw [inputFileStemPlaceholder_eq] at other ⊢
  rw [put_cons other,put_word percent_not_mem_fileStemPath]

/-- How the lengths compare where both scans are at the same place, and where one of them has passed the
sign that the other one is at. -/
structure Bounds (p s text : List Char) : Prop where
  level : (fill p s text).length ≤ (put p text).length
  fillAhead : (fill p s text).length + min p.length 11 ≤ (put p ('%' :: text)).length + 10
  putAhead : (fill p s ('%' :: text)).length + min p.length 11 ≤ (put p text).length + p.length + 1

/-- What a scan with both placeholders finds at the start. -/
theorem standing_cases (text : List Char) :
    (∃ rest, text = inputFilePlaceholder.toList ++ rest) ∨
    (∃ rest, text = inputFileStemPlaceholder.toList ++ rest) ∨
    standing placeholders text = none ∧ ¬ inputFilePlaceholder.toList <+: text := by
  cases found : standing placeholders text with
  | none => exact .inr (.inr ⟨rfl,standing_eq_none.mp found _ List.mem_cons_self⟩)
  | some q =>
    obtain ⟨known,rest,rfl⟩ := standing_eq_some found
    rcases List.mem_pair.mp known with rfl | rfl
    · exact .inl ⟨rest,rfl⟩
    · exact .inr (.inl ⟨rest,rfl⟩)

section

variable (shorter : s.length ≤ p.length) (short : s.length ≤ 16)
  (later : ∀ rest : List Char, rest.length < text.length → Bounds p s rest)
include shorter short later

theorem level_of_later : (fill p s text).length ≤ (put p text).length := by
  rcases standing_cases text with ⟨rest,rfl⟩ | ⟨rest,rfl⟩ | ⟨none_,other⟩
  · have level := (later rest (by simp only [List.length_append,length_placeholder]; omega)).level
    rw [fill_placeholder,put_placeholder,List.length_append,List.length_append]
    omega
  · have ahead := (later rest (by simp only [List.length_append,length_stem]; omega)).fillAhead
    have word : fileStemPath.length = 14 := rfl
    rw [fill_stem,put_stem,List.length_append,List.length_cons,List.length_append]
    omega
  · cases text with
    | nil => exact Nat.le_refl _
    | cons c rest =>
      have level := (later rest (Nat.lt_succ_self _)).level
      rw [fill_cons none_,put_cons other]
      exact Nat.succ_le_succ level

theorem fillAhead_of_later :
    (fill p s text).length + min p.length 11 ≤ (put p ('%' :: text)).length + 10 := by
  have word : filePath.length = 9 := rfl
  by_cases start : inputFilePlaceholder.toList <+: '%' :: text
  · -- the scan for one placeholder finds it, the other scan is past its first sign
    obtain ⟨rest,parts⟩ := start
    rw [inputFilePlaceholder_eq] at parts
    obtain ⟨_,rfl⟩ := List.cons.inj parts
    have behind := (later rest (by simp [word]; omega)).putAhead
    rw [← inputFilePlaceholder_eq,put_placeholder,fill_word percent_not_mem_filePath,List.length_append,
      List.length_append]
    omega
  · have level := level_of_later shorter short later
    rw [put_cons start,List.length_cons]
    omega

theorem putAhead_of_later :
    (fill p s ('%' :: text)).length + min p.length 11 ≤ (put p text).length + p.length + 1 := by
  have word : filePath.length = 9 := rfl
  have stemWord : fileStemPath.length = 14 := rfl
  rcases standing_cases ('%' :: text) with ⟨rest,parts⟩ | ⟨rest,parts⟩ | ⟨none_,_⟩
  · have whole := parts
    rw [inputFilePlaceholder_eq] at parts
    obtain ⟨_,rfl⟩ := List.cons.inj parts
    have ahead := (later rest (by simp [word]; omega)).fillAhead
    rw [whole,fill_placeholder,put_word percent_not_mem_filePath,List.length_append,List.length_append]
    omega
  · have whole := parts
    rw [inputFileStemPlaceholder_eq] at parts
    obtain ⟨_,rfl⟩ := List.cons.inj parts
    have ahead := (later rest (by simp [stemWord]; omega)).fillAhead
    rw [whole,fill_stem,put_word percent_not_mem_fileStemPath,List.length_append,List.length_append]
    omega
  · have level := level_of_later shorter short later
    rw [fill_cons none_,List.length_cons]
    omega

end

theorem bounds (shorter : s.length ≤ p.length) (short : s.length ≤ 16) (text : List Char) :
    Bounds p s text := by
  induction size : text.length using Nat.strong_induction_on generalizing text with
  | _ n ih =>
    have later (rest : List Char) (less : rest.length < text.length) : Bounds p s rest :=
      ih rest.length (size ▸ less) rest rfl
    exact ⟨level_of_later shorter short later,fillAhead_of_later shorter short later,
      putAhead_of_later shorter short later⟩

/-! ## Where the scans differ -/

/-- Where the scan with both placeholders finds the second one, the other scan leaves text that is longer,
or that starts with the placeholder. -/
theorem put_ne_fill_stem (begins : s <+: p) (clean : ¬ inputFileStemPlaceholder.toList <:+: p)
    (rest : List Char) : put p (inputFileStemPlaceholder.toList ++ rest) ≠
      fill p s (inputFileStemPlaceholder.toList ++ rest) := by
  rw [put_stem,fill_stem]
  intro same
  by_cases short : s.length ≤ 15
  · have ahead := (bounds begins.length_le (Nat.le_succ_of_le short) rest).fillAhead
    have sizes := congrArg List.length same
    have word : fileStemPath.length = 14 := rfl
    simp only [List.length_append,List.length_cons] at sizes
    have shorter := begins.length_le
    omega
  · obtain ⟨c,cs,letters⟩ := List.exists_cons_of_length_pos (by omega : 0 < s.length)
    obtain ⟨tail,whole⟩ := begins
    have first : '%' = c := by
      rw [letters] at same
      exact (List.cons.inj same).1
    obtain ⟨more,next⟩ : ∃ more, put p ('%' :: rest) = '%' :: more := by
      by_cases start : inputFilePlaceholder.toList <+: '%' :: rest
      · obtain ⟨later,parts⟩ := start
        rw [← parts,put_placeholder,← whole,letters,← first]
        exact ⟨_,rfl⟩
      · exact ⟨_,put_cons start⟩
    rw [next,← inputFileStemPlaceholder_eq] at same
    have inside : inputFileStemPlaceholder.toList <+: s := by
      apply List.prefix_of_prefix_length_le (List.prefix_append _ more) (same ▸ List.prefix_append _ _)
      rw [length_stem]
      omega
    exact clean (inside.isInfix.trans ⟨[],tail,by simpa using whole⟩)

/-- The two scans agree on a text exactly if the second placeholder is not found in it. -/
theorem put_eq_fill_iff (begins : s <+: p) (clean : ¬ inputFileStemPlaceholder.toList <:+: p)
    (text : List Char) : put p text = fill p s text ↔
      .pattern inputFileStemPlaceholder.toList ∉ pieces placeholders text := by
  induction text using pieces_induction placeholders_proper with
  | nil => simp [put,fill,replaceAll]
  | pattern q rest found ih =>
    obtain ⟨known,_⟩ := standing_eq_some found
    rw [pieces_append found (placeholders_proper q known)]
    rcases List.mem_pair.mp known with rfl | rfl
    · rw [put_placeholder,fill_placeholder,List.append_cancel_left_eq,ih,List.mem_cons,not_or]
      exact (and_iff_right (by decide)).symm
    · exact iff_of_false (put_ne_fill_stem begins clean rest) (by simp)
  | symbol c rest none_ ih =>
    have other := standing_eq_none.mp none_ _ List.mem_cons_self
    rw [pieces_cons none_,put_cons other,fill_cons none_,List.cons_inj_right,ih]
    simp

theorem getStemPath_begins (inputFile : Path) :
    (getStemPath inputFile).str.toList <+: inputFile.str.toList :=
  Path.join_stem_begins inputFile

theorem filled_eq (inputFile : Path) (arg : String) : filled inputFile arg =
    .ofList (fill inputFile.str.toList (getStemPath inputFile).str.toList arg.toList) := rfl

/-- An argument is filled exactly if it does not have both placeholders for the scan to find. -/
theorem makeArgument_eq_iff {inputFile : Path}
    (clean : ¬ inputFileStemPlaceholder.toList <:+: inputFile.str.toList) (arg : String) :
    makeArgument inputFile arg = filled inputFile arg ↔
      (inputFilePlaceholder.toList <:+: arg.toList →
        .pattern inputFileStemPlaceholder.toList ∉ pieces placeholders arg.toList) := by
  rw [makeArgument,filled_eq]
  by_cases path : inputFilePlaceholder.toList <:+: arg.toList
  · rw [if_pos path,String.ofList_inj]
    exact (put_eq_fill_iff (getStemPath_begins inputFile) clean _).trans
      ⟨fun unused _ => unused,fun unused => unused path⟩
  · refine iff_of_true ?_ fun inside => absurd inside path
    rw [if_neg path]
    by_cases stem : inputFileStemPlaceholder.toList <:+: arg.toList
    · rw [if_pos stem,String.ofList_inj,fill,substitute,placeholders,
        pieces_cons_of_absent (by decide) path]
      refine substitute_congr (by decide) (fun q known => ?_) _
      rw [List.mem_singleton.mp known,if_neg (by decide)]
    · rw [if_neg stem,fill,substitute_of_absent,String.ofList_toList]
      intro q known
      rcases List.mem_pair.mp known with rfl | rfl
      · exact path
      · exact stem

/-! ## The validation -/

/-- A path within an argument is put in but not accepted; after a path in an argument, the path without
its suffix is not put in. -/
theorem placeholder_left :
    let inputFile : Path := ⟨true,["v","a.mp4"],by decide⟩
    (∀ q ∈ placeholders, ¬ q <:+: inputFile.str.toList) ∧
    ¬ Agrees "ocs" ["--in=%file_path%"] inputFile ∧
    ¬ Agrees "ocs" ["%file_path%","%file_path%:%file_stem_path%"] inputFile := by
  intro inputFile
  refine ⟨by decide,fun agrees => ?_,fun agrees => ?_⟩
  · obtain ⟨v,accepted⟩ := agrees.accepted.mpr ⟨_,List.mem_cons_self,putIn_iff.mpr (by decide)⟩
    exact absurd (validateCallArguments_eq_ok.mp accepted).1 (by decide)
  · exact absurd (agrees.substituted _ rfl) (by decide)

/-- The lists for which the validation and the substitution agree: those that have the path's placeholder
as an argument and in no argument both placeholders for the scan to find, and those without it. -/
theorem arguments_agree_iff (targetApp : String) (callArguments : List String) (inputFile : Path)
    (clean : ¬ inputFileStemPlaceholder.toList <:+: inputFile.str.toList) :
    Agrees targetApp callArguments inputFile ↔
      (inputFilePlaceholder ∈ callArguments ∧
        ∀ arg ∈ callArguments, inputFilePlaceholder.toList <:+: arg.toList →
          .pattern inputFileStemPlaceholder.toList ∉ pieces placeholders arg.toList) ∨
      ∀ arg ∈ callArguments, ¬ inputFilePlaceholder.toList <:+: arg.toList := by
  constructor
  · intro agrees
    by_cases whole : inputFilePlaceholder ∈ callArguments
    · refine .inl ⟨whole,fun arg member => (makeArgument_eq_iff clean arg).mp ?_⟩
      have same := agrees.substituted _ (validateCallArguments_eq_ok.mpr ⟨whole,rfl⟩)
      exact List.map_inj_left.mp (List.cons.inj same).2 arg member
    · refine .inr fun arg member inside => whole ?_
      obtain ⟨v,accepted⟩ := agrees.accepted.mpr ⟨arg,member,putIn_iff.mpr inside⟩
      exact (validateCallArguments_eq_ok.mp accepted).1
  · rintro (⟨whole,single⟩ | none_)
    · constructor
      · exact iff_of_true ⟨_,validateCallArguments_eq_ok.mpr ⟨whole,rfl⟩⟩ ⟨_,whole,putIn_iff.mpr List.infix_rfl⟩
      · intro v accepted
        obtain ⟨_,rfl⟩ := validateCallArguments_eq_ok.mp accepted
        rw [makeSubprocessArgs,List.map_inj_left.mpr fun arg member =>
          (makeArgument_eq_iff clean arg).mpr (single arg member)]
    · have rejected : inputFilePlaceholder ∉ callArguments := fun whole => none_ _ whole List.infix_rfl
      constructor
      · refine iff_of_false (fun ⟨v,accepted⟩ => ?_) fun ⟨arg,member,here⟩ =>
          none_ arg member (putIn_iff.mp here)
        exact rejected (validateCallArguments_eq_ok.mp accepted).1
      · exact fun v accepted => absurd (validateCallArguments_eq_ok.mp accepted).1 rejected

theorem arguments_agree_iff_witness :
    Agrees "ocs" ["-i","%file_path%","-o=%file_stem_path%.db"] ⟨true,["v","a.mp4"],by decide⟩ :=
  (arguments_agree_iff _ _ _ (by decide)).mpr (.inl (by decide))

end OcrSuite.CallArguments
