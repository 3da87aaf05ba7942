import Mathlib.Tactic.Ring
import OcrSuite.Executor

/-! The watcher's patterns on the recogniser's progress line: what they capture of it, and which lines
are read back as they were printed. -/
namespace OcrSuite.Executor

open Pattern ProgressLine SingleInstance

variable {V : Type}

/-! ## Numbers -/

theorem isDigit_of_mem_zeros {k n : Nat} {c : Char}
    (member : c ∈ List.replicate k '0' ++ decimal n) : c.isDigit = true := by
  rcases List.mem_append.mp member with zeros | inside
  · rw [List.eq_of_mem_replicate zeros]
    decide
  · exact isDigit_of_mem_decimal inside

theorem natural_zeros (k n : Nat) : natural (List.replicate k '0' ++ decimal n) = some n := by
  have digit : ∀ c ∈ List.replicate k '0' ++ decimal n, c.isDigit = true :=
    fun _ member => isDigit_of_mem_zeros member
  have some_ : List.replicate k '0' ++ decimal n ≠ [] :=
    List.append_ne_nil_of_right_ne_nil _ Nat.toDigits_ne_nil
  rw [natural,if_pos (isNumeral_of_digits some_ digit),filter_underscores digit,Nat.ofDigitChars_append,
    Nat.ofDigitChars_replicate_zero,Nat.mul_zero,decimal,Nat.ofDigitChars_ten_toDigits]

theorem digits_zeroPad (width n : Nat) : digits (zeroPad width (decimal n)) = some n := by
  have some_ : zeroPad width (decimal n) ≠ [] :=
    List.append_ne_nil_of_right_ne_nil _ Nat.toDigits_ne_nil
  rw [digits,if_neg some_,zeroPad,natural_zeros]

theorem length_zeroPad_hundredths (h : Nat) : (zeroPad 2 (decimal (h % 100))).length = 2 := by
  have short : (decimal (h % 100)).length ≤ 2 :=
    (Nat.length_toDigits_le_iff (by decide) (by decide)).mpr (Nat.mod_lt h (by decide))
  simp only [zeroPad,List.length_append,List.length_replicate]
  omega

theorem fixedPoint?_fixedPoint (h : Nat) : fixedPoint? (fixedPoint h) = some ((h : ℚ) / 100) := by
  let fraction := zeroPad 2 (decimal (h % 100))
  obtain ⟨k,shape⟩ : ∃ k, fixedPoint h =
      (List.replicate k '0' ++ decimal (h / 100)) ++ '.' :: fraction := by
    exact ⟨_,by rw [fixedPoint,zeroPad,List.append_assoc]⟩
  have whole : ∀ c ∈ List.replicate k '0' ++ decimal (h / 100), decide (c ≠ '.') = true := by
    intro c member
    have other : c ≠ '.' := ne_of_isDigit (isDigit_of_mem_zeros member) rfl
    simpa using other
  have some_ : List.replicate k '0' ++ decimal (h / 100) ≠ [] :=
    List.append_ne_nil_of_right_ne_nil _ Nat.toDigits_ne_nil
  have plain : fraction.filter (· ≠ '_') = fraction :=
    filter_underscores fun _ member => isDigit_of_mem_zeroPad member
  have front : (fixedPoint h).takeWhile (· ≠ '.') = List.replicate k '0' ++ decimal (h / 100) := by
    rw [shape,List.takeWhile_append_of_pos whole]
    simp
  have back : (fixedPoint h).dropWhile (· ≠ '.') = '.' :: fraction := by
    rw [shape,List.dropWhile_append_of_pos whole]
    simp
  have value : ((h / 100 : Nat) : ℚ) + ((h % 100 : Nat) : ℚ) / 10 ^ 2 = (h : ℚ) / 100 := by
    have parts : (100 * (h / 100 : Nat) + (h % 100 : Nat) : ℚ) = h := by
      exact_mod_cast Nat.div_add_mod h 100
    calc ((h / 100 : Nat) : ℚ) + ((h % 100 : Nat) : ℚ) / 10 ^ 2
      _ = (100 * (h / 100 : Nat) + (h % 100 : Nat)) / 100 := by ring
      _ = (h : ℚ) / 100 := by rw [parts]
  have whole? : digits (List.replicate k '0' ++ decimal (h / 100)) = some (h / 100) := by
    rw [digits,if_neg some_,natural_zeros]
  have fraction? : digits fraction = some (h % 100) := digits_zeroPad 2 (h % 100)
  have places : fraction.length = 2 := length_zeroPad_hundredths h
  simp only [fixedPoint?,front,back,List.drop_succ_cons,List.drop_zero,some_,false_and,if_false,
    whole?,fraction?,plain,places,Option.bind_eq_bind,Option.bind_some]
  exact congrArg some value

theorem not_mem_decimal {c : Char} (other : c.isDigit = false) (n : Nat) : c ∉ decimal n := by
  intro member
  simp [isDigit_of_mem_decimal member] at other

theorem not_mem_fixedPoint {c : Char} (other : c.isDigit = false) (point : c ≠ '.') (h : Nat) :
    c ∉ fixedPoint h := by
  intro member
  rcases mem_fixedPoint member with digit | same
  · simp [digit] at other
  · exact point same

theorem not_mem_timeString {c : Char} (other : c.isDigit = false) (colon : c ≠ ':') (n : Nat) :
    c ∉ timeString n := by
  intro member
  rcases mem_timeString member with digit | same
  · simp [digit] at other
  · exact colon same

theorem toLower_of_isDigit {c : Char} (digit : c.isDigit = true) : c.toLower = c := by
  refine dif_neg fun ⟨letter,_⟩ => ?_
  simp only [Char.isDigit,Bool.and_eq_true,decide_eq_true_eq] at digit
  exact absurd (UInt32.le_trans letter digit.2) (by decide)

/-- A printed rate is read back. -/
theorem float_fixedPoint (d : Floats V) (h : Nat) :
    float d (fixedPoint h) = some (d.nearest ((h : ℚ) / 100)) := by
  have solid : strip (fixedPoint h) = fixedPoint h := by
    refine strip_of_solid fun c member => ?_
    rcases mem_fixedPoint member with digit | rfl
    · exact not_isWhitespace_of_isDigit digit
    · decide
  have lower : (fixedPoint h).map Char.toLower = fixedPoint h := by
    refine (List.map_congr_left fun c member => ?_).trans (List.map_id _)
    rcases mem_fixedPoint member with digit | rfl
    · exact toLower_of_isDigit digit
    · decide
  have noExponent : (fixedPoint h).dropWhile (· ≠ 'e') = [] := by
    refine List.dropWhile_eq_nil_iff.mpr fun c member => ?_
    have other : c ≠ 'e' := by
      rintro rfl
      exact not_mem_fixedPoint rfl (by decide) h member
    simpa using other
  have named {word : List Char} {c : Char} (member : c ∈ word) (letter : c.isDigit = false)
      (point : c ≠ '.') : fixedPoint h ≠ word := by
    rintro rfl
    exact not_mem_fixedPoint letter point h member
  have value : unsigned d (fixedPoint h) = some (d.nearest ((h : ℚ) / 100)) := by
    have infinite : ¬ (fixedPoint h = "inf".toList ∨ fixedPoint h = "infinity".toList) :=
      not_or.mpr ⟨named (c := 'i') (by simp) rfl (by decide),named (c := 'i') (by simp) rfl (by decide)⟩
    have undefined : fixedPoint h ≠ "nan".toList := named (c := 'n') (by simp) rfl (by decide)
    simp only [unsigned,lower,if_neg infinite,if_neg undefined,decimal?,noExponent,
      fixedPoint?_fixedPoint,Option.map_some]
  rw [float,solid]
  split
  · rename_i rest same
    exact absurd same (named (c := '-') (by simp) rfl (by decide))
  · rename_i rest same
    exact absurd same (named (c := '+') (by simp) rfl (by decide))
  · exact value

/-! ## Where the line can be cut -/

/-- A letter of each of the words behind the rates and the queue is nowhere else, so there is one way
to cut at these words. -/
theorem rates_inj {front front' seek seek' queue queue' times times' : List Char}
    (letter : 'O' ∉ front) (plain : ∀ c ∈ seek ++ (queue ++ times), c ≠ 'O' ∧ c ≠ 'k' ∧ c ≠ '[')
    (same : front ++ (" OCR/s, ".toList ++ (seek ++ (" seek/s, ".toList ++ (queue ++
      (" in queue [".toList ++ times))))) =
      front' ++ (" OCR/s, ".toList ++ (seek' ++ (" seek/s, ".toList ++ (queue' ++
        (" in queue [".toList ++ times')))))) :
    front = front' ∧ seek = seek' ∧ queue = queue' ∧ times = times' := by
  have ofSeek (c : Char) (member : c ∈ seek) := plain c (List.mem_append_left _ member)
  have ofQueue (c : Char) (member : c ∈ queue) :=
    plain c (List.mem_append_right _ (List.mem_append_left _ member))
  have ofTimes (c : Char) (member : c ∈ times) :=
    plain c (List.mem_append_right _ (List.mem_append_right _ member))
  have o : 'O' ∉ seek ∧ 'O' ∉ queue ∧ 'O' ∉ times :=
    ⟨fun member => (ofSeek _ member).1 rfl,fun member => (ofQueue _ member).1 rfl,
      fun member => (ofTimes _ member).1 rfl⟩
  have k : 'k' ∉ seek ∧ 'k' ∉ queue ∧ 'k' ∉ times :=
    ⟨fun member => (ofSeek _ member).2.1 rfl,fun member => (ofQueue _ member).2.1 rfl,
      fun member => (ofTimes _ member).2.1 rfl⟩
  have bracket : '[' ∉ queue ∧ '[' ∉ times :=
    ⟨fun member => (ofQueue _ member).2.2 rfl,fun member => (ofTimes _ member).2.2 rfl⟩
  have first : (front ++ [' ']) ++ 'O' :: ("CR/s, ".toList ++ (seek ++ (" seek/s, ".toList ++ (queue ++
      (" in queue [".toList ++ times))))) = (front' ++ [' ']) ++ 'O' :: ("CR/s, ".toList ++ (seek' ++
        (" seek/s, ".toList ++ (queue' ++ (" in queue [".toList ++ times'))))) := by
    simpa using same
  obtain ⟨fronts,_,rest⟩ := (List.append_cons_inj_of_notMem (by simpa using letter)
    (by simp [o])).mp first
  have second : (seek ++ " see".toList) ++ 'k' :: ("/s, ".toList ++ (queue ++ (" in queue [".toList ++
      times))) = (seek' ++ " see".toList) ++ 'k' :: ("/s, ".toList ++ (queue' ++
        (" in queue [".toList ++ times'))) := by
    simpa using rest
  obtain ⟨seeks,_,rest⟩ := (List.append_cons_inj_of_notMem (by simp [k]) (by simp [k])).mp second
  have third : (queue ++ " in queue ".toList) ++ '[' :: times =
      (queue' ++ " in queue ".toList) ++ '[' :: times' := by
    simpa using rest
  obtain ⟨queues,_,times⟩ := (List.append_cons_inj_of_notMem (by simp [bracket]) bracket.2).mp third
  exact ⟨List.append_cancel_right fronts,List.append_cancel_right seeks,
    List.append_cancel_right queues,times⟩

/-- What comes before the word behind the first rate, and what is in the brackets and behind. -/
def front (r : Report) : List Char :=
  r.spinner.char :: (r.percentage ++ ' ' :: (r.activity ++ (" ... ".toList ++
    fixedPoint r.recognizedFramesPerSecond)))

def times (r : Report) : List Char :=
  match r.maxFrames with
  | some m => timeString r.lastFrame ++ (" / ".toList ++ (timeString m.seconds ++ ("]".toList ++ r.padding)))
  | none => timeString r.lastFrame ++ ("]".toList ++ r.padding)

theorem line_eq (r : Report) : r.line = front r ++ (" OCR/s, ".toList ++
    (fixedPoint r.totalFramesPerSecond ++ (" seek/s, ".toList ++ (decimal r.leftInQueue ++
      (" in queue [".toList ++ times r))))) := by
  cases known : r.maxFrames <;> simp [Report.line,Report.text,Report.time,front,times,known]

theorem not_mem_activity {c : Char} (letter : c ∉ "Stopping".toList ++ "Processing".toList) (r : Report) :
    c ∉ r.activity := by
  rw [List.mem_append,not_or] at letter
  unfold Report.activity
  split
  · exact letter.1
  · exact letter.2

theorem spinner_char_mem (s : SpinnerState) : s.char ∈ "\\|/-".toList := by
  cases s <;> decide

theorem front_letter (r : Report) : 'O' ∉ front r := by
  have spinner : 'O' ≠ r.spinner.char := by
    intro same
    exact absurd (same ▸ spinner_char_mem r.spinner) (by decide)
  have percentage : 'O' ∉ r.percentage := by
    unfold Report.percentage
    split <;> simp [not_mem_decimal]
  simp [front,spinner,percentage,not_mem_activity,not_mem_fixedPoint]

theorem mem_padding (r : Report) {c : Char} (member : c ∈ r.padding) : isSpace c = true := by
  rcases r.blank c member with rfl | rfl | rfl <;> decide

theorem not_mem_padding {c : Char} (shown : isSpace c = false) (r : Report) : c ∉ r.padding := by
  intro member
  simp [mem_padding r member] at shown

theorem line_plain (r : Report) : ∀ c ∈ fixedPoint r.totalFramesPerSecond ++
    (decimal r.leftInQueue ++ times r), c ≠ 'O' ∧ c ≠ 'k' ∧ c ≠ '[' := by
  have away {c : Char} (digit : c.isDigit = false) (space : isSpace c = false)
      (other : c ∉ ".: /]".toList) : c ∉ fixedPoint r.totalFramesPerSecond ++
        (decimal r.leftInQueue ++ times r) := by
    have letter : c ≠ '.' ∧ c ≠ ':' ∧ c ≠ ' ' ∧ c ≠ '/' ∧ c ≠ ']' := by simpa using other
    unfold times
    split <;> simp [not_mem_fixedPoint digit letter.1,not_mem_decimal digit,
      not_mem_timeString digit letter.2.1,not_mem_padding space,letter]
  intro c member
  refine ⟨?_,?_,?_⟩
  · rintro rfl
    exact away rfl (by decide) (by decide) member
  · rintro rfl
    exact away rfl (by decide) (by decide) member
  · rintro rfl
    exact away rfl (by decide) (by decide) member

/-! ## The patterns as cuts -/

theorem matches_anyGroup {items : List (Item Char)} {xs : List Char} {groups : List (List Char)} :
    Matches (anyGroup :: items) xs groups ↔ ∃ piece rest later, xs = piece ++ rest ∧
      (∀ c ∈ piece, isAny c = true) ∧ Matches items rest later ∧ groups = piece :: later := by
  simp [anyGroup,Matches]

theorem matches_rates {items : List (Item Char)} {xs : List Char} {groups : List (List Char)} :
    Matches (rates items) xs groups ↔ ∃ ocr seek queue rest later,
      xs = ocr ++ (" OCR/s, ".toList ++ (seek ++ (" seek/s, ".toList ++ (queue ++
        (" in queue [".toList ++ rest))))) ∧
      (∀ c ∈ ocr ++ (seek ++ queue), isAny c = true) ∧ Matches items rest later ∧
      groups = ocr :: seek :: queue :: later := by
  simp only [rates,matches_anyGroup,matches_literal,List.mem_append]
  constructor
  · rintro ⟨ocr,_,_,rfl,first,⟨_,rfl,seek,_,_,rfl,second,⟨_,rfl,queue,_,_,rfl,third,⟨rest,rfl,way⟩,rfl⟩,
      rfl⟩,rfl⟩
    refine ⟨ocr,seek,queue,rest,_,rfl,fun c member => ?_,way,rfl⟩
    rcases member with inOcr | inSeek | inQueue
    · exact first c inOcr
    · exact second c inSeek
    · exact third c inQueue
  · rintro ⟨ocr,seek,queue,rest,later,rfl,shown,way,rfl⟩
    exact ⟨ocr,_,_,rfl,fun c member => shown c (.inl member),⟨_,rfl,seek,_,_,rfl,
      fun c member => shown c (.inr (.inl member)),⟨_,rfl,queue,_,_,rfl,
        fun c member => shown c (.inr (.inr member)),⟨rest,rfl,way⟩,rfl⟩,rfl⟩,rfl⟩

/-- Nothing is captured at the end, where only blanks may be. -/
theorem matches_lineEnd {xs : List Char} {groups : List (List Char)} (way : Matches lineEnd xs groups) :
    (∀ c ∈ xs, isSpace c = true) ∧ groups = [] := by
  obtain ⟨blanks,rest,_,rfl,blank,_,_,⟨ends,rfl⟩,rfl⟩ := way
  refine ⟨fun c member => ?_,rfl⟩
  have last : rest = [] ∨ rest = ['\n'] := by simpa [isEnd] using ends
  rcases List.mem_append.mp member with inside | after
  · exact blank c inside
  · rcases last with rfl | rfl
    · cases after
    · obtain rfl := List.mem_singleton.mp after
      decide

theorem matches_lineEnd_of_blank {xs : List Char} (blank : ∀ c ∈ xs, isSpace c = true) :
    Matches lineEnd xs [] :=
  ⟨xs,[],[],by simp,blank,Nat.zero_le _,by simp,⟨rfl,rfl⟩,rfl⟩

/-- The last bracket is the one before the padding. -/
theorem matches_close {xs text blanks : List Char} {groups : List (List Char)}
    (outside : ']' ∉ text) (blank : ∀ c ∈ blanks, isSpace c = true) (same : xs = text ++ ("]".toList ++ blanks)) :
    Matches (anyGroup :: (literal "]".toList ++ lineEnd)) xs groups ↔
      (∀ c ∈ text, isAny c = true) ∧ groups = [text] := by
  have closed : ']' ∉ blanks := by
    intro member
    exact absurd (blank ']' member) (by decide)
  rw [matches_anyGroup]
  constructor
  · rintro ⟨piece,_,later,rfl,shown,way,rfl⟩
    obtain ⟨rest,rfl,ends⟩ := matches_literal.mp way
    obtain ⟨_,rfl⟩ := matches_lineEnd ends
    have cut : text ++ ']' :: blanks = piece ++ ']' :: rest := by simpa using same.symm
    obtain ⟨rfl,_,rfl⟩ := (List.append_cons_inj_of_notMem outside closed).mp cut
    exact ⟨shown,rfl⟩
  · rintro ⟨shown,rfl⟩
    exact ⟨text,_,[],same,shown,matches_literal.mpr ⟨blanks,rfl,matches_lineEnd_of_blank blank⟩,rfl⟩

theorem matches_closeTotal {xs current total blanks : List Char} {groups : List (List Char)}
    (slash : '/' ∉ current) (slash' : '/' ∉ total) (outside : ']' ∉ total)
    (blank : ∀ c ∈ blanks, isSpace c = true)
    (same : xs = current ++ (" / ".toList ++ (total ++ ("]".toList ++ blanks)))) :
    Matches (anyGroup :: (literal " / ".toList ++ anyGroup :: (literal "]".toList ++ lineEnd))) xs
      groups ↔ (∀ c ∈ current ++ total, isAny c = true) ∧ groups = [current,total] := by
  have closed : '/' ∉ blanks := by
    intro member
    exact absurd (blank '/' member) (by decide)
  have rest : Matches (anyGroup :: (literal "]".toList ++ lineEnd)) (total ++ ("]".toList ++ blanks)) =
      fun groups => (∀ c ∈ total, isAny c = true) ∧ groups = [total] :=
    funext fun _ => propext (matches_close outside blank rfl)
  rw [matches_anyGroup]
  constructor
  · rintro ⟨piece,_,later,rfl,shown,way,rfl⟩
    obtain ⟨after,rfl,ends⟩ := matches_literal.mp way
    have cut : (current ++ [' ']) ++ '/' :: (' ' :: (total ++ ']' :: blanks)) =
        (piece ++ [' ']) ++ '/' :: (' ' :: after) := by
      simpa using same.symm
    obtain ⟨fronts,_,backs⟩ := (List.append_cons_inj_of_notMem (by simp [slash])
      (by simp [slash',closed])).mp cut
    obtain rfl := List.append_cancel_right fronts
    obtain rfl : total ++ ("]".toList ++ blanks) = after := by simpa using backs
    rw [rest] at ends
    obtain ⟨also,rfl⟩ := ends
    exact ⟨fun c member => (List.mem_append.mp member).elim (shown c) (also c),rfl⟩
  · rintro ⟨shown,rfl⟩
    refine ⟨current,_,[total],same,fun c member => shown c (List.mem_append_left _ member),
      matches_literal.mpr ⟨_,rfl,?_⟩,rfl⟩
    rw [rest]
    exact ⟨fun c member => shown c (List.mem_append_right _ member),rfl⟩

/-- A word, three symbols between blanks, and the rest. -/
theorem matches_postfix {items : List (Item Char)} {xs : List Char} {groups : List (List Char)} :
    Matches (word :: (literal " ".toList ++ any :: any :: any :: (literal " ".toList ++ items))) xs
      groups ↔ ∃ name x y z rest, xs = name ++ ' ' :: x :: y :: z :: ' ' :: rest ∧ name ≠ [] ∧
        (∀ c ∈ name, isWord c = true) ∧ (∀ c ∈ [x,y,z], isAny c = true) ∧ Matches items rest groups := by
  constructor
  · rintro ⟨name,_,_,rfl,inWord,some_,_,way,rfl⟩
    obtain ⟨_,rfl,x,_,rfl,first,y,_,rfl,second,z,_,rfl,third,way⟩ := matches_literal.mp way
    obtain ⟨rest,rfl,after⟩ := matches_literal.mp way
    refine ⟨name,x,y,z,rest,by simp,List.ne_nil_of_length_pos some_,inWord,?_,after⟩
    simp [first,second,third]
  · rintro ⟨name,x,y,z,rest,rfl,some_,inWord,shown,way⟩
    refine ⟨name,_,groups,rfl,inWord,List.length_pos_iff.mpr some_,by simp,?_,rfl⟩
    refine matches_literal.mpr ⟨x :: y :: z :: ' ' :: rest,by simp,x,_,rfl,shown x (by simp),y,_,rfl,
      shown y (by simp),z,_,rfl,shown z (by simp),?_⟩
    exact matches_literal.mpr ⟨rest,by simp,way⟩

theorem matches_percent {items : List (Item Char)} {xs : List Char} {groups : List (List Char)} :
    Matches (lazyAny :: spaces :: percentGroup :: (literal "%".toList ++ spaces :: items)) xs groups ↔
      ∃ before blanks percentage blanks' rest later,
        xs = before ++ (blanks ++ (percentage ++ '%' :: (blanks' ++ rest))) ∧
        (∀ c ∈ before, isAny c = true) ∧ blanks ≠ [] ∧ (∀ c ∈ blanks, isSpace c = true) ∧
        percentage ≠ [] ∧ percentage.length ≤ 2 ∧ (∀ c ∈ percentage, c.isDigit = true) ∧
        blanks' ≠ [] ∧ (∀ c ∈ blanks', isSpace c = true) ∧ Matches items rest later ∧
        groups = percentage :: later := by
  constructor
  · rintro ⟨before,_,_,rfl,shown,_,_,⟨blanks,_,_,rfl,blank,some_,_,⟨percentage,_,_,rfl,digit,one,two,way,
      rfl⟩,rfl⟩,rfl⟩
    obtain ⟨_,rfl,blanks',rest,later,rfl,blank',some',_,way,rfl⟩ := matches_literal.mp way
    exact ⟨before,blanks,percentage,blanks',rest,_,by simp,shown,List.ne_nil_of_length_pos some_,
      blank,List.ne_nil_of_length_pos one,two 2 rfl,digit,List.ne_nil_of_length_pos some',blank',way,
      rfl⟩
  · rintro ⟨before,blanks,percentage,blanks',rest,later,rfl,shown,some_,blank,one,two,digit,some',blank',
      way,rfl⟩
    refine ⟨before,_,_,rfl,shown,Nat.zero_le _,by simp,⟨blanks,_,_,rfl,blank,
      List.length_pos_iff.mpr some_,by simp,⟨percentage,_,later,rfl,digit,List.length_pos_iff.mpr one,
        by simpa using two,matches_literal.mpr ⟨blanks' ++ rest,by simp,?_⟩,rfl⟩,rfl⟩,rfl⟩
    exact ⟨blanks',rest,later,rfl,blank',List.length_pos_iff.mpr some',by simp,way,rfl⟩

/-! ## The patterns on a progress line -/

variable {r : Report} {groups : List (List Char)}

theorem activity_word (r : Report) : r.activity ≠ [] ∧ ∀ c ∈ r.activity, isWord c = true := by
  unfold Report.activity
  split
  · exact ⟨by simp,List.all_eq_true.mp (by decide)⟩
  · exact ⟨by simp,List.all_eq_true.mp (by decide)⟩

theorem activity_ing (r : Report) : ∃ stem c, c ≠ ' ' ∧ r.activity = stem ++ [c,'i','n','g'] := by
  unfold Report.activity
  split
  · exact ⟨"Stop".toList,'p',by decide,by decide⟩
  · exact ⟨"Proces".toList,'s',by decide,by decide⟩

theorem percentage_mem (known : r.maxFrames = some m) : r.percentage = ' ' :: (decimal m.percentage ++ ['%']) := by
  simp [Report.percentage,known]

theorem shown_timeString {n : Nat} {c : Char} (member : c ∈ timeString n) : isAny c = true := by
  have other : c ≠ '\n' := by
    rintro rfl
    exact not_mem_timeString rfl (by decide) n member
  simpa [isAny] using other

theorem code_of_isAlphanum {c : Char} (alphanum : c.isAlphanum = true) :
    (48 ≤ c.toNat ∧ c.toNat ≤ 57) ∨ (65 ≤ c.toNat ∧ c.toNat ≤ 90) ∨ (97 ≤ c.toNat ∧ c.toNat ≤ 122) := by
  rcases Bool.or_eq_true_iff.mp alphanum with alpha | digit
  · rcases Bool.or_eq_true_iff.mp alpha with upper | lower
    · exact .inr (.inl (of_decide_eq_true upper))
    · obtain ⟨least,most⟩ := Bool.and_eq_true_iff.mp lower
      exact .inr (.inr ⟨of_decide_eq_true least,of_decide_eq_true most⟩)
  · exact .inl (Char.isDigit_iff_toNat.mp digit)

theorem not_isSpace_of_isWord {c : Char} (inWord : isWord c = true) : ¬ isSpace c = true := by
  intro space
  simp only [isSpace,Bool.or_eq_true,Bool.and_eq_true,decide_eq_true_eq] at space
  simp only [isWord,Bool.or_eq_true,decide_eq_true_eq] at inWord
  rcases inWord with alphanum | rfl
  · have code := code_of_isAlphanum alphanum
    rcases space with (rfl | code') | code'
    · simp at code
    · omega
    · omega
  · simp at space

theorem not_isDigit_of_isSpace {c : Char} (space : isSpace c = true) : ¬ c.isDigit = true := by
  intro digit
  exact not_isSpace_of_isWord (by simp [isWord,Char.isAlphanum,digit]) space

/-- Between the activity and the rate there is one way to put a word and three symbols. -/
theorem postfix_inj {name ocr : List Char} {x y z : Char} (inWord : ∀ c ∈ name, isWord c = true)
    (same : r.activity ++ (" ... ".toList ++ fixedPoint r.recognizedFramesPerSecond) =
      name ++ ' ' :: x :: y :: z :: ' ' :: ocr) : ocr = fixedPoint r.recognizedFramesPerSecond := by
  obtain ⟨_,dots⟩ := class_append_inj (p := fun c => isWord c = true) (activity_word r).2 inWord
    (by simp [isWord]) (by simp [isWord]) same
  have cut : '.' = x ∧ '.' = y ∧ '.' = z ∧ fixedPoint r.recognizedFramesPerSecond = ocr := by
    simpa using dots
  exact cut.2.2.2.symm

/-- The sign of the percentage stands in one place, behind its digits. -/
theorem percent_inj {m : MaxFrames} (known : r.maxFrames = some m)
    {before blanks percentage blanks' rest : List Char} (some_ : blanks ≠ [])
    (blank : ∀ c ∈ blanks, isSpace c = true) (digit : ∀ c ∈ percentage, c.isDigit = true)
    (blank' : ∀ c ∈ blanks', isSpace c = true) (solid : ∀ c ∈ rest.head?, ¬ isSpace c = true)
    (same : front r = before ++ (blanks ++ (percentage ++ '%' :: (blanks' ++ rest)))) :
    percentage = decimal m.percentage ∧
      rest = r.activity ++ (" ... ".toList ++ fixedPoint r.recognizedFramesPerSecond) := by
  have signs : ([r.spinner.char,' '] ++ decimal m.percentage) ++ '%' :: ([' '] ++ (r.activity ++
      (" ... ".toList ++ fixedPoint r.recognizedFramesPerSecond))) =
      ((before ++ blanks) ++ percentage) ++ '%' :: (blanks' ++ rest) := by
    simpa [front,percentage_mem known] using same
  have spinner : '%' ≠ r.spinner.char := by
    intro same
    exact absurd (same ▸ spinner_char_mem r.spinner) (by decide)
  obtain ⟨left,_,right⟩ := (List.append_cons_inj_of_notMem (by simp [spinner,not_mem_decimal])
    (by simp [not_mem_activity,not_mem_fixedPoint])).mp signs
  have spaced : ∀ c ∈ (before ++ blanks).getLast?, ¬ c.isDigit = true := by
    intro c last
    rw [List.getLast?_append_of_ne_nil _ some_] at last
    exact not_isDigit_of_isSpace (blank c (List.mem_of_getLast? last))
  have solid' : ∀ c ∈ (r.activity ++ (" ... ".toList ++ fixedPoint r.recognizedFramesPerSecond)).head?,
      ¬ isSpace c = true := by
    intro c first
    rw [List.head?_append_of_ne_nil _ (activity_word r).1] at first
    exact not_isSpace_of_isWord ((activity_word r).2 c (List.mem_of_head? first))
  obtain ⟨_,rfl⟩ := append_class_inj (p := fun c => c.isDigit = true)
    (fun c member => isDigit_of_mem_decimal member) digit (by simp) spaced left
  obtain ⟨_,rfl⟩ := class_append_inj (p := fun c => isSpace c = true) (by simp [isSpace]) blank' solid'
    solid right
  exact ⟨rfl,rfl⟩

theorem percentage_groups {m : MaxFrames} (known : r.maxFrames = some m)
    (way : Matches percentageRegex r.line groups) : m.percentage < 100 ∧
      groups = [decimal m.percentage,fixedPoint r.recognizedFramesPerSecond,
        fixedPoint r.totalFramesPerSecond,decimal r.leftInQueue,timeString r.lastFrame,
        timeString m.seconds] := by
  obtain ⟨before,blanks,percentage,blanks',_,_,line,_,some_,blank,_,two,digit,_,blank',named,rfl⟩ :=
    matches_percent.mp way
  obtain ⟨name,x,y,z,_,rfl,nonempty,inWord,_,rated⟩ := matches_postfix.mp named
  obtain ⟨ocr,seek,queue,times',_,rfl,_,timed,rfl⟩ := matches_rates.mp rated
  have cut : front r ++ (" OCR/s, ".toList ++ (fixedPoint r.totalFramesPerSecond ++
      (" seek/s, ".toList ++ (decimal r.leftInQueue ++ (" in queue [".toList ++ times r))))) =
      (before ++ (blanks ++ (percentage ++ '%' :: (blanks' ++ (name ++ ' ' :: x :: y :: z :: ' ' ::
        ocr))))) ++ (" OCR/s, ".toList ++ (seek ++ (" seek/s, ".toList ++ (queue ++
          (" in queue [".toList ++ times'))))) := by
    rw [← line_eq,line]
    simp
  obtain ⟨fronts,rfl,rfl,rfl⟩ := rates_inj (front_letter r) (line_plain r) cut
  have solid : ∀ c ∈ (name ++ ' ' :: x :: y :: z :: ' ' :: ocr).head?, ¬ isSpace c = true := by
    intro c first
    rw [List.head?_append_of_ne_nil _ nonempty] at first
    exact not_isSpace_of_isWord (inWord c (List.mem_of_head? first))
  obtain ⟨rfl,rest⟩ := percent_inj known some_ blank digit blank' solid fronts
  obtain rfl := postfix_inj inWord rest.symm
  obtain ⟨_,rfl⟩ := (matches_closeTotal (not_mem_timeString rfl (by decide) r.lastFrame)
    (not_mem_timeString rfl (by decide) m.seconds) (not_mem_timeString rfl (by decide) m.seconds)
    (fun c member => mem_padding r member) (by simp [times,known])).mp timed
  exact ⟨(Nat.length_toDigits_le_iff (by decide) (by decide)).mp two,rfl⟩

theorem matches_lazyAny {items : List (Item Char)} {xs : List Char} {groups : List (List Char)} :
    Matches (lazyAny :: items) xs groups ↔
      ∃ before rest, xs = before ++ rest ∧ (∀ c ∈ before, isAny c = true) ∧ Matches items rest groups := by
  simp [lazyAny,Matches]

theorem spinner_any (s : SpinnerState) : isAny s.char = true := by
  cases s <;> decide

theorem shown_rates (r : Report) : ∀ c ∈ fixedPoint r.recognizedFramesPerSecond ++
    (fixedPoint r.totalFramesPerSecond ++ decimal r.leftInQueue), isAny c = true := by
  intro c member
  have other : c ≠ '\n' := by
    rintro rfl
    simp [not_mem_fixedPoint,not_mem_decimal] at member
  simpa [isAny] using other

/-- The line from the activity on. -/
def rest (r : Report) : List Char :=
  r.activity ++ (" ... ".toList ++ (fixedPoint r.recognizedFramesPerSecond ++ (" OCR/s, ".toList ++
    (fixedPoint r.totalFramesPerSecond ++ (" seek/s, ".toList ++ (decimal r.leftInQueue ++
      (" in queue [".toList ++ times r)))))))

theorem line_eq_rest (r : Report) : r.line = r.spinner.char :: (r.percentage ++ ' ' :: rest r) := by
  rw [line_eq]
  simp [front,rest]

theorem rest_way {items : List (Item Char)} (timed : Matches items (times r) groups) :
    Matches (word :: (literal " ".toList ++ any :: any :: any :: (literal " ".toList ++ rates items)))
      (rest r) (fixedPoint r.recognizedFramesPerSecond :: fixedPoint r.totalFramesPerSecond ::
        decimal r.leftInQueue :: groups) := by
  refine matches_postfix.mpr ⟨r.activity,'.','.','.',_,rfl,(activity_word r).1,(activity_word r).2,
    by simp [isAny],?_⟩
  exact matches_rates.mpr ⟨_,_,_,times r,_,rfl,shown_rates r,timed,rfl⟩

theorem percentage_way {m : MaxFrames} (known : r.maxFrames = some m) (small : m.percentage < 100) :
    Matches percentageRegex r.line [decimal m.percentage,fixedPoint r.recognizedFramesPerSecond,
      fixedPoint r.totalFramesPerSecond,decimal r.leftInQueue,timeString r.lastFrame,
      timeString m.seconds] := by
  have two : (decimal m.percentage).length ≤ 2 :=
    (Nat.length_toDigits_le_iff (by decide) (by decide)).mpr small
  have written : times r = timeString r.lastFrame ++ (" / ".toList ++ (timeString m.seconds ++
      ("]".toList ++ r.padding))) := by
    simp [times,known]
  have shown : ∀ c ∈ timeString r.lastFrame ++ timeString m.seconds, isAny c = true :=
    fun c member => (List.mem_append.mp member).elim shown_timeString shown_timeString
  have timed := (matches_closeTotal (not_mem_timeString rfl (by decide) r.lastFrame)
    (not_mem_timeString rfl (by decide) m.seconds) (not_mem_timeString rfl (by decide) m.seconds)
    (fun c member => mem_padding r member) written).mpr ⟨shown,rfl⟩
  refine matches_percent.mpr ⟨[r.spinner.char],[' '],decimal m.percentage,[' '],rest r,_,?_,
    by simp [spinner_any],by simp,by simp [isSpace],Nat.toDigits_ne_nil,two,
    fun c member => isDigit_of_mem_decimal member,by simp,by simp [isSpace],rest_way timed,rfl⟩
  rw [line_eq_rest,percentage_mem known]
  simp

/-- Without a percentage there is no sign for one. -/
theorem not_percentage (unknown : r.maxFrames = none) : ¬ Matches percentageRegex r.line groups := by
  intro way
  obtain ⟨before,blanks,percentage,blanks',_,_,line,_⟩ := matches_percent.mp way
  have sign : '%' ∈ r.line := by simp [line]
  have spinner : '%' ≠ r.spinner.char := by
    intro same
    exact absurd (same ▸ spinner_char_mem r.spinner) (by decide)
  have none_ : '%' ∉ r.line := by
    simp [line_eq,front,times,unknown,Report.percentage,spinner,not_mem_activity,not_mem_fixedPoint,
      not_mem_decimal,not_mem_timeString,not_mem_padding,isSpace]
  exact none_ sign

/-- What is in the brackets. -/
def inside (r : Report) : List Char :=
  match r.maxFrames with
  | some m => timeString r.lastFrame ++ (" / ".toList ++ timeString m.seconds)
  | none => timeString r.lastFrame

theorem nonPercentage_times (r : Report) : Matches (anyGroup :: (literal "]".toList ++ lineEnd)) (times r)
    groups ↔ groups = [inside r] := by
  have outside : ']' ∉ inside r := by
    unfold inside
    split <;> simp [not_mem_timeString]
  have shown : ∀ c ∈ inside r, isAny c = true := by
    intro c member
    have other : c ≠ '\n' := by
      rintro rfl
      revert member
      unfold inside
      split <;> simp [not_mem_timeString]
    simpa [isAny] using other
  rw [matches_close outside (fun c member => mem_padding r member) (by
    unfold times inside
    split <;> simp)]
  exact and_iff_right shown

theorem nonPercentage_way (r : Report) : Matches nonPercentageRegex r.line
    [fixedPoint r.recognizedFramesPerSecond,fixedPoint r.totalFramesPerSecond,decimal r.leftInQueue,
      inside r] := by
  have shown : ∀ c ∈ r.spinner.char :: (r.percentage ++ [' ']), isAny c = true := by
    intro c member
    have other : c ≠ '\n' := by
      rintro rfl
      have spinner := spinner_any r.spinner
      revert member
      unfold Report.percentage
      split <;> simp [not_mem_decimal] <;> (intro same; simp [← same,isAny] at spinner)
    simpa [isAny] using other
  refine matches_lazyAny.mpr ⟨_,rest r,?_,shown,rest_way ((nonPercentage_times r).mpr rfl)⟩
  rw [line_eq_rest]
  simp

/-- Without a percentage the blank before the rate is the only one that a word and three symbols can
stand before: what else is before a blank is too short, or ends in a word that is too long. -/
theorem front_inj (unknown : r.maxFrames = none) {before name ocr : List Char} {x y z : Char}
    (same : front r = before ++ (name ++ ' ' :: x :: y :: z :: ' ' :: ocr)) :
    ocr = fixedPoint r.recognizedFramesPerSecond := by
  obtain ⟨stem,c,letter,ing⟩ := activity_ing r
  have long : 1 < (before ++ (name ++ [' ',x,y,z])).length := by
    simp only [List.length_append,List.length_cons]
    omega
  have rate : ' ' ∉ fixedPoint r.recognizedFramesPerSecond := not_mem_fixedPoint rfl (by decide) _
  have solid : ' ' ∉ r.activity := not_mem_activity (by decide) r
  have atRate : (before ++ (name ++ [' ',x,y,z])) ++ ' ' :: ocr = (([r.spinner.char] ++ ' ' :: r.activity) ++
      ' ' :: "...".toList) ++ ' ' :: fixedPoint r.recognizedFramesPerSecond := by
    simpa [front,Report.percentage,unknown] using same.symm
  rcases append_cons_cases rate atRate with ⟨_,there⟩ | ⟨more,atDots⟩
  · exact there
  rcases append_cons_cases (by simp) atDots.symm with ⟨atWord,_⟩ | ⟨more,atActivity⟩
  · have ends : (before ++ name) ++ [' ',x,y,z] = ([r.spinner.char] ++ ' ' :: stem) ++ [c,'i','n','g'] := by
      simpa [ing] using atWord
    obtain ⟨_,last⟩ := List.append_inj' ends rfl
    exact absurd (List.cons.inj last).1.symm letter
  rcases append_cons_cases solid atActivity.symm with ⟨alone,_⟩ | ⟨more,alone⟩
  · rw [alone] at long
    simp at long
  · have size := congrArg List.length alone
    simp only [List.length_append,List.length_cons,List.length_nil] at size long
    omega

theorem nonPercentage_groups (unknown : r.maxFrames = none)
    (way : Matches nonPercentageRegex r.line groups) : groups =
      [fixedPoint r.recognizedFramesPerSecond,fixedPoint r.totalFramesPerSecond,decimal r.leftInQueue,
        inside r] := by
  obtain ⟨before,_,line,_,named⟩ := matches_lazyAny.mp way
  obtain ⟨name,x,y,z,_,rfl,_,_,_,rated⟩ := matches_postfix.mp named
  obtain ⟨ocr,seek,queue,times',_,rfl,_,timed,rfl⟩ := matches_rates.mp rated
  have cut : front r ++ (" OCR/s, ".toList ++ (fixedPoint r.totalFramesPerSecond ++
      (" seek/s, ".toList ++ (decimal r.leftInQueue ++ (" in queue [".toList ++ times r))))) =
      (before ++ (name ++ ' ' :: x :: y :: z :: ' ' :: ocr)) ++ (" OCR/s, ".toList ++ (seek ++
        (" seek/s, ".toList ++ (queue ++ (" in queue [".toList ++ times'))))) := by
    rw [← line_eq,line]
    simp
  obtain ⟨fronts,rfl,rfl,rfl⟩ := rates_inj (front_letter r) (line_plain r) cut
  obtain rfl := front_inj unknown fronts
  obtain rfl := (nonPercentage_times r).mp timed
  rfl

/-! ## The line read back -/

/-- What a report says of the task. -/
def reported (d : Floats V) (r : Report) : Task V where
  completed := match r.maxFrames with
    | some m => m.percentage
    | none => 0
  ocrPerSecond := d.nearest ((r.recognizedFramesPerSecond : ℚ) / 100)
  seekPerSecond := d.nearest ((r.totalFramesPerSecond : ℚ) / 100)
  inQueue := r.leftInQueue
  currentTime := some (timeString r.lastFrame)
  timeInfo := match r.maxFrames with
    | some m => "[".toList ++ timeString r.lastFrame ++ " / ".toList ++ timeString m.seconds ++ "]".toList
    | none => "[".toList ++ timeString r.lastFrame ++ " / ??:??:??]".toList

variable (d : Floats V) (logs : List Char → Bool) (path : List Char) (s : Shown V)

theorem int_decimal (n : Nat) : int (decimal n) = some (n : Int) := int_str n

theorem processStdout_unknown (unknown : r.maxFrames = none) :
    processStdout d logs path r.line s = some { s with task := reported d r } := by
  have percentage := firstMatch_eq_none fun _ => not_percentage (r := r) unknown
  have found := firstMatch_eq_some (nonPercentage_way r) fun _ => nonPercentage_groups unknown
  simp [processStdout,percentage,found,float_fixedPoint,int_decimal,reported,unknown,inside]

theorem processStdout_known {m : MaxFrames} (known : r.maxFrames = some m) (small : m.percentage < 100) :
    processStdout d logs path r.line s = some { s with task := reported d r } := by
  have found := firstMatch_eq_some (percentage_way known small) fun _ way =>
    (percentage_groups known way).2
  simp [processStdout,found,float_fixedPoint,int_decimal,reported,known]

/-- A percentage of three digits is passed over, and the line shown as one without a percentage. -/
theorem processStdout_overflow {m : MaxFrames} (known : r.maxFrames = some m) (large : 100 ≤ m.percentage)
    {t : Shown V} (read : processStdout d logs path r.line s = some t) : t.task.completed = 0 := by
  have percentage : firstMatch percentageRegex r.line = none := by
    refine firstMatch_eq_none fun groups way => ?_
    have small := (percentage_groups known way).1
    omega
  obtain ⟨groups,found⟩ := exists_firstMatch (nonPercentage_way r)
  simp only [processStdout,percentage,found,Option.bind_eq_bind,Option.bind_eq_some_iff,
    Option.some.injEq] at read
  obtain ⟨_,_,_,_,_,_,_,_,_,_,_,_,_,_,rfl⟩ := read
  rfl

/-- The last frame of the estimate is reached, with one more to come. -/
theorem estimate_exceeded : ¬ ∀ (d : Floats ℚ) (logs : List Char → Bool) (path : List Char) (r : Report)
    (s : Shown ℚ), processStdout d logs path r.line s = some { s with task := reported d r } := by
  intro claim
  let r : Report := ⟨.bar,some ⟨100,2⟩,false,100,250,0,2,[' '],by simp⟩
  let d : Floats ℚ := ⟨id,0,0,fun x => -x⟩
  have read := claim d (fun _ => true) [] r ⟨⟨0,0,0,0,none,[]⟩,[]⟩
  have completed := processStdout_overflow d _ [] _ (m := ⟨100,2⟩) rfl (by decide) read
  exact absurd completed (by decide)

/-- A progress line is read back as it was printed exactly if its percentage, if it has one, is less
than 100. -/
theorem progress_line_iff (d : Floats V) (logs : List Char → Bool) (path : List Char) (r : Report) (s : Shown V) :
    processStdout d logs path r.line s = some { s with task := reported d r } ↔
      ∀ m ∈ r.maxFrames, m.percentage < 100 := by
  cases known : r.maxFrames with
  | none => simp [processStdout_unknown d logs path s known]
  | some m =>
    simp only [Option.mem_def,Option.some.injEq,forall_eq']
    constructor
    · intro read
      by_contra large
      have completed := processStdout_overflow d logs path s known (Nat.le_of_not_lt large) read
      have same : (m.percentage : Int) = 0 := by simpa [reported,known] using completed
      omega
    · exact processStdout_known d logs path s known

end OcrSuite.Executor
