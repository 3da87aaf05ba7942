import Mathlib.Data.List.Basic

/-! A text that is read in chunks of any sizes and taken line by line, with line breaks of all kinds translated
to one. -/
namespace OcrSuite.LineReader

/-- With every kind of line break as a line feed. -/
def translate : List Char → List Char
  | [] => []
  | '\r' :: '\n' :: rest => '\n' :: translate rest
  | c :: rest => (if c = '\r' then '\n' else c) :: translate rest

/-- The lines with their line feeds, which the last one may lack. -/
def lines : List Char → List (List Char)
  | [] => []
  | c :: rest =>
    if c = '\n' then ['\n'] :: lines rest
    else
      match lines rest with
      | [] => [[c]]
      | line :: more => (c :: line) :: more

/-- A carriage return at the end of a chunk is held back until it is known what follows it. -/
structure Reader where
  decoded : List Char
  pendingCr : Bool
  deriving DecidableEq

def Reader.new : Reader := ⟨[],false⟩

/-- A carriage return that was held back with what comes after it. -/
def Reader.output (r : Reader) (chunk : List Char) : List Char := if r.pendingCr then '\r' :: chunk else chunk

def Reader.feed (r : Reader) (chunk : List Char) : Reader :=
  let output := r.output chunk
  if output.getLast? = some '\r' then ⟨r.decoded ++ translate output.dropLast,true⟩
  else ⟨r.decoded ++ translate output,false⟩

/-- What there is to take at the end of the text. -/
def Reader.final (r : Reader) : List Char := r.decoded ++ translate (r.output [])

/-- A line with its line feed, and what comes after it. -/
def cut : List Char → Option (List Char × List Char)
  | [] => none
  | c :: rest => if c = '\n' then some (['\n'],rest) else (cut rest).map fun (line,more) => (c :: line,more)

def Reader.line? (r : Reader) : Option (List Char × Reader) :=
  (cut r.decoded).map fun (line,more) => (line,{ r with decoded := more })

/-! ## Translation -/

/-- If no line break lies across the place between two texts. -/
theorem translate_append {front rest : List Char} (apart : front.getLast? = some '\r' → rest.head? ≠ some '\n') :
    translate (front ++ rest) = translate front ++ translate rest := by
  fun_induction translate front with
  | case1 => rfl
  | case2 front ih =>
    have apart' : front.getLast? = some '\r' → rest.head? ≠ some '\n' := fun last =>
      apart (List.mem_getLast?_cons (List.mem_getLast?_cons last))
    simp only [List.cons_append,translate,ih apart']
  | case3 c front other ih =>
    have inside : ∀ more, c = '\r' → front ++ rest = '\n' :: more → False := by
      rintro more rfl same
      cases front with
      | nil => exact apart rfl (congrArg List.head? same)
      | cons d front =>
        obtain ⟨rfl,_⟩ := List.cons.inj same
        exact other front rfl rfl
    have apart' : front.getLast? = some '\r' → rest.head? ≠ some '\n' := fun last =>
      apart (List.mem_getLast?_cons last)
    rw [List.cons_append,translate,ih apart',List.cons_append]
    exact inside

theorem translate_of_not_mem {text : List Char} (inside : '\r' ∉ text) : translate text = text := by
  fun_induction translate text with
  | case1 => rfl
  | case2 rest ih => simp at inside
  | case3 c rest _ ih =>
    rw [List.mem_cons,not_or] at inside
    rw [if_neg (Ne.symm inside.1),ih inside.2]

theorem length_translate_le (text : List Char) : (translate text).length ≤ text.length := by
  fun_induction translate text with
  | case1 => exact Nat.le_refl 0
  | case2 rest ih =>
    simp only [List.length_cons]
    omega
  | case3 c rest _ ih => simpa using ih

theorem translate_eq_nil {text : List Char} : translate text = [] ↔ text = [] := by
  fun_cases translate text <;> simp

/-! ## Lines -/

/-- With a line feed at its end and none before. -/
def Whole (line : List Char) : Prop := ∃ front, '\n' ∉ front ∧ line = front ++ ['\n']

theorem flatten_lines (text : List Char) : (lines text).flatten = text := by
  fun_induction lines text with
  | case1 => rfl
  | case2 rest ih => simp [ih]
  | case3 c rest _ none ih => simpa [none] using ih
  | case4 c rest _ line more some ih =>
    rw [some] at ih
    simpa using ih

theorem lines_append {front : List Char} (inside : '\n' ∉ front) (rest : List Char) :
    lines (front ++ '\n' :: rest) = (front ++ ['\n']) :: lines rest := by
  induction front with
  | nil => simp [lines]
  | cons c front ih =>
    rw [List.mem_cons,not_or] at inside
    rw [List.cons_append,lines,if_neg (Ne.symm inside.1),ih inside.2]
    rfl

theorem lines_flatten {taken : List (List Char)} (whole : ∀ line ∈ taken, Whole line) (rest : List Char) :
    lines (taken.flatten ++ rest) = taken ++ lines rest := by
  induction taken with
  | nil => rfl
  | cons line taken ih =>
    obtain ⟨front,inside,rfl⟩ := whole _ List.mem_cons_self
    have later := ih fun line member => whole line (List.mem_cons_of_mem _ member)
    have first := lines_append inside (taken.flatten ++ rest)
    simp only [List.flatten_cons,List.append_assoc,List.cons_append,List.nil_append] at first ⊢
    rw [first,later]

theorem lines_of_not_mem {text : List Char} (nonempty : text ≠ []) (inside : '\n' ∉ text) : lines text = [text] := by
  induction text with
  | nil => exact absurd rfl nonempty
  | cons c text ih =>
    rw [List.mem_cons,not_or] at inside
    rw [lines,if_neg (Ne.symm inside.1)]
    cases text with
    | nil => rfl
    | cons d text => rw [ih (by simp) inside.2]

theorem length_lines_le (text : List Char) : (lines text).length ≤ text.length := by
  fun_induction lines text with
  | case1 => exact Nat.le_refl 0
  | case2 rest ih => simpa using ih
  | case3 c rest _ none ih => simp
  | case4 c rest _ line more some ih =>
    rw [some] at ih
    simp only [List.length_cons] at ih ⊢
    omega

/-- A line ends between two texts. -/
def Between (front rest : List Char) : Prop :=
  (∀ c ∈ front.getLast?, c = '\n' ∨ c = '\r') ∧ (front.getLast? = some '\r' → rest.head? ≠ some '\n')

theorem getLast?_translate (front : List Char) {c : Char} (ends : c = '\n' ∨ c = '\r') :
    (translate (front ++ [c])).getLast? = some '\n' := by
  by_cases cr : front.getLast? = some '\r' ∧ c = '\n'
  · obtain ⟨held,rfl⟩ := cr
    obtain ⟨before,rfl⟩ := List.getLast?_eq_some_iff.mp held
    rw [List.append_assoc,translate_append (by simp)]
    simp [translate]
  · rw [translate_append fun held same => cr ⟨held,by simpa using same⟩]
    rcases ends with rfl | rfl <;> simp [translate]

theorem whole_of_getLast? {text : List Char} (ends : ∀ c ∈ text.getLast?, c = '\n') :
    ∀ line ∈ lines text, Whole line := by
  fun_induction lines text with
  | case1 => simp
  | case2 rest ih =>
    have later : ∀ d ∈ rest.getLast?, d = '\n' := fun d last => ends d (List.mem_getLast?_cons last)
    rintro line member
    rcases List.mem_cons.mp member with rfl | there
    · exact ⟨[],by simp,rfl⟩
    · exact ih later line there
  | case3 c rest other none ih =>
    have empty : rest = [] := by
      have all := flatten_lines rest
      rw [none] at all
      exact all.symm
    subst rest
    exact absurd (ends c (by simp)) other
  | case4 c rest other line more some ih =>
    have later : ∀ d ∈ rest.getLast?, d = '\n' := fun d last => ends d (List.mem_getLast?_cons last)
    rw [some] at ih
    rintro line' member
    rcases List.mem_cons.mp member with rfl | there
    · obtain ⟨front,inside,rfl⟩ := ih later line List.mem_cons_self
      exact ⟨c :: front,by simpa using ⟨Ne.symm other,inside⟩,rfl⟩
    · exact ih later line' (List.mem_cons_of_mem _ there)

theorem lines_translate_append {front rest : List Char} (between : Between front rest) :
    lines (translate (front ++ rest)) = lines (translate front) ++ lines (translate rest) := by
  have ends : ∀ c ∈ (translate front).getLast?, c = '\n' := by
    rcases List.eq_nil_or_concat' front with rfl | ⟨before,c,rfl⟩
    · simp [translate]
    · rw [getLast?_translate before (between.1 c (by simp))]
      simp
  calc lines (translate (front ++ rest))
      = lines (translate front ++ translate rest) := by rw [translate_append between.2]
    _ = lines ((lines (translate front)).flatten ++ translate rest) := by rw [flatten_lines]
    _ = lines (translate front) ++ lines (translate rest) := lines_flatten (whole_of_getLast? ends) _

/-! ## The reader -/

variable {read taken line : List Char} {r r' : Reader}

/-- `read` is the text so far, `taken` what was taken of its translation. -/
def Reader.Reads (read taken : List Char) (r : Reader) : Prop :=
  ∃ settled, read = settled ++ (if r.pendingCr then ['\r'] else []) ∧
    (r.pendingCr = false → settled.getLast? ≠ some '\r') ∧ translate settled = taken ++ r.decoded

theorem Reader.new_reads : Reader.new.Reads [] [] := ⟨[],by simp [new],by simp,rfl⟩

theorem Reader.output_eq (r : Reader) (chunk : List Char) :
    r.output chunk = (if r.pendingCr then ['\r'] else []) ++ chunk := by
  unfold output
  split <;> rfl

/-- What was held back begins with a carriage return. -/
theorem Reader.Reads.settled (reads : r.Reads read taken) (chunk : List Char) : ∃ settled,
    read ++ chunk = settled ++ r.output chunk ∧ (r.output chunk = [] → settled.getLast? ≠ some '\r') ∧
    ∀ more, more <+: r.output chunk → translate (settled ++ more) = taken ++ r.decoded ++ translate more := by
  obtain ⟨settled,rfl,last,parts⟩ := reads
  refine ⟨settled,by rw [output_eq,List.append_assoc],?_,?_⟩
  · intro empty
    apply last
    by_contra pending
    rw [Bool.not_eq_false] at pending
    simp [output,pending] at empty
  · intro more inside
    rw [← parts]
    apply translate_append
    intro held
    cases pending : r.pendingCr with
    | true =>
      rw [output,pending,if_pos rfl,List.prefix_cons_iff] at inside
      rcases inside with rfl | ⟨_,rfl,_⟩ <;> simp
    | false => exact absurd held (last pending)

theorem Reader.Reads.feed (reads : r.Reads read taken) (chunk : List Char) :
    (r.feed chunk).Reads (read ++ chunk) taken := by
  obtain ⟨settled,whole,free,parts⟩ := reads.settled chunk
  rw [whole]
  by_cases held : (r.output chunk).getLast? = some '\r'
  · obtain ⟨front,output⟩ := List.getLast?_eq_some_iff.mp held
    have later := parts front (by simp [output])
    refine ⟨settled ++ front,?_,?_,?_⟩ <;> simp [Reader.feed,output,later]
  · have later := parts _ List.prefix_rfl
    refine ⟨settled ++ r.output chunk,?_,?_,?_⟩
    · simp [Reader.feed,held]
    · intro _ last
      by_cases empty : r.output chunk = []
      · exact free empty (by simpa [empty] using last)
      · exact held (by simpa [List.getLast?_append_of_ne_nil _ empty] using last)
    · simp [Reader.feed,held,later]

/-- At the end of the text. -/
theorem Reader.Reads.final (reads : r.Reads read taken) : translate read = taken ++ r.final := by
  obtain ⟨settled,whole,_,parts⟩ := reads.settled []
  rw [List.append_nil] at whole
  rw [whole,parts _ List.prefix_rfl,Reader.final,List.append_assoc]

theorem cut_eq_some {text more : List Char} (found : cut text = some (line,more)) :
    Whole line ∧ text = line ++ more := by
  induction text generalizing line with
  | nil => cases found
  | cons c text ih =>
    rw [cut] at found
    split at found
    case isTrue feed =>
      obtain ⟨rfl,rfl⟩ := Prod.mk.inj (Option.some.inj found)
      exact ⟨⟨[],by simp,rfl⟩,by simp [feed]⟩
    case isFalse other =>
      obtain ⟨⟨later,_⟩,found',same⟩ := Option.map_eq_some_iff.mp found
      obtain ⟨rfl,rfl⟩ := Prod.mk.inj same
      obtain ⟨⟨front,inside,rfl⟩,rfl⟩ := ih found'
      refine ⟨⟨c :: front,?_,rfl⟩,rfl⟩
      simpa using ⟨Ne.symm other,inside⟩

theorem cut_eq_none {text : List Char} : cut text = none ↔ '\n' ∉ text := by
  induction text with
  | nil => simp [cut]
  | cons c text ih =>
    rw [cut,List.mem_cons,not_or]
    split
    case isTrue feed => simp [feed]
    case isFalse other => simp [ih,Ne.symm other]

theorem Reader.line?_eq_some (found : r.line? = some (line,r')) :
    Whole line ∧ r.decoded = line ++ r'.decoded ∧ r'.pendingCr = r.pendingCr := by
  obtain ⟨⟨_,more⟩,found',same⟩ := Option.map_eq_some_iff.mp found
  obtain ⟨rfl,rfl⟩ := Prod.mk.inj same
  obtain ⟨whole,parts⟩ := cut_eq_some found'
  exact ⟨whole,parts,rfl⟩

theorem Reader.line?_eq_none : r.line? = none ↔ '\n' ∉ r.decoded := by
  rw [line?,Option.map_eq_none_iff,cut_eq_none]

theorem Reader.Reads.take (reads : r.Reads read taken) (found : r.line? = some (line,r')) :
    r'.Reads read (taken ++ line) := by
  obtain ⟨settled,whole,last,parts⟩ := reads
  obtain ⟨_,decoded,pending⟩ := line?_eq_some found
  refine ⟨settled,?_,?_,?_⟩
  · rw [pending]
    exact whole
  · rw [pending]
    exact last
  · rw [parts,decoded,List.append_assoc]

/-- What is left at the end is one line. -/
theorem Reader.lines_final (none : r.line? = none) (nonempty : r.final ≠ []) : lines r.final = [r.final] := by
  have inside := line?_eq_none.mp none
  cases pending : r.pendingCr with
  | true =>
    have feed : r.final = r.decoded ++ ['\n'] := by simp [final,output,pending,translate]
    rw [feed,lines_append inside]
    rfl
  | false =>
    have decoded : r.final = r.decoded := by simp [final,output,pending,translate]
    rw [decoded] at nonempty ⊢
    exact lines_of_not_mem nonempty inside

/-! ## What is to be taken -/

/-- Characters that were read and not taken. -/
def Reader.load (r : Reader) : Nat := r.decoded.length + (if r.pendingCr then 1 else 0)

theorem Reader.length_output (r : Reader) (chunk : List Char) :
    (r.output chunk).length = chunk.length + (if r.pendingCr then 1 else 0) := by
  unfold output
  split <;> simp

theorem Reader.load_feed_le (r : Reader) (chunk : List Char) : (r.feed chunk).load ≤ r.load + chunk.length := by
  have length := r.length_output chunk
  by_cases held : (r.output chunk).getLast? = some '\r'
  · obtain ⟨front,output⟩ := List.getLast?_eq_some_iff.mp held
    have shorter := length_translate_le front
    rw [output] at length
    simp only [List.length_append,List.length_cons,List.length_nil] at length
    simp only [load,feed,output,List.getLast?_concat,if_pos,List.dropLast_concat,List.length_append]
    omega
  · have shorter := length_translate_le (r.output chunk)
    simp only [load,feed,held,if_false,List.length_append]
    simp
    omega

theorem Reader.length_final_le (r : Reader) : r.final.length ≤ r.load := by
  have length := r.length_output []
  have shorter := length_translate_le (r.output [])
  simp only [final,load,List.length_append]
  rw [List.length_nil] at length
  omega

theorem Reader.load_lt_of_line? (found : r.line? = some (line,r')) : r'.load < r.load := by
  obtain ⟨⟨front,_,rfl⟩,parts,pending⟩ := line?_eq_some found
  simp only [load,parts,pending,List.length_append,List.length_cons]
  omega

/-- Nothing that was read is lost before it is taken. -/
theorem Reader.load_feed_pos (r : Reader) {chunk : List Char} (nonempty : chunk ≠ []) : 0 < (r.feed chunk).load := by
  by_cases held : (r.output chunk).getLast? = some '\r'
  · simp [load,feed,held]
  · have some : translate (r.output chunk) ≠ [] := by
      rw [Ne,translate_eq_nil,output_eq]
      simp [nonempty]
    have length := List.length_pos_of_ne_nil some
    simp only [load,feed,held,if_false,List.length_append]
    omega

/-- Of a text that ends with a line feed only whole lines are left. -/
theorem Reader.Reads.mem_of_last (reads : r.Reads read taken) (last : ∀ c ∈ read.getLast?, c = '\n')
    (left : 0 < r.load) : '\n' ∈ r.decoded := by
  obtain ⟨settled,whole,_,parts⟩ := reads
  have free : r.pendingCr = false := by
    by_contra pending
    rw [Bool.not_eq_false] at pending
    have cr := last '\r' (by simp [whole,pending])
    exact absurd cr (by decide)
  have nonempty : r.decoded ≠ [] := by
    intro empty
    simp [Reader.load,free,empty] at left
  rw [free,if_neg Bool.false_ne_true,List.append_nil] at whole
  subst whole
  rcases List.eq_nil_or_concat' read with rfl | ⟨front,c,rfl⟩
  · exact absurd (List.append_eq_nil_iff.mp parts.symm).2 nonempty
  · have feed := last c (by simp)
    have ends := congrArg List.getLast? parts
    rw [feed,getLast?_translate front (.inl rfl),List.getLast?_append_of_ne_nil _ nonempty] at ends
    exact List.mem_of_getLast? ends.symm

end OcrSuite.LineReader
