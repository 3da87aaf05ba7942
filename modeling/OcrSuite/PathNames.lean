import Mathlib.Data.List.Infix

/-! Paths as slash-separated names, with the stem and the suffix of a name. -/
namespace OcrSuite.PathNames

/-- What stands between two slashes of a path; a dot is left out of it. -/
def IsPart (part : String) : Prop := part ≠ "" ∧ part ≠ "." ∧ '/' ∉ part.toList

instance (part : String) : Decidable (IsPart part) := inferInstanceAs (Decidable (_ ∧ _ ∧ _))

@[ext] structure Path where
  absolute : Bool
  parts : List String
  valid : ∀ part ∈ parts, IsPart part
  deriving DecidableEq

theorem not_mem_of_mem_splitOn {α : Type} [DecidableEq α] {a : α} {xs piece : List α}
    (member : piece ∈ xs.splitOn a) : a ∉ piece := by
  induction xs generalizing piece with
  | nil =>
    rw [List.splitOn_nil,List.mem_singleton] at member
    simp [member]
  | cons x xs ih =>
    rw [List.splitOn_cons_eq_if_modifyHead] at member
    by_cases here : x = a
    · simp only [here,beq_self_eq_true,if_true,List.mem_cons] at member
      rcases member with rfl | later
      · simp
      · exact ih later
    · obtain ⟨first,later,parts⟩ := List.exists_cons_of_ne_nil (List.splitOn_ne_nil a xs)
      simp only [beq_iff_eq,here,if_false,parts,List.modifyHead_cons,List.mem_cons] at member
      rcases member with rfl | inside
      · have outside : a ∉ first := ih (by simp [parts])
        simp [outside,Ne.symm here]
      · exact ih (by simp [parts,inside])

/-- Where a letter is for the last time. -/
def rfind (c : Char) (text : List Char) : Option Nat :=
  (text.reverse.idxOf? c).map fun i => text.length - 1 - i

namespace Path

def ofString (text : String) : Path where
  absolute := text.toList.head? = some '/'
  parts := ((text.toList.splitOn '/').map String.ofList).filter fun part => part ≠ "" ∧ part ≠ "."
  valid part member := by
    obtain ⟨inside,proper⟩ := List.mem_filter.mp member
    obtain ⟨piece,here,rfl⟩ := List.mem_map.mp inside
    obtain ⟨nonempty,other⟩ := of_decide_eq_true proper
    exact ⟨nonempty,other,by simpa using not_mem_of_mem_splitOn here⟩

def str (p : Path) : String :=
  if p.absolute = false ∧ p.parts = [] then "."
  else (if p.absolute then "/" else "") ++ "/".intercalate p.parts

def name (p : Path) : String := p.parts.getLast?.getD ""

def parent (p : Path) : Path :=
  ⟨p.absolute,p.parts.dropLast,fun part member => p.valid part (List.mem_of_mem_dropLast member)⟩

/-- A path under a path. -/
def join (p : Path) (text : String) : Path :=
  let q := ofString text
  if q.absolute then q else
    ⟨p.absolute,p.parts ++ q.parts,fun part member =>
      (List.mem_append.mp member).elim (p.valid part) (q.valid part)⟩

/-- A dot at the start or at the end of a name starts no suffix. -/
def suffix (p : Path) : String :=
  match rfind '.' p.name.toList with
  | some i => if 0 < i ∧ i < p.name.length - 1 then .ofList (p.name.toList.drop i) else ""
  | none => ""

def stem (p : Path) : String :=
  match rfind '.' p.name.toList with
  | some i => if 0 < i ∧ i < p.name.length - 1 then .ofList (p.name.toList.take i) else p.name
  | none => p.name

end Path

/-! ## Stems and suffixes -/

theorem rfind_append {c : Char} {front back : List Char} (last : c ∉ back) :
    rfind c (front ++ c :: back) = some front.length := by
  have reversed : (front ++ c :: back).reverse = back.reverse ++ c :: front.reverse := by simp
  have found : (back.reverse ++ c :: front.reverse).idxOf? c = some back.length := by
    rw [List.idxOf?_eq_some_iff]
    refine ⟨by simp,by simp,fun k before => ?_⟩
    rw [List.getElem_append_left (by simpa using before)]
    intro same
    exact last (by simpa using List.mem_of_getElem same)
  rw [rfind,reversed,found]
  simp

theorem rfind_of_not_mem {c : Char} {text : List Char} (outside : c ∉ text) : rfind c text = none := by
  simpa [rfind] using outside

/-- A text with a letter has it for the last time somewhere. -/
theorem exists_last {c : Char} {text : List Char} (member : c ∈ text) :
    ∃ front back, text = front ++ c :: back ∧ c ∉ back := by
  obtain ⟨back,front,parts,first⟩ := List.eq_append_cons_of_mem (List.mem_reverse.mpr member)
  exact ⟨front.reverse,back.reverse,by simpa using congrArg List.reverse parts,by simpa using first⟩

namespace Path

variable {p : Path}

/-- A name is cut before its last dot, unless that is its first or its last letter. -/
theorem stem_suffix_of_parts {front letters : List Char} (parts : p.name.toList = front ++ '.' :: letters)
    (last : '.' ∉ letters) :
    (p.stem,p.suffix) = if front ≠ [] ∧ letters ≠ [] then (.ofList front,.ofList ('.' :: letters))
      else (p.name,"") := by
  have found : rfind '.' p.name.toList = some front.length := by rw [parts,rfind_append last]
  have size : p.name.length - 1 = front.length + letters.length := by
    rw [← String.length_toList,parts]
    simp
  have inside : (0 < front.length ∧ front.length < p.name.length - 1) ↔ front ≠ [] ∧ letters ≠ [] := by
    rw [size,List.length_pos_iff,Nat.lt_add_right_iff_pos,List.length_pos_iff]
  rw [stem,suffix,found]
  simp only [inside]
  split
  · rw [parts,List.take_left,List.drop_left]
  · rfl

/-- The name is cut before its last dot, or not at all. -/
theorem stem_suffix_cases (p : Path) :
    (∃ front letters, front ≠ [] ∧ letters ≠ [] ∧ '.' ∉ letters ∧
      p.name.toList = front ++ '.' :: letters ∧ p.stem = .ofList front ∧
      p.suffix = .ofList ('.' :: letters)) ∨ p.stem = p.name ∧ p.suffix = "" := by
  by_cases dot : '.' ∈ p.name.toList
  · obtain ⟨front,letters,parts,last⟩ := exists_last dot
    have both := stem_suffix_of_parts parts last
    split at both
    case isTrue cut =>
      obtain ⟨stem_,suffix_⟩ := Prod.mk.inj both
      exact .inl ⟨front,letters,cut.1,cut.2,last,parts,stem_,suffix_⟩
    case isFalse => exact .inr (Prod.mk.inj both)
  · have none_ := rfind_of_not_mem dot
    exact .inr ⟨by rw [stem,none_],by rw [suffix,none_]⟩

/-- The names with a suffix of one dot and some letters after it. -/
theorem suffix_eq_iff {letters : List Char} (nonempty : letters ≠ []) (last : '.' ∉ letters) :
    p.suffix = .ofList ('.' :: letters) ↔
      ∃ front, front ≠ [] ∧ p.name.toList = front ++ '.' :: letters := by
  constructor
  · intro same
    rcases stem_suffix_cases p with ⟨front,letters',first,_,_,parts,_,here⟩ | ⟨_,none_⟩
    · obtain ⟨_,rfl⟩ := List.cons.inj (String.ofList_inj.mp (same.symm.trans here))
      exact ⟨front,first,parts⟩
    · exact absurd (same.symm.trans none_) (by simp)
  · rintro ⟨front,first,parts⟩
    have both := stem_suffix_of_parts parts last
    rw [if_pos ⟨first,nonempty⟩] at both
    exact (Prod.mk.inj both).2

/-! ## Paths as strings -/

theorem toList_str (p : Path) : p.str.toList =
    if p.absolute = false ∧ p.parts = [] then ['.']
    else (if p.absolute then ['/'] else []) ++ ['/'].intercalate (p.parts.map String.toList) := by
  rw [str]
  split
  · rfl
  · rw [String.toList_append,String.toList_intercalate]
    cases p.absolute <;> rfl

theorem filter_parts {parts : List String} (valid : ∀ part ∈ parts, IsPart part) :
    (((['/'].intercalate (parts.map String.toList)).splitOn '/').map String.ofList).filter
      (fun part => part ≠ "" ∧ part ≠ ".") = parts := by
  by_cases none_ : parts = []
  · subst parts
    rfl
  · rw [List.splitOn_intercalate '/' (by simpa using fun part member => (valid part member).2.2)
      (by simpa using none_),List.map_map]
    have same : parts.map (String.ofList ∘ String.toList) = parts := by simp [Function.comp_def]
    rw [same,List.filter_eq_self]
    exact fun part member => decide_eq_true ⟨(valid part member).1,(valid part member).2.1⟩

/-- The text of a relative path does not start with a slash. -/
theorem head_intercalate {parts : List String} (valid : ∀ part ∈ parts, IsPart part) :
    (['/'].intercalate (parts.map String.toList)).head? ≠ some '/' := by
  cases parts with
  | nil => simp
  | cons part rest =>
    obtain ⟨nonempty,_,outside⟩ := valid part List.mem_cons_self
    obtain ⟨c,cs,letters⟩ := List.exists_cons_of_ne_nil (fun none_ => nonempty (String.toList_eq_nil_iff.mp none_))
    rw [letters,List.mem_cons,not_or] at outside
    rw [List.map_cons,letters]
    by_cases last : rest = []
    · simpa [last] using Ne.symm outside.1
    · rw [List.intercalate_cons_of_ne_nil (by simpa using last)]
      simpa using Ne.symm outside.1

/-- A path is read back from its string. -/
theorem ofString_str (p : Path) : ofString p.str = p := by
  apply Path.ext
  · simp only [ofString,toList_str]
    cases absolute : p.absolute with
    | true => simp
    | false =>
      by_cases none_ : p.parts = []
      · simp [none_]
      · simpa [none_] using head_intercalate p.valid
  · simp only [ofString,toList_str]
    cases absolute : p.absolute with
    | true =>
      have rooted (text : List Char) : ('/' :: text).splitOn '/' = [] :: text.splitOn '/' := by
        simp [List.splitOn_cons_eq_if_modifyHead]
      simpa [rooted] using filter_parts p.valid
    | false =>
      by_cases none_ : p.parts = []
      · rw [none_]
        rfl
      · simpa [none_] using filter_parts p.valid

/-! ## The path without its suffix -/

theorem intercalate_concat {α : Type} (sep last : List α) (front : List (List α)) :
    sep.intercalate (front ++ [last]) = front.flatMap (· ++ sep) ++ last := by
  induction front with
  | nil => simp
  | cons first front ih =>
    rw [List.cons_append,List.intercalate_cons_of_ne_nil (by simp),ih]
    simp

theorem intercalate_begins {α : Type} (sep last : List α) (front : List (List α)) :
    sep.intercalate front <+: sep.intercalate (front ++ [last]) := by
  rw [intercalate_concat]
  obtain none_ | ⟨before,piece,parts⟩ := List.eq_nil_or_concat front
  · simp [none_]
  · rw [parts,List.concat_eq_append,intercalate_concat]
    exact ⟨sep ++ last,by simp⟩

theorem stem_begins (p : Path) : p.stem.toList <+: p.name.toList := by
  rcases stem_suffix_cases p with ⟨front,letters,_,_,_,parts,here,_⟩ | ⟨here,_⟩
  · rw [here,parts,String.toList_ofList]
    exact List.prefix_append _ _
  · rw [here]

theorem stem_ne_empty (named : p.name ≠ "") : p.stem ≠ "" := by
  rcases stem_suffix_cases p with ⟨front,letters,first,_,_,_,here,_⟩ | ⟨here,_⟩
  · rw [here]
    simpa using first
  · rwa [here]

theorem ofString_of_not_mem {text : String} (outside : '/' ∉ text.toList) :
    (ofString text).absolute = false ∧
      (ofString text).parts = if text = "" ∨ text = "." then [] else [text] := by
  constructor
  · cases letters : text.toList with
    | nil => simp [ofString,letters]
    | cons c cs =>
      rw [letters,List.mem_cons,not_or] at outside
      simpa [ofString,letters] using Ne.symm outside.1
  · simp only [ofString,List.splitOn_eq_singleton outside,List.map_cons,String.ofList_toList,List.map_nil]
    by_cases dropped : text = "" ∨ text = "."
    · rw [if_pos dropped]
      rcases dropped with rfl | rfl <;> rfl
    · rw [if_neg dropped]
      simp only [not_or] at dropped
      simp [dropped]

theorem toList_str_concat {front : List String} {last : String} (parts : p.parts = front ++ [last]) :
    p.str.toList = (if p.absolute then ['/'] else []) ++
      (front.map String.toList).flatMap (· ++ ['/']) ++ last.toList := by
  rw [toList_str,if_neg (by simp [parts]),parts,List.map_append,List.map_singleton,intercalate_concat,
    List.append_assoc]

/-- A stem that is a dot is left out of the path that it is joined to. -/
theorem parent_join_stem {front : List String} {last : String} (parts : p.parts = front ++ [last]) :
    (p.parent.join p.stem).absolute = p.absolute ∧
    (p.parent.join p.stem).parts = front ++ if p.stem = "" ∨ p.stem = "." then [] else [p.stem] := by
  have named : p.name = last := by simp [name,parts]
  have valid : IsPart last := p.valid last (by simp [parts])
  obtain ⟨relative,pieces⟩ := ofString_of_not_mem fun slash =>
    valid.2.2 (named ▸ (stem_begins p).subset slash)
  exact ⟨by simp [join,relative,parent],by simp [join,relative,parent,pieces,parts]⟩

/-- The path that has the stem for its name begins the path. -/
theorem join_stem_begins (p : Path) : (p.parent.join p.stem).str.toList <+: p.str.toList := by
  have shorter := stem_begins p
  obtain none_ | ⟨front,last,parts⟩ := List.eq_nil_or_concat p.parts
  · have unnamed : p.name = "" := by simp [name,none_]
    rw [unnamed] at shorter
    have empty : p.stem = "" := String.toList_eq_nil_iff.mp (List.prefix_nil.mp shorter)
    have same : p.parent.join p.stem = p := by
      apply Path.ext <;> simp [empty,join,ofString,parent,none_]
    rw [same]
  · rw [List.concat_eq_append] at parts
    have named : p.name = last := by simp [name,parts]
    have valid : IsPart last := p.valid last (by simp [parts])
    obtain ⟨absolute,joined⟩ := parent_join_stem parts
    rw [toList_str_concat parts]
    rw [named] at shorter
    by_cases dropped : p.stem = "" ∨ p.stem = "."
    · rw [if_pos dropped,List.append_nil] at joined
      rw [toList_str,absolute,joined]
      split
      case isTrue here =>
        have dot : p.stem = "." := dropped.resolve_left (stem_ne_empty (named ▸ valid.1))
        rw [dot] at shorter
        simpa [here] using shorter
      case isFalse =>
        rw [List.append_assoc,← intercalate_concat]
        exact (List.prefix_append_right_inj _).mpr (intercalate_begins _ _ _)
    · rw [if_neg dropped] at joined
      rw [toList_str_concat joined,absolute]
      exact (List.prefix_append_right_inj _).mpr shorter

end Path

end OcrSuite.PathNames
