import Mathlib.Data.List.Lex
import Mathlib.Data.String.Basic
import OcrSuite.DirectoryTree
import OcrSuite.PathNames
import OcrSuite.Pattern
import OcrSuite.Runner

/-! The files that a pass of the watcher collects, and those whose changes it is told of. -/
namespace OcrSuite.FileFilter

open DirectoryTree PathNames Pattern Watcher

/-- The letters and digits of the expressions that check the configuration. What they are outside of
ASCII does not matter here. -/
structure WordClass where
  isWord : Char → Bool
  isDigit : Char → Bool
  asciiWord : ∀ c, c.toNat < 128 → isWord c = (c.isAlphanum || c = '_')
  asciiDigit : ∀ c, c.toNat < 128 → isDigit c = c.isDigit

namespace WordClass

def ascii : WordClass := ⟨fun c => c.isAlphanum || c = '_',Char.isDigit,fun _ _ => rfl,fun _ _ => rfl⟩

def fileExtension (w : WordClass) : List (Item Char) :=
  [.one (· = '.'),.many false false 1 (some 6) (fun c => w.isWord c || w.isDigit c),.atEnd (· = [])]

/-- The lists of extensions that a configuration may have. -/
def Accepts (w : WordClass) (extensions : List String) : Prop :=
  1 ≤ extensions.length ∧ ∀ ext ∈ extensions, (firstMatch w.fileExtension ext.toList).isSome = true

end WordClass

inductive FileKind where
  | regular
  | special
  deriving DecidableEq

/-- A path and the names on a way from there. -/
def child (base : Path) (way : List String) : Path := way.foldl Path.join base

/-- A directory without symbolic links, with its path as it is configured and as it is resolved. -/
structure Directory where
  path : Path
  resolved : Path
  entries : Entries String FileKind
  distinct : entries.Distinct
  named : ∀ way ∈ entries.walk, ∀ name ∈ way, IsPart name

namespace Directory

def isFile (d : Directory) (way : List String) : Bool := d.entries.leafAt way = some .regular

end Directory

/-- File name patterns, but for sets of letters in brackets. -/
def translate : List Char → List (Item Char)
  | [] => [.atEnd (· = [])]
  | c :: rest =>
    if c = '*' then .many false false 0 none (fun _ => true) :: translate rest
    else if c = '?' then .one (fun _ => true) :: translate rest
    else .one (· = c) :: translate rest

def fnmatch (pattern : List Char) (name : String) : Bool :=
  (firstMatch (translate pattern) name.toList).isSome

/-- The entries below a directory whose names match. -/
def rglob (d : Directory) (pattern : List Char) : List (List String) :=
  d.entries.walk.filter fun way => fnmatch pattern (child d.path way).name

def collectByExtension (d : Directory) (extensions : List String) : List Path :=
  extensions.flatMap fun ext => ((rglob d ('*' :: ext.toList)).filter d.isFile).map (child d.resolved)

/-- The files in the order in which `execute` gives them to its processes. -/
def submitted (files : List Path) : List Path := files.mergeSort fun p q => decide (p.parts ≤ q.parts)

def config (extensions : List String) (checkingFrequency : Nat) : Config :=
  ⟨extensions,checkingFrequency,fun srcPath => (Path.ofString srcPath).suffix⟩

/-- Whether `on_modified` calls back. -/
def callsBack (config : Config) (event : FileEvent) : Bool :=
  event.isFileModified ∧ config.suffix event.srcPath ∈ config.fileExtensions

/-- A pass processes each file once whose change is watched for, and no other file. -/
structure Agrees (config : Config) (d : Directory) : Prop where
  once : ∀ way, d.isFile way = true → callsBack config ⟨(child d.path way).str,true⟩ = true →
    (submitted (collectByExtension d config.fileExtensions)).count (child d.resolved way) = 1
  others : ∀ file ∈ submitted (collectByExtension d config.fileExtensions), ∃ way,
    d.isFile way = true ∧ callsBack config ⟨(child d.path way).str,true⟩ = true ∧
      file = child d.resolved way

/-- The observer thread of the watcher does what `on_modified` says. -/
theorem step_onModified {config : Config} {s : Runner} (watching : s.pc.watching = true)
    (waiting : s.observer = .waiting) (event : FileEvent) :
    (Runner.step config s (.onModified event)).map Runner.observer =
      some (if callsBack config event then .called event.srcPath else .waiting) := by
  by_cases calls : callsBack config event
  · have both : event.isFileModified = true ∧ config.suffix event.srcPath ∈ config.fileExtensions := by
      simpa [callsBack] using calls
    simp [Runner.step,watching,waiting,both,calls]
  · have none_ : ¬ (event.isFileModified = true ∧ config.suffix event.srcPath ∈ config.fileExtensions) := by
      simpa [callsBack] using calls
    simp [Runner.step,watching,waiting,none_,calls]

/-! ## Extensions -/

/-- A dot with letters after it that are no dots and mean themselves in patterns. -/
def Plain (ext : String) : Prop :=
  ∃ letters, ext = .ofList ('.' :: letters) ∧ letters ≠ [] ∧ '.' ∉ letters ∧ '*' ∉ letters ∧ '?' ∉ letters

theorem plain_of_fileExtension {w : WordClass} {ext : String}
    (matched : (firstMatch w.fileExtension ext.toList).isSome = true) : Plain ext := by
  obtain ⟨groups,found⟩ := Option.isSome_iff_exists.mp matched
  obtain ⟨c,rest,parts,dot,letters,after,_,rfl,inside,least,_,⟨last,_⟩,_⟩ := matches_of_firstMatch found
  obtain rfl := of_decide_eq_true dot
  obtain rfl := of_decide_eq_true last
  rw [List.append_nil] at parts
  have special : ∀ c ∈ ['.','*','?'],
      (c.toNat < 128 && !(c.isAlphanum || c = '_' || c.isDigit)) = true :=
    List.all_eq_true.mp (by decide)
  have outside (c : Char) (known : c ∈ ['.','*','?']) : c ∉ letters := by
    intro member
    obtain ⟨small,none_⟩ := Bool.and_eq_true_iff.mp (special c known)
    have ascii : c.toNat < 128 := of_decide_eq_true small
    have other : (c.isAlphanum || c = '_' || c.isDigit) = false := by simpa using none_
    have word : (w.isWord c || w.isDigit c) = true := inside c member
    rw [w.asciiWord c ascii,w.asciiDigit c ascii,other] at word
    cases word
  exact ⟨letters,by rw [← parts,String.ofList_toList],List.length_pos_iff.mp least,
    outside _ (by simp),outside _ (by simp),outside _ (by simp)⟩

theorem translate_eq {letters : List Char} (star : '*' ∉ letters) (mark : '?' ∉ letters) :
    translate letters = literal letters ++ [.atEnd (· = [])] := by
  induction letters with
  | nil => rfl
  | cons c letters ih =>
    rw [List.mem_cons,not_or] at star mark
    rw [translate,if_neg (Ne.symm star.1),if_neg (Ne.symm mark.1),ih star.2 mark.2]
    rfl

/-- The pattern of an extension asks for names that end so. -/
theorem fnmatch_iff {ext name : String} (plain : Plain ext) :
    fnmatch ('*' :: ext.toList) name = true ↔ ∃ front, name.toList = front ++ ext.toList := by
  obtain ⟨letters,rfl,_,_,star,mark⟩ := plain
  have pattern : translate ('*' :: (String.ofList ('.' :: letters)).toList) =
      .many false false 0 none (fun _ => true) :: (literal ('.' :: letters) ++ [.atEnd (· = [])]) := by
    rw [translate,if_pos rfl,String.toList_ofList,
      translate_eq (by simpa using star) (by simpa using mark)]
  rw [fnmatch,pattern,Option.isSome_iff_exists,String.toList_ofList]
  constructor
  · rintro ⟨groups,found⟩
    obtain ⟨front,rest,_,parts,_,_,_,after,_⟩ := matches_of_firstMatch found
    obtain ⟨last,rfl,none_,_⟩ := matches_literal.mp after
    obtain rfl := of_decide_eq_true none_
    exact ⟨front,by simpa using parts⟩
  · rintro ⟨front,parts⟩
    have after : Matches (literal ('.' :: letters) ++ [.atEnd (· = [])]) ('.' :: letters) [] :=
      matches_literal.mpr ⟨[],by simp,by simp,rfl⟩
    exact exists_firstMatch ⟨front,_,[],parts,fun _ _ => rfl,Nat.zero_le _,by simp,after,rfl⟩

/-- A name that ends with an extension has it for its suffix, or is the extension. -/
theorem fnmatch_iff_suffix {p : Path} {ext : String} (plain : Plain ext) :
    fnmatch ('*' :: ext.toList) p.name = true ↔ p.suffix = ext ∨ p.name = ext := by
  rw [fnmatch_iff plain]
  obtain ⟨letters,rfl,nonempty,last,_⟩ := plain
  rw [Path.suffix_eq_iff nonempty last,String.toList_ofList]
  constructor
  · rintro ⟨front,parts⟩
    by_cases first : front = []
    · exact .inr (String.toList_inj.mp (by simp [parts,first]))
    · exact .inl ⟨front,first,parts⟩
  · rintro (⟨front,_,parts⟩ | same)
    · exact ⟨front,parts⟩
    · exact ⟨[],by simp [same]⟩

/-- An extension is a name without a suffix. -/
theorem suffix_of_plain {p : Path} (plain : Plain p.name) : p.suffix = "" := by
  obtain ⟨letters,same,_,last,_⟩ := plain
  have parts : p.name.toList = [] ++ '.' :: letters := by simp [same]
  have both := Path.stem_suffix_of_parts parts last
  rw [if_neg (by simp)] at both
  exact (Prod.mk.inj both).2

theorem Plain.ne_empty {ext : String} (plain : Plain ext) : ext ≠ "" := by
  obtain ⟨letters,rfl,_⟩ := plain
  simp

/-! ## The collected files -/

theorem child_parts {base : Path} {way : List String} (named : ∀ name ∈ way, IsPart name) :
    (child base way).absolute = base.absolute ∧ (child base way).parts = base.parts ++ way := by
  induction way generalizing base with
  | nil => simp [child]
  | cons name way ih =>
    obtain ⟨nonempty,other,outside⟩ := named name List.mem_cons_self
    obtain ⟨relative,pieces⟩ := Path.ofString_of_not_mem outside
    rw [if_neg (by simp [nonempty,other])] at pieces
    have here : (child (base.join name) way).absolute = (base.join name).absolute ∧
        (child (base.join name) way).parts = (base.join name).parts ++ way :=
      ih fun name member => named name (List.mem_cons_of_mem _ member)
    have step : (base.join name).absolute = base.absolute ∧
        (base.join name).parts = base.parts ++ [name] := by simp [Path.join,relative,pieces]
    rw [step.1,step.2] at here
    exact ⟨here.1,by rw [List.append_assoc] at here; exact here.2⟩

section

variable {d : Directory}

theorem child_inj {way way' : List String} (member : way ∈ d.entries.walk)
    (member' : way' ∈ d.entries.walk) (same : child d.resolved way = child d.resolved way') :
    way = way' := by
  have parts := congrArg Path.parts same
  rw [(child_parts (d.named way member)).2,(child_parts (d.named way' member')).2] at parts
  exact List.append_cancel_left parts

theorem mem_walk_of_isFile {way : List String} (file : d.isFile way = true) : way ∈ d.entries.walk :=
  Entries.mem_walk_of_leafAt (of_decide_eq_true file)

/-- For one extension a file comes up once, if its name matches. -/
theorem count_matching {way : List String} (file : d.isFile way = true) (pattern : List Char) :
    (((rglob d pattern).filter d.isFile).map (child d.resolved)).count (child d.resolved way) =
      if fnmatch pattern (child d.path way).name = true then 1 else 0 := by
  have inside {other : List String} (member : other ∈ (rglob d pattern).filter d.isFile) :
      other ∈ d.entries.walk :=
    List.mem_of_mem_filter (List.mem_of_mem_filter member)
  have distinct : (((rglob d pattern).filter d.isFile).map (child d.resolved)).Nodup :=
    (((Entries.nodup_walk d.distinct).filter _).filter _).map_on fun _ first _ second same =>
      child_inj (inside first) (inside second) same
  have here : child d.resolved way ∈ ((rglob d pattern).filter d.isFile).map (child d.resolved) ↔
      fnmatch pattern (child d.path way).name = true := by
    rw [List.mem_map]
    constructor
    · rintro ⟨other,member,same⟩
      obtain rfl := child_inj (inside member) (mem_walk_of_isFile file) same
      exact (List.mem_filter.mp (List.mem_of_mem_filter member)).2
    · intro matched
      exact ⟨way,List.mem_filter.mpr ⟨List.mem_filter.mpr ⟨mem_walk_of_isFile file,matched⟩,file⟩,rfl⟩
  rw [distinct.count]
  simp only [here]

/-- A file is collected for each time that its suffix or its whole name is in the list. -/
theorem count_collectByExtension {extensions : List String} (plain : ∀ ext ∈ extensions, Plain ext)
    {way : List String} (file : d.isFile way = true) :
    (collectByExtension d extensions).count (child d.resolved way) =
      extensions.count (child d.path way).suffix + extensions.count (child d.path way).name := by
  induction extensions with
  | nil => rfl
  | cons ext extensions ih =>
    have first := plain ext List.mem_cons_self
    have later := ih fun other member => plain other (List.mem_cons_of_mem _ member)
    rw [collectByExtension,List.flatMap_cons,List.count_append,count_matching file,
      ← collectByExtension,later,List.count_cons,List.count_cons]
    simp only [fnmatch_iff_suffix first,beq_iff_eq]
    by_cases whole : ext = (child d.path way).name
    · have none_ : (child d.path way).suffix = "" := suffix_of_plain (whole ▸ first)
      have other : ¬ ext = "" := first.ne_empty
      simp [none_,← whole,other]
      omega
    · by_cases suffix : ext = (child d.path way).suffix
      · simp [whole,← suffix]
        omega
      · simp [whole,suffix,Ne.symm whole,Ne.symm suffix]

theorem count_submitted (files : List Path) (file : Path) : (submitted files).count file = files.count file :=
  (List.mergeSort_perm files _).count_eq file

/-- Files of which no two have the same parts have one order. -/
theorem submitted_eq {files sorted : List Path} (perm : files.Perm sorted)
    (increasing : sorted.Pairwise fun p q => p.parts < q.parts) : submitted files = sorted := by
  have ordered : (submitted files).Pairwise fun p q => p.parts ≤ q.parts := by
    apply List.Pairwise.imp of_decide_eq_true
    apply List.pairwise_mergeSort
    · intro p q r first second
      exact decide_eq_true (le_trans (of_decide_eq_true first) (of_decide_eq_true second))
    · intro p q
      simpa using le_total p.parts q.parts
  have same : (submitted files).Perm sorted := (List.mergeSort_perm _ _).trans perm
  have distinct : (sorted.map Path.parts).Nodup := List.pairwise_map.mpr (increasing.imp ne_of_lt)
  refine same.eq_of_pairwise (fun p q member member' before after => ?_) ordered (increasing.imp le_of_lt)
  exact List.inj_on_of_nodup_map distinct (same.mem_iff.mp member) member' (le_antisymm before after)

theorem callsBack_iff {extensions : List String} {checkingFrequency : Nat} {p : Path} :
    callsBack (config extensions checkingFrequency) ⟨p.str,true⟩ = true ↔ p.suffix ∈ extensions := by
  simp [callsBack,config,Path.ofString_str]

theorem exists_way_of_mem {extensions : List String} {file : Path}
    (member : file ∈ submitted (collectByExtension d extensions)) : ∃ ext ∈ extensions, ∃ way,
      d.isFile way = true ∧ fnmatch ('*' :: ext.toList) (child d.path way).name = true ∧
      file = child d.resolved way := by
  have collected := (List.mergeSort_perm _ _).mem_iff.mp member
  obtain ⟨ext,listed,here⟩ := List.mem_flatMap.mp collected
  obtain ⟨way,inside,rfl⟩ := List.mem_map.mp here
  obtain ⟨matched,file⟩ := List.mem_filter.mp inside
  exact ⟨ext,listed,way,file,(List.mem_filter.mp matched).2,rfl⟩

end

/-- A file whose name is only an extension is collected but not watched. -/
theorem extension_collected : ¬ ∀ (w : WordClass) (extensions : List String) (d : Directory),
    w.Accepts extensions → Agrees (config extensions 10) d := by
  intro claim
  let base : Path := ⟨true,["videos"],by decide⟩
  let d : Directory := ⟨base,base,.leaf ".mp4" .regular .nil,by simp [Entries.Distinct,Entries.names],
    by decide⟩
  have agrees := claim .ascii [".mp4"] d ⟨by decide,by decide⟩
  have collected : child base [".mp4"] ∈ collectByExtension d [".mp4"] := by decide
  obtain ⟨way,file,calls,_⟩ := agrees.others _ ((List.mergeSort_perm _ _).mem_iff.mpr collected)
  have only : way = [".mp4"] := by simpa [Directory.isFile,d,Entries.leafAt] using file
  rw [callsBack_iff,only] at calls
  exact absurd calls (by decide)

/-- The watched files are collected once each and no others, exactly if no file is named like an
extension and the suffix of each file is in the list at most once. -/
theorem collects_watched_iff (w : WordClass) (extensions : List String) (accepted : w.Accepts extensions)
    (checkingFrequency : Nat) (d : Directory) :
    Agrees (config extensions checkingFrequency) d ↔ ∀ way, d.isFile way = true →
      (child d.path way).name ∉ extensions ∧ extensions.count (child d.path way).suffix ≤ 1 := by
  have plain (ext : String) (member : ext ∈ extensions) : Plain ext :=
    plain_of_fileExtension (accepted.2 ext member)
  constructor
  · intro agrees way file
    have count := count_collectByExtension plain file
    have unnamed : (child d.path way).name ∉ extensions := by
      intro named
      have collected : child d.resolved way ∈ submitted (collectByExtension d extensions) := by
        rw [← List.count_pos_iff,count_submitted,count]
        exact Nat.lt_add_left _ (List.count_pos_iff.mpr named)
      obtain ⟨other,otherFile,calls,same⟩ := agrees.others _ collected
      obtain rfl := child_inj (mem_walk_of_isFile file) (mem_walk_of_isFile otherFile) same
      rw [callsBack_iff,suffix_of_plain (plain _ named)] at calls
      exact (plain _ calls).ne_empty rfl
    refine ⟨unnamed,?_⟩
    by_cases watched : (child d.path way).suffix ∈ extensions
    · have once := agrees.once way file (callsBack_iff.mpr watched)
      rw [config,count_submitted,count] at once
      omega
    · rw [List.count_eq_zero_of_not_mem watched]
      exact Nat.zero_le 1
  · intro single
    constructor
    · intro way file calls
      obtain ⟨unnamed,most⟩ := single way file
      have least := List.count_pos_iff.mpr (callsBack_iff.mp calls)
      rw [config,count_submitted,count_collectByExtension plain file,
        List.count_eq_zero_of_not_mem unnamed]
      omega
    · intro file member
      obtain ⟨ext,listed,way,regular,matched,rfl⟩ := exists_way_of_mem member
      rcases (fnmatch_iff_suffix (plain ext listed)).mp matched with suffix | named
      · exact ⟨way,regular,callsBack_iff.mpr (suffix ▸ listed),rfl⟩
      · exact absurd (named ▸ listed) (single way regular).1

/-- Two recordings, one of them in a directory that is named like a recording, beside other files. -/
theorem collects_watched_iff_witness :
    let base : Path := ⟨true,["videos"],by decide⟩
    let entries : Entries String FileKind := .leaf "a.mkv" .regular (.directory "old.mp4"
      (.leaf "b.1.mp4" .regular (.leaf "c.mkv" .special .nil)) (.leaf "notes.txt" .regular .nil))
    let d : Directory := ⟨base,base,entries,by simp [entries,Entries.Distinct,Entries.names],by decide⟩
    Agrees (config [".mp4",".mkv"] 10) d := by
  intro base entries d
  refine (collects_watched_iff .ascii [".mp4",".mkv"] ⟨by decide,by decide⟩ 10 d).mpr ?_
  have all : ∀ way ∈ d.entries.walk, (child d.path way).name ∉ [".mp4",".mkv"] ∧
      [".mp4",".mkv"].count (child d.path way).suffix ≤ 1 := by decide
  exact fun way file => all way (mem_walk_of_isFile file)

end OcrSuite.FileFilter
