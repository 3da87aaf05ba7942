import Mathlib.Algebra.Order.Group.Nat
import OcrSuite.Balancing
import OcrSuite.Search

/-! The files of a directory, and how the search shares its databases out among its threads. -/
namespace OcrSuite.Viewer

open Balancing

variable {n : Nat} {F : Type}

/-- A path with its extension apart. -/
structure FilePath where
  stem : String
  extension : String
  deriving DecidableEq

namespace FilePath

def string (p : FilePath) : String := p.stem ++ p.extension

/-- The library adds the dot that an extension lacks. -/
def replaceExtension (p : FilePath) (extension : String) : FilePath :=
  { p with extension :=
    if extension = "" ∨ extension.toList.head? = some '.' then extension else "." ++ extension }

end FilePath

structure DirectoryEntry where
  path : FilePath
  isRegularFile : Bool
  fileSize : UInt64
  deriving DecidableEq

structure Options where
  videoExtension : String
  dbExtension : String

/-- What the loop over the directory has found. -/
structure Listing where
  videoFiles : List String
  databaseFiles : List String
  searchFiles : List DatabaseFile
  totalSize : UInt64

/-- The loads and the files of the threads. -/
structure Threads (n : Nat) where
  loads : Fin n → UInt64
  files : Fin n → List DatabaseFile

namespace Search

def databaseFile (o : Options) (e : DirectoryEntry) : DatabaseFile :=
  ⟨e.path.string,(e.path.replaceExtension o.videoExtension).string,e.fileSize⟩

def visit (o : Options) (l : Listing) (e : DirectoryEntry) : Listing :=
  if e.isRegularFile then
    let l := if e.path.extension = o.dbExtension then { l with
      databaseFiles := l.databaseFiles ++ [e.path.string]
      searchFiles := l.searchFiles ++ [databaseFile o e]
      totalSize := l.totalSize + e.fileSize } else l
    if e.path.extension = o.videoExtension then
      { l with videoFiles := l.videoFiles ++ [e.path.string] } else l
  else l

def listing (o : Options) (directory : List DirectoryEntry) : Listing :=
  directory.foldl (visit o) ⟨[],[],[],0⟩

/-- The first of the threads with the smallest load. -/
def getNextIndex (loads : Fin n → UInt64) : Option (Fin n) :=
  (List.finRange n).argmin fun i => (loads i).toNat

/-- Without threads there is no place to go to. -/
def addFile (t : Threads n) (f : DatabaseFile) : Option (Threads n) :=
  (getNextIndex t.loads).map fun idx =>
    ⟨Function.update t.loads idx (t.loads idx + f.size),Function.update t.files idx (t.files idx ++ [f])⟩

def addFiles : Threads n → List DatabaseFile → Option (Threads n)
  | t, [] => some t
  | t, f :: rest => (addFile t f).bind fun t => addFiles t rest

/-- `collect_files`, for threads that have these files already. -/
def collectFiles (o : Options) (sort : List DatabaseFile → List DatabaseFile)
    (directory : List DirectoryEntry) (files : Fin n → List DatabaseFile) :
    Option (Listing × (Fin n → List DatabaseFile)) :=
  let l := listing o directory
  (addFiles ⟨fun _ => 0,files⟩ (sort l.searchFiles)).map fun t => (l,t.files)

/-- What `std::sort` does with the sizes; files of one size may come in any order. -/
structure SortsBySize (sort : List DatabaseFile → List DatabaseFile) : Prop where
  perm : ∀ files, (sort files).Perm files
  sorted : ∀ files, (sort files).Pairwise fun f g => f.size ≤ g.size

theorem sortsBySize_mergeSort : SortsBySize fun files => files.mergeSort fun f g => f.size ≤ g.size := by
  refine ⟨fun files => List.mergeSort_perm _ _,fun files => ?_⟩
  have sorted : (files.mergeSort fun f g => decide (f.size ≤ g.size)).Pairwise fun f g =>
      decide (f.size ≤ g.size) = true :=
    List.pairwise_mergeSort (fun f g h => by simpa using UInt64.le_trans)
      (fun f g => by simpa using UInt64.le_total _ _) files
  exact sorted.imp fun le => by simpa using le

/-- The databases of a directory. -/
def databases (o : Options) (directory : List DirectoryEntry) : List DatabaseFile :=
  (directory.filter fun e => e.isRegularFile && e.path.extension = o.dbExtension).map (databaseFile o)

def largest (files : List DatabaseFile) : Nat := (files.map fun f => f.size.toNat).foldr max 0

/-- Each database is with one thread, the total is that of all sizes, and the loads of two threads
differ by no more than the largest size. -/
structure Distributed (files : List DatabaseFile) (l : Listing) (shares : Fin n → List DatabaseFile) :
    Prop where
  shared : ((List.finRange n).flatMap shares).Perm files
  once : files.Nodup → ∀ f ∈ files, ∃! i, f ∈ shares i
  total : l.totalSize.toNat = sizes files
  even : ∀ i j, sizes (shares i) ≤ sizes (shares j) + largest files

@[simp] theorem sizes_append (front back : List DatabaseFile) :
    sizes (front ++ back) = sizes front + sizes back := by
  simp [sizes]

theorem sizes_perm {files files' : List DatabaseFile} (same : files.Perm files') :
    sizes files = sizes files' :=
  (same.map _).sum_eq

theorem le_largest {files : List DatabaseFile} {f : DatabaseFile} (member : f ∈ files) :
    f.size.toNat ≤ largest files :=
  List.le_max_of_le' 0 (List.mem_map_of_mem member) (Nat.le_refl _)

/-- The loop finds the databases in the order of the directory. -/
theorem listing_eq (o : Options) (directory : List DirectoryEntry) :
    (listing o directory).searchFiles = databases o directory ∧
    (listing o directory).totalSize = .ofNat (sizes (databases o directory)) := by
  induction directory using List.reverseRecOn with
  | nil => exact ⟨rfl,rfl⟩
  | append_singleton directory e ih =>
    obtain ⟨files,total⟩ := ih
    rw [listing,List.foldl_append,List.foldl_cons,List.foldl_nil,← listing]
    by_cases database : (e.isRegularFile && e.path.extension = o.dbExtension) = true
    · obtain ⟨regular,extension⟩ : e.isRegularFile = true ∧ e.path.extension = o.dbExtension := by
        simpa using database
      have grown : databases o (directory ++ [e]) = databases o directory ++ [databaseFile o e] := by
        simp [databases,database]
      have size : sizes [databaseFile o e] = e.fileSize.toNat := by simp [sizes,databaseFile]
      rw [grown,sizes_append,UInt64.ofNat_add,size,UInt64.ofNat_toNat,← total,← files]
      simp only [visit,regular,extension,if_true]
      split <;> exact ⟨rfl,rfl⟩
    · have same : databases o (directory ++ [e]) = databases o directory := by
        simp [databases,database]
      rw [same,← total,← files]
      simp only [visit]
      split
      · rename_i regular
        have other : e.path.extension ≠ o.dbExtension := by simpa [regular] using database
        simp only [other,if_false]
        split <;> exact ⟨rfl,rfl⟩
      · exact ⟨rfl,rfl⟩

/-- As long as the loads do not wrap around, files go to the threads as to bins of numbers. -/
theorem addFiles_spread {t : Threads n} (exact_ : ∀ i, (t.loads i).toNat = sizes (t.files i))
    {rest : List DatabaseFile} (fits : sizes ((List.finRange n).flatMap t.files) + sizes rest < 2 ^ 64) :
    (addFiles t rest).map Threads.files =
      spread (fun f => f.size.toNat) (List.finRange n) t.files rest := by
  induction rest generalizing t with
  | nil => rfl
  | cons f rest ih =>
    have loads : (fun i => (t.loads i).toNat) = load (fun f => f.size.toNat) t.files := funext exact_
    rw [addFiles,spread,addFile,place,getNextIndex,loads]
    cases index : (List.finRange n).argmin (load (fun f : DatabaseFile => f.size.toNat) t.files) with
    | none => rfl
    | some k =>
      simp only [Option.map_some,Option.bind_some]
      have placed : place (fun f => f.size.toNat) (List.finRange n) t.files f =
          some (Function.update t.files k (t.files k ++ [f])) := by rw [place,index]; rfl
      have moved := sizes_perm (place_perm (List.nodup_finRange n) placed)
      have split_ : sizes (f :: rest) = sizes [f] + sizes rest := sizes_append [f] rest
      have single : sizes [f] = f.size.toNat := by simp [sizes]
      have part : sizes (t.files k) ≤ sizes ((List.finRange n).flatMap t.files) := by
        obtain ⟨front,back,parts⟩ := List.append_of_mem (List.mem_finRange k)
        simp [parts,List.flatMap_append,List.flatMap_cons]
        omega
      rw [sizes_append] at moved
      have room : sizes ((List.finRange n).flatMap (Function.update t.files k (t.files k ++ [f]))) +
          sizes rest < 2 ^ 64 := by omega
      refine ih (fun i => ?_) room
      by_cases same : i = k
      · subst i
        have sum : (t.loads k + f.size).toNat = (t.loads k).toNat + f.size.toNat := by
          rw [UInt64.toNat_add,exact_]
          exact Nat.mod_eq_of_lt (by omega)
        simp [sum,exact_,single]
      · simpa [same] using exact_ i

theorem collectFiles_eq {sort : List DatabaseFile → List DatabaseFile} (sorts : SortsBySize sort)
    (o : Options) (directory : List DirectoryEntry) (fits : sizes (databases o directory) < 2 ^ 64) :
    collectFiles o sort directory (fun _ : Fin n => []) =
      (spread (fun f => f.size.toNat) (List.finRange n) (fun _ => []) (sort (databases o directory))).map
        fun shares => (listing o directory,shares) := by
  have empty : (List.finRange n).flatMap (fun _ => ([] : List DatabaseFile)) = [] := by simp
  have room : sizes ((List.finRange n).flatMap fun _ => []) + sizes (sort (databases o directory)) <
      2 ^ 64 := by
    rw [empty,sizes_perm (sorts.perm _)]
    simpa [sizes] using fits
  have spreads := addFiles_spread (t := ⟨fun _ => 0,fun _ : Fin n => []⟩) (fun _ => rfl) room
  rw [← spreads,collectFiles,(listing_eq o directory).1,Option.map_map]
  rfl

/-- The databases of a directory are shared out completely and evenly. -/
theorem files_distributed_evenly (o : Options) (sort : List DatabaseFile → List DatabaseFile)
    (sorts : SortsBySize sort) (directory : List DirectoryEntry) (threads : 0 < n)
    (fits : sizes (databases o directory) < 2 ^ 64) :
    ∃ l, ∃ shares : Fin n → List DatabaseFile,
      collectFiles o sort directory (fun _ => []) = some (l,shares) ∧
      Distributed (databases o directory) l shares := by
  have sorted := sorts.perm (databases o directory)
  have bins : List.finRange n ≠ [] := by simpa using Nat.ne_of_gt threads
  obtain ⟨shares,spreads⟩ := exists_spread (fun f : DatabaseFile => f.size.toNat) bins (fun _ => [])
    (sort (databases o directory))
  have perm : ((List.finRange n).flatMap shares).Perm (databases o directory) := by
    have all := spread_perm (List.nodup_finRange n) spreads
    have empty : (List.finRange n).flatMap (fun _ => ([] : List DatabaseFile)) = [] := by simp
    rw [empty,List.nil_append] at all
    exact all.trans sorted
  refine ⟨listing o directory,shares,by rw [collectFiles_eq sorts o directory fits,spreads]; rfl,
    perm,fun distinct f member => ?_,?_,?_⟩
  · exact existsUnique_bin List.mem_finRange (perm.nodup_iff.mpr distinct) (perm.mem_iff.mpr member)
  · rw [(listing_eq o directory).2,UInt64.toNat_ofNat_of_lt' fits]
  · refine spread_balanced List.mem_finRange ?_ (fun f member => ?_) spreads
    · exact fun _ _ => Nat.zero_le _
    · exact le_largest (sorted.mem_iff.mp member)

/-- Three databases for two threads, beside a video and a directory. -/
theorem files_distributed_evenly_witness :
    let o : Options := ⟨".mp4",".db"⟩
    let sort (files : List DatabaseFile) := files.mergeSort fun f g => f.size ≤ g.size
    let directory : List DirectoryEntry := [⟨⟨"a",".db"⟩,true,30⟩,⟨⟨"a",".mp4"⟩,true,900⟩,
      ⟨⟨"b",".db"⟩,true,10⟩,⟨⟨"c",".db"⟩,false,0⟩,⟨⟨"d",".db"⟩,true,20⟩]
    ∃ l, ∃ shares : Fin 2 → List DatabaseFile,
      collectFiles o sort directory (fun _ => []) = some (l,shares) ∧
      Distributed (databases o directory) l shares := by
  intro o sort directory
  exact files_distributed_evenly o sort sortsBySize_mergeSort directory (by decide) (by decide)

/-! ## The shares as the files of the search -/

theorem sum_sizes (shares : Fin n → List DatabaseFile) :
    ∑ i, sizes (shares i) = sizes ((List.finRange n).flatMap shares) := by
  rw [Fin.sum_univ_def]
  simp [sizes,List.flatMap_def,List.map_flatten,List.sum_flatten,Function.comp_def]

/-- The largest file of a thread is its last one, so the count of the search is exact unless a thread
has empty files only. -/
theorem countable_iff {o : Options} {sort : List DatabaseFile → List DatabaseFile}
    (sorts : SortsBySize sort) {directory : List DirectoryEntry}
    (fits : sizes (databases o directory) < 2 ^ 64) {l : Listing} {c : Collection n F}
    (collected : collectFiles o sort directory (fun _ => []) = some (l,c.files)) :
    Countable c ↔ ∀ i, c.files i ≠ [] → ∃ f ∈ c.files i, f.size ≠ 0 := by
  rw [collectFiles_eq sorts o directory fits] at collected
  obtain ⟨shares,spreads,same⟩ := Option.map_eq_some_iff.mp collected
  obtain ⟨_,rfl⟩ := Prod.mk.inj same
  have ordered (i : Fin n) : (c.files i).Pairwise fun f g => f.size ≤ g.size := by
    obtain ⟨part,here,inside⟩ := spread_sublist spreads i
    rw [here,List.nil_append]
    exact (sorts.sorted _).sublist inside
  have bounded : ∑ i, sizes (c.files i) < 2 ^ 64 := by
    have all := spread_perm (List.nodup_finRange n) spreads
    have empty : (List.finRange n).flatMap (fun _ => ([] : List DatabaseFile)) = [] := by simp
    rw [empty,List.nil_append] at all
    rwa [sum_sizes,sizes_perm all,sizes_perm (sorts.perm _)]
  refine (and_iff_right bounded).trans (forall_congr' fun i => ?_)
  obtain none | ⟨front,f,here⟩ := List.eq_nil_or_concat (c.files i)
  · simp [none]
  · rw [List.concat_eq_append] at here
    have last (g : DatabaseFile) (member : g ∈ front) : g.size ≤ f.size := by
      have sorted := ordered i
      rw [here] at sorted
      exact (List.pairwise_append.mp sorted).2.2 g member f (List.mem_singleton_self f)
    constructor
    · intro nonempty _
      exact ⟨f,by simp [here],nonempty f (by simp [here])⟩
    · intro some_
      obtain ⟨g,member,size⟩ := some_ (by simp [here])
      simp only [here,List.getLast?_append,List.getLast?_singleton,Option.some_or,Option.mem_def,
        Option.some.injEq,forall_eq']
      rw [here,List.mem_append,List.mem_singleton] at member
      obtain member | rfl := member
      · intro zero
        exact size (UInt64.le_zero_iff.mp (zero ▸ last g member))
      · exact size

end Search

end OcrSuite.Viewer
