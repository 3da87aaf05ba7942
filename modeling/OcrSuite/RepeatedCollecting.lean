import OcrSuite.CollectFiles
import OcrSuite.Sequence

/-! Collecting files again and again with the threads that the constructor of the search started. -/
namespace OcrSuite.Viewer

open Balancing Sequence

variable {n : Nat}

namespace Search

/-- The loop of the constructor; the system can start so many threads as are available. -/
def startThreads (available : Nat) : Nat → Option Nat
  | 0 => some 0
  | i + 1 => (startThreads available i).bind fun started =>
    if started < available then some (started + 1) else none

/-- The number of threads, in the arithmetic of `unsigned int`. -/
def construct (available : Nat) (hardwareConcurrency : UInt32) : Option Nat :=
  let maxThreads := hardwareConcurrency - 1
  startThreads available maxThreads.toNat

/-- Calls of `collect_files`: the threads keep their files. -/
def collected (o : Options) (sort : List DatabaseFile → List DatabaseFile)
    (directories : List (List DirectoryEntry)) : Option (Listing × (Fin n → List DatabaseFile)) :=
  directories.foldlM (fun state directory => collectFiles o sort directory state.2)
    (⟨[],[],[],0⟩,fun _ => [])

/-- `total_size_` less the files that the threads report, which wraps around. -/
def remaining (totalSize : UInt64) (reported : List DatabaseFile) : UInt64 :=
  reported.foldl (fun remaining f => remaining - f.size) totalSize

/-- The threads have just the files of the directory, each with one thread and once. A search that is
started now counts down to zero, in whichever order the threads report. -/
structure Assigned (files : List DatabaseFile) (l : Listing) (shares : Fin n → List DatabaseFile) :
    Prop where
  listed : l.databaseFiles = files.map fun f => f.databasePath
  shared : ((List.finRange n).flatMap shares).Perm files
  once : files.Nodup → ∀ f ∈ files, ∃! i, f ∈ shares i
  total : l.totalSize = .ofNat (sizes ((List.finRange n).flatMap shares))
  drained : ∀ order, order.Perm ((List.finRange n).flatMap shares) → remaining l.totalSize order = 0

/-- The search can be constructed, and after each call its threads have the files of that call. -/
def Repeatable (o : Options) (sort : List DatabaseFile → List DatabaseFile) (available : Nat)
    (hardwareConcurrency : UInt32) (directories : List (List DirectoryEntry)) : Prop :=
  ∃ n, construct available hardwareConcurrency = some n ∧
    EveryPlace (fun front directory => ∃ l, ∃ shares : Fin n → List DatabaseFile,
      collected o sort (front ++ [directory]) = some (l,shares) ∧
      Assigned (databases o directory) l shares) directories

/-! ## The threads -/

theorem startThreads_eq (available threads : Nat) :
    startThreads available threads = if threads ≤ available then some threads else none := by
  induction threads with
  | zero => simp [startThreads]
  | succ i ih =>
    rw [startThreads,ih]
    by_cases enough : i + 1 ≤ available
    · have free : i < available := enough
      simp [enough,free,Nat.le_of_lt free]
    · have full : available ≤ i := Nat.le_of_not_lt enough
      by_cases before : i ≤ available <;> simp [enough,before,full]

/-- Without a known number of processors there are as many threads as `unsigned int` has numbers,
less one. -/
theorem toNat_maxThreads (hardwareConcurrency : UInt32) :
    (hardwareConcurrency - 1).toNat =
      if hardwareConcurrency = 0 then 2 ^ 32 - 1 else hardwareConcurrency.toNat - 1 := by
  by_cases unknown : hardwareConcurrency = 0
  · subst hardwareConcurrency
    rfl
  · rw [if_neg unknown]
    have least : 1 ≤ hardwareConcurrency := by
      rw [UInt32.le_iff_toNat_le]
      refine Nat.pos_of_ne_zero fun zero => unknown ?_
      exact UInt32.toNat_inj.mp zero
    exact UInt32.toNat_sub_of_le _ _ least

/-! ## One call -/

theorem remaining_add (totalSize : UInt64) (reported : List DatabaseFile) :
    remaining totalSize reported + .ofNat (sizes reported) = totalSize := by
  induction reported generalizing totalSize with
  | nil => simp [remaining,sizes]
  | cons f rest ih =>
    have split_ : sizes (f :: rest) = sizes rest + f.size.toNat := by simp [sizes,Nat.add_comm]
    calc remaining totalSize (f :: rest) + .ofNat (sizes (f :: rest))
        = remaining (totalSize - f.size) rest + .ofNat (sizes rest) + f.size := by
          rw [split_,UInt64.ofNat_add,UInt64.ofNat_toNat,UInt64.add_assoc]
          rfl
      _ = totalSize - f.size + f.size := by rw [ih]
      _ = totalSize := UInt64.sub_add_cancel _ _

theorem listing_databaseFiles (o : Options) (directory : List DirectoryEntry) :
    (listing o directory).databaseFiles = (databases o directory).map fun f => f.databasePath := by
  induction directory using List.reverseRecOn with
  | nil => rfl
  | append_singleton directory e ih =>
    rw [listing,List.foldl_append,List.foldl_cons,List.foldl_nil,← listing]
    simp only [visit,databases,List.filter_append,List.map_append]
    rw [← databases,← ih]
    by_cases regular : e.isRegularFile = true
    · by_cases database : e.path.extension = o.dbExtension
      · simp only [regular,database,if_true]
        split <;> simp [regular,database,databaseFile]
      · simp only [regular,database,if_true,if_false]
        split <;> simp [database]
    · simp [regular]

/-- Threads that share just the files of the directory have the total of the listing. -/
theorem assigned_of_shared {o : Options} {directory : List DirectoryEntry}
    {shares : Fin n → List DatabaseFile}
    (shared : ((List.finRange n).flatMap shares).Perm (databases o directory)) :
    Assigned (databases o directory) (listing o directory) shares := by
  have total : (listing o directory).totalSize =
      .ofNat (sizes ((List.finRange n).flatMap shares)) := by
    rw [(listing_eq o directory).2,sizes_perm shared]
  refine ⟨listing_databaseFiles o directory,shared,fun distinct f member => ?_,total,
    fun order same => ?_⟩
  · exact existsUnique_bin List.mem_finRange (shared.nodup_iff.mpr distinct)
      (shared.mem_iff.mpr member)
  · have all := remaining_add (listing o directory).totalSize order
    rw [sizes_perm same,← total] at all
    rw [UInt64.eq_sub_iff_add_eq.mpr all,UInt64.sub_self]

theorem addFile_perm {t t' : Threads n} {f : DatabaseFile} (added : addFile t f = some t') :
    ((List.finRange n).flatMap t'.files).Perm ((List.finRange n).flatMap t.files ++ [f]) := by
  obtain ⟨k,_,rfl⟩ := Option.map_eq_some_iff.mp added
  exact update_perm (List.nodup_finRange n) (List.mem_finRange k) t.files f

theorem addFiles_perm {t t' : Threads n} {files : List DatabaseFile}
    (added : addFiles t files = some t') :
    ((List.finRange n).flatMap t'.files).Perm ((List.finRange n).flatMap t.files ++ files) := by
  induction files generalizing t with
  | nil =>
    obtain rfl := Option.some.inj added
    simp
  | cons f rest ih =>
    obtain ⟨next,first,later⟩ := Option.bind_eq_some_iff.mp added
    have one := (addFile_perm first).append_right rest
    rw [List.append_assoc,List.singleton_append] at one
    exact (ih later).trans one

theorem exists_addFile (threads : 0 < n) (t : Threads n) (f : DatabaseFile) :
    ∃ t', addFile t f = some t' := by
  have bins : List.finRange n ≠ [] := by simpa using Nat.ne_of_gt threads
  obtain ⟨k,least⟩ := Option.ne_none_iff_exists'.mp
    (fun none => bins (List.argmin_eq_none.mp none) : getNextIndex t.loads ≠ none)
  exact ⟨_,by rw [addFile,least]; rfl⟩

theorem exists_addFiles (files : List DatabaseFile) (threads : files ≠ [] → 0 < n) (t : Threads n) :
    ∃ t', addFiles t files = some t' := by
  induction files generalizing t with
  | nil => exact ⟨t,rfl⟩
  | cons f rest ih =>
    have some_ : 0 < n := threads (List.cons_ne_nil f rest)
    obtain ⟨next,first⟩ := exists_addFile some_ t f
    obtain ⟨last,later⟩ := ih (fun _ => some_) next
    exact ⟨last,by rw [addFiles,first]; exact later⟩

section

variable {o : Options} {sort : List DatabaseFile → List DatabaseFile} (sorts : SortsBySize sort)
include sorts

/-- What a thread had it keeps. -/
theorem collectFiles_perm {directory : List DirectoryEntry} {files shares : Fin n → List DatabaseFile}
    {l : Listing} (called : collectFiles o sort directory files = some (l,shares)) :
    l = listing o directory ∧
      ((List.finRange n).flatMap shares).Perm
        ((List.finRange n).flatMap files ++ databases o directory) := by
  obtain ⟨t,added,same⟩ := Option.map_eq_some_iff.mp called
  obtain ⟨rfl,rfl⟩ := Prod.mk.inj same
  rw [(listing_eq o directory).1] at added
  exact ⟨rfl,(addFiles_perm added).trans ((sorts.perm _).append_left _)⟩

theorem exists_collectFiles {directory : List DirectoryEntry}
    (threads : databases o directory ≠ [] → 0 < n) (files : Fin n → List DatabaseFile) :
    ∃ shares, collectFiles o sort directory files = some (listing o directory,shares) := by
  have sorted := sorts.perm (databases o directory)
  obtain ⟨t,added⟩ := exists_addFiles (sort (databases o directory))
    (fun some_ => threads fun none => some_ (by rw [none] at sorted ⊢; exact sorted.eq_nil))
    ⟨fun _ => 0,files⟩
  exact ⟨t.files,by rw [collectFiles,(listing_eq o directory).1,added]; rfl⟩

/-! ## All calls -/

omit sorts in
theorem collected_append (front : List (List DirectoryEntry)) (directory : List DirectoryEntry) :
    collected (n := n) o sort (front ++ [directory]) =
      (collected o sort front).bind fun state => collectFiles o sort directory state.2 := by
  simp [collected,List.foldlM_append]

theorem collected_perm {directories : List (List DirectoryEntry)} {l : Listing}
    {shares : Fin n → List DatabaseFile} (calls : collected o sort directories = some (l,shares)) :
    ((List.finRange n).flatMap shares).Perm (directories.flatMap (databases o)) := by
  induction directories using List.reverseRecOn generalizing l shares with
  | nil =>
    obtain ⟨_,rfl⟩ := Prod.mk.inj (Option.some.inj calls)
    simp
  | append_singleton front directory ih =>
    rw [collected_append] at calls
    obtain ⟨⟨_,files⟩,before,last⟩ := Option.bind_eq_some_iff.mp calls
    have all := (collectFiles_perm sorts last).2.trans ((ih before).append_right _)
    simpa using all

theorem exists_collected {directories : List (List DirectoryEntry)}
    (threads : ∀ directory ∈ directories, databases o directory ≠ [] → 0 < n) :
    ∃ state, collected (n := n) o sort directories = some state := by
  induction directories using List.reverseRecOn with
  | nil => exact ⟨_,rfl⟩
  | append_singleton front directory ih =>
    obtain ⟨state,before⟩ := ih fun d member => threads d (List.mem_append_left _ member)
    obtain ⟨shares,last⟩ := exists_collectFiles sorts
      (threads directory (List.mem_append_right _ (List.mem_singleton_self _))) state.2
    exact ⟨_,by rw [collected_append,before]; exact last⟩

/-- A call leaves the threads with just the files of its directory, exactly if no earlier directory had
any and there are threads for its own. -/
theorem exists_assigned_iff {front : List (List DirectoryEntry)} {directory : List DirectoryEntry} :
    (∃ l, ∃ shares : Fin n → List DatabaseFile,
      collected o sort (front ++ [directory]) = some (l,shares) ∧
      Assigned (databases o directory) l shares) ↔
    (∀ d ∈ front, databases o d = []) ∧ (databases o directory ≠ [] → 0 < n) := by
  constructor
  · rintro ⟨l,shares,calls,assigned⟩
    have all := (collected_perm sorts calls).symm.trans assigned.shared
    have size := all.length_eq
    have none : front.flatMap (databases o) = [] := by
      apply List.eq_nil_of_length_eq_zero
      simp only [List.flatMap_append,List.flatMap_singleton,List.length_append] at size
      omega
    refine ⟨List.flatMap_eq_nil_iff.mp none,fun some_ => Nat.pos_of_ne_zero ?_⟩
    rintro rfl
    refine some_ (List.nil_perm.mp ?_)
    simpa using assigned.shared
  · rintro ⟨none,enough⟩
    have last : ∀ d ∈ front ++ [directory], databases o d ≠ [] → 0 < n := by
      intro d member
      rcases List.mem_append.mp member with before | here
      · exact fun some_ => absurd (none d before) some_
      · rw [List.mem_singleton.mp here]
        exact enough
    obtain ⟨⟨l,shares⟩,calls⟩ := exists_collected (n := n) sorts last
    have shared := collected_perm sorts calls
    rw [List.flatMap_append,List.flatMap_eq_nil_iff.mpr none,List.flatMap_singleton,
      List.nil_append] at shared
    rw [collected_append] at calls
    obtain ⟨state,_,called⟩ := Option.bind_eq_some_iff.mp calls
    obtain ⟨rfl,_⟩ := collectFiles_perm sorts called
    exact ⟨_,shares,by rw [collected_append]; exact calls,assigned_of_shared shared⟩

end

/-- Files that are collected a second time are assigned a second time. -/
theorem collected_twice : ¬ Repeatable ⟨".mp4",".db"⟩ (fun files => files.mergeSort fun f g => f.size ≤ g.size)
    8 2 [[⟨⟨"a",".db"⟩,true,30⟩],[⟨⟨"a",".db"⟩,true,30⟩]] := by
  rintro ⟨n,_,every⟩
  have twice := (exists_assigned_iff sortsBySize_mergeSort).mp (every [_] _ [] rfl)
  exact absurd (twice.1 _ List.mem_cons_self) (by decide)

/-- Collecting is repeatable exactly if so many threads can be started, no earlier directory has
databases, and one has only if the number of processors is not one. -/
theorem repeatable_iff (o : Options) (sort : List DatabaseFile → List DatabaseFile)
    (sorts : SortsBySize sort) (available : Nat) (hardwareConcurrency : UInt32)
    (directories : List (List DirectoryEntry)) :
    Repeatable o sort available hardwareConcurrency directories ↔
      (if hardwareConcurrency = 0 then 2 ^ 32 - 1 else hardwareConcurrency.toNat - 1) ≤ available ∧
      EveryPlace (fun front directory => (∀ d ∈ front, databases o d = []) ∧
        (databases o directory ≠ [] → hardwareConcurrency ≠ 1)) directories := by
  have positive : 0 < (hardwareConcurrency - 1).toNat ↔ hardwareConcurrency ≠ 1 := by
    rw [Nat.pos_iff_ne_zero,ne_eq,ne_eq,not_iff_not,← UInt32.toNat_zero,UInt32.toNat_inj,
      UInt32.sub_eq_iff_eq_add,UInt32.zero_add]
  rw [Repeatable,construct,startThreads_eq,← toNat_maxThreads]
  constructor
  · rintro ⟨n,started,every⟩
    split at started
    case isTrue enough =>
      obtain rfl := Option.some.inj started
      refine ⟨enough,fun front directory back parts => ?_⟩
      obtain ⟨none,threads⟩ := (exists_assigned_iff sorts).mp (every front directory back parts)
      exact ⟨none,fun some_ => positive.mp (threads some_)⟩
    case isFalse => simp at started
  · rintro ⟨enough,every⟩
    refine ⟨_,if_pos enough,fun front directory back parts => (exists_assigned_iff sorts).mpr ?_⟩
    obtain ⟨none,processors⟩ := every front directory back parts
    exact ⟨none,fun some_ => positive.mpr (processors some_)⟩

/-- Three processors, and databases in the last directory only. -/
theorem repeatable_iff_witness :
    let o : Options := ⟨".mp4",".db"⟩
    let sort (files : List DatabaseFile) := files.mergeSort fun f g => f.size ≤ g.size
    let directories : List (List DirectoryEntry) := [[⟨⟨"a",".mp4"⟩,true,900⟩],
      [⟨⟨"a",".db"⟩,true,30⟩,⟨⟨"b",".db"⟩,true,10⟩]]
    Repeatable o sort 8 3 directories := by
  intro o sort directories
  refine (repeatable_iff o sort sortsBySize_mergeSort 8 3 directories).mpr ⟨by decide,?_⟩
  simp [directories,everyPlace_cons,databases,o]

end Search

end OcrSuite.Viewer
