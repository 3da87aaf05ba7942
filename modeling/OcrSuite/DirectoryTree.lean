import Mathlib.Data.List.Nodup

/-! Trees of named entries, and the walk through all that stands below a directory. -/
namespace OcrSuite.DirectoryTree

variable {ν κ : Type}

/-- The entries of a directory one after another. -/
inductive Entries (ν κ : Type) where
  | nil
  | leaf (name : ν) (kind : κ) (rest : Entries ν κ)
  | directory (name : ν) (inside rest : Entries ν κ)

namespace Entries

def names : Entries ν κ → List ν
  | .nil => []
  | .leaf name _ rest => name :: rest.names
  | .directory name _ rest => name :: rest.names

/-- No directory has two entries of one name. -/
def Distinct : Entries ν κ → Prop
  | .nil => True
  | .leaf name _ rest => name ∉ rest.names ∧ rest.Distinct
  | .directory name inside rest => name ∉ rest.names ∧ inside.Distinct ∧ rest.Distinct

/-- The names on the way to each entry, directories included. -/
def walk : Entries ν κ → List (List ν)
  | .nil => []
  | .leaf name _ rest => [name] :: rest.walk
  | .directory name inside rest => [name] :: inside.walk.map (name :: ·) ++ rest.walk

/-- What stands at the end of a way, unless it is a directory. -/
def leafAt [DecidableEq ν] : Entries ν κ → List ν → Option κ
  | .nil, _ => none
  | .leaf name kind rest, path => if path = [name] then some kind else rest.leafAt path
  | .directory name inside rest, path =>
    if path.head? = some name then inside.leafAt path.tail else rest.leafAt path

/-- Ways start with a name of the directory. -/
theorem head_of_mem_walk {e : Entries ν κ} {path : List ν} (member : path ∈ e.walk) :
    ∃ name ∈ e.names, ∃ below, path = name :: below := by
  induction e generalizing path with
  | nil => simp [walk] at member
  | leaf name kind rest ih =>
    rcases List.mem_cons.mp member with rfl | later
    · exact ⟨name,List.mem_cons_self,[],rfl⟩
    · obtain ⟨first,inside,below,rfl⟩ := ih later
      exact ⟨first,List.mem_cons_of_mem _ inside,below,rfl⟩
  | directory name inside rest _ ih =>
    rcases List.mem_append.mp member with here | later
    · rcases List.mem_cons.mp here with rfl | within
      · exact ⟨name,List.mem_cons_self,[],rfl⟩
      · obtain ⟨below,_,rfl⟩ := List.mem_map.mp within
        exact ⟨name,List.mem_cons_self,below,rfl⟩
    · obtain ⟨first,inside,below,rfl⟩ := ih later
      exact ⟨first,List.mem_cons_of_mem _ inside,below,rfl⟩

/-- The walk comes to every entry once. -/
theorem nodup_walk {e : Entries ν κ} (distinct : e.Distinct) : e.walk.Nodup := by
  induction e with
  | nil => exact List.nodup_nil
  | leaf name kind rest ih =>
    refine List.nodup_cons.mpr ⟨fun member => ?_,ih distinct.2⟩
    obtain ⟨first,inside,_,same⟩ := head_of_mem_walk member
    exact distinct.1 ((List.cons.inj same).1 ▸ inside)
  | directory name inside rest ihInside ihRest =>
    have apart {path : List ν} (member : path ∈ rest.walk) : path.head? ≠ some name := by
      obtain ⟨first,known,below,rfl⟩ := head_of_mem_walk member
      intro same
      exact distinct.1 (Option.some.inj same ▸ known)
    refine List.Nodup.append (List.nodup_cons.mpr ⟨fun member => ?_,?_⟩) (ihRest distinct.2.2) ?_
    · obtain ⟨below,within,same⟩ := List.mem_map.mp member
      obtain ⟨_,_,_,rfl⟩ := head_of_mem_walk within
      simp at same
    · exact (ihInside distinct.2.1).map (List.cons_injective)
    · intro path here later
      apply apart later
      rcases List.mem_cons.mp here with rfl | within
      · rfl
      · obtain ⟨below,_,rfl⟩ := List.mem_map.mp within
        rfl

/-- The walk comes to every leaf. -/
theorem mem_walk_of_leafAt [DecidableEq ν] {e : Entries ν κ} {path : List ν} {kind : κ}
    (leaf : e.leafAt path = some kind) : path ∈ e.walk := by
  induction e generalizing path with
  | nil => simp [leafAt] at leaf
  | leaf name other rest ih =>
    rw [leafAt] at leaf
    split at leaf
    case isTrue here => exact here ▸ List.mem_cons_self
    case isFalse => exact List.mem_cons_of_mem _ (ih leaf)
  | directory name inside rest ihInside ihRest =>
    rw [leafAt] at leaf
    split at leaf
    case isTrue here =>
      obtain ⟨below,rfl⟩ := List.head?_eq_some_iff.mp here
      have within := List.mem_map_of_mem (f := (name :: ·)) (ihInside leaf)
      exact List.mem_append_left _ (List.mem_cons_of_mem _ within)
    case isFalse => exact List.mem_append_right _ (ihRest leaf)

end Entries

end OcrSuite.DirectoryTree
