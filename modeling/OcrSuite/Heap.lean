import Mathlib.Data.List.Perm.Basic
import Mathlib.Logic.Function.Basic

/-! Memory that is allocated and freed block by block, with numbers as pointers. Freeing what is not allocated
fails, and a ledger says what a piece of code has allocated and not freed yet; with an empty ledger the memory
is as it was. -/
namespace OcrSuite

/-- Nothing is allocated from `next` on. -/
structure Heap (β : Type) where
  next : Nat
  block : Nat → Option β
  fresh : ∀ p, next ≤ p → block p = none

namespace Heap

variable {β : Type} {base h : Heap β} {own : List (Nat × β)}

def empty : Heap β := ⟨0,fun _ => none,fun _ _ => rfl⟩

def alloc (h : Heap β) (b : β) : Heap β where
  next := h.next + 1
  block := Function.update h.block h.next (some b)
  fresh p after := by
    have other : p ≠ h.next := by omega
    simp [other,h.fresh p (by omega)]

def free (h : Heap β) (p : Nat) : Option (Heap β) :=
  if (h.block p).isSome then
    some {
      next := h.next
      block := Function.update h.block p none
      fresh := fun q after => by
        by_cases same : q = p
        · simp [same]
        · simp [same,h.fresh q after] }
  else none

def allocAll (h : Heap β) (blocks : List β) : Heap β := blocks.foldl alloc h

/-- The pointers to blocks that are allocated one after the other. -/
def pointers (h : Heap β) (blocks : List β) : List Nat := List.range' h.next blocks.length

def freeAll : Heap β → List Nat → Option (Heap β)
  | h, [] => some h
  | h, p :: rest => (h.free p).bind fun h => h.freeAll rest

/-- `own` is what was allocated since `base` and is still there; all else is as in `base`. -/
structure Ledger (base h : Heap β) (own : List (Nat × β)) : Prop where
  nodup : (own.map Prod.fst).Nodup
  absent : ∀ e ∈ own, base.block e.1 = none
  owned : ∀ e ∈ own, h.block e.1 = some e.2
  others : ∀ p, p ∉ own.map Prod.fst → h.block p = base.block p

theorem Ledger.start (h : Heap β) : Ledger h h [] := by
  constructor <;> simp

theorem Ledger.perm {own' : List (Nat × β)} (ledger : Ledger base h own) (same : own.Perm own') :
    Ledger base h own' where
  nodup := (same.map Prod.fst).nodup_iff.mp ledger.nodup
  absent e member := ledger.absent e (same.mem_iff.mpr member)
  owned e member := ledger.owned e (same.mem_iff.mpr member)
  others p other := ledger.others p fun member => other ((same.map Prod.fst).mem_iff.mp member)

/-- Nothing is left. -/
theorem Ledger.closed (ledger : Ledger base h []) : h.block = base.block :=
  funext fun p => ledger.others p (by simp)

theorem Ledger.alloc (ledger : Ledger base h own) (b : β) :
    Ledger base (h.alloc b) ((h.next,b) :: own) := by
  have new : h.next ∉ own.map Prod.fst := by
    intro member
    obtain ⟨e,inside,at_⟩ := List.mem_map.mp member
    have there := ledger.owned e inside
    rw [at_,h.fresh _ (Nat.le_refl _)] at there
    contradiction
  have other {p : Nat} (member : p ∈ own.map Prod.fst) : p ≠ h.next := by
    rintro rfl
    exact new member
  refine ⟨List.nodup_cons.mpr ⟨new,ledger.nodup⟩,?_,?_,?_⟩
  · intro e member
    rcases List.mem_cons.mp member with rfl | inside
    · exact (ledger.others _ new).symm.trans (h.fresh _ (Nat.le_refl _))
    · exact ledger.absent e inside
  · intro e member
    rcases List.mem_cons.mp member with rfl | inside
    · simp [Heap.alloc]
    · have apart := other (List.mem_map_of_mem inside)
      simpa [Heap.alloc,apart] using ledger.owned e inside
  · intro p outside
    simp only [List.map_cons,List.mem_cons,not_or] at outside
    simpa [Heap.alloc,outside.1] using ledger.others p outside.2

theorem Ledger.allocAll (ledger : Ledger base h own) (blocks : List β) :
    Ledger base (h.allocAll blocks) ((h.pointers blocks).zip blocks ++ own) := by
  induction blocks generalizing h own with
  | nil => exact ledger
  | cons b blocks ih =>
    refine (ih (ledger.alloc b)).perm ?_
    exact List.perm_middle

theorem Ledger.free {p : Nat} {b : β} (ledger : Ledger base h ((p,b) :: own)) :
    ∃ h', h.free p = some h' ∧ Ledger base h' own := by
  obtain ⟨absent,nodup⟩ := List.nodup_cons.mp ledger.nodup
  have there := ledger.owned (p,b) (by simp)
  refine ⟨_,by rw [Heap.free,if_pos (by simp [there])],nodup,?_,?_,?_⟩
  · exact fun e member => ledger.absent e (by simp [member])
  · intro e member
    have apart : e.1 ≠ p := by
      intro at_
      exact absent (List.mem_map.mpr ⟨e,member,at_⟩)
    simpa [apart] using ledger.owned e (by simp [member])
  · intro q outside
    by_cases same : q = p
    · subst q
      simpa using (ledger.absent (p,b) (by simp)).symm
    · simpa [same] using ledger.others q (by simp [same,outside])

theorem Ledger.freeAll {ps : List Nat} {blocks : List β} (same : ps.length = blocks.length)
    (ledger : Ledger base h (ps.zip blocks ++ own)) :
    ∃ h', h.freeAll ps = some h' ∧ Ledger base h' own := by
  induction ps generalizing h blocks with
  | nil => exact ⟨h,rfl,by simpa using ledger⟩
  | cons p ps ih =>
    cases blocks with
    | nil => simp at same
    | cons b blocks =>
      have first : Ledger base h ((p,b) :: (ps.zip blocks ++ own)) := by simpa using ledger
      obtain ⟨h',freed,rest⟩ := first.free
      obtain ⟨h'',later,closed⟩ := ih (by simpa using same) rest
      exact ⟨h'',by simp [Heap.freeAll,freed,later],closed⟩

end Heap

end OcrSuite
