import Mathlib.Data.List.Nodup
import Mathlib.Data.List.Perm.Subperm

/-! Tokens kept in lists at several places. `Exclusive` says that every token is at
exactly one place and there only once; moving one token to another place keeps it. -/
namespace OcrSuite.Ownership

variable {place token : Type} {contents contents' : place → List token} {tokens : List token}

structure Exclusive (contents : place → List token) (tokens : List token) : Prop where
  nodup : ∀ p, (contents p).Nodup
  unique : ∀ {p q b}, b ∈ contents p → b ∈ contents q → p = q
  covers : ∀ b, b ∈ tokens ↔ ∃ p, b ∈ contents p

theorem Exclusive.existsUnique (valid : Exclusive contents tokens) (member : b ∈ tokens) :
    ∃! p, b ∈ contents p := by
  obtain ⟨p,inside⟩ := (valid.covers b).mp member
  exact ⟨p,inside,fun q other => valid.unique other inside⟩

theorem Exclusive.length_le (valid : Exclusive contents tokens) (p : place) :
    (contents p).length ≤ tokens.length :=
  ((valid.nodup p).subperm fun b inside => (valid.covers b).mpr ⟨p,inside⟩).length_le

/-- A place that holds every token holds them as a permutation of all of them. -/
theorem Exclusive.perm_of_empty (valid : Exclusive contents tokens) (distinct : tokens.Nodup)
    (p : place) (elsewhere : ∀ q, q ≠ p → contents q = []) : (contents p).Perm tokens := by
  apply (List.perm_ext_iff_of_nodup (valid.nodup p) distinct).mpr
  intro b
  constructor
  · exact fun inside => (valid.covers b).mpr ⟨p,inside⟩
  · intro member
    obtain ⟨q,inside⟩ := (valid.covers b).mp member
    by_cases same : q = p
    · exact same ▸ inside
    · simp [elsewhere q same] at inside

theorem Exclusive.congr (valid : Exclusive contents tokens)
    (same : ∀ p, (contents' p).Perm (contents p)) : Exclusive contents' tokens where
  nodup p := (same p).nodup_iff.mpr (valid.nodup p)
  unique h h' := valid.unique ((same _).mem_iff.mp h) ((same _).mem_iff.mp h')
  covers b := (valid.covers b).trans (exists_congr fun p => ((same p).mem_iff).symm)

/-- One token leaves `source` for `target`; every other place keeps what it had. -/
theorem Exclusive.move (valid : Exclusive contents tokens) {source target : place} {b : token}
    (apart : source ≠ target) (taken : (contents source).Perm (b :: contents' source))
    (given : (contents' target).Perm (b :: contents target))
    (others : ∀ r, r ≠ source → r ≠ target → contents' r = contents r) :
    Exclusive contents' tokens := by
  have atSource : b ∈ contents source := taken.mem_iff.mpr List.mem_cons_self
  have atTarget : b ∈ contents' target := given.mem_iff.mpr List.mem_cons_self
  have left := List.nodup_cons.mp (taken.nodup_iff.mp (valid.nodup source))
  have absent : b ∉ contents target := fun inside => apart (valid.unique atSource inside)
  -- away from `b` nothing changes place
  have stay : ∀ c r, c ≠ b → (c ∈ contents' r ↔ c ∈ contents r) := by
    intro c r different
    by_cases isSource : r = source
    · subst r
      simp [taken.mem_iff,different]
    · by_cases isTarget : r = target
      · subst r
        simp [given.mem_iff,different]
      · rw [others r isSource isTarget]
  -- and `b` is at the target only
  have only : ∀ r, b ∈ contents' r ↔ r = target := by
    intro r
    constructor
    · intro inside
      by_cases isTarget : r = target
      · exact isTarget
      · by_cases isSource : r = source
        · subst r
          exact absurd inside left.1
        · rw [others r isSource isTarget] at inside
          exact absurd (valid.unique inside atSource) isSource
    · rintro rfl
      exact atTarget
  constructor
  · intro r
    by_cases isSource : r = source
    · subst r
      exact left.2
    · by_cases isTarget : r = target
      · subst r
        exact given.nodup_iff.mpr (List.nodup_cons.mpr ⟨absent,valid.nodup _⟩)
      · rw [others r isSource isTarget]
        exact valid.nodup r
  · intro p q c atP atQ
    by_cases same : c = b
    · subst c
      rw [(only p).mp atP,(only q).mp atQ]
    · exact valid.unique ((stay c p same).mp atP) ((stay c q same).mp atQ)
  · intro c
    by_cases same : c = b
    · subst c
      exact ⟨fun _ => ⟨target,atTarget⟩,fun _ => (valid.covers b).mpr ⟨source,atSource⟩⟩
    · exact (valid.covers c).trans (exists_congr fun r => (stay c r same).symm)

end OcrSuite.Ownership
