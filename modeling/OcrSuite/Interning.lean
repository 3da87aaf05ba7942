import Mathlib.Data.List.Nodup

/-! Tables with ids from a counter, dictionaries of distinct values, and rows that refer to
a dictionary's values by their ids. -/
namespace OcrSuite.Interning

variable {α ρ : Type}

/-- Ids are drawn from a counter that never goes back. -/
structure Table (ρ : Type) where
  rows : List (Nat × ρ)
  sequence : Nat
  bounded : ∀ row ∈ rows, row.1 ≤ sequence
  distinct : (rows.map Prod.fst).Nodup
  deriving DecidableEq

def Table.empty : Table ρ := ⟨[],0,by simp,by simp⟩

def Table.insert (t : Table ρ) (value : ρ) : Table ρ where
  rows := t.rows ++ [(t.sequence + 1,value)]
  sequence := t.sequence + 1
  bounded row member := by
    rcases List.mem_append.mp member with old | new
    · exact Nat.le_succ_of_le (t.bounded row old)
    · simp [List.mem_singleton.mp new]
  distinct := by
    have fresh : t.sequence + 1 ∉ t.rows.map Prod.fst := by
      rintro old
      obtain ⟨row,member,same⟩ := List.mem_map.mp old
      have := t.bounded row member
      omega
    simpa using List.Nodup.append t.distinct (List.nodup_singleton _) (by simpa using fresh)

def Table.values (t : Table ρ) : List ρ := t.rows.map Prod.snd

@[simp] theorem Table.values_empty : (Table.empty : Table ρ).values = [] := rfl

@[simp] theorem Table.values_insert (t : Table ρ) (value : ρ) :
    (t.insert value).values = t.values ++ [value] := by
  simp [values,insert]

/-- A table in which every value occurs once. -/
structure Dictionary (α : Type) extends Table α where
  unique : (rows.map Prod.snd).Nodup
  deriving DecidableEq

namespace Dictionary

def empty : Dictionary α := ⟨Table.empty,by simp [Table.empty]⟩

variable [DecidableEq α]

/-- A value that is ignored has already drawn its id. -/
def insertOrIgnore (d : Dictionary α) (value : α) : Dictionary α :=
  if present : value ∈ d.values then
    { d with
      sequence := d.sequence + 1
      bounded := fun row member => Nat.le_succ_of_le (d.bounded row member) }
  else
    { d.toTable.insert value with
      unique := by
        have rest := List.Nodup.append d.unique (List.nodup_singleton value)
          (by simpa [Table.values] using present)
        simpa [Table.insert] using rest }

/-- The id of a value, looked up by the value. -/
def idOf (d : Dictionary α) (value : α) : Option Nat :=
  (d.rows.find? fun row => row.2 = value).map Prod.fst

omit [DecidableEq α] in
/-- The values that a row refers to by its key. -/
def resolve (d : Dictionary α) (key : Nat) : List α :=
  (d.rows.filter fun row => row.1 = key).map Prod.snd

omit [DecidableEq α] in
/-- Rows joined with the values their keys refer to. -/
def join (d : Dictionary α) (key : ρ → Nat) (rows : List ρ) : List (ρ × α) :=
  rows.flatMap fun row => (d.resolve (key row)).map (row,·)

theorem values_insertOrIgnore (d : Dictionary α) (value : α) :
    (d.insertOrIgnore value).values = if value ∈ d.values then d.values else d.values ++ [value] := by
  unfold insertOrIgnore
  split <;> simp [Table.values,Table.insert]

@[simp] theorem mem_values_insertOrIgnore (d : Dictionary α) (value other : α) :
    other ∈ (d.insertOrIgnore value).values ↔ other ∈ d.values ∨ other = value := by
  rw [values_insertOrIgnore]
  split
  · constructor
    · exact .inl
    · rintro (old | rfl)
      · exact old
      · assumption
  · simp

theorem rows_insertOrIgnore (d : Dictionary α) (value : α) :
    d.rows <+: (d.insertOrIgnore value).rows := by
  unfold insertOrIgnore
  split
  · exact List.prefix_rfl
  · exact List.prefix_append _ _

theorem idOf_eq_some_iff {d : Dictionary α} {value : α} {id : Nat} :
    d.idOf value = some id ↔ (id,value) ∈ d.rows := by
  constructor
  · intro found
    obtain ⟨⟨_,other⟩,first,rfl⟩ := Option.map_eq_some_iff.mp found
    obtain rfl : other = value := by simpa using List.find?_some first
    exact List.mem_of_find?_eq_some first
  · intro member
    unfold idOf
    cases first : d.rows.find? fun row => row.2 = value with
    | none => simpa using List.find?_eq_none.mp first _ member
    | some row =>
      have same : row = (id,value) := by
        apply List.inj_on_of_nodup_map d.unique (List.mem_of_find?_eq_some first) member
        simpa using List.find?_some first
      simp [same]

theorem exists_idOf {d : Dictionary α} {value : α} (present : value ∈ d.values) :
    ∃ id, d.idOf value = some id := by
  obtain ⟨⟨id,_⟩,member,rfl⟩ := List.mem_map.mp present
  exact ⟨id,idOf_eq_some_iff.mpr member⟩

omit [DecidableEq α] in
theorem resolve_of_mem {d : Dictionary α} {key : Nat} {value : α} (member : (key,value) ∈ d.rows) :
    d.resolve key = [value] := by
  have only : d.rows.filter (fun row => row.1 = key) = [(key,value)] := by
    apply List.perm_singleton.mp
    apply (List.perm_ext_iff_of_nodup ((d.distinct.of_map _).filter _) (List.nodup_singleton _)).mpr
    rintro row
    constructor
    · intro inside
      obtain ⟨there,same⟩ := List.mem_filter.mp inside
      exact List.mem_singleton.mpr
        (List.inj_on_of_nodup_map d.distinct there member (by simpa using same))
    · intro here
      obtain rfl := List.mem_singleton.mp here
      simp [member]
  simp [resolve,only]

/-- A key found for a value refers to it for as long as rows are only added. -/
theorem resolve_of_idOf {d d' : Dictionary α} {key : Nat} {value : α} (found : d.idOf value = some key)
    (grown : d.rows <+: d'.rows) : d'.resolve key = [value] :=
  resolve_of_mem (grown.subset (idOf_eq_some_iff.mp found))

omit [DecidableEq α] in
@[simp] theorem join_append (d : Dictionary α) (key : ρ → Nat) (front rest : List ρ) :
    d.join key (front ++ rest) = d.join key front ++ d.join key rest := by
  simp [join]

omit [DecidableEq α] in
theorem join_singleton {d : Dictionary α} {key : ρ → Nat} {row : ρ} {value : α}
    (resolved : d.resolve (key row) = [value]) : d.join key [row] = [(row,value)] := by
  simp [join,resolved]

omit [DecidableEq α] in
theorem filter_join (d : Dictionary α) (key : ρ → Nat) (rows : List ρ) (P : ρ → Bool) :
    (d.join key rows).filter (fun pair => P pair.1) = d.join key (rows.filter P) := by
  unfold join
  induction rows with
  | nil => rfl
  | cons row rest ih =>
    rw [List.flatMap_cons,List.filter_append,ih,List.filter_cons]
    by_cases inside : P row = true <;> simp [inside,List.filter_map,Function.comp_def]

omit [DecidableEq α] in
/-- Rows whose keys all refer to a value join with the same values in a grown dictionary. -/
theorem join_grown {d d' : Dictionary α} (grown : d.rows <+: d'.rows) {key : ρ → Nat}
    {rows : List ρ} (resolved : ∀ row ∈ rows, ∃ value, (key row,value) ∈ d.rows) :
    d'.join key rows = d.join key rows := by
  unfold join
  apply List.flatMap_congr
  intro row member
  obtain ⟨value,inside⟩ := resolved row member
  rw [resolve_of_mem inside,resolve_of_mem (grown.subset inside)]

end Dictionary

end OcrSuite.Interning
