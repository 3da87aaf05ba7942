import Mathlib.Data.List.SplitBy
import Mathlib.Data.List.SplitLengths
import Mathlib.Data.List.Nodup

/-! Runs of neighbouring rows with the same key, and nodes for them that are built in one pass
over the rows: a row goes to the last node if its key is the node's number, else that node is
closed and a new one opened behind it. -/
namespace OcrSuite.Grouping

variable {ρ κ α : Type}

section Runs

variable [DecidableEq κ] (key : ρ → κ)

/-- Maximal runs of rows with one key. -/
def runs (rows : List ρ) : List (List ρ) := rows.splitBy fun a b => key a = key b

@[simp] theorem runs_nil : runs key [] = [] := rfl

@[simp] theorem flatten_runs (rows : List ρ) : (runs key rows).flatten = rows :=
  List.flatten_splitBy _ rows

variable {key}

theorem runs_ne_nil {rows run : List ρ} (member : run ∈ runs key rows) : run ≠ [] :=
  List.ne_nil_of_mem_splitBy member

/-- A list of nonempty lists with one key each, different for neighbours, is made of the runs. -/
theorem runs_eq_iff {rows : List ρ} {parts : List (List ρ)} :
    runs key rows = parts ↔ rows = parts.flatten ∧ [] ∉ parts ∧
      (∀ part ∈ parts, part.IsChain fun a b => key a = key b) ∧
      parts.IsChain fun a b => ∃ ha hb, key (a.getLast ha) ≠ key (b.head hb) := by
  simp [runs,List.splitBy_eq_iff]

theorem runs_of_isChain {rows : List ρ} (nonempty : rows ≠ [])
    (same : rows.IsChain fun a b => key a = key b) : runs key rows = [rows] :=
  List.splitBy_of_isChain nonempty (by simpa using same)

theorem runs_append {front back : List ρ}
    (apart : ∀ a ∈ front.getLast?, ∀ b ∈ back.head?, key a ≠ key b) :
    runs key (front ++ back) = runs key front ++ runs key back :=
  List.splitBy_append (by simpa using apart)

/-- A row with the key of the last one lengthens the last run. -/
theorem runs_concat_same {rows run : List ρ} {before : List (List ρ)} {row last : ρ}
    (there : runs key rows = before ++ [run]) (ends : run.getLast? = some last)
    (same : key last = key row) : runs key (rows ++ [row]) = before ++ [run ++ [row]] := by
  obtain ⟨flat,nonempty,chains,apart⟩ := runs_eq_iff.mp there
  refine runs_eq_iff.mpr ⟨by simp [flat],fun empty => nonempty (by simpa using Or.inl empty),?_,?_⟩
  · intro part member
    rcases List.mem_append.mp member with earlier | new
    · exact chains part (List.mem_append_left _ earlier)
    · obtain rfl := List.mem_singleton.mp new
      refine List.isChain_append.mpr ⟨chains run (by simp),.singleton row,?_⟩
      simpa [ends] using same
  · rw [List.isChain_append] at apart ⊢
    refine ⟨apart.1,.singleton _,?_⟩
    intro a before b here
    obtain rfl : run ++ [row] = b := by simpa using here
    obtain ⟨ha,hb,differs⟩ := apart.2.2 a before run (by simp)
    exact ⟨ha,by simp,by rwa [List.head_append_of_ne_nil hb]⟩

/-- A row with another key than the last one starts a run. -/
theorem runs_concat_new {rows : List ρ} {row : ρ} (other : ∀ last ∈ rows.getLast?, key last ≠ key row) :
    runs key (rows ++ [row]) = runs key rows ++ [[row]] := by
  rw [runs_append (by simpa using other),runs_of_isChain (by simp) (.singleton row)]

theorem isChain_of_mem_runs {rows run : List ρ} (member : run ∈ runs key rows) :
    run.IsChain fun a b => key a = key b :=
  (runs_eq_iff.mp rfl).2.2.1 run member

theorem infix_of_mem_runs {rows run : List ρ} (member : run ∈ runs key rows) : run <:+: rows := by
  rw [← flatten_runs key rows]
  exact List.infix_of_mem_flatten member

omit [DecidableEq κ] in
theorem key_eq_of_isChain {rows : List ρ} (same : rows.IsChain fun a b => key a = key b)
    {a b : ρ} (first : a ∈ rows) (second : b ∈ rows) : key a = key b := by
  have trans : IsTrans ρ fun a b => key a = key b := ⟨fun _ _ _ => Eq.trans⟩
  have all : rows.Pairwise fun a b => key a = key b := List.isChain_iff_pairwise.mp same
  exact List.Pairwise.forall_of_forall_of_flip (R := fun a b => key a = key b) (fun _ _ => rfl) all
    (all.imp fun same => same.symm) first second

/-- The runs of the runs are the runs by both keys. -/
theorem flatMap_runs {κ' : Type} [DecidableEq κ'] (key : ρ → κ) (key' : ρ → κ') (rows : List ρ) :
    (runs key rows).flatMap (runs key') = runs (fun row => (key row,key' row)) rows := by
  obtain ⟨flat,nonempty,chains,apart⟩ := runs_eq_iff.mp (rfl : runs key rows = _)
  generalize runs key rows = parts at flat nonempty chains apart
  subst flat
  induction parts with
  | nil => rfl
  | cons part rest ih =>
    rw [List.flatMap_cons,List.flatten_cons,runs_append]
    · congr 1
      · obtain ⟨flat,nonempty',chains',apart'⟩ := runs_eq_iff.mp (rfl : runs key' part = _)
        refine (runs_eq_iff.mpr ⟨flat,nonempty',fun run member => ?_,?_⟩).symm
        · obtain ⟨front,back,whole⟩ := infix_of_mem_runs member
          have chain := chains part List.mem_cons_self
          rw [← whole] at chain
          refine List.isChain_iff_getElem.mpr fun i bound => Prod.ext ?_ ?_
          · exact List.isChain_iff_getElem.mp chain.left_of_append.right_of_append i bound
          · exact List.isChain_iff_getElem.mp (chains' run member) i bound
        · apply apart'.imp
          rintro a b ⟨ha,hb,differs⟩
          exact ⟨ha,hb,fun same => differs (congrArg Prod.snd same)⟩
      · exact ih (fun empty => nonempty (List.mem_cons_of_mem _ empty))
          (fun run member => chains run (List.mem_cons_of_mem _ member)) apart.tail
    · intro a ends b starts same
      cases rest with
      | nil => simp at starts
      | cons next rest =>
        obtain ⟨ha,hb,differs⟩ := (List.isChain_cons_cons.mp apart).1
        apply differs
        rw [List.getLast_of_mem_getLast? ends]
        have : next.head hb = b := by
          cases next with
          | nil => exact absurd rfl hb
          | cons => simpa using starts
        rw [this]
        exact congrArg Prod.fst same

/-- A class whose rows stand together, and which meets no other class with its key, is a run. -/
theorem class_is_run {π : Type} [DecidableEq π] {pair : ρ → π} {rows : List ρ}
    (refines : ∀ a ∈ rows, ∀ b ∈ rows, pair a = pair b → key a = key b)
    (apart : rows.IsChain fun a b => key a = key b → pair a = pair b) {row : ρ} (member : row ∈ rows)
    (together : (rows.filter fun other => pair other = pair row) <:+: rows) :
    ∃ front back, (∀ other ∈ front ++ back, pair other ≠ pair row) ∧ runs key rows =
      runs key front ++ [rows.filter fun other => pair other = pair row] ++ runs key back := by
  obtain ⟨front,back,parts⟩ := together
  generalize whole : (rows.filter fun other => pair other = pair row) = same at parts
  have inside {other : ρ} (there : other ∈ same) : other ∈ rows ∧ pair other = pair row := by
    simpa [← whole] using there
  have outside : ∀ other ∈ front ++ back, pair other ≠ pair row := by
    have count := congrArg List.length (congrArg (List.filter fun other => pair other = pair row) parts)
    have all : same.filter (fun other => pair other = pair row) = same :=
      List.filter_eq_self.mpr fun other there => by simpa using (inside there).2
    rw [List.filter_append,List.filter_append,all,whole] at count
    intro other there equal
    have some : other ∈ front.filter (fun other => pair other = pair row) ∨
        other ∈ back.filter (fun other => pair other = pair row) := by
      simpa [equal] using there
    rcases some with early | late
    · have := List.length_pos_of_mem early
      simp only [List.length_append] at count
      omega
    · have := List.length_pos_of_mem late
      simp only [List.length_append] at count
      omega
  have nonempty : same ≠ [] := by
    rw [← whole]
    exact List.ne_nil_of_mem (List.mem_filter.mpr ⟨member,by simp⟩)
  have keys : ∀ a ∈ same, ∀ b ∈ same, key a = key b := fun a first b second =>
    refines a (inside first).1 b (inside second).1 ((inside first).2.trans (inside second).2.symm)
  have single : runs key same = [same] := by
    refine runs_of_isChain nonempty (List.isChain_iff_getElem.mpr fun i bound => ?_)
    exact keys _ (List.getElem_mem _) _ (List.getElem_mem _)
  rw [← parts,List.isChain_append,List.isChain_append] at apart
  refine ⟨front,back,outside,?_⟩
  rw [← parts,runs_append,runs_append,single]
  · intro a ends b starts equal
    exact outside a (List.mem_append_left _ (List.mem_of_mem_getLast? ends))
      ((apart.1.2.2 a ends b starts equal).trans (inside (List.mem_of_mem_head? starts)).2)
  · intro a ends b starts equal
    have last : a ∈ same.getLast? := by rwa [List.getLast?_append_of_ne_nil _ nonempty] at ends
    exact outside b (List.mem_append_right _ (List.mem_of_mem_head? starts))
      ((apart.2.2 a ends b starts equal).symm.trans (inside (List.mem_of_mem_getLast? last)).2)

/-- Every run holds all rows of some class, if the classes refine the keys, exactly if no two
classes meet in a run and the rows of each class stand together. -/
theorem runs_are_classes_iff {π : Type} [DecidableEq π] (pair : ρ → π) (rows : List ρ)
    (refines : ∀ a ∈ rows, ∀ b ∈ rows, pair a = pair b → key a = key b) :
    (∀ run ∈ runs key rows, ∃ p, run = rows.filter fun row => pair row = p) ↔
      (rows.IsChain fun a b => key a = key b → pair a = pair b) ∧
      ∀ row ∈ rows, (rows.filter fun other => pair other = pair row) <:+: rows := by
  constructor
  · intro classes
    constructor
    · rw [← flatten_runs key rows,List.isChain_flatten fun empty => runs_ne_nil empty rfl]
      constructor
      · intro run member
        obtain ⟨p,rfl⟩ := classes run member
        refine List.isChain_iff_getElem.mpr fun i bound _ => ?_
        have first := List.getElem_mem (l := rows.filter fun row => pair row = p) (Nat.lt_of_succ_lt bound)
        have second := List.getElem_mem (l := rows.filter fun row => pair row = p) bound
        simp only [List.mem_filter,decide_eq_true_eq] at first second
        exact first.2.trans second.2.symm
      · apply (runs_eq_iff.mp rfl).2.2.2.imp
        rintro front back ⟨ha,hb,differs⟩ a ends b starts same
        rw [List.getLast_of_mem_getLast? ends,List.head_of_mem_head? starts] at differs
        exact absurd same differs
    · intro row member
      obtain ⟨run,inside,here⟩ := List.mem_flatten.mp ((flatten_runs key rows).symm ▸ member)
      obtain ⟨p,class_⟩ := classes run inside
      have same : pair row = p := by
        rw [class_] at here
        simpa using (List.mem_filter.mp here).2
      rw [same,← class_]
      exact infix_of_mem_runs inside
  · rintro ⟨apart,together⟩ run member
    obtain ⟨row,here⟩ := List.exists_mem_of_ne_nil run (runs_ne_nil member)
    have there := (infix_of_mem_runs member).subset here
    obtain ⟨front,back,outside,parts⟩ := class_is_run refines apart there (together row there)
    rw [parts] at member
    refine ⟨pair row,?_⟩
    rcases List.mem_append.mp member with early | late
    · rcases List.mem_append.mp early with before | exact_
      · have := (infix_of_mem_runs before).subset here
        exact absurd rfl (outside row (List.mem_append_left _ this))
      · exact List.mem_singleton.mp exact_
    · have := (infix_of_mem_runs late).subset here
      exact absurd rfl (outside row (List.mem_append_right _ this))

/-- Runs that are classes are of different classes. -/
theorem classes_nodup {π : Type} [DecidableEq π] {pair : ρ → π} {rows : List ρ}
    (refines : ∀ a ∈ rows, ∀ b ∈ rows, pair a = pair b → key a = key b)
    (apart : rows.IsChain fun a b => key a = key b → pair a = pair b)
    (together : ∀ row ∈ rows, (rows.filter fun other => pair other = pair row) <:+: rows) :
    ((runs key rows).filterMap fun run => run.head?.map pair).Nodup := by
  refine List.nodup_iff_count_le_one.mpr fun p => ?_
  by_cases member : p ∈ (runs key rows).filterMap fun run => run.head?.map pair
  · obtain ⟨run,inside,head⟩ := List.mem_filterMap.mp member
    obtain ⟨row,first,rfl⟩ := Option.map_eq_some_iff.mp head
    have there := (infix_of_mem_runs inside).subset (List.mem_of_mem_head? first)
    obtain ⟨front,back,outside,parts⟩ := class_is_run refines apart there (together row there)
    have none {part : List ρ} (other : ∀ r ∈ part, pair r ≠ pair row) :
        ((runs key part).filterMap fun run => run.head?.map pair).count (pair row) = 0 := by
      refine List.count_eq_zero.mpr fun again => ?_
      obtain ⟨run,inside,head⟩ := List.mem_filterMap.mp again
      obtain ⟨r,first,same⟩ := Option.map_eq_some_iff.mp head
      exact other r ((infix_of_mem_runs inside).subset (List.mem_of_mem_head? first)) same
    rw [parts,List.filterMap_append,List.filterMap_append,List.count_append,List.count_append,
      none fun r here => outside r (List.mem_append_left _ here),
      none fun r here => outside r (List.mem_append_right _ here)]
    have := List.count_le_length (a := pair row) (l := List.filterMap (fun run => run.head?.map pair)
      [rows.filter fun other => pair other = pair row])
    have := List.length_filterMap_le (fun run => run.head?.map pair)
      [rows.filter fun other => pair other = pair row]
    simp only [List.length_singleton] at this
    omega
  · rw [List.count_eq_zero.mpr member]
    omega

/-- Cutting a list at the lengths of its parts gives back the parts. -/
theorem splitLengths_flatten (parts : List (List ρ)) :
    (parts.map List.length).splitLengths parts.flatten = parts := by
  induction parts with
  | nil => rfl
  | cons part rest ih => simp [ih]

end Runs

/-! ## Nodes for the runs -/

theorem map_mapIdx {β γ : Type} {xs : List α} {f : Nat → α → β} {g : β → γ} {h : α → γ}
    (same : ∀ i, ∀ x ∈ xs, g (f i x) = h x) : (xs.mapIdx f).map g = xs.map h := by
  induction xs generalizing f with
  | nil => rfl
  | cons x xs ih =>
    rw [List.mapIdx_cons,List.map_cons,List.map_cons,same 0 x List.mem_cons_self,
      ih fun i y member => same (i + 1) y (List.mem_cons_of_mem x member)]

theorem flatMap_mapIdx {β γ : Type} {xs : List α} {f : Nat → α → β} {g : β → List γ}
    {h : α → List γ} (same : ∀ i, ∀ x ∈ xs, g (f i x) = h x) :
    (xs.mapIdx f).flatMap g = xs.flatMap h := by
  rw [List.flatMap_def,map_mapIdx same,List.flatMap_def]

theorem forall_mem_zip {β γ : Type} {xs : List α} {ys : List β} {f : α → γ} {g : β → γ}
    (same : xs.map f = ys.map g) (P : γ → β → Prop) :
    (∀ entry ∈ xs.zip ys, P (f entry.1) entry.2) ↔ ∀ y ∈ ys, P (g y) y := by
  induction xs generalizing ys with
  | nil =>
    cases ys with
    | nil => simp
    | cons => simp at same
  | cons x xs ih =>
    cases ys with
    | nil => simp at same
    | cons y ys =>
      obtain ⟨first,rest⟩ := List.cons.inj same
      simp [first,← ih rest]

/-- One level of nodes. `new` opens an empty node at a position, for its first row. -/
structure Level (ρ κ α : Type) where
  key : ρ → κ
  number : α → κ
  new : Nat → ρ → α
  add : α → ρ → α
  close : α → α
  number_new : ∀ i row, number (new i row) = key row
  number_add : ∀ x row, number (add x row) = number x

namespace Level

variable [DecidableEq κ] (level : Level ρ κ α)

def continueLast (nodes : List α) (row : ρ) : List α :=
  match nodes.getLast? with
  | some last =>
    if level.number last = level.key row then nodes.dropLast ++ [level.add last row]
    else nodes.dropLast ++ [level.close last,level.add (level.new nodes.length row) row]
  | none => [level.add (level.new 0 row) row]

def closeLast (nodes : List α) : List α :=
  match nodes.getLast? with
  | some last => nodes.dropLast ++ [level.close last]
  | none => []

/-- The pass over all rows, from no nodes on. -/
def nodes (rows : List ρ) : List α := level.closeLast (rows.foldl level.continueLast [])

/-- The node of a run, before it is closed. -/
def build [Inhabited α] (i : Nat) : List ρ → α
  | [] => default
  | first :: rest => (first :: rest).foldl level.add (level.new i first)

omit [DecidableEq κ] in
/-- What no further row changes is as in the new node. -/
theorem foldl_add {β : Type} (field : α → β) (kept : ∀ x row, field (level.add x row) = field x) (x : α)
    (rows : List ρ) : field (rows.foldl level.add x) = field x := by
  induction rows generalizing x with
  | nil => rfl
  | cons row rest ih => rw [List.foldl_cons,ih,kept]

theorem continueLast_concat (nodes : List α) (last : α) (row : ρ) :
    level.continueLast (nodes ++ [last]) row =
      if level.number last = level.key row then nodes ++ [level.add last row]
      else nodes ++ [level.close last] ++ [level.add (level.new (nodes.length + 1) row) row] := by
  simp [continueLast]

omit [DecidableEq κ] in
theorem closeLast_concat (nodes : List α) (last : α) :
    level.closeLast (nodes ++ [last]) = nodes ++ [level.close last] := by
  simp [closeLast]

variable [Inhabited α]

omit [DecidableEq κ] in
theorem build_concat {i : Nat} {run : List ρ} (nonempty : run ≠ []) (row : ρ) :
    level.build i (run ++ [row]) = level.add (level.build i run) row := by
  cases run with
  | nil => contradiction
  | cons first rest => simp [build]

omit [DecidableEq κ] in
theorem number_build {i : Nat} {run : List ρ} {row : ρ} (member : row ∈ run)
    (same : run.IsChain fun a b => level.key a = level.key b) :
    level.number (level.build i run) = level.key row := by
  cases run with
  | nil => contradiction
  | cons first rest =>
    rw [build,level.foldl_add level.number level.number_add,level.number_new]
    exact key_eq_of_isChain same List.mem_cons_self member

/-- Before the pass is over, the node of the last run is still open. -/
theorem foldl_continueLast {rows run : List ρ} {before : List (List ρ)}
    (parts : runs level.key rows = before ++ [run]) : rows.foldl level.continueLast [] =
      (before.mapIdx fun i part => level.close (level.build i part)) ++
        [level.build before.length run] := by
  induction rows using List.reverseRecOn generalizing before run with
  | nil => simp at parts
  | append_singleton rows row ih =>
    rw [List.foldl_append,List.foldl_cons,List.foldl_nil]
    rcases List.eq_nil_or_concat (runs level.key rows) with empty | ⟨front,open_,there⟩
    · obtain rfl : rows = [] := by rw [← flatten_runs level.key rows,empty]; rfl
      rw [List.nil_append,runs_of_isChain (by simp) (.singleton row)] at parts
      have single : [] ++ [[row]] = before ++ [run] := parts
      obtain ⟨rfl,last⟩ := List.append_inj' single rfl
      obtain rfl := List.singleton_inj.mp last
      rfl
    · rw [List.concat_eq_append] at there
      have member : open_ ∈ runs level.key rows := by simp [there]
      have nonempty := runs_ne_nil member
      obtain ⟨last,ends⟩ : ∃ last, open_.getLast? = some last :=
        ⟨_,List.getLast?_eq_getLast_of_ne_nil nonempty⟩
      have inside := List.mem_of_mem_getLast? ends
      have ending : rows.getLast? = some last := by
        rw [← flatten_runs level.key rows,there]
        simpa [List.getLast?_append_of_ne_nil _ nonempty] using ends
      rw [ih there,continueLast_concat,level.number_build inside (isChain_of_mem_runs member)]
      split
      case isTrue same =>
        rw [runs_concat_same there ends same] at parts
        obtain ⟨rfl,longer⟩ := List.append_inj' parts rfl
        obtain rfl := List.singleton_inj.mp longer
        rw [build_concat _ nonempty]
      case isFalse other =>
        rw [runs_concat_new (by simpa [ending] using other),there] at parts
        obtain ⟨rfl,new⟩ := List.append_inj' parts rfl
        obtain rfl := List.singleton_inj.mp new
        simp [List.mapIdx_append,build]

/-- The pass makes a node of each run. -/
theorem nodes_eq (rows : List ρ) : level.nodes rows =
    (runs level.key rows).mapIdx fun i run => level.close (level.build i run) := by
  rcases List.eq_nil_or_concat (runs level.key rows) with empty | ⟨before,run,parts⟩
  · obtain rfl : rows = [] := by rw [← flatten_runs level.key rows,empty]; rfl
    rfl
  · rw [List.concat_eq_append] at parts
    rw [nodes,level.foldl_continueLast parts,parts]
    simp [closeLast,List.mapIdx_append]

/-- Neighbouring nodes have different numbers. -/
theorem nodes_isChain (closes : ∀ x, level.number (level.close x) = level.number x) (rows : List ρ) :
    ((level.nodes rows).map level.number).IsChain (· ≠ ·) := by
  obtain ⟨_,_,chains,apart⟩ := runs_eq_iff.mp (rfl : runs level.key rows = _)
  rw [nodes_eq]
  refine List.isChain_iff_getElem.mpr fun i bound => ?_
  simp only [List.length_map,List.length_mapIdx] at bound
  obtain ⟨ha,hb,differs⟩ := List.isChain_iff_getElem.mp apart i bound
  have number {k : Nat} {run : List ρ} {row : ρ} (there : (runs level.key rows)[k]? = some run)
      (member : row ∈ run) : level.number (level.close (level.build k run)) = level.key row := by
    rw [closes,level.number_build member (chains run (List.mem_of_getElem? there))]
  simp only [List.getElem_map,List.getElem_mapIdx]
  rw [number (List.getElem?_eq_getElem _) (List.getLast_mem ha),
    number (List.getElem?_eq_getElem _) (List.head_mem hb)]
  exact differs

theorem nodes_ne_nil {rows : List ρ} (nonempty : rows ≠ []) : level.nodes rows ≠ [] := by
  rw [nodes_eq]
  intro empty
  have none : runs level.key rows = [] := by simpa using empty
  exact nonempty (by rw [← flatten_runs level.key rows,none]; rfl)

theorem getElem?_nodes {rows : List ρ} {i : Nat} {x : α} (there : (level.nodes rows)[i]? = some x) :
    ∃ run, run ≠ [] ∧ x = level.close (level.build i run) := by
  rw [nodes_eq,List.getElem?_mapIdx] at there
  obtain ⟨run,at_,rfl⟩ := Option.map_eq_some_iff.mp there
  exact ⟨run,runs_ne_nil (List.mem_of_getElem? at_),rfl⟩

omit [DecidableEq κ] in
theorem field_build {β : Type} (field : α → β)
    (kept : ∀ x row, field (level.add x row) = field x) (i : Nat) {run : List ρ} (nonempty : run ≠ []) :
    ∃ first, field (level.build i run) = field (level.new i first) := by
  cases run with
  | nil => contradiction
  | cons first rest => exact ⟨first,level.foldl_add field kept _ _⟩

end Level

section Children

variable {κ' β γ : Type} [DecidableEq κ] [DecidableEq κ'] [Inhabited α] (parent : Level ρ κ α)
  (child : Level ρ κ' β) (children : α → List β)
  (opens : ∀ i row, children (parent.new i row) = [])
  (adds : ∀ x row, children (parent.add x row) = child.continueLast (children x) row)
  (closes : ∀ x, children (parent.close x) = child.closeLast (children x))

include opens adds closes

omit [DecidableEq κ] in
/-- The children of a node are the nodes of its run. -/
theorem children_build (i : Nat) {run : List ρ} (nonempty : run ≠ []) :
    children (parent.close (parent.build i run)) = child.nodes run := by
  have pass (x : α) (rows : List ρ) : children (rows.foldl parent.add x) =
      rows.foldl child.continueLast (children x) := by
    induction rows generalizing x with
    | nil => rfl
    | cons row rest ih => rw [List.foldl_cons,ih,adds,List.foldl_cons]
  cases run with
  | nil => contradiction
  | cons first rest => rw [closes,Level.build,pass,opens,Level.nodes]

/-- What is below the nodes of a level is below the nodes of its runs. -/
theorem flatMap_children (below : List β → List γ) (rows : List ρ) :
    (parent.nodes rows).flatMap (fun x => below (children x)) =
      (runs parent.key rows).flatMap fun run => below (child.nodes run) := by
  rw [Level.nodes_eq]
  refine flatMap_mapIdx fun i run member => ?_
  rw [children_build parent child children opens adds closes i (runs_ne_nil member)]

end Children

end OcrSuite.Grouping
