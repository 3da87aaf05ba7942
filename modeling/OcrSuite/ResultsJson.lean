import Mathlib.Data.List.Forall2
import OcrSuite.Binary64
import OcrSuite.Database
import OcrSuite.Json

/-! Results as JSON: what the command-line tool prints of an image and what the viewer of such results
loads. The numbers in a text are exact; `narrow` is the `float` that is nearest to one. -/
namespace OcrSuite.ResultsJson

open Rounding

/-! ## Printing -/

def truncateTo (value : ℚ) (places : Nat) : ℚ := ⌊value * 10 ^ places⌋ / 10 ^ places

def printEntry (e : TextEntry ℚ) : Json :=
  let position := Json.ofFields
    [("left",.integer e.left.toInt),("top",.integer e.top.toInt),("right",.integer e.right.toInt),
      ("bottom",.integer e.bottom.toInt)]
  .ofFields
    [("text",.string e.text),("position",position),("confidence",.float (truncateTo e.confidence 2))]

def printJson (imageFile : String) (res : OcrResult ℚ) : Json :=
  .ofFields [("file",.string imageFile),("entries",.array (res.entries.map printEntry))]

/-! ## Loading -/

/-- What `load_json` throws, and what the library throws for a value of another type. -/
inductive LoadError where
  | missingEntries
  | missing (name : String) (counter : Nat)
  | typeError
  deriving DecidableEq

/-- The message, apart from those of the library. -/
def LoadError.text : LoadError → Option String
  | .missingEntries => some "Invalid JSON file: missing \"entries\""
  | .missing name counter =>
    some ("Invalid JSON file: missing \"" ++ name ++ "\" at #" ++ toString counter)
  | .typeError => none

section Loading

variable (narrow : ℚ → ℚ)

/-- `get` of the library: text is text only, numbers and truth values are numbers. -/
def getString : Json → Except LoadError String
  | .string s => .ok s
  | _ => .error .typeError

def getFloat : Json → Except LoadError ℚ
  | .float x => .ok (narrow x)
  | .integer n => .ok (narrow n)
  | .bool b => .ok (narrow (if b then 1 else 0))
  | _ => .error .typeError

def getInt : Json → Except LoadError Int32
  | .integer n => .ok (.ofInt n)
  | .float x => .ok (.ofInt (trunc x))
  | .bool b => .ok (if b then 1 else 0)
  | _ => .error .typeError

def ensureField (js : Json) (name : String) (counter : Nat) : Except LoadError Json :=
  match js.field? name with
  | some value => .ok value
  | none => .error (.missing name counter)

/-- The confidence is optional. -/
def confidenceOf (entry : Json) : Except LoadError ℚ :=
  match entry.field? "confidence" with
  | some value => getFloat narrow value
  | none => .ok 100

/-- The body of the loop, after `counter` entries. -/
def loadEntry (entry : Json) (counter : Nat) : Except LoadError (TextEntry ℚ) := do
  let text ← getString (← ensureField entry "text" counter)
  let confidence ← confidenceOf narrow entry
  let pos ← ensureField entry "position" counter
  let left ← getInt (← ensureField pos "left" counter)
  let top ← getInt (← ensureField pos "top" counter)
  let right ← getInt (← ensureField pos "right" counter)
  let bottom ← getInt (← ensureField pos "bottom" counter)
  .ok ⟨left,top,right,bottom,confidence,text⟩

def loadEntries : List Json → List (TextEntry ℚ) → Except LoadError (List (TextEntry ℚ))
  | [], entries => .ok entries
  | entry :: rest, entries => do
    let te ← loadEntry narrow entry entries.length
    loadEntries rest (entries ++ [te])

def loadJson (data : Json) : Except LoadError (OcrResult ℚ) :=
  match data.field? "entries" with
  | none => .error .missingEntries
  | some entries => do
    let entries ← loadEntries narrow entries.items []
    .ok ⟨0,entries⟩

/-! ## What is an entry -/

/-- The value is an entry for the viewer. Without a confidence there is no doubt. -/
structure Describes (item : Json) (e : TextEntry ℚ) : Prop where
  text : item.field? "text" = some (.string e.text)
  confidence : confidenceOf narrow item = .ok e.confidence
  position : ∃ pos, item.field? "position" = some pos ∧
    (∃ value, pos.field? "left" = some value ∧ getInt value = .ok e.left) ∧
    (∃ value, pos.field? "top" = some value ∧ getInt value = .ok e.top) ∧
    (∃ value, pos.field? "right" = some value ∧ getInt value = .ok e.right) ∧
    ∃ value, pos.field? "bottom" = some value ∧ getInt value = .ok e.bottom

/-- The value lacks a field that an entry needs. -/
def Lacks (item : Json) (name : String) : Prop :=
  (item.field? name = none ∧ (name = "text" ∨ name = "position")) ∨
  ∃ pos, item.field? "position" = some pos ∧ pos.field? name = none ∧
    (name = "left" ∨ name = "top" ∨ name = "right" ∨ name = "bottom")

end Loading

section Bind

variable {α β ε : Type} {x : Except ε α} {f : α → Except ε β}

theorem bind_eq_ok {b : β} : x >>= f = .ok b ↔ ∃ a, x = .ok a ∧ f a = .ok b := by
  cases x <;> simp [bind,Except.bind]

theorem bind_eq_error {e : ε} : x >>= f = .error e ↔ x = .error e ∨ ∃ a, x = .ok a ∧ f a = .error e := by
  cases x <;> simp [bind,Except.bind]

end Bind

variable {narrow : ℚ → ℚ}

theorem ensureField_eq_ok {js value : Json} {name : String} {counter : Nat} :
    ensureField js name counter = .ok value ↔ js.field? name = some value := by
  unfold ensureField
  cases js.field? name <;> simp

theorem ensureField_eq_error {js : Json} {name : String} {counter : Nat} {error : LoadError} :
    ensureField js name counter = .error error ↔
      js.field? name = none ∧ error = .missing name counter := by
  unfold ensureField
  cases js.field? name <;> simp [eq_comm]

theorem getString_eq_ok {j : Json} {s : String} : getString j = .ok s ↔ j = .string s := by
  cases j <;> simp [getString]

theorem loadEntry_eq_ok {item : Json} {counter : Nat} {e : TextEntry ℚ} :
    loadEntry narrow item counter = .ok e ↔ Describes narrow item e := by
  simp only [loadEntry,bind_eq_ok,ensureField_eq_ok,getString_eq_ok]
  constructor
  · rintro ⟨_,named,text,rfl,_,confidence,pos,position,_,left,_,isLeft,_,top,_,isTop,_,right,_,isRight,
      _,bottom,_,isBottom,same⟩
    cases same
    exact ⟨named,confidence,pos,position,⟨_,left,isLeft⟩,⟨_,top,isTop⟩,⟨_,right,isRight⟩,_,bottom,isBottom⟩
  · rintro ⟨named,confidence,pos,position,⟨_,left,isLeft⟩,⟨_,top,isTop⟩,⟨_,right,isRight⟩,_,bottom,isBottom⟩
    exact ⟨_,named,_,rfl,_,confidence,pos,position,_,left,_,isLeft,_,top,_,isTop,_,right,_,isRight,
      _,bottom,_,isBottom,rfl⟩

/-- The accesses of the library fail for the type only. -/
theorem getString_ne {j : Json} {error : LoadError} (other : error ≠ .typeError) :
    getString j ≠ .error error := by
  cases j <;> simp [getString,Ne.symm other]

theorem getFloat_ne {j : Json} {error : LoadError} (other : error ≠ .typeError) :
    getFloat narrow j ≠ .error error := by
  cases j <;> simp [getFloat,Ne.symm other]

theorem getInt_ne {j : Json} {error : LoadError} (other : error ≠ .typeError) :
    getInt j ≠ .error error := by
  cases j <;> simp [getInt,Ne.symm other]

theorem confidenceOf_ne {item : Json} {error : LoadError} (other : error ≠ .typeError) :
    confidenceOf narrow item ≠ .error error := by
  unfold confidenceOf
  cases item.field? "confidence" with
  | none => simp
  | some value => exact getFloat_ne other

/-- An entry is missing something, or has it in another type. -/
theorem loadEntry_eq_error {item : Json} {counter : Nat} {error : LoadError}
    (failed : loadEntry narrow item counter = .error error) (other : error ≠ .typeError) :
    ∃ name, error = .missing name counter ∧ Lacks item name := by
  simp only [loadEntry,bind_eq_error,ensureField_eq_ok,ensureField_eq_error,getString_ne other,
    getInt_ne other,confidenceOf_ne other,false_or,and_false,exists_false,or_false,reduceCtorEq] at failed
  rcases failed with ⟨absent,rfl⟩ | ⟨_,_,_,_,_,_,⟨absent,rfl⟩ | ⟨pos,position,inner⟩⟩
  · exact ⟨_,rfl,.inl ⟨absent,.inl rfl⟩⟩
  · exact ⟨_,rfl,.inl ⟨absent,.inr rfl⟩⟩
  · rcases inner with ⟨absent,rfl⟩ | ⟨_,_,_,_,⟨absent,rfl⟩ | ⟨_,_,_,_,⟨absent,rfl⟩ | ⟨_,_,_,_,absent,rfl⟩⟩⟩
    · exact ⟨_,rfl,.inr ⟨pos,position,absent,.inl rfl⟩⟩
    · exact ⟨_,rfl,.inr ⟨pos,position,absent,.inr (.inl rfl)⟩⟩
    · exact ⟨_,rfl,.inr ⟨pos,position,absent,.inr (.inr (.inl rfl))⟩⟩
    · exact ⟨_,rfl,.inr ⟨pos,position,absent,.inr (.inr (.inr rfl))⟩⟩

theorem loadEntries_eq_ok {items : List Json} {before entries : List (TextEntry ℚ)} :
    loadEntries narrow items before = .ok entries ↔
      ∃ loaded, entries = before ++ loaded ∧ List.Forall₂ (Describes narrow) items loaded := by
  induction items generalizing before with
  | nil => simp [loadEntries,eq_comm]
  | cons item rest ih =>
    simp only [loadEntries,bind_eq_ok,loadEntry_eq_ok,ih]
    constructor
    · rintro ⟨e,here,loaded,rfl,later⟩
      exact ⟨e :: loaded,by simp,.cons here later⟩
    · rintro ⟨_,rfl,formed⟩
      cases formed with
      | cons here later => exact ⟨_,here,_,by simp,later⟩

theorem loadJson_eq_ok {data : Json} {r : OcrResult ℚ} : loadJson narrow data = .ok r ↔ r.frameNumber = 0 ∧
    ∃ entries, data.field? "entries" = some entries ∧ List.Forall₂ (Describes narrow) entries.items r.entries := by
  obtain ⟨frameNumber,entries⟩ := r
  unfold loadJson
  cases data.field? "entries" with
  | none => simp
  | some value =>
    simp only [bind_eq_ok,loadEntries_eq_ok,List.nil_append,exists_eq_left',Except.ok.injEq,
      OcrResult.mk.injEq,Option.some.injEq]
    constructor
    · rintro ⟨loaded,formed,rfl,rfl⟩
      exact ⟨rfl,formed⟩
    · rintro ⟨rfl,formed⟩
      exact ⟨_,formed,rfl,rfl⟩

/-- Whatever is missing is missing in the entry of that number, before which all were loaded. -/
theorem loadEntries_eq_error {items : List Json} {before : List (TextEntry ℚ)} {error : LoadError}
    (failed : loadEntries narrow items before = .error error) (other : error ≠ .typeError) :
    ∃ name front item back loaded, error = .missing name (before.length + front.length) ∧
      items = front ++ item :: back ∧ List.Forall₂ (Describes narrow) front loaded ∧ Lacks item name := by
  induction items generalizing before with
  | nil => simp [loadEntries] at failed
  | cons item rest ih =>
    rcases bind_eq_error.mp failed with here | ⟨e,here,later⟩
    · obtain ⟨name,rfl,lacks⟩ := loadEntry_eq_error here other
      exact ⟨name,[],item,rest,[],rfl,rfl,.nil,lacks⟩
    · obtain ⟨name,front,bad,back,loaded,rfl,rfl,formed,lacks⟩ := ih later
      refine ⟨name,item :: front,bad,back,e :: loaded,?_,rfl,.cons (loadEntry_eq_ok.mp here) formed,lacks⟩
      simp only [List.length_append,List.length_cons,List.length_nil,LoadError.missing.injEq,true_and]
      omega

/-! ## The way through a file -/

/-- What is left of an entry. -/
def truncated (narrow : ℚ → ℚ) (e : TextEntry ℚ) : TextEntry ℚ :=
  { e with confidence := narrow (truncateTo e.confidence 2) }

theorem truncateTo_le (value : ℚ) (places : Nat) :
    truncateTo value places ≤ value ∧ value < truncateTo value places + 1 / 10 ^ places := by
  have positive : (0 : ℚ) < 10 ^ places := by positivity
  have below := Int.floor_le (value * 10 ^ places)
  have above := Int.lt_floor_add_one (value * 10 ^ places)
  unfold truncateTo
  rw [← add_div,div_le_iff₀ positive,lt_div_iff₀ positive]
  exact ⟨below,above⟩

theorem truncateTo_mono {value other : ℚ} (le : value ≤ other) (places : Nat) :
    truncateTo value places ≤ truncateTo other places := by
  unfold truncateTo
  gcongr

theorem truncateTo_twice (value : ℚ) (places : Nat) :
    truncateTo (truncateTo value places) places = truncateTo value places := by
  have nonzero : (10 : ℚ) ^ places ≠ 0 := by positivity
  unfold truncateTo
  rw [div_mul_cancel₀ _ nonzero,Int.floor_intCast]

/-- Between the digits that are kept and the whole number the digits are the same. -/
theorem truncateTo_between {value other : ℚ} {places : Nat} (above : truncateTo value places ≤ other)
    (below : other ≤ value) : truncateTo other places = truncateTo value places := by
  apply le_antisymm
  · exact truncateTo_mono below places
  · calc
      truncateTo value places = truncateTo (truncateTo value places) places :=
        (truncateTo_twice value places).symm
      _ ≤ truncateTo other places := truncateTo_mono above places

/-- A confidence that is a `float` is never raised. -/
theorem narrow_truncateTo_le (monotone : Monotone narrow) {value : ℚ} (exact : narrow value = value)
    (places : Nat) : narrow (truncateTo value places) ≤ value := by
  calc
    narrow (truncateTo value places) ≤ narrow value := monotone (truncateTo_le value places).1
    _ = value := exact

theorem printEntry_describes (e : TextEntry ℚ) :
    Describes narrow (printEntry e) (truncated narrow e) := by
  have number (n : Int32) : getInt (.integer n.toInt) = .ok n := by simp [getInt]
  constructor
  · simp [printEntry,Json.field?_ofFields,Json.lookup,truncated]
  · simp [confidenceOf,printEntry,Json.field?_ofFields,Json.lookup,truncated,getFloat]
  · refine ⟨Json.ofFields [("left",.integer e.left.toInt),("top",.integer e.top.toInt),
      ("right",.integer e.right.toInt),("bottom",.integer e.bottom.toInt)],?_,?_⟩
    · simp [printEntry,Json.field?_ofFields,Json.lookup]
    · simp [Json.field?_ofFields,Json.lookup,number,truncated]

theorem loadJson_print (imageFile : String) (res : OcrResult ℚ) :
    loadJson narrow (printJson imageFile res) = .ok ⟨0,res.entries.map (truncated narrow)⟩ := by
  apply loadJson_eq_ok.mpr
  refine ⟨rfl,.array (res.entries.map printEntry),?_,?_⟩
  · simp [printJson,Json.field?_ofFields,Json.lookup]
  · rw [Json.items,List.forall₂_map_left_iff,List.forall₂_map_right_iff,List.forall₂_same]
    intro e _
    apply printEntry_describes

/-- The entries that were printed are loaded in their order, with the confidence cut behind the second digit
and never raised. Another way through a file changes nothing where no `float` is below the digits. -/
theorem loadJson_printJson (narrow : ℚ → ℚ) (monotone : Monotone narrow) (imageFile : String)
    (res : OcrResult ℚ) (floats : ∀ e ∈ res.entries, narrow e.confidence = e.confidence) :
    ∃ loaded, loadJson narrow (printJson imageFile res) = .ok loaded ∧
      List.Forall₂ (fun e l => l.left = e.left ∧ l.top = e.top ∧ l.right = e.right ∧
        l.bottom = e.bottom ∧ l.text = e.text ∧ l.confidence = narrow (truncateTo e.confidence 2) ∧
        l.confidence ≤ e.confidence ∧ e.confidence < truncateTo e.confidence 2 + 1 / 100)
          res.entries loaded.entries ∧
      ((∀ e ∈ res.entries, truncateTo e.confidence 2 ≤ narrow (truncateTo e.confidence 2)) →
        loadJson narrow (printJson imageFile loaded) = .ok loaded) := by
  have lowered (e : TextEntry ℚ) (present : e ∈ res.entries) :
      narrow (truncateTo e.confidence 2) ≤ e.confidence := narrow_truncateTo_le monotone (floats e present) 2
  refine ⟨_,loadJson_print imageFile res,?_,?_⟩
  · rw [List.forall₂_map_right_iff,List.forall₂_same]
    intro e present
    have above := (truncateTo_le e.confidence 2).2
    norm_num at above
    exact ⟨rfl,rfl,rfl,rfl,rfl,rfl,lowered e present,by norm_num; exact above⟩
  · intro upward
    rw [loadJson_print]
    simp only [List.map_map,Except.ok.injEq,OcrResult.mk.injEq,true_and]
    apply List.map_congr_left
    intro e present
    simp [truncated,truncateTo_between (upward e present) (lowered e present)]

/-- The nearest number with the 24 bits of a `float`, which for 0.56 is above it. -/
theorem loadJson_printJson_witness :
    let res : OcrResult ℚ := ⟨0,[⟨1,2,30,40,2305 / 4096,"word"⟩]⟩
    ∃ loaded, loadJson (toSignificand 23) (printJson "a.png" res) = .ok loaded ∧
      loadJson (toSignificand 23) (printJson "a.png" loaded) = .ok loaded := by
  intro res
  have floats : ∀ e ∈ res.entries, toSignificand 23 e.confidence = e.confidence := by decide +kernel
  have raised : ∀ e ∈ res.entries, truncateTo e.confidence 2 ≤ toSignificand 23 (truncateTo e.confidence 2) := by
    decide +kernel
  obtain ⟨loaded,first,_,again⟩ := loadJson_printJson _ (toSignificand_mono 23) "a.png" res floats
  exact ⟨loaded,first,again raised⟩

/-- Any document: it is loaded exactly if each of its entries is one, and what is then said to be missing
is missing in the entry of that number and in none before. -/
theorem loadJson_names_missing (narrow : ℚ → ℚ) (data : Json) :
    (∀ r, loadJson narrow data = .ok r ↔ r.frameNumber = 0 ∧ ∃ entries, data.field? "entries" = some entries ∧
      List.Forall₂ (Describes narrow) entries.items r.entries) ∧
    (loadJson narrow data = .error .missingEntries ↔ data.field? "entries" = none) ∧
    ∀ name k, loadJson narrow data = .error (.missing name k) →
      ∃ entries item loaded, data.field? "entries" = some entries ∧ entries.items[k]? = some item ∧
        Lacks item name ∧ List.Forall₂ (Describes narrow) (entries.items.take k) loaded := by
  refine ⟨fun r => loadJson_eq_ok,?_,fun name k failed => ?_⟩
  · unfold loadJson
    cases data.field? "entries" with
    | none => simp
    | some entries =>
      simp only [bind_eq_error,reduceCtorEq,and_false,exists_false,or_false,iff_false]
      intro failed
      obtain ⟨_,_,_,_,_,wrong,_⟩ := loadEntries_eq_error failed (by simp)
      simp at wrong
  · unfold loadJson at failed
    cases inside : data.field? "entries" with
    | none => simp [inside] at failed
    | some entries =>
      simp only [inside,bind_eq_error,reduceCtorEq,and_false,exists_false,or_false] at failed
      obtain ⟨_,front,item,back,loaded,same,parts,formed,lacks⟩ := loadEntries_eq_error failed (by simp)
      obtain ⟨rfl,rfl⟩ := LoadError.missing.inj same
      refine ⟨entries,item,loaded,rfl,?_,lacks,?_⟩
      · simp [parts]
      · simpa [parts] using formed

end OcrSuite.ResultsJson
