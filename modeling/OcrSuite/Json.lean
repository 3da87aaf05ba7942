import Mathlib.Data.Rat.Floor
import Mathlib.Data.String.Basic

/-! Values of JSON. The fields of an object are kept in the order of their names. -/
namespace OcrSuite

inductive Json where
  | null
  | bool (b : Bool)
  | integer (n : Int)
  | float (x : ℚ)
  | string (s : String)
  | array (items : List Json)
  | object (fields : List (String × Json))

namespace Json

def setField (name : String) (value : Json) : List (String × Json) → List (String × Json)
  | [] => [(name,value)]
  | (n,v) :: rest =>
    if name < n then (name,value) :: (n,v) :: rest
    else if name = n then (name,value) :: rest
    else (n,v) :: setField name value rest

/-- An object with these fields, of which a later one takes the place of an earlier one. -/
def ofFields (fields : List (String × Json)) : Json :=
  .object (fields.foldl (fun fields field => setField field.1 field.2 fields) [])

def lookup (name : String) : List (String × Json) → Option Json
  | [] => none
  | (n,v) :: rest => if name = n then some v else lookup name rest

/-- There are no fields in anything but an object. -/
def field? : Json → String → Option Json
  | .object fields, name => lookup name fields
  | _, _ => none

/-- What a loop over the value goes through. -/
def items : Json → List Json
  | .null => []
  | .array items => items
  | .object fields => fields.map Prod.snd
  | j => [j]

theorem lookup_setField (name other : String) (value : Json) (fields : List (String × Json)) :
    lookup other (setField name value fields) =
      if other = name then some value else lookup other fields := by
  induction fields with
  | nil => simp [setField,lookup]
  | cons field rest ih =>
    obtain ⟨n,v⟩ := field
    unfold setField
    split
    case isTrue => simp [lookup]
    case isFalse =>
      split
      case isTrue equal =>
        subst n
        by_cases same : other = name <;> simp [lookup,same]
      case isFalse apart =>
        by_cases here : other = n
        · subst n
          simp [lookup,Ne.symm apart]
        · simp [lookup,here,ih]

/-- The last field of a name counts. -/
theorem field?_ofFields (fields : List (String × Json)) (name : String) :
    (ofFields fields).field? name = lookup name fields.reverse := by
  suffices general : ∀ before, lookup name
      (fields.foldl (fun fields field => setField field.1 field.2 fields) before) =
        (lookup name fields.reverse).or (lookup name before) by
    simpa [ofFields,field?,lookup] using general []
  have lookup_append (front back : List (String × Json)) :
      lookup name (front ++ back) = (lookup name front).or (lookup name back) := by
    induction front with
    | nil => rfl
    | cons field front ih => by_cases same : name = field.1 <;> simp [lookup,same,ih]
  induction fields with
  | nil => simp [lookup]
  | cons field rest ih =>
    intro before
    rw [List.foldl_cons,ih,lookup_setField,List.reverse_cons,lookup_append]
    by_cases same : name = field.1 <;> cases lookup name rest.reverse <;> simp [lookup,same]

end Json

end OcrSuite
