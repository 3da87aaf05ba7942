import Mathlib.Data.Nat.Digits.Defs
import Mathlib.Tactic.Ring

/-! Files as lists of bytes: numbers that are stored lowest byte first, fields at fixed places, and
data in rows of one length. -/
namespace OcrSuite.ByteFormat

/-! ## Numbers -/

/-- The number that the bytes stand for, the lowest byte first. -/
def number (bytes : List UInt8) : Nat := Nat.ofDigits 256 (bytes.map UInt8.toNat)

/-- The number at a place of a file. -/
def field (file : List UInt8) (offset length : Nat) : Nat := number ((file.drop offset).take length)

/-- A number in two's complement. -/
def signed (width n : Nat) : Int := if 2 * n < 2 ^ width then n else (n : Int) - 2 ^ width

theorem signed_of_small {width n : Nat} (small : 2 * n < 2 ^ width) : signed width n = n := if_pos small

theorem number_four {n : Nat} (fits : n < 2 ^ 32) :
    number [.ofNat n,.ofNat (n >>> 8),.ofNat (n >>> 16),.ofNat (n >>> 24)] = n := by
  simp only [number,List.map_cons,List.map_nil,Nat.ofDigits_cons,Nat.ofDigits_nil,UInt8.toNat_ofNat',
    Nat.shiftRight_eq_div_pow]
  omega

/-! ## Rows -/

variable {α β : Type}

/-- Where all rows are of one length, each is found by its index. -/
theorem row_of_flatMap {rows : List α} {row : α → List β} {length : Nat}
    (even : ∀ x ∈ rows, (row x).length = length) {i : Nat} {x : α} (there : rows[i]? = some x) :
    ((rows.flatMap row).drop (i * length)).take length = row x := by
  induction rows generalizing i with
  | nil => simp at there
  | cons y rest ih =>
    have first := even y List.mem_cons_self
    cases i with
    | zero =>
      obtain rfl : y = x := by simpa using there
      rw [List.flatMap_cons,Nat.zero_mul,List.drop_zero,List.take_left' first]
    | succ i =>
      have later := ih (fun z member => even z (List.mem_cons_of_mem y member)) (by simpa using there)
      have place : (i + 1) * length = (row y).length + i * length := by rw [first]; ring
      rw [List.flatMap_cons,place,List.drop_length_add_append,later]

theorem length_flatMap_rows {rows : List α} {row : α → List β} {length : Nat}
    (even : ∀ x ∈ rows, (row x).length = length) : (rows.flatMap row).length = rows.length * length := by
  induction rows with
  | nil => simp
  | cons y rest ih =>
    rw [List.flatMap_cons,List.length_append,ih fun z member => even z (List.mem_cons_of_mem y member),
      even y List.mem_cons_self,List.length_cons]
    ring

/-- Data is made up of its rows. -/
theorem flatMap_rows {data : List β} {count length : Nat} (whole : data.length = count * length) :
    ((List.range count).flatMap fun i => (data.drop (i * length)).take length) = data := by
  induction count generalizing data with
  | zero => simpa [eq_comm] using whole
  | succ count ih =>
    have rest : (data.drop length).length = count * length := by
      rw [List.length_drop,whole,Nat.succ_mul,Nat.add_sub_cancel]
    have later := ih rest
    simp only [List.drop_drop] at later
    rw [List.range_succ_eq_map,List.flatMap_cons,List.flatMap_map]
    have places : (fun i => (data.drop (i.succ * length)).take length) =
        fun i => (data.drop (length + i * length)).take length := by
      funext i
      rw [Nat.succ_mul,Nat.add_comm]
    rw [places,later,Nat.zero_mul,List.drop_zero,List.take_append_drop]

end OcrSuite.ByteFormat
