import Mathlib.Data.Nat.ModEq
import Mathlib.Data.Vector.Basic

/-! Records of unsigned numbers as bytes, least significant byte first. A record is
the list of its fields, each with its width in bytes; what follows it in memory does
not matter when it is read back. -/
namespace Llte.Foundation

def numberBytes : Nat → Nat → List UInt8
  | 0,_ => []
  | width+1,value => UInt8.ofNat value::numberBytes width (value/256)

def number : List UInt8 → Nat
  | [] => 0
  | byte::rest => byte.toNat + 256*number rest

def recordBytes : List (Nat × Nat) → List UInt8
  | [] => []
  | (width,value)::rest => numberBytes width value ++ recordBytes rest

def readRecord : List Nat → List UInt8 → List Nat
  | [],_ => []
  | width::rest,bytes => number (bytes.take width)::readRecord rest (bytes.drop width)

theorem numberBytes_length (width value : Nat) : (numberBytes width value).length = width := by
  induction width generalizing value with
  | zero => rfl
  | succ width ih => rw [numberBytes,List.length_cons,ih]

theorem number_numberBytes {width value : Nat} (small : value < 256^width) :
    number (numberBytes width value) = value := by
  induction width generalizing value with
  | zero =>
    rw [Nat.pow_zero,Nat.lt_one_iff] at small
    rw [small,numberBytes,number]
  | succ width ih =>
    rw [Nat.pow_succ] at small
    rw [numberBytes,number,ih (Nat.div_lt_of_lt_mul (by omega)),UInt8.toNat_ofNat']
    exact Nat.mod_add_div value 256

theorem recordBytes_length (fields : List (Nat × Nat)) :
    (recordBytes fields).length = (fields.map Prod.fst).sum := by
  induction fields with
  | nil => rfl
  | cons field rest ih =>
    rw [recordBytes,List.length_append,numberBytes_length,ih,List.map_cons,List.sum_cons]

theorem readRecord_recordBytes {fields : List (Nat × Nat)} (small : ∀ field ∈ fields, field.2 < 256^field.1)
    (behind : List UInt8) : readRecord (fields.map Prod.fst) (recordBytes fields ++ behind) = fields.map Prod.snd := by
  induction fields with
  | nil => rfl
  | cons field rest ih =>
    obtain ⟨width,value⟩ := field
    obtain ⟨here,later⟩ := List.forall_mem_cons.mp small
    have length := numberBytes_length width value
    rw [List.map_cons,readRecord,recordBytes,List.append_assoc,List.take_left' length,List.drop_left' length,
      number_numberBytes here,ih later,List.map_cons]

/-- A record that follows a layout reads back. -/
theorem readRecord_zip {widths values : List Nat} (small : ∀ field ∈ widths.zip values, field.2 < 256^field.1)
    (same : widths.length = values.length) :
    readRecord widths (recordBytes (widths.zip values)) = values := by
  have read := readRecord_recordBytes small []
  rwa [List.append_nil,List.map_fst_zip (Nat.le_of_eq same),List.map_snd_zip (Nat.le_of_eq same.symm)] at read

theorem readRecord_append {widths : List Nat} {bytes : List UInt8} (fits : widths.sum ≤ bytes.length)
    (behind : List UInt8) : readRecord widths (bytes ++ behind) = readRecord widths bytes := by
  induction widths generalizing bytes with
  | nil => rfl
  | cons width rest ih =>
    rw [List.sum_cons] at fits
    have here : width ≤ bytes.length := by omega
    have later : rest.sum ≤ (bytes.drop width).length := by
      rw [List.length_drop]
      omega
    rw [readRecord,readRecord,List.take_append_of_le_length here,List.drop_append_of_le_length here,ih later]

end Llte.Foundation
