import Mathlib.Data.Nat.ModEq
import Mathlib.Data.Vector.Basic

/-! Fixed-size storage addressed by an ever growing position modulo its size.
Positions of one window of consecutive values never collide, so inside a window
a ring is a plain map from positions to cells. -/
namespace Llte.Foundation

/-- The number of elements of a container that exists: at least one, and no more
than a signed pointer difference can span. -/
structure Capacity where
  size : Nat
  pos : 0 < size
  bound : size < 2^63

structure Ring (α : Type) (cap : Capacity) where
  cells : Vector α cap.size
  deriving DecidableEq

namespace Ring
variable {α β : Type} {cap : Capacity}

def replicate (cap : Capacity) (value : α) : Ring α cap := ⟨Vector.replicate cap.size value⟩

def get (ring : Ring α cap) (position : Nat) : α :=
  have inside : position % cap.size < cap.size := Nat.mod_lt _ cap.pos
  ring.cells[position % cap.size]

def put (ring : Ring α cap) (position : Nat) (value : α) : Ring α cap :=
  ⟨ring.cells.set (position % cap.size) value (Nat.mod_lt _ cap.pos)⟩

def map (f : α → α) (ring : Ring α cap) : Ring α cap := ⟨ring.cells.map f⟩

@[simp] theorem get_replicate (value : α) (position : Nat) :
    (replicate cap value).get position = value := by
  simp [get,replicate]

@[simp] theorem get_map (f : α → α) (ring : Ring α cap) (position : Nat) :
    (ring.map f).get position = f (ring.get position) := by
  simp [get,map]

theorem get_put (ring : Ring α cap) (position : Nat) (value : α) (other : Nat) :
    (ring.put position value).get other =
      if position % cap.size = other % cap.size then value else ring.get other := by
  simp only [get,put,Vector.getElem_set]

@[simp] theorem get_put_self (ring : Ring α cap) (position : Nat) (value : α) :
    (ring.put position value).get position = value := by
  simp [get_put]

theorem residue_inj {size base first second : Nat} (firstLow : base ≤ first)
    (firstHigh : first < base+size) (secondLow : base ≤ second) (secondHigh : second < base+size)
    (same : first % size = second % size) : first = second := by
  have congruent : first ≡ second [MOD size] := same
  rcases Nat.le_total first second with ordered | ordered
  · have divides := (Nat.modEq_iff_dvd' ordered).mp congruent
    have zero := Nat.eq_zero_of_dvd_of_lt divides (by omega)
    omega
  · have divides := (Nat.modEq_iff_dvd' ordered).mp congruent.symm
    have zero := Nat.eq_zero_of_dvd_of_lt divides (by omega)
    omega

/-- Inside one window a write reaches exactly the position it names. -/
theorem get_put_window (ring : Ring α cap) (value : α) {base position other : Nat}
    (low : base ≤ position) (high : position < base+cap.size)
    (otherLow : base ≤ other) (otherHigh : other < base+cap.size) :
    (ring.put position value).get other = if other = position then value else ring.get other := by
  rw [get_put]
  by_cases same : other = position
  · simp [same]
  · have apart : position % cap.size ≠ other % cap.size := by
      intro equal
      exact same (residue_inj low high otherLow otherHigh equal).symm
    simp [same,apart]

end Ring
end Llte.Foundation
