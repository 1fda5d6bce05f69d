import Llte.Foundation.Ring

/-! Counters that wrap at `2^64`, and power-of-two rings addressed through a mask.
As long as two counters are less than `2^64` increments apart, their 64-bit
difference is the true one. -/
namespace Llte.Foundation

/-- A 64-bit counter that started at `origin` and was incremented `count` times. -/
def counted (origin : UInt64) (count : Nat) : UInt64 := origin + UInt64.ofNat count

theorem counted_zero (origin : UInt64) : counted origin 0 = origin := by
  simp [counted]

theorem counted_succ (origin : UInt64) (count : Nat) :
    counted origin (count+1) = counted origin count + 1 := by
  rw [counted,counted,UInt64.ofNat_add,UInt64.add_assoc]
  rfl

theorem counted_add (origin : UInt64) (count extra : Nat) :
    counted origin (count+extra) = counted origin count + UInt64.ofNat extra := by
  rw [counted,counted,UInt64.ofNat_add,UInt64.add_assoc]

theorem counted_toNat (origin : UInt64) (count : Nat) :
    (counted origin count).toNat = (origin.toNat+count) % 2^64 := by
  simp [counted]

theorem counted_sub {origin : UInt64} {low high : Nat} (ordered : low ≤ high)
    (near : high - low < 2^64) : (counted origin high - counted origin low).toNat = high - low := by
  have small := UInt64.toNat_lt (counted origin low)
  rw [UInt64.toNat_sub,counted_toNat] at *
  rw [counted_toNat]
  omega

/-- One more increment that does not wrap. -/
theorem succ_toNat {n : UInt64} (small : n.toNat+1 < 2^64) : (n+1).toNat = n.toNat+1 := by
  rw [UInt64.toNat_add]
  exact Nat.mod_eq_of_lt small

theorem succ_toNat_of_lt {n bound : UInt64} (below : n < bound) : (n+1).toNat = n.toNat+1 := by
  have limit := UInt64.toNat_lt bound
  rw [UInt64.lt_iff_toNat_lt] at below
  exact succ_toNat (by omega)

structure PowerOfTwo where
  exponent : Nat
  bound : exponent < 63

namespace PowerOfTwo

def capacity (p : PowerOfTwo) : Capacity where
  size := 2^p.exponent
  pos := Nat.two_pow_pos _
  bound := Nat.pow_lt_pow_right (by decide) p.bound

def mask (p : PowerOfTwo) : UInt64 := UInt64.ofNat p.capacity.size - 1

theorem mask_toNat (p : PowerOfTwo) : p.mask.toNat = 2^p.exponent - 1 := by
  have pos := p.capacity.pos
  have bound := p.capacity.bound
  have word : (UInt64.ofNat p.capacity.size).toNat = p.capacity.size := by
    rw [UInt64.toNat_ofNat']
    exact Nat.mod_eq_of_lt (by omega)
  have one : (1 : UInt64) ≤ UInt64.ofNat p.capacity.size := by
    rw [UInt64.le_iff_toNat_le,word]
    exact pos
  rw [mask,UInt64.toNat_sub_of_le _ _ one,word]
  rfl

theorem and_mask (p : PowerOfTwo) (x : UInt64) : (x &&& p.mask).toNat = x.toNat % p.capacity.size := by
  rw [UInt64.toNat_and,mask_toNat,Nat.and_two_pow_sub_one_eq_mod]
  rfl

/-- Wrapping at `2^64` does not disturb the residue. -/
theorem counted_mask (p : PowerOfTwo) (origin : UInt64) (count : Nat) :
    (counted origin count &&& p.mask).toNat = (origin.toNat+count) % p.capacity.size := by
  have divides : p.capacity.size ∣ 2^64 := Nat.pow_dvd_pow 2 (by have := p.bound; omega)
  rw [and_mask,counted_toNat,Nat.mod_mod_of_dvd _ divides]

end PowerOfTwo

theorem Ring.get_residue {α : Type} {cap : Capacity} (ring : Ring α cap) (position : Nat) :
    ring.get (position % cap.size) = ring.get position := by
  simp [get]

theorem Ring.put_residue {α : Type} {cap : Capacity} (ring : Ring α cap) (position : Nat) (value : α) :
    ring.put (position % cap.size) value = ring.put position value := by
  simp [put]

end Llte.Foundation
