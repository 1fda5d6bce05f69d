import Mathlib.Algebra.Order.Floor.Ring
import Mathlib.Data.Rat.Floor
import Mathlib.Tactic.Linarith

/-! Rounding to the nearest integer. The two usual rules differ on ties only: adding one
half and cutting off goes up, rounding half to even stays where the integer below is
even. -/
namespace Llte.Foundation

variable {K : Type} [Field K] [LinearOrder K] [FloorRing K] {x : K}

def halfEven (x : K) : ℤ :=
  if Int.fract x < 1/2 then ⌊x⌋
  else if 1/2 < Int.fract x then ⌊x⌋+1
  else if ⌊x⌋ % 2 = 0 then ⌊x⌋ else ⌊x⌋+1

/-- Halfway between an even integer and the next one. -/
def EvenTie (x : K) : Prop := Int.fract x = 1/2 ∧ ⌊x⌋ % 2 = 0

theorem EvenTie.halfEven (tie : EvenTie x) : halfEven x = ⌊x⌋ := by
  rw [Foundation.halfEven,tie.1,if_neg (lt_irrefl _),if_neg (lt_irrefl _),if_pos tie.2]

variable [IsStrictOrderedRing K]

private theorem floor_add_half_low (low : Int.fract x < 1/2) : ⌊x + 1/2⌋ = ⌊x⌋ := by
  have whole := Int.floor_add_fract x
  have least := Int.fract_nonneg x
  rw [Int.floor_eq_iff]
  constructor <;> linarith

private theorem floor_add_half_high (high : 1/2 ≤ Int.fract x) : ⌊x + 1/2⌋ = ⌊x⌋+1 := by
  have whole := Int.floor_add_fract x
  have most := Int.fract_lt_one x
  rw [Int.floor_eq_iff]
  push_cast
  constructor <;> linarith

theorem EvenTie.floor_add_half (tie : EvenTie x) : ⌊x + 1/2⌋ = ⌊x⌋+1 := floor_add_half_high (le_of_eq tie.1.symm)

/-- Elsewhere the two rules agree. -/
theorem halfEven_eq_floor (other : ¬ EvenTie x) : halfEven x = ⌊x + 1/2⌋ := by
  unfold halfEven
  split
  next low => rw [floor_add_half_low low]
  next notLow =>
    have high := floor_add_half_high (not_lt.mp notLow)
    split
    next => exact high.symm
    next notHigh =>
      have tie : Int.fract x = 1/2 := le_antisymm (not_lt.mp notHigh) (not_lt.mp notLow)
      rw [if_neg (fun even => other ⟨tie,even⟩)]
      exact high.symm

variable {top bottom : Nat}

theorem floor_ratio (top bottom : Nat) : ⌊(top : ℚ)/bottom⌋ = ((top/bottom : Nat) : ℤ) :=
  Rat.floor_natCast_div_natCast top bottom

theorem evenTie_ratio (pos : 0 < bottom) :
    EvenTie ((top : ℚ)/bottom) ↔ 2*(top % bottom) = bottom ∧ (top/bottom) % 2 = 0 := by
  have positive : (0 : ℚ) < bottom := Nat.cast_pos.mpr pos
  rw [EvenTie,floor_ratio,Int.fract_div_natCast_eq_div_natCast_mod,div_eq_div_iff (ne_of_gt positive) two_ne_zero,
    one_mul,mul_comm]
  constructor
  · rintro ⟨tie,even⟩
    exact ⟨by exact_mod_cast tie,by omega⟩
  · rintro ⟨tie,even⟩
    exact ⟨by exact_mod_cast tie,by omega⟩

end Llte.Foundation
