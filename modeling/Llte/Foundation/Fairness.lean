import Llte.Foundation.Machine
import Mathlib.Data.Nat.Init
import Mathlib.Tactic.ByContra

/-! Fair schedules of a machine whose moves belong to several parties, and the rule of
the helpful party: some party always brings a rank down, the others never bring it up. A
party may also idle, as long as what it waits for comes. -/
namespace Llte.Foundation

variable {σ μ τ : Type} {move : σ → μ → Option σ} {schedule : Nat → μ} {s : σ}

/-- The state after so many moves of a schedule. A move that is not possible is passed over. -/
def trace (move : σ → μ → Option σ) (schedule : Nat → μ) (s : σ) : Nat → σ
  | 0 => s
  | n+1 =>
    match move (trace move schedule s n) (schedule n) with
    | none => trace move schedule s n
    | some s' => s'

/-- Every party moves again and again, unless it has ended. -/
def Fair (move : σ → μ → Option σ) (party : μ → τ) (ended : τ → σ → Prop) (schedule : Nat → μ) (s : σ) : Prop :=
  ∀ t n, ∃ k, n ≤ k ∧ (ended t (trace move schedule s k) ∨
    party (schedule k) = t ∧ (move (trace move schedule s k) (schedule k)).isSome)

/-- What is awaited at any moment comes: from some step on no move is an idle one for it. -/
def Comes {κ : Type} (move : σ → μ → Option σ) (schedule : Nat → μ) (awaited : σ → κ) (idle : σ → μ → Prop) (s : σ) : Prop :=
  ∀ n, ∃ k, ∀ j, k ≤ j → awaited (trace move schedule s j) = awaited (trace move schedule s n) →
    ¬idle (trace move schedule s j) (schedule j)

theorem trace_step (move : σ → μ → Option σ) (schedule : Nat → μ) (s : σ) (n : Nat) : trace move schedule s (n+1) = trace move schedule s n ∨
    move (trace move schedule s n) (schedule n) = some (trace move schedule s (n+1)) := by
  rw [trace]
  cases move (trace move schedule s n) (schedule n) with
  | none => exact .inl rfl
  | some s' => exact .inr rfl

theorem trace_reached (move : σ → μ → Option σ) (schedule : Nat → μ) (s : σ) (n : Nat) : Reached move s (trace move schedule s n) := by
  induction n with
  | zero => exact .refl
  | succ n ih =>
    rcases trace_step move schedule s n with same | moved
    · rw [same]
      exact ih
    · exact ih.tail ⟨_,moved⟩

/-- A run that can no longer move stays where it is. -/
theorem trace_settled {n : Nat} (stuck : ∀ k, n ≤ k → move (trace move schedule s n) (schedule k) = none) (k : Nat)
    (later : n ≤ k) : trace move schedule s k = trace move schedule s n := by
  induction k, later using Nat.le_induction with
  | base => rfl
  | succ k later ih => rw [trace,ih,stuck k later]

section Helpful
variable {κ : Type} {I goal : σ → Prop} {party : μ → τ} {ended : τ → σ → Prop} {rank : σ → Nat} {helpful : σ → τ}
  {awaited : σ → κ} {idle : σ → μ → Prop}

/-- Until the rank has come down, the helpful party and what it waits for stay the same. -/
theorem rank_waits (fixed : ∀ s m s', I s → ¬goal s → move s m = some s' → rank s' < rank s ∨
      rank s' = rank s ∧ helpful s' = helpful s ∧ awaited s' = awaited s ∧ (party m = helpful s → idle s m))
    (safe : ∀ n, I (trace move schedule s n)) (never : ∀ n, ¬goal (trace move schedule s n)) {n k : Nat}
    (later : n ≤ k) : (∃ j, rank (trace move schedule s j) < rank (trace move schedule s n)) ∨
      rank (trace move schedule s k) = rank (trace move schedule s n) ∧
        helpful (trace move schedule s k) = helpful (trace move schedule s n) ∧
        awaited (trace move schedule s k) = awaited (trace move schedule s n) := by
  induction k, later using Nat.le_induction with
  | base => exact .inr ⟨rfl,rfl,rfl⟩
  | succ k later ih =>
    rcases ih with fallen | ⟨same,helper,waits⟩
    · exact .inl fallen
    · rcases trace_step move schedule s k with stays | moved
      · rw [stays]
        exact .inr ⟨same,helper,waits⟩
      · rcases fixed _ _ _ (safe k) (never k) moved with less | ⟨equal,kept,stays,_⟩
        · exact .inl ⟨k+1,by omega⟩
        · exact .inr ⟨by omega,kept.trans helper,stays.trans waits⟩

private theorem rank_falls (fixed : ∀ s m s', I s → ¬goal s → move s m = some s' → rank s' < rank s ∨
      rank s' = rank s ∧ helpful s' = helpful s ∧ awaited s' = awaited s ∧ (party m = helpful s → idle s m))
    (helps : ∀ s, I s → ¬goal s → ¬ended (helpful s) s) (fair : Fair move party ended schedule s)
    (comes : Comes move schedule awaited idle s)
    (safe : ∀ n, I (trace move schedule s n)) (never : ∀ n, ¬goal (trace move schedule s n)) (n : Nat) :
    ∃ j, rank (trace move schedule s j) < rank (trace move schedule s n) := by
  obtain ⟨come,passed⟩ := comes n
  obtain ⟨k,later,moves⟩ := fair (helpful (trace move schedule s n)) (max n come)
  rcases rank_waits fixed safe never (n := n) (k := k) (by omega) with fallen | ⟨same,helper,waits⟩
  · exact fallen
  · rw [← helper] at moves
    rcases moves with finished | ⟨own,possible⟩
    · exact absurd finished (helps _ (safe k) (never k))
    · obtain ⟨s',moved⟩ := Option.isSome_iff_exists.mp possible
      have next : trace move schedule s (k+1) = s' := by rw [trace,moved]
      rcases fixed _ _ _ (safe k) (never k) moved with less | ⟨_,_,_,idles⟩
      · exact ⟨k+1,by rw [next]; omega⟩
      · exact absurd (idles own) (passed k (by omega) waits)

/-- The rule of the helpful party: under a fair schedule the goal is reached, if nothing is
waited for in vain. -/
theorem Fair.reaches (fair : Fair move party ended schedule s) (goal : σ → Prop) (rank : σ → Nat) (helpful : σ → τ)
    (comes : Comes move schedule awaited idle s) (start : I s)
    (keep : ∀ s m s', I s → move s m = some s' → I s')
    (helps : ∀ s, I s → ¬goal s → ¬ended (helpful s) s)
    (fixed : ∀ s m s', I s → ¬goal s → move s m = some s' → rank s' < rank s ∨
      rank s' = rank s ∧ helpful s' = helpful s ∧ awaited s' = awaited s ∧ (party m = helpful s → idle s m)) :
    ∃ n, goal (trace move schedule s n) := by
  by_contra never
  rw [not_exists] at never
  have safe (n : Nat) : I (trace move schedule s n) := (trace_reached move schedule s n).invariant start keep
  have below (r n : Nat) : r ≤ rank (trace move schedule s n) := by
    induction r generalizing n with
    | zero => exact Nat.zero_le _
    | succ r ih =>
      obtain ⟨j,less⟩ := rank_falls fixed helps fair comes safe never n
      exact Nat.lt_of_le_of_lt (ih j) less
  exact absurd (below (rank s+1) 0) (by rw [trace]; omega)

end Helpful
end Llte.Foundation
