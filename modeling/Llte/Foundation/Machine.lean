import Mathlib.Logic.Relation

/-! Machines given by their moves: `move s m` is the state after the move `m`, or
`none` where `m` is not possible. A run is any sequence of possible moves, so a machine
with several parties runs in every interleaving of theirs. -/
namespace Llte.Foundation

variable {σ μ : Type} {move : σ → μ → Option σ} {s s' : σ}

def Steps (move : σ → μ → Option σ) (s s' : σ) : Prop := ∃ m, move s m = some s'

abbrev Reached (move : σ → μ → Option σ) : σ → σ → Prop := Relation.ReflTransGen (Steps move)

/-- What holds at the start and is kept by every move holds in every state of a run. -/
theorem Reached.invariant {I : σ → Prop} (reached : Reached move s s') (start : I s)
    (keep : ∀ s m s', I s → move s m = some s' → I s') : I s' := by
  induction reached with
  | refl => exact start
  | tail _ taken ih =>
    obtain ⟨m,moved⟩ := taken
    exact keep _ m _ ih moved

def play (move : σ → μ → Option σ) : List μ → σ → Option σ
  | [],s => some s
  | m::rest,s =>
    match move s m with
    | none => none
    | some s => play move rest s

theorem play_reached {moves : List μ} (played : play move moves s = some s') : Reached move s s' := by
  induction moves generalizing s with
  | nil => rw [Option.some.inj played]
  | cons m rest ih =>
    rw [play] at played
    split at played
    next => simp at played
    next s₁ moved => exact .head ⟨m,moved⟩ (ih played)

/-- No move of the run is a bad one in the state in which it is made. -/
def Avoids (move : σ → μ → Option σ) (bad : σ → μ → Prop) : List μ → σ → Prop
  | [],_ => True
  | m::rest,s => ¬bad s m ∧ (move s m).elim True (Avoids move bad rest)

instance decidableAvoids (move : σ → μ → Option σ) (bad : σ → μ → Prop) [∀ s m, Decidable (bad s m)] :
    (moves : List μ) → (s : σ) → Decidable (Avoids move bad moves s)
  | [],_ => isTrue trivial
  | m::rest,s =>
    have : Decidable ((move s m).elim True (Avoids move bad rest)) :=
      match move s m with
      | none => isTrue trivial
      | some s => decidableAvoids move bad rest s
    inferInstanceAs (Decidable (_ ∧ _))

/-- What is kept by every move that is not bad. -/
theorem Avoids.invariant {I : σ → Prop} {bad : σ → μ → Prop} {moves : List μ} (avoids : Avoids move bad moves s)
    (played : play move moves s = some s') (start : I s)
    (keep : ∀ s m s', I s → ¬bad s m → move s m = some s' → I s') : I s' := by
  induction moves generalizing s with
  | nil => rwa [← Option.some.inj played]
  | cons m rest ih =>
    obtain ⟨fine,later⟩ := avoids
    rw [play] at played
    split at played
    next => simp at played
    next s₁ moved =>
      rw [moved] at later
      exact ih later played (keep s m s₁ start fine moved)

/-- An invariant that counts the bad moves ends with none exactly if there was none. -/
theorem play_tally {I : Nat → σ → Prop} {bad : σ → μ → Prop} {moves : List μ} {tally : Nat}
    (played : play move moves s = some s') (start : I tally s)
    (step : ∀ tally s m s', I tally s → move s m = some s' → bad s m ∧ I (tally+1) s' ∨ ¬bad s m ∧ I tally s') :
    ∃ tally', I tally' s' ∧ (tally' = 0 ↔ tally = 0 ∧ Avoids move bad moves s) := by
  induction moves generalizing s tally with
  | nil =>
    rw [← Option.some.inj played]
    exact ⟨tally,start,(and_iff_left trivial).symm⟩
  | cons m rest ih =>
    rw [play] at played
    split at played
    next => simp at played
    next s₁ moved =>
      rw [Avoids,moved]
      rcases step tally s m s₁ start moved with ⟨bad,kept⟩ | ⟨fine,kept⟩
      · obtain ⟨tally',holds,none⟩ := ih played kept
        exact ⟨tally',holds,iff_of_false (fun zero => absurd (none.mp zero).1 (Nat.succ_ne_zero _)) (fun both => both.2.1 bad)⟩
      · obtain ⟨tally',holds,none⟩ := ih played kept
        refine ⟨tally',holds,none.trans ?_⟩
        rw [and_iff_right fine]
        rfl

/-- How many moves of a run are counted, each in the state in which it is made. -/
def effort (move : σ → μ → Option σ) (counted : σ → μ → Bool) : List μ → σ → Nat
  | [],_ => 0
  | m::rest,s => (counted s m).toNat+(move s m).elim 0 (effort move counted rest)

/-- The counted moves bring a rank down, and the others do not bring it up. -/
theorem play_effort {I : σ → Prop} {P : μ → Prop} (rank : σ → Nat) (counted : σ → μ → Bool)
    (step : ∀ s m s', I s → P m → move s m = some s' → I s' ∧ rank s'+(counted s m).toNat ≤ rank s) {moves : List μ}
    (start : I s) (allowed : ∀ m ∈ moves, P m) (played : play move moves s = some s') :
    I s' ∧ effort move counted moves s+rank s' ≤ rank s := by
  induction moves generalizing s with
  | nil =>
    rw [← Option.some.inj played]
    exact ⟨start,Nat.le_of_eq (Nat.zero_add _)⟩
  | cons m rest ih =>
    rw [play] at played
    split at played
    next => simp at played
    next s₁ moved =>
      obtain ⟨kept,first⟩ := step s m s₁ start (allowed m List.mem_cons_self) moved
      obtain ⟨holds,later⟩ := ih kept (fun m there => allowed m (List.mem_cons_of_mem _ there)) played
      refine ⟨holds,?_⟩
      rw [effort,moved,Option.elim_some]
      omega

/-- A script shows that some state of a run has a property. -/
theorem play_finds (move : σ → μ → Option σ) (s : σ) (moves : List μ) (P : σ → Prop) [DecidablePred P]
    (checked : (play move moves s).any (fun s => decide (P s)) = true) : ∃ s', Reached move s s' ∧ P s' := by
  obtain ⟨s',played,found⟩ := (Option.any_eq_true _ _).mp checked
  exact ⟨s',play_reached played,of_decide_eq_true found⟩

end Llte.Foundation
