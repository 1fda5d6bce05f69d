import Mathlib.Logic.Basic

/-! Objects that answer one call after another. `respond s call` is the reply to a call
with the state it leaves behind, or `none` where the call does not return. -/
namespace Llte.Foundation

variable {σ τ κ ρ : Type}

/-- The replies to a list of calls, and the state in the end. -/
def converse (respond : σ → κ → Option (ρ × σ)) : List κ → σ → Option (List ρ × σ)
  | [],s => some ([],s)
  | call::rest,s =>
    match respond s call with
    | none => none
    | some (reply,s) => (converse respond rest s).map fun (replies,s) => (reply::replies,s)

/-- In related states both objects return the same reply and stay related. -/
def Alike (first : σ → κ → Option (ρ × σ)) (second : τ → κ → Option (ρ × τ)) (R : σ → τ → Prop) : Prop :=
  ∀ s t, R s t → ∀ call, ∃ reply s' t',
    first s call = some (reply,s') ∧ second t call = some (reply,t') ∧ R s' t'

theorem Alike.converse {first : σ → κ → Option (ρ × σ)} {second : τ → κ → Option (ρ × τ)} {R : σ → τ → Prop}
    (alike : Alike first second R) (calls : List κ) {s : σ} {t : τ} (related : R s t) :
    ∃ replies s' t', converse first calls s = some (replies,s') ∧
      converse second calls t = some (replies,t') ∧ R s' t' := by
  induction calls generalizing s t with
  | nil => exact ⟨[],s,t,rfl,rfl,related⟩
  | cons call rest ih =>
    obtain ⟨reply,s₁,t₁,one,two,kept⟩ := alike s t related call
    obtain ⟨replies,s',t',ones,twos,last⟩ := ih kept
    refine ⟨reply::replies,s',t',?_,?_,last⟩
    · rw [Foundation.converse,one]
      dsimp only
      rw [ones]
      rfl
    · rw [Foundation.converse,two]
      dsimp only
      rw [twos]
      rfl

end Llte.Foundation
