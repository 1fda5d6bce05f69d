import Mathlib.Data.Vector.Basic

/-! Storage of a fixed number of cells that is sized once. Reading outside gives the
default value and writing outside does nothing. -/
namespace Llte.Foundation

structure Store (α : Type) (size : Nat) where
  cells : Vector α size
  deriving DecidableEq

namespace Store
variable {α : Type} {size : Nat}

def replicate (size : Nat) (value : α) : Store α size := ⟨Vector.replicate size value⟩

def get [Inhabited α] (store : Store α size) (i : Nat) : α := store.cells[i]?.getD default

def put (store : Store α size) (i : Nat) (value : α) : Store α size :=
  ⟨store.cells.setIfInBounds i value⟩

def mapIdx (f : Nat → α → α) (store : Store α size) : Store α size := ⟨store.cells.mapIdx f⟩

variable [Inhabited α]

theorem get_replicate {value : α} {i : Nat} (inside : i < size) : (replicate size value).get i = value := by
  simp [get,replicate,inside]

theorem get_put {store : Store α size} {i : Nat} (inside : i < size) (value : α) (j : Nat) :
    (store.put i value).get j = if j = i then value else store.get j := by
  unfold get put
  by_cases same : j = i
  · subst same
    simp [inside]
  · rw [if_neg same,Vector.getElem?_setIfInBounds_ne (fun equal => same equal.symm)]

theorem get_put_outside {store : Store α size} {i : Nat} (outside : ¬ i < size) (value : α) (j : Nat) :
    (store.put i value).get j = store.get j := by
  unfold get put
  by_cases same : j = i
  · subst same
    simp [outside]
  · rw [Vector.getElem?_setIfInBounds_ne (fun equal => same equal.symm)]

theorem get_mapIdx {store : Store α size} {i : Nat} (inside : i < size) (f : Nat → α → α) :
    (store.mapIdx f).get i = f i (store.get i) := by
  simp [get,mapIdx,inside]

end Store
end Llte.Foundation
