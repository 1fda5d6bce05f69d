import Mathlib.Data.List.Basic
import Mathlib.Data.List.Perm.Basic

/-! Removal from a vector whose order does not matter: the last item moves into the place
of the one that goes. -/
namespace Llte.Foundation

variable {α : Type} {items : List α} {index : Nat} {target item : α}

/-- `items[index] = items.back(); items.pop_back()`. -/
def swapPop (items : List α) (index : Nat) : List α :=
  match items.getLast? with
  | none => []
  | some last => (items.set index last).dropLast

private theorem set_dropLast_perm {last : α} (found : items[index]? = some target) (ends : items.getLast? = some last) :
    items.Perm (target::(items.set index last).dropLast) := by
  obtain ⟨inside,here⟩ := List.getElem?_eq_some_iff.mp found
  obtain ⟨front,rfl⟩ := List.getLast?_eq_some_iff.mp ends
  rw [List.length_append,List.length_singleton] at inside
  by_cases end_ : index = front.length
  · subst end_
    rw [List.getElem_concat_length rfl] at here
    rw [← here]
    simp
  · have early : index < front.length := by omega
    rw [List.getElem_append_left early] at here
    rw [List.set_append_left _ _ early,List.dropLast_concat]
    have rest : front.Perm (target::front.eraseIdx index) := here ▸ (List.getElem_cons_eraseIdx_perm early).symm
    refine (List.perm_append_singleton last front).trans ((rest.cons last).trans ?_)
    exact (List.Perm.swap target last _).trans ((List.set_perm_cons_eraseIdx early last).symm.cons target)

theorem swapPop_perm (found : items[index]? = some target) : items.Perm (target::swapPop items index) := by
  unfold swapPop
  split
  next empty =>
    rw [List.getLast?_eq_none_iff.mp empty] at found
    simp at found
  next last ends => exact set_dropLast_perm found ends

theorem mem_of_mem_swapPop (found : items[index]? = some target) (member : item ∈ swapPop items index) :
    item ∈ items :=
  (swapPop_perm found).mem_iff.mpr (List.mem_cons_of_mem _ member)

theorem mem_swapPop_of_ne (found : items[index]? = some target) (member : item ∈ items) (other : item ≠ target) :
    item ∈ swapPop items index :=
  List.mem_of_ne_of_mem other ((swapPop_perm found).mem_iff.mp member)

theorem length_swapPop_le (items : List α) (index : Nat) : (swapPop items index).length ≤ items.length := by
  unfold swapPop
  split
  next => exact Nat.zero_le _
  next =>
    rw [List.length_dropLast,List.length_set]
    exact Nat.sub_le _ _

end Llte.Foundation
