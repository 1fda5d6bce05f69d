import Mathlib.Order.Lattice
import Mathlib.Data.Fintype.Pi

/-! Memory as threads see it under release and acquire. Every atomic keeps the messages
stored to it, and a load may return any of them that is not older than what its thread
has seen there. A release store hands on what its thread knows, an acquire load takes it
up. Plain cells are checked for races: an access that conflicts with one its thread does
not know of has no result. Every atomic has one writing thread, so its messages stand in
the order of its stores. -/
namespace Llte.Foundation

/-- How many plain accesses of each thread are known, and how many messages of each
atomic have been passed. -/
abbrev View (ι κ : Type) := (ι → Nat) × (κ → Nat)

structure Message (ι κ ν : Type) where
  value : ν
  view : View ι κ

/-- A plain variable with the last access of every thread. -/
structure Cell (ι δ : Type) where
  value : δ
  wrote : ι → Nat
  read : ι → Nat

structure Memory (ι κ γ ν δ : Type) where
  history : κ → List (Message ι κ ν)
  cells : γ → Cell ι δ
  view : ι → View ι κ

inductive LoadOrder where
  | relaxed
  | acquire
  deriving DecidableEq

inductive StoreOrder where
  | relaxed
  | release
  deriving DecidableEq

namespace View
variable {ι κ : Type}

def pass [DecidableEq κ] (view : View ι κ) (atomic : κ) (index : Nat) : View ι κ :=
  (view.1,Function.update view.2 atomic (max (view.2 atomic) index))

/-- One more plain access of a thread. -/
def tick [DecidableEq ι] (view : View ι κ) (t : ι) : View ι κ := (Function.update view.1 t (view.1 t+1),view.2)

private theorem le_pass [DecidableEq κ] (view : View ι κ) (atomic : κ) (index : Nat) : view ≤ view.pass atomic index := by
  refine ⟨le_refl _,fun other => ?_⟩
  by_cases here : other = atomic
  · subst here
    simp [pass]
  · simp [pass,here]

private theorem index_le_pass [DecidableEq κ] (view : View ι κ) (atomic : κ) (index : Nat) :
    index ≤ (view.pass atomic index).2 atomic := by
  simp [pass]

private theorem le_tick [DecidableEq ι] (view : View ι κ) (t : ι) : view ≤ view.tick t := by
  refine ⟨fun other => ?_,le_refl _⟩
  by_cases here : other = t
  · subst here
    simp [tick]
  · simp [tick,here]

end View

/-- What a load makes of its thread's view and the one in the message. -/
def LoadOrder.take {ι κ : Type} (own handed : View ι κ) : LoadOrder → View ι κ
  | relaxed => own
  | acquire => own ⊔ handed

theorem LoadOrder.le_take {ι κ : Type} (order : LoadOrder) (own handed : View ι κ) : own ≤ order.take own handed := by
  cases order with
  | relaxed => exact le_refl _
  | acquire => exact le_sup_left

/-- The view a store puts into its message. -/
def StoreOrder.hand {ι κ : Type} (own : View ι κ) : StoreOrder → View ι κ
  | relaxed => (fun _ => 0,fun _ => 0)
  | release => own

namespace Memory
variable {ι κ γ ν δ : Type}

/-- Nothing has been accessed yet. -/
def create (initial : κ → ν) (content : γ → δ) : Memory ι κ γ ν δ where
  history atomic := [⟨initial atomic,fun _ => 0,fun _ => 0⟩]
  cells name := ⟨content name,fun _ => 0,fun _ => 0⟩
  view _ := (fun _ => 0,fun _ => 0)

def setView [DecidableEq ι] (m : Memory ι κ γ ν δ) (t : ι) (view : View ι κ) : Memory ι κ γ ν δ :=
  {m with view := Function.update m.view t view}

@[simp] theorem setView_self [DecidableEq ι] (m : Memory ι κ γ ν δ) (t : ι) (view : View ι κ) :
    (m.setView t view).view t = view := Function.update_self _ _ _

theorem le_setView [DecidableEq ι] {m : Memory ι κ γ ν δ} {t : ι} {view : View ι κ} (grows : m.view t ≤ view)
    (u : ι) : m.view u ≤ (m.setView t view).view u := by
  by_cases here : u = t
  · subst here
    rwa [setView_self]
  · simp [setView,here]

/-- What a load leaves behind. Views only grow, so what a thread knows it keeps. -/
structure Loaded (m : Memory ι κ γ ν δ) (t : ι) (atomic : κ) (order : LoadOrder) (index : Nat) (value : ν)
    (m' : Memory ι κ γ ν δ) : Prop where
  message : ∃ message, (m.history atomic)[index]? = some message ∧ message.value = value ∧
    (order = .acquire → message.view ≤ m'.view t)
  fresh : (m.view t).2 atomic ≤ index
  passed : index ≤ (m'.view t).2 atomic
  grows : ∀ u, m.view u ≤ m'.view u
  history : m'.history = m.history
  cells : m'.cells = m.cells

/-- A thread that has passed all messages of an atomic loads the last one. -/
theorem Loaded.last {m m' : Memory ι κ γ ν δ} {t : ι} {atomic : κ} {order : LoadOrder} {index : Nat} {value : ν}
    (loaded : Loaded m t atomic order index value m') {count : Nat} (length : (m.history atomic).length = count+1)
    (seen : count ≤ (m.view t).2 atomic) : index = count := by
  obtain ⟨message,found,_⟩ := loaded.message
  have inside := (List.getElem?_eq_some_iff.mp found).1
  have fresh := loaded.fresh
  omega

structure Stored (m : Memory ι κ γ ν δ) (t : ι) (atomic : κ) (order : StoreOrder) (value : ν)
    (m' : Memory ι κ γ ν δ) : Prop where
  message : ∃ last, m'.history atomic = m.history atomic ++ [last] ∧ last.value = value ∧
    (order = .release → m.view t ≤ last.view)
  others : ∀ other, other ≠ atomic → m'.history other = m.history other
  passed : (m.history atomic).length ≤ (m'.view t).2 atomic
  grows : ∀ u, m.view u ≤ m'.view u
  cells : m'.cells = m.cells

theorem Stored.length {m m' : Memory ι κ γ ν δ} {t : ι} {atomic : κ} {order : StoreOrder} {value : ν}
    (stored : Stored m t atomic order value m') : (m'.history atomic).length = (m.history atomic).length+1 := by
  obtain ⟨last,history,_⟩ := stored.message
  simp [history]

/-- The messages after a store are those before and the new one. -/
theorem Stored.get {m m' : Memory ι κ γ ν δ} {t : ι} {atomic : κ} {order : StoreOrder} {value : ν}
    (stored : Stored m t atomic order value m') {j : Nat} {message : Message ι κ ν}
    (found : (m'.history atomic)[j]? = some message) : (m.history atomic)[j]? = some message ∨
      j = (m.history atomic).length ∧ message.value = value ∧ (order = .release → m.view t ≤ message.view) := by
  obtain ⟨last,history,known⟩ := stored.message
  rw [history,List.getElem?_append] at found
  split at found
  next => exact .inl found
  next past =>
    rw [List.getElem?_singleton,Option.ite_none_right_eq_some] at found
    obtain ⟨first,found⟩ := found
    rw [← Option.some.inj found]
    exact .inr ⟨by omega,known⟩

variable [DecidableEq ι] [DecidableEq κ]

/-- The load that returns the message at `index`. -/
def load (m : Memory ι κ γ ν δ) (t : ι) (atomic : κ) (order : LoadOrder) (index : Nat) :
    Option (ν × Memory ι κ γ ν δ) :=
  match (m.history atomic)[index]? with
  | none => none
  | some message =>
    if (m.view t).2 atomic ≤ index then
      some (message.value,m.setView t (order.take ((m.view t).pass atomic index) message.view))
    else none

def store (m : Memory ι κ γ ν δ) (t : ι) (atomic : κ) (order : StoreOrder) (value : ν) : Memory ι κ γ ν δ :=
  let view := (m.view t).pass atomic (m.history atomic).length
  {m.setView t view with
    history := Function.update m.history atomic (m.history atomic ++ [⟨value,order.hand view⟩])}

end Memory

namespace Memory
variable {ι κ γ ν δ : Type} [DecidableEq ι] [Fintype ι] [DecidableEq γ]

/-- The access itself, at one more tick of its thread. -/
def access (m : Memory ι κ γ ν δ) (t : ι) (name : γ) (cell : Cell ι δ) : Memory ι κ γ ν δ :=
  {m.setView t ((m.view t).tick t) with cells := Function.update m.cells name cell}

/-- A plain read races with a write its thread does not know of. -/
def readCell (m : Memory ι κ γ ν δ) (t : ι) (name : γ) : Option (δ × Memory ι κ γ ν δ) :=
  let cell := m.cells name
  if ∀ u, cell.wrote u ≤ (m.view t).1 u then
    some (cell.value,m.access t name {cell with read := Function.update cell.read t ((m.view t).1 t+1)})
  else none

/-- A plain write races with any access its thread does not know of. -/
def writeCell (m : Memory ι κ γ ν δ) (t : ι) (name : γ) (value : δ) : Option (Memory ι κ γ ν δ) :=
  let cell := m.cells name
  if ∀ u, cell.wrote u ≤ (m.view t).1 u ∧ cell.read u ≤ (m.view t).1 u then
    some (m.access t name
      {cell with value := value, wrote := Function.update cell.wrote t ((m.view t).1 t+1)})
  else none

end Memory

namespace Memory
variable {ι κ γ ν δ : Type} [DecidableEq ι] [DecidableEq κ]
variable {m m' : Memory ι κ γ ν δ} {t : ι} {atomic : κ}

theorem load_loaded {order : LoadOrder} {index : Nat} {value : ν}
    (loaded : m.load t atomic order index = some (value,m')) : Loaded m t atomic order index value m' := by
  unfold load at loaded
  split at loaded
  next => simp at loaded
  next message found =>
    rw [Option.ite_none_right_eq_some] at loaded
    obtain ⟨fresh,loaded⟩ := loaded
    simp only [Option.some.injEq,Prod.mk.injEq] at loaded
    obtain ⟨rfl,rfl⟩ := loaded
    have grows := order.le_take ((m.view t).pass atomic index) message.view
    refine ⟨⟨message,found,rfl,?_⟩,fresh,?_,le_setView (((m.view t).le_pass atomic index).trans grows),rfl,rfl⟩
    · rintro rfl
      rw [setView_self]
      exact le_sup_right
    · rw [setView_self]
      exact ((m.view t).index_le_pass atomic index).trans (grows.2 _)

theorem load_eq (order : LoadOrder) {index : Nat} {message : Message ι κ ν}
    (found : (m.history atomic)[index]? = some message) (fresh : (m.view t).2 atomic ≤ index) :
    m.load t atomic order index =
      some (message.value,m.setView t (order.take ((m.view t).pass atomic index) message.view)) := by
  simp [load,found,fresh]

theorem store_stored (m : Memory ι κ γ ν δ) (t : ι) (atomic : κ) (order : StoreOrder) (value : ν) :
    Stored m t atomic order value (m.store t atomic order value) := by
  have passes := (m.view t).le_pass atomic (m.history atomic).length
  refine ⟨⟨_,Function.update_self _ _ _,rfl,fun released => ?_⟩,fun other apart => Function.update_of_ne apart _ _,
    ?_,le_setView passes,rfl⟩
  · subst released
    exact passes
  · simp [store,setView,View.pass]

end Memory

namespace Memory
variable {ι κ γ ν δ : Type} [DecidableEq ι] [Fintype ι] [DecidableEq γ]
variable {m m' : Memory ι κ γ ν δ} {t : ι} {name : γ}

theorem readCell_reads {value : δ} (read : m.readCell t name = some (value,m')) :
    value = (m.cells name).value ∧ m'.history = m.history ∧ (∀ u, m.view u ≤ m'.view u) ∧
      ∃ clock ≤ (m'.view t).1 t, m'.cells = Function.update m.cells name
        {m.cells name with read := Function.update (m.cells name).read t clock} := by
  rw [readCell,Option.ite_none_right_eq_some,Option.some.injEq,Prod.mk.injEq] at read
  obtain ⟨_,rfl,rfl⟩ := read
  exact ⟨rfl,rfl,le_setView ((m.view t).le_tick t),_,by simp [access,setView,View.tick],rfl⟩

theorem writeCell_writes {value : δ} (written : m.writeCell t name value = some m') :
    m'.history = m.history ∧ (∀ u, m.view u ≤ m'.view u) ∧
      ∃ clock ≤ (m'.view t).1 t, m'.cells = Function.update m.cells name
        {m.cells name with value := value, wrote := Function.update (m.cells name).wrote t clock} := by
  rw [writeCell,Option.ite_none_right_eq_some,Option.some.injEq] at written
  obtain ⟨_,rfl⟩ := written
  exact ⟨rfl,le_setView ((m.view t).le_tick t),_,by simp [access,setView,View.tick],rfl⟩

theorem readCell_eq_none : m.readCell t name = none ↔ ∃ u, (m.view t).1 u < (m.cells name).wrote u := by
  simp [readCell]

theorem writeCell_eq_none (value : δ) : m.writeCell t name value = none ↔
    ∃ u, (m.view t).1 u < (m.cells name).wrote u ∨ (m.view t).1 u < (m.cells name).read u := by
  simp [writeCell,imp_iff_not_or]

end Memory
end Llte.Foundation
