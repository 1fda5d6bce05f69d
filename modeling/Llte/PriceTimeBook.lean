import Llte.OrderBook

/-! What the order book is for: resting orders with price-time priority. The orders
stand in the order in which they obtained their place; those of one side and price
form the queue there, first come first served. -/
namespace Llte

structure RestingOrder where
  id : UInt64
  side : Side
  price : Price
  quantity : UInt32
  deriving DecidableEq

/-- No two resting orders have the same id. -/
structure PriceTimeBook where
  orders : List RestingOrder
  distinct : (orders.map RestingOrder.id).Nodup

inductive Call where
  | add (orderId : UInt64) (side : Side) (price : Price) (quantity : UInt32)
  | cancel (orderId : UInt64)
  | modify (orderId : UInt64) (newPrice : Price) (newQuantity : UInt32)
  | execute (orderId : UInt64) (quantity : UInt32)
  | clear

namespace PriceTimeBook

def empty : PriceTimeBook := ⟨[],by simp⟩

/-- The ids and quantities waiting at a price, oldest first. -/
def queue (a : PriceTimeBook) (side : Side) (price : Price) : List (UInt64 × UInt32) :=
  (a.orders.filter fun o => o.side = side ∧ o.price = price).map fun o => (o.id,o.quantity)

def find (a : PriceTimeBook) (orderId : UInt64) : Option RestingOrder :=
  a.orders.find? fun o => o.id = orderId

def contains (a : PriceTimeBook) (orderId : UInt64) : Bool := (a.find orderId).isSome

def remove (a : PriceTimeBook) (orderId : UInt64) : PriceTimeBook where
  orders := a.orders.filter fun o => o.id ≠ orderId
  distinct := a.distinct.sublist (List.filter_sublist.map _)

/-- The order goes to the back of its queue; if it rested before, it leaves its place. -/
def place (a : PriceTimeBook) (o : RestingOrder) : PriceTimeBook where
  orders := (a.remove o.id).orders ++ [o]
  distinct := by
    rw [List.map_append,List.nodup_append]
    refine ⟨(a.remove o.id).distinct,by simp,?_⟩
    intro first member second own
    obtain ⟨old,found,rfl⟩ := List.mem_map.mp member
    have other := (List.mem_filter.mp found).2
    simp only [ne_eq,decide_not,Bool.not_eq_true',decide_eq_false_iff_not] at other
    simp only [List.map_cons,List.map_nil,List.mem_singleton] at own
    rw [own]
    exact other

def setQuantity (a : PriceTimeBook) (orderId : UInt64) (quantity : UInt32) : PriceTimeBook where
  orders := a.orders.map fun o => if o.id = orderId then {o with quantity := quantity} else o
  distinct := by
    have ids : (a.orders.map fun o => if o.id = orderId then {o with quantity := quantity} else o).map
        RestingOrder.id = a.orders.map RestingOrder.id := by
      rw [List.map_map]
      apply List.map_congr_left
      intro o _
      simp only [Function.comp_apply]
      split <;> rfl
    rw [ids]
    exact a.distinct

def add (c : Config) (a : PriceTimeBook) (orderId : UInt64) (side : Side) (price : Price)
    (quantity : UInt32) : Result × PriceTimeBook :=
  if orderId = 0 then (.unknownOrder,a)
  else if quantity = 0 then (.invalidQuantity,a)
  else if ¬ (c.minPrice ≤ price ∧ price ≤ c.maxPrice) then (.priceOutOfBand,a)
  else if a.contains orderId then (.duplicateOrder,a)
  else if c.maxOrders ≤ a.orders.length then (.poolExhausted,a)
  else (.ok,a.place ⟨orderId,side,price,quantity⟩)

def cancel (a : PriceTimeBook) (orderId : UInt64) : Result × PriceTimeBook :=
  match a.find orderId with
  | none => (.unknownOrder,a)
  | some _ => (.ok,a.remove orderId)

def modify (c : Config) (a : PriceTimeBook) (orderId : UInt64) (newPrice : Price)
    (newQuantity : UInt32) : Result × PriceTimeBook :=
  if newQuantity = 0 then (.invalidQuantity,a)
  else if ¬ (c.minPrice ≤ newPrice ∧ newPrice ≤ c.maxPrice) then (.priceOutOfBand,a)
  else
    match a.find orderId with
    | none => (.unknownOrder,a)
    | some o =>
      if newPrice = o.price ∧ newQuantity < o.quantity then (.ok,a.setQuantity orderId newQuantity)
      else (.ok,a.place {o with price := newPrice, quantity := newQuantity})

def execute (a : PriceTimeBook) (orderId : UInt64) (quantity : UInt32) : Result × PriceTimeBook :=
  if quantity = 0 then (.invalidQuantity,a)
  else
    match a.find orderId with
    | none => (.unknownOrder,a)
    | some o =>
      if o.quantity ≤ quantity then (.ok,a.remove orderId)
      else (.ok,a.setQuantity orderId (o.quantity - quantity))

/-- One call; `clear` returns nothing. -/
def step (c : Config) (a : PriceTimeBook) : Call → Option Result × PriceTimeBook
  | .add orderId side price quantity => (a.add c orderId side price quantity).map some id
  | .cancel orderId => (a.cancel orderId).map some id
  | .modify orderId newPrice newQuantity => (a.modify c orderId newPrice newQuantity).map some id
  | .execute orderId quantity => (a.execute orderId quantity).map some id
  | .clear => (none,empty)

def run (c : Config) : List Call → PriceTimeBook → List (Option Result) × PriceTimeBook
  | [],a => ([],a)
  | call::rest,a =>
    let (result,a) := a.step c call
    let (results,a) := run c rest a
    (result::results,a)

def quantityAt (a : PriceTimeBook) (side : Side) (price : Price) : Nat :=
  ((a.queue side price).map fun entry => entry.2.toNat).sum

def orderCountAt (a : PriceTimeBook) (side : Side) (price : Price) : Nat := (a.queue side price).length

def better : Side → Price → Price → Price
  | .buy,first,second => if first ≤ second then second else first
  | .sell,first,second => if first ≤ second then first else second

def bestPrice (a : PriceTimeBook) (side : Side) : Price :=
  match (a.orders.filter fun o => o.side = side).map RestingOrder.price with
  | [] => kNoPrice
  | price::rest => rest.foldl (better side) price

section Queues
variable {a : PriceTimeBook} {orderId : UInt64} {side : Side} {price : Price}

theorem mem_queue (quantity : UInt32) :
    (orderId,quantity) ∈ a.queue side price ↔ ⟨orderId,side,price,quantity⟩ ∈ a.orders := by
  rw [queue,List.mem_map]
  constructor
  · rintro ⟨o,member,same⟩
    obtain ⟨held,filed⟩ := List.mem_filter.mp member
    simp only [decide_eq_true_eq,Prod.mk.injEq] at filed same
    obtain ⟨rfl,rfl⟩ := filed
    obtain ⟨rfl,rfl⟩ := same
    exact held
  · intro held
    exact ⟨_,List.mem_filter.mpr ⟨held,by simp⟩,rfl⟩

theorem queue_remove (a : PriceTimeBook) (orderId : UInt64) (side : Side) (price : Price) :
    (a.remove orderId).queue side price = (a.queue side price).filter fun entry => entry.1 ≠ orderId := by
  rw [queue,queue,List.filter_map,remove,List.filter_filter,List.filter_filter]
  congr 1
  apply List.filter_congr
  intro o _
  simp only [Function.comp_apply,Bool.and_comm]

theorem queue_place (a : PriceTimeBook) (o : RestingOrder) (side : Side) (price : Price) :
    (a.place o).queue side price = ((a.queue side price).filter fun entry => entry.1 ≠ o.id) ++
      if o.side = side ∧ o.price = price then [(o.id,o.quantity)] else [] := by
  rw [← queue_remove,queue,place,List.filter_append,List.map_append]
  congr 1
  by_cases own : o.side = side ∧ o.price = price
  · rw [if_pos own,List.filter_cons_of_pos (by simpa using own)]
    rfl
  · rw [if_neg own,List.filter_cons_of_neg (by simpa using own)]
    rfl

theorem queue_setQuantity (a : PriceTimeBook) (orderId : UInt64) (quantity : UInt32) (side : Side)
    (price : Price) : (a.setQuantity orderId quantity).queue side price =
      (a.queue side price).map fun entry => if entry.1 = orderId then (entry.1,quantity) else entry := by
  rw [queue,queue,setQuantity,List.filter_map,List.map_map,List.map_map]
  have same : ((fun o : RestingOrder => decide (o.side = side ∧ o.price = price)) ∘
      fun o => if o.id = orderId then {o with quantity := quantity} else o) =
      fun o => decide (o.side = side ∧ o.price = price) := by
    funext o
    simp only [Function.comp_apply]
    split <;> rfl
  rw [same]
  apply List.map_congr_left
  intro o _
  simp only [Function.comp_apply]
  split <;> rfl

theorem find_eq_none : a.find orderId = none ↔ ∀ o ∈ a.orders, o.id ≠ orderId := by
  simp [find]

theorem find_eq_some {o : RestingOrder} (found : a.find orderId = some o) :
    o ∈ a.orders ∧ o.id = orderId := by
  exact ⟨List.mem_of_find?_eq_some found,by simpa using List.find?_some found⟩

theorem id_inj {first second : RestingOrder} (one : first ∈ a.orders) (two : second ∈ a.orders)
    (same : first.id = second.id) : first = second :=
  List.inj_on_of_nodup_map a.distinct one two same

theorem find_of_mem {o : RestingOrder} (member : o ∈ a.orders) : a.find o.id = some o := by
  cases found : a.find o.id with
  | none => exact absurd rfl (find_eq_none.mp found o member)
  | some other =>
    obtain ⟨held,same⟩ := find_eq_some found
    rw [id_inj held member same]

theorem remove_absent (absent : a.find orderId = none) : (a.remove orderId).orders = a.orders := by
  rw [remove,List.filter_eq_self]
  intro o member
  simpa using find_eq_none.mp absent o member

theorem perm_remove {o : RestingOrder} (member : o ∈ a.orders) :
    a.orders.Perm (o::(a.remove o.id).orders) := by
  refine (List.perm_ext_iff_of_nodup (List.Nodup.of_map _ a.distinct) ?_).mpr ?_
  · rw [List.nodup_cons]
    refine ⟨?_,List.Nodup.of_map _ (a.remove o.id).distinct⟩
    intro again
    simpa using (List.mem_filter.mp again).2
  · intro x
    rw [List.mem_cons,remove,List.mem_filter,decide_eq_true_eq]
    constructor
    · intro held
      by_cases same : x.id = o.id
      · exact .inl (id_inj held member same)
      · exact .inr ⟨held,same⟩
    · rintro (rfl | both)
      · exact member
      · exact both.1

theorem length_remove {o : RestingOrder} (member : o ∈ a.orders) :
    (a.remove o.id).orders.length+1 = a.orders.length := (perm_remove member).length_eq.symm

theorem perm_place (a : PriceTimeBook) (o : RestingOrder) :
    (a.place o).orders.Perm (o::(a.remove o.id).orders) := List.perm_append_singleton _ _

theorem perm_setQuantity {o : RestingOrder} (member : o ∈ a.orders) (quantity : UInt32) :
    (a.setQuantity o.id quantity).orders.Perm ({o with quantity := quantity}::(a.remove o.id).orders) := by
  have whole := (perm_remove member).map fun x => if x.id = o.id then {x with quantity := quantity} else x
  have rest : ((a.remove o.id).orders.map fun x => if x.id = o.id then {x with quantity := quantity} else x) =
      (a.remove o.id).orders := by
    conv_rhs => rw [← List.map_id (a.remove o.id).orders]
    apply List.map_congr_left
    intro x held
    have other := (List.mem_filter.mp held).2
    rw [decide_eq_true_eq] at other
    exact if_neg other
  rw [List.map_cons,if_pos rfl,rest] at whole
  exact whole

/-- The rest of a book is found as before when one order takes its new form. -/
theorem find_perm {a' : PriceTimeBook} {o : RestingOrder} (same : a'.orders.Perm (o::(a.remove o.id).orders))
    (key : UInt64) : a'.find key = if key = o.id then some o else a.find key := by
  split
  next here =>
    rw [here]
    exact find_of_mem (same.mem_iff.mpr (by simp))
  next other =>
    have kept {x : RestingOrder} (id : x.id ≠ o.id) : x ∈ a'.orders ↔ x ∈ a.orders := by
      rw [same.mem_iff,List.mem_cons,remove,List.mem_filter,decide_eq_true_eq]
      constructor
      · rintro (rfl | both)
        · exact absurd rfl id
        · exact both.1
      · exact fun held => .inr ⟨held,id⟩
    cases found : a.find key with
    | none =>
      rw [find_eq_none] at found ⊢
      intro x member here
      exact found x ((kept (here ▸ other)).mp member) here
    | some x =>
      obtain ⟨held,rfl⟩ := find_eq_some found
      exact find_of_mem ((kept other).mpr held)

private theorem find_remove (a : PriceTimeBook) (orderId key : UInt64) :
    (a.remove orderId).find key = if key = orderId then none else a.find key := by
  rw [find,remove,List.find?_filter]
  split
  next here =>
    rw [List.find?_eq_none]
    intro o _
    simp [here]
  next other =>
    rw [find]
    congr 1
    funext o
    by_cases same : o.id = key
    · simp [same,other]
    · simp [same]

/-- What an order needs to be added. -/
structure Accepts (c : Config) (a : PriceTimeBook) (o : RestingOrder) : Prop where
  proper : o.id ≠ 0
  some_ : o.quantity ≠ 0
  inside : c.minPrice ≤ o.price ∧ o.price ≤ c.maxPrice
  absent : a.find o.id = none
  room : a.orders.length < c.maxOrders

theorem add_accepted {c : Config} {o : RestingOrder} (accepts : Accepts c a o) :
    a.add c o.id o.side o.price o.quantity = (.ok,a.place o) := by
  have absent : ¬ a.contains o.id = true := by simp [contains,accepts.absent]
  rw [add,if_neg accepts.proper,if_neg accepts.some_,if_neg (not_not.mpr accepts.inside),if_neg absent,
    if_neg (Nat.not_le.mpr accepts.room)]

theorem add_cases (c : Config) (a : PriceTimeBook) (o : RestingOrder) :
    Accepts c a o ∨ ∃ result, result ≠ .ok ∧ a.add c o.id o.side o.price o.quantity = (result,a) := by
  unfold add
  split
  next => exact .inr ⟨_,by decide,rfl⟩
  next proper =>
    split
    next => exact .inr ⟨_,by decide,rfl⟩
    next some_ =>
      split
      next => exact .inr ⟨_,by decide,rfl⟩
      next inside =>
        split
        next => exact .inr ⟨_,by decide,rfl⟩
        next absent =>
          split
          next => exact .inr ⟨_,by decide,rfl⟩
          next room =>
            exact .inl ⟨proper,some_,not_not.mp inside,by simpa [contains] using absent,Nat.not_le.mp room⟩

theorem perm_enter {c : Config} {o : RestingOrder} (accepts : Accepts c a o) :
    (a.place o).orders.Perm (o::a.orders) := by
  have perm := perm_place a o
  rwa [remove_absent accepts.absent] at perm

theorem cancel_found {o : RestingOrder} (found : a.find o.id = some o) : a.cancel o.id = (.ok,a.remove o.id) := by
  rw [cancel,found]

theorem modify_found {c : Config} {o : RestingOrder} (found : a.find o.id = some o) {newQuantity : UInt32}
    {newPrice : Price} (some_ : newQuantity ≠ 0) (inside : c.minPrice ≤ newPrice ∧ newPrice ≤ c.maxPrice) :
    (a.modify c o.id newPrice newQuantity).1 = .ok ∧ (a.modify c o.id newPrice newQuantity).2.orders.Perm
      ({o with price := newPrice, quantity := newQuantity}::(a.remove o.id).orders) := by
  rw [modify,if_neg some_,if_neg (not_not.mpr inside),found]
  dsimp only
  split
  next both =>
    rw [both.1]
    exact ⟨rfl,perm_setQuantity (find_eq_some found).1 newQuantity⟩
  next => exact ⟨rfl,perm_place a _⟩

theorem execute_found {o : RestingOrder} (found : a.find o.id = some o) {quantity : UInt32}
    (some_ : quantity ≠ 0) : a.execute o.id quantity =
      (.ok,if o.quantity ≤ quantity then a.remove o.id else a.setQuantity o.id (o.quantity - quantity)) := by
  rw [execute,if_neg some_,found]
  dsimp only
  split <;> rfl

theorem find_absent (absent : a.find orderId = none) (key : UInt64) :
    a.find key = if key = orderId then none else a.find key := by
  split
  next here => rw [here,absent]
  next => rfl

theorem find_cancel (a : PriceTimeBook) (orderId key : UInt64) :
    (a.cancel orderId).2.find key = if key = orderId then none else a.find key := by
  cases found : a.find orderId with
  | none =>
    rw [cancel,found]
    exact find_absent found key
  | some o =>
    obtain ⟨_,rfl⟩ := find_eq_some found
    rw [cancel_found found,find_remove]

theorem find_modify {c : Config} (orderId : UInt64) {newPrice : Price} {newQuantity : UInt32}
    (some_ : newQuantity ≠ 0) (inside : c.minPrice ≤ newPrice ∧ newPrice ≤ c.maxPrice) (key : UInt64) :
    (a.modify c orderId newPrice newQuantity).2.find key = if key = orderId then
      (a.find orderId).map fun o => {o with price := newPrice, quantity := newQuantity} else a.find key := by
  cases found : a.find orderId with
  | none =>
    rw [modify,if_neg some_,if_neg (not_not.mpr inside),found]
    exact find_absent found key
  | some o =>
    obtain ⟨_,rfl⟩ := find_eq_some found
    exact find_perm (modify_found found some_ inside).2 key

theorem find_execute (orderId : UInt64) {quantity : UInt32} (some_ : quantity ≠ 0) (key : UInt64) :
    (a.execute orderId quantity).2.find key = if key = orderId then (a.find orderId).bind fun o =>
      if o.quantity ≤ quantity then none else some {o with quantity := o.quantity - quantity} else a.find key := by
  cases found : a.find orderId with
  | none =>
    rw [execute,if_neg some_,found]
    exact find_absent found key
  | some o =>
    obtain ⟨member,rfl⟩ := find_eq_some found
    rw [execute_found found some_,Option.bind_some]
    by_cases whole : o.quantity ≤ quantity
    · rw [if_pos whole,if_pos whole,find_remove]
    · rw [if_neg whole,if_neg whole]
      exact find_perm (perm_setQuantity member (o.quantity - quantity)) key

end Queues

inductive Effect (c : Config) (a : PriceTimeBook) : Call → Option Result → PriceTimeBook → Prop where
  | refused (call : Call) {result : Result} (bad : result ≠ .ok) : Effect c a call (some result) a
  | entered (o : RestingOrder) (ok : Accepts c a o) :
      Effect c a (.add o.id o.side o.price o.quantity) (some .ok) (a.place o)
  | cancelled (o : RestingOrder) (found : a.find o.id = some o) :
      Effect c a (.cancel o.id) (some .ok) (a.remove o.id)
  | shrunk (o : RestingOrder) (found : a.find o.id = some o) (quantity : UInt32) (some_ : quantity ≠ 0)
      (smaller : quantity < o.quantity) :
      Effect c a (.modify o.id o.price quantity) (some .ok) (a.setQuantity o.id quantity)
  | moved (o : RestingOrder) (found : a.find o.id = some o) (price : Price) (quantity : UInt32)
      (some_ : quantity ≠ 0) (inside : c.minPrice ≤ price ∧ price ≤ c.maxPrice)
      (again : ¬ (price = o.price ∧ quantity < o.quantity)) :
      Effect c a (.modify o.id price quantity) (some .ok)
        (a.place {o with price := price, quantity := quantity})
  | filled (o : RestingOrder) (found : a.find o.id = some o) (quantity : UInt32) (whole : o.quantity ≤ quantity) :
      Effect c a (.execute o.id quantity) (some .ok) (a.remove o.id)
  | reduced (o : RestingOrder) (found : a.find o.id = some o) (quantity : UInt32) (some_ : quantity ≠ 0)
      (less : quantity < o.quantity) :
      Effect c a (.execute o.id quantity) (some .ok) (a.setQuantity o.id (o.quantity - quantity))
  | cleared : Effect c a .clear none empty

theorem step_effect (c : Config) (a : PriceTimeBook) (call : Call) :
    Effect c a call (a.step c call).1 (a.step c call).2 := by
  cases call with
  | add orderId side price quantity =>
    simp only [step]
    rcases add_cases c a ⟨orderId,side,price,quantity⟩ with ok | ⟨result,bad,refused⟩
    · rw [add_accepted ok]
      exact .entered ⟨orderId,side,price,quantity⟩ ok
    · rw [refused]
      exact .refused _ bad
  | cancel orderId =>
    simp only [step,cancel]
    split
    next => exact .refused _ (by decide)
    next o found =>
      obtain ⟨_,rfl⟩ := find_eq_some found
      exact .cancelled o found
  | modify orderId newPrice newQuantity =>
    simp only [step,modify]
    split
    next => exact .refused _ (by decide)
    next some_ =>
      split
      next => exact .refused _ (by decide)
      next inside =>
        split
        next => exact .refused _ (by decide)
        next o found =>
          obtain ⟨_,rfl⟩ := find_eq_some found
          split
          next both =>
            obtain ⟨rfl,smaller⟩ := both
            exact .shrunk o found newQuantity some_ smaller
          next again => exact .moved o found newPrice newQuantity some_ (not_not.mp inside) again
  | execute orderId quantity =>
    simp only [step,execute]
    split
    next => exact .refused _ (by decide)
    next some_ =>
      split
      next => exact .refused _ (by decide)
      next o found =>
        obtain ⟨_,rfl⟩ := find_eq_some found
        split
        next whole => exact .filled o found quantity whole
        next less => exact .reduced o found quantity some_ (UInt32.not_le.mp less)
  | clear => exact .cleared

def NoWorse : Side → Price → Price → Prop
  | .buy,first,second => second ≤ first
  | .sell,first,second => first ≤ second

theorem noWorse_antisymm {side : Side} {first second : Price} (one : NoWorse side first second)
    (two : NoWorse side second first) : first = second := by
  cases side
  · exact Int64.le_antisymm two one
  · exact Int64.le_antisymm one two

private theorem noWorse_trans {side : Side} {first second third : Price} (one : NoWorse side first second)
    (two : NoWorse side second third) : NoWorse side first third := by
  cases side
  · exact Int64.le_trans two one
  · exact Int64.le_trans one two

private theorem better_spec (side : Side) (first second : Price) :
    (better side first second = first ∨ better side first second = second) ∧
      NoWorse side (better side first second) first ∧ NoWorse side (better side first second) second := by
  cases side <;> simp only [better,NoWorse] <;> split
  next ordered => exact ⟨.inr rfl,ordered,Int64.le_refl _⟩
  next other => exact ⟨.inl rfl,Int64.le_refl _,(Int64.le_total first second).resolve_left other⟩
  next ordered => exact ⟨.inl rfl,Int64.le_refl _,ordered⟩
  next other => exact ⟨.inr rfl,(Int64.le_total first second).resolve_left other,Int64.le_refl _⟩

private theorem foldl_better (side : Side) (prices : List Price) (first : Price) :
    prices.foldl (better side) first ∈ first::prices ∧
      ∀ price ∈ first::prices, NoWorse side (prices.foldl (better side) first) price := by
  induction prices generalizing first with
  | nil =>
    refine ⟨by simp,?_⟩
    intro price member
    rw [List.mem_singleton] at member
    rw [member]
    cases side <;> exact Int64.le_refl _
  | cons second rest ih =>
    obtain ⟨choice,one,two⟩ := better_spec side first second
    obtain ⟨found,best⟩ := ih (better side first second)
    rw [List.foldl_cons]
    have top := best _ (List.mem_cons_self ..)
    constructor
    · rcases List.mem_cons.mp found with here | later
      · rw [here]
        rcases choice with same | same <;> simp [same]
      · simp [later]
    · intro price member
      rcases List.mem_cons.mp member with rfl | more
      · exact noWorse_trans top one
      · rcases List.mem_cons.mp more with rfl | later
        · exact noWorse_trans top two
        · exact best price (List.mem_cons_of_mem _ later)

/-- On a side with orders the best price is one of theirs, and no worse than any other. -/
theorem bestPrice_touch {a : PriceTimeBook} {side : Side} {o : RestingOrder} (member : o ∈ a.orders)
    (own : o.side = side) :
    (∃ top ∈ a.orders, top.side = side ∧ top.price = a.bestPrice side) ∧
      ∀ other ∈ a.orders, other.side = side → NoWorse side (a.bestPrice side) other.price := by
  have listed (price : Price) : price ∈ (a.orders.filter fun o => o.side = side).map RestingOrder.price ↔
      ∃ other ∈ a.orders, other.side = side ∧ other.price = price := by
    simp only [List.mem_map,List.mem_filter,decide_eq_true_eq,and_assoc]
  have here := (listed o.price).mpr ⟨o,member,own,rfl⟩
  unfold bestPrice
  split
  next none =>
    rw [none] at here
    simp at here
  next price rest whole =>
    rw [whole] at listed
    obtain ⟨found,top⟩ := foldl_better side rest price
    refine ⟨(listed _).mp found,?_⟩
    intro other held side_
    exact top _ ((listed _).mpr ⟨other,held,side_,rfl⟩)

/-- The best price is the only one that is quoted and no worse than any other. -/
theorem bestPrice_eq {a : PriceTimeBook} {side : Side} {o : RestingOrder} (member : o ∈ a.orders)
    (own : o.side = side) (best : ∀ other ∈ a.orders, other.side = side → NoWorse side o.price other.price) :
    a.bestPrice side = o.price := by
  obtain ⟨⟨top,held,side_,same⟩,least⟩ := bestPrice_touch member own
  refine noWorse_antisymm (least o member own) ?_
  rw [← same]
  exact best top held side_

theorem bestPrice_none {a : PriceTimeBook} {side : Side} (none : ∀ o ∈ a.orders, o.side ≠ side) :
    a.bestPrice side = kNoPrice := by
  have vacant : (a.orders.filter fun o => o.side = side) = [] := by
    rw [List.filter_eq_nil_iff]
    intro o member
    simpa using none o member
  rw [bestPrice,vacant]
  rfl

end PriceTimeBook
end Llte
