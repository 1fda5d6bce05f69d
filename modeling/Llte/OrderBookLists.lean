import Llte.Foundation.LinkedQueue
import Llte.OrderBook

/-! The lists of the book: which pool slots are free and which rest in the queue of a
level. Every slot has one place; the operations on the lists move one slot from one
place to another and leave all other lists as they are. -/
namespace Llte.OrderBook
open Foundation

variable {c : Config}

theorem levelPrice_levelIndex (c : Config) (price : Price) : levelPrice c (levelIndex c price) = price := by
  unfold levelPrice levelIndex
  rw [Int64.toInt64_toUInt64,Int64.add_comm,Int64.sub_add_cancel]

theorem levelIndex_levelPrice (c : Config) (idx : UInt64) : levelIndex c (levelPrice c idx) = idx := by
  unfold levelPrice levelIndex
  rw [Int64.toUInt64_sub,Int64.toUInt64_add,UInt64.toUInt64_toInt64,UInt64.add_comm,UInt64.add_sub_cancel]

private theorem inBand_iff (price : Price) : inBand c price = true ↔
    c.minPrice.toInt ≤ price.toInt ∧ price.toInt ≤ c.maxPrice.toInt := by
  simp [inBand,Int64.le_iff_toInt_le]

/-- A book whose levels exist: the difference of two prices of the band is exact. -/
def Spanned (c : Config) : Prop := c.levelCount < 2^63

private theorem levelCount_eq (c : Config) :
    (c.levelCount : Int) = c.maxPrice.toInt - c.minPrice.toInt + 1 := by
  have ordered := Int64.le_iff_toInt_le.mp c.ordered
  rw [Config.levelCount]
  omega

private theorem levelIndex_toNat (spanned : Spanned c) {price : Price} (inside : inBand c price = true) :
    ((levelIndex c price).toNat : Int) = price.toInt - c.minPrice.toInt := by
  rw [inBand_iff] at inside
  have count := levelCount_eq c
  have span : c.levelCount < 2^63 := spanned
  have difference : (price - c.minPrice).toInt = price.toInt - c.minPrice.toInt := by
    rw [Int64.toInt_sub]
    exact Int.bmod_eq_of_le (by omega) (by omega)
  have word := BitVec.toInt_eq_toNat_cond (price - c.minPrice).toBitVec
  change (price - c.minPrice).toInt = _ at word
  change (((price - c.minPrice).toBitVec.toNat : Nat) : Int) = _
  rw [difference] at word
  split at word <;> omega

theorem levelIndex_lt (spanned : Spanned c) {price : Price} (inside : inBand c price = true) :
    (levelIndex c price).toNat < c.levelCount := by
  have place := levelIndex_toNat spanned inside
  have count := levelCount_eq c
  rw [inBand_iff] at inside
  omega

theorem levelPrice_toInt (spanned : Spanned c) {idx : UInt64} (inside : idx.toNat < c.levelCount) :
    (levelPrice c idx).toInt = c.minPrice.toInt + idx.toNat := by
  have count := levelCount_eq c
  have span : c.levelCount < 2^63 := spanned
  have low := c.minPrice.le_toInt
  have high := c.maxPrice.toInt_lt
  have offset : idx.toInt64.toInt = idx.toNat := by
    have word := BitVec.toInt_eq_toNat_cond idx.toInt64.toBitVec
    change idx.toInt64.toInt = if 2*idx.toNat < 2^64 then (idx.toNat : Int) else idx.toNat - 2^64 at word
    rw [word,if_pos (by omega)]
  rw [levelPrice,Int64.toInt_add,offset]
  exact Int.bmod_eq_of_le (by omega) (by omega)

theorem inBand_levelPrice (spanned : Spanned c) {idx : UInt64} (inside : idx.toNat < c.levelCount) :
    inBand c (levelPrice c idx) = true := by
  have count := levelCount_eq c
  rw [inBand_iff,levelPrice_toInt spanned inside]
  omega

private theorem level_setLevel {b : OrderBook c} {side : Side} {idx : UInt64} (inside : idx.toNat < c.levelCount)
    (level : Level) (side' : Side) (idx' : UInt64) : (b.setLevel side idx level).level side' idx' =
      if side' = side ∧ idx' = idx then level else b.level side' idx' := by
  cases side <;> cases side' <;>
    simp [setLevel,OrderBook.level,Store.get_put inside,UInt64.toNat_inj]

@[simp] theorem order_setLevel (b : OrderBook c) (side : Side) (idx : UInt64) (level : Level)
    (slot : UInt32) : (b.setLevel side idx level).order slot = b.order slot := by
  cases side <;> rfl

theorem order_setOrder {b : OrderBook c} {slot : UInt32} (inside : slot.toNat < c.maxOrders)
    (order : Order) (other : UInt32) :
    (b.setOrder slot order).order other = if other = slot then order else b.order other := by
  simp [setOrder,OrderBook.order,Store.get_put inside,UInt32.toNat_inj]

@[simp] theorem level_setOrder (b : OrderBook c) (slot : UInt32) (order : Order) (side : Side)
    (idx : UInt64) : (b.setOrder slot order).level side idx = b.level side idx := by
  cases side <;> rfl

@[simp] theorem freeHead_setLevel (b : OrderBook c) (side : Side) (idx : UInt64) (level : Level) :
    (b.setLevel side idx level).freeHead = b.freeHead := by
  cases side <;> rfl

@[simp] theorem freeHead_setOrder (b : OrderBook c) (slot : UInt32) (order : Order) :
    (b.setOrder slot order).freeHead = b.freeHead := rfl

def after (b : OrderBook c) (side : Side) (idx : UInt64) (slot : UInt32) : UInt32 :=
  if slot = kNullOrder then (b.level side idx).head else (b.order slot).next

def before (b : OrderBook c) (side : Side) (idx : UInt64) (slot : UInt32) : UInt32 :=
  if slot = kNullOrder then (b.level side idx).tail else (b.order slot).prev

def quantities (b : OrderBook c) (slots : List UInt32) : Nat :=
  (slots.map fun slot => (b.order slot).quantity.toNat).sum

/-- The level's list is `slots`, its orders belong there, and its totals are exact. -/
structure Queued (b : OrderBook c) (side : Side) (idx : UInt64) (slots : List UInt32) : Prop where
  linked : Linked (b.after side idx) (b.before side idx) kNullOrder slots
  filed : ∀ slot ∈ slots, (b.order slot).side = side ∧ (b.order slot).price = levelPrice c idx ∧
    0 < (b.order slot).quantity
  count : (b.level side idx).orderCount.toNat = slots.length
  total : (b.level side idx).totalQuantity.toNat = b.quantities slots

section Queue
variable {b b' : OrderBook c} {side : Side} {idx : UInt64} {slots front back : List UInt32} {slot : UInt32}

private theorem quantities_congr (same : ∀ slot ∈ slots, (b'.order slot).quantity = (b.order slot).quantity) :
    b'.quantities slots = b.quantities slots := by
  unfold quantities
  rw [List.map_congr_left (fun slot member => by rw [same slot member])]

private theorem quantities_append (b : OrderBook c) (front back : List UInt32) :
    b.quantities (front ++ back) = b.quantities front+b.quantities back := by
  simp [quantities]

private theorem quantities_cons (b : OrderBook c) (slot : UInt32) (slots : List UInt32) :
    b.quantities (slot::slots) = (b.order slot).quantity.toNat+b.quantities slots := by
  simp [quantities]

private theorem quantities_le (b : OrderBook c) (slots : List UInt32) :
    b.quantities slots ≤ slots.length*(2^32-1) := by
  induction slots with
  | nil => simp [quantities]
  | cons slot rest ih =>
    have bound := (b.order slot).quantity.toNat_lt
    rw [quantities_cons,List.length_cons]
    omega

private theorem quantities_single (b : OrderBook c) (slot : UInt32) :
    b.quantities [slot] = (b.order slot).quantity.toNat := by
  simp [quantities]

/-- With fewer than `2^32` orders a 64-bit total cannot overflow. -/
theorem quantities_add_lt (b : OrderBook c) (few : slots.length+1 < 2^32) (quantity : UInt32) :
    b.quantities slots+quantity.toNat < 2^64 := by
  have bound := quantities_le b slots
  have small := quantity.toNat_lt
  have product : slots.length*(2^32-1) ≤ (2^32-2)*(2^32-1) := Nat.mul_le_mul_right _ (by omega)
  omega

theorem Queued.congr (queued : Queued b side idx slots) (level : b'.level side idx = b.level side idx)
    (orders : ∀ slot ∈ slots, b'.order slot = b.order slot) : Queued b' side idx slots := by
  have proper {slot : UInt32} (member : slot ∈ kNullOrder::slots) (other : slot ≠ kNullOrder) :
      b'.order slot = b.order slot := orders slot (List.mem_of_ne_of_mem other member)
  refine ⟨queued.linked.congr ?_ ?_,?_,?_,?_⟩
  · intro a member
    unfold after
    split
    next => rw [level]
    next other => rw [proper member other]
  · intro a member
    unfold before
    split
    next => rw [level]
    next other => rw [proper member other]
  · intro slot member
    rw [orders slot member]
    exact queued.filed slot member
  · rw [level]
    exact queued.count
  · rw [level,queued.total]
    exact (quantities_congr (fun slot member => by rw [orders slot member])).symm

theorem Queued.tail_mem (queued : Queued b side idx slots) :
    (b.level side idx).tail = kNullOrder ∨ (b.level side idx).tail ∈ slots :=
  List.mem_cons.mp (queued.linked.before_mem (List.mem_cons_self ..))

theorem level_linkBack (inside : idx.toNat < c.levelCount) (slot : UInt32) (side' : Side) (idx' : UInt64) :
    (b.linkBack idx side slot).level side' idx' = if side' = side ∧ idx' = idx then
      {totalQuantity := (b.level side idx).totalQuantity + (b.order slot).quantity.toUInt64
       orderCount := (b.level side idx).orderCount+1
       head := if (b.level side idx).tail ≠ kNullOrder then (b.level side idx).head else slot
       tail := slot}
    else b.level side' idx' := by
  unfold linkBack
  dsimp only
  rw [level_setLevel inside]
  split
  next => rfl
  next => split <;> simp

theorem order_linkBack (inside : slot.toNat < c.maxOrders)
    (tail : (b.level side idx).tail ≠ kNullOrder → (b.level side idx).tail.toNat < c.maxOrders)
    (apart : (b.level side idx).tail ≠ slot) (other : UInt32) :
    (b.linkBack idx side slot).order other =
      if other = slot then {b.order slot with next := kNullOrder, prev := (b.level side idx).tail}
      else if other = (b.level side idx).tail ∧ other ≠ kNullOrder then {b.order other with next := slot}
      else b.order other := by
  unfold linkBack
  dsimp only
  rw [order_setLevel]
  generalize (b.level side idx).tail = last at tail apart
  by_cases none : last = kNullOrder
  · rw [if_neg (by simp [none]),order_setOrder inside]
    by_cases self : other = slot
    · rw [if_pos self,if_pos self]
    · rw [if_neg self,if_neg self,if_neg (fun both => both.2 (both.1.trans none))]
  · rw [if_pos none,order_setOrder (tail none),order_setOrder inside,order_setOrder inside,if_neg apart]
    by_cases here : other = last
    · subst here
      rw [if_pos rfl,if_neg apart,if_pos ⟨rfl,none⟩]
    · rw [if_neg here]
      by_cases self : other = slot
      · rw [if_pos self,if_pos self]
      · rw [if_neg self,if_neg self,if_neg (fun both => here both.1)]

theorem null_outside (c : Config) : ¬ kNullOrder.toNat < c.maxOrders := by
  have small := c.addressable
  simp only [kNullOrder,UInt32.reduceToNat]
  omega

section Push
variable (queued : Queued b side idx slots) (inside : idx.toNat < c.levelCount)
  (within : ∀ slot ∈ slots, slot.toNat < c.maxOrders) (room : slot.toNat < c.maxOrders) (fresh : slot ∉ slots)
include queued within room fresh

private theorem Queued.order_push (a : UInt32) : (b.linkBack idx side slot).order a =
    if a = slot then {b.order slot with next := kNullOrder, prev := (b.level side idx).tail}
    else if a = (b.level side idx).tail ∧ a ≠ kNullOrder then {b.order a with next := slot}
    else b.order a := by
  refine order_linkBack room (fun some_ => within _ (queued.tail_mem.resolve_left some_)) ?_ a
  rintro rfl
  rcases queued.tail_mem with none | member
  · exact null_outside c (none ▸ room)
  · exact fresh member

include inside

private theorem Queued.linked_push : Linked ((b.linkBack idx side slot).after side idx)
    ((b.linkBack idx side slot).before side idx) kNullOrder (slots ++ [slot]) := by
  have proper : slot ≠ kNullOrder := by
    rintro rfl
    exact null_outside c room
  have level := @level_linkBack c b side idx inside slot side idx
  rw [if_pos ⟨rfl,rfl⟩] at level
  have order := queued.order_push within room fresh
  have other {a : UInt32} (member : a ∈ slots) : a ≠ slot := fun same => fresh (same ▸ member)
  have some_ {a : UInt32} (member : a ∈ slots) : a ≠ kNullOrder := queued.linked.reads.ne_null member
  refine queued.linked.push ?_ ?_ ?_ ?_ ?_ ?_
  · rw [List.mem_cons,not_or]
    exact ⟨proper,fresh⟩
  · intro a member
    have last : b.before side idx kNullOrder = (b.level side idx).tail := if_pos rfl
    rw [last]
    unfold after
    by_cases null : a = kNullOrder
    · subst null
      rw [if_pos rfl,if_pos rfl,level]
      dsimp only
      by_cases none : (b.level side idx).tail = kNullOrder
      · rw [if_neg (by simp [none]),if_pos none.symm]
      · rw [if_pos none,if_neg (fun same => none same.symm)]
    · have held := List.mem_of_ne_of_mem null member
      rw [if_neg null,if_neg null,order a,if_neg (other held)]
      by_cases here : a = (b.level side idx).tail
      · rw [if_pos ⟨here,null⟩,if_pos here]
      · rw [if_neg (fun both => here both.1),if_neg here]
  · unfold after
    rw [if_neg proper,order slot,if_pos rfl]
  · intro a member
    unfold before
    rw [if_neg (some_ member),if_neg (some_ member),order a,if_neg (other member)]
    split <;> rfl
  · unfold before
    rw [if_pos rfl,level]
  · unfold before
    rw [if_neg proper,if_pos rfl,order slot,if_pos rfl]

theorem Queued.push (few : slots.length+1 < 2^32)
    (filed : (b.order slot).side = side ∧ (b.order slot).price = levelPrice c idx ∧
      0 < (b.order slot).quantity) :
    Queued (b.linkBack idx side slot) side idx (slots ++ [slot]) := by
  have level := @level_linkBack c b side idx inside slot side idx
  rw [if_pos ⟨rfl,rfl⟩] at level
  -- linking writes the links only
  have keeps (a : UInt32) : (b.linkBack idx side slot).order a =
      {b.order a with
        next := ((b.linkBack idx side slot).order a).next
        prev := ((b.linkBack idx side slot).order a).prev} := by
    rw [queued.order_push within room fresh a]
    split
    next same => rw [same]
    next => split <;> rfl
  refine ⟨queued.linked_push inside within room fresh,?_,?_,?_⟩
  · intro a member
    rw [keeps a]
    rcases List.mem_append.mp member with old | new
    · exact queued.filed a old
    · rw [List.mem_singleton] at new
      rw [new]
      exact filed
  · rw [level,List.length_append,List.length_singleton]
    change ((b.level side idx).orderCount+1).toNat = _
    rw [UInt32.toNat_add,queued.count]
    exact Nat.mod_eq_of_lt few
  · have same : (b.linkBack idx side slot).quantities (slots ++ [slot]) = b.quantities (slots ++ [slot]) :=
      quantities_congr (fun a _ => by rw [keeps a])
    rw [same,level,quantities_append,quantities_single]
    change ((b.level side idx).totalQuantity + (b.order slot).quantity.toUInt64).toNat = _
    rw [UInt64.toNat_add,queued.total,UInt32.toNat_toUInt64]
    exact Nat.mod_eq_of_lt (quantities_add_lt b few _)

end Push

theorem level_detach (inside : idx.toNat < c.levelCount) (slot : UInt32) (side' : Side) (idx' : UInt64) :
    (b.detach idx side slot).level side' idx' = if side' = side ∧ idx' = idx then
      {totalQuantity := (b.level side idx).totalQuantity - (b.order slot).quantity.toUInt64
       orderCount := (b.level side idx).orderCount-1
       head := if (b.order slot).prev ≠ kNullOrder then (b.level side idx).head else (b.order slot).next
       tail := if (b.order slot).next ≠ kNullOrder then (b.level side idx).tail else (b.order slot).prev}
    else b.level side' idx' := by
  unfold detach
  dsimp only
  rw [level_setLevel inside]
  split
  next => rfl
  next => split <;> split <;> simp

theorem order_detach (previous : (b.order slot).prev ≠ kNullOrder → (b.order slot).prev.toNat < c.maxOrders)
    (following : (b.order slot).next ≠ kNullOrder → (b.order slot).next.toNat < c.maxOrders)
    (other : UInt32) :
    (b.detach idx side slot).order other =
      {b.order other with
        next := if other = (b.order slot).prev ∧ other ≠ kNullOrder then (b.order slot).next
          else (b.order other).next
        prev := if other = (b.order slot).next ∧ other ≠ kNullOrder then (b.order slot).prev
          else (b.order other).prev} := by
  unfold detach
  dsimp only
  rw [order_setLevel]
  generalize (b.order slot).prev = pred at previous
  generalize (b.order slot).next = succ at following
  generalize first : (if pred ≠ kNullOrder then b.setOrder pred {b.order pred with next := succ} else b) = b₁
  have order₁ (other : UInt32) : b₁.order other = {b.order other with
      next := if other = pred ∧ other ≠ kNullOrder then succ else (b.order other).next} := by
    rw [← first]
    split
    next some_ =>
      rw [order_setOrder (previous some_)]
      by_cases here : other = pred
      · subst here
        rw [if_pos rfl,if_pos ⟨rfl,some_⟩]
      · rw [if_neg here,if_neg (fun both => here both.1)]
    next none =>
      rw [not_not] at none
      rw [if_neg (fun both => both.2 (both.1.trans none))]
  split
  next some_ =>
    rw [order_setOrder (following some_)]
    by_cases here : other = succ
    · subst here
      simp [order₁ other,some_]
    · simp [order₁ other,here]
  next none =>
    rw [not_not] at none
    have away : ¬ (other = succ ∧ other ≠ kNullOrder) := fun both => both.2 (both.1.trans none)
    rw [order₁ other,if_neg away]

theorem Queued.remove (queued : Queued b side idx (front ++ slot::back)) (inside : idx.toNat < c.levelCount)
    (within : ∀ a ∈ front ++ slot::back, a.toNat < c.maxOrders) :
    Queued (b.detach idx side slot) side idx (front ++ back) := by
  have member : slot ∈ front ++ slot::back := by simp
  have proper : slot ≠ kNullOrder := queued.linked.reads.ne_null member
  have listed : slot ∈ kNullOrder::(front ++ slot::back) := List.mem_cons_of_mem _ member
  have prev : b.before side idx slot = (b.order slot).prev := if_neg proper
  have next : b.after side idx slot = (b.order slot).next := if_neg proper
  have level := @level_detach c b side idx inside slot side idx
  rw [if_pos ⟨rfl,rfl⟩] at level
  have order := @order_detach c b side idx slot
    (fun some_ => within _ (List.mem_of_ne_of_mem some_ (prev ▸ queued.linked.before_mem listed)))
    (fun some_ => within _ (List.mem_of_ne_of_mem some_ (next ▸ queued.linked.after_mem listed)))
  have keeps (a : UInt32) : ((b.detach idx side slot).order a).quantity = (b.order a).quantity := by
    rw [order a]
  have subset {a : UInt32} (old : a ∈ front ++ back) : a ∈ front ++ slot::back := by
    simp only [List.mem_append,List.mem_cons] at old ⊢
    tauto
  refine ⟨queued.linked.remove ?_ ?_,?_,?_,?_⟩
  · intro a _
    rw [prev,next]
    unfold after
    by_cases null : a = kNullOrder
    · subst null
      rw [if_pos rfl,if_pos rfl,level]
      dsimp only
      by_cases none : (b.order slot).prev = kNullOrder
      · rw [if_neg (by simp [none]),if_pos none.symm]
      · rw [if_pos none,if_neg (fun same => none same.symm)]
    · rw [if_neg null,if_neg null,order a]
      simp only [null,ne_eq,not_false_eq_true,and_true]
  · intro a _
    rw [prev,next]
    unfold before
    by_cases null : a = kNullOrder
    · subst null
      rw [if_pos rfl,if_pos rfl,level]
      dsimp only
      by_cases none : (b.order slot).next = kNullOrder
      · rw [if_neg (by simp [none]),if_pos none.symm]
      · rw [if_pos none,if_neg (fun same => none same.symm)]
    · rw [if_neg null,if_neg null,order a]
      simp only [null,ne_eq,not_false_eq_true,and_true]
  · intro a old
    rw [order a]
    exact queued.filed a (subset old)
  · have count := queued.count
    rw [List.length_append,List.length_cons] at count
    rw [level,List.length_append]
    change ((b.level side idx).orderCount-1).toNat = _
    rw [UInt32.toNat_sub_of_le]
    · change (b.level side idx).orderCount.toNat - 1 = _
      omega
    · rw [UInt32.le_iff_toNat_le]
      change 1 ≤ _
      omega
  · have total := queued.total
    rw [quantities_append,quantities_cons] at total
    rw [quantities_congr (fun a _ => keeps a),level,quantities_append]
    change ((b.level side idx).totalQuantity - (b.order slot).quantity.toUInt64).toNat = _
    rw [UInt64.toNat_sub_of_le,UInt32.toNat_toUInt64]
    · omega
    · rw [UInt64.le_iff_toNat_le,UInt32.toNat_toUInt64]
      omega

theorem level_shrinkOrder {cut rest : UInt32}
    (inside : (levelIndex c (b.order slot).price).toNat < c.levelCount) (side' : Side) (idx' : UInt64) :
    (b.shrinkOrder slot cut rest).level side' idx' =
      if side' = (b.order slot).side ∧ idx' = levelIndex c (b.order slot).price then
        {b.level side' idx' with totalQuantity := (b.level side' idx').totalQuantity - cut.toUInt64}
      else b.level side' idx' := by
  unfold shrinkOrder
  dsimp only
  rw [level_setOrder,level_setLevel inside]
  split
  next same => rw [same.1,same.2]
  next => rfl

theorem order_shrinkOrder {cut rest : UInt32} (room : slot.toNat < c.maxOrders) (other : UInt32) :
    (b.shrinkOrder slot cut rest).order other =
      if other = slot then {b.order slot with quantity := rest} else b.order other := by
  unfold shrinkOrder
  dsimp only
  rw [order_setOrder room,order_setLevel]

theorem Queued.shrink {cut rest : UInt32} (queued : Queued b side idx slots)
    (inside : idx.toNat < c.levelCount) (room : slot.toNat < c.maxOrders) (member : slot ∈ slots)
    (positive : 0 < rest) (exact_ : cut.toNat+rest.toNat = (b.order slot).quantity.toNat) :
    Queued (b.shrinkOrder slot cut rest) side idx slots := by
  obtain ⟨sideEq,priceEq,_⟩ := queued.filed slot member
  have place : levelIndex c (b.order slot).price = idx := by rw [priceEq,levelIndex_levelPrice]
  have level := @level_shrinkOrder c b slot cut rest (by rw [place]; exact inside) side idx
  rw [if_pos ⟨sideEq.symm,place.symm⟩] at level
  have order := @order_shrinkOrder c b slot cut rest room
  have links (a : UInt32) : ((b.shrinkOrder slot cut rest).order a).next = (b.order a).next ∧
      ((b.shrinkOrder slot cut rest).order a).prev = (b.order a).prev := by
    rw [order a]
    split
    next same => rw [same]; exact ⟨rfl,rfl⟩
    next => exact ⟨rfl,rfl⟩
  refine ⟨queued.linked.congr ?_ ?_,?_,?_,?_⟩
  · intro a _
    unfold after
    rw [level,(links a).1]
  · intro a _
    unfold before
    rw [level,(links a).2]
  · intro a held
    rw [order a]
    split
    next => exact ⟨sideEq,priceEq,positive⟩
    next => exact queued.filed a held
  · rw [level]
    exact queued.count
  · obtain ⟨front,back,rfl⟩ := List.append_of_mem member
    have distinct := (List.nodup_cons.mp queued.linked.distinct).2
    rw [List.nodup_middle,List.nodup_cons,List.mem_append,not_or] at distinct
    have other {list : List UInt32} (absent : slot ∉ list) :
        (b.shrinkOrder slot cut rest).quantities list = b.quantities list :=
      quantities_congr (fun a held => by rw [order a,if_neg (by rintro rfl; exact absent held)])
    have total := queued.total
    rw [quantities_append,quantities_cons] at total
    rw [level,quantities_append,quantities_cons,other distinct.1.1,other distinct.1.2,order slot,if_pos rfl]
    change ((b.level side idx).totalQuantity - cut.toUInt64).toNat = _
    rw [UInt64.toNat_sub_of_le,UInt32.toNat_toUInt64]
    · dsimp only
      omega
    · rw [UInt64.le_iff_toNat_le,UInt32.toNat_toUInt64]
      omega

end Queue

end Llte.OrderBook
