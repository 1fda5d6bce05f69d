import Llte.OrderBookRefines

/-! Whole runs of a new order book: what every reachable book looks like in memory,
and what its queries answer. -/
namespace Llte.OrderBook
open Foundation

variable {c : Config}

/-- The fields of the book hold the free list `free` and the level queues `queue`:
together they take up every pool slot once, and the counts and the index agree with
them. -/
structure Represented (b : OrderBook c) (free : List UInt32) (queue : Side → UInt64 → List UInt32) : Prop where
  freeReads : Reads (fun slot => (b.order slot).next) kNullOrder b.freeHead free
  freeDistinct : free.Nodup
  freeWithin : ∀ slot ∈ free, slot.toNat < c.maxOrders
  queueWithin : ∀ side idx, ∀ slot ∈ queue side idx, slot.toNat < c.maxOrders ∧ idx.toNat < c.levelCount
  queueDistinct : ∀ side idx, (queue side idx).Nodup
  partitioned : ∀ slot, slot.toNat < c.maxOrders → (slot ∈ free ∧ ¬ Resting queue slot) ∨
    (slot ∉ free ∧ ∃! place : Side × UInt64, slot ∈ queue place.1 place.2)
  forward : ∀ side idx, idx.toNat < c.levelCount →
    Reads (fun slot => (b.order slot).next) kNullOrder (b.level side idx).head (queue side idx)
  backward : ∀ side idx, idx.toNat < c.levelCount →
    Reads (fun slot => (b.order slot).prev) kNullOrder (b.level side idx).tail (queue side idx).reverse
  filed : ∀ side idx, ∀ slot ∈ queue side idx, (b.order slot).side = side ∧
    (b.order slot).price = levelPrice c idx ∧ 0 < (b.order slot).quantity
  count : ∀ side idx, idx.toNat < c.levelCount → (b.level side idx).orderCount.toNat = (queue side idx).length
  total : ∀ side idx, idx.toNat < c.levelCount → (b.level side idx).totalQuantity.toNat =
    ((queue side idx).map fun slot => (b.order slot).quantity.toNat).sum
  live : b.liveOrders.toNat+free.length = c.maxOrders
  keyed : ∀ position < c.indexSize.capacity.size, (b.index.get position).key ≠ kEmptyKey →
    (b.index.get position).key = (b.order (b.index.get position).value).id
  indexed : Set.BijOn (fun position => (b.index.get position).value)
    {position | position < c.indexSize.capacity.size ∧ (b.index.get position).key ≠ kEmptyKey}
    {slot | Resting queue slot}

section Representation
variable {b : OrderBook c} {free : List UInt32} {queue : Side → UInt64 → List UInt32}

theorem Queued.forward {side : Side} {idx : UInt64} {slots : List UInt32} (queued : Queued b side idx slots) :
    Reads (fun slot => (b.order slot).next) kNullOrder (b.level side idx).head slots := by
  have reads := queued.linked.reads
  rw [after,if_pos rfl] at reads
  refine reads.congr ?_
  intro slot member
  rw [after,if_neg (reads.ne_null member)]

theorem Queued.backward {side : Side} {idx : UInt64} {slots : List UInt32} (queued : Queued b side idx slots) :
    Reads (fun slot => (b.order slot).prev) kNullOrder (b.level side idx).tail slots.reverse := by
  have reads := queued.linked.reads_back
  rw [before,if_pos rfl] at reads
  refine reads.congr ?_
  intro slot member
  rw [before,if_neg (reads.ne_null member)]

private theorem Sound.partitioned (sound : Sound b free queue) (slot : UInt32) (within : slot.toNat < c.maxOrders) :
    (slot ∈ free ∧ ¬ Resting queue slot) ∨
      (slot ∉ free ∧ ∃! place : Side × UInt64, slot ∈ queue place.1 place.2) := by
  obtain ⟨place,layout,whole⟩ := sound.layout
  cases held : place slot with
  | free =>
    refine .inl ⟨(layout.freeIff slot).mpr ⟨within,held⟩,?_⟩
    rintro ⟨side,idx,member⟩
    have other := layout.placed member
    rw [held] at other
    simp at other
  | resting side idx =>
    refine .inr ⟨?_,(side,idx),(layout.queueIff side idx slot).mpr ⟨within,held⟩,?_⟩
    · rw [layout.freeIff,held]
      simp
    · rintro ⟨side',idx'⟩ member
      have other := layout.placed member
      rw [held] at other
      obtain ⟨rfl,rfl⟩ := Place.resting.inj other
      rfl
  | detached => exact absurd held (whole slot within)

theorem Sound.cell (sound : Sound b free queue) {position : Nat}
    (inside : position < c.indexSize.capacity.size) (occupied : (b.index.get position).key ≠ kEmptyKey) :
    Resting queue (b.index.get position).value ∧
      (b.order (b.index.get position).value).id = (b.index.get position).key :=
  (sound.entries _).mp ⟨position,inside,(OrderIndex.cell_eq_some _ _).mpr ⟨rfl,occupied⟩⟩

theorem Sound.indexed (sound : Sound b free queue) :
    Set.BijOn (fun position => (b.index.get position).value)
      {position | position < c.indexSize.capacity.size ∧ (b.index.get position).key ≠ kEmptyKey}
      {slot | Resting queue slot} := by
  refine ⟨?_,?_,?_⟩
  · intro position occupied
    exact (sound.cell occupied.1 occupied.2).1
  · intro first one second two same
    have keys : (b.index.get first).key = (b.index.get second).key := by
      rw [← (sound.cell one.1 one.2).2,← (sound.cell two.1 two.2).2]
      exact congrArg (fun slot => (b.order slot).id) same
    exact sound.formed.unique first one.1 second two.1 _ _ ((OrderIndex.cell_eq_some _ _).mpr ⟨rfl,one.2⟩)
      ((OrderIndex.cell_eq_some _ _).mpr ⟨rfl,two.2⟩) keys
  · intro slot resting
    obtain ⟨position,inside,held⟩ := (sound.entries ⟨(b.order slot).id,slot⟩).mpr ⟨resting,rfl⟩
    obtain ⟨entry,proper⟩ := (OrderIndex.cell_eq_some _ _).mp held
    refine ⟨position,⟨inside,?_⟩,?_⟩
    · rw [entry]
      exact proper
    · exact congrArg IndexSlot.value entry

theorem Sound.represented (sound : Sound b free queue) : Represented b free queue := by
  have ⟨place,layout,_⟩ := sound.layout
  exact {
    freeReads := layout.reads
    freeDistinct := layout.distinct
    freeWithin := fun slot member => ((layout.freeIff slot).mp member).1
    queueWithin := fun side idx slot member => ⟨layout.within member,layout.range_of_mem member⟩
    queueDistinct := fun side idx => by
      cases vacant : queue side idx with
      | nil => exact List.nodup_nil
      | cons slot rest =>
        rw [← vacant]
        have queued := layout.queued side idx (layout.inRange side idx (by simp [vacant]))
        exact (List.nodup_cons.mp queued.linked.distinct).2
    partitioned := sound.partitioned
    forward := fun side idx range => (layout.queued side idx range).forward
    backward := fun side idx range => (layout.queued side idx range).backward
    filed := fun side idx slot member => by
      obtain ⟨sideEq,_,priceEq,positive⟩ := layout.filed member
      exact ⟨sideEq,priceEq,positive⟩
    count := fun side idx range => (layout.queued side idx range).count
    total := fun side idx range => (layout.queued side idx range).total
    live := sound.live
    keyed := fun position inside occupied => (sound.cell inside occupied).2.symm
    indexed := sound.indexed }

end Representation

/-- Every run of a new book returns, and leaves the pool partitioned between the free
list and the level queues, with exact counts, totals and index. -/
theorem reachable_represented {b₀ : OrderBook c} (created : create c = some b₀) (calls : List Call) :
    ∃ results b, b₀.run calls = some (results,b) ∧ ∃ free queue, Represented b free queue := by
  obtain ⟨b,ran,free,queue,sound,_⟩ := run_refines calls (create_represents created)
  exact ⟨_,b,ran,free,queue,sound.represented⟩

def narrow : Config := ⟨1,3,2,by decide,by decide,by decide⟩

/-- A few prices around the one from which the order flows are drawn. -/
def aroundMid : Config := ⟨18745,18755,6,by decide,by decide,by decide⟩

/-- One order has moved to another price, and behind it a second one rests. -/
theorem reachable_represented_narrow : ∃ b₀, create narrow = some b₀ ∧ ∃ results b,
    b₀.run [.add 7 .buy 2 5,.clear,.add 7 .buy 2 5,.modify 7 3 4,.add 8 .buy 3 2] = some (results,b) ∧
      b.liveOrderCount = 2 ∧ ∃ free queue, Represented b free queue := by
  have checked : ((create narrow).any fun b₀ =>
      (b₀.run [.add 7 .buy 2 5,.clear,.add 7 .buy 2 5,.modify 7 3 4,.add 8 .buy 3 2]).any fun ran =>
        decide (ran.2.liveOrderCount = 2)) = true := by decide +kernel
  obtain ⟨b₀,created,found⟩ := (Option.any_eq_true _ _).mp checked
  obtain ⟨⟨results,b⟩,ran,two⟩ := (Option.any_eq_true _ _).mp found
  obtain ⟨results',b',ran',represented⟩ := reachable_represented created
    [.add 7 .buy 2 5,.clear,.add 7 .buy 2 5,.modify 7 3 4,.add 8 .buy 3 2]
  rw [ran,Option.some.injEq,Prod.mk.injEq] at ran'
  obtain ⟨rfl,rfl⟩ := ran'
  exact ⟨b₀,created,results,b,ran,of_decide_eq_true two,represented⟩

structure Agrees (b : OrderBook c) (a : PriceTimeBook) : Prop where
  bestBid : b.bestBid = a.bestPrice .buy
  bestAsk : b.bestAsk = a.bestPrice .sell
  quantityAt : ∀ side price, (b.quantityAt side price).toNat = a.quantityAt side price
  orderCountAt : ∀ side price, (b.orderCountAt side price).toNat = a.orderCountAt side price
  contains : ∀ orderId, b.contains orderId = some (a.contains orderId)
  liveOrderCount : b.liveOrderCount.toNat = a.orders.length

section Queries
variable {b : OrderBook c} {free : List UInt32} {queue : Side → UInt64 → List UInt32} {a : PriceTimeBook}
  (sound : Sound b free queue) (shows_ : Shows b free queue a)
include sound shows_

private theorem quantityAt_agrees (side : Side) (price : Price) :
    (b.quantityAt side price).toNat = a.quantityAt side price := by
  obtain ⟨place,layout,_⟩ := sound.layout
  rw [PriceTimeBook.quantityAt,shows_.queues,view,OrderBook.quantityAt]
  by_cases inside : inBand c price = true
  · rw [if_neg (not_not.mpr inside),if_pos inside,List.map_map]
    exact (layout.queued side _ (levelIndex_lt sound.spanned inside)).total
  · rw [if_pos inside,if_neg inside]
    rfl

private theorem orderCountAt_agrees (side : Side) (price : Price) :
    (b.orderCountAt side price).toNat = a.orderCountAt side price := by
  obtain ⟨place,layout,_⟩ := sound.layout
  rw [PriceTimeBook.orderCountAt,shows_.queues,view,OrderBook.orderCountAt]
  by_cases inside : inBand c price = true
  · rw [if_neg (not_not.mpr inside),if_pos inside,List.length_map]
    exact (layout.queued side _ (levelIndex_lt sound.spanned inside)).count
  · rw [if_pos inside,if_neg inside]
    rfl

private theorem contains_agrees (orderId : UInt64) : b.contains orderId = some (a.contains orderId) := by
  rw [OrderBook.contains,PriceTimeBook.contains]
  obtain ⟨position,found,⟨absent,fresh⟩ | ⟨present,_,slot,s,i,_,member,rfl,_⟩⟩ := sound.find orderId
  · rw [found,shows_.find_none sound fresh]
    simp [absent]
  · rw [found,shows_.find_some sound member]
    simp [present]

private theorem liveOrderCount_agrees : b.liveOrderCount.toNat = a.orders.length := by
  have live := sound.live
  have count := shows_.count
  rw [liveOrderCount]
  omega

private theorem bestLevel_agrees (side : Side) :
    (if b.bestLevel side = kNoLevel then kNoPrice else levelPrice c (b.bestLevel side)) = a.bestPrice side := by
  obtain ⟨place,layout,_⟩ := sound.layout
  rcases sound.best side with ⟨none_,vacant⟩ | ⟨used,top⟩
  · rw [if_pos none_,PriceTimeBook.bestPrice_none]
    rintro o member rfl
    obtain ⟨slot,held,_⟩ := shows_.exists_slot sound member
    rw [vacant] at held
    simp at held
  · have range := layout.inRange side _ used
    rw [if_neg (level_ne_noLevel sound.spanned range)]
    obtain ⟨slot,member⟩ := List.exists_mem_of_ne_nil _ used
    obtain ⟨sideEq,_,priceEq,_⟩ := layout.filed member
    rw [← priceEq]
    refine (PriceTimeBook.bestPrice_eq (shows_.mem sound member) sideEq ?_).symm
    rintro other found rfl
    obtain ⟨there,held,_⟩ := shows_.exists_slot sound found
    have order := top _ (List.ne_nil_of_mem held)
    have here := levelPrice_toInt sound.spanned range
    have elsewhere := levelPrice_toInt sound.spanned (layout.range_of_mem held)
    rw [levelPrice_levelIndex] at elsewhere
    change PriceTimeBook.NoWorse other.side (b.order slot).price other.price
    rw [priceEq]
    -- prices are in the order of the levels
    revert order here elsewhere
    generalize levelPrice c (b.bestLevel other.side) = price
    generalize b.bestLevel other.side = best
    cases other.side <;> intro order here elsewhere <;>
      simp only [AtLeast,PriceTimeBook.NoWorse,UInt64.le_iff_toNat_le,Int64.le_iff_toInt_le] at order ⊢ <;> omega

theorem agrees : Agrees b a where
  bestBid := bestLevel_agrees sound shows_ .buy
  bestAsk := bestLevel_agrees sound shows_ .sell
  quantityAt := quantityAt_agrees sound shows_
  orderCountAt := orderCountAt_agrees sound shows_
  contains := contains_agrees sound shows_
  liveOrderCount := liveOrderCount_agrees sound shows_

end Queries

/-- Over every run from a new book, each call returns what the price-time book
returns, and then every query agrees. -/
theorem run_agrees {b₀ : OrderBook c} (created : create c = some b₀) (calls : List Call) :
    ∃ b, b₀.run calls = some ((PriceTimeBook.run c calls .empty).1,b) ∧
      Agrees b (PriceTimeBook.run c calls .empty).2 := by
  obtain ⟨b,ran,free,queue,sound,shows_⟩ := run_refines calls (create_represents created)
  exact ⟨b,ran,agrees sound shows_⟩

theorem run_agrees_narrow : ∃ b₀, create narrow = some b₀ ∧
    ∃ b, b₀.run [.add 7 .buy 2 5,.add 8 .buy 3 1,.add 9 .buy 1 1,.execute 8 1] =
      some ([some .ok,some .ok,some .poolExhausted,some .ok],b) ∧
      b.bestBid = 2 ∧ (b.quantityAt .buy 2).toNat = 5 := by
  obtain ⟨b,ran,agree⟩ := run_agrees (c := narrow) (if_pos (by decide))
    [.add 7 .buy 2 5,.add 8 .buy 3 1,.add 9 .buy 1 1,.execute 8 1]
  refine ⟨_,if_pos (by decide),b,ran,?_,?_⟩
  · rw [agree.bestBid]
    decide
  · rw [agree.quantityAt]
    decide

end Llte.OrderBook
