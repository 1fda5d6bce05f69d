import Llte.BookBenchmark
import Llte.OrderFlow

/-! The benchmark's workload. Its vector of live ids is not told when an execute fills an
order, so the workload may name orders that are gone; an add never does. -/
namespace Llte
open Foundation

/-- The draws of one round, which uses some of them. The draw of `offset` is `step` less 40,
and `pick` is reduced to the size of the live vector. -/
structure WorkloadDraws where
  roll : Nat
  side : Side
  step : Nat
  lot : Nat
  pick : Nat
  stepHigh : step ≤ 80
  lotLow : 1 ≤ lot
  lotHigh : lot ≤ 20

namespace WorkloadDraws

def offset (d : WorkloadDraws) : Int64 := Int64.ofNat d.step - 40

def lots (d : WorkloadDraws) : UInt32 := UInt32.ofNat d.lot

end WorkloadDraws

/-- What the loop of `build_workload` keeps besides the operations. -/
structure Workload where
  live : List UInt64 := []
  nextId : UInt64 := 1

namespace Workload

/-- The branch that adds. -/
def add (w : Workload) (d : WorkloadDraws) : Operation × Workload :=
  (⟨.add,d.side,w.nextId,18750 + d.offset + (if d.side = .buy then -2 else 2),d.lots * 10⟩,
    {live := w.live ++ [w.nextId], nextId := w.nextId+1})

/-- One round of the loop: the operation that is pushed back. -/
def next (w : Workload) (d : WorkloadDraws) : Operation × Workload :=
  let index := d.pick % w.live.length
  match w.live[index]? with
  -- the vector is empty
  | none => w.add d
  | some id =>
    if d.roll < 60 then w.add d
    else if d.roll < 80 then
      (⟨.cancel,.buy,id,0,0⟩,{w with live := swapPop w.live index})
    else if d.roll < 92 then (⟨.modify,.buy,id,18750 + d.offset,d.lots * 10⟩,w)
    else (⟨.execute,.buy,id,0,d.lots * 5⟩,w)

/-- The operations of `build_workload`, from the first to the last. -/
def build : List WorkloadDraws → Workload → List Operation
  | [],_ => []
  | d::rest,w => (w.next d).1::build rest (w.next d).2

/-- The vector of live ids never gets longer than the pool of the preallocated book. -/
def Fits : List WorkloadDraws → Workload → Prop
  | [],_ => True
  | d::rest,w => (w.next d).2.live.length ≤ exchangeBook.maxOrders ∧ Fits rest (w.next d).2

instance fits : (draws : List WorkloadDraws) → (w : Workload) → Decidable (Fits draws w)
  | [],_ => isTrue trivial
  | d::rest,w =>
    have := fits rest (w.next d).2
    inferInstanceAs (Decidable (_ ∧ Fits rest (w.next d).2))

end Workload

namespace WorkloadDraws

private theorem add_inside (d : WorkloadDraws) :
    OrderBook.inBand exchangeBook (18750 + d.offset + (if d.side = .buy then -2 else 2)) := by
  have range : ∀ step < 81, OrderBook.inBand exchangeBook (18750 + (Int64.ofNat step - 40) + -2) ∧
      OrderBook.inBand exchangeBook (18750 + (Int64.ofNat step - 40) + 2) := by decide +kernel
  obtain ⟨bought,sold⟩ := range d.step (Nat.lt_succ_of_le d.stepHigh)
  split
  next => exact bought
  next => exact sold

private theorem modify_inside (d : WorkloadDraws) : OrderBook.inBand exchangeBook (18750 + d.offset) := by
  have range : ∀ step < 81, OrderBook.inBand exchangeBook (18750 + (Int64.ofNat step - 40)) := by decide
  exact range d.step (Nat.lt_succ_of_le d.stepHigh)

private theorem lots_ne_zero (d : WorkloadDraws) : d.lots * 10 ≠ 0 ∧ d.lots * 5 ≠ 0 := by
  have range : ∀ lot < 21, 1 ≤ lot → UInt32.ofNat lot * 10 ≠ 0 ∧ UInt32.ofNat lot * 5 ≠ 0 := by decide
  exact range d.lot (Nat.lt_succ_of_le d.lotHigh) d.lotLow

end WorkloadDraws

namespace Workload
variable {w : Workload} {a : PriceTimeBook} {b : OrderBook exchangeBook} {d : WorkloadDraws}

/-- Every order of the book is in the vector, under an id that was given out. -/
structure Follows (w : Workload) (a : PriceTimeBook) : Prop where
  given : 1 ≤ w.nextId.toNat
  listed : ∀ key o, a.find key = some o → key ∈ w.live
  below : ∀ key o, a.find key = some o → key.toNat < w.nextId.toNat

theorem Follows.count (follows : Follows w a) : a.orders.length ≤ w.live.length := by
  have inside : a.orders.map RestingOrder.id ⊆ w.live := by
    intro id member
    obtain ⟨o,held,rfl⟩ := List.mem_map.mp member
    exact follows.listed o.id o (PriceTimeBook.find_of_mem held)
  have counted := (a.distinct.subperm inside).length_le
  rwa [List.length_map] at counted

private theorem next_ne_zero (given : 1 ≤ w.nextId.toNat) : w.nextId ≠ 0 := by
  intro zero
  rw [zero] at given
  exact absurd given (by decide)

theorem Follows.absent (follows : Follows w a) : a.find w.nextId = none := by
  rw [← Option.not_isSome_iff_eq_none]
  intro held
  obtain ⟨o,found⟩ := Option.isSome_iff_exists.mp held
  exact Nat.lt_irrefl _ (follows.below _ o found)

private theorem Follows.enters (follows : Follows w a) (small : w.nextId.toNat+1 < 2^64) {o : RestingOrder} (new : o.id = w.nextId) :
    Follows {live := w.live ++ [w.nextId], nextId := w.nextId+1} (a.place o) := by
  have next := succ_toNat small
  have finds := PriceTimeBook.find_perm (PriceTimeBook.perm_place a o)
  refine ⟨?_,?_,?_⟩
  · dsimp only
    omega
  · intro key held found
    rw [finds,new] at found
    split at found
    next same => exact List.mem_append_right _ (List.mem_singleton.mpr same)
    next => exact List.mem_append_left _ (follows.listed key held found)
  · intro key held found
    rw [finds,new] at found
    dsimp only
    split at found
    next same =>
      rw [same]
      omega
    next =>
      have before := follows.below key held found
      omega

/-- A call that takes the order away, changes it or finds nothing. -/
theorem Follows.shrinks {a' : PriceTimeBook} (follows : Follows w a) {live : List UInt64}
    (kept : ∀ key o, a'.find key = some o → (∃ o, a.find key = some o) ∧ (key ∈ w.live → key ∈ live)) :
    Follows {w with live := live} a' := by
  refine ⟨follows.given,?_,?_⟩
  · intro key o found
    obtain ⟨⟨o',held⟩,stays⟩ := kept key o found
    exact stays (follows.listed key o' held)
  · intro key o found
    obtain ⟨⟨o',held⟩,_⟩ := kept key o found
    exact follows.below key o' held

private theorem Follows.cancels (follows : Follows w a) {index : Nat} {id : UInt64} (found : w.live[index]? = some id) :
    Follows {w with live := swapPop w.live index} (a.cancel id).2 := by
  refine follows.shrinks fun key o held => ?_
  rw [PriceTimeBook.find_cancel] at held
  split at held
  next => simp at held
  next other => exact ⟨⟨o,held⟩,fun member => mem_swapPop_of_ne found member other⟩

private theorem Follows.modifies (follows : Follows w a) (id : UInt64) (d : WorkloadDraws) :
    Follows w (a.modify exchangeBook id (18750 + d.offset) (d.lots * 10)).2 := by
  refine follows.shrinks fun key o held => ⟨?_,fun member => member⟩
  rw [PriceTimeBook.find_modify id d.lots_ne_zero.1 (of_decide_eq_true d.modify_inside)] at held
  split at held
  next same =>
    obtain ⟨o',before,_⟩ := Option.map_eq_some_iff.mp held
    exact ⟨o',same ▸ before⟩
  next => exact ⟨o,held⟩

-- an order that is filled stays in the vector
private theorem Follows.executes (follows : Follows w a) (id : UInt64) (d : WorkloadDraws) :
    Follows w (a.execute id (d.lots * 5)).2 := by
  refine follows.shrinks fun key o held => ⟨?_,fun member => member⟩
  rw [PriceTimeBook.find_execute id d.lots_ne_zero.2] at held
  split at held
  next same =>
    obtain ⟨o',before,_⟩ := Option.bind_eq_some_iff.mp held
    exact ⟨o',same ▸ before⟩
  next => exact ⟨o,held⟩

/-- What a round does: the book's call is admissible and the vector follows. -/
structure Rounds (b : OrderBook exchangeBook) (a : PriceTimeBook) (w : Workload) (round : Operation × Workload) : Prop where
  admissible : round.1.Admissible b
  follows : Follows round.2 (a.step exchangeBook round.1.call).2
  given : round.2.nextId.toNat ≤ w.nextId.toNat+1

private theorem add_rounds (agree : OrderBook.Represents b a) (follows : Follows w a) (small : w.nextId.toNat+1 < 2^64)
    (room : w.live.length < exchangeBook.maxOrders) (d : WorkloadDraws) : Rounds b a w (w.add d) := by
  obtain ⟨free,queue,sound,shows_⟩ := agree
  have queries := OrderBook.agrees sound shows_
  have count := Nat.lt_of_le_of_lt follows.count room
  have proper := next_ne_zero follows.given
  have accepts : PriceTimeBook.Accepts exchangeBook a ⟨w.nextId,d.side,_,d.lots * 10⟩ :=
    ⟨proper,d.lots_ne_zero.1,of_decide_eq_true d.add_inside,follows.absent,count⟩
  refine ⟨⟨proper,?_,d.add_inside,d.lots_ne_zero.1,?_⟩,?_,Nat.le_of_eq (succ_toNat small)⟩
  · rw [queries.contains]
    simp [PriceTimeBook.contains,add,follows.absent]
  · rw [queries.liveOrderCount]
    exact count
  · rw [show (a.step exchangeBook (w.add d).1.call).2 = a.place _ from
      congrArg Prod.snd (PriceTimeBook.add_accepted accepts)]
    exact follows.enters small rfl

private theorem next_rounds (agree : OrderBook.Represents b a) (follows : Follows w a) (small : w.nextId.toNat+1 < 2^64)
    (room : (w.next d).2.live.length ≤ exchangeBook.maxOrders) : Rounds b a w (w.next d) := by
  have added (room : (w.add d).2.live.length ≤ exchangeBook.maxOrders) : Rounds b a w (w.add d) := by
    refine add_rounds agree follows small ?_ d
    rwa [add,List.length_append,List.length_singleton] at room
  unfold next at room ⊢
  dsimp only at room ⊢
  split
  next empty =>
    rw [empty] at room
    exact added room
  next id found =>
    rw [found] at room
    dsimp only at room
    split
    next low =>
      rw [if_pos low] at room
      exact added room
    next =>
      split
      next => exact ⟨trivial,follows.cancels found,Nat.le_succ _⟩
      next =>
        split
        next => exact ⟨⟨d.modify_inside,d.lots_ne_zero.1⟩,follows.modifies id d,Nat.le_succ _⟩
        next => exact ⟨d.lots_ne_zero.2,follows.executes id d,Nat.le_succ _⟩

private theorem build_admissible (draws : List WorkloadDraws) (agree : OrderBook.Represents b a) (follows : Follows w a)
    (fits : Fits draws w) (small : w.nextId.toNat + draws.length < 2^64) : AllAdmissible (build draws w) b := by
  -- the book has no more orders than the vector has ids, so a vector that fits leaves room for an add
  induction draws generalizing w b a with
  | nil => trivial
  | cons d rest ih =>
    obtain ⟨room,later⟩ := fits
    rw [List.length_cons] at small
    have round := next_rounds agree follows (by omega) room
    obtain ⟨b',stepped,agree'⟩ := OrderBook.step_refines agree (w.next d).1.call
    have given := round.given
    refine ⟨round.admissible,?_⟩
    rw [stepped]
    exact ih agree' round.follows later (by omega)

private theorem next_length (w : Workload) (d : WorkloadDraws) : (w.next d).2.live.length ≤ w.live.length+1 := by
  unfold next
  dsimp only
  split
  next => simp [add]
  next =>
    split
    next => simp [add]
    next =>
      split
      next => exact (length_swapPop_le _ _).trans (Nat.le_succ _)
      next => split <;> exact Nat.le_succ _

/-- A workload of no more operations than the pool has nodes. -/
theorem Fits.short (draws : List WorkloadDraws) (few : w.live.length + draws.length ≤ exchangeBook.maxOrders) :
    Fits draws w := by
  induction draws generalizing w with
  | nil => trivial
  | cons d rest ih =>
    have grown := w.next_length d
    rw [List.length_cons] at few
    exact ⟨by omega,ih (by omega)⟩

theorem Follows.start : Follows {} PriceTimeBook.empty := by
  refine ⟨by decide,?_,?_⟩ <;>
  · intro key o found
    exact absurd found (by simp [PriceTimeBook.find,PriceTimeBook.empty])

end Workload

/-- Over every workload that the benchmark can build, as long as its vector of live ids
fits the pool, no add is refused, and both books return, hold the same orders and
quantities at every price, and have the same best prices. -/
theorem workload_fair {b₀ : OrderBook exchangeBook} (created : OrderBook.create exchangeBook = some b₀)
    (draws : List WorkloadDraws) (fits : Workload.Fits draws {}) (small : draws.length+1 < 2^64) :
    AllAdmissible (Workload.build draws {}) b₀ ∧
    ∃ b n, runPreallocated (Workload.build draws {}) b₀ = some b ∧ runNodeBased (Workload.build draws {}) {} = some n ∧
      (∀ side price, (n.quotes side price).Perm (b.quotes side price)) ∧
      NodeBook.Corresponds n.bestBid b.bestBid ∧ NodeBook.Corresponds n.bestAsk b.bestAsk := by
  have empty := OrderBook.create_represents created
  have admissible := Workload.build_admissible draws empty Workload.Follows.start fits
    (by change 1 + draws.length < 2^64; omega)
  obtain ⟨b,n,a,one,two,agree,same⟩ := run_same _ empty NodeBook.Same.empty admissible
  have above (o : RestingOrder) (member : o ∈ a.orders) : 0 < o.price :=
    Int64.lt_of_lt_of_le (by decide) (agree.valid o member).2.1
  refine ⟨admissible,b,n,one,two,?_,?_⟩
  · rw [agree.quotes]
    exact same.quotes_perm
  · obtain ⟨free,queue,sound,shows_⟩ := agree
    have queries := OrderBook.agrees sound shows_
    rw [queries.bestBid,queries.bestAsk]
    exact ⟨same.bestBid above,same.bestAsk above⟩

/-- Order 1 is filled and then named by a modify and a cancel; order 2 stays. -/
theorem workload_fair_filled :
    Workload.build [⟨95,.buy,0,1,0,by decide,by decide,by decide⟩,⟨99,.buy,0,20,7,by decide,by decide,by decide⟩,
      ⟨85,.buy,80,2,3,by decide,by decide,by decide⟩,⟨10,.sell,40,3,0,by decide,by decide,by decide⟩,
      ⟨60,.buy,0,1,2,by decide,by decide,by decide⟩] {} =
      [⟨.add,.buy,1,18708,10⟩,⟨.execute,.buy,1,0,100⟩,⟨.modify,.buy,1,18790,20⟩,⟨.add,.sell,2,18752,30⟩,⟨.cancel,.buy,1,0,0⟩] ∧
    ∃ b₀ b n, OrderBook.create exchangeBook = some b₀ ∧
      runPreallocated [⟨.add,.buy,1,18708,10⟩,⟨.execute,.buy,1,0,100⟩,⟨.modify,.buy,1,18790,20⟩,⟨.add,.sell,2,18752,30⟩,
        ⟨.cancel,.buy,1,0,0⟩] b₀ = some b ∧
      runNodeBased [⟨.add,.buy,1,18708,10⟩,⟨.execute,.buy,1,0,100⟩,⟨.modify,.buy,1,18790,20⟩,⟨.add,.sell,2,18752,30⟩,
        ⟨.cancel,.buy,1,0,0⟩] {} = some n ∧
      NodeBook.Corresponds n.bestBid b.bestBid ∧ NodeBook.Corresponds n.bestAsk b.bestAsk := by
  have created : OrderBook.create exchangeBook = some _ := if_pos (by decide)
  obtain ⟨_,b,n,one,two,_,best⟩ := workload_fair created
    [⟨95,.buy,0,1,0,by decide,by decide,by decide⟩,⟨99,.buy,0,20,7,by decide,by decide,by decide⟩,
      ⟨85,.buy,80,2,3,by decide,by decide,by decide⟩,⟨10,.sell,40,3,0,by decide,by decide,by decide⟩,
      ⟨60,.buy,0,1,2,by decide,by decide,by decide⟩] (Workload.Fits.short _ (by decide)) (by decide)
  exact ⟨rfl,_,b,n,created,one,two,best⟩

namespace Workload
variable {w : Workload} {a : PriceTimeBook} {n : NodeBook} {d : WorkloadDraws}

private theorem next_adds (low : d.roll < 60) : w.next d = w.add d := by
  unfold next
  dsimp only
  split
  next => rfl
  next => rw [if_pos low]

/-- After adds alone: the ids that were given out are in the node-based book, and those of
them that the pool had room for in the other. -/
structure Piles (w : Workload) (a : PriceTimeBook) (n : NodeBook) : Prop where
  given : 1 ≤ w.nextId.toNat
  count : a.orders.length = min (w.nextId.toNat-1) exchangeBook.maxOrders
  held : ∀ id, (a.find id).isSome ↔ 1 ≤ id.toNat ∧ id.toNat < w.nextId.toNat ∧ id.toNat ≤ exchangeBook.maxOrders
  indexed : ∀ id : UInt64, n.index[id]?.isSome ↔ 1 ≤ id.toNat ∧ id.toNat < w.nextId.toNat

private theorem Piles.accepts_iff (piles : Piles w a n) (d : WorkloadDraws) :
    PriceTimeBook.Accepts exchangeBook a
      ⟨w.nextId,d.side,18750 + d.offset + (if d.side = .buy then -2 else 2),d.lots * 10⟩ ↔
      w.nextId.toNat ≤ exchangeBook.maxOrders := by
  have given := piles.given
  have count := piles.count
  constructor
  · intro accepts
    have room := accepts.room
    omega
  · intro room
    refine ⟨next_ne_zero given,d.lots_ne_zero.1,of_decide_eq_true d.add_inside,?_,?_⟩
    · rw [← Option.not_isSome_iff_eq_none,piles.held]
      dsimp only
      omega
    · omega

theorem Piles.adds (piles : Piles w a n) (small : w.nextId.toNat+1 < 2^64) (d : WorkloadDraws) :
    ∃ n', n.apply (w.add d).1 = some n' ∧ Piles (w.add d).2 (a.step exchangeBook (w.add d).1.call).2 n' := by
  have given := piles.given
  have count := piles.count
  have next : (w.add d).2.nextId.toNat = w.nextId.toNat+1 := succ_toNat small
  have same (id : UInt64) : id = w.nextId ↔ id.toNat = w.nextId.toNat := UInt64.toNat_inj.symm
  have indexed (id : UInt64) : (n.add w.nextId d.side (w.add d).1.price (d.lots * 10)).index[id]?.isSome ↔
      1 ≤ id.toNat ∧ id.toNat < (w.add d).2.nextId.toNat := by
    rw [NodeBook.index_add,next]
    split
    next new =>
      have := (same id).mp new
      simp only [Option.isSome_some,true_iff]
      omega
    next old =>
      have := mt (same id).mpr old
      rw [piles.indexed]
      omega
  refine ⟨_,rfl,?_⟩
  rcases PriceTimeBook.add_cases exchangeBook a
    ⟨w.nextId,d.side,18750 + d.offset + (if d.side = .buy then -2 else 2),d.lots * 10⟩ with accepts | ⟨result,bad,refused⟩
  · have room := (piles.accepts_iff d).mp accepts
    have entered : (a.step exchangeBook (w.add d).1.call).2 = a.place _ :=
      congrArg Prod.snd (PriceTimeBook.add_accepted accepts)
    rw [entered]
    refine ⟨by omega,?_,?_,indexed⟩
    · rw [(PriceTimeBook.perm_enter accepts).length_eq,List.length_cons]
      omega
    · intro id
      rw [PriceTimeBook.find_perm (PriceTimeBook.perm_place a _),next]
      dsimp only
      by_cases new : id = w.nextId
      · have := (same id).mp new
        rw [if_pos new]
        simp only [Option.isSome_some,true_iff]
        omega
      · have := mt (same id).mpr new
        rw [if_neg new,piles.held]
        omega
  · have full : ¬ w.nextId.toNat ≤ exchangeBook.maxOrders := by
      intro room
      have accepted := PriceTimeBook.add_accepted ((piles.accepts_iff d).mpr room)
      rw [refused] at accepted
      exact bad (congrArg Prod.fst accepted)
    have stays : (a.step exchangeBook (w.add d).1.call).2 = a := congrArg Prod.snd refused
    rw [stays]
    refine ⟨by omega,by omega,?_,indexed⟩
    intro id
    rw [piles.held]
    omega

theorem Piles.start : Piles {} .empty {} := by
  have one : ({} : Workload).nextId.toNat = 1 := rfl
  refine ⟨Nat.le_refl _,rfl,?_,?_⟩
  · intro id
    have absent : PriceTimeBook.empty.find id = none := rfl
    rw [absent,one]
    simp only [Option.isSome_none,Bool.false_eq_true,false_iff]
    omega
  · intro id
    have absent : ({} : NodeBook).index[id]? = none := by simp
    rw [absent,one]
    simp only [Option.isSome_none,Bool.false_eq_true,false_iff]
    omega

private theorem Piles.build (draws : List WorkloadDraws) (adds : ∀ d ∈ draws, d.roll < 60) {b : OrderBook exchangeBook}
    (agree : OrderBook.Represents b a) (piles : Piles w a n) (small : w.nextId.toNat + draws.length < 2^64) :
    ∃ b' n' w' a', runPreallocated (build draws w) b = some b' ∧ runNodeBased (build draws w) n = some n' ∧
      OrderBook.Represents b' a' ∧ Piles w' a' n' ∧ w'.nextId.toNat = w.nextId.toNat + draws.length := by
  induction draws generalizing w b a n with
  | nil => exact ⟨b,n,w,a,rfl,rfl,agree,piles,rfl⟩
  | cons d rest ih =>
    rw [List.length_cons] at small
    rw [List.forall_mem_cons] at adds
    have next : (w.add d).2.nextId.toNat = w.nextId.toNat+1 := succ_toNat (by omega)
    obtain ⟨n₁,applied,piles₁⟩ := piles.adds (by omega) d
    obtain ⟨b₁,stepped,agree₁⟩ := OrderBook.step_refines agree (w.add d).1.call
    obtain ⟨b',n',w',a',one,two,agree',piles',reached⟩ := ih adds.2 agree₁ piles₁ (by omega)
    refine ⟨b',n',w',a',?_,?_,agree',piles',?_⟩
    · rw [Workload.build,next_adds adds.1,runPreallocated,stepped]
      exact one
    · rw [Workload.build,next_adds adds.1,runNodeBased,applied]
      exact two
    · rw [reached,next,List.length_cons]
      omega

end Workload

/-- A workload of adds alone, of any length: the node-based book ends with every order of
it, the preallocated book with the first ones, as many as the pool has nodes. -/
theorem adds_held {b₀ : OrderBook exchangeBook} (created : OrderBook.create exchangeBook = some b₀)
    (draws : List WorkloadDraws) (adds : ∀ d ∈ draws, d.roll < 60) (small : draws.length+1 < 2^64) :
    ∃ b n, runPreallocated (Workload.build draws {}) b₀ = some b ∧ runNodeBased (Workload.build draws {}) {} = some n ∧
      b.liveOrderCount.toNat = min draws.length exchangeBook.maxOrders ∧
      (∀ id, b.contains id = some (decide (1 ≤ id.toNat ∧ id.toNat ≤ draws.length ∧ id.toNat ≤ exchangeBook.maxOrders))) ∧
      ∀ id : UInt64, n.index[id]?.isSome ↔ 1 ≤ id.toNat ∧ id.toNat ≤ draws.length := by
  have one : ({} : Workload).nextId.toNat = 1 := rfl
  obtain ⟨b,n,w,a,ran,ran',⟨free,queue,sound,shows_⟩,piles,reached⟩ := Workload.Piles.build draws adds
    (OrderBook.create_represents created) Workload.Piles.start (by omega)
  have queries := OrderBook.agrees sound shows_
  rw [one] at reached
  refine ⟨b,n,ran,ran',?_,?_,?_⟩
  · rw [queries.liveOrderCount,piles.count,reached]
    omega
  · intro id
    rw [queries.contains,PriceTimeBook.contains,Option.some.injEq,Bool.eq_iff_iff,decide_eq_true_iff,piles.held,reached]
    omega
  · intro id
    rw [piles.indexed,reached]
    omega

/-- One add more than the pool has nodes. -/
theorem adds_held_full : ∃ b₀ b n, OrderBook.create exchangeBook = some b₀ ∧
    runPreallocated (Workload.build (List.replicate (2^20+1) ⟨0,.buy,0,1,0,by decide,by decide,by decide⟩) {}) b₀ = some b ∧
    runNodeBased (Workload.build (List.replicate (2^20+1) ⟨0,.buy,0,1,0,by decide,by decide,by decide⟩) {}) {} = some n ∧
    b.contains 1048577 = some false ∧ n.index[(1048577 : UInt64)]?.isSome := by
  have created : OrderBook.create exchangeBook = some _ := if_pos (by decide)
  have size := List.length_replicate (n := 2^20+1)
    (a := (⟨0,.buy,0,1,0,by decide,by decide,by decide⟩ : WorkloadDraws))
  obtain ⟨b,n,one,two,_,holds,indexed⟩ := adds_held created
    (List.replicate (2^20+1) ⟨0,.buy,0,1,0,by decide,by decide,by decide⟩)
    (fun d member => by rw [List.eq_of_mem_replicate member]; exact Nat.zero_lt_succ _) (by rw [size]; decide)
  rw [size] at holds indexed
  exact ⟨_,b,n,created,one,two,holds _,(indexed _).mpr (by decide)⟩

end Llte
