import Llte.Engine
import Llte.Exchange
import Llte.Foundation.SwapPop
import Llte.TimePriority

/-! The exchange's generation loop: random order flow against the authoritative book,
with a vector of the live orders beside it. Every random draw is an input. -/
namespace Llte
open Foundation

def kMinPrice : Price := 18250
def kMaxPrice : Price := 19250
def kMidPrice : Price := 18750

/-- The exchange's own book. -/
def exchangeBook : Config := ⟨kMinPrice,kMaxPrice,2^20,by decide,by decide,by decide⟩

abbrev LiveOrder := RestingOrder

/-- Where a roll between 0 and 1 falls: below 0.60, 0.75, 0.90, or above. -/
inductive Roll where
  | add
  | cancel
  | modify
  | trade

/-- The draws of one round. A round uses some of them; `pick` is reduced to the size
of the live vector. -/
structure Draws where
  roll : Roll
  side : Side
  depth : Nat
  lot : Nat
  pick : Nat
  clock : UInt64
  depthLow : 1 ≤ depth
  depthHigh : depth ≤ 40
  lotLow : 1 ≤ lot
  lotHigh : lot ≤ 20

namespace Draws

def priceFor (d : Draws) : Side → Price
  | .buy => kMidPrice - Int64.ofNat d.depth
  | .sell => kMidPrice + Int64.ofNat d.depth

def quantity (d : Draws) : UInt32 := UInt32.ofNat d.lot * 10

end Draws

structure OrderFlow where
  book : OrderBook exchangeBook
  live : List LiveOrder := []
  nextOrderId : UInt64 := 1

namespace OrderFlow

/-- The message of a round; its number is given to it when it is published. -/
def message (d : Draws) (type : MessageType) (orderId : UInt64) (side : Side) (price : Price)
    (quantity : UInt32) : MarketMessage where
  sequenceNumber := 0
  timestampNs := d.clock
  orderId := orderId
  price := price
  quantity := quantity
  symbolId := 1
  type := type.byte
  side := side.byte

def add (f : OrderFlow) (d : Draws) : Option (MarketMessage × Result × OrderFlow) :=
  let orderId := f.nextOrderId
  let price := d.priceFor d.side
  match f.book.add orderId d.side price d.quantity with
  | none => none
  | some (result,book) =>
    some (message d .add orderId d.side price d.quantity,result,{
      book := book
      live := if result = .ok then f.live ++ [⟨orderId,d.side,price,d.quantity⟩] else f.live
      nextOrderId := f.nextOrderId+1})

def cancel (f : OrderFlow) (d : Draws) (index : Nat) (target : LiveOrder) :
    Option (MarketMessage × Result × OrderFlow) :=
  match f.book.cancel target.id with
  | none => none
  | some (result,book) =>
    some (message d .cancel target.id target.side target.price target.quantity,result,
      {f with book := book, live := swapPop f.live index})

def modify (f : OrderFlow) (d : Draws) (index : Nat) (target : LiveOrder) :
    Option (MarketMessage × Result × OrderFlow) :=
  let price := d.priceFor target.side
  match f.book.modify target.id price d.quantity with
  | none => none
  | some (result,book) =>
    some (message d .modify target.id target.side price d.quantity,result,{f with
      book := book
      live := if result = .ok then f.live.set index {target with price := price, quantity := d.quantity}
        else f.live})

def trade (f : OrderFlow) (d : Draws) (index : Nat) (target : LiveOrder) :
    Option (MarketMessage × Result × OrderFlow) :=
  let fill := if 10 < target.quantity then target.quantity / 2 else target.quantity
  match f.book.execute target.id fill with
  | none => none
  | some (result,book) =>
    some (message d .trade target.id target.side target.price fill,result,{f with
      book := book
      live := if target.quantity ≤ fill then swapPop f.live index
        else f.live.set index {target with quantity := target.quantity - fill}})

/-- One round: its message, the result of its call, and what it leaves behind. -/
def generate (f : OrderFlow) (d : Draws) : Option (MarketMessage × Result × OrderFlow) :=
  let index := d.pick % f.live.length
  match f.live[index]? with
  -- the vector is empty: there is nothing to amend
  | none => f.add d
  | some target =>
    match d.roll with
    | .add => f.add d
    | .cancel => f.cancel d index target
    | .modify => f.modify d index target
    | .trade => f.trade d index target

end OrderFlow

/-- The loop's state. `results` are the results of its calls, one for each message. -/
structure Simulator (cap : Capacity) where
  flow : OrderFlow
  exchange : Exchange cap
  results : List Result := []

namespace Simulator
variable {cap : Capacity}

def create (cap : Capacity) (batch : Nat) (book : OrderBook exchangeBook) : Simulator cap where
  flow := {book := book}
  exchange := Exchange.create cap 1001 batch

def iterate (s : Simulator cap) (d : Draws) : Option (Simulator cap) :=
  match s.flow.generate d with
  | none => none
  | some (content,result,flow) => some ⟨flow,s.exchange.publish content,s.results ++ [result]⟩

/-- The loop over `published < total`; a stop signal is the end of the draws. -/
def loop (total : UInt64) : UInt64 → List Draws → Simulator cap → Option (Simulator cap)
  | _,[],s => some s
  | published,d::rest,s =>
    if published < total then
      match s.iterate d with
      | none => none
      | some s => loop total (published+1) rest s
    else some s

end Simulator

namespace Draws

theorem priceFor_buy (d : Draws) : kMinPrice ≤ d.priceFor .buy ∧ d.priceFor .buy < kMidPrice := by
  have range : ∀ depth < 41, 1 ≤ depth → kMinPrice ≤ kMidPrice - Int64.ofNat depth ∧
      kMidPrice - Int64.ofNat depth < kMidPrice := by decide
  exact range d.depth (Nat.lt_succ_of_le d.depthHigh) d.depthLow

theorem priceFor_sell (d : Draws) : kMidPrice < d.priceFor .sell ∧ d.priceFor .sell ≤ kMaxPrice := by
  have range : ∀ depth < 41, 1 ≤ depth → kMidPrice < kMidPrice + Int64.ofNat depth ∧
      kMidPrice + Int64.ofNat depth ≤ kMaxPrice := by decide
  exact range d.depth (Nat.lt_succ_of_le d.depthHigh) d.depthLow

private theorem priceFor_inside (d : Draws) (side : Side) : kMinPrice ≤ d.priceFor side ∧ d.priceFor side ≤ kMaxPrice := by
  cases side with
  | buy =>
    obtain ⟨low,high⟩ := d.priceFor_buy
    exact ⟨low,Int64.le_trans (Int64.le_of_lt high) (by decide)⟩
  | sell =>
    obtain ⟨low,high⟩ := d.priceFor_sell
    exact ⟨Int64.le_trans (by decide) (Int64.le_of_lt low),high⟩

private theorem quantity_ne_zero (d : Draws) : d.quantity ≠ 0 := by
  have range : ∀ lot < 21, 1 ≤ lot → UInt32.ofNat lot * 10 ≠ 0 := by decide
  exact range d.lot (Nat.lt_succ_of_le d.lotHigh) d.lotLow

end Draws

private theorem perm_eraseIdx {live : List LiveOrder} {index : Nat} {target : LiveOrder} (found : live[index]? = some target) :
    live.Perm (target::live.eraseIdx index) := by
  obtain ⟨inside,rfl⟩ := List.getElem?_eq_some_iff.mp found
  exact (List.getElem_cons_eraseIdx_perm inside).symm

/-- The book is in order, and the live vector holds what rests in it. -/
def OrderFlow.Mirrors (f : OrderFlow) (a : PriceTimeBook) : Prop :=
  OrderBook.Represents f.book a ∧ f.live.Perm a.orders

/-- A round returned: the vector still mirrors the book, the engine would do to the
book what the round did, whatever number the message gets, and only an add can have
failed. -/
structure OrderFlow.Generated (f : OrderFlow) (content : MarketMessage) (result : Result) (f' : OrderFlow) :
    Prop where
  mirrors : ∃ a, f'.Mirrors a
  dispatched : ∀ sequence, Engine.dispatch f.book {content with sequenceNumber := sequence} =
    some (some result,f'.book)
  ok : content.type ≠ MessageType.add.byte → result = .ok

namespace OrderFlow
variable {f : OrderFlow} {a : PriceTimeBook} {index : Nat} {target : LiveOrder}

theorem Mirrors.find (mirrors : f.Mirrors a) (found : f.live[index]? = some target) :
    a.find target.id = some target :=
  PriceTimeBook.find_of_mem (mirrors.2.mem_iff.mp (List.mem_of_getElem? found))

theorem Mirrors.rest (mirrors : f.Mirrors a) (found : f.live[index]? = some target) {rest : List LiveOrder}
    (split : f.live.Perm (target::rest)) : rest.Perm (a.remove target.id).orders := by
  have member := (PriceTimeBook.find_eq_some (mirrors.find found)).1
  exact (split.symm.trans (mirrors.2.trans (PriceTimeBook.perm_remove member))).cons_inv

theorem Mirrors.set (mirrors : f.Mirrors a) (found : f.live[index]? = some target) (changed : LiveOrder) :
    (f.live.set index changed).Perm (changed::(a.remove target.id).orders) := by
  obtain ⟨inside,_⟩ := List.getElem?_eq_some_iff.mp found
  exact (List.set_perm_cons_eraseIdx inside changed).trans ((mirrors.rest found (perm_eraseIdx found)).cons changed)

private theorem add_generated (mirrors : f.Mirrors a) (d : Draws) :
    ∃ content result f', f.add d = some (content,result,f') ∧ f.Generated content result f' := by
  obtain ⟨agree,same⟩ := mirrors
  obtain ⟨b,added,agree'⟩ := OrderBook.add_refines agree f.nextOrderId d.side (d.priceFor d.side) d.quantity
  refine ⟨_,_,_,by rw [add,added],⟨_,agree',?_⟩,?_,?_⟩
  · dsimp only
    rcases PriceTimeBook.add_cases exchangeBook a ⟨f.nextOrderId,d.side,d.priceFor d.side,d.quantity⟩ with
      ok | ⟨result,bad,refused⟩
    · rw [PriceTimeBook.add_accepted ok,if_pos rfl]
      exact ((List.perm_append_singleton _ _).trans (same.cons _)).trans (PriceTimeBook.perm_enter ok).symm
    · rw [refused,if_neg bad]
      exact same
  · intro sequence
    simp [Engine.dispatch,message,MessageType.ofByte_byte,Side.ofByte_byte,added]
  · exact fun other => absurd rfl other

private theorem cancel_generated (mirrors : f.Mirrors a) (d : Draws) (found : f.live[index]? = some target) :
    ∃ content result f', f.cancel d index target = some (content,result,f') ∧ f.Generated content result f' := by
  obtain ⟨b,cancelled,agree'⟩ := OrderBook.cancel_refines mirrors.1 target.id
  rw [PriceTimeBook.cancel_found (mirrors.find found)] at cancelled agree'
  refine ⟨_,_,_,by rw [cancel,cancelled],⟨_,agree',mirrors.rest found (swapPop_perm found)⟩,?_,fun _ => rfl⟩
  intro sequence
  simp [Engine.dispatch,message,MessageType.ofByte_byte,cancelled]

private theorem modify_generated (mirrors : f.Mirrors a) (d : Draws) (found : f.live[index]? = some target) :
    ∃ content result f', f.modify d index target = some (content,result,f') ∧ f.Generated content result f' := by
  obtain ⟨b,modified,agree'⟩ :=
    OrderBook.modify_refines mirrors.1 target.id (d.priceFor target.side) d.quantity
  have spec := PriceTimeBook.modify_found (c := exchangeBook) (mirrors.find found) d.quantity_ne_zero
    (d.priceFor_inside target.side)
  rw [spec.1] at modified
  refine ⟨_,_,_,by rw [modify,modified],⟨_,agree',?_⟩,?_,fun _ => rfl⟩
  · dsimp only
    rw [if_pos rfl]
    exact (mirrors.set found _).trans spec.2.symm
  · intro sequence
    simp [Engine.dispatch,message,MessageType.ofByte_byte,modified]

private theorem fill_ne_zero {quantity : UInt32} (some_ : quantity ≠ 0) :
    (if 10 < quantity then quantity / 2 else quantity) ≠ 0 := by
  split
  next big =>
    intro zero
    have halved := congrArg UInt32.toNat zero
    rw [UInt32.lt_iff_toNat_lt] at big
    rw [UInt32.toNat_div] at halved
    simp only [UInt32.reduceToNat] at big halved
    omega
  next => exact some_

private theorem trade_generated (mirrors : f.Mirrors a) (d : Draws) (found : f.live[index]? = some target) :
    ∃ content result f', f.trade d index target = some (content,result,f') ∧ f.Generated content result f' := by
  have held := mirrors.find found
  have member := (PriceTimeBook.find_eq_some held).1
  have some_ := fill_ne_zero (mirrors.1.valid target member).1
  generalize filling : (if 10 < target.quantity then target.quantity / 2 else target.quantity) = fill at some_
  obtain ⟨b,executed,agree'⟩ := OrderBook.execute_refines mirrors.1 target.id fill
  rw [PriceTimeBook.execute_found held some_] at executed agree'
  refine ⟨_,_,_,by rw [trade,filling,executed],⟨_,agree',?_⟩,?_,fun _ => rfl⟩
  · dsimp only
    split
    next => exact mirrors.rest found (swapPop_perm found)
    next => exact (mirrors.set found _).trans (PriceTimeBook.perm_setQuantity member _).symm
  · intro sequence
    simp [Engine.dispatch,message,MessageType.ofByte_byte,executed]

theorem generate_generated (mirrors : f.Mirrors a) (d : Draws) :
    ∃ content result f', f.generate d = some (content,result,f') ∧ f.Generated content result f' := by
  unfold generate
  dsimp only
  split
  next => exact add_generated mirrors d
  next target found =>
    split
    next => exact add_generated mirrors d
    next => exact cancel_generated mirrors d found
    next => exact modify_generated mirrors d found
    next => exact trade_generated mirrors d found

end OrderFlow

theorem Exchange.publish_published {cap : Capacity} (e : Exchange cap) (content : MarketMessage) :
    (e.publish content).published = e.published ++ [{content with sequenceNumber := e.sequence}] := by
  simp only [publish,flushPacket]
  split
  next => split <;> rfl
  next => rfl

namespace Simulator
variable {cap : Capacity} {b₀ : OrderBook exchangeBook} {s : Simulator cap}

/-- What holds after every round, when the loop began with the book `b₀`. -/
structure Faithful (b₀ : OrderBook exchangeBook) (s : Simulator cap) : Prop where
  mirrors : ∃ a, s.flow.Mirrors a
  replay : ∃ counters, Engine.consumeAll s.exchange.published ⟨b₀,{}⟩ =
    some (s.results.map some,⟨s.flow.book,counters⟩)
  paired : s.exchange.published.length = s.results.length
  ok : ∀ entry ∈ s.exchange.published.zip s.results, entry.1.type ≠ MessageType.add.byte → entry.2 = .ok

theorem Faithful.create (created : OrderBook.create exchangeBook = some b₀) (cap : Capacity) (batch : Nat) :
    Faithful b₀ (create cap batch b₀) :=
  ⟨⟨.empty,OrderBook.create_represents created,.nil⟩,⟨{},rfl⟩,rfl,by simp [Simulator.create,Exchange.create]⟩

theorem Faithful.iterate (faithful : Faithful b₀ s) (d : Draws) :
    ∃ s', s.iterate d = some s' ∧ Faithful b₀ s' := by
  obtain ⟨a,mirrors⟩ := faithful.mirrors
  obtain ⟨counters,replay⟩ := faithful.replay
  obtain ⟨content,result,flow,generated,round⟩ := OrderFlow.generate_generated mirrors d
  have consumed := Engine.consume_book ⟨s.flow.book,counters⟩ _ (round.dispatched s.exchange.sequence)
  refine ⟨_,by rw [Simulator.iterate,generated],round.mirrors,⟨record counters result,?_⟩,?_,?_⟩
  · dsimp only
    rw [Exchange.publish_published,List.map_append]
    exact Engine.consumeAll_append replay consumed
  · dsimp only
    rw [Exchange.publish_published,List.length_append,List.length_append,faithful.paired]
    rfl
  · dsimp only
    rw [Exchange.publish_published,List.zip_append faithful.paired]
    intro entry member
    rcases List.mem_append.mp member with earlier | last
    · exact faithful.ok entry earlier
    · rw [List.zip_cons_cons,List.zip_nil_left,List.mem_singleton] at last
      rw [last]
      exact round.ok

theorem iterate_published {s' : Simulator cap} {d : Draws} (iterated : s.iterate d = some s') :
    ∃ message, s'.exchange.published = s.exchange.published ++ [message] := by
  unfold iterate at iterated
  split at iterated
  next => simp at iterated
  next content result flow _ =>
    cases iterated
    exact ⟨_,Exchange.publish_published _ _⟩

/-- The rule of the loop: what every round keeps, given how many rounds there were
before it, holds at the end. -/
theorem loop_keeps {total : UInt64} {I : Nat → Simulator cap → Prop}
    (keep : ∀ count s d, count < total.toNat → I count s → ∃ s', s.iterate d = some s' ∧ I (count+1) s')
    (draws : List Draws) (published : UInt64) (s : Simulator cap) (start : I published.toNat s)
    (bound : published.toNat ≤ total.toNat) :
    ∃ s', loop total published draws s = some s' ∧ I (min total.toNat (published.toNat+draws.length)) s' := by
  induction draws generalizing published s with
  | nil => exact ⟨s,rfl,by rwa [List.length_nil,Nat.add_zero,Nat.min_eq_right bound]⟩
  | cons d rest ih =>
    rw [loop]
    split
    next more =>
      rw [UInt64.lt_iff_toNat_lt] at more
      obtain ⟨s₁,iterated,kept⟩ := keep _ s d more start
      have next : (published+1).toNat = published.toNat+1 := by
        have limit := UInt64.toNat_lt total
        exact succ_toNat (by omega)
      rw [iterated,List.length_cons,Nat.add_comm rest.length,← Nat.add_assoc,← next]
      exact ih (published+1) s₁ (next ▸ kept) (by omega)
    next done =>
      rw [UInt64.not_lt,UInt64.le_iff_toNat_le] at done
      refine ⟨s,rfl,?_⟩
      rwa [Nat.min_eq_left (by omega),Nat.le_antisymm done bound]

/-- However the draws fall and however long the loop runs: it publishes one message in each
round, the live vector names no order twice and holds exactly the orders that rest in the
exchange's book, every cancel, modify and execute succeeded, and the engine, fed with the
published messages, gets the same results and ends with the same book. -/
theorem exchange_replays (cap : Capacity) (batch : Nat) (total : UInt64) (draws : List Draws) :
    ∃ b₀ s, OrderBook.create exchangeBook = some b₀ ∧ loop total 0 draws (create cap batch b₀) = some s ∧
      (s.flow.live.map RestingOrder.id).Nodup ∧
      (∀ o, o ∈ s.flow.live ↔ (o.id,o.quantity) ∈ s.flow.book.quotes o.side o.price) ∧
      s.exchange.published.length = min total.toNat draws.length ∧
      s.exchange.published.length = s.results.length ∧
      (∀ entry ∈ s.exchange.published.zip s.results,
        entry.1.type ≠ MessageType.add.byte → entry.2 = .ok) ∧
      ∃ counters, Engine.consumeAll s.exchange.published ⟨b₀,{}⟩ =
        some (s.results.map some,⟨s.flow.book,counters⟩) := by
  have created : OrderBook.create exchangeBook = some _ := if_pos (by decide)
  obtain ⟨s,looped,faithful,count⟩ := loop_keeps (I := fun count s => Faithful _ s ∧ s.exchange.published.length = count)
    (by
      rintro count s d _ ⟨faithful,counted⟩
      obtain ⟨s',iterated,faithful'⟩ := faithful.iterate d
      obtain ⟨message,more⟩ := iterate_published iterated
      exact ⟨s',iterated,faithful',by rw [more,List.length_append,counted]; rfl⟩)
    draws 0 _ ⟨Faithful.create created cap batch,rfl⟩ (Nat.zero_le _)
  obtain ⟨a,agree,same⟩ := faithful.mirrors
  refine ⟨_,s,created,looped,?_,?_,by rw [count,UInt64.toNat_zero,Nat.zero_add],faithful.paired,faithful.ok,
    faithful.replay⟩
  · exact (same.map RestingOrder.id).nodup_iff.mpr a.distinct
  · intro o
    rw [same.mem_iff,agree.quotes,PriceTimeBook.mem_queue]

end Simulator
end Llte
