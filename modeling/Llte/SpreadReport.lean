import Llte.Engine
import Llte.OrderBookRuns

/-! The report the engine prints when it stops. An empty side shows as `kNoPrice`, the
least 64-bit number, and the spread is the signed difference of the two best prices. -/
namespace Llte

/-- The difference of two signed 64-bit numbers, where it is defined. -/
def signedSub (x y : Int64) : Option Int64 :=
  if -2^63 ≤ x.toInt - y.toInt ∧ x.toInt - y.toInt < 2^63 then some (x - y) else none

private theorem signedSub_defined (x y : Int64) : (∃ value, signedSub x y = some value) ↔
    -2^63 ≤ x.toInt - y.toInt ∧ x.toInt - y.toInt < 2^63 := by
  unfold signedSub
  split <;> simp_all

private theorem signedSub_toInt {x y value : Int64} (defined : signedSub x y = some value) :
    value.toInt = x.toInt - y.toInt := by
  unfold signedSub at defined
  split at defined
  next inside =>
    rw [← Option.some.inj defined,Int64.toInt_sub]
    exact Int.bmod_eq_of_le (by omega) (by omega)
  next => simp at defined

/-- The book as the report shows it; `spread` is `none` where the subtraction overflows. -/
structure BookReport where
  bestBid : Price
  bestAsk : Price
  spread : Option Int64
  liveOrders : UInt64
  deriving DecidableEq

def Engine.bookReport {c : Config} (engine : Engine c) : BookReport where
  bestBid := engine.book.bestBid
  bestAsk := engine.book.bestAsk
  spread := signedSub engine.book.bestAsk engine.book.bestBid
  liveOrders := engine.book.liveOrderCount

namespace OrderBook
variable {c : Config} {b : OrderBook c} {a : PriceTimeBook} {side : Side}

/-- Some order rests at the price. -/
def Quoted (b : OrderBook c) (side : Side) (price : Price) : Prop := 0 < b.orderCountAt side price

instance (b : OrderBook c) (side : Side) (price : Price) : Decidable (b.Quoted side price) :=
  inferInstanceAs (Decidable (_ < _))

/-- The highest resting bid, or the lowest resting ask. -/
def Touch (b : OrderBook c) (side : Side) (price : Price) : Prop :=
  b.Quoted side price ∧ ∀ other, b.Quoted side other → PriceTimeBook.NoWorse side price other

def best (b : OrderBook c) : Side → Price
  | .buy => b.bestBid
  | .sell => b.bestAsk

theorem Quoted.inside {price : Price} (quoted : b.Quoted side price) : c.minPrice ≤ price ∧ price ≤ c.maxPrice := by
  by_contra outside
  rw [Quoted,orderCountAt,if_pos (by rw [inBand,decide_eq_true_eq]; exact outside)] at quoted
  exact absurd quoted (UInt32.lt_irrefl 0)

theorem Agrees.best (agree : Agrees b a) (side : Side) : b.best side = a.bestPrice side := by
  cases side with
  | buy => exact agree.bestBid
  | sell => exact agree.bestAsk

private theorem Agrees.quoted_iff (agree : Agrees b a) (price : Price) :
    b.Quoted side price ↔ ∃ o ∈ a.orders, o.side = side ∧ o.price = price := by
  rw [Quoted,UInt32.lt_iff_toNat_lt,agree.orderCountAt,PriceTimeBook.orderCountAt,PriceTimeBook.queue,
    List.length_map]
  change 0 < _ ↔ _
  rw [List.length_pos_iff_exists_mem]
  simp only [List.mem_filter,decide_eq_true_eq]

/-- A side with orders shows its best one. -/
theorem Agrees.touch (agree : Agrees b a) {price : Price} (quoted : b.Quoted side price) :
    b.Touch side (b.best side) := by
  obtain ⟨o,member,own,_⟩ := (agree.quoted_iff price).mp quoted
  obtain ⟨top,least⟩ := PriceTimeBook.bestPrice_touch member own
  rw [agree.best]
  refine ⟨(agree.quoted_iff _).mpr top,?_⟩
  intro other there
  obtain ⟨second,held,side_,rfl⟩ := (agree.quoted_iff other).mp there
  exact least second held side_

theorem Agrees.untouched (agree : Agrees b a) (vacant : ¬ ∃ price, b.Quoted side price) :
    b.best side = kNoPrice := by
  rw [agree.best]
  apply PriceTimeBook.bestPrice_none
  intro o member own
  exact vacant ⟨o.price,(agree.quoted_iff o.price).mpr ⟨o,member,own,rfl⟩⟩

theorem Touch.unique {first second : Price} (one : b.Touch side first) (two : b.Touch side second) :
    first = second := PriceTimeBook.noWorse_antisymm (one.2 second two.1) (two.2 first one.1)

/-- In a positive band a missing price differs too much from any other. -/
theorem Agrees.spread_iff (agree : Agrees b a) (positive : 0 < c.minPrice) :
    (∃ value, signedSub b.bestAsk b.bestBid = some value) ↔
      ((∃ price, b.Quoted .buy price) ↔ ∃ price, b.Quoted .sell price) := by
  have low : 0 < c.minPrice.toInt := Int64.lt_iff_toInt_lt.mp positive
  have within (side : Side) : (∃ price, b.Quoted side price) → 0 < (b.best side).toInt := by
    rintro ⟨price,quoted⟩
    have inside := Int64.le_iff_toInt_le.mp (agree.touch quoted).1.inside.1
    omega
  have least : kNoPrice.toInt = -2^63 := by decide
  have bids := (b.best .buy).toInt_lt
  have asks := (b.best .sell).toInt_lt
  change (∃ value, signedSub (b.best .sell) (b.best .buy) = some value) ↔ _
  rw [signedSub_defined]
  by_cases bid : ∃ price, b.Quoted .buy price <;> by_cases ask : ∃ price, b.Quoted .sell price
  · have bidLow := within .buy bid
    have askLow := within .sell ask
    exact iff_of_true (by omega) (iff_of_true bid ask)
  · have bidLow := within .buy bid
    have none := agree.untouched ask
    refine iff_of_false ?_ (fun both => ask (both.mp bid))
    rw [none]
    omega
  · have askLow := within .sell ask
    have none := agree.untouched bid
    refine iff_of_false ?_ (fun both => bid (both.mpr ask))
    rw [none]
    omega
  · refine iff_of_true ?_ (iff_of_false bid ask)
    rw [agree.untouched bid,agree.untouched ask]
    omega

end OrderBook

/-- After every list of events the report's subtraction is defined, and is the lowest
ask less the highest bid where both exist, exactly if both sides have orders or
neither has. -/
theorem spread_safe_iff {c : Config} {b₀ : OrderBook c} (positive : 0 < c.minPrice)
    (created : OrderBook.create c = some b₀) (messages : List MarketMessage) :
    ∃ results engine, Engine.consumeAll messages {book := b₀} = some (results,engine) ∧
      (((∃ value, engine.bookReport.spread = some value) ∧
          ∀ ask bid, engine.book.Touch .sell ask → engine.book.Touch .buy bid →
            ∃ value, engine.bookReport.spread = some value ∧ value.toInt = ask.toInt - bid.toInt) ↔
        ((∃ price, engine.book.Quoted .buy price) ↔ ∃ price, engine.book.Quoted .sell price)) := by
  have new : OrderBook.Represents ({book := b₀} : Engine c).book .empty := OrderBook.create_represents created
  obtain ⟨results,engine,a,ran,_,_,sound,shows_⟩ := Engine.consumeAll_represents messages new
  have agree := OrderBook.agrees sound shows_
  refine ⟨results,engine,ran,?_⟩
  rw [← agree.spread_iff positive]
  constructor
  · exact And.left
  · rintro ⟨value,defined⟩
    refine ⟨⟨value,defined⟩,?_⟩
    intro ask bid lowest highest
    refine ⟨value,defined,?_⟩
    rw [signedSub_toInt defined,lowest.unique (agree.touch lowest.1),highest.unique (agree.touch highest.1)]
    rfl

def addMessage (orderId : UInt64) (side : Side) (price : Price) : MarketMessage :=
  {sequenceNumber := orderId, orderId := orderId, type := MessageType.add.byte, side := side.byte,
   price := price, quantity := 1}

theorem spread_safe_two_sided : ∃ b₀, OrderBook.create OrderBook.narrow = some b₀ ∧
    ∃ results engine, Engine.consumeAll [addMessage 7 .buy 1,addMessage 8 .sell 3] {book := b₀} =
      some (results,engine) ∧ ∃ value, engine.bookReport.spread = some value := by
  have created : OrderBook.create OrderBook.narrow = some _ := if_pos (by decide)
  obtain ⟨results,engine,ran,safe⟩ := spread_safe_iff (by decide) created
    [addMessage 7 .buy 1,addMessage 8 .sell 3]
  have both : ((OrderBook.create OrderBook.narrow).bind fun b₀ =>
      Engine.consumeAll [addMessage 7 .buy 1,addMessage 8 .sell 3] {book := b₀}).any
      (fun r => decide (r.2.book.Quoted .buy 1 ∧ r.2.book.Quoted .sell 3)) = true := by decide +kernel
  rw [created,Option.bind_some,ran,Option.any_some,decide_eq_true_iff] at both
  exact ⟨_,created,results,engine,ran,(safe.mpr (iff_of_true ⟨1,both.1⟩ ⟨3,both.2⟩)).1⟩

/-- A single bid is enough: the missing ask less the bid is below every 64-bit number. -/
theorem spread_overflows : ∃ b₀, OrderBook.create OrderBook.narrow = some b₀ ∧
    ∃ results engine, Engine.consumeAll [addMessage 7 .buy 2] {book := b₀} = some (results,engine) ∧
      engine.bookReport = ⟨2,kNoPrice,none,1⟩ := by
  have created : OrderBook.create OrderBook.narrow = some _ := if_pos (by decide)
  have report : ((OrderBook.create OrderBook.narrow).bind fun b₀ =>
      Engine.consumeAll [addMessage 7 .buy 2] {book := b₀}).any
      (fun r => decide (r.2.bookReport = ⟨2,kNoPrice,none,1⟩)) = true := by decide +kernel
  rw [created,Option.bind_some] at report
  obtain ⟨⟨results,engine⟩,ran,same⟩ := (Option.any_eq_true _ _).mp report
  exact ⟨_,created,results,engine,ran,of_decide_eq_true same⟩

end Llte
