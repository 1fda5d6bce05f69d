import Llte.OrderBookRuns
import Llte.OrderFlow

/-! Downstream books are never crossed, whatever part of the feed is lost. Each order
id has one side for ever, and every price published for it lies on that side of the
mid price; a book that sees any part of such messages can only hold orders on their
own sides. -/
namespace Llte
open Foundation

/-- The price lies on its side of the mid price. -/
def OnSide : Side → Price → Prop
  | .buy,price => price < kMidPrice
  | .sell,price => kMidPrice < price

/-- The call agrees with the sides of the order ids. -/
def Call.Sided (sideOf : UInt64 → Side) : Call → Prop
  | .add orderId side price _ => side = sideOf orderId ∧ OnSide side price
  | .modify orderId newPrice _ => OnSide (sideOf orderId) newPrice
  | _ => True

namespace PriceTimeBook
variable {a : PriceTimeBook} {sideOf : UInt64 → Side}

/-- Every order rests on its side of the mid price. -/
def Sided (sideOf : UInt64 → Side) (a : PriceTimeBook) : Prop :=
  ∀ o ∈ a.orders, o.side = sideOf o.id ∧ OnSide o.side o.price

theorem Sided.empty : PriceTimeBook.empty.Sided sideOf :=
  fun o member => absurd member (by simp [PriceTimeBook.empty])

theorem Sided.remove (sided : a.Sided sideOf) (orderId : UInt64) : (a.remove orderId).Sided sideOf :=
  fun o member => sided o (List.mem_of_mem_filter member)

theorem Sided.place (sided : a.Sided sideOf) {o : RestingOrder} (own : o.side = sideOf o.id)
    (right : OnSide o.side o.price) : (a.place o).Sided sideOf := by
  intro x member
  rcases List.mem_append.mp member with earlier | last
  · exact sided.remove o.id x earlier
  · rw [List.mem_singleton.mp last]
    exact ⟨own,right⟩

theorem Sided.setQuantity (sided : a.Sided sideOf) (orderId : UInt64) (quantity : UInt32) :
    (a.setQuantity orderId quantity).Sided sideOf := by
  intro x member
  obtain ⟨o,held,rfl⟩ := List.mem_map.mp member
  split <;> exact sided o held

theorem Sided.step {c : Config} (sided : a.Sided sideOf) {call : Call} (agrees : call.Sided sideOf) :
    (a.step c call).2.Sided sideOf := by
  have effect := step_effect c a call
  generalize (a.step c call).1 = result at effect
  generalize (a.step c call).2 = a' at effect
  cases effect with
  | refused => exact sided
  | entered o => exact sided.place agrees.1 agrees.2
  | cancelled o => exact sided.remove o.id
  | shrunk o found quantity => exact sided.setQuantity o.id quantity
  | moved o found price quantity =>
    have own := (sided o (find_eq_some found).1).1
    exact sided.place own (own ▸ agrees)
  | filled o => exact sided.remove o.id
  | reduced o found quantity => exact sided.setQuantity o.id _
  | cleared => exact Sided.empty

/-- A best price that is there is the price of some order. -/
theorem bestPrice_mem {side : Side} (present : a.bestPrice side ≠ kNoPrice) :
    ∃ o ∈ a.orders, o.side = side ∧ o.price = a.bestPrice side := by
  by_cases some_ : ∃ o ∈ a.orders, o.side = side
  · obtain ⟨o,member,own⟩ := some_
    exact (bestPrice_touch member own).1
  · refine absurd (bestPrice_none ?_) present
    intro o member own
    exact some_ ⟨o,member,own⟩

theorem Sided.best (sided : a.Sided sideOf) (side : Side) (present : a.bestPrice side ≠ kNoPrice) :
    OnSide side (a.bestPrice side) := by
  obtain ⟨o,held,rfl,same⟩ := bestPrice_mem present
  rw [← same]
  exact (sided o held).2

end PriceTimeBook

namespace Engine
variable {c : Config} {sideOf : UInt64 → Side}

/-- The call that the engine makes for the message, if any, agrees with the sides. -/
def SidedMessage (sideOf : UInt64 → Side) (message : MarketMessage) : Prop :=
  ∀ call ∈ callOf message, call.Sided sideOf

private theorem sidedMessage {message : MarketMessage} (type : MessageType) (known : message.type = type.byte)
    (sided : (callFor message type).Sided sideOf) : SidedMessage sideOf message := by
  intro call called
  rw [callOf,known,MessageType.ofByte_byte,Option.map_some,Option.mem_some] at called
  exact called ▸ sided

private theorem consume_sided {engine : Engine c} {a : PriceTimeBook} (agree : OrderBook.Represents engine.book a)
    (sided : a.Sided sideOf) {message : MarketMessage} (one : SidedMessage sideOf message) :
    ∃ result engine', engine.consume message = some (result,engine') ∧
      ∃ a', OrderBook.Represents engine'.book a' ∧ a'.Sided sideOf := by
  obtain ⟨engine',consumed,agree',_⟩ := consume_refines agree message
  refine ⟨_,_,consumed,_,agree',?_⟩
  unfold applied
  cases called : callOf message with
  | none => exact sided
  | some call => exact sided.step (one call called)

private theorem consumeAll_sided (messages : List MarketMessage) (all : ∀ message ∈ messages, SidedMessage sideOf message)
    {engine : Engine c} {a : PriceTimeBook} (agree : OrderBook.Represents engine.book a) (sided : a.Sided sideOf) :
    ∃ results engine', engine.consumeAll messages = some (results,engine') ∧
      ∃ a', OrderBook.Represents engine'.book a' ∧ a'.Sided sideOf := by
  induction messages generalizing engine a with
  | nil => exact ⟨[],engine,rfl,a,agree,sided⟩
  | cons message rest ih =>
    obtain ⟨result,engine₁,consumed,a₁,agree₁,sided₁⟩ := consume_sided agree sided (all message (by simp))
    obtain ⟨results,engine₂,ran,last⟩ := ih (fun later member => all later (by simp [member])) agree₁ sided₁
    refine ⟨result::results,engine₂,?_,last⟩
    rw [consumeAll,consumed]
    dsimp only
    rw [ran]
    rfl

/-- Nothing at all or a bid below the mid price, nothing at all or an ask above it. -/
theorem best_sided {b : OrderBook c} {a : PriceTimeBook} (agree : OrderBook.Represents b a) (sided : a.Sided sideOf) :
    (b.bestBid ≠ kNoPrice → b.bestBid < kMidPrice) ∧ (b.bestAsk ≠ kNoPrice → kMidPrice < b.bestAsk) := by
  obtain ⟨free,queue,sound,shows_⟩ := agree
  have queries := OrderBook.agrees sound shows_
  rw [queries.bestBid,queries.bestAsk]
  exact ⟨sided.best .buy,sided.best .sell⟩

end Engine

private theorem Draws.priceFor_onSide (d : Draws) (side : Side) : OnSide side (d.priceFor side) := by
  cases side with
  | buy => exact d.priceFor_buy.2
  | sell => exact d.priceFor_sell.1

namespace OrderFlow
variable {f f' : OrderFlow} {content : MarketMessage} {result : Result} {d : Draws}

/-- After `adds` adds their ids are the numbers up to `adds`, and each live order and
each published message goes with the side of its id. -/
structure Issued (adds : Nat) (sideOf : UInt64 → Side) (f : OrderFlow) (published : List MarketMessage) :
    Prop where
  next : f.nextOrderId = UInt64.ofNat (adds+1)
  live : ∀ o ∈ f.live, o.side = sideOf o.id ∧ o.id.toNat ≤ adds
  published : ∀ message ∈ published, message.orderId.toNat ≤ adds ∧ Engine.SidedMessage sideOf message

namespace Issued
variable {adds : Nat} {sideOf : UInt64 → Side} {published : List MarketMessage}

theorem create (book : OrderBook exchangeBook) (sideOf : UInt64 → Side) : Issued 0 sideOf {book := book} [] :=
  ⟨rfl,by simp,by simp⟩

/-- A new id gets its side; nothing published before can tell. -/
theorem sidedMessage_update {message : MarketMessage} {orderId : UInt64} (side : Side)
    (other : message.orderId ≠ orderId) (sided : Engine.SidedMessage sideOf message) :
    Engine.SidedMessage (fun key => if key = orderId then side else sideOf key) message := by
  intro call called
  have before := sided call called
  obtain ⟨type,_,rfl⟩ := Option.map_eq_some_iff.mp called
  cases type with
  | add =>
    obtain ⟨own,right⟩ := before
    exact ⟨own.trans (if_neg other).symm,right⟩
  | cancel => trivial
  | modify =>
    change OnSide (sideOf message.orderId) message.price at before
    change OnSide (if message.orderId = orderId then side else sideOf message.orderId) message.price
    rwa [if_neg other]
  | trade => trivial

theorem add (issued : Issued adds sideOf f published) (room : adds+1 < 2^64)
    (added : f.add d = some (content,result,f')) (sequence : UInt64) :
    ∃ sideOf', Issued (adds+1) sideOf' f' (published ++ [{content with sequenceNumber := sequence}]) := by
  have number : f.nextOrderId.toNat = adds+1 := by
    rw [issued.next,UInt64.toNat_ofNat']
    exact Nat.mod_eq_of_lt room
  have older {orderId : UInt64} (small : orderId.toNat ≤ adds) : orderId ≠ f.nextOrderId := by
    rintro rfl
    omega
  unfold OrderFlow.add at added
  dsimp only at added
  split at added
  next => simp at added
  next book called =>
    simp only [Option.some.injEq,Prod.mk.injEq] at added
    obtain ⟨rfl,rfl,rfl⟩ := added
    refine ⟨fun key => if key = f.nextOrderId then d.side else sideOf key,?_,?_,?_⟩
    · rw [issued.next]
      exact (UInt64.ofNat_add (adds+1) 1).symm
    · have kept (o : LiveOrder) (member : o ∈ f.live) :
          o.side = (if o.id = f.nextOrderId then d.side else sideOf o.id) ∧ o.id.toNat ≤ adds+1 := by
        obtain ⟨own,small⟩ := issued.live o member
        rw [if_neg (older small)]
        exact ⟨own,by omega⟩
      intro o member
      dsimp only at member
      split at member
      next =>
        rcases List.mem_append.mp member with earlier | last
        · exact kept o earlier
        · rw [List.mem_singleton.mp last,if_pos rfl]
          exact ⟨rfl,by rw [number]⟩
      next => exact kept o member
    · intro message member
      rcases List.mem_append.mp member with earlier | last
      · obtain ⟨small,sided⟩ := issued.published message earlier
        exact ⟨by omega,sidedMessage_update d.side (older small) sided⟩
      · rw [List.mem_singleton.mp last]
        refine ⟨Nat.le_of_eq number,Engine.sidedMessage .add rfl ?_⟩
        change Side.ofByte d.side.byte = (if f.nextOrderId = f.nextOrderId then d.side else _) ∧
          OnSide (.ofByte d.side.byte) (d.priceFor d.side)
        rw [if_pos rfl,Side.ofByte_byte]
        exact ⟨rfl,d.priceFor_onSide d.side⟩

/-- A round that amends a live order issues no id. -/
theorem amend (issued : Issued adds sideOf f published) {target : LiveOrder} (live : target ∈ f.live)
    (next : f'.nextOrderId = f.nextOrderId)
    (members : ∀ o ∈ f'.live, o ∈ f.live ∨ (o.id = target.id ∧ o.side = target.side))
    (orderId : content.orderId = target.id) (sided : Engine.SidedMessage sideOf content) (sequence : UInt64) :
    Issued adds sideOf f' (published ++ [{content with sequenceNumber := sequence}]) := by
  obtain ⟨own,small⟩ := issued.live target live
  refine ⟨next.trans issued.next,?_,?_⟩
  · intro o member
    rcases members o member with kept | ⟨id,side⟩
    · exact issued.live o kept
    · rw [id,side]
      exact ⟨own,small⟩
  · intro message member
    rcases List.mem_append.mp member with earlier | last
    · exact issued.published message earlier
    · rw [List.mem_singleton.mp last]
      exact ⟨orderId ▸ small,sided⟩

end Issued

private theorem mem_set {live : List LiveOrder} {index : Nat} {target changed o : LiveOrder}
    (member : o ∈ live.set index changed) (same : changed.id = target.id ∧ changed.side = target.side) :
    o ∈ live ∨ (o.id = target.id ∧ o.side = target.side) := by
  rcases List.mem_or_eq_of_mem_set member with kept | rfl
  · exact .inl kept
  · exact .inr same

section Amend
variable {adds : Nat} {sideOf : UInt64 → Side} {published : List MarketMessage} {index : Nat}
  {target : LiveOrder} (issued : Issued adds sideOf f published) (found : f.live[index]? = some target)
include issued found

theorem Issued.cancel (generated : f.cancel d index target = some (content,result,f')) (sequence : UInt64) :
    Issued adds sideOf f' (published ++ [{content with sequenceNumber := sequence}]) := by
  unfold OrderFlow.cancel at generated
  split at generated
  next => simp at generated
  next =>
    simp only [Option.some.injEq,Prod.mk.injEq] at generated
    obtain ⟨rfl,_,rfl⟩ := generated
    apply issued.amend (List.mem_of_getElem? found)
    · rfl
    · exact fun o member => .inl (mem_of_mem_swapPop found member)
    · rfl
    · exact Engine.sidedMessage .cancel rfl trivial

theorem Issued.modify (generated : f.modify d index target = some (content,result,f')) (sequence : UInt64) :
    Issued adds sideOf f' (published ++ [{content with sequenceNumber := sequence}]) := by
  have own := (issued.live target (List.mem_of_getElem? found)).1
  unfold OrderFlow.modify at generated
  dsimp only at generated
  split at generated
  next => simp at generated
  next =>
    simp only [Option.some.injEq,Prod.mk.injEq] at generated
    obtain ⟨rfl,_,rfl⟩ := generated
    apply issued.amend (List.mem_of_getElem? found)
    · rfl
    · intro o member
      dsimp only at member
      split at member
      next => exact mem_set member ⟨rfl,rfl⟩
      next => exact .inl member
    · rfl
    · refine Engine.sidedMessage .modify rfl ?_
      change OnSide (sideOf target.id) (d.priceFor target.side)
      rw [← own]
      exact d.priceFor_onSide target.side

theorem Issued.trade (generated : f.trade d index target = some (content,result,f')) (sequence : UInt64) :
    Issued adds sideOf f' (published ++ [{content with sequenceNumber := sequence}]) := by
  unfold OrderFlow.trade at generated
  dsimp only at generated
  generalize (if 10 < target.quantity then target.quantity/2 else target.quantity) = fill at generated
  split at generated
  next => simp at generated
  next =>
    simp only [Option.some.injEq,Prod.mk.injEq] at generated
    obtain ⟨rfl,_,rfl⟩ := generated
    apply issued.amend (List.mem_of_getElem? found)
    · rfl
    · intro o member
      dsimp only at member
      split at member
      next => exact .inl (mem_of_mem_swapPop found member)
      next => exact mem_set member ⟨rfl,rfl⟩
    · rfl
    · exact Engine.sidedMessage .trade rfl trivial

end Amend

theorem Issued.generate {adds : Nat} {sideOf : UInt64 → Side} {published : List MarketMessage}
    (issued : Issued adds sideOf f published) (room : adds+1 < 2^64)
    (generated : f.generate d = some (content,result,f')) (sequence : UInt64) :
    ∃ adds' ≤ adds+1, ∃ sideOf', Issued adds' sideOf' f'
      (published ++ [{content with sequenceNumber := sequence}]) := by
  have entered (added : f.add d = some (content,result,f')) : ∃ adds' ≤ adds+1, ∃ sideOf', Issued adds' sideOf' f'
      (published ++ [{content with sequenceNumber := sequence}]) :=
    ⟨adds+1,Nat.le_refl _,issued.add room added sequence⟩
  unfold OrderFlow.generate at generated
  dsimp only at generated
  split at generated
  next => exact entered generated
  next target found =>
    split at generated
    next => exact entered generated
    next => exact ⟨adds,Nat.le_succ _,sideOf,issued.cancel found generated sequence⟩
    next => exact ⟨adds,Nat.le_succ _,sideOf,issued.modify found generated sequence⟩
    next => exact ⟨adds,Nat.le_succ _,sideOf,issued.trade found generated sequence⟩

end OrderFlow

namespace Simulator
variable {cap : Capacity} {b₀ : OrderBook exchangeBook} {s : Simulator cap}

/-- The state of the loop after `count` rounds: no more ids than rounds were issued. -/
def Numbered (b₀ : OrderBook exchangeBook) (count : Nat) (s : Simulator cap) : Prop :=
  Faithful b₀ s ∧ ∃ adds ≤ count, ∃ sideOf, OrderFlow.Issued adds sideOf s.flow s.exchange.published

theorem Numbered.iterate {count : Nat} (room : count+1 < 2^64) (numbered : Numbered b₀ count s) (d : Draws) :
    ∃ s', s.iterate d = some s' ∧ Numbered b₀ (count+1) s' := by
  obtain ⟨faithful,adds,few,sideOf,issued⟩ := numbered
  obtain ⟨s',iterated,faithful'⟩ := faithful.iterate d
  refine ⟨s',iterated,faithful',?_⟩
  unfold Simulator.iterate at iterated
  split at iterated
  next => simp at iterated
  next content result flow generated =>
    obtain ⟨adds',more,sideOf',issued'⟩ := issued.generate (by omega) generated s.exchange.sequence
    rw [← Option.some.inj iterated]
    refine ⟨adds',by omega,sideOf',?_⟩
    dsimp only
    rw [Exchange.publish_published]
    exact issued'

/-- However the draws fall, and whatever part of the published messages reaches an
engine: it takes them all, its best bid is below the mid price and its best ask above.
A part of the feed, up to any event of it, is again a part of the feed, so this holds
after every event. -/
theorem downstream_uncrossed (cap : Capacity) (batch : Nat) (total : UInt64) (draws : List Draws) :
    ∃ b₀ s, OrderBook.create exchangeBook = some b₀ ∧ loop total 0 draws (create cap batch b₀) = some s ∧
      ∀ (c : Config) (b₁ : OrderBook c), OrderBook.create c = some b₁ →
        ∀ messages, messages.Sublist s.exchange.published →
          ∃ results engine, Engine.consumeAll messages ⟨b₁,{}⟩ = some (results,engine) ∧
            (engine.book.bestBid ≠ kNoPrice → engine.book.bestBid < kMidPrice) ∧
            (engine.book.bestAsk ≠ kNoPrice → kMidPrice < engine.book.bestAsk) ∧
            (engine.book.bestBid ≠ kNoPrice → engine.book.bestAsk ≠ kNoPrice →
              engine.book.bestBid < engine.book.bestAsk) := by
  have created : OrderBook.create exchangeBook = some _ := if_pos (by decide)
  have start : Numbered _ (0 : UInt64).toNat (create cap batch _) :=
    ⟨Faithful.create created cap batch,0,Nat.le_refl _,fun _ => .buy,OrderFlow.Issued.create _ _⟩
  have bound := UInt64.toNat_lt total
  obtain ⟨s,looped,_,adds,_,sideOf,issued⟩ := loop_keeps (I := Numbered _)
    (fun _ _ d (more : _ < total.toNat) numbered => numbered.iterate (by omega) d) draws 0 _ start (Nat.zero_le _)
  refine ⟨_,s,created,looped,fun c b₁ fresh messages part => ?_⟩
  have represents : OrderBook.Represents (Engine.mk b₁ {}).book .empty := OrderBook.create_represents fresh
  obtain ⟨results,engine,consumed,a,agree,sided⟩ := Engine.consumeAll_sided messages
    (fun message member => (issued.published message (part.subset member)).2) represents PriceTimeBook.Sided.empty
  obtain ⟨bid,ask⟩ := Engine.best_sided agree sided
  exact ⟨results,engine,consumed,bid,ask,fun hasBid hasAsk => Int64.lt_trans (bid hasBid) (ask hasAsk)⟩

/-- A round that adds publishes the same message whatever the book does with it. -/
theorem iterate_add {cap : Capacity} {s s' : Simulator cap} {d : Draws} (rolled : d.roll = .add)
    (iterated : s.iterate d = some s') : s'.flow.nextOrderId = s.flow.nextOrderId+1 ∧ s'.exchange = s.exchange.publish
      (OrderFlow.message d .add s.flow.nextOrderId d.side (d.priceFor d.side) d.quantity) := by
  have adds : s.flow.generate d = s.flow.add d := by
    rw [OrderFlow.generate,rolled]
    dsimp only
    split <;> rfl
  rw [iterate,adds,OrderFlow.add] at iterated
  cases called : s.flow.book.add s.flow.nextOrderId d.side (d.priceFor d.side) d.quantity with
  | none => simp [called] at iterated
  | some pair =>
    simp only [called,Option.some.injEq] at iterated
    rw [← iterated]
    exact ⟨rfl,rfl⟩

def seven : Capacity := ⟨7,by decide,by decide⟩

def oneBid : Draws := ⟨.add,.buy,3,2,0,0,by decide,by decide,by decide,by decide⟩

def oneAsk : Draws := ⟨.add,.sell,3,2,0,0,by decide,by decide,by decide,by decide⟩

/-- A bid and an ask are published and the bid is lost on the way; the ask rests. -/
theorem downstream_uncrossed_lost_bid : ∃ b₀ b₁, ∃ s : Simulator seven,
    OrderBook.create exchangeBook = some b₀ ∧ OrderBook.create OrderBook.aroundMid = some b₁ ∧
    loop 2 0 [oneBid,oneAsk] (create seven 1 b₀) = some s ∧
    ∃ results engine, Engine.consumeAll s.exchange.published.tail ⟨b₁,{}⟩ = some (results,engine) ∧
      engine.book.bestAsk = 18753 ∧ kMidPrice < engine.book.bestAsk := by
  obtain ⟨b₀,s,created,looped,uncrossed⟩ := downstream_uncrossed seven 1 2 [oneBid,oneAsk]
  have published : s.exchange = ((Exchange.create seven 1001 1).publish
      (OrderFlow.message oneBid .add 1 .buy 18747 20)).publish (OrderFlow.message oneAsk .add 2 .sell 18753 20) := by
    rw [loop,if_pos (by decide)] at looped
    cases first : (create seven 1 b₀).iterate oneBid with
    | none => simp [first] at looped
    | some s₁ =>
      simp only [first] at looped
      rw [loop,if_pos (by decide)] at looped
      cases second : s₁.iterate oneAsk with
      | none => simp [second] at looped
      | some s₂ =>
        simp only [second,loop,Option.some.injEq] at looped
        obtain ⟨number₁,sent₁⟩ := iterate_add rfl first
        obtain ⟨_,sent₂⟩ := iterate_add rfl second
        rw [← looped,sent₂,sent₁,number₁]
        rfl
  have checked : ((OrderBook.create OrderBook.aroundMid).any fun b₁ => (Engine.consumeAll (((Exchange.create seven 1001 1).publish
      (OrderFlow.message oneBid .add 1 .buy 18747 20)).publish
        (OrderFlow.message oneAsk .add 2 .sell 18753 20)).published.tail ⟨b₁,{}⟩).any fun ran =>
          decide (ran.2.book.bestAsk = 18753)) = true := by decide +kernel
  obtain ⟨b₁,fresh,found⟩ := (Option.any_eq_true _ _).mp checked
  obtain ⟨⟨results,engine⟩,ran,rests⟩ := (Option.any_eq_true _ _).mp found
  obtain ⟨results',engine',consumed,_,ask,_⟩ := uncrossed OrderBook.aroundMid b₁ fresh _ (List.tail_sublist _)
  rw [published,ran,Option.some.injEq,Prod.mk.injEq] at consumed
  obtain ⟨rfl,rfl⟩ := consumed
  have here : engine.book.bestAsk = 18753 := of_decide_eq_true rests
  exact ⟨b₀,b₁,s,created,fresh,looped,results,engine,by rw [published]; exact ran,here,ask (by rw [here]; decide)⟩

end Simulator
end Llte
