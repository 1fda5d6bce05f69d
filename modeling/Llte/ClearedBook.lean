import Llte.Foundation.Objects
import Llte.OrderBookRuns

/-! A cleared book and a new one. `clear` leaves the ids, prices, quantities, sides and
back links of old orders in the pool, but no call reads them before it has written
them: whatever is asked of the two books, the answers are the same. -/
namespace Llte
open Foundation

/-- Everything a caller can ask of a book. -/
inductive Request where
  | call (call : Call)
  | bestBid
  | bestAsk
  | quantityAt (side : Side) (price : Price)
  | orderCountAt (side : Side) (price : Price)
  | contains (orderId : UInt64)
  | liveOrderCount

inductive Response where
  | result (result : Option Result)
  | price (price : Price)
  | quantity (quantity : UInt64)
  | count (count : UInt32)
  | found (found : Bool)
  | live (orders : UInt64)
  deriving DecidableEq

namespace OrderBook
variable {c : Config}

def respond (b : OrderBook c) : Request → Option (Response × OrderBook c)
  | .call call => (b.step call).map fun (result,b) => (.result result,b)
  | .bestBid => some (.price b.bestBid,b)
  | .bestAsk => some (.price b.bestAsk,b)
  | .quantityAt side price => some (.quantity (b.quantityAt side price),b)
  | .orderCountAt side price => some (.count (b.orderCountAt side price),b)
  | .contains orderId => (b.contains orderId).map fun found => (.found found,b)
  | .liveOrderCount => some (.live b.liveOrderCount,b)

/-- The two books show the same resting orders, however they store them. -/
def SameOrders (b b' : OrderBook c) : Prop := ∃ a, Represents b a ∧ Represents b' a

theorem SameOrders.agree {b b' : OrderBook c} (same : SameOrders b b') :
    ∃ a, Agrees b a ∧ Agrees b' a := by
  obtain ⟨a,⟨_,_,sound,shows_⟩,⟨_,_,sound',shows'⟩⟩ := same
  exact ⟨a,agrees sound shows_,agrees sound' shows'⟩

theorem SameOrders.step {b b' : OrderBook c} (same : SameOrders b b') (call : Call) :
    ∃ result b₁ b₁', b.step call = some (result,b₁) ∧ b'.step call = some (result,b₁') ∧ SameOrders b₁ b₁' := by
  obtain ⟨a,one,two⟩ := same
  obtain ⟨b₁,stepped,kept⟩ := step_refines one call
  obtain ⟨b₁',stepped',kept'⟩ := step_refines two call
  exact ⟨_,b₁,b₁',stepped,stepped',_,kept,kept'⟩

theorem respond_alike : Alike (respond (c := c)) respond SameOrders := by
  intro b b' same request
  obtain ⟨a,one,two⟩ := same.agree
  cases request with
  | call call =>
    obtain ⟨result,b₁,b₁',stepped,stepped',kept⟩ := same.step call
    exact ⟨.result result,b₁,b₁',by rw [respond,stepped]; rfl,by rw [respond,stepped']; rfl,kept⟩
  | bestBid => exact ⟨_,b,b',rfl,by rw [respond,one.bestBid,two.bestBid],same⟩
  | bestAsk => exact ⟨_,b,b',rfl,by rw [respond,one.bestAsk,two.bestAsk],same⟩
  | quantityAt side price =>
    have equal : b.quantityAt side price = b'.quantityAt side price :=
      UInt64.toNat_inj.mp ((one.quantityAt side price).trans (two.quantityAt side price).symm)
    exact ⟨_,b,b',rfl,by rw [respond,equal],same⟩
  | orderCountAt side price =>
    have equal : b.orderCountAt side price = b'.orderCountAt side price :=
      UInt32.toNat_inj.mp ((one.orderCountAt side price).trans (two.orderCountAt side price).symm)
    exact ⟨_,b,b',rfl,by rw [respond,equal],same⟩
  | contains orderId =>
    exact ⟨.found (a.contains orderId),b,b',by rw [respond,one.contains]; rfl,
      by rw [respond,two.contains]; rfl,same⟩
  | liveOrderCount =>
    have equal : b.liveOrderCount = b'.liveOrderCount :=
      UInt64.toNat_inj.mp (one.liveOrderCount.trans two.liveOrderCount.symm)
    exact ⟨_,b,b',rfl,by rw [respond,equal],same⟩

private theorem create_spanned {b₀ : OrderBook c} (created : create c = some b₀) : Spanned c := by
  obtain ⟨_,_,sound,_⟩ := create_represents created
  exact sound.spanned

/-- Whatever calls a book has been through, `clear` leads back to where every further list
of calls and queries is answered as a new book answers it. -/
theorem clear_like_new {b₀ : OrderBook c} (created : create c = some b₀) (b : OrderBook c)
    (requests : List Request) :
    ∃ responses b₁ b₂, converse respond requests b.clear = some (responses,b₁) ∧
      converse respond requests b₀ = some (responses,b₂) := by
  have same : SameOrders b.clear b₀ :=
    ⟨.empty,.clear (create_spanned created) b,create_represents created⟩
  obtain ⟨responses,b₁,b₂,cleared,new,_⟩ := respond_alike.converse requests same
  exact ⟨responses,b₁,b₂,cleared,new⟩

/-- The slots of the cleared book still hold the orders 7 and 8. -/
theorem clear_like_new_stale : ∃ b₀, create narrow = some b₀ ∧
    ∃ results b, b₀.run [.add 7 .buy 2 5,.add 8 .sell 3 4] = some (results,b) ∧
      (b.clear.order 0).id = 7 ∧ (b.clear.order 1).quantity = 4 ∧
      ∃ responses b₁ b₂,
        converse respond [.contains 7,.call (.add 9 .sell 1 6),.bestAsk,.call (.cancel 8)] b.clear =
          some (responses,b₁) ∧
        converse respond [.contains 7,.call (.add 9 .sell 1 6),.bestAsk,.call (.cancel 8)] b₀ =
          some (responses,b₂) := by
  have created : create narrow = some _ := if_pos (by decide)
  have found : ((create narrow).bind fun b₀ => (b₀.run [.add 7 .buy 2 5,.add 8 .sell 3 4]).map Prod.snd).any
      (fun b => decide ((b.clear.order 0).id = 7 ∧ (b.clear.order 1).quantity = 4)) = true := by decide +kernel
  obtain ⟨b,built,stale⟩ := (Option.any_eq_true _ _).mp found
  rw [created,Option.bind_some] at built
  obtain ⟨⟨results,b'⟩,ran,rfl⟩ := Option.map_eq_some_iff.mp built
  obtain ⟨first,second⟩ := of_decide_eq_true stale
  exact ⟨_,created,results,b',ran,first,second,clear_like_new created b' _⟩

end OrderBook
end Llte
