import Llte.TradingSystem

/-! The engine's book against the exchange's: as long as the handler reports nothing
lost, it is the book the exchange had some messages ago. -/
namespace Llte
open Foundation

namespace Simulator
variable {cap : Capacity} {b₀ : OrderBook exchangeBook}

/-- A round that adds an order publishes it whatever the book makes of it. -/
theorem Faithful.adds {s : Simulator cap} (faithful : Faithful b₀ s) (d : Draws) (adding : d.roll = .add) :
    ∃ s', s.iterate d = some s' ∧ Faithful b₀ s' ∧
      s'.exchange = s.exchange.publish
        (OrderFlow.message d .add s.flow.nextOrderId d.side (d.priceFor d.side) d.quantity) ∧
      s'.flow.nextOrderId = s.flow.nextOrderId+1 := by
  obtain ⟨s',iterated,faithful'⟩ := faithful.iterate d
  have generated : s.flow.generate d = s.flow.add d := by
    simp only [OrderFlow.generate,adding]
    split <;> rfl
  refine ⟨s',iterated,faithful',?_⟩
  rw [Simulator.iterate,generated,OrderFlow.add] at iterated
  split at iterated
  next => simp at iterated
  next content result flow added =>
    split at added
    next => simp at added
    next =>
      cases added
      cases iterated
      exact ⟨rfl,rfl⟩

end Simulator

namespace Pipeline
variable {hcap cap : Capacity} {p : PowerOfTwo} {c c' : Config} {σ : Type}

/-- Two pipelines whose engines keep different books. The feed does not depend on them. -/
structure Beside (s : Pipeline cap p c σ) (t : Pipeline cap p c' σ) : Prop where
  handler : t.handler = s.handler
  represents : ∃ a, OrderBook.Represents t.engine.book a

theorem Beside.act {s s' : Pipeline cap p c σ} {t : Pipeline cap p c' σ} (beside : Beside s t)
    {client : Option (Client σ)} {expect : UInt64} {m : Move} (moved : s.act client expect m = some s') :
    ∃ t', t.act client expect m = some t' ∧ Beside s' t' := by
  obtain ⟨process,taken,rfl⟩ := Option.map_eq_some_iff.mp moved
  rw [Pipeline.act,beside.handler,taken]
  exact ⟨_,rfl,rfl,beside.represents⟩

theorem Beside.move {s s' : Pipeline cap p c σ} {t : Pipeline cap p c' σ} (beside : Beside s t)
    {client : Option (Client σ)} {expect : UInt64} {m : PipelineMove} (moved : s.move client expect m = some s') :
    ∃ t', t.move client expect m = some t' ∧ Beside s' t' := by
  cases m with
  | signal => exact beside.act moved
  | run clock => exact beside.act moved
  | recvError => exact beside.act moved
  | timeout idle => exact beside.act moved
  | callPop => exact beside.act moved
  | datagram idle fuel t0Recv t1Parsed bytes =>
    simp only [Pipeline.move] at moved ⊢
    rw [beside.handler]
    split at moved
    next here =>
      obtain ⟨⟨calls,handler⟩,taken,rfl⟩ := Option.map_eq_some_iff.mp moved
      rw [taken]
      exact ⟨_,rfl,rfl,beside.represents⟩
    next => simp at moved
  | pop =>
    have rings : t.ring = s.ring := by rw [ring,beside.handler,ring]
    simp only [Pipeline.move] at moved ⊢
    rw [rings]
    split at moved
    next => simp at moved
    next phase running =>
      split at moved
      next event returned =>
        -- whatever book it is, the engine gets through the event
        obtain ⟨s₁,acted,applied⟩ := Option.bind_eq_some_iff.mp moved
        obtain ⟨t₁,acted',beside₁⟩ := beside.act acted
        obtain ⟨⟨result,engine⟩,_,rfl⟩ := Option.map_eq_some_iff.mp applied
        obtain ⟨a,agree⟩ := beside₁.represents
        obtain ⟨engine',consumed,agree',_⟩ := Engine.consume_refines agree event.msg
        rw [acted',Option.bind_some,apply,consumed]
        exact ⟨_,rfl,beside₁.handler,_,agree'⟩
      next => exact beside.act moved

private theorem Beside.traded {service : RecoveryService hcap σ} {expect : UInt64} {m : TradingMove} {s s' : Pipeline cap p c σ}
    {t : Pipeline cap p c' σ} (beside : Beside s t) (moved : s.trade service expect m = some s') :
    ∃ t', t.trade service expect m = some t' ∧ Beside s' t' := by
  cases m with
  | exchange e =>
    cases moved
    refine ⟨_,rfl,?_,beside.represents⟩
    dsimp only [client]
    rw [beside.handler]
  | pipeline m => exact beside.move moved

private theorem Beside.forged {service : RecoveryService hcap σ} {m : TradingMove} {s : Pipeline cap p c σ}
    {t : Pipeline cap p c' σ} (beside : Beside s t) : s.Forged service m ↔ t.Forged service m := by
  unfold Forged client
  rw [beside.handler]

private theorem Beside.givesUp {m : TradingMove} {s : Pipeline cap p c σ} {t : Pipeline cap p c' σ} (beside : Beside s t) :
    s.GivesUp m ↔ t.GivesUp m := by
  unfold GivesUp
  rw [beside.handler]

/-- A run of one is a run of the other, with the same steps that stand out. -/
theorem Beside.played {service : RecoveryService hcap σ} {expect : UInt64} {moves : List TradingMove}
    {s s' : Pipeline cap p c σ} {t : Pipeline cap p c' σ} (beside : Beside s t)
    (played : play (trade service expect) moves s = some s')
    (genuine : Avoids (trade service expect) (Forged service) moves s)
    (patient : Avoids (trade service expect) GivesUp moves s) :
    ∃ t', play (trade service expect) moves t = some t' ∧ Beside s' t' ∧
      Avoids (trade service expect) (Forged service) moves t ∧ Avoids (trade service expect) GivesUp moves t := by
  induction moves generalizing s t with
  | nil =>
    cases played
    exact ⟨t,rfl,beside,trivial,trivial⟩
  | cons m rest ih =>
    rw [play] at played
    split at played
    next => simp at played
    next s₁ moved =>
      obtain ⟨t₁,moved',beside₁⟩ := beside.traded moved
      rw [Avoids,moved] at genuine patient
      obtain ⟨t',played',beside',genuine',patient'⟩ := ih beside₁ played genuine.2 patient.2
      rw [play,Avoids,Avoids,moved']
      exact ⟨t',played',beside',⟨beside.forged.not.mp genuine.1,genuine'⟩,beside.givesUp.not.mp patient.1,patient'⟩

end Pipeline

namespace Pipeline
variable {hcap cap : Capacity} {p : PowerOfTwo} {σ : Type}

/-- The draws of a round that adds a buy order. -/
def bid : Draws := ⟨.add,.buy,1,1,0,0,by decide,by decide,by decide,by decide⟩

def bidOf (orderId : UInt64) : MarketMessage :=
  OrderFlow.message bid .add orderId .buy (bid.priceFor .buy) bid.quantity

def bids (hcap : Capacity) : Exchange hcap :=
  (((Exchange.create hcap 1001 1).publish (bidOf 1)).publish (bidOf 2)).publish (bidOf 3)

end Pipeline
end Llte
