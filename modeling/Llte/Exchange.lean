import Llte.HistoryStore

/-! The publishing side of the exchange: each message gets the next number, goes
into the history and then into the packet under construction. What becomes of a
packet after `flush_packet` is up to the network. -/
namespace Llte
open Foundation

/-- The batch option, clamped. -/
def clampBatch (requested : Nat) : Nat :=
  if requested < 1 then 1 else if kMaxBatch < requested then kMaxBatch else requested

theorem clampBatch_bounds (requested : Nat) : 0 < clampBatch requested ∧ clampBatch requested ≤ kMaxBatch := by
  have some_ : 0 < kMaxBatch := by decide
  unfold clampBatch
  split
  next => exact ⟨Nat.one_pos,some_⟩
  next positive =>
    split
    next => exact ⟨some_,Nat.le_refl _⟩
    next short => exact ⟨by omega,by omega⟩

structure Exchange (cap : Capacity) where
  /-- The number of the first message. -/
  start : UInt64
  batch : Nat
  history : HistoryStore cap
  sequence : UInt64
  /-- Everything published so far, in order. -/
  published : List MarketMessage := []
  pending : List MarketMessage := []
  sent : List (List MarketMessage) := []

namespace Exchange
variable {cap : Capacity}

/-- The batch option is clamped to what a packet can carry. -/
def create (cap : Capacity) (start : UInt64) (requested : Nat) : Exchange cap where
  start := start
  batch := clampBatch requested
  history := HistoryStore.create cap
  sequence := start

def flushPacket (e : Exchange cap) : Exchange cap :=
  if e.pending = [] then e else {e with sent := e.sent ++ [e.pending], pending := []}

/-- One round of the publishing loop; `content` is what the order flow made up. -/
def publish (e : Exchange cap) (content : MarketMessage) : Exchange cap :=
  let message := {content with sequenceNumber := e.sequence}
  let e := {e with
    sequence := e.sequence+1
    history := e.history.append message
    published := e.published ++ [message]
    pending := e.pending ++ [message]}
  if e.pending.length = e.batch then e.flushPacket else e

end Exchange

inductive ExchangeStep where
  | publish (content : MarketMessage)
  | flush

namespace Exchange
variable {cap : Capacity}

def step (e : Exchange cap) : ExchangeStep → Exchange cap
  | .publish content => e.publish content
  | .flush => e.flushPacket

/-- What holds however long the exchange has been running. The numbers are right as
long as they stay below `2^63`. -/
structure Publishes (e : Exchange cap) : Prop where
  least : 1 ≤ e.batch
  most : e.batch ≤ kMaxBatch
  room : e.pending.length < e.batch
  numbers : e.start.toNat+e.published.length ≤ 2^63 →
    e.sequence.toNat = e.start.toNat+e.published.length ∧
      e.history.Retains e.start.toNat e.published
  pending : e.pending <:+ e.published
  sent : ∀ packet ∈ e.sent, packet ≠ [] ∧ packet.length ≤ kMaxBatch ∧ packet <:+: e.published

namespace Publishes
variable {e : Exchange cap}

theorem create (cap : Capacity) (start : UInt64) (requested : Nat) :
    Publishes (create cap start requested) := by
  have batch : 0 < (Exchange.create cap start requested).batch ∧
      (Exchange.create cap start requested).batch ≤ kMaxBatch := clampBatch_bounds requested
  refine ⟨batch.1,batch.2,?_,?_,?_,by simp [Exchange.create]⟩
  · exact batch.1
  · intro _
    exact ⟨rfl,.create cap _⟩
  · exact List.nil_suffix

theorem flushPacket (publishes : Publishes e) : Publishes e.flushPacket := by
  unfold Exchange.flushPacket
  split
  next => exact publishes
  next some_ =>
    have room := publishes.room
    have most := publishes.most
    refine ⟨publishes.least,most,publishes.least,publishes.numbers,List.nil_suffix,?_⟩
    intro packet member
    rcases List.mem_append.mp member with earlier | newest
    · exact publishes.sent packet earlier
    · rw [List.mem_singleton.mp newest]
      exact ⟨some_,by omega,publishes.pending.isInfix⟩

theorem publish (publishes : Publishes e) (content : MarketMessage) : Publishes (e.publish content) := by
  generalize stamped : ({content with sequenceNumber := e.sequence} : MarketMessage) = message
  have room := publishes.room
  have most := publishes.most
  have numbers : e.start.toNat+(e.published ++ [message]).length ≤ 2^63 →
      (e.sequence+1).toNat = e.start.toNat+(e.published ++ [message]).length ∧
        (e.history.append message).Retains e.start.toNat (e.published ++ [message]) := by
    intro small
    rw [List.length_append,List.length_singleton] at small ⊢
    obtain ⟨next,retains⟩ := publishes.numbers (by omega)
    constructor
    · rw [succ_toNat (by omega),next,Nat.add_assoc]
    · exact retains.append (by rw [← stamped]; exact next) (by omega)
  have pending : e.pending ++ [message] <:+ e.published ++ [message] :=
    (List.suffix_append_self_iff).mpr publishes.pending
  have sent : ∀ packet ∈ e.sent, packet ≠ [] ∧ packet.length ≤ kMaxBatch ∧
      packet <:+: e.published ++ [message] := by
    intro packet member
    obtain ⟨some_,short,within⟩ := publishes.sent packet member
    exact ⟨some_,short,within.trans (List.prefix_append _ _).isInfix⟩
  unfold Exchange.publish
  dsimp only
  rw [stamped]
  split
  next full =>
    -- the flush right after the last message of a batch
    unfold Exchange.flushPacket
    rw [if_neg (by simp)]
    refine ⟨publishes.least,most,publishes.least,numbers,List.nil_suffix,?_⟩
    intro packet member
    rcases List.mem_append.mp member with earlier | newest
    · exact sent packet earlier
    · rw [List.mem_singleton.mp newest]
      refine ⟨by simp,?_,pending.isInfix⟩
      rw [full]
      exact most
  next more =>
    refine ⟨publishes.least,most,?_,numbers,pending,sent⟩
    rw [List.length_append,List.length_singleton] at more ⊢
    dsimp only at more ⊢
    omega

theorem step (publishes : Publishes e) (s : ExchangeStep) : Publishes (e.step s) := by
  cases s with
  | publish content => exact publishes.publish content
  | flush => exact publishes.flushPacket

theorem sent_consecutive (publishes : Publishes e) (small : e.start.toNat+e.published.length ≤ 2^63)
    {packet : List MarketMessage} (member : packet ∈ e.sent) : ∃ first, Consecutive first packet := by
  obtain ⟨_,_,before,after,whole⟩ := publishes.sent packet member
  have all := (publishes.numbers small).2.consecutive
  rw [← whole,consecutive_append,consecutive_append] at all
  exact ⟨_,all.1.2⟩

end Publishes

theorem step_start (e : Exchange cap) (s : ExchangeStep) : (e.step s).start = e.start := by
  cases s with
  | publish content =>
    simp only [step,publish]
    split
    · unfold flushPacket
      split <;> rfl
    · rfl
  | flush =>
    simp only [step,flushPacket]
    split <;> rfl

theorem step_published (e : Exchange cap) (s : ExchangeStep) : e.published <+: (e.step s).published := by
  cases s with
  | publish content =>
    simp only [step,publish]
    split
    · unfold flushPacket
      split <;> exact List.prefix_append _ _
    · exact List.prefix_append _ _
  | flush =>
    simp only [step,flushPacket]
    split <;> exact List.prefix_refl _

end Exchange
end Llte
