import Llte.Engine
import Llte.Foundation.SwapPop
import Llte.LatencyStats
import Llte.Shutdown

/-! The end-to-end benchmark: one process in which a producer thread feeds a prepared
stream through packets, the sequencer and the ring to a consumer thread with a book. -/
namespace Llte
open Foundation

/-- The draws for one message; `pick` is reduced to the size of the live vector. -/
structure StreamDraws where
  roll : Nat
  side : Side
  offset : Int
  lot : Nat
  pick : Nat
  rollHigh : roll < 100
  offsetLow : -40 ≤ offset
  offsetHigh : offset ≤ 40
  lotLow : 1 ≤ lot
  lotHigh : lot ≤ 20

structure StreamBuilder where
  live : List UInt64 := []
  nextOrderId : UInt64 := 1
  sequence : UInt64 := 1001
  stream : List MarketMessage := []

namespace StreamBuilder

/-- The message of one round and the orders that are then live. A trade leaves its order
in the vector, also when it fills it. -/
def draw (b : StreamBuilder) (d : StreamDraws) : MarketMessage × List UInt64 :=
  let message : MarketMessage := {sequenceNumber := b.sequence, symbolId := 1}
  let index := d.pick % b.live.length
  match if d.roll < 60 then none else b.live[index]? with
  | none =>
    ({message with
      type := MessageType.add.byte
      orderId := b.nextOrderId
      side := d.side.byte
      price := Int64.ofInt (18750 + d.offset + if d.side = .buy then -2 else 2)
      quantity := UInt32.ofNat d.lot * 10},b.live ++ [b.nextOrderId])
  | some orderId =>
    if d.roll < 80 then
      ({message with type := MessageType.cancel.byte, orderId := orderId},
        swapPop b.live index)
    else if d.roll < 92 then
      ({message with
        type := MessageType.modify.byte
        orderId := orderId
        price := Int64.ofInt (18750 + d.offset)
        quantity := UInt32.ofNat d.lot * 10},b.live)
    else
      ({message with type := MessageType.trade.byte, orderId := orderId, quantity := UInt32.ofNat d.lot * 5},b.live)

def add (b : StreamBuilder) (d : StreamDraws) : StreamBuilder where
  live := (b.draw d).2
  nextOrderId := if (b.draw d).1.type = MessageType.add.byte then b.nextOrderId+1 else b.nextOrderId
  sequence := b.sequence+1
  stream := b.stream ++ [(b.draw d).1]

end StreamBuilder

def buildStream (draws : List StreamDraws) : List MarketMessage := (draws.foldl StreamBuilder.add {}).stream

structure Stages where
  decode : LatencySamples
  sequence : LatencySamples
  ring : LatencySamples
  book : LatencySamples
  total : LatencySamples

namespace Stages

def create (count : Nat) : Stages where
  decode := {capacity := count}
  sequence := {capacity := count}
  ring := {capacity := count}
  book := {capacity := count}
  total := {capacity := count}

def add (stages : Stages) (event : PipelineEvent) (t3Dequeue t4Book : UInt64) : Stages where
  decode := stages.decode.add (event.t1Parsed - event.t0Recv)
  sequence := stages.sequence.add (event.t2Enqueue - event.t1Parsed)
  ring := stages.ring.add (t3Dequeue - event.t2Enqueue)
  book := stages.book.add (t4Book - t3Dequeue)
  total := stages.total.add (t4Book - event.t0Recv)

end Stages

/-- Where the producer is: it spins until the consumer is ready, and in every round until the
deadline of the round. -/
inductive Produce where
  | wait
  | pace
  | packet
  | drain
  | push
  | store
  | finished
  deriving DecidableEq

structure EndToEnd (cap : Capacity) (p : PowerOfTwo) (c : Config) where
  ring : Spsc PipelineEvent p
  sequencer : SequenceManager cap
  book : OrderBook c
  stages : Stages
  startNs : UInt64 := 0
  position : Nat := 0
  consumerReady : Bool := false
  producerDone : Bool := false
  producer : Produce := .wait
  consumer : Consume := .pop
  consumed : UInt64 := 0

/-- The steps of both threads, with the clock readings they take. -/
inductive EndToEndMove where
  | ready
  | start (clock : UInt64)
  | pace (clock : UInt64)
  | packet (timestamps : Nat → UInt64) (t0Recv t1Parsed : UInt64)
  | deliver (clock : UInt64)
  | push (clock : UInt64)
  | storeDone
  | callPop
  | pop (t3Dequeue t4Book : UInt64)
  | loadDone
  | loadRead
  | loadWrite

namespace EndToEnd
variable {cap : Capacity} {p : PowerOfTwo} {c : Config}

def create (cap : Capacity) (p : PowerOfTwo) (origin : UInt64) (book : OrderBook c) (count : Nat) :
    EndToEnd cap p c where
  ring := Spsc.create PipelineEvent p origin
  sequencer := SequenceManager.create cap
  book := book
  stages := Stages.create count

/-- The copies in the packet buffer, stamped one by one. -/
def payload (stream : List MarketMessage) (position count : Nat) (timestamps : Nat → UInt64) : List MarketMessage :=
  ((stream.drop position).take count).mapIdx fun i message => {message with timestampNs := timestamps i}

def intervalNs (rate : UInt64) : UInt64 := if 0 < rate then 1000000000/rate else 0

def deadline (rate : UInt64) (s : EndToEnd cap p c) : UInt64 := s.startNs + UInt64.ofNat s.position*intervalNs rate

/-- The spin of a round goes on. -/
def early (rate : UInt64) (s : EndToEnd cap p c) (clock : UInt64) : Bool :=
  0 < intervalNs rate ∧ clock < s.deadline rate

/-- The head of the producer's loop. -/
def nextRound (stream : List MarketMessage) (s : EndToEnd cap p c) : EndToEnd cap p c :=
  {s with producer := if s.position < stream.length then .pace else .store}

/-- The packet of a round and its way into the sequencer. -/
def feed (stream : List MarketMessage) (batch : Nat) (s : EndToEnd cap p c) (timestamps : Nat → UInt64)
    (t0Recv t1Parsed : UInt64) : Option (EndToEnd cap p c) :=
  let count := min batch (stream.length - s.position)
  if count = 0 ∨ kMaxBatch < count then some (nextRound stream {s with position := s.position+count})
  else
    match SequenceManager.acceptAll (none : Option (Client Unit)) 0
      ((payload stream s.position count timestamps).map (stamp t0Recv t1Parsed)) s.sequencer () with
    | none => none
    | some (_,sequencer,_) =>
      some {s with sequencer := sequencer, position := s.position+count, producer := .drain}

def deliver (stream : List MarketMessage) (s : EndToEnd cap p c) (clock : UInt64) : EndToEnd cap p c :=
  match s.sequencer.nextDeliverable with
  | (none,sequencer) => nextRound stream {s with sequencer := sequencer}
  | (some out,sequencer) =>
    {s with
      sequencer := sequencer
      producer := .push
      ring := {s.ring with producer := some (.load {PipelineEvent.of out clock with recovered := 0})}}

/-- A push that fails is made again with a new stamp. -/
def push (s : EndToEnd cap p c) (phase : Push PipelineEvent) (clock : UInt64) : EndToEnd cap p c :=
  match (phase.step s.ring.queue).2 with
  | .inl _ => {s with ring := s.ring.push phase}
  | .inr true => {s with ring := s.ring.push phase, producer := .drain}
  | .inr false =>
    {s with ring := {s.ring.push phase with producer := some (.load {phase.value with t2Enqueue := clock})}}

def pop (s : EndToEnd cap p c) (phase : Pop PipelineEvent) (t3Dequeue t4Book : UInt64) :
    Option (EndToEnd cap p c) :=
  match (phase.step s.ring.queue).2 with
  | .inl _ => some {s with ring := s.ring.pop phase}
  | .inr none => some {s with ring := s.ring.pop phase, consumer := .flag}
  | .inr (some event) =>
    match Engine.dispatch s.book event.msg with
    | none => none
    | some (_,book) =>
      some {s with
        ring := s.ring.pop phase
        book := book
        stages := s.stages.add event t3Dequeue t4Book
        consumed := s.consumed+1}

def move (stream : List MarketMessage) (batch : Nat) (rate : UInt64) (s : EndToEnd cap p c) :
    EndToEndMove → Option (EndToEnd cap p c)
  | .ready => if s.consumerReady then none else some {s with consumerReady := true}
  | .start clock =>
    if s.producer = .wait then
      some (if s.consumerReady then nextRound stream {s with startNs := clock} else s)
    else none
  | .pace clock =>
    if s.producer = .pace then some (if s.early rate clock then s else {s with producer := .packet}) else none
  | .packet timestamps t0Recv t1Parsed =>
    if s.producer = .packet then s.feed stream batch timestamps t0Recv t1Parsed else none
  | .deliver clock => if s.producer = .drain then some (s.deliver stream clock) else none
  | .push clock =>
    match s.producer,s.ring.producer with
    | .push,some phase => some (s.push phase clock)
    | _,_ => none
  | .storeDone =>
    if s.producer = .store then some {s with producerDone := true, producer := .finished} else none
  | .callPop =>
    if s.consumerReady = true ∧ s.consumer = .pop ∧ s.ring.consumer = none then
      some {s with ring := {s.ring with consumer := some .load}}
    else none
  | .pop t3Dequeue t4Book =>
    match s.ring.consumer with
    | none => none
    | some phase => s.pop phase t3Dequeue t4Book
  | .loadDone =>
    if s.consumer = .flag then some {s with consumer := if s.producerDone then .empty else .pop} else none
  | .loadRead =>
    match s.consumer with
    | .empty => some {s with consumer := .emptyWrite s.ring.queue.readIdx}
    | .emptyRead write => some {s with consumer := Shutdown.decideBreak s.ring.queue.readIdx write}
    | _ => none
  | .loadWrite =>
    match s.consumer with
    | .empty => some {s with consumer := .emptyRead s.ring.queue.writeIdx}
    | .emptyWrite read => some {s with consumer := Shutdown.decideBreak read s.ring.queue.writeIdx}
    | _ => none

end EndToEnd

/-- A message without its publish time. -/
def MarketMessage.unstamped (message : MarketMessage) : MarketMessage := {message with timestampNs := 0}

namespace StreamBuilder

theorem draw_message (b : StreamBuilder) (d : StreamDraws) : (b.draw d).1.sequenceNumber = b.sequence ∧
    (b.draw d).1.timestampNs = 0 ∧ (MessageType.ofByte (b.draw d).1.type).isSome := by
  unfold draw
  dsimp only
  split
  next => exact ⟨rfl,rfl,by rw [MessageType.ofByte_byte]; rfl⟩
  next =>
    split
    next => exact ⟨rfl,rfl,by rw [MessageType.ofByte_byte]; rfl⟩
    next =>
      split
      next => exact ⟨rfl,rfl,by rw [MessageType.ofByte_byte]; rfl⟩
      next => exact ⟨rfl,rfl,by rw [MessageType.ofByte_byte]; rfl⟩

/-- What holds after any number of rounds that leaves the numbers below `2^63`. -/
structure Numbered (count : Nat) (b : StreamBuilder) : Prop where
  length : b.stream.length = count
  next : b.sequence.toNat = 1001+count
  consecutive : Consecutive 1001 b.stream
  unstamped : ∀ message ∈ b.stream, message.unstamped = message
  typed : ∀ message ∈ b.stream, (MessageType.ofByte message.type).isSome

theorem Numbered.add {count : Nat} {b : StreamBuilder} (numbered : Numbered count b) (d : StreamDraws)
    (small : 1001+count < 2^63) : Numbered (count+1) (b.add d) := by
  obtain ⟨number,time,type⟩ := b.draw_message d
  have next := numbered.next
  refine ⟨?_,?_,?_,?_,?_⟩
  · rw [StreamBuilder.add,List.length_append,numbered.length]
    rfl
  · change (b.sequence+1).toNat = _
    rw [succ_toNat (by omega),next,Nat.add_assoc]
  · rw [StreamBuilder.add,consecutive_append,numbered.length]
    exact ⟨numbered.consecutive,by rw [number,next],trivial⟩
  · rw [StreamBuilder.add]
    intro message member
    rcases List.mem_append.mp member with earlier | newest
    · exact numbered.unstamped message earlier
    · rw [List.mem_singleton.mp newest,MarketMessage.unstamped,← time]
  · rw [StreamBuilder.add]
    intro message member
    rcases List.mem_append.mp member with earlier | newest
    · exact numbered.typed message earlier
    · rw [List.mem_singleton.mp newest]
      exact type

theorem Numbered.addAll (draws : List StreamDraws) {count : Nat} {b : StreamBuilder} (numbered : Numbered count b)
    (small : 1001+count+draws.length ≤ 2^63) : Numbered (count+draws.length) (draws.foldl StreamBuilder.add b) := by
  induction draws generalizing count b with
  | nil => exact numbered
  | cons d rest ih =>
    rw [List.length_cons] at small
    have all := ih (numbered.add d (by omega)) (by omega)
    rw [List.foldl_cons,List.length_cons,show count+(rest.length+1) = count+1+rest.length by omega]
    exact all

end StreamBuilder

theorem buildStream_numbered (draws : List StreamDraws) (small : 1001+draws.length ≤ 2^63) :
    StreamBuilder.Numbered draws.length (draws.foldl StreamBuilder.add {}) := by
  have begun : StreamBuilder.Numbered 0 {} := ⟨rfl,rfl,trivial,by simp,by simp⟩
  have all := begun.addAll draws (by omega)
  rw [Nat.zero_add] at all
  exact all

end Llte
