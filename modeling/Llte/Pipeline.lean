import Llte.Datagram
import Llte.Engine
import Llte.OrderBookRuns

/-! From datagrams to counters: the handler, the ring and the engine as one machine.
Any bytes may arrive, and the two processes interleave step by step. The engine applies
an event in the step in which its `try_pop` returns it. -/
namespace Llte
open Foundation

namespace ApplyCounters

def total (counters : ApplyCounters) : UInt64 :=
  counters.applied+counters.unknownOrder+counters.duplicateOrder+counters.outOfBand+counters.poolExhausted+
    counters.invalid

/-- Exactly one field is one higher. -/
def OneUp (before after : ApplyCounters) : Prop :=
  after = {before with applied := before.applied+1} ∨
  after = {before with unknownOrder := before.unknownOrder+1} ∨
  after = {before with duplicateOrder := before.duplicateOrder+1} ∨
  after = {before with outOfBand := before.outOfBand+1} ∨
  after = {before with poolExhausted := before.poolExhausted+1} ∨
  after = {before with invalid := before.invalid+1}
  deriving Decidable

private theorem record_oneUp (counters : ApplyCounters) (result : Result) : OneUp counters (record counters result) := by
  cases result <;> simp [OneUp,record]

theorem OneUp.total {before after : ApplyCounters} (up : OneUp before after) : after.total = before.total+1 := by
  rcases up with rfl | rfl | rfl | rfl | rfl | rfl <;> simp only [ApplyCounters.total] <;> ac_rfl

private theorem not_oneUp_self (counters : ApplyCounters) : ¬ OneUp counters counters := by
  obtain ⟨applied,unknownOrder,duplicateOrder,outOfBand,poolExhausted,invalid⟩ := counters
  simp [OneUp]

end ApplyCounters

/-- The type byte of the event is one of the four. -/
def PipelineEvent.Typed (event : PipelineEvent) : Prop := (MessageType.ofByte event.msg.type).isSome
  deriving Decidable

namespace Engine
variable {c : Config} {engine engine' : Engine c} {event : PipelineEvent}

private theorem called_answers {called : Option (Result × OrderBook c)} {result : Option Result} {book : OrderBook c}
    (returned : called.map (Prod.map some id) = some (result,book)) : ∃ answer, result = some answer := by
  obtain ⟨⟨answer,_⟩,_,same⟩ := Option.map_eq_some_iff.mp returned
  exact ⟨answer,(congrArg Prod.fst same).symm⟩

private theorem dispatch_typed {book : OrderBook c} {message : MarketMessage} {result : Option Result} {type : MessageType}
    (typed : MessageType.ofByte message.type = some type)
    (dispatched : dispatch engine.book message = some (result,book)) : ∃ answer, result = some answer := by
  unfold dispatch at dispatched
  rw [typed] at dispatched
  cases type <;> exact called_answers dispatched

private theorem consume_typed {result : Option Result} (typed : event.Typed)
    (consumed : engine.consume event.msg = some (result,engine')) : engine.counters.OneUp engine'.counters := by
  obtain ⟨type,typed⟩ := Option.isSome_iff_exists.mp typed
  unfold consume at consumed
  split at consumed
  next => simp at consumed
  next book dispatched =>
    obtain ⟨answer,same⟩ := dispatch_typed typed dispatched
    simp at same
  next answer book dispatched =>
    cases consumed
    exact engine.counters.record_oneUp answer

/-- The switch has no case for the event, and `record` is not called. -/
theorem consume_untyped {result : Option Result} (untyped : ¬ event.Typed)
    (consumed : engine.consume event.msg = some (result,engine')) : engine'.counters = engine.counters := by
  rw [PipelineEvent.Typed,Option.not_isSome_iff_eq_none] at untyped
  have dispatched : dispatch engine.book event.msg = some (none,engine.book) := by rw [dispatch,untyped]
  rw [engine.consume_book event.msg dispatched] at consumed
  cases consumed
  rfl

end Engine

structure Pipeline (cap : Capacity) (p : PowerOfTwo) (c : Config) (σ : Type) where
  handler : FeedHandler cap p σ
  engine : Engine c
  consumed : UInt64 := 0

/-- `timeout` and `recvError` are calls of `recv` that bring no datagram. -/
inductive PipelineMove where
  | signal
  | run (clock : UInt64)
  | recvError
  | timeout (idle : Bool)
  | datagram (idle : Bool) (fuel : Nat) (t0Recv t1Parsed : UInt64) (bytes : List UInt8)
  | callPop
  | pop

namespace Pipeline
variable {cap : Capacity} {p : PowerOfTwo} {c : Config} {σ : Type}

def create (cap : Capacity) (p : PowerOfTwo) (origin : UInt64) (c₀ : σ) (packet : PacketBuffer)
    (book : OrderBook c) : Pipeline cap p c σ where
  handler := .create cap p origin c₀ packet
  engine := {book := book}

def ring (s : Pipeline cap p c σ) : Spsc PipelineEvent p := s.handler.process.ring

/-- A step that the handler's process or the ring makes by itself. -/
def act (client : Option (Client σ)) (expect : UInt64) (s : Pipeline cap p c σ) (m : Move) :
    Option (Pipeline cap p c σ) :=
  (s.handler.process.move client expect m).map fun process => {s with handler := {s.handler with process := process}}

/-- The body of the engine's loop, once `try_pop` has returned an event. -/
def apply (s : Pipeline cap p c σ) (event : PipelineEvent) : Option (Pipeline cap p c σ) :=
  (s.engine.consume event.msg).map fun (_,engine) => {s with engine := engine, consumed := s.consumed+1}

def move (client : Option (Client σ)) (expect : UInt64) (s : Pipeline cap p c σ) :
    PipelineMove → Option (Pipeline cap p c σ)
  | .signal => s.act client expect .signal
  | .run clock => s.act client expect (.run clock)
  | .recvError => s.act client expect (.receive .error)
  | .timeout idle => s.act client expect (.receive (.nothing idle))
  | .datagram idle fuel t0Recv t1Parsed bytes =>
    match s.handler.process.control with
    | .receive =>
      (s.handler.takeDatagram client idle fuel t0Recv t1Parsed bytes).map fun (_,handler) =>
        {s with handler := handler}
    | _ => none
  | .callPop => s.act client expect .callPop
  | .pop =>
    match s.ring.consumer with
    | none => none
    | some phase =>
      match (phase.step s.ring.queue).2 with
      | .inr (some event) => (s.act client expect .pop).bind fun s => s.apply event
      | _ => s.act client expect .pop

end Pipeline

namespace HandlerProcess
variable {cap : Capacity} {p : PowerOfTwo} {σ : Type} {s s' : HandlerProcess cap p σ}

theorem Ran.popped {expect clock : UInt64} (ran : Ran expect clock s s') : s'.ring.popped = s.ring.popped := by
  cases ran with
  | pushing out phase => exact (s.ring.push_consumer phase).2
  | pushed out phase => exact (s.ring.push_consumer phase).2
  | refused out phase => exact (s.ring.push_consumer phase).2
  | _ => rfl

theorem receive_ring {client : Option (Client σ)} {reception : Reception}
    (taken : s.receive client reception = some s') : s'.ring = s.ring := by
  unfold receive at taken
  split at taken
  next => cases taken; rfl
  next => cases taken; rfl
  next => cases taken; rfl
  next => split at taken <;> cases taken; rfl

/-- Only the consumer takes events out of the ring. -/
theorem move_popped {client : Option (Client σ)} {expect : UInt64} {m : Move} (other : m ≠ .pop)
    (taken : s.move client expect m = some s') : s'.ring.popped = s.ring.popped := by
  cases m with
  | signal => cases taken; rfl
  | callPop =>
    simp only [move] at taken
    split at taken <;> cases taken
    rfl
  | pop => exact absurd rfl other
  | receive reception =>
    simp only [move] at taken
    split at taken
    next => rw [receive_ring taken]
    next => simp at taken
  | run clock => exact (run_ran taken).popped

end HandlerProcess

namespace Pipeline
variable {cap : Capacity} {p : PowerOfTwo} {c : Config} {σ : Type} {s s' : Pipeline cap p c σ}
  {client : Option (Client σ)} {expect : UInt64}

/-- A step leaves the engine alone, or the engine consumes the event it popped. -/
inductive Turned (s s' : Pipeline cap p c σ) : Prop where
  | quiet (engine : s'.engine = s.engine) (consumed : s'.consumed = s.consumed)
      (popped : s'.ring.popped = s.ring.popped)
  | event (event : PipelineEvent) (result : Option Result)
      (applied : s.engine.consume event.msg = some (result,s'.engine))
      (consumed : s'.consumed = s.consumed+1) (popped : s'.ring.popped = s.ring.popped ++ [event])

private theorem act_turned {m : Move} (other : m ≠ .pop) (moved : s.act client expect m = some s') : Turned s s' := by
  obtain ⟨process,taken,rfl⟩ := Option.map_eq_some_iff.mp moved
  exact .quiet rfl rfl (HandlerProcess.move_popped other taken)

private theorem pop_act {phase : Pop PipelineEvent} (running : s.ring.consumer = some phase) :
    s.act client expect .pop = some {s with
      handler := {s.handler with process := {s.handler.process with ring := s.ring.pop phase}}} := by
  change s.handler.process.ring.consumer = some phase at running
  rw [act,HandlerProcess.move]
  dsimp only
  rw [running]
  rfl

theorem move_turned {m : PipelineMove} (moved : s.move client expect m = some s') : Turned s s' := by
  cases m with
  | signal => exact act_turned (by simp) moved
  | run clock => exact act_turned (by simp) moved
  | recvError => exact act_turned (by simp) moved
  | timeout idle => exact act_turned (by simp) moved
  | callPop => exact act_turned (by simp) moved
  | datagram idle fuel t0Recv t1Parsed bytes =>
    simp only [move] at moved
    split at moved
    next =>
      obtain ⟨⟨calls,handler⟩,taken,rfl⟩ := Option.map_eq_some_iff.mp moved
      exact .quiet rfl rfl (congrArg Spsc.popped (HandlerProcess.receive_ring (FeedHandler.takeDatagram_receives taken)))
    next => simp at moved
  | pop =>
    simp only [move] at moved
    split at moved
    next => simp at moved
    next phase running =>
      rw [pop_act running] at moved
      split at moved
      next event returned =>
        rw [Option.bind_some,apply] at moved
        obtain ⟨⟨result,engine⟩,applied,rfl⟩ := Option.map_eq_some_iff.mp moved
        exact .event event result applied rfl (s.ring.pop_returns phase (some event) returned).2
      next other =>
        cases moved
        refine .quiet rfl rfl ?_
        cases stepped : (phase.step s.ring.queue).2 with
        | inl later => exact (s.ring.pop_stays phase later stepped).2
        | inr answer =>
          cases answer with
          | none => exact (s.ring.pop_returns phase none stepped).2.trans (List.append_nil _)
          | some event => exact absurd stepped (other event)

theorem Turned.popped (turned : Turned s s') : s.ring.popped <+: s'.ring.popped := by
  cases turned with
  | quiet _ _ popped => rw [popped]
  | event event _ _ _ popped =>
    rw [popped]
    exact List.prefix_append _ _

private theorem Turned.oneUp (turned : Turned s s') (typed : ∀ event ∈ s'.ring.popped, event.Typed)
    (counted : s'.consumed ≠ s.consumed) : s.engine.counters.OneUp s'.engine.counters := by
  cases turned with
  | quiet _ consumed _ => exact absurd consumed counted
  | event event result applied _ popped =>
    exact Engine.consume_typed (typed event (by rw [popped]; simp)) applied

theorem Turned.balanced (turned : Turned s s') (typed : ∀ event ∈ s'.ring.popped, event.Typed)
    (balanced : s.consumed = s.engine.counters.total) : s'.consumed = s'.engine.counters.total := by
  cases turned with
  | quiet engine consumed _ => rw [engine,consumed,balanced]
  | event event result applied consumed popped =>
    have up := Engine.consume_typed (typed event (by rw [popped]; simp)) applied
    rw [consumed,balanced,up.total]

theorem reached_popped (reached : Reached (move client expect) s s') : s.ring.popped <+: s'.ring.popped := by
  induction reached with
  | refl => exact List.prefix_refl _
  | tail _ step ih =>
    obtain ⟨m,moved⟩ := step
    exact ih.trans (move_turned moved).popped

theorem reached_balanced (reached : Reached (move client expect) s s')
    (typed : ∀ event ∈ s'.ring.popped, event.Typed) (balanced : s.consumed = s.engine.counters.total) :
    s'.consumed = s'.engine.counters.total := by
  induction reached with
  | refl => exact balanced
  | tail _ step ih =>
    obtain ⟨m,moved⟩ := step
    have turned := move_turned moved
    exact turned.balanced typed (ih fun event member => typed event (turned.popped.subset member))

/-- An event of unknown type in the log was once a step that counted nothing. -/
theorem reached_typed (reached : Reached (move client expect) s s')
    (fresh : ∀ event ∈ s.ring.popped, event.Typed)
    (counts : ∀ s₁ s₂, Reached (move client expect) s s₁ → Steps (move client expect) s₁ s₂ →
      Reached (move client expect) s₂ s' → s₂.consumed ≠ s₁.consumed →
      s₁.engine.counters.OneUp s₂.engine.counters) :
    ∀ event ∈ s'.ring.popped, event.Typed := by
  induction reached with
  | refl => exact fresh
  | @tail s₁ s₂ before step ih =>
    have earlier := ih fun t₁ t₂ first one rest => counts t₁ t₂ first one (rest.tail step)
    obtain ⟨m,moved⟩ := step
    cases move_turned moved with
    | quiet _ _ popped =>
      rw [popped]
      exact earlier
    | event newest result applied consumed popped =>
      have up := counts s₁ s₂ before ⟨m,moved⟩ .refl (by rw [consumed]; simp)
      intro event member
      rw [popped] at member
      rcases List.mem_append.mp member with old | last
      · exact earlier event old
      · rw [List.mem_singleton.mp last]
        by_contra untyped
        rw [Engine.consume_untyped untyped applied] at up
        exact ApplyCounters.not_oneUp_self _ up

/-- The engine's book always represents some orders, so that no call on it fails. -/
theorem reached_represents {origin : UInt64} {c₀ : σ} {packet : PacketBuffer} {b₀ : OrderBook c}
    (created : OrderBook.create c = some b₀)
    (reached : Reached (move client expect) (create cap p origin c₀ packet b₀) s) :
    ∃ a, OrderBook.Represents s.engine.book a := by
  have start : ∃ a, OrderBook.Represents (create cap p origin c₀ packet b₀).engine.book a :=
    ⟨.empty,OrderBook.create_represents created⟩
  refine Reached.invariant (I := fun s => ∃ a, OrderBook.Represents s.engine.book a) reached start ?_
  rintro s₁ m s₂ ⟨a,agree⟩ moved
  cases move_turned moved with
  | quiet engine _ _ =>
    rw [engine]
    exact ⟨a,agree⟩
  | event event result applied _ _ =>
    obtain ⟨engine,consumed,agree',_⟩ := Engine.consume_refines agree event.msg
    rw [applied] at consumed
    cases consumed
    exact ⟨_,agree'⟩

theorem pop_returns {origin : UInt64} {c₀ : σ} {packet : PacketBuffer} {b₀ : OrderBook c}
    (created : OrderBook.create c = some b₀)
    (reached : Reached (move client expect) (create cap p origin c₀ packet b₀) s) {phase : Pop PipelineEvent}
    (running : s.ring.consumer = some phase) : ∃ s', s.move client expect .pop = some s' := by
  obtain ⟨a,agree⟩ := reached_represents created reached
  simp only [move,running,pop_act running]
  split
  next event returned =>
    obtain ⟨engine,consumed,_⟩ := Engine.consume_refines agree event.msg
    rw [Option.bind_some,apply,consumed]
    exact ⟨_,rfl⟩
  next => exact ⟨_,rfl⟩

/-- In every run, from the first datagram on: the engine's next step is always possible;
each consumed event moves exactly one counter and the counters always add up to
`consumed`, exactly if every event that came out of the ring is of one of the four types. -/
theorem consumed_accounted_iff (client : Option (Client σ)) (expect : UInt64) (origin : UInt64) (c₀ : σ)
    (packet : PacketBuffer) (b₀ : OrderBook c) (created : OrderBook.create c = some b₀)
    (s : Pipeline cap p c σ) (reached : Reached (move client expect) (create cap p origin c₀ packet b₀) s) :
    (∀ phase, s.ring.consumer = some phase → ∃ s', s.move client expect .pop = some s') ∧
    (((∀ s₁ s₂, Reached (move client expect) (create cap p origin c₀ packet b₀) s₁ →
        Steps (move client expect) s₁ s₂ → Reached (move client expect) s₂ s →
        s₂.consumed ≠ s₁.consumed → s₁.engine.counters.OneUp s₂.engine.counters) ∧
      (∀ s₁, Reached (move client expect) (create cap p origin c₀ packet b₀) s₁ →
        Reached (move client expect) s₁ s → s₁.consumed = s₁.engine.counters.total)) ↔
    ∀ event ∈ s.ring.popped, event.Typed) := by
  refine ⟨fun phase running => pop_returns created reached running,?_⟩
  constructor
  · rintro ⟨counts,_⟩
    exact reached_typed reached (by simp [create,ring,FeedHandler.create,HandlerProcess.create,Spsc.create]) counts
  · intro typed
    constructor
    · rintro s₁ s₂ _ ⟨m,moved⟩ rest counted
      exact (move_turned moved).oneUp
        (fun event member => typed event ((reached_popped rest).subset member)) counted
    · intro s₁ first rest
      exact reached_balanced first
        (fun event member => typed event ((reached_popped rest).subset member)) rfl

/-- One packet with one message of the given type, up to the engine. -/
def passage (type : UInt8) : List PipelineMove :=
  [.run 0,
   .datagram false 1 0 0 ((FeedPacketHeader.mk kFeedMagic 1 0).bytes ++
    MarketMessage.bytes 0 {sequenceNumber := 1, orderId := 7, price := 2, quantity := 1, type := type, side := 1}),
   .run 0,.run 0,.run 0,.run 0,.callPop,.pop,.pop,.pop,.pop]

theorem consumed_accounted_add : ∃ b₀, OrderBook.create OrderBook.narrow = some b₀ ∧
    ∃ s : Pipeline SequenceManager.four HandlerProcess.one OrderBook.narrow Unit,
      Reached (move none 0) (create SequenceManager.four HandlerProcess.one 0 () .zero b₀) s ∧
      s.consumed = 1 ∧ s.consumed = s.engine.counters.total := by
  have created : OrderBook.create OrderBook.narrow = some _ := if_pos (by decide)
  have checked : ((OrderBook.create OrderBook.narrow).bind fun b₀ => play (move (none : Option (Client Unit)) 0)
      (passage 1) (create SequenceManager.four HandlerProcess.one 0 () .zero b₀)).any
      (fun s => s.consumed = 1 ∧ ∀ event ∈ s.ring.popped, event.Typed) = true := by decide +kernel
  rw [created,Option.bind_some] at checked
  obtain ⟨s,played,seen⟩ := (Option.any_eq_true _ _).mp checked
  obtain ⟨once,typed⟩ := of_decide_eq_true seen
  have reached := play_reached played
  have accounted := (consumed_accounted_iff none 0 0 () .zero _ created s reached).2.mpr typed
  exact ⟨_,created,s,reached,once,accounted.2 s reached .refl⟩

/-- A type byte that names no operation passes every check of the handler; the engine
consumes the event and counts it nowhere. -/
theorem untyped_uncounted : ∃ b₀, OrderBook.create OrderBook.narrow = some b₀ ∧
    ∃ s : Pipeline SequenceManager.four HandlerProcess.one OrderBook.narrow Unit,
      Reached (move none 0) (create SequenceManager.four HandlerProcess.one 0 () .zero b₀) s ∧
      s.handler.malformedPackets = 0 ∧ s.ring.popped.map (fun event => event.msg.type) = [9] ∧
      s.consumed = 1 ∧ s.engine.counters = {} ∧ s.consumed ≠ s.engine.counters.total := by
  have created : OrderBook.create OrderBook.narrow = some _ := if_pos (by decide)
  have checked : ((OrderBook.create OrderBook.narrow).bind fun b₀ => play (move (none : Option (Client Unit)) 0)
      (passage 9) (create SequenceManager.four HandlerProcess.one 0 () .zero b₀)).any
      (fun s => s.handler.malformedPackets = 0 ∧ s.ring.popped.map (fun event => event.msg.type) = [9] ∧
        s.consumed = 1 ∧ s.engine.counters = {} ∧ s.consumed ≠ s.engine.counters.total) = true := by
    decide +kernel
  rw [created,Option.bind_some] at checked
  obtain ⟨s,played,seen⟩ := (Option.any_eq_true _ _).mp checked
  exact ⟨_,created,s,play_reached played,of_decide_eq_true seen⟩

end Pipeline
end Llte
