import Llte.Feed
import Llte.OrderFlow
import Llte.Pipeline
import Llte.SequencerReplay

/-! The three processes as one system. The exchange publishes and answers recovery
requests, the network loses, repeats, reorders and adds datagrams, the handler puts the
stream together again, and the engine applies it to its own book. -/
namespace Llte
open Foundation

/-- The exchange and the connection to it, as the handler's recovery client uses them.
Requests may fail, and the exchange may go on publishing while it answers; an answer
contains published messages only. -/
structure RecoveryService (hcap : Capacity) (σ : Type) where
  exchange : σ → Exchange hcap
  publishes : ∀ w, (exchange w).Publishes
  step : σ → ExchangeStep → σ
  stepped : ∀ w s, exchange (step w s) = (exchange w).step s
  request : Client σ
  start : ∀ w first last answer w', request w first last = (answer,w') →
    (exchange w').start = (exchange w).start
  published : ∀ w first last answer w', request w first last = (answer,w') →
    (exchange w).published <+: (exchange w').published
  genuine : ∀ w first last answer w', request w first last = (some answer,w') → last.toNat < 2^63 →
    (exchange w').start.toNat+(exchange w').published.length ≤ 2^63 →
    ∀ entry ∈ answer.messages, entry.1 ∈ (exchange w').published

namespace RecoveryService
variable {hcap : Capacity} {σ : Type} (service : RecoveryService hcap σ)

/-- The numbers given out so far are below `2^63`. -/
def Small (w : σ) : Prop := (service.exchange w).start.toNat+(service.exchange w).published.length ≤ 2^63

def Known (w : σ) (message : MarketMessage) : Prop :=
  service.Small w → message ∈ (service.exchange w).published

structure Later (w w' : σ) : Prop where
  start : (service.exchange w').start = (service.exchange w).start
  published : (service.exchange w).published <+: (service.exchange w').published

variable {service} {w w' w'' : σ}

theorem Later.refl (w : σ) : service.Later w w := ⟨rfl,List.prefix_refl _⟩

theorem Later.trans (first : service.Later w w') (second : service.Later w' w'') : service.Later w w'' :=
  ⟨second.start.trans first.start,first.published.trans second.published⟩

theorem Later.step (w : σ) (s : ExchangeStep) : service.Later w (service.step w s) :=
  ⟨by rw [service.stepped,Exchange.step_start],by rw [service.stepped]; exact Exchange.step_published _ s⟩

theorem Later.request {first last : UInt64} {answer : Option Answer}
    (asked : service.request w first last = (answer,w')) : service.Later w w' :=
  ⟨service.start _ _ _ _ _ asked,service.published _ _ _ _ _ asked⟩

theorem Later.small (later : service.Later w w') (small : service.Small w') : service.Small w := by
  have longer := later.published.length_le
  unfold Small at small ⊢
  rw [later.start] at small
  omega

theorem Later.known (later : service.Later w w') {message : MarketMessage} (known : service.Known w message) :
    service.Known w' message :=
  fun small => later.published.subset (known (later.small small))

theorem Small.consecutive (small : service.Small w) :
    Consecutive (service.exchange w).start.toNat (service.exchange w).published :=
  ((service.publishes w).numbers small).2.consecutive

theorem Small.below (small : service.Small w) {message : MarketMessage}
    (member : message ∈ (service.exchange w).published) : message.sequenceNumber.toNat < 2^63 :=
  Nat.lt_of_lt_of_le (consecutive_bounds small.consecutive member).2 small

end RecoveryService

theorem Feed.recover_published {hcap : Capacity} {w w' : Feed hcap} {first last : UInt64} {answer : Answer}
    (asked : w.recover first last = (some answer,w')) (below : last.toNat < 2^63)
    (small : w'.exchange.start.toNat+w'.exchange.published.length ≤ 2^63) :
    ∀ entry ∈ answer.messages, entry.1 ∈ w'.exchange.published := by
  intro entry member
  have retains := (w'.publishes.numbers small).2
  unfold recover at asked
  dsimp only at asked
  split at asked
  next => simp at asked
  next =>
    split at asked
    next => simp at asked
    next messages served =>
      cases asked
      obtain ⟨i,inside,rfl⟩ := List.mem_mapIdx.mp member
      exact (HistoryStore.serve_genuine retains (by omega) served (List.getElem_mem inside)).1

/-- The exchange behind a connection that works, also where it no longer retains what
is asked for. -/
def Feed.service (hcap : Capacity) : RecoveryService hcap (Feed hcap) where
  exchange := Feed.exchange
  publishes := Feed.publishes
  step := Feed.step
  stepped := fun _ _ => rfl
  request := Feed.recover
  start := fun _ _ _ _ _ asked => (Grows.recover asked).start
  published := fun _ _ _ _ _ asked => (Grows.recover asked).published
  genuine := fun _ _ _ _ _ asked => recover_published asked

/-- The messages that a call of `receive` brought. -/
def Reception.messages : Reception → List MarketMessage
  | .packet _ _ _ messages => messages
  | _ => []

namespace HandlerProcess
variable {hcap cap : Capacity} {p : PowerOfTwo} {σ : Type} {s s' : HandlerProcess cap p σ} {origin : UInt64}

/-- The handler's sequencer is in a state of a run of its own, which has delivered what
was handed out; `K` holds of every message that went into it. -/
structure Streams (K : MarketMessage → Prop) (origin : UInt64) (s : HandlerProcess cap p σ) : Prop where
  linked : ∃ seenRead seenWrite, s.ring.Linked origin seenRead seenWrite
  sequenced : ∃ log, SequenceManager.Replayed K log s.sequencer ∧
    (∀ call ∈ log.accepted, K call.incoming.message) ∧ log.delivered.map Prod.snd = s.handed

theorem Ran.linked {expect clock : UInt64} (linked : ∃ seenRead seenWrite, s.ring.Linked origin seenRead seenWrite)
    (ran : Ran expect clock s s') : ∃ seenRead seenWrite, s'.ring.Linked origin seenRead seenWrite := by
  obtain ⟨seenRead,seenWrite,linked⟩ := linked
  have offered (out : FeedMessage) : ({s.ring with
      producer := some (.load (PipelineEvent.of out clock))} : Spsc _ p).Linked origin seenRead seenWrite :=
    {linked with producing := trivial}
  cases ran with
  | hands out => exact ⟨_,_,offered out⟩
  | again out => exact ⟨_,_,offered out⟩
  | pushing out phase next here running => exact ⟨_,_,(linked.push phase running).choose_spec⟩
  | pushed out phase here running => exact ⟨_,_,(linked.push phase running).choose_spec⟩
  | refused out phase here running => exact ⟨_,_,(linked.push phase running).choose_spec⟩
  | _ => exact ⟨_,_,linked⟩

private theorem move_linked {client : Option (Client σ)} {expect : UInt64} {m : Move}
    (linked : ∃ seenRead seenWrite, s.ring.Linked origin seenRead seenWrite)
    (taken : s.move client expect m = some s') :
    ∃ seenRead seenWrite, s'.ring.Linked origin seenRead seenWrite := by
  cases m with
  | signal => cases taken; exact linked
  | callPop =>
    obtain ⟨seenRead,seenWrite,linked⟩ := linked
    simp only [move] at taken
    split at taken <;> cases taken
    exact ⟨seenRead,seenWrite,{linked with consuming := trivial}⟩
  | pop =>
    obtain ⟨seenRead,seenWrite,linked⟩ := linked
    simp only [move] at taken
    split at taken
    next => simp at taken
    next phase running =>
      cases taken
      obtain ⟨seenWrite',after⟩ := linked.pop phase running
      exact ⟨_,_,after⟩
  | receive reception =>
    simp only [move] at taken
    split at taken
    next => rw [receive_ring taken]; exact linked
    next => simp at taken
  | run clock => exact (run_ran taken).linked linked

/-- What a step does to the sequencer and the exchange behind it: nothing, one call of
`next_deliverable`, or the calls of `accept` for a packet. -/
inductive Sequenced (client : Option (Client σ)) (s s' : HandlerProcess cap p σ) : Move → Prop where
  | beside (m : Move) (client : s'.client = s.client) (sequencer : s'.sequencer = s.sequencer)
      (handed : s'.handed = s.handed) : Sequenced _ s s' m
  | idle (clock : UInt64) (client : s'.client = s.client) (nothing : s.sequencer.nextDeliverable = (none,s'.sequencer))
      (handed : s'.handed = s.handed) : Sequenced _ s s' (.run clock)
  | delivers (clock : UInt64) (out : FeedMessage) (client : s'.client = s.client)
      (delivered : s.sequencer.nextDeliverable = (some out,s'.sequencer)) (handed : s'.handed = s.handed ++ [out]) :
      Sequenced _ s s' (.run clock)
  | accepts (fuel : Nat) (t0Recv t1Parsed : UInt64) (messages : List MarketMessage)
      (calls : List (SequenceManager.Call cap))
      (done : SequenceManager.acceptAll client fuel (messages.map (stamp t0Recv t1Parsed)) s.sequencer s.client =
        some (calls,s'.sequencer,s'.client)) (handed : s'.handed = s.handed) :
      Sequenced client s s' (.receive (.packet fuel t0Recv t1Parsed messages))

private theorem move_sequenced {client : Option (Client σ)} {expect : UInt64} {m : Move}
    (taken : s.move client expect m = some s') : Sequenced client s s' m := by
  cases m with
  | signal =>
    cases taken
    exact .beside _ rfl rfl rfl
  | callPop =>
    simp only [move] at taken
    split at taken <;> cases taken
    exact .beside _ rfl rfl rfl
  | pop =>
    simp only [move] at taken
    split at taken <;> cases taken
    exact .beside _ rfl rfl rfl
  | receive reception =>
    simp only [move] at taken
    split at taken
    next =>
      cases reception with
      | packet fuel t0Recv t1Parsed messages =>
        simp only [receive] at taken
        split at taken
        next => simp at taken
        next calls sequencer client' done =>
          cases taken
          exact .accepts fuel t0Recv t1Parsed messages calls done rfl
      | _ =>
        cases taken
        exact .beside _ rfl rfl rfl
    next => simp at taken
  | run clock =>
    cases run_ran taken with
    | drained sequencer here nothing => exact .idle clock rfl nothing rfl
    | hands out sequencer here delivered => exact .delivers clock out rfl delivered rfl
    | _ => exact .beside _ rfl rfl rfl

variable {service : RecoveryService hcap σ} {m : Move}

theorem Sequenced.later (sequenced : Sequenced (some service.request) s s' m) : service.Later s.client s'.client := by
  cases sequenced with
  | accepts fuel t0Recv t1Parsed messages calls done =>
    exact SequenceManager.acceptAll_keeps (service.Later s.client)
      (fun _ _ _ _ _ asked sofar => sofar.trans (.request asked)) _ done (.refl _)
  | beside _ client => exact client ▸ .refl _
  | idle _ client => exact client ▸ .refl _
  | delivers _ _ client => exact client ▸ .refl _

/-- A step, where the messages that it brings to `accept` were published. -/
theorem Streams.move {expect : UInt64} (taken : s.move (some service.request) expect m = some s')
    (published : ∀ reception, m = .receive reception →
      ∀ message ∈ reception.messages, message ∈ (service.exchange s.client).published)
    (small : service.Small s'.client) (streams : s.Streams (service.Known s.client) origin) :
    s'.Streams (service.Known s'.client) origin := by
  have sequenced := move_sequenced taken
  have later := sequenced.later
  refine ⟨move_linked streams.linked taken,?_⟩
  obtain ⟨log,replayed,accepted,handed⟩ := streams.sequenced
  have known : ∀ call ∈ log.accepted, service.Known s'.client call.incoming.message :=
    fun call member => later.known (accepted call member)
  have carried := replayed.mono fun _ => later.known
  cases sequenced with
  | beside _ _ same still =>
    rw [same,still]
    exact ⟨log,carried,known,handed⟩
  | idle clock _ nothing still =>
    rw [still]
    exact ⟨log,carried.idle nothing,known,handed⟩
  | delivers clock out _ delivered more =>
    refine ⟨_,carried.deliver delivered,known,?_⟩
    rw [more,← handed,SequenceManager.Log.deliver,List.map_append,List.map_singleton]
  | accepts fuel t0Recv t1Parsed messages calls done still =>
    have genuine := published _ rfl
    rw [still]
    refine ⟨{log with accepted := log.accepted ++ calls},?_,?_,handed⟩
    · refine replayed.acceptAll (S := service.Known) (fun _ _ _ _ _ _ asked => (RecoveryService.Later.request asked).known)
        (fun w first last answer w' asked below entry member small =>
          service.genuine w first last answer w' asked below small entry member) _ ?_ done
      intro f member
      obtain ⟨message,original,rfl⟩ := List.mem_map.mp member
      exact (later.small small).below (genuine message original)
    · intro call member
      rcases List.mem_append.mp member with earlier | newest
      · exact known call earlier
      · have one : call.incoming ∈ messages.map (stamp t0Recv t1Parsed) := by
          rw [← FeedHandler.acceptAll_calls done]
          exact List.mem_map_of_mem newest
        obtain ⟨message,original,same⟩ := List.mem_map.mp one
        rw [← same]
        exact later.known fun _ => genuine message original

end HandlerProcess

/-- The exchange's own steps, and those of the handler, the network and the engine. -/
inductive TradingMove where
  | exchange (s : ExchangeStep)
  | pipeline (m : PipelineMove)

namespace Pipeline
variable {hcap cap : Capacity} {p : PowerOfTwo} {c : Config} {σ : Type}

def client (s : Pipeline cap p c σ) : σ := s.handler.process.client

def trade (service : RecoveryService hcap σ) (expect : UInt64) (s : Pipeline cap p c σ) :
    TradingMove → Option (Pipeline cap p c σ)
  | .exchange e => some {s with handler.process.client := service.step s.client e}
  | .pipeline m => s.move (some service.request) expect m

/-- A datagram passes the handler's checks and is not a packet that the exchange has sent. -/
def Forged (service : RecoveryService hcap σ) (s : Pipeline cap p c σ) : TradingMove → Prop
  | .pipeline (.datagram _ _ _ _ bytes) =>
    s.handler.offered bytes ≠ [] ∧ s.handler.offered bytes ∉ (service.exchange s.client).sent
  | _ => False

/-- The handler leaves the push loop because of the flag, after a failed push. -/
def GivesUp (s : Pipeline cap p c σ) : TradingMove → Prop
  | .pipeline (.run _) => s.handler.process.stop = true ∧ s.handler.process.control.retries = true
  | _ => False

instance (service : RecoveryService hcap σ) (s : Pipeline cap p c σ) : (m : TradingMove) → Decidable (s.Forged service m)
  | .pipeline (.datagram _ _ _ _ _) => inferInstanceAs (Decidable (_ ∧ _))
  | .exchange _ | .pipeline .signal | .pipeline (.run _) | .pipeline .recvError | .pipeline (.timeout _)
  | .pipeline .callPop | .pipeline .pop => isFalse id

instance (s : Pipeline cap p c σ) : (m : TradingMove) → Decidable (s.GivesUp m)
  | .pipeline (.run _) => inferInstanceAs (Decidable (_ ∧ _))
  | .exchange _ | .pipeline .signal | .pipeline .recvError | .pipeline (.timeout _) | .pipeline (.datagram ..)
  | .pipeline .callPop | .pipeline .pop => isFalse id

/-- The step of the handler process in a step of the pipeline. -/
def processMove (s : Pipeline cap p c σ) : PipelineMove → Move
  | .signal => .signal
  | .run clock => .run clock
  | .recvError => .receive .error
  | .timeout idle => .receive (.nothing idle)
  | .datagram idle fuel t0Recv t1Parsed bytes => .receive (s.handler.reception idle fuel t0Recv t1Parsed bytes)
  | .callPop => .callPop
  | .pop => .pop

variable {service : RecoveryService hcap σ} {expect origin : UInt64} {s s' : Pipeline cap p c σ}

theorem move_process {client : Option (Client σ)} {m : PipelineMove} (moved : s.move client expect m = some s') :
    s.handler.process.move client expect (s.processMove m) = some s'.handler.process := by
  have acted {step : Move} (moved : s.act client expect step = some s') :
      s.handler.process.move client expect step = some s'.handler.process := by
    obtain ⟨process,taken,rfl⟩ := Option.map_eq_some_iff.mp moved
    exact taken
  cases m with
  | signal => exact acted moved
  | run clock => exact acted moved
  | recvError => exact acted moved
  | timeout idle => exact acted moved
  | callPop => exact acted moved
  | datagram idle fuel t0Recv t1Parsed bytes =>
    simp only [move] at moved
    split at moved
    next here =>
      obtain ⟨⟨calls,handler⟩,taken,rfl⟩ := Option.map_eq_some_iff.mp moved
      simp only [processMove,HandlerProcess.move,here]
      exact FeedHandler.takeDatagram_receives taken
    next => simp at moved
  | pop =>
    simp only [move] at moved
    split at moved
    next => simp at moved
    next phase running =>
      split at moved
      next event _ =>
        obtain ⟨s₁,popped,applied⟩ := Option.bind_eq_some_iff.mp moved
        obtain ⟨⟨result,engine⟩,_,rfl⟩ := Option.map_eq_some_iff.mp applied
        obtain ⟨process,taken,rfl⟩ := Option.map_eq_some_iff.mp popped
        exact taken
      next => exact acted moved

section Runs
variable {w₀ : σ} {packet : PacketBuffer} {b₀ : OrderBook c} {moves : List TradingMove}
  (played : play (trade service expect) moves (create cap p origin w₀ packet b₀) = some s)
include played

end Runs
end Pipeline
end Llte
