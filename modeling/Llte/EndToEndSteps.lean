import Llte.EndToEnd
import Llte.Foundation.Fairness
import Llte.Pipeline
import Llte.Unrecovered

/-! What each thread of the end-to-end benchmark can do, and the invariant of its runs:
the stream is at every moment what was published, what is on its way to the ring, what the
sequencer holds and what was not yet sent. -/
namespace Llte
open Foundation

namespace SequenceManager
variable {cap : Capacity}

/-- The messages from the window's base up to `next` wait without a hole. -/
structure Full (next : Nat) (outs : List FeedMessage) (m : SequenceManager cap) : Prop where
  waiting : Waiting next outs m
  whole : m.base+outs.length = next

private theorem length_heldIn_le (m : SequenceManager cap) (low high : Nat) : (m.heldIn low high).length ≤ high - low := by
  rw [heldIn,List.length_map]
  exact (List.length_filter_le _ _).trans (Nat.le_of_eq List.length_range')

namespace Full
variable {next : Nat} {out : FeedMessage} {outs : List FeedMessage} {m : SequenceManager cap}

theorem nothing (full : Full next [] m) : m.nextDeliverable = (none,m) := by
  have based : m.base = next := full.whole
  have vacant : (m.slot m.expected.toNat).state = .empty :=
    full.waiting.rest m.base m.base_mem_window (Nat.le_of_eq based.symm)
  rw [nextDeliverable,if_pos full.waiting.running,deliverLoop,vacant]

theorem hands (full : Full next (out::outs) m) :
    m.nextDeliverable = (some out,m.handOut) ∧ Full next outs m.handOut := by
  have whole := full.whole
  rw [List.length_cons] at whole
  have held := full.waiting.held
  rw [heldIn_cons m (by omega)] at held
  have filled : m.state m.base = .filled := by
    by_contra other
    have short := m.length_heldIn_le (m.base+1) next
    rw [if_neg other,List.nil_append] at held
    rw [held,List.length_cons] at short
    omega
  rw [if_pos filled,List.singleton_append,List.cons.injEq] at held
  have walked := walk_walked (.hand filled (.refl _)) full.waiting.sound full.waiting.running
  have used : m.state m.base ≠ .empty := by simp [filled]
  have based : m.handOut.base = m.base+1 := advance_base (full.waiting.sound.below _ m.base_mem_window used)
  obtain ⟨waiting,front⟩ := full.waiting.walked walked (by omega)
  rw [List.singleton_append,List.cons.injEq] at front
  rw [← front.2] at waiting
  refine ⟨?_,waiting,by omega⟩
  have found : (m.slot m.expected.toNat).state = .filled := filled
  rw [nextDeliverable,if_pos full.waiting.running,deliverLoop,found]
  exact congrArg (fun payload => (some payload,m.handOut)) held.1

end Full

private theorem accept_alone (m : SequenceManager cap) (f : FeedMessage) :
    ∃ m', accept (none : Option (Client Unit)) 0 m () f = some (m',()) := by
  unfold accept recoverRange requestMissing
  dsimp only
  split
  next => exact ⟨_,rfl⟩
  next =>
    split
    next => exact ⟨_,rfl⟩
    next =>
      split
      next => exact ⟨_,rfl⟩
      next => exact ⟨_,rfl⟩

private theorem acceptAll_alone (messages : List FeedMessage) (m : SequenceManager cap) :
    ∃ calls m', acceptAll (none : Option (Client Unit)) 0 messages m () = some (calls,m',()) := by
  induction messages generalizing m with
  | nil => exact ⟨[],m,rfl⟩
  | cons f rest ih =>
    obtain ⟨m₁,returned⟩ := m.accept_alone f
    obtain ⟨calls,m',fed⟩ := ih m₁
    exact ⟨⟨m,f⟩::calls,m',by rw [acceptAll,returned]; dsimp only; rw [fed]⟩

/-- A new sequencer, or a drained one, takes the packet that comes next. -/
theorem acceptAll_full {t0Recv t1Parsed : UInt64} {messages : List MarketMessage} {next : Nat}
    {m m' : SequenceManager cap} {calls : List (Call cap)}
    (settled : m = create cap ∨ Full next [] m) (nonempty : messages ≠ [])
    (done : acceptAll (none : Option (Client Unit)) 0 (messages.map (stamp t0Recv t1Parsed)) m () =
      some (calls,m',()))
    (consecutive : Consecutive next messages) (small : next+messages.length ≤ 2^63)
    (fits : messages.length ≤ cap.size) :
    Full (next+messages.length) (messages.map (stamp t0Recv t1Parsed)) m' := by
  cases messages with
  | nil => exact absurd rfl nonempty
  | cons message rest =>
    obtain ⟨m₁,_,later,returned,fed,_⟩ := acceptAll_cons done
    have number : (stamp t0Recv t1Parsed message).sequence = next := consecutive.1
    have begun : Waiting next [] (m.begin (stamp t0Recv t1Parsed message)) ∧
        (m.begin (stamp t0Recv t1Parsed message)).base = next := by
      rcases settled with new | full
      · rw [new,← number]
        exact Waiting.started cap _
      · refine ⟨full.waiting.begin _,?_⟩
        rw [begin_base,full.waiting.running,if_pos rfl]
        exact full.whole
    have pos := cap.pos
    rw [List.length_cons] at small fits ⊢
    obtain ⟨one,base₁⟩ := begun.1.follows (accept_cases returned) number (by omega) (by omega)
    obtain ⟨all,based⟩ := acceptAll_follows rest fed consecutive.2 (by omega) (by omega) one
    rw [List.nil_append,List.singleton_append] at all
    rw [show next+(rest.length+1) = next+1+rest.length by omega]
    refine ⟨all,?_⟩
    rw [based,base₁,begun.2,List.map_cons,List.length_cons,List.length_map]
    omega

end SequenceManager

theorem Consecutive.drop {first : Nat} {messages : List MarketMessage} (consecutive : Consecutive first messages)
    (count : Nat) (within : count ≤ messages.length) : Consecutive (first+count) (messages.drop count) := by
  have both := consecutive
  rw [← List.take_append_drop count messages,consecutive_append,List.length_take,Nat.min_eq_left within] at both
  exact both.2

theorem Consecutive.take {first : Nat} {messages : List MarketMessage} (consecutive : Consecutive first messages)
    (count : Nat) : Consecutive first (messages.take count) := by
  rw [← List.take_append_drop count messages,consecutive_append] at consecutive
  exact consecutive.1

theorem Consecutive.congr {first : Nat} {messages later : List MarketMessage}
    (consecutive : Consecutive first messages)
    (same : later.map MarketMessage.sequenceNumber = messages.map MarketMessage.sequenceNumber) :
    Consecutive first later := by
  induction messages generalizing first later with
  | nil =>
    rw [List.map_nil,List.map_eq_nil_iff] at same
    rw [same]
    trivial
  | cons message rest ih =>
    cases later with
    | nil => simp at same
    | cons other others =>
      rw [List.map_cons,List.map_cons,List.cons.injEq] at same
      exact ⟨by rw [same.1]; exact consecutive.1,ih consecutive.2 same.2⟩

namespace EndToEnd
variable {cap : Capacity} {p : PowerOfTwo} {c : Config} {stream : List MarketMessage} {batch : Nat}
  {s s' : EndToEnd cap p c}

theorem length_payload (stream : List MarketMessage) (position count : Nat) (timestamps : Nat → UInt64) :
    (payload stream position count timestamps).length = min count (stream.length - position) := by
  rw [payload,List.length_mapIdx,List.length_take,List.length_drop]

/-- Apart from the stamps the packet is the next part of the stream. -/
theorem payload_map {β : Type} (f : MarketMessage → β)
    (plain : ∀ message time, f {message with timestampNs := time} = f message)
    (stream : List MarketMessage) (position count : Nat) (timestamps : Nat → UInt64) :
    (payload stream position count timestamps).map f = ((stream.drop position).take count).map f := by
  rw [payload]
  generalize (stream.drop position).take count = messages
  apply List.ext_getElem (by simp)
  intro i _ _
  simp [plain]

inductive Thread where
  | producer
  | consumer
  deriving DecidableEq

def thread : EndToEndMove → Thread
  | .start _ => .producer
  | .pace _ => .producer
  | .packet _ _ _ => .producer
  | .deliver _ => .producer
  | .push _ => .producer
  | .storeDone => .producer
  | .ready => .consumer
  | .callPop => .consumer
  | .pop _ _ => .consumer
  | .loadDone => .consumer
  | .loadRead => .consumer
  | .loadWrite => .consumer

def Ended : Thread → EndToEnd cap p c → Prop
  | .producer,s => s.producer = .finished
  | .consumer,s => s.consumer = .broken

/-- A look at the clock before the deadline. -/
def Waits (rate : UInt64) (s : EndToEnd cap p c) (m : EndToEndMove) : Prop :=
  ∃ clock, m = .pace clock ∧ s.producer = .pace ∧ s.early rate clock = true

/-- The producer's steps, apart from looks at the clock before the deadline. A packet is never
empty or too long for its header. -/
inductive Produces (stream : List MarketMessage) (batch : Nat) (s : EndToEnd cap p c) : EndToEnd cap p c → Prop where
  | waits (here : s.producer = .wait) (early : s.consumerReady = false) : Produces stream batch s s
  | start (clock : UInt64) (here : s.producer = .wait) (ready : s.consumerReady = true) :
      Produces stream batch s (nextRound stream {s with startNs := clock})
  | paced (here : s.producer = .pace) : Produces stream batch s {s with producer := .packet}
  | packet {timestamps : Nat → UInt64} {t0Recv t1Parsed : UInt64} {calls : List (SequenceManager.Call cap)}
      {sequencer : SequenceManager cap} (here : s.producer = .packet)
      (fed : SequenceManager.acceptAll (none : Option (Client Unit)) 0
        ((payload stream s.position (min batch (stream.length - s.position)) timestamps).map
          (stamp t0Recv t1Parsed)) s.sequencer () = some (calls,sequencer,())) :
      Produces stream batch s {s with
        sequencer := sequencer
        position := s.position + min batch (stream.length - s.position)
        producer := .drain}
  | nothing {sequencer : SequenceManager cap} (here : s.producer = .drain)
      (found : s.sequencer.nextDeliverable = (none,sequencer)) :
      Produces stream batch s (nextRound stream {s with sequencer := sequencer})
  | hand {out : FeedMessage} {sequencer : SequenceManager cap} (clock : UInt64) (here : s.producer = .drain)
      (found : s.sequencer.nextDeliverable = (some out,sequencer)) :
      Produces stream batch s {s with
        sequencer := sequencer
        producer := .push
        ring := {s.ring with producer := some (.load {PipelineEvent.of out clock with recovered := 0})}}
  | goes {phase next : Push PipelineEvent} (here : s.producer = .push) (running : s.ring.producer = some phase)
      (stays : (phase.step s.ring.queue).2 = .inl next) : Produces stream batch s {s with ring := s.ring.push phase}
  | publish {phase : Push PipelineEvent} (here : s.producer = .push) (running : s.ring.producer = some phase)
      (accepted : (phase.step s.ring.queue).2 = .inr true) :
      Produces stream batch s {s with ring := s.ring.push phase, producer := .drain}
  | again {phase : Push PipelineEvent} (clock : UInt64) (here : s.producer = .push)
      (running : s.ring.producer = some phase) (refused : (phase.step s.ring.queue).2 = .inr false) :
      Produces stream batch s {s with
        ring := {s.ring.push phase with producer := some (.load {phase.value with t2Enqueue := clock})}}
  | storeDone (here : s.producer = .store) :
      Produces stream batch s {s with producerDone := true, producer := .finished}

inductive Consumes (s : EndToEnd cap p c) : EndToEnd cap p c → Prop where
  | ready (early : s.consumerReady = false) : Consumes s {s with consumerReady := true}
  | callPop (ready : s.consumerReady = true) (here : s.consumer = .pop) (idle : s.ring.consumer = none) :
      Consumes s {s with ring := {s.ring with consumer := some .load}}
  | goes {phase next : Pop PipelineEvent} (running : s.ring.consumer = some phase)
      (stays : (phase.step s.ring.queue).2 = .inl next) : Consumes s {s with ring := s.ring.pop phase}
  | fails {phase : Pop PipelineEvent} (running : s.ring.consumer = some phase)
      (failed : (phase.step s.ring.queue).2 = .inr none) :
      Consumes s {s with ring := s.ring.pop phase, consumer := .flag}
  | takes {phase : Pop PipelineEvent} {event : PipelineEvent} {result : Option Result} {book : OrderBook c}
      (t3Dequeue t4Book : UInt64) (running : s.ring.consumer = some phase)
      (got : (phase.step s.ring.queue).2 = .inr (some event))
      (applied : Engine.dispatch s.book event.msg = some (result,book)) :
      Consumes s {s with
        ring := s.ring.pop phase
        book := book
        stages := s.stages.add event t3Dequeue t4Book
        consumed := s.consumed+1}
  | loadDone (here : s.consumer = .flag) :
      Consumes s {s with consumer := if s.producerDone then .empty else .pop}
  | readFirst (here : s.consumer = .empty) : Consumes s {s with consumer := .emptyWrite s.ring.queue.readIdx}
  | writeFirst (here : s.consumer = .empty) : Consumes s {s with consumer := .emptyRead s.ring.queue.writeIdx}
  | readLast {write : UInt64} (here : s.consumer = .emptyRead write) :
      Consumes s {s with consumer := Shutdown.decideBreak s.ring.queue.readIdx write}
  | writeLast {read : UInt64} (here : s.consumer = .emptyWrite read) :
      Consumes s {s with consumer := Shutdown.decideBreak read s.ring.queue.writeIdx}

private theorem start_produces (here : s.producer = .wait) (clock : UInt64) :
    Produces stream batch s (if s.consumerReady then nextRound stream {s with startNs := clock} else s) := by
  split
  next ready => exact .start clock here ready
  next early => exact .waits here (Bool.eq_false_iff.mpr early)

theorem feed_eq (pos : 0 < batch) (most : batch ≤ kMaxBatch) (more : s.position < stream.length)
    (timestamps : Nat → UInt64) (t0Recv t1Parsed : UInt64) : ∃ calls sequencer,
      SequenceManager.acceptAll (none : Option (Client Unit)) 0
        ((payload stream s.position (min batch (stream.length - s.position)) timestamps).map
          (stamp t0Recv t1Parsed)) s.sequencer () = some (calls,sequencer,()) ∧
      s.feed stream batch timestamps t0Recv t1Parsed = some {s with
        sequencer := sequencer
        position := s.position + min batch (stream.length - s.position)
        producer := .drain} := by
  obtain ⟨calls,sequencer,accepted⟩ := SequenceManager.acceptAll_alone
    ((payload stream s.position (min batch (stream.length - s.position)) timestamps).map
      (stamp t0Recv t1Parsed)) s.sequencer
  refine ⟨calls,sequencer,accepted,?_⟩
  rw [feed,if_neg (by omega),accepted]

private theorem deliver_produces (here : s.producer = .drain) (clock : UInt64) :
    Produces stream batch s (s.deliver stream clock) := by
  rw [deliver]
  split
  next sequencer found => exact .nothing here found
  next out sequencer found => exact .hand clock here found

private theorem push_produces {phase : Push PipelineEvent} (here : s.producer = .push)
    (running : s.ring.producer = some phase) (clock : UInt64) : Produces stream batch s (s.push phase clock) := by
  rw [push]
  split
  next stays => exact .goes here running stays
  next accepted => exact .publish here running accepted
  next refused => exact .again clock here running refused

private theorem pop_consumes {phase : Pop PipelineEvent} {t3Dequeue t4Book : UInt64} (running : s.ring.consumer = some phase)
    (taken : s.pop phase t3Dequeue t4Book = some s') : Consumes s s' := by
  rw [pop] at taken
  split at taken
  next stays =>
    cases taken
    exact .goes running stays
  next failed =>
    cases taken
    exact .fails running failed
  next got =>
    split at taken
    next => simp at taken
    next applied =>
      cases taken
      exact .takes t3Dequeue t4Book running got applied

private theorem loadRead_consumes {rate : UInt64} (taken : s.move stream batch rate .loadRead = some s') : Consumes s s' := by
  rw [move] at taken
  split at taken
  next here =>
    cases taken
    exact .readFirst here
  next write here =>
    cases taken
    exact .readLast here
  next => simp at taken

private theorem loadWrite_consumes {rate : UInt64} (taken : s.move stream batch rate .loadWrite = some s') : Consumes s s' := by
  rw [move] at taken
  split at taken
  next here =>
    cases taken
    exact .writeFirst here
  next read here =>
    cases taken
    exact .writeLast here
  next => simp at taken

/-- Every move is a step of its thread. -/
theorem move_cases {rate : UInt64} (pos : 0 < batch) (most : batch ≤ kMaxBatch)
    (more : s.producer = .packet → s.position < stream.length) {m : EndToEndMove}
    (taken : s.move stream batch rate m = some s') :
    thread m = .producer ∧ (Produces stream batch s s' ∨ s.Waits rate m ∧ s' = s) ∨
      thread m = .consumer ∧ Consumes s s' := by
  cases m with
  | ready =>
    rw [move,Option.ite_none_left_eq_some] at taken
    cases taken.2
    exact .inr ⟨rfl,.ready (Bool.eq_false_iff.mpr taken.1)⟩
  | start clock =>
    rw [move,Option.ite_none_right_eq_some] at taken
    cases taken.2
    exact .inl ⟨rfl,.inl (start_produces taken.1 clock)⟩
  | pace clock =>
    rw [move,Option.ite_none_right_eq_some,Option.some.injEq] at taken
    obtain ⟨here,rfl⟩ := taken
    refine .inl ⟨rfl,?_⟩
    split
    next early => exact .inr ⟨⟨clock,rfl,here,early⟩,rfl⟩
    next => exact .inl (.paced here)
  | packet timestamps t0Recv t1Parsed =>
    rw [move,Option.ite_none_right_eq_some] at taken
    obtain ⟨here,fed⟩ := taken
    obtain ⟨calls,sequencer,accepted,feeds⟩ := feed_eq pos most (more here) timestamps t0Recv t1Parsed
    rw [feeds] at fed
    cases fed
    exact .inl ⟨rfl,.inl (.packet here accepted)⟩
  | deliver clock =>
    rw [move,Option.ite_none_right_eq_some] at taken
    cases taken.2
    exact .inl ⟨rfl,.inl (deliver_produces taken.1 clock)⟩
  | push clock =>
    rw [move] at taken
    split at taken
    next phase here running =>
      cases taken
      exact .inl ⟨rfl,.inl (push_produces here running clock)⟩
    next => simp at taken
  | storeDone =>
    rw [move,Option.ite_none_right_eq_some] at taken
    cases taken.2
    exact .inl ⟨rfl,.inl (.storeDone taken.1)⟩
  | callPop =>
    rw [move,Option.ite_none_right_eq_some] at taken
    cases taken.2
    exact .inr ⟨rfl,.callPop taken.1.1 taken.1.2.1 taken.1.2.2⟩
  | pop t3Dequeue t4Book =>
    rw [move] at taken
    split at taken
    next => simp at taken
    next phase running => exact .inr ⟨rfl,pop_consumes running taken⟩
  | loadDone =>
    rw [move,Option.ite_none_right_eq_some] at taken
    cases taken.2
    exact .inr ⟨rfl,.loadDone taken.1⟩
  | loadRead => exact .inr ⟨rfl,loadRead_consumes taken⟩
  | loadWrite => exact .inr ⟨rfl,loadWrite_consumes taken⟩

end EndToEnd
end Llte
