import Llte.EndToEndSteps

/-! Runs of the end-to-end benchmark. Under every fair schedule of its two threads the
run comes to its end, and then the book has seen the whole stream, once and in order. -/
namespace Llte
open Foundation

namespace Engine
variable {c : Config}

/-- The consumer's switch counts nothing; only the book is kept. -/
def applyAll : List MarketMessage → OrderBook c → Option (OrderBook c)
  | [],book => some book
  | message::rest,book =>
    match dispatch book message with
    | none => none
    | some (_,book) => applyAll rest book

private theorem applyAll_append {messages : List MarketMessage} {message : MarketMessage} {b₀ b b' : OrderBook c}
    {result : Option Result} (before : applyAll messages b₀ = some b)
    (last : dispatch b message = some (result,b')) : applyAll (messages ++ [message]) b₀ = some b' := by
  induction messages generalizing b₀ with
  | nil =>
    cases before
    rw [List.nil_append,applyAll,last]
    rfl
  | cons first rest ih =>
    rw [List.cons_append,applyAll]
    rw [applyAll] at before
    split at before
    next => simp at before
    next => exact ih before

/-- The book does not look at the publish time. -/
theorem applyAll_unstamped (messages : List MarketMessage) (b : OrderBook c) :
    applyAll (messages.map MarketMessage.unstamped) b = applyAll messages b := by
  induction messages generalizing b with
  | nil => rfl
  | cons message rest ih =>
    rw [List.map_cons,applyAll,applyAll]
    change (match dispatch b message with | none => none | some (_,book) => applyAll (rest.map _) book) = _
    cases dispatch b message with
    | none => rfl
    | some pair => exact ih pair.2

theorem dispatch_returns {b : OrderBook c} {a : PriceTimeBook} (agree : OrderBook.Represents b a)
    (message : MarketMessage) : ∃ result b' a', dispatch b message = some (result,b') ∧ OrderBook.Represents b' a' := by
  rw [dispatch_eq]
  cases callOf message with
  | none => exact ⟨none,b,a,rfl,agree⟩
  | some call =>
    obtain ⟨b',stepped,agree'⟩ := OrderBook.step_refines agree call
    exact ⟨_,b',_,stepped,agree'⟩

end Engine

private theorem LatencySamples.add_room {samples : LatencySamples} (value : UInt64)
    (room : samples.samples.length < samples.capacity) :
    samples.add value = {samples with samples := samples.samples ++ [value]} := if_pos room

namespace Stages

def all (stages : Stages) : List LatencySamples :=
  [stages.decode,stages.sequence,stages.ring,stages.book,stages.total]

/-- For each event the four stages together. -/
def sums (stages : Stages) : List UInt64 :=
  List.zipWith (·+·) (List.zipWith (·+·) (List.zipWith (·+·) stages.decode.samples stages.sequence.samples)
    stages.ring.samples) stages.book.samples

/-- Of `n` events every latency was recorded. -/
structure Recorded (count n : Nat) (stages : Stages) : Prop where
  whole : ∀ samples ∈ stages.all, samples.samples.length = n ∧ samples.capacity = count ∧ samples.dropped = 0
  sums : stages.sums = stages.total.samples

theorem Recorded.create (count : Nat) : Recorded count 0 (create count) := by
  refine ⟨?_,rfl⟩
  intro samples member
  simp only [all,Stages.create,List.mem_cons,List.not_mem_nil,or_false,or_self] at member
  rw [member]
  exact ⟨rfl,rfl,rfl⟩

theorem Recorded.add {count n : Nat} {stages : Stages} (recorded : Recorded count n stages) (room : n < count)
    (event : PipelineEvent) (t3Dequeue t4Book : UInt64) :
    Recorded count (n+1) (stages.add event t3Dequeue t4Book) := by
  have grows (samples : LatencySamples) (value : UInt64) (member : samples ∈ stages.all) :
      samples.add value = {samples with samples := samples.samples ++ [value]} := by
    obtain ⟨length,capacity,_⟩ := recorded.whole samples member
    exact LatencySamples.add_room value (by omega)
  have decode := recorded.whole stages.decode (by simp [all])
  have sequence := recorded.whole stages.sequence (by simp [all])
  have ring := recorded.whole stages.ring (by simp [all])
  have book := recorded.whole stages.book (by simp [all])
  have total := recorded.whole stages.total (by simp [all])
  have sums := recorded.sums
  unfold Stages.add
  rw [grows _ _ (by simp [all]),grows _ _ (by simp [all]),grows _ _ (by simp [all]),grows _ _ (by simp [all]),
    grows _ _ (by simp [all])]
  refine ⟨?_,?_⟩
  · intro samples member
    simp only [all,List.mem_cons,List.not_mem_nil,or_false] at member
    rcases member with rfl | rfl | rfl | rfl | rfl
    · exact ⟨by simp [decode.1],decode.2⟩
    · exact ⟨by simp [sequence.1],sequence.2⟩
    · exact ⟨by simp [ring.1],ring.2⟩
    · exact ⟨by simp [book.1],book.2⟩
    · exact ⟨by simp [total.1],total.2⟩
  · unfold Stages.sums at sums ⊢
    dsimp only
    rw [List.zipWith_append (by omega),List.zipWith_append (by simp; omega),List.zipWith_append (by simp; omega),sums]
    congr 1
    simp only [List.zipWith_cons_cons,List.zipWith_nil_left,List.cons.injEq,and_true]
    grind

end Stages

namespace Push
variable {α : Type} {p : PowerOfTwo}

/-- How many steps of the call come before its last one, at most. -/
def stepsLeft : Push α → Nat
  | .load _ => 3
  | .reload _ _ => 2
  | .copy _ _ => 1
  | .publish _ _ => 0

theorem step_stepsLeft {q : SpscQueue α p} {phase next : Push α} (stays : (phase.step q).2 = .inl next) :
    next.stepsLeft < phase.stepsLeft := by
  cases phase with
  | load value =>
    rw [Push.step] at stays
    split at stays <;> cases stays <;> simp [stepsLeft]
  | reload value write =>
    rw [Push.step] at stays
    split at stays
    next => cases stays
    next =>
      cases stays
      simp [stepsLeft]
  | copy value write =>
    cases stays
    simp [stepsLeft]
  | publish value write => cases stays

end Push

namespace Pop
variable {α : Type} {p : PowerOfTwo}

def stepsLeft : Pop α → Nat
  | .load => 3
  | .reload _ => 2
  | .copy _ => 1
  | .release _ _ => 0

theorem step_stepsLeft {q : SpscQueue α p} {phase next : Pop α} (stays : (phase.step q).2 = .inl next) :
    next.stepsLeft < phase.stepsLeft := by
  cases phase with
  | load =>
    rw [Pop.step] at stays
    split at stays <;> cases stays <;> simp [stepsLeft]
  | reload read =>
    rw [Pop.step] at stays
    split at stays
    next => cases stays
    next =>
      cases stays
      simp [stepsLeft]
  | copy read =>
    cases stays
    simp [stepsLeft]
  | release read out => cases stays

theorem stepsLeft_fails {q : SpscQueue α p} {phase : Pop α} (failed : (phase.step q).2 = .inr none) :
    phase.stepsLeft = 2 := by
  cases phase with
  | load =>
    rw [Pop.step] at failed
    split at failed <;> cases failed
  | reload read => rfl
  | copy read => cases failed
  | release read out => cases failed

end Pop

namespace EndToEnd
variable {cap : Capacity} {p : PowerOfTwo} {c : Config} {stream : List MarketMessage} {batch : Nat} {origin rate : UInt64}
  {b₀ : OrderBook c} {s s' : EndToEnd cap p c} {outs : List FeedMessage}

/-- The events on their way into the ring: at most the one of a running push. -/
def flight (s : EndToEnd cap p c) : List PipelineEvent := s.ring.producer.toList.map Push.value

def Stands (stream : List MarketMessage) (s : EndToEnd cap p c) (outs : List FeedMessage) : Produce → Prop
  | .wait => outs = [] ∧ s.ring.producer = none
  | .pace => outs = [] ∧ s.ring.producer = none ∧ s.position < stream.length
  | .packet => outs = [] ∧ s.ring.producer = none ∧ s.position < stream.length
  | .drain => s.ring.producer = none
  | .push => s.ring.producer ≠ none
  | .store => outs = [] ∧ s.ring.producer = none ∧ s.position = stream.length
  | .finished => outs = [] ∧ s.ring.producer = none ∧ s.position = stream.length

/-- `outs` is what the sequencer holds. -/
structure Supplies (stream : List MarketMessage) (s : EndToEnd cap p c) (outs : List FeedMessage) : Prop where
  within : s.position ≤ stream.length
  sequenced : outs = [] ∧ s.sequencer = SequenceManager.create cap ∨
    SequenceManager.Full (1001+s.position) outs s.sequencer
  stands : Stands stream s outs s.producer
  work : s.ring.published.map (MarketMessage.unstamped ∘ PipelineEvent.msg) ++
    s.flight.map (MarketMessage.unstamped ∘ PipelineEvent.msg) ++
    outs.map (MarketMessage.unstamped ∘ FeedMessage.message) ++ stream.drop s.position = stream

theorem Supplies.published_le (supplies : Supplies stream s outs) : s.ring.published.length ≤ stream.length := by
  have length := congrArg List.length supplies.work
  simp only [List.length_append,List.length_map] at length
  omega

theorem Supplies.more (supplies : Supplies stream s outs) (here : s.producer = .packet) :
    s.position < stream.length := by
  have stands := supplies.stands
  rw [here] at stands
  exact stands.2.2

/-- The producer comes to the head of its loop with nothing left in its hands. -/
theorem Supplies.nextRound (within : s.position ≤ stream.length)
    (sequenced : outs = [] ∧ s.sequencer = SequenceManager.create cap ∨
      SequenceManager.Full (1001+s.position) outs s.sequencer)
    (empty : outs = []) (idle : s.ring.producer = none)
    (work : s.ring.published.map (MarketMessage.unstamped ∘ PipelineEvent.msg) ++
      s.flight.map (MarketMessage.unstamped ∘ PipelineEvent.msg) ++
      outs.map (MarketMessage.unstamped ∘ FeedMessage.message) ++ stream.drop s.position = stream) :
    Supplies stream (nextRound stream s) outs := by
  refine ⟨within,sequenced,?_,work⟩
  rw [EndToEnd.nextRound]
  dsimp only
  split
  next more => exact ⟨empty,idle,more⟩
  next past => exact ⟨empty,idle,by dsimp only; omega⟩

/-- What the stream has to be for the producer to hand out all of it. -/
structure Sendable (cap : Capacity) (stream : List MarketMessage) (batch : Nat) : Prop where
  pos : 0 < batch
  most : batch ≤ kMaxBatch
  fits : kMaxBatch ≤ cap.size
  consecutive : Consecutive 1001 stream
  small : 1001+stream.length ≤ 2^63
  unstamped : ∀ message ∈ stream, message.unstamped = message

theorem Supplies.packet (sendable : Sendable cap stream batch) (supplies : Supplies stream s outs)
    {timestamps : Nat → UInt64} {t0Recv t1Parsed : UInt64} {calls : List (SequenceManager.Call cap)}
    {sequencer : SequenceManager cap} (here : s.producer = .packet)
    (fed : SequenceManager.acceptAll (none : Option (Client Unit)) 0
      ((payload stream s.position (min batch (stream.length - s.position)) timestamps).map
        (stamp t0Recv t1Parsed)) s.sequencer () = some (calls,sequencer,())) :
    Supplies stream {s with
      sequencer := sequencer
      position := s.position + min batch (stream.length - s.position)
      producer := .drain} ((payload stream s.position (min batch (stream.length - s.position)) timestamps).map
        (stamp t0Recv t1Parsed)) := by
  obtain ⟨pos,most,fits,consecutive,small,unstamped⟩ := sendable
  have stands := supplies.stands
  rw [here] at stands
  obtain ⟨none,idle,more⟩ := stands
  subst none
  generalize taken : min batch (stream.length - s.position) = count at fed ⊢
  have length : (payload stream s.position count timestamps).length = count := by
    rw [length_payload]
    omega
  have numbered : Consecutive (1001+s.position) (payload stream s.position count timestamps) :=
    ((consecutive.drop s.position supplies.within).take count).congr
      (payload_map MarketMessage.sequenceNumber (fun _ _ => rfl) stream s.position count timestamps)
  have settled : s.sequencer = SequenceManager.create cap ∨
      SequenceManager.Full (1001+s.position) [] s.sequencer := by
    rcases supplies.sequenced with ⟨_,new⟩ | full
    · exact .inl new
    · exact .inr full
  have full := SequenceManager.acceptAll_full settled (by rw [← List.length_pos_iff]; omega) fed numbered
    (by omega) (by omega)
  rw [length] at full
  refine ⟨by dsimp only; omega,.inr (by rw [← Nat.add_assoc]; exact full),idle,?_⟩
  have work := supplies.work
  rw [List.map_nil,List.append_nil] at work
  dsimp only [flight] at work ⊢
  have plain : ((payload stream s.position count timestamps).map (stamp t0Recv t1Parsed)).map
      (MarketMessage.unstamped ∘ FeedMessage.message) = (stream.drop s.position).take count := by
    rw [List.map_map]
    change (payload stream s.position count timestamps).map MarketMessage.unstamped = _
    rw [payload_map MarketMessage.unstamped (fun _ _ => rfl)]
    rw [List.map_congr_left (fun message member =>
      unstamped message (List.mem_of_mem_drop (List.mem_of_mem_take member))),List.map_id']
  rw [plain,List.append_assoc,← List.drop_drop,List.take_append_drop]
  exact work

/-- Every step of the producer. -/
private theorem Supplies.found_none {sequencer : SequenceManager cap} (supplies : Supplies stream s outs)
    (found : s.sequencer.nextDeliverable = (none,sequencer)) : outs = [] ∧ sequencer = s.sequencer := by
  rcases supplies.sequenced with ⟨none,new⟩ | full
  · rw [new] at found ⊢
    exact ⟨none,(Prod.mk.inj found).2.symm⟩
  · cases outs with
    | nil =>
      rw [full.nothing] at found
      exact ⟨rfl,(Prod.mk.inj found).2.symm⟩
    | cons out rest =>
      rw [full.hands.1] at found
      exact absurd (Prod.mk.inj found).1 (by simp)

private theorem Supplies.found_some {out : FeedMessage} {sequencer : SequenceManager cap}
    (supplies : Supplies stream s outs) (found : s.sequencer.nextDeliverable = (some out,sequencer)) :
    ∃ rest, outs = out::rest ∧ SequenceManager.Full (1001+s.position) rest sequencer := by
  rcases supplies.sequenced with ⟨_,new⟩ | full
  · rw [new] at found
    exact absurd (Prod.mk.inj found).1 (by simp)
  · cases outs with
    | nil =>
      rw [full.nothing] at found
      exact absurd (Prod.mk.inj found).1 (by simp)
    | cons first rest =>
      obtain ⟨handed,full'⟩ := full.hands
      rw [handed,Prod.mk.injEq,Option.some.injEq] at found
      obtain ⟨rfl,rfl⟩ := found
      exact ⟨rest,rfl,full'⟩

/-- The message goes from the sequencer into the push. -/
private theorem Supplies.hand {out : FeedMessage} {sequencer : SequenceManager cap} {rest : List FeedMessage}
    (supplies : Supplies stream s (out::rest)) (here : s.producer = .drain) (clock : UInt64)
    (full : SequenceManager.Full (1001+s.position) rest sequencer) :
    Supplies stream {s with
      sequencer := sequencer
      producer := .push
      ring := {s.ring with producer := some (.load {PipelineEvent.of out clock with recovered := 0})}} rest := by
  have idle : s.ring.producer = none := by
    have stands := supplies.stands
    rw [here] at stands
    exact stands
  refine ⟨supplies.within,.inr full,by simp [Stands],?_⟩
  have work := supplies.work
  simp only [flight,idle,Option.toList_none,List.map_nil,List.append_nil,List.map_cons] at work
  simp only [flight,Option.toList_some,List.map_cons,List.map_nil,Push.value,Function.comp_apply]
  rw [List.append_assoc (List.map _ _) [_],List.singleton_append]
  exact work

/-- The ring of a running push is replaced by one with the same work. -/
private theorem Supplies.pushed {ring : Spsc PipelineEvent p} {producer : Produce} {phase : Push PipelineEvent}
    (supplies : Supplies stream s outs) (running : s.ring.producer = some phase)
    (stands : Stands stream {s with ring := ring, producer := producer} outs producer)
    (same : (ring.published ++ ring.producer.toList.map Push.value).map (MarketMessage.unstamped ∘ PipelineEvent.msg) =
      (s.ring.published ++ [phase.value]).map (MarketMessage.unstamped ∘ PipelineEvent.msg)) :
    Supplies stream {s with ring := ring, producer := producer} outs := by
  refine ⟨supplies.within,supplies.sequenced,stands,?_⟩
  have work := supplies.work
  simp only [flight,running,Option.toList_some,List.map_cons,List.map_nil] at work
  rw [List.map_append,List.map_append] at same
  dsimp only [flight]
  rw [same]
  exact work

theorem Supplies.produces (sendable : Sendable cap stream batch) (supplies : Supplies stream s outs)
    (taken : Produces stream batch s s') : ∃ outs', Supplies stream s' outs' := by
  have stands := supplies.stands
  cases taken with
  | waits here early => exact ⟨outs,supplies⟩
  | start clock here ready =>
    rw [here] at stands
    exact ⟨outs,.nextRound supplies.within supplies.sequenced stands.1 stands.2 supplies.work⟩
  | paced here =>
    rw [here] at stands
    exact ⟨outs,supplies.within,supplies.sequenced,stands,supplies.work⟩
  | packet here fed => exact ⟨_,supplies.packet sendable here fed⟩
  | nothing here found =>
    rw [here] at stands
    obtain ⟨none,rfl⟩ := supplies.found_none found
    exact ⟨outs,.nextRound supplies.within supplies.sequenced none stands supplies.work⟩
  | hand clock here found =>
    obtain ⟨rest,rfl,full⟩ := supplies.found_some found
    exact ⟨rest,supplies.hand here clock full⟩
  | @goes phase next here running stays =>
    obtain ⟨goes,published⟩ := s.ring.push_stays phase next stays
    refine ⟨outs,supplies.pushed running ?_ ?_⟩
    · rw [here]
      simp [Stands,goes]
    · rw [goes,published,Option.toList_some,List.map_singleton,Push.step_value _ _ _ stays]
  | @publish phase here running accepted =>
    obtain ⟨idle,published⟩ := s.ring.push_returns phase true accepted
    refine ⟨outs,supplies.pushed running idle ?_⟩
    rw [idle,published,if_pos rfl,Option.toList_none,List.map_nil,List.append_nil]
  | @again phase clock here running refused =>
    obtain ⟨_,published⟩ := s.ring.push_returns phase false refused
    refine ⟨outs,supplies.pushed running ?_ ?_⟩
    · rw [here]
      simp [Stands]
    · -- only the time of the event is taken again
      simp [published,Push.value,MarketMessage.unstamped]
  | storeDone here =>
    rw [here] at stands
    exact ⟨outs,supplies.within,supplies.sequenced,stands,supplies.work⟩

structure Applied (b₀ : OrderBook c) (count : Nat) (s : EndToEnd cap p c) : Prop where
  book : Engine.applyAll (s.ring.popped.map PipelineEvent.msg) b₀ = some s.book
  represents : ∃ a, OrderBook.Represents s.book a
  consumed : s.consumed.toNat = s.ring.popped.length
  stages : s.stages.Recorded count s.ring.popped.length

structure Steady (stream : List MarketMessage) (origin : UInt64) (b₀ : OrderBook c) (s : EndToEnd cap p c) : Prop where
  linked : ∃ seenRead seenWrite, s.ring.Linked origin seenRead seenWrite
  supplies : ∃ outs, Supplies stream s outs
  applied : Applied b₀ stream.length s
  done : s.producerDone = true ↔ s.producer = .finished
  early : s.consumerReady = false → s.producer = .wait ∧ s.consumer = .pop ∧ s.ring.consumer = none
  knows : s.ring.Knows (s.producer = .finished) s.consumer

theorem Steady.create (cap : Capacity) (p : PowerOfTwo) (origin : UInt64) (created : OrderBook.create c = some b₀)
    (stream : List MarketMessage) :
    Steady stream origin b₀ (create cap p origin b₀ stream.length) :=
  ⟨⟨0,0,.create p origin⟩,⟨[],Nat.zero_le _,.inl ⟨rfl,rfl⟩,⟨rfl,rfl⟩,rfl⟩,
    ⟨rfl,⟨_,OrderBook.create_represents created⟩,rfl,.create _⟩,by simp [EndToEnd.create],
    fun _ => ⟨rfl,rfl,rfl⟩,trivial⟩

/-- What a step of the producer leaves in place. -/
structure ProducerFrame (s s' : EndToEnd cap p c) : Prop where
  working : s.producer ≠ .finished
  popped : s'.ring.popped = s.ring.popped
  pops : s'.ring.consumer = s.ring.consumer
  book : s'.book = s.book
  stages : s'.stages = s.stages
  consumed : s'.consumed = s.consumed
  ready : s'.consumerReady = s.consumerReady
  consumer : s'.consumer = s.consumer

theorem Produces.frame (taken : Produces stream batch s s') : ProducerFrame s s' := by
  cases taken with
  | waits here early => exact ⟨by simp [here],rfl,rfl,rfl,rfl,rfl,rfl,rfl⟩
  | start clock here ready => exact ⟨by simp [here],rfl,rfl,rfl,rfl,rfl,rfl,rfl⟩
  | paced here => exact ⟨by simp [here],rfl,rfl,rfl,rfl,rfl,rfl,rfl⟩
  | packet here fed => exact ⟨by simp [here],rfl,rfl,rfl,rfl,rfl,rfl,rfl⟩
  | nothing here found => exact ⟨by simp [here],rfl,rfl,rfl,rfl,rfl,rfl,rfl⟩
  | hand clock here found => exact ⟨by simp [here],rfl,rfl,rfl,rfl,rfl,rfl,rfl⟩
  | goes here running stays =>
    exact ⟨by simp [here],(s.ring.push_consumer _).2,(s.ring.push_consumer _).1,rfl,rfl,rfl,rfl,rfl⟩
  | publish here running accepted =>
    exact ⟨by simp [here],(s.ring.push_consumer _).2,(s.ring.push_consumer _).1,rfl,rfl,rfl,rfl,rfl⟩
  | again clock here running refused =>
    exact ⟨by simp [here],(s.ring.push_consumer _).2,(s.ring.push_consumer _).1,rfl,rfl,rfl,rfl,rfl⟩
  | storeDone here => exact ⟨by simp [here],rfl,rfl,rfl,rfl,rfl,rfl,rfl⟩

structure ConsumerFrame (s s' : EndToEnd cap p c) : Prop where
  published : s'.ring.published = s.ring.published
  pushes : s'.ring.producer = s.ring.producer
  sequencer : s'.sequencer = s.sequencer
  started : s'.startNs = s.startNs
  position : s'.position = s.position
  done : s'.producerDone = s.producerDone
  producer : s'.producer = s.producer

theorem Consumes.frame (taken : Consumes s s') : ConsumerFrame s s' := by
  cases taken with
  | @goes phase next running stays =>
    exact ⟨(s.ring.pop_producer phase).2,(s.ring.pop_producer phase).1,rfl,rfl,rfl,rfl,rfl⟩
  | @fails phase running failed =>
    exact ⟨(s.ring.pop_producer phase).2,(s.ring.pop_producer phase).1,rfl,rfl,rfl,rfl,rfl⟩
  | @takes phase event result book t3Dequeue t4Book running got applied =>
    exact ⟨(s.ring.pop_producer phase).2,(s.ring.pop_producer phase).1,rfl,rfl,rfl,rfl,rfl⟩
  | _ => exact ⟨rfl,rfl,rfl,rfl,rfl,rfl,rfl⟩

theorem Supplies.frame (supplies : Supplies stream s outs) (frame : ConsumerFrame s s') :
    Supplies stream s' outs := by
  obtain ⟨published,pushes,sequencer,_,position,_,producer⟩ := frame
  refine ⟨position ▸ supplies.within,?_,?_,?_⟩
  · rw [sequencer,position]
    exact supplies.sequenced
  · have stands := supplies.stands
    rw [producer]
    cases here : s.producer <;> rw [here] at stands <;> simp only [Stands,pushes,position] <;> exact stands
  · simp only [published,flight,pushes,position]
    exact supplies.work

theorem Produces.linked (taken : Produces stream batch s s')
    (linked : ∃ seenRead seenWrite, s.ring.Linked origin seenRead seenWrite) :
    ∃ seenRead seenWrite, s'.ring.Linked origin seenRead seenWrite := by
  obtain ⟨seenRead,seenWrite,linked⟩ := linked
  cases taken with
  | hand clock here found => exact ⟨seenRead,seenWrite,{linked with producing := trivial}⟩
  | @goes phase next here running stays =>
    obtain ⟨seenRead',after⟩ := linked.push phase running
    exact ⟨seenRead',seenWrite,after⟩
  | @publish phase here running accepted =>
    obtain ⟨seenRead',after⟩ := linked.push phase running
    exact ⟨seenRead',seenWrite,after⟩
  | @again phase clock here running refused =>
    obtain ⟨seenRead',after⟩ := linked.push phase running
    exact ⟨seenRead',seenWrite,{after with producing := trivial}⟩
  | _ => exact ⟨seenRead,seenWrite,linked⟩

theorem nextRound_working (stream : List MarketMessage) (s : EndToEnd cap p c) :
    (nextRound stream s).producer ≠ .finished := by
  rw [nextRound]
  dsimp only
  split <;> simp

theorem Produces.done (taken : Produces stream batch s s')
    (done : s.producerDone = true ↔ s.producer = .finished) : s'.producerDone = true ↔ s'.producer = .finished := by
  have working := taken.frame.working
  have unset : s.producerDone = false := by
    rw [← Bool.not_eq_true]
    exact fun set => working (done.mp set)
  cases taken with
  | waits here early => exact done
  | start clock here ready => exact iff_of_false (by simp [nextRound,unset]) (nextRound_working _ _)
  | nothing here found => exact iff_of_false (by simp [nextRound,unset]) (nextRound_working _ _)
  | storeDone here => simp
  | goes here running stays => exact done
  | again clock here running refused => exact done
  | _ => simp [unset]

theorem Produces.early (taken : Produces stream batch s s') (early : s.consumerReady = false → s.producer = .wait)
    (ready : s'.consumerReady = false) : s'.producer = .wait := by
  have waits := early (taken.frame.ready.symm.trans ready)
  cases taken with
  | waits here early => exact here
  | start clock here set => simp [nextRound,set] at ready
  | paced here => simp [waits] at here
  | packet here fed => simp [waits] at here
  | nothing here found => simp [waits] at here
  | hand clock here found => simp [waits] at here
  | goes here running stays => simp [waits] at here
  | publish here running accepted => simp [waits] at here
  | again clock here running refused => simp [waits] at here
  | storeDone here => simp [waits] at here

theorem Steady.produces (sendable : Sendable cap stream batch) (steady : Steady stream origin b₀ s)
    (taken : Produces stream batch s s') : Steady stream origin b₀ s' := by
  have frame := taken.frame
  obtain ⟨outs,supplies⟩ := steady.supplies
  refine ⟨taken.linked steady.linked,supplies.produces sendable taken,?_,taken.done steady.done,?_,?_⟩
  · obtain ⟨book,represents,consumed,stages⟩ := steady.applied
    refine ⟨?_,frame.book ▸ represents,?_,?_⟩
    · rw [frame.popped,frame.book]
      exact book
    · rw [frame.popped,frame.consumed]
      exact consumed
    · rw [frame.popped,frame.stages]
      exact stages
  · intro ready
    have before := steady.early (frame.ready.symm.trans ready)
    exact ⟨taken.early (fun early => (steady.early early).1) ready,frame.consumer.trans before.2.1,
      frame.pops.trans before.2.2⟩
  · rw [frame.consumer]
    exact steady.knows.early frame.working frame.pops

theorem Consumes.linked (taken : Consumes s s')
    (linked : ∃ seenRead seenWrite, s.ring.Linked origin seenRead seenWrite) :
    ∃ seenRead seenWrite, s'.ring.Linked origin seenRead seenWrite := by
  obtain ⟨seenRead,seenWrite,linked⟩ := linked
  cases taken with
  | callPop ready here idle => exact ⟨seenRead,seenWrite,{linked with consuming := trivial}⟩
  | @goes phase next running stays =>
    obtain ⟨seenWrite',after⟩ := linked.pop phase running
    exact ⟨seenRead,seenWrite',after⟩
  | @fails phase running failed =>
    obtain ⟨seenWrite',after⟩ := linked.pop phase running
    exact ⟨seenRead,seenWrite',after⟩
  | @takes phase event result book t3Dequeue t4Book running got applied =>
    obtain ⟨seenWrite',after⟩ := linked.pop phase running
    exact ⟨seenRead,seenWrite',after⟩
  | _ => exact ⟨seenRead,seenWrite,linked⟩

theorem Applied.consumes {count : Nat} (applied : Applied b₀ count s) (taken : Consumes s s')
    (linked : ∃ seenRead seenWrite, s.ring.Linked origin seenRead seenWrite) (most : s.ring.published.length ≤ count)
    (small : count < 2^64) : Applied b₀ count s' := by
  obtain ⟨book,represents,consumed,stages⟩ := applied
  cases taken with
  | @goes phase next running stays =>
    have popped := (s.ring.pop_stays phase next stays).2
    exact ⟨by dsimp only; rw [popped]; exact book,represents,by dsimp only; rw [popped]; exact consumed,
      by dsimp only; rw [popped]; exact stages⟩
  | @fails phase running failed =>
    have popped : (s.ring.pop phase).popped = s.ring.popped := by
      rw [(s.ring.pop_returns phase none failed).2,Option.toList_none,List.append_nil]
    exact ⟨by dsimp only; rw [popped]; exact book,represents,by dsimp only; rw [popped]; exact consumed,
      by dsimp only; rw [popped]; exact stages⟩
  | @takes phase event result after t3Dequeue t4Book running got applied =>
    obtain ⟨seenRead,seenWrite,linked⟩ := linked
    have room := linked.got running got
    have popped : (s.ring.pop phase).popped = s.ring.popped ++ [event] := (s.ring.pop_returns phase (some event) got).2
    refine ⟨?_,?_,?_,?_⟩
    · dsimp only
      rw [popped,List.map_append]
      exact Engine.applyAll_append book applied
    · obtain ⟨a,agree⟩ := represents
      obtain ⟨_,b',a',returned,agree'⟩ := Engine.dispatch_returns agree event.msg
      rw [applied,Option.some.injEq,Prod.mk.injEq] at returned
      rw [← returned.2] at agree'
      exact ⟨a',agree'⟩
    · dsimp only
      rw [popped,List.length_append,List.length_singleton,succ_toNat (by omega),consumed]
    · dsimp only
      rw [popped,List.length_append,List.length_singleton]
      exact stages.add (by omega) event t3Dequeue t4Book
  | _ => exact ⟨book,represents,consumed,stages⟩

theorem Consumes.knows (steady : Steady stream origin b₀ s) (taken : Consumes s s') :
    s'.ring.Knows (s'.producer = .finished) s'.consumer := by
  have knows := steady.knows
  obtain ⟨_,_,linked⟩ := steady.linked
  have popping {phase : Pop PipelineEvent} (running : s.ring.consumer = some phase) : s.consumer = .pop :=
    knows.waiting.resolve_right (by simp [running])
  cases taken with
  | ready early =>
    dsimp only
    rw [(steady.early early).2.1]
    trivial
  | callPop ready here idle =>
    dsimp only
    rw [here]
    trivial
  | goes running stays =>
    dsimp only
    rw [popping running]
    trivial
  | fails running failed => exact (s.ring.pop_returns _ none failed).1
  | takes t3Dequeue t4Book running got applied =>
    dsimp only
    rw [popping running]
    trivial
  | loadDone here =>
    rw [here] at knows
    dsimp only
    split
    next set => exact ⟨knows,steady.done.mp set⟩
    next => trivial
  | readFirst here =>
    rw [here] at knows
    exact ⟨knows.1,knows.2,rfl⟩
  | writeFirst here =>
    rw [here] at knows
    exact ⟨knows.1,knows.2,rfl⟩
  | readLast here =>
    rw [here] at knows
    exact linked.decides knows.1 knows.2.1 rfl knows.2.2
  | writeLast here =>
    rw [here] at knows
    exact linked.decides knows.1 knows.2.1 knows.2.2 rfl

theorem Consumes.early (steady : Steady stream origin b₀ s) (taken : Consumes s s')
    (ready : s'.consumerReady = false) : s'.producer = .wait ∧ s'.consumer = .pop ∧ s'.ring.consumer = none := by
  cases taken with
  | ready early => simp at ready
  | callPop set here idle => simp [set] at ready
  | goes running stays => simp [(steady.early ready).2.2] at running
  | fails running failed => simp [(steady.early ready).2.2] at running
  | takes t3Dequeue t4Book running got applied => simp [(steady.early ready).2.2] at running
  | loadDone here => simp [(steady.early ready).2.1] at here
  | readFirst here => simp [(steady.early ready).2.1] at here
  | writeFirst here => simp [(steady.early ready).2.1] at here
  | readLast here => simp [(steady.early ready).2.1] at here
  | writeLast here => simp [(steady.early ready).2.1] at here

theorem Steady.consumes (small : stream.length < 2^64) (steady : Steady stream origin b₀ s) (taken : Consumes s s') :
    Steady stream origin b₀ s' := by
  have frame := taken.frame
  obtain ⟨outs,supplies⟩ := steady.supplies
  refine ⟨taken.linked steady.linked,⟨outs,supplies.frame frame⟩,
    steady.applied.consumes taken steady.linked supplies.published_le small,?_,taken.early steady,
    taken.knows steady⟩
  rw [frame.done,frame.producer]
  exact steady.done

theorem Steady.moves (sendable : Sendable cap stream batch) (steady : Steady stream origin b₀ s) {m : EndToEndMove}
    (taken : s.move stream batch rate m = some s') :
    thread m = .producer ∧ (Produces stream batch s s' ∨ s.Waits rate m ∧ s' = s) ∨
      thread m = .consumer ∧ Consumes s s' := by
  obtain ⟨_,supplies⟩ := steady.supplies
  exact move_cases sendable.pos sendable.most supplies.more taken

theorem Steady.move (sendable : Sendable cap stream batch) (steady : Steady stream origin b₀ s) {m : EndToEndMove}
    (taken : s.move stream batch rate m = some s') : Steady stream origin b₀ s' := by
  have small := sendable.small
  rcases steady.moves sendable taken with ⟨_,produces | ⟨_,rfl⟩⟩ | ⟨_,consumes⟩
  · exact steady.produces sendable produces
  · exact steady
  · exact steady.consumes (by omega) consumes

theorem reached_steady (sendable : Sendable cap stream batch) (created : OrderBook.create c = some b₀)
    (reached : Reached (move stream batch rate) (create cap p origin b₀ stream.length) s) :
    Steady stream origin b₀ s :=
  reached.invariant (.create cap p origin created stream) (fun _ _ _ steady taken => steady.move sendable taken)

end EndToEnd
end Llte
