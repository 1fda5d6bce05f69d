import Llte.EndToEndRuns

/-! The end of the end-to-end benchmark. Neither thread ever blocks, but both spin: the
producer on a full ring and before its deadlines, the consumer on an empty ring. At every
moment one of them is closer to its next success with each of its steps, looks at the clock
apart, whatever the other does meanwhile. -/
namespace Llte.EndToEnd
open Foundation

variable {cap : Capacity} {p : PowerOfTwo} {c : Config} {stream : List MarketMessage} {batch : Nat} {origin rate : UInt64}
  {b₀ : OrderBook c} {s s' : EndToEnd cap p c}

private theorem not_early (s : EndToEnd cap p c) (rate : UInt64) : s.early rate (s.deadline rate) = false := by
  simp [early]

private theorem producer_moves (sendable : Sendable cap stream batch) (steady : Steady stream origin b₀ s)
    (working : s.producer ≠ .finished) :
    ∃ m, thread m = .producer ∧ (s.move stream batch rate m).isSome ∧ ¬s.Waits rate m := by
  obtain ⟨outs,supplies⟩ := steady.supplies
  have stands := supplies.stands
  cases here : s.producer with
  | wait => exact ⟨.start 0,rfl,by simp [move,here],by simp [Waits]⟩
  | pace => exact ⟨.pace (s.deadline rate),rfl,by simp [move,here],by simp [Waits,not_early]⟩
  | packet =>
    obtain ⟨_,_,_,feeds⟩ := feed_eq sendable.pos sendable.most (supplies.more here) (fun _ => 0) 0 0
    refine ⟨.packet (fun _ => 0) 0 0,rfl,?_,by simp [Waits]⟩
    rw [move,if_pos here,feeds]
    rfl
  | drain => exact ⟨.deliver 0,rfl,by simp [move,here],by simp [Waits]⟩
  | push =>
    rw [here] at stands
    obtain ⟨phase,running⟩ := Option.ne_none_iff_exists'.mp stands
    exact ⟨.push 0,rfl,by simp [move,here,running],by simp [Waits]⟩
  | store => exact ⟨.storeDone,rfl,by simp [move,here],by simp [Waits]⟩
  | finished => exact absurd here working

private theorem consumer_moves (steady : Steady stream origin b₀ s) (working : s.consumer ≠ .broken) :
    ∃ m, thread m = .consumer ∧ (s.move stream batch rate m).isSome ∧ ¬s.Waits rate m := by
  cases here : s.consumer with
  | pop =>
    cases running : s.ring.consumer with
    | none =>
      cases ready : s.consumerReady with
      | false => exact ⟨.ready,rfl,by simp [move,ready],by simp [Waits]⟩
      | true => exact ⟨.callPop,rfl,by simp [move,ready,here,running],by simp [Waits]⟩
    | some phase =>
      refine ⟨.pop 0 0,rfl,?_,by simp [Waits]⟩
      rw [move]
      simp only [running]
      rw [pop]
      split
      next => rfl
      next => rfl
      next event got =>
        obtain ⟨a,agree⟩ := steady.applied.represents
        obtain ⟨result,b',_,returned,_⟩ := Engine.dispatch_returns agree event.msg
        rw [returned]
        rfl
  | flag => exact ⟨.loadDone,rfl,by simp [move,here],by simp [Waits]⟩
  | empty => exact ⟨.loadRead,rfl,by simp [move,here],by simp [Waits]⟩
  | emptyWrite read => exact ⟨.loadWrite,rfl,by simp [move,here],by simp [Waits]⟩
  | emptyRead write => exact ⟨.loadRead,rfl,by simp [move,here],by simp [Waits]⟩
  | broken => exact absurd here working

def Drained (s : EndToEnd cap p c) : Prop := s.ring.published.length ≤ s.ring.popped.length
  deriving Decidable

/-- What is left to do: to publish and to pop each message, to get ready and to finish. -/
def work (stream : List MarketMessage) (s : EndToEnd cap p c) : Nat :=
  2*(stream.length - s.ring.published.length) + (s.ring.published.length - s.ring.popped.length) +
    (if s.producer = .finished then 0 else 1) + (if s.consumerReady then 0 else 1)

/-- On an empty ring the producer can succeed, on any other the consumer. -/
def helper (s : EndToEnd cap p c) : Thread :=
  if s.consumerReady = true ∧ s.Drained ∧ s.producer ≠ .finished then .producer else .consumer

/-- The producer's way to its next publication, on an empty ring. -/
def producerRank (s : EndToEnd cap p c) : Nat :=
  match s.producer with
  | .wait => 9
  | .pace => 8
  | .packet => 7
  | .drain => if s.sequencer.nextDeliverable.1 = none then 9 else 6
  | .push => s.ring.producer.elim 0 fun phase => phase.stepsLeft+2
  | .store => 1
  | .finished => 0

/-- The consumer's way to its next event, or to the break once there is none. -/
def loopRank (drained : Bool) (running : Option (Pop PipelineEvent)) : Consume → Nat
  | .pop =>
    match running with
    | none => if drained then 8 else 4
    | some phase => if drained then phase.stepsLeft+4 else phase.stepsLeft
  | .flag => if drained then 5 else 7
  | .empty => if drained then 4 else 6
  | .emptyWrite _ => if drained then 3 else 5
  | .emptyRead _ => if drained then 3 else 5
  | .broken => 0

def consumerRank (s : EndToEnd cap p c) : Nat := loopRank s.Drained s.ring.consumer s.consumer

def ownRank (s : EndToEnd cap p c) : Nat :=
  match s.helper with
  | .producer => s.producerRank
  | .consumer => s.consumerRank

def rank (stream : List MarketMessage) (s : EndToEnd cap p c) : Nat := 10*s.work stream + s.ownRank

private theorem ownRank_lt (s : EndToEnd cap p c) : s.ownRank < 10 := by
  have push (phase : Push PipelineEvent) : phase.stepsLeft ≤ 3 := by cases phase <;> simp [Push.stepsLeft]
  have pop (phase : Pop PipelineEvent) : phase.stepsLeft ≤ 3 := by cases phase <;> simp [Pop.stepsLeft]
  unfold ownRank
  split
  · unfold producerRank
    split
    next => omega
    next => omega
    next => omega
    next => split <;> omega
    next =>
      cases s.ring.producer with
      | none => simp
      | some phase =>
        have left := push phase
        simp only [Option.elim_some]
        omega
    next => omega
    next => omega
  · unfold consumerRank loopRank
    split
    next =>
      split
      next => split <;> omega
      next phase _ =>
        have left := pop phase
        split <;> omega
    next => split <;> omega
    next => split <;> omega
    next => split <;> omega
    next => split <;> omega
    next => omega

private theorem rank_of_work (less : s'.work stream < s.work stream) : s'.rank stream < s.rank stream := by
  have bound := s'.ownRank_lt
  unfold rank
  omega

/-- The state as far as the rank counts it from outside the helper. -/
structure Unchanged (s s' : EndToEnd cap p c) : Prop where
  published : s'.ring.published.length = s.ring.published.length
  popped : s'.ring.popped.length = s.ring.popped.length
  ready : s'.consumerReady = s.consumerReady
  finished : s'.producer = .finished ↔ s.producer = .finished

namespace Unchanged

theorem work (unchanged : Unchanged s s') (stream : List MarketMessage) : s'.work stream = s.work stream := by
  obtain ⟨published,popped,ready,finished⟩ := unchanged
  simp only [EndToEnd.work,published,popped,ready,finished]

theorem drained (unchanged : Unchanged s s') : s'.Drained ↔ s.Drained := by
  rw [Drained,unchanged.published,unchanged.popped,Drained]

theorem helper (unchanged : Unchanged s s') : s'.helper = s.helper := by
  simp only [EndToEnd.helper,unchanged.drained,unchanged.ready,ne_eq,unchanged.finished]

end Unchanged

/-- A step of the producer succeeds, or leaves the consumer's rank alone. -/
theorem Produces.unchanged (steady : Steady stream origin b₀ s) (steady' : Steady stream origin b₀ s')
    (taken : Produces stream batch s s') : s'.work stream < s.work stream ∨ Unchanged s s' := by
  have frame := taken.frame
  have working := frame.working
  obtain ⟨_,supplies'⟩ := steady'.supplies
  have most := supplies'.published_le
  cases taken with
  | waits here early => exact .inr ⟨rfl,rfl,rfl,Iff.rfl⟩
  | start clock here ready => exact .inr ⟨rfl,rfl,rfl,iff_of_false (nextRound_working _ _) working⟩
  | paced here => exact .inr ⟨rfl,rfl,rfl,by simp [here]⟩
  | packet here fed => exact .inr ⟨rfl,rfl,rfl,by simp [here]⟩
  | nothing here found => exact .inr ⟨rfl,rfl,rfl,iff_of_false (nextRound_working _ _) working⟩
  | hand clock here found => exact .inr ⟨rfl,rfl,rfl,by simp [here]⟩
  | goes here running stays =>
    exact .inr ⟨by rw [(s.ring.push_stays _ _ stays).2],by rw [frame.popped],rfl,Iff.rfl⟩
  | @publish phase here running accepted =>
    left
    have published := (s.ring.push_returns phase true accepted).2
    rw [if_pos rfl] at published
    obtain ⟨_,_,linked⟩ := steady.linked
    have shorter := linked.fifo.length_le
    dsimp only at most
    rw [published,List.length_append,List.length_singleton] at most
    simp only [work,published,(s.ring.push_consumer phase).2,List.length_append,List.length_singleton,here,reduceCtorEq,if_false]
    omega
  | @again phase clock here running refused =>
    have published := (s.ring.push_returns phase false refused).2
    exact .inr ⟨by dsimp only; rw [published]; rfl,by rw [frame.popped],rfl,Iff.rfl⟩
  | storeDone here =>
    left
    simp only [work,here,if_true,reduceCtorEq,if_false]
    omega

theorem Consumes.unchanged (steady : Steady stream origin b₀ s) (taken : Consumes s s') :
    s'.work stream < s.work stream ∨ Unchanged s s' := by
  have frame := taken.frame
  cases taken with
  | ready early =>
    left
    simp [work,early]
  | @takes phase event result book t3Dequeue t4Book running got applied =>
    left
    obtain ⟨_,_,linked⟩ := steady.linked
    have room := linked.got running got
    simp only [work,(s.ring.pop_returns phase (some event) got).2,(s.ring.pop_producer phase).2,Option.toList_some,List.length_append,
      List.length_singleton]
    omega
  | goes running stays =>
    exact .inr ⟨by rw [frame.published],by rw [(s.ring.pop_stays _ _ stays).2],rfl,Iff.rfl⟩
  | @fails phase running failed =>
    exact .inr ⟨by rw [frame.published],by dsimp only; rw [(s.ring.pop_returns _ none failed).2,Option.toList_none,List.append_nil],rfl,Iff.rfl⟩
  | _ => exact .inr ⟨rfl,rfl,rfl,Iff.rfl⟩

/-- The consumer's own rank reads nothing that a step of the producer writes. -/
theorem consumerRank_frame (frame : ProducerFrame s s') (unchanged : Unchanged s s') :
    s'.consumerRank = s.consumerRank := by
  simp only [consumerRank,frame.consumer,frame.pops,unchanged.drained]

private theorem producerRank_frame (frame : ConsumerFrame s s') : s'.producerRank = s.producerRank := by
  simp only [producerRank,frame.producer,frame.sequencer,frame.pushes]

private theorem producerRank_nextRound (stream : List MarketMessage) (s : EndToEnd cap p c) :
    (nextRound stream s).producerRank < 9 := by
  rw [nextRound,producerRank]
  by_cases more : s.position < stream.length
  · simp [more]
  · simp [more]

/-- On an empty ring every step of the producer that does not succeed yet comes closer. -/
theorem Produces.falls (sendable : Sendable cap stream batch) (steady : Steady stream origin b₀ s)
    (ready : s.consumerReady = true) (drained : s.Drained) (taken : Produces stream batch s s')
    (unchanged : Unchanged s s') : s'.producerRank < s.producerRank := by
  cases taken with
  | waits here early => simp [ready] at early
  | start clock here set =>
    have waits : s.producerRank = 9 := by simp [producerRank,here]
    rw [waits]
    exact producerRank_nextRound stream _
  | paced here =>
    simp [producerRank,here]
  | @packet timestamps t0Recv t1Parsed calls sequencer here fed =>
    obtain ⟨_,supplies⟩ := steady.supplies
    have pos := sendable.pos
    have more := supplies.more here
    have sent := supplies.packet sendable here fed
    have length : ((payload stream s.position (min batch (stream.length - s.position)) timestamps).map
        (stamp t0Recv t1Parsed)).length ≠ 0 := by
      rw [List.length_map,length_payload]
      omega
    obtain ⟨out,rest,list⟩ := List.exists_cons_of_length_pos (Nat.pos_of_ne_zero length)
    rw [list] at sent
    rcases sent.sequenced with ⟨none,_⟩ | full
    · simp at none
    · have hands := full.hands.1
      dsimp only at hands
      simp [producerRank,here,hands]
  | nothing here found =>
    have done : s.producerRank = 9 := by simp [producerRank,here,found]
    rw [done]
    exact producerRank_nextRound stream _
  | hand clock here found =>
    simp [producerRank,here,found,Push.stepsLeft]
  | @goes phase next here running stays =>
    have fewer := Push.step_stepsLeft stays
    simp only [producerRank,here,running,(s.ring.push_stays phase next stays).1,Option.elim_some]
    omega
  | @publish phase here running accepted =>
    have published := unchanged.published
    dsimp only at published
    rw [(s.ring.push_returns phase true accepted).2] at published
    simp at published
  | again clock here running refused =>
    obtain ⟨_,_,linked⟩ := steady.linked
    have full := linked.refused running refused
    have pos := p.capacity.pos
    unfold Drained at drained
    omega
  | storeDone here =>
    simp [producerRank,here]

/-- The break is decided on an empty ring, the next round on any other. -/
theorem decideBreak_falls (steady : Steady stream origin b₀ s) {read write : UInt64}
    (own : read = s.ring.queue.readIdx) (other : write = s.ring.queue.writeIdx) :
    loopRank s.Drained none (Shutdown.decideBreak read write) < if s.Drained then 3 else 5 := by
  obtain ⟨_,_,linked⟩ := steady.linked
  unfold Shutdown.decideBreak
  split
  next same =>
    rw [loopRank]
    split <;> omega
  next apart =>
    have more : ¬s.Drained := by
      intro drained
      have shorter := linked.fifo.length_le
      unfold Drained at drained
      apply apart
      rw [own,other,linked.read,linked.write,show s.ring.popped.length = s.ring.published.length by omega]
    simp [loopRank,more]

theorem Consumes.falls (steady : Steady stream origin b₀ s) (taken : Consumes s s')
    (last : s.consumerReady = true → s.Drained → s.producer = .finished) (unchanged : Unchanged s s') :
    s'.consumerRank < s.consumerRank := by
  have knows := steady.knows
  have popping {phase : Pop PipelineEvent} (running : s.ring.consumer = some phase) : s.consumer = .pop :=
    knows.waiting.resolve_right (by simp [running])
  have drained : decide s'.Drained = decide s.Drained := by simp only [unchanged.drained]
  rw [consumerRank,consumerRank,drained]
  cases taken with
  | ready early =>
    have same := unchanged.ready
    simp [early] at same
  | callPop set here idle =>
    simp only [loopRank,here,idle,Pop.stepsLeft]
    split <;> omega
  | @goes phase next running stays =>
    have fewer := Pop.step_stepsLeft stays
    simp only [loopRank,popping running,running,(s.ring.pop_stays phase next stays).1]
    split <;> omega
  | @fails phase running failed =>
    obtain ⟨_,_,linked⟩ := steady.linked
    have empty : s.Drained := by rw [Drained,linked.failed running failed]
    simp [loopRank,popping running,running,empty,Pop.stepsLeft_fails failed]
  | @takes phase event result book t3Dequeue t4Book running got applied =>
    have popped := unchanged.popped
    dsimp only at popped
    rw [(s.ring.pop_returns phase (some event) got).2,Option.toList_some] at popped
    simp at popped
  | loadDone here =>
    rw [here] at knows
    have idle : s.ring.consumer = none := knows
    have ready : s.consumerReady = true := by
      rw [← Bool.not_eq_false]
      intro unset
      simp [(steady.early unset).2.1] at here
    by_cases empty : s.Drained
    · -- the producer has finished, so its flag is set
      simp [loopRank,here,empty,steady.done.mpr (last ready empty)]
    · cases s.producerDone <;> simp [loopRank,here,empty,idle]
  | readFirst here =>
    simp only [loopRank,here]
    split <;> omega
  | writeFirst here =>
    simp only [loopRank,here]
    split <;> omega
  | @readLast write here =>
    rw [here] at knows
    have falls := decideBreak_falls steady rfl knows.2.2
    simpa [here,knows.1,loopRank] using falls
  | @writeLast read here =>
    rw [here] at knows
    have falls := decideBreak_falls steady knows.2.2 rfl
    simpa [here,knows.1,loopRank] using falls

private theorem helper_producer (here : s.helper = .producer) :
    s.consumerReady = true ∧ s.Drained ∧ s.producer ≠ .finished := by
  unfold helper at here
  split at here
  next all => exact all
  next => simp at here

private theorem helper_consumer (here : s.helper = .consumer) (ready : s.consumerReady = true) (drained : s.Drained) :
    s.producer = .finished := by
  unfold helper at here
  split at here
  next => simp at here
  next other =>
    by_contra working
    exact other ⟨ready,drained,working⟩

/-- The deadline as far as the run has to wait for it. -/
def awaited (rate : UInt64) (s : EndToEnd cap p c) : UInt64 := if s.helper = .producer then s.deadline rate else 0

/-- The helper waits for its deadline. -/
def Idles (rate : UInt64) (s : EndToEnd cap p c) (m : EndToEndMove) : Prop := s.helper = .producer ∧ s.Waits rate m

/-- A step of the producer, its rounds before the deadline apart. -/
theorem Produces.rank (sendable : Sendable cap stream batch) (steady : Steady stream origin b₀ s)
    (taken : Produces stream batch s s') : s'.rank stream < s.rank stream ∨
      s'.rank stream = s.rank stream ∧ s'.helper = s.helper ∧ s.helper = .consumer := by
  rcases taken.unchanged steady (steady.produces sendable taken) with less | unchanged
  · exact .inl (rank_of_work less)
  · have same := unchanged.helper
    have worked := unchanged.work stream
    cases here : s.helper with
    | producer =>
      obtain ⟨ready,drained,_⟩ := helper_producer here
      have falls := taken.falls sendable steady ready drained unchanged
      left
      simp only [EndToEnd.rank,ownRank,same,here,worked]
      omega
    | consumer =>
      right
      refine ⟨?_,same.trans here,rfl⟩
      simp only [EndToEnd.rank,ownRank,same,here,worked,consumerRank_frame taken.frame unchanged]

theorem Consumes.rank (steady : Steady stream origin b₀ s) (taken : Consumes s s') :
    s'.rank stream < s.rank stream ∨
      s'.rank stream = s.rank stream ∧ s'.helper = s.helper ∧ s.helper = .producer := by
  rcases taken.unchanged steady with less | unchanged
  · exact .inl (rank_of_work less)
  · have same := unchanged.helper
    have worked := unchanged.work stream
    cases here : s.helper with
    | producer =>
      right
      refine ⟨?_,same.trans here,rfl⟩
      simp only [EndToEnd.rank,ownRank,same,here,worked,producerRank_frame taken.frame]
    | consumer =>
      have falls := taken.falls steady (helper_consumer here) unchanged
      left
      simp only [EndToEnd.rank,ownRank,same,here,worked]
      omega

/-- The helper brings the rank down unless it waits for the clock, the other thread does not
bring it up. -/
theorem rank_moves (sendable : Sendable cap stream batch) (steady : Steady stream origin b₀ s) {m : EndToEndMove}
    (taken : s.move stream batch rate m = some s') : s'.rank stream < s.rank stream ∨
      s'.rank stream = s.rank stream ∧ s'.helper = s.helper ∧ s'.awaited rate = s.awaited rate ∧
        (thread m = s.helper → s.Idles rate m) := by
  rcases steady.moves sendable taken with ⟨own,produces | ⟨waits,rfl⟩⟩ | ⟨own,consumes⟩
  · refine (produces.rank sendable steady).imp_right fun ⟨equal,same,other⟩ => ⟨equal,same,?_,?_⟩
    · simp [awaited,same,other]
    · simp [own,other]
  · exact .inr ⟨rfl,rfl,rfl,fun helps => ⟨helps.symm.trans own,waits⟩⟩
  · refine (consumes.rank steady).imp_right fun ⟨equal,same,other⟩ => ⟨equal,same,?_,?_⟩
    · simp only [awaited,same,deadline,consumes.frame.started,consumes.frame.position]
    · simp [own,other]

private theorem helper_works (steady : Steady stream origin b₀ s)
    (going : ¬(s.producer = .finished ∧ s.consumer = .broken)) : ¬Ended s.helper s := by
  cases here : s.helper with
  | producer => exact (helper_producer here).2.2
  | consumer =>
    intro ended
    have broken : s.consumer = .broken := ended
    have knows := steady.knows
    rw [broken] at knows
    exact going ⟨knows.2.1,broken⟩

/-- The end of a run: the consumer has taken the whole stream from the ring, in order, its
book is that of the stream, and every latency of every message was recorded. -/
structure Returned (stream : List MarketMessage) (b₀ : OrderBook c) (s : EndToEnd cap p c) : Prop where
  finished : s.producer = .finished
  broken : s.consumer = .broken
  popped : s.ring.popped.map (MarketMessage.unstamped ∘ PipelineEvent.msg) = stream
  consumed : s.consumed.toNat = stream.length
  book : Engine.applyAll stream b₀ = some s.book
  stages : s.stages.Recorded stream.length stream.length

theorem Steady.returned (steady : Steady stream origin b₀ s) (finished : s.producer = .finished)
    (broken : s.consumer = .broken) : Returned stream b₀ s := by
  have knows := steady.knows
  rw [broken] at knows
  obtain ⟨outs,supplies⟩ := steady.supplies
  have stands := supplies.stands
  rw [finished] at stands
  obtain ⟨none,idle,all⟩ := stands
  have popped : s.ring.popped.map (MarketMessage.unstamped ∘ PipelineEvent.msg) = stream := by
    have work := supplies.work
    rw [none,flight,idle,all] at work
    simpa [knows.2.2] using work
  have count : s.ring.popped.length = stream.length := by
    rw [← popped,List.length_map]
  refine ⟨finished,broken,popped,by rw [steady.applied.consumed,count],?_,count ▸ steady.applied.stages⟩
  rw [← popped,← List.map_map,Engine.applyAll_unstamped]
  exact steady.applied.book

private theorem buildStream_sendable {draws : List StreamDraws} (small : 1001+draws.length ≤ 2^63) (pos : 0 < batch)
    (most : batch ≤ kMaxBatch) (fits : kMaxBatch ≤ cap.size) : Sendable cap (buildStream draws) batch := by
  have numbered := buildStream_numbered draws small
  exact ⟨pos,most,fits,numbered.consecutive,by rw [buildStream,numbered.length]; exact small,numbered.unstamped⟩

/-- The clock passes every deadline of the run: from some step on, no look at it finds that
deadline still ahead. -/
def Timely (stream : List MarketMessage) (batch : Nat) (rate : UInt64) (schedule : Nat → EndToEndMove)
    (s : EndToEnd cap p c) : Prop :=
  ∀ n, ∃ k, ∀ j clock, k ≤ j → schedule j = .pace clock →
    (trace (move stream batch rate) schedule s n).early rate clock = false

theorem Timely.comes {schedule : Nat → EndToEndMove} (timely : Timely stream batch rate schedule s) :
    Comes (move stream batch rate) schedule (awaited rate) (Idles rate) s := by
  intro n
  obtain ⟨k,passed⟩ := timely n
  refine ⟨k,?_⟩
  rintro j later same ⟨producing,clock,looks,_,early⟩
  have past := passed j clock later looks
  rw [EndToEnd.early,decide_eq_true_iff] at early
  rw [awaited,if_pos producing,awaited] at same
  split at same
  next =>
    rw [same] at early
    rw [EndToEnd.early,decide_eq_false_iff_not] at past
    exact past early
  next =>
    rw [same] at early
    exact absurd early.2 UInt64.not_lt_zero

/-- In no state of a run is a thread stuck that has not returned, a producer before its
deadline once the clock has come to it; and under every fair schedule with such a clock both
threads return, with the whole stream applied to the book. -/
theorem end_to_end_returns (cap : Capacity) (p : PowerOfTwo) (origin : UInt64) (draws : List StreamDraws)
    (requested : UInt16) (rate : UInt64) (b₀ : OrderBook c) (created : OrderBook.create c = some b₀)
    (small : 1001+draws.length ≤ 2^63) (fits : kMaxBatch ≤ cap.size) :
    (∀ s, Reached (move (buildStream draws) (clampBatch requested.toNat) rate) (create cap p origin b₀ draws.length) s →
      ∀ t, ¬Ended t s →
        ∃ m, thread m = t ∧ (s.move (buildStream draws) (clampBatch requested.toNat) rate m).isSome ∧ ¬s.Waits rate m) ∧
    ∀ schedule, Fair (move (buildStream draws) (clampBatch requested.toNat) rate) thread Ended schedule
        (create cap p origin b₀ draws.length) →
      Timely (buildStream draws) (clampBatch requested.toNat) rate schedule (create cap p origin b₀ draws.length) →
      ∃ n, Returned (buildStream draws) b₀ (trace (move (buildStream draws) (clampBatch requested.toNat) rate) schedule
        (create cap p origin b₀ draws.length) n) := by
  obtain ⟨pos,most⟩ := clampBatch_bounds requested.toNat
  have sendable : Sendable cap (buildStream draws) (clampBatch requested.toNat) := buildStream_sendable small pos most fits
  have length : (buildStream draws).length = draws.length := (buildStream_numbered draws small).length
  rw [← length]
  refine ⟨fun s reached t going => ?_,fun schedule fair timely => ?_⟩
  · have steady := reached_steady sendable created reached
    cases t with
    | producer => exact producer_moves sendable steady going
    | consumer => exact consumer_moves steady going
  · obtain ⟨n,finished,broken⟩ := fair.reaches (fun s => s.producer = .finished ∧ s.consumer = .broken)
      (rank (buildStream draws)) helper timely.comes (.create cap p origin created (buildStream draws))
      (fun _ _ _ steady taken => steady.move sendable taken) (fun _ steady going => helper_works steady going)
      (fun _ _ _ steady _ taken => rank_moves sendable steady taken)
    exact ⟨n,(reached_steady sendable created (trace_reached _ _ _ n)).returned finished broken⟩

/-- An order to buy and an order to sell above it. -/
def twoOrders : List StreamDraws :=
  [⟨5,.buy,3,7,0,by decide,by decide,by decide,by decide,by decide⟩,
    ⟨5,.sell,1,9,0,by decide,by decide,by decide,by decide,by decide⟩]

/-- Five hundred million messages a second, two nanoseconds each: the producer looks once at
the clock before the second message is due. -/
def twoMessages : List EndToEndMove :=
  [.ready,.start 10,.pace 10,.packet (fun _ => 10) 10 10,.deliver 10,.push 10,.push 10,.push 10,.deliver 10,.pace 11,.pace 12,
    .packet (fun _ => 13) 13 13,.deliver 13,.push 13,.push 14,.callPop,.pop 14 14,.pop 14 14,.pop 14 14,.pop 14 15,
    .push 15,.push 15,.push 15,.push 15,.deliver 16,.storeDone,.callPop,.pop 17 17,.pop 17 17,.pop 17 17,.pop 17 18,
    .callPop,.pop 18 18,.pop 18 18,.loadDone,.loadWrite,.loadRead]

/-- A sequencer with room for one full packet. -/
def onePacket : Capacity := ⟨32,by decide,by decide⟩

def twoSchedule (n : Nat) : EndToEndMove := twoMessages.getD n .ready

/-- The second push waits for the consumer; in the end both orders rest in the book. -/
theorem end_to_end_returns_two : ∃ (b₀ : OrderBook OrderBook.aroundMid) (n : Nat) (s : EndToEnd onePacket HandlerProcess.one OrderBook.aroundMid),
    OrderBook.create OrderBook.aroundMid = some b₀ ∧ trace (move (buildStream twoOrders) (clampBatch (0 : UInt16).toNat) 500000000)
      twoSchedule (create onePacket HandlerProcess.one 0 b₀ twoOrders.length) n = s ∧
      Returned (buildStream twoOrders) b₀ s ∧ s.book.bestBid = 18751 ∧ s.book.bestAsk = 18753 := by
  have checked : ((OrderBook.create OrderBook.aroundMid).any fun b₀ =>
      let s := trace (move (buildStream twoOrders) (clampBatch (0 : UInt16).toNat) 500000000) twoSchedule
        (create onePacket HandlerProcess.one 0 b₀ twoOrders.length) 37
      decide (s.producer = .finished ∧ s.consumer = .broken ∧ s.consumerReady = true) &&
        (Engine.applyAll (buildStream twoOrders) b₀).any fun book => decide (book.bestBid = 18751 ∧ book.bestAsk = 18753)) =
        true := by decide +kernel
  obtain ⟨b₀,created,found⟩ := (Option.any_eq_true _ _).mp checked
  obtain ⟨here,rests⟩ := Bool.and_eq_true_iff.mp found
  obtain ⟨finished,broken,ready⟩ := of_decide_eq_true here
  have past {k : Nat} (later : 37 ≤ k) : twoSchedule k = .ready := by
    rw [twoSchedule,List.getD_eq_getElem?_getD,List.getElem?_eq_none later,Option.getD_none]
  have fair : Fair (move (buildStream twoOrders) (clampBatch (0 : UInt16).toNat) 500000000) thread Ended twoSchedule
      (create onePacket HandlerProcess.one 0 b₀ twoOrders.length) := by
    intro t n
    refine ⟨max n 37,Nat.le_max_left _ _,.inl ?_⟩
    rw [trace_settled (n := 37) ?_ (max n 37) (Nat.le_max_right _ _)]
    · cases t with
      | producer => exact finished
      | consumer => exact broken
    · intro k later
      rw [past later,move,if_pos ready]
  have timely : Timely (buildStream twoOrders) (clampBatch (0 : UInt16).toNat) 500000000 twoSchedule
      (create onePacket HandlerProcess.one 0 b₀ twoOrders.length) := by
    refine fun n => ⟨37,fun j clock later looks => ?_⟩
    simp [past later] at looks
  obtain ⟨n,returned⟩ := (end_to_end_returns onePacket HandlerProcess.one 0 twoOrders 0 500000000 b₀ created (by decide)
    (by decide)).2 _ fair timely
  rw [returned.book] at rests
  exact ⟨b₀,n,_,created,rfl,returned,of_decide_eq_true rests⟩

end Llte.EndToEnd
