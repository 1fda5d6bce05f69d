import Llte.HandlerProcess

/-! The end of the pipeline: the handler pushes its last events and then sets
`producer_done`; the engine leaves its loop when a pop fails, the flag is set and the
ring is empty, three looks at the shared memory that are separate steps. No stop signal
arrives here. -/
namespace Llte
open Foundation

/-- Where the engine is in its loop. The two loads of `empty()` come in either order. -/
inductive Consume where
  | pop
  | flag
  | empty
  | emptyWrite (read : UInt64)
  | emptyRead (write : UInt64)
  | broken
  deriving DecidableEq

/-- The break, or the next round. -/
def Shutdown.decideBreak (read write : UInt64) : Consume := if read = write then .broken else .pop

namespace Spsc
variable {α : Type} {p : PowerOfTwo} {ring ring' : Spsc α p} {ended ended' : Prop} {phase : Consume}

/-- What the engine, or any consumer with such a loop, knows at each point of it. Nothing more
is pushed once `ended` holds. -/
def Knows (ring : Spsc α p) (ended : Prop) : Consume → Prop
  | .pop => True
  | .flag => ring.consumer = none
  | .empty => ring.consumer = none ∧ ended
  | .emptyWrite read => ring.consumer = none ∧ ended ∧ read = ring.queue.readIdx
  | .emptyRead write => ring.consumer = none ∧ ended ∧ write = ring.queue.writeIdx
  | .broken => ring.consumer = none ∧ ended ∧ ring.popped = ring.published

theorem Knows.waiting (knows : ring.Knows ended phase) : phase = .pop ∨ ring.consumer = none := by
  cases phase with
  | pop => exact .inl rfl
  | flag => exact .inr knows
  | empty => exact .inr knows.1
  | emptyWrite read => exact .inr knows.1
  | emptyRead write => exact .inr knows.1
  | broken => exact .inr knows.1

/-- The consumer stays where it is, and after the end the ring does too. -/
theorem Knows.keep (knows : ring.Knows ended phase) (consumer : ring'.consumer = ring.consumer)
    (kept : ended → ended' ∧ ring'.queue.readIdx = ring.queue.readIdx ∧ ring'.queue.writeIdx = ring.queue.writeIdx ∧
      ring'.popped = ring.popped ∧ ring'.published = ring.published) : ring'.Knows ended' phase := by
  cases phase with
  | pop => trivial
  | flag => exact consumer.trans knows
  | empty => exact ⟨consumer.trans knows.1,(kept knows.2).1⟩
  | emptyWrite read =>
    obtain ⟨idle,holds,own⟩ := knows
    obtain ⟨holds',same,_⟩ := kept holds
    exact ⟨consumer.trans idle,holds',own.trans same.symm⟩
  | emptyRead write =>
    obtain ⟨idle,holds,other⟩ := knows
    obtain ⟨holds',_,same,_⟩ := kept holds
    exact ⟨consumer.trans idle,holds',other.trans same.symm⟩
  | broken =>
    obtain ⟨idle,holds,drained⟩ := knows
    obtain ⟨holds',_,_,popped,published⟩ := kept holds
    exact ⟨consumer.trans idle,holds',by rw [popped,published,drained]⟩

/-- Before the end the consumer knows nothing but where it is itself. -/
theorem Knows.early (knows : ring.Knows ended phase) (busy : ¬ended) (same : ring'.consumer = ring.consumer) :
    ring'.Knows ended' phase :=
  knows.keep same fun holds => absurd holds busy

/-- Once nothing more is pushed, two equal indexes mean that all of it was popped. -/
theorem Linked.decides {origin : UInt64} {seenRead seenWrite : Nat} (linked : Linked origin seenRead seenWrite ring)
    (idle : ring.consumer = none) (holds : ended) {read write : UInt64} (own : read = ring.queue.readIdx)
    (other : write = ring.queue.writeIdx) : ring.Knows ended (Shutdown.decideBreak read write) := by
  unfold Shutdown.decideBreak
  split
  next same => exact ⟨idle,holds,linked.drained (by rw [← own,← other,same])⟩
  next => trivial

end Spsc

structure Shutdown (p : PowerOfTwo) where
  ring : Spsc PipelineEvent p
  pending : List FeedMessage
  producerDone : UInt32 := 0
  engine : Consume := .pop

inductive ShutdownMove where
  | offer (clock : UInt64)
  | push
  | storeDone
  | callPop
  | pop
  | loadDone
  | loadRead
  | loadWrite

namespace Shutdown
variable {p : PowerOfTwo}

def create (p : PowerOfTwo) (origin : UInt64) (events : List FeedMessage) : Shutdown p where
  ring := Spsc.create PipelineEvent p origin
  pending := events

def move (s : Shutdown p) : ShutdownMove → Option (Shutdown p)
  | .offer clock =>
    -- the first attempt and every further one, each with a new stamp
    match s.ring.producer,s.pending with
    | none,out::_ => some {s with ring := {s.ring with producer := some (.load (.of out clock))}}
    | _,_ => none
  | .push =>
    match s.ring.producer with
    | none => none
    | some phase =>
      match (phase.step s.ring.queue).2 with
      | .inr true => some {s with ring := s.ring.push phase, pending := s.pending.tail}
      | _ => some {s with ring := s.ring.push phase}
  | .storeDone =>
    if s.ring.producer = none ∧ s.pending = [] then some {s with producerDone := 1} else none
  | .callPop =>
    if s.engine = .pop ∧ s.ring.consumer = none then
      some {s with ring := {s.ring with consumer := some .load}}
    else none
  | .pop =>
    match s.ring.consumer with
    | none => none
    | some phase =>
      match (phase.step s.ring.queue).2 with
      | .inr none => some {s with ring := s.ring.pop phase, engine := .flag}
      | _ => some {s with ring := s.ring.pop phase}
  | .loadDone =>
    if s.engine = .flag then some {s with engine := if s.producerDone = 1 then .empty else .pop} else none
  | .loadRead =>
    match s.engine with
    | .empty => some {s with engine := .emptyWrite s.ring.queue.readIdx}
    | .emptyRead write => some {s with engine := decideBreak s.ring.queue.readIdx write}
    | _ => none
  | .loadWrite =>
    match s.engine with
    | .empty => some {s with engine := .emptyRead s.ring.queue.writeIdx}
    | .emptyWrite read => some {s with engine := decideBreak read s.ring.queue.writeIdx}
    | _ => none

structure Orderly (origin : UInt64) (events : List FeedMessage) (s : Shutdown p) : Prop where
  linked : ∃ seenRead seenWrite, s.ring.Linked origin seenRead seenWrite
  work : s.ring.published.map PipelineEvent.source ++ s.pending = events
  flight : ∀ phase, s.ring.producer = some phase → s.pending.head? = some phase.value.source
  done : s.producerDone = 1 → s.pending = []
  knows : s.ring.Knows (s.pending = []) s.engine

end Shutdown

namespace Shutdown
variable {p : PowerOfTwo} {origin : UInt64} {events : List FeedMessage} {s s' : Shutdown p}

namespace Orderly

theorem create (p : PowerOfTwo) (origin : UInt64) (events : List FeedMessage) :
    Orderly origin events (create p origin events) :=
  ⟨⟨0,0,.create p origin⟩,rfl,by simp [Shutdown.create,Spsc.create],by simp [Shutdown.create],trivial⟩

theorem offer (orderly : Orderly origin events s) {out : FeedMessage} {rest : List FeedMessage}
    (next : s.pending = out::rest) (clock : UInt64) :
    Orderly origin events {s with ring := {s.ring with producer := some (.load (.of out clock))}} := by
  obtain ⟨seenRead,seenWrite,linked⟩ := orderly.linked
  refine ⟨⟨seenRead,seenWrite,{linked with producing := trivial}⟩,orderly.work,?_,orderly.done,?_⟩
  · intro phase running
    rw [← Option.some.inj running,next]
    exact congrArg some (PipelineEvent.source_of out clock).symm
  · exact orderly.knows.early (by simp [next]) rfl

theorem push (orderly : Orderly origin events s) {phase : Push PipelineEvent}
    (running : s.ring.producer = some phase) (taken : s.move .push = some s') : Orderly origin events s' := by
  obtain ⟨seenRead,seenWrite,linked⟩ := orderly.linked
  obtain ⟨seenRead',after⟩ := linked.push phase running
  have next := orderly.flight phase running
  have some_ : s.pending ≠ [] := by
    intro none
    rw [none] at next
    simp at next
  have quiet (ended : Prop) : (s.ring.push phase).Knows ended s.engine :=
    orderly.knows.early some_ (s.ring.push_consumer phase).1
  simp only [Shutdown.move,running] at taken
  split at taken
  next returned =>
    -- accepted: the event is published
    obtain ⟨idle,published⟩ := s.ring.push_returns phase true returned
    rw [if_pos rfl] at published
    obtain ⟨out,rest,list⟩ : ∃ out rest, s.pending = out::rest := List.exists_cons_of_ne_nil some_
    rw [list,List.head?_cons,Option.some.injEq] at next
    rw [Option.some.injEq] at taken
    subst taken
    refine ⟨⟨seenRead',seenWrite,after⟩,?_,?_,?_,quiet _⟩
    · rw [← orderly.work,published,list,next]
      simp
    · simp [idle]
    · exact fun done => absurd (orderly.done done) some_
  next other =>
    rw [Option.some.injEq] at taken
    subst taken
    rcases stays : (phase.step s.ring.queue).2 with later | ok
    · obtain ⟨goes,published⟩ := s.ring.push_stays phase later stays
      refine ⟨⟨seenRead',seenWrite,after⟩,?_,?_,orderly.done,quiet _⟩
      · rw [published]
        exact orderly.work
      · intro phase' here
        rw [goes,Option.some.injEq] at here
        rw [← here,Push.step_value _ _ _ stays]
        exact next
    · have refused : ok = false := by
        cases ok with
        | false => rfl
        | true => exact absurd stays other
      obtain ⟨idle,published⟩ := s.ring.push_returns phase ok stays
      rw [refused] at published
      refine ⟨⟨seenRead',seenWrite,after⟩,?_,by simp [idle],orderly.done,quiet _⟩
      rw [published]
      exact orderly.work

theorem pop (orderly : Orderly origin events s) {phase : Pop PipelineEvent}
    (running : s.ring.consumer = some phase) (taken : s.move .pop = some s') : Orderly origin events s' := by
  obtain ⟨seenRead,seenWrite,linked⟩ := orderly.linked
  obtain ⟨seenWrite',after⟩ := linked.pop phase running
  obtain ⟨producer,published⟩ := s.ring.pop_producer phase
  have here : s.engine = .pop := orderly.knows.waiting.resolve_right (by simp [running])
  have frame (s' : Shutdown p) (ring : s'.ring = s.ring.pop phase) (pending : s'.pending = s.pending)
      (done : s'.producerDone = s.producerDone) (knows : s'.ring.Knows (s'.pending = []) s'.engine) : Orderly origin events s' := by
    refine ⟨⟨seenRead,seenWrite',ring ▸ after⟩,?_,?_,?_,knows⟩
    · rw [ring,pending,published]
      exact orderly.work
    · rw [ring,pending,producer]
      exact orderly.flight
    · rw [done,pending]
      exact orderly.done
  simp only [Shutdown.move,running] at taken
  split at taken
  next failed =>
    rw [Option.some.injEq] at taken
    subst taken
    exact frame _ rfl rfl rfl ((s.ring.pop_returns phase none failed).1)
  next =>
    rw [Option.some.injEq] at taken
    subst taken
    refine frame _ rfl rfl rfl ?_
    dsimp only
    rw [here]
    trivial

/-- A move that only changes where the engine is. -/
theorem look (orderly : Orderly origin events s) {phase : Consume} (knows : s.ring.Knows (s.pending = []) phase) :
    Orderly origin events {s with engine := phase} :=
  ⟨orderly.linked,orderly.work,orderly.flight,orderly.done,knows⟩

theorem storeDone (orderly : Orderly origin events s) (none : s.pending = []) :
    Orderly origin events {s with producerDone := 1} :=
  ⟨orderly.linked,orderly.work,orderly.flight,fun _ => none,orderly.knows⟩

theorem callPop (orderly : Orderly origin events s) (here : s.engine = .pop) :
    Orderly origin events {s with ring := {s.ring with consumer := some .load}} := by
  obtain ⟨seenRead,seenWrite,linked⟩ := orderly.linked
  refine ⟨⟨seenRead,seenWrite,{linked with consuming := trivial}⟩,orderly.work,orderly.flight,orderly.done,?_⟩
  rw [here]
  trivial

theorem loadDone (orderly : Orderly origin events s) (here : s.engine = .flag) :
    Orderly origin events {s with engine := if s.producerDone = 1 then .empty else .pop} := by
  have knows := orderly.knows
  rw [here] at knows
  refine orderly.look ?_
  split
  next done => exact ⟨knows,orderly.done done⟩
  next => trivial

theorem move (orderly : Orderly origin events s) {m : ShutdownMove} (taken : s.move m = some s') :
    Orderly origin events s' := by
  have knows := orderly.knows
  obtain ⟨_,_,linked⟩ := orderly.linked
  cases m with
  | offer clock =>
    simp only [Shutdown.move] at taken
    split at taken
    next out rest _ next =>
      rw [← Option.some.inj taken]
      exact orderly.offer next clock
    next => simp at taken
  | push =>
    cases running : s.ring.producer with
    | none => simp [Shutdown.move,running] at taken
    | some phase => exact orderly.push running taken
  | storeDone =>
    rw [Shutdown.move,Option.ite_none_right_eq_some] at taken
    rw [← Option.some.inj taken.2]
    exact orderly.storeDone taken.1.2
  | callPop =>
    rw [Shutdown.move,Option.ite_none_right_eq_some] at taken
    rw [← Option.some.inj taken.2]
    exact orderly.callPop taken.1.1
  | pop =>
    cases running : s.ring.consumer with
    | none => simp [Shutdown.move,running] at taken
    | some phase => exact orderly.pop running taken
  | loadDone =>
    rw [Shutdown.move,Option.ite_none_right_eq_some] at taken
    rw [← Option.some.inj taken.2]
    exact orderly.loadDone taken.1
  | loadRead =>
    simp only [Shutdown.move] at taken
    split at taken
    next here =>
      rw [here] at knows
      rw [← Option.some.inj taken]
      exact orderly.look ⟨knows.1,knows.2,rfl⟩
    next write here =>
      rw [here] at knows
      rw [← Option.some.inj taken]
      exact orderly.look (linked.decides knows.1 knows.2.1 rfl knows.2.2)
    next => simp at taken
  | loadWrite =>
    simp only [Shutdown.move] at taken
    split at taken
    next here =>
      rw [here] at knows
      rw [← Option.some.inj taken]
      exact orderly.look ⟨knows.1,knows.2,rfl⟩
    next read here =>
      rw [here] at knows
      rw [← Option.some.inj taken]
      exact orderly.look (linked.decides knows.1 knows.2.1 knows.2.2 rfl)
    next => simp at taken

end Orderly

/-- In every interleaving, when the engine leaves its loop it has consumed all events
that were pushed, in order, and they are all events there were to push. -/
theorem shutdown_loses_nothing (p : PowerOfTwo) (origin : UInt64) (events : List FeedMessage) (s : Shutdown p)
    (reached : Reached move (create p origin events) s) (left : s.engine = .broken) :
    s.ring.popped = s.ring.published ∧ s.ring.popped.map PipelineEvent.source = events := by
  have orderly : Orderly origin events s :=
    reached.invariant (Orderly.create p origin events) (fun _ _ _ orderly taken => orderly.move taken)
  have knows := orderly.knows
  have work := orderly.work
  rw [left] at knows
  obtain ⟨_,none,drained⟩ := knows
  rw [none,List.append_nil] at work
  exact ⟨drained,by rw [drained,work]⟩

/-- The last event and the flag are stored between a failed pop and the look at the
flag; the engine then finds the ring not empty and goes round once more. -/
theorem shutdown_loses_nothing_late : ∃ s : Shutdown HandlerProcess.one,
    Reached move (create HandlerProcess.one 0 [{message := {sequenceNumber := 1}}]) s ∧ s.engine = .broken ∧
      s.ring.popped.map PipelineEvent.source = [{message := {sequenceNumber := 1}}] := by
  obtain ⟨s,reached,left⟩ := play_finds move (create HandlerProcess.one 0 [{message := {sequenceNumber := 1}}])
    [.callPop,.pop,.pop,.offer 5,.push,.push,.push,.storeDone,.loadDone,.loadRead,.loadWrite,
      .callPop,.pop,.pop,.pop,.pop,.callPop,.pop,.pop,.loadDone,.loadWrite,.loadRead]
    (fun s => s.engine = .broken) (by decide +kernel)
  exact ⟨s,reached,left,(shutdown_loses_nothing _ _ _ s reached left).2⟩

end Shutdown
end Llte
