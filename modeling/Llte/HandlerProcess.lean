import Llte.Foundation.Machine
import Llte.Handler
import Llte.SpscQueue

/-! The handler process around its drain loop, together with the consumer of the
ring and a stop signal that may arrive before any step. A push that fails is tried
again only while no stop was requested. -/
namespace Llte
open Foundation

structure PipelineEvent where
  msg : MarketMessage
  t0Recv : UInt64
  t1Parsed : UInt64
  t2Enqueue : UInt64
  recovered : UInt8
  deriving DecidableEq, Inhabited

namespace PipelineEvent

def of (out : FeedMessage) (clock : UInt64) : PipelineEvent where
  msg := out.message
  t0Recv := out.t0Recv
  t1Parsed := out.t1Parsed
  t2Enqueue := clock
  recovered := if out.recovered then 1 else 0

def source (event : PipelineEvent) : FeedMessage :=
  ⟨event.msg,event.t0Recv,event.t1Parsed,event.recovered = 1⟩

theorem source_of (out : FeedMessage) (clock : UInt64) : (of out clock).source = out := by
  obtain ⟨message,t0Recv,t1Parsed,recovered⟩ := out
  cases recovered <;> rfl

end PipelineEvent

inductive Control where
  | top
  | receive
  | drain
  | push (out : FeedMessage)
  | retry (out : FeedMessage)
  | store
  | finish
  | done
  deriving DecidableEq

def Control.inFlight : Control → List FeedMessage
  | .push out => [out]
  | .retry out => [out]
  | _ => []

/-- A push has failed, and the loop is about to look at the flag. -/
def Control.retries : Control → Bool
  | .retry _ => true
  | _ => false

/-- The handler with the ring it shares. `handed` are the messages that
`next_deliverable` returned. -/
structure HandlerProcess (cap : Capacity) (p : PowerOfTwo) (σ : Type) where
  ring : Spsc PipelineEvent p
  sequencer : SequenceManager cap
  client : σ
  stop : Bool := false
  control : Control := .top
  published : UInt64 := 0
  producedCount : UInt64 := 0
  handed : List FeedMessage := []

/-- What a call of `receive` brought; a packet passed the checks on its header, and
nothing is known of its messages. -/
inductive Reception where
  | error
  | nothing (idle : Bool)
  | malformed
  | packet (fuel : Nat) (t0Recv t1Parsed : UInt64) (messages : List MarketMessage)

/-- One step of the system. `run` is the handler's own; `clock` is read when an event
is stamped. -/
inductive Move where
  | signal
  | callPop
  | pop
  | receive (reception : Reception)
  | run (clock : UInt64)

namespace HandlerProcess
variable {cap : Capacity} {p : PowerOfTwo} {σ : Type}

def create (cap : Capacity) (p : PowerOfTwo) (origin : UInt64) (c₀ : σ) : HandlerProcess cap p σ where
  ring := Spsc.create PipelineEvent p origin
  sequencer := SequenceManager.create cap
  client := c₀

def offer (s : HandlerProcess cap p σ) (out : FeedMessage) (clock : UInt64) : HandlerProcess cap p σ :=
  {s with
    control := .push out
    ring := {s.ring with producer := some (.load (.of out clock))}}

/-- A datagram that passed the checks is accepted message by message. -/
def receive (client : Option (Client σ)) (s : HandlerProcess cap p σ) :
    Reception → Option (HandlerProcess cap p σ)
  | .error => some {s with control := .finish}
  | .nothing idle => some {s with control := if idle then .finish else .top}
  | .malformed => some {s with control := .top}
  | .packet fuel t0Recv t1Parsed messages =>
    match SequenceManager.acceptAll client fuel (messages.map (stamp t0Recv t1Parsed)) s.sequencer s.client with
    | none => none
    | some (_,sequencer,client) =>
      some {s with sequencer := sequencer, client := client, control := .drain}

/-- The handler's next step; `none` where it waits. -/
def run (expect : UInt64) (s : HandlerProcess cap p σ) (clock : UInt64) : Option (HandlerProcess cap p σ) :=
  match s.control with
  | .top => some {s with control := if s.stop then .finish else .receive}
  | .receive => none
  | .drain =>
    match s.sequencer.nextDeliverable with
    | (none,sequencer) => some {s with sequencer := sequencer, control := .store}
    | (some out,sequencer) =>
      some ({s with sequencer := sequencer, handed := s.handed ++ [out]}.offer out clock)
  | .push out =>
    match s.ring.producer with
    | none => none
    | some phase =>
      match (phase.step s.ring.queue).2 with
      | .inl _ => some {s with ring := s.ring.push phase}
      | .inr true =>
        some {s with ring := s.ring.push phase, control := .drain, published := s.published+1}
      | .inr false => some {s with ring := s.ring.push phase, control := .retry out}
  | .retry out =>
    -- the loop is left either way; only the count does not know why
    if s.stop then some {s with control := .drain, published := s.published+1}
    else some (s.offer out clock)
  | .store =>
    some {s with
      producedCount := s.published
      control := if 0 < expect ∧ expect ≤ s.published then .finish else .top}
  | .finish => some {s with producedCount := s.published, control := .done}
  | .done => none

def move (client : Option (Client σ)) (expect : UInt64) (s : HandlerProcess cap p σ) :
    Move → Option (HandlerProcess cap p σ)
  | .signal => some {s with stop := true}
  | .callPop =>
    match s.ring.consumer with
    | none => some {s with ring := {s.ring with consumer := some .load}}
    | some _ => none
  | .pop =>
    match s.ring.consumer with
    | none => none
    | some phase => some {s with ring := s.ring.pop phase}
  | .receive reception =>
    match s.control with
    | .receive => s.receive client reception
    | _ => none
  | .run clock => s.run expect clock

/-- The test of the push loop is made after a failed push and with the flag set, so that
the loop is left without the event in the ring. -/
def GivesUp (s : HandlerProcess cap p σ) : Move → Prop
  | .run _ => s.stop = true ∧ s.control.retries = true
  | _ => False

variable {s s' : HandlerProcess cap p σ} {client : Option (Client σ)} {expect clock : UInt64}

/-- The steps of the handler's own, by where it stands. -/
inductive Ran (expect clock : UInt64) (s : HandlerProcess cap p σ) : HandlerProcess cap p σ → Prop where
  | top (here : s.control = .top) : Ran expect clock s {s with control := if s.stop then .finish else .receive}
  | drained (sequencer : SequenceManager cap) (here : s.control = .drain)
      (nothing : s.sequencer.nextDeliverable = (none,sequencer)) :
      Ran expect clock s {s with sequencer := sequencer, control := .store}
  | hands (out : FeedMessage) (sequencer : SequenceManager cap) (here : s.control = .drain)
      (delivered : s.sequencer.nextDeliverable = (some out,sequencer)) :
      Ran expect clock s ({s with sequencer := sequencer, handed := s.handed ++ [out]}.offer out clock)
  | pushing (out : FeedMessage) (phase next : Push PipelineEvent) (here : s.control = .push out)
      (running : s.ring.producer = some phase) (stays : (phase.step s.ring.queue).2 = .inl next) :
      Ran expect clock s {s with ring := s.ring.push phase}
  | pushed (out : FeedMessage) (phase : Push PipelineEvent) (here : s.control = .push out)
      (running : s.ring.producer = some phase) (accepted : (phase.step s.ring.queue).2 = .inr true) :
      Ran expect clock s {s with ring := s.ring.push phase, control := .drain, published := s.published+1}
  | refused (out : FeedMessage) (phase : Push PipelineEvent) (here : s.control = .push out)
      (running : s.ring.producer = some phase) (full : (phase.step s.ring.queue).2 = .inr false) :
      Ran expect clock s {s with ring := s.ring.push phase, control := .retry out}
  | givenUp (out : FeedMessage) (here : s.control = .retry out) (stopped : s.stop = true) :
      Ran expect clock s {s with control := .drain, published := s.published+1}
  | again (out : FeedMessage) (here : s.control = .retry out) (goes : s.stop = false) :
      Ran expect clock s (s.offer out clock)
  | stored (here : s.control = .store) :
      Ran expect clock s {s with
        producedCount := s.published
        control := if 0 < expect ∧ expect ≤ s.published then .finish else .top}
  | finished (here : s.control = .finish) :
      Ran expect clock s {s with producedCount := s.published, control := .done}

theorem run_ran (taken : s.run expect clock = some s') : Ran expect clock s s' := by
  unfold run at taken
  split at taken
  next here =>
    cases taken
    exact .top here
  next => simp at taken
  next here =>
    split at taken
    next sequencer nothing =>
      cases taken
      exact .drained sequencer here nothing
    next out sequencer delivered =>
      cases taken
      exact .hands out sequencer here delivered
  next out here =>
    split at taken
    next => simp at taken
    next phase running =>
      split at taken
      next later stays =>
        cases taken
        exact .pushing out phase later here running stays
      next accepted =>
        cases taken
        exact .pushed out phase here running accepted
      next full =>
        cases taken
        exact .refused out phase here running full
  next out here =>
    split at taken
    next stopped =>
      cases taken
      exact .givenUp out here stopped
    next goes =>
      cases taken
      exact .again out here (Bool.not_eq_true _ ▸ goes)
  next here =>
    cases taken
    exact .stored here
  next here =>
    cases taken
    exact .finished here
  next => simp at taken

/-- The books of the drain loop, after `lost` events were given up. Only the messages that
the sequencer held when the signal came can be among them. -/
structure Tidy (lost : Nat) (s : HandlerProcess cap p σ) : Prop where
  count : s.published = UInt64.ofNat (s.ring.published.length+lost)
  stream : lost = 0 → s.handed = s.ring.published.map PipelineEvent.source ++ s.control.inFlight
  flight : ∀ phase, s.ring.producer = some phase → s.control = .push phase.value.source
  stored : s.control = .done → s.producedCount = s.published
  room : lost+s.control.inFlight.length+s.sequencer.holds ≤ cap.size
  late : 0 < lost → s.stop = true ∧ s.control ≠ .receive

namespace Tidy
variable {lost : Nat}

theorem create (cap : Capacity) (p : PowerOfTwo) (origin : UInt64) (c₀ : σ) : Tidy 0 (create cap p origin c₀) where
  count := rfl
  stream := fun _ => rfl
  flight := by simp [HandlerProcess.create,Spsc.create]
  stored := by simp [HandlerProcess.create]
  room := by
    have most := (SequenceManager.create cap).holds_le
    simpa [HandlerProcess.create,Control.inFlight] using most
  late := fun some_ => absurd some_ (Nat.lt_irrefl 0)

/-- A step from one point outside of the push loop to another. -/
theorem goto (tidy : Tidy lost s) (here : s.control.inFlight = []) (ring : s'.ring = s.ring)
    (handed : s'.handed = s.handed) (published : s'.published = s.published) (there : s'.control.inFlight = [])
    (stored : s'.control = .done → s'.producedCount = s'.published) (room : lost+s'.sequencer.holds ≤ cap.size)
    (late : 0 < lost → s'.stop = true ∧ s'.control ≠ .receive) : Tidy lost s' := by
  refine ⟨?_,?_,?_,stored,?_,late⟩
  · rw [published,ring]
    exact tidy.count
  · intro none
    rw [handed,ring,there,← here]
    exact tidy.stream none
  · intro phase running
    rw [ring] at running
    rw [tidy.flight phase running] at here
    simp [Control.inFlight] at here
  · rw [there]
    exact room

theorem offer (out : FeedMessage) (clock : UInt64) (count : s.published = UInt64.ofNat (s.ring.published.length+lost))
    (stream : lost = 0 → s.handed = s.ring.published.map PipelineEvent.source ++ [out])
    (room : lost+1+s.sequencer.holds ≤ cap.size) (late : 0 < lost → s.stop = true) : Tidy lost (s.offer out clock) := by
  refine ⟨count,stream,?_,by simp [HandlerProcess.offer],room,fun some_ => ⟨late some_,by simp [HandlerProcess.offer]⟩⟩
  intro phase running
  simp only [HandlerProcess.offer,Option.some.injEq] at running ⊢
  rw [← running]
  simp [Push.value,PipelineEvent.source_of]

/-- After an event was given up there is no further packet. -/
theorem receiving (tidy : Tidy lost s) (here : s.control = .receive) : lost = 0 := by
  by_contra some_
  exact (tidy.late (Nat.pos_of_ne_zero some_)).2 here

theorem receive {reception : Reception} (tidy : Tidy lost s) (here : s.control = .receive)
    (taken : s.receive client reception = some s') : Tidy lost s' := by
  have nothing : s.control.inFlight = [] := by rw [here]; rfl
  have none := tidy.receiving here
  subst none
  have still : 0 < 0 → s'.stop = true ∧ s'.control ≠ .receive := fun some_ => absurd some_ (Nat.lt_irrefl 0)
  have most : 0+s'.sequencer.holds ≤ cap.size := by
    rw [Nat.zero_add]
    exact s'.sequencer.holds_le
  cases reception with
  | error =>
    cases taken
    exact tidy.goto nothing rfl rfl rfl rfl (by simp) most still
  | nothing idle =>
    cases taken
    cases idle <;> exact tidy.goto nothing rfl rfl rfl rfl (by simp) most still
  | malformed =>
    cases taken
    exact tidy.goto nothing rfl rfl rfl rfl (by simp) most still
  | packet fuel t0Recv t1Parsed messages =>
    simp only [HandlerProcess.receive] at taken
    split at taken
    next => simp at taken
    next calls sequencer client' done =>
      cases taken
      exact tidy.goto nothing rfl rfl rfl rfl (by simp) most still

section Draining
variable {sequencer : SequenceManager cap} (tidy : Tidy lost s) (here : s.control = .drain)
include tidy here

theorem drained (nothing : s.sequencer.nextDeliverable = (none,sequencer)) :
    Tidy lost {s with sequencer := sequencer, control := .store} := by
  have same := SequenceManager.nextDeliverable_holds nothing
  have room := tidy.room
  rw [here] at room
  refine tidy.goto (by rw [here]; rfl) rfl rfl rfl rfl (by simp) ?_ (fun some_ => ⟨(tidy.late some_).1,by simp⟩)
  simp only [Control.inFlight,List.length_nil,Option.toList_none] at room same ⊢
  omega

theorem hands {out : FeedMessage} (delivered : s.sequencer.nextDeliverable = (some out,sequencer)) (clock : UInt64) :
    Tidy lost ({s with sequencer := sequencer, handed := s.handed ++ [out]}.offer out clock) := by
  have fewer := SequenceManager.nextDeliverable_holds delivered
  have room := tidy.room
  rw [here] at room
  refine .offer out clock tidy.count ?_ ?_ (fun some_ => (tidy.late some_).1)
  · intro none
    have before := tidy.stream none
    rw [here] at before
    change s.handed ++ [out] = _
    rw [before]
    exact congrArg (· ++ [out]) (List.append_nil _)
  · simp only [Control.inFlight,List.length_nil,Option.toList_some,List.length_singleton] at room fewer ⊢
    omega

end Draining

section Pushing
variable {out : FeedMessage} {phase : Push PipelineEvent} (tidy : Tidy lost s) (running : s.ring.producer = some phase)
  (here : s.control = .push out)
include tidy running

theorem pushing {next : Push PipelineEvent} (stays : (phase.step s.ring.queue).2 = .inl next) :
    Tidy lost {s with ring := s.ring.push phase} := by
  obtain ⟨producer,same⟩ := s.ring.push_stays phase next stays
  refine ⟨by rw [same]; exact tidy.count,by rw [same]; exact tidy.stream,?_,tidy.stored,tidy.room,tidy.late⟩
  intro later running'
  simp only [producer,Option.some.injEq] at running'
  rw [← running',Push.step_value _ _ _ stays]
  exact tidy.flight phase running

include here

theorem pushed (accepted : (phase.step s.ring.queue).2 = .inr true) :
    Tidy lost {s with ring := s.ring.push phase, control := .drain, published := s.published+1} := by
  have value := tidy.flight phase running
  have room := tidy.room
  rw [here,Control.push.injEq] at value
  rw [here] at room
  obtain ⟨producer,more⟩ := s.ring.push_returns phase true accepted
  rw [if_pos rfl] at more
  refine ⟨?_,?_,?_,by simp,?_,fun some_ => ⟨(tidy.late some_).1,by simp⟩⟩
  · rw [more,List.length_append,List.length_singleton,Nat.add_right_comm,UInt64.ofNat_add,← tidy.count]
    rfl
  · intro none
    have before := tidy.stream none
    rw [here] at before
    rw [more,List.map_append,List.map_singleton,← value]
    simpa [Control.inFlight] using before
  · intro later running'
    simp [producer] at running'
  · simp only [Control.inFlight,List.length_singleton,List.length_nil] at room ⊢
    omega

end Pushing

theorem refused {out : FeedMessage} {phase : Push PipelineEvent} (tidy : Tidy lost s) (here : s.control = .push out)
    (full : (phase.step s.ring.queue).2 = .inr false) :
    Tidy lost {s with ring := s.ring.push phase, control := .retry out} := by
  obtain ⟨producer,same⟩ := s.ring.push_returns phase false full
  rw [if_neg Bool.false_ne_true] at same
  have stream := tidy.stream
  have room := tidy.room
  rw [here] at stream room
  refine ⟨by rw [same]; exact tidy.count,by rw [same]; exact stream,?_,by simp,room,
    fun some_ => ⟨(tidy.late some_).1,by simp⟩⟩
  intro later running'
  simp [producer] at running'

section Retrying
variable {out : FeedMessage} (tidy : Tidy lost s) (here : s.control = .retry out)
include tidy here

theorem givenUp (stopped : s.stop = true) : Tidy (lost+1) {s with control := .drain, published := s.published+1} := by
  have room := tidy.room
  rw [here] at room
  refine ⟨?_,by simp,?_,by simp,?_,fun _ => ⟨stopped,by simp⟩⟩
  · dsimp only
    rw [tidy.count,← Nat.add_assoc,UInt64.ofNat_add _ 1]
    rfl
  · intro phase running
    have pushing := tidy.flight phase running
    simp [here] at pushing
  · simp only [Control.inFlight,List.length_singleton,List.length_nil] at room ⊢
    omega

theorem again (clock : UInt64) : Tidy lost (s.offer out clock) := by
  have stream := tidy.stream
  have room := tidy.room
  rw [here] at stream room
  exact .offer out clock tidy.count stream room (fun some_ => (tidy.late some_).1)

end Retrying

theorem ran (tidy : Tidy lost s) (taken : Ran expect clock s s') :
    s.GivesUp (.run clock) ∧ Tidy (lost+1) s' ∨ ¬s.GivesUp (.run clock) ∧ Tidy lost s' := by
  have free (other : s.control.retries = false) (kept : Tidy lost s') :
      s.GivesUp (.run clock) ∧ Tidy (lost+1) s' ∨ ¬s.GivesUp (.run clock) ∧ Tidy lost s' :=
    .inr ⟨fun gives => Bool.false_ne_true (other.symm.trans gives.2),kept⟩
  have room := tidy.room
  cases taken with
  | top here =>
    rw [here] at room
    refine free (by rw [here]; rfl) (tidy.goto (by rw [here]; rfl) rfl rfl rfl ?_ ?_ room ?_)
    · dsimp only
      split <;> rfl
    · dsimp only
      split <;> simp
    · intro some_
      have stopped := (tidy.late some_).1
      simp [stopped]
  | drained sequencer here nothing => exact free (by rw [here]; rfl) (tidy.drained here nothing)
  | hands out sequencer here delivered => exact free (by rw [here]; rfl) (tidy.hands here delivered clock)
  | pushing out phase next here running stays =>
    exact free (by rw [here]; rfl) (tidy.pushing running stays)
  | pushed out phase here running accepted => exact free (by rw [here]; rfl) (tidy.pushed running here accepted)
  | refused out phase here running full => exact free (by rw [here]; rfl) (tidy.refused here full)
  | givenUp out here stopped => exact .inl ⟨⟨stopped,by rw [here]; rfl⟩,tidy.givenUp here stopped⟩
  | again out here goes => exact .inr ⟨fun gives => Bool.false_ne_true (goes.symm.trans gives.1),tidy.again here clock⟩
  | stored here =>
    rw [here] at room
    refine free (by rw [here]; rfl) (tidy.goto (by rw [here]; rfl) rfl rfl rfl ?_ (fun _ => rfl) room ?_)
    · dsimp only
      split <;> rfl
    · refine fun some_ => ⟨(tidy.late some_).1,?_⟩
      dsimp only
      split <;> simp
  | finished here =>
    rw [here] at room
    exact free (by rw [here]; rfl) (tidy.goto (by rw [here]; rfl) rfl rfl rfl rfl (fun _ => rfl) room
      (fun some_ => ⟨(tidy.late some_).1,by simp⟩))

theorem move {m : Move} (tidy : Tidy lost s) (taken : s.move client expect m = some s') :
    s.GivesUp m ∧ Tidy (lost+1) s' ∨ ¬s.GivesUp m ∧ Tidy lost s' := by
  cases m with
  | signal =>
    cases taken
    exact .inr ⟨id,tidy.count,tidy.stream,tidy.flight,tidy.stored,tidy.room,fun some_ => ⟨rfl,(tidy.late some_).2⟩⟩
  | callPop =>
    simp only [HandlerProcess.move] at taken
    split at taken
    next =>
      cases taken
      exact .inr ⟨id,tidy.count,tidy.stream,tidy.flight,tidy.stored,tidy.room,tidy.late⟩
    next => simp at taken
  | pop =>
    simp only [HandlerProcess.move] at taken
    split at taken
    next => simp at taken
    next phase _ =>
      cases taken
      obtain ⟨producer,published⟩ := s.ring.pop_producer phase
      refine .inr ⟨id,by rw [published]; exact tidy.count,?_,?_,tidy.stored,tidy.room,tidy.late⟩
      · rw [published]
        exact tidy.stream
      · rw [producer]
        exact tidy.flight
  | receive reception =>
    simp only [HandlerProcess.move] at taken
    split at taken
    next here => exact .inr ⟨id,tidy.receive here taken⟩
    next => simp at taken
  | run clock => exact tidy.ran (run_ran taken)

theorem few (tidy : Tidy lost s) : lost < 2^63 := by
  have bound := cap.bound
  have room := tidy.room
  omega

/-- At the end, the stream and its count are right exactly if nothing was given up. -/
theorem whole_iff (tidy : Tidy lost s) (finished : s.control = .done) :
    (s.ring.published.map PipelineEvent.source <+: s.handed ∧ s.producedCount.toNat = s.ring.published.length) ↔
      lost = 0 ∧ s.ring.published.length < 2^64 := by
  have few := tidy.few
  have stored : s.producedCount.toNat = (s.ring.published.length+lost) % 2^64 := by
    rw [tidy.stored finished,tidy.count]
    exact UInt64.toNat_ofNat'
  rw [stored]
  constructor
  · rintro ⟨_,exact_⟩
    omega
  · rintro ⟨none,small⟩
    refine ⟨?_,by omega⟩
    rw [tidy.stream none]
    exact List.prefix_append _ _

end Tidy

def one : PowerOfTwo := ⟨0,by decide⟩

end HandlerProcess
end Llte
