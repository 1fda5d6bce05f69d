import Llte.Foundation.Machine
import Llte.Shutdown
import Mathlib.Logic.Function.Basic

/-! The race demonstration in its sound form: every producer owns a ring, one sequencer
moves what it finds there into the ring downstream, and the consumer checks what arrives.
A push that finds its ring full is given up once the deadline has passed. -/
namespace Llte
open Foundation

structure Item where
  producer : UInt64
  sequence : UInt64
  checksum : UInt64
  deriving DecidableEq, Inhabited

def checksumFor (producer sequence : UInt64) : UInt64 :=
  (producer * 0x9e3779b97f4a7c15) ^^^ (sequence * 0xbf58476d1ce4e5b9)

def Item.of (producer sequence : UInt64) : Item := ⟨producer,sequence,checksumFor producer sequence⟩

structure Verifier (n : Nat) where
  nextExpected : Vector UInt64 n
  received : UInt64 := 0
  corrupted : UInt64 := 0
  outOfOrder : UInt64 := 0

namespace Verifier

def create (n : Nat) : Verifier n where
  nextExpected := Vector.replicate n 0

def check {n : Nat} (v : Verifier n) (item : Item) : Verifier n :=
  let v := {v with received := v.received+1}
  if inside : item.producer.toNat < n then
    if item.checksum = checksumFor item.producer item.sequence then
      {v with
        outOfOrder := if item.sequence = v.nextExpected[item.producer.toNat] then v.outOfOrder else v.outOfOrder+1
        nextExpected := v.nextExpected.set item.producer.toNat (item.sequence+1) inside}
    else {v with corrupted := v.corrupted+1}
  else {v with corrupted := v.corrupted+1}

end Verifier

def deadlineCheckInterval : UInt64 := 4096

inductive Attempt where
  | again (spins : UInt64)
  | accepted
  | stalled

/-- The next step of `push_bounded`. The clock is read where a try has failed. -/
def Spsc.pushBounded {p : PowerOfTwo} (deadline clock : UInt64) (ring : Spsc Item p) (spins : UInt64) :
    Option (Spsc Item p × Attempt) :=
  match ring.producer with
  | none => none
  | some phase =>
    match (phase.step ring.queue).2 with
    | .inl _ => some (ring.push phase,.again spins)
    | .inr true => some (ring.push phase,.accepted)
    | .inr false =>
      if spins % deadlineCheckInterval = 0 ∧ deadline < clock then some (ring.push phase,.stalled)
      else some ({ring.push phase with producer := some (.load phase.value)},.again (spins+1))

inductive SourceControl where
  | loop
  | push (spins : UInt64)
  | stall
  | returned
  deriving DecidableEq

structure Source where
  i : UInt64 := 0
  control : SourceControl := .loop

/-- Where the sequencer is. `empty()` of an inbound ring looks at its two indexes in
either order. -/
inductive Sequencing where
  | scan (k : Nat) (moved : Bool)
  | forward (k : Nat) (item : Item) (spins : UInt64)
  | stall (k : Nat) (item : Item)
  | drain (k : Nat) (drained : Bool)
  | drainWrite (k : Nat) (read : UInt64)
  | drainRead (k : Nat) (write : UInt64)
  | store
  | returned
  deriving DecidableEq

structure FanIn (n : Nat) (p : PowerOfTwo) where
  inbound : Fin n → Spsc Item p
  downstream : Spsc Item p
  producers : Fin n → Source
  sequencer : Sequencing := .scan 0 false
  consumer : Consume := .pop
  finished : Nat := 0
  sequencerDone : Bool := false
  stalled : UInt64 := 0
  verifier : Verifier n

inductive FanMove (n : Nat) where
  | produce (id : Fin n) (clock : UInt64)
  | sequence (clock : UInt64)
  | drainRead
  | drainWrite
  | consume
  | loadDone
  | loadRead
  | loadWrite

namespace FanIn
variable {n : Nat} {p : PowerOfTwo}

def create (n : Nat) (p : PowerOfTwo) : FanIn n p where
  inbound _ := Spsc.create Item p 0
  downstream := Spsc.create Item p 0
  producers _ := {}
  verifier := .create n

def idOf (id : Fin n) : UInt64 := UInt64.ofNat id

def setSource (s : FanIn n p) (id : Fin n) (source : Source) : FanIn n p :=
  {s with producers := Function.update s.producers id source}

def setInbound (s : FanIn n p) (id : Fin n) (ring : Spsc Item p) : FanIn n p :=
  {s with inbound := Function.update s.inbound id ring}

/-- The next step of a producer thread. -/
def produce (perProducer deadline clock : UInt64) (s : FanIn n p) (id : Fin n) : Option (FanIn n p) :=
  let source := s.producers id
  match source.control with
  | .loop =>
    if source.i < perProducer then
      some ((s.setInbound id {s.inbound id with producer := some (.load (.of (idOf id) source.i))}).setSource id
        {source with control := .push 0})
    else some {s.setSource id {source with control := .returned} with finished := s.finished+1}
  | .push spins =>
    match (s.inbound id).pushBounded deadline clock spins with
    | none => none
    | some (ring,.again spins) => some ((s.setInbound id ring).setSource id {source with control := .push spins})
    | some (ring,.accepted) => some ((s.setInbound id ring).setSource id {i := source.i+1, control := .loop})
    | some (ring,.stalled) => some ((s.setInbound id ring).setSource id {source with control := .stall})
  | .stall => some {s.setSource id {i := source.i+1, control := .loop} with stalled := s.stalled+1}
  | .returned => none

/-- The next step of the sequencer, apart from the looks of `empty()`. -/
def sequence (deadline clock : UInt64) (s : FanIn n p) : Option (FanIn n p) :=
  match s.sequencer with
  | .scan k moved =>
    if inside : k < n then
      let id : Fin n := ⟨k,inside⟩
      match (s.inbound id).consumer with
      | none => some (s.setInbound id {s.inbound id with consumer := some .load})
      | some phase =>
        let s' := s.setInbound id ((s.inbound id).pop phase)
        match (phase.step (s.inbound id).queue).2 with
        | .inl _ => some s'
        | .inr none => some {s' with sequencer := .scan (k+1) moved}
        | .inr (some item) =>
          some {s' with
            sequencer := .forward k item 0
            downstream := {s.downstream with producer := some (.load item)}}
    else if moved = true ∨ s.finished ≠ n then some {s with sequencer := .scan 0 false}
    else some {s with sequencer := .drain 0 true}
  | .forward k item spins =>
    match s.downstream.pushBounded deadline clock spins with
    | none => none
    | some (ring,.again spins) => some {s with downstream := ring, sequencer := .forward k item spins}
    | some (ring,.accepted) => some {s with downstream := ring, sequencer := .scan (k+1) true}
    | some (ring,.stalled) => some {s with downstream := ring, sequencer := .stall k item}
  | .stall k _ => some {s with stalled := s.stalled+1, sequencer := .scan (k+1) true}
  | .drain k drained =>
    if k < n then
      -- `drained && empty()` does not look once it is false
      if drained then none else some {s with sequencer := .drain (k+1) false}
    else some {s with sequencer := if drained then .store else .scan 0 false}
  | .drainWrite _ _ => none
  | .drainRead _ _ => none
  | .store => some {s with sequencerDone := true, sequencer := .returned}
  | .returned => none

def drainRead (s : FanIn n p) : Option (FanIn n p) :=
  match s.sequencer with
  | .drain k true =>
    if inside : k < n then some {s with sequencer := .drainWrite k (s.inbound ⟨k,inside⟩).queue.readIdx} else none
  | .drainRead k write =>
    if inside : k < n then
      some {s with sequencer := .drain (k+1) ((s.inbound ⟨k,inside⟩).queue.readIdx = write)}
    else none
  | _ => none

def drainWrite (s : FanIn n p) : Option (FanIn n p) :=
  match s.sequencer with
  | .drain k true =>
    if inside : k < n then some {s with sequencer := .drainRead k (s.inbound ⟨k,inside⟩).queue.writeIdx} else none
  | .drainWrite k read =>
    if inside : k < n then
      some {s with sequencer := .drain (k+1) (read = (s.inbound ⟨k,inside⟩).queue.writeIdx)}
    else none
  | _ => none

def consume (s : FanIn n p) : Option (FanIn n p) :=
  if s.consumer = .pop then
    match s.downstream.consumer with
    | none => some {s with downstream := {s.downstream with consumer := some .load}}
    | some phase =>
      let s' := {s with downstream := s.downstream.pop phase}
      match (phase.step s.downstream.queue).2 with
      | .inl _ => some s'
      | .inr none => some {s' with consumer := .flag}
      | .inr (some item) => some {s' with verifier := s.verifier.check item}
  else none

def move (perProducer deadline : UInt64) (s : FanIn n p) : FanMove n → Option (FanIn n p)
  | .produce id clock => s.produce perProducer deadline clock id
  | .sequence clock => s.sequence deadline clock
  | .drainRead => s.drainRead
  | .drainWrite => s.drainWrite
  | .consume => s.consume
  | .loadDone =>
    if s.consumer = .flag then some {s with consumer := if s.sequencerDone then .empty else .pop} else none
  | .loadRead =>
    match s.consumer with
    | .empty => some {s with consumer := .emptyWrite s.downstream.queue.readIdx}
    | .emptyRead write => some {s with consumer := Shutdown.decideBreak s.downstream.queue.readIdx write}
    | _ => none
  | .loadWrite =>
    match s.consumer with
    | .empty => some {s with consumer := .emptyRead s.downstream.queue.writeIdx}
    | .emptyWrite read => some {s with consumer := Shutdown.decideBreak read s.downstream.queue.writeIdx}
    | _ => none

end FanIn

structure Verdict where
  sent : UInt64
  received : UInt64
  corrupted : UInt64
  outOfOrder : UInt64
  stalledPushes : UInt64
  hitTimeBudget : Bool

namespace Verdict

def lost (v : Verdict) : UInt64 := if v.received < v.sent then v.sent - v.received else 0

/-- The stream is reported intact. -/
def clean (v : Verdict) : Bool :=
  v.lost == 0 && v.corrupted == 0 && v.outOfOrder == 0 && v.stalledPushes == 0 && !v.hitTimeBudget

end Verdict

def FanIn.verdict {n : Nat} {p : PowerOfTwo} (perProducer : UInt64) (s : FanIn n p) : Verdict where
  sent := UInt64.ofNat n * perProducer
  received := s.verifier.received
  corrupted := s.verifier.corrupted
  outOfOrder := s.verifier.outOfOrder
  stalledPushes := s.stalled
  hitTimeBudget := false

end Llte
