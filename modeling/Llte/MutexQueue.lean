import Llte.Foundation.Machine
import Llte.LatencyStats

/-! The baseline of the queue benchmark: a bounded queue under a mutex with two condition
variables, one producer and one consumer. Waiting releases the mutex and blocks in one
step; a woken thread takes the mutex again and looks once more. Wakeups may be spurious.
The producer also waits twice without blocking, for the consumer to be ready and, before
each message, for the clock; each round of these two loops is a step. -/
namespace Llte
open Foundation

structure TimedItem where
  sequence : UInt64
  sentNs : UInt64
  deriving DecidableEq, Inhabited

structure RunConfig where
  messages : UInt64
  paceRate : UInt64

inductive Worker where
  | producer
  | consumer
  deriving DecidableEq

inductive PushPhase where
  | spin
  | start
  | pace
  | stamp
  | lock
  | hold
  | wait
  | relock
  | notify
  | finishLock
  | finishHold
  | finishNotify
  | returned
  deriving DecidableEq

inductive PopPhase where
  | start
  | lock
  | hold
  | wait
  | relock
  | notify (out : TimedItem)
  | returned
  deriving DecidableEq

/-- Notified: a thread that waits goes for the mutex again, any other does not notice. -/
def PushPhase.woken : PushPhase → PushPhase
  | wait => relock
  | phase => phase

def PopPhase.woken : PopPhase → PopPhase
  | wait => relock
  | phase => phase

/-- The queue with the two threads of `run_mutex`. `pushed` and `popped` are what went
through it so far. -/
structure MutexRun where
  items : List TimedItem := []
  done : Bool := false
  mutex : Option Worker := none
  consumerReady : Bool := false
  startNs : UInt64 := 0
  i : Nat := 0
  item : TimedItem := default
  producer : PushPhase := .spin
  received : Nat := 0
  consumer : PopPhase := .start
  transit : LatencySamples
  pushed : List TimedItem := []
  popped : List TimedItem := []

/-- A thread's own step with what the clock shows then, or a spurious wakeup. -/
inductive MutexMove where
  | produce (clock : UInt64)
  | consume (clock : UInt64)
  | wakeProducer
  | wakeConsumer
  deriving DecidableEq

private theorem PopPhase.woken_hold {phase : PopPhase} : phase.woken = .hold ↔ phase = .hold := by
  cases phase <;> simp [woken]

private theorem PopPhase.woken_wait (phase : PopPhase) : phase.woken ≠ .wait := by
  cases phase <;> simp [woken]

private theorem PushPhase.woken_wait (phase : PushPhase) : phase.woken ≠ .wait := by
  cases phase <;> simp [woken]

namespace MutexRun

/-- `main` makes the buffer as large as the number of messages. -/
def create (config : RunConfig) : MutexRun where
  transit := {capacity := config.messages.toNat}

def deadline (config : RunConfig) (s : MutexRun) : UInt64 :=
  s.startNs + UInt64.ofNat s.i*(1000000000/config.paceRate)

/-- `pace` goes round once more. -/
def early (config : RunConfig) (clock : UInt64) (s : MutexRun) : Bool :=
  config.paceRate ≠ 0 ∧ clock < s.deadline config

/-- The head of the producer's loop. -/
def nextPush (config : RunConfig) (s : MutexRun) : MutexRun :=
  {s with producer := if s.i < config.messages.toNat then .pace else .finishLock}

/-- The head of the consumer's loop. -/
def nextPop (config : RunConfig) (s : MutexRun) : MutexRun :=
  {s with consumer := if s.received < config.messages.toNat then .lock else .returned}

def notifyReady (s : MutexRun) : MutexRun :=
  {s with consumer := s.consumer.woken}

def notifyDrained (s : MutexRun) : MutexRun :=
  {s with producer := s.producer.woken}

def lockMutex (s : MutexRun) (worker : Worker) : Option MutexRun :=
  if s.mutex = none then some {s with mutex := some worker} else none

def produce (capacity : Nat) (config : RunConfig) (clock : UInt64) (s : MutexRun) : Option MutexRun :=
  match s.producer with
  | .spin => some (if s.consumerReady then {s with producer := .start} else s)
  | .start => some ({s with startNs := clock}.nextPush config)
  | .pace => some (if s.early config clock then s else {s with producer := .stamp})
  | .stamp => some {s with producer := .lock, item := ⟨UInt64.ofNat s.i,clock⟩}
  | .lock => (s.lockMutex .producer).map fun s => {s with producer := .hold}
  | .hold =>
    if s.items.length < capacity then
      some {s with items := s.items ++ [s.item], pushed := s.pushed ++ [s.item], mutex := none, producer := .notify}
    else some {s with mutex := none, producer := .wait}
  | .wait => none
  | .relock => (s.lockMutex .producer).map fun s => {s with producer := .hold}
  | .notify => some ({s.notifyReady with i := s.i+1}.nextPush config)
  | .finishLock => (s.lockMutex .producer).map fun s => {s with producer := .finishHold}
  | .finishHold => some {s with done := true, mutex := none, producer := .finishNotify}
  | .finishNotify => some {s.notifyReady with producer := .returned}
  | .returned => none

def consume (config : RunConfig) (clock : UInt64) (s : MutexRun) : Option MutexRun :=
  match s.consumer with
  | .start => some ({s with consumerReady := true}.nextPop config)
  | .lock => (s.lockMutex .consumer).map fun s => {s with consumer := .hold}
  | .hold =>
    match s.items with
    | [] =>
      if s.done then some {s with mutex := none, consumer := .returned}
      else some {s with mutex := none, consumer := .wait}
    | out::rest =>
      some {s with items := rest, popped := s.popped ++ [out], mutex := none, consumer := .notify out}
  | .wait => none
  | .relock => (s.lockMutex .consumer).map fun s => {s with consumer := .hold}
  | .notify out =>
    some ({s.notifyDrained with
      transit := s.transit.add (clock - out.sentNs)
      received := s.received+1}.nextPop config)
  | .returned => none

def move (capacity : Nat) (config : RunConfig) (s : MutexRun) : MutexMove → Option MutexRun
  | .produce clock => s.produce capacity config clock
  | .consume clock => s.consume config clock
  | .wakeProducer => if s.producer = .wait then some {s with producer := .relock} else none
  | .wakeConsumer => if s.consumer = .wait then some {s with consumer := .relock} else none

/-- Neither a spurious wakeup nor a round of one of the producer's two busy waits. -/
def works (config : RunConfig) (s : MutexRun) : MutexMove → Bool
  | .produce clock =>
    match s.producer with
    | .spin => s.consumerReady
    | .pace => !s.early config clock
    | _ => true
  | .consume _ => true
  | _ => false

variable {capacity messages : Nat} {config : RunConfig} {clock : UInt64} {s s' : MutexRun}

/-- The producer's steps. -/
inductive Produced (capacity : Nat) (config : RunConfig) (clock : UInt64) (s : MutexRun) : MutexRun → Prop where
  | spins (here : s.producer = .spin) (alone : s.consumerReady = false) : Produced capacity config clock s s
  | ready (here : s.producer = .spin) (joined : s.consumerReady = true) :
      Produced capacity config clock s {s with producer := .start}
  | starts (here : s.producer = .start) : Produced capacity config clock s ({s with startNs := clock}.nextPush config)
  | paces (here : s.producer = .pace) (early : s.early config clock = true) : Produced capacity config clock s s
  | paced (here : s.producer = .pace) (late : s.early config clock = false) :
      Produced capacity config clock s {s with producer := .stamp}
  | stamps (here : s.producer = .stamp) :
      Produced capacity config clock s {s with producer := .lock, item := ⟨UInt64.ofNat s.i,clock⟩}
  | locks (here : s.producer = .lock ∨ s.producer = .relock) (free : s.mutex = none) :
      Produced capacity config clock s {s with mutex := some .producer, producer := .hold}
  | pushes (here : s.producer = .hold) (room : s.items.length < capacity) :
      Produced capacity config clock s
        {s with items := s.items ++ [s.item], pushed := s.pushed ++ [s.item], mutex := none, producer := .notify}
  | waits (here : s.producer = .hold) (full : capacity ≤ s.items.length) :
      Produced capacity config clock s {s with mutex := none, producer := .wait}
  | notifies (here : s.producer = .notify) :
      Produced capacity config clock s ({s.notifyReady with i := s.i+1}.nextPush config)
  | finishes (here : s.producer = .finishLock) (free : s.mutex = none) :
      Produced capacity config clock s {s with mutex := some .producer, producer := .finishHold}
  | flags (here : s.producer = .finishHold) :
      Produced capacity config clock s {s with done := true, mutex := none, producer := .finishNotify}
  | ends (here : s.producer = .finishNotify) :
      Produced capacity config clock s {s.notifyReady with producer := .returned}

private theorem lockMutex_some {worker : Worker} {next : MutexRun → MutexRun}
    (taken : (s.lockMutex worker).map next = some s') : s.mutex = none ∧ s' = next {s with mutex := some worker} := by
  unfold lockMutex at taken
  split at taken
  next free => exact ⟨free,(Option.some.inj taken).symm⟩
  next => simp at taken

theorem produce_produced (taken : s.produce capacity config clock = some s') : Produced capacity config clock s s' := by
  unfold produce at taken
  split at taken
  next here =>
    rw [Option.some.injEq] at taken
    split at taken
    next joined => exact taken ▸ .ready here joined
    next alone => exact taken ▸ .spins here (Bool.not_eq_true _ ▸ alone)
  next here => exact Option.some.inj taken ▸ .starts here
  next here =>
    rw [Option.some.injEq] at taken
    split at taken
    next early => exact taken ▸ .paces here early
    next late => exact taken ▸ .paced here (Bool.not_eq_true _ ▸ late)
  next here => exact Option.some.inj taken ▸ .stamps here
  next here =>
    obtain ⟨free,rfl⟩ := lockMutex_some taken
    exact .locks (.inl here) free
  next here =>
    split at taken
    next room => exact Option.some.inj taken ▸ .pushes here room
    next full => exact Option.some.inj taken ▸ .waits here (Nat.not_lt.mp full)
  next => simp at taken
  next here =>
    obtain ⟨free,rfl⟩ := lockMutex_some taken
    exact .locks (.inr here) free
  next here => exact Option.some.inj taken ▸ .notifies here
  next here =>
    obtain ⟨free,rfl⟩ := lockMutex_some taken
    exact .finishes here free
  next here => exact Option.some.inj taken ▸ .flags here
  next here => exact Option.some.inj taken ▸ .ends here
  next => simp at taken

/-- The consumer's steps. -/
inductive Consumed (config : RunConfig) (clock : UInt64) (s : MutexRun) : MutexRun → Prop where
  | starts (here : s.consumer = .start) : Consumed config clock s ({s with consumerReady := true}.nextPop config)
  | locks (here : s.consumer = .lock ∨ s.consumer = .relock) (free : s.mutex = none) :
      Consumed config clock s {s with mutex := some .consumer, consumer := .hold}
  | gives (here : s.consumer = .hold) (empty : s.items = []) (done : s.done = true) :
      Consumed config clock s {s with mutex := none, consumer := .returned}
  | waits (here : s.consumer = .hold) (empty : s.items = []) (more : s.done = false) :
      Consumed config clock s {s with mutex := none, consumer := .wait}
  | pops (out : TimedItem) (rest : List TimedItem) (here : s.consumer = .hold) (items : s.items = out::rest) :
      Consumed config clock s {s with items := rest, popped := s.popped ++ [out], mutex := none, consumer := .notify out}
  | notifies (out : TimedItem) (here : s.consumer = .notify out) :
      Consumed config clock s ({s.notifyDrained with
        transit := s.transit.add (clock - out.sentNs)
        received := s.received+1}.nextPop config)

theorem consume_consumed (taken : s.consume config clock = some s') : Consumed config clock s s' := by
  unfold consume at taken
  split at taken
  next here => exact Option.some.inj taken ▸ .starts here
  next here =>
    obtain ⟨free,rfl⟩ := lockMutex_some taken
    exact .locks (.inl here) free
  next here =>
    split at taken
    next empty =>
      split at taken
      next done => exact Option.some.inj taken ▸ .gives here empty done
      next more => exact Option.some.inj taken ▸ .waits here empty (Bool.not_eq_true _ ▸ more)
    next out rest items => exact Option.some.inj taken ▸ .pops out rest here items
  next => simp at taken
  next here =>
    obtain ⟨free,rfl⟩ := lockMutex_some taken
    exact .locks (.inr here) free
  next out here => exact Option.some.inj taken ▸ .notifies out here
  next => simp at taken

/-- Where the producer is tells how much it has pushed. -/
def Producing (messages : Nat) (s : MutexRun) : Prop :=
  match s.producer with
  | .spin | .start => s.i = 0 ∧ s.pushed.length = 0 ∧ s.done = false
  | .pace | .stamp => s.i < messages ∧ s.pushed.length = s.i ∧ s.done = false
  | .lock | .hold | .wait | .relock =>
    s.i < messages ∧ s.pushed.length = s.i ∧ s.done = false ∧ s.item.sequence = UInt64.ofNat s.i
  | .notify => s.i < messages ∧ s.pushed.length = s.i+1 ∧ s.done = false
  | .finishLock | .finishHold => s.pushed.length = messages ∧ s.done = false
  | .finishNotify | .returned => s.pushed.length = messages ∧ s.done = true

def Consuming (messages : Nat) (s : MutexRun) : Prop :=
  match s.consumer with
  | .start => s.received = 0 ∧ s.popped.length = 0 ∧ s.consumerReady = false
  | .lock | .hold | .wait | .relock =>
    s.received < messages ∧ s.popped.length = s.received ∧ s.consumerReady = true
  | .notify _ => s.received < messages ∧ s.popped.length = s.received+1 ∧ s.consumerReady = true
  | .returned => s.popped.length = s.received ∧ s.consumerReady = true ∧
    (messages ≤ s.received ∨ s.items = [] ∧ s.done = true)

structure Steady (capacity messages : Nat) (s : MutexRun) : Prop where
  fifo : s.pushed = s.popped ++ s.items
  room : s.items.length ≤ capacity
  sent : s.pushed.map TimedItem.sequence = (List.range s.pushed.length).map UInt64.ofNat
  producing : s.Producing messages
  consuming : s.Consuming messages
  heldProducer : s.mutex = some .producer ↔ s.producer = .hold ∨ s.producer = .finishHold
  heldConsumer : s.mutex = some .consumer ↔ s.consumer = .hold
  -- whoever waits has reason to, or is about to be told
  consumerWaits : s.consumer = .wait →
    s.items = [] ∧ s.done = false ∨ s.producer = .notify ∨ s.producer = .finishNotify
  producerWaits : s.producer = .wait → s.items.length = capacity ∨ ∃ out, s.consumer = .notify out
  transit : s.transit.capacity = messages ∧ s.transit.samples.length = s.received ∧ s.transit.dropped = 0

namespace Steady

theorem create (capacity : Nat) (config : RunConfig) : Steady capacity config.messages.toNat (create config) := by
  constructor <;> simp [MutexRun.create,Producing,Consuming]

section Producer
variable (steady : Steady capacity messages s)
include steady

/-- The producer goes on without the mutex and without a word to the consumer. -/
theorem goes {phase : PushPhase} {startNs : UInt64} {item : TimedItem} (free : s.mutex ≠ some .producer)
    (still : s.producer ≠ .notify ∧ s.producer ≠ .finishNotify)
    (apart : phase ≠ .hold ∧ phase ≠ .finishHold ∧ phase ≠ .wait)
    (producing : Producing messages {s with producer := phase, startNs := startNs, item := item}) :
    Steady capacity messages {s with producer := phase, startNs := startNs, item := item} :=
  {steady with
    producing := producing
    heldProducer := by simpa [apart.1,apart.2.1] using free
    consumerWaits := fun waits => .inl ((steady.consumerWaits waits).resolve_right (by simpa using still))
    producerWaits := fun waits => absurd waits apart.2.2}

/-- The producer takes the free mutex. -/
theorem lockProducer {phase : PushPhase} (free : s.mutex = none)
    (held : phase = .hold ∨ phase = .finishHold) (producing : Producing messages {s with producer := phase})
    (still : s.producer ≠ .notify ∧ s.producer ≠ .finishNotify) :
    Steady capacity messages {s with mutex := some .producer, producer := phase} := by
  have idle : s.consumer ≠ .hold := fun here => by simp [steady.heldConsumer.mpr here] at free
  exact {steady with
    producing := producing
    heldProducer := by simpa using held
    heldConsumer := by simpa using idle
    consumerWaits := fun waits => .inl ((steady.consumerWaits waits).resolve_right (by simpa using still))
    producerWaits := by rcases held with rfl | rfl <;> simp}

private theorem consumer_idle (held : s.producer = .hold ∨ s.producer = .finishHold) : s.consumer ≠ .hold := by
  intro there
  have mine := steady.heldProducer.mpr held
  simp [steady.heldConsumer.mpr there] at mine

theorem pushes (here : s.producer = .hold) (room : s.items.length < capacity) :
    Steady capacity messages
      {s with items := s.items ++ [s.item], pushed := s.pushed ++ [s.item], mutex := none, producer := .notify} := by
  have producing := steady.producing
  simp only [Producing,here] at producing
  obtain ⟨more,pushed,done,sequence⟩ := producing
  exact {steady with
    fifo := by simp [steady.fifo]
    room := by rw [List.length_append]; exact room
    sent := by simp [steady.sent,sequence,pushed,List.range_succ]
    producing := ⟨more,by simp [pushed],done⟩
    consuming := by
      have consuming := steady.consuming
      cases there : s.consumer <;> simp only [Consuming,there] at consuming ⊢ <;> try exact consuming
      simpa [done] using consuming
    heldProducer := by simp
    heldConsumer := by simpa using steady.consumer_idle (.inl here)
    consumerWaits := fun _ => .inr (.inl rfl)
    producerWaits := by simp}

theorem waits (here : s.producer = .hold) (full : capacity ≤ s.items.length) :
    Steady capacity messages {s with mutex := none, producer := .wait} := by
  have producing := steady.producing
  simp only [Producing,here] at producing
  exact {steady with
    producing := producing
    heldProducer := by simp
    heldConsumer := by simpa using steady.consumer_idle (.inl here)
    consumerWaits := fun waits => .inl ((steady.consumerWaits waits).resolve_right (by simp [here]))
    producerWaits := fun _ => .inl (Nat.le_antisymm steady.room full)}

private theorem consuming_woken : Consuming messages {s with consumer := s.consumer.woken} := by
  have consuming := steady.consuming
  cases here : s.consumer <;> simp only [Consuming,here,PopPhase.woken] at consuming ⊢ <;> exact consuming

/-- The end of a push: after the notification no consumer waits. -/
theorem notifies {phase : PushPhase} {i : Nat} (free : s.mutex ≠ some .producer)
    (apart : phase ≠ .hold ∧ phase ≠ .finishHold ∧ phase ≠ .wait)
    (producing : Producing messages {s with producer := phase, i := i}) :
    Steady capacity messages {s with consumer := s.consumer.woken, producer := phase, i := i} :=
  {steady with
    producing := producing
    consuming := steady.consuming_woken
    heldProducer := by simpa [apart.1,apart.2.1] using free
    heldConsumer := steady.heldConsumer.trans PopPhase.woken_hold.symm
    consumerWaits := fun waits => absurd waits (PopPhase.woken_wait _)
    producerWaits := fun waits => absurd waits apart.2.2}

theorem flags (here : s.producer = .finishHold) :
    Steady capacity messages {s with done := true, mutex := none, producer := .finishNotify} := by
  have producing := steady.producing
  simp only [Producing,here] at producing
  exact {steady with
    producing := ⟨producing.1,rfl⟩
    consuming := by
      have consuming := steady.consuming
      cases there : s.consumer <;> simp only [Consuming,there] at consuming ⊢ <;> try exact consuming
      exact ⟨consuming.1,consuming.2.1,consuming.2.2.imp_right fun ended => ⟨ended.1,trivial⟩⟩
    heldProducer := by simp
    heldConsumer := by simpa using steady.consumer_idle (.inr here)
    consumerWaits := fun _ => .inr (.inr rfl)
    producerWaits := by simp}

end Producer

/-- At the head of its loop. -/
theorem producing_next {i : Nat} (few : i ≤ config.messages.toNat) (pushed : s.pushed.length = i) (done : s.done = false) :
    Producing config.messages.toNat
      {s with i := i, producer := if i < config.messages.toNat then .pace else .finishLock} := by
  split
  next more => exact ⟨more,pushed,done⟩
  next none => exact ⟨pushed.trans (Nat.le_antisymm few (Nat.not_lt.mp none)),done⟩

private theorem next_apart (more : Prop) [Decidable more] : (if more then PushPhase.pace else .finishLock) ≠ .hold ∧
    (if more then PushPhase.pace else .finishLock) ≠ .finishHold ∧
    (if more then PushPhase.pace else .finishLock) ≠ .wait := by
  split <;> simp

theorem produced (steady : Steady capacity config.messages.toNat s) (step : Produced capacity config clock s s') :
    Steady capacity config.messages.toNat s' := by
  have producing := steady.producing
  have held := steady.heldProducer
  unfold Producing at producing
  cases step with
  | spins => exact steady
  | ready here =>
    simp only [here] at producing held
    exact steady.goes (by simp [held]) (by simp [here]) (by simp) producing
  | starts here =>
    simp only [here] at producing held
    obtain ⟨zero,pushed,done⟩ := producing
    have next : Producing config.messages.toNat _ := producing_next (by omega) (pushed.trans zero.symm) done
    exact steady.goes (by simp [held]) (by simp [here]) (next_apart _) next
  | paces => exact steady
  | paced here =>
    simp only [here] at producing held
    exact steady.goes (by simp [held]) (by simp [here]) (by simp) producing
  | stamps here =>
    simp only [here] at producing held
    exact steady.goes (by simp [held]) (by simp [here]) (by simp)
      ⟨producing.1,producing.2.1,producing.2.2,rfl⟩
  | locks here free =>
    rcases here with here | here
    · simp only [here] at producing
      exact steady.lockProducer free (.inl rfl) producing (by simp [here])
    · simp only [here] at producing
      exact steady.lockProducer free (.inl rfl) producing (by simp [here])
  | pushes here room => exact steady.pushes here room
  | waits here full => exact steady.waits here full
  | notifies here =>
    simp only [here] at producing held
    obtain ⟨more,pushed,done⟩ := producing
    exact steady.notifies (by simp [held]) (next_apart _) (producing_next more pushed done)
  | finishes here free =>
    simp only [here] at producing
    exact steady.lockProducer free (.inr rfl) producing (by simp [here])
  | flags here => exact steady.flags here
  | ends here =>
    simp only [here] at producing held
    exact steady.notifies (by simp [held]) (by simp) producing

section Consumer
variable (steady : Steady capacity messages s)
include steady

private theorem producing_woken : Producing messages {s with producer := s.producer.woken} := by
  have producing := steady.producing
  cases here : s.producer <;> simp only [Producing,here,PushPhase.woken] at producing ⊢ <;> exact producing

private theorem woken_held : s.mutex = some .producer ↔ s.producer.woken = .hold ∨ s.producer.woken = .finishHold := by
  rw [steady.heldProducer]
  cases s.producer <;> simp [PushPhase.woken]

private theorem lockConsumer (free : s.mutex = none) (consuming : Consuming messages {s with consumer := .hold})
    (still : ∀ out, s.consumer ≠ .notify out) :
    Steady capacity messages {s with mutex := some .consumer, consumer := .hold} := by
  have idle : ¬ (s.producer = .hold ∨ s.producer = .finishHold) := fun here => by
    simp [steady.heldProducer.mpr here] at free
  exact {steady with
    consuming := consuming
    heldProducer := by simpa using idle
    heldConsumer := by simp
    consumerWaits := by simp
    producerWaits := fun waits => .inl ((steady.producerWaits waits).resolve_right fun ⟨out,there⟩ => still out there)}

private theorem producer_idle (here : s.consumer = .hold) : ¬(s.producer = .hold ∨ s.producer = .finishHold) := by
  intro there
  have mine := steady.heldConsumer.mpr here
  simp [steady.heldProducer.mpr there] at mine

/-- The consumer leaves the mutex with nothing in its hands. -/
theorem leaves {phase : PopPhase} (here : s.consumer = .hold) (empty : s.items = [])
    (apart : phase ≠ .hold ∧ (phase = .wait → s.done = false))
    (consuming : Consuming messages {s with consumer := phase}) :
    Steady capacity messages {s with mutex := none, consumer := phase} :=
  {steady with
    consuming := consuming
    heldProducer := by simpa using steady.producer_idle here
    heldConsumer := by simpa using apart.1
    consumerWaits := fun waits => .inl ⟨empty,apart.2 waits⟩
    producerWaits := fun waits => .inl ((steady.producerWaits waits).resolve_right (by simp [here]))}

theorem pops {out : TimedItem} {rest : List TimedItem} (here : s.consumer = .hold) (items : s.items = out::rest) :
    Steady capacity messages
      {s with items := rest, popped := s.popped ++ [out], mutex := none, consumer := .notify out} := by
  have consuming := steady.consuming
  have room := steady.room
  simp only [Consuming,here] at consuming
  rw [items,List.length_cons] at room
  exact {steady with
    fifo := by simp [steady.fifo,items]
    room := by dsimp only; omega
    consuming := ⟨consuming.1,by simp [consuming.2.1],consuming.2.2⟩
    heldProducer := by simpa using steady.producer_idle here
    heldConsumer := by simp
    consumerWaits := by simp
    producerWaits := fun _ => .inr ⟨out,rfl⟩}

end Consumer

/-- The head of the consumer's loop; no producer waits with room to push. -/
theorem nextPop (steady : Steady capacity config.messages.toNat s) {received : Nat} {producer : PushPhase} {ready : Bool}
    {transit : LatencySamples} (popped : s.popped.length = received) (isReady : ready = true)
    (idle : s.mutex ≠ some .consumer) (producing : Producing config.messages.toNat {s with producer := producer})
    (held : s.mutex = some .producer ↔ producer = .hold ∨ producer = .finishHold)
    (awake : producer = .wait → s.items.length = capacity)
    (measured : transit.capacity = config.messages.toNat ∧ transit.samples.length = received ∧ transit.dropped = 0) :
    Steady capacity config.messages.toNat ({s with
      consumerReady := ready, producer := producer, received := received, transit := transit}.nextPop config) := by
  have goes (phase : PopPhase) (consuming : Consuming config.messages.toNat {s with
      consumerReady := ready, producer := producer, received := received, transit := transit, consumer := phase})
      (apart : phase ≠ .hold ∧ phase ≠ .wait) : Steady capacity config.messages.toNat {s with
        consumerReady := ready, producer := producer, received := received, transit := transit, consumer := phase} :=
    {steady with
      producing := producing
      consuming := consuming
      heldProducer := held
      heldConsumer := by simpa [apart.1] using idle
      consumerWaits := fun waits => absurd waits apart.2
      producerWaits := fun waits => .inl (awake waits)
      transit := measured}
  unfold MutexRun.nextPop
  split
  next more => exact goes .lock ⟨more,popped,isReady⟩ (by simp)
  next none => exact goes .returned ⟨popped,isReady,.inl (Nat.not_lt.mp none)⟩ (by simp)

theorem consumed (steady : Steady capacity config.messages.toNat s) (step : Consumed config clock s s') :
    Steady capacity config.messages.toNat s' := by
  have consuming := steady.consuming
  have held := steady.heldConsumer
  unfold Consuming at consuming
  cases step with
  | starts here =>
    simp only [here] at consuming held
    refine steady.nextPop (consuming.2.1.trans consuming.1.symm) rfl (by simp [held]) steady.producing
      steady.heldProducer ?_ steady.transit
    exact fun waits => (steady.producerWaits waits).resolve_right (by simp [here])
  | locks here free =>
    rcases here with here | here
    · simp only [here] at consuming
      exact steady.lockConsumer free consuming (by simp [here])
    · simp only [here] at consuming
      exact steady.lockConsumer free consuming (by simp [here])
  | gives here empty done =>
    simp only [here] at consuming
    exact steady.leaves here empty (by simp) ⟨consuming.2.1,consuming.2.2,.inr ⟨empty,done⟩⟩
  | waits here empty more =>
    simp only [here] at consuming
    exact steady.leaves here empty ⟨by simp,fun _ => more⟩ consuming
  | pops out rest here items => exact steady.pops here items
  | notifies out here =>
    simp only [here] at consuming held
    obtain ⟨more,popped,ready⟩ := consuming
    obtain ⟨size,count,none⟩ := steady.transit
    refine steady.nextPop popped ready (by simp [held]) steady.producing_woken steady.woken_held
      (fun waits => absurd waits (PushPhase.woken_wait _)) ?_
    simp [LatencySamples.add,size,count,more,none]

theorem move (steady : Steady capacity config.messages.toNat s) {m : MutexMove}
    (taken : s.move capacity config m = some s') : Steady capacity config.messages.toNat s' := by
  cases m with
  | produce clock => exact steady.produced (produce_produced taken)
  | consume clock => exact steady.consumed (consume_consumed taken)
  | wakeProducer =>
    rw [MutexRun.move,Option.ite_none_right_eq_some] at taken
    obtain ⟨here,taken⟩ := taken
    have producing := steady.producing_woken
    have held := steady.woken_held
    rw [here] at producing held
    rw [← Option.some.inj taken]
    exact {steady with
      producing := producing
      heldProducer := held
      consumerWaits := fun waits => .inl ((steady.consumerWaits waits).resolve_right (by simp [here]))
      producerWaits := by simp}
  | wakeConsumer =>
    rw [MutexRun.move,Option.ite_none_right_eq_some] at taken
    obtain ⟨here,taken⟩ := taken
    have consuming := steady.consuming_woken
    have held := steady.heldConsumer.trans (@PopPhase.woken_hold s.consumer).symm
    rw [here] at consuming held
    rw [← Option.some.inj taken]
    exact {steady with
      consuming := consuming
      heldConsumer := held
      consumerWaits := by simp
      producerWaits := fun waits => .inl ((steady.producerWaits waits).resolve_right (by simp [here]))}

end Steady
end MutexRun

/-- The steps a thread has left. A wakeup is paid for by the notification that caused it. -/
def PushPhase.rank (left : Nat) : PushPhase → Nat
  | spin => 20*left+19
  | start => 20*left+18
  | pace => 20*left+8
  | stamp => 20*left+7
  | lock => 20*left+6
  | relock => 20*left+5
  | hold => 20*left+4
  | wait => 20*left+3
  | notify => 20*(left - 1)+17
  | finishLock => 14
  | finishHold => 12
  | finishNotify => 10
  | returned => 0

def PopPhase.rank (left : Nat) : PopPhase → Nat
  | start => 20*left+18
  | lock => 20*left+6
  | relock => 20*left+5
  | hold => 20*left+4
  | wait => 20*left+3
  | notify _ => 20*(left - 1)+17
  | returned => 0

private theorem PushPhase.rank_woken (left : Nat) (phase : PushPhase) : phase.woken.rank left ≤ phase.rank left+2 := by
  cases phase <;> simp [woken,rank]

private theorem PopPhase.rank_woken (left : Nat) (phase : PopPhase) : phase.woken.rank left ≤ phase.rank left+2 := by
  cases phase <;> simp [woken,rank]

namespace MutexRun
variable {capacity : Nat} {config : RunConfig} {clock : UInt64} {s s' : MutexRun}

def rank (config : RunConfig) (s : MutexRun) : Nat :=
  s.producer.rank (config.messages.toNat - s.i)+s.consumer.rank (config.messages.toNat - s.received)

private theorem Steady.produced_falls (steady : Steady capacity config.messages.toNat s)
    (step : Produced capacity config clock s s') :
    s'.rank config+(s.works config (.produce clock)).toNat ≤ s.rank config := by
  have producing := steady.producing
  have woken := PopPhase.rank_woken (config.messages.toNat - s.received) s.consumer
  unfold Producing at producing
  have lower (phase : PushPhase)
      (less : phase.rank (config.messages.toNat - s.i) < s.producer.rank (config.messages.toNat - s.i)) (works : Bool) :
      phase.rank (config.messages.toNat - s.i)+s.consumer.rank (config.messages.toNat - s.received)+works.toNat ≤
        s.rank config := by
    have one := works.toNat_le
    rw [rank]
    omega
  cases step with
  | spins here alone => simp [works,here,alone]
  | ready here joined => exact lower .start (by simp [here,PushPhase.rank]) _
  | starts here =>
    refine lower (if s.i < config.messages.toNat then .pace else .finishLock) ?_ _
    rw [here]
    split <;> simp only [PushPhase.rank] <;> omega
  | paces here early => simp [works,here,early]
  | paced here late => exact lower .stamp (by simp [here,PushPhase.rank]) _
  | stamps here => exact lower .lock (by simp [here,PushPhase.rank]) _
  | locks here free => exact lower .hold (by rcases here with here | here <;> simp [here,PushPhase.rank]) _
  | pushes here room =>
    simp only [here] at producing
    refine lower .notify ?_ _
    simp only [here,PushPhase.rank]
    omega
  | waits here full => exact lower .wait (by simp [here,PushPhase.rank]) _
  | notifies here =>
    simp only [here] at producing
    simp only [rank,works,here,nextPush,notifyReady,Bool.toNat_true]
    split <;> simp only [PushPhase.rank] <;> omega
  | finishes here free => exact lower .finishHold (by simp [here,PushPhase.rank]) _
  | flags here => exact lower .finishNotify (by simp [here,PushPhase.rank]) _
  | ends here =>
    simp only [rank,works,here,notifyReady,PushPhase.rank,Bool.toNat_true]
    omega

private theorem Steady.consumed_falls (steady : Steady capacity config.messages.toNat s) (step : Consumed config clock s s') :
    s'.rank config < s.rank config := by
  have consuming := steady.consuming
  have woken := PushPhase.rank_woken (config.messages.toNat - s.i) s.producer
  unfold Consuming at consuming
  cases step with
  | starts here =>
    simp only [rank,here,MutexRun.nextPop]
    split <;> simp [PopPhase.rank]
  | locks here free => rcases here with here | here <;> simp [rank,here,PopPhase.rank]
  | gives here empty done => simp [rank,here,PopPhase.rank]
  | waits here empty more => simp [rank,here,PopPhase.rank]
  | pops out rest here items =>
    simp only [here] at consuming
    simp only [rank,here,PopPhase.rank]
    omega
  | notifies out here =>
    simp only [here] at consuming
    simp only [rank,here,MutexRun.nextPop,notifyDrained]
    split <;> simp only [PopPhase.rank] <;> omega

/-- A step that works brings the rank down; a round of a busy wait leaves it. -/
theorem Steady.falls (steady : Steady capacity config.messages.toNat s) {m : MutexMove}
    (calm : m ≠ .wakeProducer ∧ m ≠ .wakeConsumer) (taken : s.move capacity config m = some s') :
    s'.rank config+(s.works config m).toNat ≤ s.rank config := by
  cases m with
  | produce clock => exact steady.produced_falls (produce_produced taken)
  | consume clock => exact steady.consumed_falls (consume_consumed taken)
  | wakeProducer => exact absurd rfl calm.1
  | wakeConsumer => exact absurd rfl calm.2

/-- The next step of one of the threads works, whatever the clock shows then; if the producer
is in `pace`, from its deadline on. -/
def Runs (capacity : Nat) (config : RunConfig) (s : MutexRun) : Prop :=
  ∃ m : UInt64 → MutexMove, ∀ clock, (s.producer = .pace → s.early config clock = false) →
    s.works config (m clock) = true ∧ (s.move capacity config (m clock)).isSome

private theorem produce_runs (awake : s.producer ≠ .wait ∧ s.producer ≠ .returned)
    (free : s.mutex = none ∨ s.producer = .hold ∨ s.producer = .finishHold)
    (joined : s.producer = .spin → s.consumerReady = true) : s.Runs capacity config := by
  refine ⟨.produce,fun clock late => ?_⟩
  cases here : s.producer with
  | spin => simp [works,move,produce,here,joined here]
  | pace => simp [works,move,produce,here,late here]
  | hold =>
    simp only [works,move,produce,here]
    split <;> simp
  | wait => exact absurd here awake.1
  | returned => exact absurd here awake.2
  | _ =>
    simp only [here] at free
    simp_all [works,move,produce,lockMutex]

private theorem consume_runs (awake : s.consumer ≠ .wait ∧ s.consumer ≠ .returned)
    (free : s.mutex = none ∨ s.consumer = .hold) : s.Runs capacity config := by
  refine ⟨.consume,fun clock _ => ⟨rfl,?_⟩⟩
  cases here : s.consumer with
  | hold =>
    simp only [move,consume,here]
    split
    next => split <;> rfl
    next => rfl
  | wait => exact absurd here awake.1
  | returned => exact absurd here awake.2
  | _ =>
    simp only [here] at free
    simp_all [move,consume,lockMutex]

/-- The holder of the mutex is never blocked. -/
theorem Steady.holder_runs (steady : Steady capacity config.messages.toNat s) (held : s.mutex ≠ none) :
    s.Runs capacity config := by
  cases who : s.mutex with
  | none => exact absurd who held
  | some worker =>
    cases worker with
    | producer =>
      have here := steady.heldProducer.mp who
      exact produce_runs (by rcases here with here | here <;> simp [here]) (.inr here)
        (by rcases here with here | here <;> simp [here])
    | consumer =>
      have here := steady.heldConsumer.mp who
      exact consume_runs (by simp [here]) (.inr here)

/-- Both threads blocked or returned means that both have returned. -/
theorem Steady.stuck (steady : Steady capacity config.messages.toNat s) (pos : 0 < capacity)
    (producer : s.producer = .wait ∨ s.producer = .returned)
    (consumer : s.consumer = .wait ∨ s.consumer = .returned) :
    s.producer = .returned ∧ s.consumer = .returned ∧ s.popped = s.pushed := by
  have producing := steady.producing
  have consuming := steady.consuming
  have length := congrArg List.length steady.fifo
  rw [List.length_append] at length
  rcases producer with waits | returned
  · -- the producer waits at a full queue, which the consumer would have emptied
    simp only [Producing,waits] at producing
    rcases consumer with waits' | returned
    · have full := (steady.producerWaits waits).resolve_right (by simp [waits'])
      have empty := (steady.consumerWaits waits').resolve_right (by simp [waits])
      simp only [empty.1,List.length_nil] at full
      omega
    · simp only [Consuming,returned] at consuming
      rcases consuming.2.2 with enough | ⟨_,done⟩
      · omega
      · simp [producing.2.2.1] at done
  · simp only [Producing,returned] at producing
    rcases consumer with waits' | ended
    · have empty := (steady.consumerWaits waits').resolve_right (by simp [returned])
      simp [producing.2] at empty
    · simp only [Consuming,ended] at consuming
      have none : s.items = [] := by
        rcases consuming.2.2 with enough | empty
        · exact List.eq_nil_of_length_eq_zero (by omega)
        · exact empty.1
      exact ⟨returned,ended,by rw [steady.fifo,none,List.append_nil]⟩

private theorem Steady.progress (steady : Steady capacity config.messages.toNat s) (pos : 0 < capacity) :
    s.Runs capacity config ∨ s.producer = .returned ∧ s.consumer = .returned ∧ s.popped = s.pushed := by
  by_cases free : s.mutex = none
  · by_cases consumer : s.consumer = .wait ∨ s.consumer = .returned
    · by_cases producer : s.producer = .wait ∨ s.producer = .returned
      · exact .inr (steady.stuck pos producer consumer)
      · refine .inl (produce_runs (not_or.mp producer) (.inl free) fun _ => ?_)
        have consuming := steady.consuming
        rcases consumer with here | here <;> simp only [Consuming,here] at consuming
        · exact consuming.2.2
        · exact consuming.2.1
    · exact .inl (consume_runs (not_or.mp consumer) (.inl free))
  · exact .inl (steady.holder_runs free)

private theorem rank_le (config : RunConfig) (s : MutexRun) : s.rank config ≤ 40*config.messages.toNat+37 := by
  have producer : s.producer.rank (config.messages.toNat - s.i) ≤ 20*config.messages.toNat+19 := by
    cases s.producer <;> simp only [PushPhase.rank] <;> omega
  have consumer : s.consumer.rank (config.messages.toNat - s.received) ≤ 20*config.messages.toNat+18 := by
    cases s.consumer <;> simp only [PopPhase.rank] <;> omega
  rw [rank]
  omega

/-- No wakeup is lost. From every state of a run, spurious wakeups before it or not: where
there are no more spurious wakeups the steps come to an end, rounds of the two busy waits
not counted, at most about forty for each message; and as long as the two threads have not
both returned one of them can go on, where the producer paces as soon as its deadline has
come. Once they have, every message has been received in order and has its sample. -/
theorem mutex_run_returns (capacity : Nat) (config : RunConfig) (pos : 0 < capacity) (s : MutexRun)
    (reached : Reached (move capacity config) (create config) s) :
    (∀ moves s', (∀ m ∈ moves, m ≠ .wakeProducer ∧ m ≠ .wakeConsumer) → play (move capacity config) moves s = some s' →
      effort (move capacity config) (works config) moves s ≤ 40*config.messages.toNat+37) ∧
    (s.Runs capacity config ∨ s.producer = .returned ∧ s.consumer = .returned ∧
      s.popped.map TimedItem.sequence = (List.range config.messages.toNat).map UInt64.ofNat ∧
      s.transit.samples.length = config.messages.toNat ∧ s.transit.dropped = 0) := by
  have steady : Steady capacity config.messages.toNat s :=
    reached.invariant (Steady.create capacity config) fun _ _ _ steady taken => steady.move taken
  refine ⟨fun moves s' calm played => ?_,?_⟩
  · have short : effort (move capacity config) (works config) moves s+s'.rank config ≤ s.rank config :=
      (play_effort (I := Steady capacity config.messages.toNat) (rank config) (works config)
        (fun _ _ _ steady calm taken => ⟨steady.move taken,steady.falls calm taken⟩) steady calm played).2
    have bound := rank_le config s
    omega
  · refine (steady.progress pos).imp_right ?_
    rintro ⟨returned,ended,whole⟩
    have producing := steady.producing
    have consuming := steady.consuming
    simp only [Producing,returned] at producing
    simp only [Consuming,ended] at consuming
    refine ⟨returned,ended,?_,?_,steady.transit.2.2⟩
    · rw [whole,steady.sent,producing.1]
    · rw [steady.transit.2.1,← consuming.1,whole,producing.1]

/-- Two messages, two nanoseconds apart. -/
def paced : RunConfig := ⟨2,500000000⟩

/-- The producer has gone round in both of its loops and waits at a full queue of one; the
consumer can still run. -/
theorem mutex_run_returns_waiting : ∃ s, Reached (move 1 paced) (create paced) s ∧ s.producer = .wait ∧
    s.Runs 1 paced := by
  obtain ⟨s,reached,waits⟩ := play_finds (move 1 paced) (create paced)
    [.produce 0,.consume 0,.produce 1,.produce 2,.produce 2,.produce 2,.produce 3,.produce 3,.produce 3,.produce 3,
      .produce 4,.produce 5,.produce 5,.produce 6] (fun s => s.producer = .wait) (by decide +kernel)
  exact ⟨s,reached,waits,((mutex_run_returns 1 paced (by decide) s reached).2).resolve_right (by simp [waits])⟩

end MutexRun
end Llte
