import Llte.Foundation.Wrapping
import Mathlib.Data.List.Infix
import Mathlib.Logic.Relation

/-! The lock-free ring between one producer and one consumer. Each atomic load, each
atomic store and each slot copy is a step of its own; what a side does with its
private words in between belongs to the step before. -/
namespace Llte
open Foundation

structure SpscQueue (α : Type) (p : PowerOfTwo) where
  writeIdx : UInt64
  cachedReadIdx : UInt64
  readIdx : UInt64
  cachedWriteIdx : UInt64
  buffer : Ring α p.capacity

inductive Push (α : Type) where
  | load (value : α)
  | reload (value : α) (write : UInt64)
  | copy (value : α) (write : UInt64)
  | publish (value : α) (write : UInt64)
  deriving DecidableEq

inductive Pop (α : Type) where
  | load
  | reload (read : UInt64)
  | copy (read : UInt64)
  | release (read : UInt64) (out : α)
  deriving DecidableEq

namespace SpscQueue
variable {α : Type} {p : PowerOfTwo}

def create (α : Type) [Inhabited α] (p : PowerOfTwo) (origin : UInt64) : SpscQueue α p where
  writeIdx := origin
  cachedReadIdx := origin
  readIdx := origin
  cachedWriteIdx := origin
  buffer := Ring.replicate p.capacity default

def full (q : SpscQueue α p) (write : UInt64) : Bool :=
  p.capacity.size ≤ (write - q.cachedReadIdx).toNat

end SpscQueue

namespace Push
variable {α : Type} {p : PowerOfTwo}

def value : Push α → α
  | load value => value
  | reload value _ => value
  | copy value _ => value
  | publish value _ => value

/-- The next step of `try_push`, with its result once it returns. -/
def step (q : SpscQueue α p) : Push α → SpscQueue α p × (Push α ⊕ Bool)
  | load value =>
    let write := q.writeIdx
    if q.full write then (q,.inl (.reload value write)) else (q,.inl (.copy value write))
  | reload value write =>
    let q := {q with cachedReadIdx := q.readIdx}
    if q.full write then (q,.inr false) else (q,.inl (.copy value write))
  | copy value write =>
    ({q with buffer := q.buffer.put (write &&& p.mask).toNat value},.inl (.publish value write))
  | publish _ write => ({q with writeIdx := write+1},.inr true)

theorem step_value (q : SpscQueue α p) (phase next : Push α) (stays : (phase.step q).2 = .inl next) :
    next.value = phase.value := by
  cases phase with
  | load value =>
    simp only [step] at stays
    split at stays <;> (cases stays; rfl)
  | reload value write =>
    simp only [step] at stays
    split at stays <;> cases stays
    rfl
  | copy value write =>
    cases stays
    rfl
  | publish value write => cases stays

end Push

namespace Pop
variable {α : Type} {p : PowerOfTwo}

/-- The next step of `try_pop`; a successful call returns the value. -/
def step (q : SpscQueue α p) : Pop α → SpscQueue α p × (Pop α ⊕ Option α)
  | load =>
    let read := q.readIdx
    if read = q.cachedWriteIdx then (q,.inl (.reload read)) else (q,.inl (.copy read))
  | reload read =>
    let q := {q with cachedWriteIdx := q.writeIdx}
    if read = q.cachedWriteIdx then (q,.inr none) else (q,.inl (.copy read))
  | copy read => (q,.inl (.release read (q.buffer.get (read &&& p.mask).toNat)))
  | release read out => ({q with readIdx := read+1},.inr (some out))

end Pop

/-- The ring with both sides. `published` are the values whose `try_push` returned
true, `popped` those that `try_pop` returned. -/
structure Spsc (α : Type) (p : PowerOfTwo) where
  queue : SpscQueue α p
  producer : Option (Push α) := none
  consumer : Option (Pop α) := none
  published : List α := []
  popped : List α := []

namespace Spsc
variable {α : Type} {p : PowerOfTwo}

def create (α : Type) [Inhabited α] (p : PowerOfTwo) (origin : UInt64) : Spsc α p where
  queue := SpscQueue.create α p origin

def push (s : Spsc α p) (phase : Push α) : Spsc α p :=
  match phase.step s.queue with
  | (queue,.inl next) => {s with queue := queue, producer := some next}
  | (queue,.inr true) =>
    {s with queue := queue, producer := none, published := s.published ++ [phase.value]}
  | (queue,.inr false) => {s with queue := queue, producer := none}

def pop (s : Spsc α p) (phase : Pop α) : Spsc α p :=
  match phase.step s.queue with
  | (queue,.inl next) => {s with queue := queue, consumer := some next}
  | (queue,.inr (some out)) => {s with queue := queue, consumer := none, popped := s.popped ++ [out]}
  | (queue,.inr none) => {s with queue := queue, consumer := none}

theorem push_stays (s : Spsc α p) (phase next : Push α) (stays : (phase.step s.queue).2 = .inl next) :
    (s.push phase).producer = some next ∧ (s.push phase).published = s.published := by
  unfold push
  split <;> simp_all

theorem push_returns (s : Spsc α p) (phase : Push α) (ok : Bool) (returned : (phase.step s.queue).2 = .inr ok) :
    (s.push phase).producer = none ∧
      (s.push phase).published = if ok then s.published ++ [phase.value] else s.published := by
  unfold push
  split <;> simp_all

/-- A step of the producer leaves the consumer where it is. -/
theorem push_consumer (s : Spsc α p) (phase : Push α) :
    (s.push phase).consumer = s.consumer ∧ (s.push phase).popped = s.popped := by
  unfold push
  split <;> exact ⟨rfl,rfl⟩

theorem pop_stays (s : Spsc α p) (phase next : Pop α) (stays : (phase.step s.queue).2 = .inl next) :
    (s.pop phase).consumer = some next ∧ (s.pop phase).popped = s.popped := by
  unfold pop
  split <;> simp_all

theorem pop_returns (s : Spsc α p) (phase : Pop α) (answer : Option α) (returned : (phase.step s.queue).2 = .inr answer) :
    (s.pop phase).consumer = none ∧ (s.pop phase).popped = s.popped ++ answer.toList := by
  unfold pop
  cases answer <;> split <;> simp_all

theorem pop_producer (s : Spsc α p) (phase : Pop α) :
    (s.pop phase).producer = s.producer ∧ (s.pop phase).published = s.published := by
  unfold pop
  split <;> exact ⟨rfl,rfl⟩

/-- What is in the ring. -/
def rest (s : Spsc α p) : List α := s.published.drop s.popped.length

/-- Any interleaving of calls of `try_push` by the producer and of `try_pop` by the
consumer. -/
inductive Step : Spsc α p → Spsc α p → Prop where
  | callPush {s : Spsc α p} (value : α) (idle : s.producer = none) :
      Step s {s with producer := some (.load value)}
  | push {s : Spsc α p} (phase : Push α) (running : s.producer = some phase) : Step s (s.push phase)
  | callPop {s : Spsc α p} (idle : s.consumer = none) : Step s {s with consumer := some .load}
  | pop {s : Spsc α p} (phase : Pop α) (running : s.consumer = some phase) : Step s (s.pop phase)

def Producing (origin : UInt64) (seenRead : Nat) (s : Spsc α p) : Option (Push α) → Prop
  | none => True
  | some (.load _) => True
  | some (.reload _ write) => write = s.queue.writeIdx
  | some (.copy _ write) => write = s.queue.writeIdx ∧ s.published.length < seenRead+p.capacity.size
  | some (.publish value write) =>
    write = s.queue.writeIdx ∧ s.published.length < seenRead+p.capacity.size ∧
      s.queue.buffer.get (origin.toNat+s.published.length) = value

def Consuming (seenWrite : Nat) (s : Spsc α p) : Option (Pop α) → Prop
  | none => True
  | some .load => True
  | some (.reload read) => read = s.queue.readIdx
  | some (.copy read) => read = s.queue.readIdx ∧ s.popped.length < seenWrite
  | some (.release read out) =>
    read = s.queue.readIdx ∧ s.popped.length < seenWrite ∧ s.published[s.popped.length]? = some out

/-- The joint invariant. Indexes are counted without wrapping: the lengths of the two logs
are the true indexes, `seenRead` and `seenWrite` those behind the cached ones. -/
structure Linked (origin : UInt64) (seenRead seenWrite : Nat) (s : Spsc α p) : Prop where
  write : s.queue.writeIdx = counted origin s.published.length
  read : s.queue.readIdx = counted origin s.popped.length
  cachedRead : s.queue.cachedReadIdx = counted origin seenRead
  cachedWrite : s.queue.cachedWriteIdx = counted origin seenWrite
  behind : seenRead ≤ s.popped.length
  ahead : s.popped.length ≤ seenWrite
  known : seenWrite ≤ s.published.length
  room : s.published.length ≤ seenRead+p.capacity.size
  fifo : s.popped <+: s.published
  held : ∀ i value, s.popped.length ≤ i → s.published[i]? = some value →
    s.queue.buffer.get (origin.toNat+i) = value
  producing : Producing origin seenRead s s.producer
  consuming : Consuming seenWrite s s.consumer

namespace Linked
variable {origin : UInt64} {seenRead seenWrite : Nat} {s : Spsc α p}

theorem create [Inhabited α] (p : PowerOfTwo) (origin : UInt64) :
    Linked origin 0 0 (Spsc.create α p origin) := by
  have start : origin = counted origin 0 := (counted_zero origin).symm
  exact ⟨start,start,start,start,Nat.le_refl _,Nat.le_refl _,Nat.le_refl _,Nat.zero_le _,List.prefix_refl _,
    by simp [Spsc.create],trivial,trivial⟩

theorem distance (linked : Linked origin seenRead seenWrite s) :
    (s.queue.writeIdx - s.queue.readIdx).toNat = s.published.length - s.popped.length ∧
      s.published.length ≤ s.popped.length+p.capacity.size := by
  have bound := p.capacity.bound
  have behind := linked.behind
  have room := linked.room
  have shorter := linked.fifo.length_le
  rw [linked.write,linked.read,counted_sub shorter (by omega)]
  omega

theorem full_iff (linked : Linked origin seenRead seenWrite s) :
    s.queue.full s.queue.writeIdx = true ↔ seenRead+p.capacity.size ≤ s.published.length := by
  have bound := p.capacity.bound
  have behind := linked.behind
  have room := linked.room
  have shorter := linked.fifo.length_le
  rw [SpscQueue.full,linked.write,linked.cachedRead,counted_sub (by omega) (by omega)]
  simp only [decide_eq_true_eq]
  omega

theorem refreshRead (linked : Linked origin seenRead seenWrite s) :
    Linked origin s.popped.length seenWrite
      {s with queue := {s.queue with cachedReadIdx := s.queue.readIdx}, producer := none} := by
  have behind := linked.behind
  have room := linked.room
  exact {linked with
    cachedRead := linked.read
    behind := Nat.le_refl _
    room := by
      change s.published.length ≤ s.popped.length+p.capacity.size
      omega
    producing := trivial}

theorem refreshWrite (linked : Linked origin seenRead seenWrite s) :
    Linked origin seenRead s.published.length
      {s with queue := {s.queue with cachedWriteIdx := s.queue.writeIdx}, consumer := none} := by
  exact {linked with
    cachedWrite := linked.write
    ahead := linked.fifo.length_le
    known := Nat.le_refl _
    consuming := trivial}

/-- The slot about to be written is none of those still to be read. -/
theorem copied (linked : Linked origin seenRead seenWrite s) (value : α) (write : UInt64)
    (own : write = s.queue.writeIdx) (free : s.published.length < seenRead+p.capacity.size) :
    Linked origin seenRead seenWrite {s with
      queue := {s.queue with buffer := s.queue.buffer.put (write &&& p.mask).toNat value}
      producer := some (.publish value write)} := by
  have behind := linked.behind
  have place : s.queue.buffer.put (write &&& p.mask).toNat value =
      s.queue.buffer.put (origin.toNat+s.published.length) value := by
    rw [own,linked.write,p.counted_mask,Ring.put_residue]
  refine {linked with held := ?_, producing := ?_}
  · intro i entry unread found
    have inside := (List.getElem?_eq_some_iff.mp found).1
    have before : origin.toNat+s.popped.length ≤ origin.toNat+s.published.length := by
      have shorter := linked.fifo.length_le
      omega
    change (s.queue.buffer.put _ value).get (origin.toNat+i) = entry
    change s.popped.length ≤ i at unread
    change i < s.published.length at inside
    rw [place,Ring.get_put_window s.queue.buffer value before (by omega) (by omega) (by omega),
      if_neg (by omega)]
    exact linked.held i entry unread found
  · refine ⟨own,free,?_⟩
    change (s.queue.buffer.put _ value).get (origin.toNat+s.published.length) = value
    rw [place,Ring.get_put_self]

theorem published (linked : Linked origin seenRead seenWrite s) (value : α) (write : UInt64)
    (own : write = s.queue.writeIdx) (free : s.published.length < seenRead+p.capacity.size)
    (there : s.queue.buffer.get (origin.toNat+s.published.length) = value) :
    Linked origin seenRead seenWrite {s with
      queue := {s.queue with writeIdx := write+1}
      producer := none
      published := s.published ++ [value]} := by
  have known := linked.known
  refine {linked with
    write := ?_, known := ?_, room := ?_, fifo := ?_, held := ?_, producing := trivial, consuming := ?_}
  · change write+1 = counted origin (s.published ++ [value]).length
    rw [List.length_append,List.length_singleton,counted_succ,own,linked.write]
  · change seenWrite ≤ (s.published ++ [value]).length
    rw [List.length_append]
    omega
  · change (s.published ++ [value]).length ≤ _
    rw [List.length_append,List.length_singleton]
    omega
  · exact linked.fifo.trans (List.prefix_append _ _)
  · intro i entry unread found
    change (s.published ++ [value])[i]? = some entry at found
    by_cases last : i = s.published.length
    · subst last
      simp only [List.getElem?_append_right (Nat.le_refl _),Nat.sub_self,List.getElem?_cons_zero,
        Option.some.injEq] at found
      rw [← found]
      exact there
    · have inside := (List.getElem?_eq_some_iff.mp found).1
      rw [List.length_append,List.length_singleton] at inside
      rw [List.getElem?_append_left (by omega)] at found
      exact linked.held i entry unread found
  · -- what the consumer has read stays where it is
    have before := linked.consuming
    change Consuming seenWrite _ s.consumer
    cases reading : s.consumer with
    | none => trivial
    | some phase =>
      rw [reading] at before
      cases phase with
      | load => trivial
      | reload read => exact before
      | copy read => exact before
      | release read out =>
        refine ⟨before.1,before.2.1,?_⟩
        change (s.published ++ [value])[s.popped.length]? = some out
        have ahead := before.2.1
        rw [List.getElem?_append_left (by omega)]
        exact before.2.2

theorem push (linked : Linked origin seenRead seenWrite s) (phase : Push α)
    (running : s.producer = some phase) : ∃ seenRead', Linked origin seenRead' seenWrite (s.push phase) := by
  have standing := linked.producing
  rw [running] at standing
  cases phase with
  | load value =>
    refine ⟨seenRead,?_⟩
    by_cases full : s.queue.full s.queue.writeIdx = true
    · simp only [Spsc.push,Push.step,full,if_true]
      exact {linked with producing := rfl}
    · have free : s.published.length < seenRead+p.capacity.size := by
        rw [linked.full_iff] at full
        omega
      simp only [Spsc.push,Push.step,full]
      exact {linked with producing := ⟨rfl,free⟩}
  | reload value write =>
    have own : write = s.queue.writeIdx := standing
    have refreshed := linked.refreshRead
    refine ⟨s.popped.length,?_⟩
    by_cases full : SpscQueue.full {s.queue with cachedReadIdx := s.queue.readIdx} write = true
    · simp only [Spsc.push,Push.step,full,if_true]
      exact refreshed
    · have free : s.published.length < s.popped.length+p.capacity.size := by
        have law := refreshed.full_iff
        rw [own] at full
        have notFull := fun passed => full (law.mpr passed)
        change ¬ s.popped.length+p.capacity.size ≤ s.published.length at notFull
        omega
      simp only [Spsc.push,Push.step,full]
      exact {refreshed with producing := ⟨own,free⟩}
  | copy value write => exact ⟨seenRead,linked.copied value write standing.1 standing.2⟩
  | publish value write =>
    exact ⟨seenRead,linked.published value write standing.1 standing.2.1 standing.2.2⟩

theorem popped (linked : Linked origin seenRead seenWrite s) (read : UInt64) (out : α)
    (own : read = s.queue.readIdx) (some_ : s.popped.length < seenWrite)
    (there : s.published[s.popped.length]? = some out) :
    Linked origin seenRead seenWrite {s with
      queue := {s.queue with readIdx := read+1}
      consumer := none
      popped := s.popped ++ [out]} := by
  have behind := linked.behind
  refine {linked with
    read := ?_, behind := ?_, ahead := ?_, fifo := ?_, held := ?_, producing := ?_, consuming := trivial}
  · change read+1 = counted origin (s.popped ++ [out]).length
    rw [List.length_append,List.length_singleton,counted_succ,own,linked.read]
  · change seenRead ≤ (s.popped ++ [out]).length
    rw [List.length_append]
    omega
  · change (s.popped ++ [out]).length ≤ seenWrite
    rw [List.length_append,List.length_singleton]
    omega
  · obtain ⟨rest,whole⟩ := linked.fifo
    rw [← whole,List.getElem?_append_right (Nat.le_refl _),Nat.sub_self] at there
    cases rest with
    | nil => simp at there
    | cons next later =>
      simp only [List.getElem?_cons_zero,Option.some.injEq] at there
      exact ⟨later,by rw [← whole,there]; simp⟩
  · intro i entry unread found
    change (s.popped ++ [out]).length ≤ i at unread
    rw [List.length_append] at unread
    exact linked.held i entry (by omega) found
  · have before := linked.producing
    change Producing origin seenRead _ s.producer
    cases writing : s.producer with
    | none => trivial
    | some phase =>
      rw [writing] at before
      cases phase <;> exact before

theorem pop (linked : Linked origin seenRead seenWrite s) (phase : Pop α)
    (running : s.consumer = some phase) : ∃ seenWrite', Linked origin seenRead seenWrite' (s.pop phase) := by
  have standing := linked.consuming
  have bound := p.capacity.bound
  have behind := linked.behind
  have room := linked.room
  rw [running] at standing
  cases phase with
  | load =>
    have ahead := linked.ahead
    have known := linked.known
    refine ⟨seenWrite,?_⟩
    by_cases none : s.queue.readIdx = s.queue.cachedWriteIdx
    · simp only [Spsc.pop,Pop.step,none,if_true]
      exact {linked with consuming := none.symm}
    · have some_ : s.popped.length < seenWrite := by
        by_contra equal
        have same : s.popped.length = seenWrite := by omega
        exact none (by rw [linked.read,linked.cachedWrite,same])
      simp only [Spsc.pop,Pop.step,none,if_false]
      exact {linked with consuming := ⟨rfl,some_⟩}
  | reload read =>
    have own : read = s.queue.readIdx := standing
    have refreshed := linked.refreshWrite
    have shorter := linked.fifo.length_le
    refine ⟨s.published.length,?_⟩
    by_cases none : read = s.queue.writeIdx
    · simp only [Spsc.pop,Pop.step,none,if_true]
      exact refreshed
    · have some_ : s.popped.length < s.published.length := by
        by_contra equal
        have same : s.popped.length = s.published.length := by omega
        exact none (by rw [own,linked.read,linked.write,same])
      simp only [Spsc.pop,Pop.step,none,if_false]
      exact {refreshed with consuming := ⟨own,some_⟩}
  | copy read =>
    refine ⟨seenWrite,{linked with consuming := ⟨standing.1,standing.2,?_⟩}⟩
    have known := linked.known
    have inside : s.popped.length < s.published.length := by
      have ahead := standing.2
      omega
    have found := List.getElem?_eq_getElem inside
    have there := linked.held _ _ (Nat.le_refl _) found
    change s.published[s.popped.length]? = some (s.queue.buffer.get (read &&& p.mask).toNat)
    rw [standing.1,linked.read,p.counted_mask,Ring.get_residue,there]
    exact found
  | release read out => exact ⟨seenWrite,linked.popped read out standing.1 standing.2.1 standing.2.2⟩

theorem step {s' : Spsc α p} (linked : Linked origin seenRead seenWrite s) (taken : Step s s') :
    ∃ seenRead' seenWrite', Linked origin seenRead' seenWrite' s' := by
  cases taken with
  | callPush value idle => exact ⟨seenRead,seenWrite,{linked with producing := trivial}⟩
  | push phase running =>
    obtain ⟨seenRead',after⟩ := linked.push phase running
    exact ⟨seenRead',seenWrite,after⟩
  | callPop idle => exact ⟨seenRead,seenWrite,{linked with consuming := trivial}⟩
  | pop phase running =>
    obtain ⟨seenWrite',after⟩ := linked.pop phase running
    exact ⟨seenRead,seenWrite',after⟩

/-- Equal indexes mean that everything published has been popped. -/
theorem drained (linked : Linked origin seenRead seenWrite s) (same : s.queue.readIdx = s.queue.writeIdx) :
    s.popped = s.published := by
  have apart := linked.distance.1
  have shorter := linked.fifo.length_le
  rw [same,UInt64.sub_self,UInt64.toNat_zero] at apart
  exact linked.fifo.eq_of_length (by omega)

/-- A push is refused only by a ring that is full at that moment. -/
theorem refused (linked : Linked origin seenRead seenWrite s) {phase : Push α}
    (running : s.producer = some phase) (refused : (phase.step s.queue).2 = .inr false) :
    s.popped.length+p.capacity.size ≤ s.published.length := by
  have producing := linked.producing
  rw [running] at producing
  cases phase with
  | load value =>
    rw [Push.step] at refused
    split at refused <;> cases refused
  | reload value write =>
    rw [Push.step] at refused
    split at refused
    next full =>
      have own : write = s.queue.writeIdx := producing
      rw [own] at full
      exact linked.refreshRead.full_iff.mp full
    next => cases refused
  | copy value write => cases refused
  | publish value write => cases refused

/-- A pop fails only on a ring that is empty at that moment. -/
theorem failed (linked : Linked origin seenRead seenWrite s) {phase : Pop α}
    (running : s.consumer = some phase) (failed : (phase.step s.queue).2 = .inr none) :
    s.popped = s.published := by
  have consuming := linked.consuming
  rw [running] at consuming
  cases phase with
  | load =>
    rw [Pop.step] at failed
    split at failed <;> cases failed
  | reload read =>
    rw [Pop.step] at failed
    split at failed
    next same =>
      have own : read = s.queue.readIdx := consuming
      exact linked.drained (own ▸ same)
    next => cases failed
  | copy read => cases failed
  | release read out => cases failed

/-- A value that `try_pop` returns was the first in the ring. -/
theorem takes (linked : Linked origin seenRead seenWrite s) {phase : Pop α} {out : α}
    (running : s.consumer = some phase) (got : (phase.step s.queue).2 = .inr (some out)) :
    s.rest = out::(s.pop phase).rest := by
  have standing := linked.consuming
  rw [running] at standing
  have popped := (s.pop_returns phase _ got).2
  have published := (s.pop_producer phase).2
  cases phase with
  | load =>
    simp only [Pop.step] at got
    split at got <;> cases got
  | reload read =>
    simp only [Pop.step] at got
    split at got <;> cases got
  | copy read => cases got
  | release read value =>
    cases got
    rw [Spsc.rest,Spsc.rest,popped,published]
    simpa using List.drop_eq_getElem?_toList_append.trans (by rw [standing.2.2]; rfl)

theorem got (linked : Linked origin seenRead seenWrite s) {phase : Pop α} {out : α}
    (running : s.consumer = some phase) (got : (phase.step s.queue).2 = .inr (some out)) :
    s.popped.length < s.published.length := by
  have taken := congrArg List.length (linked.takes running got)
  rw [Spsc.rest,List.length_drop,List.length_cons] at taken
  omega

theorem rest_append (linked : Linked origin seenRead seenWrite s) {values : List α} :
    (s.published ++ values).drop s.popped.length = s.rest ++ values :=
  List.drop_append_of_le_length linked.fifo.length_le

theorem rest_nil (linked : Linked origin seenRead seenWrite s) (same : s.queue.readIdx = s.queue.writeIdx) :
    s.rest = [] := by
  rw [Spsc.rest,linked.drained same,List.drop_length]

end Linked

theorem Linked.steps {origin : UInt64} {seenRead seenWrite : Nat} {s s' : Spsc α p}
    (linked : Linked origin seenRead seenWrite s) (reached : Relation.ReflTransGen Step s s') :
    ∃ seenRead' seenWrite', Linked origin seenRead' seenWrite' s' := by
  induction reached with
  | refl => exact ⟨seenRead,seenWrite,linked⟩
  | tail _ taken ih =>
    obtain ⟨seenRead',seenWrite',linked'⟩ := ih
    exact linked'.step taken

theorem reachable_linked [Inhabited α] {origin : UInt64} {s : Spsc α p}
    (reached : Relation.ReflTransGen Step (create α p origin) s) :
    ∃ seenRead seenWrite, Linked origin seenRead seenWrite s := (Linked.create p origin).steps reached

/-- An index that is published and not yet released names another slot than the one
the producer is about to write. -/
theorem Linked.apart {origin : UInt64} {seenRead seenWrite : Nat} {s : Spsc α p}
    (linked : Linked origin seenRead seenWrite s) {value : α} {write : UInt64}
    (writing : s.producer = some (.copy value write)) {index : UInt64}
    (unread : index - s.queue.readIdx < s.queue.writeIdx - s.queue.readIdx) :
    write &&& p.mask ≠ index &&& p.mask := by
  have standing := linked.producing
  rw [writing] at standing
  obtain ⟨own,free⟩ := standing
  have behind := linked.behind
  rw [UInt64.lt_iff_toNat_lt,linked.distance.1] at unread
  have place : index = counted origin (s.popped.length+(index - s.queue.readIdx).toNat) := by
    rw [counted_add,← linked.read,UInt64.ofNat_toNat,UInt64.add_comm,UInt64.sub_add_cancel]
  intro same
  have residues := congrArg UInt64.toNat same
  rw [own,linked.write,place,p.counted_mask,p.counted_mask] at residues
  have low : origin.toNat+s.popped.length ≤ origin.toNat+s.published.length := by omega
  have equal := Ring.residue_inj low (by omega) (by omega) (by omega) residues
  omega

/-- The ring is a queue under every interleaving, also across the wrap of its
indexes: what was popped is a beginning of what was published, nothing else is
outstanding than what the indexes say, they never lie further apart than the ring
is long, and the producer never writes a slot that may still be read. -/
theorem spsc_fifo [Inhabited α] (p : PowerOfTwo) (origin : UInt64) (s : Spsc α p)
    (reached : Relation.ReflTransGen Step (create α p origin) s) :
    s.popped <+: s.published ∧
    s.published.length = s.popped.length+(s.queue.writeIdx - s.queue.readIdx).toNat ∧
    (s.queue.writeIdx - s.queue.readIdx).toNat ≤ p.capacity.size ∧
    ∀ value write, s.producer = some (.copy value write) →
      ∀ index, index - s.queue.readIdx < s.queue.writeIdx - s.queue.readIdx →
        write &&& p.mask ≠ index &&& p.mask := by
  obtain ⟨seenRead,seenWrite,linked⟩ := reachable_linked reached
  obtain ⟨apart,near⟩ := linked.distance
  have shorter := linked.fifo.length_le
  refine ⟨linked.fifo,by omega,by omega,?_⟩
  intro value write writing index unread
  exact linked.apart writing unread

/-- One turn of a schedule; a turn of a side that cannot take it changes nothing. -/
inductive Turn (α : Type) where
  | callPush (value : α)
  | push
  | callPop
  | pop

def turn (s : Spsc α p) : Turn α → Spsc α p
  | .callPush value =>
    match s.producer with
    | none => {s with producer := some (.load value)}
    | some _ => s
  | .push =>
    match s.producer with
    | none => s
    | some phase => s.push phase
  | .callPop =>
    match s.consumer with
    | none => {s with consumer := some .load}
    | some _ => s
  | .pop =>
    match s.consumer with
    | none => s
    | some phase => s.pop phase

theorem turns_reach (turns : List (Turn α)) (s : Spsc α p) :
    Relation.ReflTransGen Step s (turns.foldl turn s) := by
  induction turns generalizing s with
  | nil => exact .refl
  | cons t rest ih =>
    refine Relation.ReflTransGen.trans ?_ (ih (s.turn t))
    cases t with
    | callPush value =>
      cases idle : s.producer with
      | none => simpa [turn,idle] using Relation.ReflTransGen.single (Step.callPush value idle)
      | some phase => simpa [turn,idle] using Relation.ReflTransGen.refl
    | push =>
      cases running : s.producer with
      | none => simpa [turn,running] using Relation.ReflTransGen.refl
      | some phase => simpa [turn,running] using Relation.ReflTransGen.single (Step.push phase running)
    | callPop =>
      cases idle : s.consumer with
      | none => simpa [turn,idle] using Relation.ReflTransGen.single (Step.callPop idle)
      | some phase => simpa [turn,idle] using Relation.ReflTransGen.refl
    | pop =>
      cases running : s.consumer with
      | none => simpa [turn,running] using Relation.ReflTransGen.refl
      | some phase => simpa [turn,running] using Relation.ReflTransGen.single (Step.pop phase running)

/-- A ring of two, its indexes about to wrap, in the middle of a third push. -/
theorem spsc_fifo_wraps : ∃ s : Spsc Nat ⟨1,by decide⟩,
    Relation.ReflTransGen Step (create Nat ⟨1,by decide⟩ 18446744073709551615) s ∧
    s.published = [10,20] ∧ s.popped = [10] ∧ s.queue.writeIdx = 1 ∧
    s.producer = some (.copy 30 1) ∧ s.popped <+: s.published := by
  have reached := turns_reach [.callPush 10,.push,.push,.push,.callPush 20,.push,.push,.push,.callPop,
    .pop,.pop,.pop,.pop,.callPush 30,.push,.push]
    (create Nat ⟨1,by decide⟩ 18446744073709551615)
  refine ⟨_,reached,?_,?_,?_,?_,(spsc_fifo _ _ _ reached).1⟩
  all_goals decide +kernel

end Spsc
end Llte
