import Llte.Foundation.Objects
import Llte.SpscQueue

/-! The ring of the queue benchmark that reads the opposite index on every call, next to
the production ring, which reads it only when its cached copy says full or empty. Each
call runs to its end before the next one starts. -/
namespace Llte
open Foundation

inductive RingCall (α : Type) where
  | tryPush (value : α)
  | tryPop
  | empty

inductive RingReply (α : Type) where
  | pushed (ok : Bool)
  | popped (out : Option α)
  | empty (answer : Bool)
  deriving DecidableEq

namespace SpscQueue
variable {α : Type} {p : PowerOfTwo}

def enqueue (q : SpscQueue α p) (write : UInt64) (value : α) : SpscQueue α p :=
  {q with buffer := q.buffer.put (write &&& p.mask).toNat value, writeIdx := write+1}

def dequeue (q : SpscQueue α p) (read : UInt64) : Option α × SpscQueue α p :=
  (some (q.buffer.get (read &&& p.mask).toNat),{q with readIdx := read+1})

def tryPush (q : SpscQueue α p) (value : α) : Bool × SpscQueue α p :=
  let write := q.writeIdx
  if q.full write then
    let q := {q with cachedReadIdx := q.readIdx}
    if q.full write then (false,q) else (true,q.enqueue write value)
  else (true,q.enqueue write value)

def tryPop (q : SpscQueue α p) : Option α × SpscQueue α p :=
  let read := q.readIdx
  if read = q.cachedWriteIdx then
    let q := {q with cachedWriteIdx := q.writeIdx}
    if read = q.cachedWriteIdx then (none,q) else q.dequeue read
  else q.dequeue read

def empty (q : SpscQueue α p) : Bool := q.readIdx = q.writeIdx

def respond (q : SpscQueue α p) : RingCall α → Option (RingReply α × SpscQueue α p)
  | .tryPush value => some (.pushed (q.tryPush value).1,(q.tryPush value).2)
  | .tryPop => some (.popped q.tryPop.1,q.tryPop.2)
  | .empty => some (.empty q.empty,q)

end SpscQueue

structure AlignedQueue (α : Type) (p : PowerOfTwo) where
  writeIdx : UInt64
  readIdx : UInt64
  buffer : Ring α p.capacity

namespace AlignedQueue
variable {α : Type} {p : PowerOfTwo}

def create (α : Type) [Inhabited α] (p : PowerOfTwo) (origin : UInt64) : AlignedQueue α p where
  writeIdx := origin
  readIdx := origin
  buffer := Ring.replicate p.capacity default

def tryPush (q : AlignedQueue α p) (value : α) : Bool × AlignedQueue α p :=
  let write := q.writeIdx
  if p.capacity.size ≤ (write - q.readIdx).toNat then (false,q)
  else (true,{q with buffer := q.buffer.put (write &&& p.mask).toNat value, writeIdx := write+1})

def tryPop (q : AlignedQueue α p) : Option α × AlignedQueue α p :=
  let read := q.readIdx
  if read = q.writeIdx then (none,q)
  else (some (q.buffer.get (read &&& p.mask).toNat),{q with readIdx := read+1})

def empty (q : AlignedQueue α p) : Bool := q.readIdx = q.writeIdx

def respond (q : AlignedQueue α p) : RingCall α → Option (RingReply α × AlignedQueue α p)
  | .tryPush value => some (.pushed (q.tryPush value).1,(q.tryPush value).2)
  | .tryPop => some (.popped q.tryPop.1,q.tryPop.2)
  | .empty => some (.empty q.empty,q)

end AlignedQueue

/-- What both rings are for: a queue that holds up to `capacity` items. -/
def boundedQueue {α : Type} (capacity : Nat) (held : List α) : RingCall α → Option (RingReply α × List α)
  | .tryPush value =>
    if held.length < capacity then some (.pushed true,held ++ [value]) else some (.pushed false,held)
  | .tryPop => some (.popped held.head?,held.tail)
  | .empty => some (.empty held.isEmpty,held)

namespace Spsc
variable {α : Type} {p : PowerOfTwo}

/-- A whole call is the sequence of its steps. -/
private theorem tryPush_turns (s : Spsc α p) (value : α) (idle : s.producer = none) :
    [Turn.callPush value,.push,.push,.push,.push].foldl turn s =
      {s with queue := (s.queue.tryPush value).2
              published := if (s.queue.tryPush value).1 then s.published ++ [value] else s.published} := by
  obtain ⟨q,producer,consumer,published,popped⟩ := s
  dsimp only at idle
  subst idle
  by_cases full : q.full q.writeIdx = true
  · by_cases still : SpscQueue.full {q with cachedReadIdx := q.readIdx} q.writeIdx = true
    · simp [turn,push,Push.step,SpscQueue.tryPush,full,still]
    · simp [turn,push,Push.step,SpscQueue.tryPush,SpscQueue.enqueue,Push.value,full,still]
  · simp [turn,push,Push.step,SpscQueue.tryPush,SpscQueue.enqueue,Push.value,full]

private theorem tryPop_turns (s : Spsc α p) (idle : s.consumer = none) :
    [Turn.callPop,.pop,.pop,.pop,.pop].foldl turn s =
      {s with queue := s.queue.tryPop.2, popped := s.popped ++ s.queue.tryPop.1.toList} := by
  obtain ⟨⟨writeIdx,cachedReadIdx,readIdx,cachedWriteIdx,buffer⟩,producer,consumer,published,popped⟩ := s
  dsimp only at idle
  subst idle
  by_cases none : readIdx = cachedWriteIdx
  · subst none
    by_cases still : readIdx = writeIdx
    · simp [turn,pop,Pop.step,SpscQueue.tryPop,still]
    · simp [turn,pop,Pop.step,SpscQueue.tryPop,SpscQueue.dequeue,still]
  · simp [turn,pop,Pop.step,SpscQueue.tryPop,SpscQueue.dequeue,none]

end Spsc

namespace SpscQueue
variable {α : Type} {p : PowerOfTwo} {origin : UInt64} {q : SpscQueue α p} {held : List α}

/-- `q` is a ring in which both sides are idle and which holds `held`. -/
def Holds (origin : UInt64) (q : SpscQueue α p) (held : List α) : Prop :=
  ∃ popped seenRead seenWrite, Spsc.Linked origin seenRead seenWrite
    {queue := q, published := popped ++ held, popped := popped}

theorem Holds.create [Inhabited α] (p : PowerOfTwo) (origin : UInt64) :
    Holds origin (SpscQueue.create α p origin) [] := ⟨[],0,0,.create p origin⟩

theorem Holds.length_le (holds : Holds origin q held) : held.length ≤ p.capacity.size := by
  obtain ⟨popped,seenRead,seenWrite,linked⟩ := holds
  have near := linked.distance.2
  rw [List.length_append] at near
  dsimp only at near
  omega

theorem Holds.distance (holds : Holds origin q held) : (q.writeIdx - q.readIdx).toNat = held.length := by
  obtain ⟨popped,seenRead,seenWrite,linked⟩ := holds
  have apart := linked.distance.1
  rw [List.length_append] at apart
  dsimp only at apart
  omega

theorem Holds.empty_iff (holds : Holds origin q held) : q.readIdx = q.writeIdx ↔ held = [] := by
  have apart := holds.distance
  constructor
  · intro same
    rw [same,UInt64.sub_self] at apart
    exact List.length_eq_zero_iff.mp apart.symm
  · rintro rfl
    have zero : q.writeIdx - q.readIdx = 0 := UInt64.toNat_inj.mp apart
    rw [← UInt64.sub_add_cancel q.writeIdx q.readIdx,zero,UInt64.zero_add]

private theorem Holds.refresh (holds : Holds origin q held) :
    Holds origin {q with cachedReadIdx := q.readIdx, cachedWriteIdx := q.writeIdx} held := by
  obtain ⟨popped,seenRead,seenWrite,linked⟩ := holds
  exact ⟨popped,_,_,linked.refreshRead.refreshWrite⟩

/-- Neither side's copy ever lags so far behind that the answer is wrong. -/
theorem Holds.pushes_iff (holds : Holds origin q held) (value : α) :
    (q.tryPush value).1 = true ↔ held.length < p.capacity.size := by
  obtain ⟨popped,seenRead,seenWrite,linked⟩ := holds
  have behind := linked.behind
  have stale := linked.full_iff
  have fresh := linked.refreshRead.full_iff
  dsimp only at behind stale fresh
  rw [List.length_append] at stale fresh
  unfold tryPush
  dsimp only
  split
  next full =>
    split
    next still =>
      have longer := fresh.mp still
      simp only [Bool.false_eq_true,false_iff]
      omega
    next room =>
      have shorter := mt fresh.mpr room
      simp only [true_iff]
      omega
  next room =>
    have shorter := mt stale.mpr room
    simp only [true_iff]
    omega

private theorem Holds.tryPush (holds : Holds origin q held) (value : α) :
    Holds origin (q.tryPush value).2 (if held.length < p.capacity.size then held ++ [value] else held) := by
  have flag := holds.pushes_iff value
  obtain ⟨popped,seenRead,seenWrite,linked⟩ := holds
  have reached := Spsc.turns_reach [.callPush value,.push,.push,.push,.push]
    (⟨q,none,none,popped ++ held,popped⟩ : Spsc α p)
  rw [Spsc.tryPush_turns _ _ rfl] at reached
  obtain ⟨seenRead',seenWrite',after⟩ := linked.steps reached
  refine ⟨popped,seenRead',seenWrite',?_⟩
  by_cases room : held.length < p.capacity.size
  · rw [if_pos (flag.mpr room),List.append_assoc] at after
    rw [if_pos room]
    exact after
  · rw [if_neg (mt flag.mp room)] at after
    rw [if_neg room]
    exact after

private theorem tryPop_none (popped : q.tryPop.1 = none) : q.readIdx = q.writeIdx := by
  unfold SpscQueue.tryPop dequeue at popped
  dsimp only at popped
  split at popped
  next =>
    split at popped
    next same => exact same
    next => simp at popped
  next => simp at popped

private theorem Holds.tryPop (holds : Holds origin q held) :
    q.tryPop.1 = held.head? ∧ Holds origin q.tryPop.2 held.tail := by
  have empty := holds.empty_iff
  obtain ⟨popped,seenRead,seenWrite,linked⟩ := holds
  have reached := Spsc.turns_reach [.callPop,.pop,.pop,.pop,.pop]
    (⟨q,none,none,popped ++ held,popped⟩ : Spsc α p)
  rw [Spsc.tryPop_turns _ rfl] at reached
  obtain ⟨seenRead',seenWrite',after⟩ := linked.steps reached
  cases out : q.tryPop.1 with
  | none =>
    rw [out,Option.toList_none,List.append_nil] at after
    have nothing := empty.mp (tryPop_none out)
    rw [nothing] at after ⊢
    exact ⟨rfl,popped,seenRead',seenWrite',after⟩
  | some value =>
    rw [out,Option.toList_some] at after
    obtain ⟨rest,whole⟩ := after.fifo
    dsimp only at whole
    rw [List.append_assoc,List.append_cancel_left_eq,List.singleton_append] at whole
    rw [← whole] at after ⊢
    refine ⟨rfl,popped ++ [value],seenRead',seenWrite',?_⟩
    rw [List.append_assoc]
    exact after

theorem Holds.empty (holds : Holds origin q held) : q.empty = held.isEmpty := by
  have nothing := holds.empty_iff
  rw [SpscQueue.empty,Bool.eq_iff_iff,decide_eq_true_iff,List.isEmpty_iff]
  exact nothing

theorem respond_alike (origin : UInt64) :
    Alike (respond (α := α) (p := p)) (boundedQueue p.capacity.size) (Holds origin) := by
  intro q held holds call
  cases call with
  | tryPush value =>
    have flag := holds.pushes_iff value
    have after := holds.tryPush value
    unfold boundedQueue
    by_cases room : held.length < p.capacity.size
    · rw [if_pos room] at after
      exact ⟨.pushed true,_,_,by rw [respond,flag.mpr room],by simp only [if_pos room],after⟩
    · rw [if_neg room] at after
      have refused : (q.tryPush value).1 = false := Bool.eq_false_iff.mpr (mt flag.mp room)
      exact ⟨.pushed false,_,_,by rw [respond,refused],by simp only [if_neg room],after⟩
  | tryPop =>
    obtain ⟨out,after⟩ := holds.tryPop
    exact ⟨.popped held.head?,_,_,by rw [respond,out],rfl,after⟩
  | empty => exact ⟨.empty held.isEmpty,_,_,by rw [respond,holds.empty],rfl,holds⟩

end SpscQueue

namespace AlignedQueue
variable {α : Type} {p : PowerOfTwo} {origin : UInt64} {q : AlignedQueue α p} {held : List α}

/-- The plain ring is the cached one with both copies refreshed before every call. -/
def cached (q : AlignedQueue α p) : SpscQueue α p := ⟨q.writeIdx,q.readIdx,q.readIdx,q.writeIdx,q.buffer⟩

def ofCached (q : SpscQueue α p) : AlignedQueue α p := ⟨q.writeIdx,q.readIdx,q.buffer⟩

private theorem tryPush_cached (q : AlignedQueue α p) (value : α) :
    q.tryPush value = Prod.map id ofCached (q.cached.tryPush value) := by
  unfold tryPush SpscQueue.tryPush cached SpscQueue.full
  simp only [decide_eq_true_eq]
  split <;> rfl

private theorem tryPop_cached (q : AlignedQueue α p) : q.tryPop = Prod.map id ofCached q.cached.tryPop := by
  unfold tryPop SpscQueue.tryPop cached
  dsimp only
  split <;> rfl

def Holds (origin : UInt64) (q : AlignedQueue α p) (held : List α) : Prop := q.cached.Holds origin held

private theorem Holds.of_cached {cachedQueue : SpscQueue α p} (holds : cachedQueue.Holds origin held) :
    Holds origin (ofCached cachedQueue) held := holds.refresh

private theorem respond_cached (q : AlignedQueue α p) (call : RingCall α) :
    q.respond call = (q.cached.respond call).map (Prod.map id ofCached) := by
  cases call with
  | tryPush value =>
    rw [respond,tryPush_cached]
    rfl
  | tryPop =>
    rw [respond,tryPop_cached]
    rfl
  | empty => rfl

theorem respond_alike (origin : UInt64) :
    Alike (respond (α := α) (p := p)) (boundedQueue p.capacity.size) (Holds origin) := by
  intro q held holds call
  obtain ⟨reply,after,held',replied,expected,kept⟩ := SpscQueue.respond_alike origin _ held holds call
  refine ⟨reply,ofCached after,held',?_,expected,.of_cached kept⟩
  rw [respond_cached,replied]
  rfl

end AlignedQueue

/-- Both rings give the replies of a bounded queue to every list of calls, wherever their
indexes start; after it a push fails exactly when the ring is full and a pop exactly
when nothing is held. -/
theorem cached_ring_agrees {α : Type} [Inhabited α] (p : PowerOfTwo) (origin : UInt64)
    (calls : List (RingCall α)) :
    ∃ replies q plain held,
      converse SpscQueue.respond calls (SpscQueue.create α p origin) = some (replies,q) ∧
      converse AlignedQueue.respond calls (AlignedQueue.create α p origin) = some (replies,plain) ∧
      converse (boundedQueue p.capacity.size) calls [] = some (replies,held) ∧
      (∀ value, ((q.tryPush value).1 = false ↔ held.length = p.capacity.size) ∧
        ((plain.tryPush value).1 = false ↔ held.length = p.capacity.size)) ∧
      (q.tryPop.1 = none ↔ held = []) ∧ (plain.tryPop.1 = none ↔ held = []) := by
  obtain ⟨replies,q,held,ran,expected,holds⟩ :=
    (SpscQueue.respond_alike origin).converse calls (SpscQueue.Holds.create p origin)
  obtain ⟨replies',plain,held',ran',expected',holds'⟩ :=
    (AlignedQueue.respond_alike origin).converse calls
      (AlignedQueue.Holds.of_cached (SpscQueue.Holds.create p origin))
  rw [expected] at expected'
  simp only [Option.some.injEq,Prod.mk.injEq] at expected'
  obtain ⟨rfl,rfl⟩ := expected'
  have most := holds.length_le
  refine ⟨replies,q,plain,held,ran,ran',expected,?_,?_,?_⟩
  · intro value
    have flag := holds.pushes_iff value
    have flag' : (plain.tryPush value).1 = true ↔ held.length < p.capacity.size := by
      rw [AlignedQueue.tryPush_cached]
      exact SpscQueue.Holds.pushes_iff holds' value
    rw [← Bool.not_eq_true,← Bool.not_eq_true,flag,flag']
    omega
  · rw [holds.tryPop.1]
    exact List.head?_eq_none_iff
  · rw [AlignedQueue.tryPop_cached]
    change plain.cached.tryPop.1 = none ↔ _
    rw [(SpscQueue.Holds.tryPop holds').1]
    exact List.head?_eq_none_iff

end Llte
