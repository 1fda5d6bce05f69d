import Llte.Foundation.Machine
import Llte.Foundation.ReleaseAcquire
import Llte.Shutdown

/-! The ring and the end of the pipeline under the memory orders the code asks for. A load
of the other side's index, or of `producer_done`, may return an old value; the slots are
plain memory, where a race would be undefined behaviour. -/
namespace Llte
open Foundation

inductive Party where
  | producer
  | consumer
  deriving DecidableEq

instance : Fintype Party := ⟨{.producer,.consumer},fun t => by cases t <;> decide⟩

inductive Word where
  | writeIdx
  | readIdx
  | producerDone
  deriving DecidableEq

/-- The orders of the accesses that cross from one side to the other. -/
structure Orders where
  loadRead : LoadOrder
  storeWrite : StoreOrder
  loadWrite : LoadOrder
  storeRead : StoreOrder
  deriving DecidableEq

def Orders.source : Orders := ⟨.acquire,.release,.acquire,.release⟩

structure WeakRing (α : Type) (p : PowerOfTwo) where
  memory : Memory Party Word Nat UInt64 α
  cachedReadIdx : UInt64
  cachedWriteIdx : UInt64
  producer : Option (Push α) := none
  consumer : Option (Pop α) := none
  finished : Bool := false
  engine : Consume := .pop
  published : List α := []
  popped : List α := []

/-- A load names the message it returns. -/
inductive WeakMove (α : Type) where
  | callPush (value : α)
  | push (index : Nat)
  | storeDone
  | callPop
  | pop (index : Nat)
  | loadDone (index : Nat)
  | loadRead (index : Nat)
  | loadWrite (index : Nat)

namespace WeakRing
variable {α : Type} {p : PowerOfTwo}

def create (α : Type) [Inhabited α] (p : PowerOfTwo) (origin : UInt64) : WeakRing α p where
  memory := .create (fun | .writeIdx => origin | .readIdx => origin | .producerDone => 0) fun _ => default
  cachedReadIdx := origin
  cachedWriteIdx := origin

def slot (p : PowerOfTwo) (index : UInt64) : Nat := (index &&& p.mask).toNat

def full (p : PowerOfTwo) (write cachedRead : UInt64) : Bool := p.capacity.size ≤ (write - cachedRead).toNat

/-- The next step of `try_push`. -/
def push (orders : Orders) (s : WeakRing α p) (index : Nat) : Push α → Option (WeakRing α p)
  | .load value =>
    match s.memory.load .producer .writeIdx .relaxed index with
    | none => none
    | some (write,memory) =>
      some {s with
        memory := memory
        producer := some (if full p write s.cachedReadIdx then .reload value write else .copy value write)}
  | .reload value write =>
    match s.memory.load .producer .readIdx orders.loadRead index with
    | none => none
    | some (read,memory) =>
      some {s with
        memory := memory
        cachedReadIdx := read
        producer := if full p write read then none else some (.copy value write)}
  | .copy value write =>
    match s.memory.writeCell .producer (slot p write) value with
    | none => none
    | some memory => some {s with memory := memory, producer := some (.publish value write)}
  | .publish value write =>
    some {s with
      memory := s.memory.store .producer .writeIdx orders.storeWrite (write+1)
      producer := none
      published := s.published ++ [value]}

/-- The next step of `try_pop`; a failed call goes on to look at the flag. -/
def pop (orders : Orders) (s : WeakRing α p) (index : Nat) : Pop α → Option (WeakRing α p)
  | .load =>
    match s.memory.load .consumer .readIdx .relaxed index with
    | none => none
    | some (read,memory) =>
      some {s with
        memory := memory
        consumer := some (if read = s.cachedWriteIdx then .reload read else .copy read)}
  | .reload read =>
    match s.memory.load .consumer .writeIdx orders.loadWrite index with
    | none => none
    | some (write,memory) =>
      let s : WeakRing α p := {s with memory := memory, cachedWriteIdx := write}
      if read = write then some {s with consumer := none, engine := .flag}
      else some {s with consumer := some (.copy read)}
  | .copy read =>
    match s.memory.readCell .consumer (slot p read) with
    | none => none
    | some (out,memory) => some {s with memory := memory, consumer := some (.release read out)}
  | .release read out =>
    some {s with
      memory := s.memory.store .consumer .readIdx orders.storeRead (read+1)
      consumer := none
      popped := s.popped ++ [out]}

def move (orders : Orders) (s : WeakRing α p) : WeakMove α → Option (WeakRing α p)
  | .callPush value =>
    if s.producer.isNone ∧ s.finished = false then some {s with producer := some (.load value)} else none
  | .push index =>
    match s.producer with
    | none => none
    | some phase => s.push orders index phase
  | .storeDone =>
    if s.producer.isNone ∧ s.finished = false then
      some {s with memory := s.memory.store .producer .producerDone .release 1, finished := true}
    else none
  | .callPop =>
    if s.engine = .pop ∧ s.consumer.isNone then some {s with consumer := some .load} else none
  | .pop index =>
    match s.consumer with
    | none => none
    | some phase => s.pop orders index phase
  | .loadDone index =>
    if s.engine = .flag then
      match s.memory.load .consumer .producerDone .acquire index with
      | none => none
      | some (done,memory) => some {s with memory := memory, engine := if done = 1 then .empty else .pop}
    else none
  | .loadRead index =>
    match s.memory.load .consumer .readIdx .acquire index with
    | none => none
    | some (read,memory) =>
      match s.engine with
      | .empty => some {s with memory := memory, engine := .emptyWrite read}
      | .emptyRead write => some {s with memory := memory, engine := Shutdown.decideBreak read write}
      | _ => none
  | .loadWrite index =>
    match s.memory.load .consumer .writeIdx .acquire index with
    | none => none
    | some (write,memory) =>
      match s.engine with
      | .empty => some {s with memory := memory, engine := .emptyRead write}
      | .emptyWrite read => some {s with memory := memory, engine := Shutdown.decideBreak read write}
      | _ => none

/-- Some side is about to touch a slot in a race with the other. -/
def Racy (s : WeakRing α p) : Prop :=
  (∃ value write, s.producer = some (.copy value write) ∧
    s.memory.writeCell .producer (slot p write) value = none) ∨
  (∃ read, s.consumer = some (.copy read) ∧ s.memory.readCell .consumer (slot p read) = none)

def place (p : PowerOfTwo) (origin : UInt64) (i : Nat) : Nat := (origin.toNat+i) % p.capacity.size

theorem slot_counted (p : PowerOfTwo) (origin : UInt64) (i : Nat) : slot p (counted origin i) = place p origin i :=
  p.counted_mask origin i

private theorem place_ne {origin : UInt64} {low i j : Nat} (iLow : low ≤ i) (iHigh : i < low+p.capacity.size)
    (jLow : low ≤ j) (jHigh : j < low+p.capacity.size) (apart : i ≠ j) : place p origin i ≠ place p origin j := by
  intro same
  have first : origin.toNat+low ≤ origin.toNat+i := by omega
  have equal := Ring.residue_inj first (by omega) (by omega) (by omega) same
  omega

/-- What the messages carry. Counting without wrapping as in `Linked`: whoever loads the
write index `j` knows of the copies into the slots below `j`, whoever loads the read index
`j` knows that the slots below `j+size` have been copied out. -/
structure Timed (p : PowerOfTwo) (origin : UInt64) (published popped seenRead seenWrite : Nat)
    (m : Memory Party Word Nat UInt64 α) : Prop where
  writes : (m.history .writeIdx).length = published+1
  reads : (m.history .readIdx).length = popped+1
  write : ∀ j message, (m.history .writeIdx)[j]? = some message → message.value = counted origin j ∧
    ∀ i, popped ≤ i → i < j → (m.cells (place p origin i)).wrote .producer ≤ message.view.1 .producer
  read : ∀ j message, (m.history .readIdx)[j]? = some message → message.value = counted origin j ∧
    ∀ i, published ≤ i → i < j+p.capacity.size →
      (m.cells (place p origin i)).read .consumer ≤ message.view.1 .consumer
  ownWrite : published ≤ (m.view .producer).2 .writeIdx
  ownRead : popped ≤ (m.view .consumer).2 .readIdx
  passedRead : seenRead ≤ (m.view .producer).2 .readIdx
  passedWrite : seenWrite ≤ (m.view .consumer).2 .writeIdx
  wrote : ∀ name, (m.cells name).wrote .consumer = 0 ∧
    (m.cells name).wrote .producer ≤ (m.view .producer).1 .producer
  took : ∀ name, (m.cells name).read .producer = 0 ∧
    (m.cells name).read .consumer ≤ (m.view .consumer).1 .consumer
  knownWrite : ∀ i, popped ≤ i → i < seenWrite →
    (m.cells (place p origin i)).wrote .producer ≤ (m.view .consumer).1 .producer
  knownRead : ∀ i, published ≤ i → i < seenRead+p.capacity.size →
    (m.cells (place p origin i)).read .consumer ≤ (m.view .producer).1 .consumer

namespace Timed
variable {origin : UInt64} {published popped seenRead seenWrite : Nat} {m m' : Memory Party Word Nat UInt64 α}

theorem create [Inhabited α] (p : PowerOfTwo) (origin : UInt64) :
    Timed p origin 0 0 0 0 (create α p origin).memory := by
  have start : origin = counted origin 0 := (counted_zero origin).symm
  refine ⟨rfl,rfl,?_,?_,Nat.zero_le _,Nat.zero_le _,Nat.zero_le _,Nat.zero_le _,
    fun _ => ⟨rfl,Nat.zero_le _⟩,fun _ => ⟨rfl,Nat.zero_le _⟩,fun _ _ _ => Nat.zero_le _,fun _ _ _ => Nat.zero_le _⟩
  all_goals
    intro j message found
    cases j with
    | zero =>
      rw [← Option.some.inj found]
      exact ⟨start,fun _ _ _ => Nat.zero_le _⟩
    | succ j => simp [WeakRing.create,Memory.create] at found

/-- An access that changes neither index and no slot only adds to what is known. -/
theorem grow (timed : Timed p origin published popped seenRead seenWrite m)
    (writes : m'.history .writeIdx = m.history .writeIdx) (reads : m'.history .readIdx = m.history .readIdx)
    (cells : m'.cells = m.cells) (grows : ∀ u, m.view u ≤ m'.view u) :
    Timed p origin published popped seenRead seenWrite m' where
  writes := by rw [writes,timed.writes]
  reads := by rw [reads,timed.reads]
  write := by rw [writes,cells]; exact timed.write
  read := by rw [reads,cells]; exact timed.read
  ownWrite := timed.ownWrite.trans ((grows _).2 _)
  ownRead := timed.ownRead.trans ((grows _).2 _)
  passedRead := timed.passedRead.trans ((grows _).2 _)
  passedWrite := timed.passedWrite.trans ((grows _).2 _)
  wrote name := by
    rw [cells]
    exact ⟨(timed.wrote name).1,(timed.wrote name).2.trans ((grows _).1 _)⟩
  took name := by
    rw [cells]
    exact ⟨(timed.took name).1,(timed.took name).2.trans ((grows _).1 _)⟩
  knownWrite i unread seen := by
    rw [cells]
    exact (timed.knownWrite i unread seen).trans ((grows _).1 _)
  knownRead i free seen := by
    rw [cells]
    exact (timed.knownRead i free seen).trans ((grows _).1 _)

theorem loaded (timed : Timed p origin published popped seenRead seenWrite m) {t : Party} {word : Word}
    {order : LoadOrder} {index : Nat} {value : UInt64} (loaded : m.Loaded t word order index value m') :
    Timed p origin published popped seenRead seenWrite m' :=
  timed.grow (by rw [loaded.history]) (by rw [loaded.history]) loaded.cells loaded.grows

theorem loadsOwnWrite (timed : Timed p origin published popped seenRead seenWrite m) {order : LoadOrder}
    {index : Nat} {value : UInt64} (loaded : m.Loaded .producer .writeIdx order index value m') :
    value = counted origin published := by
  obtain ⟨message,found,rfl,_⟩ := loaded.message
  rw [(timed.write index message found).1,loaded.last timed.writes timed.ownWrite]

theorem loadsOwnRead (timed : Timed p origin published popped seenRead seenWrite m) {order : LoadOrder}
    {index : Nat} {value : UInt64} (loaded : m.Loaded .consumer .readIdx order index value m') :
    value = counted origin popped := by
  obtain ⟨message,found,rfl,_⟩ := loaded.message
  rw [(timed.read index message found).1,loaded.last timed.reads timed.ownRead]

/-- However old the read index is that the producer gets, it is not older than the one it
had, and the slots it frees have been copied out for all the producer can tell. -/
theorem refreshRead (timed : Timed p origin published popped seenRead seenWrite m) {index : Nat} {value : UInt64}
    (loaded : m.Loaded .producer .readIdx .acquire index value m') :
    value = counted origin index ∧ seenRead ≤ index ∧ index ≤ popped ∧
      Timed p origin published popped index seenWrite m' := by
  obtain ⟨message,found,rfl,carries⟩ := loaded.message
  have inside := (List.getElem?_eq_some_iff.mp found).1
  rw [timed.reads] at inside
  refine ⟨(timed.read index message found).1,timed.passedRead.trans loaded.fresh,by omega,?_⟩
  refine {timed.loaded loaded with passedRead := loaded.passed, knownRead := ?_}
  intro i free seen
  rw [loaded.cells]
  exact ((timed.read index message found).2 i free seen).trans ((carries rfl).1 _)

theorem refreshWrite (timed : Timed p origin published popped seenRead seenWrite m) {index : Nat} {value : UInt64}
    (loaded : m.Loaded .consumer .writeIdx .acquire index value m') :
    value = counted origin index ∧ seenWrite ≤ index ∧ index ≤ published ∧
      Timed p origin published popped seenRead index m' := by
  obtain ⟨message,found,rfl,carries⟩ := loaded.message
  have inside := (List.getElem?_eq_some_iff.mp found).1
  rw [timed.writes] at inside
  refine ⟨(timed.write index message found).1,timed.passedWrite.trans loaded.fresh,by omega,?_⟩
  refine {timed.loaded loaded with passedWrite := loaded.passed, knownWrite := ?_}
  intro i unread seen
  rw [loaded.cells]
  exact ((timed.write index message found).2 i unread seen).trans ((carries rfl).1 _)

theorem writable (timed : Timed p origin published popped seenRead seenWrite m)
    (free : published < seenRead+p.capacity.size) (value : α) :
    m.writeCell .producer (place p origin published) value ≠ none := by
  rw [Ne,Memory.writeCell_eq_none]
  rintro ⟨u,late⟩
  have written := timed.wrote (place p origin published)
  have taken := timed.took (place p origin published)
  have known := timed.knownRead published (Nat.le_refl _) free
  cases u <;> omega

theorem readable (timed : Timed p origin published popped seenRead seenWrite m) (some_ : popped < seenWrite) :
    m.readCell .consumer (place p origin popped) ≠ none := by
  rw [Ne,Memory.readCell_eq_none]
  rintro ⟨u,late⟩
  have written := timed.wrote (place p origin popped)
  have known := timed.knownWrite popped (Nat.le_refl _) some_
  cases u <;> omega

/-- A plain access that is its own party's and keeps away from the slots the other side
may rely on. -/
theorem accessed (timed : Timed p origin published popped seenRead seenWrite m) (behind : seenRead ≤ popped)
    (known : seenWrite ≤ published) (history : m'.history = m.history) (grows : ∀ u, m.view u ≤ m'.view u)
    (wrote : ∀ name, (m'.cells name).wrote .consumer = 0 ∧
      (m'.cells name).wrote .producer ≤ (m'.view .producer).1 .producer)
    (took : ∀ name, (m'.cells name).read .producer = 0 ∧
      (m'.cells name).read .consumer ≤ (m'.view .consumer).1 .consumer)
    (unread : ∀ i, popped ≤ i → i < published →
      (m'.cells (place p origin i)).wrote = (m.cells (place p origin i)).wrote)
    (unwritten : ∀ i, published ≤ i → i < popped+p.capacity.size →
      (m'.cells (place p origin i)).read = (m.cells (place p origin i)).read) :
    Timed p origin published popped seenRead seenWrite m' := by
  refine ⟨by rw [history,timed.writes],by rw [history,timed.reads],?_,?_,timed.ownWrite.trans ((grows _).2 _),
    timed.ownRead.trans ((grows _).2 _),timed.passedRead.trans ((grows _).2 _),
    timed.passedWrite.trans ((grows _).2 _),wrote,took,?_,?_⟩
  · intro j message found
    rw [history] at found
    have inside := (List.getElem?_eq_some_iff.mp found).1
    rw [timed.writes] at inside
    refine ⟨(timed.write j message found).1,fun i low below => ?_⟩
    rw [unread i low (by omega)]
    exact (timed.write j message found).2 i low below
  · intro j message found
    rw [history] at found
    have inside := (List.getElem?_eq_some_iff.mp found).1
    rw [timed.reads] at inside
    refine ⟨(timed.read j message found).1,fun i low below => ?_⟩
    rw [unwritten i low (by omega)]
    exact (timed.read j message found).2 i low below
  · intro i low seen
    rw [unread i low (by omega)]
    exact (timed.knownWrite i low seen).trans ((grows _).1 _)
  · intro i low seen
    rw [unwritten i low (by omega)]
    exact (timed.knownRead i low seen).trans ((grows _).1 _)

theorem copied (timed : Timed p origin published popped seenRead seenWrite m) (behind : seenRead ≤ popped)
    (known : seenWrite ≤ published) (ahead : popped ≤ published) (free : published < popped+p.capacity.size)
    {value : α} (written : m.writeCell .producer (place p origin published) value = some m') :
    Timed p origin published popped seenRead seenWrite m' := by
  obtain ⟨history,grows,clock,own,cells⟩ := Memory.writeCell_writes written
  have here : m'.cells (place p origin published) = _ := (congrFun cells _).trans (Function.update_self _ _ _)
  have there (name : Nat) (apart : name ≠ place p origin published) : m'.cells name = m.cells name :=
    (congrFun cells _).trans (Function.update_of_ne apart _ _)
  refine timed.accessed behind known history grows ?_ ?_ ?_ ?_
  · intro name
    by_cases same : name = place p origin published
    · rw [same,here]
      exact ⟨(timed.wrote _).1,by simpa using own⟩
    · rw [there name same]
      exact ⟨(timed.wrote name).1,(timed.wrote name).2.trans ((grows _).1 _)⟩
  · intro name
    have reads : (m'.cells name).read = (m.cells name).read := by
      by_cases same : name = place p origin published
      · rw [same,here]
      · rw [there name same]
    rw [reads]
    exact ⟨(timed.took name).1,(timed.took name).2.trans ((grows _).1 _)⟩
  · intro i low high
    rw [there _ (place_ne low (by omega) ahead free (by omega))]
  · intro i low high
    by_cases same : place p origin i = place p origin published
    · rw [same,here]
    · rw [there _ same]

theorem fetched (timed : Timed p origin published popped seenRead seenWrite m) (behind : seenRead ≤ popped)
    (known : seenWrite ≤ published) (ahead : popped < published) {out : α}
    (read : m.readCell .consumer (place p origin popped) = some (out,m')) :
    Timed p origin published popped seenRead seenWrite m' := by
  obtain ⟨_,history,grows,clock,own,cells⟩ := Memory.readCell_reads read
  have here : m'.cells (place p origin popped) = _ := (congrFun cells _).trans (Function.update_self _ _ _)
  have there (name : Nat) (apart : name ≠ place p origin popped) : m'.cells name = m.cells name :=
    (congrFun cells _).trans (Function.update_of_ne apart _ _)
  refine timed.accessed behind known history grows ?_ ?_ ?_ ?_
  · intro name
    have writes : (m'.cells name).wrote = (m.cells name).wrote := by
      by_cases same : name = place p origin popped
      · rw [same,here]
      · rw [there name same]
    rw [writes]
    exact ⟨(timed.wrote name).1,(timed.wrote name).2.trans ((grows _).1 _)⟩
  · intro name
    by_cases same : name = place p origin popped
    · rw [same,here]
      exact ⟨(timed.took _).1,by simpa using own⟩
    · rw [there name same]
      exact ⟨(timed.took name).1,(timed.took name).2.trans ((grows _).1 _)⟩
  · intro i low high
    by_cases same : place p origin i = place p origin popped
    · rw [same,here]
    · rw [there _ same]
  · intro i low high
    have inside : popped < popped+p.capacity.size := by omega
    rw [there _ (place_ne (by omega) high (Nat.le_refl _) inside (by omega))]

theorem publish (timed : Timed p origin published popped seenRead seenWrite m)
    (stored : m.Stored .producer .writeIdx .release (counted origin published+1) m') :
    Timed p origin (published+1) popped seenRead seenWrite m' := by
  have reads := stored.others .readIdx (by decide)
  have kept : Timed p origin published popped seenRead seenWrite {m' with history := m.history} :=
    timed.grow rfl rfl stored.cells stored.grows
  refine {kept with
    writes := by rw [stored.length,timed.writes], reads := by rw [reads,timed.reads], write := ?_, read := ?_,
    ownWrite := timed.writes ▸ stored.passed, knownRead := fun i low seen => kept.knownRead i (by omega) seen}
  · intro j message found
    rw [stored.cells]
    rcases stored.get found with old | ⟨index,value,carries⟩
    · exact timed.write j message old
    · -- the new message knows all copies so far, the one into its own slot included
      refine ⟨by rw [value,index,timed.writes,counted_succ],fun i low below => ?_⟩
      exact (timed.wrote _).2.trans ((carries rfl).1 _)
  · intro j message found
    rw [reads] at found
    rw [stored.cells]
    exact ⟨(timed.read j message found).1,fun i low below => (timed.read j message found).2 i (by omega) below⟩

theorem release (timed : Timed p origin published popped seenRead seenWrite m)
    (stored : m.Stored .consumer .readIdx .release (counted origin popped+1) m') :
    Timed p origin published (popped+1) seenRead seenWrite m' := by
  have writes := stored.others .writeIdx (by decide)
  have kept : Timed p origin published popped seenRead seenWrite {m' with history := m.history} :=
    timed.grow rfl rfl stored.cells stored.grows
  refine {kept with
    writes := by rw [writes,timed.writes], reads := by rw [stored.length,timed.reads], write := ?_, read := ?_,
    ownRead := timed.reads ▸ stored.passed, knownWrite := fun i low seen => kept.knownWrite i (by omega) seen}
  · intro j message found
    rw [writes] at found
    rw [stored.cells]
    exact ⟨(timed.write j message found).1,fun i low below => (timed.write j message found).2 i (by omega) below⟩
  · intro j message found
    rw [stored.cells]
    rcases stored.get found with old | ⟨index,value,carries⟩
    · exact timed.read j message old
    · refine ⟨by rw [value,index,timed.reads,counted_succ],fun i low below => ?_⟩
      exact (timed.took _).2.trans ((carries rfl).1 _)

end Timed

end WeakRing
end Llte
