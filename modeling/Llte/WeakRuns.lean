import Llte.WeakRing

/-! Runs of the ring under the orders of the source: every state shows a ring that plain
memory could show as well, with clocks that rule out races. -/
namespace Llte
open Foundation

namespace WeakRing
variable {α : Type} {p : PowerOfTwo}

/-- The ring as plain memory would show it, with the indexes as their owners know them. -/
def plain (origin : UInt64) (s : WeakRing α p) : Spsc α p where
  queue := {
    writeIdx := counted origin s.published.length
    cachedReadIdx := s.cachedReadIdx
    readIdx := counted origin s.popped.length
    cachedWriteIdx := s.cachedWriteIdx
    buffer := ⟨Vector.ofFn fun i => (s.memory.cells i).value⟩}
  producer := s.producer
  consumer := s.consumer
  published := s.published
  popped := s.popped

/-- Nothing more is pushed, and the engine can load no older write index. -/
def Told (s : WeakRing α p) : Prop :=
  s.finished = true ∧ s.published.length ≤ (s.memory.view .consumer).2 .writeIdx

structure Ordered (origin : UInt64) (seenRead seenWrite : Nat) (s : WeakRing α p) : Prop where
  linked : (s.plain origin).Linked origin seenRead seenWrite
  timed : Timed p origin s.published.length s.popped.length seenRead seenWrite s.memory
  -- the flag carries the last write index
  flag : ∀ message ∈ s.memory.history .producerDone, message.value = 0 ∨
    s.finished = true ∧ s.published.length ≤ message.view.2 .writeIdx
  quiet : s.finished = true → s.producer = none
  knows : (s.plain origin).Knows s.Told s.engine

end WeakRing

namespace Spsc.Linked
variable {α : Type} {p : PowerOfTwo} {origin : UInt64} {seenRead seenWrite : Nat} {s : Spsc α p}

/-- An old read index serves as well, if it is not older than the cached one. -/
theorem recallRead (linked : Linked origin seenRead seenWrite s) {index : Nat} (fresh : seenRead ≤ index)
    (old : index ≤ s.popped.length) : Linked origin index seenWrite
      {s with queue := {s.queue with cachedReadIdx := counted origin index}, producer := none} := by
  have room := linked.room
  exact {linked with cachedRead := rfl, behind := old, room := by dsimp only; omega, producing := trivial}

private theorem recallWrite (linked : Linked origin seenRead seenWrite s) {index : Nat} (fresh : seenWrite ≤ index)
    (old : index ≤ s.published.length) : Linked origin seenRead index
      {s with queue := {s.queue with cachedWriteIdx := counted origin index}, consumer := none} := by
  have ahead := linked.ahead
  exact {linked with cachedWrite := rfl, ahead := by dsimp only; omega, known := old, consuming := trivial}

private theorem copiedOut (linked : Linked origin seenRead seenWrite s) {read : UInt64} (own : read = s.queue.readIdx)
    (some_ : s.popped.length < seenWrite) : Linked origin seenRead seenWrite
      {s with consumer := some (.release read (s.queue.buffer.get (read &&& p.mask).toNat))} := by
  have known := linked.known
  have inside : s.popped.length < s.published.length := by omega
  have found := List.getElem?_eq_getElem inside
  refine {linked with consuming := ⟨own,some_,?_⟩}
  dsimp only
  rw [own,linked.read,p.counted_mask,Ring.get_residue,linked.held _ _ (Nat.le_refl _) found]
  exact found

end Spsc.Linked

namespace WeakRing
variable {α : Type} {p : PowerOfTwo} {origin : UInt64} {seenRead seenWrite : Nat} {s s' : WeakRing α p}

private theorem slot_lt (p : PowerOfTwo) (index : UInt64) : slot p index < p.capacity.size := by
  rw [slot,p.and_mask]
  exact Nat.mod_lt _ p.capacity.pos

private theorem plain_get (s : WeakRing α p) (index : UInt64) :
    (s.plain origin).queue.buffer.get (index &&& p.mask).toNat = (s.memory.cells (slot p index)).value := by
  have inside := slot_lt p index
  simp only [plain,Ring.get,Vector.getElem_ofFn]
  rw [← slot,Nat.mod_eq_of_lt inside]

private theorem plain_put {m m' : Memory Party Word Nat UInt64 α} {index : UInt64} {value : α}
    (written : m.writeCell .producer (slot p index) value = some m') :
    (⟨Vector.ofFn fun i => (m'.cells i).value⟩ : Ring α p.capacity) =
      (⟨Vector.ofFn fun i => (m.cells i).value⟩ : Ring α p.capacity).put (index &&& p.mask).toNat value := by
  obtain ⟨_,_,clock,_,cells⟩ := Memory.writeCell_writes written
  have inside := slot_lt p index
  refine congrArg Foundation.Ring.mk (Vector.ext fun i bound => ?_)
  simp only [Vector.getElem_ofFn,Vector.getElem_set]
  rw [← slot,Nat.mod_eq_of_lt inside,cells]
  by_cases here : i = slot p index
  · rw [here,Function.update_self,if_pos rfl]
  · rw [Function.update_of_ne here,if_neg (Ne.symm here)]

private theorem knows_keep {phase : Consume} (knows : (s.plain origin).Knows s.Told phase) (consumer : s'.consumer = s.consumer)
    (same : s'.popped = s.popped ∧ s'.published = s.published) (finished : s.finished = true → s'.finished = true)
    (grows : s.memory.view .consumer ≤ s'.memory.view .consumer) : (s'.plain origin).Knows s'.Told phase := by
  obtain ⟨popped,published⟩ := same
  refine knows.keep consumer fun ⟨done,passed⟩ => ⟨⟨finished done,?_⟩,?_,?_,popped,published⟩
  · rw [published]
    exact passed.trans (grows.2 _)
  · simp only [plain,popped]
  · simp only [plain,published]

namespace Ordered

theorem create [Inhabited α] (p : PowerOfTwo) (origin : UInt64) : Ordered origin 0 0 (create α p origin) := by
  have ring : (WeakRing.create α p origin).plain origin = Spsc.create α p origin := by
    simp only [plain,WeakRing.create,Memory.create,Spsc.create,SpscQueue.create,List.length_nil,counted_zero]
    congr
    exact Vector.ext fun i bound => by rw [Vector.getElem_ofFn,Vector.getElem_replicate]
  refine ⟨ring ▸ .create p origin,.create p origin,?_,by simp [WeakRing.create],trivial⟩
  intro message first
  rw [List.mem_singleton.mp first]
  exact .inl rfl

/-- A step of the producer leaves the consumer alone. -/
theorem pushed (ordered : Ordered origin seenRead seenWrite s) (busy : s.finished = false) {seenRead' : Nat}
    (linked : (s'.plain origin).Linked origin seenRead' seenWrite)
    (timed : Timed p origin s'.published.length s'.popped.length seenRead' seenWrite s'.memory)
    (done : s'.memory.history .producerDone = s.memory.history .producerDone)
    (same : s'.consumer = s.consumer ∧ s'.finished = s.finished ∧ s'.engine = s.engine) :
    Ordered origin seenRead' seenWrite s' := by
  obtain ⟨consumer,finished,engine⟩ := same
  refine ⟨linked,timed,?_,by simp [finished,busy],?_⟩
  · rw [done]
    intro message stored
    exact .inl ((ordered.flag message stored).resolve_right (by simp [busy]))
  · rw [engine]
    exact ordered.knows.early (by simp [Told,busy]) consumer

theorem busy (ordered : Ordered origin seenRead seenWrite s) {phase : Push α} (running : s.producer = some phase) :
    s.finished = false := by
  by_contra finished
  simp [ordered.quiet (by simpa using finished)] at running

private theorem pushLoad (ordered : Ordered origin seenRead seenWrite s) {index : Nat} {value : α}
    (running : s.producer = some (.load value)) (taken : s.push .source index (.load value) = some s') :
    ∃ seenRead', Ordered origin seenRead' seenWrite s' := by
  have linked := ordered.linked
  have timed := ordered.timed
  simp only [WeakRing.push] at taken
  split at taken
  next => simp at taken
  next write memory load =>
    have loaded := Memory.load_loaded load
    have own := timed.loadsOwnWrite loaded
    refine ⟨seenRead,?_⟩
    rw [← Option.some.inj taken]
    refine ordered.pushed (ordered.busy running) ?_ (timed.loaded loaded) (by rw [loaded.history]) ⟨rfl,rfl,rfl⟩
    have ring (phase : Push α) : plain origin {s with memory := memory, producer := some phase} =
        {s.plain origin with producer := some phase} := by
      simp only [plain,loaded.cells]
    rw [ring]
    have law := linked.full_iff
    change WeakRing.full p (counted origin s.published.length) s.cachedReadIdx = true ↔ _ at law
    rw [own]
    split
    next => exact {linked with producing := rfl}
    next room =>
      rw [law] at room
      exact {linked with producing := ⟨rfl,by dsimp only [plain] at *; omega⟩}

private theorem pushReload (ordered : Ordered origin seenRead seenWrite s) {index : Nat} {value : α} {write : UInt64}
    (running : s.producer = some (.reload value write)) (taken : s.push .source index (.reload value write) = some s') :
    ∃ seenRead', Ordered origin seenRead' seenWrite s' := by
  have linked := ordered.linked
  have standing : Spsc.Producing origin seenRead (s.plain origin) s.producer := linked.producing
  rw [running] at standing
  have own : write = counted origin s.published.length := standing
  simp only [WeakRing.push] at taken
  split at taken
  next => simp at taken
  next read memory load =>
    have loaded := Memory.load_loaded load
    obtain ⟨value,fresh,old,timed'⟩ := ordered.timed.refreshRead loaded
    refine ⟨index,?_⟩
    rw [← Option.some.inj taken]
    refine ordered.pushed (ordered.busy running) ?_ timed' (by rw [loaded.history]) ⟨rfl,rfl,rfl⟩
    have refreshed := linked.recallRead fresh old
    have ring (phase : Option (Push α)) :
        plain origin {s with memory := memory, cachedReadIdx := read, producer := phase} =
        {s.plain origin with
          queue := {(s.plain origin).queue with cachedReadIdx := counted origin index}
          producer := phase} := by
      simp only [plain,loaded.cells,value]
    rw [ring]
    have law := refreshed.full_iff
    change WeakRing.full p (counted origin s.published.length) (counted origin index) = true ↔ _ at law
    rw [value,own]
    split
    next => exact refreshed
    next room =>
      rw [law] at room
      exact {refreshed with producing := ⟨rfl,by dsimp only [plain] at *; omega⟩}

private theorem pushCopy (ordered : Ordered origin seenRead seenWrite s) {index : Nat} {value : α} {write : UInt64}
    (running : s.producer = some (.copy value write)) (taken : s.push .source index (.copy value write) = some s') :
    ∃ seenRead', Ordered origin seenRead' seenWrite s' := by
  have linked := ordered.linked
  have standing : Spsc.Producing origin seenRead (s.plain origin) s.producer := linked.producing
  rw [running] at standing
  have own : write = counted origin s.published.length := standing.1
  have free : s.published.length < seenRead+p.capacity.size := standing.2
  simp only [WeakRing.push] at taken
  split at taken
  next => simp at taken
  next memory written =>
    refine ⟨seenRead,?_⟩
    rw [← Option.some.inj taken]
    have ring : plain origin {s with memory := memory, producer := some (.publish value write)} =
        {s.plain origin with
          queue := {(s.plain origin).queue with
            buffer := (s.plain origin).queue.buffer.put (write &&& p.mask).toNat value}
          producer := some (.publish value write)} := by
      simp only [plain,plain_put written]
    have linked' := linked.copied value write standing.1 standing.2
    rw [← ring] at linked'
    rw [own,slot_counted] at written
    obtain ⟨history,_⟩ := Memory.writeCell_writes written
    have behind := linked.behind
    exact ordered.pushed (ordered.busy running) linked'
      (ordered.timed.copied behind linked.known linked.fifo.length_le (by dsimp only [plain] at *; omega) written)
      (by rw [history]) ⟨rfl,rfl,rfl⟩

private theorem pushPublish (ordered : Ordered origin seenRead seenWrite s) {index : Nat} {value : α} {write : UInt64}
    (running : s.producer = some (.publish value write)) (taken : s.push .source index (.publish value write) = some s') :
    ∃ seenRead', Ordered origin seenRead' seenWrite s' := by
  have linked := ordered.linked
  have standing : Spsc.Producing origin seenRead (s.plain origin) s.producer := linked.producing
  rw [running] at standing
  have own : write = counted origin s.published.length := standing.1
  refine ⟨seenRead,?_⟩
  simp only [WeakRing.push,Orders.source] at taken
  rw [← Option.some.inj taken]
  have stored := s.memory.store_stored .producer .writeIdx .release (write+1)
  have linked' := linked.published value write standing.1 standing.2.1 standing.2.2
  have next : write+1 = counted origin (s.published ++ [value]).length := by
    rw [List.length_append,List.length_singleton,counted_succ,own]
  rw [next] at linked' stored ⊢
  refine ordered.pushed (ordered.busy running) linked' ?_ (stored.others _ (by decide)) ⟨rfl,rfl,rfl⟩
  rw [← next,own] at stored
  rw [List.length_append,List.length_singleton,counted_succ]
  exact ordered.timed.publish stored

theorem push (ordered : Ordered origin seenRead seenWrite s) {index : Nat} {phase : Push α}
    (running : s.producer = some phase) (taken : s.push .source index phase = some s') :
    ∃ seenRead', Ordered origin seenRead' seenWrite s' := by
  cases phase with
  | load value => exact ordered.pushLoad running taken
  | reload value write => exact ordered.pushReload running taken
  | copy value write => exact ordered.pushCopy running taken
  | publish value write => exact ordered.pushPublish running taken

/-- A step of the consumer leaves the producer and the flag alone. -/
theorem popping (ordered : Ordered origin seenRead seenWrite s) {seenWrite' : Nat}
    (linked : (s'.plain origin).Linked origin seenRead seenWrite')
    (timed : Timed p origin s'.published.length s'.popped.length seenRead seenWrite' s'.memory)
    (done : s'.memory.history .producerDone = s.memory.history .producerDone)
    (same : s'.producer = s.producer ∧ s'.published = s.published ∧ s'.finished = s.finished)
    (knows : (s'.plain origin).Knows s'.Told s'.engine) : Ordered origin seenRead seenWrite' s' := by
  obtain ⟨producer,published,finished⟩ := same
  refine ⟨linked,timed,?_,?_,knows⟩
  · rw [done,finished,published]
    exact ordered.flag
  · rw [finished,producer]
    exact ordered.quiet

/-- Inside a call of `try_pop` the engine is at the head of its loop. -/
theorem calling (ordered : Ordered origin seenRead seenWrite s) {phase : Pop α} (running : s.consumer = some phase)
    (same : s'.engine = s.engine) : (s'.plain origin).Knows s'.Told s'.engine := by
  have here : s.engine = .pop := ordered.knows.waiting.resolve_right (by simp [plain,running])
  rw [same,here]
  trivial

private theorem popLoad (ordered : Ordered origin seenRead seenWrite s) {index : Nat}
    (running : s.consumer = some .load) (taken : s.pop .source index .load = some s') :
    ∃ seenWrite', Ordered origin seenRead seenWrite' s' := by
  have linked := ordered.linked
  simp only [WeakRing.pop] at taken
  split at taken
  next => simp at taken
  next read memory load =>
    have loaded := Memory.load_loaded load
    have own := ordered.timed.loadsOwnRead loaded
    refine ⟨seenWrite,?_⟩
    rw [← Option.some.inj taken]
    refine ordered.popping ?_ (ordered.timed.loaded loaded) (by rw [loaded.history]) ⟨rfl,rfl,rfl⟩
      (ordered.calling running rfl)
    have ring (phase : Pop α) : plain origin {s with memory := memory, consumer := some phase} =
        {s.plain origin with consumer := some phase} := by
      simp only [plain,loaded.cells]
    rw [ring,own]
    split
    next => exact {linked with consuming := rfl}
    next apart =>
      have cached : s.cachedWriteIdx = counted origin seenWrite := linked.cachedWrite
      have some_ : s.popped.length ≠ seenWrite := fun same => apart (by rw [cached,same])
      exact {linked with consuming := ⟨rfl,Nat.lt_of_le_of_ne linked.ahead some_⟩}

private theorem popReload (ordered : Ordered origin seenRead seenWrite s) {index : Nat} {read : UInt64}
    (running : s.consumer = some (.reload read)) (taken : s.pop .source index (.reload read) = some s') :
    ∃ seenWrite', Ordered origin seenRead seenWrite' s' := by
  have linked := ordered.linked
  have standing : Spsc.Consuming seenWrite (s.plain origin) s.consumer := linked.consuming
  rw [running] at standing
  have own : read = counted origin s.popped.length := standing
  simp only [WeakRing.pop] at taken
  split at taken
  next => simp at taken
  next write memory load =>
    have loaded := Memory.load_loaded load
    obtain ⟨value,fresh,old,timed'⟩ := ordered.timed.refreshWrite loaded
    refine ⟨index,?_⟩
    have refreshed := linked.recallWrite fresh old
    have ring (phase : Option (Pop α)) (engine : Consume) :
        plain origin {s with memory := memory, cachedWriteIdx := write, consumer := phase, engine := engine} =
        {s.plain origin with
          queue := {(s.plain origin).queue with cachedWriteIdx := counted origin index}
          consumer := phase} := by
      simp only [plain,loaded.cells,value]
    split at taken
    next =>
      rw [← Option.some.inj taken]
      refine ordered.popping ?_ timed' (by rw [loaded.history]) ⟨rfl,rfl,rfl⟩ rfl
      rw [ring]
      exact refreshed
    next apart =>
      rw [← Option.some.inj taken]
      refine ordered.popping ?_ timed' (by rw [loaded.history]) ⟨rfl,rfl,rfl⟩ (ordered.calling running rfl)
      rw [ring]
      have some_ : s.popped.length ≠ index := fun same => apart (by rw [own,value,same])
      exact {refreshed with consuming := ⟨own,Nat.lt_of_le_of_ne refreshed.ahead some_⟩}

private theorem popCopy (ordered : Ordered origin seenRead seenWrite s) {index : Nat} {read : UInt64}
    (running : s.consumer = some (.copy read)) (taken : s.pop .source index (.copy read) = some s') :
    ∃ seenWrite', Ordered origin seenRead seenWrite' s' := by
  have linked := ordered.linked
  have known := linked.known
  have standing : Spsc.Consuming seenWrite (s.plain origin) s.consumer := linked.consuming
  rw [running] at standing
  have own : read = counted origin s.popped.length := standing.1
  have some_ : s.popped.length < seenWrite := standing.2
  simp only [WeakRing.pop] at taken
  split at taken
  next => simp at taken
  next out memory fetched =>
    refine ⟨seenWrite,?_⟩
    rw [← Option.some.inj taken]
    obtain ⟨value,history,grows,clock,_,cells⟩ := Memory.readCell_reads fetched
    have values (i : Nat) : (memory.cells i).value = (s.memory.cells i).value := by
      rw [cells]
      by_cases there : i = slot p read
      · rw [there,Function.update_self]
      · rw [Function.update_of_ne there]
    have ring : plain origin {s with memory := memory, consumer := some (.release read out)} =
        {s.plain origin with consumer := some (.release read
          ((s.plain origin).queue.buffer.get (read &&& p.mask).toNat))} := by
      rw [plain_get,← value]
      simp only [plain,values]
    have linked' := linked.copiedOut standing.1 standing.2
    rw [← ring] at linked'
    rw [own,slot_counted] at fetched
    exact ordered.popping linked' (ordered.timed.fetched linked.behind known (Nat.lt_of_lt_of_le some_ known) fetched)
      (by rw [history]) ⟨rfl,rfl,rfl⟩ (ordered.calling running rfl)

private theorem popRelease (ordered : Ordered origin seenRead seenWrite s) {index : Nat} {read : UInt64} {out : α}
    (running : s.consumer = some (.release read out)) (taken : s.pop .source index (.release read out) = some s') :
    ∃ seenWrite', Ordered origin seenRead seenWrite' s' := by
  have linked := ordered.linked
  have standing : Spsc.Consuming seenWrite (s.plain origin) s.consumer := linked.consuming
  rw [running] at standing
  have own : read = counted origin s.popped.length := standing.1
  refine ⟨seenWrite,?_⟩
  simp only [WeakRing.pop,Orders.source] at taken
  rw [← Option.some.inj taken]
  have stored := s.memory.store_stored .consumer .readIdx .release (read+1)
  have linked' := linked.popped read out standing.1 standing.2.1 standing.2.2
  have next : read+1 = counted origin (s.popped ++ [out]).length := by
    rw [List.length_append,List.length_singleton,counted_succ,own]
  rw [next] at linked' stored ⊢
  refine ordered.popping linked' ?_ (stored.others _ (by decide)) ⟨rfl,rfl,rfl⟩ (ordered.calling running rfl)
  rw [← next,own] at stored
  rw [List.length_append,List.length_singleton,counted_succ]
  exact ordered.timed.release stored

theorem pop (ordered : Ordered origin seenRead seenWrite s) {index : Nat} {phase : Pop α}
    (running : s.consumer = some phase) (taken : s.pop .source index phase = some s') :
    ∃ seenWrite', Ordered origin seenRead seenWrite' s' := by
  cases phase with
  | load => exact ordered.popLoad running taken
  | reload read => exact ordered.popReload running taken
  | copy read => exact ordered.popCopy running taken
  | release read out => exact ordered.popRelease running taken

/-- A load that only moves the engine on. -/
theorem look (ordered : Ordered origin seenRead seenWrite s) {word : Word} {index : Nat} {value : UInt64}
    {memory : Memory Party Word Nat UInt64 α} (loaded : s.memory.Loaded .consumer word .acquire index value memory)
    {phase : Consume} (knows : (s.plain origin).Knows s.Told phase) :
    Ordered (p := p) origin seenRead seenWrite {s with memory := memory, engine := phase} := by
  refine ordered.popping ?_ (ordered.timed.loaded loaded) (by rw [loaded.history]) ⟨rfl,rfl,rfl⟩
    (knows_keep knows rfl ⟨rfl,rfl⟩ (fun finished => finished) (loaded.grows _))
  have ring : plain (p := p) origin {s with memory := memory, engine := phase} = s.plain origin := by
    simp only [plain,loaded.cells]
  rw [ring]
  exact ordered.linked

theorem storeDone (ordered : Ordered origin seenRead seenWrite s) (idle : s.producer = none) :
    Ordered (p := p) origin seenRead seenWrite
      {s with memory := s.memory.store .producer .producerDone .release 1, finished := true} := by
  have stored := s.memory.store_stored .producer .producerDone .release 1
  have timed := ordered.timed
  have kept := timed.grow (stored.others .writeIdx (by decide)) (stored.others .readIdx (by decide)) stored.cells
    stored.grows
  refine ⟨ordered.linked,kept,?_,fun _ => idle,?_⟩
  · intro message found
    obtain ⟨j,found⟩ := List.mem_iff_getElem?.mp found
    rcases stored.get found with old | ⟨_,_,carries⟩
    · exact (ordered.flag message (List.mem_of_getElem? old)).imp_right fun known => ⟨rfl,known.2⟩
    · exact .inr ⟨rfl,timed.ownWrite.trans ((carries rfl).2 _)⟩
  · exact knows_keep ordered.knows rfl ⟨rfl,rfl⟩ (fun _ => rfl) (stored.grows _)

theorem loadDone (ordered : Ordered origin seenRead seenWrite s) (here : s.engine = .flag) {index : Nat}
    {done : UInt64} {memory : Memory Party Word Nat UInt64 α}
    (loaded : s.memory.Loaded .consumer .producerDone .acquire index done memory) :
    Ordered (p := p) origin seenRead seenWrite
      {s with memory := memory, engine := if done = 1 then .empty else .pop} := by
  have knows := ordered.knows
  rw [here] at knows
  -- the load itself is what tells the engine
  have after : Ordered (p := p) origin seenRead seenWrite {s with memory := memory, engine := .flag} :=
    ordered.look loaded knows
  refine {after with knows := ?_}
  obtain ⟨message,found,value,carries⟩ := loaded.message
  dsimp only
  split
  next set =>
    rcases ordered.flag message (List.mem_of_getElem? found) with zero | ⟨finished,last⟩
    · rw [← value,zero] at set
      exact absurd set (by decide)
    · exact ⟨knows,finished,last.trans ((carries rfl).2 _)⟩
  next => trivial

theorem loadRead (ordered : Ordered origin seenRead seenWrite s) {index : Nat}
    (taken : s.move .source (.loadRead index) = some s') : Ordered origin seenRead seenWrite s' := by
  have knows := ordered.knows
  simp only [WeakRing.move] at taken
  split at taken
  next => simp at taken
  next read memory load =>
    have loaded := Memory.load_loaded load
    have own := ordered.timed.loadsOwnRead loaded
    split at taken
    next here =>
      rw [here] at knows
      rw [← Option.some.inj taken]
      exact ordered.look loaded ⟨knows.1,knows.2,own⟩
    next write here =>
      rw [here] at knows
      rw [← Option.some.inj taken]
      exact ordered.look loaded (ordered.linked.decides knows.1 knows.2.1 own knows.2.2)
    next => simp at taken

theorem loadWrite (ordered : Ordered origin seenRead seenWrite s) {index : Nat}
    (taken : s.move .source (.loadWrite index) = some s') : Ordered origin seenRead seenWrite s' := by
  have knows := ordered.knows
  simp only [WeakRing.move] at taken
  split at taken
  next => simp at taken
  next write memory load =>
    have loaded := Memory.load_loaded load
    -- once the flag has been seen, no older write index can be loaded
    have last (told : s.Told) : write = counted origin s.published.length := by
      rw [(ordered.timed.refreshWrite loaded).1,loaded.last ordered.timed.writes told.2]
    split at taken
    next here =>
      rw [here] at knows
      rw [← Option.some.inj taken]
      exact ordered.look loaded ⟨knows.1,knows.2,last knows.2⟩
    next read here =>
      rw [here] at knows
      rw [← Option.some.inj taken]
      exact ordered.look loaded (ordered.linked.decides knows.1 knows.2.1 knows.2.2 (last knows.2.1))
    next => simp at taken

theorem move (ordered : Ordered origin seenRead seenWrite s) {m : WeakMove α}
    (taken : s.move .source m = some s') : ∃ seenRead' seenWrite', Ordered origin seenRead' seenWrite' s' := by
  cases m with
  | callPush value =>
    rw [WeakRing.move,Option.ite_none_right_eq_some] at taken
    obtain ⟨⟨idle,busy⟩,taken⟩ := taken
    rw [← Option.some.inj taken]
    refine ⟨seenRead,seenWrite,{ordered with
      linked := {ordered.linked with producing := trivial}, quiet := by simp [busy]
      knows := ordered.knows.early (by simp [Told,busy]) rfl}⟩
  | push index =>
    cases running : s.producer with
    | none => simp [WeakRing.move,running] at taken
    | some phase =>
      simp only [WeakRing.move,running] at taken
      obtain ⟨seenRead',after⟩ := ordered.push running taken
      exact ⟨seenRead',seenWrite,after⟩
  | storeDone =>
    rw [WeakRing.move,Option.ite_none_right_eq_some] at taken
    rw [← Option.some.inj taken.2]
    exact ⟨seenRead,seenWrite,ordered.storeDone (Option.isNone_iff_eq_none.mp taken.1.1)⟩
  | callPop =>
    rw [WeakRing.move,Option.ite_none_right_eq_some] at taken
    obtain ⟨⟨here,idle⟩,taken⟩ := taken
    rw [← Option.some.inj taken]
    refine ⟨seenRead,seenWrite,{ordered with linked := {ordered.linked with consuming := trivial}, knows := ?_}⟩
    rw [here]
    trivial
  | pop index =>
    cases running : s.consumer with
    | none => simp [WeakRing.move,running] at taken
    | some phase =>
      simp only [WeakRing.move,running] at taken
      obtain ⟨seenWrite',after⟩ := ordered.pop running taken
      exact ⟨seenRead,seenWrite',after⟩
  | loadDone index =>
    rw [WeakRing.move,Option.ite_none_right_eq_some] at taken
    obtain ⟨here,taken⟩ := taken
    split at taken
    next => simp at taken
    next done memory load =>
      rw [← Option.some.inj taken]
      exact ⟨seenRead,seenWrite,ordered.loadDone here (Memory.load_loaded load)⟩
  | loadRead index => exact ⟨seenRead,seenWrite,ordered.loadRead taken⟩
  | loadWrite index => exact ⟨seenRead,seenWrite,ordered.loadWrite taken⟩

theorem not_racy (ordered : Ordered origin seenRead seenWrite s) : ¬ s.Racy := by
  have producing := ordered.linked.producing
  have consuming := ordered.linked.consuming
  rintro (⟨value,write,writing,race⟩ | ⟨read,reading,race⟩)
  · change Spsc.Producing origin seenRead (s.plain origin) s.producer at producing
    rw [writing] at producing
    have own : write = counted origin s.published.length := producing.1
    rw [own,slot_counted] at race
    exact ordered.timed.writable producing.2 value race
  · change Spsc.Consuming seenWrite (s.plain origin) s.consumer at consuming
    rw [reading] at consuming
    have own : read = counted origin s.popped.length := consuming.1
    rw [own,slot_counted] at race
    exact ordered.timed.readable consuming.2 race

end Ordered

theorem reached_ordered [Inhabited α] (reached : Reached (move .source) (create α p origin) s) :
    ∃ seenRead seenWrite, Ordered origin seenRead seenWrite s :=
  reached.invariant (I := fun s => ∃ seenRead seenWrite, Ordered origin seenRead seenWrite s)
    ⟨0,0,.create p origin⟩ fun _ _ _ ⟨_,_,ordered⟩ taken => ordered.move taken

/-- With the orders of the source no access to a slot is ever a data race, whatever old
values the loads return, and what was popped is a beginning of what was published. -/
theorem weak_ring_race_free [Inhabited α] (p : PowerOfTwo) (origin : UInt64) (s : WeakRing α p)
    (reached : Reached (move .source) (create α p origin) s) :
    ¬ s.Racy ∧ s.popped <+: s.published ∧ s.published.length ≤ s.popped.length+p.capacity.size := by
  obtain ⟨seenRead,seenWrite,ordered⟩ := reached_ordered reached
  exact ⟨ordered.not_racy,ordered.linked.fifo,ordered.linked.distance.2⟩

/-- The consumer's first look returns the old write index, and the pop fails although the
value is there; the second finds it, and the producer is about to reuse the slot. -/
theorem weak_ring_race_free_old : ∃ s : WeakRing Nat HandlerProcess.one,
    Reached (move .source) (create Nat HandlerProcess.one 0) s ∧
    (s.popped = [7] ∧ s.published = [7] ∧ s.producer = some (.copy 8 1)) ∧ ¬ s.Racy := by
  obtain ⟨s,reached,here⟩ := play_finds (move .source) (create Nat HandlerProcess.one 0)
    [.callPush 7,.push 0,.push 0,.push 0,.callPop,.pop 0,.pop 0,.loadDone 0,.callPop,.pop 0,.pop 1,.pop 0,.pop 0,
      .callPush 8,.push 1,.push 1]
    (fun s => s.popped = [7] ∧ s.published = [7] ∧ s.producer = some (.copy 8 1)) (by decide +kernel)
  exact ⟨s,reached,here,(weak_ring_race_free _ _ s reached).1⟩

/-- The engine that has seen the flag cannot miss the last event: the release store of
`producer_done` hands on the last write index. -/
theorem weak_shutdown_drains [Inhabited α] (p : PowerOfTwo) (origin : UInt64) (s : WeakRing α p)
    (reached : Reached (move .source) (create α p origin) s) (left : s.engine = .broken) :
    s.finished = true ∧ s.popped = s.published := by
  obtain ⟨seenRead,seenWrite,ordered⟩ := reached_ordered reached
  have knows := ordered.knows
  rw [left] at knows
  exact ⟨knows.2.1.1,knows.2.2⟩

theorem weak_shutdown_drains_late : ∃ s : WeakRing Nat HandlerProcess.one,
    Reached (move .source) (create Nat HandlerProcess.one 0) s ∧ s.engine = .broken ∧ s.published = [7] ∧
      s.popped = s.published := by
  obtain ⟨s,reached,left,here⟩ := play_finds (move .source) (create Nat HandlerProcess.one 0)
    [.callPush 7,.push 0,.push 0,.push 0,.storeDone,.callPop,.pop 0,.pop 0,.loadDone 1,.loadRead 0,.loadWrite 1,
      .callPop,.pop 0,.pop 1,.pop 0,.pop 0,.callPop,.pop 1,.pop 1,.loadDone 1,.loadWrite 1,.loadRead 1]
    (fun s => s.engine = .broken ∧ s.published = [7]) (by decide +kernel)
  exact ⟨s,reached,left,here,(weak_shutdown_drains _ _ s reached left).2⟩

end WeakRing
end Llte
