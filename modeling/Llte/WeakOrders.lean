import Llte.WeakRuns

/-! Which of the memory orders are needed. With any of the four accesses that cross from
one side to the other relaxed, there is a run that fills the ring and ends in a data race. -/
namespace Llte
open Foundation

namespace WeakRing
variable {α : Type} {p : PowerOfTwo} {orders : Orders} {origin : UInt64} {k : Nat} {s : WeakRing α p}

def bottom : View Party Word := (fun _ => 0,fun _ => 0)

/-- Nothing but `k` pushes have happened. -/
structure Filling (orders : Orders) (origin : UInt64) (k : Nat) (s : WeakRing α p) : Prop where
  idle : s.producer = none ∧ s.consumer = none ∧ s.finished = false ∧ s.engine = .pop
  cached : s.cachedReadIdx = origin ∧ s.cachedWriteIdx = origin
  reads : s.memory.history .readIdx = [⟨origin,bottom⟩]
  writes : (s.memory.history .writeIdx).length = k+1
  last : ∃ message, (s.memory.history .writeIdx)[k]? = some message ∧ message.value = counted origin k ∧
    (orders.storeWrite = .relaxed → message.view = bottom) ∧
    (orders.storeWrite = .release → (s.memory.view .producer).1 .producer ≤ message.view.1 .producer)
  producer : (s.memory.view .producer).2 .writeIdx ≤ k ∧ (s.memory.view .producer).2 .readIdx = 0 ∧
    (s.memory.view .producer).1 .consumer = 0
  consumer : s.memory.view .consumer = bottom
  cells : ∀ name, (∀ u, (s.memory.cells name).read u = 0) ∧ (s.memory.cells name).wrote .consumer = 0 ∧
    (s.memory.cells name).wrote .producer ≤ (s.memory.view .producer).1 .producer
  marked : 0 < k → 0 < (s.memory.cells (slot p origin)).wrote .producer

theorem Filling.create [Inhabited α] (orders : Orders) : Filling orders origin 0 (create α p origin) where
  idle := ⟨rfl,rfl,rfl,rfl⟩
  cached := ⟨rfl,rfl⟩
  reads := rfl
  writes := rfl
  last := ⟨_,rfl,(counted_zero origin).symm,fun _ => rfl,fun _ => Nat.le_refl _⟩
  producer := ⟨Nat.le_refl _,rfl,rfl⟩
  consumer := rfl
  cells _ := ⟨fun _ => rfl,rfl,Nat.le_refl _⟩
  marked := by simp

theorem Filling.full (filling : Filling orders origin k s) (bound : k ≤ p.capacity.size) :
    full p (counted origin k) s.cachedReadIdx = decide (p.capacity.size ≤ k) := by
  have small := p.capacity.bound
  have apart : (counted origin k - counted origin 0).toNat = k - 0 := counted_sub (Nat.zero_le _) (by omega)
  rw [counted_zero] at apart
  rw [WeakRing.full,filling.cached.1,apart]
  rfl

/-- One more push; the producer learns nothing from it. -/
theorem Filling.push (filling : Filling orders origin k s) (room : k < p.capacity.size) (value : α) :
    ∃ s', Reached (move orders) s s' ∧ Filling orders origin (k+1) s' := by
  obtain ⟨message,found,index,_⟩ := filling.last
  obtain ⟨idle,reading,busy,engine⟩ := filling.idle
  have notFull := filling.full (Nat.le_of_lt room)
  rw [decide_eq_false (by omega)] at notFull
  obtain ⟨unread,own,wrote⟩ := filling.cells (slot p (counted origin k))
  have load := Memory.load_eq .relaxed found filling.producer.1
  rw [index] at load
  let view := (s.memory.view .producer).pass .writeIdx k
  let cell : Cell Party α := {s.memory.cells (slot p (counted origin k)) with
    value := value
    wrote := Function.update (s.memory.cells (slot p (counted origin k))).wrote .producer (view.1 .producer+1)}
  have copy : (s.memory.setView .producer view).writeCell .producer (slot p (counted origin k)) value =
      some ((s.memory.setView .producer view).access .producer (slot p (counted origin k)) cell) := by
    rw [Memory.writeCell,if_pos]
    · simp [cell,view,Memory.setView]
    · intro u
      rw [Memory.setView_self]
      cases u with
      | producer => exact ⟨wrote,by rw [Memory.setView,unread]; exact Nat.zero_le _⟩
      | consumer => exact ⟨by rw [Memory.setView,own]; exact Nat.zero_le _,by rw [Memory.setView,unread]; exact Nat.zero_le _⟩
  have played : play (move orders) [.callPush value,.push k,.push 0,.push 0] s = some {s with
      memory := ((s.memory.setView .producer view).access .producer (slot p (counted origin k)) cell).store
        .producer .writeIdx orders.storeWrite (counted origin k+1)
      producer := none
      published := s.published ++ [value]} := by
    simp [play,move,WeakRing.push,idle,busy,load,notFull,copy,view,LoadOrder.take]
  have length := filling.writes
  refine ⟨_,play_reached played,⟨rfl,reading,busy,engine⟩,filling.cached,?_,?_,?_,?_,?_,?_,?_⟩
  · simp [Memory.store,Memory.access,Memory.setView,filling.reads]
  · simp [Memory.store,Memory.access,Memory.setView,length]
  · refine ⟨⟨counted origin k+1,orders.storeWrite.hand (((view.tick .producer)).pass .writeIdx (k+1))⟩,?_,(counted_succ origin k).symm,?_,?_⟩
    · simp [Memory.store,Memory.access,Memory.setView,length]
    · intro relaxed
      rw [relaxed]
      rfl
    · intro released
      simp [released,StoreOrder.hand,Memory.store,Memory.access,Memory.setView,View.pass]
  · simp [Memory.store,Memory.access,Memory.setView,View.pass,View.tick,length,filling.producer,view]
  · simp [Memory.store,Memory.access,Memory.setView,filling.consumer]
  · intro name
    change (∀ u, (Function.update s.memory.cells (slot p (counted origin k)) cell name).read u = 0) ∧
      (Function.update s.memory.cells (slot p (counted origin k)) cell name).wrote .consumer = 0 ∧
      (Function.update s.memory.cells (slot p (counted origin k)) cell name).wrote .producer ≤ _
    have clock : (((Memory.store ((s.memory.setView .producer view).access .producer (slot p (counted origin k)) cell)
        .producer .writeIdx orders.storeWrite (counted origin k+1)).view .producer).1 .producer) =
        (s.memory.view .producer).1 .producer+1 := by
      simp [Memory.store,Memory.access,Memory.setView,View.pass,View.tick,view]
    rw [clock]
    by_cases here : name = slot p (counted origin k)
    · rw [here,Function.update_self]
      exact ⟨unread,own,by simp [cell,view,View.pass]⟩
    · rw [Function.update_of_ne here]
      obtain ⟨unread,own,wrote⟩ := filling.cells name
      exact ⟨unread,own,by omega⟩
  · intro _
    change 0 < (Function.update s.memory.cells (slot p (counted origin k)) cell (slot p origin)).wrote .producer
    by_cases here : slot p origin = slot p (counted origin k)
    · rw [here,Function.update_self]
      simp [cell]
    · rw [Function.update_of_ne here]
      refine filling.marked (Nat.pos_of_ne_zero fun none => here ?_)
      rw [none,counted_zero]

theorem filled [Inhabited α] (orders : Orders) (origin : UInt64) {k : Nat} (room : k ≤ p.capacity.size) :
    ∃ s : WeakRing α p, Reached (move orders) (create α p origin) s ∧ Filling orders origin k s := by
  induction k with
  | zero => exact ⟨_,.refl,.create orders⟩
  | succ k ih =>
    obtain ⟨s,reached,filling⟩ := ih (by omega)
    obtain ⟨s',further,filling'⟩ := filling.push (by omega) default
    exact ⟨s',reached.trans further,filling'⟩

private theorem counted_ne (origin : UInt64) {k : Nat} (some_ : 0 < k) (bound : k < 2^64) : origin ≠ counted origin k := by
  intro same
  have apart : (counted origin k - counted origin 0).toNat = k - 0 := counted_sub (Nat.zero_le _) (by omega)
  rw [counted_zero,← same,UInt64.sub_self,UInt64.toNat_zero] at apart
  omega

/-- The consumer takes up the last write index and is about to copy the first slot. -/
structure Taking (orders : Orders) (origin : UInt64) (k : Nat) (s : WeakRing α p) : Prop where
  reading : s.consumer = some (.copy origin)
  idle : s.producer = none ∧ s.finished = false
  cached : s.cachedReadIdx = origin
  reads : s.memory.history .readIdx = [⟨origin,bottom⟩]
  last : ∃ message, (s.memory.history .writeIdx)[k]? = some message ∧ message.value = counted origin k
  producer : (s.memory.view .producer).2 .writeIdx ≤ k ∧ (s.memory.view .producer).2 .readIdx = 0 ∧
    (s.memory.view .producer).1 .consumer = 0
  marked : 0 < (s.memory.cells (slot p origin)).wrote .producer
  own : (s.memory.cells (slot p origin)).wrote .consumer = 0
  ignorant : orders.storeWrite = .relaxed ∨ orders.loadWrite = .relaxed → (s.memory.view .consumer).1 .producer = 0
  informed : orders.storeWrite = .release → orders.loadWrite = .acquire →
    (s.memory.cells (slot p origin)).wrote .producer ≤ (s.memory.view .consumer).1 .producer

theorem Filling.pop (filling : Filling orders origin k s) (some_ : 0 < k) (bound : k ≤ p.capacity.size) :
    ∃ s', Reached (move orders) s s' ∧ Taking orders origin k s' := by
  obtain ⟨message,found,index,hidden,handed⟩ := filling.last
  obtain ⟨idle,reading,busy,engine⟩ := filling.idle
  have small := p.capacity.bound
  have unknown := filling.consumer
  have first : (s.memory.history .readIdx)[0]? = some ⟨origin,bottom⟩ := by rw [filling.reads]; rfl
  let m₁ := s.memory.setView .consumer ((s.memory.view .consumer).pass .readIdx 0)
  have loadRead : s.memory.load .consumer .readIdx .relaxed 0 = some (origin,m₁) :=
    Memory.load_eq .relaxed first (by rw [unknown]; exact Nat.le_refl _)
  have loadWrite := Memory.load_eq (m := m₁) (t := .consumer) orders.loadWrite found
    (by simp [m₁,unknown,View.pass,bottom])
  rw [index] at loadWrite
  have apart : origin ≠ counted origin k := counted_ne origin some_ (by omega)
  have played : play (move orders) [.callPop,.pop 0,.pop k] s = some {s with
      memory := m₁.setView .consumer (orders.loadWrite.take ((m₁.view .consumer).pass .writeIdx k) message.view)
      cachedWriteIdx := counted origin k
      consumer := some (.copy origin)} := by
    change m₁.load .consumer .writeIdx orders.loadWrite k = _ at loadWrite
    simp [play,move,WeakRing.pop,engine,reading,loadRead,filling.cached.2,loadWrite,apart]
  refine ⟨_,play_reached played,rfl,⟨idle,busy⟩,filling.cached.1,?_,⟨message,found,index⟩,?_,
    filling.marked some_,(filling.cells _).2.1,?_,?_⟩
  · exact filling.reads
  · simpa [m₁,Memory.setView] using filling.producer
  · rintro (relaxed | relaxed)
    · cases order : orders.loadWrite <;>
        simp [m₁,Memory.setView,LoadOrder.take,hidden relaxed,unknown,View.pass,bottom]
    · simp [m₁,Memory.setView,LoadOrder.take,relaxed,unknown,View.pass,bottom]
  · intro released acquired
    have wrote := (filling.cells (slot p origin)).2.2
    have known := handed released
    simp only [acquired,LoadOrder.take,Memory.setView_self]
    exact (wrote.trans known).trans le_sup_right

private theorem Taking.racy (taking : Taking orders origin k s)
    (weak : orders.storeWrite = .relaxed ∨ orders.loadWrite = .relaxed) : s.Racy := by
  refine .inr ⟨origin,taking.reading,Memory.readCell_eq_none.mpr ⟨.producer,?_⟩⟩
  rw [taking.ignorant weak]
  exact taking.marked

/-- The consumer gives the first slot back, and the producer of a full ring takes it, told
of it by a read index that carries nothing. -/
theorem Taking.reuse (taking : Taking orders origin p.capacity.size s) (released : orders.storeWrite = .release)
    (acquired : orders.loadWrite = .acquire) (weak : orders.storeRead = .relaxed ∨ orders.loadRead = .relaxed) :
    ∃ s', Reached (move orders) s s' ∧ s'.Racy := by
  obtain ⟨message,found,index⟩ := taking.last
  obtain ⟨idle,busy⟩ := taking.idle
  have small := p.capacity.bound
  have pos := p.capacity.pos
  let cell : Cell Party α := {s.memory.cells (slot p origin) with
    read := Function.update (s.memory.cells (slot p origin)).read .consumer ((s.memory.view .consumer).1 .consumer+1)}
  let out := (s.memory.cells (slot p origin)).value
  have fetch : s.memory.readCell .consumer (slot p origin) =
      some (out,s.memory.access .consumer (slot p origin) cell) := by
    rw [Memory.readCell,if_pos]
    intro u
    cases u with
    | producer => exact taking.informed released acquired
    | consumer => rw [taking.own]; exact Nat.zero_le _
  let m₂ := (s.memory.access .consumer (slot p origin) cell).store .consumer .readIdx orders.storeRead (origin+1)
  have producer : m₂.view .producer = s.memory.view .producer := by
    simp [m₂,Memory.store,Memory.access,Memory.setView]
  have found₂ : (m₂.history .writeIdx)[p.capacity.size]? = some message := by
    simpa [m₂,Memory.store,Memory.access,Memory.setView] using found
  let m₃ := m₂.setView .producer ((m₂.view .producer).pass .writeIdx p.capacity.size)
  have load : m₂.load .producer .writeIdx .relaxed p.capacity.size = some (counted origin p.capacity.size,m₃) := by
    rw [← index]
    exact Memory.load_eq .relaxed found₂ (by rw [producer]; exact taking.producer.1)
  let view := (((s.memory.view .consumer).tick .consumer).pass .readIdx 1)
  have freed : (m₃.history .readIdx)[1]? = some ⟨origin+1,orders.storeRead.hand view⟩ := by
    simp [m₃,m₂,Memory.store,Memory.access,Memory.setView,taking.reads,view]
  let m₄ := m₃.setView .producer (orders.loadRead.take ((m₃.view .producer).pass .readIdx 1)
    (orders.storeRead.hand view))
  have reload : m₃.load .producer .readIdx orders.loadRead 1 = some (origin+1,m₄) :=
    Memory.load_eq orders.loadRead freed (by simp [m₃,producer,View.pass,taking.producer.2.1])
  have isFull : full p (counted origin p.capacity.size) origin = true := by
    have apart : (counted origin p.capacity.size - counted origin 0).toNat = p.capacity.size - 0 :=
      counted_sub (Nat.zero_le _) (by omega)
    rw [counted_zero] at apart
    simp [full,apart]
  have notFull : full p (counted origin p.capacity.size) (origin+1) = false := by
    have apart : (counted origin p.capacity.size - counted origin 1).toNat = p.capacity.size - 1 :=
      counted_sub pos (by omega)
    rw [counted_succ,counted_zero] at apart
    simp only [full,apart,decide_eq_false_iff_not]
    omega
  have played : play (move orders) [.pop 0,.pop 0,.callPush out,.push p.capacity.size,.push 1] s = some {s with
      memory := m₄
      cachedReadIdx := origin+1
      producer := some (.copy out (counted origin p.capacity.size))
      consumer := none
      popped := s.popped ++ [out]} := by
    have stored : (s.memory.access .consumer (slot p origin) cell).store .consumer .readIdx orders.storeRead
      (origin+1) = m₂ := rfl
    simp [play,move,WeakRing.pop,WeakRing.push,taking.reading,fetch,stored,idle,busy,load,taking.cached,isFull,
      reload,notFull]
  refine ⟨_,play_reached played,.inl ⟨out,_,rfl,(Memory.writeCell_eq_none _).mpr ⟨.consumer,.inr ?_⟩⟩⟩
  have same : slot p (counted origin p.capacity.size) = slot p origin := by
    rw [slot,slot,p.counted_mask,p.and_mask,Nat.add_mod_right]
  have unaware : (m₄.view .producer).1 .consumer = 0 := by
    have before : (m₃.view .producer).1 .consumer = 0 := by
      simp [m₃,View.pass,producer,taking.producer.2.2]
    rw [Memory.setView_self]
    rcases weak with relaxed | relaxed <;> rw [relaxed]
    · cases orders.loadRead <;> simp [LoadOrder.take,StoreOrder.hand,View.pass,before]
    · exact before
  rw [unaware,same]
  simp [m₄,m₃,m₂,Memory.store,Memory.access,Memory.setView,cell]

/-- The four orders of the source are what is needed, at every capacity: with them no run
races, and with any one of them relaxed some run does. -/
theorem race_free_iff_orders (α : Type) [Inhabited α] (p : PowerOfTwo) (origin : UInt64) (orders : Orders) :
    (∀ s : WeakRing α p, Reached (move orders) (create α p origin) s → ¬ s.Racy) ↔ orders = .source := by
  constructor
  · intro safe
    obtain ⟨s,reached,filling⟩ := filled (α := α) orders origin (Nat.le_refl p.capacity.size)
    obtain ⟨s',further,taking⟩ := filling.pop p.capacity.pos (Nat.le_refl _)
    have passed := reached.trans further
    have write : orders.storeWrite = .release ∧ orders.loadWrite = .acquire := by
      have strong := fun weak => safe s' passed (taking.racy weak)
      cases store : orders.storeWrite <;> cases load : orders.loadWrite <;> simp_all
    have read : orders.loadRead = .acquire ∧ orders.storeRead = .release := by
      have strong (weak : orders.storeRead = .relaxed ∨ orders.loadRead = .relaxed) : False := by
        obtain ⟨s'',last,racy⟩ := taking.reuse write.1 write.2 weak
        exact safe s'' (passed.trans last) racy
      cases store : orders.storeRead <;> cases load : orders.loadRead <;> simp_all
    cases orders
    simp_all [Orders.source]
  · rintro rfl s reached
    obtain ⟨seenRead,seenWrite,ordered⟩ := reached_ordered reached
    exact ordered.not_racy

end WeakRing
end Llte
