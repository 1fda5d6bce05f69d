import Llte.FanIn
import Mathlib.Algebra.BigOperators.Fin
import Mathlib.Algebra.Order.BigOperators.Group.Finset

/-! Where the items of the fan-in are. Each producer's items stand, in their order, first
downstream, then in the sequencer's hand, then in the producer's own ring; what is missing
there was given up and is counted. -/
namespace Llte
open Foundation

namespace Spsc
variable {α : Type} {p : PowerOfTwo}

/-- A step of `push_bounded` for the value it was called with. -/
inductive Bounded (s : Spsc Item p) (item : Item) : Spsc Item p → Attempt → Prop where
  | again {s' : Spsc Item p} {phase : Push Item} (spins : UInt64) (running : s'.producer = some phase)
      (same : phase.value = item) (published : s'.published = s.published) : Bounded s item s' (.again spins)
  | accepted {s' : Spsc Item p} (idle : s'.producer = none) (published : s'.published = s.published ++ [item]) :
      Bounded s item s' .accepted
  | stalled {s' : Spsc Item p} (idle : s'.producer = none) (published : s'.published = s.published) :
      Bounded s item s' .stalled

private theorem pushBounded_bounded {s s' : Spsc Item p} {deadline clock spins : UInt64} {attempt : Attempt}
    {phase : Push Item} (running : s.producer = some phase)
    (taken : s.pushBounded deadline clock spins = some (s',attempt)) :
    Bounded s phase.value s' attempt ∧ s'.popped = s.popped ∧ s'.consumer = s.consumer ∧
      ∀ {origin seenRead seenWrite}, s.Linked origin seenRead seenWrite →
        ∃ seenRead', s'.Linked origin seenRead' seenWrite := by
  have frame := s.push_consumer phase
  simp only [pushBounded,running] at taken
  split at taken
  next next stays =>
    obtain ⟨goes,published⟩ := s.push_stays phase next stays
    cases taken
    exact ⟨.again spins goes (Push.step_value _ _ _ stays) published,frame.2,frame.1,
      fun linked => linked.push phase running⟩
  next returned =>
    obtain ⟨idle,published⟩ := s.push_returns phase true returned
    cases taken
    exact ⟨.accepted idle published,frame.2,frame.1,fun linked => linked.push phase running⟩
  next returned =>
    obtain ⟨idle,published⟩ := s.push_returns phase false returned
    split at taken
    next =>
      cases taken
      exact ⟨.stalled idle published,frame.2,frame.1,fun linked => linked.push phase running⟩
    next =>
      cases taken
      refine ⟨.again _ rfl rfl published,frame.2,frame.1,fun linked => ?_⟩
      obtain ⟨seenRead',after⟩ := linked.push phase running
      exact ⟨seenRead',{after with producing := trivial}⟩

end Spsc

/-- One party of many changes its count. -/
theorem sum_moved {n : Nat} {f g : Fin n → Nat} (id : Fin n) {gain : Nat} (others : ∀ j, j ≠ id → g j = f j)
    (here : g id = f id+gain) : ∑ j, g j = ∑ j, f j+gain := by
  have changed : g = Function.update f id (f id+gain) := by
    funext j
    by_cases same : j = id
    · rw [same,here,Function.update_self]
    · rw [others j same,Function.update_of_ne same]
  rw [changed,Finset.sum_update_of_mem (Finset.mem_univ id),
    Finset.sum_eq_add_sum_sdiff_singleton_of_mem (Finset.mem_univ id) f]
  omega

namespace FanIn
variable {n : Nat} {p : PowerOfTwo}

/-- The first `k` items of a producer. -/
def items (id : Fin n) (k : Nat) : List Item := (List.range k).map fun j => .of (idOf id) (UInt64.ofNat j)

/-- What the sequencer has taken out and not yet passed on or given up. -/
def hand (s : FanIn n p) : List Item :=
  match s.sequencer with
  | .forward _ item _ => [item]
  | .stall _ item => [item]
  | _ => []

/-- The items of one producer that are on their way or have arrived. -/
def flow (s : FanIn n p) (id : Fin n) : List Item :=
  (s.downstream.published ++ s.hand).filter (·.producer = idOf id) ++ (s.inbound id).rest

def Standing (perProducer : UInt64) (ring : Spsc Item p) (id : Fin n) (source : Source) : Prop :=
  match source.control with
  | .loop => ring.producer = none ∧ source.i ≤ perProducer
  | .push _ => (∃ phase, ring.producer = some phase ∧ phase.value = .of (idOf id) source.i) ∧ source.i < perProducer
  | .stall => ring.producer = none ∧ source.i < perProducer
  | .returned => ring.producer = none ∧ source.i = perProducer

def Returned (s : FanIn n p) : Prop := ∀ id, (s.producers id).control = .returned

def Drained (s : FanIn n p) (k : Nat) : Prop := ∀ id : Fin n, id.val < k → (s.inbound id).rest = []

/-- What holds where the sequencer is. -/
def Sequenced (s : FanIn n p) : Sequencing → Prop
  | .scan _ _ => s.downstream.producer = none
  | .forward _ item _ => ∃ phase, s.downstream.producer = some phase ∧ phase.value = item
  | .stall _ _ => s.downstream.producer = none
  | .drain k drained => s.downstream.producer = none ∧ s.Returned ∧ (drained = true → s.Drained k)
  | .drainWrite k read => s.downstream.producer = none ∧ s.Returned ∧ s.Drained k ∧
    ∀ inside, read = (s.inbound ⟨k,inside⟩).queue.readIdx
  | .drainRead k write => s.downstream.producer = none ∧ s.Returned ∧ s.Drained k ∧
    ∀ inside, write = (s.inbound ⟨k,inside⟩).queue.writeIdx
  | .store => s.downstream.producer = none ∧ s.Returned ∧ s.Drained n
  | .returned => s.downstream.producer = none ∧ s.Returned ∧ s.Drained n

structure Flowing (perProducer : UInt64) (lost : Nat) (s : FanIn n p) : Prop where
  inbound : ∀ id, ∃ seenRead seenWrite, (s.inbound id).Linked 0 seenRead seenWrite
  downstream : ∃ seenRead seenWrite, s.downstream.Linked 0 seenRead seenWrite
  flow : ∀ id, (s.flow id).Sublist (items id (s.producers id).i.toNat)
  account : ∑ id, (s.producers id).i.toNat = ∑ id, (s.flow id).length+lost
  stalled : s.stalled = UInt64.ofNat lost
  known : ∀ item ∈ s.downstream.published ++ s.hand, ∃ id : Fin n, item.producer = idOf id
  standing : ∀ id, Standing perProducer (s.inbound id) id (s.producers id)
  finished : s.finished = ∑ id, if (s.producers id).control = .returned then 1 else 0
  sequenced : s.Sequenced s.sequencer
  done : s.sequencerDone = true → s.sequencer = .returned
  knows : s.downstream.Knows (s.sequencer = .returned) s.consumer
  verified : s.verifier = s.downstream.popped.foldl Verifier.check (.create n)

private theorem next_le {i bound : UInt64} (below : i < bound) : i+1 ≤ bound := by
  rw [UInt64.le_iff_toNat_le,succ_toNat_of_lt below]
  exact UInt64.lt_iff_toNat_lt.mp below

private theorem items_next (id : Fin n) {i bound : UInt64} (below : i < bound) :
    items id (i+1).toNat = items id i.toNat ++ [.of (idOf id) i] := by
  simp [items,succ_toNat_of_lt below,List.range_succ]

variable {perProducer deadline clock : UInt64} {lost : Nat} {s s' : FanIn n p}

/-- While a producer is still running the sequencer has not begun to look for the end. -/
theorem Sequenced.running {phase : Sequencing} (sequenced : s.Sequenced phase) (busy : ¬ s.Returned)
    (same : s'.downstream = s.downstream) : s'.Sequenced phase := by
  cases phase with
  | scan k moved =>
    rw [Sequenced,same]
    exact sequenced
  | forward k item spins =>
    rw [Sequenced,same]
    exact sequenced
  | stall k item =>
    rw [Sequenced,same]
    exact sequenced
  | drain k drained => exact absurd sequenced.2.1 busy
  | drainWrite k read => exact absurd sequenced.2.1 busy
  | drainRead k write => exact absurd sequenced.2.1 busy
  | store => exact absurd sequenced.2.1 busy
  | returned => exact absurd sequenced.2.1 busy

private theorem setInbound_inbound (s : FanIn n p) (id : Fin n) (ring : Spsc Item p) (j : Fin n) :
    (s.setInbound id ring).inbound j = if j = id then ring else s.inbound j := Function.update_apply _ _ _ _

private theorem setInbound_own {id : Fin n} {ring : Spsc Item p} (own : ring.producer = (s.inbound id).producer) (j : Fin n) :
    ((s.setInbound id ring).inbound j).producer = (s.inbound j).producer := by
  rw [setInbound_inbound]
  split
  next here => rw [own,here]
  next => rfl

private theorem idOf_inj (few : n < 2^31) {id j : Fin n} (same : idOf id = idOf j) : id = j := by
  have equal := congrArg UInt64.toNat same
  rw [idOf,idOf,UInt64.toNat_ofNat',UInt64.toNat_ofNat',Nat.mod_eq_of_lt (by omega),Nat.mod_eq_of_lt (by omega)] at equal
  exact Fin.ext equal

private theorem mem_items {id : Fin n} {k : Nat} {item : Item} (there : item ∈ items id k) :
    ∃ j < k, item = .of (idOf id) (UInt64.ofNat j) := by
  simp only [items,List.mem_map,List.mem_range] at there
  obtain ⟨j,below,rfl⟩ := there
  exact ⟨j,below,rfl⟩

namespace Flowing

theorem create (perProducer : UInt64) (n : Nat) (p : PowerOfTwo) : Flowing perProducer 0 (create n p) where
  inbound _ := ⟨0,0,.create p 0⟩
  downstream := ⟨0,0,.create p 0⟩
  flow _ := List.nil_sublist _
  account := by simp [FanIn.create,FanIn.flow,hand,Spsc.create,Spsc.rest]
  stalled := rfl
  known := by simp [FanIn.create,hand,Spsc.create]
  standing _ := ⟨rfl,UInt64.zero_le⟩
  finished := by simp [FanIn.create]
  sequenced := rfl
  done := by simp [FanIn.create]
  knows := trivial
  verified := rfl

/-- A step of one producer: its counter passes the items `gained`, of which `extra` are in
its ring now. -/
theorem produced (flowing : Flowing perProducer lost s) {id : Fin n} {ring : Spsc Item p} {source : Source}
    (gained extra : List Item) {lost' : Nat} (busy : (s.producers id).control ≠ .returned)
    (inbound : s'.inbound = Function.update s.inbound id ring)
    (producers : s'.producers = Function.update s.producers id source)
    (linked : ∃ seenRead seenWrite, ring.Linked 0 seenRead seenWrite)
    (rest : ring.rest = (s.inbound id).rest ++ extra)
    (count : source.i.toNat = (s.producers id).i.toNat+gained.length)
    (next : items id source.i.toNat = items id (s.producers id).i.toNat ++ gained) (part : extra.Sublist gained)
    (stalled : s'.stalled = UInt64.ofNat lost') (balance : gained.length+lost = extra.length+lost')
    (standing : Standing perProducer ring id source)
    (finished : s'.finished = s.finished+if source.control = .returned then 1 else 0)
    (same : s'.downstream = s.downstream ∧ s'.sequencer = s.sequencer ∧ s'.consumer = s.consumer ∧
      s'.sequencerDone = s.sequencerDone ∧ s'.verifier = s.verifier) : Flowing perProducer lost' s' := by
  obtain ⟨downstream,sequencer,consumer,done,verifier⟩ := same
  have held : s'.hand = s.hand := by rw [hand,hand,sequencer]
  have here : s'.flow id = s.flow id ++ extra := by
    rw [FanIn.flow,FanIn.flow,downstream,held,inbound,Function.update_self,rest,List.append_assoc]
  have others (j : Fin n) (apart : j ≠ id) : s'.flow j = s.flow j := by
    rw [FanIn.flow,FanIn.flow,downstream,held,inbound,Function.update_of_ne apart]
  have notReturned : ¬ s.Returned := fun all => busy (all id)
  constructor
  · intro j
    rw [inbound]
    by_cases at_ : j = id
    · rw [at_,Function.update_self]
      exact linked
    · rw [Function.update_of_ne at_]
      exact flowing.inbound j
  · rw [downstream]
    exact flowing.downstream
  · intro j
    rw [producers]
    by_cases at_ : j = id
    · rw [at_,Function.update_self,here,next]
      exact (flowing.flow id).append part
    · rw [Function.update_of_ne at_,others j at_]
      exact flowing.flow j
  · have positions : ∑ j, (s'.producers j).i.toNat = ∑ j, (s.producers j).i.toNat+gained.length := by
      refine sum_moved id (fun j apart => ?_) ?_
      · rw [producers,Function.update_of_ne apart]
      · rw [producers,Function.update_self,count]
    have lengths : ∑ j, (s'.flow j).length = ∑ j, (s.flow j).length+extra.length :=
      sum_moved id (fun j apart => by rw [others j apart]) (by rw [here,List.length_append])
    have account := flowing.account
    omega
  · exact stalled
  · rw [downstream,held]
    exact flowing.known
  · intro j
    rw [inbound,producers]
    by_cases at_ : j = id
    · rw [at_,Function.update_self,Function.update_self]
      exact standing
    · rw [Function.update_of_ne at_,Function.update_of_ne at_]
      exact flowing.standing j
  · rw [finished,flowing.finished]
    refine (sum_moved id (fun j apart => ?_) ?_).symm
    · rw [producers,Function.update_of_ne apart]
    · rw [producers,Function.update_self,if_neg busy,Nat.zero_add]
  · rw [sequencer]
    exact flowing.sequenced.running notReturned downstream
  · rw [done,sequencer]
    exact flowing.done
  · rw [consumer]
    rw [downstream,sequencer]
    exact flowing.knows
  · rw [verifier,downstream]
    exact flowing.verified

theorem produce (flowing : Flowing perProducer lost s) {id : Fin n}
    (taken : s.produce perProducer deadline clock id = some s') : ∃ lost', Flowing perProducer lost' s' := by
  have standing := flowing.standing id
  obtain ⟨seenRead,seenWrite,linked⟩ := flowing.inbound id
  unfold FanIn.produce at taken
  unfold Standing at standing
  cases control : (s.producers id).control with
  | loop =>
    simp only [control] at taken standing
    have busy : (s.producers id).control ≠ .returned := by simp [control]
    split at taken
    next below =>
      rw [← Option.some.inj taken]
      exact ⟨lost,flowing.produced [] [] busy rfl rfl ⟨seenRead,seenWrite,{linked with producing := trivial}⟩
        (List.append_nil _).symm rfl (List.append_nil _).symm .slnil flowing.stalled rfl ⟨⟨_,rfl,rfl⟩,below⟩ rfl
        ⟨rfl,rfl,rfl,rfl,rfl⟩⟩
    next notBelow =>
      rw [← Option.some.inj taken]
      exact ⟨lost,flowing.produced [] [] busy (Function.update_eq_self id _).symm rfl ⟨seenRead,seenWrite,linked⟩
        (List.append_nil _).symm rfl (List.append_nil _).symm .slnil flowing.stalled rfl
        ⟨standing.1,UInt64.le_antisymm standing.2 (UInt64.not_lt.mp notBelow)⟩ rfl ⟨rfl,rfl,rfl,rfl,rfl⟩⟩
  | push spins =>
    simp only [control] at taken standing
    have busy : (s.producers id).control ≠ .returned := by simp [control]
    obtain ⟨⟨phase,running,value⟩,below⟩ := standing
    cases attempt : (s.inbound id).pushBounded deadline clock spins with
    | none => simp [attempt] at taken
    | some result =>
      obtain ⟨ring,outcome⟩ := result
      obtain ⟨bounded,popped,_,keeps⟩ := Spsc.pushBounded_bounded running attempt
      obtain ⟨seenRead',linked'⟩ := keeps linked
      rw [attempt] at taken
      rw [value] at bounded
      cases bounded with
      | again spins' running' same published =>
        rw [← Option.some.inj taken]
        exact ⟨lost,flowing.produced [] [] busy rfl rfl ⟨seenRead',seenWrite,linked'⟩
          (by rw [Spsc.rest,popped,published,List.append_nil]; rfl) rfl (List.append_nil _).symm .slnil
          flowing.stalled rfl ⟨⟨_,running',same⟩,below⟩ rfl ⟨rfl,rfl,rfl,rfl,rfl⟩⟩
      | accepted idle published =>
        rw [← Option.some.inj taken]
        exact ⟨lost,flowing.produced [_] [_] busy rfl rfl ⟨seenRead',seenWrite,linked'⟩
          (by rw [Spsc.rest,popped,published]; exact linked.rest_append) (succ_toNat_of_lt below) (items_next id below)
          (List.Sublist.refl _) flowing.stalled rfl ⟨idle,next_le below⟩ rfl ⟨rfl,rfl,rfl,rfl,rfl⟩⟩
      | stalled idle published =>
        rw [← Option.some.inj taken]
        exact ⟨lost,flowing.produced [] [] busy rfl rfl ⟨seenRead',seenWrite,linked'⟩
          (by rw [Spsc.rest,popped,published,List.append_nil]; rfl) rfl (List.append_nil _).symm .slnil
          flowing.stalled rfl ⟨idle,below⟩ rfl ⟨rfl,rfl,rfl,rfl,rfl⟩⟩
  | stall =>
    simp only [control] at taken standing
    have busy : (s.producers id).control ≠ .returned := by simp [control]
    obtain ⟨idle,below⟩ := standing
    have stalled : s.stalled+1 = UInt64.ofNat (lost+1) := by
      rw [UInt64.ofNat_add,flowing.stalled]
      rfl
    rw [← Option.some.inj taken]
    exact ⟨lost+1,flowing.produced [_] [] busy (Function.update_eq_self id _).symm rfl ⟨seenRead,seenWrite,linked⟩
      (List.append_nil _).symm (succ_toNat_of_lt below) (items_next id below) (List.nil_sublist _) stalled
      (by rw [List.length_singleton,List.length_nil]; omega) ⟨idle,next_le below⟩ rfl ⟨rfl,rfl,rfl,rfl,rfl⟩⟩
  | returned => simp [control] at taken

/-- A step of the sequencer. What it does not lose stays in the flow. -/
theorem moved (flowing : Flowing perProducer lost s) {lost' : Nat} (busy : s.sequencer ≠ .returned)
    (flow : ∀ id, (s'.flow id).Sublist (s.flow id))
    (balance : ∑ id, (s.flow id).length+lost = ∑ id, (s'.flow id).length+lost')
    (stalled : s'.stalled = UInt64.ofNat lost')
    (inbound : ∀ id, ∃ seenRead seenWrite, (s'.inbound id).Linked 0 seenRead seenWrite)
    (own : ∀ id, (s'.inbound id).producer = (s.inbound id).producer)
    (downstream : ∃ seenRead seenWrite, s'.downstream.Linked 0 seenRead seenWrite)
    (other : s'.downstream.popped = s.downstream.popped ∧ s'.downstream.consumer = s.downstream.consumer)
    (known : ∀ item ∈ s'.downstream.published ++ s'.hand, ∃ id : Fin n, item.producer = idOf id)
    (sequenced : s'.Sequenced s'.sequencer) (done : s'.sequencerDone = true → s'.sequencer = .returned)
    (same : s'.producers = s.producers ∧ s'.consumer = s.consumer ∧ s'.finished = s.finished ∧
      s'.verifier = s.verifier) : Flowing perProducer lost' s' := by
  obtain ⟨producers,consumer,finished,verifier⟩ := same
  refine ⟨inbound,downstream,?_,?_,stalled,known,?_,?_,sequenced,done,?_,?_⟩
  · intro id
    rw [producers]
    exact (flow id).trans (flowing.flow id)
  · rw [producers,flowing.account]
    exact balance
  · intro id
    have standing := flowing.standing id
    unfold Standing at standing ⊢
    rw [producers,own]
    exact standing
  · rw [finished,producers]
    exact flowing.finished
  · rw [consumer]
    exact flowing.knows.early busy other.2
  · rw [verifier,other.1]
    exact flowing.verified

private theorem not_done (flowing : Flowing perProducer lost s) {P : Prop} (busy : s.sequencer ≠ .returned)
    (done : s.sequencerDone = true) : P := absurd (flowing.done done) busy

/-- A step of the sequencer that neither takes nor passes on anything. -/
theorem goes (flowing : Flowing perProducer lost s) (phase : Sequencing) (busy : s.sequencer ≠ .returned)
    (held : hand {s with sequencer := phase} = s.hand) (sequenced : Sequenced s phase) {done : Bool}
    (last : done = true → phase = .returned) :
    Flowing perProducer lost {s with sequencer := phase, sequencerDone := done} := by
  have flow (id : Fin n) : FanIn.flow {s with sequencer := phase, sequencerDone := done} id = s.flow id := by
    change (s.downstream.published ++ hand {s with sequencer := phase}).filter _ ++ _ = _
    rw [held]
    rfl
  refine flowing.moved busy (fun id => by rw [flow id]) (by simp only [flow]) flowing.stalled flowing.inbound
    (fun _ => rfl) flowing.downstream ⟨rfl,rfl⟩ ?_ ?_ last ⟨rfl,rfl,rfl,rfl⟩
  · change ∀ item ∈ s.downstream.published ++ hand {s with sequencer := phase}, _
    rw [held]
    exact flowing.known
  · cases phase <;> exact sequenced

private theorem setInbound_linked (flowing : Flowing perProducer lost s) {id : Fin n} {ring : Spsc Item p}
    (linked : ∃ seenRead seenWrite, ring.Linked 0 seenRead seenWrite) (j : Fin n) :
    ∃ seenRead seenWrite, ((s.setInbound id ring).inbound j).Linked 0 seenRead seenWrite := by
  rw [setInbound_inbound]
  split
  · exact linked
  · exact flowing.inbound j

/-- A step of `try_pop` on an inbound ring that takes nothing out. -/
theorem peeked (flowing : Flowing perProducer lost s) {id : Fin n} {ring : Spsc Item p} {k k' : Nat} {moved : Bool}
    (here : s.sequencer = .scan k moved) (linked : ∃ seenRead seenWrite, ring.Linked 0 seenRead seenWrite)
    (rest : ring.rest = (s.inbound id).rest) (own : ring.producer = (s.inbound id).producer) :
    Flowing perProducer lost {s.setInbound id ring with sequencer := .scan k' moved} := by
  have sequenced := flowing.sequenced
  rw [here] at sequenced
  have held : s.hand = [] := by rw [hand,here]
  have flow (j : Fin n) : FanIn.flow {s.setInbound id ring with sequencer := .scan k' moved} j = s.flow j := by
    change (s.downstream.published ++ []).filter _ ++ (Function.update s.inbound id ring j).rest = _
    rw [FanIn.flow,held]
    by_cases at_ : j = id
    · rw [at_,Function.update_self,rest]
    · rw [Function.update_of_ne at_]
  have busy : s.sequencer ≠ .returned := by simp [here]
  have known := flowing.known
  rw [held] at known
  exact flowing.moved busy (fun j => by rw [flow j]) (by simp only [flow]) flowing.stalled
    (flowing.setInbound_linked linked) (setInbound_own own) flowing.downstream ⟨rfl,rfl⟩ known sequenced
    (flowing.not_done busy) ⟨rfl,rfl,rfl,rfl⟩

/-- The item taken out of its producer's ring is in the sequencer's hand. -/
theorem took (flowing : Flowing perProducer lost s) (few : n < 2^31) {id : Fin n} {ring : Spsc Item p} {k : Nat}
    {moved : Bool} {item : Item} (here : s.sequencer = .scan k moved)
    (linked : ∃ seenRead seenWrite, ring.Linked 0 seenRead seenWrite)
    (rest : (s.inbound id).rest = item::ring.rest) (own : ring.producer = (s.inbound id).producer) :
    Flowing perProducer lost {s.setInbound id ring with
      sequencer := .forward k item 0
      downstream := {s.downstream with producer := some (.load item)}} := by
  have sequenced := flowing.sequenced
  rw [here] at sequenced
  have held : s.hand = [] := by rw [hand,here]
  have whose : item.producer = idOf id := by
    have there : item ∈ s.flow id := by simp [FanIn.flow,rest]
    obtain ⟨j,_,rfl⟩ := mem_items ((flowing.flow id).subset there)
    rfl
  have flow (j : Fin n) : FanIn.flow {s.setInbound id ring with
      sequencer := .forward k item 0
      downstream := {s.downstream with producer := some (.load item)}} j = s.flow j := by
    change (s.downstream.published ++ [item]).filter _ ++ (Function.update s.inbound id ring j).rest = _
    rw [FanIn.flow,held,List.append_nil,List.filter_append]
    by_cases at_ : j = id
    · rw [at_,Function.update_self,rest]
      simp [whose]
    · have other : idOf id ≠ idOf j := fun same => at_ (idOf_inj few same).symm
      rw [Function.update_of_ne at_]
      simp [whose,other]
  obtain ⟨seenRead,seenWrite,down⟩ := flowing.downstream
  have busy : s.sequencer ≠ .returned := by simp [here]
  refine flowing.moved busy (fun j => by rw [flow j]) (by simp only [flow]) flowing.stalled
    (flowing.setInbound_linked linked) (setInbound_own own) ⟨seenRead,seenWrite,{down with producing := trivial}⟩
    ⟨rfl,rfl⟩ ?_ ⟨_,rfl,rfl⟩ (flowing.not_done busy) ⟨rfl,rfl,rfl,rfl⟩
  intro other there
  rcases List.mem_append.mp there with before | held
  · exact flowing.known other (List.mem_append_left _ before)
  · rw [List.mem_singleton.mp held]
    exact ⟨id,whose⟩

private theorem all_returned (flowing : Flowing perProducer lost s) (all : s.finished = n) : s.Returned := by
  intro id
  by_contra running
  have fewer : ∑ j, (if (s.producers j).control = .returned then 1 else 0) < ∑ _j : Fin n, 1 := by
    refine Finset.sum_lt_sum (fun j _ => ?_) ⟨id,Finset.mem_univ id,?_⟩
    · split <;> omega
    · rw [if_neg running]
      exact Nat.zero_lt_one
  rw [← flowing.finished,all,Finset.sum_const,Finset.card_univ,Fintype.card_fin,smul_eq_mul,Nat.mul_one] at fewer
  exact Nat.lt_irrefl _ fewer

theorem scan (flowing : Flowing perProducer lost s) (few : n < 2^31) {k : Nat} {moved : Bool}
    (here : s.sequencer = .scan k moved) (taken : s.sequence deadline clock = some s') :
    Flowing perProducer lost s' := by
  simp only [FanIn.sequence,here] at taken
  split at taken
  next inside =>
    obtain ⟨seenRead,seenWrite,linked⟩ := flowing.inbound ⟨k,inside⟩
    split at taken
    next idle =>
      rw [← Option.some.inj taken]
      have same : s.setInbound ⟨k,inside⟩ {s.inbound ⟨k,inside⟩ with consumer := some .load} =
          {s.setInbound ⟨k,inside⟩ {s.inbound ⟨k,inside⟩ with consumer := some .load} with
            sequencer := .scan k moved} := by
        rw [← here]
        rfl
      rw [same]
      exact flowing.peeked here ⟨seenRead,seenWrite,{linked with consuming := trivial}⟩ rfl rfl
    next phase running =>
      obtain ⟨seenWrite',after⟩ := linked.pop phase running
      obtain ⟨own,published⟩ := (s.inbound ⟨k,inside⟩).pop_producer phase
      split at taken
      next later stays =>
        obtain ⟨_,popped⟩ := Spsc.pop_stays _ phase later stays
        rw [← Option.some.inj taken]
        have same : s.setInbound ⟨k,inside⟩ ((s.inbound ⟨k,inside⟩).pop phase) =
            {s.setInbound ⟨k,inside⟩ ((s.inbound ⟨k,inside⟩).pop phase) with sequencer := .scan k moved} := by
          rw [← here]
          rfl
        rw [same]
        exact flowing.peeked here ⟨seenRead,seenWrite',after⟩ (by rw [Spsc.rest,Spsc.rest,popped,published]) own
      next failed =>
        obtain ⟨_,popped⟩ := Spsc.pop_returns _ phase none failed
        rw [Option.toList_none,List.append_nil] at popped
        rw [← Option.some.inj taken]
        exact flowing.peeked here ⟨seenRead,seenWrite',after⟩ (by rw [Spsc.rest,Spsc.rest,popped,published]) own
      next item returned =>
        rw [← Option.some.inj taken]
        exact flowing.took few here ⟨seenRead,seenWrite',after⟩ (linked.takes running returned) own
  next past =>
    have idle := flowing.sequenced
    have busy : s.sequencer ≠ .returned := by simp [here]
    rw [here] at idle
    split at taken
    next =>
      rw [← Option.some.inj taken]
      exact flowing.goes (.scan 0 false) busy (by simp [hand,here]) idle (flowing.not_done busy)
    next ended =>
      -- all producers have returned, so none of them will push again
      have all : s.Returned := by
        simp only [not_or,not_not] at ended
        exact flowing.all_returned ended.2
      rw [← Option.some.inj taken]
      exact flowing.goes (.drain 0 true) busy (by simp [hand,here])
        ⟨idle,all,fun _ j below => absurd below (Nat.not_lt_zero _)⟩ (flowing.not_done busy)

theorem forward (flowing : Flowing perProducer lost s) {k : Nat} {item : Item} {spins : UInt64}
    (here : s.sequencer = .forward k item spins) (taken : s.sequence deadline clock = some s') :
    Flowing perProducer lost s' := by
  have busy : s.sequencer ≠ .returned := by simp [here]
  have sequenced := flowing.sequenced
  have known := flowing.known
  have held : s.hand = [item] := by rw [hand,here]
  obtain ⟨seenRead,seenWrite,linked⟩ := flowing.downstream
  rw [here] at sequenced
  rw [held] at known
  obtain ⟨phase,running,value⟩ := sequenced
  simp only [FanIn.sequence,here] at taken
  cases attempt : s.downstream.pushBounded deadline clock spins with
  | none => simp [attempt] at taken
  | some result =>
    obtain ⟨ring,outcome⟩ := result
    obtain ⟨bounded,popped,consumer,keeps⟩ := Spsc.pushBounded_bounded running attempt
    obtain ⟨seenRead',linked'⟩ := keeps linked
    -- the item is in the hand before and in the hand or downstream after
    have passed (phase : Sequencing) (whole : ring.published ++ hand {s with sequencer := phase} =
        s.downstream.published ++ [item]) (sequenced : Sequenced {s with downstream := ring} phase) :
        Flowing perProducer lost {s with downstream := ring, sequencer := phase} := by
      have flow (j : Fin n) : FanIn.flow {s with downstream := ring, sequencer := phase} j = s.flow j := by
        change (ring.published ++ hand {s with sequencer := phase}).filter _ ++ _ = _
        rw [whole,FanIn.flow,held]
      refine flowing.moved busy (fun j => by rw [flow j]) (by simp only [flow]) flowing.stalled flowing.inbound
        (fun _ => rfl) ⟨seenRead',seenWrite,linked'⟩ ⟨popped,consumer⟩ ?_ ?_ (flowing.not_done busy)
        ⟨rfl,rfl,rfl,rfl⟩
      · change ∀ item ∈ ring.published ++ hand {s with sequencer := phase}, _
        rw [whole]
        exact known
      · cases phase <;> exact sequenced
    rw [attempt] at taken
    rw [value] at bounded
    cases bounded with
    | again spins' running' same published =>
      rw [← Option.some.inj taken]
      exact passed _ (by rw [published]; rfl) ⟨_,running',same⟩
    | accepted idle published =>
      rw [← Option.some.inj taken]
      exact passed _ (by rw [published]; exact List.append_nil _) idle
    | stalled idle published =>
      rw [← Option.some.inj taken]
      exact passed _ (by rw [published]; rfl) idle

/-- The item in the hand is lost, and counted. -/
theorem stall (flowing : Flowing perProducer lost s) (few : n < 2^31) {k : Nat} {item : Item}
    (here : s.sequencer = .stall k item) :
    Flowing perProducer (lost+1) {s with stalled := s.stalled+1, sequencer := .scan (k+1) true} := by
  have busy : s.sequencer ≠ .returned := by simp [here]
  have idle := flowing.sequenced
  have known := flowing.known
  have held : s.hand = [item] := by rw [hand,here]
  rw [here] at idle
  rw [held] at known
  obtain ⟨id,whose⟩ := known item (by simp)
  have flow (j : Fin n) : FanIn.flow {s with stalled := s.stalled+1, sequencer := .scan (k+1) true} j =
      s.downstream.published.filter (·.producer = idOf j) ++ (s.inbound j).rest := by
    change (s.downstream.published ++ []).filter _ ++ _ = _
    rw [List.append_nil]
  have before (j : Fin n) : s.flow j = s.downstream.published.filter (·.producer = idOf j) ++
      ([item].filter (·.producer = idOf j) ++ (s.inbound j).rest) := by
    rw [FanIn.flow,held,List.filter_append,List.append_assoc]
  refine flowing.moved busy (fun j => ?_) ?_ ?_ flowing.inbound (fun _ => rfl) flowing.downstream ⟨rfl,rfl⟩ ?_ idle
    (flowing.not_done busy) ⟨rfl,rfl,rfl,rfl⟩
  · rw [flow,before]
    exact (List.Sublist.refl _).append (List.sublist_append_right _ _)
  · have lengths : ∑ j, (s.flow j).length =
        ∑ j, (FanIn.flow {s with stalled := s.stalled+1, sequencer := .scan (k+1) true} j).length+1 := by
      refine sum_moved id (fun j apart => ?_) ?_
      · have other : idOf id ≠ idOf j := fun same => apart (idOf_inj few same).symm
        rw [flow,before]
        simp [whose,other]
      · rw [flow,before]
        simp [whose]
        omega
    omega
  · rw [UInt64.ofNat_add,← flowing.stalled]
    rfl
  · intro other there
    exact known other (List.mem_append_left _ (by simpa [hand] using there))

theorem sequence (flowing : Flowing perProducer lost s) (few : n < 2^31)
    (taken : s.sequence deadline clock = some s') : ∃ lost', Flowing perProducer lost' s' := by
  have sequenced := flowing.sequenced
  cases here : s.sequencer with
  | scan k moved => exact ⟨lost,flowing.scan few here taken⟩
  | forward k item spins => exact ⟨lost,flowing.forward here taken⟩
  | stall k item =>
    simp only [FanIn.sequence,here] at taken
    rw [← Option.some.inj taken]
    exact ⟨lost+1,flowing.stall few here⟩
  | drain k drained =>
    have busy : s.sequencer ≠ .returned := by simp [here]
    rw [here] at sequenced
    obtain ⟨idle,all,empty⟩ := sequenced
    simp only [FanIn.sequence,here] at taken
    refine ⟨lost,?_⟩
    split at taken
    next =>
      split at taken
      next => simp at taken
      next =>
        rw [← Option.some.inj taken]
        exact flowing.goes (.drain (k+1) false) busy (by simp [hand,here]) ⟨idle,all,by simp⟩ (flowing.not_done busy)
    next past =>
      rw [← Option.some.inj taken]
      cases drained with
      | false => exact flowing.goes (.scan 0 false) busy (by simp [hand,here]) idle (flowing.not_done busy)
      | true =>
        have none (id : Fin n) (_ : id.val < n) := empty rfl id (by omega)
        exact flowing.goes .store busy (by simp [hand,here]) ⟨idle,all,none⟩ (flowing.not_done busy)
  | drainWrite k read => simp [FanIn.sequence,here] at taken
  | drainRead k write => simp [FanIn.sequence,here] at taken
  | store =>
    simp only [FanIn.sequence,here] at taken
    rw [here] at sequenced
    rw [← Option.some.inj taken]
    exact ⟨lost,flowing.goes .returned (by simp [here]) (by simp [hand,here]) sequenced (fun _ => rfl)⟩
  | returned => simp [FanIn.sequence,here] at taken

/-- Both looks of `empty()` are at indexes that no longer move. -/
theorem drained (flowing : Flowing perProducer lost s) {k : Nat} (inside : k < n) (before : s.Drained k)
    {read write : UInt64} (own : read = (s.inbound ⟨k,inside⟩).queue.readIdx)
    (other : write = (s.inbound ⟨k,inside⟩).queue.writeIdx) (same : decide (read = write) = true) :
    s.Drained (k+1) := by
  obtain ⟨seenRead,seenWrite,linked⟩ := flowing.inbound ⟨k,inside⟩
  intro id below
  by_cases last : id.val = k
  · have here : id = ⟨k,inside⟩ := Fin.ext last
    rw [here]
    exact linked.rest_nil (by rw [← own,← other,of_decide_eq_true same])
  · exact before id (by omega)

theorem drainRead (flowing : Flowing perProducer lost s) (taken : s.drainRead = some s') :
    Flowing perProducer lost s' := by
  have sequenced := flowing.sequenced
  unfold FanIn.drainRead at taken
  split at taken
  next k here =>
    have busy : s.sequencer ≠ .returned := by simp [here]
    rw [here] at sequenced
    rw [Option.dite_none_right_eq_some] at taken
    obtain ⟨inside,taken⟩ := taken
    rw [← Option.some.inj taken]
    exact flowing.goes (.drainWrite k _) busy (by simp [hand,here])
      ⟨sequenced.1,sequenced.2.1,sequenced.2.2 rfl,fun _ => rfl⟩ (flowing.not_done busy)
  next k write here =>
    have busy : s.sequencer ≠ .returned := by simp [here]
    rw [here] at sequenced
    rw [Option.dite_none_right_eq_some] at taken
    obtain ⟨inside,taken⟩ := taken
    rw [← Option.some.inj taken]
    exact flowing.goes (.drain (k+1) _) busy (by simp [hand,here])
      ⟨sequenced.1,sequenced.2.1,flowing.drained inside sequenced.2.2.1 rfl (sequenced.2.2.2 inside)⟩
      (flowing.not_done busy)
  next => simp at taken

theorem drainWrite (flowing : Flowing perProducer lost s) (taken : s.drainWrite = some s') :
    Flowing perProducer lost s' := by
  have sequenced := flowing.sequenced
  unfold FanIn.drainWrite at taken
  split at taken
  next k here =>
    have busy : s.sequencer ≠ .returned := by simp [here]
    rw [here] at sequenced
    rw [Option.dite_none_right_eq_some] at taken
    obtain ⟨inside,taken⟩ := taken
    rw [← Option.some.inj taken]
    exact flowing.goes (.drainRead k _) busy (by simp [hand,here])
      ⟨sequenced.1,sequenced.2.1,sequenced.2.2 rfl,fun _ => rfl⟩ (flowing.not_done busy)
  next k read here =>
    have busy : s.sequencer ≠ .returned := by simp [here]
    rw [here] at sequenced
    rw [Option.dite_none_right_eq_some] at taken
    obtain ⟨inside,taken⟩ := taken
    rw [← Option.some.inj taken]
    exact flowing.goes (.drain (k+1) _) busy (by simp [hand,here])
      ⟨sequenced.1,sequenced.2.1,flowing.drained inside sequenced.2.2.1 (sequenced.2.2.2 inside) rfl⟩
      (flowing.not_done busy)
  next => simp at taken

/-- A step of the consumer. -/
theorem watched (flowing : Flowing perProducer lost s) {ring : Spsc Item p} {phase : Consume} {verifier : Verifier n}
    (linked : ∃ seenRead seenWrite, ring.Linked 0 seenRead seenWrite)
    (same : ring.producer = s.downstream.producer ∧ ring.published = s.downstream.published)
    (knows : ring.Knows (s.sequencer = .returned) phase)
    (verified : verifier = ring.popped.foldl Verifier.check (.create n)) :
    Flowing perProducer lost {s with downstream := ring, consumer := phase, verifier := verifier} := by
  have flow (id : Fin n) :
      FanIn.flow {s with downstream := ring, consumer := phase, verifier := verifier} id = s.flow id := by
    change (ring.published ++ s.hand).filter _ ++ _ = _
    rw [same.2]
    rfl
  have sequenced := flowing.sequenced
  refine ⟨flowing.inbound,linked,fun id => by rw [flow]; exact flowing.flow id,by simp only [flow]; exact flowing.account,
    flowing.stalled,?_,flowing.standing,flowing.finished,?_,flowing.done,?_,verified⟩
  · change ∀ item ∈ ring.published ++ s.hand, _
    rw [same.2]
    exact flowing.known
  · dsimp only
    cases here : s.sequencer <;> simp only [here,Sequenced,same.1] at sequenced ⊢ <;> exact sequenced
  · exact knows

theorem consume (flowing : Flowing perProducer lost s) (taken : s.consume = some s') :
    Flowing perProducer lost s' := by
  obtain ⟨seenRead,seenWrite,linked⟩ := flowing.downstream
  rw [FanIn.consume,Option.ite_none_right_eq_some] at taken
  obtain ⟨here,taken⟩ := taken
  split at taken
  next idle =>
    rw [← Option.some.inj taken]
    refine flowing.watched ⟨seenRead,seenWrite,{linked with consuming := trivial}⟩ ⟨rfl,rfl⟩ ?_ flowing.verified
    rw [here]
    trivial
  next phase running =>
    obtain ⟨seenWrite',after⟩ := linked.pop phase running
    have same := s.downstream.pop_producer phase
    split at taken
    next later stays =>
      obtain ⟨_,popped⟩ := Spsc.pop_stays _ phase later stays
      rw [← Option.some.inj taken]
      refine flowing.watched ⟨seenRead,seenWrite',after⟩ same ?_ (by rw [popped]; exact flowing.verified)
      rw [here]
      trivial
    next failed =>
      obtain ⟨idle,popped⟩ := Spsc.pop_returns _ phase none failed
      rw [Option.toList_none,List.append_nil] at popped
      rw [← Option.some.inj taken]
      exact flowing.watched ⟨seenRead,seenWrite',after⟩ same idle (by rw [popped]; exact flowing.verified)
    next item returned =>
      obtain ⟨_,popped⟩ := Spsc.pop_returns _ phase (some item) returned
      rw [← Option.some.inj taken]
      refine flowing.watched ⟨seenRead,seenWrite',after⟩ same ?_ ?_
      · rw [here]
        trivial
      · rw [popped,List.foldl_append,← flowing.verified]
        rfl

theorem looks (flowing : Flowing perProducer lost s) {phase : Consume}
    (knows : s.downstream.Knows (s.sequencer = .returned) phase) :
    Flowing perProducer lost {s with consumer := phase} :=
  flowing.watched flowing.downstream ⟨rfl,rfl⟩ knows flowing.verified

theorem move (flowing : Flowing perProducer lost s) (few : n < 2^31) {m : FanMove n}
    (taken : s.move perProducer deadline m = some s') : ∃ lost', Flowing perProducer lost' s' := by
  have knows := flowing.knows
  obtain ⟨_,_,linked⟩ := flowing.downstream
  cases m with
  | produce id clock => exact flowing.produce taken
  | sequence clock => exact flowing.sequence few taken
  | drainRead => exact ⟨lost,flowing.drainRead taken⟩
  | drainWrite => exact ⟨lost,flowing.drainWrite taken⟩
  | consume => exact ⟨lost,flowing.consume taken⟩
  | loadDone =>
    rw [FanIn.move,Option.ite_none_right_eq_some] at taken
    obtain ⟨here,taken⟩ := taken
    rw [here] at knows
    rw [← Option.some.inj taken]
    refine ⟨lost,flowing.looks ?_⟩
    split
    next done => exact ⟨knows,flowing.done done⟩
    next => trivial
  | loadRead =>
    simp only [FanIn.move] at taken
    split at taken
    next here =>
      rw [here] at knows
      rw [← Option.some.inj taken]
      exact ⟨lost,flowing.looks ⟨knows.1,knows.2,rfl⟩⟩
    next write here =>
      rw [here] at knows
      rw [← Option.some.inj taken]
      exact ⟨lost,flowing.looks (linked.decides knows.1 knows.2.1 rfl knows.2.2)⟩
    next => simp at taken
  | loadWrite =>
    simp only [FanIn.move] at taken
    split at taken
    next here =>
      rw [here] at knows
      rw [← Option.some.inj taken]
      exact ⟨lost,flowing.looks ⟨knows.1,knows.2,rfl⟩⟩
    next read here =>
      rw [here] at knows
      rw [← Option.some.inj taken]
      exact ⟨lost,flowing.looks (linked.decides knows.1 knows.2.1 knows.2.2 rfl)⟩
    next => simp at taken

end Flowing

theorem reached_flowing (few : n < 2^31) (reached : Reached (move perProducer deadline) (create n p) s) :
    ∃ lost, Flowing perProducer lost s :=
  reached.invariant (I := fun s => ∃ lost, Flowing perProducer lost s) ⟨0,.create perProducer n p⟩
    fun _ _ _ ⟨_,flowing⟩ taken => flowing.move few taken

/-- An item that some producer has made. -/
def Genuine (n : Nat) (item : Item) : Prop := ∃ id : Fin n, ∃ sequence, item = .of (idOf id) sequence

private theorem idOf_toNat (few : n < 2^31) (id : Fin n) : (idOf id).toNat = id.val := by
  rw [idOf,UInt64.toNat_ofNat']
  exact Nat.mod_eq_of_lt (by omega)

private theorem check_of (few : n < 2^31) (v : Verifier n) (id : Fin n) (sequence : UInt64) :
    v.check (.of (idOf id) sequence) = {v with
      received := v.received+1
      outOfOrder := if sequence = v.nextExpected.get id then v.outOfOrder else v.outOfOrder+1
      nextExpected := v.nextExpected.set id (sequence+1)} := by
  have index := idOf_toNat few id
  have inside : (idOf id).toNat < n := by omega
  simp only [Verifier.check,Item.of]
  rw [dif_pos inside]
  simp [index,Vector.get]

private theorem verified_genuine (few : n < 2^31) (xs : List Item) (genuine : ∀ item ∈ xs, Genuine n item) :
    (xs.foldl Verifier.check (.create n)).corrupted = 0 ∧
      (xs.foldl Verifier.check (.create n)).received = UInt64.ofNat xs.length := by
  induction xs using List.reverseRecOn with
  | nil => exact ⟨rfl,rfl⟩
  | append_singleton xs item ih =>
    obtain ⟨corrupted,received⟩ := ih fun other there => genuine other (List.mem_append_left _ there)
    obtain ⟨id,sequence,rfl⟩ := genuine item (by simp)
    rw [List.foldl_append,List.foldl_cons,List.foldl_nil,check_of few]
    refine ⟨corrupted,?_⟩
    rw [List.length_append,List.length_singleton,UInt64.ofNat_add]
    dsimp only
    rw [received]
    rfl

private theorem items_append {id : Fin n} {k : Nat} {xs : List Item} {item : Item} (whole : xs ++ [item] = items id k) :
    ∃ j, k = j+1 ∧ xs = items id j ∧ item = .of (idOf id) (UInt64.ofNat j) := by
  cases k with
  | zero => simp [items] at whole
  | succ j =>
    simp only [items,List.range_succ,List.map_append,List.map_cons,List.map_nil] at whole
    obtain ⟨front,last⟩ := List.append_inj' whole rfl
    exact ⟨j,rfl,front,by simpa using last⟩

/-- If each producer's items are there from the first on without a gap, none is out of
order, however the producers are interleaved. -/
theorem verified_in_order (few : n < 2^31) (xs : List Item) (genuine : ∀ item ∈ xs, Genuine n item) (k : Fin n → Nat)
    (whole : ∀ id, xs.filter (·.producer = idOf id) = items id (k id)) :
    (xs.foldl Verifier.check (.create n)).outOfOrder = 0 ∧
      ∀ id, (xs.foldl Verifier.check (.create n)).nextExpected.get id = UInt64.ofNat (k id) := by
  induction xs using List.reverseRecOn generalizing k with
  | nil =>
    refine ⟨rfl,fun id => ?_⟩
    have none : k id = 0 := by
      have length := congrArg List.length (whole id)
      simpa [items] using length.symm
    simp [Verifier.create,Vector.get,none]
  | append_singleton xs item ih =>
    obtain ⟨id,sequence,rfl⟩ := genuine item (by simp)
    have here := whole id
    rw [List.filter_append] at here
    have kept : [Item.of (idOf id) sequence].filter (·.producer = idOf id) = [.of (idOf id) sequence] := by simp [Item.of]
    rw [kept] at here
    obtain ⟨j,count,front,last⟩ := items_append here
    have others (other : Fin n) (apart : other ≠ id) : xs.filter (·.producer = idOf other) = items other (k other) := by
      have left : [Item.of (idOf id) sequence].filter (·.producer = idOf other) = [] := by
        have differ : idOf id ≠ idOf other := fun same => apart (idOf_inj few same).symm
        simp [Item.of,differ]
      rw [← whole other,List.filter_append,left,List.append_nil]
    obtain ⟨ordered,expected⟩ := ih (fun other there => genuine other (List.mem_append_left _ there))
      (Function.update k id j) (fun other => by
        by_cases at_ : other = id
        · rw [at_,Function.update_self,front]
        · rw [Function.update_of_ne at_,others other at_])
    have now : sequence = UInt64.ofNat j := congrArg Item.sequence last
    rw [List.foldl_append,List.foldl_cons,List.foldl_nil,check_of few]
    have due := expected id
    rw [Function.update_self] at due
    refine ⟨by rw [due,now]; simpa using ordered,fun other => ?_⟩
    by_cases at_ : other = id
    · rw [at_,count,now,UInt64.ofNat_add]
      exact Vector.getElem_set_self _
    · have apart : id.val ≠ other.val := fun same => at_ (Fin.ext same).symm
      rw [← Function.update_of_ne at_ j k,← expected other]
      exact Vector.getElem_set_ne id.isLt other.isLt apart

private theorem sum_filters (few : n < 2^31) (xs : List Item) (known : ∀ item ∈ xs, ∃ id : Fin n, item.producer = idOf id) :
    ∑ id : Fin n, (xs.filter (·.producer = idOf id)).length = xs.length := by
  induction xs with
  | nil => simp
  | cons item xs ih =>
    obtain ⟨id,whose⟩ := known item (by simp)
    rw [List.length_cons,← ih fun other there => known other (List.mem_cons_of_mem _ there)]
    refine sum_moved id (fun j apart => ?_) ?_
    · have other : idOf id ≠ idOf j := fun same => apart (idOf_inj few same).symm
      simp [whose,other]
    · simp [whose]

theorem Flowing.genuine (flowing : Flowing perProducer lost s) {item : Item} (there : item ∈ s.downstream.published) :
    Genuine n item := by
  obtain ⟨id,whose⟩ := flowing.known item (List.mem_append_left _ there)
  have inFlow : item ∈ s.flow id := by simp [FanIn.flow,there,whose]
  obtain ⟨j,_,rfl⟩ := mem_items ((flowing.flow id).subset inFlow)
  exact ⟨id,_,rfl⟩

/-- When the consumer has returned, everything each producer sent has arrived or was given
up and counted. -/
theorem Flowing.ended (flowing : Flowing perProducer lost s) (left : s.consumer = .broken) :
    s.downstream.popped = s.downstream.published ∧ (∀ id, (s.producers id).i = perProducer) ∧
      ∀ id, s.flow id = s.downstream.popped.filter (·.producer = idOf id) := by
  have knows := flowing.knows
  have sequenced := flowing.sequenced
  rw [left] at knows
  obtain ⟨_,returned,drained⟩ := knows
  rw [returned] at sequenced
  obtain ⟨_,all,empty⟩ := sequenced
  refine ⟨drained,fun id => ?_,fun id => ?_⟩
  · have standing := flowing.standing id
    simp only [Standing,all id] at standing
    exact standing.2
  · have held : s.hand = [] := by rw [hand,returned]
    rw [FanIn.flow,held,empty id id.isLt,List.append_nil,List.append_nil,drained]

theorem Flowing.total (flowing : Flowing perProducer lost s) (few : n < 2^31) (left : s.consumer = .broken) :
    n*perProducer.toNat = s.downstream.popped.length+lost := by
  obtain ⟨drained,full,whole⟩ := flowing.ended left
  have account := flowing.account
  simp only [full,whole,Finset.sum_const,Finset.card_univ,Fintype.card_fin,smul_eq_mul] at account
  rw [account,sum_filters few]
  intro item there
  exact flowing.known item (List.mem_append_left _ (drained ▸ there))

theorem Flowing.unbroken (flowing : Flowing perProducer 0 s) (left : s.consumer = .broken) (id : Fin n) :
    s.downstream.popped.filter (·.producer = idOf id) = items id perProducer.toNat := by
  obtain ⟨_,full,whole⟩ := flowing.ended left
  have account := flowing.account
  have part (id : Fin n) : (s.flow id).Sublist (items id perProducer.toNat) := by
    have flow := flowing.flow id
    rwa [full id] at flow
  have lengths (id : Fin n) : (items id perProducer.toNat).length = perProducer.toNat := by simp [items]
  have equal : ∑ id, (s.flow id).length = ∑ _id : Fin n, perProducer.toNat := by
    simp only [full] at account
    exact account.symm
  have each := (Finset.sum_eq_sum_iff_of_le fun id _ => by
    have shorter := (part id).length_le
    rwa [lengths] at shorter).mp equal id (Finset.mem_univ id)
  rw [← whole id]
  exact (part id).eq_of_length (by rw [each,lengths])

/-- In every interleaving of the producers, the sequencer and the consumer: no item is
ever corrupted; once the consumer has returned, what was received and what was given up
at the deadline make up all that was sent; and the stream is reported intact exactly if
nothing was given up. -/
theorem fan_in_verdict (n : Nat) (few : n < 2^31) (p : PowerOfTwo) (perProducer deadline : UInt64)
    (small : n*perProducer.toNat < 2^64) (s : FanIn n p)
    (reached : Reached (move perProducer deadline) (create n p) s) :
    (s.verdict perProducer).corrupted = 0 ∧
    (s.consumer = .broken →
      (s.verdict perProducer).received.toNat+(s.verdict perProducer).stalledPushes.toNat = n*perProducer.toNat ∧
      ((s.verdict perProducer).clean = true ↔ (s.verdict perProducer).stalledPushes = 0)) := by
  obtain ⟨lost,flowing⟩ := reached_flowing few reached
  obtain ⟨_,_,linked⟩ := flowing.downstream
  have genuine (item : Item) (there : item ∈ s.downstream.popped) : Genuine n item :=
    flowing.genuine (linked.fifo.subset there)
  obtain ⟨corrupted,received⟩ := verified_genuine few s.downstream.popped genuine
  rw [← flowing.verified] at corrupted received
  refine ⟨corrupted,fun left => ?_⟩
  have total := flowing.total few left
  have stalled : s.stalled.toNat = lost := by
    rw [flowing.stalled,UInt64.toNat_ofNat']
    exact Nat.mod_eq_of_lt (by omega)
  have arrived : s.verifier.received.toNat = s.downstream.popped.length := by
    rw [received,UInt64.toNat_ofNat']
    exact Nat.mod_eq_of_lt (by omega)
  have balance : s.verifier.received.toNat+s.stalled.toNat = n*perProducer.toNat := by omega
  refine ⟨balance,fun clean => ?_,fun none => ?_⟩
  · simp only [Verdict.clean,Bool.and_eq_true,beq_iff_eq] at clean
    exact clean.1.2
  · have zero : lost = 0 := by
      rw [← stalled]
      exact congrArg UInt64.toNat none
    subst zero
    have ordered := (verified_in_order few s.downstream.popped genuine _ (flowing.unbroken left)).1
    rw [← flowing.verified] at ordered
    have sent : (UInt64.ofNat n*perProducer).toNat = s.verifier.received.toNat := by
      rw [UInt64.toNat_mul,UInt64.toNat_ofNat',Nat.mod_eq_of_lt (by omega : n < 2^64),Nat.mod_eq_of_lt small]
      omega
    have notLost : (s.verdict perProducer).lost = 0 := by
      rw [Verdict.lost,if_neg]
      rw [UInt64.lt_iff_toNat_lt]
      change ¬ s.verifier.received.toNat < (UInt64.ofNat n*perProducer).toNat
      omega
    simp only [Verdict.clean,notLost,none]
    simp [verdict,corrupted,ordered]

/-- Two producers with one item each and rings of one: the second item finds the ring
downstream full after the deadline and is given up. -/
theorem fan_in_verdict_stalled : ∃ s : FanIn 2 HandlerProcess.one,
    Reached (move 1 0) (create 2 HandlerProcess.one) s ∧ (s.consumer = .broken ∧ s.stalled = 1) ∧
      (s.verdict 1).received.toNat+(s.verdict 1).stalledPushes.toNat = 2*1 := by
  obtain ⟨s,reached,left⟩ := play_finds (move 1 0) (create 2 HandlerProcess.one)
    (List.replicate 5 (.produce 0 1) ++ List.replicate 5 (.produce 1 1) ++ List.replicate 24 (.sequence 1) ++
      [.drainRead,.drainWrite,.drainWrite,.drainRead,.sequence 1,.sequence 1] ++ List.replicate 8 .consume ++
      [.loadDone,.loadRead,.loadWrite])
    (fun s => s.consumer = .broken ∧ s.stalled = 1) (by decide +kernel)
  exact ⟨s,reached,left,((fan_in_verdict 2 (by decide) _ 1 0 (by decide) s reached).2 left.1).1⟩

end FanIn
end Llte
