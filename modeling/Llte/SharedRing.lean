import Llte.Foundation.Machine
import Llte.Shutdown
import Mathlib.Data.List.Perm.Basic

/-! The race demonstration in its broken form: several producers call `try_push` on one
ring. Every load, store and slot copy is a step of its own, and nothing is reordered; the
ring loses values all the same. -/
namespace Llte
open Foundation

structure SharedRing (n : Nat) (α : Type) (p : PowerOfTwo) where
  queue : SpscQueue α p
  producers : Fin n → Option (Push α) := fun _ => none
  consumer : Option (Pop α) := none
  published : List α := []
  popped : List α := []

inductive SharedMove (n : Nat) (α : Type) where
  | callPush (id : Fin n) (value : α)
  | push (id : Fin n)
  | callPop
  | pop

namespace SharedRing
variable {n : Nat} {α : Type} {p : PowerOfTwo}

def create (n : Nat) (α : Type) [Inhabited α] (p : PowerOfTwo) (origin : UInt64) : SharedRing n α p where
  queue := SpscQueue.create α p origin

def goto (s : SharedRing n α p) (id : Fin n) (phase : Option (Push α)) : SharedRing n α p :=
  {s with producers := Function.update s.producers id phase}

def move (s : SharedRing n α p) : SharedMove n α → Option (SharedRing n α p)
  | .callPush id value =>
    match s.producers id with
    | none => some (s.goto id (some (.load value)))
    | some _ => none
  | .push id =>
    match s.producers id with
    | none => none
    | some phase =>
      match phase.step s.queue with
      | (queue,.inl next) => some {s.goto id (some next) with queue := queue}
      | (queue,.inr true) =>
        some {s.goto id none with queue := queue, published := s.published ++ [phase.value]}
      | (queue,.inr false) => some {s.goto id none with queue := queue}
  | .callPop =>
    match s.consumer with
    | none => some {s with consumer := some .load}
    | some _ => none
  | .pop =>
    match s.consumer with
    | none => none
    | some phase =>
      match phase.step s.queue with
      | (queue,.inl next) => some {s with queue := queue, consumer := some next}
      | (queue,.inr (some out)) => some {s with queue := queue, consumer := none, popped := s.popped ++ [out]}
      | (queue,.inr none) => some {s with queue := queue, consumer := none}

/-- All calls have returned and the ring is empty. -/
def Quiet (s : SharedRing n α p) : Prop :=
  (∀ id, s.producers id = none) ∧ s.consumer = none ∧ s.queue.readIdx = s.queue.writeIdx

/-- With one producer this is the ring of `Spsc`. -/
structure Alone (s : SharedRing n α p) (t : Spsc α p) : Prop where
  queue : t.queue = s.queue
  producer : ∀ id, t.producer = s.producers id
  consumer : t.consumer = s.consumer
  published : t.published = s.published
  popped : t.popped = s.popped

variable {s s' : SharedRing n α p} {t : Spsc α p}

private theorem goto_only (only : n ≤ 1) (id : Fin n) (phase : Option (Push α)) (j : Fin n) :
    (s.goto id phase).producers j = phase := by
  have same : j = id := Fin.ext (by omega)
  rw [same]
  exact Function.update_self _ _ _

theorem Alone.move (alone : Alone s t) (only : n ≤ 1) {m : SharedMove n α} (taken : s.move m = some s') :
    ∃ t', Spsc.Step t t' ∧ Alone s' t' := by
  cases m with
  | callPush id value =>
    simp only [SharedRing.move] at taken
    split at taken
    next idle =>
      rw [← Option.some.inj taken]
      exact ⟨_,.callPush value ((alone.producer id).trans idle),
        {alone with producer := fun j => (goto_only only id _ j).symm}⟩
    next => simp at taken
  | push id =>
    cases running : s.producers id with
    | none => simp [SharedRing.move,running] at taken
    | some phase =>
      refine ⟨t.push phase,.push phase ((alone.producer id).trans running),?_⟩
      have moved (next : Option (Push α)) (j : Fin n) := (goto_only (s := s) only id next j).symm
      obtain ⟨result,outcome⟩ : ∃ result, phase.step s.queue = result := ⟨_,rfl⟩
      simp only [SharedRing.move,running,outcome] at taken
      simp only [Spsc.push,alone.queue,outcome]
      rcases result with ⟨queue,next | ok⟩
      · rw [← Option.some.inj taken]
        exact {alone with queue := rfl, producer := moved _}
      · cases ok with
        | true =>
          rw [← Option.some.inj taken]
          exact {alone with queue := rfl, producer := moved _, published := by rw [alone.published]}
        | false =>
          rw [← Option.some.inj taken]
          exact {alone with queue := rfl, producer := moved _}
  | callPop =>
    simp only [SharedRing.move] at taken
    split at taken
    next idle =>
      rw [← Option.some.inj taken]
      exact ⟨_,.callPop (alone.consumer.trans idle),{alone with consumer := rfl}⟩
    next => simp at taken
  | pop =>
    cases running : s.consumer with
    | none => simp [SharedRing.move,running] at taken
    | some phase =>
      refine ⟨t.pop phase,.pop phase (alone.consumer.trans running),?_⟩
      obtain ⟨result,outcome⟩ : ∃ result, phase.step s.queue = result := ⟨_,rfl⟩
      simp only [SharedRing.move,running,outcome] at taken
      simp only [Spsc.pop,alone.queue,outcome]
      rcases result with ⟨queue,next | answer⟩
      · rw [← Option.some.inj taken]
        exact {alone with queue := rfl, consumer := rfl}
      · cases answer with
        | some out =>
          rw [← Option.some.inj taken]
          exact {alone with queue := rfl, consumer := rfl, popped := by rw [alone.popped]}
        | none =>
          rw [← Option.some.inj taken]
          exact {alone with queue := rfl, consumer := rfl}

theorem reached_alone [Inhabited α] (only : n ≤ 1) {origin : UInt64}
    (reached : Reached SharedRing.move (create n α p origin) s) :
    ∃ t, Relation.ReflTransGen Spsc.Step (Spsc.create α p origin) t ∧ Alone s t := by
  refine reached.invariant
    (I := fun s => ∃ t, Relation.ReflTransGen Spsc.Step (Spsc.create α p origin) t ∧ Alone s t)
    ⟨_,.refl,rfl,fun _ => rfl,rfl,rfl,rfl⟩ ?_
  rintro s m s' ⟨t,passed,alone⟩ taken
  obtain ⟨t',step,alone'⟩ := alone.move only taken
  exact ⟨t',passed.tail step,alone'⟩

/-- Both producers load the same write index, so the second copy overwrites the first and
the second store publishes the same slot again. -/
theorem collision [Inhabited α] (p : PowerOfTwo) (origin : UInt64) (several : 2 ≤ n) :
    ∃ s : SharedRing n α p, Reached SharedRing.move (create n α p origin) s ∧ s.Quiet ∧ s.published.length = 2 ∧
      s.popped.length = 1 := by
  have roomy : ¬ p.capacity.size ≤ 0 := Nat.not_le.mpr p.capacity.pos
  let first : Fin n := ⟨0,by omega⟩
  let second : Fin n := ⟨1,by omega⟩
  have apart : second ≠ first := by simp [first,second]
  have played : ∃ s : SharedRing n α p, play SharedRing.move [.callPush first default,.callPush second default,
      .push first,.push second,.push first,.push second,.push first,.push second,.callPop,.pop,.pop,.pop,.pop]
      (create n α p origin) = some s ∧ s.Quiet ∧ s.published.length = 2 ∧ s.popped.length = 1 := by
    simp [play,SharedRing.move,create,goto,apart,apart.symm,Push.step,Pop.step,SpscQueue.create,SpscQueue.full,roomy]
    refine ⟨fun id => ?_,rfl,rfl⟩
    simp only [Function.update_apply]
    split_ifs <;> rfl
  obtain ⟨s,played,lost⟩ := played
  exact ⟨s,play_reached played,lost⟩

/-- Whether everything published is there once all calls have returned and the ring is
empty depends on the number of producers alone: one is safe, two or more are not, at any
capacity. -/
theorem shared_ring_intact_iff (n : Nat) (α : Type) [Inhabited α] (p : PowerOfTwo) (origin : UInt64) :
    (∀ s : SharedRing n α p, Reached SharedRing.move (create n α p origin) s → s.Quiet →
      s.popped.Perm s.published) ↔ n ≤ 1 := by
  constructor
  · intro intact
    by_contra several
    obtain ⟨s,reached,quiet,published,popped⟩ := collision (α := α) p origin (by omega : 2 ≤ n)
    have same := (intact s reached quiet).length_eq
    omega
  · intro only s reached quiet
    obtain ⟨t,passed,alone⟩ := reached_alone only reached
    obtain ⟨seenRead,seenWrite,linked⟩ := Spsc.reachable_linked passed
    have drained := linked.drained (by rw [alone.queue]; exact quiet.2.2)
    rw [alone.popped,alone.published] at drained
    rw [drained]

end SharedRing
end Llte
