import Llte.Exchange
import Llte.SequencerCalls

/-! The exchange as a recovery client: requests are answered from its history while
it keeps publishing. A schedule says what it does before each request is served. -/
namespace Llte
open Foundation

namespace SequenceManager
variable {cap : Capacity} {σ : Type}

private theorem recoverMessages_fills (arrived : UInt64) (entries : List (MarketMessage × UInt64))
    (m : SequenceManager cap) {entry : MarketMessage × UInt64} (member : entry ∈ entries)
    (inside : entry.1.sequenceNumber.toNat ∈ m.window) :
    (entries.foldl (recoverMessage arrived) m).state entry.1.sequenceNumber.toNat = .filled := by
  induction entries generalizing m with
  | nil => simp at member
  | cons head rest ih =>
    have first := recoverMessage_recovers (fun _ => True) arrived m head trivial
    rw [List.foldl_cons]
    rcases List.mem_cons.mp member with rfl | later
    · have taken : (recoverMessage arrived m entry).state entry.1.sequenceNumber.toNat = .filled := by
        unfold recoverMessage
        dsimp only
        rw [if_neg ((inside_iff m _).mpr inside)]
        split
        next held => exact held
        next => simp [state,slot]
      have rest := recoverMessages_recovers (fun _ => True) arrived rest (recoverMessage arrived m entry)
        (fun _ _ => trivial)
      rw [state,rest.keeps (by rw [first.window]; exact inside) taken]
      exact taken
    · exact ih _ later (by rw [first.window]; exact inside)

section Complete
variable {request : Client σ} (known ok : σ → Prop) (available : Nat → Prop)
  (forward : ∀ c start finish answer c', request c start finish = (answer,c') → known c →
    start ≤ finish → finish.toNat+1 < 2^64 → known c')
  (backward : ∀ c start finish answer c', request c start finish = (answer,c') → ok c' → ok c)
  (complete : ∀ c start finish answer c', request c start finish = (answer,c') → known c → ok c' →
    start ≤ finish → finish.toNat < start.toNat+1024 → finish.toNat+1 < 2^64 →
    ∃ full, answer = some full ∧ ∀ q, start.toNat ≤ q → q ≤ finish.toNat → available q →
      ∃ entry ∈ full.messages, entry.1.sequenceNumber.toNat = q)
include forward backward complete

/-- `known` is what holds of the client from here on, `ok` what its end state shows
to have held all along. -/
theorem requestLoop_fills {last : UInt64} (room : last.toNat+1024 < 2^64) (fuel : Nat) (start : UInt64)
    (m r : SequenceManager cap) (c c' : σ)
    (ended : requestLoop request last fuel start m c = some (r,c')) (begun : known c) (fine : ok c') :
    ok c ∧ known c' ∧ ∀ q ∈ m.window, start.toNat ≤ q → q ≤ last.toNat → available q → r.state q = .filled := by
  induction fuel generalizing start m c with
  | zero => simp [requestLoop] at ended
  | succ fuel ih =>
    rw [requestLoop] at ended
    split at ended
    next more =>
      have below := UInt64.le_iff_toNat_le.mp more
      have next := nextBatch_toNat start
      have upto := batchEnd_toNat last start
      rw [Nat.mod_eq_of_lt (by omega)] at next upto
      generalize min last (start + kMaxRecoveryBatch - 1) = finish at ended upto
      have ordered : start ≤ finish := by
        rw [UInt64.le_iff_toNat_le]
        omega
      dsimp only at ended
      split at ended
      next c₁ asked =>
        simp only [Option.some.injEq,Prod.mk.injEq] at ended
        obtain ⟨rfl,rfl⟩ := ended
        obtain ⟨full,missing,_⟩ := complete _ _ _ _ _ asked begun fine ordered (by omega) (by omega)
        simp at missing
      next answer c₁ asked =>
        have begun₁ := forward _ _ _ _ _ asked begun ordered (by omega)
        obtain ⟨fine₁,known₁,later⟩ := ih _ _ _ ended begun₁
        obtain ⟨full,same,covers⟩ := complete _ _ _ _ _ asked begun fine₁ ordered (by omega) (by omega)
        simp only [Option.some.injEq] at same
        subst same
        generalize counted : ({m with
          stats.recoveryRequests := m.stats.recoveryRequests+1} : SequenceManager cap) = m₁ at ended later
        have window₁ : m₁.window = m.window := by rw [← counted]; rfl
        have phase := recoverMessages_recovers (fun _ => True) answer.arrived answer.messages m₁
          (fun _ _ => trivial)
        have rest := requestLoop_recovers (fun _ _ => True) (fun _ _ _ _ _ _ _ known => known)
          (fun _ _ _ _ _ _ _ _ _ _ => trivial) _ _ _ _ _ _ ended
        refine ⟨backward _ _ _ _ _ asked fine₁,known₁,?_⟩
        intro q hq low high there
        by_cases here : q ≤ finish.toNat
        · obtain ⟨entry,member,number⟩ := covers q low here there
          have filled := recoverMessages_fills answer.arrived answer.messages m₁ member
            (by rw [number,window₁]; exact hq)
          rw [number] at filled
          rw [state,rest.1.keeps (by rw [phase.window,window₁]; exact hq) filled]
          exact filled
        · exact later q (by rw [phase.window,window₁]; exact hq) (by omega) high there
    next done =>
      simp only [Option.some.injEq,Prod.mk.injEq] at ended
      obtain ⟨rfl,rfl⟩ := ended
      refine ⟨fine,begun,?_⟩
      intro q _ low high
      rw [UInt64.le_iff_toNat_le] at done
      omega

/-- After `accept` has closed a gap, every available number of the gap is held. -/
theorem recovery_fills {b r : SequenceManager cap} {f : FeedMessage} {fuel : Nat} {c c' : σ}
    (inside : f.sequence ∈ b.window) (ahead : b.base < f.sequence) (room : f.sequence+1024 < 2^64)
    (requested : requestMissing (some request) fuel
      ((b.store f).noteGap b.expected (f.message.sequenceNumber - 1)) c b.expected
      (f.message.sequenceNumber - 1) = some (r,c')) (begun : known c) (fine : ok c') :
    known c' ∧ ∀ q, b.base ≤ q → q < f.sequence → available q →
      (r.skipLoop b.base (f.sequence - b.base)).state q = .filled := by
  have bounds := (mem_window b _).mp inside
  have last := previous_toNat (f := f) (by omega)
  obtain ⟨_,still,fills⟩ := requestLoop_fills known ok available forward backward complete (by omega)
    fuel _ _ _ _ _ requested begun fine
  have phase := requestLoop_recovers (fun _ _ => True) (fun _ _ _ _ _ _ _ known => known)
    (fun _ _ _ _ _ _ _ _ _ _ => trivial) _ _ _ _ _ _ requested
  have noted : ((b.store f).noteGap b.expected (f.message.sequenceNumber - 1)).window = b.window :=
    window_congr (store_expected b f)
  have window : r.window = b.window := phase.1.window.trans noted
  have pass := skipLoop_skips (m := r) b.base (f.sequence - b.base)
    (fun q low high => by rw [window,mem_window]; omega)
  refine ⟨still,?_⟩
  intro q low high there
  have hq : q ∈ b.window := by rw [mem_window]; omega
  have held : r.state q = .filled := fills q (by rw [noted]; exact hq) low (by omega) there
  rw [state,pass.slots q (by rw [window]; exact hq),if_neg (by rw [held]; simp)]
  exact held

end Complete

end SequenceManager

/-- What the exchange does before one request is served, and the clock readings
taken around the answer. -/
structure Moment where
  steps : List ExchangeStep
  arrived : UInt64
  stored : Nat → UInt64

/-- The exchange with its future; `failed` records whether some request was not
answered or asked for messages no longer retained. -/
structure Feed (cap : Capacity) where
  exchange : Exchange cap
  publishes : exchange.Publishes
  schedule : List Moment
  failed : Bool

namespace Feed
variable {cap : Capacity}

def create (cap : Capacity) (start : UInt64) (requested : Nat) (schedule : List Moment) : Feed cap where
  exchange := Exchange.create cap start requested
  publishes := .create cap start requested
  schedule := schedule
  failed := false

def step (w : Feed cap) (s : ExchangeStep) : Feed cap :=
  {w with exchange := w.exchange.step s, publishes := w.publishes.step s}

def elapse (w : Feed cap) (steps : List ExchangeStep) : Feed cap := steps.foldl step w

def arrive (w : Feed cap) : Feed cap :=
  match w.schedule with
  | [] => w
  | moment::later => {w.elapse moment.steps with schedule := later}

def arrived (w : Feed cap) : UInt64 := (w.schedule.head?.map Moment.arrived).getD 0

def stored (w : Feed cap) (i : Nat) : UInt64 := (w.schedule.head?.map (fun moment => moment.stored i)).getD 0

/-- `request(from, to)` over a connection that works. -/
def recover : Client (Feed cap) := fun w first last =>
  let served := w.arrive
  if last < first then (none,{served with failed := true})
  else
    match served.exchange.history.serve (last.toNat - first.toNat + 2) first last with
    | none => (none,{served with failed := true})
    | some messages =>
      (some ⟨w.arrived,messages.mapIdx (fun i message => (message,w.stored i))⟩,
        {served with failed := served.failed || !served.exchange.history.retained first last})

structure Grows (w w' : Feed cap) : Prop where
  start : w'.exchange.start = w.exchange.start
  published : w.exchange.published <+: w'.exchange.published
  failed : w'.failed = false → w.failed = false

namespace Grows
variable {w w' w'' : Feed cap}

theorem refl (w : Feed cap) : Grows w w := ⟨rfl,List.prefix_refl _,id⟩

theorem trans (first : Grows w w') (second : Grows w' w'') : Grows w w'' :=
  ⟨second.start.trans first.start,first.published.trans second.published,
    fun fine => first.failed (second.failed fine)⟩

theorem step (w : Feed cap) (s : ExchangeStep) : Grows w (w.step s) :=
  ⟨w.exchange.step_start s,w.exchange.step_published s,id⟩

theorem elapse (steps : List ExchangeStep) (w : Feed cap) : Grows w (w.elapse steps) := by
  induction steps generalizing w with
  | nil => exact .refl w
  | cons s rest ih => exact (Grows.step w s).trans (ih (w.step s))

private theorem arrive (w : Feed cap) : Grows w w.arrive := by
  unfold Feed.arrive
  split
  next => exact .refl w
  next moment later _ =>
    have run := Grows.elapse moment.steps w
    exact ⟨run.start,run.published,run.failed⟩

theorem recover {first last : UInt64} {answer : Option Answer}
    (asked : recover w first last = (answer,w')) : Grows w w' := by
  have served := Grows.arrive w
  unfold Feed.recover at asked
  dsimp only at asked
  split at asked
  next =>
    simp only [Prod.mk.injEq] at asked
    rw [← asked.2]
    exact ⟨served.start,served.published,by simp⟩
  next =>
    split at asked
    next =>
      simp only [Prod.mk.injEq] at asked
      rw [← asked.2]
      exact ⟨served.start,served.published,by simp⟩
    next =>
      simp only [Prod.mk.injEq] at asked
      rw [← asked.2]
      refine ⟨served.start,served.published,?_⟩
      intro fine
      simp only [Bool.or_eq_false_iff] at fine
      exact served.failed fine.1

end Grows

/-- Every request so far was answered from retained messages, and the numbers have
stayed below `2^63`. -/
structure Ok (w : Feed cap) : Prop where
  answered : w.failed = false
  small : w.exchange.start.toNat+w.exchange.published.length ≤ 2^63

theorem Grows.ok {w w' : Feed cap} (grows : Grows w w') (fine : Ok w') : Ok w := by
  have longer := grows.published.length_le
  have small := fine.small
  rw [grows.start] at small
  exact ⟨grows.failed fine.answered,by omega⟩

theorem Ok.retains {w : Feed cap} (fine : Ok w) :
    w.exchange.history.Retains w.exchange.start.toNat w.exchange.published :=
  (w.publishes.numbers fine.small).2

section Answers
variable {w w' : Feed cap} {first last : UInt64}

theorem recover_genuine {full : Answer} (asked : recover w first last = (some full,w')) (fine : Ok w')
    (room : last.toNat+1 < 2^64) {entry : MarketMessage × UInt64} (member : entry ∈ full.messages) :
    entry.1 ∈ w'.exchange.published ∧ first.toNat ≤ entry.1.sequenceNumber.toNat ∧
      entry.1.sequenceNumber.toNat ≤ last.toNat := by
  unfold recover at asked
  dsimp only at asked
  split at asked
  next => simp at asked
  next =>
    split at asked
    next => simp at asked
    next messages served =>
      simp only [Prod.mk.injEq,Option.some.injEq] at asked
      obtain ⟨rfl,rfl⟩ := asked
      obtain ⟨i,inside,rfl⟩ := List.mem_mapIdx.mp member
      exact HistoryStore.serve_genuine fine.retains room served (List.getElem_mem inside)

theorem recover_complete {answer : Option Answer} (asked : recover w first last = (answer,w'))
    (fine : Ok w') (ordered : first ≤ last) (batch : last.toNat < first.toNat+1024) :
    ∃ full, answer = some full ∧ ∀ q, first.toNat ≤ q → q ≤ last.toNat →
      ∃ entry ∈ full.messages, entry.1.sequenceNumber.toNat = q := by
  unfold recover at asked
  dsimp only at asked
  rw [if_neg (UInt64.not_lt.mpr ordered)] at asked
  split at asked
  next =>
    simp only [Prod.mk.injEq] at asked
    have failed := fine.answered
    rw [← asked.2] at failed
    simp at failed
  next messages served =>
    simp only [Prod.mk.injEq] at asked
    obtain ⟨rfl,rfl⟩ := asked
    have answered := fine.answered
    simp only [Bool.or_eq_false_iff,Bool.not_eq_false'] at answered
    rw [HistoryStore.serve_retained ordered batch answered.2,Option.some.injEq] at served
    refine ⟨_,rfl,?_⟩
    intro q low high
    have inside : q - first.toNat < messages.length := by
      rw [← served,List.length_map,List.length_range']
      omega
    refine ⟨_,List.mem_mapIdx.mpr ⟨q - first.toNat,inside,rfl⟩,?_⟩
    have entry : messages[q - first.toNat] = w.arrive.exchange.history.ring.get q := by
      simp only [← served,List.getElem_map,List.getElem_range']
      congr 1
      omega
    have available := (HistoryStore.retained_iff _ _ _).mp answered.2
    have retains : w.arrive.exchange.history.Retains w.arrive.exchange.start.toNat
        w.arrive.exchange.published := fine.retains
    rw [entry]
    exact (retains.get available.1 (by omega) (by omega)).2

end Answers
end Feed

end Llte
