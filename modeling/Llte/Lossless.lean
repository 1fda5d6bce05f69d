import Llte.Feed
import Llte.Handler

/-! The whole feed: an exchange that publishes, a network that loses, repeats and
reorders packets, and a handler that fills its gaps from the exchange's history. -/
namespace Llte
open Foundation

namespace SequenceManager
variable {cap hcap : Capacity}

/-- The buffer holds published messages only: those numbered `e` up to `s`. -/
structure Intact (w : Feed hcap) (e s : Nat) (m : SequenceManager cap) : Prop where
  sound : Sound m
  running : m.started = true
  based : m.base = e
  front : e ≤ s
  fits : s ≤ e+cap.size
  full : ∀ q, e ≤ q → q < s → m.state q = .filled
  rest : ∀ q ∈ m.window, s ≤ q → m.state q = .empty
  genuine : Holds (fun message => message ∈ w.exchange.published) m
  counted : m.stats.unrecoverable = 0

theorem Intact.grows {w w' : Feed hcap} {e s : Nat} {m : SequenceManager cap} (intact : Intact w e s m)
    (grows : w.Grows w') : Intact w' e s m :=
  {intact with genuine := intact.genuine.mono (fun _ known => grows.published.subset known)}

theorem Intact.congr {w : Feed hcap} {e s : Nat} {m m' : SequenceManager cap} (intact : Intact w e s m)
    (expected : m'.expected = m.expected) (started : m'.started = m.started)
    (slots : ∀ q, m'.slot q = m.slot q) (stats : m'.stats.unrecoverable = m.stats.unrecoverable) :
    Intact w e s m' := by
  have states (q : Nat) : m'.state q = m.state q := by rw [state,slots,state]
  have window := window_congr expected
  refine ⟨intact.sound.congr expected started slots,started.trans intact.running,?_,intact.front,intact.fits,
    ?_,?_,?_,stats.trans intact.counted⟩
  · rw [base,expected]
    exact intact.based
  · intro q low high
    rw [states]
    exact intact.full q low high
  · intro q hq high
    rw [states]
    exact intact.rest q (window ▸ hq) high
  · intro q hq held
    rw [slots]
    exact intact.genuine q (window ▸ hq) (states q ▸ held)

theorem Intact.begin {w : Feed hcap} {e s : Nat} {m : SequenceManager cap} (intact : Intact w e s m)
    (f : FeedMessage) : Intact w e s (m.begin f) := by
  refine intact.congr ?_ ?_ (begin_slot m f) (by rw [begin_stats])
  · simp [SequenceManager.begin,intact.running]
  · rw [begin_started,intact.running]

theorem Intact.store {w : Feed hcap} {e s : Nat} {b : SequenceManager cap} {f : FeedMessage}
    (intact : Intact w e s b) (next : f.sequence = s) (inside : f.sequence ∈ b.window)
    (known : f.message ∈ w.exchange.published) (room : f.sequence+1 < 2^64) :
    Intact w e (s+1) (b.store f) := by
  have based : (b.store f).base = b.base := by rw [base,store_expected,base]
  have front := intact.front
  have start := intact.based
  have bounds := (mem_window b _).mp inside
  obtain ⟨extra,stats⟩ := store_stats b f
  refine ⟨intact.sound.store intact.running inside room,?_,based.trans start,by omega,by omega,?_,?_,
    intact.genuine.store inside known,?_⟩
  · rw [store_started]
    exact intact.running
  · intro q low high
    by_cases here : q = f.sequence
    · rw [here,store_state_self inside]
    · rw [state,slot_store inside (by rw [mem_window]; omega),if_neg (fun both => here both.1)]
      exact intact.full q low (by omega)
  · intro q hq high
    rw [window_congr (store_expected b f)] at hq
    rw [state,slot_store inside hq,if_neg (by omega)]
    exact intact.rest q hq (by omega)
  · rw [stats]
    exact intact.counted

private theorem requestLoop_grows {last : UInt64} (fuel : Nat) (start : UInt64) {m r : SequenceManager cap}
    {w w' : Feed hcap} (ended : requestLoop Feed.recover last fuel start m w = some (r,w')) :
    w.Grows w' := by
  induction fuel generalizing start m w with
  | zero => simp [requestLoop] at ended
  | succ fuel ih =>
    rw [requestLoop] at ended
    split at ended
    next =>
      dsimp only at ended
      split at ended
      next w₁ asked =>
        simp only [Option.some.injEq,Prod.mk.injEq] at ended
        rw [← ended.2]
        exact .recover asked
      next answer w₁ asked => exact (Feed.Grows.recover asked).trans (ih _ ended)
    next =>
      simp only [Option.some.injEq,Prod.mk.injEq] at ended
      rw [← ended.2]
      exact .refl w

theorem recover_published {w w' : Feed hcap} {fuel : Nat} {s r : SequenceManager cap} {first last : UInt64}
    (small : last.toNat < 2^63)
    (requested : requestMissing (some Feed.recover) fuel s w first last = some (r,w')) (fine : w'.Ok) :
    Recovers (fun message => message ∈ w'.exchange.published ∧ message.sequenceNumber.toNat ≤ last.toNat) s r := by
  have phase := requestMissing_recovers
    (fun c message => c.Ok → message ∈ c.exchange.published ∧ message.sequenceNumber.toNat ≤ last.toNat)
    (by
      intro request member c start finish answer c' asked message before fine
      rw [Option.mem_some_iff] at member
      subst member
      have more := Feed.Grows.recover asked
      have past := before (more.ok fine)
      exact ⟨more.published.subset past.1,past.2⟩)
    (by
      intro request member c start finish answer c' asked _ upto entry returned fine
      rw [Option.mem_some_iff] at member
      subst member
      rw [UInt64.le_iff_toNat_le] at upto
      have genuine := Feed.recover_genuine asked fine (by omega) returned
      exact ⟨genuine.1,by omega⟩) requested
  exact phase.1.mono (fun _ allowed => allowed fine)

/-- A gap in front of an empty buffer is filled completely. -/
theorem Intact.recovery {w w' : Feed hcap} {e fuel : Nat} {b r : SequenceManager cap} {f : FeedMessage}
    (intact : Intact w e e b) (inside : f.sequence ∈ b.window) (ahead : b.base < f.sequence)
    (requested : requestMissing (some Feed.recover) fuel
      ((b.store f).noteGap b.expected (f.message.sequenceNumber - 1)) w b.expected
      (f.message.sequenceNumber - 1) = some (r,w'))
    (fine : w'.Ok) (known : f.message ∈ w.exchange.published) (small : f.sequence < 2^63) :
    Intact w' e (f.sequence+1) (r.skipLoop b.base (f.sequence - b.base)) := by
  have size := cap.bound
  have start := intact.based
  have bounds := (mem_window b _).mp inside
  have last := previous_toNat (f := f) (by omega)
  have grows : w.Grows w' := requestLoop_grows fuel _ requested
  have vacant (q : Nat) (hq : q ∈ b.window) : b.state q = .empty :=
    intact.rest q hq (by rw [mem_window,start] at hq; exact hq.1)
  have closed := gap_closed inside ahead (recover_published (by omega) requested fine)
  have fills := (recovery_fills (fun _ => True) Feed.Ok (fun _ => True)
    (fun _ _ _ _ _ _ _ _ _ => trivial)
    (fun c first finish answer c' asked fine => (Feed.Grows.recover asked).ok fine)
    (fun c first finish answer c' asked _ fine ordered batch _ => by
      obtain ⟨full,same,covers⟩ := Feed.recover_complete asked fine ordered batch
      exact ⟨full,same,fun q low high _ => covers q low high⟩)
    inside ahead (by omega) requested trivial fine).2
  generalize r.skipLoop b.base (f.sequence - b.base) = m' at closed fills
  have filled (q : Nat) (low : e ≤ q) (high : q < f.sequence) : m'.state q = .filled :=
    fills q (by omega) high trivial
  refine ⟨?_,closed.started.trans intact.running,?_,by omega,by omega,?_,?_,?_,?_⟩
  · exact intact.sound.gapClosed intact.running inside (vacant _ b.base_mem_window) (by omega) closed
  · rw [base,closed.expected]
    exact start
  · intro q low high
    by_cases here : q = f.sequence
    · rw [here,state,closed.stored (by rw [vacant _ inside]; simp)]
    · exact filled q low (by omega)
  · intro q hq high
    rw [window_congr closed.expected] at hq
    rcases closed.others q hq (by rw [vacant q hq]; simp) (by omega) with ⟨_,number,_,before⟩ | same
    · change (m'.slot q).payload.sequence ≤ _ at before
      omega
    · rw [state,same,if_neg (by omega)]
      exact vacant q hq
  · exact (intact.grows grows).genuine.gapClosed (grows.published.subset known)
      (closed.mono (fun _ allowed => allowed.1))
  · have none : (Finset.Ico b.base f.sequence).filter
        (fun q => b.state q = .empty ∧ m'.state q = .skipped) = ∅ := by
      rw [Finset.filter_eq_empty_iff]
      intro q range both
      rw [Finset.mem_Ico] at range
      rw [filled q (by omega) range.2] at both
      simp at both
    rw [closed.unrecoverable,none,intact.counted]
    rfl

theorem Accepted.grows {w w' : Feed hcap} {b m' : SequenceManager cap} {f : FeedMessage}
    (call : Accepted (some Feed.recover) b w f m' w') : w.Grows w' := by
  cases call with
  | stale old => exact .refl w
  | jump far => exact .refl w
  | plain inside quiet => exact .refl w
  | recovery inside ahead vacant fuel r w' requested => exact requestLoop_grows fuel _ requested

theorem Intact.accepted {w w' : Feed hcap} {e s : Nat} {b m' : SequenceManager cap} {f : FeedMessage}
    (intact : Intact w e s b) (call : Accepted (some Feed.recover) b w f m' w') (fine : w'.Ok)
    (known : f.message ∈ w.exchange.published) (near : f.sequence < b.base+cap.size)
    (next : e ≤ f.sequence → s = e ∨ s = f.sequence) : Intact w' e (max s (f.sequence+1)) m' := by
  have start := intact.based
  have front := intact.front
  have small : f.sequence < 2^63 := by
    have before := call.grows.ok fine
    have bounds := consecutive_bounds before.retains.consecutive known
    have limit := before.small
    exact Nat.lt_of_lt_of_le bounds.2 limit
  cases call with
  | stale old =>
    rw [Nat.max_eq_left (by omega)]
    exact intact.congr rfl rfl (fun _ => rfl) rfl
  | jump far => omega
  | plain inside quiet =>
    have bounds := (mem_window b _).mp inside
    have here : f.sequence = s := by
      rcases quiet with first | used
      · rcases next (by omega) with empty | same <;> omega
      · rcases next (by omega) with empty | same
        · have vacant := intact.rest b.base b.base_mem_window (by omega)
          exact absurd vacant used
        · exact same.symm
    rw [Nat.max_eq_right (by omega),here]
    exact intact.store here inside known (by omega)
  | recovery inside ahead vacant fuel r w' requested =>
    have empty : s = e := by
      by_contra more
      have held := intact.full b.base (by omega) (by omega)
      rw [vacant] at held
      simp at held
    subst empty
    rw [Nat.max_eq_right (by omega)]
    exact intact.recovery inside ahead requested fine known small

private theorem acceptAll_grows {fuel : Nat} (messages : List FeedMessage) {m m' : SequenceManager cap}
    {w w' : Feed hcap} {calls : List (Call cap)}
    (done : acceptAll (some Feed.recover) fuel messages m w = some (calls,m',w')) : w.Grows w' := by
  induction messages generalizing m w calls with
  | nil =>
    simp only [acceptAll,Option.some.injEq,Prod.mk.injEq] at done
    rw [← done.2.2]
    exact .refl w
  | cons f rest ih =>
    obtain ⟨m₁,w₁,later,returned,fed,_⟩ := acceptAll_cons done
    exact (accept_cases returned).grows.trans (ih fed)

/-- The rest of a packet; `s` is the next number or, behind the stream, `e`. -/
theorem acceptAll_intact {fuel : Nat} {t0Recv t1Parsed : UInt64} (messages : List MarketMessage)
    {e s : Nat} {m m' : SequenceManager cap} {w w' : Feed hcap} {calls : List (Call cap)}
    (done : acceptAll (some Feed.recover) fuel (messages.map (stamp t0Recv t1Parsed)) m w =
      some (calls,m',w'))
    (fine : w'.Ok) (consecutive : Consecutive s messages)
    (known : ∀ message ∈ messages, message ∈ w.exchange.published)
    (within : ∀ call ∈ calls, call.incoming.sequence < call.at.base+cap.size)
    (intact : Intact w e (max e s) m) : Intact w' e (max e (s+messages.length)) m' := by
  induction messages generalizing s m w calls with
  | nil =>
    simp only [List.map_nil,acceptAll,Option.some.injEq,Prod.mk.injEq] at done
    obtain ⟨_,rfl,rfl⟩ := done
    exact intact
  | cons message rest ih =>
    obtain ⟨m₁,w₁,later,returned,fed,rfl⟩ := acceptAll_cons done
    generalize feeding : stamp t0Recv t1Parsed message = f at returned within
    have number : f.sequence = s := by rw [← feeding]; exact consecutive.1
    have carried : f.message = message := by rw [← feeding]; rfl
    have call := accept_cases returned
    have fine₁ := (acceptAll_grows _ fed).ok fine
    have one := (intact.begin f).accepted call fine₁ (by rw [carried]; exact known message (by simp))
      (within ⟨m,f⟩ (by simp)) (by omega)
    have front : max (max e s) (f.sequence+1) = max e (s+1) := by omega
    rw [front] at one
    have done := ih fed consecutive.2
      (fun later member => call.grows.published.subset (known later (by simp [member])))
      (fun later member => within later (by simp [member])) one
    rw [List.length_cons,show s+(rest.length+1) = s+1+rest.length by omega]
    exact done

theorem Intact.drain {w : Feed hcap} {e s : Nat} {m : SequenceManager cap} (intact : Intact w e s m) :
    Intact w s s m.drain.2 ∧
      m.drain.1.map FeedMessage.sequence = List.range' e (s-e) ∧
      ∀ out ∈ m.drain.1, out.message ∈ w.exchange.published := by
  have start := intact.based
  have front := intact.front
  have upto := intact.fits
  obtain ⟨walked,vacant⟩ := drain_walked intact.sound intact.running
  have based : m.drain.2.base = s := by
    have notBefore : s ≤ m.drain.2.base := by
      by_cases none : s = e
      · have grown := walked.grown
        omega
      · have past := drain_passes intact.sound intact.running (s := s-1) (by omega) (by
          intro q low high
          rw [intact.full q (by omega) (by omega)]
          simp)
        omega
    by_contra other
    have within := walked.within
    have used := walked.used s (by omega) (by omega)
    exact used (intact.rest s (by rw [mem_window]; omega) (Nat.le_refl _))
  have outs : m.drain.1 = (List.range' e (s-e)).map (fun q => (m.slot q).payload) := by
    rw [walked.handed,heldIn,start,based]
    congr 1
    rw [List.filter_eq_self]
    intro q range
    rw [List.mem_range'_1] at range
    simpa using intact.full q range.1 (by omega)
  have inside (q : Nat) (range : q ∈ List.range' e (s-e)) : q ∈ m.window ∧ m.state q = .filled := by
    rw [List.mem_range'_1] at range
    exact ⟨by rw [mem_window]; omega,intact.full q range.1 (by omega)⟩
  have empty (q : Nat) (hq : q ∈ m.drain.2.window) : m.drain.2.state q = .empty := by
    rw [mem_window,based] at hq
    by_cases old : q < m.base+cap.size
    · rw [state,walked.ahead q (by omega) old]
      exact intact.rest q (by rw [mem_window]; omega) hq.1
    · exact walked.beyond q (by omega) (by omega)
  refine ⟨⟨walked.sound,walked.running,based,Nat.le_refl _,Nat.le_add_right _ _,?_,fun q hq _ => empty q hq,?_,?_⟩,?_,?_⟩
  · intro q low high
    omega
  · intro q hq held
    rw [empty q hq] at held
    simp at held
  · rw [walked.stats]
    exact intact.counted
  · rw [outs,List.map_map]
    have same : (List.range' e (s-e)).map (FeedMessage.sequence ∘ fun q => (m.slot q).payload) =
        (List.range' e (s-e)).map id := by
      apply List.map_congr_left
      intro q range
      exact intact.sound.number q (inside q range).1 (inside q range).2
    rw [same,List.map_id]
  · intro out member
    rw [outs] at member
    obtain ⟨q,range,rfl⟩ := List.mem_map.mp member
    exact intact.genuine q (inside q range).1 (inside q range).2

/-- Runs of exchange, network and handler. Any packet sent so far may arrive next,
any number of times. -/
inductive FeedRun (start : UInt64) (requested : Nat) (schedule : List Moment) :
    List (Round cap) → SequenceManager cap → Feed hcap → Prop where
  | start : FeedRun start requested schedule [] (create cap) (Feed.create hcap start requested schedule)
  | exchange {rounds : List (Round cap)} {m : SequenceManager cap} {w : Feed hcap} (s : ExchangeStep)
      (before : FeedRun start requested schedule rounds m w) :
      FeedRun start requested schedule rounds m (w.step s)
  | packet {rounds : List (Round cap)} {round : Round cap} {m m' : SequenceManager cap} {w w' : Feed hcap}
      (fuel : Nat) (t0Recv t1Parsed : UInt64) (packet : Packet)
      (before : FeedRun start requested schedule rounds m w) (sent : packet.messages ∈ w.exchange.sent)
      (handled : handlePacket (some Feed.recover) fuel t0Recv t1Parsed packet m w = some (round,m',w')) :
      FeedRun start requested schedule (rounds ++ [round]) m' w'

def delivered (rounds : List (Round cap)) : List FeedMessage := rounds.flatMap Round.outs

def firstReceived : List (Round cap) → Nat
  | [] => 0
  | round::_ => round.packet.first

def endReceived (rounds : List (Round cap)) : Nat :=
  (rounds.map (fun round => round.packet.stop)).foldl max 0

/-- What one packet does to a drained sequencer that stands at `e`. -/
theorem handlePacket_intact {fuel : Nat} {t0Recv t1Parsed : UInt64} {packet : Packet} {e : Nat}
    {m m' : SequenceManager cap} {w w' : Feed hcap} {round : Round cap}
    (handled : handlePacket (some Feed.recover) fuel t0Recv t1Parsed packet m w = some (round,m',w'))
    (fine : w'.Ok) (known : ∀ message ∈ packet.messages, message ∈ w.exchange.published)
    (within : ∀ call ∈ round.calls, call.incoming.sequence < call.at.base+cap.size)
    (ready : ∀ f : FeedMessage, f.sequence = packet.first → Intact w e e (m.begin f)) :
    w.Grows w' ∧ Intact w' (max e packet.stop) (max e packet.stop) m' ∧
      round.outs.map FeedMessage.sequence = List.range' e (max e packet.stop - e) ∧
      ∀ out ∈ round.outs, out.message ∈ w'.exchange.published := by
  obtain ⟨first,messages,nonempty,batch,consecutive⟩ := packet
  unfold handlePacket at handled
  dsimp only at handled
  split at handled
  next => simp at handled
  next calls m₂ w₂ done =>
    simp only [Option.some.injEq,Prod.mk.injEq] at handled
    obtain ⟨rfl,rfl,rfl⟩ := handled
    cases messages with
    | nil => exact absurd rfl nonempty
    | cons message rest =>
      have grows := acceptAll_grows _ done
      obtain ⟨m₁,w₁,later,returned,fed,rfl⟩ := acceptAll_cons done
      generalize feeding : stamp t0Recv t1Parsed message = f at returned within
      have number : f.sequence = first := by rw [← feeding]; exact consecutive.1
      have carried : f.message = message := by rw [← feeding]; rfl
      have call := accept_cases returned
      have one := (ready f number).accepted call ((acceptAll_grows _ fed).ok fine)
        (by rw [carried]; exact known message (by simp)) (within ⟨m,f⟩ (by simp)) (fun _ => .inl rfl)
      rw [number] at one
      have fedIntact := acceptAll_intact rest fed fine consecutive.2
        (fun later member => call.grows.published.subset (known later (by simp [member])))
        (fun later member => within later (by simp [member])) one
      have stop : first+1+rest.length = Packet.stop ⟨first,message::rest,nonempty,batch,consecutive⟩ := by
        simp only [Packet.stop,List.length_cons]
        omega
      rw [stop] at fedIntact
      exact ⟨grows,fedIntact.drain⟩

structure Rebuilt (start : UInt64) (rounds : List (Round cap)) (m : SequenceManager cap)
    (w : Feed hcap) : Prop where
  origin : w.exchange.start = start
  fresh : rounds = [] → m = create cap
  intact : rounds ≠ [] → Intact w (endReceived rounds) (endReceived rounds) m
  numbers : (delivered rounds).map FeedMessage.sequence =
    List.range' (firstReceived rounds) (endReceived rounds - firstReceived rounds)
  genuine : ∀ out ∈ delivered rounds, out.message ∈ w.exchange.published
  bounds : rounds ≠ [] → start.toNat ≤ firstReceived rounds ∧ firstReceived rounds ≤ endReceived rounds ∧
    endReceived rounds ≤ start.toNat+w.exchange.published.length

theorem Rebuilt.grows {start : UInt64} {rounds : List (Round cap)} {m : SequenceManager cap}
    {w w' : Feed hcap} (rebuilt : Rebuilt start rounds m w) (grows : w.Grows w') :
    Rebuilt start rounds m w' := by
  have longer := grows.published.length_le
  refine ⟨grows.start.trans rebuilt.origin,rebuilt.fresh,fun some_ => (rebuilt.intact some_).grows grows,
    rebuilt.numbers,fun out member => grows.published.subset (rebuilt.genuine out member),?_⟩
  intro some_
  have bounds := rebuilt.bounds some_
  omega

private theorem endReceived_append (rounds : List (Round cap)) (round : Round cap) :
    endReceived (rounds ++ [round]) = max (endReceived rounds) round.packet.stop := by
  simp [endReceived]

private theorem firstReceived_append (rounds : List (Round cap)) (round : Round cap) :
    firstReceived (rounds ++ [round]) =
      if rounds = [] then round.packet.first else firstReceived rounds := by
  cases rounds <;> simp [firstReceived]

theorem Intact.first {f : FeedMessage} (w : Feed hcap) :
    Intact w f.sequence f.sequence ((create cap).begin f) := by
  have sound := (Sound.create cap).begin f
  have vacant (q : Nat) : ((create cap).begin f).state q = .empty := by
    rw [state,begin_slot]
    exact (Sound.create cap).fresh rfl q
  refine ⟨sound,begin_started _ f,?_,Nat.le_refl _,Nat.le_add_right _ _,?_,fun q _ _ => vacant q,?_,?_⟩
  · rw [begin_base]
    rfl
  · intro q low high
    omega
  · intro q _ held
    rw [vacant] at held
    simp at held
  · rw [begin_stats]
    rfl

private theorem sent_within {w : Feed hcap} {packet : Packet} (sent : packet.messages ∈ w.exchange.sent) (fine : w.Ok) :
    w.exchange.start.toNat ≤ packet.first ∧ packet.first < packet.stop ∧
      packet.stop ≤ w.exchange.start.toNat+w.exchange.published.length := by
  have known : ∀ message ∈ packet.messages, message ∈ w.exchange.published :=
    fun message member => (w.publishes.sent _ sent).2.2.subset member
  have all := fine.retains.consecutive
  have upper := packet.stop_le (fun message member => (consecutive_bounds all (known message member)).2)
  obtain ⟨first,messages,nonempty,batch,consecutive⟩ := packet
  cases messages with
  | nil => exact absurd rfl nonempty
  | cons message rest =>
    have lower := (consecutive_bounds all (known message (by simp))).1
    rw [consecutive.1] at lower
    refine ⟨lower,?_,upper⟩
    simp only [Packet.stop,List.length_cons]
    omega

theorem Rebuilt.packet {start : UInt64} {rounds : List (Round cap)} {m m' : SequenceManager cap}
    {w w' : Feed hcap} {round : Round cap} {fuel : Nat} {t0Recv t1Parsed : UInt64} {packet : Packet}
    (rebuilt : Rebuilt start rounds m w) (sent : packet.messages ∈ w.exchange.sent)
    (handled : handlePacket (some Feed.recover) fuel t0Recv t1Parsed packet m w = some (round,m',w'))
    (before : w.Ok) (fine : w'.Ok)
    (within : ∀ call ∈ round.calls, call.incoming.sequence < call.at.base+cap.size) :
    Rebuilt start (rounds ++ [round]) m' w' := by
  have same := (handlePacket_round handled).2
  have known : ∀ message ∈ packet.messages, message ∈ w.exchange.published :=
    fun message member => (w.publishes.sent _ sent).2.2.subset member
  have located := sent_within sent before
  rw [rebuilt.origin] at located
  rw [← same] at located
  by_cases none : rounds = []
  · obtain ⟨grows,intact,numbers,genuine⟩ := handlePacket_intact (e := packet.first) handled fine known within
      (by
        intro f number
        rw [rebuilt.fresh none,← number]
        exact .first w)
    have longer := grows.published.length_le
    rw [← same,Nat.max_eq_right (by omega)] at intact numbers
    subst none
    have ends : endReceived ([] ++ [round]) = round.packet.stop := by simp [endReceived]
    refine ⟨grows.start.trans rebuilt.origin,by simp,?_,?_,?_,?_⟩
    · intro _
      rw [ends]
      exact intact
    · rw [ends]
      simpa [delivered,firstReceived] using numbers
    · intro out member
      exact genuine out (by simpa [delivered] using member)
    · intro _
      rw [ends]
      simp only [List.nil_append,firstReceived]
      omega
  · obtain ⟨grows,intact,numbers,genuine⟩ := handlePacket_intact handled fine known within
      (fun f _ => (rebuilt.intact none).begin f)
    have longer := grows.published.length_le
    have bounds := rebuilt.bounds none
    rw [← same] at intact numbers
    have whole : delivered (rounds ++ [round]) = delivered rounds ++ round.outs := by simp [delivered]
    refine ⟨grows.start.trans rebuilt.origin,by simp,?_,?_,?_,?_⟩
    · intro _
      rw [endReceived_append]
      exact intact
    · rw [whole,List.map_append,rebuilt.numbers,numbers,endReceived_append,firstReceived_append,if_neg none]
      have upto : firstReceived rounds+(endReceived rounds - firstReceived rounds) = endReceived rounds := by
        omega
      have count : max (endReceived rounds) round.packet.stop - firstReceived rounds =
          (endReceived rounds - firstReceived rounds)+(max (endReceived rounds) round.packet.stop -
            endReceived rounds) := by
        omega
      rw [count,← List.range'_append_1,upto]
    · intro out member
      rw [whole,List.mem_append] at member
      rcases member with earlier | newest
      · exact grows.published.subset (rebuilt.genuine out earlier)
      · exact genuine out newest
    · intro _
      rw [endReceived_append,firstReceived_append,if_neg none]
      omega

private theorem handlePacket_grows {fuel : Nat} {t0Recv t1Parsed : UInt64} {packet : Packet}
    {m m' : SequenceManager cap} {w w' : Feed hcap} {round : Round cap}
    (handled : handlePacket (some Feed.recover) fuel t0Recv t1Parsed packet m w = some (round,m',w')) :
    w.Grows w' := by
  unfold handlePacket at handled
  split at handled
  next => simp at handled
  next calls m₁ w₁ done =>
    simp only [Option.some.injEq,Prod.mk.injEq] at handled
    rw [← handled.2.2]
    exact acceptAll_grows _ done

private theorem feedRun_grows {start : UInt64} {requested : Nat} {schedule : List Moment}
    {rounds : List (Round cap)} {m : SequenceManager cap} {w : Feed hcap}
    (run : FeedRun start requested schedule rounds m w) :
    (Feed.create hcap start requested schedule).Grows w := by
  induction run with
  | start => exact .refl _
  | exchange s before ih => exact ih.trans (.step _ s)
  | packet fuel t0Recv t1Parsed packet before sent handled ih =>
    exact ih.trans (handlePacket_grows handled)

theorem feedRun_rebuilt {start : UInt64} {requested : Nat} {schedule : List Moment}
    {rounds : List (Round cap)} {m : SequenceManager cap} {w : Feed hcap}
    (run : FeedRun start requested schedule rounds m w) (fine : w.Ok)
    (within : ∀ round ∈ rounds, ∀ call ∈ round.calls, call.incoming.sequence < call.at.base+cap.size) :
    Rebuilt start rounds m w := by
  induction run with
  | start => exact ⟨rfl,fun _ => rfl,by simp,rfl,by simp [delivered],by simp⟩
  | @exchange rounds m w s before ih =>
    have grows := Feed.Grows.step w s
    exact (ih (grows.ok fine) within).grows grows
  | @packet rounds round m m' w w' fuel t0Recv t1Parsed packet before sent handled ih =>
    have ok := (handlePacket_grows handled).ok fine
    have rebuilt := ih ok (fun one member => within one (by simp [member]))
    exact rebuilt.packet sent handled ok fine (within round (by simp))

/-- Lossless reconstruction: as long as recovery answers from retained messages, the
numbers stay below `2^63` and none reaches past the reorder window, the handler
delivers exactly the published messages from the first number received to the
highest one, in order, and gives nothing up; and it gets through every packet. -/
theorem lossless_reconstruction (start : UInt64) (requested : Nat) (schedule : List Moment)
    (rounds : List (Round cap)) (m : SequenceManager cap) (w : Feed hcap)
    (run : FeedRun start requested schedule rounds m w) (answered : w.failed = false)
    (small : start.toNat+w.exchange.published.length ≤ 2^63)
    (within : ∀ round ∈ rounds, ∀ call ∈ round.calls, call.incoming.sequence < call.at.base+cap.size) :
    (delivered rounds).map FeedMessage.message =
      between (firstReceived rounds) (endReceived rounds) w.exchange.published ∧
    (delivered rounds).map FeedMessage.sequence =
      List.range' (firstReceived rounds) (endReceived rounds - firstReceived rounds) ∧
    m.stats.unrecoverable = 0 ∧
    ∀ packet : Packet, packet.messages ∈ w.exchange.sent → ∀ t0Recv t1Parsed, ∃ fuel round m' w',
      handlePacket (some Feed.recover) fuel t0Recv t1Parsed packet m w = some (round,m',w') := by
  have origin : w.exchange.start = start := (feedRun_grows run).start
  have fine : w.Ok := ⟨answered,by rw [origin]; exact small⟩
  have rebuilt := feedRun_rebuilt run fine within
  have all := fine.retains.consecutive
  rw [origin] at all
  refine ⟨?_,rebuilt.numbers,?_,?_⟩
  · refine consecutive_select all ?_ (fun message member => List.mem_of_mem_filter member) ?_
    · intro message member
      obtain ⟨out,handed,rfl⟩ := List.mem_map.mp member
      exact rebuilt.genuine out handed
    · rw [List.map_map]
      refine rebuilt.numbers.trans ?_
      by_cases none : rounds = []
      · subst none
        simp [firstReceived,endReceived,between]
      · have bounds := rebuilt.bounds none
        rw [between_numbers all bounds.1 bounds.2.2]
  · by_cases none : rounds = []
    · rw [rebuilt.fresh none]
      rfl
    · exact (rebuilt.intact none).counted
  · intro packet sent t0Recv t1Parsed
    refine handlePacket_returns _ t0Recv t1Parsed packet m w ?_
    intro message member
    have known := (w.publishes.sent _ sent).2.2.subset member
    exact Nat.lt_of_lt_of_le (consecutive_bounds all known).2 small

/-- A packet of one message of which only the number matters. -/
def single (sequence : UInt64) : Packet where
  first := sequence.toNat
  messages := [{sequenceNumber := sequence}]
  nonempty := by simp
  batch := by simp [kMaxBatch]
  consecutive := ⟨rfl,trivial⟩

def published3 : Feed eight :=
  (Feed.create eight 1001 1 []).elapse [.publish default,.publish default,.publish default]

/-- The packet of 1002 is lost and the one of 1003 arrives: 1002 comes back through
recovery, and the stream is complete. -/
theorem lossless_reconstruction_gap : ∃ (rounds : List (Round four)) (m : SequenceManager four)
    (w : Feed eight), FeedRun 1001 1 [] rounds m w ∧ rounds.length = 2 ∧
    w.exchange.published.length = 3 ∧
    (delivered rounds).map FeedMessage.message = between 1001 1004 w.exchange.published ∧
    m.stats.messagesRecovered = 1 := by
  have checked : (handlePacket (some Feed.recover) 2 0 0 (single 1001) (create four) published3).any
      (fun a => (handlePacket (some Feed.recover) 2 0 0 (single 1003) a.2.1 a.2.2).any (fun b =>
        ((single 1003).messages ∈ a.2.2.exchange.sent ∧ b.2.2.failed = false ∧
          (1001 : UInt64).toNat+b.2.2.exchange.published.length ≤ 2^63 ∧
          ∀ round ∈ [a.1,b.1], ∀ call ∈ round.calls,
            call.incoming.sequence < call.at.base+four.size) ∧
        b.2.2.exchange.published.length = 3 ∧ b.2.1.stats.messagesRecovered = 1 ∧
        firstReceived [a.1,b.1] = 1001 ∧ endReceived [a.1,b.1] = 1004)) = true := by
    decide +kernel
  obtain ⟨⟨first,m₁,w₁⟩,handled,rest⟩ := (Option.any_eq_true _ _).mp checked
  obtain ⟨⟨second,m₂,w₂⟩,handled₂,seen⟩ := (Option.any_eq_true _ _).mp rest
  obtain ⟨⟨sent,answered,small,within⟩,count,recovered,low,high⟩ := of_decide_eq_true seen
  have run : FeedRun 1001 1 [] [first,second] m₂ w₂ :=
    .packet 2 0 0 (single 1003) (.packet 2 0 0 (single 1001)
      (.exchange (.publish default) (.exchange (.publish default) (.exchange (.publish default) .start)))
      (by decide +kernel) handled) sent handled₂
  have law := lossless_reconstruction 1001 1 [] [first,second] m₂ w₂ run answered small within
  rw [low,high] at law
  exact ⟨[first,second],m₂,w₂,run,rfl,count,law.1,recovered⟩

end SequenceManager
end Llte
