import Llte.SequencerWindow
import Mathlib.Logic.Relation

/-! The two calls of the sequencer taken apart: the four ways `accept` can go, and
the chain of passed-over slots in front of whatever `next_deliverable` finds. -/
namespace Llte.SequenceManager
open Foundation

variable {cap : Capacity} {σ : Type}

theorem begin_base (m : SequenceManager cap) (f : FeedMessage) :
    (m.begin f).base = if m.started then m.base else f.sequence := by
  unfold begin base
  dsimp only
  split <;> rfl

theorem begin_started (m : SequenceManager cap) (f : FeedMessage) : (m.begin f).started = true := by
  unfold begin
  dsimp only
  split
  next running => exact running
  next => rfl

theorem begin_slot (m : SequenceManager cap) (f : FeedMessage) (q : Nat) :
    (m.begin f).slot q = m.slot q := by
  unfold begin slot
  dsimp only
  split <;> rfl

theorem begin_stats (m : SequenceManager cap) (f : FeedMessage) :
    (m.begin f).stats = {m.stats with accepted := m.stats.accepted+1} := by
  unfold begin
  dsimp only
  split <;> rfl

theorem gap_iff (m : SequenceManager cap) (f : FeedMessage) :
    m.gap f = true ↔ m.base < f.sequence ∧ m.state m.base = .empty := by
  simp only [gap,decide_eq_true_eq,UInt64.lt_iff_toNat_lt]
  rfl

theorem previous_toNat {f : FeedMessage} (positive : 0 < f.sequence) :
    (f.message.sequenceNumber - 1).toNat = f.sequence - 1 := by
  rw [UInt64.toNat_sub_of_le]
  · rfl
  · rw [UInt64.le_iff_toNat_le]
    exact positive

/-- The ways `accept` can go, after the message has been counted into `b`. -/
inductive Accepted (client : Option (Client σ)) (b : SequenceManager cap) (c : σ) (f : FeedMessage) :
    SequenceManager cap → σ → Prop where
  | stale (old : f.sequence < b.base) :
      Accepted client b c f {b with stats.duplicates := b.stats.duplicates+1} c
  | jump (far : b.base+cap.size ≤ f.sequence) : Accepted client b c f (b.resynchronize f) c
  | plain (inside : f.sequence ∈ b.window) (quiet : f.sequence = b.base ∨ b.state b.base ≠ .empty) :
      Accepted client b c f (b.store f) c
  | recovery (inside : f.sequence ∈ b.window) (ahead : b.base < f.sequence)
      (open_ : b.state b.base = .empty) (fuel : Nat) (r : SequenceManager cap) (c' : σ)
      (requested : requestMissing client fuel
        ((b.store f).noteGap b.expected (f.message.sequenceNumber - 1)) c b.expected
        (f.message.sequenceNumber - 1) = some (r,c')) :
      Accepted client b c f (r.skipLoop b.base (f.sequence - b.base)) c'

theorem requestMissing_recovers {client : Option (Client σ)} {last : UInt64} (S : σ → MarketMessage → Prop)
    (grows : ∀ request ∈ client, ∀ c start finish answer c', request c start finish = (answer,c') →
      ∀ message, S c message → S c' message)
    (returns : ∀ request ∈ client, ∀ c start finish answer c',
      request c start finish = (some answer,c') → start ≤ last → finish ≤ last →
      ∀ entry ∈ answer.messages, S c' entry.1)
    {fuel : Nat} {first : UInt64} {m r : SequenceManager cap} {c c' : σ}
    (requested : requestMissing client fuel m c first last = some (r,c')) :
    Recovers (S c') m r ∧ ∀ message, S c message → S c' message := by
  cases client with
  | none =>
    simp only [requestMissing,Option.some.injEq,Prod.mk.injEq] at requested
    obtain ⟨rfl,rfl⟩ := requested
    exact ⟨.refl _ m,fun _ known => known⟩
  | some request =>
    exact requestLoop_recovers S (grows request rfl) (returns request rfl) fuel first m r c c' requested

theorem recoverRange_cases {client : Option (Client σ)} {fuel : Nat} {m m' : SequenceManager cap} {c c' : σ}
    {first : UInt64} {f : FeedMessage} (ahead : first.toNat < f.sequence)
    (returned : recoverRange client fuel m c first (f.message.sequenceNumber - 1) = some (m',c')) :
    ∃ r, requestMissing client fuel (m.noteGap first (f.message.sequenceNumber - 1)) c first
        (f.message.sequenceNumber - 1) = some (r,c') ∧
      m' = r.skipLoop first.toNat (f.sequence - first.toNat) := by
  unfold recoverRange at returned
  rw [Option.map_eq_some_iff] at returned
  obtain ⟨⟨r,c₁⟩,requested,equal⟩ := returned
  simp only [Prod.mk.injEq] at equal
  obtain ⟨rfl,rfl⟩ := equal
  refine ⟨r,requested,?_⟩
  rw [previous_toNat (by omega),Nat.sub_add_cancel (by omega)]

theorem accept_cases {client : Option (Client σ)} {fuel : Nat} {m m' : SequenceManager cap} {c c' : σ}
    {f : FeedMessage} (returned : accept client fuel m c f = some (m',c')) :
    Accepted client (m.begin f) c f m' c' := by
  unfold accept at returned
  dsimp only at returned
  generalize m.begin f = b at returned ⊢
  split at returned
  next old =>
    simp only [Option.some.injEq,Prod.mk.injEq] at returned
    obtain ⟨rfl,rfl⟩ := returned
    exact .stale (UInt64.lt_iff_toNat_lt.mp old)
  next current =>
    have low : b.base ≤ f.sequence := UInt64.le_iff_toNat_le.mp (UInt64.not_lt.mp current)
    split at returned
    next far =>
      simp only [Option.some.injEq,Prod.mk.injEq] at returned
      obtain ⟨rfl,rfl⟩ := returned
      rw [offset_toNat current] at far
      refine .jump ?_
      change cap.size ≤ f.sequence - b.base at far
      omega
    next near =>
      have inside : f.sequence ∈ b.window := (inside_iff b _).mp (by simp [current,near])
      split at returned
      next missing =>
        obtain ⟨ahead,vacant⟩ := (gap_iff b f).mp missing
        obtain ⟨r,requested,rfl⟩ := recoverRange_cases ahead returned
        exact .recovery inside ahead vacant fuel r c' requested
      next quiet =>
        simp only [Option.some.injEq,Prod.mk.injEq] at returned
        obtain ⟨rfl,rfl⟩ := returned
        refine .plain inside ?_
        rw [gap_iff] at quiet
        by_cases same : f.sequence = b.base
        · exact .inl same
        · exact .inr (fun vacant => quiet ⟨by omega,vacant⟩)

theorem accept_returns (client : Option (Client σ)) {fuel : Nat} (m : SequenceManager cap) (c : σ)
    (f : FeedMessage) (room : f.sequence+1024 < 2^64) (enough : f.sequence < fuel) :
    ∃ m' c', accept client fuel m c f = some (m',c') := by
  obtain ⟨rounds,rfl⟩ : ∃ rounds, fuel = rounds+1 := ⟨fuel-1,by omega⟩
  unfold accept
  dsimp only
  generalize m.begin f = b
  split
  next old => exact ⟨_,_,rfl⟩
  next current =>
    split
    next far => exact ⟨_,_,rfl⟩
    next near =>
      split
      next missing =>
        have ahead := ((gap_iff b f).mp missing).1
        have last := previous_toNat (f := f) (by omega)
        unfold recoverRange requestMissing
        cases client with
        | none => exact ⟨_,_,rfl⟩
        | some request =>
          obtain ⟨r,c',ended⟩ := requestLoop_ends request (f.message.sequenceNumber - 1) (by omega)
            rounds b.expected ((b.store f).noteGap b.expected (f.message.sequenceNumber - 1)) c (by omega)
          exact ⟨_,c',by dsimp only; rw [ended]; rfl⟩
      next quiet => exact ⟨_,_,rfl⟩

/-- `accept` after it has closed a gap in front of `f`: what was held is kept, `f`
is held, and every other number of the gap is either recovered or given up. -/
structure GapClosed (P : MarketMessage → Prop) (b : SequenceManager cap) (f : FeedMessage)
    (m' : SequenceManager cap) : Prop where
  expected : m'.expected = b.expected
  started : m'.started = b.started
  kept : ∀ q ∈ b.window, b.state q = .filled → m'.slot q = b.slot q
  stored : b.state f.sequence ≠ .filled → m'.slot f.sequence = ⟨f,.filled⟩
  others : ∀ q ∈ b.window, b.state q ≠ .filled → q ≠ f.sequence →
    (m'.state q = .filled ∧ (m'.slot q).payload.sequence = q ∧ P (m'.slot q).payload.message) ∨
    m'.slot q = if q < f.sequence ∧ b.state q = .empty then {b.slot q with state := .skipped}
      else b.slot q
  delivered : m'.stats.delivered = b.stats.delivered
  missing : m'.stats.missingMessages = b.stats.missingMessages+(f.sequence - b.base)
  recovered : m'.stats.messagesRecovered = b.stats.messagesRecovered +
    (b.window.filter (fun q => b.state q ≠ .filled ∧ q ≠ f.sequence ∧ m'.state q = .filled)).card
  unrecoverable : m'.stats.unrecoverable = b.stats.unrecoverable +
    ((Finset.Ico b.base f.sequence).filter (fun q => b.state q = .empty ∧ m'.state q = .skipped)).card

theorem GapClosed.mono {P Q : MarketMessage → Prop} {b m' : SequenceManager cap} {f : FeedMessage}
    (closed : GapClosed P b f m') (imply : ∀ message, P message → Q message) : GapClosed Q b f m' := by
  refine {closed with others := ?_}
  intro q hq free other
  rcases closed.others q hq free other with ⟨held,number,allowed⟩ | same
  · exact .inl ⟨held,number,imply _ allowed⟩
  · exact .inr same

private theorem noteGap_stats {b : SequenceManager cap} {f : FeedMessage} (ahead : b.base < f.sequence) :
    (b.noteGap b.expected (f.message.sequenceNumber - 1)).stats = {b.stats with
      gapsDetected := b.stats.gapsDetected+1
      missingMessages := b.stats.missingMessages+(f.sequence - b.base)} := by
  have width : (f.message.sequenceNumber - 1 - b.expected + 1).toNat = f.sequence - b.base := by
    have last := previous_toNat (f := f) (by omega)
    have limit := f.sequence_lt
    rw [UInt64.toNat_add,UInt64.toNat_sub_of_le,last]
    · change (f.sequence - 1 - b.base + 1) % 2^64 = f.sequence - b.base
      omega
    · rw [UInt64.le_iff_toNat_le,last]
      change b.base ≤ f.sequence - 1
      omega
  simp only [noteGap,width]

/-- The arrival is stored and its gap counted; recovery has not been asked yet. -/
structure Noted (b : SequenceManager cap) (f : FeedMessage) (s : SequenceManager cap) : Prop where
  expected : s.expected = b.expected
  started : s.started = b.started
  slots : ∀ q ∈ b.window, s.slot q =
    if q = f.sequence ∧ b.state q ≠ .filled then ⟨f,.filled⟩ else b.slot q
  stats : ∃ extra, s.stats = {b.stats with
    duplicates := b.stats.duplicates+extra
    gapsDetected := b.stats.gapsDetected+1
    missingMessages := b.stats.missingMessages+(f.sequence - b.base)}

theorem noteGap_noted {b : SequenceManager cap} {f : FeedMessage} (inside : f.sequence ∈ b.window)
    (ahead : b.base < f.sequence) :
    Noted b f ((b.store f).noteGap b.expected (f.message.sequenceNumber - 1)) := by
  refine ⟨store_expected b f,store_started b f,fun q hq => slot_store inside hq,?_⟩
  obtain ⟨extra,duplicates⟩ := store_stats b f
  have stats := noteGap_stats (b := b.store f) (f := f) (by simpa [base] using ahead)
  refine ⟨extra,?_⟩
  simpa [base,duplicates] using stats

section Closing
variable {P : MarketMessage → Prop} {b s r m' : SequenceManager cap} {f : FeedMessage} {q : Nat}

/-- The pass over the gap gives up empty slots only. -/
theorem Skips.stays {first stop : Nat} (pass : Skips first stop r m') (hq : q ∈ r.window)
    (held : r.state q = .filled) : m'.slot q = r.slot q := by
  rw [pass.slots q hq,if_neg]
  rw [held]
  simp

private theorem Skips.filled_iff {first stop : Nat} (pass : Skips first stop r m') (hq : q ∈ r.window) :
    m'.state q = .filled ↔ r.state q = .filled := by
  constructor
  · intro now
    rw [state,pass.slots q hq] at now
    split at now
    · simp at now
    · exact now
  · intro held
    rwa [state,pass.stays hq held]

namespace Noted
variable (noted : Noted b f s) (phase : Recovers P s r)
include noted

theorem window : s.window = b.window := window_congr noted.expected

private theorem free_iff (hq : q ∈ b.window) : s.state q ≠ .filled ↔ b.state q ≠ .filled ∧ q ≠ f.sequence := by
  rw [state,noted.slots q hq]
  by_cases same : q = f.sequence <;> by_cases held : b.state q = .filled <;>
    simp_all [state]

private theorem freshly_eq (same : ∀ q ∈ b.window, m'.state q = .filled ↔ r.state q = .filled) : freshly s r =
    b.window.filter (fun q => b.state q ≠ .filled ∧ q ≠ f.sequence ∧ m'.state q = .filled) := by
  rw [freshly,noted.window]
  apply Finset.filter_congr
  intro q hq
  rw [noted.free_iff hq,same q hq,and_assoc]

include phase

theorem recovered_window : r.window = b.window := phase.window.trans noted.window

/-- A number still free after recovery looks as it did before the arrival. -/
theorem untouched (hq : q ∈ b.window) (other : q ≠ f.sequence) (free : r.state q ≠ .filled) :
    r.slot q = b.slot q := by
  rcases phase.slots q (by rw [noted.window]; exact hq) with same | ⟨_,held,_⟩
  · rw [same,noted.slots q hq,if_neg (fun both => other both.1)]
  · exact absurd held free

section Pass
variable (pass : Skips b.base f.sequence r m')
include pass

theorem keeps (hq : q ∈ b.window) (held : s.state q = .filled) : m'.slot q = s.slot q := by
  have kept := phase.keeps (by rw [noted.window]; exact hq) held
  rw [pass.stays (by rw [noted.recovered_window phase]; exact hq) (by rw [state,kept]; exact held),kept]

theorem others (hq : q ∈ b.window) (free : b.state q ≠ .filled) (other : q ≠ f.sequence) :
    (m'.state q = .filled ∧ (m'.slot q).payload.sequence = q ∧ P (m'.slot q).payload.message) ∨
    m'.slot q = if q < f.sequence ∧ b.state q = .empty then {b.slot q with state := .skipped}
      else b.slot q := by
  have hr : q ∈ r.window := by rw [noted.recovered_window phase]; exact hq
  by_cases held : r.state q = .filled
  · have now := pass.stays hr held
    rcases phase.slots q (by rw [noted.window]; exact hq) with same | ⟨_,_,number,allowed⟩
    · have before : s.state q ≠ .filled := (noted.free_iff hq).mpr ⟨free,other⟩
      rw [state,← same] at before
      exact absurd held before
    · exact .inl ⟨by rwa [state,now],by rwa [now],by rwa [now]⟩
  · have same := noted.untouched phase hq other held
    refine .inr ?_
    rw [pass.slots q hr,state,same]
    have low := ((mem_window b q).mp hq).1
    simp only [Finset.mem_Ico,low,true_and]
    rfl

/-- A number of the gap is given up exactly if recovery left it empty. -/
theorem empty_iff (hq : q ∈ b.window) (range : q ∈ Finset.Ico b.base f.sequence) :
    r.state q = .empty ↔ b.state q = .empty ∧ m'.state q = .skipped := by
  have hr : q ∈ r.window := by rw [noted.recovered_window phase]; exact hq
  have other : q ≠ f.sequence := (Finset.mem_Ico.mp range).2.ne
  constructor
  · intro vacant
    have same := noted.untouched phase hq other (by rw [vacant]; simp)
    refine ⟨by rwa [state,← same],?_⟩
    rw [state,pass.slots q hr,if_pos ⟨range,vacant⟩]
  · rintro ⟨vacant,given⟩
    have free : r.state q ≠ .filled := by
      intro held
      rw [(pass.filled_iff hr).mpr held] at given
      simp at given
    rw [state,noted.untouched phase hq other free]
    exact vacant

end Pass
end Noted
end Closing

theorem gap_closed {P : MarketMessage → Prop} {b r : SequenceManager cap} {f : FeedMessage}
    (inside : f.sequence ∈ b.window) (ahead : b.base < f.sequence)
    (phase : Recovers P ((b.store f).noteGap b.expected (f.message.sequenceNumber - 1)) r) :
    GapClosed P b f (r.skipLoop b.base (f.sequence - b.base)) := by
  have noted := noteGap_noted inside ahead
  generalize (b.store f).noteGap b.expected (f.message.sequenceNumber - 1) = s at phase noted
  have bounds := (mem_window b _).mp inside
  have window := noted.recovered_window phase
  have pass := skipLoop_skips (m := r) b.base (f.sequence - b.base)
    (fun q low high => by rw [window,mem_window]; omega)
  rw [Nat.add_sub_of_le bounds.1] at pass
  generalize r.skipLoop b.base (f.sequence - b.base) = m' at pass
  obtain ⟨requests,recovered⟩ := phase.stats
  obtain ⟨extra,counted⟩ := noted.stats
  refine ⟨pass.expected.trans (phase.expected.trans noted.expected),
    pass.started.trans (phase.started.trans noted.started),?_,?_,
    fun q hq free other => noted.others phase pass hq free other,?_,?_,?_,?_⟩
  · intro q hq held
    have same : s.slot q = b.slot q := by
      rw [noted.slots q hq,if_neg (fun both => both.2 held)]
    rw [noted.keeps phase pass hq (by rw [state,same]; exact held),same]
  · intro free
    have same : s.slot f.sequence = ⟨f,.filled⟩ := by
      rw [noted.slots _ inside,if_pos ⟨rfl,free⟩]
    rw [noted.keeps phase pass inside (by rw [state,same]),same]
  · simp [pass.stats,recovered,counted]
  · simp [pass.stats,recovered,counted]
  · have count : m'.stats.messagesRecovered = b.stats.messagesRecovered+(freshly s r).card := by
      simp [pass.stats,recovered,counted]
    rw [count,noted.freshly_eq (fun q hq => pass.filled_iff (by rw [window]; exact hq))]
  · have count : m'.stats.unrecoverable = b.stats.unrecoverable +
        ((Finset.Ico b.base f.sequence).filter (fun q => r.state q = .empty)).card := by
      simp [pass.stats,recovered,counted]
    rw [count]
    congr 2
    apply Finset.filter_congr
    intro q range
    have hq : q ∈ b.window := by
      have edges := Finset.mem_Ico.mp range
      rw [mem_window]
      omega
    exact noted.empty_iff phase pass hq range

private theorem resynchronize_expected (m : SequenceManager cap) (f : FeedMessage) :
    (m.resynchronize f).expected = f.message.sequenceNumber := by
  simp [resynchronize]

theorem resynchronize_base (m : SequenceManager cap) (f : FeedMessage) :
    (m.resynchronize f).base = f.sequence := by
  rw [base,resynchronize_expected]
  rfl

theorem resynchronize_started (m : SequenceManager cap) (f : FeedMessage) :
    (m.resynchronize f).started = m.started := by
  simp [resynchronize]

theorem resynchronize_stats {m : SequenceManager cap} {f : FeedMessage} (ahead : m.base ≤ f.sequence) :
    (m.resynchronize f).stats = {m.stats with
      reorderOverflows := m.stats.reorderOverflows+1
      unrecoverable := m.stats.unrecoverable+(f.sequence - m.base)} := by
  have offset : (f.message.sequenceNumber - m.expected).toNat = f.sequence - m.base :=
    UInt64.toNat_sub_of_le _ _ (UInt64.le_iff_toNat_le.mpr ahead)
  unfold resynchronize
  dsimp only
  unfold store
  rw [if_neg (by simp [slot])]
  simp only [offset]

/-- Only the incoming message is held afterwards. -/
theorem resynchronize_slot (m : SequenceManager cap) (f : FeedMessage) {q : Nat}
    (low : f.sequence ≤ q) (high : q < f.sequence+cap.size) :
    (m.resynchronize f).slot q =
      if q = f.sequence then ⟨f,.filled⟩ else {m.slot q with state := .empty} := by
  have pos := cap.pos
  unfold resynchronize
  dsimp only
  rw [slot_store]
  · by_cases same : q = f.sequence
    · simp [same,state,slot]
    · simp [same,slot]
  · rw [mem_window]
    exact ⟨Nat.le_refl _,Nat.lt_add_of_pos_right pos⟩
  · rw [mem_window]
    exact ⟨low,high⟩

def occupied (m : SequenceManager cap) : Nat :=
  ((Finset.range cap.size).filter (fun i => m.state i ≠ .empty)).card

theorem occupied_le (m : SequenceManager cap) : m.occupied ≤ cap.size := by
  have bound := Finset.card_filter_le (Finset.range cap.size) (fun i => m.state i ≠ .empty)
  simpa [occupied] using bound

theorem advance_state (m : SequenceManager cap) (q : Nat) :
    m.advance.state q = if m.base % cap.size = q % cap.size then .empty else m.state q := by
  change ((m.buffer.put m.base _).get q).state = _
  rw [Ring.get_put]
  split <;> rfl

theorem occupied_advance (m : SequenceManager cap) (held : m.state m.base ≠ .empty) :
    m.advance.occupied+1 = m.occupied := by
  have inside : m.base % cap.size < cap.size := Nat.mod_lt _ cap.pos
  have wrapped : m.state (m.base % cap.size) = m.state m.base := by
    simp [state,slot,Ring.get]
  have used : (Finset.range cap.size).filter (fun i => m.state i ≠ .empty) =
      insert (m.base % cap.size)
        ((Finset.range cap.size).filter (fun i => m.advance.state i ≠ .empty)) := by
    ext i
    simp only [Finset.mem_filter,Finset.mem_range,Finset.mem_insert,advance_state]
    by_cases small : i < cap.size
    · rw [Nat.mod_eq_of_lt small]
      by_cases same : i = m.base % cap.size
      · subst same
        simp [inside,wrapped,held]
      · simp [same,Ne.symm same]
    · have other : i ≠ m.base % cap.size := by omega
      simp [small,other]
  have absent : m.base % cap.size ∉ (Finset.range cap.size).filter (fun i => m.advance.state i ≠ .empty) := by
    simp [advance_state]
  rw [occupied,occupied,used,Finset.card_insert_of_notMem absent]

def PassesOver (m m' : SequenceManager cap) : Prop := m.state m.base = .skipped ∧ m' = m.advance

/-- What a call of `next_deliverable` finds after passing over skipped slots. -/
inductive Delivered (m : SequenceManager cap) : Option FeedMessage × SequenceManager cap → Prop where
  | nothing (m' : SequenceManager cap) (passed : Relation.ReflTransGen PassesOver m m')
      (vacant : m'.state m'.base = .empty) : Delivered m (none,m')
  | message (m' : SequenceManager cap) (passed : Relation.ReflTransGen PassesOver m m')
      (held : m'.state m'.base = .filled) :
      Delivered m (some (m'.slot m'.base).payload,m'.handOut)

private theorem deliverLoop_cases (fuel : Nat) (m : SequenceManager cap) (enough : m.occupied < fuel) :
    Delivered m (deliverLoop fuel m) := by
  induction fuel generalizing m with
  | zero => omega
  | succ fuel ih =>
    rw [deliverLoop]
    split
    next vacant => exact .nothing m .refl vacant
    next passed =>
      have held : m.state m.base ≠ .empty := by rw [state,base,passed]; simp
      have less := occupied_advance m held
      have first : Relation.ReflTransGen PassesOver m m.advance := .single ⟨passed,rfl⟩
      generalize found : deliverLoop fuel m.advance = result
      have rest := ih m.advance (by omega)
      rw [found] at rest
      cases rest with
      | nothing m' passed vacant => exact .nothing m' (first.trans passed) vacant
      | message m' passed held => exact .message m' (first.trans passed) held
    next held => exact .message m .refl held

theorem nextDeliverable_cases (m : SequenceManager cap) :
    (m.started = false ∧ m.nextDeliverable = (none,m)) ∨
      (m.started = true ∧ Delivered m m.nextDeliverable) := by
  unfold nextDeliverable
  cases running : m.started with
  | false => exact .inl ⟨rfl,rfl⟩
  | true =>
    refine .inr ⟨rfl,?_⟩
    exact deliverLoop_cases (cap.size+1) m (Nat.lt_succ_of_le m.occupied_le)

end Llte.SequenceManager
