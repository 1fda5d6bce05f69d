import Llte.SequenceManager
import Mathlib.Order.Interval.Finset.Nat
import Mathlib.Tactic.Ring

/-! What each operation of the sequencer does to the slots of the current window
`[expected, expected + size)`. Every later argument about the sequencer uses these
statements and never the ring underneath. -/
namespace Llte.SequenceManager
open Foundation

variable {cap : Capacity} {σ : Type}

def base (m : SequenceManager cap) : Nat := m.expected.toNat

theorem base_lt (m : SequenceManager cap) : m.base < 2^64 := m.expected.toNat_lt

def state (m : SequenceManager cap) (q : Nat) : SlotState := (m.slot q).state

def window (m : SequenceManager cap) : Finset Nat := Finset.Ico m.base (m.base+cap.size)

@[simp] theorem mem_window (m : SequenceManager cap) (q : Nat) :
    q ∈ m.window ↔ m.base ≤ q ∧ q < m.base+cap.size := Finset.mem_Ico

theorem window_congr {m m' : SequenceManager cap} (same : m'.expected = m.expected) :
    m'.window = m.window := by
  simp [window,base,same]

theorem slot_put {m : SequenceManager cap} {p q : Nat} (value : Slot) (hp : p ∈ m.window)
    (hq : q ∈ m.window) : (m.buffer.put p value).get q = if q = p then value else m.slot q := by
  rw [mem_window] at hp hq
  exact Ring.get_put_window m.buffer value hp.1 hp.2 hq.1 hq.2

@[simp] theorem store_expected (m : SequenceManager cap) (f : FeedMessage) :
    (m.store f).expected = m.expected := by
  unfold store; split <;> rfl

@[simp] theorem store_started (m : SequenceManager cap) (f : FeedMessage) :
    (m.store f).started = m.started := by
  unfold store; split <;> rfl

theorem store_stats (m : SequenceManager cap) (f : FeedMessage) :
    ∃ extra, (m.store f).stats = {m.stats with duplicates := m.stats.duplicates+extra} := by
  unfold store
  split
  · exact ⟨1,rfl⟩
  · exact ⟨0,rfl⟩

theorem slot_store {m : SequenceManager cap} {f : FeedMessage} {q : Nat}
    (hf : f.sequence ∈ m.window) (hq : q ∈ m.window) :
    (m.store f).slot q =
      if q = f.sequence ∧ m.state q ≠ .filled then ⟨f,.filled⟩ else m.slot q := by
  unfold store
  by_cases held : (m.slot f.sequence).state = .filled
  · rw [if_pos held]
    have unchanged : ¬ (q = f.sequence ∧ m.state q ≠ .filled) := by
      rintro ⟨rfl,free⟩
      exact free held
    rw [if_neg unchanged]
    rfl
  · rw [if_neg held]
    change (m.buffer.put f.sequence ⟨f,.filled⟩).get q = _
    rw [slot_put _ hf hq]
    by_cases same : q = f.sequence
    · subst same
      simp [state,held]
    · simp [same]

theorem offset_toNat {a b : UInt64} (ordered : ¬ a < b) : (a - b).toNat = a.toNat - b.toNat :=
  UInt64.toNat_sub_of_le _ _ (by simpa using ordered)

/-- The word comparisons of the source: the number lies in the window. -/
theorem inside_iff (m : SequenceManager cap) (s : UInt64) :
    ¬ (s < m.expected ∨ cap.size ≤ (s - m.expected).toNat) ↔ s.toNat ∈ m.window := by
  rw [mem_window]
  by_cases ordered : s < m.expected
  · have low := UInt64.lt_iff_toNat_lt.mp ordered
    simp only [ordered,true_or,not_true_eq_false,false_iff,base]
    omega
  · have high := UInt64.le_iff_toNat_le.mp (UInt64.not_lt.mp ordered)
    simp only [ordered,false_or,offset_toNat ordered,base]
    omega

/-- The slots that held nothing before and are filled now. -/
def freshly (m m' : SequenceManager cap) : Finset Nat :=
  m.window.filter (fun q => m.state q ≠ .filled ∧ m'.state q = .filled)

/-- `m'` is `m` after taking some recovered messages, all of them allowed by `P`. -/
structure Recovers (P : MarketMessage → Prop) (m m' : SequenceManager cap) : Prop where
  expected : m'.expected = m.expected
  started : m'.started = m.started
  slots : ∀ q ∈ m.window, m'.slot q = m.slot q ∨
    (m.state q ≠ .filled ∧ m'.state q = .filled ∧ (m'.slot q).payload.sequence = q ∧
      P (m'.slot q).payload.message)
  stats : ∃ requests, m'.stats = {m.stats with
    recoveryRequests := m.stats.recoveryRequests+requests
    messagesRecovered := m.stats.messagesRecovered+(freshly m m').card}

namespace Recovers
variable {P Q : MarketMessage → Prop} {m m' m'' : SequenceManager cap}

theorem refl (P : MarketMessage → Prop) (m : SequenceManager cap) : Recovers P m m where
  expected := rfl
  started := rfl
  slots := fun _ _ => .inl rfl
  stats := by
    have none : freshly m m = ∅ := by
      simp only [freshly,Finset.filter_eq_empty_iff]
      intro q _ changed
      exact changed.1 changed.2
    exact ⟨0,by simp [none]⟩

theorem mono (imply : ∀ message, P message → Q message) (phase : Recovers P m m') :
    Recovers Q m m' where
  expected := phase.expected
  started := phase.started
  slots := fun q hq => (phase.slots q hq).imp id
    (fun taken => ⟨taken.1,taken.2.1,taken.2.2.1,imply _ taken.2.2.2⟩)
  stats := phase.stats

theorem window (phase : Recovers P m m') : m'.window = m.window := window_congr phase.expected

theorem keeps (phase : Recovers P m m') {q : Nat} (hq : q ∈ m.window)
    (held : m.state q = .filled) : m'.slot q = m.slot q :=
  (phase.slots q hq).resolve_right (fun taken => taken.1 held)

private theorem freshly_trans (first : Recovers P m m') (second : Recovers P m' m'') :
    (freshly m m'').card = (freshly m m').card+(freshly m' m'').card := by
  have split : freshly m m'' = freshly m m' ∪ freshly m' m'' := by
    ext q
    simp only [freshly,Finset.mem_union,Finset.mem_filter,first.window]
    constructor
    · rintro ⟨hq,free,held⟩
      by_cases between : m'.state q = .filled
      · exact .inl ⟨hq,free,between⟩
      · exact .inr ⟨hq,between,held⟩
    · rintro (⟨hq,free,held⟩ | ⟨hq,free,held⟩)
      · refine ⟨hq,free,?_⟩
        have same := second.keeps (by rw [first.window]; exact hq) held
        rwa [state,same]
      · refine ⟨hq,?_,held⟩
        intro before
        have same := first.keeps hq before
        exact free (by rwa [state,same])
  have apart : Disjoint (freshly m m') (freshly m' m'') := by
    rw [Finset.disjoint_left]
    intro q early late
    simp only [freshly,Finset.mem_filter] at early late
    exact late.2.1 early.2.2
  rw [split,Finset.card_union_of_disjoint apart]

theorem trans (first : Recovers P m m') (second : Recovers P m' m'') : Recovers P m m'' where
  expected := second.expected.trans first.expected
  started := second.started.trans first.started
  slots := by
    intro q hq
    have hq' : q ∈ m'.window := by rw [first.window]; exact hq
    rcases first.slots q hq with same | ⟨free,held,number,allowed⟩
    · rcases second.slots q hq' with same' | ⟨free,held,number,allowed⟩
      · exact .inl (same'.trans same)
      · refine .inr ⟨?_,held,number,allowed⟩
        rwa [state,← same]
    · have same' := second.keeps hq' held
      refine .inr ⟨free,?_,?_,?_⟩
      · rwa [state,same']
      · rwa [same']
      · rwa [same']
  stats := by
    obtain ⟨asked,hfirst⟩ := first.stats
    obtain ⟨asked',hsecond⟩ := second.stats
    refine ⟨asked+asked',?_⟩
    rw [hsecond,hfirst,freshly_trans first second]
    simp only [Nat.add_assoc]

theorem counted (P : MarketMessage → Prop) (m : SequenceManager cap) :
    Recovers P m {m with stats.recoveryRequests := m.stats.recoveryRequests+1} where
  expected := rfl
  started := rfl
  slots := fun _ _ => .inl rfl
  stats := by
    have none : freshly m {m with stats.recoveryRequests := m.stats.recoveryRequests+1} = ∅ := by
      simp only [freshly,Finset.filter_eq_empty_iff]
      intro q _ changed
      exact changed.1 changed.2
    exact ⟨1,by simp [none]⟩

end Recovers

private theorem freshly_single {m m' : SequenceManager cap} {p : Nat} (here : p ∈ m.window)
    (free : m.state p ≠ .filled) (held : m'.state p = .filled)
    (rest : ∀ q ∈ m.window, q ≠ p → m'.slot q = m.slot q) : freshly m m' = {p} := by
  ext q
  simp only [freshly,Finset.mem_filter,Finset.mem_singleton]
  constructor
  · rintro ⟨hq,vacant,now⟩
    by_contra other
    rw [state,rest q hq other] at now
    exact vacant now
  · rintro rfl
    exact ⟨here,free,held⟩

theorem recoverMessage_recovers (P : MarketMessage → Prop) (arrived : UInt64)
    (m : SequenceManager cap) (entry : MarketMessage × UInt64) (allowed : P entry.1) :
    Recovers P m (recoverMessage arrived m entry) := by
  unfold recoverMessage
  dsimp only
  split
  next outside => exact .refl P m
  next inside =>
    have here : entry.1.sequenceNumber.toNat ∈ m.window := (inside_iff m _).mp inside
    split
    next held => exact .refl P m
    next free =>
      generalize reached : ({m with
        buffer := m.buffer.put entry.1.sequenceNumber.toNat ⟨⟨entry.1,arrived,entry.2,true⟩,.filled⟩
        stats.messagesRecovered := m.stats.messagesRecovered+1} : SequenceManager cap) = m'
      have view (q : Nat) (hq : q ∈ m.window) : m'.slot q =
          if q = entry.1.sequenceNumber.toNat then ⟨⟨entry.1,arrived,entry.2,true⟩,.filled⟩
          else m.slot q := by
        rw [← reached]
        exact slot_put _ here hq
      have taken := view _ here
      rw [if_pos rfl] at taken
      have held : m'.state entry.1.sequenceNumber.toNat = .filled := by rw [state,taken]
      have single := freshly_single here free held (fun q hq other => by rw [view q hq,if_neg other])
      refine ⟨by rw [← reached],by rw [← reached],?_,0,?_⟩
      · intro q hq
        by_cases same : q = entry.1.sequenceNumber.toNat
        · subst same
          exact .inr ⟨free,held,by rw [taken]; rfl,by rw [taken]; exact allowed⟩
        · exact .inl (by rw [view q hq,if_neg same])
      · rw [single,← reached]
        rfl

theorem recoverMessages_recovers (P : MarketMessage → Prop) (arrived : UInt64)
    (entries : List (MarketMessage × UInt64)) (m : SequenceManager cap)
    (allowed : ∀ entry ∈ entries, P entry.1) :
    Recovers P m (entries.foldl (recoverMessage arrived) m) := by
  induction entries generalizing m with
  | nil => exact .refl P m
  | cons entry entries ih =>
    have first := recoverMessage_recovers P arrived m entry (allowed entry (by simp))
    exact first.trans (ih _ (fun e member => allowed e (by simp [member])))

/-- The request loop only takes recovered messages. `S c` is what the client in
state `c` is known to have returned. -/
theorem requestLoop_recovers {request : Client σ} {last : UInt64} (S : σ → MarketMessage → Prop)
    (grows : ∀ c start finish answer c', request c start finish = (answer,c') →
      ∀ message, S c message → S c' message)
    (returns : ∀ c start finish answer c', request c start finish = (some answer,c') →
      start ≤ last → finish ≤ last → ∀ entry ∈ answer.messages, S c' entry.1)
    (fuel : Nat) (start : UInt64) (m m' : SequenceManager cap) (c c' : σ)
    (ended : requestLoop request last fuel start m c = some (m',c')) :
    Recovers (S c') m m' ∧ ∀ message, S c message → S c' message := by
  induction fuel generalizing start m c with
  | zero => simp [requestLoop] at ended
  | succ fuel ih =>
    rw [requestLoop] at ended
    split at ended
    next more =>
      have counted := Recovers.counted (S c') m
      dsimp only at ended
      split at ended
      next c₁ asked =>
        simp only [Option.some.injEq,Prod.mk.injEq] at ended
        obtain ⟨rfl,rfl⟩ := ended
        exact ⟨counted,grows _ _ _ _ _ asked⟩
      next answer c₁ asked =>
        obtain ⟨rest,later⟩ := ih _ _ _ ended
        have within : min last (start + kMaxRecoveryBatch - 1) ≤ last := Std.min_le_left
        have taken := recoverMessages_recovers (S c') answer.arrived answer.messages
          {m with stats.recoveryRequests := m.stats.recoveryRequests+1}
          (fun entry member => later _ (returns _ _ _ _ _ asked more within entry member))
        exact ⟨(counted.trans taken).trans rest,
          fun message known => later _ (grows _ _ _ _ _ asked _ known)⟩
    next done =>
      simp only [Option.some.injEq,Prod.mk.injEq] at ended
      obtain ⟨rfl,rfl⟩ := ended
      exact ⟨.refl _ m,fun _ known => known⟩

theorem nextBatch_toNat (start : UInt64) : (start + kMaxRecoveryBatch).toNat = (start.toNat+1024) % 2^64 := by
  rw [UInt64.toNat_add]
  rfl

theorem batchEnd_toNat (last start : UInt64) :
    (min last (start + kMaxRecoveryBatch - 1)).toNat = min last.toNat ((start.toNat+1023) % 2^64) := by
  have stop : (start + kMaxRecoveryBatch - 1).toNat = (start.toNat+1023) % 2^64 := by
    rw [UInt64.toNat_sub,nextBatch_toNat]
    simp only [UInt64.reduceToNat]
    omega
  rw [← stop]
  exact UInt64.toNat_min _ _

theorem requestLoop_ends (request : Client σ) (last : UInt64) (room : last.toNat+1024 < 2^64)
    (fuel : Nat) (start : UInt64) (m : SequenceManager cap) (c : σ)
    (enough : last.toNat < start.toNat+fuel) :
    ∃ m' c', requestLoop request last (fuel+1) start m c = some (m',c') := by
  induction fuel generalizing start m c with
  | zero =>
    have past : ¬ start ≤ last := by rw [UInt64.le_iff_toNat_le]; omega
    exact ⟨m,c,by rw [requestLoop,if_neg past]⟩
  | succ fuel ih =>
    rw [requestLoop]
    split
    next more =>
      have below := UInt64.le_iff_toNat_le.mp more
      have step := nextBatch_toNat start
      rw [Nat.mod_eq_of_lt (by omega)] at step
      dsimp only
      split
      next c₁ asked => exact ⟨_,_,rfl⟩
      next answer c₁ asked => exact ih _ _ _ (by omega)
    next done => exact ⟨m,c,rfl⟩

/-- `m'` is `m` with every empty slot of `[first, stop)` given up. -/
structure Skips (first stop : Nat) (m m' : SequenceManager cap) : Prop where
  expected : m'.expected = m.expected
  started : m'.started = m.started
  slots : ∀ q ∈ m.window, m'.slot q =
    if q ∈ Finset.Ico first stop ∧ m.state q = .empty then {m.slot q with state := .skipped}
    else m.slot q
  stats : m'.stats = {m.stats with unrecoverable := m.stats.unrecoverable +
    ((Finset.Ico first stop).filter (fun q => m.state q = .empty)).card}

private theorem skip_skips {m : SequenceManager cap} {q : Nat} (hq : q ∈ m.window) :
    Skips q (q+1) m (m.skip q) := by
  have single : Finset.Ico q (q+1) = {q} := Nat.Ico_succ_singleton q
  unfold skip
  dsimp only
  split
  next free =>
    refine ⟨rfl,rfl,?_,?_⟩
    · intro p hp
      change (m.buffer.put q _).get p = _
      rw [slot_put _ hq hp,single]
      by_cases same : p = q
      · subst same
        simp [state,free]
      · simp [same]
    · simp [single,Finset.filter_singleton,state,free]
  next held =>
    refine ⟨rfl,rfl,?_,?_⟩
    · intro p _
      rw [single,if_neg]
      rintro ⟨same,free⟩
      rw [Finset.mem_singleton] at same
      exact held (same ▸ free)
    · simp [single,Finset.filter_singleton,state,held]

theorem skipLoop_skips {m : SequenceManager cap} (first count : Nat)
    (inside : ∀ q, first ≤ q → q < first+count → q ∈ m.window) :
    Skips first (first+count) m (m.skipLoop first count) := by
  induction count generalizing first m with
  | zero => exact ⟨rfl,rfl,fun q _ => by simp [skipLoop],by simp [skipLoop]⟩
  | succ count ih =>
    have here := inside first (by omega) (by omega)
    have one := skip_skips here
    have same : (m.skip first).window = m.window := window_congr one.expected
    have rest := @ih (m.skip first) (first+1)
      (fun q low high => by rw [same]; exact inside q (by omega) (by omega))
    have unfolded : m.skipLoop first (count+1) = (m.skip first).skipLoop (first+1) count := by
      simp [skipLoop,List.range'_succ]
    -- past its first number the pass still sees the slots as they were
    have ahead (q : Nat) (hq : q ∈ m.window) (other : q ≠ first) :
        (m.skip first).slot q = m.slot q := by
      rw [one.slots q hq,if_neg]
      rintro ⟨member,_⟩
      rw [Finset.mem_Ico] at member
      omega
    rw [unfolded]
    refine ⟨rest.expected.trans one.expected,rest.started.trans one.started,?_,?_⟩
    · intro q hq
      rw [rest.slots q (by rw [same]; exact hq)]
      by_cases first' : q = first
      · subst first'
        rw [if_neg (by simp),one.slots q hq]
        simp
      · have range : q ∈ Finset.Ico (first+1) (first+1+count) ↔ q ∈ Finset.Ico first (first+(count+1)) := by
          simp only [Finset.mem_Ico]
          omega
        have seen : (m.skip first).state q = m.state q := by rw [state,ahead q hq first',state]
        rw [ahead q hq first',seen]
        simp only [range]
    · have split : Finset.Ico first (first+(count+1)) =
          insert first (Finset.Ico (first+1) (first+1+count)) := by
        ext q
        simp only [Finset.mem_Ico,Finset.mem_insert]
        omega
      have later : (Finset.Ico (first+1) (first+1+count)).filter (fun q => (m.skip first).state q = .empty) =
          (Finset.Ico (first+1) (first+1+count)).filter (fun q => m.state q = .empty) := by
        apply Finset.filter_congr
        intro q hq
        rw [Finset.mem_Ico] at hq
        rw [state,ahead q (inside q (by omega) (by omega)) (by omega),state]
      rw [rest.stats,one.stats,later,split,Finset.filter_insert]
      have single : Finset.Ico first (first+1) = {first} := Nat.Ico_succ_singleton first
      rw [single,Finset.filter_singleton]
      split
      next free =>
        rw [Finset.card_insert_of_notMem (by simp)]
        simp only [Finset.card_singleton]
        congr 1
        omega
      next held => simp

end Llte.SequenceManager
