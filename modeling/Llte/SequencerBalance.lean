import Llte.SequencerSafety

/-! Whether the sequencer's statistics add up. Two kinds of calls spoil them: a call
that takes back or repeats a number already counted as unrecoverable, and a gap
counted over messages that the buffer holds. Both differences are exact, and
neither can wrap a 64-bit field. -/
namespace Llte.SequenceManager
open Foundation

variable {cap : Capacity} {σ : Type}

def InRange (client : Option (Client σ)) : Prop :=
  ∀ request ∈ client, ∀ c start finish answer c', request c start finish = (some answer,c') →
    ∀ entry ∈ answer.messages, start ≤ entry.1.sequenceNumber ∧ entry.1.sequenceNumber ≤ finish

/-- The call neither brings a message that was given up, nor jumps over one, nor
counts a held one as missing. -/
structure Clean (b : SequenceManager cap) (f : FeedMessage) : Prop where
  timely : f.sequence ∈ b.window → b.state f.sequence ≠ .skipped
  near : b.base+cap.size ≤ f.sequence → ∀ q ∈ b.window, b.state q ≠ .skipped
  missing : f.sequence ∈ b.window → b.state b.base = .empty →
    ∀ q, b.base ≤ q → q < f.sequence → b.state q ≠ .filled

private theorem clean_iff (b : SequenceManager cap) (f : FeedMessage) :
    Clean b f ↔ lost b f = 0 ∧ refetched b f = 0 := by
  have gaps : refetched b f = 0 ↔ (f.sequence ∈ b.window → b.state b.base = .empty →
      ∀ q, b.base ≤ q → q < f.sequence → b.state q ≠ .filled) := by
    unfold refetched
    split
    next both =>
      rw [Finset.card_eq_zero,Finset.filter_eq_empty_iff]
      constructor
      · intro none _ _ q low high
        exact none (Finset.mem_Ico.mpr ⟨low,high⟩)
      · intro none q member
        exact none both.1 both.2 q (Finset.mem_Ico.mp member).1 (Finset.mem_Ico.mp member).2
    next other =>
      refine iff_of_true rfl ?_
      intro inside vacant
      exact absurd ⟨inside,vacant⟩ other
  have givenUps : lost b f = 0 ↔ (f.sequence ∈ b.window → b.state f.sequence ≠ .skipped) ∧
      (b.base+cap.size ≤ f.sequence → ∀ q ∈ b.window, b.state q ≠ .skipped) := by
    unfold lost
    split
    next far =>
      have outside : f.sequence ∉ b.window := by
        rw [mem_window]
        omega
      rw [Finset.card_eq_zero,givenUp,Finset.filter_eq_empty_iff]
      constructor
      · intro none
        exact ⟨fun inside => absurd inside outside,fun _ q hq => none hq⟩
      · intro none q hq
        exact none.2 far q hq
    next close =>
      simp only [mem_givenUp]
      constructor
      · intro zero
        refine ⟨?_,fun far => absurd far close⟩
        intro inside given
        rw [if_pos ⟨inside,given⟩] at zero
        simp at zero
      · intro none
        exact if_neg (fun both => none.1 both.1 both.2)
  rw [gaps,givenUps]
  constructor
  · intro clean
    exact ⟨⟨clean.timely,clean.near⟩,clean.missing⟩
  · intro both
    exact ⟨both.1.1,both.1.2,both.2⟩

theorem Accepted.closed_within {client : Option (Client σ)} (ranged : InRange client)
    {b r : SequenceManager cap} {c c' : σ} {f : FeedMessage} {fuel : Nat}
    (inside : f.sequence ∈ b.window) (ahead : b.base < f.sequence)
    (requested : requestMissing client fuel
      ((b.store f).noteGap b.expected (f.message.sequenceNumber - 1)) c b.expected
      (f.message.sequenceNumber - 1) = some (r,c')) :
    GapClosed (fun message => message.sequenceNumber.toNat < f.sequence) b f
      (r.skipLoop b.base (f.sequence - b.base)) := by
  have last := previous_toNat (f := f) (by omega)
  have early (request : Client σ) (member : request ∈ client) (c : σ) (start finish : UInt64)
      (answer : Answer) (c' : σ) (asked : request c start finish = (some answer,c'))
      (upto : finish ≤ f.message.sequenceNumber - 1) (entry : MarketMessage × UInt64)
      (known : entry ∈ answer.messages) : entry.1.sequenceNumber.toNat < f.sequence := by
    have bound := (ranged request member c start finish answer c' asked entry known).2
    rw [UInt64.le_iff_toNat_le] at bound upto
    omega
  have phase := requestMissing_recovers
    (fun _ message => message.sequenceNumber.toNat < f.sequence) (fun _ _ _ _ _ _ _ _ _ known => known)
    (fun request member c start finish answer c' asked _ =>
      early request member c start finish answer c' asked) requested
  exact gap_closed inside ahead phase.1

/-- Each number of a closed gap was held before, is recovered, or is given up. -/
theorem GapClosed.counts {b m' : SequenceManager cap} {f : FeedMessage} (sound : Sound b)
    (inside : f.sequence ∈ b.window) (vacant : b.state b.base = .empty)
    (closed : GapClosed (fun message => message.sequenceNumber.toNat < f.sequence) b f m') :
    f.sequence - b.base = refetched b f +
      (b.window.filter (fun q => b.state q ≠ .filled ∧ q ≠ f.sequence ∧ m'.state q = .filled)).card +
      ((Finset.Ico b.base f.sequence).filter (fun q => b.state q = .empty ∧ m'.state q = .skipped)).card := by
  have bounds := (mem_window b _).mp inside
  have recovered : b.window.filter (fun q => b.state q ≠ .filled ∧ q ≠ f.sequence ∧ m'.state q = .filled) =
      (Finset.Ico b.base f.sequence).filter (fun q => b.state q ≠ .filled ∧ m'.state q = .filled) := by
    ext q
    simp only [Finset.mem_filter,Finset.mem_Ico]
    constructor
    · rintro ⟨hq,free,other,held⟩
      have low := ((mem_window b q).mp hq).1
      rcases closed.others q hq free other with ⟨_,number,early⟩ | same
      · change (m'.slot q).payload.sequence < f.sequence at early
        exact ⟨⟨low,by omega⟩,free,held⟩
      · rw [state,same] at held
        split at held
        · simp at held
        · exact absurd held free
    · rintro ⟨range,free,held⟩
      exact ⟨by rw [mem_window]; omega,free,by omega,held⟩
  have given : (Finset.Ico b.base f.sequence).filter (fun q => b.state q = .empty ∧ m'.state q = .skipped) =
      (Finset.Ico b.base f.sequence).filter (fun q => b.state q ≠ .filled ∧ ¬ m'.state q = .filled) := by
    apply Finset.filter_congr
    intro q range
    rw [Finset.mem_Ico] at range
    have hq : q ∈ b.window := by rw [mem_window]; omega
    constructor
    · rintro ⟨empty,skipped⟩
      simp [empty,skipped]
    · rintro ⟨free,unheld⟩
      have empty : b.state q = .empty := by
        have known := sound.none_skipped vacant hq
        cases shown : b.state q <;> simp_all
      rcases closed.others q hq free (by omega) with ⟨held,_,_⟩ | same
      · exact absurd held unheld
      · refine ⟨empty,?_⟩
        rw [state,same,if_pos ⟨range.2,empty⟩]
  have split := Finset.card_filter_add_card_filter_not (s := Finset.Ico b.base f.sequence)
    (fun q => b.state q = .filled)
  have rest := Finset.card_filter_add_card_filter_not
    (s := (Finset.Ico b.base f.sequence).filter (fun q => ¬ b.state q = .filled))
    (fun q => m'.state q = .filled)
  rw [Finset.filter_filter,Finset.filter_filter] at rest
  rw [Nat.card_Ico] at split
  rw [recovered,given,refetched,if_pos ⟨inside,vacant⟩]
  simp only [ne_eq]
  omega

/-- Requested numbers against those that were dealt with. -/
def Balanced (overflowed refetch : Nat) (m : SequenceManager cap) : Prop :=
  m.stats.missingMessages+overflowed = m.stats.messagesRecovered+m.stats.unrecoverable+refetch

private theorem refetched_quiet {b : SequenceManager cap} {f : FeedMessage}
    (quiet : f.sequence = b.base ∨ b.state b.base ≠ .empty) : refetched b f = 0 := by
  unfold refetched
  split
  next both =>
    rcases quiet with first | used
    · rw [first]
      simp
    · exact absurd both.2 used
  next => rfl

theorem Balanced.accepted {client : Option (Client σ)} (ranged : InRange client)
    {b m' : SequenceManager cap} {c c' : σ} {f : FeedMessage} {overflowed refetch : Nat} (sound : Sound b)
    (balanced : Balanced overflowed refetch b) (call : Accepted client b c f m' c') :
    Balanced (overflowed+width b f) (refetch+refetched b f) m' := by
  unfold Balanced at balanced ⊢
  cases call with
  | stale old =>
    have outside : f.sequence ∉ b.window := by
      rw [mem_window]
      omega
    rw [width,if_neg (by omega),refetched,if_neg (fun both => outside both.1)]
    exact balanced
  | jump far =>
    have outside : f.sequence ∉ b.window := by
      rw [mem_window]
      omega
    rw [resynchronize_stats (by omega),width,if_pos far,refetched,if_neg (fun both => outside both.1)]
    dsimp only
    omega
  | plain inside quiet =>
    have bounds := (mem_window b _).mp inside
    obtain ⟨extra,stats⟩ := store_stats b f
    rw [stats,width,if_neg (by omega),refetched_quiet quiet]
    exact balanced
  | recovery inside ahead vacant fuel r c' requested =>
    have closed := Accepted.closed_within ranged inside ahead requested
    have bounds := (mem_window b _).mp inside
    have counts := closed.counts sound inside vacant
    rw [closed.missing,closed.recovered,closed.unrecoverable,width,if_neg (by omega)]
    omega

def inUse (m : SequenceManager cap) : Finset Nat := m.window.filter (fun q => m.state q ≠ .empty)

private theorem mem_inUse (m : SequenceManager cap) (q : Nat) :
    q ∈ m.inUse ↔ q ∈ m.window ∧ m.state q ≠ .empty := Finset.mem_filter

private theorem givenUp_subset (m : SequenceManager cap) : m.givenUp ⊆ m.inUse := by
  intro q member
  obtain ⟨hq,given⟩ := (mem_givenUp m q).mp member
  exact (mem_inUse m q).mpr ⟨hq,by rw [given]; simp⟩

private theorem inUse_le (m : SequenceManager cap) : m.inUse.card ≤ cap.size := by
  have bound := Finset.card_filter_le m.window (fun q => m.state q ≠ .empty)
  simpa [window,inUse] using bound

private theorem inUse_advance {m : SequenceManager cap} (room : m.base+1 < 2^64) (used : m.state m.base ≠ .empty) :
    m.advance.inUse.card+1 = m.inUse.card := by
  have pos := cap.pos
  have erased : m.advance.inUse = m.inUse.erase m.base := by
    ext q
    rw [mem_inUse,Finset.mem_erase,mem_inUse,mem_window,mem_window,advance_base room]
    constructor
    · rintro ⟨hq,now⟩
      by_cases last : q = m.base+cap.size
      · rw [last,advance_state_last] at now
        simp at now
      · have hw : q ∈ m.window := by rw [mem_window]; omega
        rw [state,advance_slot hw (by omega)] at now
        exact ⟨by omega,by omega,now⟩
    · rintro ⟨other,hq,now⟩
      refine ⟨by omega,?_⟩
      rw [state,advance_slot (by rw [mem_window]; omega) other]
      exact now
  rw [erased]
  exact Finset.card_erase_add_one ((mem_inUse m _).mpr ⟨m.base_mem_window,used⟩)

/-- `late` numbers were lost and `refetch` held ones counted as missing, so far. Both stay
below `2^64`: a number is lost at most once, and the ranges of two gaps do not overlap. -/
structure Bounded (first late refetch : Nat) (m : SequenceManager cap) : Prop where
  late : first+late+m.givenUp.card ≤ m.base+m.inUse.card
  refetch : ∃ front, m.base ≤ front ∧ front ≤ m.base+cap.size ∧ first+refetch ≤ front ∧
    ∀ q, m.base ≤ q → q < front → m.state q ≠ .empty

namespace Bounded
variable {first late refetch : Nat} {m b m' : SequenceManager cap} {f : FeedMessage}

theorem congr (bounded : Bounded first late refetch m) (expected : m'.expected = m.expected)
    (slots : ∀ q, m'.slot q = m.slot q) : Bounded first late refetch m' := by
  have based : m'.base = m.base := by rw [base,expected,base]
  have states (q : Nat) : m'.state q = m.state q := by rw [state,slots,state]
  obtain ⟨front,low,high,enough,full⟩ := bounded.refetch
  refine ⟨?_,front,by omega,by omega,enough,?_⟩
  · have used : m'.inUse = m.inUse := by
      ext q
      rw [mem_inUse,mem_inUse,window_congr expected,states]
    rw [givenUp_congr expected slots,used,based]
    exact bounded.late
  · intro q
    rw [based,states]
    exact full q

theorem advance (bounded : Bounded first late refetch m) (sound : Sound m)
    (used : m.state m.base ≠ .empty) : Bounded first late refetch m.advance := by
  have room := sound.below m.base m.base_mem_window used
  have count := inUse_advance room used
  have fewer := Finset.card_erase_le (s := m.givenUp) (a := m.base)
  have counted := bounded.late
  obtain ⟨front,low,high,enough,full⟩ := bounded.refetch
  refine ⟨?_,max front (m.base+1),?_,?_,?_,?_⟩
  · rw [givenUp_advance room,advance_base room]
    omega
  · rw [advance_base room]
    omega
  · rw [advance_base room]
    omega
  · omega
  · intro q lowq highq
    rw [advance_base room] at lowq
    have hq : q ∈ m.window := by rw [mem_window]; omega
    rw [state,advance_slot hq (by omega)]
    exact full q (by omega) (by omega)

theorem stale (bounded : Bounded first late refetch b) (old : f.sequence < b.base) :
    Bounded first (late+lost b f) (refetch+refetched b f) b := by
  have outside : f.sequence ∉ b.window := by
    rw [mem_window]
    omega
  have none : f.sequence ∉ b.givenUp := fun member => outside ((mem_givenUp b _).mp member).1
  rw [lost,if_neg (by omega),if_neg none,refetched,if_neg (fun both => outside both.1)]
  exact bounded

theorem store (bounded : Bounded first late refetch b) (inside : f.sequence ∈ b.window)
    (quiet : f.sequence = b.base ∨ b.state b.base ≠ .empty) :
    Bounded first (late+lost b f) (refetch+refetched b f) (b.store f) := by
  have bounds := (mem_window b _).mp inside
  have based : (b.store f).base = b.base := by rw [base,store_expected,base]
  have stays (q : Nat) (hq : q ∈ b.window) (used : b.state q ≠ .empty) : (b.store f).state q ≠ .empty := by
    rw [state,slot_store inside hq]
    split
    · simp
    · exact used
  have more : b.inUse ⊆ (b.store f).inUse := by
    intro q member
    obtain ⟨hq,used⟩ := (mem_inUse b q).mp member
    exact (mem_inUse _ q).mpr ⟨by rw [window_congr (store_expected b f)]; exact hq,stays q hq used⟩
  have grown := Finset.card_le_card more
  have counted := bounded.late
  have none := refetched_quiet quiet
  obtain ⟨front,low,high,enough,full⟩ := bounded.refetch
  refine ⟨?_,front,by omega,by omega,by omega,?_⟩
  · rw [givenUp_store inside,based,lost,if_neg (by omega)]
    split
    next member =>
      have count := Finset.card_erase_add_one member
      omega
    next absent =>
      rw [Finset.erase_eq_of_notMem absent]
      omega
  · intro q lowq highq
    rw [based] at lowq
    exact stays q (by rw [mem_window]; omega) (full q lowq highq)

theorem resynchronize (bounded : Bounded first late refetch b) (far : b.base+cap.size ≤ f.sequence) :
    Bounded first (late+lost b f) (refetch+refetched b f) (b.resynchronize f) := by
  have outside : f.sequence ∉ b.window := by
    rw [mem_window]
    omega
  have limit := b.inUse_le
  have counted := bounded.late
  obtain ⟨front,low,high,enough,_⟩ := bounded.refetch
  refine ⟨?_,f.sequence,?_,?_,?_,?_⟩
  · rw [givenUp_resynchronize,resynchronize_base,lost,if_pos far,Finset.card_empty]
    omega
  · rw [resynchronize_base]
  · rw [resynchronize_base]
    omega
  · rw [refetched,if_neg (fun both => outside both.1)]
    omega
  · intro q lowq highq
    rw [resynchronize_base] at lowq
    omega

theorem gapClosed {P : MarketMessage → Prop} (bounded : Bounded first late refetch b) (sound : Sound b)
    (inside : f.sequence ∈ b.window) (vacant : b.state b.base = .empty) (closed : GapClosed P b f m') :
    Bounded first (late+lost b f) (refetch+refetched b f) m' := by
  have bounds := (mem_window b _).mp inside
  have based : m'.base = b.base := by rw [base,closed.expected,base]
  have window := window_congr closed.expected
  have clean := sound.none_givenUp vacant
  have none : lost b f = 0 := by
    rw [lost,clean]
    simp
  have apart : Disjoint b.inUse m'.givenUp := by
    rw [Finset.disjoint_left,givenUp_gapClosed sound inside vacant closed]
    intro q used member
    exact ((mem_inUse b q).mp used).2 (Finset.mem_filter.mp member).2.1
  have both : b.inUse ∪ m'.givenUp ⊆ m'.inUse := by
    apply Finset.union_subset _ (givenUp_subset m')
    intro q member
    obtain ⟨hq,used⟩ := (mem_inUse b q).mp member
    have held : b.state q = .filled := by
      have known := sound.none_skipped vacant hq
      cases shown : b.state q <;> simp_all
    refine (mem_inUse m' q).mpr ⟨by rw [window]; exact hq,?_⟩
    rw [state,closed.kept q hq held]
    exact used
  have grown := Finset.card_le_card both
  rw [Finset.card_union_of_disjoint apart] at grown
  have counted := bounded.late
  rw [clean,Finset.card_empty] at counted
  obtain ⟨front,low,_,enough,full⟩ := bounded.refetch
  -- the gap starts at an empty slot, so no earlier gap reached past the base
  have start : front = b.base := by
    by_contra other
    exact full b.base (Nat.le_refl _) (by omega) vacant
  have part : refetched b f ≤ f.sequence - b.base := by
    rw [refetched,if_pos ⟨inside,vacant⟩,← Nat.card_Ico]
    exact Finset.card_filter_le _ _
  refine ⟨?_,f.sequence,by omega,by omega,by omega,?_⟩
  · rw [based,none]
    omega
  · intro q lowq highq
    rw [based] at lowq
    exact closed.covered (by rw [mem_window]; omega) (by omega)

theorem accepted {client : Option (Client σ)} {c c' : σ} (bounded : Bounded first late refetch b)
    (sound : Sound b) (call : Accepted client b c f m' c') :
    Bounded first (late+lost b f) (refetch+refetched b f) m' := by
  cases call with
  | stale old => exact (bounded.stale old).congr rfl (fun _ => rfl)
  | jump far => exact bounded.resynchronize far
  | plain inside quiet => exact bounded.store inside quiet
  | recovery inside ahead vacant fuel r c' requested =>
    exact bounded.gapClosed sound inside vacant (Accepted.closed inside ahead requested)

theorem small (bounded : Bounded first late refetch m) (sound : Sound m) :
    late < 2^64 ∧ refetch < 2^64 := by
  have limit := m.base_lt
  constructor
  · have within : m.inUse ⊆ Finset.Ico m.base (2^64-1) := by
      intro q member
      obtain ⟨hq,used⟩ := (mem_inUse m q).mp member
      have below := sound.below q hq used
      rw [Finset.mem_Ico]
      exact ⟨((mem_window m q).mp hq).1,by omega⟩
    have count := Finset.card_le_card within
    rw [Nat.card_Ico] at count
    have counted := bounded.late
    omega
  · obtain ⟨front,low,high,enough,full⟩ := bounded.refetch
    by_cases none : front = m.base
    · omega
    · have below := sound.below (front-1) (by rw [mem_window]; omega) (full (front-1) (by omega) (by omega))
      omega

end Bounded

/-- What a run adds up to: both differences, and their bounds. -/
structure Ledger (log : Log cap) (m : SequenceManager cap) : Prop where
  balanced : Balanced (log.sum width) (log.sum refetched) m
  bounded : Bounded log.first (log.sum lost) (log.sum refetched) m

theorem Ledger.passes_over {log : Log cap} {m m' : SequenceManager cap}
    (passed : Relation.ReflTransGen PassesOver m m') (running : m.started = true) (inv : RunInv log m)
    (ledger : Ledger log m) : Ledger log m' := by
  induction passed with
  | refl => exact ledger
  | tail earlier step ih =>
    obtain ⟨passed,rfl⟩ := step
    have sound := (SequenceManager.passes_over earlier running inv.sound inv.account).2.1
    exact ⟨ih.balanced,ih.bounded.advance sound (by rw [passed]; simp)⟩

theorem Bounded.begin {log : Log cap} {m : SequenceManager cap} (inv : RunInv log m)
    (ledger : Ledger log m) (f : FeedMessage) :
    Bounded (log.accept m f).first (log.sum lost) (log.sum refetched) (m.begin f) := by
  rw [Log.first_accept]
  cases running : m.started with
  | true =>
    rw [if_neg (inv.running running)]
    exact ledger.bounded.congr (by simp [SequenceManager.begin,running]) (begin_slot m f)
  | false =>
    have none := (inv.idle running).1
    have based : (m.begin f).base = f.sequence := by rw [begin_base,running]; simp
    have nothing (measure : SequenceManager cap → FeedMessage → Nat) : log.sum measure = 0 := by
      simp [Log.sum,none]
    rw [if_pos none,nothing,nothing]
    refine ⟨?_,f.sequence,by omega,by omega,by omega,?_⟩
    · have part := Finset.card_le_card (givenUp_subset (m.begin f))
      omega
    · intro q low high
      omega

theorem reach_ledger {client : Option (Client σ)} (ranged : InRange client) {c₀ c : σ} {log : Log cap}
    {m : SequenceManager cap} (reached : Reach client c₀ log m c)
    (room : ∀ call ∈ log.accepted, call.incoming.sequence+cap.size < 2^64) : Ledger log m := by
  induction reached with
  | new =>
    refine ⟨rfl,?_,0,Nat.zero_le _,Nat.zero_le _,Nat.le_refl _,?_⟩
    · have part := Finset.card_le_card (givenUp_subset (create cap))
      simp only [Log.first,Log.sum,List.map_nil,List.sum_nil]
      omega
    · intro q low high
      omega
  | @accept log m m' c c' fuel f before returned ih =>
    have earlier : ∀ call ∈ log.accepted, call.incoming.sequence+cap.size < 2^64 :=
      fun call member => room call (by simp [Log.accept,member])
    have ledger := ih earlier
    have inv := reach_runInv before earlier
    have call := accept_cases returned
    have sound := inv.sound.begin f
    constructor
    · rw [Log.sum_accept,Log.sum_accept]
      refine Balanced.accepted ranged sound ?_ call
      rw [Balanced,begin_stats]
      exact ledger.balanced
    · rw [Log.sum_accept,Log.sum_accept]
      exact (Bounded.begin inv ledger f).accepted sound call
  | @deliver log m m' c out before handed ih =>
    have ledger := ih room
    have inv := reach_runInv before room
    rcases nextDeliverable_cases m with ⟨_,nothing⟩ | ⟨running,found⟩
    · rw [nothing] at handed
      simp at handed
    · rw [handed] at found
      cases found with
      | message m₁ passed held =>
        have sound := (passes_over passed running inv.sound inv.account).2.1
        have sofar := ledger.passes_over passed running inv
        have advanced := sofar.bounded.advance sound (by rw [held]; simp)
        exact ⟨sofar.balanced,advanced.congr rfl (fun _ => rfl)⟩
  | @idle log m m' c before nothing ih =>
    have ledger := ih room
    have inv := reach_runInv before room
    rcases nextDeliverable_cases m with ⟨_,same⟩ | ⟨running,found⟩
    · rw [nothing] at same
      simp only [Prod.mk.injEq,true_and] at same
      exact same ▸ ledger
    · rw [nothing] at found
      cases found with
      | nothing _ passed vacant => exact ledger.passes_over passed running inv

private theorem Log.sum_eq_zero_iff (log : Log cap) (measure : SequenceManager cap → FeedMessage → Nat) :
    log.sum measure = 0 ↔ ∀ call ∈ log.accepted, measure call.at call.incoming = 0 := by
  unfold Log.sum
  induction log.accepted with
  | nil => simp
  | cons call rest ih => simp [ih]

private theorem counter_add (a b : Nat) : counter (a+b) = counter a+counter b := UInt64.ofNat_add a b

private theorem counter_sub_iff (a b c : Nat) : counter a - counter b = counter c ↔ counter a = counter (b+c) := by
  rw [counter_add]
  grind

/-- Two fields that differ by less than `2^64` agree only if they do not differ. -/
theorem counter_closes {a b extra : Nat} (sum : a+extra = b) (small : extra < 2^64) :
    counter a = counter b ↔ extra = 0 := by
  rw [← UInt64.toNat_inj]
  simp only [counter,UInt64.toNat_ofNat']
  omega

/-- After a run that ends with `next_deliverable` finding nothing, both equations of
the statistics hold exactly when every call of `accept` was clean; read as exact
counts or as 64-bit fields. -/
theorem accounting_closes_iff (client : Option (Client σ)) (ranged : InRange client) (c₀ c : σ)
    (log : Log cap) (m m' : SequenceManager cap) (reached : Reach client c₀ log m c)
    (small : ∀ call ∈ log.accepted, call.incoming.sequence < 2^63)
    (nothing : m.nextDeliverable = (none,m')) :
    ((m'.base - log.first = m'.stats.delivered+m'.stats.unrecoverable ∧
      m'.stats.missingMessages+log.sum width = m'.stats.messagesRecovered+m'.stats.unrecoverable) ↔
        ∀ call ∈ log.accepted, Clean call.at call.incoming) ∧
    ((m'.expected - counter log.first = counter m'.stats.delivered+counter m'.stats.unrecoverable ∧
      counter m'.stats.missingMessages+counter (log.sum width) =
        counter m'.stats.messagesRecovered+counter m'.stats.unrecoverable) ↔
        ∀ call ∈ log.accepted, Clean call.at call.incoming) := by
  have size := cap.bound
  have room : ∀ call ∈ log.accepted, call.incoming.sequence+cap.size < 2^64 := by
    intro call member
    have bound := small call member
    omega
  have ended := Reach.idle reached nothing
  have inv := reach_runInv ended room
  have ledger := reach_ledger ranged ended room
  have drained : m'.givenUp = ∅ := by
    rcases nextDeliverable_cases m with ⟨idle,same⟩ | ⟨running,found⟩
    · rw [nothing] at same
      simp only [Prod.mk.injEq,true_and] at same
      subst same
      rw [givenUp,Finset.filter_eq_empty_iff]
      intro q _ given
      rw [inv.sound.fresh idle q] at given
      simp at given
    · rw [nothing] at found
      cases found with
      | nothing _ passed vacant => exact inv.sound.none_givenUp vacant
  have every : (∀ call ∈ log.accepted, Clean call.at call.incoming) ↔
      log.sum lost = 0 ∧ log.sum refetched = 0 := by
    simp only [clean_iff,Log.sum_eq_zero_iff]
    constructor
    · intro clean
      exact ⟨fun call member => (clean call member).1,fun call member => (clean call member).2⟩
    · intro clean call member
      exact ⟨clean.1 call member,clean.2 call member⟩
  obtain ⟨passed,balance⟩ := inv.account
  have balanced := ledger.balanced
  rw [Balanced] at balanced
  rw [drained,Finset.card_empty] at balance
  obtain ⟨lateSmall,refetchSmall⟩ := ledger.bounded.small inv.sound
  rw [every]
  constructor
  · omega
  · have firstSum : m'.base+log.sum lost = log.first+(m'.stats.delivered+m'.stats.unrecoverable) := by
      omega
    have word : m'.expected = counter m'.base := by simp [counter,base]
    have second := counter_closes balanced.symm refetchSmall
    rw [← counter_add,← counter_add,← counter_add,word,counter_sub_iff,
      counter_closes firstSum lateSmall]
    exact and_congr_right' (eq_comm.trans second)

/-- A lost message that never arrives: counted once, and the books close. -/
theorem accounting_closes_gap : ∃ (log : Log four) (m m' : SequenceManager four),
    Reach (none : Option (Client Unit)) () log m () ∧ m.nextDeliverable = (none,m') ∧
    m'.stats.unrecoverable = 1 ∧
    m'.base - log.first = m'.stats.delivered+m'.stats.unrecoverable := by
  have found : ∃ (log : Log four) (m : SequenceManager four) (c : Unit),
      Reach (none : Option (Client Unit)) () log m c ∧
      (∀ call ∈ log.accepted, call.incoming.sequence < 2^63) ∧
      (∀ call ∈ log.accepted, lost call.at call.incoming = 0 ∧ refetched call.at call.incoming = 0) ∧
      m.nextDeliverable.1 = none ∧ m.nextDeliverable.2.stats.unrecoverable = 1 :=
    play_finds [.accept 1 (numbered 1001),.deliver,.accept 1 (numbered 1003),.deliver]
      (fun log m _ => (∀ call ∈ log.accepted, call.incoming.sequence < 2^63) ∧
        (∀ call ∈ log.accepted, lost call.at call.incoming = 0 ∧ refetched call.at call.incoming = 0) ∧
        m.nextDeliverable.1 = none ∧ m.nextDeliverable.2.stats.unrecoverable = 1)
      (by decide +kernel)
  obtain ⟨log,m,c,reached,small,clean,nothing,count⟩ := found
  have ended : m.nextDeliverable = (none,m.nextDeliverable.2) := Prod.ext nothing rfl
  have law := accounting_closes_iff none (by simp [InRange]) () () log m _ reached small ended
  have closes := law.1.mpr (fun call member => (clean_iff _ _).mpr (clean call member))
  exact ⟨log,m,_,reached,ended,count,closes.1⟩

/-- Message 1002 arrives after 1003 has exposed the gap in front of it: it is
delivered, and still counted as unrecoverable. -/
theorem accounting_late_arrival : ∃ (log : Log four) (m m' : SequenceManager four),
    Reach (none : Option (Client Unit)) () log m () ∧ InRange (none : Option (Client Unit)) ∧
    (∀ call ∈ log.accepted, call.incoming.sequence < 2^63) ∧ m.nextDeliverable = (none,m') ∧
    m'.base = 1004 ∧ log.first = 1001 ∧ m'.stats.delivered = 3 ∧ m'.stats.unrecoverable = 1 ∧
    ¬ m'.base - log.first = m'.stats.delivered+m'.stats.unrecoverable := by
  have found : ∃ (log : Log four) (m : SequenceManager four) (c : Unit),
      Reach (none : Option (Client Unit)) () log m c ∧
      (∀ call ∈ log.accepted, call.incoming.sequence < 2^63) ∧ m.nextDeliverable.1 = none ∧
      m.nextDeliverable.2.base = 1004 ∧ log.first = 1001 ∧
      m.nextDeliverable.2.stats.delivered = 3 ∧ m.nextDeliverable.2.stats.unrecoverable = 1 :=
    play_finds [.accept 1 (numbered 1001),.deliver,.accept 1 (numbered 1003),.accept 1 (numbered 1002),
        .deliver,.deliver]
      (fun log m _ => (∀ call ∈ log.accepted, call.incoming.sequence < 2^63) ∧
        m.nextDeliverable.1 = none ∧ m.nextDeliverable.2.base = 1004 ∧ log.first = 1001 ∧
        m.nextDeliverable.2.stats.delivered = 3 ∧ m.nextDeliverable.2.stats.unrecoverable = 1)
      (by decide +kernel)
  obtain ⟨log,m,c,reached,small,nothing,counts⟩ := found
  obtain ⟨based,first,delivered,lost⟩ := counts
  refine ⟨log,m,_,reached,by simp [InRange],small,Prod.ext nothing rfl,based,first,delivered,lost,?_⟩
  rw [based,first,delivered,lost]
  decide

end Llte.SequenceManager
