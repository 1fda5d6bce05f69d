import Llte.SequencerRun

/-! The sequencer's two balances. Every number between the first accepted one and
`expected` was delivered or counted as unrecoverable; what is given up but not yet
passed over, and what was counted twice, is the exact difference. -/
namespace Llte.SequenceManager
open Foundation

variable {cap : Capacity} {σ : Type}

theorem givenUp_congr {m m' : SequenceManager cap} (expected : m'.expected = m.expected)
    (slots : ∀ q, m'.slot q = m.slot q) : m'.givenUp = m.givenUp := by
  ext q
  rw [mem_givenUp,mem_givenUp,window_congr expected,state,slots,state]

theorem givenUp_store {m : SequenceManager cap} {f : FeedMessage} (inside : f.sequence ∈ m.window) :
    (m.store f).givenUp = m.givenUp.erase f.sequence := by
  ext q
  rw [mem_givenUp,window_congr (store_expected m f),Finset.mem_erase,mem_givenUp]
  constructor
  · rintro ⟨hq,given⟩
    rw [state,slot_store inside hq] at given
    split at given
    next => simp at given
    next away =>
      refine ⟨?_,hq,given⟩
      intro here
      apply away
      refine ⟨here,?_⟩
      rw [state,given]
      simp
  · rintro ⟨other,hq,given⟩
    refine ⟨hq,?_⟩
    rw [state,slot_store inside hq,if_neg (fun both => other both.1)]
    exact given

theorem givenUp_resynchronize (m : SequenceManager cap) (f : FeedMessage) :
    (m.resynchronize f).givenUp = ∅ := by
  rw [givenUp,Finset.filter_eq_empty_iff]
  intro q hq given
  rw [mem_window,resynchronize_base] at hq
  rw [state,resynchronize_slot m f hq.1 hq.2] at given
  split at given <;> simp at given

theorem givenUp_advance {m : SequenceManager cap} (room : m.base+1 < 2^64) :
    m.advance.givenUp = m.givenUp.erase m.base := by
  have pos := cap.pos
  ext q
  rw [mem_givenUp,Finset.mem_erase,mem_givenUp,mem_window,mem_window,advance_base room]
  constructor
  · rintro ⟨hq,given⟩
    by_cases last : q = m.base+cap.size
    · rw [last,advance_state_last] at given
      simp at given
    · have hw : q ∈ m.window := by rw [mem_window]; omega
      rw [state,advance_slot hw (by omega)] at given
      exact ⟨by omega,by omega,given⟩
  · rintro ⟨other,hq,given⟩
    refine ⟨by omega,?_⟩
    rw [state,advance_slot (by rw [mem_window]; omega) other]
    exact given

theorem givenUp_gapClosed {P : MarketMessage → Prop} {m m' : SequenceManager cap} {f : FeedMessage}
    (sound : Sound m) (inside : f.sequence ∈ m.window) (vacant : m.state m.base = .empty)
    (closed : GapClosed P m f m') : m'.givenUp =
      (Finset.Ico m.base f.sequence).filter (fun q => m.state q = .empty ∧ m'.state q = .skipped) := by
  have bounds := (mem_window m _).mp inside
  ext q
  rw [mem_givenUp,window_congr closed.expected,Finset.mem_filter,Finset.mem_Ico]
  constructor
  · rintro ⟨hq,given⟩
    have free : m.state q ≠ .filled := by
      intro before
      rw [state,closed.kept q hq before] at given
      rw [state,given] at before
      simp at before
    have other : q ≠ f.sequence := by
      rintro rfl
      rw [state,closed.stored free] at given
      simp at given
    rcases closed.others q hq free other with ⟨held,_,_⟩ | same
    · rw [held] at given
      simp at given
    · by_cases both : q < f.sequence ∧ m.state q = .empty
      · exact ⟨⟨((mem_window m q).mp hq).1,both.1⟩,both.2,given⟩
      · rw [state,same,if_neg both] at given
        exact absurd given (sound.none_skipped vacant hq)
  · rintro ⟨range,_,given⟩
    refine ⟨?_,given⟩
    rw [mem_window]
    omega

theorem Sound.none_givenUp {m : SequenceManager cap} (sound : Sound m) (vacant : m.state m.base = .empty) :
    m.givenUp = ∅ := by
  rw [givenUp,Finset.filter_eq_empty_iff]
  intro q hq
  exact sound.none_skipped vacant hq

/-- Between `first` and `expected` everything was delivered or counted; `late`
numbers were counted once too often. -/
structure Account (first late : Nat) (m : SequenceManager cap) : Prop where
  passed : first+m.stats.delivered ≤ m.base
  balance : m.base+m.givenUp.card+late = first+m.stats.delivered+m.stats.unrecoverable

namespace Account
variable {first late : Nat} {m b m' : SequenceManager cap} {f : FeedMessage}

theorem advance (account : Account first late m) (sound : Sound m) (gone : m.state m.base = .skipped) :
    Account first late m.advance := by
  have room := sound.below m.base m.base_mem_window (by rw [gone]; simp)
  have member : m.base ∈ m.givenUp := (mem_givenUp m _).mpr ⟨m.base_mem_window,gone⟩
  have count := Finset.card_erase_add_one member
  obtain ⟨passed,balance⟩ := account
  constructor
  · rw [advance_base room]
    change first+m.stats.delivered ≤ m.base+1
    omega
  · rw [advance_base room,givenUp_advance room]
    change _ = first+m.stats.delivered+m.stats.unrecoverable
    omega

theorem handOut (account : Account first late m) (sound : Sound m) (held : m.state m.base = .filled) :
    Account first late m.handOut := by
  have room := sound.below m.base m.base_mem_window (by rw [held]; simp)
  have absent : m.base ∉ m.givenUp := by
    rw [mem_givenUp,held]
    simp
  have based : m.handOut.base = m.base+1 := advance_base room
  have same : m.handOut.givenUp = m.givenUp := by
    change m.advance.givenUp = m.givenUp
    rw [givenUp_advance room,Finset.erase_eq_of_notMem absent]
  obtain ⟨passed,balance⟩ := account
  constructor
  · rw [based]
    change first+(m.stats.delivered+1) ≤ m.base+1
    omega
  · rw [based,same]
    change _ = first+(m.stats.delivered+1)+m.stats.unrecoverable
    omega

theorem store (account : Account first late b) (inside : f.sequence ∈ b.window) :
    Account first (late+lost b f) (b.store f) := by
  obtain ⟨extra,stats⟩ := store_stats b f
  have near : ¬ b.base+cap.size ≤ f.sequence := by
    have bounds := (mem_window b _).mp inside
    omega
  obtain ⟨passed,balance⟩ := account
  constructor
  · rw [base,store_expected,stats]
    exact passed
  · rw [givenUp_store inside,base,store_expected,stats,lost,if_neg near]
    change b.base+_+_ = first+b.stats.delivered+b.stats.unrecoverable
    split
    next member =>
      have count := Finset.card_erase_add_one member
      omega
    next absent =>
      rw [Finset.erase_eq_of_notMem absent]
      exact balance

theorem resynchronize (account : Account first late b) (far : b.base+cap.size ≤ f.sequence) :
    Account first (late+lost b f) (b.resynchronize f) := by
  obtain ⟨passed,balance⟩ := account
  constructor
  · rw [resynchronize_base,resynchronize_stats (by omega)]
    dsimp only
    omega
  · rw [resynchronize_base,givenUp_resynchronize,resynchronize_stats (by omega),lost,if_pos far]
    simp only [Finset.card_empty]
    omega

theorem gapClosed {P : MarketMessage → Prop} (account : Account first late b) (sound : Sound b)
    (inside : f.sequence ∈ b.window) (vacant : b.state b.base = .empty) (closed : GapClosed P b f m') :
    Account first (late+lost b f) m' := by
  have based : m'.base = b.base := by rw [base,closed.expected,base]
  have clean := sound.none_givenUp vacant
  have none : lost b f = 0 := by
    rw [lost,clean]
    simp
  obtain ⟨passed,balance⟩ := account
  constructor
  · rw [based,closed.delivered]
    exact passed
  · rw [based,givenUp_gapClosed sound inside vacant closed,closed.delivered,closed.unrecoverable,none]
    rw [clean,Finset.card_empty] at balance
    omega

end Account
end Llte.SequenceManager
