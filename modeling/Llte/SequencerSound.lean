import Llte.Foundation.Wrapping
import Llte.SequencerCalls

/-! The sequencer's invariant: a held message sits at its own number, numbers in
use leave room for one more, and a number that was given up has nothing empty in
front of it. Each call keeps it, provided the accepted number leaves a whole
window below `2^64`. -/
namespace Llte.SequenceManager
open Foundation

variable {cap : Capacity} {σ : Type}

structure Sound (m : SequenceManager cap) : Prop where
  number : ∀ q ∈ m.window, m.state q = .filled → (m.slot q).payload.sequence = q
  below : ∀ q ∈ m.window, m.state q ≠ .empty → q+1 < 2^64
  behind : ∀ q ∈ m.window, m.state q = .skipped → ∀ p, m.base ≤ p → p ≤ q → m.state p ≠ .empty
  fresh : m.started = false → ∀ q, m.state q = .empty

theorem base_mem_window (m : SequenceManager cap) : m.base ∈ m.window := by
  have pos := cap.pos
  rw [mem_window]
  omega

theorem advance_base {m : SequenceManager cap} (room : m.base+1 < 2^64) :
    m.advance.base = m.base+1 := by
  exact succ_toNat room

theorem advance_slot {m : SequenceManager cap} {q : Nat} (hq : q ∈ m.window) (other : q ≠ m.base) :
    m.advance.slot q = m.slot q := by
  change (m.buffer.put m.base _).get q = _
  rw [slot_put _ m.base_mem_window hq,if_neg other]

theorem advance_state_last (m : SequenceManager cap) : m.advance.state (m.base+cap.size) = .empty := by
  rw [advance_state,Nat.add_mod_right,if_pos rfl]

/-- Up to the message that exposed it, a closed gap has no empty slot. -/
theorem GapClosed.covered {P : MarketMessage → Prop} {m m' : SequenceManager cap} {f : FeedMessage}
    (closed : GapClosed P m f m') {q : Nat} (hq : q ∈ m.window) (upto : q ≤ f.sequence) :
    m'.state q ≠ .empty := by
  by_cases before : m.state q = .filled
  · rw [state,closed.kept q hq before]
    change m.state q ≠ .empty
    rw [before]
    simp
  · by_cases here : q = f.sequence
    · subst here
      rw [state,closed.stored before]
      simp
    · rcases closed.others q hq before here with ⟨held,_,_⟩ | same
      · rw [held]
        simp
      · rw [state,same]
        split
        next => simp
        next kept => exact fun vacant => kept ⟨by omega,vacant⟩

namespace Sound
variable {m : SequenceManager cap} {f : FeedMessage}

theorem create (cap : Capacity) : Sound (create cap) := by
  have vacant (q : Nat) : (SequenceManager.create cap).state q = .empty := by
    simp [state,slot,SequenceManager.create]
  refine ⟨?_,?_,?_,fun _ q => vacant q⟩
  · intro q _ held
    rw [vacant] at held
    simp at held
  · intro q _ used
    exact absurd (vacant q) used
  · intro q _ given
    rw [vacant] at given
    simp at given

theorem congr {m' : SequenceManager cap} (sound : Sound m) (expected : m'.expected = m.expected)
    (started : m'.started = m.started) (slots : ∀ q, m'.slot q = m.slot q) : Sound m' := by
  have window := window_congr expected
  have based : m'.base = m.base := by rw [base,expected,base]
  have states (q : Nat) : m'.state q = m.state q := by rw [state,slots,state]
  refine ⟨?_,?_,?_,?_⟩
  · intro q hq held
    rw [slots]
    exact sound.number q (window ▸ hq) (states q ▸ held)
  · intro q hq used
    exact sound.below q (window ▸ hq) (states q ▸ used)
  · intro q hq given p low high
    rw [states]
    exact sound.behind q (window ▸ hq) (states q ▸ given) p (based ▸ low) high
  · intro idle q
    rw [states]
    exact sound.fresh (started ▸ idle) q

theorem begin (sound : Sound m) (f : FeedMessage) : Sound (m.begin f) := by
  cases running : m.started with
  | true =>
    refine sound.congr ?_ ?_ (begin_slot m f)
    · simp [SequenceManager.begin,running]
    · simp [SequenceManager.begin,running]
  | false =>
    have vacant (q : Nat) : (m.begin f).state q = .empty := by
      rw [state,begin_slot]
      exact sound.fresh running q
    refine ⟨?_,?_,?_,fun _ q => vacant q⟩
    · intro q _ held
      rw [vacant] at held
      simp at held
    · intro q _ used
      exact absurd (vacant q) used
    · intro q _ given
      rw [vacant] at given
      simp at given

theorem store (sound : Sound m) (running : m.started = true) (inside : f.sequence ∈ m.window)
    (room : f.sequence+1 < 2^64) : Sound (m.store f) := by
  have window : (m.store f).window = m.window := window_congr (store_expected m f)
  have based : (m.store f).base = m.base := by rw [base,store_expected,base]
  refine ⟨?_,?_,?_,?_⟩
  · intro q hq held
    rw [window] at hq
    rw [state,slot_store inside hq] at held
    rw [slot_store inside hq]
    split
    next here => exact here.1.symm
    next away =>
      rw [if_neg away] at held
      exact sound.number q hq held
  · intro q hq used
    rw [window] at hq
    by_cases here : q = f.sequence
    · exact here ▸ room
    · rw [state,slot_store inside hq,if_neg (fun both => here both.1)] at used
      exact sound.below q hq used
  · intro q hq given p low high
    rw [window] at hq
    rw [based] at low
    have hp : p ∈ m.window := by
      rw [mem_window] at hq ⊢
      omega
    rw [state,slot_store inside hq] at given
    split at given
    next here => simp at given
    next away =>
      rw [state,slot_store inside hp]
      split
      next => simp
      next => exact sound.behind q hq given p low high
  · intro idle
    rw [store_started,running] at idle
    simp at idle

theorem resynchronize (running : m.started = true) (room : f.sequence+1 < 2^64) :
    Sound (m.resynchronize f) := by
  have based := resynchronize_base m f
  have view (q : Nat) (hq : q ∈ (m.resynchronize f).window) : (m.resynchronize f).slot q =
      if q = f.sequence then ⟨f,.filled⟩ else {m.slot q with state := .empty} := by
    rw [mem_window,based] at hq
    exact resynchronize_slot m f hq.1 hq.2
  refine ⟨?_,?_,?_,?_⟩
  · intro q hq held
    rw [state,view q hq] at held
    rw [view q hq]
    split
    next here => exact here.symm
    next away => simp [away] at held
  · intro q hq used
    rw [state,view q hq] at used
    by_cases here : q = f.sequence
    · exact here ▸ room
    · simp [here] at used
  · intro q hq given
    rw [state,view q hq] at given
    split at given <;> simp at given
  · intro idle
    rw [resynchronize_started,running] at idle
    simp at idle

/-- The slot of the base leaves the window; the window's new last number is empty. -/
theorem advance (sound : Sound m) (running : m.started = true) (held : m.state m.base ≠ .empty) :
    Sound m.advance := by
  have based := advance_base (sound.below m.base m.base_mem_window held)
  have split (q : Nat) (hq : q ∈ m.advance.window) :
      m.advance.state q = .empty ∨ (q ∈ m.window ∧ m.advance.slot q = m.slot q) := by
    rw [mem_window,based] at hq
    by_cases last : q = m.base+cap.size
    · exact .inl (last ▸ advance_state_last m)
    · have hw : q ∈ m.window := by rw [mem_window]; omega
      exact .inr ⟨hw,advance_slot hw (by omega)⟩
  refine ⟨?_,?_,?_,?_⟩
  · intro q hq now
    rcases split q hq with vacant | ⟨hw,same⟩
    · rw [vacant] at now
      simp at now
    · rw [same]
      rw [state,same] at now
      exact sound.number q hw now
  · intro q hq used
    rcases split q hq with vacant | ⟨hw,same⟩
    · exact absurd vacant used
    · rw [state,same] at used
      exact sound.below q hw used
  · intro q hq given p low high
    rcases split q hq with vacant | ⟨hw,same⟩
    · rw [vacant] at given
      simp at given
    · rw [state,same] at given
      rw [based] at low
      have hp : p ∈ m.window := by
        rw [mem_window] at hw ⊢
        omega
      rw [state,advance_slot hp (by omega)]
      exact sound.behind q hw given p (by omega) high
  · intro idle
    change m.started = false at idle
    rw [running] at idle
    simp at idle

theorem none_skipped (sound : Sound m) (vacant : m.state m.base = .empty) {q : Nat}
    (hq : q ∈ m.window) : m.state q ≠ .skipped := by
  intro given
  exact sound.behind q hq given m.base (Nat.le_refl _) ((mem_window m q).mp hq).1 vacant

theorem gapClosed {P : MarketMessage → Prop} {m' : SequenceManager cap} (sound : Sound m)
    (running : m.started = true) (inside : f.sequence ∈ m.window) (vacant : m.state m.base = .empty)
    (room : f.sequence+cap.size < 2^64) (closed : GapClosed P m f m') : Sound m' := by
  have window := window_congr closed.expected
  have based : m'.base = m.base := by rw [base,closed.expected,base]
  have low := ((mem_window m _).mp inside).1
  refine ⟨?_,?_,?_,?_⟩
  · intro q hq held
    rw [window] at hq
    by_cases before : m.state q = .filled
    · rw [closed.kept q hq before]
      exact sound.number q hq before
    · by_cases here : q = f.sequence
      · subst here
        rw [closed.stored before]
      · rcases closed.others q hq before here with ⟨_,number,_⟩ | same
        · exact number
        · rw [state,same] at held
          split at held
          · simp at held
          · exact absurd held before
  · intro q hq _
    rw [window,mem_window] at hq
    omega
  · -- a number given up here lies in the gap, and the whole gap is now in use
    intro q hq given p lowp highp
    rw [window] at hq
    rw [based] at lowp
    have hp : p ∈ m.window := by
      rw [mem_window] at hq ⊢
      omega
    have gapped : q < f.sequence := by
      by_contra outside
      by_cases before : m.state q = .filled
      · rw [state,closed.kept q hq before] at given
        rw [state,given] at before
        simp at before
      · by_cases here : q = f.sequence
        · subst here
          rw [state,closed.stored before] at given
          simp at given
        · rcases closed.others q hq before here with ⟨held,_,_⟩ | same
          · rw [held] at given
            simp at given
          · rw [state,same,if_neg (fun both => outside both.1)] at given
            exact sound.none_skipped vacant hq given
    exact closed.covered hp (by omega)
  · intro idle
    rw [closed.started,running] at idle
    simp at idle

end Sound
end Llte.SequenceManager
