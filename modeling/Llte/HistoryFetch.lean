import Mathlib.Data.List.Induction
import Llte.HistoryStore

/-! What a fetch returns, over the whole 64-bit range of requests the server lets
through. The copy loop counts in a 64-bit word: with the largest `last` its first
test never fails, so that only the limit can end it. -/
namespace Llte.HistoryStore
open Foundation

variable {cap : Capacity}

/-- The retained part of a range: among the messages of `log`, numbered from `start`,
those in the range that are not older than the newest `cap.size` ones. -/
def retainedPart (cap : Capacity) (start : Nat) (log : List MarketMessage) (first last : UInt64) :
    List MarketMessage :=
  log.filter fun message => first ≤ message.sequenceNumber ∧ message.sequenceNumber ≤ last ∧
    start+log.length ≤ message.sequenceNumber.toNat+cap.size

private theorem retains_appended (cap : Capacity) {start : Nat} {log : List MarketMessage}
    (consecutive : Consecutive start log) (small : start+log.length ≤ 2^63) :
    Retains (log.foldl append (create cap)) start log := by
  induction log using List.reverseRecOn with
  | nil => exact Retains.create cap start
  | append_singleton log message ih =>
    rw [List.length_append,List.length_singleton] at small
    obtain ⟨before,number,_⟩ := consecutive_append.mp consecutive
    rw [List.foldl_append]
    exact (ih before (by omega)).append number (by omega)

private theorem kept_eq (h : HistoryStore cap) (sequence last : Nat) :
    h.kept sequence last = List.range' (max sequence h.oldestSequence.toNat)
      (min last h.newestSequence.toNat+1-max sequence h.oldestSequence.toNat) := by
  generalize rounds : last+1-sequence = count
  induction count generalizing sequence with
  | zero =>
    have none : min last h.newestSequence.toNat+1-max sequence h.oldestSequence.toNat = 0 := by omega
    rw [kept,rounds,none]
    rfl
  | succ count ih =>
    rw [kept_cons h (by omega),ih (sequence+1) (by omega)]
    split
    next inside =>
      have here : max sequence h.oldestSequence.toNat = sequence := by omega
      have next : max (sequence+1) h.oldestSequence.toNat = sequence+1 := by omega
      have more : min last h.newestSequence.toNat+1-sequence =
          (min last h.newestSequence.toNat+1-(sequence+1))+1 := by omega
      rw [here,next,more,List.range'_succ]
      rfl
    next outside =>
      rw [List.nil_append]
      by_cases old : sequence < h.oldestSequence.toNat
      · rw [Nat.max_eq_right (Nat.le_of_lt old),Nat.max_eq_right old]
      · have none : min last h.newestSequence.toNat+1-max sequence h.oldestSequence.toNat = 0 := by omega
        have later : min last h.newestSequence.toNat+1-max (sequence+1) h.oldestSequence.toNat = 0 := by
          omega
        rw [none,later]
        rfl

section Retained
variable {h : HistoryStore cap} {start : Nat} {log : List MarketMessage}

private theorem Retains.kept_get (retains : Retains h start log) (used : log ≠ []) (first last : UInt64) :
    (h.kept first.toNat last.toNat).map h.ring.get = retainedPart cap start log first last := by
  have newest := retains.newest used
  have oldest := retains.oldest used
  have pos := cap.pos
  have some_ : h.empty = false := by
    rw [Bool.eq_false_iff]
    exact fun none => used (retains.empty.mp none)
  have part : retainedPart cap start log first last =
      between (max first.toNat h.oldestSequence.toNat) (min last.toNat h.newestSequence.toNat+1) log := by
    refine List.filter_congr fun message member => ?_
    have bounds := consecutive_bounds retains.consecutive member
    rw [decide_eq_decide,UInt64.le_iff_toNat_le,UInt64.le_iff_toNat_le]
    omega
  have found (q : Nat) (member : q ∈ h.kept first.toNat last.toNat) :
      h.ring.get q ∈ log ∧ (h.ring.get q).sequenceNumber.toNat = q := by
    have inside := (List.mem_filter.mp member).2
    rw [decide_eq_true_eq] at inside
    exact retains.get some_ inside.1 inside.2
  refine consecutive_select retains.consecutive ?_ (fun message member => List.mem_of_mem_filter member) ?_
  · intro message member
    obtain ⟨q,kept,rfl⟩ := List.mem_map.mp member
    exact (found q kept).1
  · rw [part,between_numbers retains.consecutive (by omega) (by omega),← kept_eq,List.map_map]
    conv_rhs => rw [← List.map_id (h.kept _ _)]
    apply List.map_congr_left
    intro q kept
    exact (found q kept).2

theorem Retains.fetchLoop (retains : Retains h start log) (used : log ≠ []) (first : UInt64)
    {last : UInt64} (room : last.toNat+1 < 2^64) (limit : Nat) :
    h.fetchLoop last limit (last.toNat+2) first [] =
      some ((retainedPart cap start log first last).take limit) := by
  rw [fetchLoop_eq h room limit _ first [] (by omega),← retains.kept_get used]
  simp

end Retained

/-- A loop that stopped at its limit does not depend on its upper bound. -/
theorem fetchLoop_higher (h : HistoryStore cap) {last higher : UInt64} {limit fuel : Nat}
    {sequence : UInt64} {out messages : List MarketMessage}
    (ended : fetchLoop h last limit fuel sequence out = some messages) (full : limit ≤ messages.length)
    (ordered : last ≤ higher) : fetchLoop h higher limit fuel sequence out = some messages := by
  induction fuel generalizing sequence out with
  | zero => simp [fetchLoop] at ended
  | succ fuel ih =>
    rw [fetchLoop] at ended ⊢
    split at ended
    next go =>
      rw [if_pos ⟨UInt64.le_trans go.1 ordered,go.2⟩]
      split at ended
      next outside => rw [if_pos outside]; exact ih ended
      next inside => rw [if_neg inside]; exact ih ended
    next stop =>
      rw [Option.some.injEq] at ended
      subst ended
      rw [if_neg (fun both => Nat.not_lt.mpr full both.2)]

/-- Below the largest bound nothing else stops the loop. -/
theorem fetchLoop_full (h : HistoryStore cap) {limit fuel : Nat} {sequence : UInt64}
    {out messages : List MarketMessage}
    (ended : fetchLoop h 0xffffffffffffffff limit fuel sequence out = some messages) :
    limit ≤ messages.length := by
  induction fuel generalizing sequence out with
  | zero => simp [fetchLoop] at ended
  | succ fuel ih =>
    rw [fetchLoop] at ended
    split at ended
    next go =>
      split at ended
      next => exact ih ended
      next => exact ih ended
    next stop =>
      have always : sequence ≤ 0xffffffffffffffff := by
        rw [UInt64.le_iff_toNat_le]
        have bound := UInt64.toNat_lt sequence
        simp only [UInt64.reduceToNat]
        omega
      rw [Option.some.injEq] at ended
      rw [← ended]
      exact Nat.not_lt.mp (fun free => stop ⟨always,free⟩)

/-- A fetch returns the first `limit` retained messages of its range exactly when the
range does not end at the largest number, nothing was ever appended, or the limit is
reached among the retained messages. -/
theorem fetch_retained_part (cap : Capacity) (start : Nat) (log : List MarketMessage)
    (consecutive : Consecutive start log) (small : start+log.length ≤ 2^63) (first last : UInt64)
    (limit : UInt32) :
    (∃ fuel, (log.foldl append (create cap)).fetch fuel first last limit.toNat =
        some ((retainedPart cap start log first last).take limit.toNat)) ↔
      last ≠ 0xffffffffffffffff ∨ log = [] ∨
        limit.toNat ≤ (retainedPart cap start log first last).length := by
  have retains := retains_appended cap consecutive small
  generalize log.foldl append (create cap) = h at retains
  by_cases none : log = []
  · subst none
    refine iff_of_true ⟨0,?_⟩ (.inr (.inl rfl))
    rw [fetch,if_pos (retains.empty.mpr rfl)]
    simp [retainedPart]
  have used : ¬ h.empty = true := fun empty => none (retains.empty.mp empty)
  simp only [fetch,if_neg used]
  by_cases top : last = 0xffffffffffffffff
  · subst top
    constructor
    · rintro ⟨fuel,ended⟩
      have full := fetchLoop_full h ended
      rw [List.length_take] at full
      exact .inr (.inr (by omega))
    · rintro (low | empty | full)
      · exact absurd rfl low
      · exact absurd empty none
      · -- up to the newest message the counter does not wrap
        have newest := retains.newest none
        have same : retainedPart cap start log first h.newestSequence =
            retainedPart cap start log first 0xffffffffffffffff := by
          refine List.filter_congr fun message member => ?_
          have bounds := consecutive_bounds retains.consecutive member
          rw [decide_eq_decide,UInt64.le_iff_toNat_le,UInt64.le_iff_toNat_le,UInt64.le_iff_toNat_le]
          simp only [UInt64.reduceToNat]
          omega
        have room : h.newestSequence.toNat+1 < 2^64 := by omega
        have loop := retains.fetchLoop none first room limit.toNat
        rw [same] at loop
        refine ⟨_,fetchLoop_higher h loop ?_ ?_⟩
        · rw [List.length_take]
          omega
        · rw [UInt64.le_iff_toNat_le]
          simp only [UInt64.reduceToNat]
          omega
  · have room : last.toNat+1 < 2^64 := by
      have bound := UInt64.toNat_lt last
      have other : last.toNat ≠ (0xffffffffffffffff : UInt64).toNat := fun same => top (UInt64.toNat_inj.mp same)
      simp only [UInt64.reduceToNat] at other
      omega
    exact iff_of_true ⟨_,retains.fetchLoop none first room _⟩ (.inl top)

/-- Three messages are kept and two of them are asked for with the largest upper end:
no number of rounds gives the two, since the loop goes round to find eight more. -/
theorem fetch_wraps : ¬ ∃ fuel,
    fetch ([⟨1,0,0,0,0,0,0,0,0⟩,⟨2,0,0,0,0,0,0,0,0⟩,⟨3,0,0,0,0,0,0,0,0⟩].foldl append
        (create ⟨4,by decide,by decide⟩)) fuel 2 0xffffffffffffffff 10 =
      some [⟨2,0,0,0,0,0,0,0,0⟩,⟨3,0,0,0,0,0,0,0,0⟩] := by
  rintro ⟨fuel,ended⟩
  have full := fetchLoop_full _ ended
  simp at full

theorem fetch_retained_part_three : ∃ fuel,
    fetch ([⟨1,0,0,0,0,0,0,0,0⟩,⟨2,0,0,0,0,0,0,0,0⟩,⟨3,0,0,0,0,0,0,0,0⟩].foldl append
        (create ⟨2,by decide,by decide⟩)) fuel 1 7 10 =
      some [⟨2,0,0,0,0,0,0,0,0⟩,⟨3,0,0,0,0,0,0,0,0⟩] :=
  (fetch_retained_part ⟨2,by decide,by decide⟩ 1
    [⟨1,0,0,0,0,0,0,0,0⟩,⟨2,0,0,0,0,0,0,0,0⟩,⟨3,0,0,0,0,0,0,0,0⟩] ⟨rfl,rfl,rfl,trivial⟩ (by decide)
    1 7 10).mpr (.inl (by decide))

end Llte.HistoryStore
