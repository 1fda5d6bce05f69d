import Llte.Foundation.Wrapping
import Llte.Market

/-! The exchange's bounded history and the part of the recovery server that reads
it. Appends and fetches run under one mutex, so each is a single step. -/
namespace Llte
open Foundation

structure HistoryStore (cap : Capacity) where
  ring : Ring MarketMessage cap
  oldestSequence : UInt64 := 0
  newestSequence : UInt64 := 0
  empty : Bool := true

namespace HistoryStore
variable {cap : Capacity}

def create (cap : Capacity) : HistoryStore cap where
  ring := Ring.replicate cap default

def append (h : HistoryStore cap) (message : MarketMessage) : HistoryStore cap :=
  let newest := message.sequenceNumber
  let oldest := if h.empty then newest else h.oldestSequence
  {ring := h.ring.put newest.toNat message
   oldestSequence :=
    if cap.size < (newest - oldest + 1).toNat then newest - UInt64.ofNat cap.size + 1 else oldest
   newestSequence := newest
   empty := false}

/-- The copy loop. Its counter is a wrapping 64-bit word, so for the largest `last`
it need not end; `none` says it is still running after `fuel` rounds. -/
def fetchLoop (h : HistoryStore cap) (last : UInt64) (limit : Nat) :
    Nat → UInt64 → List MarketMessage → Option (List MarketMessage)
  | 0,_,_ => none
  | fuel+1,sequence,out =>
    if sequence ≤ last ∧ out.length < limit then
      if sequence < h.oldestSequence ∨ h.newestSequence < sequence then
        fetchLoop h last limit fuel (sequence+1) out
      else fetchLoop h last limit fuel (sequence+1) (out ++ [h.ring.get sequence.toNat])
    else some out

def fetch (h : HistoryStore cap) (fuel : Nat) (first last : UInt64) (limit : Nat) :
    Option (List MarketMessage) :=
  if h.empty then some [] else fetchLoop h last limit fuel first []

/-- What the server fetches for a request it does not reject. -/
def serve (h : HistoryStore cap) (fuel : Nat) (first last : UInt64) : Option (List MarketMessage) :=
  let span := last - first + 1
  let capped := if kMaxRecoveryBatch < span then kMaxRecoveryBatch else span
  h.fetch fuel first last capped.toNat

/-- The store after appending `log`, whose numbers start at `first`. -/
structure Retains (h : HistoryStore cap) (first : Nat) (log : List MarketMessage) : Prop where
  consecutive : Consecutive first log
  empty : h.empty = true ↔ log = []
  newest : log ≠ [] → h.newestSequence.toNat+1 = first+log.length
  oldest : log ≠ [] → h.oldestSequence.toNat = max first (first+log.length-cap.size)
  held : ∀ i message, log[i]? = some message → h.oldestSequence.toNat ≤ first+i →
    h.ring.get (first+i) = message

theorem Retains.create (cap : Capacity) (first : Nat) : Retains (create cap) first [] :=
  ⟨trivial,by simp [HistoryStore.create],by simp,by simp,by simp⟩

section Append
variable {h : HistoryStore cap} {first : Nat} {log : List MarketMessage} {message : MarketMessage}

private theorem append_oldest (retains : Retains h first log)
    (number : message.sequenceNumber.toNat = first+log.length) (room : first+log.length < 2^63) :
    (h.append message).oldestSequence.toNat = max first (first+(log.length+1)-cap.size) := by
  have pos := cap.pos
  have bound := cap.bound
  have small : (UInt64.ofNat cap.size).toNat = cap.size := by
    simp only [UInt64.toNat_ofNat']
    omega
  generalize before : (if h.empty then message.sequenceNumber else h.oldestSequence) = oldest
  have oldestNat : oldest.toNat = max first (first+log.length-cap.size) := by
    rw [← before]
    split
    next none =>
      have nil := retains.empty.mp none
      rw [number,nil]
      simp
    next some =>
      exact retains.oldest (fun nil => some (retains.empty.mpr nil))
  have ordered : oldest ≤ message.sequenceNumber := by
    rw [UInt64.le_iff_toNat_le]
    omega
  have span : (message.sequenceNumber - oldest + 1).toNat = first+log.length-oldest.toNat+1 := by
    rw [UInt64.toNat_add,UInt64.toNat_sub_of_le _ _ ordered,number]
    change (first+log.length-oldest.toNat+1) % 2^64 = _
    omega
  unfold append
  dsimp only
  rw [before,span]
  split
  next passed =>
    have above : UInt64.ofNat cap.size ≤ message.sequenceNumber := by
      rw [UInt64.le_iff_toNat_le,small]
      omega
    rw [UInt64.toNat_add,UInt64.toNat_sub_of_le _ _ above,number,small]
    change (first+log.length-cap.size+1) % 2^64 = _
    omega
  next fits =>
    omega

theorem Retains.append (retains : Retains h first log)
    (number : message.sequenceNumber.toNat = first+log.length) (room : first+log.length < 2^63) :
    Retains (h.append message) first (log ++ [message]) := by
  have pos := cap.pos
  have oldest := append_oldest retains number room
  refine ⟨?_,?_,?_,?_,?_⟩
  · rw [consecutive_append]
    exact ⟨retains.consecutive,number,trivial⟩
  · simp [HistoryStore.append]
  · intro _
    change message.sequenceNumber.toNat+1 = _
    rw [List.length_append,List.length_singleton]
    omega
  · intro _
    rw [List.length_append,List.length_singleton]
    exact oldest
  · intro i entry found late
    rw [oldest] at late
    have inside : i < log.length+1 := by
      have bound := (List.getElem?_eq_some_iff.mp found).1
      simpa using bound
    have low : max first (first+(log.length+1)-cap.size) ≤ first+log.length := by omega
    change (h.ring.put message.sequenceNumber.toNat message).get (first+i) = entry
    rw [number,Ring.get_put_window h.ring message low (by omega) late (by omega)]
    by_cases last : i = log.length
    · subst last
      simp only [List.getElem?_append_right (Nat.le_refl _),Nat.sub_self,List.getElem?_cons_zero,
        Option.some.injEq] at found
      rw [if_pos rfl,found]
    · rw [List.getElem?_append_left (by omega)] at found
      rw [if_neg (by omega)]
      apply retains.held i entry found
      rw [retains.oldest (by rintro rfl; simp at found)]
      omega

end Append

/-- The numbers of a request that are still retained. -/
def kept (h : HistoryStore cap) (sequence last : Nat) : List Nat :=
  (List.range' sequence (last+1-sequence)).filter
    (fun q => h.oldestSequence.toNat ≤ q ∧ q ≤ h.newestSequence.toNat)

theorem kept_cons (h : HistoryStore cap) {sequence last : Nat} (more : sequence ≤ last) :
    h.kept sequence last =
      (if h.oldestSequence.toNat ≤ sequence ∧ sequence ≤ h.newestSequence.toNat then [sequence] else []) ++
        h.kept (sequence+1) last := by
  have count : last+1-sequence = (last+1-(sequence+1))+1 := by omega
  rw [kept,count,List.range'_succ,List.filter_cons]
  split <;> simp_all [kept]

theorem fetchLoop_eq (h : HistoryStore cap) {last : UInt64} (room : last.toNat+1 < 2^64) (limit : Nat)
    (fuel : Nat) (sequence : UInt64) (out : List MarketMessage)
    (enough : last.toNat < sequence.toNat+fuel) :
    fetchLoop h last limit (fuel+1) sequence out = some (out ++
      ((h.kept sequence.toNat last.toNat).take (limit - out.length)).map h.ring.get) := by
  induction fuel generalizing sequence out with
  | zero =>
    have past : ¬ sequence ≤ last := by
      rw [UInt64.le_iff_toNat_le]
      omega
    have nothing : h.kept sequence.toNat last.toNat = [] := by
      rw [kept,Nat.sub_eq_zero_of_le (by omega)]
      rfl
    rw [fetchLoop,if_neg (fun both => past both.1),nothing]
    simp
  | succ fuel ih =>
    rw [fetchLoop]
    by_cases more : sequence ≤ last
    · have ordered := UInt64.le_iff_toNat_le.mp more
      have next : (sequence+1).toNat = sequence.toNat+1 := succ_toNat (by omega)
      by_cases free : out.length < limit
      · rw [if_pos ⟨more,free⟩,kept_cons h ordered]
        split
        next outside =>
          rw [ih _ _ (by omega),next,if_neg]
          · simp
          · rw [UInt64.lt_iff_toNat_lt,UInt64.lt_iff_toNat_lt] at outside
            omega
        next inside =>
          rw [ih _ _ (by omega),next,if_pos]
          · have count : limit - out.length = (limit - (out.length+1))+1 := by omega
            simp [count]
          · rw [not_or,UInt64.not_lt,UInt64.not_lt,UInt64.le_iff_toNat_le,UInt64.le_iff_toNat_le] at inside
            exact inside
      · rw [if_neg (fun both => free both.2),Nat.sub_eq_zero_of_le (by omega)]
        simp
    · have nothing : h.kept sequence.toNat last.toNat = [] := by
        have order : last.toNat < sequence.toNat := by
          rw [UInt64.le_iff_toNat_le] at more
          omega
        rw [kept,Nat.sub_eq_zero_of_le (by omega)]
        rfl
      rw [if_neg (fun both => more both.1),nothing]
      simp

private theorem fetchLoop_length (h : HistoryStore cap) {last : UInt64} {limit fuel : Nat} {sequence : UInt64}
    {out messages : List MarketMessage} (ended : fetchLoop h last limit fuel sequence out = some messages)
    (free : out.length ≤ limit) : messages.length ≤ limit := by
  induction fuel generalizing sequence out with
  | zero => simp [fetchLoop] at ended
  | succ fuel ih =>
    rw [fetchLoop] at ended
    split at ended
    next more =>
      split at ended
      next => exact ih ended free
      next =>
        refine ih ended ?_
        rw [List.length_append,List.length_singleton]
        exact more.2
    next =>
      rw [Option.some.injEq] at ended
      rwa [← ended]

theorem serve_length (h : HistoryStore cap) {fuel : Nat} {first last : UInt64}
    {messages : List MarketMessage} (served : h.serve fuel first last = some messages) :
    messages.length ≤ kMaxRecoveryBatch.toNat := by
  unfold serve fetch at served
  dsimp only at served
  split at served
  next =>
    rw [Option.some.injEq] at served
    simp [← served]
  next =>
    have bound := fetchLoop_length h served (Nat.zero_le _)
    refine Nat.le_trans bound (UInt64.le_iff_toNat_le.mp ?_)
    split
    next => exact UInt64.le_refl _
    next small => exact UInt64.not_lt.mp small

theorem fetchLoop_mono (h : HistoryStore cap) {last : UInt64} {limit fuel more : Nat} {sequence : UInt64}
    {out messages : List MarketMessage} (ended : fetchLoop h last limit fuel sequence out = some messages)
    (less : fuel ≤ more) : fetchLoop h last limit more sequence out = some messages := by
  induction fuel generalizing more sequence out with
  | zero => simp [fetchLoop] at ended
  | succ fuel ih =>
    obtain ⟨rounds,rfl⟩ : ∃ rounds, more = rounds+1 := ⟨more-1,by omega⟩
    rw [fetchLoop] at ended ⊢
    split at ended
    next go =>
      rw [if_pos go]
      split at ended
      next outside => rw [if_pos outside]; exact ih ended (by omega)
      next inside => rw [if_neg inside]; exact ih ended (by omega)
    next stop => rwa [if_neg stop]

theorem serve_mono (h : HistoryStore cap) {fuel more : Nat} {first last : UInt64}
    {messages : List MarketMessage} (served : h.serve fuel first last = some messages)
    (less : fuel ≤ more) : h.serve more first last = some messages := by
  unfold serve fetch at served ⊢
  dsimp only at served ⊢
  split at served
  next none => rwa [if_pos none]
  next some_ => rw [if_neg some_]; exact fetchLoop_mono h served less

theorem serve_ends (h : HistoryStore cap) (first : UInt64) {last : UInt64} (room : last.toNat+1 < 2^64) :
    ∃ messages, h.serve (last.toNat - first.toNat + 2) first last = some messages := by
  unfold serve fetch
  dsimp only
  split
  next => exact ⟨_,rfl⟩
  next => exact ⟨_,fetchLoop_eq h room _ _ _ _ (by omega)⟩

def retained (h : HistoryStore cap) (first last : UInt64) : Bool :=
  !h.empty && decide (h.oldestSequence ≤ first) && decide (last ≤ h.newestSequence)

theorem retained_iff (h : HistoryStore cap) (first last : UInt64) :
    h.retained first last = true ↔ h.empty = false ∧ h.oldestSequence.toNat ≤ first.toNat ∧
      last.toNat ≤ h.newestSequence.toNat := by
  simp only [retained,Bool.and_eq_true,Bool.not_eq_true',decide_eq_true_eq,UInt64.le_iff_toNat_le,
    and_assoc]

/-- Over retained numbers only, the limit stops the loop, whatever the counter does. -/
theorem fetchLoop_retained (h : HistoryStore cap) {last : UInt64} (count : Nat) (sequence : UInt64)
    (out : List MarketMessage) (upto : count ≠ 0 → sequence.toNat+count = last.toNat+1)
    (low : count ≠ 0 → h.oldestSequence.toNat ≤ sequence.toNat)
    (high : count ≠ 0 → last.toNat ≤ h.newestSequence.toNat) :
    fetchLoop h last (out.length+count) (count+1) sequence out =
      some (out ++ (List.range' sequence.toNat count).map h.ring.get) := by
  induction count generalizing sequence out with
  | zero =>
    rw [fetchLoop,if_neg (fun both => Nat.lt_irrefl _ both.2)]
    simp
  | succ count ih =>
    have bound := UInt64.toNat_lt last
    have start := upto (Nat.succ_ne_zero _)
    have above := low (Nat.succ_ne_zero _)
    have below := high (Nat.succ_ne_zero _)
    have more : sequence ≤ last := by
      rw [UInt64.le_iff_toNat_le]
      omega
    have inside : ¬ (sequence < h.oldestSequence ∨ h.newestSequence < sequence) := by
      rw [UInt64.lt_iff_toNat_lt,UInt64.lt_iff_toNat_lt]
      omega
    have next : count ≠ 0 → (sequence+1).toNat = sequence.toNat+1 := by
      intro some_
      exact succ_toNat (by omega)
    have length : out.length+(count+1) = (out ++ [h.ring.get sequence.toNat]).length+count := by
      rw [List.length_append,List.length_singleton]
      omega
    rw [fetchLoop,if_pos ⟨more,by omega⟩,if_neg inside,length,ih]
    · cases count with
      | zero => simp
      | succ count => simp [next (Nat.succ_ne_zero _),List.range'_succ]
    · intro some_
      rw [next some_]
      omega
    · intro some_
      rw [next some_]
      omega
    · exact fun _ => below

theorem serve_retained {h : HistoryStore cap} {first last : UInt64} (ordered : first ≤ last)
    (batch : last.toNat < first.toNat+1024) (available : h.retained first last = true) :
    h.serve (last.toNat - first.toNat + 2) first last =
      some ((List.range' first.toNat (last.toNat+1-first.toNat)).map h.ring.get) := by
  have order := UInt64.le_iff_toNat_le.mp ordered
  obtain ⟨some_,low,high⟩ := (retained_iff h first last).mp available
  have bound := UInt64.toNat_lt last
  have span : (last - first + 1).toNat = last.toNat+1-first.toNat := by
    rw [UInt64.toNat_add,UInt64.toNat_sub_of_le _ _ ordered]
    change (last.toNat - first.toNat + 1) % 2^64 = _
    omega
  have small : ¬ kMaxRecoveryBatch < last - first + 1 := by
    rw [UInt64.lt_iff_toNat_lt,span]
    simp only [kMaxRecoveryBatch,UInt64.reduceToNat]
    omega
  have loop := fetchLoop_retained h (last.toNat+1-first.toNat) first []
    (fun _ => by omega) (fun _ => low) (fun _ => high)
  have fuel : last.toNat - first.toNat + 2 = last.toNat+1-first.toNat+1 := by omega
  rw [serve,if_neg small,span,fetch,if_neg (by simp [some_]),fuel]
  simpa using loop

def holds (h : HistoryStore cap) (q : Nat) : Bool :=
  !h.empty && decide (h.oldestSequence.toNat ≤ q) && decide (q ≤ h.newestSequence.toNat)

theorem holds_iff (h : HistoryStore cap) (q : Nat) :
    h.holds q = true ↔ h.empty = false ∧ h.oldestSequence.toNat ≤ q ∧ q ≤ h.newestSequence.toNat := by
  simp only [holds,Bool.and_eq_true,Bool.not_eq_true',decide_eq_true_eq,and_assoc]

theorem serve_covers {h : HistoryStore cap} {first last : UInt64} (ordered : first ≤ last)
    (batch : last.toNat < first.toNat+1024) (room : last.toNat+1 < 2^64)
    {messages : List MarketMessage}
    (served : h.serve (last.toNat - first.toNat + 2) first last = some messages)
    {q : Nat} (low : first.toNat ≤ q) (high : q ≤ last.toNat) (there : h.holds q = true) :
    h.ring.get q ∈ messages := by
  have order := UInt64.le_iff_toNat_le.mp ordered
  obtain ⟨used,above,below⟩ := (holds_iff h q).mp there
  have span : (last - first + 1).toNat = last.toNat+1-first.toNat := by
    rw [UInt64.toNat_add,UInt64.toNat_sub_of_le _ _ ordered]
    change (last.toNat - first.toNat + 1) % 2^64 = _
    omega
  have small : ¬ kMaxRecoveryBatch < last - first + 1 := by
    rw [UInt64.lt_iff_toNat_lt,span]
    simp only [kMaxRecoveryBatch,UInt64.reduceToNat]
    omega
  have fits : (h.kept first.toNat last.toNat).length ≤ last.toNat+1-first.toNat := by
    refine Nat.le_trans (List.length_filter_le _ _) ?_
    rw [List.length_range']
  rw [serve,if_neg small,span,fetch,if_neg (by simp [used]),fetchLoop_eq h room _ _ _ _ (by omega),
    List.length_nil,Nat.sub_zero,List.take_of_length_le fits,List.nil_append,Option.some.injEq] at served
  rw [← served]
  refine List.mem_map_of_mem (List.mem_filter.mpr ⟨?_,by simp [above,below]⟩)
  rw [List.mem_range'_1]
  omega

theorem Retains.get {h : HistoryStore cap} {start : Nat} {log : List MarketMessage}
    (retains : Retains h start log) (used : h.empty = false) {q : Nat}
    (low : h.oldestSequence.toNat ≤ q) (high : q ≤ h.newestSequence.toNat) :
    h.ring.get q ∈ log ∧ (h.ring.get q).sequenceNumber.toNat = q := by
  have full : log ≠ [] := by
    intro nil
    rw [retains.empty.mpr nil] at used
    simp at used
  have newest := retains.newest full
  have oldest := retains.oldest full
  have inside : q - start < log.length := by omega
  have held := retains.held (q - start) log[q - start] (List.getElem?_eq_getElem inside) (by omega)
  have number := consecutive_number retains.consecutive (List.getElem?_eq_getElem inside)
  rw [Nat.add_sub_of_le (by omega)] at held number
  rw [held]
  exact ⟨List.getElem_mem inside,number⟩

/-- A retained range, read from the ring, is that part of what was appended. -/
theorem Retains.range_get {h : HistoryStore cap} {start : Nat} {log : List MarketMessage}
    (retains : Retains h start log) {first last : UInt64} (ordered : first ≤ last)
    (available : h.retained first last = true) :
    (List.range' first.toNat (last.toNat+1-first.toNat)).map h.ring.get =
      between first.toNat (last.toNat+1) log := by
  have order := UInt64.le_iff_toNat_le.mp ordered
  obtain ⟨used,low,high⟩ := (retained_iff h first last).mp available
  have full : log ≠ [] := by
    intro nil
    rw [retains.empty.mpr nil] at used
    simp at used
  have newest := retains.newest full
  have oldest := retains.oldest full
  have found (q : Nat) (member : q ∈ List.range' first.toNat (last.toNat+1-first.toNat)) :
      h.ring.get q ∈ log ∧ (h.ring.get q).sequenceNumber.toNat = q := by
    rw [List.mem_range'_1] at member
    exact retains.get used (by omega) (by omega)
  refine consecutive_select retains.consecutive ?_ (fun message member => List.mem_of_mem_filter member) ?_
  · intro message member
    obtain ⟨q,range,rfl⟩ := List.mem_map.mp member
    exact (found q range).1
  · rw [between_numbers retains.consecutive (by omega) (by omega),List.map_map]
    conv_rhs => rw [← List.map_id (List.range' _ _)]
    apply List.map_congr_left
    intro q range
    exact (found q range).2

theorem serve_genuine {h : HistoryStore cap} {start : Nat} {log : List MarketMessage}
    (retains : Retains h start log) {first last : UInt64} (room : last.toNat+1 < 2^64)
    {messages : List MarketMessage}
    (served : h.serve (last.toNat - first.toNat + 2) first last = some messages)
    {message : MarketMessage} (member : message ∈ messages) :
    message ∈ log ∧ first.toNat ≤ message.sequenceNumber.toNat ∧
      message.sequenceNumber.toNat ≤ last.toNat := by
  rw [serve,fetch] at served
  split at served
  next none =>
    simp only [Option.some.injEq] at served
    rw [← served] at member
    simp at member
  next some_ =>
    rw [fetchLoop_eq h room _ _ _ _ (by omega)] at served
    simp only [List.nil_append,Option.some.injEq] at served
    rw [← served] at member
    obtain ⟨q,taken,rfl⟩ := List.mem_map.mp member
    obtain ⟨range,available⟩ := List.mem_filter.mp (List.mem_of_mem_take taken)
    rw [List.mem_range'_1] at range
    simp only [decide_eq_true_eq] at available
    have found := retains.get (by simpa using some_) available.1 available.2
    rw [found.2]
    exact ⟨found.1,range.1,by omega⟩

end HistoryStore
end Llte
