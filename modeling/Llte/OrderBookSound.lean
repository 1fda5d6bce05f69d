import Llte.OrderBookLayout
import Mathlib.Data.Finset.Card
import Mathlib.Data.Finset.Range

/-! The invariant of the book between two calls: the layout with no slot in flight,
the count of live orders, the index over exactly the live orders, and the two best
levels. -/
namespace Llte.OrderBook
open Foundation

variable {c : Config}

/-- An order without its links. -/
def content (order : Order) : UInt64 × Price × UInt32 × Side :=
  (order.id,order.price,order.quantity,order.side)

section Frames
variable (b : OrderBook c) (side : Side) (idx : UInt64) (slot : UInt32)

private theorem content_setOrder {order : Order} (same : content order = content (b.order slot)) (a : UInt32) :
    content ((b.setOrder slot order).order a) = content (b.order a) := by
  by_cases inside : slot.toNat < c.maxOrders
  · rw [order_setOrder inside]
    split
    next here => rw [here,same]
    next => rfl
  · have nothing : (b.setOrder slot order).order a = b.order a := Store.get_put_outside inside order _
    rw [nothing]

theorem content_linkBack (a : UInt32) : content ((b.linkBack idx side slot).order a) = content (b.order a) := by
  unfold linkBack
  dsimp only
  rw [order_setLevel]
  split
  · rw [content_setOrder,content_setOrder]
    · rfl
    · rfl
  · rw [content_setOrder]
    rfl

private theorem content_detach (a : UInt32) : content ((b.detach idx side slot).order a) = content (b.order a) := by
  unfold detach
  dsimp only
  rw [order_setLevel]
  generalize first : (if (b.order slot).prev ≠ kNullOrder then b.setOrder (b.order slot).prev
    {b.order (b.order slot).prev with next := (b.order slot).next} else b) = b₁
  have one (a : UInt32) : content (b₁.order a) = content (b.order a) := by
    rw [← first]
    split
    · rw [content_setOrder]
      rfl
    · rfl
  split
  · exact (content_setOrder b₁ _ (by rfl) a).trans (one a)
  · exact one a

@[simp] theorem order_noteLevelFilled (a : UInt32) : (b.noteLevelFilled side idx).order a = b.order a := by
  unfold noteLevelFilled
  cases side <;> dsimp only <;> split <;> rfl

@[simp] theorem level_noteLevelFilled (side' : Side) (idx' : UInt64) :
    (b.noteLevelFilled side idx).level side' idx' = b.level side' idx' := by
  unfold noteLevelFilled
  cases side <;> dsimp only <;> split <;> cases side' <;> rfl

@[simp] theorem order_onLevelEmptied (a : UInt32) : (b.onLevelEmptied side idx).order a = b.order a := by
  unfold onLevelEmptied
  cases side <;> dsimp only <;> split <;> rfl

@[simp] theorem level_onLevelEmptied (side' : Side) (idx' : UInt64) :
    (b.onLevelEmptied side idx).level side' idx' = b.level side' idx' := by
  unfold onLevelEmptied
  cases side <;> dsimp only <;> split <;> cases side' <;> rfl

theorem content_unlink (a : UInt32) : content ((b.unlink idx side slot).order a) = content (b.order a) := by
  unfold unlink
  dsimp only
  split
  · rw [order_onLevelEmptied,content_detach]
  · exact content_detach ..

theorem content_releaseSlot (a : UInt32) : content ((b.releaseSlot slot).order a) = content (b.order a) :=
  content_setOrder b slot (by rfl) a

/-- The fields that the operations on the lists do not touch. -/
def rest (b : OrderBook c) : OrderIndex c.indexSize × UInt64 × UInt64 × UInt64 :=
  (b.index,b.liveOrders,b.bestBidLevel,b.bestAskLevel)

private theorem rest_setLevel (level : Level) : (b.setLevel side idx level).rest = b.rest := by
  cases side <;> rfl

theorem rest_linkBack : (b.linkBack idx side slot).rest = b.rest := by
  unfold linkBack
  dsimp only
  rw [rest_setLevel]
  split <;> rfl

private theorem rest_detach : (b.detach idx side slot).rest = b.rest := by
  unfold detach
  dsimp only
  rw [rest_setLevel]
  split <;> split <;> rfl

theorem rest_shrinkOrder (cut left : UInt32) : (b.shrinkOrder slot cut left).rest = b.rest :=
  rest_setLevel b _ _ _

theorem counts_noteLevelFilled : (b.noteLevelFilled side idx).index = b.index ∧
    (b.noteLevelFilled side idx).liveOrders = b.liveOrders ∧
    (b.noteLevelFilled side idx).freeHead = b.freeHead := by
  unfold noteLevelFilled
  cases side <;> dsimp only <;> split <;> exact ⟨rfl,rfl,rfl⟩

private theorem counts_onLevelEmptied : (b.onLevelEmptied side idx).index = b.index ∧
    (b.onLevelEmptied side idx).liveOrders = b.liveOrders ∧
    (b.onLevelEmptied side idx).freeHead = b.freeHead := by
  unfold onLevelEmptied
  cases side <;> dsimp only <;> split <;> exact ⟨rfl,rfl,rfl⟩

theorem counts_unlink : (b.unlink idx side slot).index = b.index ∧
    (b.unlink idx side slot).liveOrders = b.liveOrders := by
  have detached := rest_detach b side idx slot
  simp only [rest,Prod.mk.injEq] at detached
  unfold unlink
  dsimp only
  split
  · have emptied := counts_onLevelEmptied (b.detach idx side slot) side idx
    exact ⟨emptied.1.trans detached.1,emptied.2.1.trans detached.2.1⟩
  · exact ⟨detached.1,detached.2.1⟩

end Frames

def bestLevel (b : OrderBook c) : Side → UInt64
  | .buy => b.bestBidLevel
  | .sell => b.bestAskLevel

/-- Bids are better higher up, asks lower down. -/
def AtLeast : Side → UInt64 → UInt64 → Prop
  | .buy,first,second => second ≤ first
  | .sell,first,second => first ≤ second

/-- The cached level is the best one in use, if any is. -/
def Best (b : OrderBook c) (queue : Side → UInt64 → List UInt32) (side : Side) : Prop :=
  (b.bestLevel side = kNoLevel ∧ ∀ idx, queue side idx = []) ∨
  (queue side (b.bestLevel side) ≠ [] ∧ ∀ idx, queue side idx ≠ [] → AtLeast side (b.bestLevel side) idx)

section BestLevels
variable {b b' : OrderBook c} {place : UInt32 → Place} {free : List UInt32}
  {queue : Side → UInt64 → List UInt32} {side side' : Side} {idx : UInt64} {slots : List UInt32}

theorem Best.congr (best : Best b queue side) (same : b'.bestLevel side = b.bestLevel side)
    {queue' : Side → UInt64 → List UInt32} (queues : ∀ idx, queue' side idx = queue side idx) :
    Best b' queue' side := by
  unfold Best
  rw [same]
  simp only [queues]
  exact best

theorem noteLevelFilled_other (other : side' ≠ side) :
    (b.noteLevelFilled side idx).bestLevel side' = b.bestLevel side' := by
  unfold noteLevelFilled
  cases side <;> cases side' <;> first | exact absurd rfl other | (dsimp only; split <;> rfl)

private theorem onLevelEmptied_other (other : side' ≠ side) :
    (b.onLevelEmptied side idx).bestLevel side' = b.bestLevel side' := by
  unfold onLevelEmptied
  cases side <;> cases side' <;> first | exact absurd rfl other | (dsimp only; split <;> rfl)

theorem noteLevelFilled_best (best : Best b queue side)
    (proper : ∀ idx, queue side idx ≠ [] → idx ≠ kNoLevel) (filled : slots ≠ []) :
    Best (b.noteLevelFilled side idx) (setQueue queue side idx slots) side := by
  have occupied (i : UInt64) : setQueue queue side idx slots side i ≠ [] ↔ i = idx ∨ queue side i ≠ [] := by
    unfold setQueue
    by_cases here : i = idx
    · simp [here,filled]
    · simp [here]
  refine .inr ?_
  simp only [occupied]
  rcases best with ⟨none,vacant⟩ | ⟨used,top⟩
  · have now : (b.noteLevelFilled side idx).bestLevel side = idx := by
      cases side <;> simp_all [noteLevelFilled,bestLevel]
    rw [now]
    refine ⟨.inl rfl,?_⟩
    rintro i (rfl | some_)
    · cases side <;> exact UInt64.le_refl _
    · exact absurd (vacant i) some_
  · have some_ := proper _ used
    cases side with
    | buy =>
      by_cases higher : b.bestBidLevel < idx
      · have now : (b.noteLevelFilled .buy idx).bestLevel .buy = idx := by
          simp [noteLevelFilled,bestLevel,higher]
        rw [now]
        refine ⟨.inl rfl,?_⟩
        rintro i (rfl | there)
        · exact UInt64.le_refl _
        · exact UInt64.le_of_lt (UInt64.lt_of_le_of_lt (top i there) higher)
      · have now : (b.noteLevelFilled .buy idx).bestLevel .buy = b.bestBidLevel := by
          simp only [bestLevel] at some_
          simp [noteLevelFilled,bestLevel,higher,some_]
        rw [now]
        refine ⟨.inr used,?_⟩
        rintro i (rfl | there)
        · exact UInt64.not_lt.mp higher
        · exact top i there
    | sell =>
      by_cases lower : idx < b.bestAskLevel
      · have now : (b.noteLevelFilled .sell idx).bestLevel .sell = idx := by
          simp [noteLevelFilled,bestLevel,lower]
        rw [now]
        refine ⟨.inl rfl,?_⟩
        rintro i (rfl | there)
        · exact UInt64.le_refl _
        · exact UInt64.le_of_lt (UInt64.lt_of_lt_of_le lower (top i there))
      · have now : (b.noteLevelFilled .sell idx).bestLevel .sell = b.bestAskLevel := by
          simp only [bestLevel] at some_
          simp [noteLevelFilled,bestLevel,lower,some_]
        rw [now]
        refine ⟨.inr used,?_⟩
        rintro i (rfl | there)
        · exact UInt64.not_lt.mp lower
        · exact top i there

private theorem level_toNat (spanned : Spanned c) {n : Nat} (inside : n < c.levelCount) :
    (UInt64.ofNat n).toNat = n := by
  have span : c.levelCount < 2^63 := spanned
  rw [UInt64.toNat_ofNat']
  exact Nat.mod_eq_of_lt (by omega)

def countOf (b : OrderBook c) (side : Side) (idx : UInt64) : Nat := (b.level side idx).orderCount.toNat

private theorem scanBids_spec (spanned : Spanned c) (b : OrderBook c) (n : Nat) (upto : n ≤ c.levelCount) :
    (b.scanBids n = kNoLevel ∧ ∀ i : UInt64, i.toNat < n → b.countOf .buy i = 0) ∨
      ((b.scanBids n).toNat < n ∧ b.countOf .buy (b.scanBids n) ≠ 0 ∧
        ∀ i : UInt64, i.toNat < n → b.countOf .buy i ≠ 0 → i ≤ b.scanBids n) := by
  induction n with
  | zero => exact .inl ⟨rfl,fun i less => by omega⟩
  | succ n ih =>
    have number := level_toNat spanned (show n < c.levelCount by omega)
    have same (i : UInt64) (equal : i.toNat = n) : i = UInt64.ofNat n :=
      UInt64.toNat_inj.mp (equal.trans number.symm)
    rw [scanBids]
    split
    next used =>
      refine .inr ⟨by rw [number]; omega,?_,?_⟩
      · rw [UInt32.lt_iff_toNat_lt] at used
        exact Nat.ne_of_gt used
      · intro i less _
        rw [UInt64.le_iff_toNat_le,number]
        omega
    next vacant =>
      have zero : b.countOf .buy (UInt64.ofNat n) = 0 := by
        rw [UInt32.lt_iff_toNat_lt] at vacant
        exact Nat.eq_zero_of_not_pos vacant
      rcases ih (by omega) with ⟨none,below⟩ | ⟨less,used,top⟩
      · refine .inl ⟨none,?_⟩
        intro i less
        rcases Nat.lt_or_eq_of_le (Nat.le_of_lt_succ less) with lower | here
        · exact below i lower
        · rw [same i here,zero]
      · refine .inr ⟨by omega,used,?_⟩
        intro i less some_
        rcases Nat.lt_or_eq_of_le (Nat.le_of_lt_succ less) with lower | here
        · exact top i lower some_
        · exact absurd (by rw [same i here,zero]) some_

private theorem scanAsks_spec (spanned : Spanned c) (b : OrderBook c) (n : Nat) (upto : n ≤ c.levelCount) :
    (b.scanAsks n = kNoLevel ∧
        ∀ i : UInt64, c.levelCount ≤ i.toNat+n → i.toNat < c.levelCount → b.countOf .sell i = 0) ∨
      (c.levelCount ≤ (b.scanAsks n).toNat+n ∧ (b.scanAsks n).toNat < c.levelCount ∧
        b.countOf .sell (b.scanAsks n) ≠ 0 ∧ ∀ i : UInt64, c.levelCount ≤ i.toNat+n →
          i.toNat < c.levelCount → b.countOf .sell i ≠ 0 → b.scanAsks n ≤ i) := by
  induction n with
  | zero => exact .inl ⟨rfl,fun i low high => by omega⟩
  | succ n ih =>
    have number := level_toNat spanned (show c.levelCount - (n+1) < c.levelCount by omega)
    have same (i : UInt64) (equal : i.toNat = c.levelCount - (n+1)) : i = UInt64.ofNat (c.levelCount - (n+1)) :=
      UInt64.toNat_inj.mp (equal.trans number.symm)
    rw [scanAsks]
    split
    next used =>
      refine .inr ⟨by rw [number]; omega,by rw [number]; omega,?_,?_⟩
      · rw [UInt32.lt_iff_toNat_lt] at used
        exact Nat.ne_of_gt used
      · intro i low high _
        rw [UInt64.le_iff_toNat_le,number]
        omega
    next vacant =>
      have zero : b.countOf .sell (UInt64.ofNat (c.levelCount - (n+1))) = 0 := by
        rw [UInt32.lt_iff_toNat_lt] at vacant
        exact Nat.eq_zero_of_not_pos vacant
      rcases ih (by omega) with ⟨none,above⟩ | ⟨low,high,used,top⟩
      · refine .inl ⟨none,?_⟩
        intro i low high
        by_cases here : i.toNat = c.levelCount - (n+1)
        · rw [same i here,zero]
        · exact above i (by omega) high
      · refine .inr ⟨by omega,high,used,?_⟩
        intro i low' high' some_
        by_cases here : i.toNat = c.levelCount - (n+1)
        · exact absurd (by rw [same i here,zero]) some_
        · exact top i (by omega) high' some_

private theorem Layout.count_ne_zero (layout : Layout b place free queue) (range : idx.toNat < c.levelCount) :
    b.countOf side idx ≠ 0 ↔ queue side idx ≠ [] := by
  rw [countOf,(layout.queued side idx range).count]
  simp

private theorem onLevelEmptied_best (spanned : Spanned c) (layout : Layout b place free queue)
    (range : idx.toNat < c.levelCount) (vacant : queue side idx = [])
    (held : b.bestLevel side = idx ∨ queue side (b.bestLevel side) ≠ [])
    (top : ∀ i, queue side i ≠ [] → AtLeast side (b.bestLevel side) i) :
    Best (b.onLevelEmptied side idx) queue side := by
  have used (i : UInt64) (some_ : queue side i ≠ []) : i.toNat < c.levelCount := layout.inRange side i some_
  have count (i : UInt64) (range : i.toNat < c.levelCount) : b.countOf side i ≠ 0 ↔ queue side i ≠ [] :=
    layout.count_ne_zero range
  by_cases here : idx = b.bestLevel side
  · cases side with
    | buy =>
      have now : (b.onLevelEmptied .buy idx).bestLevel .buy = b.scanBids idx.toNat := by
        simp only [bestLevel] at here
        simp [onLevelEmptied,bestLevel,here]
      have below (i : UInt64) (some_ : queue .buy i ≠ []) : i.toNat < idx.toNat := by
        have upto := UInt64.le_iff_toNat_le.mp (top i some_)
        rw [← here] at upto
        refine Nat.lt_of_le_of_ne upto (fun same => ?_)
        rw [UInt64.toNat_inj.mp same] at some_
        exact some_ vacant
      unfold Best
      rw [now]
      rcases scanBids_spec spanned b idx.toNat (by omega) with ⟨none,all⟩ | ⟨less,some_,highest⟩
      · refine .inl ⟨none,?_⟩
        intro i
        by_contra found
        exact (count i (used i found)).mpr found (all i (below i found))
      · refine .inr ⟨(count _ (by omega)).mp some_,?_⟩
        intro i found
        exact highest i (below i found) ((count i (used i found)).mpr found)
    | sell =>
      have now : (b.onLevelEmptied .sell idx).bestLevel .sell = b.scanAsks (c.levelCount - (idx.toNat+1)) := by
        simp only [bestLevel] at here
        simp [onLevelEmptied,bestLevel,here]
      have above (i : UInt64) (some_ : queue .sell i ≠ []) : idx.toNat < i.toNat := by
        have downto := UInt64.le_iff_toNat_le.mp (top i some_)
        rw [← here] at downto
        refine Nat.lt_of_le_of_ne downto (fun same => ?_)
        rw [← UInt64.toNat_inj.mp same] at some_
        exact some_ vacant
      unfold Best
      rw [now]
      rcases scanAsks_spec spanned b (c.levelCount - (idx.toNat+1)) (by omega) with
        ⟨none,all⟩ | ⟨_,high,some_,lowest⟩
      · refine .inl ⟨none,?_⟩
        intro i
        by_contra found
        have above := above i found
        exact (count i (used i found)).mpr found (all i (by omega) (used i found))
      · refine .inr ⟨(count _ high).mp some_,?_⟩
        intro i found
        have above := above i found
        exact lowest i (by omega) (used i found) ((count i (used i found)).mpr found)
  · have now : (b.onLevelEmptied side idx).bestLevel side = b.bestLevel side := by
      cases side <;> simp only [bestLevel] at here <;> simp [onLevelEmptied,bestLevel,here]
    unfold Best
    rw [now]
    exact .inr ⟨held.resolve_left (fun same => here same.symm),top⟩

theorem Layout.unlink {slot : UInt32} (layout : Layout b place free queue) (member : slot ∈ queue side idx) :
    Layout (b.unlink idx side slot) (Function.update place slot .detached) free
      (setQueue queue side idx ((queue side idx).filter (· ≠ slot))) := by
  have detached := layout.detach member
  unfold OrderBook.unlink
  dsimp only
  split
  · exact detached.congr (order_onLevelEmptied _ _ _) (level_onLevelEmptied _ _ _)
      (counts_onLevelEmptied _ _ _).2.2
  · exact detached

theorem unlink_best {slot : UInt32} (spanned : Spanned c) (layout : Layout b place free queue)
    (member : slot ∈ queue side idx) (best : ∀ side, Best b queue side) (side' : Side) :
    Best (b.unlink idx side slot) (setQueue queue side idx ((queue side idx).filter (· ≠ slot))) side' := by
  have range := layout.range_of_mem member
  have detached := layout.detach member
  have same (s : Side) : (b.detach idx side slot).bestLevel s = b.bestLevel s := by
    have fields := rest_detach b side idx slot
    simp only [rest,Prod.mk.injEq] at fields
    cases s
    · exact fields.2.2.1
    · exact fields.2.2.2
  generalize left : (queue side idx).filter (· ≠ slot) = slots at detached
  have some_ : queue side idx ≠ [] := List.ne_nil_of_mem member
  have kept (i : UInt64) (found : setQueue queue side idx slots side i ≠ []) : queue side i ≠ [] := by
    by_cases here : i = idx
    · rw [here]
      exact some_
    · rwa [setQueue_other slots (fun both => here both.2)] at found
  by_cases own : side' = side
  · subst own
    obtain ⟨used,top⟩ := (best side').resolve_left (fun none => some_ (none.2 idx))
    have held : b.bestLevel side' = idx ∨ setQueue queue side' idx slots side' (b.bestLevel side') ≠ [] := by
      by_cases here : b.bestLevel side' = idx
      · exact .inl here
      · rw [setQueue_other slots (fun both => here both.2)]
        exact .inr used
    unfold OrderBook.unlink
    dsimp only
    split
    next zero =>
      have vacant : setQueue queue side' idx slots side' idx = [] := by
        by_contra found
        exact (detached.count_ne_zero range).mpr found (by rw [countOf,zero]; rfl)
      exact onLevelEmptied_best spanned detached range vacant (by rw [same]; exact held)
        (fun i found => by rw [same]; exact top i (kept i found))
    next more =>
      have occupied : setQueue queue side' idx slots side' idx ≠ [] := by
        rw [← detached.count_ne_zero range,countOf]
        exact fun zero => more (UInt32.toNat_inj.mp zero)
      refine .inr ?_
      rw [same]
      refine ⟨?_,fun i found => top i (kept i found)⟩
      rcases held with here | there
      · rw [here]
        exact occupied
      · exact there
  · have untouched : (b.unlink idx side slot).bestLevel side' = b.bestLevel side' := by
      unfold OrderBook.unlink
      dsimp only
      split
      · rw [onLevelEmptied_other own,same]
      · exact same side'
    exact (best side').congr untouched (fun i => setQueue_other slots (fun both => own both.1))

end BestLevels

def Resting (queue : Side → UInt64 → List UInt32) (slot : UInt32) : Prop := ∃ side idx, slot ∈ queue side idx

structure Sound (b : OrderBook c) (free : List UInt32) (queue : Side → UInt64 → List UInt32) : Prop where
  spanned : Spanned c
  layout : ∃ place, Layout b place free queue ∧ ∀ slot, slot.toNat < c.maxOrders → place slot ≠ .detached
  live : b.liveOrders.toNat+free.length = c.maxOrders
  formed : b.index.WellFormed mix
  entries : ∀ entry, b.index.Has entry ↔ Resting queue entry.value ∧ (b.order entry.value).id = entry.key
  best : ∀ side, Best b queue side

section Calls
variable {b : OrderBook c} {free : List UInt32} {queue : Side → UInt64 → List UInt32} {side : Side}
  {idx : UInt64} {slot : UInt32}

theorem content_id {first second : Order} (same : content first = content second) : first.id = second.id :=
  (Prod.mk.inj same).1

theorem Sound.within (sound : Sound b free queue) (resting : Resting queue slot) :
    slot.toNat < c.maxOrders := by
  obtain ⟨place,layout,_⟩ := sound.layout
  obtain ⟨side,idx,member⟩ := resting
  exact layout.within member

theorem Sound.roomy (sound : Sound b free queue) : b.index.Roomy := by
  have size : c.maxOrders*2 ≤ c.indexSize.capacity.size := le_roundUpPow2 _
  have positive := c.positive
  -- the pool slots name the entries
  refine OrderIndex.roomy_of_few sound.formed (fun entry => entry.value.toNat) (Finset.range c.maxOrders)
    ?_ ?_ ?_
  · intro entry has
    rw [Finset.mem_range]
    exact sound.within ((sound.entries _).mp has).1
  · intro first second one two same
    have value : first.value = second.value := UInt32.toNat_inj.mp same
    rw [← ((sound.entries _).mp one).2,← ((sound.entries _).mp two).2,value]
  · rw [Finset.card_range]
    omega

end Calls

end Llte.OrderBook
