import Llte.OrderBookSound

/-! The calls of the book, each with the queues it leaves behind. Whatever a call does
to the lists, the orders it does not name keep their content. -/
namespace Llte.OrderBook
open Foundation

variable {c : Config} {b : OrderBook c} {place : UInt32 → Place} {free : List UInt32}
  {queue : Side → UInt64 → List UInt32} {side : Side} {idx : UInt64} {slot : UInt32}

theorem Layout.setQueue_remove (layout : Layout b place free queue)
    (member : slot ∈ queue side idx) :
    setQueue queue side idx ((queue side idx).filter (· ≠ slot)) = fun s i => (queue s i).filter (· ≠ slot) := by
  funext s i
  by_cases here : s = side ∧ i = idx
  · rw [here.1,here.2,setQueue_self]
  · rw [setQueue_other _ here,eq_comm,List.filter_eq_self]
    intro other found
    simp only [ne_eq,decide_not,Bool.not_eq_true',decide_eq_false_iff_not]
    rintro rfl
    have both := (layout.placed found).symm.trans (layout.placed member)
    exact here (Place.resting.inj both)

theorem setQueue_push (queue : Side → UInt64 → List UInt32) (side : Side) (idx : UInt64) (slot : UInt32) :
    setQueue queue side idx (queue side idx ++ [slot]) =
      fun s i => queue s i ++ if s = side ∧ i = idx then [slot] else [] := by
  funext s i
  by_cases here : s = side ∧ i = idx
  · rw [here.1,here.2,setQueue_self,if_pos ⟨rfl,rfl⟩]
  · rw [setQueue_other _ here,if_neg here,List.append_nil]

private theorem Layout.resting_remove (layout : Layout b place free queue) (member : slot ∈ queue side idx)
    (other : UInt32) :
    Resting (setQueue queue side idx ((queue side idx).filter (· ≠ slot))) other ↔
      Resting queue other ∧ other ≠ slot := by
  simp only [layout.setQueue_remove member,Resting,List.mem_filter,decide_eq_true_eq,exists_and_right]

private theorem resting_push (queue : Side → UInt64 → List UInt32) (side : Side) (idx : UInt64) (slot other : UInt32) :
    Resting (setQueue queue side idx (queue side idx ++ [slot])) other ↔ Resting queue other ∨ other = slot := by
  have here (s : Side) (i : UInt64) : (other ∈ if s = side ∧ i = idx then [slot] else []) ↔
      (s = side ∧ i = idx) ∧ other = slot := by
    split <;> simp_all
  have place : ∃ s i, s = side ∧ i = idx := ⟨side,idx,rfl,rfl⟩
  simp only [setQueue_push,Resting,List.mem_append,here,exists_or,exists_and_right,place,true_and]

theorem Layout.filed (layout : Layout b place free queue) (member : slot ∈ queue side idx) :
    (b.order slot).side = side ∧ levelIndex c (b.order slot).price = idx ∧
      (b.order slot).price = levelPrice c idx ∧ 0 < (b.order slot).quantity := by
  obtain ⟨sideEq,priceEq,positive⟩ := (layout.queued side idx (layout.range_of_mem member)).filed slot member
  exact ⟨sideEq,by rw [priceEq,levelIndex_levelPrice],priceEq,positive⟩

private theorem Layout.free_length (layout : Layout b place free queue) : free.length ≤ c.maxOrders :=
  length_le_of_distinct layout.distinct (fun a found => ((layout.freeIff a).mp found).1)

/-- Linking in and noting the level, as `add` and `modify` do. -/
def enqueue (b : OrderBook c) (idx : UInt64) (side : Side) (slot : UInt32) : OrderBook c :=
  (b.linkBack idx side slot).noteLevelFilled side idx

private theorem bestLevel_linkBack (b : OrderBook c) (side : Side) (idx : UInt64) (slot : UInt32) (side' : Side) :
    (b.linkBack idx side slot).bestLevel side' = b.bestLevel side' := by
  have fields := rest_linkBack b side idx slot
  simp only [rest,Prod.mk.injEq] at fields
  cases side'
  · exact fields.2.2.1
  · exact fields.2.2.2

private theorem counts_enqueue (b : OrderBook c) (side : Side) (idx : UInt64) (slot : UInt32) :
    (b.enqueue idx side slot).index = b.index ∧ (b.enqueue idx side slot).liveOrders = b.liveOrders := by
  have fields := rest_linkBack b side idx slot
  simp only [rest,Prod.mk.injEq] at fields
  have noted := counts_noteLevelFilled (b.linkBack idx side slot) side idx
  exact ⟨noted.1.trans fields.1,noted.2.1.trans fields.2.1⟩

private theorem content_enqueue (b : OrderBook c) (side : Side) (idx : UInt64) (slot a : UInt32) :
    content ((b.enqueue idx side slot).order a) = content (b.order a) := by
  rw [enqueue,order_noteLevelFilled]
  exact content_linkBack b side idx slot a

theorem Layout.enqueue (layout : Layout b place free queue) (range : idx.toNat < c.levelCount)
    (inside : slot.toNat < c.maxOrders) (detached : place slot = .detached)
    (filed : (b.order slot).side = side ∧ (b.order slot).price = levelPrice c idx ∧
      0 < (b.order slot).quantity) :
    Layout (b.enqueue idx side slot) (Function.update place slot (.resting side idx)) free
      (setQueue queue side idx (queue side idx ++ [slot])) :=
  (layout.link range inside detached filed).congr (order_noteLevelFilled _ _ _)
    (level_noteLevelFilled _ _ _) (counts_noteLevelFilled _ _ _).2.2

theorem level_ne_noLevel (spanned : Spanned c) {idx : UInt64} (range : idx.toNat < c.levelCount) :
    idx ≠ kNoLevel := by
  have span : c.levelCount < 2^63 := spanned
  rintro rfl
  simp only [kNoLevel,UInt64.reduceToNat] at range
  omega

private theorem enqueue_best (spanned : Spanned c) (layout : Layout b place free queue)
    (best : ∀ side, Best b queue side) (side : Side) (idx : UInt64) (slot : UInt32) (side' : Side) :
    Best (b.enqueue idx side slot) (setQueue queue side idx (queue side idx ++ [slot])) side' := by
  have linked : Best (b.linkBack idx side slot) queue side' :=
    (best side').congr (bestLevel_linkBack ..) (fun _ => rfl)
  by_cases own : side' = side
  · subst own
    exact noteLevelFilled_best linked (fun i some_ => level_ne_noLevel spanned (layout.inRange side' i some_))
      (by simp)
  · exact linked.congr (noteLevelFilled_other own) (fun i => setQueue_other _ (fun both => own both.1))

private theorem attached_update (whole : ∀ a : UInt32, a.toNat < c.maxOrders → place a ≠ .detached) (slot : UInt32)
    {last : Place} (attached : last ≠ .detached) (a : UInt32) (within : a.toNat < c.maxOrders) :
    Function.update (Function.update place slot .detached) slot last a ≠ .detached := by
  by_cases same : a = slot
  · rw [same,Function.update_self]
    exact attached
  · rw [Function.update_of_ne same,Function.update_of_ne same]
    exact whole a within

private theorem enterOrder_eq {b₀ : OrderBook c} {orderId : UInt64} {price : Price} {quantity : UInt32}
    (acquired : b.acquireSlot = (slot,b₀)) (some_ : slot ≠ kNullOrder) {index : OrderIndex c.indexSize}
    (inserted : b₀.index.indexInsert mix orderId slot = some index) {order : Order}
    (filled : order = {b₀.order slot with id := orderId, price := price, quantity := quantity, side := side}) :
    b.enterOrder orderId side price quantity = some (.ok,
      {(b₀.setOrder slot order).enqueue (levelIndex c price) side slot with
        index := index, liveOrders := b₀.liveOrders+1}) := by
  obtain ⟨index₁,live₁⟩ := counts_enqueue (b₀.setOrder slot order) side (levelIndex c price) slot
  have stored := (congrArg (fun i => OrderIndex.indexInsert mix i orderId slot) index₁).trans inserted
  unfold enterOrder
  rw [acquired]
  dsimp only
  rw [if_neg some_,← filled]
  split
  next failed => exact absurd (failed.symm.trans stored) (by simp)
  next index' found =>
    rw [Option.some.inj (found.symm.trans stored)]
    exact congrArg (fun n => some (Result.ok,
      {(b₀.setOrder slot order).enqueue (levelIndex c price) side slot with
        index := index, liveOrders := n+1})) live₁

namespace Sound

theorem id_inj (sound : Sound b free queue) {first second : UInt32} (one : Resting queue first)
    (two : Resting queue second) (same : (b.order first).id = (b.order second).id) : first = second := by
  have entries := sound.formed.entry_inj
    ((sound.entries ⟨(b.order first).id,first⟩).mpr ⟨one,rfl⟩)
    ((sound.entries ⟨(b.order second).id,second⟩).mpr ⟨two,rfl⟩) same
  exact congrArg IndexSlot.value entries

/-- What `find_index` says about the id: no live order has it, or the entry at the
position leads to the one that has. -/
theorem find (sound : Sound b free queue) (orderId : UInt64) :
    ∃ position, b.index.findIndex mix orderId = some position ∧
      ((position = kNoLevel ∧ ∀ slot, Resting queue slot → (b.order slot).id ≠ orderId) ∨
        (position ≠ kNoLevel ∧ position.toNat < c.indexSize.capacity.size ∧
          ∃ slot side idx, b.index.get position.toNat = ⟨orderId,slot⟩ ∧ slot ∈ queue side idx ∧
            (b.order slot).id = orderId ∧ b.index.cell position.toNat = some ⟨orderId,slot⟩)) := by
  obtain ⟨position,found,cases_⟩ := OrderIndex.findIndex_spec sound.formed sound.roomy orderId
  refine ⟨position,found,cases_.imp ?_ ?_⟩
  · rintro ⟨none,absent⟩
    refine ⟨none,?_⟩
    intro slot resting
    exact absent ⟨(b.order slot).id,slot⟩ ((sound.entries _).mpr ⟨resting,rfl⟩)
  · rintro ⟨inside,⟨key,slot⟩,held,rfl⟩
    obtain ⟨⟨side,idx,member⟩,id⟩ := (sound.entries ⟨key,slot⟩).mp ⟨_,inside,held⟩
    exact ⟨OrderIndex.position_ne_noLevel inside,inside,slot,side,idx,
      ((OrderIndex.cell_eq_some _ _).mp held).1,member,id,held⟩

private theorem entries_erase (sound : Sound b free queue) (layout : Layout b place free queue)
    (member : slot ∈ queue side idx) {index : OrderIndex c.indexSize}
    (left : ∀ other, index.Has other ↔ b.index.Has other ∧ other.key ≠ (b.order slot).id)
    {b' : OrderBook c} (same : ∀ a, (b'.order a).id = (b.order a).id) (entry : IndexSlot) :
    index.Has entry ↔ Resting (setQueue queue side idx ((queue side idx).filter (· ≠ slot))) entry.value ∧
      (b'.order entry.value).id = entry.key := by
  rw [left,sound.entries,layout.resting_remove member,same]
  constructor
  · rintro ⟨⟨resting,key⟩,apart⟩
    refine ⟨⟨resting,?_⟩,key⟩
    intro here
    exact apart (by rw [← key,here])
  · rintro ⟨⟨resting,apart⟩,key⟩
    refine ⟨⟨resting,key⟩,?_⟩
    intro here
    exact apart (sound.id_inj resting ⟨side,idx,member⟩ (key.trans here))

private theorem entries_insert (sound : Sound b free queue) (idle : ¬ Resting queue slot) {orderId : UInt64}
    {index : OrderIndex c.indexSize}
    (entries : ∀ entry, index.Has entry ↔ entry = ⟨orderId,slot⟩ ∨ b.index.Has entry) {b' : OrderBook c}
    (own : (b'.order slot).id = orderId) (others : ∀ a, a ≠ slot → (b'.order a).id = (b.order a).id)
    (side : Side) (idx : UInt64) (entry : IndexSlot) :
    index.Has entry ↔ Resting (setQueue queue side idx (queue side idx ++ [slot])) entry.value ∧
      (b'.order entry.value).id = entry.key := by
  rw [entries,resting_push,sound.entries]
  obtain ⟨key,value⟩ := entry
  by_cases same : value = slot
  · subst same
    simp only [IndexSlot.mk.injEq,and_true,idle,false_and,or_false,or_true,true_and,own,eq_comm]
  · simp only [IndexSlot.mk.injEq,same,and_false,false_or,or_false,others value same]

theorem remove (sound : Sound b free queue) {orderId position : UInt64}
    (inside : position.toNat < c.indexSize.capacity.size)
    (entry : b.index.get position.toNat = ⟨orderId,slot⟩) (member : slot ∈ queue side idx)
    (id : (b.order slot).id = orderId) (held : b.index.cell position.toNat = some ⟨orderId,slot⟩) :
    ∃ b', b.removeOrder position = some b' ∧
      Sound b' (slot::free) (setQueue queue side idx ((queue side idx).filter (· ≠ slot))) ∧
      ∀ a, content (b'.order a) = content (b.order a) := by
  subst id
  obtain ⟨place,layout,whole⟩ := sound.layout
  obtain ⟨sideEq,levelEq,_,_⟩ := layout.filed member
  have room := layout.within member
  obtain ⟨sameIndex,sameLive⟩ := counts_unlink b side idx slot
  have contents := content_unlink b side idx slot
  have unlinked := layout.unlink member
  have best := unlink_best sound.spanned layout member sound.best
  obtain ⟨index,erased,formed,left⟩ := OrderIndex.indexErase_spec sound.formed sound.roomy inside held
  have result : b.removeOrder position = some
      {({b.unlink idx side slot with index := index} : OrderBook c).releaseSlot slot with
        liveOrders := b.liveOrders-1} := by
    unfold removeOrder
    rw [entry]
    dsimp only
    rw [sideEq,levelEq,sameIndex,erased]
    dsimp only
    congr 2
    exact congrArg (· - 1) sameLive
  generalize b.unlink idx side slot = b₁ at result contents unlinked best
  have layout₁ : Layout ({b₁ with index := index} : OrderBook c) (Function.update place slot .detached) free
      (setQueue queue side idx ((queue side idx).filter (· ≠ slot))) :=
    unlinked.congr (fun _ => rfl) (fun s _ => by cases s <;> rfl) rfl
  have layout₂ := layout₁.release room (Function.update_self ..)
  have contents₂ (a : UInt32) :
      content ((({b₁ with index := index} : OrderBook c).releaseSlot slot).order a) = content (b.order a) :=
    (content_releaseSlot _ slot a).trans (contents a)
  have live := sound.live
  have some_ : 1 ≤ b.liveOrders.toNat := by
    have count := layout₂.free_length
    rw [List.length_cons] at count
    omega
  refine ⟨_,result,⟨sound.spanned,⟨_,layout₂.congr (fun _ => rfl) (fun s _ => by cases s <;> rfl) rfl,
    attached_update whole slot (by simp)⟩,?_,formed,?_,?_⟩,contents₂⟩
  · change (b.liveOrders-1).toNat+(slot::free).length = c.maxOrders
    rw [UInt64.toNat_sub_of_le _ _ (by rw [UInt64.le_iff_toNat_le]; exact some_),List.length_cons]
    change b.liveOrders.toNat-1+(free.length+1) = c.maxOrders
    omega
  · exact sound.entries_erase layout member left (fun a => content_id (contents₂ a))
  · intro s
    exact (best s).congr (by cases s <;> rfl) (fun _ => rfl)

/-- Entering a new order: the pool is exhausted, or the first free slot goes to the
back of the queue. -/
theorem enter (sound : Sound b free queue) {orderId : UInt64} {price : Price} {quantity : UInt32}
    (proper : orderId ≠ kEmptyKey) (fresh : ∀ slot, Resting queue slot → (b.order slot).id ≠ orderId)
    (positive : 0 < quantity) (inside : inBand c price = true) (side : Side) :
    (free = [] ∧ b.enterOrder orderId side price quantity = some (.poolExhausted,b)) ∨
    ∃ slot rest b', free = slot::rest ∧ ¬ Resting queue slot ∧
      b.enterOrder orderId side price quantity = some (.ok,b') ∧
      Sound b' rest (setQueue queue side (levelIndex c price) (queue side (levelIndex c price) ++ [slot])) ∧
      content (b'.order slot) = (orderId,price,quantity,side) ∧
      ∀ a, a ≠ slot → content (b'.order a) = content (b.order a) := by
  obtain ⟨place,layout,whole⟩ := sound.layout
  cases free with
  | nil =>
    refine .inl ⟨rfl,?_⟩
    unfold enterOrder
    rw [layout.acquire_none]
    rfl
  | cons slot rest =>
    refine .inr ?_
    obtain ⟨acquired,room,some_,layout₀⟩ := layout.acquire
    have isFree := ((layout.freeIff slot).mp (List.mem_cons_self ..)).2
    have idle : ¬ Resting queue slot := by
      rintro ⟨side',idx',member⟩
      rw [layout.placed member] at isFree
      simp at isFree
    have unused (entry : IndexSlot) (has : b.index.Has entry) : entry.key ≠ orderId := by
      obtain ⟨resting,key⟩ := (sound.entries entry).mp has
      rw [← key]
      exact fresh entry.value resting
    obtain ⟨index,inserted,formed,entries⟩ :=
      OrderIndex.indexInsert_spec sound.formed sound.roomy proper unused slot
    generalize taken : ({b with freeHead := (b.order slot).next} : OrderBook c) = b₀ at acquired layout₀
    have order₀ (a : UInt32) : b₀.order a = b.order a := by rw [← taken]; rfl
    obtain ⟨order,filled⟩ : ∃ order : Order, order =
      {b₀.order slot with id := orderId, price := price, quantity := quantity, side := side} := ⟨_,rfl⟩
    have result := enterOrder_eq acquired some_ (by rw [← taken]; exact inserted) filled
    have live₀ : b₀.liveOrders = b.liveOrders := by rw [← taken]
    rw [live₀] at result
    have own : (b₀.setOrder slot order).order slot = order := by rw [order_setOrder room,if_pos rfl]
    have layout₁ := layout₀.setOrder room (Function.update_self ..) order
    have best₁ (s : Side) : Best (b₀.setOrder slot order) queue s :=
      (sound.best s).congr (by rw [← taken]; cases s <;> rfl) (fun _ => rfl)
    have range := levelIndex_lt sound.spanned inside
    have priceEq := levelPrice_levelIndex c price
    generalize levelIndex c price = idx at range priceEq result ⊢
    have layout₂ := layout₁.enqueue range room (Function.update_self ..)
      (by rw [own,filled]; exact ⟨rfl,priceEq.symm,positive⟩)
    have best₂ := enqueue_best sound.spanned layout₁ best₁ side idx slot
    have contents₂ := content_enqueue (b₀.setOrder slot order) side idx slot
    have held : content (((b₀.setOrder slot order).enqueue idx side slot).order slot) =
        (orderId,price,quantity,side) := by
      rw [contents₂,own,filled]
      rfl
    have others (a : UInt32) (apart : a ≠ slot) :
        content (((b₀.setOrder slot order).enqueue idx side slot).order a) = content (b.order a) := by
      rw [contents₂,order_setOrder room,if_neg apart,order₀]
    refine ⟨slot,rest,_,rfl,idle,result,⟨sound.spanned,⟨_,layout₂.congr (fun _ => rfl)
      (fun s _ => by cases s <;> rfl) rfl,attached_update whole slot (by simp)⟩,?_,formed,?_,?_⟩,held,others⟩
    · have live := sound.live
      have small := c.addressable
      rw [List.length_cons] at live
      change (b.liveOrders+1).toNat+rest.length = c.maxOrders
      rw [succ_toNat (by omega)]
      omega
    · exact sound.entries_insert idle entries (Prod.mk.inj held).1
        (fun a apart => content_id (others a apart)) side idx
    · intro s
      exact (best₂ s).congr (by cases s <;> rfl) (fun _ => rfl)

theorem shrink (sound : Sound b free queue) {cut left : UInt32} (member : slot ∈ queue side idx)
    (positive : 0 < left) (exact_ : cut.toNat+left.toNat = (b.order slot).quantity.toNat) :
    Sound (b.shrinkOrder slot cut left) free queue ∧
      (∀ a, a ≠ slot → content ((b.shrinkOrder slot cut left).order a) = content (b.order a)) ∧
      content ((b.shrinkOrder slot cut left).order slot) =
        ((b.order slot).id,(b.order slot).price,left,(b.order slot).side) := by
  obtain ⟨place,layout,whole⟩ := sound.layout
  have order := @order_shrinkOrder c b slot cut left (layout.within member)
  have fields := rest_shrinkOrder b slot cut left
  simp only [rest,Prod.mk.injEq] at fields
  obtain ⟨indexEq,liveEq,bidEq,askEq⟩ := fields
  refine ⟨⟨sound.spanned,⟨place,layout.shrink member positive exact_,whole⟩,?_,?_,?_,?_⟩,?_,?_⟩
  · rw [liveEq]
    exact sound.live
  · rw [indexEq]
    exact sound.formed
  · intro entry
    have sameId : ((b.shrinkOrder slot cut left).order entry.value).id = (b.order entry.value).id := by
      rw [order]
      split
      next here => rw [here]
      next => rfl
    rw [indexEq,sameId]
    exact sound.entries entry
  · intro s
    refine (sound.best s).congr ?_ (fun _ => rfl)
    cases s
    · exact bidEq
    · exact askEq
  · intro a apart
    rw [order,if_neg apart]
  · rw [order,if_pos rfl]
    rfl

/-- A move takes the order out of its queue and to the back of the one at the new
price, on its own side. -/
theorem move (sound : Sound b free queue) {price : Price} {quantity : UInt32}
    (member : slot ∈ queue side idx) (positive : 0 < quantity) (inside : inBand c price = true)
    {left : Side → UInt64 → List UInt32}
    (taken : left = setQueue queue side idx ((queue side idx).filter (· ≠ slot))) :
    Sound (b.moveOrder slot price quantity) free
      (setQueue left side (levelIndex c price) (left side (levelIndex c price) ++ [slot])) ∧
      (∀ a, a ≠ slot → content ((b.moveOrder slot price quantity).order a) = content (b.order a)) ∧
      content ((b.moveOrder slot price quantity).order slot) = ((b.order slot).id,price,quantity,side) := by
  obtain ⟨place,layout,whole⟩ := sound.layout
  obtain ⟨sideEq,levelEq,_,_⟩ := layout.filed member
  have room := layout.within member
  obtain ⟨index₁,live₁⟩ := counts_unlink b side idx slot
  have contents₁ := content_unlink b side idx slot
  have layout₁ := layout.unlink member
  have best₁ := unlink_best sound.spanned layout member sound.best
  rw [← taken] at layout₁ best₁
  have resting₁ := layout.resting_remove member
  rw [← taken] at resting₁
  have range := levelIndex_lt sound.spanned inside
  have priceEq := levelPrice_levelIndex c price
  generalize unlinked : b.unlink idx side slot = b₁ at index₁ live₁ contents₁ layout₁ best₁
  let order : Order := {b₁.order slot with price := price, quantity := quantity}
  have result : b.moveOrder slot price quantity = (b₁.setOrder slot order).enqueue (levelIndex c price) side slot := by
    unfold moveOrder
    dsimp only
    rw [sideEq,levelEq,unlinked]
    rfl
  have own : (b₁.setOrder slot order).order slot = order := by rw [order_setOrder room,if_pos rfl]
  have kept : (b₁.order slot).id = (b.order slot).id ∧ (b₁.order slot).side = side := by
    have same := contents₁ slot
    simp only [content,Prod.mk.injEq] at same
    exact ⟨same.1,same.2.2.2.trans sideEq⟩
  have layout₂ := layout₁.setOrder room (Function.update_self ..) order
  have best₂ (s : Side) : Best (b₁.setOrder slot order) left s :=
    (best₁ s).congr (by cases s <;> rfl) (fun _ => rfl)
  have layout₃ := layout₂.enqueue range room (Function.update_self ..)
    (by rw [own]; exact ⟨kept.2,priceEq.symm,positive⟩)
  obtain ⟨index₃,live₃⟩ := counts_enqueue (b₁.setOrder slot order) side (levelIndex c price) slot
  have contents₃ := content_enqueue (b₁.setOrder slot order) side (levelIndex c price) slot
  have others (a : UInt32) (apart : a ≠ slot) :
      content ((b.moveOrder slot price quantity).order a) = content (b.order a) := by
    rw [result,contents₃,order_setOrder room,if_neg apart,contents₁]
  have held : content ((b.moveOrder slot price quantity).order slot) =
      ((b.order slot).id,price,quantity,side) := by
    rw [result,contents₃,own,← kept.1,← kept.2]
    rfl
  refine ⟨⟨sound.spanned,⟨_,by rw [result]; exact layout₃,attached_update whole slot (by simp)⟩,?_,?_,?_,?_⟩,
    others,held⟩
  · rw [result,live₃]
    exact (congrArg (fun n => n.toNat+free.length) live₁).trans sound.live
  · rw [result,index₃]
    change b₁.index.WellFormed mix
    rw [index₁]
    exact sound.formed
  · intro entry
    have sameId : ((b.moveOrder slot price quantity).order entry.value).id = (b.order entry.value).id := by
      by_cases same : entry.value = slot
      · rw [same]
        exact (Prod.mk.inj held).1
      · exact content_id (others entry.value same)
    have sameIndex : (b.moveOrder slot price quantity).index = b.index := by
      rw [result,index₃]
      exact index₁
    rw [sameIndex,sameId,sound.entries,resting_push,resting₁]
    have here : Resting queue slot := ⟨side,idx,member⟩
    by_cases same : entry.value = slot
    · simp [same,here]
    · simp [same]
  · intro s
    rw [result]
    exact enqueue_best sound.spanned layout₂ best₂ side (levelIndex c price) slot s

end Sound

theorem Sound.clear (spanned : Spanned c) (b : OrderBook c) :
    Sound b.clear (allSlots c) (fun _ _ => []) := by
  refine ⟨spanned,⟨_,Layout.clear b,by simp⟩,?_,Probed.empty (fun i _ => OrderIndex.create_cell i),?_,?_⟩
  · change 0+(allSlots c).length = c.maxOrders
    simp [allSlots]
  · intro entry
    constructor
    · rintro ⟨i,_,found⟩
      rw [show b.clear.index = OrderIndex.create c.indexSize from rfl,OrderIndex.create_cell] at found
      simp at found
    · rintro ⟨⟨_,_,member⟩,_⟩
      simp at member
  · intro side
    exact .inl ⟨by cases side <;> rfl,fun _ => rfl⟩

end Llte.OrderBook
