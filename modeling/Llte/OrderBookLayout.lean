import Llte.OrderBookLists

/-! The layout of the whole pool: the free list and the queues of all levels, with the
place of every slot. Each operation on the lists moves one slot; between two such
moves a slot may be in no list. -/
namespace Llte.OrderBook
open Foundation

variable {c : Config}

/-- Where a pool slot is; a detached slot is in no list. -/
inductive Place where
  | free
  | resting (side : Side) (idx : UInt64)
  | detached
  deriving DecidableEq

structure Layout (b : OrderBook c) (place : UInt32 → Place) (free : List UInt32)
    (queue : Side → UInt64 → List UInt32) : Prop where
  reads : Reads (fun slot => (b.order slot).next) kNullOrder b.freeHead free
  distinct : free.Nodup
  freeIff : ∀ slot, slot ∈ free ↔ slot.toNat < c.maxOrders ∧ place slot = .free
  queueIff : ∀ side idx slot, slot ∈ queue side idx ↔
    slot.toNat < c.maxOrders ∧ place slot = .resting side idx
  inRange : ∀ side idx, queue side idx ≠ [] → idx.toNat < c.levelCount
  queued : ∀ side idx, idx.toNat < c.levelCount → Queued b side idx (queue side idx)

def setQueue (queue : Side → UInt64 → List UInt32) (side : Side) (idx : UInt64) (slots : List UInt32) :
    Side → UInt64 → List UInt32 :=
  fun side' idx' => if side' = side ∧ idx' = idx then slots else queue side' idx'

@[simp] theorem setQueue_self (queue : Side → UInt64 → List UInt32) (side : Side) (idx : UInt64)
    (slots : List UInt32) : setQueue queue side idx slots side idx = slots := if_pos ⟨rfl,rfl⟩

theorem setQueue_other {queue : Side → UInt64 → List UInt32} {side side' : Side} {idx idx' : UInt64}
    (slots : List UInt32) (other : ¬ (side' = side ∧ idx' = idx)) :
    setQueue queue side idx slots side' idx' = queue side' idx' := if_neg other

theorem length_le_of_distinct {slots : List UInt32} {size : Nat} (distinct : slots.Nodup)
    (within : ∀ slot ∈ slots, slot.toNat < size) : slots.length ≤ size := by
  have numbers : (slots.map UInt32.toNat).Nodup :=
    distinct.map (fun first second same => UInt32.toNat_inj.mp same)
  have subset : slots.map UInt32.toNat ⊆ List.range size := by
    intro n member
    obtain ⟨slot,held,rfl⟩ := List.mem_map.mp member
    exact List.mem_range.mpr (within slot held)
  simpa using (List.subperm_of_subset numbers subset).length_le

section Moves
variable {b b' : OrderBook c} {place : UInt32 → Place} {free : List UInt32}
  {queue : Side → UInt64 → List UInt32} {side : Side} {idx : UInt64} {slot : UInt32}

theorem Layout.congr (layout : Layout b place free queue) (order : ∀ slot, b'.order slot = b.order slot)
    (level : ∀ side idx, b'.level side idx = b.level side idx) (head : b'.freeHead = b.freeHead) :
    Layout b' place free queue where
  reads := by
    rw [head]
    exact layout.reads.congr (fun a _ => by rw [order a])
  distinct := layout.distinct
  freeIff := layout.freeIff
  queueIff := layout.queueIff
  inRange := layout.inRange
  queued side idx inside := (layout.queued side idx inside).congr (level side idx) (fun a _ => order a)

theorem Layout.within (layout : Layout b place free queue) (member : slot ∈ queue side idx) :
    slot.toNat < c.maxOrders := ((layout.queueIff side idx slot).mp member).1

theorem Layout.placed (layout : Layout b place free queue) (member : slot ∈ queue side idx) :
    place slot = .resting side idx := ((layout.queueIff side idx slot).mp member).2

theorem Layout.range_of_mem (layout : Layout b place free queue) (member : slot ∈ queue side idx) :
    idx.toNat < c.levelCount := layout.inRange side idx (List.ne_nil_of_mem member)

theorem Layout.acquire {rest : List UInt32} (layout : Layout b place (slot::rest) queue) :
    b.acquireSlot = (slot,{b with freeHead := (b.order slot).next}) ∧ slot.toNat < c.maxOrders ∧
      slot ≠ kNullOrder ∧
      Layout {b with freeHead := (b.order slot).next} (Function.update place slot .detached) rest queue := by
  obtain ⟨head,proper,later⟩ := layout.reads
  obtain ⟨absent,distinct⟩ := List.nodup_cons.mp layout.distinct
  obtain ⟨inside,isFree⟩ := (layout.freeIff slot).mp (List.mem_cons_self ..)
  refine ⟨?_,inside,proper,later,distinct,?_,?_,layout.inRange,?_⟩
  · rw [acquireSlot,if_neg (by rw [head]; exact proper),head]
  · intro other
    by_cases same : other = slot
    · subst same
      simp [absent]
    · rw [Function.update_of_ne same,← layout.freeIff other,List.mem_cons]
      simp [same]
  · intro side idx other
    by_cases same : other = slot
    · subst same
      simp [layout.queueIff,isFree]
    · rw [Function.update_of_ne same]
      exact layout.queueIff side idx other
  · intro side idx inside
    exact (layout.queued side idx inside).congr rfl (fun _ _ => rfl)

theorem Layout.acquire_none (layout : Layout b place [] queue) : b.acquireSlot = (kNullOrder,b) := by
  have head : b.freeHead = kNullOrder := layout.reads
  rw [acquireSlot,if_pos head]

theorem Layout.setOrder (layout : Layout b place free queue) (inside : slot.toNat < c.maxOrders)
    (detached : place slot = .detached) (order : Order) :
    Layout (b.setOrder slot order) place free queue := by
  have keeps {a : UInt32} (other : place a ≠ .detached) : (b.setOrder slot order).order a = b.order a := by
    rw [order_setOrder inside,if_neg]
    rintro rfl
    exact other detached
  refine ⟨?_,layout.distinct,layout.freeIff,layout.queueIff,layout.inRange,?_⟩
  · refine layout.reads.congr (fun a member => ?_)
    rw [keeps (by rw [((layout.freeIff a).mp member).2]; simp)]
  · intro side idx range
    refine (layout.queued side idx range).congr (level_setOrder ..) (fun a member => ?_)
    exact keeps (by rw [layout.placed member]; simp)

theorem Layout.release (layout : Layout b place free queue) (inside : slot.toNat < c.maxOrders)
    (detached : place slot = .detached) :
    Layout (b.releaseSlot slot) (Function.update place slot .free) (slot::free) queue := by
  have order (a : UInt32) : (b.releaseSlot slot).order a =
      if a = slot then {b.order slot with next := b.freeHead} else b.order a := order_setOrder inside _ a
  have absent : slot ∉ free := by
    rw [layout.freeIff,detached]
    simp
  refine ⟨⟨rfl,?_,?_⟩,List.nodup_cons.mpr ⟨absent,layout.distinct⟩,?_,?_,layout.inRange,?_⟩
  · rintro rfl
    exact null_outside c inside
  · dsimp only
    rw [order slot,if_pos rfl]
    refine layout.reads.congr (fun a member => ?_)
    rw [order a,if_neg (by rintro rfl; exact absent member)]
  · intro other
    by_cases same : other = slot
    · subst same
      simp [inside]
    · rw [Function.update_of_ne same,← layout.freeIff other,List.mem_cons]
      simp [same]
  · intro side idx other
    by_cases same : other = slot
    · subst same
      simp [layout.queueIff,detached]
    · rw [Function.update_of_ne same]
      exact layout.queueIff side idx other
  · intro side idx range
    refine (layout.queued side idx range).congr ?_ (fun a member => ?_)
    · cases side <;> rfl
    · rw [order a,if_neg]
      rintro rfl
      rw [layout.queueIff,detached] at member
      simp at member

private theorem filter_middle {slots front back : List UInt32} (distinct : (front ++ slot::back).Nodup)
    (whole : slots = front ++ slot::back) : slots.filter (· ≠ slot) = front ++ back := by
  rw [List.nodup_middle,List.nodup_cons,List.mem_append,not_or] at distinct
  have stays {list : List UInt32} (absent : slot ∉ list) : list.filter (· ≠ slot) = list := by
    rw [List.filter_eq_self]
    intro a inside
    simp only [ne_eq,decide_eq_true_eq]
    rintro rfl
    exact absent inside
  rw [whole,List.filter_append,List.filter_cons_of_neg (by simp),stays distinct.1.1,stays distinct.1.2]

/-- A change inside one level: at most one slot joins or leaves its queue, and only
orders of that queue and detached ones are written. -/
theorem Layout.edit (layout : Layout b place free queue) {b' : OrderBook c} {slots : List UInt32} {goal : Place}
    (range : idx.toNat < c.levelCount) (head : b'.freeHead = b.freeHead)
    (levels : ∀ side' idx', ¬ (side' = side ∧ idx' = idx) → b'.level side' idx' = b.level side' idx')
    (keeps : ∀ a, place a ≠ .detached → place a ≠ .resting side idx → b'.order a = b.order a)
    (before : place slot = .detached ∨ place slot = .resting side idx)
    (after : goal = .detached ∨ goal = .resting side idx)
    (own : ∀ other, other ∈ slots ↔ other.toNat < c.maxOrders ∧
      Function.update place slot goal other = .resting side idx)
    (queued : Queued b' side idx slots) :
    Layout b' (Function.update place slot goal) free (setQueue queue side idx slots) := by
  have elsewhere {here : Place} (known : here = .detached ∨ here = .resting side idx) {side' : Side}
      {idx' : UInt64} (other : ¬ (side' = side ∧ idx' = idx)) : here ≠ .resting side' idx' := by
    rcases known with rfl | rfl
    · simp
    · intro same
      obtain ⟨rfl,rfl⟩ := Place.resting.inj same
      exact other ⟨rfl,rfl⟩
  have busy {here : Place} (known : here = .detached ∨ here = .resting side idx) : here ≠ .free := by
    rcases known with rfl | rfl <;> simp
  refine ⟨?_,layout.distinct,?_,?_,?_,?_⟩
  · rw [head]
    refine layout.reads.congr (fun a member => ?_)
    have isFree := ((layout.freeIff a).mp member).2
    rw [keeps a (by simp [isFree]) (by simp [isFree])]
  · intro other
    rw [layout.freeIff]
    by_cases same : other = slot
    · subst same
      simp [busy before,busy after]
    · rw [Function.update_of_ne same]
  · intro side' idx' other
    by_cases here : side' = side ∧ idx' = idx
    · rw [here.1,here.2,setQueue_self]
      exact own other
    · rw [setQueue_other slots here,layout.queueIff]
      by_cases same : other = slot
      · subst same
        simp [elsewhere before here,elsewhere after here]
      · rw [Function.update_of_ne same]
  · intro side' idx' some_
    by_cases here : side' = side ∧ idx' = idx
    · rw [here.2]
      exact range
    · rw [setQueue_other _ here] at some_
      exact layout.inRange side' idx' some_
  · intro side' idx' range'
    by_cases here : side' = side ∧ idx' = idx
    · rw [here.1,here.2,setQueue_self]
      exact queued
    · rw [setQueue_other _ here]
      refine (layout.queued side' idx' range').congr (levels side' idx' here) (fun a member => ?_)
      have held := layout.placed member
      refine keeps a (by simp [held]) ?_
      rw [held]
      simp only [ne_eq,Place.resting.injEq]
      exact here

theorem Layout.link (layout : Layout b place free queue) (range : idx.toNat < c.levelCount)
    (inside : slot.toNat < c.maxOrders) (detached : place slot = .detached)
    (filed : (b.order slot).side = side ∧ (b.order slot).price = levelPrice c idx ∧
      0 < (b.order slot).quantity) :
    Layout (b.linkBack idx side slot) (Function.update place slot (.resting side idx)) free
      (setQueue queue side idx (queue side idx ++ [slot])) := by
  have own := layout.queued side idx range
  have fresh : slot ∉ queue side idx := by
    rw [layout.queueIff,detached]
    simp
  have few : (queue side idx).length+1 < 2^32 := by
    have small := c.addressable
    have distinct : (slot::queue side idx).Nodup :=
      List.nodup_cons.mpr ⟨fresh,(List.nodup_cons.mp own.linked.distinct).2⟩
    have bound : (slot::queue side idx).length ≤ c.maxOrders := by
      refine length_le_of_distinct distinct (fun a member => ?_)
      rcases List.mem_cons.mp member with rfl | old
      · exact inside
      · exact layout.within old
    rw [List.length_cons] at bound
    omega
  have tail : (b.level side idx).tail ≠ kNullOrder → (b.level side idx).tail ∈ queue side idx :=
    own.tail_mem.resolve_left
  have apart : (b.level side idx).tail ≠ slot := by
    intro same
    by_cases none : (b.level side idx).tail = kNullOrder
    · exact null_outside c (none ▸ same ▸ inside)
    · exact fresh (same ▸ tail none)
  have order := @order_linkBack c b side idx slot inside (fun some_ => layout.within (tail some_)) apart
  -- only the slot itself and the old tail of its queue are written
  have keeps (a : UInt32) (other : place a ≠ .detached) (out : place a ≠ .resting side idx) :
      (b.linkBack idx side slot).order a = b.order a := by
    rw [order a,if_neg (by rintro rfl; exact other detached),if_neg]
    rintro ⟨rfl,some_⟩
    exact out (layout.placed (tail some_))
  have head : (b.linkBack idx side slot).freeHead = b.freeHead := by
    unfold linkBack
    dsimp only
    rw [freeHead_setLevel]
    split <;> simp
  refine layout.edit range head (fun side' idx' here => by rw [level_linkBack range,if_neg here]) keeps
    (.inl detached) (.inr rfl) ?_ (own.push range (fun a member => layout.within member) inside fresh few filed)
  intro other
  rw [List.mem_append,List.mem_singleton]
  by_cases same : other = slot
  · subst same
    simp [inside]
  · rw [Function.update_of_ne same,← layout.queueIff side idx other]
    simp [same]

theorem Layout.detach (layout : Layout b place free queue) (member : slot ∈ queue side idx) :
    Layout (b.detach idx side slot) (Function.update place slot .detached) free
      (setQueue queue side idx ((queue side idx).filter (· ≠ slot))) := by
  have range := layout.range_of_mem member
  have held := layout.placed member
  have own := layout.queued side idx range
  have proper : slot ≠ kNullOrder := own.linked.reads.ne_null member
  have listed : slot ∈ kNullOrder::queue side idx := List.mem_cons_of_mem _ member
  have prev : (b.order slot).prev ≠ kNullOrder → (b.order slot).prev ∈ queue side idx := by
    intro some_
    have found := own.linked.before_mem listed
    rw [show b.before side idx slot = (b.order slot).prev from if_neg proper] at found
    exact List.mem_of_ne_of_mem some_ found
  have next : (b.order slot).next ≠ kNullOrder → (b.order slot).next ∈ queue side idx := by
    intro some_
    have found := own.linked.after_mem listed
    rw [show b.after side idx slot = (b.order slot).next from if_neg proper] at found
    exact List.mem_of_ne_of_mem some_ found
  have order := @order_detach c b side idx slot (fun some_ => layout.within (prev some_))
    (fun some_ => layout.within (next some_))
  have keeps (a : UInt32) (out : place a ≠ .resting side idx) :
      (b.detach idx side slot).order a = b.order a := by
    rw [order a,if_neg,if_neg]
    · rintro ⟨rfl,some_⟩
      exact out (layout.placed (next some_))
    · rintro ⟨rfl,some_⟩
      exact out (layout.placed (prev some_))
  have head : (b.detach idx side slot).freeHead = b.freeHead := by
    unfold OrderBook.detach
    dsimp only
    rw [freeHead_setLevel]
    split <;> split <;> simp
  refine layout.edit range head (fun side' idx' here => by rw [level_detach range,if_neg here])
    (fun a _ out => keeps a out) (.inr held) (.inl rfl) ?_ ?_
  · intro other
    rw [List.mem_filter,layout.queueIff]
    by_cases same : other = slot
    · subst same
      simp
    · simp [same]
  · obtain ⟨front,back,whole⟩ := List.append_of_mem member
    have distinct := (List.nodup_cons.mp own.linked.distinct).2
    rw [filter_middle (whole ▸ distinct) whole]
    rw [whole] at own
    exact own.remove range (fun a inside => layout.within (whole ▸ inside))

theorem Layout.shrink {cut rest : UInt32} (layout : Layout b place free queue) (member : slot ∈ queue side idx)
    (positive : 0 < rest) (exact_ : cut.toNat+rest.toNat = (b.order slot).quantity.toNat) :
    Layout (b.shrinkOrder slot cut rest) place free queue := by
  have range := layout.range_of_mem member
  have held := layout.placed member
  have inside := layout.within member
  obtain ⟨sideEq,priceEq,_⟩ := (layout.queued side idx range).filed slot member
  have at_ : levelIndex c (b.order slot).price = idx := by rw [priceEq,levelIndex_levelPrice]
  have order := @order_shrinkOrder c b slot cut rest inside
  have keeps {a : UInt32} (out : place a ≠ .resting side idx) :
      (b.shrinkOrder slot cut rest).order a = b.order a := by
    rw [order a,if_neg]
    rintro rfl
    exact out held
  refine ⟨?_,layout.distinct,layout.freeIff,layout.queueIff,layout.inRange,?_⟩
  · have head : (b.shrinkOrder slot cut rest).freeHead = b.freeHead := by simp [shrinkOrder]
    rw [head]
    refine layout.reads.congr (fun a isFree => ?_)
    rw [keeps (by simp [((layout.freeIff a).mp isFree).2])]
  · intro side' idx' range'
    have own := layout.queued side' idx' range'
    by_cases here : side' = side ∧ idx' = idx
    · obtain ⟨rfl,rfl⟩ := here
      exact own.shrink range inside member positive exact_
    · refine own.congr ?_ (fun a found => keeps ?_)
      · rw [level_shrinkOrder (by rw [at_]; exact range),if_neg (by rw [sideEq,at_]; exact here)]
      · rw [layout.placed found]
        simp only [ne_eq,Place.resting.injEq]
        exact here

end Moves

def allSlots (c : Config) : List UInt32 := (List.range' 0 c.maxOrders).map UInt32.ofNat

private theorem slot_toNat {i : Nat} (inside : i < c.maxOrders) : (UInt32.ofNat i).toNat = i := by
  have small := c.addressable
  rw [UInt32.toNat_ofNat']
  exact Nat.mod_eq_of_lt (by omega)

private theorem mem_allSlots (slot : UInt32) : slot ∈ allSlots c ↔ slot.toNat < c.maxOrders := by
  rw [allSlots,List.mem_map]
  constructor
  · rintro ⟨i,range,rfl⟩
    rw [List.mem_range'_1] at range
    rw [slot_toNat (c := c) (by omega)]
    omega
  · intro inside
    exact ⟨slot.toNat,by rw [List.mem_range'_1]; omega,by simp⟩

private theorem order_clear (b : OrderBook c) {slot : UInt32} (inside : slot.toNat < c.maxOrders) :
    b.clear.order slot = {b.order slot with
      next := if slot.toNat+1 < c.maxOrders then UInt32.ofNat (slot.toNat+1) else kNullOrder} :=
  Store.get_mapIdx inside _

private theorem level_clear (b : OrderBook c) (side : Side) {idx : UInt64} (inside : idx.toNat < c.levelCount) :
    b.clear.level side idx = .empty := by
  cases side <;> exact Store.get_replicate inside

private theorem clear_reads (b : OrderBook c) (count start : Nat) (whole : start+count = c.maxOrders) :
    Reads (fun slot => (b.clear.order slot).next) kNullOrder
      (if start < c.maxOrders then UInt32.ofNat start else kNullOrder)
      ((List.range' start count).map UInt32.ofNat) := by
  induction count generalizing start with
  | zero =>
    rw [if_neg (by omega)]
    rfl
  | succ count ih =>
    have inside : start < c.maxOrders := by omega
    have number := slot_toNat (c := c) inside
    rw [if_pos inside,List.range'_succ,List.map_cons]
    refine ⟨rfl,?_,?_⟩
    · intro null
      refine null_outside c ?_
      rw [← null,number]
      exact inside
    · have rest := ih (start+1) (by omega)
      dsimp only
      rw [order_clear b (by rw [number]; exact inside),number]
      exact rest

theorem Layout.clear (b : OrderBook c) :
    Layout b.clear (fun _ => .free) (allSlots c) (fun _ _ => []) := by
  refine ⟨?_,?_,?_,by simp,by simp,?_⟩
  · have reads := clear_reads b c.maxOrders 0 (Nat.zero_add _)
    rw [if_pos c.positive] at reads
    have head : b.clear.freeHead = UInt32.ofNat 0 := if_pos c.positive
    rw [head]
    exact reads
  · refine List.Nodup.map_on ?_ (List.nodup_range' ..)
    intro i first j second same
    rw [List.mem_range'_1] at first second
    have numbers := congrArg UInt32.toNat same
    rwa [slot_toNat (c := c) (by omega),slot_toNat (c := c) (by omega)] at numbers
  · intro slot
    simp [mem_allSlots]
  · intro side idx inside
    have level := level_clear b side inside
    refine ⟨.nil ?_ ?_,by simp,?_,?_⟩
    · unfold after
      rw [if_pos rfl,level]
      rfl
    · unfold before
      rw [if_pos rfl,level]
      rfl
    · rw [level]
      rfl
    · rw [level]
      rfl

end Llte.OrderBook
