import Llte.OrderBookCalls
import Llte.PriceTimeBook

/-! The order book refines the price-time book: read slot by slot, the queues of its
levels are the queues of the abstract book, through every call. -/
namespace Llte.OrderBook
open Foundation

variable {c : Config}

/-- The order in a slot, without its links. -/
def resting (b : OrderBook c) (slot : UInt32) : RestingOrder :=
  ⟨(b.order slot).id,(b.order slot).side,(b.order slot).price,(b.order slot).quantity⟩

def ticket (b : OrderBook c) (slot : UInt32) : UInt64 × UInt32 := ((b.order slot).id,(b.order slot).quantity)

def view (b : OrderBook c) (queue : Side → UInt64 → List UInt32) (side : Side) (price : Price) :
    List (UInt64 × UInt32) :=
  if inBand c price then (queue side (levelIndex c price)).map b.ticket else []

structure Shows (b : OrderBook c) (free : List UInt32) (queue : Side → UInt64 → List UInt32)
    (a : PriceTimeBook) : Prop where
  queues : ∀ side price, a.queue side price = b.view queue side price
  count : a.orders.length+free.length = c.maxOrders

private theorem content_ticket {first second : OrderBook c} {slot : UInt32}
    (same : content (first.order slot) = content (second.order slot)) :
    first.ticket slot = second.ticket slot := by
  simp only [content,Prod.mk.injEq] at same
  simp only [ticket,same.1,same.2.2.1]

section Correspondence
variable {b b' : OrderBook c} {free : List UInt32} {queue : Side → UInt64 → List UInt32}
  {a : PriceTimeBook} {side : Side} {idx : UInt64} {slot : UInt32}

theorem Shows.mem (shows_ : Shows b free queue a) (sound : Sound b free queue) (member : slot ∈ queue side idx) :
    b.resting slot ∈ a.orders := by
  obtain ⟨place,layout,_⟩ := sound.layout
  obtain ⟨sideEq,levelEq,priceEq,_⟩ := layout.filed member
  have inside := inBand_levelPrice sound.spanned (layout.range_of_mem member)
  refine (PriceTimeBook.mem_queue _).mp ?_
  rw [shows_.queues,view,priceEq,if_pos inside,← priceEq,levelEq,sideEq]
  exact List.mem_map_of_mem member

theorem Shows.exists_slot (shows_ : Shows b free queue a) (sound : Sound b free queue) {o : RestingOrder}
    (member : o ∈ a.orders) : ∃ slot ∈ queue o.side (levelIndex c o.price), b.resting slot = o := by
  obtain ⟨place,layout,_⟩ := sound.layout
  have found : (o.id,o.quantity) ∈ a.queue o.side o.price := (PriceTimeBook.mem_queue o.quantity).mpr member
  rw [shows_.queues,view] at found
  split at found
  next =>
    obtain ⟨slot,held,same⟩ := List.mem_map.mp found
    obtain ⟨sideEq,_,priceEq,_⟩ := layout.filed held
    rw [levelPrice_levelIndex] at priceEq
    simp only [ticket,Prod.mk.injEq] at same
    refine ⟨slot,held,?_⟩
    rw [resting,same.1,same.2,sideEq,priceEq]
  next => simp at found

theorem Shows.find_none (shows_ : Shows b free queue a) (sound : Sound b free queue) {orderId : UInt64}
    (absent : ∀ slot, Resting queue slot → (b.order slot).id ≠ orderId) : a.find orderId = none := by
  rw [PriceTimeBook.find_eq_none]
  intro o member
  obtain ⟨slot,held,rfl⟩ := shows_.exists_slot sound member
  exact absent slot ⟨_,_,held⟩

theorem Shows.find_some (shows_ : Shows b free queue a) (sound : Sound b free queue)
    (member : slot ∈ queue side idx) : a.find (b.order slot).id = some (b.resting slot) :=
  PriceTimeBook.find_of_mem (shows_.mem sound member)

private theorem filter_absent (absent : ¬ Resting queue slot) :
    (fun s i => (queue s i).filter (· ≠ slot)) = queue := by
  funext s i
  rw [List.filter_eq_self]
  intro other found
  simp only [ne_eq,decide_not,Bool.not_eq_true',decide_eq_false_iff_not]
  rintro rfl
  exact absent ⟨s,i,found⟩

section Views
variable {orderId : UInt64} (apart : ∀ other, Resting queue other → ((b.order other).id ≠ orderId ↔ other ≠ slot))
  (others : ∀ other, other ≠ slot → content (b'.order other) = content (b.order other))
include apart others

private theorem view_filter (side : Side) (price : Price) :
    b'.view (fun s i => (queue s i).filter (· ≠ slot)) side price =
      (b.view queue side price).filter fun entry => entry.1 ≠ orderId := by
  unfold view
  split
  next =>
    rw [List.filter_map]
    have same : (queue side (levelIndex c price)).filter ((fun entry => decide (entry.1 ≠ orderId)) ∘ b.ticket) =
        (queue side (levelIndex c price)).filter (· ≠ slot) := by
      apply List.filter_congr
      intro other found
      exact decide_eq_decide.mpr (apart other ⟨_,_,found⟩)
    rw [same]
    apply List.map_congr_left
    intro other found
    exact content_ticket (others other (by simpa using (List.mem_filter.mp found).2))
  next => rfl

private theorem view_place {price : Price} {quantity : UInt32} (inside : inBand c price = true)
    (own : content (b'.order slot) = (orderId,price,quantity,side)) (side' : Side) (price' : Price) :
    b'.view (fun s i => (queue s i).filter (· ≠ slot) ++
        if s = side ∧ i = levelIndex c price then [slot] else []) side' price' =
      ((b.view queue side' price').filter fun entry => entry.1 ≠ orderId) ++
        if side = side' ∧ price = price' then [(orderId,quantity)] else [] := by
  have rest := view_filter apart others side' price'
  have mine : b'.ticket slot = (orderId,quantity) := by
    simp only [content,Prod.mk.injEq] at own
    rw [ticket,own.1,own.2.2.1]
  unfold view at rest ⊢
  split at rest
  next within =>
    simp only [if_pos within]
    rw [List.map_append,rest]
    congr 1
    by_cases here : side = side' ∧ price = price'
    · rw [if_pos here,if_pos (by rw [here.1,here.2]; exact ⟨rfl,rfl⟩),List.map_cons,mine]
      rfl
    · rw [if_neg here,if_neg]
      · rfl
      · rintro ⟨sameSide,sameLevel⟩
        refine here ⟨sameSide.symm,?_⟩
        rw [← levelPrice_levelIndex c price,← sameLevel,levelPrice_levelIndex]
  next outside =>
    simp only [if_neg outside]
    rw [if_neg]
    · rfl
    · rintro ⟨_,rfl⟩
      exact outside inside

end Views

private theorem view_shrink {quantity : UInt32}
    (apart : ∀ other, Resting queue other → ((b.order other).id ≠ (b.order slot).id ↔ other ≠ slot))
    (others : ∀ other, other ≠ slot → content (b'.order other) = content (b.order other))
    (own : content (b'.order slot) = ((b.order slot).id,(b.order slot).price,quantity,(b.order slot).side))
    (side : Side) (price : Price) : b'.view queue side price =
      (b.view queue side price).map fun entry =>
        if entry.1 = (b.order slot).id then (entry.1,quantity) else entry := by
  unfold view
  split
  next =>
    rw [List.map_map]
    apply List.map_congr_left
    intro other found
    by_cases same : other = slot
    · subst same
      simp only [content,Prod.mk.injEq] at own
      simp only [Function.comp_apply,ticket,own.1,own.2.2.1,if_true]
    · have different : (b.ticket other).1 ≠ (b.order slot).id := (apart other ⟨_,_,found⟩).mpr same
      rw [Function.comp_apply,content_ticket (others other same),if_neg different]
  next => rfl

theorem Sound.apart (sound : Sound b free queue) (here : Resting queue slot) (other : UInt32)
    (there : Resting queue other) : (b.order other).id ≠ (b.order slot).id ↔ other ≠ slot := by
  constructor
  · rintro different rfl
    exact different rfl
  · intro different same
    exact different (sound.id_inj there here same)

section Moves
variable (sound : Sound b free queue) (shows_ : Shows b free queue a)
include sound shows_

theorem Shows.remove (member : slot ∈ queue side idx)
    (contents : ∀ other, content (b'.order other) = content (b.order other)) :
    Shows b' (slot::free) (setQueue queue side idx ((queue side idx).filter (· ≠ slot)))
      (a.remove (b.order slot).id) := by
  obtain ⟨place,layout,_⟩ := sound.layout
  constructor
  · intro s p
    rw [layout.setQueue_remove member,PriceTimeBook.queue_remove,shows_.queues]
    exact (view_filter (sound.apart ⟨side,idx,member⟩) (fun other _ => contents other) s p).symm
  · have fewer : (a.remove (b.order slot).id).orders.length+1 = a.orders.length :=
      PriceTimeBook.length_remove (shows_.mem sound member)
    have count := shows_.count
    rw [List.length_cons]
    omega

theorem Shows.shrink (member : slot ∈ queue side idx) {quantity : UInt32}
    (others : ∀ other, other ≠ slot → content (b'.order other) = content (b.order other))
    (own : content (b'.order slot) = ((b.order slot).id,(b.order slot).price,quantity,(b.order slot).side)) :
    Shows b' free queue (a.setQuantity (b.order slot).id quantity) := by
  constructor
  · intro s p
    rw [PriceTimeBook.queue_setQuantity,shows_.queues]
    exact (view_shrink (sound.apart ⟨side,idx,member⟩) others own s p).symm
  · rw [PriceTimeBook.setQuantity,List.length_map]
    exact shows_.count

theorem Shows.enter {rest : List UInt32} {orderId : UInt64} {price : Price} {quantity : UInt32}
    (acquired : free = slot::rest) (idle : ¬ Resting queue slot)
    (fresh : ∀ slot, Resting queue slot → (b.order slot).id ≠ orderId) (inside : inBand c price = true)
    (others : ∀ other, other ≠ slot → content (b'.order other) = content (b.order other))
    (own : content (b'.order slot) = (orderId,price,quantity,side)) :
    Shows b' rest (setQueue queue side (levelIndex c price) (queue side (levelIndex c price) ++ [slot]))
      (a.place ⟨orderId,side,price,quantity⟩) := by
  have apart (other : UInt32) (there : Resting queue other) :
      (b.order other).id ≠ orderId ↔ other ≠ slot := by
    refine iff_of_true (fresh other there) ?_
    rintro rfl
    exact idle there
  constructor
  · intro s p
    have placed := view_place apart others inside own s p
    rw [PriceTimeBook.queue_place,shows_.queues,← placed,setQueue_push]
    simp only [congrFun (congrFun (filter_absent idle) _) _]
  · have absent : (a.remove orderId).orders = a.orders :=
      PriceTimeBook.remove_absent (shows_.find_none sound fresh)
    have count := shows_.count
    rw [acquired,List.length_cons] at count
    change ((a.remove orderId).orders ++ [_]).length+rest.length = c.maxOrders
    rw [absent,List.length_append,List.length_singleton]
    omega

theorem Shows.move {price : Price} {quantity : UInt32} (member : slot ∈ queue side idx)
    (inside : inBand c price = true)
    (others : ∀ other, other ≠ slot → content (b'.order other) = content (b.order other))
    (own : content (b'.order slot) = ((b.order slot).id,price,quantity,side))
    {left : Side → UInt64 → List UInt32}
    (taken : left = setQueue queue side idx ((queue side idx).filter (· ≠ slot))) :
    Shows b' free (setQueue left side (levelIndex c price) (left side (levelIndex c price) ++ [slot]))
      (a.place ⟨(b.order slot).id,side,price,quantity⟩) := by
  obtain ⟨place,layout,_⟩ := sound.layout
  constructor
  · intro s p
    have placed := view_place (sound.apart ⟨side,idx,member⟩) others inside own s p
    rw [PriceTimeBook.queue_place,shows_.queues,← placed,setQueue_push,taken,layout.setQueue_remove member]
  · have fewer : (a.remove (b.order slot).id).orders.length+1 = a.orders.length :=
      PriceTimeBook.length_remove (shows_.mem sound member)
    have count := shows_.count
    change ((a.remove (b.order slot).id).orders ++ [_]).length+free.length = c.maxOrders
    rw [List.length_append,List.length_singleton]
    omega

end Moves
end Correspondence

/-- The book is sound and its queues are those of `a`. -/
def Represents (b : OrderBook c) (a : PriceTimeBook) : Prop :=
  ∃ free queue, Sound b free queue ∧ Shows b free queue a

/-- A call returns, with the result of the abstract call, and the books still agree. -/
def Refines (called : Option (Result × OrderBook c)) (spec : Result × PriceTimeBook) : Prop :=
  ∃ b, called = some (spec.1,b) ∧ Represents b spec.2

section Calls
variable {b : OrderBook c} {a : PriceTimeBook}

theorem Represents.refused (agree : Represents b a) (result : Result) :
    Refines (some (result,b)) (result,a) := ⟨b,rfl,agree⟩

private theorem Refines.branch {cond cond' : Prop} [Decidable cond] [Decidable cond']
    {called called' : Option (Result × OrderBook c)} {spec spec' : Result × PriceTimeBook}
    (same : cond ↔ cond') (yes : cond → Refines called spec) (no : ¬ cond → Refines called' spec') :
    Refines (if cond then called else called') (if cond' then spec else spec') := by
  by_cases holds : cond
  · rw [if_pos holds,if_pos (same.mp holds)]
    exact yes holds
  · rw [if_neg holds,if_neg (fun holds' => holds (same.mpr holds'))]
    exact no holds

/-- Both sides refuse the call for the same reason, or both go on. -/
theorem Represents.guard (agree : Represents b a) {bad bad' : Prop} [Decidable bad] [Decidable bad']
    {result : Result} {called : Option (Result × OrderBook c)} {spec : Result × PriceTimeBook}
    (same : bad ↔ bad') (passes : ¬ bad → Refines called spec) :
    Refines (if bad then some (result,b) else called) (if bad' then (result,a) else spec) :=
  Refines.branch same (fun _ => agree.refused result) passes

private theorem outside_iff (c : Config) (price : Price) :
    ¬ inBand c price = true ↔ ¬ (c.minPrice ≤ price ∧ price ≤ c.maxPrice) := by
  rw [inBand,decide_eq_true_eq]

private theorem refines_remove {free : List UInt32} {queue : Side → UInt64 → List UInt32} {side : Side}
    {idx position : UInt64} {slot : UInt32} (sound : Sound b free queue) (shows_ : Shows b free queue a)
    (inside : position.toNat < c.indexSize.capacity.size)
    (entry : b.index.get position.toNat = ⟨(b.order slot).id,slot⟩) (member : slot ∈ queue side idx)
    (held : b.index.cell position.toNat = some ⟨(b.order slot).id,slot⟩) :
    Refines ((b.removeOrder position).map fun b => (.ok,b)) (.ok,a.remove (b.order slot).id) := by
  obtain ⟨b',removed,sound',contents⟩ := sound.remove inside entry member rfl held
  refine ⟨b',by rw [removed]; rfl,_,_,sound',?_⟩
  exact Shows.remove sound shows_ member contents

theorem add_refines (agree : Represents b a) (orderId : UInt64) (side : Side) (price : Price)
    (quantity : UInt32) : Refines (b.add orderId side price quantity) (a.add c orderId side price quantity) := by
  have ⟨free,queue,sound,shows_⟩ := agree
  refine agree.guard Iff.rfl (fun proper => agree.guard Iff.rfl (fun some_ =>
    agree.guard (outside_iff c price) (fun inside => ?_)))
  rw [not_not] at inside
  have positive : 0 < quantity := UInt32.pos_iff_ne_zero.mpr some_
  obtain ⟨position,found,⟨absent,fresh⟩ | ⟨present,_,slot,s,i,_,member,rfl,_⟩⟩ := sound.find orderId
  · rw [found]
    refine agree.guard (by simp [absent,PriceTimeBook.contains,shows_.find_none sound fresh]) (fun _ => ?_)
    have count := shows_.count
    rcases sound.enter proper fresh positive inside side with ⟨exhausted,entered⟩ |
      ⟨slot,rest,b',acquired,idle,entered,sound',own,others⟩
    · rw [entered,if_pos (by rw [exhausted,List.length_nil] at count; omega)]
      exact agree.refused _
    · rw [entered,if_neg (by rw [acquired,List.length_cons] at count; omega)]
      exact ⟨b',rfl,_,_,sound',Shows.enter sound shows_ acquired idle fresh inside others own⟩
  · rw [found]
    refine agree.guard (by simp [present,PriceTimeBook.contains,shows_.find_some sound member]) (fun free => ?_)
    exact absurd present free

theorem cancel_refines (agree : Represents b a) (orderId : UInt64) :
    Refines (b.cancel orderId) (a.cancel orderId) := by
  have ⟨free,queue,sound,shows_⟩ := agree
  unfold cancel PriceTimeBook.cancel
  obtain ⟨position,found,⟨absent,fresh⟩ | ⟨present,inside,slot,s,i,entry,member,rfl,held⟩⟩ := sound.find orderId
  · rw [found,shows_.find_none sound fresh]
    dsimp only
    rw [if_pos absent]
    exact agree.refused _
  · rw [found,shows_.find_some sound member]
    dsimp only
    rw [if_neg present]
    exact refines_remove sound shows_ inside entry member held

theorem modify_refines (agree : Represents b a) (orderId : UInt64) (newPrice : Price) (newQuantity : UInt32) :
    Refines (b.modify orderId newPrice newQuantity) (a.modify c orderId newPrice newQuantity) := by
  have ⟨free,queue,sound,shows_⟩ := agree
  refine agree.guard Iff.rfl (fun some_ => agree.guard (outside_iff c newPrice) (fun inside => ?_))
  rw [not_not] at inside
  have positive : 0 < newQuantity := UInt32.pos_iff_ne_zero.mpr some_
  obtain ⟨position,found,⟨absent,fresh⟩ | ⟨present,_,slot,s,i,entry,member,rfl,_⟩⟩ := sound.find orderId
  · rw [found,shows_.find_none sound fresh]
    dsimp only
    rw [if_pos absent]
    exact agree.refused _
  · rw [found,shows_.find_some sound member]
    dsimp only
    rw [if_neg present,entry]
    refine Refines.branch Iff.rfl (fun smaller => ?_) (fun _ => ?_)
    · have cut : newQuantity ≤ (b.order slot).quantity := UInt32.le_of_lt smaller.2
      have exact_ : ((b.order slot).quantity - newQuantity).toNat+newQuantity.toNat =
          (b.order slot).quantity.toNat := by
        rw [UInt32.toNat_sub_of_le _ _ cut]
        exact Nat.sub_add_cancel (UInt32.le_iff_toNat_le.mp cut)
      obtain ⟨sound',others,own⟩ := sound.shrink member positive exact_
      exact ⟨_,rfl,_,_,sound',Shows.shrink sound shows_ member others own⟩
    · obtain ⟨sound',others,own⟩ := sound.move member positive inside rfl
      obtain ⟨place,layout,_⟩ := sound.layout
      rw [resting,(layout.filed member).1]
      exact ⟨_,rfl,_,_,sound',Shows.move sound shows_ member inside others own rfl⟩

theorem execute_refines (agree : Represents b a) (orderId : UInt64) (quantity : UInt32) :
    Refines (b.execute orderId quantity) (a.execute orderId quantity) := by
  have ⟨free,queue,sound,shows_⟩ := agree
  refine agree.guard Iff.rfl (fun _ => ?_)
  obtain ⟨position,found,⟨absent,fresh⟩ | ⟨present,inside,slot,s,i,entry,member,rfl,held⟩⟩ := sound.find orderId
  · rw [found,shows_.find_none sound fresh]
    dsimp only
    rw [if_pos absent]
    exact agree.refused _
  · rw [found,shows_.find_some sound member]
    dsimp only
    rw [if_neg present,entry]
    refine Refines.branch Iff.rfl (fun _ => ?_) (fun (less : ¬ (b.order slot).quantity ≤ quantity) => ?_)
    · exact refines_remove sound shows_ inside entry member held
    · have cut : quantity ≤ (b.order slot).quantity := UInt32.le_of_lt (UInt32.not_le.mp less)
      have exact_ : quantity.toNat+((b.order slot).quantity - quantity).toNat =
          (b.order slot).quantity.toNat := by
        rw [UInt32.toNat_sub_of_le _ _ cut]
        exact Nat.add_sub_cancel' (UInt32.le_iff_toNat_le.mp cut)
      have positive : 0 < (b.order slot).quantity - quantity := by
        have fewer := UInt32.lt_iff_toNat_lt.mp (UInt32.not_le.mp less)
        rw [UInt32.lt_iff_toNat_lt,UInt32.toNat_zero]
        omega
      obtain ⟨sound',others,own⟩ := sound.shrink member positive exact_
      exact ⟨_,rfl,_,_,sound',Shows.shrink sound shows_ member others own⟩

theorem Represents.clear (spanned : Spanned c) (b : OrderBook c) : Represents b.clear .empty := by
  refine ⟨_,_,Sound.clear spanned b,?_,?_⟩
  · intro side price
    rw [view]
    split <;> rfl
  · change 0+(allSlots c).length = c.maxOrders
    simp [allSlots]

end Calls

/-- One call of the interface; `none` if it does not return. -/
def step (b : OrderBook c) : Call → Option (Option Result × OrderBook c)
  | .add orderId side price quantity => (b.add orderId side price quantity).map (Prod.map some id)
  | .cancel orderId => (b.cancel orderId).map (Prod.map some id)
  | .modify orderId newPrice newQuantity => (b.modify orderId newPrice newQuantity).map (Prod.map some id)
  | .execute orderId quantity => (b.execute orderId quantity).map (Prod.map some id)
  | .clear => some (none,b.clear)

def run : List Call → OrderBook c → Option (List (Option Result) × OrderBook c)
  | [],b => some ([],b)
  | call::rest,b =>
    match b.step call with
    | none => none
    | some (result,b) => (run rest b).map fun (results,b) => (result::results,b)

theorem Refines.map_some {called : Option (Result × OrderBook c)} {spec : Result × PriceTimeBook}
    (refines : Refines called spec) :
    ∃ b, called.map (Prod.map some id) = some (some spec.1,b) ∧ Represents b spec.2 := by
  obtain ⟨b,rfl,agree⟩ := refines
  exact ⟨b,rfl,agree⟩

theorem step_refines {b : OrderBook c} {a : PriceTimeBook} (agree : Represents b a) (call : Call) :
    ∃ b', b.step call = some ((a.step c call).1,b') ∧ Represents b' (a.step c call).2 := by
  cases call with
  | add orderId side price quantity => exact (add_refines agree orderId side price quantity).map_some
  | cancel orderId => exact (cancel_refines agree orderId).map_some
  | modify orderId newPrice newQuantity => exact (modify_refines agree orderId newPrice newQuantity).map_some
  | execute orderId quantity => exact (execute_refines agree orderId quantity).map_some
  | clear =>
    obtain ⟨_,_,sound,_⟩ := agree
    exact ⟨b.clear,rfl,Represents.clear sound.spanned b⟩

theorem run_refines (calls : List Call) {b : OrderBook c} {a : PriceTimeBook} (agree : Represents b a) :
    ∃ b', b.run calls = some ((PriceTimeBook.run c calls a).1,b') ∧
      Represents b' (PriceTimeBook.run c calls a).2 := by
  induction calls generalizing b a with
  | nil => exact ⟨b,rfl,agree⟩
  | cons call rest ih =>
    obtain ⟨b₁,stepped,agree₁⟩ := step_refines agree call
    obtain ⟨b₂,ran,agree₂⟩ := ih agree₁
    refine ⟨b₂,?_,agree₂⟩
    rw [run,stepped]
    dsimp only
    rw [ran]
    rfl

theorem create_represents {b : OrderBook c} (created : create c = some b) : Represents b .empty := by
  unfold create at created
  split at created
  next spanned =>
    rw [← Option.some.inj created]
    exact Represents.clear spanned _
  next => simp at created

end Llte.OrderBook
