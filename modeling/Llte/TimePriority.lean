import Llte.OrderBookRuns

/-! Time priority in the order book: which calls keep the order of a level's queue.
The queues are read from the book by following its links; each call changes them in
one of five ways, and only an order that is linked again at the back can lose its
place. -/
namespace Llte
open Foundation

/-- What waits at each price, oldest first. -/
abbrev Quotes := Side → Price → List (UInt64 × UInt32)

namespace Quotes

def ids (quotes : Quotes) (side : Side) (price : Price) : List UInt64 := (quotes side price).map Prod.fst

def Live (quotes : Quotes) (orderId : UInt64) : Prop := ∃ side price, orderId ∈ quotes.ids side price

def Behind (quotes : Quotes) (side : Side) (price : Price) (first second : UInt64) : Prop :=
  [first,second].Sublist (quotes.ids side price)

end Quotes

/-- The call is a modify of the order that changes its price or increases its size. -/
def Demotes (before : Quotes) (call : Call) (result : Option Result) (orderId : UInt64) : Prop :=
  ∃ side price quantity newPrice newQuantity, (orderId,quantity) ∈ before side price ∧
    call = .modify orderId newPrice newQuantity ∧ result = some .ok ∧
    (newPrice ≠ price ∨ quantity < newQuantity)

/-- Time priority survives the call: an order that is still there and was not demoted
stands in the same queue, what was behind it and was neither removed nor demoted is
still behind it, and nothing from behind it is now in front; a modify that keeps the
price and does not increase the size leaves the queue as it was. -/
structure KeepsPriority (before : Quotes) (call : Call) (result : Option Result) (after : Quotes) : Prop where
  place : ∀ side price orderId, orderId ∈ before.ids side price → after.Live orderId →
    ¬ Demotes before call result orderId → orderId ∈ after.ids side price ∧
    ∀ other, before.Behind side price orderId other →
      (after.Live other → ¬ Demotes before call result other → after.Behind side price orderId other) ∧
      ¬ after.Behind side price other orderId
  shrink : ∀ side price orderId quantity newQuantity, (orderId,quantity) ∈ before side price →
    call = .modify orderId price newQuantity → newQuantity ≤ quantity →
    after.ids side price = before.ids side price

/-- The book as its links show it: the ids and quantities from the head of a level on. -/
def OrderBook.quotes {c : Config} (b : OrderBook c) : Quotes := fun side price =>
  if OrderBook.inBand c price then
    (follow (fun slot => (b.order slot).next) kNullOrder c.maxOrders
      (b.level side (OrderBook.levelIndex c price)).head).map b.ticket
  else []

theorem OrderBook.Represents.quotes {c : Config} {b : OrderBook c} {a : PriceTimeBook}
    (agree : OrderBook.Represents b a) : b.quotes = a.queue := by
  obtain ⟨free,queue,sound,shows_⟩ := agree
  obtain ⟨place,layout,_⟩ := sound.layout
  funext side price
  rw [shows_.queues,OrderBook.quotes,OrderBook.view]
  split
  next inside =>
    have few : (queue side (OrderBook.levelIndex c price)).length ≤ c.maxOrders := by
      have length := congrArg List.length (shows_.queues side price)
      have count := shows_.count
      have part := List.length_filter_le (fun o : RestingOrder => o.side = side ∧ o.price = price) a.orders
      rw [OrderBook.view,if_pos inside,List.length_map,PriceTimeBook.queue,List.length_map] at length
      omega
    rw [((layout.queued side _ (OrderBook.levelIndex_lt sound.spanned inside)).forward).follow few]
  next => rfl

private theorem pair_asymm {ids : List UInt64} (distinct : ids.Nodup) {first second : UInt64}
    (one : [first,second].Sublist ids) : ¬ [second,first].Sublist ids := by
  induction ids with
  | nil => simp at one
  | cons id rest ih =>
    obtain ⟨fresh,later⟩ := List.nodup_cons.mp distinct
    intro two
    rcases List.sublist_cons_iff.mp one with deep | ⟨tail,same,here⟩
    · rcases List.sublist_cons_iff.mp two with deep' | ⟨tail',same',here'⟩
      · exact ih later deep deep'
      · obtain ⟨rfl,rfl⟩ := List.cons.inj same'
        exact fresh (deep.subset (by simp))
    · obtain ⟨rfl,rfl⟩ := List.cons.inj same
      rcases List.sublist_cons_iff.mp two with deep' | ⟨tail',same',here'⟩
      · exact fresh (deep'.subset (by simp))
      · obtain ⟨rfl,rfl⟩ := List.cons.inj same'
        exact fresh (here.subset (by simp))

private theorem pair_filter {ids : List UInt64} {first second gone : UInt64} (one : first ≠ gone) (two : second ≠ gone)
    (behind : [first,second].Sublist ids) : [first,second].Sublist (ids.filter (· ≠ gone)) := by
  have filtered := behind.filter (· ≠ gone)
  simpa [one,two] using filtered

/-- An element with nothing behind it is the last one. -/
theorem filter_append_last {ids : List UInt64} (distinct : ids.Nodup) {last : UInt64} (member : last ∈ ids)
    (none : ∀ other, ¬ [last,other].Sublist ids) : ids.filter (· ≠ last) ++ [last] = ids := by
  obtain ⟨front,back,rfl⟩ := List.append_of_mem member
  cases back with
  | nil =>
    have fresh : last ∉ front := by
      rw [List.nodup_append] at distinct
      exact fun inside => distinct.2.2 last inside last (by simp) rfl
    rw [List.filter_append,List.filter_eq_self.mpr]
    · simp
    · intro id inside
      simp only [ne_eq,decide_not,Bool.not_eq_true',decide_eq_false_iff_not]
      rintro rfl
      exact fresh inside
  | cons other rest =>
    refine absurd ?_ (none other)
    refine List.Sublist.trans ?_ (List.sublist_append_right front _)
    exact (List.Sublist.cons_cons last (List.Sublist.cons_cons other (List.nil_sublist rest)))

namespace PriceTimeBook
variable {a a' : PriceTimeBook} {side : Side} {price : Price} {orderId : UInt64}

theorem ids_nodup (a : PriceTimeBook) (side : Side) (price : Price) : (Quotes.ids a.queue side price).Nodup := by
  rw [Quotes.ids,queue,List.map_map]
  exact a.distinct.sublist (List.filter_sublist.map _)

private theorem mem_ids : orderId ∈ Quotes.ids a.queue side price ↔
    ∃ o ∈ a.orders, o.id = orderId ∧ o.side = side ∧ o.price = price := by
  rw [Quotes.ids,queue,List.map_map,List.mem_map]
  constructor
  · rintro ⟨o,member,rfl⟩
    obtain ⟨held,filed⟩ := List.mem_filter.mp member
    exact ⟨o,held,rfl,by simpa using filed⟩
  · rintro ⟨o,held,rfl,filed⟩
    exact ⟨o,List.mem_filter.mpr ⟨held,by simpa using filed⟩,rfl⟩

private theorem ids_remove (a : PriceTimeBook) (orderId : UInt64) (side : Side) (price : Price) :
    Quotes.ids (a.remove orderId).queue side price = (Quotes.ids a.queue side price).filter (· ≠ orderId) := by
  rw [Quotes.ids,Quotes.ids,queue_remove,List.filter_map]
  rfl

private theorem ids_place (a : PriceTimeBook) (o : RestingOrder) (side : Side) (price : Price) :
    Quotes.ids (a.place o).queue side price = (Quotes.ids a.queue side price).filter (· ≠ o.id) ++
      if o.side = side ∧ o.price = price then [o.id] else [] := by
  rw [← ids_remove,Quotes.ids,Quotes.ids,queue_place,queue_remove,List.map_append]
  congr 1
  split <;> rfl

private theorem ids_setQuantity (a : PriceTimeBook) (orderId : UInt64) (quantity : UInt32) (side : Side) (price : Price) :
    Quotes.ids (a.setQuantity orderId quantity).queue side price = Quotes.ids a.queue side price := by
  rw [Quotes.ids,Quotes.ids,queue_setQuantity,List.map_map]
  apply List.map_congr_left
  intro entry _
  rw [Function.comp_apply]
  split <;> rfl

/-- Two things are enough: what is not demoted stays in its queue while it is live,
and what stays behind it stays behind it. -/
theorem keepsPriority {call : Call} {result : Option Result}
    (stays : ∀ side price orderId, orderId ∈ Quotes.ids a.queue side price → Quotes.Live a'.queue orderId →
      ¬ Demotes a.queue call result orderId → orderId ∈ Quotes.ids a'.queue side price)
    (ordered : ∀ side price first second, Quotes.Behind a.queue side price first second →
      ¬ Demotes a.queue call result first → first ∈ Quotes.ids a'.queue side price →
      second ∈ Quotes.ids a'.queue side price → Quotes.Behind a'.queue side price first second)
    (shrink : ∀ side price orderId quantity newQuantity, (orderId,quantity) ∈ a.queue side price →
      call = .modify orderId price newQuantity → newQuantity ≤ quantity →
      Quotes.ids a'.queue side price = Quotes.ids a.queue side price) :
    KeepsPriority a.queue call result a'.queue := by
  refine ⟨?_,shrink⟩
  intro side price orderId queued live kept
  have here := stays side price orderId queued live kept
  refine ⟨here,fun other behind => ⟨?_,?_⟩⟩
  · intro there quiet
    exact ordered side price orderId other behind kept here
      (stays side price other (behind.subset (by simp)) there quiet)
  · intro ahead
    have present : other ∈ Quotes.ids a'.queue side price := ahead.subset (by simp)
    exact pair_asymm (ids_nodup a' side price) (ordered side price orderId other behind kept here present) ahead

private theorem keepsPriority_of_ids (call : Call) (result : Option Result)
    (same : ∀ side price, Quotes.ids a'.queue side price = Quotes.ids a.queue side price) :
    KeepsPriority a.queue call result a'.queue := by
  refine keepsPriority ?_ ?_ (fun side price _ _ _ _ _ _ => same side price)
  · intro side price orderId queued _ _
    rwa [same]
  · intro side price first second behind _ _ _
    unfold Quotes.Behind
    rwa [same]

private theorem keepsPriority_remove {call : Call} (result : Option Result) (gone : UInt64)
    (other : ∀ orderId price quantity, call ≠ .modify orderId price quantity) :
    KeepsPriority a.queue call result (a.remove gone).queue := by
  refine keepsPriority ?_ ?_ (fun _ _ _ _ _ _ modified => absurd modified (other _ _ _))
  · rintro side price orderId queued ⟨side',price',live⟩ _
    rw [ids_remove,List.mem_filter] at live ⊢
    exact ⟨queued,live.2⟩
  · intro side price first second behind _ one two
    rw [Quotes.Behind,ids_remove]
    rw [ids_remove,List.mem_filter,decide_eq_true_eq] at one two
    exact pair_filter one.2 two.2 behind

/-- The order that is placed goes behind everything that stays. -/
theorem behind_place {o : RestingOrder} {first second : UInt64}
    (behind : Quotes.Behind a.queue side price first second) (other : first ≠ o.id)
    (there : second ∈ Quotes.ids (a.place o).queue side price) :
    Quotes.Behind (a.place o).queue side price first second := by
  rw [ids_place] at there
  rw [Quotes.Behind,ids_place]
  by_cases same : second = o.id
  · subst same
    have own : o.side = side ∧ o.price = price := by
      by_contra away
      rw [if_neg away] at there
      simp at there
    have front : first ∈ (Quotes.ids a.queue side price).filter (· ≠ o.id) :=
      List.mem_filter.mpr ⟨behind.subset (by simp),by simpa using other⟩
    rw [if_pos own]
    exact (List.singleton_sublist.mpr front).append (List.Sublist.refl [o.id])
  · exact (pair_filter other same behind).trans (List.sublist_append_left _ _)

private theorem stays_place {o : RestingOrder} (queued : orderId ∈ Quotes.ids a.queue side price)
    (other : orderId ≠ o.id) : orderId ∈ Quotes.ids (a.place o).queue side price := by
  rw [ids_place]
  exact List.mem_append_left _ (List.mem_filter.mpr ⟨queued,by simpa using other⟩)

private theorem keepsPriority_enter {o : RestingOrder} (absent : a.find o.id = none) (result : Option Result) :
    KeepsPriority a.queue (.add o.id o.side o.price o.quantity) result (a.place o).queue := by
  have fresh {side : Side} {price : Price} {orderId : UInt64}
      (queued : orderId ∈ Quotes.ids a.queue side price) : orderId ≠ o.id := by
    obtain ⟨old,held,rfl,_⟩ := mem_ids.mp queued
    exact find_eq_none.mp absent old held
  refine keepsPriority ?_ ?_ (fun _ _ _ _ _ _ modified => by simp at modified)
  · intro side price orderId queued _ _
    exact stays_place queued (fresh queued)
  · intro side price first second behind _ _ there
    exact behind_place behind (fresh (behind.subset (by simp))) there

section Moved
variable {o : RestingOrder} (found : a.find o.id = some o)
include found

private theorem ticket_unique {quantity : UInt32} (held : (o.id,quantity) ∈ a.queue side price) :
    side = o.side ∧ price = o.price ∧ quantity = o.quantity := by
  have same := id_inj ((mem_queue _).mp held) (find_eq_some found).1 rfl
  rw [← same]
  exact ⟨rfl,rfl,rfl⟩

private theorem demotes_iff (newPrice : Price) (newQuantity : UInt32) :
    Demotes a.queue (.modify o.id newPrice newQuantity) (some .ok) o.id ↔
      newPrice ≠ o.price ∨ o.quantity < newQuantity := by
  constructor
  · rintro ⟨side,price,quantity,_,_,held,same,_,changed⟩
    obtain ⟨_,rfl,rfl⟩ := ticket_unique found held
    obtain ⟨_,rfl,rfl⟩ := Call.modify.inj same
    exact changed
  · intro changed
    exact ⟨o.side,o.price,o.quantity,newPrice,newQuantity,
      (mem_queue _).mpr (find_eq_some found).1,rfl,rfl,changed⟩

/-- An order that is placed again at its own price keeps its time priority if its
size stays the same and nothing is behind it, and not if something is. -/
theorem keepsPriority_move_iff {price : Price} {quantity : UInt32}
    (again : ¬ (price = o.price ∧ quantity < o.quantity)) :
    KeepsPriority a.queue (.modify o.id price quantity) (some .ok)
        (a.place {o with price := price, quantity := quantity}).queue ↔
      ¬ (price = o.price ∧ quantity = o.quantity ∧
        ∃ other, Quotes.Behind a.queue o.side o.price o.id other) := by
  have member := (find_eq_some found).1
  have queued : o.id ∈ Quotes.ids a.queue o.side o.price := mem_ids.mpr ⟨o,member,rfl,rfl,rfl⟩
  constructor
  · rintro keeps ⟨rfl,rfl,other,behind⟩
    have different : other ≠ o.id := by
      have pair := (ids_nodup a o.side o.price).sublist behind
      simp only [List.nodup_cons,List.mem_singleton] at pair
      exact Ne.symm pair.1
    have after : Quotes.ids (a.place o).queue o.side o.price =
        (Quotes.ids a.queue o.side o.price).filter (· ≠ o.id) ++ [o.id] := by
      rw [ids_place,if_pos ⟨rfl,rfl⟩]
    have live : Quotes.Live (a.place o).queue o.id := ⟨o.side,o.price,by rw [after]; simp⟩
    have quiet : ¬ Demotes a.queue (.modify o.id o.price o.quantity) (some .ok) o.id := by
      rw [demotes_iff found]
      simp
    refine ((keeps.place _ _ _ queued live quiet).2 other behind).2 ?_
    have front : other ∈ (Quotes.ids a.queue o.side o.price).filter (· ≠ o.id) :=
      List.mem_filter.mpr ⟨behind.subset (by simp),by simpa using different⟩
    rw [Quotes.Behind,after]
    exact (List.singleton_sublist.mpr front).append (List.Sublist.refl [o.id])
  · intro none
    have level {side : Side} {price : Price} (here : o.id ∈ Quotes.ids a.queue side price) :
        o.side = side ∧ o.price = price := by
      obtain ⟨same,held,identified,filed⟩ := mem_ids.mp here
      rw [← id_inj held member identified]
      exact filed
    have kept (quiet : ¬ Demotes a.queue (.modify o.id price quantity) (some .ok) o.id) :
        price = o.price ∧ quantity = o.quantity := by
      rw [demotes_iff found,not_or,not_not,UInt32.not_lt] at quiet
      refine ⟨quiet.1,?_⟩
      rcases UInt32.lt_or_eq_of_le quiet.2 with smaller | same
      · exact absurd ⟨quiet.1,smaller⟩ again
      · exact same
    refine keepsPriority ?_ ?_ ?_
    · intro side price' orderId here _ quiet
      by_cases own : orderId = o.id
      · subst own
        rw [ids_place,if_pos (by rw [(kept quiet).1]; exact level here)]
        simp
      · exact stays_place here own
    · intro side price' first second behind quiet _ there
      by_cases own : first = o.id
      · subst own
        obtain ⟨rfl,rfl⟩ := level (behind.subset (by simp))
        exact absurd ⟨(kept quiet).1,(kept quiet).2,second,behind⟩ none
      · exact behind_place behind own there
    · intro side price' orderId old newQuantity held same less
      obtain ⟨rfl,rfl,rfl⟩ := Call.modify.inj same
      obtain ⟨rfl,rfl,rfl⟩ := ticket_unique found held
      have own := kept (by rw [demotes_iff found]; simpa using less)
      rw [ids_place,if_pos ⟨rfl,rfl⟩]
      exact filter_append_last (ids_nodup a _ _) queued
        (fun other behind => none ⟨own.1,own.2,other,behind⟩)

end Moved

/-- The call modifies an order to the price and size it has already, and something is
behind it. -/
def Restates (quotes : Quotes) (call : Call) : Prop :=
  ∃ side price orderId quantity other, call = .modify orderId price quantity ∧
    (orderId,quantity) ∈ quotes side price ∧ quotes.Behind side price orderId other

private theorem not_restates {quotes : Quotes} {call : Call} (other : ∀ orderId price quantity, call ≠ .modify orderId price quantity) :
    ¬ Restates quotes call := by
  rintro ⟨_,_,_,_,_,same,_⟩
  exact other _ _ _ same

/-- In a book of valid orders, time priority is kept by every call but those that
restate an order in front of others. -/
theorem step_keepsPriority_iff {c : Config}
    (valid : ∀ o ∈ a.orders, o.quantity ≠ 0 ∧ c.minPrice ≤ o.price ∧ o.price ≤ c.maxPrice) {call : Call}
    (other : call ≠ .clear) : KeepsPriority a.queue call (a.step c call).1 (a.step c call).2.queue ↔
      ¬ Restates a.queue call := by
  have effect := step_effect c a call
  generalize result : (a.step c call).1 = r at effect
  generalize (a.step c call).2 = a' at effect
  cases effect with
  | refused call bad =>
    refine iff_of_true (keepsPriority_of_ids _ _ (fun _ _ => rfl)) ?_
    rintro ⟨side,price,orderId,quantity,_,rfl,held,_⟩
    have member := (mem_queue _).mp held
    obtain ⟨some_,inside⟩ := valid _ member
    have found := find_of_mem member
    dsimp only at some_ inside found
    simp only [step,modify,if_neg some_,not_not.mpr inside,if_false,found] at result
    split at result <;> exact bad (Option.some.inj result).symm
  | entered o ok =>
    exact iff_of_true (keepsPriority_enter ok.absent _) (not_restates (by simp))
  | cancelled o found =>
    exact iff_of_true (keepsPriority_remove _ _ (by simp)) (not_restates (by simp))
  | shrunk o found quantity some_ smaller =>
    refine iff_of_true (keepsPriority_of_ids _ _ (ids_setQuantity a _ _)) ?_
    rintro ⟨_,_,_,_,_,same,held,_⟩
    obtain ⟨rfl,rfl,rfl⟩ := Call.modify.inj same
    obtain ⟨_,_,rfl⟩ := ticket_unique found held
    exact UInt32.lt_irrefl _ smaller
  | moved o found price quantity some_ inside again =>
    rw [keepsPriority_move_iff found again]
    refine not_congr ⟨?_,?_⟩
    · rintro ⟨rfl,rfl,late,behind⟩
      exact ⟨o.side,o.price,o.id,o.quantity,late,rfl,(mem_queue _).mpr (find_eq_some found).1,behind⟩
    · rintro ⟨_,_,_,_,late,same,held,behind⟩
      obtain ⟨rfl,rfl,rfl⟩ := Call.modify.inj same
      obtain ⟨rfl,rfl,rfl⟩ := ticket_unique found held
      exact ⟨rfl,rfl,late,behind⟩
  | filled o found quantity whole =>
    exact iff_of_true (keepsPriority_remove _ _ (by simp)) (not_restates (by simp))
  | reduced o found quantity some_ less =>
    exact iff_of_true (keepsPriority_of_ids _ _ (ids_setQuantity a _ _)) (not_restates (by simp))
  | cleared => exact absurd rfl other

end PriceTimeBook

namespace OrderBook
variable {c : Config}

theorem Represents.valid {b : OrderBook c} {a : PriceTimeBook} (agree : Represents b a) :
    ∀ o ∈ a.orders, o.quantity ≠ 0 ∧ c.minPrice ≤ o.price ∧ o.price ≤ c.maxPrice := by
  obtain ⟨free,queue,sound,shows_⟩ := agree
  obtain ⟨place,layout,_⟩ := sound.layout
  intro o member
  obtain ⟨slot,held,rfl⟩ := shows_.exists_slot sound member
  obtain ⟨_,_,priceEq,positive⟩ := layout.filed held
  have inside := inBand_levelPrice sound.spanned (layout.range_of_mem held)
  rw [← priceEq,inBand,decide_eq_true_eq] at inside
  exact ⟨UInt32.pos_iff_ne_zero.mp positive,inside⟩

/-- In every reachable book every call other than `clear` returns, and it keeps time
priority exactly if it does not restate an order with others behind it. -/
theorem time_priority_kept_iff {b₀ : OrderBook c} (created : create c = some b₀) (calls : List Call) :
    ∃ results b, b₀.run calls = some (results,b) ∧ ∀ call, call ≠ .clear →
      ∃ result b', b.step call = some (result,b') ∧
        (KeepsPriority b.quotes call result b'.quotes ↔ ¬ PriceTimeBook.Restates b.quotes call) := by
  obtain ⟨b,ran,agree⟩ := run_refines calls (create_represents created)
  refine ⟨_,b,ran,?_⟩
  intro call other
  obtain ⟨b',stepped,agree'⟩ := step_refines agree call
  refine ⟨_,b',stepped,?_⟩
  rw [agree.quotes,agree'.quotes]
  exact PriceTimeBook.step_keepsPriority_iff agree.valid other

theorem time_priority_kept_fill : ∃ b₀, create narrow = some b₀ ∧
    ∃ results b, b₀.run [.add 7 .buy 2 5,.add 8 .buy 2 1] = some (results,b) ∧
      ∃ result b', b.step (.execute 7 2) = some (result,b') ∧
        KeepsPriority b.quotes (.execute 7 2) result b'.quotes := by
  obtain ⟨results,b,ran,kept⟩ := time_priority_kept_iff (c := narrow) (if_pos (by decide))
    [.add 7 .buy 2 5,.add 8 .buy 2 1]
  obtain ⟨result,b',stepped,keeps⟩ := kept (.execute 7 2) (by simp)
  refine ⟨_,if_pos (by decide),results,b,ran,result,b',stepped,keeps.mpr ?_⟩
  rintro ⟨_,_,_,_,_,same,_⟩
  simp at same

/-- Order 7 is modified to the price and size it has: order 8 overtakes it. -/
theorem restated_order_overtaken : ∃ b₀, create narrow = some b₀ ∧
    ∃ results b, b₀.run [.add 7 .buy 2 5,.add 8 .buy 2 1] = some (results,b) ∧
      ∃ result b', b.step (.modify 7 2 5) = some (result,b') ∧
        b.quotes .buy 2 = [(7,5),(8,1)] ∧ b'.quotes .buy 2 = [(8,1),(7,5)] ∧
        ¬ KeepsPriority b.quotes (.modify 7 2 5) result b'.quotes := by
  have created : create narrow = some _ := if_pos (by decide)
  obtain ⟨b,ran,agree⟩ := run_refines [.add 7 .buy 2 5,.add 8 .buy 2 1] (create_represents created)
  obtain ⟨b',stepped,agree'⟩ := step_refines agree (.modify 7 2 5)
  have before : b.quotes .buy 2 = [(7,5),(8,1)] := by
    rw [agree.quotes]
    decide
  have after : b'.quotes .buy 2 = [(8,1),(7,5)] := by
    rw [agree'.quotes]
    decide
  refine ⟨_,created,_,b,ran,_,b',stepped,before,after,?_⟩
  intro keeps
  have same := keeps.shrink .buy 2 7 5 5 (by simp [before]) rfl (UInt32.le_refl _)
  rw [Quotes.ids,Quotes.ids,before,after] at same
  simp at same

end OrderBook
end Llte
