import Llte.NodeBook
import Llte.TimePriority

/-! The benchmark runs one list of operations on the preallocated book and on the
node-based one. Both hold the orders of one price-time book: a book is known by the
order that it finds for each id, and the two implementations of a call change what is
found in the same way, whatever they do to their queues. -/
namespace Llte
open Foundation

inductive Action where
  | add
  | cancel
  | modify
  | execute
  deriving DecidableEq

structure Operation where
  action : Action
  side : Side
  orderId : UInt64
  price : Price
  quantity : UInt32

/-- The call that `run_preallocated` makes. -/
def Operation.call (op : Operation) : Call :=
  match op.action with
  | .add => .add op.orderId op.side op.price op.quantity
  | .cancel => .cancel op.orderId
  | .modify => .modify op.orderId op.price op.quantity
  | .execute => .execute op.orderId op.quantity

/-- The call that `run_node_based` makes. -/
def NodeBook.apply (n : NodeBook) (op : Operation) : Option NodeBook :=
  match op.action with
  | .add => some (n.add op.orderId op.side op.price op.quantity)
  | .cancel => n.cancel op.orderId
  | .modify => n.modify op.orderId op.price op.quantity
  | .execute => n.execute op.orderId op.quantity

def runPreallocated {c : Config} : List Operation → OrderBook c → Option (OrderBook c)
  | [],b => some b
  | op::rest,b => (b.step op.call).bind fun (_,b) => runPreallocated rest b

def runNodeBased : List Operation → NodeBook → Option NodeBook
  | [],n => some n
  | op::rest,n => (n.apply op).bind fun n => runNodeBased rest n

/-- An add is for an order that is not there, while there is room; prices are in the
band and quantities are not zero. A cancel, modify or execute may name any id. -/
def Operation.Admissible {c : Config} (b : OrderBook c) (op : Operation) : Prop :=
  match op.action with
  | .add => op.orderId ≠ 0 ∧ b.contains op.orderId = some false ∧ OrderBook.inBand c op.price ∧ op.quantity ≠ 0 ∧
      b.liveOrderCount.toNat < c.maxOrders
  | .cancel => True
  | .modify => OrderBook.inBand c op.price ∧ op.quantity ≠ 0
  | .execute => op.quantity ≠ 0

instance {c : Config} (b : OrderBook c) (op : Operation) : Decidable (op.Admissible b) := by
  unfold Operation.Admissible
  cases op.action <;> infer_instance

/-- Each operation is admissible where the run has come to. -/
def AllAdmissible {c : Config} : List Operation → OrderBook c → Prop
  | [],_ => True
  | op::rest,b => op.Admissible b ∧ (b.step op.call).elim True fun (_,b) => AllAdmissible rest b

instance allAdmissible {c : Config} : (ops : List Operation) → (b : OrderBook c) → Decidable (AllAdmissible ops b)
  | [],_ => isTrue trivial
  | op::rest,b => by
    unfold AllAdmissible
    cases b.step op.call with
    | none => exact inferInstanceAs (Decidable (_ ∧ True))
    | some called =>
      have := allAdmissible rest called.2
      exact inferInstanceAs (Decidable (_ ∧ AllAdmissible rest called.2))

namespace NodeBook
variable {n : NodeBook}

def quotes (n : NodeBook) : Quotes := fun side price =>
  (n.level side price).filterMap fun position => n.nodes[position]?.map fun entry => (entry.id,entry.quantity)

private theorem find_source {id : UInt64} {o : RestingOrder} (found : n.find id = some o) :
    ∃ position : Nat, ∃ entry : Entry, n.index[id]? = some ⟨o.side,o.price,position⟩ ∧
      n.nodes[position]? = some entry ∧ o = ⟨id,o.side,o.price,entry.quantity⟩ := by
  obtain ⟨place,indexed,read⟩ := Option.bind_eq_some_iff.mp found
  obtain ⟨entry,node,rfl⟩ := Option.map_eq_some_iff.mp read
  exact ⟨place.position,entry,indexed,node,rfl⟩

section Filed
variable (filed : Filed n)
include filed

private theorem node_owner {side : Side} {price : Price} {position : Nat} (member : position ∈ n.level side price)
    {entry : Entry} (node : n.nodes[position]? = some entry) : n.index[entry.id]? = some ⟨side,price,position⟩ := by
  obtain ⟨id,indexed⟩ := (filed.listed side price position).mp member
  obtain ⟨quantity,same⟩ := filed.named indexed
  rw [node,Option.some.injEq] at same
  rw [same]
  exact indexed

private theorem mem_quotes {side : Side} {price : Price} {id : UInt64} {quantity : UInt32} :
    (id,quantity) ∈ n.quotes side price ↔ n.find id = some ⟨id,side,price,quantity⟩ := by
  rw [quotes,List.mem_filterMap]
  constructor
  · rintro ⟨position,member,read⟩
    obtain ⟨entry,node,same⟩ := Option.map_eq_some_iff.mp read
    obtain ⟨rfl,rfl⟩ := Prod.mk.inj same
    exact find_some (node_owner filed member node) node
  · intro found
    obtain ⟨position,entry,indexed,node,same⟩ := find_source found
    obtain ⟨_,_,_,rfl⟩ := RestingOrder.mk.inj same
    obtain ⟨before,named⟩ := filed.named indexed
    refine ⟨position,filed.member indexed,?_⟩
    obtain rfl := Option.some.inj (node.symm.trans named)
    rw [node]
    rfl

private theorem quotes_nodup (side : Side) (price : Price) : (n.quotes side price).Nodup := by
  refine List.pairwise_filterMap.mpr ((filed.distinct side price).imp_of_mem ?_)
  rintro first second one two apart _ read _ read' rfl
  obtain ⟨entry,node,same⟩ := Option.map_eq_some_iff.mp read
  obtain ⟨entry',node',same'⟩ := Option.map_eq_some_iff.mp read'
  have owner := node_owner filed one node
  have owner' := node_owner filed two node'
  rw [(Prod.mk.inj (same.trans same'.symm)).1,owner',Option.some.injEq,Location.mk.injEq] at owner
  exact apart owner.2.2.symm

private theorem mem_levels {side : Side} {price : Price} :
    price ∈ n.levels side ↔ ∃ id o, n.find id = some o ∧ o.side = side ∧ o.price = price := by
  constructor
  · intro member
    obtain ⟨position,first⟩ := List.exists_mem_of_ne_nil _ (filed.used side price member)
    obtain ⟨id,indexed⟩ := (filed.listed side price position).mp first
    obtain ⟨quantity,_,found⟩ := filed.find_indexed indexed
    exact ⟨id,_,found,rfl,rfl⟩
  · rintro ⟨id,o,found,rfl,rfl⟩
    obtain ⟨position,entry,indexed,_⟩ := find_source found
    by_contra outside
    have member := filed.member indexed
    rw [level,Std.TreeMap.getD_eq_fallback outside] at member
    simp at member

end Filed

/-- Both books find the same order for every id. -/
structure Same (n : NodeBook) (a : PriceTimeBook) : Prop where
  filed : Filed n
  finds : ∀ id, n.find id = a.find id

namespace Same
variable {a : PriceTimeBook}

theorem empty : Same {} .empty := ⟨Filed.empty,fun id => find_none (by simp)⟩

variable (same : Same n a)
include same

private theorem index_none {id : UInt64} (absent : a.find id = none) : n.index[id]? = none := by
  cases indexed : n.index[id]? with
  | none => rfl
  | some place =>
    obtain ⟨quantity,_,found⟩ := same.filed.find_indexed indexed
    rw [same.finds,absent] at found
    simp at found

private theorem mem_levels_iff {side : Side} {price : Price} :
    price ∈ n.levels side ↔ ∃ o ∈ a.orders, o.side = side ∧ o.price = price := by
  rw [mem_levels same.filed]
  constructor
  · rintro ⟨id,o,found,rest⟩
    rw [same.finds] at found
    exact ⟨o,(PriceTimeBook.find_eq_some found).1,rest⟩
  · rintro ⟨o,member,rest⟩
    exact ⟨o.id,o,(same.finds o.id).trans (PriceTimeBook.find_of_mem member),rest⟩

theorem quotes_perm (side : Side) (price : Price) : (n.quotes side price).Perm (a.queue side price) := by
  have distinct : (a.queue side price).Nodup := List.Nodup.of_map _ (PriceTimeBook.ids_nodup a side price)
  refine (List.perm_ext_iff_of_nodup (quotes_nodup same.filed side price) distinct).mpr ?_
  rintro ⟨id,quantity⟩
  rw [mem_quotes same.filed,PriceTimeBook.mem_queue,same.finds]
  constructor
  · exact fun found => (PriceTimeBook.find_eq_some found).1
  · exact fun member => PriceTimeBook.find_of_mem member

end Same

/-- What `best_bid` and `best_ask` say: no order, or the same price. -/
def Corresponds (node price : Price) : Prop := (node = 0 ∧ price = kNoPrice) ∨ (0 < price ∧ node = price)

private theorem Same.corresponds {a : PriceTimeBook} (same : Same n a) (positive : ∀ o ∈ a.orders, 0 < o.price) (side : Side)
    {best : Option Price} (none_ : best = none → ∀ price, price ∉ n.levels side)
    (some_ : ∀ price, best = some price → price ∈ n.levels side ∧
      ∀ other ∈ n.levels side, PriceTimeBook.NoWorse side price other) :
    Corresponds (best.getD 0) (a.bestPrice side) := by
  cases top : best with
  | none =>
    refine .inl ⟨rfl,PriceTimeBook.bestPrice_none fun o member own => ?_⟩
    exact none_ top o.price (same.mem_levels_iff.mpr ⟨o,member,own,rfl⟩)
  | some price =>
    obtain ⟨inside,first⟩ := some_ price top
    obtain ⟨o,member,own,rfl⟩ := same.mem_levels_iff.mp inside
    have equal := PriceTimeBook.bestPrice_eq member own fun other held also =>
      first other.price (same.mem_levels_iff.mpr ⟨other,held,also,rfl⟩)
    rw [equal]
    exact .inr ⟨positive o member,rfl⟩

theorem Same.bestBid {a : PriceTimeBook} (same : Same n a) (positive : ∀ o ∈ a.orders, 0 < o.price) :
    Corresponds n.bestBid (a.bestPrice .buy) := by
  refine same.corresponds positive .buy ?_ ?_
  · intro none_
    exact Std.TreeMap.isEmpty_iff_forall_not_mem.mp (Std.TreeMap.maxKey?_eq_none_iff.mp none_)
  · intro price top
    obtain ⟨member,last⟩ := Std.TreeMap.maxKey?_eq_some_iff_mem_and_forall.mp top
    exact ⟨member,fun other held => Std.isLE_compare.mp (last other held)⟩

theorem Same.bestAsk {a : PriceTimeBook} (same : Same n a) (positive : ∀ o ∈ a.orders, 0 < o.price) :
    Corresponds n.bestAsk (a.bestPrice .sell) := by
  refine same.corresponds positive .sell ?_ ?_
  · intro none_
    exact Std.TreeMap.isEmpty_iff_forall_not_mem.mp (Std.TreeMap.minKey?_eq_none_iff.mp none_)
  · intro price top
    obtain ⟨member,first⟩ := Std.TreeMap.minKey?_eq_some_iff_mem_and_forall.mp top
    exact ⟨member,fun other held => Std.isLE_compare.mp (first other held)⟩

end NodeBook

section Runs
variable {c : Config} {b : OrderBook c} {a : PriceTimeBook} {n : NodeBook}

private theorem Operation.apply_same (agree : OrderBook.Represents b a) (same : NodeBook.Same n a) {op : Operation}
    (admissible : op.Admissible b) : ∃ n', n.apply op = some n' ∧ NodeBook.Same n' (a.step c op.call).2 := by
  obtain ⟨free,queue,sound,shows_⟩ := agree
  have queries := OrderBook.agrees sound shows_
  obtain ⟨action,side,orderId,price,quantity⟩ := op
  cases action with
  | add =>
    obtain ⟨proper,fresh,inside,some_,room⟩ := admissible
    rw [queries.contains,Option.some.injEq] at fresh
    rw [queries.liveOrderCount] at room
    rw [OrderBook.inBand,decide_eq_true_eq] at inside
    have absent : a.find orderId = none := by simpa [PriceTimeBook.contains] using fresh
    have indexed := same.index_none absent
    have accepts : PriceTimeBook.Accepts c a ⟨orderId,side,price,quantity⟩ := ⟨proper,some_,inside,absent,room⟩
    refine ⟨_,rfl,same.filed.add indexed side price quantity,fun key => ?_⟩
    change _ = (a.add c orderId side price quantity).2.find key
    rw [same.filed.find_add,same.finds,PriceTimeBook.add_accepted accepts]
    exact (PriceTimeBook.find_perm (PriceTimeBook.perm_place a ⟨orderId,side,price,quantity⟩) key).symm
  | cancel =>
    obtain ⟨n',cancelled,filed,finds⟩ := same.filed.cancel orderId
    refine ⟨n',cancelled,filed,fun key => ?_⟩
    rw [finds,same.finds]
    exact (PriceTimeBook.find_cancel a orderId key).symm
  | modify =>
    obtain ⟨inside,some_⟩ := admissible
    rw [OrderBook.inBand,decide_eq_true_eq] at inside
    obtain ⟨n',modified,filed,finds⟩ := same.filed.modify orderId price quantity
    refine ⟨n',modified,filed,fun key => ?_⟩
    rw [finds,same.finds,same.finds]
    exact (PriceTimeBook.find_modify orderId some_ inside key).symm
  | execute =>
    obtain ⟨n',executed,filed,finds⟩ := same.filed.execute orderId quantity
    refine ⟨n',executed,filed,fun key => ?_⟩
    rw [finds,same.finds,same.finds]
    exact (PriceTimeBook.find_execute orderId admissible key).symm

theorem run_same (ops : List Operation) (agree : OrderBook.Represents b a) (same : NodeBook.Same n a)
    (admissible : AllAdmissible ops b) : ∃ b' n' a', runPreallocated ops b = some b' ∧ runNodeBased ops n = some n' ∧
      OrderBook.Represents b' a' ∧ NodeBook.Same n' a' := by
  induction ops generalizing b n a with
  | nil => exact ⟨b,n,a,rfl,rfl,agree,same⟩
  | cons op rest ih =>
    obtain ⟨now,later⟩ := admissible
    obtain ⟨b₁,stepped,agree₁⟩ := OrderBook.step_refines agree op.call
    obtain ⟨n₁,applied,same₁⟩ := op.apply_same agree same now
    rw [stepped] at later
    obtain ⟨b',n',a',one,two,last⟩ := ih agree₁ same₁ later
    refine ⟨b',n',a',?_,?_,last⟩
    · rw [runPreallocated,stepped]
      exact one
    · rw [runNodeBased,applied]
      exact two

end Runs

/-- Over every admissible list of operations both books return, hold the same orders
and quantities at every price, and have the same best prices. A beginning of an
admissible list is admissible, so this holds after every operation. -/
theorem books_agree {c : Config} (positive : 0 < c.minPrice) {b₀ : OrderBook c} (created : OrderBook.create c = some b₀)
    (ops : List Operation) (admissible : AllAdmissible ops b₀) :
    ∃ b n, runPreallocated ops b₀ = some b ∧ runNodeBased ops {} = some n ∧
      (∀ side price, (n.quotes side price).Perm (b.quotes side price)) ∧
      NodeBook.Corresponds n.bestBid b.bestBid ∧ NodeBook.Corresponds n.bestAsk b.bestAsk := by
  obtain ⟨b,n,a,one,two,agree,same⟩ :=
    run_same ops (OrderBook.create_represents created) NodeBook.Same.empty admissible
  have above (o : RestingOrder) (member : o ∈ a.orders) : 0 < o.price :=
    Int64.lt_of_lt_of_le positive (agree.valid o member).2.1
  refine ⟨b,n,one,two,?_,?_⟩
  · rw [agree.quotes]
    exact same.quotes_perm
  · obtain ⟨free,queue,sound,shows_⟩ := agree
    have queries := OrderBook.agrees sound shows_
    rw [queries.bestBid,queries.bestAsk]
    exact ⟨same.bestBid above,same.bestAsk above⟩

/-- Order 7 moves, is filled, and is then named by a cancel and a modify. -/
theorem books_agree_stale : ∃ b₀ b n, OrderBook.create OrderBook.narrow = some b₀ ∧
    runPreallocated [⟨.add,.buy,7,2,5⟩,⟨.add,.sell,8,3,1⟩,⟨.modify,.buy,7,1,9⟩,⟨.execute,.buy,7,0,9⟩,
      ⟨.cancel,.buy,7,0,0⟩,⟨.modify,.buy,7,2,1⟩] b₀ = some b ∧
    runNodeBased [⟨.add,.buy,7,2,5⟩,⟨.add,.sell,8,3,1⟩,⟨.modify,.buy,7,1,9⟩,⟨.execute,.buy,7,0,9⟩,
      ⟨.cancel,.buy,7,0,0⟩,⟨.modify,.buy,7,2,1⟩] {} = some n ∧
    (∀ side price, (n.quotes side price).Perm (b.quotes side price)) ∧
    NodeBook.Corresponds n.bestBid b.bestBid ∧ NodeBook.Corresponds n.bestAsk b.bestAsk := by
  have created : OrderBook.create OrderBook.narrow = some _ := if_pos (by decide)
  obtain ⟨b,n,agreed⟩ := books_agree (by decide) created [⟨.add,.buy,7,2,5⟩,⟨.add,.sell,8,3,1⟩,⟨.modify,.buy,7,1,9⟩,
    ⟨.execute,.buy,7,0,9⟩,⟨.cancel,.buy,7,0,0⟩,⟨.modify,.buy,7,2,1⟩] (by decide +kernel)
  exact ⟨_,b,n,created,agreed⟩

end Llte
