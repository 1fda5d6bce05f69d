import Mathlib.Tactic.Linarith
import Llte.PriceTimeBook

/-! The node-based book of the benchmark: on each side an ordered map from prices to
lists, and a hash index from ids to places in the lists. A list node is known by its
address and an iterator is such an address; to use an iterator that points to no node,
or to a node of another list, is undefined, and the operation then returns nothing. -/
namespace Llte
open Std (TreeMap HashMap)

structure Entry where
  id : UInt64
  quantity : UInt32

structure Location where
  side : Side
  price : Price
  position : Nat

/-- Behind the three members stands the heap: the nodes in use, and an address that
was never used. -/
structure NodeBook where
  bids : TreeMap Price (List Nat) := ∅
  asks : TreeMap Price (List Nat) := ∅
  index : HashMap UInt64 Location := ∅
  nodes : HashMap Nat Entry := ∅
  nextNode : Nat := 0

namespace NodeBook

def levels (n : NodeBook) : Side → TreeMap Price (List Nat)
  | .buy => n.bids
  | .sell => n.asks

def setLevels (n : NodeBook) (levels : TreeMap Price (List Nat)) : Side → NodeBook
  | .buy => {n with bids := levels}
  | .sell => {n with asks := levels}

/-- The list at a price, as `levels[price]` gives it: no list there is an empty one. -/
def level (n : NodeBook) (side : Side) (price : Price) : List Nat := (n.levels side).getD price []

def add (n : NodeBook) (id : UInt64) (side : Side) (price : Price) (quantity : UInt32) : NodeBook :=
  let position := n.nextNode
  let orders := n.level side price ++ [position]
  {n.setLevels ((n.levels side).insert price orders) side with
    index := n.index.insert id ⟨side,price,position⟩
    nodes := n.nodes.insert position ⟨id,quantity⟩
    nextNode := position+1}

/-- `erase(position)`, and the level goes with its last order. -/
def eraseNode (levels : TreeMap Price (List Nat)) (price : Price) (orders : List Nat) (position : Nat) :
    TreeMap Price (List Nat) :=
  if (orders.erase position).isEmpty then levels.erase price else levels.insert price (orders.erase position)

def eraseOrder (n : NodeBook) (id : UInt64) (found : Location) (orders : List Nat) : NodeBook :=
  {n.setLevels (eraseNode (n.levels found.side) found.price orders found.position) found.side with
    index := n.index.erase id
    nodes := n.nodes.erase found.position}

def cancel (n : NodeBook) (id : UInt64) : Option NodeBook :=
  match n.index[id]? with
  | none => some n
  | some found =>
    match (n.levels found.side)[found.price]? with
    | none => some {n with index := n.index.erase id}
    | some orders =>
      if found.position ∈ orders then some (n.eraseOrder id found orders) else none

def modify (n : NodeBook) (id : UInt64) (price : Price) (quantity : UInt32) : Option NodeBook :=
  match n.index[id]? with
  | none => some n
  | some found => (n.cancel id).map fun n => n.add id found.side price quantity

def execute (n : NodeBook) (id : UInt64) (quantity : UInt32) : Option NodeBook :=
  match n.index[id]? with
  | none => some n
  | some found =>
    match n.nodes[found.position]? with
    | none => none
    | some entry =>
      if entry.quantity ≤ quantity then n.cancel id
      else some {n with nodes := n.nodes.insert found.position {entry with quantity := entry.quantity - quantity}}

def bestBid (n : NodeBook) : Price := n.bids.maxKey?.getD 0

def bestAsk (n : NodeBook) : Price := n.asks.minKey?.getD 0

section Maps
variable (n : NodeBook) (side key : Side) (price : Price)

@[simp] theorem levels_setLevels (levels : TreeMap Price (List Nat)) :
    (n.setLevels levels side).levels key = if key = side then levels else n.levels key := by
  cases side <;> cases key <;> rfl

private theorem level_add (id : UInt64) (at_ : Price) (quantity : UInt32) :
    (n.add id side at_ quantity).level key price =
      if key = side ∧ price = at_ then n.level side at_ ++ [n.nextNode] else n.level key price := by
  change ((n.setLevels _ side).levels key).getD price [] = _
  rw [levels_setLevels]
  by_cases own : key = side
  · subst own
    simp only [if_true,true_and,TreeMap.getD_insert,Std.compare_eq_iff_eq,eq_comm (a := price)]
    rfl
  · rw [if_neg own,if_neg (fun both => own both.1)]
    rfl

theorem index_add (id key : UInt64) (quantity : UInt32) : (n.add id side price quantity).index[key]? =
    if key = id then some ⟨side,price,n.nextNode⟩ else n.index[key]? := by
  simp only [add,HashMap.getElem?_insert,beq_iff_eq,eq_comm (a := id)]

private theorem nodes_add (id : UInt64) (quantity : UInt32) (position : Nat) :
    (n.add id side price quantity).nodes[position]? =
      if position = n.nextNode then some ⟨id,quantity⟩ else n.nodes[position]? := by
  simp only [add,HashMap.getElem?_insert,beq_iff_eq,eq_comm (a := n.nextNode)]

private theorem getD_eraseNode (levels : TreeMap Price (List Nat)) (at_ : Price) (orders : List Nat) (position : Nat) :
    (eraseNode levels at_ orders position).getD price [] =
      if price = at_ then orders.erase position else levels.getD price [] := by
  unfold eraseNode
  split
  next none =>
    simp only [TreeMap.getD_erase,Std.compare_eq_iff_eq,List.isEmpty_iff.mp none,eq_comm (a := at_)]
  next => simp only [TreeMap.getD_insert,Std.compare_eq_iff_eq,eq_comm (a := at_)]

/-- A level that is there after `erase` was there before, and is not empty if it is
the one of the erased node. -/
theorem mem_eraseNode {levels : TreeMap Price (List Nat)} {at_ : Price} {orders : List Nat} {position : Nat}
    (member : price ∈ eraseNode levels at_ orders position) :
    (price = at_ → orders.erase position ≠ []) ∧ (price ≠ at_ → price ∈ levels) := by
  unfold eraseNode at member
  split at member
  next =>
    rw [TreeMap.mem_erase,ne_eq,Std.compare_eq_iff_eq] at member
    exact ⟨fun here => absurd here.symm member.1,fun _ => member.2⟩
  next some_ =>
    rw [TreeMap.mem_insert,Std.compare_eq_iff_eq] at member
    exact ⟨fun _ => by simpa using some_,fun other => member.resolve_left (Ne.symm other)⟩

private theorem level_eraseOrder (id : UInt64) (found : Location) :
    (n.eraseOrder id found (n.level found.side found.price)).level key price =
      if key = found.side ∧ price = found.price then (n.level found.side found.price).erase found.position
      else n.level key price := by
  change ((n.setLevels _ found.side).levels key).getD price [] = _
  rw [levels_setLevels]
  by_cases own : key = found.side
  · rw [if_pos own,own]
    simp only [true_and,getD_eraseNode]
    rfl
  · rw [if_neg own,if_neg (fun both => own both.1)]
    rfl

private theorem index_eraseOrder (id other : UInt64) (found : Location) (orders : List Nat) :
    (n.eraseOrder id found orders).index[other]? = if other = id then none else n.index[other]? := by
  simp only [eraseOrder,HashMap.getElem?_erase,beq_iff_eq,eq_comm (a := id)]

private theorem nextNode_eraseOrder (id : UInt64) (found : Location) (orders : List Nat) :
    (n.eraseOrder id found orders).nextNode = n.nextNode := by
  unfold eraseOrder
  cases found.side <;> rfl

private theorem nodes_eraseOrder (id : UInt64) (found : Location) (orders : List Nat) (position : Nat) :
    (n.eraseOrder id found orders).nodes[position]? =
      if position = found.position then none else n.nodes[position]? := by
  simp only [eraseOrder,HashMap.getElem?_erase,beq_iff_eq,eq_comm (a := found.position)]

end Maps

/-- The lists and the index name the same nodes, each once; no list is empty, and each
node that the index names is there and carries its id. -/
structure Filed (n : NodeBook) : Prop where
  listed : ∀ (side : Side) (price : Price) (position : Nat),
    position ∈ n.level side price ↔ ∃ id : UInt64, n.index[id]? = some ⟨side,price,position⟩
  distinct : ∀ side price, (n.level side price).Nodup
  used : ∀ side price, price ∈ n.levels side → n.level side price ≠ []
  old : ∀ {id : UInt64} {found : Location}, n.index[id]? = some found → found.position < n.nextNode
  named : ∀ {id : UInt64} {found : Location}, n.index[id]? = some found →
    ∃ quantity, n.nodes[found.position]? = some ⟨id,quantity⟩

def find (n : NodeBook) (id : UInt64) : Option RestingOrder :=
  n.index[id]?.bind fun found => n.nodes[found.position]?.map fun entry =>
    ⟨id,found.side,found.price,entry.quantity⟩

section Find
variable {n : NodeBook} {id : UInt64} {found : Location}

theorem find_none (absent : n.index[id]? = none) : n.find id = none := by
  rw [find,absent]
  rfl

theorem find_absent (absent : n.index[id]? = none) (key : UInt64) :
    n.find key = if key = id then none else n.find key := by
  split
  next here => rw [here,find_none absent]
  next => rfl

theorem find_some {entry : Entry} (indexed : n.index[id]? = some found) (node : n.nodes[found.position]? = some entry) :
    n.find id = some ⟨id,found.side,found.price,entry.quantity⟩ := by
  rw [find,indexed,Option.bind_some,node]
  rfl

private theorem find_congr {n' : NodeBook} (index : n'.index[id]? = n.index[id]?)
    (nodes : ∀ found, n.index[id]? = some found → n'.nodes[found.position]? = n.nodes[found.position]?) :
    n'.find id = n.find id := by
  rw [find,find,index]
  cases indexed : n.index[id]? with
  | none => rfl
  | some found => rw [Option.bind_some,Option.bind_some,nodes found indexed]

end Find

namespace Filed

theorem empty : Filed {} where
  listed := by rintro (_ | _) <;> simp [level,levels]
  distinct := by rintro (_ | _) <;> simp [level,levels]
  used := by rintro (_ | _) <;> simp [levels]
  old := by simp
  named := by simp

section Lookup
variable {n : NodeBook} (filed : Filed n) {id : UInt64} {found : Location} (indexed : n.index[id]? = some found)
include filed indexed

theorem member : found.position ∈ n.level found.side found.price := (filed.listed _ _ _).mpr ⟨id,indexed⟩

theorem apart {other : UInt64} {found' : Location} (also : n.index[other]? = some found')
    (same : found'.position = found.position) : other = id := by
  obtain ⟨quantity,node⟩ := filed.named indexed
  obtain ⟨quantity',node'⟩ := filed.named also
  rw [same,node,Option.some.injEq,Entry.mk.injEq] at node'
  exact node'.1.symm

theorem find_indexed : ∃ quantity, n.nodes[found.position]? = some ⟨id,quantity⟩ ∧
    n.find id = some ⟨id,found.side,found.price,quantity⟩ := by
  obtain ⟨quantity,node⟩ := filed.named indexed
  exact ⟨quantity,node,find_some indexed node⟩

end Lookup

section Add
variable {n : NodeBook} (filed : Filed n) {id : UInt64} (absent : n.index[id]? = none) (side : Side) (price : Price)
  (quantity : UInt32)

include absent in
private theorem indexed_add {key : UInt64} {found : Location} (indexed : n.index[key]? = some found) :
    (n.add id side price quantity).index[key]? = some found := by
  rw [index_add,if_neg,indexed]
  rintro rfl
  rw [absent] at indexed
  simp at indexed

include filed

private theorem node_add {key : UInt64} {found : Location} (indexed : n.index[key]? = some found) :
    (n.add id side price quantity).nodes[found.position]? = n.nodes[found.position]? := by
  rw [nodes_add,if_neg (Nat.ne_of_lt (filed.old indexed))]

theorem find_add (key : UInt64) : (n.add id side price quantity).find key =
    if key = id then some ⟨id,side,price,quantity⟩ else n.find key := by
  split
  next here =>
    rw [here]
    have indexed : (n.add id side price quantity).index[id]? = some ⟨side,price,n.nextNode⟩ := by
      rw [index_add,if_pos rfl]
    have node : (n.add id side price quantity).nodes[n.nextNode]? = some ⟨id,quantity⟩ := by
      rw [nodes_add,if_pos rfl]
    exact find_some indexed node
  next other =>
    exact find_congr (by rw [index_add,if_neg other]) (fun found indexed => filed.node_add side price quantity indexed)

include absent

private theorem listed_add (side' : Side) (price' : Price) (position : Nat) :
    position ∈ (n.add id side price quantity).level side' price' ↔
      ∃ key : UInt64, (n.add id side price quantity).index[key]? = some ⟨side',price',position⟩ := by
  rw [level_add]
  constructor
  · intro member
    have before (older : position ∈ n.level side' price') :
        ∃ key : UInt64, (n.add id side price quantity).index[key]? = some ⟨side',price',position⟩ := by
      obtain ⟨key,indexed⟩ := (filed.listed side' price' position).mp older
      exact ⟨key,indexed_add absent side price quantity indexed⟩
    split at member
    next here =>
      obtain ⟨rfl,rfl⟩ := here
      rcases List.mem_append.mp member with older | last
      · exact before older
      · exact ⟨id,by rw [index_add,if_pos rfl,List.mem_singleton.mp last]⟩
    next => exact before member
  · rintro ⟨key,indexed⟩
    rw [index_add] at indexed
    split at indexed
    next =>
      obtain ⟨rfl,rfl,rfl⟩ := Location.mk.inj (Option.some.inj indexed)
      rw [if_pos ⟨rfl,rfl⟩]
      simp
    next =>
      have older := (filed.listed side' price' position).mpr ⟨key,indexed⟩
      split
      next here =>
        obtain ⟨rfl,rfl⟩ := here
        exact List.mem_append_left _ older
      next => exact older

theorem add : Filed (n.add id side price quantity) where
  listed := filed.listed_add absent side price quantity
  distinct := by
    intro side' price'
    rw [level_add]
    split
    next =>
      rw [List.nodup_append]
      refine ⟨filed.distinct side price,by simp,?_⟩
      intro position member last own
      obtain ⟨key,indexed⟩ := (filed.listed side price position).mp member
      rw [List.mem_singleton.mp own]
      exact Nat.ne_of_lt (filed.old indexed)
    next => exact filed.distinct side' price'
  used := by
    intro side' price' member
    rw [level_add]
    split
    next => simp
    next elsewhere =>
      refine filed.used side' price' ?_
      change price' ∈ (n.setLevels _ side).levels side' at member
      rw [levels_setLevels] at member
      split at member
      next own =>
        rw [TreeMap.mem_insert,Std.compare_eq_iff_eq] at member
        rw [own]
        exact member.resolve_left fun here => elsewhere ⟨own,here.symm⟩
      next => exact member
  old := by
    intro key found indexed
    rw [index_add] at indexed
    change found.position < n.nextNode+1
    split at indexed
    next =>
      rw [← Option.some.inj indexed]
      exact Nat.lt_succ_self _
    next => exact Nat.lt_succ_of_lt (filed.old indexed)
  named := by
    intro key found indexed
    rw [index_add] at indexed
    split at indexed
    next here =>
      rw [here,← Option.some.inj indexed]
      exact ⟨quantity,by rw [nodes_add,if_pos rfl]⟩
    next =>
      rw [filed.node_add side price quantity indexed]
      exact filed.named indexed

end Add

section Erase
variable {n : NodeBook} (filed : Filed n) {id : UInt64} {found : Location} (indexed : n.index[id]? = some found)
include filed indexed

private theorem node_eraseOrder (orders : List Nat) {key : UInt64} {found' : Location} (other : key ≠ id)
    (also : n.index[key]? = some found') :
    (n.eraseOrder id found orders).nodes[found'.position]? = n.nodes[found'.position]? := by
  rw [nodes_eraseOrder,if_neg fun same => other (filed.apart indexed also same)]

private theorem find_eraseOrder (orders : List Nat) (key : UInt64) :
    (n.eraseOrder id found orders).find key = if key = id then none else n.find key := by
  have index := n.index_eraseOrder id key found orders
  split
  next here => exact find_none (by rw [index,if_pos here])
  next other =>
    rw [if_neg other] at index
    exact find_congr index (fun _ also => filed.node_eraseOrder indexed orders other also)

private theorem listed_eraseOrder (side : Side) (price : Price) (position : Nat) :
    position ∈ (n.eraseOrder id found (n.level found.side found.price)).level side price ↔
      ∃ key : UInt64, (n.eraseOrder id found (n.level found.side found.price)).index[key]? =
        some ⟨side,price,position⟩ := by
  have kept (key : UInt64) (also : n.index[key]? = some ⟨side,price,position⟩) :
      position ∈ (n.eraseOrder id found (n.level found.side found.price)).level side price ↔ key ≠ id := by
    have older := filed.member also
    rw [level_eraseOrder]
    split
    next here =>
      obtain ⟨rfl,rfl⟩ := here
      rw [(filed.distinct _ _).mem_erase_iff]
      constructor
      · rintro ⟨other,_⟩ rfl
        rw [indexed,Option.some.injEq] at also
        exact other (by rw [also])
      · intro other
        exact ⟨fun same => other (filed.apart indexed also same),older⟩
    next elsewhere =>
      refine ⟨?_,fun _ => older⟩
      rintro _ rfl
      rw [indexed,Option.some.injEq] at also
      exact elsewhere (by rw [also]; exact ⟨rfl,rfl⟩)
  constructor
  · intro member
    have older : position ∈ n.level side price := by
      rw [level_eraseOrder] at member
      split at member
      next here =>
        obtain ⟨rfl,rfl⟩ := here
        exact List.mem_of_mem_erase member
      next => exact member
    obtain ⟨key,also⟩ := (filed.listed side price position).mp older
    exact ⟨key,by rw [index_eraseOrder,if_neg ((kept key also).mp member),also]⟩
  · rintro ⟨key,also⟩
    rw [index_eraseOrder] at also
    split at also
    next => simp at also
    next other => exact (kept key also).mpr other

private theorem eraseOrder : Filed (n.eraseOrder id found (n.level found.side found.price)) where
  listed := filed.listed_eraseOrder indexed
  distinct := by
    intro side price
    rw [level_eraseOrder]
    split
    next => exact (filed.distinct _ _).erase _
    next => exact filed.distinct side price
  used := by
    intro side price member
    rw [level_eraseOrder]
    change price ∈ (n.setLevels _ found.side).levels side at member
    rw [levels_setLevels] at member
    split at member
    next own =>
      have cases_ := mem_eraseNode price member
      split
      next here => exact cases_.1 here.2
      next elsewhere =>
        rw [own]
        exact filed.used _ _ (cases_.2 fun here => elsewhere ⟨own,here⟩)
    next other =>
      rw [if_neg fun both => other both.1]
      exact filed.used side price member
  old := by
    intro key found' also
    rw [index_eraseOrder] at also
    split at also
    next => simp at also
    next =>
      rw [nextNode_eraseOrder]
      exact filed.old also
  named := by
    intro key found' also
    rw [index_eraseOrder] at also
    split at also
    next => simp at also
    next other =>
      rw [filed.node_eraseOrder indexed _ other also]
      exact filed.named also

end Erase

section Operations
variable {n : NodeBook} (filed : Filed n)
include filed

private theorem cancel_indexed {id : UInt64} {found : Location} (indexed : n.index[id]? = some found) :
    n.cancel id = some (n.eraseOrder id found (n.level found.side found.price)) := by
  have member := filed.member indexed
  have present : (n.levels found.side)[found.price]? = some (n.level found.side found.price) := by
    rw [level,TreeMap.getD_eq_getD_getElem?] at member ⊢
    cases looked : (n.levels found.side)[found.price]? with
    | none =>
      rw [looked] at member
      simp at member
    | some orders => rfl
  rw [NodeBook.cancel,indexed]
  dsimp only
  rw [present]
  exact if_pos member

theorem cancel (id : UInt64) : ∃ n', n.cancel id = some n' ∧ Filed n' ∧
    ∀ key, n'.find key = if key = id then none else n.find key := by
  cases indexed : n.index[id]? with
  | none =>
    exact ⟨n,by rw [NodeBook.cancel,indexed],filed,find_absent indexed⟩
  | some found =>
    exact ⟨_,filed.cancel_indexed indexed,filed.eraseOrder indexed,filed.find_eraseOrder indexed _⟩

theorem modify (id : UInt64) (price : Price) (quantity : UInt32) :
    ∃ n', n.modify id price quantity = some n' ∧ Filed n' ∧ ∀ key, n'.find key =
      if key = id then (n.find id).map fun o => {o with price := price, quantity := quantity} else n.find key := by
  cases indexed : n.index[id]? with
  | none =>
    rw [find_none indexed]
    exact ⟨n,by rw [NodeBook.modify,indexed],filed,find_absent indexed⟩
  | some found =>
    obtain ⟨before,_,here⟩ := filed.find_indexed indexed
    have erased := filed.eraseOrder indexed
    have absent : (n.eraseOrder id found (n.level found.side found.price)).index[id]? = none := by
      rw [index_eraseOrder,if_pos rfl]
    refine ⟨_,?_,erased.add absent found.side price quantity,fun key => ?_⟩
    · rw [NodeBook.modify,indexed]
      dsimp only
      rw [filed.cancel_indexed indexed]
      rfl
    · rw [erased.find_add,filed.find_eraseOrder indexed,here]
      split
      next => rfl
      next => rfl

/-- Writing a quantity through an iterator of the index. -/
theorem setQuantity {id : UInt64} {found : Location} (indexed : n.index[id]? = some found) (quantity : UInt32) :
    Filed {n with nodes := n.nodes.insert found.position ⟨id,quantity⟩} ∧
      ∀ key, find {n with nodes := n.nodes.insert found.position ⟨id,quantity⟩} key =
        if key = id then some ⟨id,found.side,found.price,quantity⟩ else n.find key := by
  have written : (n.nodes.insert found.position ⟨id,quantity⟩)[found.position]? = some ⟨id,quantity⟩ := by simp
  have kept {key : UInt64} {found' : Location} (other : key ≠ id) (also : n.index[key]? = some found') :
      (n.nodes.insert found.position ⟨id,quantity⟩)[found'.position]? = n.nodes[found'.position]? := by
    rw [HashMap.getElem?_insert,if_neg]
    rw [beq_iff_eq]
    exact fun same => other (filed.apart indexed also same.symm)
  refine ⟨⟨filed.listed,filed.distinct,filed.used,filed.old,?_⟩,fun key => ?_⟩
  · intro key found' also
    by_cases here : key = id
    · subst here
      obtain rfl := Option.some.inj (indexed.symm.trans also)
      exact ⟨quantity,written⟩
    · obtain ⟨before,node⟩ := filed.named also
      exact ⟨before,(kept here also).trans node⟩
  · split
    next here =>
      rw [here]
      change n.index[id]?.bind _ = _
      rw [indexed,Option.bind_some,written]
      rfl
    next other => exact find_congr rfl (fun _ also => kept other also)

theorem execute (id : UInt64) (quantity : UInt32) :
    ∃ n', n.execute id quantity = some n' ∧ Filed n' ∧ ∀ key, n'.find key =
      if key = id then (n.find id).bind fun o =>
        if o.quantity ≤ quantity then none else some {o with quantity := o.quantity - quantity}
      else n.find key := by
  cases indexed : n.index[id]? with
  | none =>
    rw [find_none indexed]
    exact ⟨n,by rw [NodeBook.execute,indexed],filed,find_absent indexed⟩
  | some found =>
    obtain ⟨before,node,here⟩ := filed.find_indexed indexed
    rw [NodeBook.execute,indexed]
    dsimp only
    rw [node,here,Option.bind_some]
    dsimp only
    by_cases whole : before ≤ quantity
    · rw [if_pos whole,if_pos whole]
      exact filed.cancel id
    · rw [if_neg whole,if_neg whole]
      exact ⟨_,rfl,filed.setQuantity indexed (before - quantity)⟩

end Operations
end Filed
end NodeBook
end Llte
