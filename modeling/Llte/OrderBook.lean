import Llte.Foundation.Store
import Llte.Market
import Llte.OrderIndex

/-! The preallocated limit order book: flat arrays of price levels, a pool of orders
threaded into one intrusive queue per level and a free list, the index from order ids
to pool slots, and the two cached best levels. -/
namespace Llte
open Foundation

/-- The band and size of a book. The constructor asserts the first two conditions;
with the third one every pool slot has a 32-bit number other than `kNullOrder`. -/
structure Config where
  minPrice : Price
  maxPrice : Price
  maxOrders : Nat
  ordered : minPrice ≤ maxPrice
  positive : 0 < maxOrders
  addressable : maxOrders < 2^32

def kNoPrice : Price := Int64.minValue

def kNullOrder : UInt32 := 0xffffffff

inductive Result where
  | ok
  | unknownOrder
  | duplicateOrder
  | priceOutOfBand
  | poolExhausted
  | invalidQuantity
  deriving DecidableEq

structure Order where
  id : UInt64
  price : Price
  quantity : UInt32
  next : UInt32
  prev : UInt32
  side : Side
  deriving DecidableEq

instance : Inhabited Order := ⟨⟨0,0,0,0,0,.buy⟩⟩

structure Level where
  totalQuantity : UInt64
  orderCount : UInt32
  head : UInt32
  tail : UInt32
  deriving DecidableEq, Inhabited

def Level.empty : Level := ⟨0,0,kNullOrder,kNullOrder⟩

/-- The exponent of the power of two that `round_up_pow2` returns. -/
def roundUpPow2 (value : Nat) : Nat := if value < 2 then 1 else (value-1).log2+1

private theorem roundUpPow2_le {value : Nat} (small : value < 2^33) : roundUpPow2 value ≤ 33 := by
  unfold roundUpPow2
  split
  next => decide
  next big =>
    have bound : (value-1).log2 < 33 := (Nat.log2_lt (by omega)).mpr (by omega)
    omega

theorem le_roundUpPow2 (value : Nat) : value ≤ 2^roundUpPow2 value := by
  unfold roundUpPow2
  split
  next => omega
  next big =>
    have bound := Nat.lt_log2_self (n := value-1)
    omega

namespace Config

def levelCount (c : Config) : Nat := (c.maxPrice.toInt - c.minPrice.toInt).toNat+1

def indexSize (c : Config) : PowerOfTwo where
  exponent := roundUpPow2 (c.maxOrders*2)
  bound := by
    have small : roundUpPow2 (c.maxOrders*2) ≤ 33 := roundUpPow2_le (by have := c.addressable; omega)
    omega

end Config

structure OrderBook (c : Config) where
  bidLevels : Store Level c.levelCount
  askLevels : Store Level c.levelCount
  pool : Store Order c.maxOrders
  index : OrderIndex c.indexSize
  freeHead : UInt32
  liveOrders : UInt64
  bestBidLevel : UInt64
  bestAskLevel : UInt64
  deriving DecidableEq

namespace OrderBook
variable {c : Config}

def level (b : OrderBook c) (side : Side) (levelIdx : UInt64) : Level :=
  match side with
  | .buy => b.bidLevels.get levelIdx.toNat
  | .sell => b.askLevels.get levelIdx.toNat

def setLevel (b : OrderBook c) (side : Side) (levelIdx : UInt64) (level : Level) : OrderBook c :=
  match side with
  | .buy => {b with bidLevels := b.bidLevels.put levelIdx.toNat level}
  | .sell => {b with askLevels := b.askLevels.put levelIdx.toNat level}

def order (b : OrderBook c) (slot : UInt32) : Order := b.pool.get slot.toNat

def setOrder (b : OrderBook c) (slot : UInt32) (order : Order) : OrderBook c :=
  {b with pool := b.pool.put slot.toNat order}

def inBand (c : Config) (price : Price) : Bool := c.minPrice ≤ price ∧ price ≤ c.maxPrice

def levelIndex (c : Config) (price : Price) : UInt64 := (price - c.minPrice).toUInt64

def levelPrice (c : Config) (index : UInt64) : Price := c.minPrice + index.toInt64

/-- Emptying the book rebuilds the free list over all slots; the other fields of the
orders stay as they are. -/
def clear (b : OrderBook c) : OrderBook c :=
  {b with
    bidLevels := Store.replicate c.levelCount .empty
    askLevels := Store.replicate c.levelCount .empty
    index := OrderIndex.create c.indexSize
    pool := b.pool.mapIdx fun i order =>
      {order with next := if i+1 < c.maxOrders then UInt32.ofNat (i+1) else kNullOrder}
    freeHead := if 0 < c.maxOrders then 0 else kNullOrder
    liveOrders := 0
    bestBidLevel := kNoLevel
    bestAskLevel := kNoLevel}

/-- `none` for a band on which the constructor does not return: the signed difference
of its ends overflows, or a vector of that many levels cannot exist. -/
def create (c : Config) : Option (OrderBook c) :=
  if c.levelCount < 2^63 then
    some (clear
      {bidLevels := Store.replicate c.levelCount .empty
       askLevels := Store.replicate c.levelCount .empty
       pool := Store.replicate c.maxOrders default
       index := OrderIndex.create c.indexSize
       freeHead := kNullOrder
       liveOrders := 0
       bestBidLevel := kNoLevel
       bestAskLevel := kNoLevel})
  else none

def acquireSlot (b : OrderBook c) : UInt32 × OrderBook c :=
  if b.freeHead = kNullOrder then (kNullOrder,b)
  else (b.freeHead,{b with freeHead := (b.order b.freeHead).next})

def releaseSlot (b : OrderBook c) (slot : UInt32) : OrderBook c :=
  {b.setOrder slot {b.order slot with next := b.freeHead} with freeHead := slot}

def linkBack (b : OrderBook c) (levelIdx : UInt64) (side : Side) (slot : UInt32) : OrderBook c :=
  let level := b.level side levelIdx
  let order := {b.order slot with next := kNullOrder, prev := level.tail}
  let b := b.setOrder slot order
  let b := if level.tail ≠ kNullOrder then b.setOrder level.tail {b.order level.tail with next := slot} else b
  b.setLevel side levelIdx
    {totalQuantity := level.totalQuantity + order.quantity.toUInt64
     orderCount := level.orderCount+1
     head := if level.tail ≠ kNullOrder then level.head else slot
     tail := slot}

def noteLevelFilled (b : OrderBook c) (side : Side) (levelIdx : UInt64) : OrderBook c :=
  match side with
  | .buy =>
    if b.bestBidLevel = kNoLevel ∨ b.bestBidLevel < levelIdx then {b with bestBidLevel := levelIdx} else b
  | .sell =>
    if b.bestAskLevel = kNoLevel ∨ levelIdx < b.bestAskLevel then {b with bestAskLevel := levelIdx} else b

/-- The scan for the next bid below level `scan`. -/
def scanBids (b : OrderBook c) : Nat → UInt64
  | 0 => kNoLevel
  | scan+1 =>
    if 0 < (b.level .buy (UInt64.ofNat scan)).orderCount then UInt64.ofNat scan else scanBids b scan

/-- The scan for the next ask over the last `remaining` levels. -/
def scanAsks (b : OrderBook c) : Nat → UInt64
  | 0 => kNoLevel
  | remaining+1 =>
    let scan := UInt64.ofNat (c.levelCount - (remaining+1))
    if 0 < (b.level .sell scan).orderCount then scan else scanAsks b remaining

def onLevelEmptied (b : OrderBook c) (side : Side) (levelIdx : UInt64) : OrderBook c :=
  match side with
  | .buy => if levelIdx ≠ b.bestBidLevel then b else {b with bestBidLevel := b.scanBids levelIdx.toNat}
  | .sell =>
    if levelIdx ≠ b.bestAskLevel then b
    else {b with bestAskLevel := b.scanAsks (c.levelCount - (levelIdx.toNat+1))}

/-- Takes an order out of its level's queue, before the best level is looked after. -/
def detach (b : OrderBook c) (levelIdx : UInt64) (side : Side) (slot : UInt32) : OrderBook c :=
  let level := b.level side levelIdx
  let order := b.order slot
  let b := if order.prev ≠ kNullOrder then
    b.setOrder order.prev {b.order order.prev with next := order.next} else b
  let b := if order.next ≠ kNullOrder then
    b.setOrder order.next {b.order order.next with prev := order.prev} else b
  b.setLevel side levelIdx
    {totalQuantity := level.totalQuantity - order.quantity.toUInt64
     orderCount := level.orderCount-1
     head := if order.prev ≠ kNullOrder then level.head else order.next
     tail := if order.next ≠ kNullOrder then level.tail else order.prev}

def unlink (b : OrderBook c) (levelIdx : UInt64) (side : Side) (slot : UInt32) : OrderBook c :=
  let b := b.detach levelIdx side slot
  if (b.level side levelIdx).orderCount = 0 then b.onLevelEmptied side levelIdx else b

/-- What `cancel` and a full `execute` do with the order found at `position`. -/
def removeOrder (b : OrderBook c) (position : UInt64) : Option (OrderBook c) :=
  let slot := (b.index.get position.toNat).value
  let order := b.order slot
  let b := b.unlink (levelIndex c order.price) order.side slot
  match b.index.indexErase mix position with
  | none => none
  | some index =>
    let b := {b with index := index}.releaseSlot slot
    some {b with liveOrders := b.liveOrders-1}

def enterOrder (b : OrderBook c) (orderId : UInt64) (side : Side) (price : Price) (quantity : UInt32) :
    Option (Result × OrderBook c) :=
  let (slot,b) := b.acquireSlot
  if slot = kNullOrder then some (.poolExhausted,b)
  else
    let b := b.setOrder slot
      {b.order slot with id := orderId, price := price, quantity := quantity, side := side}
    let levelIdx := levelIndex c price
    let b := (b.linkBack levelIdx side slot).noteLevelFilled side levelIdx
    match b.index.indexInsert mix orderId slot with
    | none => none
    | some index => some (.ok,{b with index := index, liveOrders := b.liveOrders+1})

/-- A call returns `none` only if a probe of the index does not end. -/
def add (b : OrderBook c) (orderId : UInt64) (side : Side) (price : Price) (quantity : UInt32) :
    Option (Result × OrderBook c) :=
  if orderId = kEmptyKey then some (.unknownOrder,b)
  else if quantity = 0 then some (.invalidQuantity,b)
  else if ¬ inBand c price then some (.priceOutOfBand,b)
  else
    match b.index.findIndex mix orderId with
    | none => none
    | some position =>
      if position ≠ kNoLevel then some (.duplicateOrder,b)
      else b.enterOrder orderId side price quantity

def cancel (b : OrderBook c) (orderId : UInt64) : Option (Result × OrderBook c) :=
  match b.index.findIndex mix orderId with
  | none => none
  | some position =>
    if position = kNoLevel then some (.unknownOrder,b)
    else (b.removeOrder position).map fun b => (.ok,b)

/-- A reduction by `cut`, down to `rest`, that keeps the place in the queue. -/
def shrinkOrder (b : OrderBook c) (slot cut rest : UInt32) : OrderBook c :=
  let order := b.order slot
  let levelIdx := levelIndex c order.price
  let level := b.level order.side levelIdx
  (b.setLevel order.side levelIdx {level with totalQuantity := level.totalQuantity - cut.toUInt64}).setOrder
    slot {order with quantity := rest}

/-- A change that costs the place in the queue. -/
def moveOrder (b : OrderBook c) (slot : UInt32) (newPrice : Price) (newQuantity : UInt32) : OrderBook c :=
  let order := b.order slot
  let side := order.side
  let b := b.unlink (levelIndex c order.price) side slot
  let b := b.setOrder slot {b.order slot with price := newPrice, quantity := newQuantity}
  let newLevel := levelIndex c newPrice
  (b.linkBack newLevel side slot).noteLevelFilled side newLevel

def modify (b : OrderBook c) (orderId : UInt64) (newPrice : Price) (newQuantity : UInt32) :
    Option (Result × OrderBook c) :=
  if newQuantity = 0 then some (.invalidQuantity,b)
  else if ¬ inBand c newPrice then some (.priceOutOfBand,b)
  else
    match b.index.findIndex mix orderId with
    | none => none
    | some position =>
      if position = kNoLevel then some (.unknownOrder,b)
      else
        let slot := (b.index.get position.toNat).value
        let order := b.order slot
        if newPrice = order.price ∧ newQuantity < order.quantity then
          some (.ok,b.shrinkOrder slot (order.quantity - newQuantity) newQuantity)
        else some (.ok,b.moveOrder slot newPrice newQuantity)

def execute (b : OrderBook c) (orderId : UInt64) (quantity : UInt32) : Option (Result × OrderBook c) :=
  if quantity = 0 then some (.invalidQuantity,b)
  else
    match b.index.findIndex mix orderId with
    | none => none
    | some position =>
      if position = kNoLevel then some (.unknownOrder,b)
      else
        let slot := (b.index.get position.toNat).value
        if (b.order slot).quantity ≤ quantity then (b.removeOrder position).map fun b => (.ok,b)
        else some (.ok,b.shrinkOrder slot quantity ((b.order slot).quantity - quantity))

def bestBid (b : OrderBook c) : Price :=
  if b.bestBidLevel = kNoLevel then kNoPrice else levelPrice c b.bestBidLevel

def bestAsk (b : OrderBook c) : Price :=
  if b.bestAskLevel = kNoLevel then kNoPrice else levelPrice c b.bestAskLevel

def quantityAt (b : OrderBook c) (side : Side) (price : Price) : UInt64 :=
  if ¬ inBand c price then 0 else (b.level side (levelIndex c price)).totalQuantity

def orderCountAt (b : OrderBook c) (side : Side) (price : Price) : UInt32 :=
  if ¬ inBand c price then 0 else (b.level side (levelIndex c price)).orderCount

def contains (b : OrderBook c) (orderId : UInt64) : Option Bool :=
  (b.index.findIndex mix orderId).map fun position => position != kNoLevel

def liveOrderCount (b : OrderBook c) : UInt64 := b.liveOrders

end OrderBook
end Llte
