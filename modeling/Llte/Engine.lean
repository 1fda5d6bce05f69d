import Llte.OrderBookRefines

/-! The order-book engine: each event that comes out of the ring is dispatched on its
type byte to one call of the book, and the result of the call is counted. -/
namespace Llte

structure ApplyCounters where
  applied : UInt64 := 0
  unknownOrder : UInt64 := 0
  duplicateOrder : UInt64 := 0
  outOfBand : UInt64 := 0
  poolExhausted : UInt64 := 0
  invalid : UInt64 := 0
  deriving DecidableEq

def record (counters : ApplyCounters) : Result → ApplyCounters
  | .ok => {counters with applied := counters.applied+1}
  | .unknownOrder => {counters with unknownOrder := counters.unknownOrder+1}
  | .duplicateOrder => {counters with duplicateOrder := counters.duplicateOrder+1}
  | .priceOutOfBand => {counters with outOfBand := counters.outOfBand+1}
  | .poolExhausted => {counters with poolExhausted := counters.poolExhausted+1}
  | .invalidQuantity => {counters with invalid := counters.invalid+1}

structure Engine (c : Config) where
  book : OrderBook c
  counters : ApplyCounters := {}

namespace Engine
variable {c : Config}

/-- The switch on the message type. A byte that is none of the four types calls
nothing and counts nothing. -/
def dispatch (book : OrderBook c) (message : MarketMessage) : Option (Option Result × OrderBook c) :=
  match MessageType.ofByte message.type with
  | some .add =>
    (book.add message.orderId (.ofByte message.side) message.price message.quantity).map (Prod.map some id)
  | some .cancel => (book.cancel message.orderId).map (Prod.map some id)
  | some .modify => (book.modify message.orderId message.price message.quantity).map (Prod.map some id)
  | some .trade => (book.execute message.orderId message.quantity).map (Prod.map some id)
  | none => some (none,book)

def consume (engine : Engine c) (message : MarketMessage) : Option (Option Result × Engine c) :=
  match dispatch engine.book message with
  | none => none
  | some (none,book) => some (none,{engine with book := book})
  | some (some result,book) => some (some result,⟨book,record engine.counters result⟩)

def consumeAll : List MarketMessage → Engine c → Option (List (Option Result) × Engine c)
  | [],engine => some ([],engine)
  | message::rest,engine =>
    match engine.consume message with
    | none => none
    | some (result,engine) => (consumeAll rest engine).map fun (results,engine) => (result::results,engine)

def callFor (message : MarketMessage) : MessageType → Call
  | .add => .add message.orderId (.ofByte message.side) message.price message.quantity
  | .cancel => .cancel message.orderId
  | .modify => .modify message.orderId message.price message.quantity
  | .trade => .execute message.orderId message.quantity

/-- The call that the switch makes, if it makes one. -/
def callOf (message : MarketMessage) : Option Call := (MessageType.ofByte message.type).map (callFor message)

theorem dispatch_eq (book : OrderBook c) (message : MarketMessage) :
    dispatch book message = (callOf message).elim (some (none,book)) book.step := by
  unfold dispatch callOf
  cases MessageType.ofByte message.type with
  | none => rfl
  | some type => cases type <;> rfl

theorem consume_book (engine : Engine c) (message : MarketMessage) {result : Option Result} {book : OrderBook c}
    (dispatched : dispatch engine.book message = some (result,book)) :
    engine.consume message = some (result,⟨book,result.elim engine.counters (record engine.counters)⟩) := by
  unfold consume
  rw [dispatched]
  cases result <;> rfl

/-- What an event does to the resting orders. -/
def applied (c : Config) (a : PriceTimeBook) (message : MarketMessage) : Option Result × PriceTimeBook :=
  (callOf message).elim (none,a) (a.step c)

theorem consume_refines {engine : Engine c} {a : PriceTimeBook} (agree : OrderBook.Represents engine.book a)
    (message : MarketMessage) : ∃ engine', engine.consume message = some ((applied c a message).1,engine') ∧
      OrderBook.Represents engine'.book (applied c a message).2 ∧
      engine'.counters = (applied c a message).1.elim engine.counters (record engine.counters) := by
  have dispatched := dispatch_eq engine.book message
  unfold applied
  cases called : callOf message with
  | none =>
    rw [called] at dispatched
    exact ⟨_,engine.consume_book message dispatched,agree,rfl⟩
  | some call =>
    obtain ⟨book,stepped,agree'⟩ := OrderBook.step_refines agree call
    rw [called,Option.elim_some,stepped] at dispatched
    exact ⟨_,engine.consume_book message dispatched,agree',rfl⟩

theorem consumeAll_represents (messages : List MarketMessage) {engine : Engine c} {a : PriceTimeBook}
    (agree : OrderBook.Represents engine.book a) :
    ∃ results engine' a', engine.consumeAll messages = some (results,engine') ∧
      OrderBook.Represents engine'.book a' := by
  induction messages generalizing engine a with
  | nil => exact ⟨[],engine,a,rfl,agree⟩
  | cons message rest ih =>
    obtain ⟨engine₁,consumed,agree₁,_⟩ := consume_refines agree message
    obtain ⟨results,engine',a',ran,agree'⟩ := ih agree₁
    refine ⟨(applied c a message).1::results,engine',a',?_,agree'⟩
    rw [consumeAll,consumed]
    dsimp only
    rw [ran]
    rfl

theorem consumeAll_append {messages : List MarketMessage} {message : MarketMessage}
    {engine engine' engine'' : Engine c} {results : List (Option Result)} {result : Option Result}
    (before : consumeAll messages engine = some (results,engine'))
    (last : engine'.consume message = some (result,engine'')) :
    consumeAll (messages ++ [message]) engine = some (results ++ [result],engine'') := by
  induction messages generalizing engine results with
  | nil =>
    simp only [consumeAll,Option.some.injEq,Prod.mk.injEq] at before
    obtain ⟨rfl,rfl⟩ := before
    simp [consumeAll,last]
  | cons first rest ih =>
    rw [consumeAll] at before
    rw [List.cons_append,consumeAll]
    split at before
    next => simp at before
    next one engine₁ consumed =>
      obtain ⟨⟨others,ended⟩,ran,same⟩ := Option.map_eq_some_iff.mp before
      simp only [Prod.mk.injEq] at same
      obtain ⟨rfl,rfl⟩ := same
      rw [ih ran]
      rfl

end Engine
end Llte
