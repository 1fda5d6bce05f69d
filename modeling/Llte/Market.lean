import Llte.Foundation.Ring

/-! Data that crosses the wire: the market message, the stamps the handler adds
to it, and the constants of the feed and recovery protocols. The two enumerations
of the message are single bytes there, so any byte value can arrive in them. -/
namespace Llte

inductive MessageType where
  | add
  | cancel
  | modify
  | trade
  deriving DecidableEq

namespace MessageType

def byte : MessageType → UInt8
  | add => 1
  | cancel => 2
  | modify => 3
  | trade => 4

def ofByte (byte : UInt8) : Option MessageType :=
  if byte = 1 then some add
  else if byte = 2 then some cancel
  else if byte = 3 then some modify
  else if byte = 4 then some trade
  else none

theorem ofByte_byte (type : MessageType) : ofByte type.byte = some type := by
  cases type <;> rfl

end MessageType

inductive Side where
  | buy
  | sell
  deriving DecidableEq

namespace Side

def byte : Side → UInt8
  | buy => 1
  | sell => 2

/-- The code only ever asks whether a side is `Buy`. -/
def ofByte (byte : UInt8) : Side := if byte = 1 then buy else sell

theorem ofByte_byte (side : Side) : ofByte side.byte = side := by
  cases side <;> rfl

end Side

abbrev Price := Int64

structure MarketMessage where
  sequenceNumber : UInt64
  timestampNs : UInt64 := 0
  orderId : UInt64 := 0
  price : Price := 0
  quantity : UInt32 := 0
  symbolId : UInt32 := 0
  type : UInt8 := 0
  side : UInt8 := 0
  reserved : UInt16 := 0
  deriving DecidableEq, Inhabited

/-- A message with the stamps taken when the handler obtained it, and whether it
came back through recovery. -/
structure FeedMessage where
  message : MarketMessage
  t0Recv : UInt64 := 0
  t1Parsed : UInt64 := 0
  recovered : Bool := false
  deriving DecidableEq, Inhabited

namespace FeedMessage

def sequence (feed : FeedMessage) : Nat := feed.message.sequenceNumber.toNat

theorem sequence_lt (feed : FeedMessage) : feed.sequence < 2^64 :=
  feed.message.sequenceNumber.toNat_lt

end FeedMessage

/-- Numbers that follow one another, starting with `first`. -/
def Consecutive : Nat → List MarketMessage → Prop
  | _,[] => True
  | first,message::rest => message.sequenceNumber.toNat = first ∧ Consecutive (first+1) rest

theorem consecutive_number {first : Nat} {messages : List MarketMessage}
    (consecutive : Consecutive first messages) {i : Nat} {message : MarketMessage}
    (found : messages[i]? = some message) : message.sequenceNumber.toNat = first+i := by
  induction messages generalizing first i with
  | nil => simp at found
  | cons head rest ih =>
    cases i with
    | zero =>
      simp only [List.getElem?_cons_zero,Option.some.injEq] at found
      rw [← found]
      exact consecutive.1
    | succ i =>
      simp only [List.getElem?_cons_succ] at found
      rw [ih consecutive.2 found]
      omega

theorem consecutive_append {first : Nat} {messages later : List MarketMessage} :
    Consecutive first (messages ++ later) ↔
      Consecutive first messages ∧ Consecutive (first+messages.length) later := by
  induction messages generalizing first with
  | nil => simp [Consecutive]
  | cons head rest ih =>
    simp only [List.cons_append,Consecutive,ih,List.length_cons,and_assoc]
    rw [Nat.add_right_comm first 1 rest.length,Nat.add_assoc]

theorem consecutive_bounds {first : Nat} {messages : List MarketMessage}
    (consecutive : Consecutive first messages) {message : MarketMessage} (member : message ∈ messages) :
    first ≤ message.sequenceNumber.toNat ∧ message.sequenceNumber.toNat < first+messages.length := by
  obtain ⟨i,inside,rfl⟩ := List.mem_iff_getElem.mp member
  rw [consecutive_number consecutive (List.getElem?_eq_getElem inside)]
  omega

/-- In a consecutive list the number determines the message. -/
theorem consecutive_inj {first : Nat} {messages : List MarketMessage}
    (consecutive : Consecutive first messages) {a b : MarketMessage} (left : a ∈ messages)
    (right : b ∈ messages) (same : a.sequenceNumber.toNat = b.sequenceNumber.toNat) : a = b := by
  obtain ⟨i,insideI,rfl⟩ := List.mem_iff_getElem.mp left
  obtain ⟨j,insideJ,rfl⟩ := List.mem_iff_getElem.mp right
  rw [consecutive_number consecutive (List.getElem?_eq_getElem insideI),
    consecutive_number consecutive (List.getElem?_eq_getElem insideJ)] at same
  congr 1
  omega

theorem consecutive_select {first : Nat} {messages : List MarketMessage}
    (consecutive : Consecutive first messages) {left right : List MarketMessage}
    (fromLeft : ∀ a ∈ left, a ∈ messages) (fromRight : ∀ b ∈ right, b ∈ messages)
    (same : left.map (fun a => a.sequenceNumber.toNat) = right.map (fun b => b.sequenceNumber.toNat)) :
    left = right := by
  induction left generalizing right with
  | nil =>
    rw [List.map_nil,eq_comm,List.map_eq_nil_iff] at same
    exact same.symm
  | cons a left ih =>
    cases right with
    | nil => simp at same
    | cons b right =>
      simp only [List.map_cons,List.cons.injEq] at same
      rw [consecutive_inj consecutive (fromLeft a (by simp)) (fromRight b (by simp)) same.1,
        ih (fun x member => fromLeft x (by simp [member])) (fun x member => fromRight x (by simp [member]))
          same.2]

def between (low high : Nat) (messages : List MarketMessage) : List MarketMessage :=
  messages.filter (fun a => low ≤ a.sequenceNumber.toNat ∧ a.sequenceNumber.toNat < high)

theorem between_numbers {first : Nat} {messages : List MarketMessage}
    (consecutive : Consecutive first messages) {low high : Nat} (above : first ≤ low)
    (below : high ≤ first+messages.length) :
    (between low high messages).map (fun a => a.sequenceNumber.toNat) = List.range' low (high - low) := by
  induction messages generalizing first low with
  | nil =>
    have none : high - low = 0 := by
      simp only [List.length_nil] at below
      omega
    rw [none]
    rfl
  | cons head rest ih =>
    rw [List.length_cons] at below
    have number := consecutive.1
    rw [between,List.filter_cons,number]
    by_cases here : low = first
    · by_cases some_ : first < high
      · have later := ih consecutive.2 (Nat.le_refl (first+1)) (by omega)
        have skip : rest.filter (fun a => low ≤ a.sequenceNumber.toNat ∧ a.sequenceNumber.toNat < high) =
            between (first+1) high rest := by
          apply List.filter_congr
          intro a member
          have bounds := consecutive_bounds consecutive.2 member
          simp only [decide_eq_decide]
          omega
        have count : high - low = (high - (first+1))+1 := by omega
        rw [if_pos (by simp; omega),List.map_cons,skip,later,number,count,List.range'_succ,here]
      · have none : rest.filter (fun a => low ≤ a.sequenceNumber.toNat ∧ a.sequenceNumber.toNat < high) = [] := by
          rw [List.filter_eq_nil_iff]
          intro a member
          have bounds := consecutive_bounds consecutive.2 member
          simp only [decide_eq_true_eq]
          omega
        rw [if_neg (by simp; omega),none,Nat.sub_eq_zero_of_le (by omega)]
        rfl
    · rw [if_neg (by simp; omega)]
      exact ih consecutive.2 (by omega) (by omega)

theorem consecutive_last {first : Nat} {messages : List MarketMessage} (nonempty : messages ≠ [])
    (consecutive : Consecutive first messages) :
    ∃ message ∈ messages, message.sequenceNumber.toNat+1 = first+messages.length := by
  induction messages generalizing first with
  | nil => exact absurd rfl nonempty
  | cons message rest ih =>
    cases rest with
    | nil => exact ⟨message,by simp,by simpa using consecutive.1⟩
    | cons next rest =>
      obtain ⟨last,member,number⟩ := ih (by simp) consecutive.2
      refine ⟨last,List.mem_cons_of_mem _ member,?_⟩
      rw [number,List.length_cons (a := message)]
      omega

/-- Largest number of messages in one multicast datagram. -/
def kMaxBatch : Nat := 32

/-- Largest range the recovery server serves in one response. -/
def kMaxRecoveryBatch : UInt64 := 1024

end Llte
