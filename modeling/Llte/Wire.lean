import Llte.Foundation.Layout
import Llte.Market

/-! The market message as it is copied to and from a socket: its fields in the order
of the struct and four bytes of padding, which hold whatever they hold. -/
namespace Llte
open Foundation

def kMessageBytes : Nat := 48

namespace MarketMessage

def layout : List Nat := [8,8,8,8,4,4,1,1,2]

def values (m : MarketMessage) : List Nat :=
  [m.sequenceNumber.toNat,m.timestampNs.toNat,m.orderId.toNat,m.price.toUInt64.toNat,m.quantity.toNat,
    m.symbolId.toNat,m.type.toNat,m.side.toNat,m.reserved.toNat]

def bytes (padding : UInt32) (m : MarketMessage) : List UInt8 :=
  recordBytes (layout.zip m.values) ++ numberBytes 4 padding.toNat

def ofBytes (bytes : List UInt8) : MarketMessage :=
  match readRecord layout bytes with
  | [sequenceNumber,timestampNs,orderId,price,quantity,symbolId,type,side,reserved] =>
    {sequenceNumber := .ofNat sequenceNumber
     timestampNs := .ofNat timestampNs
     orderId := .ofNat orderId
     price := (UInt64.ofNat price).toInt64
     quantity := .ofNat quantity
     symbolId := .ofNat symbolId
     type := .ofNat type
     side := .ofNat side
     reserved := .ofNat reserved}
  | _ => default

theorem bytes_length (padding : UInt32) (m : MarketMessage) : (m.bytes padding).length = kMessageBytes := by
  rw [bytes,List.length_append,recordBytes_length,numberBytes_length]
  rfl

theorem ofBytes_bytes (padding : UInt32) (m : MarketMessage) : ofBytes (m.bytes padding) = m := by
  have small : ∀ field ∈ layout.zip m.values, field.2 < 256^field.1 := by
    simp only [layout,values,List.zip_cons_cons,List.zip_nil_left,List.forall_mem_cons]
    refine ⟨UInt64.toNat_lt _,UInt64.toNat_lt _,UInt64.toNat_lt _,UInt64.toNat_lt _,UInt32.toNat_lt _,
      UInt32.toNat_lt _,UInt8.toNat_lt _,UInt8.toNat_lt _,UInt16.toNat_lt _,by simp⟩
  have whole : layout.sum ≤ (recordBytes (layout.zip m.values)).length := by
    rw [recordBytes_length]
    exact Nat.le_refl _
  rw [ofBytes,bytes,readRecord_append whole,readRecord_zip small rfl]
  simp [values]

end MarketMessage

/-- An array of messages; each has its own padding. -/
def messagesBytes : (Nat → UInt32) → List MarketMessage → List UInt8
  | _,[] => []
  | padding,m::rest => m.bytes (padding 0) ++ messagesBytes (fun i => padding (i+1)) rest

def messagesOf : Nat → List UInt8 → List MarketMessage
  | 0,_ => []
  | count+1,bytes => .ofBytes (bytes.take kMessageBytes)::messagesOf count (bytes.drop kMessageBytes)

theorem messagesBytes_length (padding : Nat → UInt32) (messages : List MarketMessage) :
    (messagesBytes padding messages).length = messages.length*kMessageBytes := by
  induction messages generalizing padding with
  | nil => rw [messagesBytes,List.length_nil,List.length_nil,Nat.zero_mul]
  | cons m rest ih =>
    rw [messagesBytes,List.length_append,m.bytes_length,ih,List.length_cons,Nat.succ_mul,Nat.add_comm]

theorem messagesOf_length (count : Nat) (bytes : List UInt8) : (messagesOf count bytes).length = count := by
  induction count generalizing bytes with
  | zero => rfl
  | succ count ih => rw [messagesOf,List.length_cons,ih]

theorem messagesOf_append {count : Nat} {bytes : List UInt8} (fits : count*kMessageBytes ≤ bytes.length)
    (behind : List UInt8) : messagesOf count (bytes ++ behind) = messagesOf count bytes := by
  induction count generalizing bytes with
  | zero => rfl
  | succ count ih =>
    rw [Nat.succ_mul] at fits
    have here : kMessageBytes ≤ bytes.length := by omega
    have later : count*kMessageBytes ≤ (bytes.drop kMessageBytes).length := by
      rw [List.length_drop]
      omega
    rw [messagesOf,messagesOf,List.take_append_of_le_length here,List.drop_append_of_le_length here,ih later]

theorem messagesOf_take {count : Nat} {bytes : List UInt8} (fits : count*kMessageBytes ≤ bytes.length) :
    messagesOf count (bytes.take (count*kMessageBytes)) = messagesOf count bytes := by
  have whole : count*kMessageBytes ≤ (bytes.take (count*kMessageBytes)).length := by
    rw [List.length_take]
    omega
  rw [← messagesOf_append whole (bytes.drop (count*kMessageBytes)),List.take_append_drop]

theorem messagesOf_succ (count : Nat) (bytes : List UInt8) : messagesOf (count+1) bytes =
    messagesOf count bytes ++ [.ofBytes ((bytes.drop (count*kMessageBytes)).take kMessageBytes)] := by
  induction count generalizing bytes with
  | zero => rw [messagesOf,messagesOf,messagesOf,Nat.zero_mul,List.drop_zero,List.nil_append]
  | succ count ih =>
    rw [messagesOf,ih,List.drop_drop,show kMessageBytes+count*kMessageBytes = (count+1)*kMessageBytes by rw [Nat.succ_mul,Nat.add_comm],messagesOf,List.cons_append]

theorem messagesOf_messagesBytes (padding : Nat → UInt32) (messages : List MarketMessage) :
    messagesOf messages.length (messagesBytes padding messages) = messages := by
  induction messages generalizing padding with
  | nil => rfl
  | cons m rest ih =>
    have length := m.bytes_length (padding 0)
    rw [messagesBytes,List.length_cons,messagesOf,List.take_left' length,List.drop_left' length,m.ofBytes_bytes,ih]

end Llte
