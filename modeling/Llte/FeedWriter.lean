import Llte.Datagram
import Llte.Exchange

/-! The exchange's packets, byte by byte. Messages are stored one after another into a
buffer that is never cleared; `flush_packet` puts a header before them and sends as many
bytes as the header says. -/
namespace Llte
open Foundation

namespace PacketBuffer

/-- The bytes from `offset` on are overwritten. -/
def write (packet : PacketBuffer) (offset : Nat) (bytes : List UInt8)
    (fits : offset+bytes.length ≤ kMaxPacketBytes) : PacketBuffer where
  bytes := packet.bytes.take offset ++ (bytes ++ packet.bytes.drop (offset+bytes.length))
  size := by
    rw [List.length_append,List.length_append,List.length_take,List.length_drop,packet.size]
    omega

end PacketBuffer

/-- The packet under construction. -/
structure Draft where
  packet : PacketBuffer
  pending : Nat
  fits : pending ≤ kMaxBatch

namespace Draft

/-- The end of the `count`th message. -/
def offset (count : Nat) : Nat := kFeedHeaderBytes + count*kMessageBytes

private theorem offset_le {count : Nat} (fits : count ≤ kMaxBatch) : offset count ≤ kMaxPacketBytes :=
  Nat.add_le_add_left (Nat.mul_le_mul_right kMessageBytes fits) kFeedHeaderBytes

private theorem offset_succ (count : Nat) : offset (count+1) = offset count+kMessageBytes := by
  rw [offset,offset,Nat.succ_mul,Nat.add_assoc]

private theorem message_fits {count : Nat} (message : MarketMessage) (padding : UInt32) (room : count < kMaxBatch) :
    offset count+(message.bytes padding).length ≤ kMaxPacketBytes := by
  rw [message.bytes_length,← offset_succ]
  exact offset_le room

/-- `payload[pending++] = message`; the padding of the copy is left open. -/
def put (draft : Draft) (message : MarketMessage) (padding : UInt32) (room : draft.pending < kMaxBatch) : Draft where
  packet := draft.packet.write (offset draft.pending) (message.bytes padding) (message_fits message padding room)
  pending := draft.pending+1
  fits := room

/-- The buffer with its header in place. -/
def headed (draft : Draft) : PacketBuffer :=
  draft.packet.write 0 (FeedPacketHeader.mk kFeedMagic (.ofNat draft.pending) 0).bytes (by
    rw [FeedPacketHeader.bytes_length]
    decide)

/-- The datagram that is built, if any, and the draft that goes on in the same buffer. -/
def flushPacket (draft : Draft) : Option (List UInt8) × Draft :=
  if draft.pending = 0 then (none,draft)
  else (some (draft.headed.bytes.take (offset draft.pending)),⟨draft.headed,0,Nat.zero_le _⟩)

private theorem flushPacket_pending (draft : Draft) : draft.flushPacket.2.pending = 0 := by
  unfold flushPacket
  split
  next zero => exact zero
  next => rfl

/-- What has been stored since the last flush. -/
def messages (draft : Draft) : List MarketMessage := messagesOf draft.pending draft.packet.payload

end Draft

/-- The publishing loop: the history, the packet under construction, and every datagram
that was built. -/
structure FeedWriter (cap : Capacity) where
  batch : Nat
  most : batch ≤ kMaxBatch
  history : HistoryStore cap
  draft : Draft
  room : draft.pending < batch
  built : List (List UInt8)

namespace FeedWriter
variable {cap : Capacity}

/-- The buffer starts with whatever is on the stack. -/
def create (cap : Capacity) (requested : Nat) (packet : PacketBuffer) : FeedWriter cap where
  batch := clampBatch requested
  most := (clampBatch_bounds requested).2
  history := HistoryStore.create cap
  draft := ⟨packet,0,Nat.zero_le _⟩
  room := (clampBatch_bounds requested).1
  built := []

/-- The end of one round of the loop, once the message is made up. -/
def append (w : FeedWriter cap) (message : MarketMessage) (padding : UInt32) : FeedWriter cap :=
  let draft := w.draft.put message padding (Nat.lt_of_lt_of_le w.room w.most)
  if full : draft.pending = w.batch then
    {w with
      history := w.history.append message
      draft := draft.flushPacket.2
      room := by
        rw [draft.flushPacket_pending]
        exact Nat.lt_of_le_of_lt (Nat.zero_le _) w.room
      built := w.built ++ draft.flushPacket.1.toList}
  else
    {w with
      history := w.history.append message
      draft := draft
      room := Nat.lt_of_le_of_ne w.room full}

/-- The flush after the loop. -/
def flush (w : FeedWriter cap) : FeedWriter cap :=
  {w with
    draft := w.draft.flushPacket.2
    room := by
      rw [w.draft.flushPacket_pending]
      exact Nat.lt_of_le_of_lt (Nat.zero_le _) w.room
    built := w.built ++ w.draft.flushPacket.1.toList}

def appendAll (w : FeedWriter cap) : List (MarketMessage × UInt32) → FeedWriter cap
  | [] => w
  | (message,padding)::rest => (w.append message padding).appendAll rest

end FeedWriter

/-- The handler's reading of one datagram after the other into its own buffer; `none`
where one of them fails the checks. -/
def decodeAll : PacketBuffer → List (List UInt8) → Option (List MarketMessage)
  | _,[] => some []
  | packet,datagram::rest =>
    match inspect (packet.receive datagram).1 (packet.receive datagram).2 with
    | .packet messages => (decodeAll (packet.receive datagram).1 rest).map (messages ++ ·)
    | _ => none

private theorem decodeAll_formed (packet : PacketBuffer) {datagrams : List (List UInt8)}
    (formed : ∀ datagram ∈ datagrams, WellFormed datagram) :
    decodeAll packet datagrams = some (datagrams.flatMap payloadOf) := by
  induction datagrams generalizing packet with
  | nil => rfl
  | cons datagram rest ih =>
    obtain ⟨here,later⟩ := List.forall_mem_cons.mp formed
    have whole : datagram.take kMaxPacketBytes = datagram := List.take_of_length_le here.short
    have seen := packet.inspect_formed (whole.symm ▸ here)
    rw [whole] at seen
    rw [decodeAll,seen,ih _ later]
    rfl

namespace PacketBuffer

private theorem payload_length (packet : PacketBuffer) : packet.payload.length = kMaxBatch*kMessageBytes := by
  rw [payload,List.length_drop,packet.size,kMaxPacketBytes,Nat.add_sub_cancel_left]

private theorem write_payload (packet : PacketBuffer) {offset : Nat} {bytes : List UInt8}
    (fits : kFeedHeaderBytes+offset+bytes.length ≤ kMaxPacketBytes) :
    (packet.write (kFeedHeaderBytes+offset) bytes fits).payload =
      packet.payload.take offset ++ (bytes ++ packet.payload.drop (offset+bytes.length)) := by
  have size := packet.size
  have behind : kFeedHeaderBytes ≤ (packet.bytes.take (kFeedHeaderBytes+offset)).length := by
    rw [List.length_take]
    omega
  rw [payload,write,payload]
  dsimp only
  rw [List.drop_append_of_le_length behind,List.drop_take,Nat.add_sub_cancel_left,List.drop_drop,Nat.add_assoc]

private theorem write_header (packet : PacketBuffer) (header : FeedPacketHeader)
    (fits : 0+header.bytes.length ≤ kMaxPacketBytes) :
    (packet.write 0 header.bytes fits).bytes = header.bytes ++ packet.payload := by
  rw [write,payload]
  dsimp only
  rw [List.take_zero,List.nil_append,Nat.zero_add,header.bytes_length]

end PacketBuffer

namespace Draft

private theorem messages_length (draft : Draft) : draft.messages.length = draft.pending := messagesOf_length _ _

private theorem pending_fits (draft : Draft) : draft.pending*kMessageBytes ≤ draft.packet.payload.length := by
  rw [draft.packet.payload_length]
  exact Nat.mul_le_mul_right kMessageBytes draft.fits

private theorem put_messages (draft : Draft) (message : MarketMessage) (padding : UInt32) (room : draft.pending < kMaxBatch) :
    (draft.put message padding room).messages = draft.messages ++ [message] := by
  have length := message.bytes_length padding
  have front : (draft.packet.payload.take (draft.pending*kMessageBytes)).length = draft.pending*kMessageBytes :=
    List.length_take_of_le draft.pending_fits
  have stored : (draft.put message padding room).packet.payload =
      draft.packet.payload.take (draft.pending*kMessageBytes) ++ (message.bytes padding ++
        draft.packet.payload.drop (draft.pending*kMessageBytes+(message.bytes padding).length)) :=
    draft.packet.write_payload (message_fits message padding room)
  change messagesOf (draft.pending+1) (draft.put message padding room).packet.payload = _
  rw [messagesOf_succ,stored,messagesOf_append (Nat.le_of_eq front.symm),messagesOf_take draft.pending_fits,
    List.drop_left' front,List.take_left' length,message.ofBytes_bytes,messages]

/-- A draft that is not empty becomes a well-formed datagram with its messages. -/
theorem flushed_formed (draft : Draft) (some_ : draft.pending ≠ 0) :
    WellFormed (draft.headed.bytes.take (offset draft.pending)) ∧
      payloadOf (draft.headed.bytes.take (offset draft.pending)) = draft.messages := by
  generalize laid : FeedPacketHeader.mk kFeedMagic (.ofNat draft.pending) 0 = header
  have most : kMaxBatch = 32 := rfl
  have fits := draft.fits
  have whole : draft.headed.bytes.take (offset draft.pending) =
      header.bytes ++ draft.packet.payload.take (draft.pending*kMessageBytes) := by
    rw [headed,PacketBuffer.write_header,laid,offset,← header.bytes_length,List.take_length_add_append]
  have front : (draft.packet.payload.take (draft.pending*kMessageBytes)).length = draft.pending*kMessageBytes :=
    List.length_take_of_le draft.pending_fits
  have read : FeedPacketHeader.ofBytes (draft.headed.bytes.take (offset draft.pending)) = header := by
    rw [whole,FeedPacketHeader.ofBytes_append (Nat.le_of_eq header.bytes_length.symm),header.ofBytes_bytes]
  have count : header.count.toNat = draft.pending := by
    rw [← laid]
    exact UInt16.toNat_ofNat_of_lt' (by change draft.pending < 2^16; omega)
  have length : (draft.headed.bytes.take (offset draft.pending)).length =
      kFeedHeaderBytes+draft.pending*kMessageBytes := by
    rw [whole,List.length_append,header.bytes_length,front]
  constructor
  · refine ⟨by omega,?_,?_,?_,?_⟩
    · rw [read,← laid]
    · rw [read,count]
      omega
    · rw [read,count]
      exact fits
    · rw [length,read,count]
  · rw [payloadOf,read,count,whole,List.drop_left' header.bytes_length,messagesOf_take draft.pending_fits,messages]

private theorem flushPacket_messages (draft : Draft) : draft.flushPacket.2.messages = [] := by
  rw [messages,draft.flushPacket_pending,messagesOf]

private theorem flushPacket_empty {draft : Draft} (none : draft.messages = []) : draft.flushPacket.1 = Option.none := by
  have zero : draft.pending = 0 := by rw [← draft.messages_length,none,List.length_nil]
  rw [flushPacket,if_pos zero]

private theorem flushPacket_some {draft : Draft} (some_ : draft.messages ≠ []) : ∃ datagram,
    draft.flushPacket.1 = some datagram ∧ WellFormed datagram ∧ payloadOf datagram = draft.messages := by
  have pending : draft.pending ≠ 0 := by
    rw [← draft.messages_length]
    exact fun zero => some_ (List.length_eq_zero_iff.mp zero)
  exact ⟨_,by rw [flushPacket,if_neg pending],draft.flushed_formed pending⟩

end Draft

namespace FeedWriter
variable {cap : Capacity} {w : FeedWriter cap}

/-- What is in the datagrams and in the draft, packet by packet. -/
structure Holds (w : FeedWriter cap) (sent : List (List MarketMessage)) (pending : List MarketMessage) : Prop where
  formed : ∀ datagram ∈ w.built, WellFormed datagram
  sent : w.built.map payloadOf = sent
  pending : w.draft.messages = pending

namespace Holds
variable {sent : List (List MarketMessage)} {pending : List MarketMessage}

theorem create (cap : Capacity) (requested : Nat) (packet : PacketBuffer) :
    Holds (create cap requested packet) [] [] := ⟨by simp [FeedWriter.create],rfl,rfl⟩

/-- A flush moves the draft's messages into a datagram of their own. -/
theorem built (holds : Holds w sent pending) {draft : Draft} (some_ : draft.messages ≠ []) {w' : FeedWriter cap}
    (grown : w'.built = w.built ++ draft.flushPacket.1.toList) (next : w'.draft = draft.flushPacket.2) :
    Holds w' (sent ++ [draft.messages]) [] := by
  obtain ⟨datagram,flushed,formed,payload⟩ := Draft.flushPacket_some some_
  rw [flushed,Option.toList_some] at grown
  refine ⟨?_,?_,?_⟩
  · intro one member
    rw [grown] at member
    rcases List.mem_append.mp member with earlier | newest
    · exact holds.formed one earlier
    · rw [List.mem_singleton.mp newest]
      exact formed
  · rw [grown,List.map_append,holds.sent,List.map_singleton,payload]
  · rw [next,draft.flushPacket_messages]

theorem append (holds : Holds w sent pending) (message : MarketMessage) (padding : UInt32) :
    if (pending ++ [message]).length = w.batch then
      Holds (w.append message padding) (sent ++ [pending ++ [message]]) []
    else Holds (w.append message padding) sent (pending ++ [message]) := by
  have room : w.draft.pending < kMaxBatch := Nat.lt_of_lt_of_le w.room w.most
  have stored : (w.draft.put message padding room).messages = pending ++ [message] := by
    rw [w.draft.put_messages,holds.pending]
  have counted : (w.draft.put message padding room).pending = (pending ++ [message]).length := by
    rw [← Draft.messages_length,stored]
  rw [← counted]
  split
  next full =>
    rw [← stored]
    refine holds.built (by rw [stored]; simp) ?_ ?_ <;> rw [FeedWriter.append,dif_pos full]
  next more =>
    rw [FeedWriter.append,dif_neg more]
    exact ⟨holds.formed,holds.sent,stored⟩

theorem flush (holds : Holds w sent pending) :
    if pending = [] then Holds w.flush sent [] else Holds w.flush (sent ++ [pending]) [] := by
  split
  next none =>
    have nothing : w.flush.built = w.built := by
      rw [FeedWriter.flush]
      dsimp only
      rw [Draft.flushPacket_empty (holds.pending.trans none),Option.toList_none,List.append_nil]
    exact ⟨nothing ▸ holds.formed,nothing ▸ holds.sent,w.draft.flushPacket_messages⟩
  next some_ =>
    rw [← holds.pending]
    exact holds.built (by rw [holds.pending]; exact some_) rfl rfl

end Holds

private theorem append_history (w : FeedWriter cap) (message : MarketMessage) (padding : UInt32) :
    (w.append message padding).history = w.history.append message ∧ (w.append message padding).batch = w.batch := by
  rw [append]
  split <;> exact ⟨rfl,rfl⟩

/-- The byte level against the exchange that sends lists of messages. -/
structure Writes (w : FeedWriter cap) (e : Exchange cap) : Prop where
  batch : w.batch = e.batch
  history : w.history = e.history
  holds : w.Holds e.sent e.pending

theorem Writes.create (cap : Capacity) (start : UInt64) (requested : Nat) (packet : PacketBuffer) :
    Writes (create cap requested packet) (Exchange.create cap start requested) :=
  ⟨rfl,rfl,.create cap requested packet⟩

theorem Writes.publish {e : Exchange cap} (writes : Writes w e) (content : MarketMessage) (padding : UInt32) :
    Writes (w.append {content with sequenceNumber := e.sequence} padding) (e.publish content) := by
  generalize stamped : ({content with sequenceNumber := e.sequence} : MarketMessage) = message
  obtain ⟨history,batch⟩ := w.append_history message padding
  rw [writes.history] at history
  rw [writes.batch] at batch
  have holds := writes.holds.append message padding
  rw [writes.batch] at holds
  unfold Exchange.publish
  dsimp only
  rw [stamped]
  split at holds
  next full =>
    rw [if_pos full,Exchange.flushPacket,if_neg (by simp)]
    exact ⟨batch,history,holds⟩
  next more =>
    rw [if_neg more]
    exact ⟨batch,history,holds⟩

theorem Writes.flush {e : Exchange cap} (writes : Writes w e) : Writes w.flush e.flushPacket := by
  have holds := writes.holds.flush
  unfold Exchange.flushPacket
  split at holds
  next none =>
    rw [if_pos none]
    exact ⟨writes.batch,writes.history,none ▸ holds⟩
  next some_ =>
    rw [if_neg some_]
    exact ⟨writes.batch,writes.history,holds⟩

/-- A datagram of the exchange is to the handler process one of the packets that were sent. -/
theorem Writes.received {e : Exchange cap} (writes : Writes w e) {datagram : List UInt8} (member : datagram ∈ w.built)
    {hcap : Capacity} {p : PowerOfTwo} {σ : Type} {client : Option (Client σ)} {idle : Bool} {fuel : Nat}
    {t0Recv t1Parsed : UInt64} {s s' : FeedHandler hcap p σ} {calls : List (SequenceManager.Call hcap)}
    (taken : s.takeDatagram client idle fuel t0Recv t1Parsed datagram = some (calls,s')) :
    ∃ packet ∈ e.sent, s.process.receive client (.packet fuel t0Recv t1Parsed packet) = some s'.process := by
  have formed := writes.holds.formed datagram member
  have whole : datagram.take kMaxPacketBytes = datagram := List.take_of_length_le formed.short
  have seen : s.inspected datagram = .packet (payloadOf datagram) :=
    (s.inspected_iff datagram _).mpr ⟨whole.symm ▸ formed,congrArg payloadOf whole⟩
  have received := FeedHandler.takeDatagram_receives taken
  rw [FeedHandler.reception,seen] at received
  refine ⟨payloadOf datagram,?_,received⟩
  rw [← writes.holds.sent]
  exact List.mem_map_of_mem member

/-- Datagrams and draft together are what was appended. -/
theorem appendAll_holds (messages : List (MarketMessage × UInt32)) {sent : List (List MarketMessage)}
    {pending : List MarketMessage} (holds : Holds w sent pending) : ∃ sent' pending',
      Holds (w.appendAll messages) sent' pending' ∧
      sent'.flatten ++ pending' = sent.flatten ++ pending ++ messages.map Prod.fst := by
  induction messages generalizing w sent pending with
  | nil => exact ⟨sent,pending,holds,by rw [List.map_nil,List.append_nil]⟩
  | cons entry rest ih =>
    obtain ⟨message,padding⟩ := entry
    have next := holds.append message padding
    split at next
    all_goals
      obtain ⟨sent',pending',holds',joined⟩ := ih next
      refine ⟨sent',pending',holds',?_⟩
      rw [joined]
      simp

private theorem appendAll_history (w : FeedWriter cap) (messages : List (MarketMessage × UInt32)) :
    (w.appendAll messages).history = (messages.map Prod.fst).foldl HistoryStore.append w.history := by
  induction messages generalizing w with
  | nil => rfl
  | cons entry rest ih =>
    obtain ⟨message,padding⟩ := entry
    rw [appendAll,ih,(w.append_history message padding).1,List.map_cons,List.foldl_cons]

/-- Whatever the batch size, the messages and the earlier contents of the two buffers:
every datagram passes the handler's checks, and together they carry the messages that
went into the history, in order. -/
theorem feed_round_trip (cap : Capacity) (requested : Nat) (sender receiver : PacketBuffer)
    (messages : List (MarketMessage × UInt32)) :
    decodeAll receiver (((create cap requested sender).appendAll messages).flush).built =
        some (messages.map Prod.fst) ∧
      (((create cap requested sender).appendAll messages).flush).history =
        (messages.map Prod.fst).foldl HistoryStore.append (HistoryStore.create cap) := by
  refine ⟨?_,appendAll_history _ messages⟩
  obtain ⟨sent,pending,holds,joined⟩ := appendAll_holds messages (.create cap requested sender)
  rw [List.flatten_nil,List.nil_append,List.nil_append] at joined
  have final := holds.flush
  rw [← joined]
  split at final
  next none =>
    rw [decodeAll_formed receiver final.formed,List.flatMap_def,final.sent,none,List.append_nil]
  next some_ =>
    rw [decodeAll_formed receiver final.formed,List.flatMap_def,final.sent,List.flatten_append,
      List.flatten_singleton]

end FeedWriter
end Llte
