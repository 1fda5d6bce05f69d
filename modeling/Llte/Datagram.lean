import Llte.HandlerProcess
import Llte.Wire

/-! The handler's receive call and its checks, byte by byte. One buffer takes every
datagram in turn; it is as long as the longest packet of the feed, and `recv` discards
what does not fit. -/
namespace Llte
open Foundation

def kFeedMagic : UInt32 := 0x4C4C5445

structure FeedPacketHeader where
  magic : UInt32
  count : UInt16
  reserved : UInt16
  deriving DecidableEq

def kFeedHeaderBytes : Nat := 8

def kMaxPacketBytes : Nat := kFeedHeaderBytes + kMaxBatch*kMessageBytes

namespace FeedPacketHeader

def layout : List Nat := [4,2,2]

def values (h : FeedPacketHeader) : List Nat := [h.magic.toNat,h.count.toNat,h.reserved.toNat]

def bytes (h : FeedPacketHeader) : List UInt8 := recordBytes (layout.zip h.values)

def ofBytes (bytes : List UInt8) : FeedPacketHeader :=
  match readRecord layout bytes with
  | [magic,count,reserved] => ⟨.ofNat magic,.ofNat count,.ofNat reserved⟩
  | _ => ⟨0,0,0⟩

theorem bytes_length (h : FeedPacketHeader) : h.bytes.length = kFeedHeaderBytes := by
  rw [bytes,recordBytes_length]
  rfl

theorem ofBytes_append {bytes : List UInt8} (fits : kFeedHeaderBytes ≤ bytes.length) (behind : List UInt8) :
    ofBytes (bytes ++ behind) = ofBytes bytes := by
  have whole : layout.sum ≤ bytes.length := fits
  rw [ofBytes,readRecord_append whole,ofBytes]

theorem ofBytes_bytes (h : FeedPacketHeader) : ofBytes h.bytes = h := by
  have small : ∀ field ∈ layout.zip h.values, field.2 < 256^field.1 := by
    simp only [layout,values,List.zip_cons_cons,List.zip_nil_left,List.forall_mem_cons]
    exact ⟨UInt32.toNat_lt _,UInt16.toNat_lt _,UInt16.toNat_lt _,by simp⟩
  rw [ofBytes,bytes,readRecord_zip small rfl]
  simp [values]

end FeedPacketHeader

/-- The array that packets are built in or received into. -/
structure PacketBuffer where
  bytes : List UInt8
  size : bytes.length = kMaxPacketBytes

namespace PacketBuffer

/-- `recv` on a datagram: the bytes that fit, over those of earlier datagrams, and how
many they are. -/
def receive (packet : PacketBuffer) (datagram : List UInt8) : PacketBuffer × Nat where
  fst.bytes := datagram.take kMaxPacketBytes ++ packet.bytes.drop (datagram.take kMaxPacketBytes).length
  fst.size := by
    have short := List.length_take_le kMaxPacketBytes datagram
    rw [List.length_append,List.length_drop,packet.size]
    omega
  snd := (datagram.take kMaxPacketBytes).length

def header (packet : PacketBuffer) : FeedPacketHeader := .ofBytes packet.bytes

def payload (packet : PacketBuffer) : List UInt8 := packet.bytes.drop kFeedHeaderBytes

end PacketBuffer

inductive Inspection where
  | nothing
  | malformed
  | packet (messages : List MarketMessage)
  deriving DecidableEq

/-- What the loop makes of `received` bytes in the buffer, before it calls the sequencer. -/
def inspect (packet : PacketBuffer) (received : Nat) : Inspection :=
  if received = 0 then .nothing
  else if received < kFeedHeaderBytes then .malformed
  else
    let expectedBytes := kFeedHeaderBytes + packet.header.count.toNat*kMessageBytes
    if packet.header.magic ≠ kFeedMagic ∨ packet.header.count = 0 ∨
      kMaxBatch < packet.header.count.toNat ∨ received ≠ expectedBytes then .malformed
    else .packet (messagesOf packet.header.count.toNat packet.payload)

/-- The handler process with its buffer and its packet counters. -/
structure FeedHandler (cap : Capacity) (p : PowerOfTwo) (σ : Type) where
  process : HandlerProcess cap p σ
  packet : PacketBuffer
  packetsReceived : UInt64 := 0
  malformedPackets : UInt64 := 0

namespace FeedHandler
variable {cap : Capacity} {p : PowerOfTwo} {σ : Type}

def inspected (s : FeedHandler cap p σ) (datagram : List UInt8) : Inspection :=
  inspect (s.packet.receive datagram).1 (s.packet.receive datagram).2

/-- From the return of `recv` to the drain loop or the next turn; the calls of `accept`
are recorded. `idle` says whether an empty datagram ends the handler. -/
def takeDatagram (client : Option (Client σ)) (idle : Bool) (fuel : Nat) (t0Recv t1Parsed : UInt64)
    (s : FeedHandler cap p σ) (datagram : List UInt8) :
    Option (List (SequenceManager.Call cap) × FeedHandler cap p σ) :=
  let packet := (s.packet.receive datagram).1
  match s.inspected datagram with
  | .nothing =>
    some ([],{s with packet := packet, process := {s.process with control := if idle then .finish else .top}})
  | .malformed =>
    some ([],{s with
      packet := packet
      packetsReceived := s.packetsReceived+1
      malformedPackets := s.malformedPackets+1
      process := {s.process with control := .top}})
  | .packet messages =>
    match SequenceManager.acceptAll client fuel (messages.map (stamp t0Recv t1Parsed))
      s.process.sequencer s.process.client with
    | none => none
    | some (calls,sequencer,client) =>
      some (calls,{s with
        packet := packet
        packetsReceived := s.packetsReceived+1
        process := {s.process with sequencer := sequencer, client := client, control := .drain}})

end FeedHandler

/-- A datagram as the feed sends it. -/
structure WellFormed (datagram : List UInt8) : Prop where
  headed : kFeedHeaderBytes ≤ datagram.length
  magic : (FeedPacketHeader.ofBytes datagram).magic = kFeedMagic
  some_ : 1 ≤ (FeedPacketHeader.ofBytes datagram).count.toNat
  most : (FeedPacketHeader.ofBytes datagram).count.toNat ≤ kMaxBatch
  length : datagram.length = kFeedHeaderBytes + (FeedPacketHeader.ofBytes datagram).count.toNat*kMessageBytes

/-- A datagram that starts as a full packet does and goes on after it. -/
structure Oversized (datagram : List UInt8) : Prop where
  long : kMaxPacketBytes < datagram.length
  magic : (FeedPacketHeader.ofBytes datagram).magic = kFeedMagic
  full : (FeedPacketHeader.ofBytes datagram).count.toNat = kMaxBatch

/-- The messages after the header. -/
def payloadOf (datagram : List UInt8) : List MarketMessage :=
  messagesOf (FeedPacketHeader.ofBytes datagram).count.toNat (datagram.drop kFeedHeaderBytes)

theorem WellFormed.short {datagram : List UInt8} (formed : WellFormed datagram) :
    datagram.length ≤ kMaxPacketBytes := by
  have product := Nat.mul_le_mul_right kMessageBytes formed.most
  rw [formed.length,kMaxPacketBytes]
  omega

private theorem WellFormed.payload_ne {datagram : List UInt8} (formed : WellFormed datagram) :
    payloadOf datagram ≠ [] := by
  have count := messagesOf_length (FeedPacketHeader.ofBytes datagram).count.toNat
    (datagram.drop kFeedHeaderBytes)
  have some_ := formed.some_
  intro none
  rw [payloadOf] at none
  rw [none,List.length_nil] at count
  omega

namespace PacketBuffer

private theorem receive_received (packet : PacketBuffer) (datagram : List UInt8) :
    (packet.receive datagram).2 = (datagram.take kMaxPacketBytes).length := rfl

private theorem receive_header (packet : PacketBuffer) {datagram : List UInt8}
    (headed : kFeedHeaderBytes ≤ (datagram.take kMaxPacketBytes).length) :
    (packet.receive datagram).1.header = .ofBytes (datagram.take kMaxPacketBytes) :=
  FeedPacketHeader.ofBytes_append headed _

/-- Whatever the buffer held before, a well-formed packet reads back as its own payload. -/
theorem inspect_formed (packet : PacketBuffer) {datagram : List UInt8}
    (formed : WellFormed (datagram.take kMaxPacketBytes)) :
    inspect (packet.receive datagram).1 (packet.receive datagram).2 =
      .packet (payloadOf (datagram.take kMaxPacketBytes)) := by
  have header := packet.receive_header formed.headed
  have length := formed.length
  have headed := formed.headed
  have some_ := formed.some_
  have most := formed.most
  have whole : (FeedPacketHeader.ofBytes (datagram.take kMaxPacketBytes)).count.toNat*kMessageBytes ≤
      ((datagram.take kMaxPacketBytes).drop kFeedHeaderBytes).length := by
    rw [List.length_drop]
    omega
  have counted : (FeedPacketHeader.ofBytes (datagram.take kMaxPacketBytes)).count ≠ 0 := by
    intro zero
    rw [zero] at some_
    exact absurd some_ (by decide)
  have checks : ¬ ((packet.receive datagram).1.header.magic ≠ kFeedMagic ∨
      (packet.receive datagram).1.header.count = 0 ∨
      kMaxBatch < (packet.receive datagram).1.header.count.toNat ∨
      (packet.receive datagram).2 ≠
        kFeedHeaderBytes + (packet.receive datagram).1.header.count.toNat*kMessageBytes) := by
    rw [header]
    rintro (other | zero | many | unequal)
    · exact other formed.magic
    · exact counted zero
    · omega
    · exact unequal length
  have received : kFeedHeaderBytes ≤ (packet.receive datagram).2 := headed
  have header8 : kFeedHeaderBytes = 8 := rfl
  rw [inspect,if_neg (by omega),if_neg (by omega)]
  dsimp only
  rw [if_neg checks,header,payloadOf]
  congr 1
  rw [payload,receive]
  dsimp only
  rw [List.drop_append_of_le_length headed,messagesOf_append whole]

private theorem inspect_unformed (packet : PacketBuffer) {datagram : List UInt8} (some_ : datagram ≠ [])
    (unformed : ¬ WellFormed (datagram.take kMaxPacketBytes)) :
    inspect (packet.receive datagram).1 (packet.receive datagram).2 = .malformed := by
  have nonempty : (packet.receive datagram).2 ≠ 0 := by
    rw [receive_received,List.length_take]
    have positive := List.length_pos_iff.mpr some_
    have room : 0 < kMaxPacketBytes := by decide
    omega
  rw [inspect,if_neg nonempty]
  split
  next => rfl
  next headed =>
    rw [receive_received,Nat.not_lt] at headed
    dsimp only
    rw [if_pos]
    rw [packet.receive_header headed,receive_received]
    by_contra passed
    simp only [not_or,Classical.not_not,Nat.not_lt] at passed
    obtain ⟨magic,counted,most,length⟩ := passed
    refine unformed ⟨headed,magic,?_,most,length⟩
    rw [Nat.one_le_iff_ne_zero]
    intro zero
    exact counted (UInt16.toNat_inj.mp zero)

end PacketBuffer

/-- The checks are made on what fits the buffer, so a datagram passes them also where
only its front is a packet. -/
theorem wellFormed_take_iff (datagram : List UInt8) :
    WellFormed (datagram.take kMaxPacketBytes) ↔ WellFormed datagram ∨ Oversized datagram := by
  by_cases fits : datagram.length ≤ kMaxPacketBytes
  · rw [List.take_of_length_le fits]
    constructor
    · exact .inl
    · rintro (formed | long)
      · exact formed
      · exact absurd fits (Nat.not_le.mpr long.long)
  · have long := Nat.not_le.mp fits
    have length : (datagram.take kMaxPacketBytes).length = kMaxPacketBytes := by
      rw [List.length_take]
      omega
    have headed : kFeedHeaderBytes ≤ (datagram.take kMaxPacketBytes).length := by
      rw [length]
      decide
    have header : FeedPacketHeader.ofBytes datagram = .ofBytes (datagram.take kMaxPacketBytes) := by
      rw [← FeedPacketHeader.ofBytes_append headed (datagram.drop kMaxPacketBytes),List.take_append_drop]
    constructor
    · intro formed
      have same := formed.length
      rw [length,kMaxPacketBytes,Nat.add_left_cancel_iff] at same
      refine .inr ⟨long,by rw [header]; exact formed.magic,?_⟩
      rw [header]
      exact (Nat.eq_of_mul_eq_mul_right (by decide) same).symm
    · rintro (formed | beyond)
      · exact absurd formed.short fits
      · have full := beyond.full
        have magic := beyond.magic
        rw [header] at full magic
        refine ⟨headed,magic,?_,?_,?_⟩
        · rw [full]
          decide
        · rw [full]
        · rw [length,full,kMaxPacketBytes]

namespace FeedHandler
variable {cap : Capacity} {p : PowerOfTwo} {σ : Type}

/-- The messages of a datagram that are passed to `accept`. -/
def offered (s : FeedHandler cap p σ) (datagram : List UInt8) : List MarketMessage :=
  match s.inspected datagram with
  | .packet messages => messages
  | _ => []

theorem acceptAll_calls {client : Option (Client σ)} {fuel : Nat} {messages : List FeedMessage}
    {m m' : SequenceManager cap} {c c' : σ} {calls : List (SequenceManager.Call cap)}
    (done : SequenceManager.acceptAll client fuel messages m c = some (calls,m',c')) :
    calls.map (fun call => call.incoming) = messages := by
  induction messages generalizing m c calls with
  | nil =>
    cases done
    rfl
  | cons f rest ih =>
    obtain ⟨m₁,c₁,later,_,fed,rfl⟩ := SequenceManager.acceptAll_cons done
    rw [List.map_cons,ih fed]

/-- What is offered is what `accept` is called with. -/
theorem takeDatagram_calls {client : Option (Client σ)} {idle : Bool} {fuel : Nat} {t0Recv t1Parsed : UInt64}
    {s s' : FeedHandler cap p σ} {datagram : List UInt8} {calls : List (SequenceManager.Call cap)}
    (taken : s.takeDatagram client idle fuel t0Recv t1Parsed datagram = some (calls,s')) :
    calls.map (fun call => call.incoming) = (s.offered datagram).map (stamp t0Recv t1Parsed) := by
  unfold takeDatagram at taken
  unfold offered
  dsimp only at taken
  split at taken
  next seen =>
    cases taken
    rw [seen]
    rfl
  next seen =>
    cases taken
    rw [seen]
    rfl
  next messages seen =>
    rw [seen]
    split at taken
    next => simp at taken
    next calls sequencer client' done =>
      cases taken
      exact acceptAll_calls done

private theorem takeDatagram_malformed (client : Option (Client σ)) (idle : Bool) (fuel : Nat) (t0Recv t1Parsed : UInt64)
    {s : FeedHandler cap p σ} {datagram : List UInt8} (seen : s.inspected datagram = .malformed) :
    s.takeDatagram client idle fuel t0Recv t1Parsed datagram = some ([],{s with
      packet := (s.packet.receive datagram).1
      packetsReceived := s.packetsReceived+1
      malformedPackets := s.malformedPackets+1
      process := {s.process with control := .top}}) := by
  rw [takeDatagram]
  dsimp only
  rw [seen]

theorem inspected_iff (s : FeedHandler cap p σ) (datagram : List UInt8) (messages : List MarketMessage) :
    s.inspected datagram = .packet messages ↔
      WellFormed (datagram.take kMaxPacketBytes) ∧ payloadOf (datagram.take kMaxPacketBytes) = messages := by
  by_cases formed : WellFormed (datagram.take kMaxPacketBytes)
  · rw [inspected,s.packet.inspect_formed formed,Inspection.packet.injEq]
    exact (and_iff_right formed).symm
  · refine iff_of_false ?_ (fun both => formed both.1)
    by_cases some_ : datagram = []
    · rw [some_]
      simp [inspected,inspect,PacketBuffer.receive]
    · rw [inspected,s.packet.inspect_unformed some_ formed]
      simp

private theorem offered_iff (s : FeedHandler cap p σ) (datagram : List UInt8) :
    s.offered datagram ≠ [] ↔ WellFormed datagram ∨ Oversized datagram := by
  rw [← wellFormed_take_iff,offered]
  split
  next messages seen =>
    obtain ⟨formed,rfl⟩ := (s.inspected_iff datagram messages).mp seen
    exact iff_of_true formed.payload_ne formed
  next other =>
    refine iff_of_false (fun some_ => some_ rfl) ?_
    intro formed
    exact other _ ((s.inspected_iff datagram _).mpr ⟨formed,rfl⟩)

/-- What the handler process makes of a datagram. -/
def reception (s : FeedHandler cap p σ) (idle : Bool) (fuel : Nat) (t0Recv t1Parsed : UInt64) (datagram : List UInt8) :
    Reception :=
  match s.inspected datagram with
  | .nothing => .nothing idle
  | .malformed => .malformed
  | .packet messages => .packet fuel t0Recv t1Parsed messages

/-- Whatever a datagram contains, it is a step of the handler process. -/
theorem takeDatagram_receives {client : Option (Client σ)} {idle : Bool} {fuel : Nat} {t0Recv t1Parsed : UInt64}
    {s s' : FeedHandler cap p σ} {datagram : List UInt8} {calls : List (SequenceManager.Call cap)}
    (taken : s.takeDatagram client idle fuel t0Recv t1Parsed datagram = some (calls,s')) :
    s.process.receive client (s.reception idle fuel t0Recv t1Parsed datagram) = some s'.process := by
  unfold takeDatagram at taken
  unfold reception
  cases seen : s.inspected datagram with
  | nothing =>
    simp only [seen,Option.some.injEq,Prod.mk.injEq] at taken
    rw [← taken.2]
    rfl
  | malformed =>
    simp only [seen,Option.some.injEq,Prod.mk.injEq] at taken
    rw [← taken.2]
    rfl
  | packet messages =>
    simp only [seen] at taken
    split at taken
    next => simp at taken
    next calls sequencer client' done =>
      simp only [Option.some.injEq,Prod.mk.injEq] at taken
      rw [← taken.2]
      simp only [HandlerProcess.receive,done]

/-- From every state of the handler and for every datagram: it is accepted exactly if
it is well formed, and counted as malformed without touching anything else if it is
neither that nor empty, except where it is a full packet with more behind it. -/
theorem datagram_checked_iff (client : Option (Client σ)) (s : FeedHandler cap p σ) (datagram : List UInt8) :
    ((s.offered datagram ≠ [] ↔ WellFormed datagram) ∧
      (datagram ≠ [] → ¬ WellFormed datagram → ∀ idle fuel t0Recv t1Parsed,
        ∃ s', s.takeDatagram client idle fuel t0Recv t1Parsed datagram = some ([],s') ∧
          s'.malformedPackets = s.malformedPackets+1 ∧ s'.process = {s.process with control := .top})) ↔
    ¬ Oversized datagram := by
  constructor
  · rintro ⟨exact_,_⟩ beyond
    have formed := exact_.mp ((s.offered_iff datagram).mpr (.inr beyond))
    have long := beyond.long
    have short := formed.short
    omega
  · intro fits
    refine ⟨by rw [s.offered_iff,or_iff_left fits],?_⟩
    intro some_ unformed idle fuel t0Recv t1Parsed
    have seen : s.inspected datagram = .malformed := by
      apply s.packet.inspect_unformed some_
      rw [wellFormed_take_iff]
      rintro (formed | beyond)
      · exact unformed formed
      · exact fits beyond
    exact ⟨_,takeDatagram_malformed client idle fuel t0Recv t1Parsed seen,rfl,rfl⟩

def create (cap : Capacity) (p : PowerOfTwo) (origin : UInt64) (c₀ : σ) (packet : PacketBuffer) :
    FeedHandler cap p σ where
  process := .create cap p origin c₀
  packet := packet

end FeedHandler

def PacketBuffer.zero : PacketBuffer := ⟨List.replicate kMaxPacketBytes 0,List.length_replicate⟩

/-- One byte more than the longest packet. -/
def overlong : List UInt8 :=
  (FeedPacketHeader.mk kFeedMagic 32 0).bytes ++ List.replicate (32*kMessageBytes+1) 0

/-- The last byte is cut off before the length is compared, and 32 messages are accepted. -/
theorem overlong_accepted : overlong.length = 1545 ∧ ¬ WellFormed overlong ∧
    ∃ calls s', (FeedHandler.create SequenceManager.four HandlerProcess.one 0 () .zero).takeDatagram
      (none : Option (Client Unit)) false 1 0 0 overlong = some (calls,s') ∧
      calls.length = 32 ∧ s'.malformedPackets = 0 := by
  have length : overlong.length = 1545 := by
    rw [overlong,List.length_append,FeedPacketHeader.bytes_length,List.length_replicate]
    rfl
  refine ⟨length,?_,?_⟩
  · intro formed
    have short := formed.short
    rw [length] at short
    exact absurd short (by decide)
  · have checked : ((FeedHandler.create SequenceManager.four HandlerProcess.one 0 () .zero).takeDatagram
        (none : Option (Client Unit)) false 1 0 0 overlong).any
        (fun r => r.1.length = 32 ∧ r.2.malformedPackets = 0) = true := by
      decide +kernel
    obtain ⟨⟨calls,s'⟩,taken,seen⟩ := (Option.any_eq_true _ _).mp checked
    exact ⟨calls,s',taken,of_decide_eq_true seen⟩

end Llte
