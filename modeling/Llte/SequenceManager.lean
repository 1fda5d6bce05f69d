import Llte.Market

/-! The sequencer of the market-data handler: a reorder buffer addressed by the
sequence number modulo its size, synchronous recovery of a detected gap, and the
in-order drain. The recovery client is any stateful object with a `request`
operation; the clock readings taken around a request travel with its answer. -/
namespace Llte
open Foundation

inductive SlotState where
  | empty
  | filled
  | skipped
  deriving DecidableEq, Inhabited

structure Slot where
  payload : FeedMessage
  state : SlotState
  deriving DecidableEq, Inhabited

/-- Running totals. The source keeps each in a 64-bit field that is only ever
added to, so the field reads as the total modulo `2^64`. -/
structure Stats where
  accepted : Nat := 0
  delivered : Nat := 0
  duplicates : Nat := 0
  gapsDetected : Nat := 0
  missingMessages : Nat := 0
  recoveryRequests : Nat := 0
  messagesRecovered : Nat := 0
  unrecoverable : Nat := 0
  reorderOverflows : Nat := 0
  deriving DecidableEq

def counter (total : Nat) : UInt64 := UInt64.ofNat total

theorem counter_toNat {total : Nat} (fits : total < 2^64) : (counter total).toNat = total := by
  simpa [counter] using Nat.mod_eq_of_lt fits

/-- What a successful request brings: the clock when it returned, and each
message with the clock at which it would be stored. -/
structure Answer where
  arrived : UInt64
  messages : List (MarketMessage × UInt64)

/-- `request(from, to)` of a client with state `σ`; `none` is a failed request. -/
abbrev Client (σ : Type) := σ → UInt64 → UInt64 → Option Answer × σ

structure SequenceManager (cap : Capacity) where
  buffer : Ring Slot cap
  expected : UInt64 := 0
  started : Bool := false
  stats : Stats := {}
  deriving DecidableEq

namespace SequenceManager
variable {cap : Capacity} {σ : Type}

def create (cap : Capacity) : SequenceManager cap where
  buffer := Ring.replicate cap ⟨default,.empty⟩

def slot (m : SequenceManager cap) (sequence : Nat) : Slot := m.buffer.get sequence

def store (m : SequenceManager cap) (incoming : FeedMessage) : SequenceManager cap :=
  if (m.slot incoming.sequence).state = .filled then
    {m with stats.duplicates := m.stats.duplicates+1}
  else
    {m with buffer := m.buffer.put incoming.sequence ⟨incoming,.filled⟩}

/-- One message of a recovery answer, taken only into the current window and
never over a message already held. -/
def recoverMessage (arrived : UInt64) (m : SequenceManager cap)
    (entry : MarketMessage × UInt64) : SequenceManager cap :=
  let sequence := entry.1.sequenceNumber
  if sequence < m.expected ∨ cap.size ≤ (sequence - m.expected).toNat then m
  else if (m.slot sequence.toNat).state = .filled then m
  else {m with
    buffer := m.buffer.put sequence.toNat ⟨⟨entry.1,arrived,entry.2,true⟩,.filled⟩
    stats.messagesRecovered := m.stats.messagesRecovered+1}

/-- The chunked request loop. Its counter is a wrapping 64-bit word, so the loop
need not end; `none` says it is still running after `fuel` rounds. -/
def requestLoop (request : Client σ) (last : UInt64) :
    Nat → UInt64 → SequenceManager cap → σ → Option (SequenceManager cap × σ)
  | 0,_,_,_ => none
  | fuel+1,start,m,c =>
    if start ≤ last then
      let finish := min last (start + kMaxRecoveryBatch - 1)
      let m := {m with stats.recoveryRequests := m.stats.recoveryRequests+1}
      match request c start finish with
      | (none,c) => some (m,c)
      | (some answer,c) =>
        requestLoop request last fuel (start + kMaxRecoveryBatch)
          (answer.messages.foldl (recoverMessage answer.arrived) m) c
    else some (m,c)

/-- Gives up on one sequence number that recovery did not supply. -/
def skip (m : SequenceManager cap) (sequence : Nat) : SequenceManager cap :=
  let slot := m.slot sequence
  if slot.state = .empty then
    {m with
      buffer := m.buffer.put sequence {slot with state := .skipped}
      stats.unrecoverable := m.stats.unrecoverable+1}
  else m

def skipLoop (m : SequenceManager cap) (first count : Nat) : SequenceManager cap :=
  (List.range' first count).foldl skip m

def requestMissing (client : Option (Client σ)) (fuel : Nat) (m : SequenceManager cap) (c : σ)
    (first last : UInt64) : Option (SequenceManager cap × σ) :=
  match client with
  | none => some (m,c)
  | some request => requestLoop request last fuel first m c

/-- The gap from `first` to `last` is counted before anything is requested. -/
def noteGap (m : SequenceManager cap) (first last : UInt64) : SequenceManager cap :=
  {m with
    stats.gapsDetected := m.stats.gapsDetected+1
    stats.missingMessages := m.stats.missingMessages + (last - first + 1).toNat}

/-- `accept` is the only caller, with `first ≤ last < 2^64 - 1`, so the skip pass
runs over exactly the numbers from `first` to `last`. -/
def recoverRange (client : Option (Client σ)) (fuel : Nat) (m : SequenceManager cap) (c : σ)
    (first last : UInt64) : Option (SequenceManager cap × σ) :=
  (requestMissing client fuel (m.noteGap first last) c first last).map fun (m,c) =>
    (m.skipLoop first.toNat (last.toNat + 1 - first.toNat),c)

/-- Counts the message and, if it is the first one, starts the stream at it. -/
def begin (m : SequenceManager cap) (incoming : FeedMessage) : SequenceManager cap :=
  let m := {m with stats.accepted := m.stats.accepted+1}
  if m.started then m
  else {m with expected := incoming.message.sequenceNumber, started := true}

/-- The jump past the reorder window: drop everything held and restart at the
incoming message. -/
def resynchronize (m : SequenceManager cap) (incoming : FeedMessage) : SequenceManager cap :=
  let sequence := incoming.message.sequenceNumber
  store {m with
    stats.reorderOverflows := m.stats.reorderOverflows+1
    stats.unrecoverable := m.stats.unrecoverable + (sequence - m.expected).toNat
    buffer := m.buffer.map (fun slot => {slot with state := .empty})
    expected := sequence} incoming

/-- A gap is seen only at the slot of `expected`. -/
def gap (m : SequenceManager cap) (incoming : FeedMessage) : Bool :=
  m.expected < incoming.message.sequenceNumber ∧ (m.slot m.expected.toNat).state = .empty

def accept (client : Option (Client σ)) (fuel : Nat) (m : SequenceManager cap) (c : σ)
    (incoming : FeedMessage) : Option (SequenceManager cap × σ) :=
  let m := m.begin incoming
  let sequence := incoming.message.sequenceNumber
  if sequence < m.expected then
    some ({m with stats.duplicates := m.stats.duplicates+1},c)
  else if cap.size ≤ (sequence - m.expected).toNat then
    some (m.resynchronize incoming,c)
  else if m.gap incoming then
    recoverRange client fuel (m.store incoming) c m.expected (sequence - 1)
  else some (m.store incoming,c)

def advance (m : SequenceManager cap) : SequenceManager cap :=
  {m with
    buffer := m.buffer.put m.expected.toNat {m.slot m.expected.toNat with state := .empty}
    expected := m.expected+1}

def handOut (m : SequenceManager cap) : SequenceManager cap :=
  {m.advance with stats.delivered := m.stats.delivered+1}

/-- Every round empties a slot, so `cap.size+1` rounds reach an end. -/
def deliverLoop : Nat → SequenceManager cap → Option FeedMessage × SequenceManager cap
  | 0,m => (none,m)
  | fuel+1,m =>
    match (m.slot m.expected.toNat).state with
    | .empty => (none,m)
    | .skipped => deliverLoop fuel m.advance
    | .filled => (some (m.slot m.expected.toNat).payload,m.handOut)

def nextDeliverable (m : SequenceManager cap) : Option FeedMessage × SequenceManager cap :=
  if m.started then deliverLoop (cap.size+1) m else (none,m)

/-- `while (next_deliverable(out))`; every delivery empties a slot. -/
def drainLoop : Nat → SequenceManager cap → List FeedMessage × SequenceManager cap
  | 0,m => ([],m)
  | fuel+1,m =>
    match m.nextDeliverable with
    | (none,m) => ([],m)
    | (some out,m) => (out::(drainLoop fuel m).1,(drainLoop fuel m).2)

def drain (m : SequenceManager cap) : List FeedMessage × SequenceManager cap :=
  drainLoop (cap.size+1) m

end SequenceManager
end Llte
