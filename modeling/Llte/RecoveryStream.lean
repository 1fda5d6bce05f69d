import Llte.Foundation.Machine
import Llte.RecoveryConnection

/-! The recovery connection byte by byte. Client and server run at their own pace over
two byte streams: each `send` and `recv` moves some of the bytes it could move, is
interrupted, or fails, and what is sent arrives in order, up to some point. Meanwhile
the history of the server grows. -/
namespace Llte
open Foundation

namespace RecoveryRequest

def layout : List Nat := [4,4,8,8]

def values (r : RecoveryRequest) : List Nat :=
  [r.magic.toNat,r.reserved.toNat,r.fromSequence.toNat,r.toSequence.toNat]

def bytes (r : RecoveryRequest) : List UInt8 := recordBytes (layout.zip r.values)

def ofBytes (bytes : List UInt8) : RecoveryRequest :=
  match readRecord layout bytes with
  | [magic,reserved,first,last] => ⟨.ofNat magic,.ofNat reserved,.ofNat first,.ofNat last⟩
  | _ => ⟨0,0,0,0⟩

theorem bytes_length (r : RecoveryRequest) : r.bytes.length = kRequestBytes := by
  rw [bytes,recordBytes_length]
  rfl

theorem ofBytes_bytes (r : RecoveryRequest) : ofBytes r.bytes = r := by
  have small : ∀ field ∈ layout.zip r.values, field.2 < 256^field.1 := by
    simp only [layout,values,List.zip_cons_cons,List.zip_nil_left,List.forall_mem_cons]
    exact ⟨UInt32.toNat_lt _,UInt32.toNat_lt _,UInt64.toNat_lt _,UInt64.toNat_lt _,by simp⟩
  rw [ofBytes,bytes,readRecord_zip small rfl]
  simp [values]

end RecoveryRequest

namespace RecoveryResponseHeader

def layout : List Nat := [4,4]

def values (h : RecoveryResponseHeader) : List Nat := [h.magic.toNat,h.count]

def bytes (h : RecoveryResponseHeader) : List UInt8 := recordBytes (layout.zip h.values)

def ofBytes (bytes : List UInt8) : RecoveryResponseHeader :=
  match readRecord layout bytes with
  | [magic,count] => ⟨.ofNat magic,count⟩
  | _ => ⟨0,0⟩

theorem bytes_length (h : RecoveryResponseHeader) : h.bytes.length = kResponseHeaderBytes := by
  rw [bytes,recordBytes_length]
  rfl

theorem ofBytes_bytes (h : RecoveryResponseHeader) (small : h.count < 2^32) : ofBytes h.bytes = h := by
  have fits : ∀ field ∈ layout.zip h.values, field.2 < 256^field.1 := by
    simp only [layout,values,List.zip_cons_cons,List.zip_nil_left,List.forall_mem_cons]
    exact ⟨UInt32.toNat_lt _,small,by simp⟩
  rw [ofBytes,bytes,readRecord_zip fits rfl]
  simp [values]

end RecoveryResponseHeader

/-- The loop goes on with the bytes given, or its function returns false. -/
inductive Turn where
  | on (first second : List UInt8)
  | lost

/-- `got` has arrived and `wire` is under way. -/
def readTurn (length : Nat) (got wire : List UInt8) : Outcome → Option Turn
  | .interrupted => some (.on got wire)
  | .failed => some .lost
  | .moved count =>
    if count = 0 then some .lost
    else if count ≤ length - got.length ∧ count ≤ wire.length then
      some (.on (got ++ wire.take count) (wire.drop count))
    else none

/-- `wire` is under way and `rest` is still to be sent. -/
def writeTurn (wire rest : List UInt8) : Outcome → Option Turn
  | .interrupted => some (.on wire rest)
  | .failed => some .lost
  | .moved count =>
    if count = 0 then some .lost
    else if count ≤ rest.length then some (.on (wire ++ rest.take count) (rest.drop count))
    else none

/-- What a party does after a turn. -/
def Turn.then {σ : Type} (lost : σ) (on : List UInt8 → List UInt8 → σ) : Turn → σ
  | .on first second => on first second
  | .lost => lost

theorem Turn.map_then {σ : Type} {turn : Option Turn} {lost s : σ} {on : List UInt8 → List UInt8 → σ}
    (turned : turn.map (Turn.then lost on) = some s) :
    s = lost ∨ ∃ first second, turn = some (.on first second) ∧ s = on first second := by
  obtain ⟨taken,rfl,rfl⟩ := Option.map_eq_some_iff.mp turned
  cases taken with
  | on first second => exact .inr ⟨first,second,rfl,rfl⟩
  | lost => exact .inl rfl

theorem readTurn_joins {length : Nat} {got wire got' wire' : List UInt8} {outcome : Outcome}
    (turned : readTurn length got wire outcome = some (.on got' wire')) :
    got' ++ wire' = got ++ wire ∧ (got.length ≤ length → got'.length ≤ length) := by
  cases outcome with
  | interrupted =>
    simp only [readTurn,Option.some.injEq,Turn.on.injEq] at turned
    obtain ⟨rfl,rfl⟩ := turned
    exact ⟨rfl,fun inside => inside⟩
  | failed => simp [readTurn] at turned
  | moved count =>
    rw [readTurn] at turned
    split at turned
    next => simp at turned
    next =>
      split at turned
      next room =>
        simp only [Option.some.injEq,Turn.on.injEq] at turned
        obtain ⟨rfl,rfl⟩ := turned
        refine ⟨by simp,fun _ => ?_⟩
        rw [List.length_append,List.length_take]
        omega
      next => simp at turned

theorem writeTurn_joins {wire rest wire' rest' : List UInt8} {outcome : Outcome}
    (turned : writeTurn wire rest outcome = some (.on wire' rest')) : wire' ++ rest' = wire ++ rest := by
  cases outcome with
  | interrupted =>
    simp only [writeTurn,Option.some.injEq,Turn.on.injEq] at turned
    rw [turned.1,turned.2]
  | failed => simp [writeTurn] at turned
  | moved count =>
    rw [writeTurn] at turned
    split at turned
    next => simp at turned
    next =>
      split at turned
      next =>
        simp only [Option.some.injEq,Turn.on.injEq] at turned
        rw [← turned.1,← turned.2,List.append_assoc,List.take_append_drop]
      next => simp at turned

inductive ClientPhase where
  | idle
  | sendingRequest (first last : UInt64) (rest : List UInt8)
  | readingHeader (first last : UInt64) (got : List UInt8)
  | readingPayload (first last : UInt64) (count : Nat) (got : List UInt8)
  deriving DecidableEq

/-- A call of `request` that has returned: true if there is no error, and with it
what the caller finds in `out`. -/
structure Completed where
  first : UInt64
  last : UInt64
  error : Option RequestError
  out : List MarketMessage
  deriving DecidableEq

structure RecoveryClient where
  connected : Bool := true
  out : List MarketMessage := []
  phase : ClientPhase := .idle
  calls : List Completed := []
  deriving DecidableEq

namespace RecoveryClient

def close (c : RecoveryClient) : RecoveryClient := {c with connected := false}

def finish (c : RecoveryClient) (first last : UInt64) (error : Option RequestError) : RecoveryClient :=
  {c with phase := .idle, calls := c.calls ++ [⟨first,last,error,c.out⟩]}

/-- `request` up to its first socket call. -/
def request (c : RecoveryClient) (first last : UInt64) : RecoveryClient :=
  let c := {c with out := []}
  if c.connected = false then c.finish first last (some .notConnected)
  else if last < first then c.finish first last (some .invalidRange)
  else {c with phase := .sendingRequest first last (RecoveryRequest.bytes ⟨kRecoveryMagic,0,first,last⟩)}

def sent (c : RecoveryClient) (first last : UInt64) (rest : List UInt8) : RecoveryClient :=
  {c with phase := if rest = [] then .readingHeader first last [] else .sendingRequest first last rest}

def gotHeader (c : RecoveryClient) (first last : UInt64) (got : List UInt8) : RecoveryClient :=
  if got.length < kResponseHeaderBytes then {c with phase := .readingHeader first last got}
  else
    let header := RecoveryResponseHeader.ofBytes got
    if header.magic ≠ kRecoveryMagic ∨ kMaxRecoveryBatch.toNat < header.count then
      c.close.finish first last (some .malformed)
    else if header.count = 0 then c.finish first last none
    else
      {c with
        out := List.replicate header.count default
        phase := .readingPayload first last header.count []}

def gotPayload (c : RecoveryClient) (first last : UInt64) (count : Nat) (got : List UInt8) : RecoveryClient :=
  if got.length < count*kMessageBytes then {c with phase := .readingPayload first last count got}
  else finish {c with out := messagesOf count got} first last none

def lostPayload (c : RecoveryClient) (first last : UInt64) : RecoveryClient :=
  (close {c with out := []}).finish first last (some .payload)

end RecoveryClient

inductive ServerPhase where
  | head
  | readingRequest (got : List UInt8)
  | fetching (first last : UInt64)
  | sendingHeader (found : Nat) (rest payload : List UInt8)
  | sendingPayload (found : Nat) (rest : List UInt8)
  deriving DecidableEq

/-- The range of a request and what `fetch` returned for it. -/
abbrev Fetched := UInt64 × UInt64 × List MarketMessage

/-- `serve_connection`. Once it has returned, `phase` says where it was. -/
structure ServedConnection where
  serving : Bool := true
  phase : ServerPhase := .head
  servedRequests : UInt64 := 0
  servedMessages : UInt64 := 0
  fetched : List Fetched := []
  deriving DecidableEq

namespace ServedConnection

def leave (v : ServedConnection) : ServedConnection := {v with serving := false}

def enter (v : ServedConnection) (running : Bool) : ServedConnection :=
  if running then {v with phase := .readingRequest []} else v.leave

def gotRequest (v : ServedConnection) (got : List UInt8) : ServedConnection :=
  if got.length < kRequestBytes then {v with phase := .readingRequest got}
  else
    let r := RecoveryRequest.ofBytes got
    if r.magic ≠ kRecoveryMagic ∨ r.toSequence < r.fromSequence then v.leave
    else {v with phase := .fetching r.fromSequence r.toSequence}

def reply (v : ServedConnection) (first last : UInt64) (padding : Nat → UInt32) (messages : List MarketMessage) :
    ServedConnection :=
  {v with
    phase := .sendingHeader messages.length (RecoveryResponseHeader.bytes ⟨kRecoveryMagic,messages.length⟩)
      (messagesBytes padding messages)
    fetched := v.fetched ++ [(first,last,messages)]}

def served (v : ServedConnection) (found : Nat) : ServedConnection :=
  {v with
    phase := .head
    servedRequests := v.servedRequests+1
    servedMessages := v.servedMessages+UInt64.ofNat found}

def sentHeader (v : ServedConnection) (found : Nat) (rest payload : List UInt8) : ServedConnection :=
  if rest ≠ [] then {v with phase := .sendingHeader found rest payload}
  else if 0 < found then {v with phase := .sendingPayload found payload}
  else v.served found

def sentPayload (v : ServedConnection) (found : Nat) (rest : List UInt8) : ServedConnection :=
  if rest ≠ [] then {v with phase := .sendingPayload found rest} else v.served found

end ServedConnection

structure RecoveryLink (cap : Capacity) where
  client : RecoveryClient := {}
  toServer : List UInt8 := []
  toClient : List UInt8 := []
  server : ServedConnection := {}
  history : HistoryStore cap

inductive LinkMove where
  | request (first last : UInt64)
  | client (outcome : Outcome)
  | enter (running : Bool)
  | server (outcome : Outcome)
  | fetch (fuel : Nat) (padding : Nat → UInt32)
  | append (message : MarketMessage)

namespace RecoveryLink
variable {cap : Capacity}

def clientTurn (s : RecoveryLink cap) (outcome : Outcome) : Option (RecoveryLink cap) :=
  match s.client.phase with
  | .idle => none
  | .sendingRequest first last rest =>
    (writeTurn s.toServer rest outcome).map (Turn.then
      {s with client := s.client.close.finish first last (some .send)}
      fun wire rest => {s with client := s.client.sent first last rest, toServer := wire})
  | .readingHeader first last got =>
    (readTurn kResponseHeaderBytes got s.toClient outcome).map (Turn.then
      {s with client := s.client.close.finish first last (some .header)}
      fun got wire => {s with client := s.client.gotHeader first last got, toClient := wire})
  | .readingPayload first last count got =>
    (readTurn (count*kMessageBytes) got s.toClient outcome).map (Turn.then
      {s with client := s.client.lostPayload first last}
      fun got wire => {s with client := s.client.gotPayload first last count got, toClient := wire})

def serverTurn (s : RecoveryLink cap) (outcome : Outcome) : Option (RecoveryLink cap) :=
  match s.server.phase with
  | .readingRequest got =>
    (readTurn kRequestBytes got s.toServer outcome).map (Turn.then {s with server := s.server.leave}
      fun got wire => {s with server := s.server.gotRequest got, toServer := wire})
  | .sendingHeader found rest payload =>
    (writeTurn s.toClient rest outcome).map (Turn.then {s with server := s.server.leave}
      fun wire rest => {s with server := s.server.sentHeader found rest payload, toClient := wire})
  | .sendingPayload found rest =>
    (writeTurn s.toClient rest outcome).map (Turn.then {s with server := s.server.leave}
      fun wire rest => {s with server := s.server.sentPayload found rest, toClient := wire})
  | _ => none

/-- The copy loop of `fetch` runs to its end while the history is locked. -/
def fetch (s : RecoveryLink cap) (fuel : Nat) (padding : Nat → UInt32) : Option (RecoveryLink cap) :=
  match s.server.phase with
  | .fetching first last =>
    match s.history.serve fuel first last with
    | none => none
    | some messages => some {s with server := s.server.reply first last padding messages}
  | _ => none

def move (s : RecoveryLink cap) : LinkMove → Option (RecoveryLink cap)
  | .request first last =>
    if s.client.phase = .idle then some {s with client := s.client.request first last} else none
  | .client outcome => s.clientTurn outcome
  | .enter running =>
    if s.server.serving ∧ s.server.phase = .head then some {s with server := s.server.enter running} else none
  | .server outcome => if s.server.serving then s.serverTurn outcome else none
  | .fetch fuel padding => if s.server.serving then s.fetch fuel padding else none
  | .append message => some {s with history := s.history.append message}

end RecoveryLink
end Llte
