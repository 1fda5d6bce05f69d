import Llte.Feed
import Llte.SequencerSafety
import Llte.Wire

/-! One recovery connection: the server's loop over requests, the client's `request`,
and the socket calls of both. A receive timeout on the server surfaces as a failed
`recv` and ends the loop; the client only finds out at its next request, and never
connects again. -/
namespace Llte
open Foundation

/-- What one call of `recv` or `send` came to: a byte count, zero when the peer has
closed; an interruption; or another error, a timeout among them. -/
inductive Outcome where
  | moved (count : Nat)
  | interrupted
  | failed
  deriving DecidableEq

/-- The loop both sides use to move a whole frame. `none` says it still waits. -/
def moveExact : List Outcome → Nat → Option Bool
  | _,0 => some true
  | [],_+1 => none
  | .moved count::rest,n+1 => if count = 0 then some false else moveExact rest (n+1-count)
  | .interrupted::rest,n+1 => moveExact rest (n+1)
  | .failed::_,_+1 => some false

def readExact (outcomes : List Outcome) (length : Nat) : Option Bool := moveExact outcomes length

def writeExact (outcomes : List Outcome) (length : Nat) : Option Bool := moveExact outcomes length

/-- The calls together move exactly `length` bytes, in any portions. -/
def Delivers : List Outcome → Nat → Prop
  | [],length => length = 0
  | .moved count::rest,length => 0 < count ∧ count ≤ length ∧ Delivers rest (length-count)
  | .interrupted::rest,length => Delivers rest length
  | .failed::_,_ => False

private theorem moveExact_delivers {outcomes : List Outcome} {length : Nat} (delivers : Delivers outcomes length) :
    moveExact outcomes length = some true := by
  induction outcomes generalizing length with
  | nil =>
    rw [Delivers] at delivers
    rw [delivers,moveExact]
  | cons outcome rest ih =>
    cases length with
    | zero => rw [moveExact]
    | succ n =>
      cases outcome with
      | moved count =>
        rw [moveExact,if_neg (by have := delivers.1; omega)]
        exact ih delivers.2.2
      | interrupted =>
        rw [moveExact]
        exact ih delivers
      | failed => exact absurd delivers (by simp [Delivers])

/-- The socket calls made for one request, side by side. -/
structure Transfers where
  sendRequest : List Outcome
  recvRequest : List Outcome
  sendHeader : List Outcome
  recvHeader : List Outcome
  sendPayload : List Outcome
  recvPayload : List Outcome

def kRecoveryMagic : UInt32 := 0x4C4C5452

structure RecoveryRequest where
  magic : UInt32
  reserved : UInt32
  fromSequence : UInt64
  toSequence : UInt64

structure RecoveryResponseHeader where
  magic : UInt32
  count : Nat

def kRequestBytes : Nat := 24
def kResponseHeaderBytes : Nat := 8

inductive RequestError where
  | notConnected
  | invalidRange
  | send
  | header
  | malformed
  | payload
  deriving DecidableEq

/-- The text left in `error`; the system's own text follows where a call failed. -/
def RequestError.text (system : String) : RequestError → String
  | notConnected => "recovery client is not connected"
  | invalidRange => "invalid recovery range"
  | send => "send(recovery request): " ++ system
  | header => "recv(recovery header): " ++ system
  | malformed => "malformed recovery response"
  | payload => "recv(recovery payload): " ++ system

structure Reply where
  header : Option RecoveryResponseHeader := none
  payload : Option (List MarketMessage) := none

/-- Both ends of the connection: whether the server is still in its loop, whether
the client still has its descriptor, and the server's counters. -/
structure Session where
  serving : Bool := true
  connected : Bool := true
  servedRequests : UInt64 := 0
  servedMessages : UInt64 := 0
  deriving DecidableEq

namespace Session

/-- The server returns from its loop and its descriptor is closed. -/
def hangUp (s : Session) : Session := {s with serving := false}

def enter (running : Bool) (s : Session) : Session := if running then s else s.hangUp

/-- A receive timeout on the server before a byte of the next request has arrived. -/
def expire (s : Session) : Session :=
  match readExact [.failed] kRequestBytes with
  | some false => s.hangUp
  | _ => s

def wait : Nat → Session → Session
  | 0,s => s
  | n+1,s => wait n s.expire

def close (s : Session) : Session := {s with serving := false, connected := false}

def served (s : Session) (found : Nat) : Session :=
  {s with
    servedRequests := s.servedRequests+1
    servedMessages := s.servedMessages+UInt64.ofNat found}

end Session

section Protocol
variable {cap : Capacity}

/-- One round of the server's loop after its head; `none` when it is still in it,
waiting or after `fuel` rounds of the copy loop. -/
def serveRequest (h : HistoryStore cap) (fuel : Nat) (t : Transfers) (r : RecoveryRequest) (s : Session) :
    Option (Reply × Session) :=
  match readExact t.recvRequest kRequestBytes with
  | none => none
  | some false => some ({},s.hangUp)
  | some true =>
    if r.magic ≠ kRecoveryMagic ∨ r.toSequence < r.fromSequence then some ({},s.hangUp)
    else
      match h.serve fuel r.fromSequence r.toSequence with
      | none => none
      | some messages =>
        let header : RecoveryResponseHeader := ⟨kRecoveryMagic,messages.length⟩
        match writeExact t.sendHeader kResponseHeaderBytes with
        | none => none
        | some false => some ({},s.hangUp)
        | some true =>
          if messages.length = 0 then some ({header := some header},s.served 0)
          else
            match writeExact t.sendPayload (messages.length*kMessageBytes) with
            | none => none
            | some false => some ({header := some header},s.hangUp)
            | some true =>
              some ({header := some header, payload := some messages},s.served messages.length)

/-- The client once its request is out: header first, then the payload. -/
def readReply (t : Transfers) (reply : Reply) (s : Session) :
    Option (Except RequestError (List MarketMessage) × Session) :=
  match reply.header with
  | none => some (.error .header,s.close)
  | some header =>
    match readExact t.recvHeader kResponseHeaderBytes with
    | none => none
    | some false => some (.error .header,s.close)
    | some true =>
      if header.magic ≠ kRecoveryMagic ∨ kMaxRecoveryBatch.toNat < header.count then
        some (.error .malformed,s.close)
      else if header.count = 0 then some (.ok [],s)
      else
        match reply.payload with
        | none => some (.error .payload,s.close)
        | some messages =>
          match readExact t.recvPayload (header.count*kMessageBytes) with
          | none => none
          | some false => some (.error .payload,s.close)
          | some true => some (.ok messages,s)

/-- A server that has left its loop answers nothing. -/
def answer (h : HistoryStore cap) (fuel : Nat) (t : Transfers) (r : RecoveryRequest) (s : Session) :
    Option (Reply × Session) :=
  if s.serving then serveRequest h fuel t r s else some ({},s)

def request (h : HistoryStore cap) (fuel : Nat) (t : Transfers) (s : Session) (first last : UInt64) :
    Option (Except RequestError (List MarketMessage) × Session) :=
  if s.connected = false then some (.error .notConnected,s)
  else if last < first then some (.error .invalidRange,s)
  else
    match writeExact t.sendRequest kRequestBytes with
    | none => none
    | some false => some (.error .send,s.close)
    | some true =>
      match answer h fuel t ⟨kRecoveryMagic,0,first,last⟩ s with
      | none => none
      | some (reply,s) => readReply t reply s

/-- A request with what precedes it: the server's flag at the head of its loop, the
number of receive timeouts while it waits, the history as it is then, and the
rounds, socket calls and clock readings of the request. -/
structure Visit (cap : Capacity) where
  running : Bool := true
  idle : Nat := 0
  history : HistoryStore cap
  fuel : Nat
  transfers : UInt64 → UInt64 → Transfers
  arrived : UInt64 := 0
  stored : Nat → UInt64 := fun _ => 0

namespace Visit

def request (v : Visit cap) (s : Session) (first last : UInt64) :
    Option (Except RequestError (List MarketMessage) × Session) :=
  Llte.request v.history v.fuel (v.transfers first last) ((s.enter v.running).wait v.idle) first last

/-- The server is not stopped, the copy loop is followed past the range, and every
frame of the request arrives whole: no send fails on either side, and within the request
no receive times out or fails, neither the server's nor the client's. -/
structure Lossless (v : Visit cap) (first last : UInt64) : Prop where
  running : v.running = true
  enough : last.toNat - first.toNat + 2 ≤ v.fuel
  sendRequest : Delivers (v.transfers first last).sendRequest kRequestBytes
  recvRequest : Delivers (v.transfers first last).recvRequest kRequestBytes
  sendHeader : Delivers (v.transfers first last).sendHeader kResponseHeaderBytes
  recvHeader : Delivers (v.transfers first last).recvHeader kResponseHeaderBytes
  payload : ∀ messages, v.history.serve v.fuel first last = some messages →
    Delivers (v.transfers first last).sendPayload (messages.length*kMessageBytes) ∧
      Delivers (v.transfers first last).recvPayload (messages.length*kMessageBytes)

end Visit

def runSession : List (Visit cap × UInt64 × UInt64) → Session → Option Session
  | [],s => some s
  | (v,first,last)::rest,s =>
    match v.request s first last with
    | none => none
    | some (_,s') => runSession rest s'

def Session.Up (s : Session) : Prop := s.serving = true ∧ s.connected = true

theorem Session.wait_serving (n : Nat) (s : Session) :
    (s.wait n).serving = true ↔ s.serving = true ∧ n = 0 := by
  induction n generalizing s with
  | zero => simp [wait]
  | succ n ih =>
    rw [wait,ih]
    simp [expire,readExact,moveExact,kRequestBytes,hangUp]

theorem Session.enter_serving {running : Bool} {s : Session} (entered : (s.enter running).serving = true) :
    s.serving = true := by
  cases running with
  | true => exact entered
  | false => simp [enter,hangUp] at entered

namespace Visit
variable {v : Visit cap} {s s' : Session} {first last : UInt64}

theorem request_up (lossless : v.Lossless first last) (up : s.Up) (quiet : v.idle = 0)
    (ordered : first ≤ last) : v.request s first last =
      (v.history.serve v.fuel first last).map
        (fun messages => (.ok messages,s.served messages.length)) := by
  have same : (s.enter v.running).wait v.idle = s := by
    rw [lossless.running,quiet]
    rfl
  have accepted : ¬ (kRecoveryMagic ≠ kRecoveryMagic ∨ last < first) := by
    rintro (other | less)
    · exact other rfl
    · exact UInt64.not_lt.mpr ordered less
  rw [request,same,Llte.request,if_neg (by simp [up.2]),if_neg (UInt64.not_lt.mpr ordered),writeExact,
    moveExact_delivers lossless.sendRequest]
  dsimp only
  rw [answer,if_pos up.1,serveRequest,readExact,moveExact_delivers lossless.recvRequest]
  dsimp only
  rw [if_neg accepted]
  cases served : v.history.serve v.fuel first last with
  | none => rfl
  | some messages =>
    have batch := v.history.serve_length served
    obtain ⟨sent,received⟩ := lossless.payload messages served
    have formed : ¬ (kRecoveryMagic ≠ kRecoveryMagic ∨ kMaxRecoveryBatch.toNat < messages.length) := by
      rintro (other | more)
      · exact other rfl
      · omega
    dsimp only
    rw [writeExact,moveExact_delivers lossless.sendHeader]
    dsimp only
    by_cases none : messages.length = 0
    · obtain rfl := List.length_eq_zero_iff.mp none
      rw [if_pos none]
      simp [readReply,readExact,moveExact_delivers lossless.recvHeader]
    · rw [if_neg none,writeExact,moveExact_delivers sent]
      simp only [readReply,readExact,moveExact_delivers lossless.recvHeader,if_neg formed,if_neg none,
        moveExact_delivers received,Option.map_some]

/-- Once the server has left its loop, no request succeeds and nothing brings it back. -/
theorem request_gone {result : Except RequestError (List MarketMessage)}
    (gone : ¬ ((s.enter v.running).wait v.idle).serving = true)
    (asked : v.request s first last = some (result,s')) :
    (∀ messages, result ≠ .ok messages) ∧ s'.serving = false := by
  rw [request] at asked
  generalize (s.enter v.running).wait v.idle = w at gone asked
  rw [Bool.not_eq_true] at gone
  rw [Llte.request] at asked
  split at asked
  next =>
    simp only [Option.some.injEq,Prod.mk.injEq] at asked
    obtain ⟨rfl,rfl⟩ := asked
    exact ⟨by simp,gone⟩
  next =>
    split at asked
    next =>
      simp only [Option.some.injEq,Prod.mk.injEq] at asked
      obtain ⟨rfl,rfl⟩ := asked
      exact ⟨by simp,gone⟩
    next =>
      split at asked
      next => simp at asked
      next =>
        simp only [Option.some.injEq,Prod.mk.injEq] at asked
        obtain ⟨rfl,rfl⟩ := asked
        exact ⟨by simp,rfl⟩
      next =>
        rw [answer,if_neg (by simp [gone])] at asked
        simp only [readReply,Option.some.injEq,Prod.mk.injEq] at asked
        obtain ⟨rfl,rfl⟩ := asked
        exact ⟨by simp,rfl⟩

private theorem request_keeps_up (lossless : v.Lossless first last) (up : s.Up) (quiet : v.idle = 0)
    {result : Except RequestError (List MarketMessage)}
    (asked : v.request s first last = some (result,s')) : s'.Up := by
  by_cases ordered : first ≤ last
  · rw [request_up lossless up quiet ordered,Option.map_eq_some_iff] at asked
    obtain ⟨messages,_,same⟩ := asked
    rw [Prod.mk.injEq] at same
    rw [← same.2]
    exact up
  · have same : (s.enter v.running).wait v.idle = s := by
      rw [lossless.running,quiet]
      rfl
    rw [request,same,Llte.request,if_neg (by simp [up.2]),if_pos (UInt64.not_le.mp ordered)] at asked
    simp only [Option.some.injEq,Prod.mk.injEq] at asked
    rw [← asked.2]
    exact up

end Visit

/-- Over a whole session of lossless requests, the server is there at the end exactly
when no timeout fired. -/
theorem runSession_up_iff (visits : List (Visit cap × UInt64 × UInt64)) {s s' : Session}
    (lossless : ∀ visit ∈ visits, visit.1.Lossless visit.2.1 visit.2.2)
    (ran : runSession visits s = some s') (connected : s.serving = true → s.connected = true) :
    (s'.serving = true → s'.connected = true) ∧
      (s'.serving = true ↔ s.serving = true ∧ ∀ visit ∈ visits, visit.1.idle = 0) := by
  induction visits generalizing s with
  | nil =>
    simp only [runSession,Option.some.injEq] at ran
    subst ran
    exact ⟨connected,by simp⟩
  | cons visit rest ih =>
    obtain ⟨v,first,last⟩ := visit
    have here := lossless _ (List.mem_cons_self ..)
    have later := fun visit member => lossless visit (List.mem_cons_of_mem _ member)
    rw [runSession] at ran
    split at ran
    next => simp at ran
    next result s₁ asked =>
      by_cases serving : ((s.enter v.running).wait v.idle).serving = true
      · obtain ⟨entered,quiet⟩ := (Session.wait_serving _ _).mp serving
        have begun := Session.enter_serving entered
        have up := Visit.request_keeps_up here ⟨begun,connected begun⟩ quiet asked
        obtain ⟨still,iff⟩ := ih later ran (fun _ => up.2)
        refine ⟨still,iff.trans ?_⟩
        simp [up.1,begun,quiet]
      · obtain ⟨_,down⟩ := Visit.request_gone serving asked
        obtain ⟨still,iff⟩ := ih later ran (by simp [down])
        refine ⟨still,iff.trans ?_⟩
        rw [Session.wait_serving,here.running] at serving
        simp only [down,Bool.false_eq_true,false_and,false_iff,List.forall_mem_cons]
        exact fun both => serving ⟨both.1,both.2.1⟩

end Protocol
end Llte
