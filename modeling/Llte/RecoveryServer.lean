import Llte.Foundation.Machine
import Llte.RecoveryPairing

/-! The recovery server as a whole: its thread accepts one client after the other while
the exchange appends to the history and calls `start` and `stop`. A client may send any
bytes at all and may stop reading at any moment. -/
namespace Llte
open Foundation

/-- Where the server's thread is; `serving` is inside `serve_connection`. -/
inductive ServerThread where
  | absent
  | top
  | accepting
  | serving
  | ended
  deriving DecidableEq

/-- Where `stop` is after it has reset the flag. -/
inductive Stopping where
  | idle
  | joining
  | closing
  deriving DecidableEq

/-- What `accept` returns; `again` is the timeout or an interrupt. -/
inductive AcceptOutcome where
  | client
  | again
  | error

/-- One connection with the bytes that went through it. -/
structure ClientLog where
  connection : ServedConnection
  received : List UInt8 := []
  sent : List UInt8 := []

/-- The counters go on from one connection to the next. `published` is what was appended. -/
structure RecoveryServer (cap : Capacity) where
  history : HistoryStore cap
  locked : Bool := false
  running : Bool := false
  listening : Bool := false
  thread : ServerThread := .absent
  stopping : Stopping := .idle
  current : ClientLog := {connection := {serving := false}}
  earlier : List ClientLog := []
  published : List MarketMessage := []

inductive ServerMove where
  | start (ok : Bool)
  | stop
  | join
  | closeListen
  | loadRunning
  | accept (outcome : AcceptOutcome)
  | enter
  | transfer (arriving : List UInt8) (outcome : Outcome)
  | lock
  | fetch (fuel : Nat) (padding : Nat → UInt32)
  | close
  | append (message : MarketMessage)

namespace RecoveryServer
variable {cap : Capacity}

def create (cap : Capacity) : RecoveryServer cap where
  history := HistoryStore.create cap

def accept (s : RecoveryServer cap) : AcceptOutcome → RecoveryServer cap
  | .client =>
    {s with
      thread := .serving
      current := {connection := {
        servedRequests := s.current.connection.servedRequests
        servedMessages := s.current.connection.servedMessages}}}
  | .again => {s with thread := .top}
  | .error => {s with thread := .ended}

/-- One call of `recv` or `send`. -/
def transfer (s : RecoveryServer cap) (arriving : List UInt8) (outcome : Outcome) : Option (RecoveryServer cap) :=
  let left := {s with current := {s.current with connection := s.current.connection.leave}}
  match s.current.connection.phase with
  | .readingRequest got =>
    (readTurn kRequestBytes got arriving outcome).map (Turn.then left fun got' _ =>
      {s with current := {s.current with
        connection := s.current.connection.gotRequest got'
        received := s.current.received ++ got'.drop got.length}})
  | .sendingHeader found rest payload =>
    (writeTurn s.current.sent rest outcome).map (Turn.then left fun sent rest =>
      {s with current := {s.current with connection := s.current.connection.sentHeader found rest payload, sent := sent}})
  | .sendingPayload found rest =>
    (writeTurn s.current.sent rest outcome).map (Turn.then left fun sent rest =>
      {s with current := {s.current with connection := s.current.connection.sentPayload found rest, sent := sent}})
  | _ => none

/-- The copy loop runs with the history locked. -/
def fetch (s : RecoveryServer cap) (fuel : Nat) (padding : Nat → UInt32) : Option (RecoveryServer cap) :=
  match s.current.connection.phase with
  | .fetching first last =>
    match s.history.serve fuel first last with
    | none => none
    | some messages =>
      some {s with
        locked := false
        current := {s.current with connection := s.current.connection.reply first last padding messages}}
  | _ => none

def fetching : ServerPhase → Bool
  | .fetching _ _ => true
  | _ => false

def move (s : RecoveryServer cap) : ServerMove → Option (RecoveryServer cap)
  | .start ok =>
    -- a start that fails closes the socket it has opened
    if s.thread = .absent ∧ s.stopping = .idle then
      some (if ok then {s with listening := true, running := true, thread := .top} else s)
    else none
  | .stop =>
    if s.stopping = .idle then some (if s.running then {s with running := false, stopping := .joining} else s)
    else none
  | .join =>
    if s.stopping = .joining ∧ s.thread = .ended then some {s with thread := .absent, stopping := .closing} else none
  | .closeListen => if s.stopping = .closing then some {s with listening := false, stopping := .idle} else none
  | .loadRunning =>
    if s.thread = .top then some {s with thread := if s.running then .accepting else .ended} else none
  | .accept outcome => if s.thread = .accepting then some (s.accept outcome) else none
  | .enter =>
    if s.thread = .serving ∧ s.current.connection.serving ∧ s.current.connection.phase = .head then
      some {s with current := {s.current with connection := s.current.connection.enter s.running}}
    else none
  | .transfer arriving outcome =>
    if s.thread = .serving ∧ s.current.connection.serving then s.transfer arriving outcome else none
  | .lock =>
    if s.thread = .serving ∧ s.current.connection.serving ∧ fetching s.current.connection.phase ∧ ¬s.locked then
      some {s with locked := true}
    else none
  | .fetch fuel padding => if s.locked then s.fetch fuel padding else none
  | .close =>
    if s.thread = .serving ∧ ¬s.current.connection.serving then
      some {s with thread := .top, earlier := s.earlier ++ [s.current]}
    else none
  | .append message =>
    if s.locked then none
    else some {s with history := s.history.append message, published := s.published ++ [message]}

/-- All connections so far. -/
def logs (s : RecoveryServer cap) : List ClientLog :=
  s.earlier ++ if s.thread = .serving then [s.current] else []

end RecoveryServer

namespace HistoryStore
variable {cap : Capacity} {h : HistoryStore cap}

/-- Also where the loop's counter wraps, it only copies what was appended. -/
theorem fetchLoop_published {start : Nat} {log : List MarketMessage} (retains : Retains h start log)
    (used : h.empty = false) {last : UInt64} {limit fuel : Nat} {sequence : UInt64} {out messages : List MarketMessage}
    (ended : fetchLoop h last limit fuel sequence out = some messages) (before : ∀ message ∈ out, message ∈ log) :
    ∀ message ∈ messages, message ∈ log := by
  induction fuel generalizing sequence out with
  | zero => simp [fetchLoop] at ended
  | succ fuel ih =>
    rw [fetchLoop] at ended
    split at ended
    next =>
      split at ended
      next => exact ih ended before
      next held =>
        refine ih ended ?_
        intro message member
        rcases List.mem_append.mp member with old | new
        · exact before message old
        · rw [not_or,UInt64.not_lt,UInt64.not_lt,UInt64.le_iff_toNat_le,UInt64.le_iff_toNat_le] at held
          rw [List.mem_singleton.mp new]
          exact (retains.get used held.1 held.2).1
    next =>
      cases ended
      exact before

theorem serve_published {start : Nat} {log : List MarketMessage} (retains : Retains h start log) {fuel : Nat}
    {first last : UInt64} {messages : List MarketMessage} (served : h.serve fuel first last = some messages) :
    ∀ message ∈ messages, message ∈ log := by
  unfold serve fetch at served
  dsimp only at served
  split at served
  next =>
    cases served
    simp
  next used => exact fetchLoop_published retains (by simpa using used) served (by simp)

theorem serve_numbers {start : Nat} {log : List MarketMessage} (retains : Retains h start log) {fuel : Nat}
    {first last : UInt64} {messages : List MarketMessage} (served : h.serve fuel first last = some messages)
    (room : last.toNat+1 < 2^64) : ∀ message ∈ messages,
      first.toNat ≤ message.sequenceNumber.toNat ∧ message.sequenceNumber.toNat ≤ last.toNat := by
  intro message member
  obtain ⟨messages',ends⟩ := serve_ends h first room
  have one := serve_mono h served (Nat.le_max_left fuel (last.toNat - first.toNat + 2))
  have other := serve_mono h ends (Nat.le_max_right fuel (last.toNat - first.toNat + 2))
  rw [one,Option.some.injEq] at other
  rw [← other] at ends
  exact (serve_genuine retains room ends member).2

end HistoryStore

/-- The block is a request that the server answers. -/
structure IsRequest (block : List UInt8) (first last : UInt64) : Prop where
  length : block.length = kRequestBytes
  magic : (RecoveryRequest.ofBytes block).magic = kRecoveryMagic
  fromSequence : (RecoveryRequest.ofBytes block).fromSequence = first
  toSequence : (RecoveryRequest.ofBytes block).toSequence = last
  ordered : first ≤ last

/-- The bytes are one request after the other. -/
inductive Asked : List Fetched → List UInt8 → Prop where
  | none : Asked [] []
  | next {fetched : List Fetched} {bytes block : List UInt8} {first last : UInt64} (before : Asked fetched bytes)
      (request : IsRequest block first last) (messages : List MarketMessage) :
      Asked (fetched ++ [(first,last,messages)]) (bytes ++ block)

/-- The bytes are one answer after the other. -/
inductive Answers : List Fetched → List UInt8 → Prop where
  | none : Answers [] []
  | next {fetched : List Fetched} {bytes : List UInt8} (before : Answers fetched bytes) (first last : UInt64)
      (messages : List MarketMessage) (padding : Nat → UInt32) :
      Answers (fetched ++ [(first,last,messages)])
        (bytes ++ (headerBytes messages.length ++ messagesBytes padding messages))

/-- An answer is under way. -/
def ServerPhase.sending : ServerPhase → Bool
  | .sendingHeader _ _ _ => true
  | .sendingPayload _ _ => true
  | _ => false

/-- The requests whose answers went out completely. -/
def ServedConnection.answered (v : ServedConnection) : List Fetched :=
  if v.phase.sending then v.fetched.dropLast else v.fetched

namespace ClientLog
variable {log : ClientLog}

/-- Only requests are answered, each with one answer, in their order. The last answer may
have been cut off, and the last block read may be no request. -/
structure Proper (log : ClientLog) : Prop where
  asked : ∃ bytes, Asked log.connection.fetched bytes ∧ bytes <+: log.received ∧
    log.received.length ≤ bytes.length+kRequestBytes
  sent : ∃ stream, Answers log.connection.fetched stream ∧ log.sent <+: stream
  answered : ∃ stream, Answers log.connection.answered stream ∧ stream <+: log.sent

/-- While the connection is served its phase says what the bytes are. -/
def Stands (log : ClientLog) : ServerPhase → Prop
  | .head => Asked log.connection.fetched log.received ∧ Answers log.connection.fetched log.sent
  | .readingRequest got => got.length < kRequestBytes ∧ Answers log.connection.fetched log.sent ∧
      ∃ bytes, Asked log.connection.fetched bytes ∧ log.received = bytes ++ got
  | .fetching first last => Answers log.connection.fetched log.sent ∧
      ∃ bytes block, Asked log.connection.fetched bytes ∧ IsRequest block first last ∧ log.received = bytes ++ block
  | .sendingHeader found rest payload => Asked log.connection.fetched log.received ∧ rest ≠ [] ∧
      ∃ before first last messages padding stream, log.connection.fetched = before ++ [(first,last,messages)] ∧
        found = messages.length ∧ payload = messagesBytes padding messages ∧ Answers before stream ∧
        log.sent ++ rest = stream ++ headerBytes found ∧ stream <+: log.sent
  | .sendingPayload found rest => Asked log.connection.fetched log.received ∧ rest ≠ [] ∧
      ∃ before first last messages padding stream, log.connection.fetched = before ++ [(first,last,messages)] ∧
        found = messages.length ∧ Answers before stream ∧
        log.sent ++ rest = stream ++ (headerBytes found ++ messagesBytes padding messages) ∧ stream <+: log.sent

theorem Stands.proper (stands : log.Stands log.connection.phase) : log.Proper := by
  cases here : log.connection.phase with
  | head =>
    rw [here] at stands
    obtain ⟨asked,answers⟩ := stands
    refine ⟨⟨_,asked,List.prefix_refl _,Nat.le_add_right _ _⟩,⟨_,answers,List.prefix_refl _⟩,_,?_,List.prefix_refl _⟩
    simpa [ServedConnection.answered,here,ServerPhase.sending] using answers
  | readingRequest got =>
    rw [here] at stands
    obtain ⟨short,answers,bytes,asked,read⟩ := stands
    refine ⟨⟨bytes,asked,by rw [read]; exact List.prefix_append _ _,?_⟩,⟨_,answers,List.prefix_refl _⟩,_,?_,
      List.prefix_refl _⟩
    · rw [read,List.length_append]
      omega
    · simpa [ServedConnection.answered,here,ServerPhase.sending] using answers
  | fetching first last =>
    rw [here] at stands
    obtain ⟨answers,bytes,block,asked,request,read⟩ := stands
    refine ⟨⟨bytes,asked,by rw [read]; exact List.prefix_append _ _,?_⟩,⟨_,answers,List.prefix_refl _⟩,_,?_,
      List.prefix_refl _⟩
    · rw [read,List.length_append,request.length]
    · simpa [ServedConnection.answered,here,ServerPhase.sending] using answers
  | sendingHeader found rest payload =>
    rw [here] at stands
    obtain ⟨asked,_,before,first,last,messages,padding,stream,fetched,rfl,rfl,answers,whole,sent⟩ := stands
    refine ⟨⟨_,asked,List.prefix_refl _,Nat.le_add_right _ _⟩,?_,stream,?_,sent⟩
    · rw [fetched]
      refine ⟨_,answers.next first last messages padding,rest ++ messagesBytes padding messages,?_⟩
      rw [← List.append_assoc,whole,List.append_assoc]
    · simpa [ServedConnection.answered,here,ServerPhase.sending,fetched] using answers
  | sendingPayload found rest =>
    rw [here] at stands
    obtain ⟨asked,_,before,first,last,messages,padding,stream,fetched,rfl,answers,whole,sent⟩ := stands
    refine ⟨⟨_,asked,List.prefix_refl _,Nat.le_add_right _ _⟩,?_,stream,?_,sent⟩
    · rw [fetched]
      exact ⟨_,answers.next first last messages padding,rest,whole⟩
    · simpa [ServedConnection.answered,here,ServerPhase.sending,fetched] using answers

/-- Leaving `serve_connection` changes none of the bytes. -/
theorem Proper.leave (proper : log.Proper) : ({log with connection := log.connection.leave} : ClientLog).Proper :=
  ⟨proper.asked,proper.sent,proper.answered⟩

end ClientLog

/-- The counters count the answers that went out completely. -/
inductive Counts (v v' : ServedConnection) : Prop where
  | same (answered : v'.answered = v.answered) (requests : v'.servedRequests = v.servedRequests)
      (messages : v'.servedMessages = v.servedMessages)
  | one (entry : Fetched) (answered : v'.answered = v.answered ++ [entry])
      (requests : v'.servedRequests = v.servedRequests+1)
      (messages : v'.servedMessages = v.servedMessages+UInt64.ofNat entry.2.2.length)

theorem writeTurn_grows {wire rest wire' rest' : List UInt8} {outcome : Outcome}
    (turned : writeTurn wire rest outcome = some (.on wire' rest')) : wire <+: wire' := by
  cases outcome with
  | interrupted =>
    simp only [writeTurn,Option.some.injEq,Turn.on.injEq] at turned
    rw [turned.1]
  | failed => simp [writeTurn] at turned
  | moved count =>
    rw [writeTurn] at turned
    split at turned
    next => simp at turned
    next =>
      split at turned
      next =>
        simp only [Option.some.injEq,Turn.on.injEq] at turned
        rw [← turned.1]
        exact List.prefix_append _ _
      next => simp at turned

theorem readTurn_grows {length : Nat} {got wire got' wire' : List UInt8} {outcome : Outcome}
    (turned : readTurn length got wire outcome = some (.on got' wire')) : got <+: got' := by
  cases outcome with
  | interrupted =>
    simp only [readTurn,Option.some.injEq,Turn.on.injEq] at turned
    rw [turned.1]
  | failed => simp [readTurn] at turned
  | moved count =>
    rw [readTurn] at turned
    split at turned
    next => simp at turned
    next =>
      split at turned
      next =>
        simp only [Option.some.injEq,Turn.on.injEq] at turned
        rw [← turned.1]
        exact List.prefix_append _ _
      next => simp at turned

namespace ClientLog
variable {log : ClientLog}

/-- A step of `serve_connection`, seen from outside. -/
structure Continues (log log' : ClientLog) : Prop where
  proper : log'.Proper
  stands : log'.connection.serving = true → log'.Stands log'.connection.phase
  counts : Counts log.connection log'.connection

theorem Continues.leaves (proper : log.Proper) : log.Continues {log with connection := log.connection.leave} :=
  ⟨proper.leave,by simp [ServedConnection.leave],.same rfl rfl rfl⟩

theorem Continues.on (log' : ClientLog) (stands : log'.Stands log'.connection.phase)
    (counts : Counts log.connection log'.connection) : log.Continues log' :=
  ⟨stands.proper,fun _ => stands,counts⟩

theorem enter_continues (stands : log.Stands .head) (here : log.connection.phase = .head) (running : Bool) :
    log.Continues {log with connection := log.connection.enter running} := by
  have proper : log.Proper := Stands.proper (here ▸ stands)
  cases running with
  | false => exact .leaves proper
  | true =>
    refine .on {log with connection := log.connection.enter true} ?_ (.same ?_ rfl rfl)
    · exact ⟨by decide,stands.2,log.received,stands.1,(List.append_nil _).symm⟩
    · simp [ServedConnection.answered,ServedConnection.enter,here,ServerPhase.sending]

theorem gotRequest_continues {got got' : List UInt8} (stands : log.Stands (.readingRequest got))
    (here : log.connection.phase = .readingRequest got) (grown : got <+: got')
    (most : got'.length ≤ kRequestBytes) : log.Continues {log with
      connection := log.connection.gotRequest got'
      received := log.received ++ got'.drop got.length} := by
  obtain ⟨short,answers,bytes,asked,read⟩ := stands
  have received : log.received ++ got'.drop got.length = bytes ++ got' := by
    obtain ⟨more,rfl⟩ := grown
    rw [read,List.drop_left,List.append_assoc]
  rw [received]
  have old : log.connection.answered = log.connection.fetched := by
    simp [ServedConnection.answered,here,ServerPhase.sending]
  unfold ServedConnection.gotRequest
  split
  next more =>
    refine .on {log with
      connection := {log.connection with phase := .readingRequest got'}
      received := bytes ++ got'} ⟨more,answers,bytes,asked,rfl⟩ (.same ?_ rfl rfl)
    rw [old]
    rfl
  next whole =>
    have length : got'.length = kRequestBytes := by omega
    dsimp only
    split
    next rejected =>
      refine ⟨⟨⟨bytes,asked,List.prefix_append _ _,?_⟩,⟨_,answers,List.prefix_refl _⟩,_,?_,List.prefix_refl _⟩,
        by simp [ServedConnection.leave],.same rfl rfl rfl⟩
      · rw [List.length_append,length]
      · exact old ▸ answers
    next valid =>
      rw [not_or,not_not,UInt64.not_lt] at valid
      refine .on {log with
        connection := {log.connection with
          phase := .fetching (RecoveryRequest.ofBytes got').fromSequence (RecoveryRequest.ofBytes got').toSequence}
        received := bytes ++ got'} ⟨answers,bytes,got',asked,⟨length,valid.1,rfl,rfl,valid.2⟩,rfl⟩ (.same ?_ rfl rfl)
      rw [old]
      rfl

theorem reply_continues {first last : UInt64} (stands : log.Stands (.fetching first last))
    (here : log.connection.phase = .fetching first last) (padding : Nat → UInt32) (messages : List MarketMessage) :
    log.Continues {log with connection := log.connection.reply first last padding messages} := by
  obtain ⟨answers,bytes,block,asked,request,read⟩ := stands
  refine .on {log with connection := log.connection.reply first last padding messages} ?_ (.same ?_ rfl rfl)
  · refine ⟨?_,?_,log.connection.fetched,first,last,messages,padding,log.sent,rfl,rfl,rfl,answers,rfl,
      List.prefix_refl _⟩
    · change Asked (log.connection.fetched ++ [(first,last,messages)]) log.received
      rw [read]
      exact asked.next request messages
    · rw [← List.length_pos_iff,RecoveryResponseHeader.bytes_length]
      decide
  · simp [ServedConnection.answered,ServedConnection.reply,here,ServerPhase.sending]

/-- The last byte of an answer is out. -/
theorem served_continues (padding : Nat → UInt32) {before : List Fetched} {first last : UInt64}
    {messages : List MarketMessage} {stream sent : List UInt8} (asked : Asked log.connection.fetched log.received)
    (fetched : log.connection.fetched = before ++ [(first,last,messages)]) (answers : Answers before stream)
    (whole : sent = stream ++ (headerBytes messages.length ++ messagesBytes padding messages))
    (old : log.connection.answered = before) :
    log.Continues {log with connection := log.connection.served messages.length, sent := sent} := by
  refine .on {log with connection := log.connection.served messages.length, sent := sent}
    ⟨asked,?_⟩ (.one (first,last,messages) ?_ rfl rfl)
  · change Answers log.connection.fetched sent
    rw [fetched,whole]
    exact answers.next first last messages padding
  · rw [old,← fetched]
    rfl

theorem sentHeader_continues {found : Nat} {rest rest' payload sent : List UInt8}
    (stands : log.Stands (.sendingHeader found rest payload))
    (here : log.connection.phase = .sendingHeader found rest payload) (grown : log.sent <+: sent)
    (joined : sent ++ rest' = log.sent ++ rest) : log.Continues {log with
      connection := log.connection.sentHeader found rest' payload
      sent := sent} := by
  obtain ⟨asked,_,before,first,last,messages,padding,stream,fetched,rfl,rfl,answers,whole,front⟩ := stands
  rw [whole] at joined
  have old : log.connection.answered = before := by
    simp [ServedConnection.answered,here,ServerPhase.sending,fetched]
  unfold ServedConnection.sentHeader
  split
  next more =>
    refine .on {log with
      connection := {log.connection with
        phase := .sendingHeader messages.length rest' (messagesBytes padding messages)}
      sent := sent} ⟨asked,more,before,first,last,messages,padding,stream,fetched,rfl,rfl,answers,joined,
        front.trans grown⟩ (.same ?_ rfl rfl)
    rw [old]
    simp [ServedConnection.answered,ServerPhase.sending,fetched]
  next out =>
    rw [not_not.mp out,List.append_nil] at joined
    split
    next some_ =>
      refine .on {log with
        connection := {log.connection with phase := .sendingPayload messages.length (messagesBytes padding messages)}
        sent := sent} ⟨asked,?_,before,first,last,messages,padding,stream,fetched,rfl,answers,?_,
          front.trans grown⟩ (.same ?_ rfl rfl)
      · rw [← List.length_pos_iff,messagesBytes_length]
        exact Nat.mul_pos some_ (by decide)
      · dsimp only
        rw [joined,List.append_assoc]
      · rw [old]
        simp [ServedConnection.answered,ServerPhase.sending,fetched]
    next none =>
      have nothing : messages = [] := List.length_eq_zero_iff.mp (by omega)
      subst nothing
      exact served_continues padding asked fetched answers (by rw [joined]; simp [messagesBytes]) old

theorem sentPayload_continues {found : Nat} {rest rest' sent : List UInt8}
    (stands : log.Stands (.sendingPayload found rest)) (here : log.connection.phase = .sendingPayload found rest)
    (grown : log.sent <+: sent) (joined : sent ++ rest' = log.sent ++ rest) : log.Continues {log with
      connection := log.connection.sentPayload found rest'
      sent := sent} := by
  obtain ⟨asked,_,before,first,last,messages,padding,stream,fetched,rfl,answers,whole,front⟩ := stands
  rw [whole] at joined
  have old : log.connection.answered = before := by
    simp [ServedConnection.answered,here,ServerPhase.sending,fetched]
  unfold ServedConnection.sentPayload
  split
  next more =>
    refine .on {log with
      connection := {log.connection with phase := .sendingPayload messages.length rest'}
      sent := sent} ⟨asked,more,before,first,last,messages,padding,stream,fetched,rfl,answers,joined,
        front.trans grown⟩ (.same ?_ rfl rfl)
    rw [old]
    simp [ServedConnection.answered,ServerPhase.sending,fetched]
  next out =>
    rw [not_not.mp out,List.append_nil] at joined
    exact served_continues padding asked fetched answers joined old

end ClientLog
end Llte
