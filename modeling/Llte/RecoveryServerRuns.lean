import Llte.RecoveryServer

/-! Runs of the recovery server, with any number of clients. -/
namespace Llte
open Foundation

/-- What the server may put into an answer. Only the request for everything up to the
largest number, whose loop wraps, can bring messages from below the range. -/
structure Fetched.OfPublished (published : List MarketMessage) (entry : Fetched) : Prop where
  batch : entry.2.2.length ≤ kMaxRecoveryBatch.toNat
  published : ∀ message ∈ entry.2.2, message ∈ published
  inside : entry.2.1 ≠ 0xffffffffffffffff → ∀ message ∈ entry.2.2,
    entry.1.toNat ≤ message.sequenceNumber.toNat ∧ message.sequenceNumber.toNat ≤ entry.2.1.toNat

theorem Fetched.OfPublished.later {published : List MarketMessage} {entry : Fetched} (genuine : OfPublished published entry)
    (message : MarketMessage) : OfPublished (published ++ [message]) entry :=
  ⟨genuine.batch,fun other member => List.mem_append_left _ (genuine.published other member),genuine.inside⟩

namespace RecoveryServer
variable {cap : Capacity} {s s' : RecoveryServer cap} {start : Nat}

/-- The exchange numbers its messages one by one. -/
def Numbered (start : Nat) (s : RecoveryServer cap) : Prop :=
  Consecutive start s.published ∧ start+s.published.length ≤ 2^63

def answeredRequests (logs : List ClientLog) : Nat := (logs.map fun log => log.connection.answered.length).sum

def answeredMessages (logs : List ClientLog) : Nat :=
  (logs.map fun log => (log.connection.answered.map fun entry => entry.2.2.length).sum).sum

private theorem answeredRequests_concat (logs : List ClientLog) (log : ClientLog) :
    answeredRequests (logs ++ [log]) = answeredRequests logs + log.connection.answered.length := by
  simp [answeredRequests]

private theorem answeredMessages_concat (logs : List ClientLog) (log : ClientLog) : answeredMessages (logs ++ [log]) =
    answeredMessages logs + (log.connection.answered.map fun entry => entry.2.2.length).sum := by
  simp [answeredMessages]

structure Orderly (start : Nat) (s : RecoveryServer cap) : Prop where
  proper : ∀ log ∈ s.logs, log.Proper
  stands : s.thread = .serving → s.current.connection.serving = true → s.current.Stands s.current.connection.phase
  requests : s.current.connection.servedRequests = UInt64.ofNat (answeredRequests s.logs)
  messages : s.current.connection.servedMessages = UInt64.ofNat (answeredMessages s.logs)
  lock : s.locked = true → s.thread = .serving ∧ s.current.connection.serving = true ∧
    fetching s.current.connection.phase = true
  history : s.Numbered start → s.history.Retains start s.published
  genuine : s.Numbered start → ∀ log ∈ s.logs, ∀ entry ∈ log.connection.fetched, Fetched.OfPublished s.published entry

theorem Orderly.create (cap : Capacity) (start : Nat) : Orderly start (create cap) where
  proper := by simp [RecoveryServer.create,logs]
  stands := by simp [RecoveryServer.create]
  requests := rfl
  messages := rfl
  lock := by simp [RecoveryServer.create]
  history := fun _ => HistoryStore.Retains.create cap start
  genuine := by simp [RecoveryServer.create,logs]

private theorem logs_serving (serving : s.thread = .serving) : s.logs = s.earlier ++ [s.current] := by
  rw [logs,if_pos serving]

theorem logs_outside (outside : s.thread ≠ .serving) : s.logs = s.earlier := by
  rw [logs,if_neg outside,List.append_nil]

/-- A move outside of `serve_connection`. -/
theorem Orderly.control (orderly : Orderly start s) (outside : s.thread ≠ .serving) (outside' : s'.thread ≠ .serving)
    (current : s'.current = s.current) (earlier : s'.earlier = s.earlier) (history : s'.history = s.history)
    (published : s'.published = s.published) (locked : s'.locked = s.locked) : Orderly start s' := by
  have same : s'.logs = s.logs := by rw [logs_outside outside,logs_outside outside',earlier]
  refine ⟨?_,fun inside => absurd inside outside',?_,?_,?_,?_,?_⟩
  · rw [same]
    exact orderly.proper
  · rw [same,current]
    exact orderly.requests
  · rw [same,current]
    exact orderly.messages
  · rw [locked]
    exact fun held => absurd (orderly.lock held).1 outside
  · rw [Numbered,history,published]
    exact orderly.history
  · rw [Numbered,same,published]
    exact orderly.genuine

theorem Orderly.client (orderly : Orderly start s) (outside : s.thread ≠ .serving) :
    Orderly start (s.accept .client) := by
  have same : (s.accept .client).logs = s.logs ++ [{connection := {
      servedRequests := s.current.connection.servedRequests
      servedMessages := s.current.connection.servedMessages}}] := by
    rw [logs_outside outside,logs_serving rfl]
    rfl
  have fresh : (ClientLog.mk {
      servedRequests := s.current.connection.servedRequests
      servedMessages := s.current.connection.servedMessages} [] []).Stands .head := ⟨.none,.none⟩
  refine ⟨?_,fun _ _ => fresh,?_,?_,?_,orderly.history,?_⟩
  · rw [same]
    intro log member
    rcases List.mem_append.mp member with old | new
    · exact orderly.proper log old
    · rw [List.mem_singleton.mp new]
      exact ClientLog.Stands.proper fresh
  · rw [same,answeredRequests_concat]
    exact orderly.requests
  · rw [same,answeredMessages_concat]
    exact orderly.messages
  · intro held
    exact absurd (orderly.lock held).1 outside
  · rw [same]
    intro numbered log member entry inside
    rcases List.mem_append.mp member with old | new
    · exact orderly.genuine numbered log old entry inside
    · rw [List.mem_singleton.mp new] at inside
      simp at inside

/-- A step of `serve_connection`. -/
theorem Orderly.continues (orderly : Orderly start s) (serving : s.thread = .serving) {log : ClientLog}
    (continues : s.current.Continues log)
    (fetched : s.Numbered start → ∀ entry ∈ log.connection.fetched, Fetched.OfPublished s.published entry) :
    Orderly start {s with current := log, locked := false} := by
  have old := logs_serving serving
  have new : ({s with current := log, locked := false} : RecoveryServer cap).logs = s.earlier ++ [log] :=
    logs_serving serving
  have requests := orderly.requests
  have messages := orderly.messages
  have proper := orderly.proper
  have genuine := orderly.genuine
  rw [old] at requests messages proper genuine
  rw [answeredRequests_concat] at requests
  rw [answeredMessages_concat] at messages
  refine ⟨?_,fun _ => continues.stands,?_,?_,by simp,orderly.history,?_⟩
  · rw [new]
    intro other member
    rcases List.mem_append.mp member with before | last
    · exact proper other (List.mem_append_left _ before)
    · rw [List.mem_singleton.mp last]
      exact continues.proper
  · rw [new,answeredRequests_concat]
    cases continues.counts with
    | same answered counted _ => rw [counted,requests,answered]
    | one entry answered counted _ =>
      rw [counted,requests,answered,List.length_append,List.length_singleton,← Nat.add_assoc,UInt64.ofNat_add _ 1]
      rfl
  · rw [new,answeredMessages_concat]
    cases continues.counts with
    | same answered _ counted => rw [counted,messages,answered]
    | one entry answered _ counted =>
      rw [counted,messages,answered,List.map_append,List.sum_append,List.map_singleton,List.sum_singleton,
        ← Nat.add_assoc,← UInt64.ofNat_add]
  · rw [new]
    intro numbered other member entry inside
    rcases List.mem_append.mp member with before | last
    · exact genuine numbered other (List.mem_append_left _ before) entry inside
    · rw [List.mem_singleton.mp last] at inside
      exact fetched numbered entry inside

theorem Numbered.append {message : MarketMessage}
    (numbered : Numbered start {s with
      history := s.history.append message
      published := s.published ++ [message]}) :
    s.Numbered start ∧ message.sequenceNumber.toNat = start+s.published.length ∧ start+s.published.length < 2^63 := by
  obtain ⟨consecutive,small⟩ := numbered
  obtain ⟨before,number,_⟩ := consecutive_append.mp consecutive
  change start+(s.published ++ [message]).length ≤ 2^63 at small
  rw [List.length_append,List.length_singleton] at small
  exact ⟨⟨before,by omega⟩,number,by omega⟩

theorem Orderly.append (orderly : Orderly start s) (message : MarketMessage) (free : s.locked = false) :
    Orderly start {s with history := s.history.append message, published := s.published ++ [message]} := by
  refine ⟨orderly.proper,orderly.stands,orderly.requests,orderly.messages,?_,?_,?_⟩
  · intro held
    change s.locked = true at held
    simp [free] at held
  · intro numbered
    obtain ⟨before,number,room⟩ := numbered.append
    exact (orderly.history before).append number room
  · intro numbered log member entry inside
    exact (orderly.genuine numbered.append.1 log member entry inside).later message

private theorem serve_genuineEntry {fuel : Nat} {first last : UInt64} {messages : List MarketMessage}
    (retains : s.history.Retains start s.published) (served : s.history.serve fuel first last = some messages) :
    Fetched.OfPublished s.published (first,last,messages) := by
  refine ⟨HistoryStore.serve_length _ served,HistoryStore.serve_published retains served,fun other => ?_⟩
  refine HistoryStore.serve_numbers retains served ?_
  have bound := UInt64.toNat_lt last
  have apart : last.toNat ≠ 2^64-1 := fun same => other (UInt64.toNat_inj.mp same)
  change last.toNat+1 < 2^64
  omega

theorem Orderly.fetch (orderly : Orderly start s) (held : s.locked = true) {fuel : Nat} {padding : Nat → UInt32}
    (taken : s.fetch fuel padding = some s') : Orderly start s' := by
  obtain ⟨serving,inside,_⟩ := orderly.lock held
  rw [RecoveryServer.fetch] at taken
  split at taken
  next first last here =>
    split at taken
    next => simp at taken
    next messages served =>
      cases taken
      have stands := orderly.stands serving inside
      rw [here] at stands
      refine orderly.continues serving (ClientLog.reply_continues stands here padding messages) ?_
      intro numbered entry member
      rcases List.mem_append.mp member with old | new
      · exact orderly.genuine numbered s.current (by rw [logs_serving serving]; simp) entry old
      · rw [List.mem_singleton.mp new]
        exact serve_genuineEntry (orderly.history numbered) served
  next => simp at taken

/-- A step of `serve_connection` that does not hold the lock. -/
theorem Orderly.unlocked (orderly : Orderly start s) (serving : s.thread = .serving)
    (other : fetching s.current.connection.phase = false) {log : ClientLog} (continues : s.current.Continues log)
    (same : log.connection.fetched = s.current.connection.fetched) : Orderly start {s with current := log} := by
  have free : s.locked = false := by
    rw [← Bool.not_eq_true]
    intro held
    simp [(orderly.lock held).2.2] at other
  have after := orderly.continues serving continues (fun numbered entry member =>
    orderly.genuine numbered s.current (by rw [logs_serving serving]; simp) entry (same ▸ member))
  rw [← free] at after
  exact after

theorem Orderly.transfer (orderly : Orderly start s) (serving : s.thread = .serving)
    (inside : s.current.connection.serving = true) {arriving : List UInt8} {outcome : Outcome}
    (taken : s.transfer arriving outcome = some s') : Orderly start s' := by
  have stands := orderly.stands serving inside
  have leaves (other : fetching s.current.connection.phase = false) :
      Orderly start {s with current := {s.current with connection := s.current.connection.leave}} :=
    orderly.unlocked serving other (.leaves stands.proper) rfl
  rw [RecoveryServer.transfer] at taken
  dsimp only at taken
  split at taken
  next got here =>
    have other : fetching s.current.connection.phase = false := by rw [here]; rfl
    rw [here] at stands
    rcases Turn.map_then taken with rfl | ⟨got',wire,turned,rfl⟩
    · exact leaves other
    · have most := (readTurn_joins turned).2 (Nat.le_of_lt stands.1)
      exact orderly.unlocked serving other
        (ClientLog.gotRequest_continues stands here (readTurn_grows turned) most) (ServedConnection.fetched_gotRequest _ _)
  next found rest payload here =>
    have other : fetching s.current.connection.phase = false := by rw [here]; rfl
    rw [here] at stands
    rcases Turn.map_then taken with rfl | ⟨sent,rest',turned,rfl⟩
    · exact leaves other
    · exact orderly.unlocked serving other
        (ClientLog.sentHeader_continues stands here (writeTurn_grows turned) (writeTurn_joins turned))
        (ServedConnection.fetched_sentHeader _ _ _ _)
  next found rest here =>
    have other : fetching s.current.connection.phase = false := by rw [here]; rfl
    rw [here] at stands
    rcases Turn.map_then taken with rfl | ⟨sent,rest',turned,rfl⟩
    · exact leaves other
    · exact orderly.unlocked serving other
        (ClientLog.sentPayload_continues stands here (writeTurn_grows turned) (writeTurn_joins turned))
        (ServedConnection.fetched_sentPayload _ _ _)
  next => simp at taken

theorem Orderly.close (orderly : Orderly start s) (serving : s.thread = .serving)
    (done : s.current.connection.serving = false) :
    Orderly start {s with thread := .top, earlier := s.earlier ++ [s.current]} := by
  have same : ({s with thread := .top, earlier := s.earlier ++ [s.current]} : RecoveryServer cap).logs = s.logs := by
    rw [logs_outside (by simp),logs_serving serving]
  refine ⟨?_,by simp,?_,?_,?_,orderly.history,?_⟩
  · rw [same]
    exact orderly.proper
  · rw [same]
    exact orderly.requests
  · rw [same]
    exact orderly.messages
  · intro held
    simp [(orderly.lock held).2.1] at done
  · rw [same]
    exact orderly.genuine

/-- A call of `start` or `stop`, at any moment. -/
theorem Orderly.called (orderly : Orderly start s) (running listening : Bool) (stopping : Stopping) :
    Orderly start {s with running := running, listening := listening, stopping := stopping} :=
  ⟨orderly.proper,orderly.stands,orderly.requests,orderly.messages,orderly.lock,orderly.history,orderly.genuine⟩

theorem move_orderly {m : ServerMove} (orderly : Orderly start s) (taken : s.move m = some s') : Orderly start s' := by
  cases m with
  | start ok =>
    obtain ⟨⟨absent,_⟩,after⟩ := (Option.ite_none_right_eq_some ..).mp taken
    have outside : s.thread ≠ .serving := by simp [absent]
    cases ok with
    | true =>
      cases after
      exact orderly.control outside (by simp) rfl rfl rfl rfl rfl
    | false =>
      cases after
      exact orderly
  | stop =>
    obtain ⟨_,after⟩ := (Option.ite_none_right_eq_some ..).mp taken
    cases after
    split
    next => exact orderly.called false s.listening .joining
    next => exact orderly
  | join =>
    obtain ⟨⟨_,ended⟩,after⟩ := (Option.ite_none_right_eq_some ..).mp taken
    cases after
    exact orderly.control (by simp [ended]) (by simp) rfl rfl rfl rfl rfl
  | closeListen =>
    obtain ⟨_,after⟩ := (Option.ite_none_right_eq_some ..).mp taken
    cases after
    exact orderly.called s.running false .idle
  | loadRunning =>
    obtain ⟨top,after⟩ := (Option.ite_none_right_eq_some ..).mp taken
    cases after
    refine orderly.control (by simp [top]) ?_ rfl rfl rfl rfl rfl
    dsimp only
    split <;> simp
  | accept outcome =>
    obtain ⟨accepting,after⟩ := (Option.ite_none_right_eq_some ..).mp taken
    cases after
    have outside : s.thread ≠ .serving := by simp [accepting]
    cases outcome with
    | client => exact orderly.client outside
    | again => exact orderly.control outside (by simp [accept]) rfl rfl rfl rfl rfl
    | error => exact orderly.control outside (by simp [accept]) rfl rfl rfl rfl rfl
  | enter =>
    obtain ⟨⟨serving,inside,here⟩,after⟩ := (Option.ite_none_right_eq_some ..).mp taken
    cases after
    have stands := orderly.stands serving inside
    rw [here] at stands
    refine orderly.unlocked serving (by rw [here]; rfl) (ClientLog.enter_continues stands here s.running) ?_
    cases s.running <;> rfl
  | transfer arriving outcome =>
    obtain ⟨⟨serving,inside⟩,after⟩ := (Option.ite_none_right_eq_some ..).mp taken
    exact orderly.transfer serving inside after
  | lock =>
    obtain ⟨⟨serving,inside,here,_⟩,after⟩ := (Option.ite_none_right_eq_some ..).mp taken
    cases after
    exact ⟨orderly.proper,orderly.stands,orderly.requests,orderly.messages,fun _ => ⟨serving,inside,here⟩,
      orderly.history,orderly.genuine⟩
  | fetch fuel padding =>
    obtain ⟨held,after⟩ := (Option.ite_none_right_eq_some ..).mp taken
    exact orderly.fetch held after
  | close =>
    obtain ⟨⟨serving,done⟩,after⟩ := (Option.ite_none_right_eq_some ..).mp taken
    cases after
    exact orderly.close serving (by simpa using done)
  | append message =>
    obtain ⟨free,after⟩ := (Option.ite_none_left_eq_some ..).mp taken
    cases after
    exact orderly.append message (by simpa using free)

theorem reached_orderly (start : Nat) (reached : Reached move (create cap) s) : Orderly start s :=
  reached.invariant (Orderly.create cap start) fun _ _ _ orderly taken => move_orderly orderly taken

/-- Whatever the clients send and however the connections end, each of them has got answers
to its requests only, one for each and in their order. The counters tell the answers that
went out completely, and an answer holds what was published, in the range asked for. -/
theorem server_answers_requests (start : Nat) (reached : Reached move (create cap) s) :
    (∀ log ∈ s.logs, log.Proper) ∧
      s.current.connection.servedRequests = UInt64.ofNat (answeredRequests s.logs) ∧
      s.current.connection.servedMessages = UInt64.ofNat (answeredMessages s.logs) ∧
      (s.Numbered start → ∀ log ∈ s.logs, ∀ entry ∈ log.connection.fetched, Fetched.OfPublished s.published entry) := by
  have orderly := reached_orderly start reached
  exact ⟨orderly.proper,orderly.requests,orderly.messages,orderly.genuine⟩

/-- The first client's answer is cut off after its header, the second client sends no request. -/
def twoClients : List ServerMove :=
  [.start true,.append {sequenceNumber := 5},.loadRunning,.accept .client,.enter,.transfer (requestBytes 5 5) (.moved 24),.lock,
    .fetch 4 (fun _ => 0),.transfer [] (.moved 8),.transfer [] .failed,.close,.loadRunning,.accept .client,.enter,
    .transfer (List.replicate 24 7) (.moved 24),.close]

theorem server_answers_requests_two : ∃ s : RecoveryServer SequenceManager.four,
    Reached move (create SequenceManager.four) s ∧ s.logs.length = 2 ∧ (∀ log ∈ s.logs, log.Proper) ∧
      ∀ log ∈ s.logs, ∀ entry ∈ log.connection.fetched, Fetched.OfPublished s.published entry := by
  obtain ⟨s,reached,two,published⟩ := play_finds move (create SequenceManager.four) twoClients
    (fun s => s.logs.length = 2 ∧ s.published = [{sequenceNumber := 5}]) (by decide +kernel)
  have answers := server_answers_requests 5 reached
  refine ⟨s,reached,two,answers.1,answers.2.2.2 ⟨?_,?_⟩⟩
  · rw [published]
    exact ⟨rfl,trivial⟩
  · rw [published]
    decide

end RecoveryServer
end Llte
