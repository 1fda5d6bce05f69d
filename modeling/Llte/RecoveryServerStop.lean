import Llte.RecoveryServerRuns

/-! Stopping the recovery server while a client is connected. `stop` waits for the thread,
which looks at the flag only between two requests and between two clients. -/
namespace Llte
open Foundation

namespace HistoryStore
variable {cap : Capacity} {h : HistoryStore cap}

/-- A number outside of the history is on its way to the oldest one, also around the end. -/
theorem ahead_falls {oldest newest sequence : UInt64} (ordered : oldest ≤ newest)
    (skipped : sequence < oldest ∨ newest < sequence) : (oldest - (sequence+1)).toNat < (oldest - sequence).toNat := by
  rw [UInt64.lt_iff_toNat_lt,UInt64.lt_iff_toNat_lt] at skipped
  rw [UInt64.le_iff_toNat_le] at ordered
  have apart := UInt64.toNat_sub oldest sequence
  have next := UInt64.toNat_sub oldest (sequence+1)
  have one : (sequence+1).toNat = (sequence.toNat+1) % 2^64 := UInt64.toNat_add sequence 1
  have := UInt64.toNat_lt oldest
  have := UInt64.toNat_lt sequence
  omega

/-- A loop that wraps comes back to the oldest message again and again, until its batch is full. -/
theorem fetchLoop_ends (h : HistoryStore cap) (ordered : h.oldestSequence ≤ h.newestSequence) (last : UInt64)
    (limit : Nat) (sequence : UInt64) (out : List MarketMessage) : ∃ messages, fetchLoop h last limit
      ((limit - out.length)*2^64+(h.oldestSequence - sequence).toNat+1) sequence out = some messages := by
  -- on what is missing in the batch, and then on the way to the oldest message
  induction missing : limit - out.length using Nat.strong_induction_on generalizing sequence out with
  | h n fill =>
    induction ahead : (h.oldestSequence - sequence).toNat using Nat.strong_induction_on generalizing sequence with
    | h d walk =>
      by_cases more : sequence ≤ last ∧ out.length < limit
      · by_cases skipped : sequence < h.oldestSequence ∨ h.newestSequence < sequence
        · have closer := ahead_falls ordered skipped
          rw [ahead] at closer
          obtain ⟨messages,ends⟩ := walk _ closer (sequence+1) rfl
          refine ⟨messages,?_⟩
          rw [fetchLoop,if_pos more,if_pos skipped]
          exact h.fetchLoop_mono ends (by omega)
        · obtain ⟨messages,ends⟩ := fill (limit - (out.length+1)) (by omega) (sequence+1)
            (out ++ [h.ring.get sequence.toNat]) (by rw [List.length_append,List.length_singleton])
          refine ⟨messages,?_⟩
          rw [fetchLoop,if_pos more,if_neg skipped]
          have again := UInt64.toNat_lt (h.oldestSequence - (sequence+1))
          exact h.fetchLoop_mono ends (by omega)
      · exact ⟨out,by rw [fetchLoop,if_neg more]⟩

/-- The rounds of the copy loop: at most once around all numbers for each message. -/
def copyRounds : Nat := (kMaxRecoveryBatch.toNat+1)*2^64

private theorem le_copyRounds {limit ahead : Nat} (few : limit ≤ kMaxRecoveryBatch.toNat) (near : ahead < 2^64) :
    limit*2^64+ahead+1 ≤ copyRounds := by
  unfold copyRounds
  generalize kMaxRecoveryBatch.toNat = batch at few
  omega

private theorem serve_returns {start : Nat} {log : List MarketMessage} (retains : Retains h start log) (first last : UInt64) :
    ∃ messages, h.serve copyRounds first last = some messages := by
  unfold serve fetch
  dsimp only
  split
  next => exact ⟨_,rfl⟩
  next used =>
    have some_ : log ≠ [] := fun none => used (retains.empty.mpr none)
    have newest := retains.newest some_
    have oldest := retains.oldest some_
    have length := List.length_pos_iff.mpr some_
    have pos := cap.pos
    have few : (if kMaxRecoveryBatch < last - first+1 then kMaxRecoveryBatch else last - first+1).toNat ≤
        kMaxRecoveryBatch.toNat := by
      split
      next => exact Nat.le_refl _
      next short => exact UInt64.le_iff_toNat_le.mp (UInt64.not_lt.mp short)
    obtain ⟨messages,ends⟩ := fetchLoop_ends h (by rw [UInt64.le_iff_toNat_le]; omega) last _ first []
    refine ⟨messages,h.fetchLoop_mono ends ?_⟩
    have ahead := UInt64.toNat_lt (h.oldestSequence - first)
    rw [List.length_nil,Nat.sub_zero]
    exact le_copyRounds few ahead

end HistoryStore

/-- Not a call that was interrupted and is made again. -/
def Outcome.works : Outcome → Bool
  | .interrupted => false
  | _ => true

private theorem readTurn_gains {length : Nat} {got wire got' wire' : List UInt8} {outcome : Outcome}
    (turned : readTurn length got wire outcome = some (.on got' wire')) :
    got.length+outcome.works.toNat ≤ got'.length ∧ outcome.works.toNat ≤ length - got.length := by
  cases outcome with
  | interrupted =>
    simp only [readTurn,Option.some.injEq,Turn.on.injEq] at turned
    rw [turned.1]
    exact ⟨Nat.le_refl _,Nat.zero_le _⟩
  | failed => simp [readTurn] at turned
  | moved count =>
    rw [readTurn] at turned
    split at turned
    next => simp at turned
    next =>
      split at turned
      next room =>
        simp only [Option.some.injEq,Turn.on.injEq] at turned
        rw [← turned.1,List.length_append,List.length_take]
        simp only [Outcome.works,Bool.toNat_true]
        omega
      next => simp at turned

private theorem writeTurn_gains {wire rest wire' rest' : List UInt8} {outcome : Outcome}
    (turned : writeTurn wire rest outcome = some (.on wire' rest')) :
    rest'.length+outcome.works.toNat ≤ rest.length := by
  cases outcome with
  | interrupted =>
    simp only [writeTurn,Option.some.injEq,Turn.on.injEq] at turned
    rw [turned.2]
    exact Nat.le_refl _
  | failed => simp [writeTurn] at turned
  | moved count =>
    rw [writeTurn] at turned
    split at turned
    next => simp at turned
    next =>
      split at turned
      next room =>
        simp only [Option.some.injEq,Turn.on.injEq] at turned
        rw [← turned.2,List.length_drop]
        simp only [Outcome.works,Bool.toNat_true]
        omega
      next => simp at turned

/-- The calls for the largest answer, if each of them sends one byte. -/
def answerCalls : Nat := kResponseHeaderBytes + kMaxRecoveryBatch.toNat*kMessageBytes

/-- The calls up to the end of the answer. -/
def ServerPhase.callsLeft (locked : Bool) : ServerPhase → Nat
  | .head => 0
  | .readingRequest got => kRequestBytes - got.length + (answerCalls+2)
  | .fetching _ _ => answerCalls + if locked then 1 else 2
  | .sendingHeader _ rest payload => rest.length + payload.length
  | .sendingPayload _ rest => rest.length

namespace ServedConnection
variable {v : ServedConnection} {locked : Bool}

def callsLeft (locked : Bool) (v : ServedConnection) : Nat :=
  if v.serving then v.phase.callsLeft locked+3 else 2

private theorem leave_callsLeft (locked : Bool) (serving : v.serving = true) {calls : Nat} (few : calls ≤ 1) :
    v.leave.callsLeft locked+calls ≤ v.callsLeft locked := by
  simp only [callsLeft,serving,leave,if_true,Bool.false_eq_true,if_false]
  omega

private theorem gotRequest_callsLeft {got got' : List UInt8} (serving : v.serving = true)
    (here : v.phase = .readingRequest got) {calls : Nat} (gained : got.length+calls ≤ got'.length)
    (room : calls ≤ kRequestBytes - got.length) : (v.gotRequest got').callsLeft locked+calls ≤ v.callsLeft locked := by
  have before : v.callsLeft locked = kRequestBytes - got.length + (answerCalls+2)+3 := by
    rw [callsLeft,if_pos serving,here,ServerPhase.callsLeft]
  rw [before]
  unfold gotRequest
  split
  next more =>
    simp only [callsLeft,serving,if_true,ServerPhase.callsLeft]
    omega
  next whole =>
    dsimp only
    split
    next =>
      simp only [callsLeft,leave,Bool.false_eq_true,if_false]
      omega
    next =>
      simp only [callsLeft,serving,if_true,ServerPhase.callsLeft]
      split <;> omega

private theorem sentHeader_callsLeft {found : Nat} {rest rest' payload : List UInt8} (serving : v.serving = true)
    (here : v.phase = .sendingHeader found rest payload) {calls : Nat} (gained : rest'.length+calls ≤ rest.length) :
    (v.sentHeader found rest' payload).callsLeft locked+calls ≤ v.callsLeft locked := by
  have before : v.callsLeft locked = rest.length + payload.length+3 := by
    rw [callsLeft,if_pos serving,here,ServerPhase.callsLeft]
  rw [before]
  unfold sentHeader
  split
  next =>
    simp only [callsLeft,serving,if_true,ServerPhase.callsLeft]
    omega
  next =>
    split
    next =>
      simp only [callsLeft,serving,if_true,ServerPhase.callsLeft]
      omega
    next =>
      simp only [callsLeft,served,serving,if_true,ServerPhase.callsLeft]
      omega

private theorem sentPayload_callsLeft {found : Nat} {rest rest' : List UInt8} (serving : v.serving = true)
    (here : v.phase = .sendingPayload found rest) {calls : Nat} (gained : rest'.length+calls ≤ rest.length) :
    (v.sentPayload found rest').callsLeft locked+calls ≤ v.callsLeft locked := by
  have before : v.callsLeft locked = rest.length+3 := by
    rw [callsLeft,if_pos serving,here,ServerPhase.callsLeft]
  rw [before]
  unfold sentPayload
  split
  next =>
    simp only [callsLeft,serving,if_true,ServerPhase.callsLeft]
    omega
  next =>
    simp only [callsLeft,served,serving,if_true,ServerPhase.callsLeft]
    omega

end ServedConnection

namespace RecoveryServer
variable {cap : Capacity} {s s' : RecoveryServer cap} {start : Nat}

/-- The calls up to the end of the thread, once the flag is reset. -/
def callsLeft (s : RecoveryServer cap) : Nat :=
  match s.thread with
  | .absent => 0
  | .top => 1
  | .accepting => 4
  | .serving => s.current.connection.callsLeft s.locked
  | .ended => 0

/-- A step of the thread other than an interrupted call. -/
def works : ServerMove → Bool
  | .loadRunning => true
  | .accept _ => true
  | .enter => true
  | .transfer _ outcome => outcome.works
  | .lock => true
  | .fetch _ _ => true
  | .close => true
  | _ => false

/-- Inside of `serve_connection` only the connection counts. -/
theorem served_callsLeft (serving : s.thread = .serving) {log : ClientLog} {locked : Bool} {calls : Nat}
    (less : log.connection.callsLeft locked+calls ≤ s.current.connection.callsLeft s.locked) :
    ({s with current := log, locked := locked} : RecoveryServer cap).callsLeft+calls ≤ s.callsLeft := by
  simpa only [callsLeft,serving] using less

private theorem transfer_callsLeft (serving : s.thread = .serving) (inside : s.current.connection.serving = true)
    {arriving : List UInt8} {outcome : Outcome} (taken : s.transfer arriving outcome = some s') :
    s'.callsLeft+outcome.works.toNat ≤ s.callsLeft := by
  have leaves : ({s with current := {s.current with connection := s.current.connection.leave}} :
      RecoveryServer cap).callsLeft+outcome.works.toNat ≤ s.callsLeft :=
    served_callsLeft serving (ServedConnection.leave_callsLeft s.locked inside (Bool.toNat_le outcome.works))
  rw [transfer] at taken
  dsimp only at taken
  split at taken
  next got here =>
    rcases Turn.map_then taken with rfl | ⟨got',wire,turned,rfl⟩
    · exact leaves
    · obtain ⟨gained,room⟩ := readTurn_gains turned
      exact served_callsLeft serving (ServedConnection.gotRequest_callsLeft inside here gained room)
  next found rest payload here =>
    rcases Turn.map_then taken with rfl | ⟨sent,rest',turned,rfl⟩
    · exact leaves
    · exact served_callsLeft serving (ServedConnection.sentHeader_callsLeft inside here (writeTurn_gains turned))
  next found rest here =>
    rcases Turn.map_then taken with rfl | ⟨sent,rest',turned,rfl⟩
    · exact leaves
    · exact served_callsLeft serving (ServedConnection.sentPayload_callsLeft inside here (writeTurn_gains turned))
  next => simp at taken

private theorem fetch_callsLeft (held : s.locked = true) (serving : s.thread = .serving)
    (inside : s.current.connection.serving = true) {fuel : Nat} {padding : Nat → UInt32}
    (taken : s.fetch fuel padding = some s') : s'.callsLeft+1 ≤ s.callsLeft := by
  rw [fetch] at taken
  split at taken
  next first last here =>
    split at taken
    next => simp at taken
    next messages served =>
      cases taken
      refine served_callsLeft serving ?_
      have length := HistoryStore.serve_length _ served
      have payload := messagesBytes_length padding messages
      have most := Nat.mul_le_mul_right kMessageBytes length
      rw [ServedConnection.callsLeft,ServedConnection.callsLeft,if_pos inside,here,held]
      simp only [ServedConnection.reply,inside,if_true,ServerPhase.callsLeft,answerCalls,payload,
        RecoveryResponseHeader.bytes_length]
      omega
  next => simp at taken

/-- The calls left right after a request could be read. -/
def stopCalls : Nat := kRequestBytes + answerCalls + 5

private theorem enter_callsLeft (serving : s.thread = .serving) (inside : s.current.connection.serving = true) :
    let s' : RecoveryServer cap :=
      {s with current := {s.current with connection := s.current.connection.enter s.running}}
    s'.callsLeft+1 ≤ s.callsLeft ∨ (s'.running = true ∧ s'.callsLeft ≤ stopCalls) := by
  cases flag : s.running with
  | true =>
    refine .inr ⟨rfl,?_⟩
    simp only [callsLeft,serving,ServedConnection.callsLeft,ServedConnection.enter,inside,if_true,
      ServerPhase.callsLeft,stopCalls,List.length_nil]
    omega
  | false => exact .inl (served_callsLeft serving (ServedConnection.leave_callsLeft s.locked inside (Nat.le_refl 1)))

private theorem lock_callsLeft (serving : s.thread = .serving) (inside : s.current.connection.serving = true)
    (here : fetching s.current.connection.phase = true) (free : ¬s.locked = true) :
    ({s with locked := true} : RecoveryServer cap).callsLeft+1 ≤ s.callsLeft := by
  rw [Bool.not_eq_true] at free
  refine served_callsLeft serving ?_
  cases phase : s.current.connection.phase <;> simp [phase,fetching] at here
  simp only [ServedConnection.callsLeft,inside,if_true,phase,ServerPhase.callsLeft,free,Bool.false_eq_true,if_false]
  omega

/-- Only where the flag is set can a step bring the calls up again. -/
theorem move_callsLeft {m : ServerMove} (orderly : Orderly start s) (taken : s.move m = some s') :
    s'.callsLeft+(works m).toNat ≤ s.callsLeft ∨ (s'.running = true ∧ s'.callsLeft ≤ stopCalls) := by
  cases m with
  | start ok =>
    obtain ⟨_,after⟩ := (Option.ite_none_right_eq_some ..).mp taken
    cases ok with
    | true =>
      cases after
      exact .inr ⟨rfl,by change 1 ≤ stopCalls; decide⟩
    | false =>
      cases after
      exact .inl (Nat.le_refl _)
  | stop =>
    obtain ⟨_,after⟩ := (Option.ite_none_right_eq_some ..).mp taken
    cases after
    split
    next => exact .inl (Nat.le_refl _)
    next => exact .inl (Nat.le_refl _)
  | join =>
    obtain ⟨_,after⟩ := (Option.ite_none_right_eq_some ..).mp taken
    cases after
    exact .inl (Nat.zero_le _)
  | closeListen =>
    obtain ⟨_,after⟩ := (Option.ite_none_right_eq_some ..).mp taken
    cases after
    exact .inl (Nat.le_refl _)
  | loadRunning =>
    obtain ⟨top,after⟩ := (Option.ite_none_right_eq_some ..).mp taken
    cases after
    cases flag : s.running with
    | true => exact .inr ⟨rfl,by change 4 ≤ stopCalls; decide⟩
    | false =>
      left
      simp [callsLeft,top,works]
  | accept outcome =>
    obtain ⟨accepting,after⟩ := (Option.ite_none_right_eq_some ..).mp taken
    cases after
    left
    cases outcome with
    | client => simp [callsLeft,accepting,accept,works,ServedConnection.callsLeft,ServerPhase.callsLeft]
    | again => simp [callsLeft,accepting,accept,works]
    | error => simp [callsLeft,accepting,accept,works]
  | enter =>
    obtain ⟨⟨serving,inside,here⟩,after⟩ := (Option.ite_none_right_eq_some ..).mp taken
    cases after
    exact enter_callsLeft serving inside
  | transfer arriving outcome =>
    obtain ⟨⟨serving,inside⟩,after⟩ := (Option.ite_none_right_eq_some ..).mp taken
    exact .inl (transfer_callsLeft serving inside after)
  | lock =>
    obtain ⟨⟨serving,inside,here,free⟩,after⟩ := (Option.ite_none_right_eq_some ..).mp taken
    cases after
    exact .inl (lock_callsLeft serving inside here free)
  | fetch fuel padding =>
    obtain ⟨held,after⟩ := (Option.ite_none_right_eq_some ..).mp taken
    obtain ⟨serving,inside,_⟩ := orderly.lock held
    exact .inl (fetch_callsLeft held serving inside after)
  | close =>
    obtain ⟨⟨serving,done⟩,after⟩ := (Option.ite_none_right_eq_some ..).mp taken
    cases after
    left
    simp [callsLeft,serving,works,ServedConnection.callsLeft,done]
  | append message =>
    obtain ⟨_,after⟩ := (Option.ite_none_left_eq_some ..).mp taken
    cases after
    exact .inl (Nat.le_refl _)

theorem reached_callsLeft (reached : Reached move (create cap) s) : s.callsLeft ≤ stopCalls := by
  refine (reached.invariant (I := fun s => Orderly 0 s ∧ s.callsLeft ≤ stopCalls) ⟨Orderly.create cap 0,Nat.zero_le _⟩
    ?_).2
  rintro s m s' ⟨orderly,few⟩ taken
  refine ⟨move_orderly orderly taken,?_⟩
  rcases move_callsLeft orderly taken with less | ⟨_,few'⟩
  · omega
  · exact few'

/-- The flag, the listening socket, `stop` and the thread. -/
inductive Control : Bool → Bool → Stopping → ServerThread → Prop where
  | off : Control false false .idle .absent
  | on {thread : ServerThread} (present : thread ≠ .absent) : Control true true .idle thread
  | joining {thread : ServerThread} (present : thread ≠ .absent) : Control false true .joining thread
  | closing : Control false true .closing .absent

section Control
variable {running listening : Bool} {stopping : Stopping} {thread : ServerThread}

theorem Control.stop (control : Control true listening .idle thread) : Control false listening .joining thread := by
  cases control with
  | on present => exact .joining present

theorem Control.join (control : Control running listening .joining thread) :
    Control running listening .closing .absent := by
  cases control
  exact .closing

theorem Control.closeListen (control : Control running listening .closing thread) :
    Control running false .idle thread := by
  cases control
  exact .off

theorem Control.waits (control : Control running listening .joining thread) : running = false ∧ thread ≠ .absent := by
  cases control with
  | joining present => exact ⟨rfl,present⟩

theorem Control.present {thread' : ServerThread} (control : Control running listening stopping thread)
    (present : thread ≠ .absent) (present' : thread' ≠ .absent) : Control running listening stopping thread' := by
  cases control with
  | off => exact absurd rfl present
  | on _ => exact .on present'
  | joining _ => exact .joining present'
  | closing => exact absurd rfl present

end Control

/-- Inside of the server's thread and of `append` nothing of this changes. -/
structure Beside (s s' : RecoveryServer cap) : Prop where
  running : s'.running = s.running
  listening : s'.listening = s.listening
  stopping : s'.stopping = s.stopping
  thread : s'.thread = s.thread ∨ (s.thread ≠ .absent ∧ s'.thread ≠ .absent)

private theorem transfer_beside {arriving : List UInt8} {outcome : Outcome} (taken : s.transfer arriving outcome = some s') :
    Beside s s' := by
  rw [transfer] at taken
  dsimp only at taken
  split at taken
  next => rcases Turn.map_then taken with rfl | ⟨_,_,_,rfl⟩ <;> exact ⟨rfl,rfl,rfl,.inl rfl⟩
  next => rcases Turn.map_then taken with rfl | ⟨_,_,_,rfl⟩ <;> exact ⟨rfl,rfl,rfl,.inl rfl⟩
  next => rcases Turn.map_then taken with rfl | ⟨_,_,_,rfl⟩ <;> exact ⟨rfl,rfl,rfl,.inl rfl⟩
  next => simp at taken

private theorem fetch_beside {fuel : Nat} {padding : Nat → UInt32} (taken : s.fetch fuel padding = some s') : Beside s s' := by
  rw [fetch] at taken
  split at taken
  next =>
    split at taken
    next => simp at taken
    next =>
      cases taken
      exact ⟨rfl,rfl,rfl,.inl rfl⟩
  next => simp at taken

/-- A step of `start` or `stop`. -/
def called : ServerMove → Bool
  | .start _ => true
  | .stop => true
  | .join => true
  | .closeListen => true
  | _ => false

private theorem move_beside {m : ServerMove} (other : called m = false) (taken : s.move m = some s') : Beside s s' := by
  cases m with
  | start ok => simp [called] at other
  | stop => simp [called] at other
  | join => simp [called] at other
  | closeListen => simp [called] at other
  | loadRunning =>
    obtain ⟨top,after⟩ := (Option.ite_none_right_eq_some ..).mp taken
    cases after
    refine ⟨rfl,rfl,rfl,.inr ⟨by simp [top],?_⟩⟩
    dsimp only
    split <;> simp
  | accept outcome =>
    obtain ⟨accepting,after⟩ := (Option.ite_none_right_eq_some ..).mp taken
    cases after
    cases outcome <;> exact ⟨rfl,rfl,rfl,.inr ⟨by simp [accepting],by simp [accept]⟩⟩
  | enter =>
    obtain ⟨_,after⟩ := (Option.ite_none_right_eq_some ..).mp taken
    cases after
    exact ⟨rfl,rfl,rfl,.inl rfl⟩
  | transfer arriving outcome =>
    obtain ⟨_,after⟩ := (Option.ite_none_right_eq_some ..).mp taken
    exact transfer_beside after
  | lock =>
    obtain ⟨_,after⟩ := (Option.ite_none_right_eq_some ..).mp taken
    cases after
    exact ⟨rfl,rfl,rfl,.inl rfl⟩
  | fetch fuel padding =>
    obtain ⟨_,after⟩ := (Option.ite_none_right_eq_some ..).mp taken
    exact fetch_beside after
  | close =>
    obtain ⟨⟨serving,_⟩,after⟩ := (Option.ite_none_right_eq_some ..).mp taken
    cases after
    exact ⟨rfl,rfl,rfl,.inr ⟨by simp [serving],by simp⟩⟩
  | append message =>
    obtain ⟨_,after⟩ := (Option.ite_none_left_eq_some ..).mp taken
    cases after
    exact ⟨rfl,rfl,rfl,.inl rfl⟩

def Controlled (s : RecoveryServer cap) : Prop := Control s.running s.listening s.stopping s.thread

private theorem move_controlled {m : ServerMove} (controlled : s.Controlled) (taken : s.move m = some s') :
    s'.Controlled := by
  by_cases other : called m = false
  · obtain ⟨running,listening,stopping,thread⟩ := move_beside other taken
    rw [Controlled,running,listening,stopping]
    rcases thread with same | ⟨present,present'⟩
    · rw [same]
      exact controlled
    · exact Control.present controlled present present'
  cases m <;> simp only [called,not_false_eq_true,not_true_eq_false,Bool.true_eq_false] at other
  case start ok =>
    obtain ⟨⟨absent,idle⟩,after⟩ := (Option.ite_none_right_eq_some ..).mp taken
    cases ok with
    | true =>
      cases after
      rw [Controlled,idle]
      exact .on (by simp)
    | false =>
      cases after
      exact controlled
  case stop =>
    obtain ⟨idle,after⟩ := (Option.ite_none_right_eq_some ..).mp taken
    cases after
    split
    next running =>
      rw [Controlled,running,idle] at controlled
      exact controlled.stop
    next => exact controlled
  case join =>
    obtain ⟨⟨joining,_⟩,after⟩ := (Option.ite_none_right_eq_some ..).mp taken
    cases after
    rw [Controlled,joining] at controlled
    exact controlled.join
  case closeListen =>
    obtain ⟨closing,after⟩ := (Option.ite_none_right_eq_some ..).mp taken
    cases after
    rw [Controlled,closing] at controlled
    exact controlled.closeListen

theorem reached_controlled (reached : Reached move (create cap) s) : s.Controlled :=
  reached.invariant .off fun _ _ _ controlled taken => move_controlled controlled taken

private theorem move_joining {m : ServerMove} (waits : s.stopping = .joining) (other : m ≠ .join)
    (taken : s.move m = some s') : s'.stopping = .joining := by
  cases m with
  | start ok =>
    obtain ⟨⟨_,idle⟩,_⟩ := (Option.ite_none_right_eq_some ..).mp taken
    simp [waits] at idle
  | stop =>
    obtain ⟨idle,_⟩ := (Option.ite_none_right_eq_some ..).mp taken
    simp [waits] at idle
  | join => exact absurd rfl other
  | closeListen =>
    obtain ⟨closing,_⟩ := (Option.ite_none_right_eq_some ..).mp taken
    simp [waits] at closing
  | _ => rw [(move_beside rfl taken).stopping,waits]

private theorem fetch_goes {first last : UInt64} (here : s.current.connection.phase = .fetching first last)
    (padding : Nat → UInt32) {fuel : Nat} {messages : List MarketMessage}
    (served : s.history.serve fuel first last = some messages) : ∃ s', s.fetch fuel padding = some s' := by
  rw [fetch,here]
  dsimp only
  rw [served]
  exact ⟨_,rfl⟩

/-- A step of the thread that goes through, if it is the copy loop within so many rounds. -/
def Goes (rounds : Nat) (s : RecoveryServer cap) : Prop :=
  ∃ m s', works m = true ∧ (∀ fuel padding, m = .fetch fuel padding → fuel ≤ rounds) ∧ s.move m = some s'

/-- The thread can always go on: a call that waits ends with its timeout. -/
theorem joining_goes (orderly : Orderly start s) (controlled : s.Controlled) (waits : s.stopping = .joining)
    (numbered : s.Numbered start) : s.thread = .ended ∨ s.Goes HistoryStore.copyRounds := by
  have goes (m : ServerMove) (s' : RecoveryServer cap) (works_ : works m = true)
      (other : ∀ fuel padding, m ≠ .fetch fuel padding) (taken : s.move m = some s') : s.Goes HistoryStore.copyRounds :=
    ⟨m,s',works_,fun fuel padding same => absurd same (other fuel padding),taken⟩
  rw [Controlled,waits] at controlled
  cases thread : s.thread with
  | absent => exact absurd thread controlled.waits.2
  | top => exact .inr (goes .loadRunning _ rfl (by simp) (if_pos thread))
  | accepting => exact .inr (goes (.accept .again) _ rfl (by simp) (if_pos thread))
  | ended => exact .inl rfl
  | serving =>
    right
    cases inside : s.current.connection.serving with
    | false => exact goes .close _ rfl (by simp) (if_pos ⟨thread,by simp [inside]⟩)
    | true =>
      let left := {s with current := {s.current with connection := s.current.connection.leave}}
      cases here : s.current.connection.phase with
      | head => exact goes .enter _ rfl (by simp) (if_pos ⟨thread,inside,here⟩)
      | readingRequest got =>
        refine goes (.transfer [] .failed) left rfl (by simp) ((if_pos ⟨thread,inside⟩).trans ?_)
        rw [transfer,here]
        rfl
      | fetching first last =>
        cases held : s.locked with
        | false => exact goes .lock _ rfl (by simp) (if_pos ⟨thread,inside,by rw [here]; rfl,by simp [held]⟩)
        | true =>
          obtain ⟨messages,served⟩ := HistoryStore.serve_returns (orderly.history numbered) first last
          obtain ⟨s',fetched⟩ := fetch_goes here (fun _ => 0) served
          refine ⟨.fetch HistoryStore.copyRounds fun _ => 0,s',rfl,?_,(if_pos held).trans fetched⟩
          intro fuel padding same
          cases same
          exact Nat.le_refl _
      | sendingHeader found rest payload =>
        refine goes (.transfer [] .failed) left rfl (by simp) ((if_pos ⟨thread,inside⟩).trans ?_)
        rw [transfer,here]
        rfl
      | sendingPayload found rest =>
        refine goes (.transfer [] .failed) left rfl (by simp) ((if_pos ⟨thread,inside⟩).trans ?_)
        rw [transfer,here]
        rfl

/-- Once `stop` has reset the flag, the thread makes at most `stopCalls` steps, with an
interrupted call not counted and the copy loop counted as one. If the exchange numbers its
messages one by one, the thread is never stuck: it waits for nothing but the timeout of a
call, and a copy loop ends after `copyRounds` at the latest, also where its counter wraps.
When the thread has ended, `stop` returns with nothing left open. -/
theorem stop_returns (start : Nat) (reached : Reached move (create cap) s) (waits : s.stopping = .joining)
    (moves : List ServerMove) (before : .join ∉ moves) (played : play move moves s = some s') :
    effort move (fun _ => works) moves s ≤ stopCalls ∧
      (s'.Numbered start → s'.thread ≠ .ended → s'.Goes HistoryStore.copyRounds) ∧
      (s'.thread = .ended → ∃ s'', play move [.join,.closeListen] s' = some s'' ∧ s''.thread = .absent ∧
        s''.listening = false ∧ s''.running = false ∧ s''.logs = s'.logs) := by
  have few := reached_callsLeft reached
  have later : Reached move (create cap) s' := reached.trans (play_reached played)
  obtain ⟨⟨_,controlled,waits'⟩,calls⟩ := play_effort
    (I := fun s => Orderly start s ∧ s.Controlled ∧ s.stopping = .joining)
    (P := fun m => m ≠ .join) callsLeft (fun _ => works) (by
      rintro s m s' ⟨orderly,controlled,waits⟩ other taken
      have controlled' := move_controlled controlled taken
      have waits' := move_joining waits other taken
      refine ⟨⟨move_orderly orderly taken,controlled',waits'⟩,?_⟩
      rcases move_callsLeft orderly taken with less | ⟨running,_⟩
      · exact less
      · rw [Controlled,waits'] at controlled'
        simp [controlled'.waits.1] at running)
    ⟨reached_orderly start reached,reached_controlled reached,waits⟩ (fun m member same => before (same ▸ member)) played
  refine ⟨by omega,fun numbered on => ?_,fun ended => ?_⟩
  · exact (joining_goes (reached_orderly start later) controlled waits' numbered).resolve_left on
  · rw [Controlled,waits'] at controlled
    refine ⟨{s' with thread := .absent, listening := false, stopping := .idle},?_,rfl,rfl,controlled.waits.1,?_⟩
    · rw [play,move,if_pos ⟨waits',ended⟩]
      rfl
    · rw [logs_outside (by simp),logs_outside (by simp [ended])]

/-- Message 5 is in the history and a client is connected that does not finish its request. -/
def silentClient : List ServerMove :=
  [.start true,.append {sequenceNumber := 5},.loadRunning,.accept .client,.enter,.transfer [7] (.moved 1),.stop]

/-- After the timeout of the read the thread ends, and `stop` closes the socket. -/
def silenced : List ServerMove := [.transfer [] .interrupted,.transfer [] .failed,.close,.loadRunning]

theorem stop_returns_silent : ∃ s s' s'' : RecoveryServer SequenceManager.four,
    play move silentClient (create SequenceManager.four) = some s ∧ s.stopping = .joining ∧ s.Goes HistoryStore.copyRounds ∧
      play move silenced s = some s' ∧ s'.thread = .ended ∧ effort move (fun _ => works) silenced s ≤ stopCalls ∧
      play move [.join,.closeListen] s' = some s'' ∧ s''.thread = .absent ∧ s''.listening = false := by
  have checked : ((play move silentClient (create SequenceManager.four)).any fun s =>
      decide (s.stopping = .joining ∧ s.thread = .serving ∧ s.published = [{sequenceNumber := 5}]) &&
        (play move silenced s).any fun s' => decide (s'.thread = .ended)) = true := by decide +kernel
  obtain ⟨s,played,found⟩ := (Option.any_eq_true _ _).mp checked
  obtain ⟨here,goes⟩ := Bool.and_eq_true_iff.mp found
  obtain ⟨waits,serving,published⟩ := of_decide_eq_true here
  obtain ⟨s',after,ended⟩ := (Option.any_eq_true _ _).mp goes
  have reached := play_reached played
  have now := stop_returns 5 reached waits [] (by simp) rfl
  have numbered : s.Numbered 5 := by
    rw [Numbered,published]
    exact ⟨⟨rfl,trivial⟩,by decide⟩
  have then_ := stop_returns 5 reached waits silenced (by simp [silenced]) after
  obtain ⟨s'',closed,absent,listening,_⟩ := then_.2.2 (of_decide_eq_true ended)
  exact ⟨s,s',s'',played,waits,now.2.1 numbered (by simp [serving]),after,of_decide_eq_true ended,then_.1,closed,absent,
    listening⟩

end RecoveryServer
end Llte
