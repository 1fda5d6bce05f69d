import Llte.RecoveryStream

/-! Requests and answers on one recovery connection belong together. While the client
is connected at most one request is under way, and what the two ends have read, what
the streams carry and what is still to be sent make up that request and its answer. -/
namespace Llte
open Foundation

namespace Completed

/-- What a call that returned true handed to its caller. -/
def answer (call : Completed) : Option Fetched :=
  if call.error = none then some (call.first,call.last,call.out) else none

/-- The call returned false, and not for `to < from`. -/
def Fatal (call : Completed) : Prop := call.error ≠ none ∧ call.error ≠ some .invalidRange

end Completed

/-- The calls before a request is answered. -/
def ClientPhase.Asking : ClientPhase → Prop
  | .sendingRequest _ _ _ => True
  | .readingHeader _ _ _ => True
  | _ => False

def requestBytes (first last : UInt64) : List UInt8 := RecoveryRequest.bytes ⟨kRecoveryMagic,0,first,last⟩

def headerBytes (found : Nat) : List UInt8 := RecoveryResponseHeader.bytes ⟨kRecoveryMagic,found⟩

namespace RecoveryClient
variable {c : RecoveryClient} {first last : UInt64}

def answers (c : RecoveryClient) : List Fetched := c.calls.filterMap Completed.answer

private theorem answers_finish_some (c : RecoveryClient) (first last : UInt64) (error : RequestError) :
    (c.finish first last (some error)).answers = c.answers := by
  simp [answers,finish,Completed.answer]

private theorem answers_finish_none (c : RecoveryClient) (first last : UInt64) :
    (c.finish first last none).answers = c.answers ++ [(first,last,c.out)] := by
  simp [answers,finish,Completed.answer]

private theorem request_cases (c : RecoveryClient) (first last : UInt64) :
    (∃ error, c.request first last = finish {c with out := []} first last (some error)) ∨
      (c.connected = true ∧ first ≤ last ∧
        c.request first last = {c with out := [], phase := .sendingRequest first last (requestBytes first last)}) := by
  unfold request
  dsimp only
  split
  next => exact .inl ⟨_,rfl⟩
  next up =>
    split
    next => exact .inl ⟨_,rfl⟩
    next ordered => exact .inr ⟨by simpa using up,UInt64.not_lt.mp ordered,rfl⟩

/-- The calls so far. -/
structure Settled (c : RecoveryClient) : Prop where
  empty : ∀ call ∈ c.calls, call.error ≠ none → call.out = []
  closed : ∀ call ∈ c.calls, call.Fatal → c.connected = false
  later : c.calls.Pairwise fun earlier call => earlier.Fatal → call.error ≠ none

structure Tidy (c : RecoveryClient) : Prop where
  settled : c.Settled
  idle : c.connected = false → c.phase = .idle
  blank : c.phase.Asking → c.out = []

theorem Settled.close (settled : c.Settled) : c.close.Settled := ⟨settled.empty,fun _ _ _ => rfl,settled.later⟩

theorem Settled.finish (settled : c.Settled) (first last : UInt64) {error : Option RequestError}
    (empty : error ≠ none → c.out = []) (fatal : error ≠ none → error ≠ some .invalidRange → c.connected = false)
    (dead : c.connected = false → error ≠ none) : (c.finish first last error).Tidy := by
  refine ⟨⟨?_,?_,?_⟩,fun _ => rfl,fun asking => asking.elim⟩
  · intro call member failed
    rcases List.mem_append.mp member with earlier | last
    · exact settled.empty call earlier failed
    · rw [List.mem_singleton.mp last] at failed ⊢
      exact empty failed
  · intro call member bad
    rcases List.mem_append.mp member with earlier | last
    · exact settled.closed call earlier bad
    · rw [List.mem_singleton.mp last] at bad
      exact fatal bad.1 bad.2
  · refine List.pairwise_append.mpr ⟨settled.later,by simp,?_⟩
    intro earlier member call last bad
    rw [List.mem_singleton.mp last]
    exact dead (settled.closed earlier member bad)

namespace Tidy
variable (tidy : c.Tidy)
include tidy

theorem up (busy : c.phase ≠ .idle) : c.connected = true := by
  by_contra down
  exact busy (tidy.idle (by simpa using down))

theorem goto (up : c.connected = true) {phase : ClientPhase} {out : List MarketMessage} (blank : phase.Asking → out = []) :
    Tidy {c with phase := phase, out := out} := by
  refine ⟨⟨tidy.settled.empty,tidy.settled.closed,tidy.settled.later⟩,fun down => ?_,blank⟩
  rw [up] at down
  simp at down

/-- The client gives up: it closes the connection and returns false. -/
theorem lose (first last : UInt64) {error : RequestError} (empty : c.out = []) :
    (c.close.finish first last (some error)).Tidy :=
  tidy.settled.close.finish first last (fun _ => empty) (fun _ _ => rfl) (fun _ => by simp)

theorem request (first last : UInt64) : (c.request first last).Tidy := by
  have cleared : Settled {c with out := []} := ⟨tidy.settled.empty,tidy.settled.closed,tidy.settled.later⟩
  unfold RecoveryClient.request
  dsimp only
  split
  next down => exact cleared.finish first last (fun _ => rfl) (fun _ _ => down) (fun _ => by simp)
  next up =>
    split
    next => exact cleared.finish first last (fun _ => rfl) (fun _ other => absurd rfl other) (fun _ => by simp)
    next => exact tidy.goto (by simpa using up) (fun _ => rfl)

theorem sent (up : c.connected = true) (blank : c.out = []) (rest : List UInt8) : (c.sent first last rest).Tidy :=
  tidy.goto up (fun _ => blank)

theorem gotHeader (up : c.connected = true) (blank : c.out = []) (got : List UInt8) :
    (c.gotHeader first last got).Tidy := by
  unfold RecoveryClient.gotHeader
  dsimp only
  split
  next => exact tidy.goto up (fun _ => blank)
  next =>
    split
    next => exact tidy.lose first last blank
    next =>
      split
      next => exact tidy.settled.finish first last (fun bad => absurd rfl bad) (fun bad => absurd rfl bad) (by simp [up])
      next => exact tidy.goto up (fun asking => asking.elim)

theorem gotPayload (up : c.connected = true) (count : Nat) (got : List UInt8) :
    (c.gotPayload first last count got).Tidy := by
  have filled : Settled {c with out := messagesOf count got} :=
    ⟨tidy.settled.empty,tidy.settled.closed,tidy.settled.later⟩
  unfold RecoveryClient.gotPayload
  split
  next => exact tidy.goto up (fun asking => asking.elim)
  next => exact filled.finish first last (fun bad => absurd rfl bad) (fun bad => absurd rfl bad) (by simp [up])

theorem lostPayload (first last : UInt64) : (c.lostPayload first last).Tidy := by
  have cleared : Settled {c with out := []} := ⟨tidy.settled.empty,tidy.settled.closed,tidy.settled.later⟩
  exact cleared.close.finish first last (fun _ => rfl) (fun _ _ => rfl) (fun _ => by simp)

end Tidy
end RecoveryClient

/-- The server waits for a request and has read `got` of it. -/
inductive ServerPhase.Reads : ServerPhase → List UInt8 → Prop where
  | head : Reads .head []
  | reading (got : List UInt8) : Reads (.readingRequest got) got

/-- The server has fetched, and `unsent` of the answer is still to be sent. -/
inductive ServerPhase.Sends : ServerPhase → List UInt8 → Prop where
  | head : Sends .head []
  | reading : Sends (.readingRequest []) []
  | header {found : Nat} {rest payload : List UInt8} (more : rest ≠ []) (some_ : 0 < found ↔ payload ≠ []) :
      Sends (.sendingHeader found rest payload) (rest ++ payload)
  | payload {found : Nat} {rest : List UInt8} (more : rest ≠ []) : Sends (.sendingPayload found rest) rest

/-- The joint states of a connected client, the streams to the server and to the
client, and the server, with what the client has handed out and what the server has
fetched. -/
inductive InStep : ClientPhase → List UInt8 → List UInt8 → ServerPhase → List Fetched → List Fetched → Prop where
  | idle {phase : ServerPhase} {answers : List Fetched} (reads : phase.Reads []) :
      InStep .idle [] [] phase answers answers
  | asking {first last : UInt64} {rest got wire : List UInt8} {phase : ServerPhase} {answers : List Fetched}
      (ordered : first ≤ last) (more : rest ≠ []) (reads : phase.Reads got)
      (whole : got ++ (wire ++ rest) = requestBytes first last) :
      InStep (.sendingRequest first last rest) wire [] phase answers answers
  | asked {first last : UInt64} {got wire : List UInt8} {phase : ServerPhase} {answers : List Fetched}
      (ordered : first ≤ last) (reads : phase.Reads got) (whole : got ++ wire = requestBytes first last) :
      InStep (.readingHeader first last []) wire [] phase answers answers
  | taken {first last : UInt64} {answers : List Fetched} :
      InStep (.readingHeader first last []) [] [] (.fetching first last) answers answers
  | header {first last : UInt64} {got wire unsent : List UInt8} {phase : ServerPhase} {answers : List Fetched}
      {padding : Nat → UInt32} {messages : List MarketMessage} (batch : messages.length ≤ kMaxRecoveryBatch.toNat)
      (short : got.length ≤ kResponseHeaderBytes) (sends : phase.Sends unsent)
      (whole : got ++ (wire ++ unsent) = headerBytes messages.length ++ messagesBytes padding messages) :
      InStep (.readingHeader first last got) [] wire phase answers (answers ++ [(first,last,messages)])
  | payload {first last : UInt64} {got wire unsent : List UInt8} {phase : ServerPhase} {answers : List Fetched}
      {padding : Nat → UInt32} {messages : List MarketMessage} (sends : phase.Sends unsent)
      (whole : got ++ (wire ++ unsent) = messagesBytes padding messages) :
      InStep (.readingPayload first last messages.length got) [] wire phase answers
        (answers ++ [(first,last,messages)])

theorem ServerPhase.Sends.done {phase : ServerPhase} (sends : phase.Sends []) : phase.Reads [] := by
  generalize none : ([] : List UInt8) = unsent at sends
  cases sends with
  | head => exact .head
  | reading => exact .reading []
  | header more => exact absurd (List.append_eq_nil_iff.mp none.symm).1 more
  | payload more => exact absurd none.symm more

private theorem header_read {found : Nat} (batch : found ≤ kMaxRecoveryBatch.toNat) :
    RecoveryResponseHeader.ofBytes (headerBytes found) = ⟨kRecoveryMagic,found⟩ := by
  refine RecoveryResponseHeader.ofBytes_bytes _ (Nat.lt_of_le_of_lt batch ?_)
  decide

namespace ServedConnection

theorem fetched_gotRequest (v : ServedConnection) (got : List UInt8) : (v.gotRequest got).fetched = v.fetched := by
  unfold gotRequest
  split
  next => rfl
  next =>
    dsimp only
    split <;> rfl

theorem fetched_sentHeader (v : ServedConnection) (found : Nat) (rest payload : List UInt8) :
    (v.sentHeader found rest payload).fetched = v.fetched := by
  unfold sentHeader
  split
  next => rfl
  next => split <;> rfl

theorem fetched_sentPayload (v : ServedConnection) (found : Nat) (rest : List UInt8) :
    (v.sentPayload found rest).fetched = v.fetched := by
  unfold sentPayload
  split <;> rfl

end ServedConnection

namespace InStep
variable {client : ClientPhase} {up down up' down' : List UInt8} {server : ServerPhase}
  {answers fetched : List Fetched} {first last : UInt64}

private theorem answers_fetched (step : InStep client up down server answers fetched) : answers <+: fetched := by
  cases step with
  | idle => exact List.prefix_rfl
  | asking => exact List.prefix_rfl
  | asked => exact List.prefix_rfl
  | taken => exact List.prefix_rfl
  | header => exact List.prefix_append _ _
  | payload => exact List.prefix_append _ _

theorem ask (step : InStep .idle up down server answers fetched) (ordered : first ≤ last) :
    InStep (.sendingRequest first last (requestBytes first last)) up down server answers fetched := by
  have more : requestBytes first last ≠ [] := by
    rw [← List.length_pos_iff,requestBytes,RecoveryRequest.bytes_length]
    decide
  cases step with
  | idle reads => exact .asking ordered more reads (by rw [List.nil_append,List.nil_append])

theorem sent {rest rest' : List UInt8}
    (step : InStep (.sendingRequest first last rest) up down server answers fetched)
    (joins : up' ++ rest' = up ++ rest) :
    InStep (if rest' = [] then .readingHeader first last [] else .sendingRequest first last rest') up' down server
      answers fetched := by
  cases step with
  | asking ordered more reads whole =>
    rw [← joins] at whole
    split
    next none =>
      rw [none,List.append_nil] at whole
      exact .asked ordered reads whole
    next more => exact .asking ordered more reads whole

theorem gotHeader {c : RecoveryClient} {got got' : List UInt8} (blank : c.out = [])
    (step : InStep (.readingHeader first last got) up down server c.answers fetched)
    (joins : got' ++ down' = got ++ down)
    (inside : got.length ≤ kResponseHeaderBytes → got'.length ≤ kResponseHeaderBytes) :
    InStep (c.gotHeader first last got').phase up down' server (c.gotHeader first last got').answers fetched := by
  have waits (nothing : got ++ down = []) : got' = [] ∧ down' = [] := by
    rw [nothing,List.append_eq_nil_iff] at joins
    exact joins
  cases step with
  | asked ordered reads whole =>
    obtain ⟨rfl,rfl⟩ := waits rfl
    exact .asked ordered reads whole
  | taken =>
    obtain ⟨rfl,rfl⟩ := waits rfl
    exact .taken
  | @header _ _ _ _ unsent _ _ padding messages batch short sends whole =>
    rw [← List.append_assoc,← joins,List.append_assoc] at whole
    unfold RecoveryClient.gotHeader
    split
    next => exact .header batch (inside short) sends whole
    next full =>
      have length : got'.length = (headerBytes messages.length).length := by
        rw [headerBytes,RecoveryResponseHeader.bytes_length]
        have := inside short
        omega
      obtain ⟨rfl,rest⟩ := List.append_inj whole length
      rw [header_read batch]
      dsimp only
      rw [if_neg (by simpa using batch)]
      split
      next none =>
        obtain rfl := List.length_eq_zero_iff.mp none
        obtain ⟨rfl,rfl⟩ := List.append_eq_nil_iff.mp rest
        rw [RecoveryClient.answers_finish_none,blank]
        exact .idle sends.done
      next =>
        have whole : [] ++ (down' ++ unsent) = messagesBytes padding messages := rest
        exact .payload sends whole

theorem gotPayload {c : RecoveryClient} {count : Nat} {got got' : List UInt8}
    (step : InStep (.readingPayload first last count got) up down server c.answers fetched)
    (joins : got' ++ down' = got ++ down) :
    InStep (c.gotPayload first last count got').phase up down' server (c.gotPayload first last count got').answers
      fetched := by
  cases step with
  | @payload _ _ _ _ unsent _ _ padding messages sends whole =>
    rw [← List.append_assoc,← joins,List.append_assoc] at whole
    unfold RecoveryClient.gotPayload
    split
    next => exact .payload sends whole
    next full =>
      have length := congrArg List.length whole
      rw [List.length_append,messagesBytes_length] at length
      have none : (down' ++ unsent).length = 0 := by omega
      have none := List.length_eq_zero_iff.mp none
      rw [none,List.append_nil] at whole
      obtain ⟨rfl,rfl⟩ := List.append_eq_nil_iff.mp none
      rw [RecoveryClient.answers_finish_none,whole,messagesOf_messagesBytes]
      exact .idle sends.done

theorem enter (step : InStep client up down .head answers fetched) :
    InStep client up down (.readingRequest []) answers fetched := by
  cases step with
  | idle => exact .idle (.reading [])
  | asking ordered more reads whole =>
    cases reads
    exact .asking ordered more (.reading []) whole
  | asked ordered reads whole =>
    cases reads
    exact .asked ordered (.reading []) whole
  | header batch short sends whole =>
    cases sends
    exact .header batch short .reading whole
  | payload sends whole =>
    cases sends
    exact .payload .reading whole

theorem gotRequest {v : ServedConnection} {got got' : List UInt8}
    (step : InStep client up down (.readingRequest got) answers fetched) (joins : got' ++ up' = got ++ up) :
    InStep client up' down (v.gotRequest got').phase answers fetched := by
  have waits (nothing : got ++ up = []) : got' = [] ∧ up' = [] := by
    rw [nothing,List.append_eq_nil_iff] at joins
    exact joins
  cases step with
  | idle reads =>
    cases reads
    obtain ⟨rfl,rfl⟩ := waits rfl
    exact .idle (.reading [])
  | @asking _ _ rest _ _ _ _ ordered more reads whole =>
    cases reads
    rw [← List.append_assoc,← joins,List.append_assoc] at whole
    have short : got'.length < kRequestBytes := by
      have length := congrArg List.length whole
      rw [List.length_append,List.length_append,requestBytes,RecoveryRequest.bytes_length] at length
      have := List.length_pos_of_ne_nil more
      omega
    rw [ServedConnection.gotRequest,if_pos short]
    exact .asking ordered more (.reading got') whole
  | asked ordered reads whole =>
    cases reads
    rw [← joins] at whole
    unfold ServedConnection.gotRequest
    split
    next => exact .asked ordered (.reading got') whole
    next full =>
      have length := congrArg List.length whole
      rw [List.length_append,requestBytes,RecoveryRequest.bytes_length] at length
      obtain rfl := List.length_eq_zero_iff.mp (by omega : up'.length = 0)
      rw [List.append_nil] at whole
      rw [whole,requestBytes,RecoveryRequest.ofBytes_bytes]
      dsimp only
      rw [if_neg (by simpa using ordered)]
      exact .taken
  | header batch short sends whole =>
    cases sends
    obtain ⟨rfl,rfl⟩ := waits rfl
    exact .header batch short .reading whole
  | payload sends whole =>
    cases sends
    obtain ⟨rfl,rfl⟩ := waits rfl
    exact .payload .reading whole

theorem reply {v : ServedConnection} (padding : Nat → UInt32) {messages : List MarketMessage}
    (batch : messages.length ≤ kMaxRecoveryBatch.toNat)
    (step : InStep client up down (.fetching first last) answers v.fetched) :
    InStep client up down (v.reply first last padding messages).phase answers
      (v.reply first last padding messages).fetched := by
  have more : headerBytes messages.length ≠ [] := by
    rw [← List.length_pos_iff,headerBytes,RecoveryResponseHeader.bytes_length]
    decide
  have some_ : 0 < messages.length ↔ messagesBytes padding messages ≠ [] := by
    rw [← List.length_pos_iff (l := messagesBytes padding messages),messagesBytes_length]
    simp [kMessageBytes]
  change InStep client up down (.sendingHeader messages.length (headerBytes messages.length)
    (messagesBytes padding messages)) answers (v.fetched ++ [(first,last,messages)])
  generalize v.fetched = fetched at step
  cases step with
  | idle reads => cases reads
  | asking _ _ reads => cases reads
  | asked _ reads => cases reads
  | taken => exact .header batch (Nat.zero_le _) (.header more some_) rfl
  | header _ _ sends => cases sends
  | payload sends => cases sends

/-- Only an answer is sent, and what is sent is no longer unsent. -/
theorem sending {phase phase' : ServerPhase} (busy : ∀ got, ¬ phase.Reads got)
    (step : InStep client up down phase answers fetched)
    (sends : ∀ unsent, phase.Sends unsent → ∃ unsent', phase'.Sends unsent' ∧ down' ++ unsent' = down ++ unsent)
    (fetches : ∀ first last, phase ≠ .fetching first last) : InStep client up down' phase' answers fetched := by
  cases step with
  | idle reads => exact absurd reads (busy _)
  | asking _ _ reads => exact absurd reads (busy _)
  | asked _ reads => exact absurd reads (busy _)
  | taken => exact absurd rfl (fetches _ _)
  | header batch short here whole =>
    obtain ⟨unsent',there,joins⟩ := sends _ here
    exact .header batch short there (joins ▸ whole)
  | payload here whole =>
    obtain ⟨unsent',there,joins⟩ := sends _ here
    exact .payload there (joins ▸ whole)

theorem sentHeader {v : ServedConnection} {found : Nat} {rest rest' payload : List UInt8}
    (step : InStep client up down (.sendingHeader found rest payload) answers fetched)
    (joins : down' ++ rest' = down ++ rest) :
    InStep client up down' (v.sentHeader found rest' payload).phase answers fetched := by
  refine sending (fun got reads => by cases reads) step ?_ (by simp)
  intro unsent sends
  cases sends with
  | header more some_ =>
    unfold ServedConnection.sentHeader
    split
    next more => exact ⟨_,.header more some_,by rw [← List.append_assoc,joins,List.append_assoc]⟩
    next none =>
      rw [not_not.mp none,List.append_nil] at joins
      split
      next several => exact ⟨_,.payload (some_.mp several),by rw [joins,List.append_assoc]⟩
      next few =>
        have empty : payload = [] := by
          by_contra more
          exact few (some_.mpr more)
        exact ⟨[],.head,by rw [joins,empty,List.append_nil,List.append_nil]⟩

theorem sentPayload {v : ServedConnection} {found : Nat} {rest rest' : List UInt8}
    (step : InStep client up down (.sendingPayload found rest) answers fetched)
    (joins : down' ++ rest' = down ++ rest) :
    InStep client up down' (v.sentPayload found rest').phase answers fetched := by
  refine sending (fun got reads => by cases reads) step ?_ (by simp)
  intro unsent sends
  cases sends with
  | payload more =>
    unfold ServedConnection.sentPayload
    split
    next more => exact ⟨_,.payload more,joins⟩
    next none =>
      rw [not_not.mp none,List.append_nil] at joins
      exact ⟨[],.head,by rw [joins,List.append_nil]⟩

end InStep

namespace RecoveryLink
variable {cap : Capacity} {s s' : RecoveryLink cap}

/-- What holds of every state of a connection. A client that is no longer connected
hands out nothing more, so then it does not matter where the server is. -/
structure Paired (s : RecoveryLink cap) : Prop where
  tidy : s.client.Tidy
  fetched : s.client.answers <+: s.server.fetched
  step : s.client.connected = true →
    InStep s.client.phase s.toServer s.toClient s.server.phase s.client.answers s.server.fetched

theorem Paired.create (h : HistoryStore cap) : Paired {history := h} where
  tidy := ⟨⟨by simp,by simp,by simp⟩,by simp,fun asking => asking.elim⟩
  fetched := List.prefix_rfl
  step := fun _ => .idle .head

namespace Paired

/-- The client moves while it is connected. -/
theorem advance {client : RecoveryClient} {up down : List UInt8} (tidy : client.Tidy)
    (step : InStep client.phase up down s.server.phase client.answers s.server.fetched) :
    Paired {s with client := client, toServer := up, toClient := down} :=
  ⟨tidy,step.answers_fetched,fun _ => step⟩

variable (paired : s.Paired)
include paired

/-- The client gives up. -/
theorem lose {c : RecoveryClient} (same : c.answers = s.client.answers) {first last : UInt64} {error : RequestError}
    (tidy : (c.close.finish first last (some error)).Tidy) :
    Paired {s with client := c.close.finish first last (some error)} := by
  refine ⟨tidy,?_,fun up => absurd up (by simp [RecoveryClient.finish,RecoveryClient.close])⟩
  dsimp only
  rw [RecoveryClient.answers_finish_some]
  change c.answers <+: _
  rw [same]
  exact paired.fetched

theorem request (idle : s.client.phase = .idle) (first last : UInt64) :
    Paired {s with client := s.client.request first last} := by
  have tidy := paired.tidy.request first last
  rcases s.client.request_cases first last with ⟨error,refused⟩ | ⟨up,ordered,asks⟩
  · have same : (s.client.request first last).answers = s.client.answers := by
      rw [refused,RecoveryClient.answers_finish_some]
      rfl
    have still : (s.client.request first last).phase = s.client.phase := by rw [refused,idle,RecoveryClient.finish]
    refine ⟨tidy,?_,fun up => ?_⟩
    · dsimp only
      rw [same]
      exact paired.fetched
    · dsimp only at up ⊢
      rw [same,still]
      rw [refused] at up
      exact paired.step up
  · have step := paired.step up
    rw [idle] at step
    rw [asks] at tidy ⊢
    exact advance tidy (step.ask ordered)

theorem clientTurn {outcome : Outcome} (turned : s.clientTurn outcome = some s') : s'.Paired := by
  have tidy := paired.tidy
  unfold RecoveryLink.clientTurn at turned
  split at turned
  next => simp at turned
  next first last rest phase =>
    have up := tidy.up (by simp [phase])
    have blank := tidy.blank (by simp [phase,ClientPhase.Asking])
    have step := paired.step up
    rw [phase] at step
    rcases Turn.map_then turned with rfl | ⟨wire,rest',moved,rfl⟩
    · exact paired.lose rfl (tidy.lose first last blank)
    · exact advance (tidy.sent up blank rest') (step.sent (writeTurn_joins moved))
  next first last got phase =>
    have up := tidy.up (by simp [phase])
    have blank := tidy.blank (by simp [phase,ClientPhase.Asking])
    have step := paired.step up
    rw [phase] at step
    rcases Turn.map_then turned with rfl | ⟨got',wire,moved,rfl⟩
    · exact paired.lose rfl (tidy.lose first last blank)
    · obtain ⟨joins,inside⟩ := readTurn_joins moved
      exact advance (tidy.gotHeader up blank got') (step.gotHeader blank joins inside)
  next first last count got phase =>
    have up := tidy.up (by simp [phase])
    have step := paired.step up
    rw [phase] at step
    rcases Turn.map_then turned with rfl | ⟨got',wire,moved,rfl⟩
    · exact paired.lose (c := {s.client with out := []}) rfl (tidy.lostPayload first last)
    · exact advance (tidy.gotPayload up count got') (step.gotPayload (readTurn_joins moved).1)

/-- The server moves. -/
theorem serve {server : ServedConnection} {up down : List UInt8} (grows : s.server.fetched <+: server.fetched)
    (step : InStep s.client.phase s.toServer s.toClient s.server.phase s.client.answers s.server.fetched →
      InStep s.client.phase up down server.phase s.client.answers server.fetched) :
    Paired {s with server := server, toServer := up, toClient := down} :=
  ⟨paired.tidy,paired.fetched.trans grows,fun up => step (paired.step up)⟩

theorem leave : Paired {s with server := s.server.leave} := ⟨paired.tidy,paired.fetched,paired.step⟩

theorem serverTurn {outcome : Outcome} (turned : s.serverTurn outcome = some s') : s'.Paired := by
  unfold RecoveryLink.serverTurn at turned
  split at turned
  next got phase =>
    rcases Turn.map_then turned with rfl | ⟨got',wire,moved,rfl⟩
    · exact paired.leave
    · refine paired.serve (by rw [ServedConnection.fetched_gotRequest]) fun step => ?_
      rw [phase] at step
      rw [ServedConnection.fetched_gotRequest]
      exact step.gotRequest (readTurn_joins moved).1
  next found rest payload phase =>
    rcases Turn.map_then turned with rfl | ⟨wire,rest',moved,rfl⟩
    · exact paired.leave
    · refine paired.serve (by rw [ServedConnection.fetched_sentHeader]) fun step => ?_
      rw [phase] at step
      rw [ServedConnection.fetched_sentHeader]
      exact step.sentHeader (writeTurn_joins moved)
  next found rest phase =>
    rcases Turn.map_then turned with rfl | ⟨wire,rest',moved,rfl⟩
    · exact paired.leave
    · refine paired.serve (by rw [ServedConnection.fetched_sentPayload]) fun step => ?_
      rw [phase] at step
      rw [ServedConnection.fetched_sentPayload]
      exact step.sentPayload (writeTurn_joins moved)
  next => simp at turned

theorem fetch {fuel : Nat} {padding : Nat → UInt32} (turned : s.fetch fuel padding = some s') : s'.Paired := by
  unfold RecoveryLink.fetch at turned
  split at turned
  next first last phase =>
    split at turned
    next => simp at turned
    next messages served =>
      rw [← Option.some.inj turned]
      refine paired.serve (List.prefix_append _ _) fun step => ?_
      rw [phase] at step
      exact step.reply padding (s.history.serve_length served)
  next => simp at turned

theorem move {m : LinkMove} (moved : s.move m = some s') : s'.Paired := by
  cases m with
  | request first last =>
    rw [RecoveryLink.move,Option.ite_none_right_eq_some] at moved
    rw [← Option.some.inj moved.2]
    exact paired.request moved.1 first last
  | client outcome => exact paired.clientTurn moved
  | enter running =>
    rw [RecoveryLink.move,Option.ite_none_right_eq_some] at moved
    obtain ⟨⟨_,phase⟩,moved⟩ := moved
    rw [← Option.some.inj moved]
    cases running with
    | false => exact paired.leave
    | true =>
      refine paired.serve List.prefix_rfl fun step => ?_
      rw [phase] at step
      exact step.enter
  | server outcome =>
    rw [RecoveryLink.move,Option.ite_none_right_eq_some] at moved
    exact paired.serverTurn moved.2
  | fetch fuel padding =>
    rw [RecoveryLink.move,Option.ite_none_right_eq_some] at moved
    exact paired.fetch moved.2
  | append message =>
    rw [← Option.some.inj moved]
    exact ⟨paired.tidy,paired.fetched,paired.step⟩

end Paired

/-- In every state of a connection, however the two ends were interleaved, the streams
were split and the calls failed: the answers handed out are, in order, what the server
fetched for the same ranges; a call that returned false left `out` empty; and after
such a call, other than one with `to < from`, the client is not connected and every
later call returned false. -/
theorem requests_paired {h : HistoryStore cap} (reached : Reached RecoveryLink.move {history := h} s) :
    s.client.answers <+: s.server.fetched ∧
      (∀ call ∈ s.client.calls, call.error ≠ none → call.out = []) ∧
      (∀ call ∈ s.client.calls, call.Fatal → s.client.connected = false) ∧
      s.client.calls.Pairwise fun earlier call => earlier.Fatal → call.error ≠ none := by
  have paired : s.Paired := reached.invariant (Paired.create h) fun _ _ _ paired moved => paired.move moved
  exact ⟨paired.fetched,paired.tidy.settled.empty,paired.tidy.settled.closed,paired.tidy.settled.later⟩

/-- A history that holds message 1. -/
def history1 : HistoryStore SequenceManager.four :=
  (HistoryStore.create _).append {sequenceNumber := 1, price := 3, type := 1, side := 2}

/-- The request goes out in two portions and its answer comes back in pieces; a call
with `to < from` does no harm; then the server's answer is cut short. -/
theorem requests_paired_split : ∃ s : RecoveryLink SequenceManager.four,
    Reached RecoveryLink.move {history := history1} s ∧
      s.client.calls = [⟨1,1,none,[{sequenceNumber := 1, price := 3, type := 1, side := 2}]⟩,
        ⟨2,1,some .invalidRange,[]⟩,⟨1,1,some .payload,[]⟩,⟨1,1,some .notConnected,[]⟩] ∧
      s.client.answers <+: s.server.fetched := by
  obtain ⟨s,reached,calls⟩ := play_finds RecoveryLink.move {history := history1}
    [.request 1 1,.client (.moved 10),.enter true,.server (.moved 7),.client .interrupted,.client (.moved 14),
      .server (.moved 17),.fetch 3 (fun _ => 9),.server (.moved 5),.client (.moved 5),.server (.moved 3),
      .server (.moved 40),.client (.moved 3),.client (.moved 40),.server (.moved 8),.client (.moved 8),
      .request 2 1,.request 1 1,.client (.moved 24),.enter true,.server (.moved 24),.fetch 3 (fun _ => 0),
      .server (.moved 8),.server (.moved 20),.server .failed,.client (.moved 8),.client (.moved 20),
      .client (.moved 0),.request 1 1]
    (fun s => s.client.calls = [⟨1,1,none,[{sequenceNumber := 1, price := 3, type := 1, side := 2}]⟩,
      ⟨2,1,some .invalidRange,[]⟩,⟨1,1,some .payload,[]⟩,⟨1,1,some .notConnected,[]⟩]) (by decide +kernel)
  exact ⟨s,reached,calls,(requests_paired reached).1⟩

end RecoveryLink
end Llte
