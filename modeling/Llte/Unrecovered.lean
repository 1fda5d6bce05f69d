import Llte.Datagram
import Llte.Lossless

/-! The handler without recovery: no client was configured, or its connection is gone and
every request fails. It then passes on exactly the messages whose number is higher than
all numbers received before. -/
namespace Llte.SequenceManager
open Foundation

variable {cap : Capacity} {σ : Type}

/-- The messages with a number above every earlier one; `next` is the least such number. -/
def fresh : Nat → List FeedMessage → List FeedMessage
  | _,[] => []
  | next,f::rest => if next ≤ f.sequence then f::fresh (f.sequence+1) rest else fresh next rest

def after (next : Nat) (arrivals : List FeedMessage) : Nat :=
  arrivals.foldl (fun next f => max next (f.sequence+1)) next

private theorem after_cons (next : Nat) (f : FeedMessage) (rest : List FeedMessage) :
    after next (f::rest) = after (max next (f.sequence+1)) rest := rfl

private theorem fresh_append (next : Nat) (arrivals later : List FeedMessage) :
    fresh next (arrivals ++ later) = fresh next arrivals ++ fresh (after next arrivals) later := by
  induction arrivals generalizing next with
  | nil => rfl
  | cons f rest ih =>
    rw [List.cons_append,fresh,fresh,after_cons]
    split
    next above => rw [ih,List.cons_append,Nat.max_eq_right (by omega)]
    next below => rw [ih,Nat.max_eq_left (by omega)]

private theorem after_append (next : Nat) (arrivals later : List FeedMessage) :
    after next (arrivals ++ later) = after (after next arrivals) later := List.foldl_append

private theorem fresh_consecutive (t0Recv t1Parsed : UInt64) {s : Nat} {messages : List MarketMessage}
    (consecutive : Consecutive s messages) :
    fresh s (messages.map (stamp t0Recv t1Parsed)) = messages.map (stamp t0Recv t1Parsed) ∧
      after s (messages.map (stamp t0Recv t1Parsed)) = s+messages.length := by
  induction messages generalizing s with
  | nil => exact ⟨rfl,rfl⟩
  | cons message rest ih =>
    have number : (stamp t0Recv t1Parsed message).sequence = s := consecutive.1
    obtain ⟨all,last⟩ := ih consecutive.2
    rw [List.map_cons,fresh,after_cons,number,if_pos (Nat.le_refl _),all,Nat.max_eq_right (by omega),last,
      List.length_cons]
    exact ⟨rfl,by omega⟩

private theorem heldIn_append (m : SequenceManager cap) {low mid high : Nat} (first : low ≤ mid) (second : mid ≤ high) :
    m.heldIn low high = m.heldIn low mid ++ m.heldIn mid high := by
  have count : high - low = (mid - low)+(high - mid) := by omega
  have middle : low+1*(mid - low) = mid := by omega
  rw [heldIn,count,← List.range'_append,middle,List.filter_append,List.map_append,heldIn,heldIn]

private theorem heldIn_concat (m : SequenceManager cap) {low high : Nat} (ordered : low ≤ high) :
    m.heldIn low (high+1) =
      m.heldIn low high ++ if m.state high = .filled then [(m.slot high).payload] else [] := by
  rw [heldIn_append m ordered (Nat.le_succ high),heldIn_cons m (Nat.lt_succ_self high),heldIn_self,List.append_nil]

/-- What `outs` waits to be handed out; `next` is the number after the last one received. -/
structure Waiting (next : Nat) (outs : List FeedMessage) (m : SequenceManager cap) : Prop where
  sound : Sound m
  running : m.started = true
  low : m.base ≤ next
  high : next ≤ m.base+cap.size
  used : ∀ q, m.base ≤ q → q < next → m.state q ≠ .empty
  rest : ∀ q ∈ m.window, next ≤ q → m.state q = .empty
  held : m.heldIn m.base next = outs

namespace Waiting
variable {next : Nat} {outs : List FeedMessage} {m m' : SequenceManager cap} {f : FeedMessage}

theorem congr (waiting : Waiting next outs m) (expected : m'.expected = m.expected)
    (started : m'.started = m.started) (slots : ∀ q, m'.slot q = m.slot q) : Waiting next outs m' := by
  have based : m'.base = m.base := congrArg UInt64.toNat expected
  have states (q : Nat) : m'.state q = m.state q := by rw [state,slots,state]
  refine ⟨waiting.sound.congr expected started slots,started.trans waiting.running,?_,?_,?_,?_,?_⟩
  · rw [based]
    exact waiting.low
  · rw [based]
    exact waiting.high
  · intro q low high
    rw [states]
    exact waiting.used q (based ▸ low) high
  · intro q hq above
    rw [states]
    exact waiting.rest q (window_congr expected ▸ hq) above
  · rw [based,heldIn_congr (fun q _ _ => slots q)]
    exact waiting.held

theorem begin (waiting : Waiting next outs m) (f : FeedMessage) : Waiting next outs (m.begin f) := by
  refine waiting.congr ?_ ?_ (begin_slot m f)
  · simp [SequenceManager.begin,waiting.running]
  · rw [begin_started,waiting.running]

/-- The new message sits at `n`, and the slots between are passed over. -/
theorem extend {n : Nat} (waiting : Waiting next outs m) (sound : Sound m') (running : m'.started = true)
    (based : m'.base = m.base) (inside : n < m.base+cap.size) (above : next ≤ n)
    (kept : ∀ q, m.base ≤ q → q < next → m'.slot q = m.slot q)
    (skipped : ∀ q, next ≤ q → q < n → m'.state q = .skipped) (here : m'.slot n = ⟨f,.filled⟩)
    (beyond : ∀ q ∈ m.window, n < q → m'.slot q = m.slot q) : Waiting (n+1) (outs ++ [f]) m' := by
  have low := waiting.low
  have window : m'.window = m.window := by rw [SequenceManager.window,based,SequenceManager.window]
  refine ⟨sound,running,by omega,by omega,?_,?_,?_⟩
  · intro q lowq highq
    rcases Nat.lt_or_ge q next with early | late
    · rw [state,kept q (by omega) early]
      exact waiting.used q (by omega) early
    · rcases Nat.lt_or_ge q n with between | last
      · rw [skipped q late between]
        simp
      · rw [show q = n by omega,state,here]
        simp
  · intro q hq aboveq
    rw [window] at hq
    rw [state,beyond q hq (by omega)]
    exact waiting.rest q hq (by omega)
  · have through (count : Nat) (upto : next+count ≤ n) : m'.heldIn m.base (next+count) = outs := by
      induction count with
      | zero => rw [Nat.add_zero,heldIn_congr kept,waiting.held]
      | succ count ih =>
        rw [← Nat.add_assoc,heldIn_concat m' (by omega),ih (by omega),skipped _ (by omega) (by omega)]
        simp
    have all := through (n - next) (by omega)
    rw [Nat.add_sub_of_le above] at all
    rw [based,heldIn_concat m' (by omega),all,state,here]
    rfl

theorem store (waiting : Waiting next outs m) (here : f.sequence = next) (near : next < m.base+cap.size)
    (room : f.sequence+1 < 2^64) : Waiting (next+1) (outs ++ [f]) (m.store f) := by
  have low := waiting.low
  have inside : f.sequence ∈ m.window := by
    rw [mem_window]
    omega
  have free : m.state f.sequence ≠ .filled := by
    rw [waiting.rest _ inside (by omega)]
    simp
  have based : (m.store f).base = m.base := by rw [base,store_expected,base]
  refine waiting.extend (waiting.sound.store waiting.running inside room) ?_ based near (Nat.le_refl _) ?_ ?_ ?_ ?_
  · rw [store_started]
    exact waiting.running
  · intro q lowq highq
    rw [slot_store inside (by rw [mem_window]; omega),if_neg (by omega)]
  · intro q lowq highq
    omega
  · rw [← here,slot_store inside inside,if_pos ⟨rfl,free⟩]
  · intro q hq above
    rw [slot_store inside hq,if_neg (by omega)]

/-- Slots handed out or passed over in front of `next` leave the rest waiting. -/
theorem walked {front : List FeedMessage} (waiting : Waiting next outs m) (walked : Walked m front m')
    (upto : m'.base ≤ next) : Waiting next (m'.heldIn m'.base next) m' ∧ outs = front ++ m'.heldIn m'.base next := by
  have high := waiting.high
  have grown := walked.grown
  have same (q : Nat) (low : m'.base ≤ q) (below : q < next) : m'.slot q = m.slot q :=
    walked.ahead q low (by omega)
  refine ⟨⟨walked.sound,walked.running,upto,by omega,?_,?_,rfl⟩,?_⟩
  · intro q lowq highq
    rw [state,same q lowq highq]
    exact waiting.used q (by omega) highq
  · intro q hq above
    rw [mem_window] at hq
    by_cases old : q < m.base+cap.size
    · rw [state,walked.ahead q (by omega) old]
      exact waiting.rest q (by rw [mem_window]; omega) above
    · exact walked.beyond q (by omega) (by omega)
  · rw [← waiting.held,walked.handed,heldIn_congr same]
    exact heldIn_append m grown upto

theorem drain (waiting : Waiting next outs m) :
    m.drain.1 = outs ∧ Waiting next [] m.drain.2 ∧ m.drain.2.base = next := by
  have low := waiting.low
  have high := waiting.high
  obtain ⟨walked,vacant⟩ := drain_walked waiting.sound waiting.running
  have grown := walked.grown
  have based : m.drain.2.base = next := by
    have notBefore : next ≤ m.drain.2.base := by
      by_cases none : next = m.base
      · omega
      · have past := drain_passes waiting.sound waiting.running (s := next-1) (by omega)
          (fun q lowq highq => waiting.used q lowq (by omega))
        omega
    by_contra other
    have within := walked.within
    exact walked.used next low (by omega) (waiting.rest next (by rw [mem_window]; omega) (Nat.le_refl _))
  obtain ⟨empty,whole⟩ := waiting.walked walked (Nat.le_of_eq based)
  rw [based,heldIn_self] at empty whole
  rw [List.append_nil] at whole
  exact ⟨whole.symm,empty,based⟩

end Waiting

section Failing
variable {client : Option (Client σ)} (failing : ∀ request ∈ client, ∀ c first last, (request c first last).1 = none)
include failing

private theorem Accepted.unanswered {b r : SequenceManager cap} {c c' : σ} {f : FeedMessage} {fuel : Nat}
    (inside : f.sequence ∈ b.window) (ahead : b.base < f.sequence)
    (requested : requestMissing client fuel
      ((b.store f).noteGap b.expected (f.message.sequenceNumber - 1)) c b.expected
      (f.message.sequenceNumber - 1) = some (r,c')) :
    GapClosed (fun _ => False) b f (r.skipLoop b.base (f.sequence - b.base)) := by
  refine gap_closed inside ahead (requestMissing_recovers (fun _ _ => False)
    (fun _ _ _ _ _ _ _ _ _ known => known) ?_ requested).1
  intro request member c start finish answer c' asked
  have none := failing request member c start finish
  rw [asked] at none
  simp at none

/-- The first message that a drained sequencer takes. -/
theorem Waiting.first {next : Nat} {b m' : SequenceManager cap} {c c' : σ} {f : FeedMessage}
    (waiting : Waiting next [] b) (based : b.base = next) (call : Accepted client b c f m' c')
    (above : next ≤ f.sequence) (room : f.sequence+cap.size < 2^64) :
    Waiting (f.sequence+1) [f] m' ∧ m'.base = if next+cap.size ≤ f.sequence then f.sequence else next := by
  have pos := cap.pos
  have sound := waiting.sound.accepted waiting.running room call
  have running := call.started.trans waiting.running
  cases call with
  | stale old => omega
  | jump far =>
    have moved := resynchronize_base b f
    have slots (q : Nat) (low : f.sequence ≤ q) (high : q < f.sequence+cap.size) := resynchronize_slot b f low high
    refine ⟨⟨sound,running,by omega,by omega,?_,?_,?_⟩,by rw [moved,if_pos (by omega)]⟩
    · intro q low high
      rw [state,slots q (by omega) (by omega),if_pos (by omega)]
      simp
    · intro q hq later
      rw [mem_window] at hq
      rw [state,slots q (by omega) (by omega),if_neg (by omega)]
    · rw [moved,heldIn_concat _ (Nat.le_refl _),heldIn_self,state,slots _ (Nat.le_refl _) (by omega),if_pos rfl]
      rfl
  | plain inside quiet =>
    have bounds := (mem_window b _).mp inside
    have here : f.sequence = next := by
      rcases quiet with same | busy
      · omega
      · exact absurd (waiting.rest _ b.base_mem_window (by omega)) busy
    refine ⟨?_,?_⟩
    · have stored := waiting.store here (by omega) (by omega)
      rw [← here] at stored
      exact stored
    · rw [base,store_expected,if_neg (by omega)]
      exact based
  | recovery inside ahead vacant fuel r c' requested =>
    have bounds := (mem_window b _).mp inside
    have closed := Accepted.unanswered failing inside ahead requested
    have kept : (r.skipLoop b.base (f.sequence - b.base)).base = b.base := congrArg UInt64.toNat closed.expected
    have empty (q : Nat) (hq : q ∈ b.window) : b.state q = .empty :=
      waiting.rest q hq (by rw [← based]; exact ((mem_window b q).mp hq).1)
    have others (q : Nat) (hq : q ∈ b.window) (other : q ≠ f.sequence) :
        (r.skipLoop b.base (f.sequence - b.base)).slot q =
          if q < f.sequence then {b.slot q with state := .skipped} else b.slot q := by
      rcases closed.others q hq (by rw [empty q hq]; simp) other with ⟨_,_,impossible⟩ | same
      · exact absurd impossible (by simp)
      · rw [same]
        simp [empty q hq]
    refine ⟨?_,by rw [kept,if_neg (by omega)]; exact based⟩
    have stored := closed.stored (by rw [empty _ inside]; simp)
    refine waiting.extend sound running kept (by omega) above ?_ ?_ stored ?_
    · intro q low high
      omega
    · intro q low high
      rw [state,others q (by rw [mem_window]; omega) (by omega),if_pos high]
    · intro q hq later
      rw [others q hq (by omega),if_neg (by omega)]

omit failing in
theorem Waiting.follows {next : Nat} {outs : List FeedMessage} {b m' : SequenceManager cap} {c c' : σ}
    {f : FeedMessage} (waiting : Waiting next outs b) (call : Accepted client b c f m' c') (here : f.sequence = next)
    (near : next < b.base+cap.size) (room : f.sequence+1 < 2^64) :
    Waiting (next+1) (outs ++ [f]) m' ∧ m'.base = b.base := by
  have low := waiting.low
  cases call with
  | stale old => omega
  | jump far => omega
  | plain inside quiet => exact ⟨waiting.store here near room,by rw [base,store_expected,base]⟩
  | recovery inside ahead vacant fuel r c' requested => exact absurd vacant (waiting.used _ (Nat.le_refl _) (by omega))

omit failing in
theorem acceptAll_follows {fuel : Nat} {t0Recv t1Parsed : UInt64} (messages : List MarketMessage) {next : Nat}
    {outs : List FeedMessage} {m m' : SequenceManager cap} {c c' : σ} {calls : List (Call cap)}
    (done : acceptAll client fuel (messages.map (stamp t0Recv t1Parsed)) m c = some (calls,m',c'))
    (consecutive : Consecutive next messages) (small : next+messages.length ≤ 2^63)
    (within : next+messages.length ≤ m.base+cap.size) (waiting : Waiting next outs m) :
    Waiting (next+messages.length) (outs ++ messages.map (stamp t0Recv t1Parsed)) m' ∧ m'.base = m.base := by
  induction messages generalizing next outs m c calls with
  | nil =>
    cases done
    rw [List.map_nil,List.append_nil]
    exact ⟨waiting,rfl⟩
  | cons message rest ih =>
    obtain ⟨m₁,c₁,later,returned,fed,rfl⟩ := acceptAll_cons done
    have number : (stamp t0Recv t1Parsed message).sequence = next := consecutive.1
    have based : (m.begin (stamp t0Recv t1Parsed message)).base = m.base := by
      rw [begin_base,waiting.running,if_pos rfl]
    rw [List.length_cons] at small within ⊢
    obtain ⟨waiting₁,base₁⟩ := (waiting.begin _).follows (accept_cases returned) number (by omega) (by omega)
    obtain ⟨all,base₂⟩ := ih fed consecutive.2 (by omega) (by omega) waiting₁
    rw [List.map_cons,show next+(rest.length+1) = next+1+rest.length by omega]
    rw [List.append_assoc,List.singleton_append] at all
    exact ⟨all,base₂.trans (base₁.trans based)⟩

/-- One packet, taken by a drained sequencer that waits for `next`. -/
theorem acceptAll_fresh {fuel : Nat} {t0Recv t1Parsed : UInt64} (messages : List MarketMessage) {next s : Nat}
    {m m' : SequenceManager cap} {c c' : σ} {calls : List (Call cap)}
    (done : acceptAll client fuel (messages.map (stamp t0Recv t1Parsed)) m c = some (calls,m',c'))
    (consecutive : Consecutive s messages) (small : s+messages.length ≤ 2^63)
    (fits : if s < next+cap.size then s+messages.length ≤ next+cap.size else messages.length ≤ cap.size)
    (waiting : Waiting next [] m) (based : m.base = next) :
    Waiting (after next (messages.map (stamp t0Recv t1Parsed)))
      (fresh next (messages.map (stamp t0Recv t1Parsed))) m' := by
  have size := cap.bound
  induction messages generalizing s m c calls with
  | nil =>
    cases done
    exact waiting
  | cons message rest ih =>
    obtain ⟨m₁,c₁,later,returned,fed,rfl⟩ := acceptAll_cons done
    have call := accept_cases returned
    have number : (stamp t0Recv t1Parsed message).sequence = s := consecutive.1
    have begun := waiting.begin (stamp t0Recv t1Parsed message)
    have base₀ : (m.begin (stamp t0Recv t1Parsed message)).base = next := by
      rw [begin_base,waiting.running,if_pos rfl]
      exact based
    rw [List.length_cons] at small fits
    rw [List.map_cons,fresh,after_cons,number]
    split
    next above =>
      obtain ⟨first,base₁⟩ := begun.first failing base₀ call (by omega) (by omega)
      have room : s+1+rest.length ≤ m₁.base+cap.size := by
        rw [base₁,number]
        split at fits <;> split <;> omega
      obtain ⟨all,last⟩ := fresh_consecutive t0Recv t1Parsed consecutive.2
      rw [Nat.max_eq_right (by omega),all,last]
      rw [number] at first
      exact (acceptAll_follows rest fed consecutive.2 (by omega) room first).1
    next below =>
      -- the front of the packet is old
      have pos := cap.pos
      have same : Waiting next [] m₁ ∧ m₁.base = next := by
        cases call with
        | stale old => exact ⟨begun.congr rfl rfl (fun _ => rfl),base₀⟩
        | jump far => omega
        | plain inside _ => exact absurd ((mem_window _ _).mp inside).1 (by omega)
        | recovery inside _ _ _ _ _ _ => exact absurd ((mem_window _ _).mp inside).1 (by omega)
      rw [Nat.max_eq_left (by omega)]
      refine ih fed consecutive.2 (by omega) ?_ same.1 same.2
      rw [if_pos (by omega)] at fits
      rw [if_pos (by omega)]
      omega

end Failing

/-- The sequencer between two packets. -/
inductive Settled (next : Nat) (m : SequenceManager cap) : Prop where
  | new (unused : next = 0) (created : m = create cap)
  | waiting (waiting : Waiting next [] m) (based : m.base = next)

theorem Waiting.started (cap : Capacity) (f : FeedMessage) : Waiting f.sequence [] ((create cap).begin f) ∧
    ((create cap).begin f).base = f.sequence := by
  have vacant (q : Nat) : ((create cap).begin f).state q = .empty := by
    rw [state,begin_slot]
    exact (Sound.create cap).fresh rfl q
  have based : ((create cap).begin f).base = f.sequence := by
    rw [begin_base]
    rfl
  refine ⟨⟨(Sound.create cap).begin f,begin_started _ f,by omega,by omega,?_,fun q _ _ => vacant q,?_⟩,based⟩
  · intro q low high
    omega
  · rw [based]
    exact heldIn_self _ _

def arrivals (rounds : List (Round cap)) : List FeedMessage :=
  rounds.flatMap fun round => round.calls.map fun call => call.incoming

section Runs
variable {client : Option (Client σ)} (failing : ∀ request ∈ client, ∀ c first last, (request c first last).1 = none)
include failing

theorem Settled.packet {next fuel : Nat} {t0Recv t1Parsed : UInt64} {packet : Packet} {m m' : SequenceManager cap}
    {c c' : σ} {round : Round cap} (settled : Settled next m)
    (handled : handlePacket client fuel t0Recv t1Parsed packet m c = some (round,m',c'))
    (small : packet.stop ≤ 2^63) (fits : round.fits) :
    round.outs = fresh next (round.calls.map fun call => call.incoming) ∧
      Settled (after next (round.calls.map fun call => call.incoming)) m' := by
  obtain ⟨first,messages,nonempty,batch,consecutive⟩ := packet
  unfold handlePacket at handled
  dsimp only at handled
  split at handled
  next => simp at handled
  next calls m₁ c₁ done =>
    cases handled
    have incoming := FeedHandler.acceptAll_calls done
    simp only [Round.fits,Round.start,Packet.stop] at small fits
    dsimp only
    rw [incoming]
    have waiting : Waiting (after next (messages.map (stamp t0Recv t1Parsed)))
        (fresh next (messages.map (stamp t0Recv t1Parsed))) m₁ := by
      cases settled with
      | waiting waiting based =>
        rw [waiting.running,if_pos rfl,based] at fits
        exact acceptAll_fresh failing messages done consecutive small fits waiting based
      | new unused created =>
        -- the very first message starts the stream at its own number
        subst unused created
        cases messages with
        | nil => exact absurd rfl nonempty
        | cons message rest =>
          obtain ⟨m₂,c₂,later,returned,fed,rfl⟩ := acceptAll_cons done
          have number : (stamp t0Recv t1Parsed message).sequence = first := consecutive.1
          have size := cap.bound
          have pos := cap.pos
          obtain ⟨started,based⟩ := Waiting.started cap (stamp t0Recv t1Parsed message)
          obtain ⟨one,base₂⟩ := started.first failing based (accept_cases returned) (Nat.le_refl _)
            (by rw [List.length_cons] at small; omega)
          rw [if_neg (by omega),number] at base₂
          rw [number] at one
          have fresh₁ : (create cap).started = false := rfl
          simp only [fresh₁,Bool.false_eq_true,if_false] at fits
          rw [if_pos (by omega),List.length_cons] at fits
          rw [List.length_cons] at small
          obtain ⟨all,last⟩ := fresh_consecutive t0Recv t1Parsed consecutive.2
          rw [List.map_cons,fresh,after_cons,number,if_pos (Nat.zero_le _),Nat.max_eq_right (by omega),all,last]
          exact (acceptAll_follows rest fed consecutive.2 (by omega) (by omega) one).1
    obtain ⟨outs,settled',based⟩ := waiting.drain
    exact ⟨outs,.waiting settled' based⟩

theorem handlerRun_fresh {c₀ c : σ} {rounds : List (Round cap)} {m : SequenceManager cap}
    (run : HandlerRun client c₀ rounds m c) (small : ∀ round ∈ rounds, round.packet.stop ≤ 2^63)
    (fits : ∀ round ∈ rounds, round.fits) :
    delivered rounds = fresh 0 (arrivals rounds) ∧ Settled (after 0 (arrivals rounds)) m := by
  induction run with
  | start => exact ⟨rfl,.new rfl rfl⟩
  | @packet rounds round m m' c c' fuel t0Recv t1Parsed packet before handled ih =>
    obtain ⟨sofar,settled⟩ := ih (fun one member => small one (by simp [member]))
      (fun one member => fits one (by simp [member]))
    have limit := small round (by simp)
    rw [(handlePacket_round handled).2] at limit
    obtain ⟨outs,settled'⟩ := settled.packet failing handled limit (fits round (by simp))
    have grown : arrivals (rounds ++ [round]) = arrivals rounds ++ round.calls.map fun call => call.incoming := by
      simp [arrivals]
    have more : delivered (rounds ++ [round]) = delivered rounds ++ round.outs := by simp [delivered]
    rw [grown,more,sofar,outs,← fresh_append,after_append]
    exact ⟨rfl,settled'⟩

end Runs

/-- Where every request fails or there is no client, and every packet fits the window it
meets, the handler delivers exactly the arrivals whose number is above all numbers
before: it tolerates repeated and lost packets and no reordering. -/
theorem unrecovered_delivers_fresh (client : Option (Client σ)) (c₀ c : σ) (rounds : List (Round cap))
    (m : SequenceManager cap) (run : HandlerRun client c₀ rounds m c)
    (failing : ∀ request ∈ client, ∀ c first last, (request c first last).1 = none)
    (small : ∀ round ∈ rounds, ∀ message ∈ round.packet.messages, message.sequenceNumber.toNat < 2^63)
    (fits : ∀ round ∈ rounds, round.fits) : delivered rounds = fresh 0 (arrivals rounds) :=
  (handlerRun_fresh failing run (fun round member => round.packet.stop_le (small round member)) fits).1

instance (round : Round cap) : Decidable round.fits :=
  inferInstanceAs (Decidable (if round.packet.first < round.start+cap.size then
    round.packet.stop ≤ round.start+cap.size else round.packet.messages.length ≤ cap.size))

/-- Plays the packets one after the other. -/
def handlePackets (client : Option (Client σ)) (fuel : Nat) : List Packet → List (Round cap) →
    SequenceManager cap → σ → Option (List (Round cap) × SequenceManager cap × σ)
  | [],rounds,m,c => some (rounds,m,c)
  | packet::rest,rounds,m,c =>
    match handlePacket client fuel 0 0 packet m c with
    | none => none
    | some (round,m,c) => handlePackets client fuel rest (rounds ++ [round]) m c

private theorem handlePackets_run {client : Option (Client σ)} {fuel : Nat} {c₀ c c' : σ} {rounds rounds' : List (Round cap)}
    {m m' : SequenceManager cap} (packets : List Packet) (before : HandlerRun client c₀ rounds m c)
    (played : handlePackets client fuel packets rounds m c = some (rounds',m',c')) :
    HandlerRun client c₀ rounds' m' c' := by
  induction packets generalizing rounds m c with
  | nil =>
    cases played
    exact before
  | cons packet rest ih =>
    rw [handlePackets] at played
    split at played
    next => simp at played
    next round m₁ c₁ handled => exact ih (.packet fuel 0 0 packet before handled) played

/-- Packets 1, 3, 2 and 4 arrive in this order: 2 is given up when 3 arrives, and is no
longer wanted when it comes. -/
theorem unrecovered_delivers_fresh_late : ∃ (rounds : List (Round four)) (m : SequenceManager four),
    HandlerRun (none : Option (Client Unit)) () rounds m () ∧
    (arrivals rounds).map FeedMessage.sequence = [1,3,2,4] ∧
    (delivered rounds).map FeedMessage.sequence = [1,3,4] := by
  have checked : (handlePackets (none : Option (Client Unit)) 1 [single 1,single 3,single 2,single 4] []
      (create four) ()).any (fun r =>
        (arrivals r.1).map FeedMessage.sequence = [1,3,2,4] ∧
        (fresh 0 (arrivals r.1)).map FeedMessage.sequence = [1,3,4] ∧
        (∀ round ∈ r.1, ∀ message ∈ round.packet.messages, message.sequenceNumber.toNat < 2^63) ∧
        ∀ round ∈ r.1, round.fits) = true := by
    decide +kernel
  obtain ⟨⟨rounds,m,c⟩,played,seen⟩ := (Option.any_eq_true _ _).mp checked
  obtain ⟨numbers,passed,small,fits⟩ := of_decide_eq_true seen
  have run := handlePackets_run _ .start played
  refine ⟨rounds,m,run,numbers,?_⟩
  rw [unrecovered_delivers_fresh none () c rounds m run (by simp) small fits]
  exact passed

end Llte.SequenceManager
