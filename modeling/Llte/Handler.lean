import Llte.SequencerDrain

/-! The handler's receive loop between two datagrams: accept every message of a
valid packet in order, then drain. Only here does the sequencer meet its input, so
its window is tested once per message but emptied once per packet. -/
namespace Llte
open Foundation

/-- The payload of a datagram that passed the checks on its header: it is neither empty nor
too long. That its numbers are consecutive is not checked but taken over from the sender. -/
structure Packet where
  first : Nat
  messages : List MarketMessage
  nonempty : messages ≠ []
  batch : messages.length ≤ kMaxBatch
  consecutive : Consecutive first messages

def Packet.stop (packet : Packet) : Nat := packet.first+packet.messages.length

theorem Packet.stop_le (packet : Packet) {bound : Nat}
    (below : ∀ message ∈ packet.messages, message.sequenceNumber.toNat < bound) :
    packet.stop ≤ bound := by
  obtain ⟨last,member,number⟩ := consecutive_last packet.nonempty packet.consecutive
  have limit := below last member
  rw [Packet.stop]
  omega

def stamp (t0Recv t1Parsed : UInt64) (message : MarketMessage) : FeedMessage :=
  ⟨message,t0Recv,t1Parsed,false⟩

namespace SequenceManager
variable {cap : Capacity} {σ : Type}

/-- `accept` on each message in order; the completed calls are recorded. -/
def acceptAll (client : Option (Client σ)) (fuel : Nat) :
    List FeedMessage → SequenceManager cap → σ → Option (List (Call cap) × SequenceManager cap × σ)
  | [],m,c => some ([],m,c)
  | f::rest,m,c =>
    match accept client fuel m c f with
    | none => none
    | some (m₁,c₁) =>
      match acceptAll client fuel rest m₁ c₁ with
      | none => none
      | some (calls,m',c') => some (⟨m,f⟩::calls,m',c')

/-- What one packet did: the calls made for it and the messages drained after it. -/
structure Round (cap : Capacity) where
  pre : SequenceManager cap
  packet : Packet
  calls : List (Call cap)
  outs : List FeedMessage

def handlePacket (client : Option (Client σ)) (fuel : Nat) (t0Recv t1Parsed : UInt64) (packet : Packet)
    (m : SequenceManager cap) (c : σ) : Option (Round cap × SequenceManager cap × σ) :=
  match acceptAll client fuel (packet.messages.map (stamp t0Recv t1Parsed)) m c with
  | none => none
  | some (calls,m₁,c') => some (⟨m,packet,calls,m₁.drain.1⟩,m₁.drain.2,c')

/-- The states between two packets, with what happened so far. -/
inductive HandlerRun (client : Option (Client σ)) (c₀ : σ) :
    List (Round cap) → SequenceManager cap → σ → Prop where
  | start : HandlerRun client c₀ [] (create cap) c₀
  | packet {rounds : List (Round cap)} {round : Round cap} {m m' : SequenceManager cap} {c c' : σ}
      (fuel : Nat) (t0Recv t1Parsed : UInt64) (packet : Packet) (before : HandlerRun client c₀ rounds m c)
      (handled : handlePacket client fuel t0Recv t1Parsed packet m c = some (round,m',c')) :
      HandlerRun client c₀ (rounds ++ [round]) m' c'

def Call.current (call : Call cap) : Prop := call.at.base ≤ call.incoming.sequence
  deriving Decidable

def Call.held (call : Call cap) : Prop :=
  call.at.state call.incoming.sequence = .filled ∧
    (call.at.slot call.incoming.sequence).payload.sequence = call.incoming.sequence
  deriving Decidable

/-- Where the stream stands when the packet arrives; the first packet starts it. -/
def Round.start (round : Round cap) : Nat :=
  if round.pre.started then round.pre.base else round.packet.first

/-- The whole packet lies below the end of the window, or it starts past that end
and fits the window it opens. -/
def Round.fits (round : Round cap) : Prop :=
  if round.packet.first < round.start+cap.size then round.packet.stop ≤ round.start+cap.size
  else round.packet.messages.length ≤ cap.size

theorem acceptAll_cons {client : Option (Client σ)} {fuel : Nat} {f : FeedMessage} {rest : List FeedMessage}
    {m m' : SequenceManager cap} {c c' : σ} {calls : List (Call cap)}
    (done : acceptAll client fuel (f::rest) m c = some (calls,m',c')) :
    ∃ m₁ c₁ later, accept client fuel m c f = some (m₁,c₁) ∧
      acceptAll client fuel rest m₁ c₁ = some (later,m',c') ∧ calls = ⟨m,f⟩::later := by
  rw [acceptAll] at done
  split at done
  next => simp at done
  next m₁ c₁ returned =>
    split at done
    next => simp at done
    next later m₂ c₂ fed =>
      simp only [Option.some.injEq,Prod.mk.injEq] at done
      obtain ⟨rfl,rfl,rfl⟩ := done
      exact ⟨m₁,c₁,later,returned,fed,rfl⟩

private theorem acceptAll_returns (client : Option (Client σ)) {fuel : Nat} (messages : List FeedMessage)
    (m : SequenceManager cap) (c : σ) (enough : ∀ f ∈ messages, f.sequence < fuel) (small : fuel ≤ 2^63) :
    ∃ calls m' c', acceptAll client fuel messages m c = some (calls,m',c') := by
  induction messages generalizing m c with
  | nil => exact ⟨[],m,c,rfl⟩
  | cons f rest ih =>
    have limit := enough f (by simp)
    obtain ⟨m₁,c₁,returned⟩ := accept_returns client m c f (by omega) limit
    obtain ⟨calls,m',c',fed⟩ := ih m₁ c₁ (fun later member => enough later (by simp [member]))
    exact ⟨⟨m,f⟩::calls,m',c',by rw [acceptAll,returned]; dsimp only; rw [fed]⟩

theorem handlePacket_returns (client : Option (Client σ)) (t0Recv t1Parsed : UInt64) (packet : Packet)
    (m : SequenceManager cap) (c : σ)
    (small : ∀ message ∈ packet.messages, message.sequenceNumber.toNat < 2^63) :
    ∃ fuel round m' c', handlePacket client fuel t0Recv t1Parsed packet m c = some (round,m',c') := by
  have enough : ∀ f ∈ packet.messages.map (stamp t0Recv t1Parsed), f.sequence < 2^63 := by
    intro f member
    obtain ⟨message,original,rfl⟩ := List.mem_map.mp member
    exact small message original
  obtain ⟨calls,m₁,c₁,done⟩ := acceptAll_returns client _ m c enough (Nat.le_refl _)
  exact ⟨2^63,_,_,c₁,by rw [handlePacket,done]⟩

/-- What every call with a number below the window's end leaves in place. -/
structure Keeps (b : SequenceManager cap) (f : FeedMessage) (m' : SequenceManager cap) : Prop where
  based : m'.base = b.base
  kept : ∀ q ∈ b.window, b.state q = .filled → m'.slot q = b.slot q
  stored : b.base ≤ f.sequence → b.state f.sequence ≠ .filled → m'.slot f.sequence = ⟨f,.filled⟩

theorem Accepted.keeps {client : Option (Client σ)} {b m' : SequenceManager cap} {c c' : σ}
    {f : FeedMessage} (call : Accepted client b c f m' c') (near : f.sequence < b.base+cap.size) :
    Keeps b f m' := by
  cases call with
  | stale old =>
    refine ⟨rfl,fun _ _ _ => rfl,?_⟩
    intro current
    omega
  | jump far => omega
  | plain inside quiet =>
    refine ⟨?_,?_,?_⟩
    · rw [base,store_expected,base]
    · intro q hq held
      rw [slot_store inside hq,if_neg (fun both => both.2 held)]
    · intro _ free
      rw [slot_store inside inside,if_pos ⟨rfl,free⟩]
  | recovery inside ahead vacant fuel r c' requested =>
    have closed := Accepted.closed inside ahead requested
    refine ⟨?_,closed.kept,fun _ => closed.stored⟩
    rw [base,closed.expected,base]

private theorem Accepted.not_past {client : Option (Client σ)} {b m' : SequenceManager cap} {c c' : σ}
    {f : FeedMessage} (call : Accepted client b c f m' c') (current : b.base ≤ f.sequence) :
    m'.base ≤ f.sequence := by
  by_cases near : f.sequence < b.base+cap.size
  · rw [(call.keeps near).based]
    exact current
  · cases call with
    | stale old => omega
    | jump far => rw [resynchronize_base]
    | plain inside _ => exact absurd ((mem_window _ _).mp inside).2 near
    | recovery inside _ _ _ _ _ _ => exact absurd ((mem_window _ _).mp inside).2 near

theorem Accepted.takes {client : Option (Client σ)} {m m' : SequenceManager cap} {c c' : σ}
    {f : FeedMessage} (call : Accepted client (m.begin f) c f m' c') (sound : Sound m)
    (current : Call.current ⟨m,f⟩) (fresh : ¬ Call.held ⟨m,f⟩) :
    m'.slot f.sequence = ⟨f,.filled⟩ := by
  by_cases near : f.sequence < (m.begin f).base+cap.size
  · refine (call.keeps near).stored current ?_
    intro filled
    have inside : f.sequence ∈ (m.begin f).window := (mem_window _ _).mpr ⟨current,near⟩
    exact fresh ⟨filled,(sound.begin f).number _ inside filled⟩
  · have pos := cap.pos
    cases call with
    | stale old =>
      change (m.begin f).base ≤ f.sequence at current
      omega
    | jump far => rw [resynchronize_slot _ f (Nat.le_refl _) (by omega),if_pos rfl]
    | plain inside _ => exact absurd ((mem_window _ _).mp inside).2 near
    | recovery inside _ _ _ _ _ _ => exact absurd ((mem_window _ _).mp inside).2 near

/-- The rest of a packet, once its first message is in. -/
structure Fed (m : SequenceManager cap) (calls : List (Call cap)) (stop : Nat)
    (m' : SequenceManager cap) : Prop where
  sound : Sound m'
  running : m'.started = true
  based : m'.base = m.base
  kept : ∀ q ∈ m.window, m.state q = .filled → m'.slot q = m.slot q
  full : ∀ q, m'.base ≤ q → q < stop → m'.state q ≠ .empty
  taken : ∀ call ∈ calls, call.current → ¬ call.held →
    m'.base ≤ call.incoming.sequence ∧ call.incoming.sequence < stop ∧
      m'.slot call.incoming.sequence = ⟨call.incoming,.filled⟩

private theorem acceptAll_fed {client : Option (Client σ)} {fuel : Nat} {t0Recv t1Parsed : UInt64}
    (messages : List MarketMessage) {s : Nat} {m m' : SequenceManager cap} {c c' : σ}
    {calls : List (Call cap)}
    (done : acceptAll client fuel (messages.map (stamp t0Recv t1Parsed)) m c = some (calls,m',c'))
    (consecutive : Consecutive s messages) (small : s+messages.length ≤ 2^63)
    (within : s+messages.length ≤ m.base+cap.size) (sound : Sound m) (running : m.started = true)
    (full : ∀ q, m.base ≤ q → q < s → m.state q ≠ .empty) :
    Fed m calls (s+messages.length) m' := by
  induction messages generalizing s m c calls with
  | nil =>
    simp only [List.map_nil,acceptAll,Option.some.injEq,Prod.mk.injEq] at done
    obtain ⟨rfl,rfl,rfl⟩ := done
    exact ⟨sound,running,rfl,fun _ _ _ => rfl,full,by simp⟩
  | cons message rest ih =>
    have size := cap.bound
    obtain ⟨m₁,c₁,later,returned,fed,rfl⟩ := acceptAll_cons done
    generalize feeding : stamp t0Recv t1Parsed message = f at returned
    have number : f.sequence = s := by rw [← feeding]; exact consecutive.1
    simp only [List.length_cons] at small within ⊢
    have call := accept_cases returned
    have beginBase : (m.begin f).base = m.base := by rw [begin_base,running,if_pos rfl]
    have beginState (q : Nat) : (m.begin f).state q = m.state q := by rw [state,begin_slot,state]
    have beginWindow : (m.begin f).window = m.window := by rw [window,window,beginBase]
    have near : f.sequence < (m.begin f).base+cap.size := by omega
    have keeps := call.keeps near
    have based : m₁.base = m.base := keeps.based.trans beginBase
    have sound₁ := (sound.begin f).accepted (begin_started m f) (by omega) call
    have covered : ∀ q, m₁.base ≤ q → q < s+1 → m₁.state q ≠ .empty := by
      intro q low high
      by_cases current : (m.begin f).base ≤ f.sequence
      · refine (call.covered_iff current).mpr ?_ q low (by omega)
        refine .inr (.inr ?_)
        intro p lowp highp
        rw [beginState]
        exact full p (by omega) (by omega)
      · omega
    have rest₁ := ih fed consecutive.2 (by omega) (by omega) sound₁
      (call.started.trans (begin_started m f)) covered
    have window₁ : m₁.window = m.window := by rw [window,based,window]
    rw [show s+(rest.length+1) = s+1+rest.length by omega]
    refine ⟨rest₁.sound,rest₁.running,rest₁.based.trans based,?_,rest₁.full,?_⟩
    · intro q hq held
      have same : m₁.slot q = m.slot q := by
        rw [keeps.kept q (by rw [beginWindow]; exact hq) (by rw [beginState]; exact held),begin_slot]
      rw [rest₁.kept q (by rw [window₁]; exact hq) (by rw [state,same]; exact held),same]
    · intro one member current fresh
      rcases List.mem_cons.mp member with rfl | earlier
      · have now := call.takes sound current fresh
        change (m.begin f).base ≤ f.sequence at current
        have inside : f.sequence ∈ m₁.window := by
          rw [mem_window]
          omega
        have based' := rest₁.based
        refine ⟨?_,?_,?_⟩
        · change m'.base ≤ f.sequence
          omega
        · change f.sequence < s+1+rest.length
          omega
        · change m'.slot f.sequence = ⟨f,.filled⟩
          rw [rest₁.kept _ inside (by rw [state,now]),now]
      · exact rest₁.taken one earlier current fresh

/-- Between two packets: nothing is left to deliver. -/
structure Ready (m : SequenceManager cap) : Prop where
  sound : Sound m
  drained : m.started = true → m.state m.base = .empty

theorem Ready.create (cap : Capacity) : Ready (create cap) :=
  ⟨.create cap,fun running => by simp [SequenceManager.create] at running⟩

private theorem Ready.begin_vacant {m : SequenceManager cap} (ready : Ready m) (f : FeedMessage) :
    (m.begin f).state (m.begin f).base = .empty := by
  rw [state,begin_slot]
  cases running : m.started with
  | true =>
    rw [begin_base,running,if_pos rfl]
    exact ready.drained running
  | false => exact ready.sound.fresh running _

/-- The first message of a packet that fits opens or keeps a window for all of it. -/
theorem Accepted.opens {client : Option (Client σ)} {m m₁ : SequenceManager cap} {c c₁ : σ}
    {f : FeedMessage} {count : Nat} (call : Accepted client (m.begin f) c f m₁ c₁) (ready : Ready m)
    (fits : if f.sequence < (m.begin f).base+cap.size then f.sequence+count ≤ (m.begin f).base+cap.size
      else count ≤ cap.size) :
    f.sequence+count ≤ m₁.base+cap.size ∧ ∀ q, m₁.base ≤ q → q < f.sequence+1 → m₁.state q ≠ .empty := by
  have grown := call.base_le
  constructor
  · split at fits
    next near => omega
    next far =>
      cases call with
      | stale old => omega
      | jump _ =>
        rw [resynchronize_base]
        omega
      | plain inside _ => exact absurd ((mem_window _ _).mp inside).2 far
      | recovery inside _ _ _ _ _ _ => exact absurd ((mem_window _ _).mp inside).2 far
  · intro q low high
    by_cases current : (m.begin f).base ≤ f.sequence
    · exact (call.covered_iff current).mpr (.inr (.inl (ready.begin_vacant f))) q low (by omega)
    · omega

/-- A packet that fits loses nothing: each of its messages that is current and not
held when its call is made comes out of the drain. -/
theorem handlePacket_delivers {client : Option (Client σ)} {fuel : Nat} {t0Recv t1Parsed : UInt64}
    {packet : Packet} {m m' : SequenceManager cap} {c c' : σ} {round : Round cap}
    (handled : handlePacket client fuel t0Recv t1Parsed packet m c = some (round,m',c'))
    (small : packet.stop ≤ 2^63) (ready : Ready m) (fits : round.fits) :
    Ready m' ∧ ∀ call ∈ round.calls, call.current → ¬ call.held → call.incoming ∈ round.outs := by
  obtain ⟨first,messages,nonempty,batch,consecutive⟩ := packet
  unfold handlePacket at handled
  dsimp only at handled
  split at handled
  next => simp at handled
  next calls m₂ c₂ done =>
    simp only [Option.some.injEq,Prod.mk.injEq] at handled
    obtain ⟨rfl,rfl,rfl⟩ := handled
    cases messages with
    | nil => exact absurd rfl nonempty
    | cons message rest =>
      have size := cap.bound
      simp only [Round.fits,Round.start,Packet.stop,List.length_cons] at small fits
      obtain ⟨m₁,c₁,later,returned,fed,rfl⟩ := acceptAll_cons done
      generalize feeding : stamp t0Recv t1Parsed message = f at returned
      have number : f.sequence = first := by rw [← feeding]; exact consecutive.1
      have call := accept_cases returned
      rw [← number,← begin_base m f] at fits
      obtain ⟨within,full⟩ := call.opens ready fits
      have sound₁ := (ready.sound.begin f).accepted (begin_started m f) (by omega) call
      have fed₁ := acceptAll_fed rest fed (number ▸ consecutive.2) (by omega) (by omega) sound₁
        (call.started.trans (begin_started m f)) full
      have stop : f.sequence+1+rest.length ≤ m₂.base+cap.size := by
        rw [fed₁.based]
        omega
      obtain ⟨walked,vacant⟩ := drain_walked fed₁.sound fed₁.running
      refine ⟨⟨walked.sound,fun _ => vacant⟩,?_⟩
      intro one member current fresh
      have taken : m₂.base ≤ one.incoming.sequence ∧ one.incoming.sequence < f.sequence+1+rest.length ∧
          m₂.slot one.incoming.sequence = ⟨one.incoming,.filled⟩ := by
        rcases List.mem_cons.mp member with rfl | earlier
        · have now := call.takes ready.sound current fresh
          have near := call.near
          have low := call.not_past current
          have inside : f.sequence ∈ m₁.window := (mem_window _ _).mpr ⟨low,near⟩
          refine ⟨?_,?_,?_⟩
          · rw [fed₁.based]
            exact low
          · change f.sequence < _
            omega
          · change m₂.slot f.sequence = ⟨f,.filled⟩
            rw [fed₁.kept _ inside (by rw [state,now]),now]
        · exact fed₁.taken one earlier current fresh
      obtain ⟨low,high,slot⟩ := taken
      have past := drain_passes fed₁.sound fed₁.running (s := one.incoming.sequence) (by omega)
        (fun q lowq highq => fed₁.full q lowq (by omega))
      have shown := mem_heldIn low past (by rw [state,slot])
      rw [slot] at shown
      rw [walked.handed]
      exact shown

theorem handlePacket_round {client : Option (Client σ)} {fuel : Nat} {t0Recv t1Parsed : UInt64}
    {packet : Packet} {m m' : SequenceManager cap} {c c' : σ} {round : Round cap}
    (handled : handlePacket client fuel t0Recv t1Parsed packet m c = some (round,m',c')) :
    round.pre = m ∧ round.packet = packet := by
  unfold handlePacket at handled
  split at handled
  next => simp at handled
  next =>
    simp only [Option.some.injEq,Prod.mk.injEq] at handled
    rw [← handled.1]
    exact ⟨rfl,rfl⟩

theorem handlerRun_ready {client : Option (Client σ)} {c₀ c : σ} {rounds : List (Round cap)}
    {m : SequenceManager cap} (run : HandlerRun client c₀ rounds m c)
    (small : ∀ round ∈ rounds, round.packet.stop ≤ 2^63) (fits : ∀ round ∈ rounds, round.fits) :
    Ready m ∧ ∀ round ∈ rounds, ∀ call ∈ round.calls, call.current → ¬ call.held →
      call.incoming ∈ round.outs := by
  induction run with
  | start => exact ⟨.create cap,by simp⟩
  | @packet rounds round m m' c c' fuel t0Recv t1Parsed packet before handled ih =>
    obtain ⟨ready,earlier⟩ := ih (fun one member => small one (by simp [member]))
      (fun one member => fits one (by simp [member]))
    have limit := small round (by simp)
    rw [(handlePacket_round handled).2] at limit
    obtain ⟨ready',delivers⟩ := handlePacket_delivers handled limit ready (fits round (by simp))
    refine ⟨ready',?_⟩
    intro one member
    rcases List.mem_append.mp member with old | newest
    · exact earlier one old
    · rw [List.mem_singleton.mp newest]
      exact delivers

/-- In every run of the handler whose packets all fit the window they meet, whatever
the recovery client answers, no message that was current and not yet held when it
was accepted is missing from its packet's drain. -/
theorem handler_loses_nothing (client : Option (Client σ)) (c₀ c : σ) (rounds : List (Round cap))
    (m : SequenceManager cap) (run : HandlerRun client c₀ rounds m c)
    (small : ∀ round ∈ rounds, ∀ message ∈ round.packet.messages, message.sequenceNumber.toNat < 2^63)
    (fits : ∀ round ∈ rounds, round.fits) :
    ∀ round ∈ rounds, ∀ call ∈ round.calls, call.current → ¬ call.held →
      call.incoming ∈ round.outs :=
  (handlerRun_ready run (fun round member => round.packet.stop_le (small round member)) fits).2

def five : Packet where
  first := 1
  messages := [{sequenceNumber := 1},{sequenceNumber := 2},{sequenceNumber := 3},{sequenceNumber := 4},
    {sequenceNumber := 5}]
  nonempty := by simp
  batch := by decide
  consecutive := ⟨rfl,rfl,rfl,rfl,rfl,trivial⟩

def eight : Capacity := ⟨8,by decide,by decide⟩

theorem handler_loses_nothing_five : ∃ (round : Round eight) (m : SequenceManager eight),
    HandlerRun (none : Option (Client Unit)) () [round] m () ∧ round.packet = five ∧
    round.calls.length = 5 ∧ ∀ call ∈ round.calls, call.incoming ∈ round.outs := by
  have checked : (handlePacket (none : Option (Client Unit)) 1 0 0 five (create eight) ()).any (fun r =>
      r.1.calls.length = 5 ∧ ∀ call ∈ r.1.calls, call.current ∧ ¬ call.held) = true := by
    decide +kernel
  obtain ⟨⟨round,m,c⟩,handled,seen⟩ := (Option.any_eq_true _ _).mp checked
  obtain ⟨count,open_⟩ := of_decide_eq_true seen
  have run : HandlerRun (none : Option (Client Unit)) () [round] m () :=
    .packet 1 0 0 five .start handled
  obtain ⟨pre,packet⟩ := handlePacket_round handled
  have delivered := handler_loses_nothing none () () [round] m run
    (by
      intro one member
      rw [List.mem_singleton.mp member,packet]
      decide)
    (by
      intro one member
      rw [List.mem_singleton.mp member,Round.fits,Round.start,packet,pre]
      decide)
  refine ⟨round,m,run,packet,count,?_⟩
  intro call member
  exact delivered round (by simp) call member (open_ call member).1 (open_ call member).2

/-- With room for four, the same packet drops its own first four messages: number 5
lies past the window, which is emptied although nothing has been drained yet. -/
theorem handler_drops_packet_front : ∃ (round : Round four) (m : SequenceManager four),
    HandlerRun (none : Option (Client Unit)) () [round] m () ∧
    (∀ message ∈ round.packet.messages, message.sequenceNumber.toNat < 2^63) ∧
    ∃ call ∈ round.calls, call.current ∧ ¬ call.held ∧ call.incoming ∉ round.outs := by
  have checked : (handlePacket (none : Option (Client Unit)) 1 0 0 five (create four) ()).any (fun r =>
      ∃ call ∈ r.1.calls, call.current ∧ ¬ call.held ∧ call.incoming ∉ r.1.outs) = true := by
    decide +kernel
  obtain ⟨⟨round,m,c⟩,handled,seen⟩ := (Option.any_eq_true _ _).mp checked
  refine ⟨round,m,.packet 1 0 0 five .start handled,?_,of_decide_eq_true seen⟩
  rw [(handlePacket_round handled).2]
  decide

end SequenceManager
end Llte
