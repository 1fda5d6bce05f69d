import Llte.SequencerBalance

/-! What `recover_range` leaves behind, whatever the client answers: every number of
the range is settled, with the first message returned for it if there was one. -/
namespace Llte.SequenceManager
open Foundation

variable {cap : Capacity} {σ τ : Type}

/-- A returned message as it would be stored. -/
def supplied (arrived : UInt64) (entry : MarketMessage × UInt64) : FeedMessage :=
  ⟨entry.1,arrived,entry.2,true⟩

/-- All messages the request loop gets, in the order in which they come back. -/
def returned (request : Client σ) (last : UInt64) : Nat → UInt64 → σ → List FeedMessage
  | 0,_,_ => []
  | fuel+1,start,c =>
    if start ≤ last then
      match request c start (min last (start + kMaxRecoveryBatch - 1)) with
      | (none,_) => []
      | (some answer,c) =>
        answer.messages.map (supplied answer.arrived) ++
          returned request last fuel (start + kMaxRecoveryBatch) c
    else []

def returnedTo (client : Option (Client σ)) (fuel : Nat) (c : σ) (first last : UInt64) : List FeedMessage :=
  match client with
  | none => []
  | some request => returned request last fuel first c

/-- A slot after `messages` came back: it takes the first one with its number. -/
def refill (messages : List FeedMessage) (q : Nat) (slot : Slot) : Slot :=
  if slot.state = .filled then slot
  else match messages.find? (fun message => message.sequence = q) with
    | some message => ⟨message,.filled⟩
    | none => slot

@[simp] theorem refill_nil (q : Nat) (slot : Slot) : refill [] q slot = slot := by
  unfold refill
  split <;> rfl

private theorem refill_append (first second : List FeedMessage) (q : Nat) (slot : Slot) :
    refill (first ++ second) q slot = refill second q (refill first q slot) := by
  unfold refill
  rw [List.find?_append]
  by_cases held : slot.state = .filled
  · simp [held]
  · cases found : first.find? (fun message => message.sequence = q) with
    | none => simp [held]
    | some message => simp [held]

/-- Where nothing came back the slot is given up. -/
theorem Skips.refilled {first stop q : Nat} {m r : SequenceManager cap} (pass : Skips first stop m r)
    (hq : q ∈ m.window) (range : q ∈ Finset.Ico first stop) {messages : List FeedMessage} {slot : Slot}
    (free : slot.state ≠ .filled) (after : m.slot q = refill messages q slot) :
    r.slot q = match messages.find? (fun message => message.sequence = q) with
      | some message => ⟨message,.filled⟩
      | none => {slot with state := .skipped} := by
  rw [refill,if_neg free] at after
  rw [pass.slots q hq,state]
  cases found : messages.find? (fun message => message.sequence = q) with
  | some message =>
    rw [found] at after
    simp [after]
  | none =>
    simp only [found] at after
    rw [after]
    split
    next => rfl
    next other =>
      -- it was given up before
      have skipped : slot.state = .skipped := by
        cases shown : slot.state with
        | empty => exact absurd ⟨range,shown⟩ other
        | filled => exact absurd shown free
        | skipped => rfl
      rw [← skipped]

private theorem recoverMessage_slot (arrived : UInt64) (m : SequenceManager cap) (entry : MarketMessage × UInt64)
    {q : Nat} (hq : q ∈ m.window) :
    (recoverMessage arrived m entry).slot q = refill [supplied arrived entry] q (m.slot q) := by
  unfold recoverMessage
  dsimp only
  split
  next outside =>
    have other : entry.1.sequenceNumber.toNat ≠ q := by
      rintro rfl
      exact (inside_iff m _).mpr hq outside
    simp [refill,supplied,FeedMessage.sequence,other]
  next inside =>
    have here : entry.1.sequenceNumber.toNat ∈ m.window := (inside_iff m _).mp inside
    by_cases same : entry.1.sequenceNumber.toNat = q
    · subst same
      split
      next held => simp [refill,held]
      next free =>
        change (m.buffer.put _ _).get _ = _
        rw [slot_put _ here here]
        simp [refill,free,supplied,FeedMessage.sequence]
    · have untouched : refill [supplied arrived entry] q (m.slot q) = m.slot q := by
        simp [refill,supplied,FeedMessage.sequence,same]
      rw [untouched]
      split
      next => rfl
      next =>
        change (m.buffer.put _ _).get _ = _
        rw [slot_put _ here hq,if_neg (Ne.symm same)]

private theorem recoverMessages_slot (arrived : UInt64) (entries : List (MarketMessage × UInt64))
    (m : SequenceManager cap) {q : Nat} (hq : q ∈ m.window) :
    (entries.foldl (recoverMessage arrived) m).slot q =
      refill (entries.map (supplied arrived)) q (m.slot q) := by
  induction entries generalizing m with
  | nil => simp
  | cons entry entries ih =>
    have window := (recoverMessage_recovers (fun _ => True) arrived m entry trivial).window
    rw [List.foldl_cons,ih _ (by rw [window]; exact hq),recoverMessage_slot arrived m entry hq]
    exact (refill_append [supplied arrived entry] _ q _).symm

private theorem requestLoop_slot {request : Client σ} {last : UInt64} {fuel : Nat} {start : UInt64}
    {m m' : SequenceManager cap} {c c' : σ}
    (ended : requestLoop request last fuel start m c = some (m',c')) {q : Nat} (hq : q ∈ m.window) :
    m'.slot q = refill (returned request last fuel start c) q (m.slot q) := by
  induction fuel generalizing start m c with
  | zero => simp [requestLoop] at ended
  | succ fuel ih =>
    rw [requestLoop] at ended
    split at ended
    next more =>
      dsimp only at ended
      split at ended
      next c₁ asked =>
        simp only [Option.some.injEq,Prod.mk.injEq] at ended
        rw [returned,if_pos more,asked,← ended.1]
        simp [slot]
      next answer c₁ asked =>
        have window := (recoverMessages_recovers (fun _ => True) answer.arrived answer.messages
          {m with stats.recoveryRequests := m.stats.recoveryRequests+1} (fun _ _ => trivial)).window
        rw [ih ended (by rw [window]; exact hq),recoverMessages_slot _ _ _ (by exact hq),returned,if_pos more,
          asked,refill_append]
        rfl
    next done =>
      simp only [Option.some.injEq,Prod.mk.injEq] at ended
      rw [returned,if_neg done,← ended.1,refill_nil]

private theorem requestMissing_slot {client : Option (Client σ)} {fuel : Nat} {m r : SequenceManager cap} {c c' : σ}
    {first last : UInt64} (requested : requestMissing client fuel m c first last = some (r,c')) {q : Nat}
    (hq : q ∈ m.window) : r.slot q = refill (returnedTo client fuel c first last) q (m.slot q) := by
  cases client with
  | none =>
    simp only [requestMissing,Option.some.injEq,Prod.mk.injEq] at requested
    rw [← requested.1,returnedTo,refill_nil]
  | some request => exact requestLoop_slot requested hq

private theorem returned_recovered {request : Client σ} {last : UInt64} {fuel : Nat} {start : UInt64} {c : σ}
    {message : FeedMessage} (member : message ∈ returned request last fuel start c) :
    message.recovered = true := by
  induction fuel generalizing start c with
  | zero => simp [returned] at member
  | succ fuel ih =>
    rw [returned] at member
    split at member
    next more =>
      split at member
      next => simp at member
      next answer c₁ asked =>
        rcases List.mem_append.mp member with here | later
        · obtain ⟨entry,_,rfl⟩ := List.mem_map.mp here
          rfl
        · exact ih later
    next done => simp at member

private theorem returnedTo_recovered {client : Option (Client σ)} {fuel : Nat} {c : σ} {first last : UInt64}
    {message : FeedMessage} (member : message ∈ returnedTo client fuel c first last) :
    message.recovered = true := by
  cases client with
  | none => simp [returnedTo] at member
  | some request => exact returned_recovered member

/-- The message makes `accept` call `recover_range`. -/
def Recovering (m : SequenceManager cap) (f : FeedMessage) : Prop :=
  ¬ f.message.sequenceNumber < (m.begin f).expected ∧
    ¬ cap.size ≤ (f.message.sequenceNumber - (m.begin f).expected).toNat ∧ (m.begin f).gap f = true

instance (m : SequenceManager cap) (f : FeedMessage) : Decidable (m.Recovering f) := by
  unfold Recovering
  infer_instance

/-- `r` is `s` after recovering the numbers from `first` up to, but without, `stop`,
when `messages` came back. -/
structure Completed (messages : List FeedMessage) (first stop : Nat) (s r : SequenceManager cap) : Prop where
  settled : ∀ q ∈ Finset.Ico first stop, r.state q = .filled ∨ r.state q = .skipped
  kept : ∀ q ∈ Finset.Ico first stop, s.state q = .filled → r.slot q = s.slot q
  filled : ∀ q ∈ Finset.Ico first stop, s.state q ≠ .filled →
    r.slot q = match messages.find? (fun message => message.sequence = q) with
      | some message => ⟨message,.filled⟩
      | none => {s.slot q with state := .skipped}
  recovered : ∀ message ∈ messages, message.recovered = true
  outside : ∀ q ∈ s.window, q ∉ Finset.Ico first stop → r.slot q = s.slot q
  expected : r.expected = s.expected
  delivered : r.stats.delivered = s.stats.delivered
  counted : r.stats.messagesRecovered+r.stats.unrecoverable =
    s.stats.messagesRecovered+s.stats.unrecoverable +
      ((Finset.Ico first stop).filter (fun q => s.state q = .empty)).card

section Range
variable {b r r' : SequenceManager cap} {f : FeedMessage}

private theorem store_before (inside : f.sequence ∈ b.window) {q : Nat} (range : q ∈ Finset.Ico b.base f.sequence) :
    q ∈ b.window ∧ (b.store f).slot q = b.slot q := by
  have bounds := (mem_window b _).mp inside
  rw [Finset.mem_Ico] at range
  have hq : q ∈ b.window := by
    rw [mem_window]
    omega
  exact ⟨hq,by rw [slot_store inside hq,if_neg (fun both => Nat.ne_of_lt range.2 both.1)]⟩

/-- Nothing beyond the gap moves. -/
theorem GapClosed.beyond (closed : GapClosed (fun message => message.sequenceNumber.toNat < f.sequence) b f r)
    (inside : f.sequence ∈ b.window) {q : Nat} (hq : q ∈ b.window) (high : f.sequence ≤ q) :
    r.slot q = (b.store f).slot q := by
  rw [slot_store inside hq]
  by_cases held : b.state q = .filled
  · rw [if_neg (fun both => both.2 held)]
    exact closed.kept q hq held
  · by_cases here : q = f.sequence
    · subst here
      rw [if_pos ⟨rfl,held⟩]
      exact closed.stored held
    · rw [if_neg (fun both => here both.1)]
      rcases closed.others q hq held here with ⟨_,number,early⟩ | same
      · change (r.slot q).payload.sequence < f.sequence at early
        omega
      · rw [same,if_neg (by omega)]

/-- What is recovered and what is given up are together what was empty. -/
theorem GapClosed.settles (closed : GapClosed (fun message => message.sequenceNumber.toNat < f.sequence) b f r)
    (sound : Sound b) (inside : f.sequence ∈ b.window) (vacant : b.state b.base = .empty) :
    r.stats.messagesRecovered+r.stats.unrecoverable = b.stats.messagesRecovered+b.stats.unrecoverable +
      ((Finset.Ico b.base f.sequence).filter (fun q => b.state q = .empty)).card := by
  have counts := closed.counts sound inside vacant
  have split := Finset.card_filter_add_card_filter_not (s := Finset.Ico b.base f.sequence)
    (fun q => b.state q = .filled)
  have empties : (Finset.Ico b.base f.sequence).filter (fun q => ¬ b.state q = .filled) =
      (Finset.Ico b.base f.sequence).filter (fun q => b.state q = .empty) := by
    refine Finset.filter_congr fun q range => ?_
    have known := sound.none_skipped vacant (store_before inside range).1
    cases shown : b.state q <;> simp_all
  rw [empties,Nat.card_Ico] at split
  rw [refetched,if_pos ⟨inside,vacant⟩] at counts
  rw [closed.recovered,closed.unrecoverable]
  omega

end Range

theorem recovering_cases {m : SequenceManager cap} {f : FeedMessage} (recovering : m.Recovering f) :
    f.sequence ∈ (m.begin f).window ∧ (m.begin f).base < f.sequence ∧
      (m.begin f).state (m.begin f).base = .empty := by
  obtain ⟨current,near,missing⟩ := recovering
  obtain ⟨ahead,vacant⟩ := (gap_iff _ f).mp missing
  exact ⟨(inside_iff _ _).mp (by simp [current,near]),ahead,vacant⟩

theorem accept_recovering {m : SequenceManager cap} {f : FeedMessage} (recovering : m.Recovering f)
    (client : Option (Client τ)) (fuel : Nat) (c : τ) :
    accept client fuel m c f = recoverRange client fuel ((m.begin f).store f) c (m.begin f).expected
      (f.message.sequenceNumber - 1) := by
  unfold accept
  dsimp only
  rw [if_neg recovering.1,if_neg recovering.2.1,if_pos recovering.2.2]

section Recovered
variable {client : Option (Client τ)} {c c' : τ} {fuel : Nat} {b r : SequenceManager cap} {f : FeedMessage}
  (inside : f.sequence ∈ b.window) (ahead : b.base < f.sequence)
include inside ahead

/-- What the requests leave in a slot, before the empty ones are skipped. -/
theorem requested_slots
    (requested : requestMissing client fuel ((b.store f).noteGap b.expected (f.message.sequenceNumber - 1)) c
      b.expected (f.message.sequenceNumber - 1) = some (r,c')) :
    r.window = b.window ∧ ∀ q ∈ b.window, r.slot q =
      refill (returnedTo client fuel c b.expected (f.message.sequenceNumber - 1)) q ((b.store f).slot q) := by
  have noted := noteGap_noted inside ahead
  constructor
  · exact noted.recovered_window (requestMissing_recovers (fun _ _ => True)
      (fun _ _ _ _ _ _ _ _ _ known => known) (fun _ _ _ _ _ _ _ _ _ _ _ _ => trivial) requested).1
  · intro q hq
    exact requestMissing_slot requested (by rw [noted.window]; exact hq)

private theorem recoverRange_completed (ranged : InRange client) (sound : Sound b) (vacant : b.state b.base = .empty)
    (recovered : recoverRange client fuel (b.store f) c b.expected (f.message.sequenceNumber - 1) = some (r,c')) :
    Completed (returnedTo client fuel c b.expected (f.message.sequenceNumber - 1)) b.base f.sequence (b.store f) r := by
  obtain ⟨r₁,requested,rfl⟩ := recoverRange_cases ahead recovered
  have closed := Accepted.closed_within ranged inside ahead requested
  have bounds := (mem_window b _).mp inside
  obtain ⟨window,slots⟩ := requested_slots inside ahead requested
  have pass := skipLoop_skips (m := r₁) b.base (f.sequence - b.base)
    (fun q low high => by rw [window,mem_window]; omega)
  obtain ⟨extra,stats⟩ := store_stats b f
  change Completed _ b.base f.sequence (b.store f) (r₁.skipLoop b.base (f.sequence - b.base))
  generalize r₁.skipLoop b.base (f.sequence - b.base) = r at closed pass
  refine ⟨?_,?_,?_,fun message => returnedTo_recovered,?_,?_,?_,?_⟩
  · intro q range
    have used := closed.covered (store_before inside range).1 (Nat.le_of_lt (Finset.mem_Ico.mp range).2)
    cases shown : r.state q <;> simp_all
  · intro q range held
    obtain ⟨hq,same⟩ := store_before inside range
    rw [state,same] at held
    rw [same]
    exact closed.kept q hq held
  · intro q range free
    obtain ⟨hq,_⟩ := store_before inside range
    have low := Finset.mem_Ico.mp range
    exact pass.refilled (window ▸ hq) (Finset.mem_Ico.mpr (by omega)) free (slots q hq)
  · intro q hq outside
    rw [window_congr (store_expected b f)] at hq
    have low := ((mem_window b q).mp hq).1
    rw [Finset.mem_Ico] at outside
    exact closed.beyond inside hq (by omega)
  · rw [closed.expected,store_expected]
  · rw [closed.delivered,stats]
  · have same : (Finset.Ico b.base f.sequence).filter (fun q => (b.store f).state q = .empty) =
        (Finset.Ico b.base f.sequence).filter (fun q => b.state q = .empty) := by
      refine Finset.filter_congr fun q range => ?_
      rw [state,(store_before inside range).2,state]
    rw [same,stats]
    exact closed.settles sound inside vacant

end Recovered

/-- In every reachable state in which `accept` calls `recover_range`, the call returns
and leaves a complete range, whatever the requests bring. -/
theorem recoverRange_completes {client₀ : Option (Client σ)} {c₀ c₁ : σ} {log : Log cap}
    {m : SequenceManager cap} (reached : Reach client₀ c₀ log m c₁)
    (small : ∀ call ∈ log.accepted, call.incoming.sequence < 2^63) (f : FeedMessage)
    (below : f.sequence < 2^63) (recovering : m.Recovering f) (client : Option (Client τ))
    (ranged : InRange client) (c : τ) (fuel : Nat) (enough : f.sequence < fuel) :
    ∃ r c', accept client fuel m c f = some (r,c') ∧
      recoverRange client fuel ((m.begin f).store f) c (m.begin f).expected
        (f.message.sequenceNumber - 1) = some (r,c') ∧
      Completed (returnedTo client fuel c (m.begin f).expected (f.message.sequenceNumber - 1))
        (m.begin f).base f.sequence ((m.begin f).store f) r := by
  have bound := cap.bound
  have sound := (reach_runInv reached (fun call member => by have := small call member; omega)).sound.begin f
  obtain ⟨inside,ahead,vacant⟩ := recovering_cases recovering
  obtain ⟨r,c',accepted⟩ := accept_returns client m c f (by omega) enough
  have recovered := accept_recovering recovering client fuel c ▸ accepted
  exact ⟨r,c',accepted,recovered,recoverRange_completed inside ahead ranged sound vacant recovered⟩

/-- A server that still has the first message of a range, and no other. -/
def shortServer : Client Unit := fun c first last =>
  if first ≤ last then (some ⟨9,[(⟨first,0,0,0,0,0,0,0,0⟩,9)]⟩,c) else (none,c)

theorem recoverRange_completes_short : ∃ (m r : SequenceManager four),
    m.Recovering (numbered 4) ∧ accept (some shortServer) 5 m () (numbered 4) = some (r,()) ∧
      Completed (returnedTo (some shortServer) 5 () (m.begin (numbered 4)).expected 3)
        (m.begin (numbered 4)).base 4 ((m.begin (numbered 4)).store (numbered 4)) r := by
  have found : ∃ (log : Log four) (m : SequenceManager four) (c : Unit),
      Reach (none : Option (Client Unit)) () log m c ∧
      (∀ call ∈ log.accepted, call.incoming.sequence < 2^63) ∧ m.Recovering (numbered 4) :=
    play_finds [.accept 1 (numbered 1),.deliver]
      (fun log m _ => (∀ call ∈ log.accepted, call.incoming.sequence < 2^63) ∧ m.Recovering (numbered 4))
      (by decide +kernel)
  obtain ⟨log,m,c,reached,small,recovering⟩ := found
  have ranged : InRange (some shortServer) := by
    intro request here c start finish answer c' asked entry member
    rw [← Option.some.inj here] at asked
    unfold shortServer at asked
    split at asked
    next ordered =>
      simp only [Prod.mk.injEq,Option.some.injEq] at asked
      rw [← asked.1,List.mem_singleton] at member
      rw [member]
      exact ⟨UInt64.le_refl _,ordered⟩
    next => simp at asked
  obtain ⟨r,c',accepted,_,completed⟩ := recoverRange_completes reached small (numbered 4) (by decide)
    recovering (some shortServer) ranged () 5 (by decide)
  exact ⟨m,r,recovering,accepted,completed⟩

end Llte.SequenceManager
