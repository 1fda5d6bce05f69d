import Llte.SequencerAccount

/-! Safety of the sequencer over arbitrary runs, whatever the recovery client
answers: deliveries are in order and genuine, and nothing is passed over without
being counted. -/
namespace Llte.SequenceManager
open Foundation

variable {cap : Capacity} {σ : Type}

theorem Accepted.closed {client : Option (Client σ)} {b r : SequenceManager cap} {c c' : σ}
    {f : FeedMessage} {fuel : Nat} (inside : f.sequence ∈ b.window) (ahead : b.base < f.sequence)
    (requested : requestMissing client fuel
      ((b.store f).noteGap b.expected (f.message.sequenceNumber - 1)) c b.expected
      (f.message.sequenceNumber - 1) = some (r,c')) :
    GapClosed (fun _ => True) b f (r.skipLoop b.base (f.sequence - b.base)) := by
  have phase := requestMissing_recovers (fun _ _ => True) (fun _ _ _ _ _ _ _ _ _ _ => trivial)
    (fun _ _ _ _ _ _ _ _ _ _ _ _ => trivial) requested
  exact gap_closed inside ahead phase.1

theorem Sound.accepted {client : Option (Client σ)} {b m' : SequenceManager cap} {c c' : σ}
    {f : FeedMessage} (sound : Sound b) (running : b.started = true)
    (room : f.sequence+cap.size < 2^64) (call : Accepted client b c f m' c') : Sound m' := by
  have pos := cap.pos
  cases call with
  | stale old => exact sound.congr rfl rfl (fun _ => rfl)
  | jump far => exact .resynchronize running (by omega)
  | plain inside quiet => exact sound.store running inside (by omega)
  | recovery inside ahead vacant fuel r c' requested =>
    exact sound.gapClosed running inside vacant room (Accepted.closed inside ahead requested)

theorem Account.accepted {client : Option (Client σ)} {b m' : SequenceManager cap} {c c' : σ}
    {f : FeedMessage} {first late : Nat} (account : Account first late b) (sound : Sound b)
    (call : Accepted client b c f m' c') : Account first (late+lost b f) m' := by
  cases call with
  | stale old =>
    have none : lost b f = 0 := by
      have outside : f.sequence ∉ b.givenUp := by
        rw [mem_givenUp,mem_window]
        omega
      rw [lost,if_neg (by omega),if_neg outside]
    rw [none]
    exact ⟨account.passed,account.balance⟩
  | jump far => exact account.resynchronize far
  | plain inside quiet => exact account.store inside
  | recovery inside ahead vacant fuel r c' requested =>
    exact account.gapClosed sound inside vacant (Accepted.closed inside ahead requested)

theorem Accepted.started {client : Option (Client σ)} {b m' : SequenceManager cap} {c c' : σ}
    {f : FeedMessage} (call : Accepted client b c f m' c') : m'.started = b.started := by
  cases call with
  | stale old => rfl
  | jump far => exact resynchronize_started b f
  | plain inside quiet => exact store_started b f
  | recovery inside ahead vacant fuel r c' requested =>
    exact (Accepted.closed inside ahead requested).started

/-- Slots that are passed over keep every statement about the stream. -/
theorem passes_over {first late : Nat} {m m' : SequenceManager cap}
    (passed : Relation.ReflTransGen PassesOver m m') (running : m.started = true) (sound : Sound m)
    (account : Account first late m) :
    m'.started = true ∧ Sound m' ∧ Account first late m' ∧ m.base ≤ m'.base := by
  induction passed with
  | refl => exact ⟨running,sound,account,Nat.le_refl _⟩
  | tail _ step ih =>
    obtain ⟨passed,rfl⟩ := step
    obtain ⟨running,sound,account,grown⟩ := ih
    have used : SlotState.skipped ≠ .empty := by simp
    have room := sound.below _ (base_mem_window _) (by rw [passed]; exact used)
    refine ⟨running,sound.advance running (by rw [passed]; exact used),account.advance sound passed,?_⟩
    rw [advance_base room]
    omega

/-- The messages in the buffer all come from `K`. -/
def Holds (K : MarketMessage → Prop) (m : SequenceManager cap) : Prop :=
  ∀ q ∈ m.window, m.state q = .filled → K (m.slot q).payload.message

namespace Holds
variable {K L : MarketMessage → Prop} {m b m' : SequenceManager cap} {f : FeedMessage}

theorem mono (holds : Holds K m) (imply : ∀ message, K message → L message) : Holds L m :=
  fun q hq held => imply _ (holds q hq held)

theorem begin (holds : Holds K m) (sound : Sound m) (f : FeedMessage) : Holds K (m.begin f) := by
  intro q hq held
  rw [begin_slot]
  rw [state,begin_slot] at held
  cases running : m.started with
  | true =>
    have same : (m.begin f).expected = m.expected := by simp [SequenceManager.begin,running]
    exact holds q (window_congr same ▸ hq) held
  | false =>
    have vacant := sound.fresh running q
    rw [state,held] at vacant
    simp at vacant

theorem store (holds : Holds K b) (inside : f.sequence ∈ b.window) (known : K f.message) :
    Holds K (b.store f) := by
  intro q hq held
  rw [window_congr (store_expected b f)] at hq
  rw [state,slot_store inside hq] at held
  rw [slot_store inside hq]
  split
  next => exact known
  next away =>
    rw [if_neg away] at held
    exact holds q hq held

theorem resynchronize (known : K f.message) : Holds K (b.resynchronize f) := by
  intro q hq held
  rw [mem_window,resynchronize_base] at hq
  rw [state,resynchronize_slot b f hq.1 hq.2] at held
  rw [resynchronize_slot b f hq.1 hq.2]
  split
  next => exact known
  next away => simp [away] at held

theorem gapClosed (holds : Holds K b) (known : K f.message) (closed : GapClosed K b f m') :
    Holds K m' := by
  intro q hq held
  rw [window_congr closed.expected] at hq
  by_cases before : b.state q = .filled
  · rw [closed.kept q hq before]
    exact holds q hq before
  · by_cases here : q = f.sequence
    · subst here
      rw [closed.stored before]
      exact known
    · rcases closed.others q hq before here with ⟨_,_,allowed⟩ | same
      · exact allowed
      · rw [state,same] at held
        split at held
        · simp at held
        · exact absurd held before

theorem advance (holds : Holds K m) (sound : Sound m) (used : m.state m.base ≠ .empty) :
    Holds K m.advance := by
  have room := sound.below m.base m.base_mem_window used
  intro q hq held
  rw [mem_window,advance_base room] at hq
  by_cases last : q = m.base+cap.size
  · rw [last,advance_state_last] at held
    simp at held
  · have hw : q ∈ m.window := by rw [mem_window]; omega
    have same := advance_slot hw (by omega)
    rw [same]
    rw [state,same] at held
    exact holds q hw held

end Holds

theorem Holds.passes_over {K : MarketMessage → Prop} {first late : Nat} {m m' : SequenceManager cap}
    (passed : Relation.ReflTransGen PassesOver m m') (running : m.started = true) (sound : Sound m)
    (account : Account first late m) (holds : Holds K m) : Holds K m' := by
  induction passed with
  | refl => exact holds
  | tail earlier step ih =>
    obtain ⟨passed,rfl⟩ := step
    have reached := SequenceManager.passes_over earlier running sound account
    exact ih.advance reached.2.1 (by rw [passed]; simp)

theorem Log.sum_accept (log : Log cap) (m : SequenceManager cap) (f : FeedMessage)
    (measure : SequenceManager cap → FeedMessage → Nat) :
    (log.accept m f).sum measure = log.sum measure+measure (m.begin f) f := by
  simp [Log.sum,Log.accept,Call.at]

theorem Log.first_accept (log : Log cap) (m : SequenceManager cap) (f : FeedMessage) :
    (log.accept m f).first = if log.accepted = [] then f.sequence else log.first := by
  unfold Log.first Log.accept
  cases log.accepted <;> simp

structure RunInv (log : Log cap) (m : SequenceManager cap) : Prop where
  sound : Sound m
  account : Account log.first (log.sum lost) m
  running : m.started = true → log.accepted ≠ []
  idle : m.started = false → log.accepted = [] ∧ m.base = 0

theorem RunInv.begin {log : Log cap} {m : SequenceManager cap} (inv : RunInv log m) (f : FeedMessage) :
    Account (log.accept m f).first (log.sum lost) (m.begin f) := by
  obtain ⟨passed,balance⟩ := inv.account
  rw [Log.first_accept]
  cases running : m.started with
  | true =>
    have same : (m.begin f).expected = m.expected := by simp [SequenceManager.begin,running]
    rw [if_neg (inv.running running)]
    constructor
    · rw [base,same,begin_stats]
      exact passed
    · rw [base,same,givenUp_congr same (begin_slot m f),begin_stats]
      exact balance
  | false =>
    obtain ⟨none,zero⟩ := inv.idle running
    have based : (m.begin f).base = f.sequence := by rw [begin_base,running]; simp
    have vacant : m.givenUp = ∅ := by
      rw [givenUp,Finset.filter_eq_empty_iff]
      intro q _ given
      rw [inv.sound.fresh running q] at given
      simp at given
    have vacant' : (m.begin f).givenUp = ∅ := by
      rw [givenUp,Finset.filter_eq_empty_iff]
      intro q _ given
      rw [state,begin_slot] at given
      have empty := inv.sound.fresh running q
      rw [state,given] at empty
      simp at empty
    rw [if_pos none]
    rw [Log.first,none,vacant,Finset.card_empty] at balance
    constructor
    · rw [based,begin_stats]
      dsimp only at balance ⊢
      omega
    · rw [based,vacant',begin_stats,Finset.card_empty]
      dsimp only at balance ⊢
      omega

theorem reach_runInv {client : Option (Client σ)} {c₀ c : σ} {log : Log cap} {m : SequenceManager cap}
    (reached : Reach client c₀ log m c)
    (room : ∀ call ∈ log.accepted, call.incoming.sequence+cap.size < 2^64) : RunInv log m := by
  induction reached with
  | new =>
    have vacant : (create cap).givenUp = ∅ := by
      rw [givenUp,Finset.filter_eq_empty_iff]
      intro q _
      simp [state,slot,create]
    refine ⟨.create cap,⟨Nat.le_refl _,?_⟩,by simp [create],fun _ => ⟨rfl,rfl⟩⟩
    rw [vacant]
    rfl
  | @accept log m m' c c' fuel f before returned ih =>
    have inv := ih (fun call member => room call (by simp [Log.accept,member]))
    have limit := room ⟨m,f⟩ (by simp [Log.accept])
    have call := accept_cases returned
    have sound := inv.sound.begin f
    refine ⟨sound.accepted (begin_started m f) limit call,?_,?_,?_⟩
    · rw [Log.sum_accept]
      exact (inv.begin f).accepted sound call
    · intro _
      simp [Log.accept]
    · intro stopped
      rw [call.started,begin_started] at stopped
      simp at stopped
  | @deliver log m m' c out before handed ih =>
    have inv := ih room
    rcases nextDeliverable_cases m with ⟨_,nothing⟩ | ⟨running,found⟩
    · rw [nothing] at handed
      simp at handed
    · rw [handed] at found
      cases found with
      | message m₁ passed held =>
        obtain ⟨running₁,sound,account,_⟩ := passes_over passed running inv.sound inv.account
        have used : m₁.state m₁.base ≠ .empty := by rw [held]; simp
        refine ⟨?_,account.handOut sound held,fun _ => inv.running running,?_⟩
        · exact (sound.advance running₁ used).congr rfl rfl (fun _ => rfl)
        · intro stopped
          change m₁.started = false at stopped
          rw [running₁] at stopped
          simp at stopped
  | @idle log m m' c before nothing ih =>
    have inv := ih room
    rcases nextDeliverable_cases m with ⟨_,same⟩ | ⟨running,found⟩
    · rw [nothing] at same
      simp only [Prod.mk.injEq,true_and] at same
      exact same ▸ inv
    · rw [nothing] at found
      cases found with
      | nothing _ passed vacant =>
        obtain ⟨running₁,sound,account,_⟩ := passes_over passed running inv.sound inv.account
        refine ⟨sound,account,fun _ => inv.running running,?_⟩
        intro stopped
        rw [running₁] at stopped
        simp at stopped

/-- What has been delivered so far: in order, below `expected`, each under the value
`expected` had at that moment, and taken from what `K` allows. -/
structure Deliveries (K : MarketMessage → Prop) (log : Log cap) (m : SequenceManager cap) : Prop where
  ordered : (log.delivered.map (fun d => d.2.sequence)).Pairwise (· < ·)
  numbered : ∀ d ∈ log.delivered, d.1 = d.2.message.sequenceNumber ∧ d.2.sequence < m.base
  genuine : ∀ d ∈ log.delivered, K d.2.message
  holds : Holds K m

/-- The messages known in a run: accepted ones, and those the client returned. -/
def Known (S : σ → MarketMessage → Prop) (log : Log cap) (c : σ) (message : MarketMessage) : Prop :=
  (∃ call ∈ log.accepted, call.incoming.message = message) ∨ S c message

theorem Deliveries.handOut {K : MarketMessage → Prop} {log : Log cap} {m : SequenceManager cap}
    (sofar : Deliveries K log m) (sound : Sound m) (held : m.state m.base = .filled) :
    Deliveries K (log.deliver m.handOut (m.slot m.base).payload) m.handOut := by
  have used : m.state m.base ≠ .empty := by rw [held]; simp
  have based : m.handOut.base = m.base+1 := advance_base (sound.below _ m.base_mem_window used)
  have number := sound.number _ m.base_mem_window held
  have moment : m.handOut.expected - 1 = (m.slot m.base).payload.message.sequenceNumber := by
    apply UInt64.toNat_inj.mp
    change (m.expected + 1 - 1).toNat = (m.slot m.base).payload.sequence
    rw [number,UInt64.add_sub_cancel]
    rfl
  refine ⟨?_,?_,?_,?_⟩
  · simp only [Log.deliver,List.map_append,List.map_cons,List.map_nil]
    rw [List.pairwise_append]
    refine ⟨sofar.ordered,by simp,?_⟩
    intro early earlier late newest
    obtain ⟨d,member,rfl⟩ := List.mem_map.mp earlier
    simp only [List.mem_singleton] at newest
    rw [newest,number]
    exact (sofar.numbered d member).2
  · intro d member
    simp only [Log.deliver,List.mem_append,List.mem_singleton] at member
    rcases member with earlier | rfl
    · have before := sofar.numbered d earlier
      exact ⟨before.1,by omega⟩
    · exact ⟨moment,by rw [based,number]; omega⟩
  · intro d member
    simp only [Log.deliver,List.mem_append,List.mem_singleton] at member
    rcases member with earlier | rfl
    · exact sofar.genuine d earlier
    · exact sofar.holds _ m.base_mem_window held
  · exact sofar.holds.advance sound used

theorem Deliveries.passes_over {K : MarketMessage → Prop} {log : Log cap} {m m' : SequenceManager cap}
    (passed : Relation.ReflTransGen PassesOver m m') (running : m.started = true) (inv : RunInv log m)
    (sofar : Deliveries K log m) : Deliveries K log m' := by
  have grown := (SequenceManager.passes_over passed running inv.sound inv.account).2.2.2
  refine ⟨sofar.ordered,?_,sofar.genuine,sofar.holds.passes_over passed running inv.sound inv.account⟩
  intro d member
  have before := sofar.numbered d member
  exact ⟨before.1,by omega⟩

theorem Accepted.base_le {client : Option (Client σ)} {b m' : SequenceManager cap} {c c' : σ}
    {f : FeedMessage} (call : Accepted client b c f m' c') : b.base ≤ m'.base := by
  cases call with
  | stale old => exact Nat.le_refl _
  | jump far =>
    rw [resynchronize_base]
    omega
  | plain inside quiet =>
    rw [base,base,store_expected]
  | recovery inside ahead vacant fuel r c' requested =>
    exact Nat.le_of_eq (congrArg UInt64.toNat (Accepted.closed inside ahead requested).expected.symm)

section Provenance
variable {client : Option (Client σ)} {S : σ → MarketMessage → Prop}
  (grows : ∀ request ∈ client, ∀ c start finish answer c', request c start finish = (answer,c') →
    ∀ message, S c message → S c' message)
  (returns : ∀ request ∈ client, ∀ c start finish answer c',
    request c start finish = (some answer,c') → ∀ entry ∈ answer.messages, S c' entry.1)
include grows returns

theorem Accepted.holds {K : MarketMessage → Prop} {b m' : SequenceManager cap} {c c' : σ}
    {f : FeedMessage} (call : Accepted client b c f m' c') (holds : Holds K b) (known : K f.message)
    (answered : ∀ message, S c' message → K message) :
    Holds K m' ∧ ∀ message, S c message → S c' message := by
  cases call with
  | stale old => exact ⟨holds,fun _ before => before⟩
  | jump far => exact ⟨.resynchronize known,fun _ before => before⟩
  | plain inside quiet => exact ⟨holds.store inside known,fun _ before => before⟩
  | recovery inside ahead vacant fuel r c' requested =>
    have phase := requestMissing_recovers S grows
      (fun request member c start finish answer c' asked _ _ =>
        returns request member c start finish answer c' asked) requested
    exact ⟨holds.gapClosed known (gap_closed inside ahead (phase.1.mono answered)),phase.2⟩

theorem reach_deliveries {c₀ c : σ} {log : Log cap} {m : SequenceManager cap}
    (reached : Reach client c₀ log m c)
    (room : ∀ call ∈ log.accepted, call.incoming.sequence+cap.size < 2^64) :
    Deliveries (Known S log c) log m := by
  induction reached with
  | new =>
    refine ⟨List.Pairwise.nil,by simp,by simp,?_⟩
    intro q _ held
    simp [state,slot,create] at held
  | @accept log m m' c c' fuel f before returned ih =>
    have earlier : ∀ call ∈ log.accepted, call.incoming.sequence+cap.size < 2^64 :=
      fun call member => room call (by simp [Log.accept,member])
    have sofar := ih earlier
    have inv := reach_runInv before earlier
    have call := accept_cases returned
    have carried : ∀ message, S c message → S c' message := by
      have any := call.holds (K := fun _ => True) grows returns (fun _ _ _ => trivial) trivial
        (fun _ _ => trivial)
      exact any.2
    have known : ∀ message, Known S log c message → Known S (log.accept m f) c' message := by
      rintro message (⟨old,member,same⟩ | returnedBefore)
      · exact .inl ⟨old,by simp [Log.accept,member],same⟩
      · exact .inr (carried message returnedBefore)
    have newest : Known S (log.accept m f) c' f.message :=
      .inl ⟨⟨m,f⟩,by simp [Log.accept],rfl⟩
    have holds := call.holds grows returns ((sofar.holds.begin inv.sound f).mono known) newest
      (fun message answered => .inr answered)
    refine ⟨sofar.ordered,?_,fun d member => known _ (sofar.genuine d member),holds.1⟩
    intro d member
    have numbered := sofar.numbered d member
    have grown := call.base_le
    rw [begin_base] at grown
    refine ⟨numbered.1,?_⟩
    cases running : m.started with
    | true =>
      rw [running,if_pos rfl] at grown
      omega
    | false =>
      have zero := (inv.idle running).2
      omega
  | @deliver log m m' c out before handed ih =>
    have sofar := ih room
    have inv := reach_runInv before room
    rcases nextDeliverable_cases m with ⟨_,nothing⟩ | ⟨running,found⟩
    · rw [nothing] at handed
      simp at handed
    · rw [handed] at found
      cases found with
      | message m₁ passed held =>
        have sound := (passes_over passed running inv.sound inv.account).2.1
        exact (sofar.passes_over passed running inv).handOut sound held
  | @idle log m m' c before nothing ih =>
    have sofar := ih room
    have inv := reach_runInv before room
    rcases nextDeliverable_cases m with ⟨_,same⟩ | ⟨running,found⟩
    · rw [nothing] at same
      simp only [Prod.mk.injEq,true_and] at same
      exact same ▸ sofar
    · rw [nothing] at found
      cases found with
      | nothing _ passed vacant => exact sofar.passes_over passed running inv

end Provenance

theorem logged_grows (request : Client σ) (c : σ × List MarketMessage) (start finish : UInt64)
    (answer : Option Answer) (c' : σ × List MarketMessage)
    (asked : logged request c start finish = (answer,c')) (message : MarketMessage)
    (seen : message ∈ c.2) : message ∈ c'.2 := by
  unfold logged at asked
  dsimp only at asked
  split at asked
  all_goals
    simp only [Prod.mk.injEq] at asked
    obtain ⟨_,rfl⟩ := asked
  · exact List.mem_append_left _ seen
  · exact seen

theorem logged_returns (request : Client σ) (c : σ × List MarketMessage) (start finish : UInt64)
    (answer : Answer) (c' : σ × List MarketMessage)
    (asked : logged request c start finish = (some answer,c')) (entry : MarketMessage × UInt64)
    (member : entry ∈ answer.messages) : entry.1 ∈ c'.2 := by
  unfold logged at asked
  dsimp only at asked
  split at asked
  next found =>
    simp only [Prod.mk.injEq,Option.some.injEq] at asked
    obtain ⟨rfl,rfl⟩ := asked
    exact List.mem_append_right _ (List.mem_map_of_mem member)
  next => simp at asked

/-- Safety over every interleaving of completed calls, with any recovery client at
all: deliveries have strictly increasing numbers, each the value of `expected` at
its moment; each delivered message was accepted or returned by the client; and the
numbers passed over without delivery never exceed what was counted as
unrecoverable, nor the 64-bit counter as long as that total fits it. -/
theorem sequencer_safety (client : Option (Client σ)) (c₀ c : σ) (seen : List MarketMessage)
    (log : Log cap) (m : SequenceManager cap)
    (reached : Reach (client.map logged) (c₀,[]) log m (c,seen))
    (room : ∀ call ∈ log.accepted, call.incoming.sequence ≤ 2^64-1-cap.size) :
    ((log.delivered.map (fun d => d.2.sequence)).Pairwise (· < ·) ∧
      ∀ d ∈ log.delivered, d.1 = d.2.message.sequenceNumber) ∧
    (∀ d ∈ log.delivered,
      (∃ call ∈ log.accepted, call.incoming.message = d.2.message) ∨ d.2.message ∈ seen) ∧
    log.first+(counter m.stats.delivered).toNat ≤ m.base ∧
    m.base - log.first - (counter m.stats.delivered).toNat ≤ m.stats.unrecoverable ∧
    (m.stats.unrecoverable < 2^64 →
      m.base - log.first - (counter m.stats.delivered).toNat ≤
        (counter m.stats.unrecoverable).toNat) := by
  have size := cap.bound
  have limit : ∀ call ∈ log.accepted, call.incoming.sequence+cap.size < 2^64 := by
    intro call member
    have bound := room call member
    omega
  have inv := reach_runInv reached limit
  have sofar := reach_deliveries (S := fun (c : σ × List MarketMessage) message => message ∈ c.2)
    (by
      intro request member c start finish answer c' asked message known
      obtain ⟨inner,_,rfl⟩ := Option.map_eq_some_iff.mp member
      exact logged_grows inner c start finish answer c' asked message known)
    (by
      intro request member c start finish answer c' asked entry known
      obtain ⟨inner,_,rfl⟩ := Option.map_eq_some_iff.mp member
      exact logged_returns inner c start finish answer c' asked entry known)
    reached limit
  obtain ⟨passed,balance⟩ := inv.account
  have last := m.base_lt
  have fits : (counter m.stats.delivered).toNat = m.stats.delivered := counter_toNat (by omega)
  rw [fits]
  refine ⟨⟨sofar.ordered,fun d member => (sofar.numbered d member).1⟩,sofar.genuine,passed,by omega,?_⟩
  intro small
  rw [counter_toNat small]
  omega

/-- After 7 comes 9, the gap is given up for want of a client, and 8 comes too late. -/
def lateRun : List Action :=
  [.accept 1 (numbered 7),.deliver,.accept 1 (numbered 9),.deliver,.accept 1 (numbered 8),.deliver]

theorem sequencer_safety_reordered : ∃ (log : Log four) (m : SequenceManager four)
    (c : Unit × List MarketMessage), Reach ((none : Option (Client Unit)).map logged) ((),[]) log m c ∧
    (log.accepted.map (fun call => call.incoming.sequence) = [7,9,8] ∧
      log.delivered.map (fun d => d.2.sequence) = [7,9] ∧ m.base - log.first - (counter m.stats.delivered).toNat = 1) ∧
    (log.delivered.map (fun d => d.2.sequence)).Pairwise (· < ·) ∧
    m.base - log.first - (counter m.stats.delivered).toNat ≤ m.stats.unrecoverable := by
  have found : ∃ (log : Log four) (m : SequenceManager four) (c : Unit × List MarketMessage),
      Reach ((none : Option (Client Unit)).map logged) ((),[]) log m c ∧
      (∀ call ∈ log.accepted, call.incoming.sequence ≤ 2^64-1-four.size) ∧
      log.accepted.map (fun call => call.incoming.sequence) = [7,9,8] ∧
      log.delivered.map (fun d => d.2.sequence) = [7,9] ∧
      m.base - log.first - (counter m.stats.delivered).toNat = 1 :=
    play_finds lateRun
      (fun log m _ => (∀ call ∈ log.accepted, call.incoming.sequence ≤ 2^64-1-four.size) ∧
        log.accepted.map (fun call => call.incoming.sequence) = [7,9,8] ∧
        log.delivered.map (fun d => d.2.sequence) = [7,9] ∧
        m.base - log.first - (counter m.stats.delivered).toNat = 1) (by decide +kernel)
  obtain ⟨log,m,c,reached,room,out⟩ := found
  have safe := sequencer_safety none () c.1 c.2 log m reached room
  exact ⟨log,m,c,reached,out,safe.1.1,safe.2.2.2.1⟩

/-- Two jumps, each over numbers that were already given up, and a last one that
carries the count past `2^64`. -/
def wrappingRun : List Action :=
  [.accept 1 (numbered 0),.deliver,.accept 1 (numbered 4),.accept 1 (numbered 5),.deliver,
    .accept 1 (numbered 9),.accept 1 (numbered 10),.deliver,.accept 1 (numbered 14),
    .accept 1 (numbered 18446744073709551611)]

/-- The 64-bit counter of unrecoverable numbers can wrap, because a jump counts the
numbers already given up once more; it then reads less than what was passed over. -/
theorem unrecoverable_counter_wraps : ∃ (log : Log four) (m : SequenceManager four)
    (c : Unit × List MarketMessage),
    Reach ((none : Option (Client Unit)).map logged) ((),[]) log m c ∧
    (∀ call ∈ log.accepted, call.incoming.sequence ≤ 2^64-1-four.size) ∧
    ¬ m.base - log.first - (counter m.stats.delivered).toNat ≤
      (counter m.stats.unrecoverable).toNat :=
  play_finds wrappingRun (fun log m _ =>
    (∀ call ∈ log.accepted, call.incoming.sequence ≤ 2^64-1-four.size) ∧
    ¬ m.base - log.first - (counter m.stats.delivered).toNat ≤
      (counter m.stats.unrecoverable).toNat) (by decide +kernel)

end Llte.SequenceManager
