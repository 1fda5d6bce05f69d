import Llte.SequencerSafety

/-! Draining the sequencer: `next_deliverable` until it returns nothing. The drain
passes exactly the used slots in front of the first empty one, and hands out the
messages held there, in order. -/
namespace Llte.SequenceManager
open Foundation

variable {cap : Capacity} {σ : Type}

/-- The messages held at the numbers from `low` up to `high`, in order. -/
def heldIn (m : SequenceManager cap) (low high : Nat) : List FeedMessage :=
  ((List.range' low (high - low)).filter (fun q => m.state q = .filled)).map
    (fun q => (m.slot q).payload)

theorem heldIn_self (m : SequenceManager cap) (q : Nat) : m.heldIn q q = [] := by
  simp [heldIn]

theorem heldIn_cons (m : SequenceManager cap) {low high : Nat} (more : low < high) :
    m.heldIn low high =
      (if m.state low = .filled then [(m.slot low).payload] else []) ++ m.heldIn (low+1) high := by
  have count : high - low = (high - (low+1))+1 := by omega
  rw [heldIn,count,List.range'_succ,List.filter_cons]
  split <;> simp_all [heldIn]

theorem heldIn_congr {m m' : SequenceManager cap} {low high : Nat}
    (same : ∀ q, low ≤ q → q < high → m'.slot q = m.slot q) : m'.heldIn low high = m.heldIn low high := by
  have inside (q : Nat) (member : q ∈ List.range' low (high - low)) : m'.slot q = m.slot q := by
    rw [List.mem_range'_1] at member
    exact same q member.1 (by omega)
  have kept : (List.range' low (high - low)).filter (fun q => m'.state q = .filled) =
      (List.range' low (high - low)).filter (fun q => m.state q = .filled) := by
    apply List.filter_congr
    intro q member
    rw [state,inside q member,state]
  rw [heldIn,heldIn,kept]
  apply List.map_congr_left
  intro q member
  rw [inside q (List.mem_of_mem_filter member)]

theorem mem_heldIn {m : SequenceManager cap} {low high q : Nat} (above : low ≤ q) (below : q < high)
    (held : m.state q = .filled) : (m.slot q).payload ∈ m.heldIn low high := by
  apply List.mem_map.mpr
  refine ⟨q,?_,rfl⟩
  rw [List.mem_filter,List.mem_range'_1]
  exact ⟨⟨above,by omega⟩,by simpa using held⟩

/-- How many messages are held. -/
def holds (m : SequenceManager cap) : Nat := m.buffer.cells.countP fun slot => slot.state = .filled

theorem holds_le (m : SequenceManager cap) : m.holds ≤ cap.size := Vector.countP_le_size

private theorem holds_advance (m : SequenceManager cap) :
    m.advance.holds+(if m.state m.base = .filled then 1 else 0) = m.holds := by
  have inside : m.base % cap.size < cap.size := Nat.mod_lt _ cap.pos
  change Vector.countP _ (m.buffer.cells.set (m.base % cap.size) _ inside)+_ = m.holds
  rw [Vector.countP_set]
  by_cases held : m.state m.base = .filled
  · have some_ : 0 < m.holds :=
      Vector.countP_pos_iff.mpr ⟨m.buffer.cells[m.base % cap.size],Vector.getElem_mem inside,decide_eq_true held⟩
    have here : m.buffer.cells[m.base % cap.size].state = .filled := held
    simp only [here,decide_true,if_true,reduceCtorEq,decide_false,if_false,Bool.false_eq_true,if_pos held]
    change m.holds - 1+0+1 = m.holds
    omega
  · have here : m.buffer.cells[m.base % cap.size].state ≠ .filled := held
    simp only [here,decide_false,if_false,reduceCtorEq,Bool.false_eq_true,if_neg held]
    rfl

private theorem deliverLoop_holds (fuel : Nat) {m m' : SequenceManager cap} {answer : Option FeedMessage}
    (delivered : deliverLoop fuel m = (answer,m')) : m'.holds+answer.toList.length = m.holds := by
  induction fuel generalizing m with
  | zero =>
    cases delivered
    rfl
  | succ fuel ih =>
    have advanced := m.holds_advance
    rw [deliverLoop] at delivered
    split at delivered
    next =>
      cases delivered
      rfl
    next passed =>
      have here : m.state m.base ≠ .filled := by
        rw [show m.state m.base = .skipped from passed]
        simp
      rw [if_neg here] at advanced
      rw [ih delivered]
      exact advanced
    next held =>
      rw [if_pos (show m.state m.base = .filled from held)] at advanced
      cases delivered
      exact advanced

/-- Every message handed out is held no longer. -/
theorem nextDeliverable_holds {m m' : SequenceManager cap} {answer : Option FeedMessage}
    (delivered : m.nextDeliverable = (answer,m')) : m'.holds+answer.toList.length = m.holds := by
  unfold nextDeliverable at delivered
  split at delivered
  next => exact deliverLoop_holds _ delivered
  next =>
    cases delivered
    rfl

/-- Slot by slot: given-up slots are passed over, held messages handed out. -/
inductive Walk : SequenceManager cap → List FeedMessage → SequenceManager cap → Prop where
  | refl (m : SequenceManager cap) : Walk m [] m
  | pass {m m' : SequenceManager cap} {outs : List FeedMessage} (passed : m.state m.base = .skipped)
      (rest : Walk m.advance outs m') : Walk m outs m'
  | hand {m m' : SequenceManager cap} {outs : List FeedMessage} (held : m.state m.base = .filled)
      (rest : Walk m.handOut outs m') : Walk m ((m.slot m.base).payload::outs) m'

structure Walked (m : SequenceManager cap) (outs : List FeedMessage) (m' : SequenceManager cap) :
    Prop where
  sound : Sound m'
  running : m'.started = true
  grown : m.base ≤ m'.base
  within : m'.base ≤ m.base+cap.size
  used : ∀ q, m.base ≤ q → q < m'.base → m.state q ≠ .empty
  ahead : ∀ q, m'.base ≤ q → q < m.base+cap.size → m'.slot q = m.slot q
  beyond : ∀ q, m.base+cap.size ≤ q → q < m'.base+cap.size → m'.state q = .empty
  handed : outs = m.heldIn m.base m'.base
  stats : m'.stats = {m.stats with delivered := m.stats.delivered+outs.length}

theorem Walked.step {m m₁ m' : SequenceManager cap} {outs : List FeedMessage}
    (front : List FeedMessage) (sound : Sound m) (used : m.state m.base ≠ .empty) (base₁ : m₁.base = m.base+1)
    (slots₁ : ∀ q, m₁.slot q = m.advance.slot q)
    (stats₁ : m₁.stats = {m.stats with delivered := m.stats.delivered+front.length})
    (shown : front = if m.state m.base = .filled then [(m.slot m.base).payload] else [])
    (rest : Walked m₁ outs m') : Walked m (front++outs) m' := by
  have pos := cap.pos
  have room := sound.below _ m.base_mem_window used
  have same (q : Nat) (low : m.base < q) (high : q < m.base+cap.size) : m₁.slot q = m.slot q := by
    rw [slots₁]
    exact advance_slot (by rw [mem_window]; omega) (by omega)
  have last : m₁.state (m.base+cap.size) = .empty := by
    rw [state,slots₁]
    exact advance_state_last m
  have grown := rest.grown
  have within : m'.base ≤ m.base+cap.size := by
    by_contra passed
    exact rest.used (m.base+cap.size) (by omega) (by omega) last
  refine ⟨rest.sound,rest.running,by omega,within,?_,?_,?_,?_,?_⟩
  · intro q low high
    by_cases here : q = m.base
    · exact here ▸ used
    · have later := rest.used q (by omega) high
      rw [state,same q (by omega) (by omega)] at later
      exact later
  · intro q low high
    rw [rest.ahead q low (by omega)]
    exact same q (by omega) high
  · intro q low high
    by_cases first : q = m.base+cap.size
    · subst first
      rw [state,rest.ahead _ (by omega) (by omega)]
      exact last
    · exact rest.beyond q (by omega) high
  · rw [heldIn_cons m (by omega),← shown,rest.handed,base₁]
    congr 1
    exact heldIn_congr (fun q low high => same q (by omega) (by omega))
  · rw [rest.stats,stats₁]
    simp [Nat.add_assoc]

theorem walk_walked {m m' : SequenceManager cap} {outs : List FeedMessage} (walk : Walk m outs m')
    (sound : Sound m) (running : m.started = true) : Walked m outs m' := by
  induction walk with
  | refl m =>
    refine ⟨sound,running,Nat.le_refl _,Nat.le_add_right _ _,?_,?_,?_,?_,rfl⟩
    · intro q low high
      omega
    · intro q _ _
      rfl
    · intro q low high
      omega
    · exact (heldIn_self m m.base).symm
  | @pass m m' outs passed rest ih =>
    have used : m.state m.base ≠ .empty := by rw [passed]; simp
    have walked := ih (sound.advance running used) running
    exact Walked.step [] sound used (advance_base (sound.below _ m.base_mem_window used))
      (fun _ => rfl) rfl (by simp [passed]) walked
  | @hand m m' outs held rest ih =>
    have used : m.state m.base ≠ .empty := by rw [held]; simp
    have advanced := sound.advance running used
    have walked := ih (advanced.congr rfl rfl (fun _ => rfl)) running
    have based : m.handOut.base = m.base+1 := advance_base (sound.below _ m.base_mem_window used)
    exact Walked.step [(m.slot m.base).payload] sound used based (fun _ => rfl) rfl (by simp [held])
      walked

private theorem passes_walk {m m₁ m' : SequenceManager cap} {outs : List FeedMessage}
    (passed : Relation.ReflTransGen PassesOver m m₁) (rest : Walk m₁ outs m') : Walk m outs m' := by
  induction passed using Relation.ReflTransGen.head_induction_on with
  | refl => exact rest
  | head step _ ih =>
    obtain ⟨passed,rfl⟩ := step
    exact .pass passed ih

private theorem occupied_passes {m m' : SequenceManager cap} (passed : Relation.ReflTransGen PassesOver m m') :
    m'.occupied ≤ m.occupied := by
  induction passed with
  | refl => exact Nat.le_refl _
  | tail _ step ih =>
    obtain ⟨passed,rfl⟩ := step
    have less := occupied_advance _ (by rw [passed]; simp)
    omega

private theorem drainLoop_walk (fuel : Nat) (m : SequenceManager cap) (running : m.started = true)
    (enough : m.occupied < fuel) : Walk m (drainLoop fuel m).1 (drainLoop fuel m).2 ∧
      (drainLoop fuel m).2.state (drainLoop fuel m).2.base = .empty := by
  induction fuel generalizing m with
  | zero => omega
  | succ fuel ih =>
    rcases nextDeliverable_cases m with ⟨stopped,_⟩ | ⟨_,found⟩
    · rw [running] at stopped
      simp at stopped
    · rw [drainLoop]
      generalize result : m.nextDeliverable = r at found
      cases found with
      | nothing m' passed vacant => exact ⟨passes_walk passed (.refl m'),vacant⟩
      | message m₁ passed held =>
        have still : m₁.handOut.started = true := by
          have kept : m₁.started = m.started := by
            clear result held
            induction passed with
            | refl => rfl
            | tail _ step ih =>
              obtain ⟨_,rfl⟩ := step
              exact ih
          exact kept.trans running
        have fewer := occupied_passes passed
        have less := occupied_advance m₁ (by rw [held]; simp)
        have rest := ih m₁.handOut still (by change m₁.advance.occupied < fuel; omega)
        exact ⟨passes_walk passed (.hand held rest.1),rest.2⟩

theorem drain_walked {m : SequenceManager cap} (sound : Sound m) (running : m.started = true) :
    Walked m m.drain.1 m.drain.2 ∧ m.drain.2.state m.drain.2.base = .empty := by
  have walk := drainLoop_walk (cap.size+1) m running (Nat.lt_succ_of_le m.occupied_le)
  exact ⟨walk_walked walk.1 sound running,walk.2⟩

theorem drain_passes {m : SequenceManager cap} {s : Nat} (sound : Sound m) (running : m.started = true)
    (upto : s < m.base+cap.size) (full : ∀ q, m.base ≤ q → q ≤ s → m.state q ≠ .empty) :
    s < m.drain.2.base := by
  obtain ⟨walked,vacant⟩ := drain_walked sound running
  by_contra stuck
  have same := walked.ahead m.drain.2.base (Nat.le_refl _) (by omega)
  apply full m.drain.2.base walked.grown (by omega)
  rw [state,← same]
  exact vacant

/-- No hole up to `s`. `accept` looks for a gap only at the slot of `expected`, so what a
call leaves behind depends on what was pending before it. -/
def Covered (m : SequenceManager cap) (s : Nat) : Prop :=
  ∀ q, m.base ≤ q → q ≤ s → m.state q ≠ .empty

/-- What a call with number `s` needs to find: `s` past the window, the slot of
`expected` empty, or nothing empty in front of `s`. -/
def Unbroken (b : SequenceManager cap) (s : Nat) : Prop :=
  b.base+cap.size ≤ s ∨ b.state b.base = .empty ∨ ∀ q, b.base ≤ q → q < s → b.state q ≠ .empty

theorem store_state_self {m : SequenceManager cap} {f : FeedMessage} (inside : f.sequence ∈ m.window) :
    (m.store f).state f.sequence = .filled := by
  rw [state,slot_store inside inside]
  split
  next => rfl
  next away =>
    by_contra free
    exact away ⟨rfl,free⟩

private theorem store_covered_iff {b : SequenceManager cap} {f : FeedMessage} (inside : f.sequence ∈ b.window)
    (quiet : f.sequence = b.base ∨ b.state b.base ≠ .empty) :
    Covered (b.store f) f.sequence ↔ Unbroken b f.sequence := by
  have bounds := (mem_window b _).mp inside
  have based : (b.store f).base = b.base := by rw [base,store_expected,base]
  have before (q : Nat) (low : b.base ≤ q) (high : q < f.sequence) :
      (b.store f).state q = b.state q := by
    rw [state,slot_store inside (by rw [mem_window]; omega),if_neg (by omega),state]
  constructor
  · intro covered
    refine .inr (.inr ?_)
    intro q low high
    rw [← before q low high]
    exact covered q (by omega) (by omega)
  · intro unbroken q low high
    rw [based] at low
    by_cases here : q = f.sequence
    · rw [here,store_state_self inside]
      simp
    · rw [before q low (by omega)]
      rcases unbroken with far | vacant | full
      · omega
      · rcases quiet with first | used
        · omega
        · exact absurd vacant used
      · exact full q low (by omega)

theorem Accepted.covered_iff {client : Option (Client σ)} {b m' : SequenceManager cap} {c c' : σ}
    {f : FeedMessage} (call : Accepted client b c f m' c') (current : b.base ≤ f.sequence) :
    Covered m' f.sequence ↔ Unbroken b f.sequence := by
  cases call with
  | stale old => omega
  | jump far =>
    refine iff_of_true ?_ (.inl far)
    intro q low high
    have pos := cap.pos
    rw [resynchronize_base] at low
    have here : q = f.sequence := by omega
    rw [state,resynchronize_slot b f (by omega) (by omega),if_pos here]
    simp
  | plain inside quiet => exact store_covered_iff inside quiet
  | recovery inside ahead vacant fuel r c' requested =>
    have closed := Accepted.closed inside ahead requested
    refine iff_of_true ?_ (.inr (.inl vacant))
    intro q low high
    rw [base,closed.expected] at low
    change b.base ≤ q at low
    have bounds := (mem_window b _).mp inside
    exact closed.covered (by rw [mem_window]; omega) high

theorem Accepted.near {client : Option (Client σ)} {b m' : SequenceManager cap} {c c' : σ}
    {f : FeedMessage} (call : Accepted client b c f m' c') : f.sequence < m'.base+cap.size := by
  have pos := cap.pos
  cases call with
  | stale old =>
    change f.sequence < b.base+cap.size
    omega
  | jump far =>
    rw [resynchronize_base]
    omega
  | plain inside quiet =>
    rw [base,store_expected]
    exact ((mem_window b _).mp inside).2
  | recovery inside ahead vacant fuel r c' requested =>
    rw [base,(Accepted.closed inside ahead requested).expected]
    exact ((mem_window b _).mp inside).2

/-- A call of `accept` with a current number leaves nothing empty up to it, and the
drain gets past it, exactly when the state it was made in was unbroken. -/
theorem accept_leaves_no_hole_iff (client : Option (Client σ)) (c₀ c : σ) (log : Log cap)
    (m : SequenceManager cap) (f : FeedMessage) (reached : Reach client c₀ log m c)
    (small : ∀ call ∈ log.accepted, call.incoming.sequence < 2^63) (own : f.sequence < 2^63)
    (current : (m.begin f).base ≤ f.sequence) :
    (∃ fuel m' c', accept client fuel m c f = some (m',c')) ∧
    ∀ fuel m' c', accept client fuel m c f = some (m',c') →
      ((Covered m' f.sequence ∧ f.sequence < m'.drain.2.base) ↔ Unbroken (m.begin f) f.sequence) := by
  refine ⟨⟨f.sequence+1,accept_returns client m c f (by omega) (Nat.lt_succ_self _)⟩,?_⟩
  intro fuel m' c' returned
  have size := cap.bound
  have inv := reach_runInv (Reach.accept fuel f reached returned) (by
    intro call member
    simp only [Log.accept,List.mem_append,List.mem_singleton] at member
    rcases member with earlier | rfl
    · have bound := small call earlier
      omega
    · change f.sequence+cap.size < 2^64
      omega)
  have call := accept_cases returned
  have running : m'.started = true := call.started.trans (begin_started m f)
  rw [← call.covered_iff current]
  refine ⟨And.left,?_⟩
  intro covered
  exact ⟨covered,drain_passes inv.sound running call.near covered⟩

/-- A message right after a delivered one: the state was unbroken. -/
theorem accept_leaves_no_hole_next : ∃ (log : Log four) (m : SequenceManager four),
    Reach (none : Option (Client Unit)) () log m () ∧ m.base = 2 ∧
    ∃ fuel m' c', accept (none : Option (Client Unit)) fuel m () (numbered 4) = some (m',c') ∧
      Covered m' 4 ∧ 4 < m'.drain.2.base := by
  have found : ∃ (log : Log four) (m : SequenceManager four) (c : Unit),
      Reach (none : Option (Client Unit)) () log m c ∧
      (∀ call ∈ log.accepted, call.incoming.sequence < 2^63) ∧ m.base = 2 ∧
      (m.begin (numbered 4)).base = 2 ∧ (m.begin (numbered 4)).state 2 = .empty :=
    play_finds [.accept 1 (numbered 1),.deliver]
      (fun log m _ => (∀ call ∈ log.accepted, call.incoming.sequence < 2^63) ∧ m.base = 2 ∧
        (m.begin (numbered 4)).base = 2 ∧ (m.begin (numbered 4)).state 2 = .empty)
      (by decide +kernel)
  obtain ⟨log,m,c,reached,small,based,based',vacant⟩ := found
  have law := accept_leaves_no_hole_iff none () () log m (numbered 4) reached small (by decide)
    (by rw [based']; decide)
  obtain ⟨fuel,m',c',returned⟩ := law.1
  have unbroken : Unbroken (m.begin (numbered 4)) (numbered 4).sequence :=
    .inr (.inl (by rw [based']; exact vacant))
  exact ⟨log,m,reached,based,fuel,m',c',returned,(law.2 fuel m' c' returned).mpr unbroken⟩

/-- With message 1 pending and undrained, message 3 leaves the slot of 2 empty and
the drain stops there. -/
theorem accept_leaves_hole : ∃ (log : Log four) (m : SequenceManager four),
    Reach (none : Option (Client Unit)) () log m () ∧
    (∀ call ∈ log.accepted, call.incoming.sequence < 2^63) ∧
    (m.begin (numbered 3)).base ≤ 3 ∧
    ∃ m', accept (none : Option (Client Unit)) 1 m () (numbered 3) = some (m',()) ∧
      m'.base = 1 ∧ m'.state 2 = .empty ∧ ¬ 3 < m'.drain.2.base := by
  have found : ∃ (log : Log four) (m : SequenceManager four) (c : Unit),
      Reach (none : Option (Client Unit)) () log m c ∧
      ((∀ call ∈ log.accepted, call.incoming.sequence < 2^63) ∧
      (m.begin (numbered 3)).base ≤ 3) ∧
      (accept (none : Option (Client Unit)) 1 m () (numbered 3)).any (fun r =>
        r.1.base = 1 ∧ r.1.state 2 = .empty ∧ ¬ 3 < r.1.drain.2.base) = true :=
    play_finds [.accept 1 (numbered 1)]
      (fun log m _ => ((∀ call ∈ log.accepted, call.incoming.sequence < 2^63) ∧
        (m.begin (numbered 3)).base ≤ 3) ∧
        (accept (none : Option (Client Unit)) 1 m () (numbered 3)).any (fun r =>
          r.1.base = 1 ∧ r.1.state 2 = .empty ∧ ¬ 3 < r.1.drain.2.base) = true)
      (by decide +kernel)
  obtain ⟨log,m,c,reached,⟨small,current⟩,checked⟩ := found
  obtain ⟨⟨m',c'⟩,returned,seen⟩ := (Option.any_eq_true _ _).mp checked
  exact ⟨log,m,reached,small,current,m',returned,of_decide_eq_true seen⟩

end Llte.SequenceManager
