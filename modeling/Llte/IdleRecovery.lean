import Llte.RecoveryConnection

/-! The sequencer over one recovery connection. Without a timeout on the server its
gaps are filled with everything the history still has; the first timeout ends
recovery for good, and from then on retained messages are given up. -/
namespace Llte
open Foundation

section Client
variable {hcap : Capacity}

/-- The connection as the sequencer sees it, with the visits made so far. A request
that is not answered is ended by the client's own receive timeout. -/
def recoverOver (visits : Nat → Visit hcap) : Client (Session × Nat) := fun c first last =>
  match (visits c.2).request c.1 first last with
  | none => (none,(c.1.close,c.2+1))
  | some (.error _,s) => (none,(s,c.2+1))
  | some (.ok messages,s) =>
    (some ⟨(visits c.2).arrived,messages.mapIdx (fun i message => (message,(visits c.2).stored i))⟩,
      (s,c.2+1))

/-- No timeout fires, nothing is lost, and the history holds what was appended to it. -/
structure Steady (visits : Nat → Visit hcap) : Prop where
  quiet : ∀ k, (visits k).idle = 0
  lossless : ∀ k first last, (visits k).Lossless first last
  stored : ∀ k, ∃ start log, (visits k).history.Retains start log

variable {visits : Nat → Visit hcap} {c c' : Session × Nat} {first last : UInt64} {answer : Option Answer}

private theorem recoverOver_turn (asked : recoverOver visits c first last = (answer,c')) : c'.2 = c.2+1 := by
  unfold recoverOver at asked
  split at asked <;> (rw [Prod.mk.injEq] at asked; rw [← asked.2])

namespace Steady

private theorem recoverOver_eq (steady : Steady visits) (up : c.1.Up) (ordered : first ≤ last)
    (room : last.toNat+1 < 2^64) : ∃ messages,
      (visits c.2).history.serve (last.toNat - first.toNat + 2) first last = some messages ∧
      recoverOver visits c first last = (some ⟨(visits c.2).arrived,
        messages.mapIdx (fun i message => (message,(visits c.2).stored i))⟩,
        (c.1.served messages.length,c.2+1)) := by
  have lossless := steady.lossless c.2 first last
  obtain ⟨messages,served⟩ := (visits c.2).history.serve_ends first room
  refine ⟨messages,served,?_⟩
  unfold recoverOver
  rw [Visit.request_up lossless up (steady.quiet c.2) ordered,
    (visits c.2).history.serve_mono served lossless.enough]
  rfl

private theorem keeps_up (steady : Steady visits) (up : c.1.Up) (ordered : first ≤ last)
    (room : last.toNat+1 < 2^64) (asked : recoverOver visits c first last = (answer,c')) : c'.1.Up := by
  obtain ⟨messages,_,equal⟩ := steady.recoverOver_eq up ordered room
  rw [asked,Prod.mk.injEq] at equal
  rw [equal.2]
  exact up

theorem covers (steady : Steady visits) (up : c.1.Up) (ordered : first ≤ last)
    (batch : last.toNat < first.toNat+1024) (room : last.toNat+1 < 2^64)
    (asked : recoverOver visits c first last = (answer,c')) :
    ∃ full, answer = some full ∧ ∀ q, first.toNat ≤ q → q ≤ last.toNat →
      (visits c.2).history.holds q = true →
      ∃ entry ∈ full.messages, entry.1.sequenceNumber.toNat = q := by
  obtain ⟨messages,served,equal⟩ := steady.recoverOver_eq up ordered room
  rw [asked,Prod.mk.injEq] at equal
  refine ⟨_,equal.1,?_⟩
  intro q low high there
  obtain ⟨start,log,retains⟩ := steady.stored c.2
  obtain ⟨used,above,below⟩ := (HistoryStore.holds_iff _ q).mp there
  have member := HistoryStore.serve_covers ordered batch room served low high there
  obtain ⟨i,inside,found⟩ := List.mem_iff_getElem.mp member
  refine ⟨_,List.mem_mapIdx.mpr ⟨i,inside,rfl⟩,?_⟩
  rw [found]
  exact (retains.get used above below).2

end Steady
end Client

namespace SequenceManager
variable {cap hcap : Capacity} {visits : Nat → Visit hcap}

/-- One call of `accept` over a steady connection: the connection stays up, and a
number of the window that the history had at every request of this call is not
given up by it. -/
theorem Accepted.spares (steady : Steady visits) {b m' : SequenceManager cap} {c c' : Session × Nat}
    {f : FeedMessage} (accepted : Accepted (some (recoverOver visits)) b c f m' c') (up : c.1.Up)
    (room : f.sequence+1024 < 2^64) :
    c'.1.Up ∧ ∀ q ∈ m'.window,
      (∀ k, c.2 ≤ k → k < c'.2 → (visits k).history.holds q = true) →
      m'.state q = .skipped → b.state q = .skipped := by
  cases accepted with
  | stale old => exact ⟨up,fun q _ _ given => given⟩
  | jump far =>
    refine ⟨up,?_⟩
    intro q hq _ given
    rw [mem_window,resynchronize_base] at hq
    rw [state,resynchronize_slot b f hq.1 hq.2] at given
    split at given <;> simp at given
  | plain inside quiet =>
    refine ⟨up,?_⟩
    intro q hq _ given
    rw [window_congr (store_expected b f)] at hq
    rw [state,slot_store inside hq] at given
    split at given
    · simp at given
    · exact given
  | recovery inside ahead open_ fuel r c' requested =>
    obtain ⟨known,fills⟩ := recovery_fills (fun d => d.1.Up ∧ c.2 ≤ d.2) (fun d => d.2 ≤ c'.2)
      (fun q => ∀ k, c.2 ≤ k → k < c'.2 → (visits k).history.holds q = true)
      (fun d first last answer d' asked begun ordered small =>
        ⟨steady.keeps_up begun.1 ordered small asked,by rw [recoverOver_turn asked]; omega⟩)
      (fun d first last answer d' asked later => by rw [recoverOver_turn asked] at later; omega)
      (fun d first last answer d' asked begun later ordered batch small => by
        obtain ⟨full,same,all⟩ := steady.covers begun.1 ordered batch small asked
        rw [recoverOver_turn asked] at later
        exact ⟨full,same,fun q low high there => all q low high (there d.2 begun.2 (by omega))⟩)
      inside ahead room requested ⟨up,Nat.le_refl _⟩ (Nat.le_refl _)
    have phase := requestMissing_recovers (fun _ _ => True) (fun _ _ _ _ _ _ _ _ _ known => known)
      (fun _ _ _ _ _ _ _ _ _ _ _ _ => trivial) requested
    have closed := gap_closed inside ahead phase.1
    refine ⟨known.1,?_⟩
    intro q hq there given
    rw [window_congr closed.expected] at hq
    by_cases gap : q < f.sequence
    · rw [fills q ((mem_window b q).mp hq).1 gap there] at given
      simp at given
    by_cases held : b.state q = .filled
    · rw [state,closed.kept q hq held] at given
      exact given
    by_cases here : q = f.sequence
    · subst here
      rw [state,closed.stored held] at given
      simp at given
    rcases closed.others q hq held here with ⟨now,_⟩ | same
    · rw [now] at given
      simp at given
    · rw [state,same,if_neg (fun both => gap both.1)] at given
      exact given

theorem reach_up (steady : Steady visits) {log : Log cap} {m : SequenceManager cap} {c : Session × Nat}
    (reach : Reach (some (recoverOver visits)) ({},0) log m c)
    (small : ∀ call ∈ log.accepted, call.incoming.sequence+1024 < 2^64) : c.1.Up := by
  induction reach with
  | new => exact ⟨rfl,rfl⟩
  | @accept log m m' c c' fuel f before returned ih =>
    have up := ih (fun call member => small call (List.mem_append_left _ member))
    exact ((accept_cases returned).spares steady up (small ⟨m,f⟩ (by simp [Log.accept]))).1
  | deliver out before handed ih => exact ih small
  | idle before nothing ih => exact ih small

/-- Idle periods and recovery. After any requests over one connection on which no send
fails and the client's receives neither time out nor fail, the next request for a retained range of at most one batch brings all of
it exactly when no receive timeout has fired on the server; and a sequencer over a
connection without such timeouts gives up on nothing the history still has. -/
theorem recovery_survives_iff :
    (∀ (before : List (Visit hcap × UInt64 × UInt64)) (s : Session) (v : Visit hcap) (first last : UInt64)
      (start : Nat) (log : List MarketMessage),
      (∀ visit ∈ before, visit.1.Lossless visit.2.1 visit.2.2) → runSession before {} = some s →
      v.Lossless first last → v.history.Retains start log → first ≤ last →
      last.toNat < first.toNat+1024 → v.history.retained first last = true →
      ((∃ s', v.request s first last = some (.ok (between first.toNat (last.toNat+1) log),s')) ↔
        v.idle = 0 ∧ ∀ visit ∈ before, visit.1.idle = 0)) ∧
    ∀ (visits : Nat → Visit hcap) (log : Log cap) (m m' : SequenceManager cap) (c c' : Session × Nat)
      (fuel : Nat) (f : FeedMessage), Steady visits →
      Reach (some (recoverOver visits)) ({},0) log m c →
      (∀ call ∈ log.accepted, call.incoming.sequence+1024 < 2^64) → f.sequence+1024 < 2^64 →
      accept (some (recoverOver visits)) fuel m c f = some (m',c') →
      ∀ q ∈ m'.window, (∀ k, c.2 ≤ k → k < c'.2 → (visits k).history.holds q = true) →
        m'.state q = .skipped → m.state q = .skipped := by
  constructor
  · intro before s v first last start log lossless ran whole retains ordered batch available
    obtain ⟨connected,iff⟩ := runSession_up_iff before lossless ran (fun _ => rfl)
    rw [eq_self_iff_true,true_and] at iff
    rw [← iff]
    constructor
    · rintro ⟨s',asked⟩
      by_contra late
      have gone : ¬ ((s.enter v.running).wait v.idle).serving = true := by
        rw [Session.wait_serving]
        exact fun both => late ⟨both.2,Session.enter_serving both.1⟩
      exact (Visit.request_gone gone asked).1 _ rfl
    · rintro ⟨quiet,serving⟩
      have served := v.history.serve_mono (HistoryStore.serve_retained ordered batch available) whole.enough
      rw [Visit.request_up whole ⟨serving,connected serving⟩ quiet ordered,served,Option.map_some,
        retains.range_get ordered available]
      exact ⟨_,rfl⟩
  · intro visits log m m' c c' fuel f steady reach small room returned q hq there given
    have spared := ((accept_cases returned).spares steady (reach_up steady reach small) room).2 q hq there given
    rwa [state,begin_slot] at spared

def history3 : HistoryStore four :=
  (((HistoryStore.create four).append {sequenceNumber := 1}).append {sequenceNumber := 2}).append
    {sequenceNumber := 3}

private theorem history3_retains : history3.Retains 1
    [{sequenceNumber := 1},{sequenceNumber := 2},{sequenceNumber := 3}] :=
  (((HistoryStore.Retains.create four 1).append rfl (by decide)).append rfl (by decide)).append rfl (by decide)

def prompt (idle : Nat) : Visit four where
  idle := idle
  history := history3
  fuel := 2^64+1
  transfers first last :=
    let length := ((history3.serve (2^64+1) first last).getD []).length*kMessageBytes
    let payload := if length = 0 then [] else [.moved length]
    ⟨[.moved kRequestBytes],[.moved kRequestBytes],[.moved kResponseHeaderBytes],
      [.moved kResponseHeaderBytes],payload,payload⟩

private theorem prompt_lossless (idle : Nat) (first last : UInt64) : (prompt idle).Lossless first last := by
  have limit := UInt64.toNat_lt last
  have whole (n : Nat) (pos : 0 < n) : Delivers [.moved n] n := ⟨pos,Nat.le_refl _,Nat.sub_self _⟩
  refine ⟨rfl,?_,whole _ (by decide),whole _ (by decide),whole _ (by decide),whole _ (by decide),?_⟩
  · change last.toNat - first.toNat + 2 ≤ 2^64+1
    omega
  · intro messages served
    change history3.serve (2^64+1) first last = some messages at served
    simp only [prompt,served,Option.getD_some,and_self]
    split
    next none => exact none
    next some_ => exact whole _ (Nat.pos_of_ne_zero some_)

/-- Two requests in quick succession, and the sequencer over such a connection: the
gap at 2 is not given up. -/
theorem recovery_survives_quiet :
    (∃ s', (prompt 0).request {servedRequests := 1, servedMessages := 1} 2 2 =
      some (.ok (between 2 3 [{sequenceNumber := 1},{sequenceNumber := 2},{sequenceNumber := 3}]),s')) ∧
    ∃ (log : Log four) (m : SequenceManager four) (c : Session × Nat) (m' : SequenceManager four)
      (c' : Session × Nat), Reach (some (recoverOver fun _ => prompt 0)) ({},0) log m c ∧
      accept (some (recoverOver fun _ => prompt 0)) 2 m c (numbered 3) = some (m',c') ∧
      2 ∈ m'.window ∧ m'.state 2 ≠ .skipped := by
  have law := @recovery_survives_iff four four
  constructor
  · refine (law.1 [(prompt 0,1,1)] _ (prompt 0) 2 2 1 _ ?_ ?_ (prompt_lossless 0 2 2) history3_retains
      (by decide) (by decide) (by decide +kernel)).mpr (by simp [prompt])
    · intro visit member
      rw [List.mem_singleton] at member
      rw [member]
      exact prompt_lossless 0 1 1
    · decide +kernel
  · have run : ∃ (log : Log four) (m : SequenceManager four) (c : Session × Nat),
        Reach (some (recoverOver fun _ => prompt 0)) ({},0) log m c ∧
        (accept (some (recoverOver fun _ => prompt 0)) 2 m c (numbered 3)).any (fun r =>
          decide ((∀ call ∈ log.accepted, call.incoming.sequence+1024 < 2^64) ∧
            2 ∈ r.1.window ∧ m.state 2 = .empty)) = true :=
      play_finds [.accept 2 (numbered 1),.deliver] (fun log m c =>
        (accept (some (recoverOver fun _ => prompt 0)) 2 m c (numbered 3)).any (fun r =>
          decide ((∀ call ∈ log.accepted, call.incoming.sequence+1024 < 2^64) ∧
            2 ∈ r.1.window ∧ m.state 2 = .empty)) = true) (by decide +kernel)
    obtain ⟨log,m,c,reach,found⟩ := run
    obtain ⟨⟨m',c'⟩,returned,facts⟩ := (Option.any_eq_true _ _).mp found
    obtain ⟨small,inside,before⟩ := of_decide_eq_true facts
    refine ⟨log,m,c,m',c',reach,returned,inside,?_⟩
    intro given
    have steady : Steady (fun _ => prompt 0) :=
      ⟨fun _ => rfl,fun _ => prompt_lossless 0,fun _ => ⟨_,_,history3_retains⟩⟩
    have late := law.2 _ log m m' c c' 2 (numbered 3) steady reach small (by decide) returned 2 inside
      (fun _ _ _ => by decide +kernel) given
    rw [before] at late
    simp at late

/-- One timeout after the connection was made: the first request for the retained
message 2 fails, and the sequencer gives it up. -/
theorem recovery_lost_after_idle :
    (∀ first last, (prompt 1).Lossless first last) ∧
    (prompt 1).history.Retains 1 [{sequenceNumber := 1},{sequenceNumber := 2},{sequenceNumber := 3}] ∧
    (prompt 1).history.retained 2 2 = true ∧
    (prompt 1).request {} 2 2 = some (.error .header,{serving := false, connected := false}) ∧
    ∃ (log : Log four) (m : SequenceManager four) (c : Session × Nat) (m' : SequenceManager four)
      (c' : Session × Nat), Reach (some (recoverOver fun _ => prompt 1)) ({},0) log m c ∧
      accept (some (recoverOver fun _ => prompt 1)) 2 m c (numbered 3) = some (m',c') ∧
      (prompt 1).history.holds 2 = true ∧ 2 ∈ m'.window ∧ m.state 2 = .empty ∧ m'.state 2 = .skipped := by
  refine ⟨prompt_lossless 1,history3_retains,by decide +kernel,by decide +kernel,?_⟩
  have run : ∃ (log : Log four) (m : SequenceManager four) (c : Session × Nat),
      Reach (some (recoverOver fun _ => prompt 1)) ({},0) log m c ∧
      (accept (some (recoverOver fun _ => prompt 1)) 2 m c (numbered 3)).any (fun r =>
        decide (2 ∈ r.1.window ∧ m.state 2 = .empty ∧ r.1.state 2 = .skipped)) = true :=
    play_finds [.accept 2 (numbered 1),.deliver] (fun _ m c =>
      (accept (some (recoverOver fun _ => prompt 1)) 2 m c (numbered 3)).any (fun r =>
        decide (2 ∈ r.1.window ∧ m.state 2 = .empty ∧ r.1.state 2 = .skipped)) = true) (by decide +kernel)
  obtain ⟨log,m,c,reach,found⟩ := run
  obtain ⟨⟨m',c'⟩,returned,facts⟩ := (Option.any_eq_true _ _).mp found
  obtain ⟨inside,before,after⟩ := of_decide_eq_true facts
  exact ⟨log,m,c,m',c',reach,returned,by decide +kernel,inside,before,after⟩

end SequenceManager
end Llte
