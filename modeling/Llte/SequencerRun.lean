import Llte.SequencerSound

/-! Runs of the sequencer: any interleaving of completed calls of `accept` and
`next_deliverable`, with a log of what went in and what came out. -/
namespace Llte.SequenceManager
open Foundation

variable {cap : Capacity} {σ : Type}

structure Call (cap : Capacity) where
  pre : SequenceManager cap
  incoming : FeedMessage

/-- The state of a call once the message is counted: its `expected` is the one the
source compares the message with, also for the very first message. -/
def Call.at (call : Call cap) : SequenceManager cap := call.pre.begin call.incoming

/-- Deliveries carry the value of `expected` at the moment of delivery, which the
call increments right after. -/
structure Log (cap : Capacity) where
  accepted : List (Call cap) := []
  delivered : List (UInt64 × FeedMessage) := []

namespace Log

def accept (log : Log cap) (pre : SequenceManager cap) (incoming : FeedMessage) : Log cap :=
  {log with accepted := log.accepted ++ [⟨pre,incoming⟩]}

def deliver (log : Log cap) (post : SequenceManager cap) (out : FeedMessage) : Log cap :=
  {log with delivered := log.delivered ++ [(post.expected - 1,out)]}

def first (log : Log cap) : Nat :=
  match log.accepted with
  | [] => 0
  | call::_ => call.incoming.sequence

def sum (log : Log cap) (measure : SequenceManager cap → FeedMessage → Nat) : Nat :=
  (log.accepted.map (fun call => measure call.at call.incoming)).sum

end Log

/-- States reached from a new sequencer whose client starts in `c₀`. -/
inductive Reach (client : Option (Client σ)) (c₀ : σ) : Log cap → SequenceManager cap → σ → Prop where
  | new : Reach client c₀ {} (create cap) c₀
  | accept {log : Log cap} {m m' : SequenceManager cap} {c c' : σ} (fuel : Nat) (f : FeedMessage)
      (before : Reach client c₀ log m c)
      (returned : SequenceManager.accept client fuel m c f = some (m',c')) :
      Reach client c₀ (log.accept m f) m' c'
  | deliver {log : Log cap} {m m' : SequenceManager cap} {c : σ} (out : FeedMessage)
      (before : Reach client c₀ log m c) (handed : m.nextDeliverable = (some out,m')) :
      Reach client c₀ (log.deliver m' out) m' c
  | idle {log : Log cap} {m m' : SequenceManager cap} {c : σ}
      (before : Reach client c₀ log m c) (nothing : m.nextDeliverable = (none,m')) :
      Reach client c₀ log m' c

inductive Action where
  | accept (fuel : Nat) (incoming : FeedMessage)
  | deliver

/-- Plays a script of calls; `none` when a call of `accept` did not return. -/
def play (client : Option (Client σ)) :
    List Action → Log cap → SequenceManager cap → σ → Option (Log cap × SequenceManager cap × σ)
  | [],log,m,c => some (log,m,c)
  | .accept fuel f::rest,log,m,c =>
    match accept client fuel m c f with
    | none => none
    | some (m',c') => play client rest (log.accept m f) m' c'
  | .deliver::rest,log,m,c =>
    match m.nextDeliverable with
    | (some out,m') => play client rest (log.deliver m' out) m' c
    | (none,m') => play client rest log m' c

theorem play_reach {client : Option (Client σ)} {c₀ : σ} (actions : List Action) {log log' : Log cap}
    {m m' : SequenceManager cap} {c c' : σ} (before : Reach client c₀ log m c)
    (played : play client actions log m c = some (log',m',c')) : Reach client c₀ log' m' c' := by
  induction actions generalizing log m c with
  | nil =>
    simp only [play,Option.some.injEq,Prod.mk.injEq] at played
    obtain ⟨rfl,rfl,rfl⟩ := played
    exact before
  | cons action rest ih =>
    cases action with
    | accept fuel f =>
      simp only [play] at played
      split at played
      next => simp at played
      next m₁ c₁ returned => exact ih (.accept fuel f before returned) played
    | deliver =>
      simp only [play] at played
      split at played
      next out m₁ handed => exact ih (.deliver out before handed) played
      next m₁ nothing => exact ih (.idle before nothing) played

theorem play_finds {client : Option (Client σ)} {c₀ : σ} (actions : List Action)
    (P : Log cap → SequenceManager cap → σ → Prop) [∀ log m c, Decidable (P log m c)]
    (checked : (play client actions {} (create cap) c₀).any
      (fun (log,m,c) => decide (P log m c)) = true) :
    ∃ log m c, Reach client c₀ log m c ∧ P log m c := by
  obtain ⟨⟨log,m,c⟩,played,found⟩ := (Option.any_eq_true _ _).mp checked
  exact ⟨log,m,c,play_reach actions .new played,of_decide_eq_true found⟩

def numbered (sequence : UInt64) : FeedMessage := {message := {sequenceNumber := sequence}}

def four : Capacity := ⟨4,by decide,by decide⟩

/-- A client that also remembers every message it has returned. -/
def logged (request : Client σ) : Client (σ × List MarketMessage) :=
  fun (c,seen) first last =>
    match request c first last with
    | (some answer,c) => (some answer,(c,seen ++ answer.messages.map Prod.fst))
    | (none,c) => (none,(c,seen))

def givenUp (m : SequenceManager cap) : Finset Nat := m.window.filter (fun q => m.state q = .skipped)

theorem mem_givenUp (m : SequenceManager cap) (q : Nat) :
    q ∈ m.givenUp ↔ q ∈ m.window ∧ m.state q = .skipped := Finset.mem_filter

/-- Numbers already counted as unrecoverable that this call takes back, because
the message arrives after all, or counts once more, because it jumps over them. -/
def lost (b : SequenceManager cap) (f : FeedMessage) : Nat :=
  if b.base+cap.size ≤ f.sequence then b.givenUp.card
  else if f.sequence ∈ b.givenUp then 1 else 0

/-- What a jump adds to the unrecoverable count. -/
def width (b : SequenceManager cap) (f : FeedMessage) : Nat :=
  if b.base+cap.size ≤ f.sequence then f.sequence - b.base else 0

/-- Messages that are counted as missing although the buffer holds them. -/
def refetched (b : SequenceManager cap) (f : FeedMessage) : Nat :=
  if f.sequence ∈ b.window ∧ b.state b.base = .empty then
    ((Finset.Ico b.base f.sequence).filter (fun q => b.state q = .filled)).card
  else 0

end Llte.SequenceManager
