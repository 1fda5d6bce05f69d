import Llte.Handler

/-! The sequencer by what it is told. Its state depends on the recovery service only
through the answers, so a run next to a service that changes between two calls is also
a run with the answers prepared beforehand, and what holds of all runs holds of it. -/
namespace Llte.SequenceManager
open Foundation

variable {cap : Capacity} {σ : Type}

/-- A client that hands out prepared answers, whatever it is asked. -/
def prepared : Client (List (Option Answer)) := fun answers _ _ =>
  match answers with
  | [] => (none,[])
  | answer::rest => (answer,rest)

def contents (answers : List (Option Answer)) : List MarketMessage :=
  answers.flatMap fun answer => answer.elim [] fun full => full.messages.map Prod.fst

private theorem contents_append (answers later : List (Option Answer)) :
    contents (answers ++ later) = contents answers ++ contents later := List.flatMap_append

private theorem logged_prepared (answer : Option Answer) (rest : List (Option Answer)) (seen : List MarketMessage)
    (first last : UInt64) : logged prepared (answer::rest,seen) first last =
      (answer,(rest,seen ++ contents [answer])) := by
  cases answer <;> simp [logged,prepared,contents]

section Keeps
variable {request : Client σ} (I : σ → Prop)
  (keep : ∀ c first last answer c', request c first last = (answer,c') → I c → I c')
include keep

private theorem requestLoop_keeps {last : UInt64} (fuel : Nat) (start : UInt64) {m r : SequenceManager cap} {c c' : σ}
    (ended : requestLoop request last fuel start m c = some (r,c')) (begun : I c) : I c' := by
  induction fuel generalizing start m c with
  | zero => simp [requestLoop] at ended
  | succ fuel ih =>
    rw [requestLoop] at ended
    split at ended
    next =>
      dsimp only at ended
      split at ended
      next c₁ asked =>
        cases ended
        exact keep _ _ _ _ _ asked begun
      next answer c₁ asked => exact ih _ ended (keep _ _ _ _ _ asked begun)
    next =>
      cases ended
      exact begun

private theorem accept_keeps {fuel : Nat} {m m' : SequenceManager cap} {c c' : σ} {f : FeedMessage}
    (returned : accept (some request) fuel m c f = some (m',c')) (begun : I c) : I c' := by
  cases accept_cases returned with
  | stale old => exact begun
  | jump far => exact begun
  | plain inside quiet => exact begun
  | recovery inside ahead vacant fuel r c' requested => exact requestLoop_keeps I keep fuel _ requested begun

theorem acceptAll_keeps {fuel : Nat} (messages : List FeedMessage) {m m' : SequenceManager cap} {c c' : σ}
    {calls : List (Call cap)} (done : acceptAll (some request) fuel messages m c = some (calls,m',c'))
    (begun : I c) : I c' := by
  induction messages generalizing m c calls with
  | nil =>
    cases done
    exact begun
  | cons f rest ih =>
    obtain ⟨m₁,c₁,later,returned,fed,_⟩ := acceptAll_cons done
    exact ih fed (accept_keeps I keep returned begun)

end Keeps

section Answers
variable {request : Client σ} {last : UInt64} (S : σ → MarketMessage → Prop)
  (grows : ∀ message c first finish answer c', request c first finish = (answer,c') → S c message → S c' message)
  (returns : ∀ c first finish answer c', request c first finish = (some answer,c') → finish ≤ last →
    ∀ entry ∈ answer.messages, S c' entry.1)
include grows returns

private theorem requestLoop_prepared (fuel : Nat) (start : UInt64) {m r : SequenceManager cap} {c c' : σ}
    (ended : requestLoop request last fuel start m c = some (r,c')) :
    ∃ answers, (∀ message ∈ contents answers, S c' message) ∧
      ∀ rest seen, requestLoop (logged prepared) last fuel start m (answers ++ rest,seen) =
        some (r,(rest,seen ++ contents answers)) := by
  induction fuel generalizing start m c with
  | zero => simp [requestLoop] at ended
  | succ fuel ih =>
    rw [requestLoop] at ended
    split at ended
    next more =>
      have upto : min last (start + kMaxRecoveryBatch - 1) ≤ last := by
        rw [UInt64.le_iff_toNat_le,batchEnd_toNat]
        exact Nat.min_le_left _ _
      dsimp only at ended
      split at ended
      next c₁ asked =>
        -- a failed request ends the loop
        cases ended
        refine ⟨[none],by simp [contents],?_⟩
        intro rest seen
        rw [requestLoop,if_pos more]
        dsimp only
        rw [List.cons_append,logged_prepared]
        rfl
      next answer c₁ asked =>
        obtain ⟨answers,genuine,replays⟩ := ih _ ended
        refine ⟨some answer::answers,?_,?_⟩
        · intro message member
          rw [← List.singleton_append,contents_append,List.mem_append] at member
          rcases member with newest | other
          · obtain ⟨entry,there,rfl⟩ : ∃ entry ∈ answer.messages, entry.1 = message := by
              simpa [contents] using newest
            exact requestLoop_keeps (fun c => S c entry.1) (grows entry.1) fuel _ ended
              (returns _ _ _ _ _ asked upto entry there)
          · exact genuine message other
        · intro rest seen
          rw [requestLoop,if_pos more]
          dsimp only
          rw [List.cons_append,logged_prepared]
          dsimp only
          rw [replays,List.append_assoc,← contents_append,List.singleton_append]
    next done =>
      cases ended
      refine ⟨[],by simp [contents],?_⟩
      intro rest seen
      rw [requestLoop,if_neg done]
      simp [contents]

end Answers

section Replays
variable {request : Client σ} (S : σ → MarketMessage → Prop) (bound : Nat)
  (grows : ∀ message c first finish answer c', request c first finish = (answer,c') → S c message → S c' message)
  (returns : ∀ c first finish answer c', request c first finish = (some answer,c') → finish.toNat < bound →
    ∀ entry ∈ answer.messages, S c' entry.1)
include grows returns

/-- A call next to the service is a call with its answers prepared. -/
theorem accept_prepared {fuel : Nat} {m m' : SequenceManager cap} {c c' : σ} {f : FeedMessage}
    (below : f.sequence < bound)
    (returned : accept (some request) fuel m c f = some (m',c')) :
    ∃ answers, (∀ message ∈ contents answers, S c' message) ∧
      ∀ rest seen, accept (some (logged prepared)) fuel m (answers ++ rest,seen) f =
        some (m',(rest,seen ++ contents answers)) := by
  have quiet (same : ∀ rest seen, accept (some (logged prepared)) fuel m (rest,seen) f = some (m',(rest,seen))) :
      ∃ answers, (∀ message ∈ contents answers, S c' message) ∧ ∀ rest seen,
        accept (some (logged prepared)) fuel m (answers ++ rest,seen) f =
          some (m',(rest,seen ++ contents answers)) :=
    ⟨[],by simp [contents],by simpa [contents] using same⟩
  unfold accept at returned
  dsimp only at returned
  split at returned
  next old =>
    cases returned
    refine quiet ?_
    intro rest seen
    rw [accept]
    dsimp only
    rw [if_pos old]
  next current =>
    split at returned
    next far =>
      cases returned
      refine quiet ?_
      intro rest seen
      rw [accept]
      dsimp only
      rw [if_neg current,if_pos far]
    next near =>
      split at returned
      next missing =>
        obtain ⟨⟨r,c₁⟩,requested,same⟩ := Option.map_eq_some_iff.mp returned
        cases same
        have ahead := ((gap_iff (m.begin f) f).mp missing).1
        have last := previous_toNat (f := f) (by omega)
        obtain ⟨answers,genuine,replays⟩ := requestLoop_prepared S grows
          (fun c first finish answer c' asked upto =>
            returns c first finish answer c' asked (by rw [UInt64.le_iff_toNat_le] at upto; omega)) fuel _ requested
        refine ⟨answers,genuine,?_⟩
        intro rest seen
        rw [accept]
        dsimp only
        rw [if_neg current,if_neg near,if_pos missing,recoverRange,requestMissing]
        dsimp only
        rw [replays]
        rfl
      next =>
        cases returned
        refine quiet ?_
        intro rest seen
        rw [accept]
        dsimp only
        rw [if_neg current,if_neg near,if_neg ‹_›]

end Replays

/-- The state is that of a run with prepared answers; `K` holds of what they contained. -/
def Replayed (K : MarketMessage → Prop) (log : Log cap) (m : SequenceManager cap) : Prop :=
  ∃ answers, (∀ message ∈ contents answers, K message) ∧
    ∀ rest, Reach (some (logged prepared)) (answers ++ rest,[]) log m (rest,contents answers)

namespace Replayed
variable {K L : MarketMessage → Prop} {log : Log cap} {m m' : SequenceManager cap}

theorem create (K : MarketMessage → Prop) (cap : Capacity) : Replayed K {} (SequenceManager.create cap) :=
  ⟨[],by simp [contents],fun _ => .new⟩

theorem mono (replayed : Replayed K log m) (imply : ∀ message, K message → L message) : Replayed L log m := by
  obtain ⟨answers,genuine,reached⟩ := replayed
  exact ⟨answers,fun message member => imply message (genuine message member),reached⟩

theorem deliver (replayed : Replayed K log m) {out : FeedMessage} (handed : m.nextDeliverable = (some out,m')) :
    Replayed K (log.deliver m' out) m' := by
  obtain ⟨answers,genuine,reached⟩ := replayed
  exact ⟨answers,genuine,fun rest => .deliver out (reached rest) handed⟩

theorem idle (replayed : Replayed K log m) (nothing : m.nextDeliverable = (none,m')) : Replayed K log m' := by
  obtain ⟨answers,genuine,reached⟩ := replayed
  exact ⟨answers,genuine,fun rest => .idle (reached rest) nothing⟩

section Calls
variable {request : Client σ} {S : σ → MarketMessage → Prop} {bound : Nat}
  (grows : ∀ message c first finish answer c', request c first finish = (answer,c') → S c message → S c' message)
  (returns : ∀ c first finish answer c', request c first finish = (some answer,c') → finish.toNat < bound →
    ∀ entry ∈ answer.messages, S c' entry.1)
include grows returns

theorem accept {fuel : Nat} {c c' : σ} {f : FeedMessage} (replayed : Replayed (S c) log m)
    (below : f.sequence < bound)
    (returned : SequenceManager.accept (some request) fuel m c f = some (m',c')) :
    Replayed (S c') (log.accept m f) m' := by
  obtain ⟨answers,genuine,reached⟩ := replayed
  obtain ⟨more,newer,replays⟩ := accept_prepared S bound grows returns below returned
  refine ⟨answers ++ more,?_,?_⟩
  · intro message member
    rw [contents_append,List.mem_append] at member
    rcases member with earlier | later
    · exact accept_keeps (fun c => S c message) (grows message) returned (genuine message earlier)
    · exact newer message later
  · intro rest
    rw [List.append_assoc,contents_append]
    exact .accept fuel f (reached (more ++ rest)) (replays rest (contents answers))

theorem acceptAll {fuel : Nat} (messages : List FeedMessage) {c c' : σ} {calls : List (Call cap)}
    (replayed : Replayed (S c) log m) (below : ∀ f ∈ messages, f.sequence < bound)
    (done : SequenceManager.acceptAll (some request) fuel messages m c = some (calls,m',c')) :
    Replayed (S c') {log with accepted := log.accepted ++ calls} m' := by
  induction messages generalizing log m c calls with
  | nil =>
    cases done
    rw [List.append_nil]
    exact replayed
  | cons f rest ih =>
    obtain ⟨m₁,c₁,later,returned,fed,rfl⟩ := acceptAll_cons done
    have first := replayed.accept grows returns (below f (by simp)) returned
    have whole := ih first (fun one member => below one (by simp [member])) fed
    rw [Log.accept,List.append_assoc,List.singleton_append] at whole
    exact whole

end Calls
end Replayed

theorem Accepted.counts {client : Option (Client σ)} {b m' : SequenceManager cap} {c c' : σ} {f : FeedMessage}
    (call : Accepted client b c f m' c') :
    m'.stats.delivered = b.stats.delivered ∧ b.stats.unrecoverable ≤ m'.stats.unrecoverable := by
  cases call with
  | stale old => exact ⟨rfl,Nat.le_refl _⟩
  | jump far =>
    rw [resynchronize_stats (by omega)]
    exact ⟨rfl,Nat.le_add_right _ _⟩
  | plain inside quiet =>
    obtain ⟨extra,stats⟩ := store_stats b f
    rw [stats]
    exact ⟨rfl,Nat.le_refl _⟩
  | recovery inside ahead vacant fuel r c' requested =>
    have closed := Accepted.closed inside ahead requested
    rw [closed.unrecoverable]
    exact ⟨closed.delivered,Nat.le_add_right _ _⟩

namespace Replayed
variable {K : MarketMessage → Prop} {log : Log cap} {m : SequenceManager cap} (replayed : Replayed K log m)
  (room : ∀ call ∈ log.accepted, call.incoming.sequence+cap.size < 2^64)
include replayed room

theorem genuine {d : UInt64 × FeedMessage} (member : d ∈ log.delivered) :
    (∃ call ∈ log.accepted, call.incoming.message = d.2.message) ∨ K d.2.message := by
  obtain ⟨answers,genuine,reached⟩ := replayed
  have sofar := reach_deliveries (S := fun (c : List (Option Answer) × List MarketMessage) message => message ∈ c.2)
    (by
      intro request wrapped c start finish answer c' asked message known
      cases wrapped
      exact logged_grows _ c start finish answer c' asked message known)
    (by
      intro request wrapped c start finish answer c' asked entry known
      cases wrapped
      exact logged_returns _ c start finish answer c' asked entry known)
    (reached []) room
  rcases sofar.genuine d member with accepted | answered
  · exact .inl accepted
  · exact .inr (genuine _ answered)

end Replayed
end Llte.SequenceManager
