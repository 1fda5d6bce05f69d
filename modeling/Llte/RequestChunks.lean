import Llte.SequencerRecovery

/-! The ranges that one call of `recover_range` asks its client for. The start of a
chunk and its end are both advanced by wrapping 64-bit additions, while the bound
they are compared with may lie within one chunk of `2^64`. -/
namespace Llte.SequenceManager
open Foundation

variable {cap : Capacity} {σ : Type}

/-- A client that also writes down the pairs it is asked for. -/
def watched (request : Client σ) : Client (σ × List (UInt64 × UInt64)) :=
  fun (c,asked) first last =>
    match request c first last with
    | (answer,c) => (answer,(c,asked ++ [(first,last)]))

/-- Every request for a range succeeds. A pair that ends before it starts is no range:
the client of the handler refuses it, another one may do as it likes. -/
def Obliging (request : Client σ) : Prop :=
  ∀ c first last, first ≤ last → ∃ answer c', request c first last = (some answer,c')

/-- The pairs cover the numbers from `first` up to, but without, `stop`. -/
structure Chunked (first stop : Nat) (asked : List (UInt64 × UInt64)) : Prop where
  ordered : ∀ chunk ∈ asked, chunk.1 ≤ chunk.2
  narrow : ∀ chunk ∈ asked, chunk.2.toNat+1 - chunk.1.toNat ≤ kMaxRecoveryBatch.toNat
  consecutive : asked.IsChain fun chunk next => next.1.toNat = chunk.2.toNat+1
  apart : asked.Pairwise fun chunk later => chunk.2 < later.1
  union : ∀ q : Nat, (∃ chunk ∈ asked, chunk.1.toNat ≤ q ∧ q ≤ chunk.2.toNat) ↔ first ≤ q ∧ q < stop

/-- Where the last chunk of the range from `first` to `last` starts. -/
def lastStart (first last : Nat) : Nat := first + (last - first)/kMaxRecoveryBatch.toNat*kMaxRecoveryBatch.toNat

private theorem requestLoop_watched (request : Client σ) (last : UInt64) (fuel : Nat) (start : UInt64)
    (m : SequenceManager cap) (c : σ) (asked : List (UInt64 × UInt64)) :
    (requestLoop (watched request) last fuel start m (c,asked)).map (Prod.map id Prod.fst) =
      requestLoop request last fuel start m c := by
  induction fuel generalizing start m c asked with
  | zero => rfl
  | succ fuel ih =>
    rw [requestLoop,requestLoop]
    split
    next more =>
      dsimp only [watched]
      generalize request c start (min last (start + kMaxRecoveryBatch - 1)) = reply
      obtain ⟨answer,c₁⟩ := reply
      cases answer with
      | none => rfl
      | some answer => exact ih _ _ _ _
    next done => rfl

/-- Writing down what is asked changes nothing. -/
theorem accept_watched (request : Client σ) (fuel : Nat) (m : SequenceManager cap) (c : σ)
    (asked : List (UInt64 × UInt64)) (f : FeedMessage) :
    (accept (some (watched request)) fuel m (c,asked) f).map (Prod.map id Prod.fst) =
      accept (some request) fuel m c f := by
  unfold accept
  dsimp only
  split
  next => rfl
  next =>
    split
    next => rfl
    next =>
      split
      next =>
        unfold recoverRange requestMissing
        dsimp only
        rw [← requestLoop_watched request _ fuel _ _ c asked,Option.map_map,Option.map_map]
        rfl
      next => rfl

/-- The chunks cover the numbers up to `stop`, one behind the other. -/
def Tiles (stop : Nat) : Nat → List (UInt64 × UInt64) → Prop
  | first,[] => first = stop
  | first,chunk::rest => chunk.1.toNat = first ∧ first ≤ chunk.2.toNat ∧ chunk.2.toNat < first+1024 ∧
      Tiles stop (chunk.2.toNat+1) rest

namespace Tiles
variable {first stop : Nat} {asked : List (UInt64 × UInt64)}

private theorem first_le (tiles : Tiles stop first asked) : first ≤ stop := by
  induction asked generalizing first with
  | nil => exact Nat.le_of_eq tiles
  | cons chunk rest ih =>
    obtain ⟨_,low,_,later⟩ := tiles
    have beyond := ih later
    omega

/-- All of a tiling lies where it says. -/
theorem bounds (tiles : Tiles stop first asked) {chunk : UInt64 × UInt64} (member : chunk ∈ asked) :
    first ≤ chunk.1.toNat ∧ chunk.1.toNat ≤ chunk.2.toNat ∧ chunk.2.toNat < chunk.1.toNat+1024 ∧
      chunk.2.toNat < stop := by
  induction asked generalizing first with
  | nil => simp at member
  | cons head rest ih =>
    obtain ⟨start,low,high,later⟩ := tiles
    rcases List.mem_cons.mp member with rfl | member
    · have beyond := later.first_le
      omega
    · have inside := ih later member
      omega

theorem consecutive (tiles : Tiles stop first asked) :
    asked.IsChain fun chunk next => next.1.toNat = chunk.2.toNat+1 := by
  induction asked generalizing first with
  | nil => exact .nil
  | cons chunk rest ih =>
    obtain ⟨_,_,_,later⟩ := tiles
    cases rest with
    | nil => exact .singleton _
    | cons next rest => exact .cons_cons later.1 (ih later)

theorem apart (tiles : Tiles stop first asked) : asked.Pairwise fun chunk later => chunk.2 < later.1 := by
  induction asked generalizing first with
  | nil => exact .nil
  | cons chunk rest ih =>
    obtain ⟨_,_,_,later⟩ := tiles
    refine .cons ?_ (ih later)
    intro next member
    have inside := later.bounds member
    rw [UInt64.lt_iff_toNat_lt]
    omega

private theorem union (tiles : Tiles stop first asked) (q : Nat) :
    (∃ chunk ∈ asked, chunk.1.toNat ≤ q ∧ q ≤ chunk.2.toNat) ↔ first ≤ q ∧ q < stop := by
  induction asked generalizing first with
  | nil =>
    have none : first = stop := tiles
    simp only [List.not_mem_nil,false_and,exists_false,false_iff]
    omega
  | cons chunk rest ih =>
    obtain ⟨start,low,high,later⟩ := tiles
    have beyond := later.first_le
    simp only [List.mem_cons,exists_eq_or_imp,ih later]
    omega

private theorem chunked (tiles : Tiles stop first asked) : Chunked first stop asked := by
  refine ⟨?_,?_,tiles.consecutive,tiles.apart,tiles.union⟩
  · intro chunk member
    exact UInt64.le_iff_toNat_le.mpr (tiles.bounds member).2.1
  · intro chunk member
    have inside := tiles.bounds member
    change _ ≤ 1024
    omega

end Tiles

def chunkEnd (last start : UInt64) : UInt64 := min last (start + kMaxRecoveryBatch - 1)

private theorem chunkEnd_toNat (last start : UInt64) :
    (chunkEnd last start).toNat = min last.toNat ((start.toNat+1023) % 2^64) := batchEnd_toNat last start

section Rounds
variable {request : Client σ} {last start : UInt64} {fuel : Nat} {m r : SequenceManager cap} {c c' : σ}
  {asked all : List (UInt64 × UInt64)}

private theorem round_succeeds (obliging : Obliging request) (more : start ≤ last) (ordered : start ≤ chunkEnd last start)
    (fuel : Nat) (m : SequenceManager cap) (c : σ) (asked : List (UInt64 × UInt64)) :
    ∃ m' c', requestLoop (watched request) last (fuel+1) start m (c,asked) =
      requestLoop (watched request) last fuel (start + kMaxRecoveryBatch) m'
        (c',asked ++ [(start,chunkEnd last start)]) := by
  obtain ⟨answer,c',replied⟩ := obliging c _ _ ordered
  refine ⟨answer.messages.foldl (recoverMessage answer.arrived)
    {m with stats.recoveryRequests := m.stats.recoveryRequests+1},c',?_⟩
  rw [requestLoop,if_pos more]
  unfold chunkEnd at replied ⊢
  simp only [watched,replied]

/-- A round that was reached has asked; only a pair that is no range may have been refused. -/
theorem round_asks (obliging : Obliging request) (more : start ≤ last)
    (ended : requestLoop (watched request) last (fuel+1) start m (c,asked) = some (r,(c',all))) :
    (chunkEnd last start < start ∧ all = asked ++ [(start,chunkEnd last start)]) ∨
      ∃ m₁ c₁, requestLoop (watched request) last fuel (start + kMaxRecoveryBatch) m₁
        (c₁,asked ++ [(start,chunkEnd last start)]) = some (r,(c',all)) := by
  by_cases ordered : start ≤ chunkEnd last start
  · obtain ⟨m₁,c₁,round⟩ := round_succeeds obliging more ordered fuel m c asked
    exact .inr ⟨m₁,c₁,round ▸ ended⟩
  · rw [requestLoop,if_pos more] at ended
    dsimp only [watched] at ended
    generalize replied : request c start (min last (start + kMaxRecoveryBatch - 1)) = reply at ended
    obtain ⟨answer,c₁⟩ := reply
    cases answer with
    | none =>
      simp only [Option.some.injEq,Prod.mk.injEq] at ended
      exact .inl ⟨UInt64.not_le.mp ordered,ended.2.2.symm⟩
    | some answer => exact .inr ⟨_,c₁,ended⟩

private theorem asked_grows (obliging : Obliging request)
    (ended : requestLoop (watched request) last fuel start m (c,asked) = some (r,(c',all))) :
    ∃ chunks, all = asked ++ chunks := by
  induction fuel generalizing start m c asked with
  | zero => simp [requestLoop] at ended
  | succ fuel ih =>
    by_cases more : start ≤ last
    · rcases round_asks obliging more ended with ⟨_,whole⟩ | ⟨m₁,c₁,later⟩
      · exact ⟨_,whole⟩
      · obtain ⟨chunks,whole⟩ := ih later
        exact ⟨_,by rw [whole,List.append_assoc]⟩
    · rw [requestLoop,if_neg more] at ended
      simp only [Option.some.injEq,Prod.mk.injEq] at ended
      exact ⟨[],by rw [List.append_nil,ended.2.2]⟩

private theorem round_member (obliging : Obliging request) (more : start ≤ last)
    (ended : requestLoop (watched request) last fuel start m (c,asked) = some (r,(c',all))) :
    ∃ chunks, all = asked ++ (start,chunkEnd last start)::chunks := by
  cases fuel with
  | zero => simp [requestLoop] at ended
  | succ fuel =>
    rcases round_asks obliging more ended with ⟨_,whole⟩ | ⟨m₁,c₁,later⟩
    · exact ⟨[],whole⟩
    · obtain ⟨chunks,whole⟩ := asked_grows obliging later
      exact ⟨chunks,by rw [whole,List.append_assoc]; rfl⟩

end Rounds

/-- A pair starts at the bottom of the number range, or some number of the gap is in no
pair. -/
def Strays (start last : UInt64) (chunks : List (UInt64 × UInt64)) : Prop :=
  (∃ chunk ∈ chunks, chunk.1 ≤ chunk.2 ∧ chunk.1.toNat < 1024) ∨
    ∃ q, start.toNat ≤ q ∧ q ≤ last.toNat ∧ ∀ chunk ∈ chunks, ¬ (chunk.1.toNat ≤ q ∧ q ≤ chunk.2.toNat)

theorem Strays.cons {start next last : UInt64} {chunk : UInt64 × UInt64} {chunks : List (UInt64 × UInt64)}
    (strays : Strays next last chunks) (later : start ≤ next) (before : chunk.2 < next) :
    Strays start last (chunk::chunks) := by
  rw [UInt64.le_iff_toNat_le] at later
  rw [UInt64.lt_iff_toNat_lt] at before
  rcases strays with ⟨low,member,below⟩ | ⟨q,above,inside,missed⟩
  · exact .inl ⟨low,List.mem_cons_of_mem _ member,below⟩
  · refine .inr ⟨q,by omega,inside,?_⟩
    intro one member
    rcases List.mem_cons.mp member with rfl | member
    · omega
    · exact missed one member

section Loop
variable {request : Client σ} (obliging : Obliging request) {last : UInt64}
include obliging

/-- As long as the counter stays below `2^64` the loop tiles the range and ends. -/
theorem requestLoop_tiles (rounds : Nat) (start : UInt64) (m : SequenceManager cap) (c : σ)
    (asked : List (UInt64 × UInt64)) (more : start ≤ last) (count : (last.toNat - start.toNat)/1024 = rounds)
    (room : start.toNat + rounds*1024 + 1024 < 2^64) :
    ∃ m' c' chunks, requestLoop (watched request) last (rounds+2) start m (c,asked) =
      some (m',(c',asked ++ chunks)) ∧ Tiles (last.toNat+1) start.toNat chunks := by
  induction rounds generalizing start m c asked with
  | zero =>
    have low := UInt64.le_iff_toNat_le.mp more
    have finish := chunkEnd_toNat last start
    have next := nextBatch_toNat start
    rw [Nat.mod_eq_of_lt (by omega)] at finish next
    have ordered : start ≤ chunkEnd last start := UInt64.le_iff_toNat_le.mpr (by omega)
    obtain ⟨m₁,c₁,round⟩ := round_succeeds obliging more ordered 1 m c asked
    have past : ¬ start + kMaxRecoveryBatch ≤ last := by
      rw [UInt64.le_iff_toNat_le]
      omega
    refine ⟨m₁,c₁,[(start,chunkEnd last start)],?_,rfl,?_,?_,?_⟩
    · rw [round,requestLoop,if_neg past]
    · dsimp only
      omega
    · dsimp only
      omega
    · change (chunkEnd last start).toNat+1 = last.toNat+1
      omega
  | succ rounds ih =>
    have low := UInt64.le_iff_toNat_le.mp more
    have finish := chunkEnd_toNat last start
    have next := nextBatch_toNat start
    rw [Nat.mod_eq_of_lt (by omega)] at finish next
    have ordered : start ≤ chunkEnd last start := UInt64.le_iff_toNat_le.mpr (by omega)
    obtain ⟨m₁,c₁,round⟩ := round_succeeds obliging more ordered (rounds+2) m c asked
    have again : start + kMaxRecoveryBatch ≤ last := UInt64.le_iff_toNat_le.mpr (by omega)
    obtain ⟨m',c',chunks,ended,tiles⟩ := ih (start + kMaxRecoveryBatch) m₁ c₁
      (asked ++ [(start,chunkEnd last start)]) again (by omega) (by omega)
    refine ⟨m',c',(start,chunkEnd last start)::chunks,?_,rfl,?_,?_,?_⟩
    · rw [round,ended,List.append_assoc]
      rfl
    · dsimp only
      omega
    · dsimp only
      omega
    · have follows : (chunkEnd last start).toNat+1 = (start + kMaxRecoveryBatch).toNat := by omega
      dsimp only
      rw [follows]
      exact tiles

/-- The round in which the counter wraps. -/
theorem lastRound_strays (fuel : Nat) (start : UInt64) {m r : SequenceManager cap} {c c' : σ}
    {asked all : List (UInt64 × UInt64)} (more : start ≤ last) (wraps : 2^64 ≤ start.toNat + 1024)
    (ended : requestLoop (watched request) last fuel start m (c,asked) = some (r,(c',all))) :
    ∃ chunks, all = asked ++ chunks ∧ Strays start last chunks := by
  have low := UInt64.le_iff_toNat_le.mp more
  have high := UInt64.toNat_lt last
  cases fuel with
  | zero => simp [requestLoop] at ended
  | succ fuel =>
    rcases round_asks obliging more ended with ⟨reversed,whole⟩ | ⟨m₁,c₁,later⟩
    · -- the pair is refused, and its start is in no pair at all
      refine ⟨_,whole,.inr ⟨start.toNat,Nat.le_refl _,low,?_⟩⟩
      intro chunk member
      rw [List.mem_singleton.mp member]
      have short := UInt64.lt_iff_toNat_lt.mp reversed
      dsimp only
      omega
    · -- the loop goes on from the bottom of the number range
      have next := nextBatch_toNat start
      have again : start + kMaxRecoveryBatch ≤ last := UInt64.le_iff_toNat_le.mpr (by omega)
      obtain ⟨chunks,whole⟩ := round_member obliging again later
      have finish := chunkEnd_toNat last (start + kMaxRecoveryBatch)
      rw [List.append_assoc] at whole
      refine ⟨_,whole,.inl ⟨_,List.mem_append_right _ List.mem_cons_self,?_,?_⟩⟩
      · rw [UInt64.le_iff_toNat_le]
        dsimp only
        omega
      · dsimp only
        omega

private theorem requestLoop_strays (rounds fuel : Nat) (start : UInt64) {m r : SequenceManager cap} {c c' : σ}
    {asked all : List (UInt64 × UInt64)} (more : start ≤ last)
    (count : (last.toNat - start.toNat)/1024 = rounds) (wraps : 2^64 ≤ start.toNat + rounds*1024 + 1024)
    (ended : requestLoop (watched request) last fuel start m (c,asked) = some (r,(c',all))) :
    ∃ chunks, all = asked ++ chunks ∧ Strays start last chunks := by
  induction rounds generalizing start m c asked fuel with
  | zero => exact lastRound_strays obliging fuel start more (by omega) ended
  | succ rounds ih =>
    have low := UInt64.le_iff_toNat_le.mp more
    have high := UInt64.toNat_lt last
    have finish := chunkEnd_toNat last start
    have next := nextBatch_toNat start
    rw [Nat.mod_eq_of_lt (by omega)] at finish next
    have again : start + kMaxRecoveryBatch ≤ last := UInt64.le_iff_toNat_le.mpr (by omega)
    cases fuel with
    | zero => simp [requestLoop] at ended
    | succ fuel =>
      rcases round_asks obliging more ended with ⟨reversed,_⟩ | ⟨m₁,c₁,later⟩
      · have short := UInt64.lt_iff_toNat_lt.mp reversed
        omega
      · obtain ⟨chunks,whole,strays⟩ := ih fuel _ again (by omega) (by omega) later
        refine ⟨(start,chunkEnd last start)::chunks,by rw [whole,List.append_assoc]; rfl,strays.cons ?_ ?_⟩
        · rw [UInt64.le_iff_toNat_le]
          omega
        · rw [UInt64.lt_iff_toNat_lt]
          dsimp only
          omega

end Loop

section Accepted
variable {m : SequenceManager cap} {f : FeedMessage} (recovering : m.Recovering f) {request : Client σ}
  (obliging : Obliging request) (c : σ)
include recovering

private theorem recovering_range : (m.begin f).expected ≤ f.message.sequenceNumber - 1 ∧
    (f.message.sequenceNumber - 1).toNat+1 = f.sequence ∧ f.sequence < (m.begin f).base+2^63 := by
  obtain ⟨inside,ahead,_⟩ := recovering_cases recovering
  have bounds := (mem_window _ _).mp inside
  have size := cap.bound
  have previous := previous_toNat (f := f) (by omega)
  refine ⟨UInt64.le_iff_toNat_le.mpr ?_,by omega,by omega⟩
  change (m.begin f).base ≤ _
  omega

private theorem accept_asks (client : Client σ) (fuel : Nat) :
    accept (some client) fuel m c f = (requestLoop client (f.message.sequenceNumber - 1) fuel
      (m.begin f).expected (((m.begin f).store f).noteGap (m.begin f).expected (f.message.sequenceNumber - 1)) c).map
        fun (m',c) => (m'.skipLoop (m.begin f).expected.toNat
          ((f.message.sequenceNumber - 1).toNat+1 - (m.begin f).expected.toNat),c) :=
  accept_recovering recovering (some client) fuel c

include obliging

private theorem accept_covers
    (room : lastStart (m.begin f).base (f.sequence-1) + kMaxRecoveryBatch.toNat < 2^64) :
    ∃ fuel r c' asked, accept (some (watched request)) fuel m (c,[]) f = some (r,(c',asked)) ∧
      Chunked (m.begin f).base f.sequence asked := by
  obtain ⟨more,stop,_⟩ := recovering_range recovering
  have last : f.sequence-1 = (f.message.sequenceNumber - 1).toNat := by omega
  rw [last] at room
  obtain ⟨r,c',asked,ended,tiles⟩ := requestLoop_tiles obliging _ (m.begin f).expected
    (((m.begin f).store f).noteGap (m.begin f).expected (f.message.sequenceNumber - 1)) c [] more rfl room
  have accepted := accept_asks recovering (c,[]) (watched request)
    (((f.message.sequenceNumber - 1).toNat - (m.begin f).expected.toNat)/1024 + 2)
  rw [ended] at accepted
  rw [stop] at tiles
  exact ⟨_,_,c',asked,accepted,tiles.chunked⟩

private theorem accept_strays
    (wraps : 2^64 ≤ lastStart (m.begin f).base (f.sequence-1) + kMaxRecoveryBatch.toNat) {fuel : Nat}
    {r : SequenceManager cap} {c' : σ} {asked : List (UInt64 × UInt64)}
    (accepted : accept (some (watched request)) fuel m (c,[]) f = some (r,(c',asked))) :
    ¬ Chunked (m.begin f).base f.sequence asked := by
  obtain ⟨more,stop,near⟩ := recovering_range recovering
  have last : f.sequence-1 = (f.message.sequenceNumber - 1).toNat := by omega
  rw [last] at wraps
  rw [accept_asks recovering] at accepted
  obtain ⟨⟨r₁,c₁,all⟩,ended,same⟩ := Option.map_eq_some_iff.mp accepted
  simp only [Prod.mk.injEq] at same
  obtain ⟨_,rfl,rfl⟩ := same
  obtain ⟨chunks,whole,strays⟩ := requestLoop_strays obliging _ fuel _ more rfl wraps ended
  rw [List.nil_append] at whole
  subst whole
  intro chunked
  rcases strays with ⟨chunk,member,ordered,below⟩ | ⟨q,above,inside,missed⟩
  · have covered := (chunked.union chunk.1.toNat).mp
      ⟨chunk,member,Nat.le_refl _,UInt64.le_iff_toNat_le.mp ordered⟩
    -- the range itself starts above the first chunk's width
    have high : 1024 ≤ (m.begin f).base := by
      simp only [lastStart,kMaxRecoveryBatch,UInt64.reduceToNat] at wraps
      omega
    omega
  · obtain ⟨chunk,member,covers⟩ := (chunked.union q).mpr ⟨above,by omega⟩
    exact missed chunk member covers

end Accepted

/-- Whatever the state, when `accept` calls `recover_range` over a client that serves every
range: the loop ends with the gap covered chunk by chunk exactly when the counter does
not have to pass `2^64` to leave the last chunk. -/
theorem recovery_chunks_iff (m : SequenceManager cap) (f : FeedMessage) (recovering : m.Recovering f)
    (request : Client σ) (obliging : Obliging request) (c : σ) :
    (∃ fuel r c' asked, accept (some (watched request)) fuel m (c,[]) f = some (r,(c',asked)) ∧
      Chunked (m.begin f).base f.sequence asked) ↔
    lastStart (m.begin f).base (f.sequence-1) + kMaxRecoveryBatch.toNat < 2^64 := by
  constructor
  · rintro ⟨fuel,r,c',asked,accepted,chunked⟩
    by_contra wraps
    exact accept_strays recovering obliging c (Nat.le_of_not_lt wraps) accepted chunked
  · exact accept_covers recovering obliging c

private theorem shortServer_obliging : Obliging shortServer := by
  intro c first last ordered
  exact ⟨_,_,by rw [shortServer,if_pos ordered]⟩

theorem recovery_chunks_short : ∃ m : SequenceManager four, m.Recovering (numbered 4) ∧
    ∃ fuel r c' asked, accept (some (watched shortServer)) fuel m ((),[]) (numbered 4) = some (r,(c',asked)) ∧
      Chunked (m.begin (numbered 4)).base 4 asked := by
  have found : ∃ (log : Log four) (m : SequenceManager four) (c : Unit),
      Reach (none : Option (Client Unit)) () log m c ∧ m.Recovering (numbered 4) ∧
        lastStart (m.begin (numbered 4)).base 3 + kMaxRecoveryBatch.toNat < 2^64 :=
    play_finds [.accept 1 (numbered 1),.deliver] (fun _ m _ => m.Recovering (numbered 4) ∧
      lastStart (m.begin (numbered 4)).base 3 + kMaxRecoveryBatch.toNat < 2^64) (by decide +kernel)
  obtain ⟨_,m,_,_,recovering,room⟩ := found
  exact ⟨m,recovering,(recovery_chunks_iff m (numbered 4) recovering shortServer shortServer_obliging ()).mpr room⟩

/-- When the number `2^64 - 2` is missing the first chunk already ends beyond `2^64`: the
pair is no range, the client refuses it, and the number is never requested. -/
theorem recovery_chunks_wrap : ∃ (log : Log four) (m : SequenceManager four) (c : Unit),
    Reach (some shortServer) () log m c ∧ m.expected = 18446744073709551614 ∧
    m.Recovering (numbered 18446744073709551615) ∧
    (accept (some (watched shortServer)) 1 m ((),[]) (numbered 18446744073709551615)).map (fun r => r.2.2) =
      some [(18446744073709551614,1021)] ∧
    ¬ ∃ fuel r c' asked, accept (some (watched shortServer)) fuel m ((),[])
      (numbered 18446744073709551615) = some (r,(c',asked)) ∧
      Chunked (m.begin (numbered 18446744073709551615)).base 18446744073709551615 asked := by
  have found : ∃ (log : Log four) (m : SequenceManager four) (c : Unit),
      Reach (some shortServer) () log m c ∧ m.expected = 18446744073709551614 ∧
        m.Recovering (numbered 18446744073709551615) ∧
        (accept (some (watched shortServer)) 1 m ((),[]) (numbered 18446744073709551615)).map (fun r => r.2.2) =
          some [(18446744073709551614,1021)] ∧
        2^64 ≤ lastStart (m.begin (numbered 18446744073709551615)).base 18446744073709551614 +
          kMaxRecoveryBatch.toNat :=
    play_finds [.accept 1 (numbered 18446744073709551613),.deliver]
      (fun _ m _ => m.expected = 18446744073709551614 ∧ m.Recovering (numbered 18446744073709551615) ∧
        (accept (some (watched shortServer)) 1 m ((),[]) (numbered 18446744073709551615)).map (fun r => r.2.2) =
          some [(18446744073709551614,1021)] ∧
        2^64 ≤ lastStart (m.begin (numbered 18446744073709551615)).base 18446744073709551614 +
          kMaxRecoveryBatch.toNat) (by decide +kernel)
  obtain ⟨log,m,c,reached,next,recovering,asked,wraps⟩ := found
  refine ⟨log,m,c,reached,next,recovering,asked,?_⟩
  rintro ⟨fuel,r,c',asked,accepted,chunked⟩
  exact accept_strays recovering shortServer_obliging () wraps accepted chunked

end Llte.SequenceManager
