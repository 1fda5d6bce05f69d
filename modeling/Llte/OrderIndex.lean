import Mathlib.Data.Finset.Card
import Mathlib.Data.Finset.Range
import Llte.Foundation.Probing
import Llte.Foundation.Wrapping

/-! The index from order ids to pool slots: an open-addressed table whose size is a
power of two, with linear probing and backward-shift deletion. The hash is a
parameter of the proofs; the book uses `mix`. -/
namespace Llte
open Foundation

structure IndexSlot where
  key : UInt64
  value : UInt32
  deriving DecidableEq, Inhabited

def kEmptyKey : UInt64 := 0

/-- The largest `size_t`, used for "no position" and "no level". -/
def kNoLevel : UInt64 := 0xffffffffffffffff

structure OrderIndex (p : PowerOfTwo) where
  slots : Ring IndexSlot p.capacity
  deriving DecidableEq

/-- The splitmix64 finalizer. -/
def mix (key : UInt64) : UInt64 :=
  let key := key + 0x9e3779b97f4a7c15
  let key := (key ^^^ (key >>> 30)) * 0xbf58476d1ce4e5b9
  let key := (key ^^^ (key >>> 27)) * 0x94d049bb133111eb
  key ^^^ (key >>> 31)

namespace OrderIndex
variable {p : PowerOfTwo} (hash : UInt64 → UInt64)

def create (p : PowerOfTwo) : OrderIndex p := ⟨Ring.replicate p.capacity ⟨kEmptyKey,0⟩⟩

def get (index : OrderIndex p) (position : Nat) : IndexSlot := index.slots.get position

def put (index : OrderIndex p) (position : Nat) (slot : IndexSlot) : OrderIndex p :=
  ⟨index.slots.put position slot⟩

def key (index : OrderIndex p) (position : UInt64) : UInt64 := (index.get position.toNat).key

/-- The probe loop; `none` says it is still running after `fuel` rounds. -/
def findLoop (index : OrderIndex p) (orderId : UInt64) : Nat → UInt64 → Option UInt64
  | 0,_ => none
  | fuel+1,position =>
    if index.key position ≠ kEmptyKey then
      if index.key position = orderId then some position
      else findLoop index orderId fuel ((position+1) &&& p.mask)
    else some kNoLevel

def findIndex (index : OrderIndex p) (orderId : UInt64) : Option UInt64 :=
  findLoop index orderId p.capacity.size (hash orderId &&& p.mask)

def insertLoop (index : OrderIndex p) (orderId : UInt64) (slot : UInt32) :
    Nat → UInt64 → Option (OrderIndex p)
  | 0,_ => none
  | fuel+1,position =>
    if index.key position ≠ kEmptyKey then
      insertLoop index orderId slot fuel ((position+1) &&& p.mask)
    else some (index.put position.toNat ⟨orderId,slot⟩)

def indexInsert (index : OrderIndex p) (orderId : UInt64) (slot : UInt32) : Option (OrderIndex p) :=
  insertLoop index orderId slot p.capacity.size (hash orderId &&& p.mask)

/-- Only the key is cleared; the value stays behind. -/
def clearKey (index : OrderIndex p) (position : UInt64) : OrderIndex p :=
  index.put position.toNat {index.get position.toNat with key := kEmptyKey}

def mustStay (hole probe ideal : UInt64) : Bool :=
  if hole < probe then hole < ideal ∧ ideal ≤ probe else hole < ideal ∨ ideal ≤ probe

/-- The two nested loops in one: a round advances the probe, and an entry that must
not stay moves into the hole and leaves a new one, where probing starts again. -/
def eraseLoop : Nat → OrderIndex p → UInt64 → UInt64 → Option (OrderIndex p)
  | 0,_,_,_ => none
  | fuel+1,index,hole,probe =>
    let probe := (probe+1) &&& p.mask
    if index.key probe = kEmptyKey then some index
    else if mustStay hole probe (hash (index.key probe) &&& p.mask) then eraseLoop fuel index hole probe
    else
      let index := index.put hole.toNat (index.get probe.toNat)
      eraseLoop fuel (index.clearKey probe) probe probe

def indexErase (index : OrderIndex p) (position : UInt64) : Option (OrderIndex p) :=
  eraseLoop hash p.capacity.size (index.clearKey position) position position

/-- The table as a probed table of entries. -/
def cell (index : OrderIndex p) (i : Nat) : Option IndexSlot :=
  if (index.get i).key = kEmptyKey then none else some (index.get i)

def home (p : PowerOfTwo) (key : UInt64) : Nat := (hash key &&& p.mask).toNat

abbrev WellFormed (index : OrderIndex p) : Prop :=
  Probed p.capacity.size IndexSlot.key (home hash p) index.cell

/-- The key and value are stored together somewhere in the table. -/
abbrev Has (index : OrderIndex p) (entry : IndexSlot) : Prop := Entry p.capacity.size index.cell entry

/-- Some cell is empty, so that every probe ends. -/
def Roomy (index : OrderIndex p) : Prop := ∃ i < p.capacity.size, index.cell i = none

section Cells
variable {hash} {index : OrderIndex p}

theorem cell_eq_none (i : Nat) : index.cell i = none ↔ (index.get i).key = kEmptyKey := by
  unfold cell
  split <;> simp_all

theorem cell_eq_some (i : Nat) (entry : IndexSlot) :
    index.cell i = some entry ↔ index.get i = entry ∧ entry.key ≠ kEmptyKey := by
  unfold cell
  split
  next none =>
    simp only [reduceCtorEq,false_iff,not_and,not_not]
    rintro rfl
    exact none
  next some_ =>
    rw [Option.some.injEq]
    constructor
    · rintro rfl
      exact ⟨rfl,some_⟩
    · exact fun both => both.1

/-- A table whose entries have few names has an empty cell. -/
theorem roomy_of_few {Name : Type} (wellFormed : index.WellFormed hash) (name : IndexSlot → Name)
    (names : Finset Name) (named : ∀ entry, index.Has entry → name entry ∈ names)
    (distinct : ∀ first second, index.Has first → index.Has second → name first = name second →
      first.key = second.key)
    (few : names.card < p.capacity.size) : index.Roomy := by
  by_contra full
  have used (i : Nat) (inside : i < p.capacity.size) : index.cell i = some (index.get i) := by
    refine (cell_eq_some _ _).mpr ⟨rfl,?_⟩
    exact fun none => full ⟨i,inside,(cell_eq_none i).mpr none⟩
  have has (i : Nat) (inside : i < p.capacity.size) : index.Has (index.get i) := ⟨i,inside,used i inside⟩
  -- the cells would map injectively into the names
  have bound : (Finset.range p.capacity.size).card ≤ names.card := by
    refine Finset.card_le_card_of_injOn (fun i => name (index.get i)) ?_ ?_
    · intro i inside
      rw [Finset.mem_coe,Finset.mem_range] at inside
      exact named _ (has i inside)
    · intro i first j second same
      rw [Finset.mem_coe,Finset.mem_range] at first second
      exact wellFormed.unique i first j second _ _ (used i first) (used j second)
        (distinct _ _ (has i first) (has j second) same)
  rw [Finset.card_range] at bound
  omega

theorem get_put {position i : Nat} (first : position < p.capacity.size) (second : i < p.capacity.size)
    (entry : IndexSlot) : (index.put position entry).get i = if i = position then entry else index.get i := by
  rw [get,put,Ring.get_put,Nat.mod_eq_of_lt first,Nat.mod_eq_of_lt second]
  simp only [eq_comm]
  rfl

private theorem cell_put {position i : Nat} (first : position < p.capacity.size) (second : i < p.capacity.size)
    (entry : IndexSlot) : (index.put position entry).cell i =
      if i = position then (if entry.key = kEmptyKey then none else some entry) else index.cell i := by
  unfold cell
  rw [get_put first second]
  split <;> rfl

private theorem cell_clearKey {position : UInt64} {i : Nat} (first : position.toNat < p.capacity.size)
    (second : i < p.capacity.size) :
    (index.clearKey position).cell i = if i = position.toNat then none else index.cell i := by
  rw [clearKey,cell_put first second,if_pos rfl]

private theorem home_lt (key : UInt64) : home hash p key < p.capacity.size := by
  rw [home,p.and_mask]
  exact Nat.mod_lt _ p.capacity.pos

private theorem next_toNat (p : PowerOfTwo) (position : UInt64) :
    ((position+1) &&& p.mask).toNat = (position.toNat+1) % p.capacity.size := by
  have divides : p.capacity.size ∣ 2^64 := Nat.pow_dvd_pow 2 (by have := p.bound; omega)
  rw [p.and_mask,UInt64.toNat_add,Nat.mod_mod_of_dvd _ divides]
  rfl

private theorem next_offset (p : PowerOfTwo) {position : UInt64} {start d : Nat}
    (here : position.toNat = (start+d) % p.capacity.size) :
    ((position+1) &&& p.mask).toNat = (start+(d+1)) % p.capacity.size := by
  rw [next_toNat,here,Nat.mod_add_mod,Nat.add_assoc]

theorem position_ne_noLevel {position : UInt64} (inside : position.toNat < p.capacity.size) :
    position ≠ kNoLevel := by
  have bound := p.capacity.bound
  rintro rfl
  simp only [kNoLevel,UInt64.reduceToNat] at inside
  omega

theorem create_cell (i : Nat) : (create p).cell i = none := by
  rw [cell_eq_none,create,get,Ring.get_replicate]

end Cells

section Find
variable {hash} {index : OrderIndex p} {orderId : UInt64}

private theorem findLoop_spec (wellFormed : index.WellFormed hash) {r : Nat}
    (vacant : index.cell ((home hash p orderId+r) % p.capacity.size) = none) (fuel d : Nat)
    (position : UInt64) (here : position.toNat = (home hash p orderId+d) % p.capacity.size)
    (before : d ≤ r) (enough : r < d+fuel)
    (walked : ∀ e < d, ∀ entry, index.cell ((home hash p orderId+e) % p.capacity.size) = some entry →
      entry.key ≠ orderId) :
    ∃ found, index.findLoop orderId fuel position = some found ∧
      ((found = kNoLevel ∧ ∀ entry, index.Has entry → entry.key ≠ orderId) ∨
        (found.toNat < p.capacity.size ∧ ∃ entry, index.cell found.toNat = some entry ∧
          entry.key = orderId)) := by
  induction fuel generalizing d position with
  | zero => omega
  | succ fuel ih =>
    rw [findLoop]
    split
    next used =>
      have entry : index.cell position.toNat = some (index.get position.toNat) :=
        (cell_eq_some _ _).mpr ⟨rfl,used⟩
      split
      next same =>
        refine ⟨position,rfl,.inr ⟨?_,_,entry,same⟩⟩
        rw [here]
        exact Nat.mod_lt _ p.capacity.pos
      next other =>
        have further : d ≠ r := by
          rintro rfl
          rw [← here,entry] at vacant
          simp at vacant
        refine ih (d+1) _ (next_offset p here) (by omega) (by omega) ?_
        intro e less found there
        rcases Nat.lt_or_eq_of_le (Nat.le_of_lt_succ less) with earlier | rfl
        · exact walked e earlier found there
        · rw [← here,entry,Option.some.injEq] at there
          rw [← there]
          exact other
    next free =>
      refine ⟨kNoLevel,rfl,.inl ⟨rfl,?_⟩⟩
      intro entry has
      rw [not_not] at free
      exact wellFormed.absent walked (by rw [← here]; exact (cell_eq_none _).mpr free) has

/-- `find_index` returns, with the cell of the id or with the news that there is none. -/
theorem findIndex_spec (wellFormed : index.WellFormed hash) (roomy : index.Roomy) (orderId : UInt64) :
    ∃ found, index.findIndex hash orderId = some found ∧
      ((found = kNoLevel ∧ ∀ entry, index.Has entry → entry.key ≠ orderId) ∨
        (found.toNat < p.capacity.size ∧ ∃ entry, index.cell found.toNat = some entry ∧
          entry.key = orderId)) := by
  obtain ⟨i,inside,vacant⟩ := roomy
  obtain ⟨r,near,rfl⟩ := exists_offset (home hash p orderId) inside
  refine findLoop_spec wellFormed vacant _ 0 _ ?_ (Nat.zero_le _) (by omega) (fun e less => by omega)
  rw [Nat.add_zero,Nat.mod_eq_of_lt (home_lt orderId)]
  rfl

end Find

section Insert
variable {hash} {index : OrderIndex p} {orderId : UInt64} {slot : UInt32}

private theorem insertLoop_spec (wellFormed : index.WellFormed hash) (proper : orderId ≠ kEmptyKey) {r : Nat}
    (vacant : index.cell ((home hash p orderId+r) % p.capacity.size) = none) (near : r < p.capacity.size)
    (fresh : ∀ entry, index.Has entry → entry.key ≠ orderId) (fuel d : Nat)
    (position : UInt64) (here : position.toNat = (home hash p orderId+d) % p.capacity.size)
    (before : d ≤ r) (enough : r < d+fuel)
    (filled : ∀ e < d, index.cell ((home hash p orderId+e) % p.capacity.size) ≠ none) :
    ∃ index', index.insertLoop orderId slot fuel position = some index' ∧ index'.WellFormed hash ∧
      ∀ entry, index'.Has entry ↔ entry = ⟨orderId,slot⟩ ∨ index.Has entry := by
  induction fuel generalizing d position with
  | zero => omega
  | succ fuel ih =>
    rw [insertLoop]
    split
    next used =>
      have some_ : index.cell position.toNat ≠ none := fun none => used ((cell_eq_none _).mp none)
      have further : d ≠ r := by
        rintro rfl
        exact some_ (by rw [here]; exact vacant)
      refine ih (d+1) _ (next_offset p here) (by omega) (by omega) ?_
      intro e less
      rcases Nat.lt_or_eq_of_le (Nat.le_of_lt_succ less) with earlier | rfl
      · exact filled e earlier
      · rw [← here]
        exact some_
    next free =>
      rw [not_not] at free
      have inside : position.toNat < p.capacity.size := by
        rw [here]
        exact Nat.mod_lt _ p.capacity.pos
      have put (i : Nat) (hi : i < p.capacity.size) : (index.put position.toNat ⟨orderId,slot⟩).cell i =
          if i = position.toNat then some ⟨orderId,slot⟩ else index.cell i := by
        rw [cell_put inside hi,if_neg proper]
      refine ⟨_,rfl,?_,Probed.entry_insert inside ((cell_eq_none _).mpr free) put⟩
      exact Probed.insert (x := ⟨orderId,slot⟩) (d := d) wellFormed (by omega) filled fresh
        (fun i hi => by rw [put i hi,here])

theorem indexInsert_spec (wellFormed : index.WellFormed hash) (roomy : index.Roomy)
    (proper : orderId ≠ kEmptyKey) (fresh : ∀ entry, index.Has entry → entry.key ≠ orderId)
    (slot : UInt32) :
    ∃ index', index.indexInsert hash orderId slot = some index' ∧ index'.WellFormed hash ∧
      ∀ entry, index'.Has entry ↔ entry = ⟨orderId,slot⟩ ∨ index.Has entry := by
  obtain ⟨i,inside,vacant⟩ := roomy
  obtain ⟨r,near,rfl⟩ := exists_offset (home hash p orderId) inside
  refine insertLoop_spec wellFormed proper vacant near fresh _ 0 _ ?_ (Nat.zero_le _) (by omega)
    (fun e less => by omega)
  rw [Nat.add_zero,Nat.mod_eq_of_lt (home_lt orderId)]
  rfl

end Insert

section Erase
variable {hash}

private theorem mustStay_iff (hole probe ideal : UInt64) : mustStay hole probe ideal = true ↔
    if hole.toNat < probe.toNat then hole.toNat < ideal.toNat ∧ ideal.toNat ≤ probe.toNat
    else hole.toNat < ideal.toNat ∨ ideal.toNat ≤ probe.toNat := by
  unfold mustStay
  simp only [UInt64.lt_iff_toNat_lt,UInt64.le_iff_toNat_le]
  split <;> simp

private theorem eraseLoop_spec (fuel : Nat) (index : OrderIndex p) (hole probe : UInt64) (scanned r : Nat)
    (holed : Holed p.capacity.size IndexSlot.key (home hash p) index.cell hole.toNat scanned)
    (here : probe.toNat = (hole.toNat+scanned) % p.capacity.size) (ahead : scanned < r)
    (near : r < p.capacity.size) (vacant : index.cell ((hole.toNat+r) % p.capacity.size) = none)
    (enough : r ≤ scanned+fuel) :
    ∃ index', eraseLoop hash fuel index hole probe = some index' ∧ index'.WellFormed hash ∧
      ∀ entry, index'.Has entry ↔ index.Has entry := by
  induction fuel generalizing index hole probe scanned r with
  | zero => omega
  | succ fuel ih =>
    rw [eraseLoop]
    have next := next_offset p here
    generalize (probe+1) &&& p.mask = probe' at next
    have inside := holed.inside
    have inside' : probe'.toNat < p.capacity.size := by
      rw [next]
      exact Nat.mod_lt _ p.capacity.pos
    dsimp only
    split
    next free =>
      have ends : index.cell ((hole.toNat+(scanned+1)) % p.capacity.size) = none := by
        rw [← next]
        exact (cell_eq_none _).mpr free
      exact ⟨index,rfl,holed.done ends,fun _ => Iff.rfl⟩
    next used =>
      have found : index.cell ((hole.toNat+(scanned+1)) % p.capacity.size) = some (index.get probe'.toNat) := by
        rw [← next]
        exact (cell_eq_some _ _).mpr ⟨rfl,used⟩
      have further : scanned+1 ≠ r := by
        rintro rfl
        rw [vacant] at found
        simp at found
      obtain ⟨d,close,reach,_⟩ := holed.path _ (by rw [← next]; exact inside') _ found
      have stays := stays_iff inside (home_lt _) (by omega) close reach
      rw [← next] at stays
      split
      next stay =>
        have kept := stays.mp ((mustStay_iff _ _ _).mp stay)
        exact ih index hole probe' (scanned+1) r (holed.stay found reach kept (by omega)) next (by omega)
          near vacant (by omega)
      next leave =>
        have gone : scanned < d := by
          rw [mustStay_iff] at leave
          exact Nat.lt_of_not_le (fun kept => leave (stays.mpr kept))
        have apart : hole.toNat ≠ probe'.toNat := by
          intro same
          rw [← next,← same,holed.vacant] at found
          simp at found
        generalize shifted : ((index.put hole.toNat (index.get probe'.toNat)).clearKey probe') = index₁
        have moved (i : Nat) (hi : i < p.capacity.size) : index₁.cell i =
            if i = (hole.toNat+(scanned+1)) % p.capacity.size then none
            else if i = hole.toNat then some (index.get probe'.toNat) else index.cell i := by
          rw [← shifted,cell_clearKey inside' hi,cell_put inside hi,← next]
          rw [if_neg (show ¬ (index.get probe'.toNat).key = kEmptyKey from used)]
        have holed₁ := holed.move found moved close reach gone
        rw [← next] at holed₁
        have rest : (probe'.toNat+(r-(scanned+1))) % p.capacity.size = (hole.toNat+r) % p.capacity.size := by
          rw [next,Nat.mod_add_mod]
          congr 1
          omega
        obtain ⟨index',ended,wellFormed,same⟩ := ih index₁ probe' probe' 0 (r-(scanned+1)) holed₁
          (by rw [Nat.add_zero,Nat.mod_eq_of_lt inside']) (by omega) (by omega)
          (by rw [rest]; exact holed.vacant_move near (by omega) vacant moved) (by omega)
        exact ⟨index',ended,wellFormed,fun entry => (same entry).trans (holed.entry_move found moved entry)⟩

/-- `index_erase` at the position of an entry returns and removes exactly that entry. -/
theorem indexErase_spec {index : OrderIndex p} (wellFormed : index.WellFormed hash) (roomy : index.Roomy)
    {position : UInt64} (inside : position.toNat < p.capacity.size) {entry : IndexSlot}
    (held : index.cell position.toNat = some entry) :
    ∃ index', index.indexErase hash position = some index' ∧ index'.WellFormed hash ∧
      ∀ other, index'.Has other ↔ index.Has other ∧ other.key ≠ entry.key := by
  obtain ⟨i,hi,vacant⟩ := roomy
  obtain ⟨r,near,rfl⟩ := exists_offset position.toNat hi
  have cleared (i : Nat) (hi : i < p.capacity.size) :
      (index.clearKey position).cell i = if i = position.toNat then none else index.cell i :=
    cell_clearKey inside hi
  have ahead : 0 < r := by
    refine Nat.pos_of_ne_zero ?_
    rintro rfl
    rw [Nat.add_zero,Nat.mod_eq_of_lt inside,held] at vacant
    simp at vacant
  have still : (index.clearKey position).cell ((position.toNat+r) % p.capacity.size) = none := by
    rw [cleared _ hi]
    split
    · rfl
    · exact vacant
  obtain ⟨index',ended,formed,same⟩ := eraseLoop_spec p.capacity.size (index.clearKey position) position
    position 0 r (wellFormed.dig inside cleared) (by rw [Nat.add_zero,Nat.mod_eq_of_lt inside]) ahead near
    still (by omega)
  exact ⟨index',ended,formed,fun other => (same other).trans (wellFormed.entry_dig inside held cleared other)⟩

end Erase
end OrderIndex
end Llte
