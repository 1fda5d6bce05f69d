import Llte.OrderBook

/-! The open-addressed index over whole runs of insertions and erasures, for any hash
at all: it is a finite map. -/
namespace Llte.OrderIndex
open Foundation

variable {p : PowerOfTwo} (hash : UInt64 → UInt64)

inductive Edit where
  | insert (key : UInt64) (value : UInt32)
  | erase (key : UInt64)

/-- An erasure is made at the position that `find_index` returned for the key. -/
def edit (index : OrderIndex p) : Edit → Option (OrderIndex p)
  | .insert key value => index.indexInsert hash key value
  | .erase key =>
    match index.findIndex hash key with
    | none => none
    | some position => index.indexErase hash position

def editAll (index : OrderIndex p) : List Edit → Option (OrderIndex p)
  | [] => some index
  | e::rest =>
    match index.edit hash e with
    | none => none
    | some index => editAll index rest

/-- The keys that were inserted and not erased since, with their values. -/
def held : List IndexSlot → Edit → List IndexSlot
  | entries,.insert key value => entries ++ [⟨key,value⟩]
  | entries,.erase key => entries.filter fun entry => entry.key ≠ key

/-- The key of an insertion is absent and not the one that marks empty cells, and
there is room for it; the key of an erasure is present. -/
def Admissible (maxOrders : Nat) (entries : List IndexSlot) : Edit → Prop
  | .insert key _ => key ≠ kEmptyKey ∧ (∀ entry ∈ entries, entry.key ≠ key) ∧ entries.length < maxOrders
  | .erase key => ∃ entry ∈ entries, entry.key = key

def AllAdmissible (maxOrders : Nat) : List IndexSlot → List Edit → Prop
  | _,[] => True
  | entries,e::rest => Admissible maxOrders entries e ∧ AllAdmissible maxOrders (held entries e) rest

instance (maxOrders : Nat) (entries : List IndexSlot) (e : Edit) :
    Decidable (Admissible maxOrders entries e) := by
  cases e <;> unfold Admissible <;> infer_instance

instance (maxOrders : Nat) (entries : List IndexSlot) : (edits : List Edit) →
    Decidable (AllAdmissible maxOrders entries edits)
  | [] => .isTrue trivial
  | e::rest =>
    have : Decidable (AllAdmissible maxOrders (held entries e) rest) :=
      instDecidableAllAdmissible maxOrders (held entries e) rest
    inferInstanceAs (Decidable (_ ∧ _))

section Runs
variable {hash} {index : OrderIndex p} {entries : List IndexSlot}

/-- The table holds exactly `entries`, and is at most as full as they are many. -/
structure Maps (hash : UInt64 → UInt64) (maxOrders : Nat) (index : OrderIndex p) (entries : List IndexSlot) :
    Prop where
  formed : index.WellFormed hash
  has : ∀ entry, index.Has entry ↔ entry ∈ entries
  few : entries.length ≤ maxOrders

namespace Maps
variable {maxOrders : Nat} (maps : Maps hash maxOrders index entries) (small : maxOrders < p.capacity.size)
include maps

private theorem key_inj {first second : IndexSlot} (one : first ∈ entries) (two : second ∈ entries)
    (same : first.key = second.key) : first = second :=
  maps.formed.entry_inj ((maps.has first).mpr one) ((maps.has second).mpr two) same

include small

theorem roomy : index.Roomy := by
  refine roomy_of_few maps.formed id entries.toFinset ?_ ?_ ?_
  · exact fun entry has => List.mem_toFinset.mpr ((maps.has entry).mp has)
  · exact fun first second _ _ same => congrArg IndexSlot.key same
  · have distinct := List.toFinset_card_le entries
    have few := maps.few
    omega

theorem find (key : UInt64) : ∃ position, index.findIndex hash key = some position ∧
    ((position = kNoLevel ∧ ∀ entry ∈ entries, entry.key ≠ key) ∨
      (position.toNat < p.capacity.size ∧ ∃ value, ⟨key,value⟩ ∈ entries ∧
        index.cell position.toNat = some ⟨key,value⟩)) := by
  obtain ⟨position,found,⟨none,absent⟩ | ⟨inside,⟨key',value⟩,cell,rfl⟩⟩ :=
    findIndex_spec maps.formed (maps.roomy small) key
  · exact ⟨position,found,.inl ⟨none,fun entry member => absent entry ((maps.has entry).mpr member)⟩⟩
  · exact ⟨position,found,.inr ⟨inside,value,(maps.has _).mp ⟨_,inside,cell⟩,cell⟩⟩

/-- One edit returns, and does to the table what it does to the list. -/
theorem edit {e : Edit} (admissible : Admissible maxOrders entries e) :
    ∃ index', index.edit hash e = some index' ∧ Maps hash maxOrders index' (held entries e) := by
  cases e with
  | insert key value =>
    obtain ⟨proper,absent,room⟩ := admissible
    obtain ⟨index',inserted,formed,has⟩ := indexInsert_spec maps.formed (maps.roomy small) proper
      (fun entry present => absent entry ((maps.has entry).mp present)) value
    refine ⟨index',inserted,formed,?_,?_⟩
    · intro entry
      rw [has,maps.has,held,List.mem_append,List.mem_singleton,or_comm]
    · rw [held,List.length_append,List.length_singleton]
      exact room
  | erase key =>
    obtain ⟨present,member,rfl⟩ := admissible
    obtain ⟨position,found,⟨_,absent⟩ | ⟨inside,value,listed,cell⟩⟩ := maps.find small present.key
    · exact absurd rfl (absent present member)
    · obtain ⟨index',erased,formed,has⟩ := indexErase_spec maps.formed (maps.roomy small) inside cell
      refine ⟨index',?_,formed,?_,?_⟩
      · rw [OrderIndex.edit,found]
        exact erased
      · intro entry
        rw [has,maps.has,held,List.mem_filter,decide_eq_true_eq]
      · exact Nat.le_trans (List.length_filter_le _ _) maps.few

private theorem editAll {edits : List Edit} (admissible : AllAdmissible maxOrders entries edits) :
    ∃ index', index.editAll hash edits = some index' ∧ Maps hash maxOrders index' (edits.foldl held entries) := by
  induction edits generalizing index entries with
  | nil => exact ⟨index,rfl,maps⟩
  | cons e rest ih =>
    obtain ⟨index₁,edited,maps₁⟩ := maps.edit small admissible.1
    obtain ⟨index₂,ended,maps₂⟩ := ih maps₁ admissible.2
    refine ⟨index₂,?_,maps₂⟩
    rw [OrderIndex.editAll,edited]
    exact ended

end Maps

private theorem maps_create (hash : UInt64 → UInt64) (maxOrders : Nat) : Maps hash maxOrders (create p) [] := by
  refine ⟨Probed.empty (fun i _ => create_cell i),?_,Nat.zero_le _⟩
  intro entry
  constructor
  · rintro ⟨i,_,found⟩
    rw [create_cell] at found
    simp at found
  · intro member
    simp at member

end Runs

/-- For any hash, every admissible run of edits on a new index returns. Afterwards
`find_index` returns for every key: the position of its entry if the key is held, and
`kNoLevel` if not; every held key has one position; and no cell from its home to that
position is empty. -/
theorem index_finite_map (hash : UInt64 → UInt64) (c : Config) (edits : List Edit)
    (admissible : AllAdmissible c.maxOrders [] edits) :
    ∃ index, editAll hash (create c.indexSize) edits = some index ∧
      (∀ key, ∃ position, index.findIndex hash key = some position ∧
        (∀ value, position ≠ kNoLevel ∧ position.toNat < c.indexSize.capacity.size ∧
          index.get position.toNat = ⟨key,value⟩ ↔ ⟨key,value⟩ ∈ edits.foldl held []) ∧
        (position = kNoLevel ↔ ∀ value, ⟨key,value⟩ ∉ edits.foldl held [])) ∧
      ∀ entry ∈ edits.foldl held [], ∃ position < c.indexSize.capacity.size,
        index.get position = entry ∧
        (∀ other < c.indexSize.capacity.size, (index.get other).key = entry.key → other = position) ∧
        ∃ distance < c.indexSize.capacity.size,
          (home hash c.indexSize entry.key+distance) % c.indexSize.capacity.size = position ∧
          ∀ before ≤ distance, (index.get ((home hash c.indexSize entry.key+before) %
            c.indexSize.capacity.size)).key ≠ kEmptyKey := by
  have positive := c.positive
  have size : c.maxOrders*2 ≤ c.indexSize.capacity.size := le_roundUpPow2 _
  have small : c.maxOrders < c.indexSize.capacity.size := by omega
  obtain ⟨index,ended,maps⟩ := (maps_create hash c.maxOrders).editAll small admissible
  refine ⟨index,ended,?_,?_⟩
  · intro key
    obtain ⟨position,found,⟨none,absent⟩ | ⟨inside,value,listed,cell⟩⟩ := maps.find small key
    · have missing (value : UInt32) : ⟨key,value⟩ ∉ edits.foldl held [] :=
        fun member => absent _ member rfl
      exact ⟨position,found,fun value => iff_of_false (fun both => both.1 none) (missing value),
        iff_of_true none missing⟩
    · have entry := ((cell_eq_some _ _).mp cell).1
      have some_ := position_ne_noLevel inside
      refine ⟨position,found,?_,iff_of_false some_ (fun none => none value listed)⟩
      intro other
      constructor
      · rintro ⟨_,_,same⟩
        rw [← same,entry]
        exact listed
      · intro member
        rw [← maps.key_inj listed member rfl]
        exact ⟨some_,inside,entry⟩
  · intro entry member
    obtain ⟨position,inside,cell⟩ := (maps.has entry).mpr member
    obtain ⟨same,proper⟩ := (cell_eq_some _ _).mp cell
    obtain ⟨distance,near,reach,path⟩ := maps.formed.path position inside entry cell
    refine ⟨position,inside,same,?_,distance,near,reach,?_⟩
    · intro other within key
      have there : index.cell other = some (index.get other) :=
        (cell_eq_some _ _).mpr ⟨rfl,by rw [key]; exact proper⟩
      exact maps.formed.unique other within position inside _ _ there cell key
    · intro before near
      rcases Nat.lt_or_eq_of_le near with less | rfl
      · exact fun none => path before less ((cell_eq_none _).mpr none)
      · rw [reach,same]
        exact proper

/-- Two keys that collide in the last cell, the first one erased. -/
theorem index_finite_map_collision : ∃ index,
    editAll (fun _ => 3) (create (⟨1,3,2,by decide,by decide,by decide⟩ : Config).indexSize)
      [.insert 7 0,.insert 8 1,.erase 7] = some index ∧
      ∃ position, OrderIndex.findIndex (fun _ => 3) index 8 = some position ∧
        index.get position.toNat = ⟨8,1⟩ := by
  obtain ⟨index,ended,finds,_⟩ := index_finite_map (fun _ => 3) ⟨1,3,2,by decide,by decide,by decide⟩
    [.insert 7 0,.insert 8 1,.erase 7] (by decide)
  obtain ⟨position,found,entry,_⟩ := finds 8
  exact ⟨index,ended,position,found,((entry 1).mpr (by decide)).2.2⟩

end Llte.OrderIndex
