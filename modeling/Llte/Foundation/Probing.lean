import Mathlib.Data.Nat.ModEq

/-! Open addressing with linear probing over a circular table of `n` cells. A cell is
empty or holds an entry; an entry with key `k` is looked for from `home k` on. The
table is well formed when no key occurs twice and no empty cell lies between the home
of an entry and its cell. Deletion shifts later entries back into the hole. -/
namespace Llte.Foundation

variable {X K : Type}

private theorem mod_eq_cases {n a : Nat} (small : a < n+n) : a % n = if a < n then a else a - n := by
  split
  next less => exact Nat.mod_eq_of_lt less
  next more =>
    rw [Nat.mod_eq_sub_mod (by omega)]
    exact Nat.mod_eq_of_lt (by omega)

theorem exists_offset {n cell : Nat} (start : Nat) (inside : cell < n) : ∃ d < n, (start+d) % n = cell := by
  have low : start % n < n := Nat.mod_lt _ (by omega)
  refine ⟨(cell+n-start % n) % n,Nat.mod_lt _ (by omega),?_⟩
  rw [← Nat.mod_add_mod,Nat.add_mod_mod,Nat.add_sub_of_le (by omega),Nat.add_mod_right]
  exact Nat.mod_eq_of_lt inside

private theorem offset_inj {n start d e : Nat} (first : d < n) (second : e < n)
    (same : (start+d) % n = (start+e) % n) : d = e := by
  have congruent : d ≡ e [MOD n] := Nat.ModEq.add_left_cancel' start same
  rwa [Nat.ModEq,Nat.mod_eq_of_lt first,Nat.mod_eq_of_lt second] at congruent

def Entry (n : Nat) (t : Nat → Option X) (x : X) : Prop := ∃ i < n, t i = some x

structure Probed (n : Nat) (key : X → K) (home : K → Nat) (t : Nat → Option X) : Prop where
  unique : ∀ i < n, ∀ j < n, ∀ x y, t i = some x → t j = some y → key x = key y → i = j
  path : ∀ i < n, ∀ x, t i = some x → ∃ d < n, (home (key x)+d) % n = i ∧
    ∀ e < d, t ((home (key x)+e) % n) ≠ none

/-- The table in the middle of a deletion: it would be well formed if `hole` were
occupied, and the `scanned` cells after the hole are occupied by entries that do not
need it. -/
structure Holed (n : Nat) (key : X → K) (home : K → Nat) (t : Nat → Option X) (hole scanned : Nat) :
    Prop where
  inside : hole < n
  vacant : t hole = none
  unique : ∀ i < n, ∀ j < n, ∀ x y, t i = some x → t j = some y → key x = key y → i = j
  path : ∀ i < n, ∀ x, t i = some x → ∃ d < n, (home (key x)+d) % n = i ∧
    ∀ e < d, t ((home (key x)+e) % n) ≠ none ∨ (home (key x)+e) % n = hole
  short : scanned < n
  run : ∀ j, 1 ≤ j → j ≤ scanned → ∃ x, t ((hole+j) % n) = some x ∧
    ∃ d < j, (home (key x)+d) % n = (hole+j) % n

variable {n : Nat} {key : X → K} {home : K → Nat} {t t' : Nat → Option X}

namespace Probed

theorem empty (none : ∀ i < n, t i = none) : Probed n key home t := by
  constructor
  · intro i hi j _ x y found
    rw [none i hi] at found
    simp at found
  · intro i hi x found
    rw [none i hi] at found
    simp at found

theorem entry_inj (probed : Probed n key home t) {x y : X} (first : Entry n t x) (second : Entry n t y)
    (same : key x = key y) : x = y := by
  obtain ⟨i,hi,foundI⟩ := first
  obtain ⟨j,hj,foundJ⟩ := second
  obtain rfl := probed.unique i hi j hj x y foundI foundJ same
  rw [foundI] at foundJ
  exact Option.some.inj foundJ

/-- A walk from the home of `k` that meets an empty cell before `k` shows that `k` is
not in the table. -/
theorem absent (probed : Probed n key home t) {k : K} {d : Nat}
    (walked : ∀ e < d, ∀ x, t ((home k+e) % n) = some x → key x ≠ k)
    (ends : t ((home k+d) % n) = none) {x : X} (entry : Entry n t x) : key x ≠ k := by
  rintro rfl
  obtain ⟨i,hi,found⟩ := entry
  obtain ⟨d',_,rfl,filled⟩ := probed.path i hi x found
  rcases Nat.lt_trichotomy d' d with before | rfl | after
  · exact walked d' before x found rfl
  · rw [found] at ends
    simp at ends
  · exact filled d after ends

section Insert
variable {x : X} {d : Nat}

theorem entry_insert {cell : Nat} (inside : cell < n) (vacant : t cell = none)
    (put : ∀ i < n, t' i = if i = cell then some x else t i) (y : X) :
    Entry n t' y ↔ y = x ∨ Entry n t y := by
  constructor
  · rintro ⟨i,hi,found⟩
    rw [put i hi] at found
    split at found
    next => exact .inl (Option.some.inj found).symm
    next => exact .inr ⟨i,hi,found⟩
  · rintro (rfl | ⟨i,hi,found⟩)
    · exact ⟨cell,inside,by rw [put cell inside,if_pos rfl]⟩
    · refine ⟨i,hi,?_⟩
      rw [put i hi,if_neg,found]
      rintro rfl
      rw [vacant] at found
      simp at found

theorem insert (probed : Probed n key home t) (near : d < n)
    (filled : ∀ e < d, t ((home (key x)+e) % n) ≠ none)
    (fresh : ∀ y, Entry n t y → key y ≠ key x)
    (put : ∀ i < n, t' i = if i = (home (key x)+d) % n then some x else t i) :
    Probed n key home t' := by
  have pos : 0 < n := by omega
  have keeps (i : Nat) (hi : i < n) (some_ : t i ≠ none) : t' i ≠ none := by
    rw [put i hi]
    split
    · simp
    · exact some_
  constructor
  · intro i hi j hj y z foundI foundJ same
    rw [put i hi] at foundI
    rw [put j hj] at foundJ
    split at foundI <;> split at foundJ
    next hereI hereJ => rw [hereI,hereJ]
    next =>
      obtain rfl := Option.some.inj foundI
      exact absurd same.symm (fresh z ⟨j,hj,foundJ⟩)
    next =>
      obtain rfl := Option.some.inj foundJ
      exact absurd same (fresh y ⟨i,hi,foundI⟩)
    next => exact probed.unique i hi j hj y z foundI foundJ same
  · intro i hi y found
    rw [put i hi] at found
    split at found
    next here =>
      obtain rfl := Option.some.inj found
      exact ⟨d,near,here.symm,fun e less => keeps _ (Nat.mod_lt _ pos) (filled e less)⟩
    next =>
      obtain ⟨d',near',there,path⟩ := probed.path i hi y found
      exact ⟨d',near',there,fun e less => keeps _ (Nat.mod_lt _ pos) (path e less)⟩

end Insert

theorem dig (probed : Probed n key home t) {hole : Nat} (inside : hole < n)
    (cleared : ∀ i < n, t' i = if i = hole then none else t i) : Holed n key home t' hole 0 := by
  have pos : 0 < n := by omega
  have before (i : Nat) (hi : i < n) (x : X) (found : t' i = some x) : t i = some x := by
    rw [cleared i hi] at found
    split at found
    · simp at found
    · exact found
  refine ⟨inside,by rw [cleared hole inside,if_pos rfl],?_,?_,pos,fun j low high => by omega⟩
  · intro i hi j hj x y foundI foundJ same
    exact probed.unique i hi j hj x y (before i hi x foundI) (before j hj y foundJ) same
  · intro i hi x found
    obtain ⟨d,near,there,path⟩ := probed.path i hi x (before i hi x found)
    refine ⟨d,near,there,?_⟩
    intro e less
    by_cases here : (home (key x)+e) % n = hole
    · exact .inr here
    · rw [cleared _ (Nat.mod_lt _ pos),if_neg here]
      exact .inl (path e less)

theorem entry_dig (probed : Probed n key home t) {hole : Nat} {x : X} (inside : hole < n)
    (held : t hole = some x) (cleared : ∀ i < n, t' i = if i = hole then none else t i) (y : X) :
    Entry n t' y ↔ Entry n t y ∧ key y ≠ key x := by
  constructor
  · rintro ⟨i,hi,found⟩
    rw [cleared i hi] at found
    split at found
    next => simp at found
    next other =>
      refine ⟨⟨i,hi,found⟩,?_⟩
      intro same
      exact other (probed.unique i hi hole inside y x found held same)
  · rintro ⟨⟨i,hi,found⟩,other⟩
    refine ⟨i,hi,?_⟩
    rw [cleared i hi,if_neg,found]
    rintro rfl
    rw [held] at found
    exact other (by rw [Option.some.inj found])

end Probed

namespace Holed
variable {hole scanned : Nat} {x : X}

/-- The next cell is empty: the hole disturbs nobody. -/
theorem done (holed : Holed n key home t hole scanned)
    (ends : t ((hole+(scanned+1)) % n) = none) : Probed n key home t := by
  refine ⟨holed.unique,?_⟩
  intro i hi x found
  obtain ⟨d,near,there,path⟩ := holed.path i hi x found
  refine ⟨d,near,there,?_⟩
  intro e less
  rcases path e less with some_ | here
  · exact some_
  -- the entry lies `j` cells behind the hole
  obtain ⟨j,rfl⟩ : ∃ j, d = e+j := ⟨d-e,by omega⟩
  have behind (m : Nat) : (home (key x)+(e+m)) % n = (hole+m) % n := by
    rw [← Nat.add_assoc,Nat.add_mod,here,Nat.add_mod_mod]
  rw [behind j] at there
  by_cases passed : j ≤ scanned
  · obtain ⟨y,same,d',close,reach⟩ := holed.run j (by omega) passed
    rw [there,found] at same
    obtain rfl := Option.some.inj same
    have equal := offset_inj (by omega) near (reach.trans (behind j).symm)
    omega
  · rcases Nat.lt_or_ge (scanned+1) j with further | last
    · have short := holed.short
      rcases path (e+(scanned+1)) (by omega) with some_ | again
      · rw [behind] at some_
        exact absurd ends some_
      · rw [behind] at again
        have zero : (hole+(scanned+1)) % n = (hole+0) % n := by
          rw [again,Nat.add_zero,Nat.mod_eq_of_lt holed.inside]
        have equal := offset_inj (by omega) (by omega) zero
        omega
    · obtain rfl : j = scanned+1 := by omega
      rw [there,found] at ends
      simp at ends

/-- The next entry's home lies behind the hole: it stays. -/
theorem stay (holed : Holed n key home t hole scanned) (found : t ((hole+(scanned+1)) % n) = some x)
    {d : Nat} (reach : (home (key x)+d) % n = (hole+(scanned+1)) % n) (close : d ≤ scanned)
    (short : scanned+1 < n) : Holed n key home t hole (scanned+1) := by
  refine {holed with short := short, run := ?_}
  intro j low high
  by_cases old : j ≤ scanned
  · exact holed.run j low old
  · obtain rfl : j = scanned+1 := by omega
    exact ⟨x,found,d,by omega,reach⟩

theorem vacant_move {r place : Nat} (holed : Holed n key home t hole scanned) (near : r < n) (ahead : 0 < r)
    (vacant : t ((hole+r) % n) = none)
    (moved : ∀ i < n, t' i = if i = place then none else if i = hole then some x else t i) :
    t' ((hole+r) % n) = none := by
  have inside := holed.inside
  rw [moved _ (Nat.mod_lt _ (by omega))]
  split
  next => rfl
  next =>
    rw [if_neg,vacant]
    intro back
    have zero : (hole+r) % n = (hole+0) % n := by rw [back,Nat.add_zero,Nat.mod_eq_of_lt inside]
    have equal := offset_inj near (by omega) zero
    omega

section Move
variable (holed : Holed n key home t hole scanned) (found : t ((hole+(scanned+1)) % n) = some x)
  (moved : ∀ i < n, t' i =
    if i = (hole+(scanned+1)) % n then none else if i = hole then some x else t i)
include holed found moved

theorem entry_move (y : X) : Entry n t' y ↔ Entry n t y := by
  have inside := holed.inside
  have probe : (hole+(scanned+1)) % n < n := Nat.mod_lt _ (by omega)
  have apart : hole ≠ (hole+(scanned+1)) % n := by
    intro same
    rw [← same,holed.vacant] at found
    simp at found
  constructor
  · rintro ⟨i,hi,there⟩
    rw [moved i hi] at there
    split at there
    next => simp at there
    next =>
      split at there
      next =>
        obtain rfl := Option.some.inj there
        exact ⟨_,probe,found⟩
      next => exact ⟨i,hi,there⟩
  · rintro ⟨i,hi,there⟩
    by_cases last : i = (hole+(scanned+1)) % n
    · subst last
      rw [found] at there
      obtain rfl := Option.some.inj there
      exact ⟨hole,inside,by rw [moved hole inside,if_neg apart,if_pos rfl]⟩
    · have other : i ≠ hole := by
        rintro rfl
        rw [holed.vacant] at there
        simp at there
      exact ⟨i,hi,by rw [moved i hi,if_neg last,if_neg other,there]⟩

/-- The next entry's home does not lie behind the hole: it moves there, and its old
cell is the new hole. -/
theorem move {d : Nat} (near : d < n) (reach : (home (key x)+d) % n = (hole+(scanned+1)) % n)
    (far : scanned < d) : Holed n key home t' ((hole+(scanned+1)) % n) 0 := by
  have inside := holed.inside
  have pos : 0 < n := by omega
  have probe : (hole+(scanned+1)) % n < n := Nat.mod_lt _ pos
  have fills (i : Nat) (hi : i < n) (some_ : t i ≠ none ∨ i = hole) :
      t' i ≠ none ∨ i = (hole+(scanned+1)) % n := by
    by_cases last : i = (hole+(scanned+1)) % n
    · exact .inr last
    · refine .inl ?_
      rw [moved i hi,if_neg last]
      split
      next => simp
      next other => exact some_.resolve_right other
  -- where an entry was before the move
  have origin (i : Nat) (hi : i < n) (y : X) (there : t' i = some y) :
      (i = hole ∧ y = x) ∨ (i ≠ hole ∧ i ≠ (hole+(scanned+1)) % n ∧ t i = some y) := by
    rw [moved i hi] at there
    split at there
    next => simp at there
    next last =>
      split at there
      next here => exact .inl ⟨here,(Option.some.inj there).symm⟩
      next other => exact .inr ⟨other,last,there⟩
  refine ⟨probe,by rw [moved _ probe,if_pos rfl],?_,?_,pos,fun j low high => by omega⟩
  · intro i hi j hj y z foundI foundJ same
    rcases origin i hi y foundI with ⟨rfl,rfl⟩ | ⟨_,lastI,thereI⟩
    · rcases origin j hj z foundJ with ⟨rfl,_⟩ | ⟨_,lastJ,thereJ⟩
      · rfl
      · exact absurd (holed.unique _ probe j hj y z found thereJ same).symm lastJ
    · rcases origin j hj z foundJ with ⟨rfl,rfl⟩ | ⟨_,_,thereJ⟩
      · exact absurd (holed.unique i hi _ probe y z thereI found same) lastI
      · exact holed.unique i hi j hj y z thereI thereJ same
  · intro i hi y there
    rcases origin i hi y there with ⟨rfl,rfl⟩ | ⟨_,_,old⟩
    · obtain ⟨d₀,near₀,reach₀,path⟩ := holed.path _ probe y found
      obtain rfl := offset_inj near near₀ (reach.trans reach₀.symm)
      have back : (home (key y)+(d-(scanned+1))) % n = i := by
        have shifted : home (key y)+(d-(scanned+1))+(scanned+1) ≡ i+(scanned+1) [MOD n] := by
          have sum : home (key y)+(d-(scanned+1))+(scanned+1) = home (key y)+d := by omega
          rw [sum]
          exact reach
        have congruent := Nat.ModEq.add_right_cancel' _ shifted
        rwa [Nat.ModEq,Nat.mod_eq_of_lt inside] at congruent
      refine ⟨d-(scanned+1),by omega,back,?_⟩
      intro e less
      exact fills _ (Nat.mod_lt _ pos) (path e (by omega))
    · obtain ⟨d',near',reach',path⟩ := holed.path i hi y old
      exact ⟨d',near',reach',fun e less => fills _ (Nat.mod_lt _ pos) (path e less)⟩

end Move

end Holed

/-- The comparison of raw cell numbers that decides whether an entry stays. -/
theorem stays_iff {hole ideal scanned d : Nat} (first : hole < n) (second : ideal < n)
    (short : scanned+1 < n) (near : d < n) (reach : (ideal+d) % n = (hole+(scanned+1)) % n) :
    (if hole < (hole+(scanned+1)) % n then hole < ideal ∧ ideal ≤ (hole+(scanned+1)) % n
      else hole < ideal ∨ ideal ≤ (hole+(scanned+1)) % n) ↔ d ≤ scanned := by
  have wrapped := mod_eq_cases (show hole+(scanned+1) < n+n by omega)
  rw [mod_eq_cases (show ideal+d < n+n by omega)] at reach
  generalize (hole+(scanned+1)) % n = probe at reach wrapped ⊢
  split at wrapped <;> split at reach <;> split <;> omega

end Llte.Foundation
