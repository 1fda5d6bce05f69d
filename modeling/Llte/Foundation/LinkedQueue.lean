import Mathlib.Data.List.Nodup
import Mathlib.Data.List.Induction

/-! Linked lists threaded through a pair of link functions. A doubly linked list is a
cycle through `null`: `after null` is its head and `before null` its tail, so that
linking and unlinking have no special case at the ends. -/
namespace Llte.Foundation

variable {ι : Type}

/-- Following `step` from `head` passes through exactly `nodes` and ends at `null`. -/
def Reads (step : ι → ι) (null : ι) : ι → List ι → Prop
  | head,[] => head = null
  | head,node::rest => head = node ∧ node ≠ null ∧ Reads step null (step node) rest

/-- The nodes that a walk of at most `fuel` rounds passes through. -/
def follow [DecidableEq ι] (step : ι → ι) (null : ι) : Nat → ι → List ι
  | 0,_ => []
  | fuel+1,head => if head = null then [] else head::follow step null fuel (step head)

namespace Reads
variable {step step' : ι → ι} {null head x : ι} {nodes front back : List ι}

theorem congr (reads : Reads step null head nodes) (same : ∀ a ∈ nodes, step' a = step a) :
    Reads step' null head nodes := by
  induction nodes generalizing head with
  | nil => exact reads
  | cons node rest ih =>
    obtain ⟨start,proper,later⟩ := reads
    refine ⟨start,proper,?_⟩
    rw [same node (List.mem_cons_self ..)]
    exact ih later (fun a member => same a (List.mem_cons_of_mem _ member))

private theorem head_mem (reads : Reads step null head nodes) : head = null ∨ head ∈ nodes := by
  cases nodes with
  | nil => exact .inl reads
  | cons node rest => exact .inr (by rw [reads.1]; exact List.mem_cons_self ..)

private theorem step_mem (reads : Reads step null head nodes) {a : ι} (member : a ∈ nodes) :
    step a = null ∨ step a ∈ nodes := by
  induction nodes generalizing head with
  | nil => simp at member
  | cons node rest ih =>
    obtain ⟨_,_,later⟩ := reads
    rcases List.mem_cons.mp member with rfl | further
    · exact later.head_mem.imp id (List.mem_cons_of_mem _)
    · exact (ih later further).imp id (List.mem_cons_of_mem _)

private theorem step_eq (reads : Reads step null head (front ++ x::back)) : step x = back.headD null := by
  induction front generalizing head with
  | nil =>
    obtain ⟨_,_,later⟩ := reads
    cases back with
    | nil => exact later
    | cons next rest => exact later.1
  | cons node rest ih => exact ih reads.2.2

theorem source (reads : Reads step null head nodes) {b : ι} (reached : b = null ∨ b ∈ nodes) :
    b = head ∨ ∃ a ∈ nodes, step a = b := by
  induction nodes generalizing head with
  | nil =>
    have ends : head = null := reads
    rw [ends]
    simpa using reached
  | cons node rest ih =>
    obtain ⟨rfl,_,later⟩ := reads
    by_cases here : b = head
    · exact .inl here
    · have further : b = null ∨ b ∈ rest := reached.imp id (List.mem_of_ne_of_mem here)
      rcases ih later further with rfl | ⟨a,inside,found⟩
      · exact .inr ⟨head,List.mem_cons_self ..,rfl⟩
      · exact .inr ⟨a,List.mem_cons_of_mem _ inside,found⟩

theorem ne_null (reads : Reads step null head nodes) {a : ι} (member : a ∈ nodes) : a ≠ null := by
  induction nodes generalizing head with
  | nil => simp at member
  | cons node rest ih =>
    rcases List.mem_cons.mp member with rfl | further
    · exact reads.2.1
    · exact ih reads.2.2 further

variable [DecidableEq ι]

/-- A walk that is allowed enough rounds collects the list. -/
theorem follow (reads : Reads step null head nodes) {fuel : Nat} (enough : nodes.length ≤ fuel) :
    follow step null fuel head = nodes := by
  induction nodes generalizing head fuel with
  | nil =>
    have ends : head = null := reads
    cases fuel with
    | zero => rfl
    | succ fuel => rw [Foundation.follow,if_pos ends]
  | cons node rest ih =>
    obtain ⟨rfl,proper,later⟩ := reads
    obtain ⟨rounds,rfl⟩ : ∃ rounds, fuel = rounds+1 := ⟨fuel-1,by rw [List.length_cons] at enough; omega⟩
    rw [List.length_cons] at enough
    rw [Foundation.follow,if_neg proper,ih later (by omega)]

theorem push (reads : Reads step null head nodes) (proper : x ≠ null) (ends : step' x = null)
    (same : ∀ a ∈ nodes, step' a = if step a = null then x else step a) :
    Reads step' null (if head = null then x else head) (nodes ++ [x]) := by
  induction nodes generalizing head with
  | nil =>
    have none : head = null := reads
    rw [if_pos none]
    exact ⟨rfl,proper,ends⟩
  | cons node rest ih =>
    obtain ⟨rfl,some_,later⟩ := reads
    rw [if_neg some_]
    refine ⟨rfl,some_,?_⟩
    rw [same head (List.mem_cons_self ..)]
    exact ih later (fun a member => same a (List.mem_cons_of_mem _ member))

theorem remove (reads : Reads step null head (front ++ x::back)) (distinct : (front ++ x::back).Nodup)
    (same : ∀ a ∈ front ++ back, step' a = if step a = x then step x else step a) :
    Reads step' null (if head = x then step x else head) (front ++ back) := by
  induction front generalizing head with
  | nil =>
    obtain ⟨rfl,proper,later⟩ := reads
    rw [if_pos rfl]
    refine later.congr ?_
    intro a member
    have other : step a ≠ head := by
      rintro rfl
      rcases later.step_mem member with null | inside
      · exact proper null
      · exact (List.nodup_cons.mp distinct).1 inside
    rw [same a member,if_neg other]
  | cons node rest ih =>
    obtain ⟨rfl,proper,later⟩ := reads
    rw [List.cons_append,List.nodup_cons] at distinct
    have other : head ≠ x := by
      rintro rfl
      exact distinct.1 (by simp)
    rw [if_neg other]
    refine ⟨rfl,proper,?_⟩
    rw [same head (by simp)]
    exact ih later distinct.2 (fun a member => same a (List.mem_cons_of_mem _ member))

end Reads

/-- The nodes of a doubly linked list, in the order of `after`. -/
structure Linked (after before : ι → ι) (null : ι) (nodes : List ι) : Prop where
  distinct : (null::nodes).Nodup
  reads : Reads after null (after null) nodes
  inverse : ∀ a ∈ null::nodes, before (after a) = a

namespace Linked
variable {after before after' before' : ι → ι} {null x : ι} {nodes front back : List ι}

theorem nil (head : after null = null) (tail : before null = null) : Linked after before null [] := by
  refine ⟨by simp,head,?_⟩
  intro a member
  rw [List.mem_singleton] at member
  rw [member,head,tail]

theorem congr (linked : Linked after before null nodes) (forward : ∀ a ∈ null::nodes, after' a = after a)
    (backward : ∀ a ∈ null::nodes, before' a = before a) : Linked after' before' null nodes := by
  refine ⟨linked.distinct,?_,?_⟩
  · rw [forward null (List.mem_cons_self ..)]
    exact linked.reads.congr (fun a member => forward a (List.mem_cons_of_mem _ member))
  · intro a member
    have inside : after a ∈ null::nodes := by
      rcases List.mem_cons.mp member with rfl | further
      · exact List.mem_cons.mpr linked.reads.head_mem
      · exact List.mem_cons.mpr (linked.reads.step_mem further)
    rw [forward a member,backward _ inside]
    exact linked.inverse a member

theorem after_mem (linked : Linked after before null nodes) {a : ι} (member : a ∈ null::nodes) :
    after a ∈ null::nodes := by
  rcases List.mem_cons.mp member with rfl | further
  · exact List.mem_cons.mpr linked.reads.head_mem
  · exact List.mem_cons.mpr (linked.reads.step_mem further)

private theorem exists_before (linked : Linked after before null nodes) {b : ι} (member : b ∈ null::nodes) :
    ∃ a ∈ null::nodes, after a = b := by
  rcases linked.reads.source (List.mem_cons.mp member) with rfl | ⟨a,inside,found⟩
  · exact ⟨null,List.mem_cons_self ..,rfl⟩
  · exact ⟨a,List.mem_cons_of_mem _ inside,found⟩

theorem before_mem (linked : Linked after before null nodes) {b : ι} (member : b ∈ null::nodes) :
    before b ∈ null::nodes := by
  obtain ⟨a,inside,rfl⟩ := linked.exists_before member
  rwa [linked.inverse a inside]

theorem after_eq_iff (linked : Linked after before null nodes) {a b : ι} (first : a ∈ null::nodes)
    (second : b ∈ null::nodes) : after a = b ↔ a = before b := by
  constructor
  · rintro rfl
    exact (linked.inverse a first).symm
  · rintro rfl
    obtain ⟨a,inside,rfl⟩ := linked.exists_before second
    rw [linked.inverse a inside]

/-- Read from the tail along `before`, the same nodes come in the opposite order. -/
theorem reads_back (linked : Linked after before null nodes) :
    Reads before null (before null) nodes.reverse := by
  have upto (front back : List ι) (whole : nodes = front ++ back) :
      Reads before null (before (back.headD null)) front.reverse := by
    induction front using List.reverseRecOn generalizing back with
    | nil =>
      have first : back.headD null = after null := by
        have reads := linked.reads
        rw [whole] at reads
        cases back with
        | nil => exact reads.symm
        | cons node rest => exact reads.1.symm
      rw [first]
      exact linked.inverse null (List.mem_cons_self ..)
    | append_singleton front node ih =>
      have shape : nodes = front ++ node::back := by rw [whole]; simp
      have member : node ∈ null::nodes := by rw [shape]; simp
      have next : after node = back.headD null := by
        have reads := linked.reads
        rw [shape] at reads
        exact reads.step_eq
      rw [← next,linked.inverse node member,List.reverse_append]
      exact ⟨rfl,linked.reads.ne_null (by rw [shape]; simp),ih (node::back) shape⟩
  exact upto nodes [] (by simp)

variable [DecidableEq ι]

theorem push (linked : Linked after before null nodes) (fresh : x ∉ null::nodes)
    (forward : ∀ a ∈ null::nodes, after' a = if a = before null then x else after a)
    (ends : after' x = null) (backward : ∀ b ∈ nodes, before' b = before b)
    (tail : before' null = x) (previous : before' x = before null) :
    Linked after' before' null (nodes ++ [x]) := by
  have proper : x ≠ null := fun same => fresh (by simp [same])
  have last {a : ι} (member : a ∈ null::nodes) : a = before null ↔ after a = null :=
    (linked.after_eq_iff member (List.mem_cons_self ..)).symm
  have forward' (a : ι) (member : a ∈ null::nodes) : after' a = if after a = null then x else after a := by
    rw [forward a member]
    simp only [last member]
  refine ⟨?_,?_,?_⟩
  · rw [← List.cons_append,List.nodup_append]
    exact ⟨linked.distinct,by simp,fun a inside b single => by
      rw [List.mem_singleton] at single
      rintro rfl
      exact fresh (single ▸ inside)⟩
  · rw [forward' null (List.mem_cons_self ..)]
    exact linked.reads.push proper ends (fun a member => forward' a (List.mem_cons_of_mem _ member))
  · intro a member
    rw [← List.cons_append,List.mem_append,List.mem_singleton] at member
    rcases member with inside | rfl
    · rw [forward' a inside]
      split
      next atEnd => rw [previous,← (last inside).mpr atEnd]
      next middle =>
        rw [backward _ (List.mem_of_ne_of_mem middle (linked.after_mem inside))]
        exact linked.inverse a inside
    · rw [ends,tail]

theorem remove (linked : Linked after before null (front ++ x::back))
    (forward : ∀ a ∈ null::(front ++ back), after' a = if a = before x then after x else after a)
    (backward : ∀ b ∈ null::(front ++ back), before' b = if b = after x then before x else before b) :
    Linked after' before' null (front ++ back) := by
  have keep {a : ι} (member : a ∈ null::(front ++ back)) : a ∈ null::(front ++ x::back) := by
    simp only [List.mem_cons,List.mem_append] at member ⊢
    tauto
  have inside : x ∈ null::(front ++ x::back) := by simp
  have distinct := linked.distinct
  have whole : (front ++ x::back).Nodup := (List.nodup_cons.mp distinct).2
  have absent : x ∉ null::(front ++ back) := by
    have proper : x ≠ null := linked.reads.ne_null (by simp)
    have apart := (List.nodup_middle.mp whole)
    rw [List.nodup_cons] at apart
    simp only [List.mem_cons,not_or]
    exact ⟨proper,apart.1⟩
  have forward' (a : ι) (member : a ∈ null::(front ++ back)) :
      after' a = if after a = x then after x else after a := by
    rw [forward a member]
    simp only [linked.after_eq_iff (keep member) inside]
  refine ⟨?_,?_,?_⟩
  · refine List.Nodup.sublist ?_ distinct
    exact (List.sublist_append_right [x] back |>.append_left front).cons_cons null
  · rw [forward' null (List.mem_cons_self ..)]
    exact linked.reads.remove whole (fun a member => forward' a (List.mem_cons_of_mem _ member))
  · intro a member
    have back' := linked.inverse a (keep member)
    rw [forward' a member]
    split
    next skipped =>
      -- the successor of `x` now follows `a`
      have target : after x ∈ null::(front ++ back) := by
        have found := linked.after_mem inside
        have other : after x ≠ x := by
          intro same
          have self := linked.inverse x inside
          rw [same] at self
          rw [skipped,self] at back'
          exact absent (back' ▸ member)
        simp only [List.mem_cons,List.mem_append] at found ⊢
        tauto
      rw [backward _ target,if_pos rfl,← skipped]
      exact back'
    next kept =>
      have target : after a ∈ null::(front ++ back) := by
        have found := linked.after_mem (keep member)
        simp only [List.mem_cons,List.mem_append] at found ⊢
        tauto
      have other : after a ≠ after x := by
        intro same
        have self := linked.inverse x inside
        rw [← same,back'] at self
        exact absent (self ▸ member)
      rw [backward _ target,if_neg other]
      exact back'

end Linked
end Llte.Foundation
