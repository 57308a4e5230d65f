/-
# The elements next to a place

In a finite set of a linear order: the least and the greatest element, the elements right above and
right below a place, and an element as near to a place as can be, if there is one.
-/
import Mathlib

namespace Lib

open Option Finset

variable {κ : Type*} [LinearOrder κ] {s : Finset κ} {k x : κ}

def least (s : Finset κ) : Option κ := if h : s.Nonempty then some (s.min' h) else none

def greatest (s : Finset κ) : Option κ := if h : s.Nonempty then some (s.max' h) else none

/-- The first element behind `k`. -/
def above (s : Finset κ) (k : κ) : Option κ := least (s.filter (k < ·))

/-- The last element in front of `k`. -/
def below (s : Finset κ) (k : κ) : Option κ := greatest (s.filter (· < k))

/-- The element `k` itself, or else one next to it; `down` tells which side is tried first. -/
def near (s : Finset κ) (k : κ) (down : Bool) : Option κ :=
  if k ∈ s then some k
  else if down then (below s k).or (above s k)
  else (above s k).or (below s k)

lemma least_eq_none : least s = none ↔ s = ∅ := by
  unfold least
  split_ifs with h
  · simp [h.ne_empty]
  · simpa using h

lemma least_eq_some : least s = some x ↔ x ∈ s ∧ ∀ y ∈ s, x ≤ y := by
  unfold least
  split_ifs with h
  · rw [some.injEq]
    constructor
    · rintro rfl
      exact ⟨s.min'_mem h, fun y hy => s.min'_le y hy⟩
    · rintro ⟨hx, hle⟩
      exact le_antisymm (s.min'_le x hx) (hle _ (s.min'_mem h))
  · simp [not_nonempty_iff_eq_empty.mp h]

lemma greatest_eq_none : greatest s = none ↔ s = ∅ := by
  unfold greatest
  split_ifs with h
  · simp [h.ne_empty]
  · simpa using h

lemma greatest_eq_some : greatest s = some x ↔ x ∈ s ∧ ∀ y ∈ s, y ≤ x := by
  unfold greatest
  split_ifs with h
  · rw [some.injEq]
    constructor
    · rintro rfl
      exact ⟨s.max'_mem h, fun y hy => s.le_max' y hy⟩
    · rintro ⟨hx, hle⟩
      exact le_antisymm (hle _ (s.max'_mem h)) (s.le_max' x hx)
  · simp [not_nonempty_iff_eq_empty.mp h]

lemma above_eq_none : above s k = none ↔ ∀ y ∈ s, y ≤ k := by
  simp [above, least_eq_none, filter_eq_empty_iff]

lemma above_eq_some : above s k = some x ↔ x ∈ s ∧ k < x ∧ ∀ y ∈ s, k < y → x ≤ y := by
  simp [above, least_eq_some, and_assoc]

lemma below_eq_none : below s k = none ↔ ∀ y ∈ s, k ≤ y := by
  simp [below, greatest_eq_none, filter_eq_empty_iff]

lemma below_eq_some : below s k = some x ↔ x ∈ s ∧ x < k ∧ ∀ y ∈ s, y < k → y ≤ x := by
  simp [below, greatest_eq_some, and_assoc]

lemma near_of_mem (hk : k ∈ s) (down : Bool) : near s k down = some k := if_pos hk

lemma near_cases {down : Bool} (h : near s k down = some x) :
    (k ∈ s ∧ x = k) ∨ k ∉ s ∧ (below s k = some x ∨ above s k = some x) := by
  unfold near at h
  split_ifs at h with hk hd
  · exact .inl ⟨hk, (some.inj h).symm⟩
  · exact .inr ⟨hk, (or_eq_some_iff.mp h).imp_right And.right⟩
  · exact .inr ⟨hk, ((or_eq_some_iff.mp h).imp_right And.right).symm⟩

lemma near_mem {down : Bool} (h : near s k down = some x) : x ∈ s := by
  rcases near_cases h with ⟨hk, rfl⟩ | ⟨-, h | h⟩
  · exact hk
  · exact (below_eq_some.mp h).1
  · exact (above_eq_some.mp h).1

/-- There is nothing between a place and an element near to it. -/
lemma near_adjacent {down : Bool} {y : κ} (h : near s k down = some x) (hy : y ∈ s) :
    ¬ (x < y ∧ y ≤ k) ∧ ¬ (k ≤ y ∧ y < x) := by
  rcases near_cases h with ⟨-, rfl⟩ | ⟨hk, h⟩
  · exact ⟨fun h => h.1.not_ge h.2, fun h => h.2.not_ge h.1⟩
  have hyk : y ≠ k := fun h' => hk (h' ▸ hy)
  rcases h with h | h
  · obtain ⟨-, hlt, hle⟩ := below_eq_some.mp h
    exact ⟨fun h => (hle y hy (lt_of_le_of_ne h.2 hyk)).not_gt h.1,
      fun h => (hlt.trans_le h.1).not_gt h.2⟩
  · obtain ⟨-, hlt, hle⟩ := above_eq_some.mp h
    exact ⟨fun h => (hlt.trans h.1).not_ge h.2,
      fun h => (hle y hy (lt_of_le_of_ne h.1 hyk.symm)).not_gt h.2⟩

lemma near_eq_none {down : Bool} : near s k down = none ↔ s = ∅ := by
  constructor
  · intro h
    unfold near at h
    split_ifs at h with hk hd
    all_goals
      obtain ⟨h1, h2⟩ := or_eq_none_iff.mp h
      refine eq_empty_of_forall_notMem fun y hy => hk ?_
    · exact le_antisymm (below_eq_none.mp h1 y hy) (above_eq_none.mp h2 y hy) ▸ hy
    · exact le_antisymm (below_eq_none.mp h2 y hy) (above_eq_none.mp h1 y hy) ▸ hy
  · rintro rfl
    cases down <;> simp [near, above, below, least, greatest]

end Lib
