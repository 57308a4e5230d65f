/-
# Lists changed pointwise

A table or a chain of records is changed by writing one place, or is related place by place to
another one.  Facts about all members and about all pairs carry over, and how many places have a
property changes by the place that is written.
-/
import Mathlib

namespace Lib

open List

variable {α β : Type*} {R : α → β → Prop} {l : List α} {i : ℕ} {x x' y : α}

lemma mem_set_self (h : l[i]? = some x) : x' ∈ l.set i x' :=
  List.mem_set (List.getElem?_eq_some_iff.mp h).1 x'

/-- A member is still there after a write, unless it was the one written over. -/
lemma eq_or_mem_set (h : l[i]? = some x) (hy : y ∈ l) : y = x ∨ y ∈ l.set i x' := by
  obtain ⟨j, hj, rfl⟩ := mem_iff_getElem.mp hy
  rcases eq_or_ne i j with rfl | hij
  · rw [getElem?_eq_getElem hj, Option.some.injEq] at h
    exact .inl h
  · refine .inr (mem_iff_getElem?.mpr ⟨j, ?_⟩)
    rw [getElem?_set_ne hij, getElem?_eq_getElem hj]

/-- What a write leaves as it is does not show the write. -/
lemma map_set_eq {g : α → β} (h : l[i]? = some x) (hg : g x' = g x) :
    (l.set i x').map g = l.map g := by
  obtain ⟨hi, rfl⟩ := List.getElem?_eq_some_iff.mp h
  rw [map_set, hg, ← getElem_map g (h := by simpa using hi), set_getElem_self]

/-- A reflexive relation that allows the write relates the list to the one written. -/
lemma forall₂_set {S : α → α → Prop} (hrefl : ∀ a, S a a) (h : l[i]? = some x) (hx : S x x') :
    List.Forall₂ S l (l.set i x') := by
  induction l generalizing i with
  | nil => simp at h
  | cons a l ih =>
    cases i with
    | zero =>
      obtain rfl : a = x := by simpa using h
      exact .cons hx (forall₂_same.mpr fun b _ => hrefl b)
    | succ i => exact .cons (hrefl a) (ih (by simpa using h))

section

variable {l' : List β} (h : List.Forall₂ R l l')
include h

lemma exists_left_of_mem {b : β} (hb : b ∈ l') : ∃ a ∈ l, R a b := by
  induction h with
  | nil => simp at hb
  | cons hab _ ih =>
    rcases mem_cons.mp hb with rfl | hb
    · exact ⟨_, mem_cons_self, hab⟩
    · obtain ⟨a, ha, hR⟩ := ih hb
      exact ⟨a, mem_cons_of_mem _ ha, hR⟩

lemma exists_right_of_mem {a : α} (ha : a ∈ l) : ∃ b ∈ l', R a b :=
  exists_left_of_mem (R := flip R) h.flip ha

/-- What holds of all ordered pairs holds of the related pairs. -/
lemma pairwise_of_forall₂ {P : α → α → Prop} {Q : β → β → Prop} (hl : l.Pairwise P)
    (hPQ : ∀ a b a' b', R a a' → R b b' → P a b → Q a' b') : l'.Pairwise Q := by
  induction h with
  | nil => exact .nil
  | cons hab hrest ih =>
    obtain ⟨hhead, htail⟩ := pairwise_cons.mp hl
    refine pairwise_cons.mpr ⟨?_, ih htail⟩
    intro b hb
    obtain ⟨a, ha, hR⟩ := exists_left_of_mem hrest hb
    exact hPQ _ _ _ _ hab hR (hhead a ha)

end

/-- A list with a member of a kind splits at the first of them. -/
lemma exists_first {p : α → Prop} (hy : y ∈ l) (hp : p y) :
    ∃ A n B, l = A ++ n :: B ∧ (∀ a ∈ A, ¬ p a) ∧ p n := by
  classical
  obtain ⟨n, hn⟩ : ∃ n, l.find? (fun a => decide (p a)) = some n :=
    Option.isSome_iff_exists.mp (find?_isSome.mpr ⟨y, hy, by simpa using hp⟩)
  obtain ⟨hpn, A, B, hsplit, hA⟩ := find?_eq_some_iff_append.mp hn
  exact ⟨A, n, B, hsplit, by simpa using hA, by simpa using hpn⟩

/-- An entry of a list with one more at its end. -/
lemma getElem?_concat_cases (h : (l ++ [x])[i]? = some y) :
    (i < l.length ∧ l[i]? = some y) ∨ (i = l.length ∧ x = y) := by
  rcases Nat.lt_trichotomy i l.length with hi | rfl | hi
  · exact .inl ⟨hi, by rwa [getElem?_append_left hi] at h⟩
  · exact .inr ⟨rfl, by simpa using h⟩
  · rw [getElem?_eq_none (by simp; omega)] at h
    cases h

/-! ### Counting places of a table -/

section

open Function Finset

variable {ι α : Type*} [Fintype ι]

/-- A place that is written adds what is there before and after. -/
lemma sum_update_add [DecidableEq ι] (g : α → ℕ) (f : ι → α) (i : ι) (x : α) :
    ∑ j, g (update f i x j) + g (f i) = ∑ j, g (f j) + g x := by
  have hupdate : (fun j => g (update f i x j)) =
      update (fun j => g (f j)) i (g x) := comp_update g f i x
  rw [hupdate, sum_update_of_mem (mem_univ i),
    sum_eq_add_sum_sdiff_singleton_of_mem (mem_univ i) fun j => g (f j)]
  omega

/-- How many places have a property. -/
def countAt (p : α → Bool) (f : ι → α) : ℕ := (univ.filter fun j => p (f j) = true).card

/-- A place that is written counts for what is there before and after. -/
lemma countAt_update [DecidableEq ι] (p : α → Bool) (f : ι → α) (i : ι) (x : α) :
    countAt p (update f i x) + (p (f i)).toNat = countAt p f + (p x).toNat := by
  have hsum : ∀ g : ι → α, countAt p g = ∑ j, (p (g j)).toNat := by
    intro g
    rw [countAt, card_filter]
    refine sum_congr rfl fun j _ => ?_
    cases p (g j) <;> rfl
  rw [hsum, hsum]
  exact sum_update_add (fun x => (p x).toNat) f i x

/-- A property is counted as another one that holds at the same places. -/
lemma countAt_congr {p q : α → Bool} {f : ι → α} (h : ∀ i, p (f i) = q (f i)) :
    countAt p f = countAt q f := by
  unfold countAt
  simp [h]

lemma countAt_eq_zero_iff {p : α → Bool} {f : ι → α} :
    countAt p f = 0 ↔ ∀ i, p (f i) = false := by
  simp [countAt, filter_eq_empty_iff]

end

end Lib
