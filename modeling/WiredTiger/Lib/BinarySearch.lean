/-
# Binary search with a base and a limit

The loop

    for (base = .., limit = ..; limit != 0; limit >>= 1) {
        indx = base + (limit >> 1);
        if (key > array[indx]) { base = indx + 1; --limit; }
        else if (key == array[indx]) found;
    }

over an array that is probed through a function.  The probe may carry a state along (counters, a
buffer) and may fail.  What is to be shown about it is an invariant for the range of candidates
that are left.
-/
import Mathlib

namespace Lib

open Option

/-- How a binary search ends. -/
inductive Probed (σ : Type*)
  /-- The key is at this index. -/
  | found (indx : ℕ) (s : σ)
  /-- The key is not there, and `base` is the smallest index of a greater one. -/
  | missing (base : ℕ) (s : σ)
  deriving DecidableEq, Repr

variable {σ : Type*} (probe : ℕ → σ → Option (Ordering × σ))

/-- The loop; the limit is at least halved in each turn, so it bounds the number of turns. -/
def bsearchLoop : ℕ → ℕ → ℕ → σ → Option (Probed σ)
  | fuel, base, limit, s =>
    if limit = 0 then some (.missing base s)
    else
      match fuel with
      | 0 => none
      | fuel + 1 => do
        let indx := base + limit / 2
        let (o, s) ← probe indx s
        match o with
        | .gt => bsearchLoop fuel (indx + 1) ((limit - 1) / 2) s
        | .lt => bsearchLoop fuel base (limit / 2) s
        | .eq => some (.found indx s)

/-- Binary search among the `limit` indices from `base` on. -/
def bsearch (base limit : ℕ) (s : σ) : Option (Probed σ) :=
  bsearchLoop probe limit base limit s

variable {probe}

/-- How a search among the indices from `base` up to `stop` ends.  `ord i` is how the key compares
with the element at `i`, and `Inv b e` holds of the probe's state when the candidates from `b` up to
`e` are left. -/
def SearchEnds (ord : ℕ → Ordering) (Inv : ℕ → ℕ → σ → Prop) (Found : ℕ → σ → Prop)
    (base stop : ℕ) (r : Option (Probed σ)) : Prop :=
  (∃ i s, r = some (.found i s) ∧ base ≤ i ∧ i < stop ∧ ord i = .eq ∧ Found i s) ∨
  (∃ b s, r = some (.missing b s) ∧ base ≤ b ∧ b ≤ stop ∧ Inv b b s ∧
    (∀ j, base ≤ j → j < b → ord j = .gt) ∧ ∀ j, b ≤ j → j < stop → ord j = .lt)

section Spec

variable (ord : ℕ → Ordering) (Inv : ℕ → ℕ → σ → Prop) (Found : ℕ → σ → Prop) {n : ℕ}
  (hgreater : ∀ i j, i < j → j < n → ord j = .gt → ord i = .gt)
  (hless : ∀ i j, i < j → j < n → ord i = .lt → ord j = .lt)
  (hprobe : ∀ b e i s, b ≤ i → i < e → e ≤ n → Inv b e s → ∃ s', probe i s = some (ord i, s') ∧
    (ord i = .gt → Inv (i + 1) e s') ∧ (ord i = .lt → Inv b i s') ∧ (ord i = .eq → Found i s'))

include hgreater hless hprobe

lemma bsearchLoop_spec (fuel base limit : ℕ) (s : σ) (hfuel : limit ≤ fuel) (hn : base + limit ≤ n)
    (hinv : Inv base (base + limit) s) :
    SearchEnds ord Inv Found base (base + limit) (bsearchLoop probe fuel base limit s) := by
  induction fuel generalizing base limit s with
  | zero =>
    obtain rfl : limit = 0 := by omega
    exact Or.inr ⟨base, s, by simp [bsearchLoop], le_rfl, le_rfl, hinv, fun j h₁ h₂ => by omega,
      fun j h₁ h₂ => by omega⟩
  | succ fuel ih =>
    rcases eq_zero_or_pos limit with rfl | hpos
    · exact Or.inr ⟨base, s, by simp [bsearchLoop], le_rfl, le_rfl, hinv, fun j h₁ h₂ => by omega,
        fun j h₁ h₂ => by omega⟩
    obtain ⟨s', hp, hgt, hlt, heq⟩ := hprobe base (base + limit) (base + limit / 2) s
      (by omega) (by omega) hn hinv
    have hne : limit ≠ 0 := by omega
    rw [bsearchLoop]
    rcases hord : ord (base + limit / 2) with _ | _ | _
    · -- the key is smaller: the lower half is left
      simp only [if_neg hne, hp, hord, bind_eq_bind, bind_some]
      rcases ih base (limit / 2) s' (by omega) (by omega) (hlt hord) with
        ⟨i, t, h₁, h₂, h₃, h₄⟩ | ⟨b, t, h₁, h₂, h₃, h₄, h₅, h₆⟩
      · exact Or.inl ⟨i, t, h₁, h₂, by omega, h₄⟩
      · refine Or.inr ⟨b, t, h₁, h₂, by omega, h₄, h₅, fun j hj hjl => ?_⟩
        rcases lt_trichotomy j (base + limit / 2) with hj' | rfl | hj'
        · exact h₆ j hj hj'
        · exact hord
        · exact hless _ _ hj' (by omega) hord
    · refine Or.inl ⟨base + limit / 2, s', ?_, by omega, by omega, hord, heq hord⟩
      simp [hne, hp, hord]
    · -- the key is greater: the upper half is left
      simp only [if_neg hne, hp, hord, bind_eq_bind, bind_some]
      have hend : base + limit / 2 + 1 + (limit - 1) / 2 = base + limit := by omega
      rcases ih (base + limit / 2 + 1) ((limit - 1) / 2) s' (by omega) (by omega)
          (by rw [hend]; exact hgt hord) with
        ⟨i, t, h₁, h₂, h₃, h₄⟩ | ⟨b, t, h₁, h₂, h₃, h₄, h₅, h₆⟩
      · exact Or.inl ⟨i, t, h₁, by omega, by omega, h₄⟩
      · refine Or.inr ⟨b, t, h₁, by omega, by omega, h₄, fun j hj hjb => ?_, ?_⟩
        · rcases lt_trichotomy j (base + limit / 2) with hj' | rfl | hj'
          · exact hgreater _ _ hj' (by omega) hord
          · exact hord
          · exact h₅ j hj' hjb
        · rwa [hend] at h₆

lemma bsearch_spec {base limit : ℕ} {s : σ} (hn : base + limit ≤ n)
    (hinv : Inv base (base + limit) s) :
    SearchEnds ord Inv Found base (base + limit) (bsearch probe base limit s) :=
  bsearchLoop_spec ord Inv Found hgreater hless hprobe limit base limit s le_rfl hn hinv

end Spec

end Lib
