/-
# Computations that may fail

What a computation of several steps has returned is read off step by step: it has succeeded if
every step has, and it has failed with the error of the first step that failed.

A partial function is applied again and again, as long as it is defined.  If it is defined at
finitely many places only, every place that is reached at all is reached within as many steps.
-/
import Mathlib

namespace Lib

open Option

/-! ### Steps with an error -/

section

variable {ε α β : Type*} {x : Except ε α}

lemma exists_of_bind_ok {f : α → Except ε β} {b : β} (h : x.bind f = .ok b) :
    ∃ a, x = .ok a ∧ f a = .ok b := by
  cases x with
  | error e => cases h
  | ok a => exact ⟨a, rfl, h⟩

lemma exists_of_map_ok {f : α → β} {b : β} (h : x.map f = .ok b) :
    ∃ a, x = .ok a ∧ f a = b := by
  cases x with
  | error e => cases h
  | ok a => exact ⟨a, rfl, Except.ok.inj h⟩

lemma bind_eq_error {f : α → Except ε β} {e : ε} (h : x.bind f = .error e) :
    x = .error e ∨ ∃ a, x = .ok a ∧ f a = .error e := by
  cases x with
  | error e' =>
    cases h
    exact .inl rfl
  | ok a => exact .inr ⟨a, rfl, h⟩

lemma bind_ne_error {f : α → Except ε β} {e : ε} (hx : x ≠ .error e)
    (hf : ∀ a, f a ≠ .error e) : x.bind f ≠ .error e := by
  intro h
  rcases bind_eq_error h with h | ⟨a, -, h⟩
  · exact hx h
  · exact hf a h

lemma toOption_eq_some {a : α} (h : x.toOption = some a) : x = .ok a := by
  cases x with
  | error e => cases h
  | ok b =>
    cases h
    rfl

end

/-! ### Iterates of a partial function -/

variable {α : Type*} {f : α → Option α}

/-- The place after a number of steps, if all of them can be taken. -/
def iter (f : α → Option α) : ℕ → α → Option α
  | 0, a => some a
  | k + 1, a => (f a).bind (iter f k)

@[simp] lemma iter_zero (a : α) : iter f 0 a = some a := rfl

lemma iter_succ_eq_some {k : ℕ} {a c : α} :
    iter f (k + 1) a = some c ↔ ∃ b, f a = some b ∧ iter f k b = some c := by
  simp [iter, bind_eq_some_iff]

lemma iter_add (j k : ℕ) (a : α) : iter f (j + k) a = (iter f j a).bind (iter f k) := by
  induction j generalizing a with
  | zero => simp
  | succ j ih =>
    rw [add_right_comm, iter, iter]
    cases f a with
    | none => rfl
    | some b => exact ih b

/-- The last step can be split off. -/
lemma iter_succ_last {k : ℕ} {a c : α} :
    iter f (k + 1) a = some c ↔ ∃ b, iter f k a = some b ∧ f b = some c := by
  rw [iter_add, bind_eq_some_iff]
  constructor
  · rintro ⟨b, hb, hc⟩
    obtain ⟨c', hc', hzero⟩ := iter_succ_eq_some.mp hc
    cases hzero
    exact ⟨b, hb, hc'⟩
  · rintro ⟨b, hb, hc⟩
    exact ⟨b, hb, iter_succ_eq_some.mpr ⟨c, hc, rfl⟩⟩

/-- A walk that is defined somewhere is defined there on its way. -/
lemma exists_iter_of_le {j k : ℕ} (hjk : j ≤ k) {a c : α} (h : iter f k a = some c) :
    ∃ b, iter f j a = some b ∧ iter f (k - j) b = some c := by
  obtain ⟨m, rfl⟩ := Nat.exists_eq_add_of_le hjk
  rw [iter_add, bind_eq_some_iff] at h
  rwa [Nat.add_sub_cancel_left]

/-- What is reached is reached in no more steps than there are places to step from. -/
lemma exists_iter_le_card {S : Finset α} (hS : ∀ a b, f a = some b → a ∈ S) {a c : α} {k : ℕ}
    (h : iter f k a = some c) : ∃ j ≤ S.card, iter f j a = some c := by
  classical
  -- a longer walk is at one place twice, and is cut short there
  induction k using Nat.strong_induction_on with
  | _ k ih =>
    rcases le_or_gt k S.card with hle | hlt
    · exact ⟨k, hle, h⟩
    have hplace : ∀ i < k, ∃ b ∈ S, iter f i a = some b := by
      intro i hi
      obtain ⟨b, hb, hrest⟩ := exists_iter_of_le hi.le h
      obtain ⟨m, hm⟩ := Nat.exists_eq_add_of_lt hi
      rw [show k - i = m + 1 by omega] at hrest
      obtain ⟨d, hd, -⟩ := iter_succ_eq_some.mp hrest
      exact ⟨b, hS b d hd, hb⟩
    choose place hmem hiter using fun i : Fin k => hplace i i.isLt
    obtain ⟨i, j, hij, heq⟩ : ∃ i j : Fin k, i < j ∧ place i = place j := by
      have hcard : S.card < (Finset.univ : Finset (Fin k)).card := by simpa using hlt
      obtain ⟨i, -, j, -, hne, heq⟩ :=
        Finset.exists_ne_map_eq_of_card_lt_of_maps_to hcard fun i _ => hmem i
      rcases lt_or_gt_of_ne hne with hlt | hgt
      · exact ⟨i, j, hlt, heq⟩
      · exact ⟨j, i, hgt, heq.symm⟩
    obtain ⟨b, hb, hrest⟩ := exists_iter_of_le j.isLt.le h
    obtain rfl := some.inj ((hiter j).symm.trans hb)
    refine ih (i + (k - j)) (by omega) ?_
    rw [iter_add, hiter i, heq]
    exact hrest

/-- A walk ends exactly if it is at no place twice. -/
lemma exists_iter_eq_none_iff {S : Finset α} (hS : ∀ a b, f a = some b → a ∈ S) {a : α} :
    (∃ k, iter f k a = none) ↔ ∀ i j c, iter f i a = some c → iter f j a = some c → i = j := by
  constructor
  · rintro ⟨k, hk⟩
    -- a walk that comes back to a place comes back to it again and again
    have hlt : ∀ i j c, iter f i a = some c → iter f j a = some c → ¬ i < j := by
      intro i j c hi hj hij
      obtain ⟨c', hc', hback⟩ := exists_iter_of_le hij.le hj
      obtain rfl := some.inj (hi.symm.trans hc')
      have hagain : ∀ n, ∃ m ≥ n, iter f m a = some c := by
        intro n
        induction n with
        | zero => exact ⟨i, Nat.zero_le i, hi⟩
        | succ n ih =>
          obtain ⟨m, hm, hmc⟩ := ih
          refine ⟨m + (j - i), by omega, ?_⟩
          rw [iter_add, hmc]
          exact hback
      obtain ⟨m, hm, hmc⟩ := hagain k
      obtain ⟨b, hb, -⟩ := exists_iter_of_le hm hmc
      cases hk.symm.trans hb
    intro i j c hi hj
    exact le_antisymm (not_lt.mp (hlt j i c hj hi)) (not_lt.mp (hlt i j c hi hj))
  · intro huniq
    refine ⟨S.card + 1, ?_⟩
    by_contra hne
    obtain ⟨c, hc⟩ := ne_none_iff_exists'.mp hne
    obtain ⟨j, hj, hjc⟩ := exists_iter_le_card hS hc
    have := huniq j _ c hjc hc
    omega

end Lib
