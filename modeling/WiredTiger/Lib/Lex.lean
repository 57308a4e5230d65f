/-
# Lexicographic order and common prefixes

Lists over a linearly ordered type are compared lexicographically.  A search that compares one
list `s` with many others can skip what `s` is known to have in common with all of them: if
`low ≤ k ≤ high`, then `k` starts with every prefix of `s` that both `low` and `high` start with.
-/
import Mathlib

namespace Lib

/-- Bytes are ordered as unsigned numbers. -/
instance instLinearOrderUInt8 : LinearOrder UInt8 where
  le_refl _ := UInt8.le_refl _
  le_trans _ _ _ := UInt8.le_trans
  le_antisymm _ _ := UInt8.le_antisymm
  le_total := UInt8.le_total
  lt_iff_le_not_ge a b := by
    rw [UInt8.lt_iff_toNat_lt, UInt8.le_iff_toNat_le, UInt8.le_iff_toNat_le]
    omega
  toDecidableLE := inferInstance
  toDecidableLT := inferInstance
  toDecidableEq := inferInstance

variable {α : Type*} {l m : List α}

section lcp

variable [DecidableEq α]

/-- The length of the longest common prefix. -/
def lcp : List α → List α → ℕ
  | a :: l, b :: m => if a = b then lcp l m + 1 else 0
  | _, _ => 0

@[simp] lemma lcp_nil_left (m : List α) : lcp [] m = 0 := rfl

@[simp] lemma lcp_nil_right (l : List α) : lcp l [] = 0 := by cases l <;> rfl

lemma lcp_cons_cons (a b : α) (l m : List α) :
    lcp (a :: l) (b :: m) = if a = b then lcp l m + 1 else 0 := rfl

lemma le_lcp_iff {n : ℕ} :
    n ≤ lcp l m ↔ n ≤ l.length ∧ n ≤ m.length ∧ l.take n = m.take n := by
  induction n generalizing l m with
  | zero => simp
  | succ n ih =>
    cases l with
    | nil => simp
    | cons a l =>
      cases m with
      | nil => simp
      | cons b m =>
        rw [lcp_cons_cons]
        by_cases hab : a = b
        · simp [hab, ih]
        · simp [hab]

lemma lcp_le_left (l m : List α) : lcp l m ≤ l.length := (le_lcp_iff.mp le_rfl).1

lemma lcp_le_right (l m : List α) : lcp l m ≤ m.length := (le_lcp_iff.mp le_rfl).2.1

lemma lcp_self (l : List α) : lcp l l = l.length :=
  le_antisymm (lcp_le_left l l) (le_lcp_iff.mpr ⟨le_rfl, le_rfl, rfl⟩)

lemma lcp_add {n : ℕ} (h : n ≤ lcp l m) :
    lcp (l.drop n) (m.drop n) + n = lcp l m := by
  induction n generalizing l m with
  | zero => simp
  | succ n ih =>
    cases l with
    | nil => simp at h
    | cons a l =>
      cases m with
      | nil => simp at h
      | cons b m =>
        rw [lcp_cons_cons] at h ⊢
        by_cases hab : a = b
        · simp only [hab, if_true, add_le_add_iff_right] at h ⊢
          simp only [List.drop_succ_cons]
          rw [← ih h]
          omega
        · simp [hab] at h

end lcp

section order

variable [LinearOrder α]

/-- Lexicographic comparison, cell by cell. -/
def lexCmp : List α → List α → Ordering
  | [], [] => .eq
  | [], _ :: _ => .lt
  | _ :: _, [] => .gt
  | a :: l, b :: m => if a = b then lexCmp l m else if a < b then .lt else .gt

lemma lexCmp_eq_eq_iff : lexCmp l m = .eq ↔ l = m := by
  induction l generalizing m with
  | nil => cases m <;> simp [lexCmp]
  | cons a l ih =>
    cases m with
    | nil => simp [lexCmp]
    | cons b m =>
      rw [lexCmp]
      split_ifs with h₁ h₂
      · simp [h₁, ih]
      · simp [h₁]
      · simp [h₁]

lemma lexCmp_eq_lt_iff : lexCmp l m = .lt ↔ l < m := by
  induction l generalizing m with
  | nil => cases m <;> simp [lexCmp]
  | cons a l ih =>
    cases m with
    | nil => simp [lexCmp]
    | cons b m =>
      rw [lexCmp, List.cons_lt_cons_iff]
      split_ifs with h₁ h₂
      · simp [h₁, ih]
      · simp [h₂]
      · simp [h₁, h₂]

lemma lexCmp_eq_gt_iff : lexCmp l m = .gt ↔ m < l := by
  rcases h : lexCmp l m with _ | _ | _
  · simpa using (lexCmp_eq_lt_iff.mp h).not_gt
  · simp [lexCmp_eq_eq_iff.mp h]
  · have h₁ : ¬ l < m := fun hlt => by simp [lexCmp_eq_lt_iff.mpr hlt] at h
    have h₂ : l ≠ m := fun heq => by simp [lexCmp_eq_eq_iff.mpr heq] at h
    simpa using lt_of_le_of_ne (not_lt.mp h₁) h₂.symm

lemma lexCmp_swap (l m : List α) : (lexCmp l m).swap = lexCmp m l := by
  rcases h : lexCmp l m with _ | _ | _
  · exact (lexCmp_eq_gt_iff.mpr (lexCmp_eq_lt_iff.mp h)).symm
  · exact (lexCmp_eq_eq_iff.mpr (lexCmp_eq_eq_iff.mp h).symm).symm
  · exact (lexCmp_eq_lt_iff.mpr (lexCmp_eq_gt_iff.mp h)).symm

/-- Common cells do not count. -/
lemma lexCmp_drop {n : ℕ} (h : n ≤ lcp l m) :
    lexCmp (l.drop n) (m.drop n) = lexCmp l m := by
  induction n generalizing l m with
  | zero => simp
  | succ n ih =>
    obtain _ | ⟨a, l⟩ := l
    · simp at h
    obtain _ | ⟨b, m⟩ := m
    · simp at h
    rw [lcp_cons_cons] at h
    by_cases hab : a = b
    · simp only [hab, if_true, add_le_add_iff_right] at h
      rw [lexCmp, if_pos hab, ← ih h]
      rfl
    · simp [hab] at h

/-- A list between two lists starts with what they have in common with a third one. -/
lemma le_lcp_of_between {s low k high : List α} {n : ℕ} (hlow : ¬ k < low) (hhigh : ¬ high < k)
    (h₁ : n ≤ lcp s low) (h₂ : n ≤ lcp s high) : n ≤ lcp s k := by
  induction n generalizing s low k high with
  | zero => exact Nat.zero_le _
  | succ n ih =>
    obtain _ | ⟨a, s⟩ := s
    · simp at h₁
    obtain _ | ⟨b, low⟩ := low
    · simp at h₁
    obtain _ | ⟨c, high⟩ := high
    · simp at h₂
    obtain _ | ⟨d, k⟩ := k
    · exact absurd (List.nil_lt_cons _ _) hlow
    rw [lcp_cons_cons] at h₁ h₂ ⊢
    obtain rfl : a = b := by
      by_contra hne
      simp [hne] at h₁
    obtain rfl : a = c := by
      by_contra hne
      simp [hne] at h₂
    simp only [if_true, Nat.add_le_add_iff_right] at h₁ h₂
    rw [List.cons_lt_cons_iff, not_or, not_lt] at hlow hhigh
    -- the first cell of the list in between cannot be anything else
    obtain rfl : a = d := le_antisymm hlow.1 hhigh.1
    rw [if_pos rfl]
    exact Nat.succ_le_succ (ih (fun h => hlow.2 ⟨rfl, h⟩) (fun h => hhigh.2 ⟨rfl, h⟩) h₁ h₂)

end order

end Lib
