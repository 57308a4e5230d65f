/-
# Going through a finite set in one direction or the other

What holds of a walk through a finite set of a linear order holds of the walk the other way round.
With the direction as a parameter it is stated and proved once.
-/
import WiredTiger.Lib.Neighbour

namespace Lib

inductive Dir
  | up
  | down
  deriving DecidableEq, Repr

namespace Dir

variable {κ : Type*} [LinearOrder κ] {d : Dir} {s : Finset κ} {a b c k : κ}

/-- A walk comes to `a` before it comes to `b`. -/
def Before : Dir → κ → κ → Prop
  | up, a, b => a < b
  | down, a, b => b < a

instance : ∀ (d : Dir) (a b : κ), Decidable (d.Before a b)
  | up, a, b => inferInstanceAs (Decidable (a < b))
  | down, a, b => inferInstanceAs (Decidable (b < a))

/-- A walk from `k` on comes to `x`. -/
abbrev From (d : Dir) (k x : κ) : Prop := ¬ d.Before x k

lemma not_before_self : ¬ d.Before a a := by
  cases d <;> exact lt_irrefl a

lemma Before.trans (h1 : d.Before a b) (h2 : d.Before b c) : d.Before a c := by
  cases d
  · exact lt_trans h1 h2
  · exact lt_trans h2 h1

lemma Before.not_symm (h : d.Before a b) : ¬ d.Before b a :=
  fun h' => not_before_self (h.trans h')

lemma Before.ne (h : d.Before a b) : a ≠ b := by
  rintro rfl
  exact not_before_self h

lemma eq_of_not_before (h1 : ¬ d.Before a b) (h2 : ¬ d.Before b a) : a = b := by
  cases d
  · exact le_antisymm (not_lt.mp h2) (not_lt.mp h1)
  · exact le_antisymm (not_lt.mp h1) (not_lt.mp h2)

lemma before_of_ne (h : ¬ d.Before b a) (hne : a ≠ b) : d.Before a b := by
  by_contra hab
  exact hne (eq_of_not_before hab h)

lemma before_of_not_before (h1 : ¬ d.Before b a) (h2 : d.Before b c) : d.Before a c := by
  rcases eq_or_ne a b with rfl | hne
  · exact h2
  · exact (before_of_ne h1 hne).trans h2

lemma before_of_before_of_not (h1 : d.Before a b) (h2 : ¬ d.Before c b) : d.Before a c := by
  rcases eq_or_ne b c with rfl | hne
  · exact h1
  · exact h1.trans (before_of_ne h2 hne)

/-- Where a walk starts. -/
def first : Dir → Finset κ → Option κ
  | up, s => least s
  | down, s => greatest s

/-- Where a walk goes from `k`. -/
def next : Dir → Finset κ → κ → Option κ
  | up, s, k => above s k
  | down, s, k => below s k

/-- Only what lies behind `k` counts. -/
lemma next_congr {t : Finset κ} (h : s.filter (d.Before k) = t.filter (d.Before k)) :
    d.next s k = d.next t k := by
  cases d
  · exact congrArg least h
  · exact congrArg greatest h

/-- `r` is the element with `P` that a walk through `s` comes to first, if there is one. -/
def IsFirst (d : Dir) (s : Finset κ) (P : κ → Prop) : Option κ → Prop
  | none => ∀ x ∈ s, ¬ P x
  | some k => k ∈ s ∧ P k ∧ ∀ x ∈ s, P x → ¬ d.Before x k

lemma isFirst_first (d : Dir) (s : Finset κ) : d.IsFirst s (fun _ => True) (d.first s) := by
  cases h : d.first s with
  | none =>
    cases d
    · simp [IsFirst, least_eq_none.mp h]
    · simp [IsFirst, greatest_eq_none.mp h]
  | some k =>
    cases d
    · obtain ⟨hk, hle⟩ := least_eq_some.mp h
      exact ⟨hk, trivial, fun x hx _ => not_lt.mpr (hle x hx)⟩
    · obtain ⟨hk, hle⟩ := greatest_eq_some.mp h
      exact ⟨hk, trivial, fun x hx _ => not_lt.mpr (hle x hx)⟩

lemma isFirst_next (d : Dir) (s : Finset κ) (k : κ) :
    d.IsFirst s (d.Before k) (d.next s k) := by
  cases h : d.next s k with
  | none =>
    cases d
    · exact fun x hx => not_lt.mpr (above_eq_none.mp h x hx)
    · exact fun x hx => not_lt.mpr (below_eq_none.mp h x hx)
  | some x =>
    cases d
    · obtain ⟨hx, hlt, hle⟩ := above_eq_some.mp h
      exact ⟨hx, hlt, fun y hy hky => not_lt.mpr (hle y hy hky)⟩
    · obtain ⟨hx, hlt, hle⟩ := below_eq_some.mp h
      exact ⟨hx, hlt, fun y hy hky => not_lt.mpr (hle y hy hky)⟩

lemma IsFirst.unique {P : κ → Prop} {r r' : Option κ} (h : d.IsFirst s P r)
    (h' : d.IsFirst s P r') : r = r' := by
  cases r with
  | none =>
    cases r' with
    | none => rfl
    | some b => exact absurd h'.2.1 (h b h'.1)
  | some a =>
    cases r' with
    | none => exact absurd h.2.1 (h' a h.1)
    | some b =>
      exact congrArg some
        (eq_of_not_before (h'.2.2 a h.1 h.2.1) (h.2.2 b h'.1 h'.2.1))

lemma IsFirst.congr {P Q : κ → Prop} {r : Option κ} (h : d.IsFirst s P r)
    (hPQ : ∀ x ∈ s, P x ↔ Q x) : d.IsFirst s Q r := by
  cases r with
  | none => exact fun x hx hQ => h x hx ((hPQ x hx).mpr hQ)
  | some k => exact ⟨h.1, (hPQ k h.1).mp h.2.1, fun x hx hQ => h.2.2 x hx ((hPQ x hx).mpr hQ)⟩

/-- The element `k` itself, or the one a walk goes to from it. -/
lemma isFirst_from_of_mem (hk : k ∈ s) : d.IsFirst s (d.From k) (some k) :=
  ⟨hk, not_before_self, fun _ _ h => h⟩

lemma isFirst_from_of_notMem (hk : k ∉ s) :
    d.IsFirst s (d.From k) (d.next s k) := by
  refine (isFirst_next d s k).congr fun x hx => ⟨fun h => h.not_symm, fun h => ?_⟩
  exact before_of_ne h (fun h' => hk (h' ▸ hx))

/-- The element nearest to `k` is the first one from it on, or else the last one in front of it. -/
lemma near_eq_or {r : Option κ} (h : up.IsFirst s (up.From k) r) :
    near s k false = r.or (below s k) := by
  by_cases hk : k ∈ s
  · rw [h.unique (isFirst_from_of_mem hk), near_of_mem hk]
    rfl
  · rw [h.unique (isFirst_from_of_notMem hk)]
    exact if_neg hk

/-- With nothing from `k` on, the last element is the last one in front of it. -/
lemma below_eq_greatest (h : up.IsFirst s (up.From k) none) :
    below s k = greatest s :=
  (isFirst_next down s k).unique ((isFirst_first down s).congr fun x hx =>
    ⟨fun _ => not_not.mp (h x hx), fun _ => trivial⟩)

/-- There is nothing between a place and an element near to it. -/
lemma not_between_near {down : Bool} {x y : κ} (h : near s k down = some x) (hy : y ∈ s) :
    ¬ (d.Before x y ∧ ¬ d.Before k y) ∧ ¬ (¬ d.Before y k ∧ d.Before y x) := by
  obtain ⟨h1, h2⟩ := near_adjacent h hy
  cases d
  · exact ⟨fun h => h1 ⟨h.1, not_lt.mp h.2⟩, fun h => h2 ⟨not_lt.mp h.1, h.2⟩⟩
  · exact ⟨fun h => h2 ⟨not_lt.mp h.2, h.1⟩, fun h => h1 ⟨h.2, not_lt.mp h.1⟩⟩

end Dir

end Lib
