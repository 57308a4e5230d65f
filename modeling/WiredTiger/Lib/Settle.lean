/-
# Functions that can be applied again

A class of functions settles if all of its functions are idempotent and it is closed under
composition.  Then a list of functions of the class can be replayed: applying a stretch of it once
more, from where it has led, changes nothing.
-/
import Mathlib

namespace Lib

open Function List

variable {α β κ : Type*}

/-- The functions of the class are idempotent, and so are their compositions. -/
structure Settling (F : (α → α) → Prop) : Prop where
  one : F id
  comp : ∀ f g, F f → F g → F (g ∘ f)
  idem : ∀ f, F f → ∀ a, f (f a) = f a

/-- Functions applied one after the other. -/
def applyAll : List (α → α) → α → α
  | [], a => a
  | f :: fs, a => applyAll fs (f a)

lemma applyAll_append (fs gs : List (α → α)) (a : α) :
    applyAll (fs ++ gs) a = applyAll gs (applyAll fs a) := by
  induction fs generalizing a with
  | nil => rfl
  | cons f fs ih => exact ih (f a)

namespace Settling

variable {F : (α → α) → Prop}

lemma applyAll_mem (h : Settling F) {fs : List (α → α)} (hfs : ∀ f ∈ fs, F f) :
    F (applyAll fs) := by
  induction fs with
  | nil => exact h.one
  | cons f fs ih =>
    exact h.comp f (applyAll fs) (hfs f mem_cons_self)
      (ih fun g hg => hfs g (mem_cons_of_mem _ hg))

/-- Replaying from `j` on, from the state after the first `m`, leads to the end. -/
lemma replay (h : Settling F) {fs : List (α → α)} (hfs : ∀ f ∈ fs, F f) {j m : ℕ} (hjm : j ≤ m)
    (a : α) : applyAll (fs.drop j) (applyAll (fs.take m) a) = applyAll fs a := by
  have hsplit : fs.take m = fs.take j ++ (fs.drop j).take (m - j) := by
    rw [← take_add, Nat.add_sub_cancel' hjm]
  have hrest : fs.drop j = (fs.drop j).take (m - j) ++ (fs.drop j).drop (m - j) :=
    (take_append_drop _ _).symm
  have hmem : F (applyAll ((fs.drop j).take (m - j))) :=
    h.applyAll_mem fun f hf => hfs f (mem_of_mem_drop (mem_of_mem_take hf))
  calc applyAll (fs.drop j) (applyAll (fs.take m) a)
      = applyAll ((fs.drop j).drop (m - j)) (applyAll ((fs.drop j).take (m - j))
          (applyAll ((fs.drop j).take (m - j)) (applyAll (fs.take j) a))) := by
        rw [hsplit, applyAll_append]
        conv_lhs => rw [hrest, applyAll_append, ← hrest]
    _ = applyAll ((fs.drop j).drop (m - j)) (applyAll ((fs.drop j).take (m - j))
          (applyAll (fs.take j) a)) := by rw [h.idem _ hmem]
    _ = applyAll fs a := by
        rw [← applyAll_append, ← hrest, ← applyAll_append, take_append_drop]

/-- Functions that act on each place of a table by a function of a class. -/
lemma pointwise (h : Settling F) : Settling fun g : (κ → α) → κ → α =>
    ∃ f : κ → α → α, (∀ x, F (f x)) ∧ ∀ t x, g t x = f x (t x) where
  one := ⟨fun _ => id, fun _ => h.one, fun _ _ => rfl⟩
  comp := by
    rintro g g' ⟨f, hf, hg⟩ ⟨f', hf', hg'⟩
    refine ⟨fun x => f' x ∘ f x, fun x => h.comp _ _ (hf x) (hf' x), fun t x => ?_⟩
    rw [comp_apply, hg', hg]
    rfl
  idem := by
    rintro g ⟨f, hf, hg⟩ t
    funext x
    rw [hg, hg, h.idem _ (hf x)]

/-- Functions that are seen as functions of a class. -/
lemma via {G : (β → β) → Prop} (h : Settling G) {e : α → β} (he : Function.Injective e) :
    Settling fun g : α → α => ∃ f, G f ∧ ∀ a, e (g a) = f (e a) where
  one := ⟨id, h.one, fun _ => rfl⟩
  comp := by
    rintro g g' ⟨f, hf, hg⟩ ⟨f', hf', hg'⟩
    refine ⟨f' ∘ f, h.comp _ _ hf hf', fun a => ?_⟩
    rw [comp_apply, hg', hg]
    rfl
  idem := by
    rintro g ⟨f, hf, hg⟩ a
    refine he ?_
    rw [hg, hg, h.idem _ hf]

/-- Resets, and functions of a class on what is there. -/
lemma resets (h : Settling F) : Settling fun g : Option α → Option α =>
    (∃ c, ∀ x, g x = c) ∨ ∃ f, F f ∧ ∀ x, g x = x.map f where
  one := .inr ⟨id, h.one, fun x => by simp⟩
  comp := by
    rintro g g' (⟨c, hc⟩ | ⟨f, hf, hg⟩) (⟨c', hc'⟩ | ⟨f', hf', hg'⟩)
    · exact .inl ⟨c', fun x => hc' _⟩
    · exact .inl ⟨c.map f', fun x => by rw [comp_apply, hg', hc]⟩
    · exact .inl ⟨c', fun x => hc' _⟩
    · refine .inr ⟨f' ∘ f, h.comp _ _ hf hf', fun x => ?_⟩
      rw [comp_apply, hg', hg, Option.map_map]
  idem := by
    rintro g (⟨c, hc⟩ | ⟨f, hf, hg⟩) x
    · rw [hc, hc]
    · rw [hg, hg, Option.map_map]
      congr 1
      funext a
      exact h.idem f hf a

/-- Functions of a class on a part, which is taken out and put back. -/
lemma inside {G : (β → β) → Prop} (h : Settling G) {strip : α → β} {wrap : β → α}
    (hs : ∀ b, strip (wrap b) = b) :
    Settling fun g : α → α => g = id ∨ ∃ f, G f ∧ ∀ a, g a = wrap (f (strip a)) where
  one := .inl rfl
  comp := by
    rintro g g' (rfl | ⟨f, hf, hg⟩) (rfl | ⟨f', hf', hg'⟩)
    · exact .inl rfl
    · exact .inr ⟨f', hf', hg'⟩
    · exact .inr ⟨f, hf, hg⟩
    · refine .inr ⟨f' ∘ f, h.comp _ _ hf hf', fun a => ?_⟩
      rw [comp_apply, hg', hg, hs]
      rfl
  idem := by
    rintro g (rfl | ⟨f, hf, hg⟩) a
    · rfl
    · rw [hg, hg, hs, h.idem _ hf]

end Settling

/-- Writes, filling in a value where there is none, and setting that value where there is one. -/
inductive WriteOrFill (zero : α) : (Option α → Option α) → Prop
  | keep : WriteOrFill zero id
  | write (a : α) : WriteOrFill zero fun _ => some a
  | fill : WriteOrFill zero fun x => some (x.getD zero)
  | zero : WriteOrFill zero fun x => x.map fun _ => zero

lemma settling_writeOrFill (zero : α) : Settling (WriteOrFill zero) where
  one := .keep
  comp := by
    have hfill : (fun x : Option α => some (x.getD zero)) ∘
        (fun x : Option α => x.map fun _ => zero) = fun _ => some zero := by
      funext x
      cases x <;> rfl
    have hidem : (fun x : Option α => x.map fun _ => zero) ∘
        (fun x : Option α => x.map fun _ => zero) = fun x => x.map fun _ => zero := by
      funext x
      cases x <;> rfl
    rintro f g (- | a | - | -) (- | b | - | -)
    · exact .keep
    · exact .write b
    · exact .fill
    · exact .zero
    · exact .write a
    · exact .write b
    · exact .write a
    · exact .write zero
    · exact .fill
    · exact .write b
    · exact .fill
    · exact .write zero
    · exact .zero
    · exact .write b
    · exact hfill.symm ▸ .write zero
    · exact hidem.symm ▸ .zero
  idem := by
    rintro f (- | a | - | -) x
    · rfl
    · rfl
    · rfl
    · cases x <;> rfl

end Lib
