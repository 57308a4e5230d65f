/-
# Runs of a partial step function

A system is given by what an action makes of a state, if the action can be taken.  A run takes a
list of actions one after the other.
-/
import Mathlib

namespace Lib

/-- Two parties are called 0 and 1. -/
instance neZeroTwo : NeZero 2 := ⟨by decide⟩

variable {σ α : Type*}

/-- The state after a list of actions, if each of them can be taken. -/
def run (step : σ → α → Option σ) : σ → List α → Option σ
  | s, [] => some s
  | s, a :: as => (step s a).bind fun s' => run step s' as

variable {step : σ → α → Option σ} {as : List α} {P : σ → Prop} {s : σ}

@[simp] lemma run_nil (s : σ) : run step s [] = some s := rfl

lemma run_cons_eq_some {s s' : σ} {a : α} :
    run step s (a :: as) = some s' ↔ ∃ t, step s a = some t ∧ run step t as = some s' := by
  simp [run, Option.bind_eq_some_iff]

/-- What holds at first and is kept by every allowed action holds after every run of allowed
actions. -/
lemma run_invariant_of {A : α → Prop}
    (hstep : ∀ s a s', A a → P s → step s a = some s' → P s') {s s' : σ}
    (hs : P s) (has : ∀ a ∈ as, A a) (h : run step s as = some s') : P s' := by
  induction as generalizing s with
  | nil =>
    obtain rfl : s = s' := by simpa using h
    exact hs
  | cons a as ih =>
    obtain ⟨t, ht, hrun⟩ := run_cons_eq_some.mp h
    have hP : P t := hstep s a t (has a List.mem_cons_self) hs ht
    exact ih hP (fun b hb => has b (List.mem_cons_of_mem _ hb)) hrun

/-- What holds at first and is kept by every action holds after every run. -/
lemma run_invariant (hstep : ∀ s a s', P s → step s a = some s' → P s')
    {s s' : σ} (hs : P s) (h : run step s as = some s') : P s' :=
  run_invariant_of (A := fun _ => True) (fun s a s' _ => hstep s a s') hs (fun _ _ => trivial) h

/-! ### What holds all along a run -/

/-- `P` holds at every state of a run. -/
def Along (step : σ → α → Option σ) (P : σ → Prop) : σ → List α → Prop
  | s, [] => P s
  | s, a :: as => P s ∧ ∀ t, step s a = some t → Along step P t as

/-- `C` holds of every action of a run and the state it is taken in. -/
def AllSteps (step : σ → α → Option σ) (C : σ → α → Prop) : σ → List α → Prop
  | _, [] => True
  | s, a :: as => ∀ t, step s a = some t → C s a ∧ AllSteps step C t as

lemma Along.head (h : Along step P s as) : P s := by
  cases as with
  | nil => exact h
  | cons a as => exact h.1

lemma Along.mono {P Q : σ → Prop} (hPQ : ∀ s, P s → Q s)
    (h : Along step P s as) : Along step Q s as := by
  induction as generalizing s with
  | nil => exact hPQ s h
  | cons a as ih => exact ⟨hPQ s h.1, fun t ht => ih (h.2 t ht)⟩

/-- What is kept by steps that meet a condition holds along a run exactly if all of its steps meet
the condition, provided that a step cannot do without it. -/
lemma along_iff_allSteps {I P : σ → Prop} {C : σ → α → Prop} (hI : ∀ s, I s → P s)
    (hkeep : ∀ s a t, I s → C s a → step s a = some t → I t)
    (hneed : ∀ s a t, I s → step s a = some t → P t → C s a) (hs : I s) (as : List α) :
    Along step P s as ↔ AllSteps step C s as := by
  induction as generalizing s with
  | nil => exact ⟨fun _ => trivial, fun _ => hI s hs⟩
  | cons a as ih =>
    constructor
    · rintro ⟨-, hrest⟩ t ht
      have hC : C s a := hneed s a t hs ht (hrest t ht).head
      exact ⟨hC, (ih (hkeep s a t hs hC ht)).mp (hrest t ht)⟩
    · intro h
      refine ⟨hI s hs, fun t ht => ?_⟩
      obtain ⟨hC, hrest⟩ := h t ht
      exact (ih (hkeep s a t hs hC ht)).mpr hrest

/-- What is kept by steps that meet a condition holds after a run of such steps. -/
lemma run_of_allSteps {I : σ → Prop} {C : σ → α → Prop}
    (hkeep : ∀ s a t, I s → C s a → step s a = some t → I t) {s s' : σ} (hs : I s)
    (hC : AllSteps step C s as) (h : run step s as = some s') : I s' := by
  induction as generalizing s with
  | nil =>
    obtain rfl : s = s' := by simpa using h
    exact hs
  | cons a as ih =>
    obtain ⟨t, ht, hrun⟩ := run_cons_eq_some.mp h
    obtain ⟨hCa, hrest⟩ := hC t ht
    exact ih (hkeep s a t hs hCa ht) hrest hrun

/-- What every step keeps holds all along. -/
lemma along_of_invariant (hstep : ∀ s a s', P s → step s a = some s' → P s')
    (hs : P s) (as : List α) : Along step P s as := by
  induction as generalizing s with
  | nil => exact hs
  | cons a as ih => exact ⟨hs, fun t ht => ih (hstep s a t hs ht)⟩

end Lib
