/-
# Words of the configuration grammar

What `__config_next` reads is a word: a bare word, a quoted string, or a bracket with everything in
it.  A word that is followed by the end of the text or by a character that ends a bare word is taken
as a whole, whatever the text behind it.  What is inside a bracket is passed over, and it has to be
balanced: `nest` follows the tables through it.
-/
import WiredTiger.Config.Next

namespace WiredTiger

open Option

open List

variable {p q : ℕ × GoTable}

/-! ### Inside a bracket -/

/-- One action inside a bracket: the nesting depth and the table after it, if the bracket stays open
and the character is not refused.  Escapes and characters of several bytes are left out. -/
def nestAct (p : ℕ × GoTable) : ConfigAction → Option (ℕ × GoTable)
  | .loop | .value | .next => some p
  | .up => some (p.1 + 1, p.2)
  | .down => if p.1 ≤ 1 then none else some (p.1 - 1, p.2)
  | .qup => some (p.1, .gostring)
  | .qdown => some (p.1, .gostruct)
  | .bare | .numbare => some (p.1, .gobare)
  | _ => none

/-- One character inside a bracket. -/
def nestStep (p : ℕ × GoTable) (c : Char) : Option (ℕ × GoTable) :=
  if p.2.action c = .unbare then nestAct (p.1, .gostruct) (gostruct c)
  else nestAct p (p.2.action c)

/-- The characters of a text inside a bracket, one after the other. -/
def nest (w : List Char) (p : ℕ × GoTable) : Option (ℕ × GoTable) := w.foldlM nestStep p

@[simp] lemma nest_cons (c : Char) (w : List Char) (p : ℕ × GoTable) :
    nest (c :: w) p = (nestStep p c).bind (nest w) := rfl

lemma nest_append (v w : List Char) (p : ℕ × GoTable) :
    nest (v ++ w) p = (nest v p).bind (nest w) := by
  rw [nest, foldlM_append]
  rfl

/-- A bracket around the text only adds to the depth. -/
lemma nestAct_add {a : ConfigAction} (h : nestAct p a = some q) (n : ℕ) :
    nestAct (p.1 + n, p.2) a = some (q.1 + n, q.2) := by
  cases a with
  | down =>
    obtain ⟨hd, h⟩ := ite_none_left_eq_some.mp h
    cases h
    rw [nestAct, if_neg (by dsimp only; omega)]
    simp only [some.injEq, Prod.mk.injEq, and_true]
    omega
  | up =>
    cases h
    simp only [nestAct, some.injEq, Prod.mk.injEq, and_true]
    omega
  | loop | value | next | qup | qdown | bare | numbare =>
    cases h
    rfl
  | bad | esc | unesc | unbare | utf8 | utfContinue => cases h

lemma nestStep_add {c : Char} (h : nestStep p c = some q) (n : ℕ) :
    nestStep (p.1 + n, p.2) c = some (q.1 + n, q.2) := by
  unfold nestStep at h ⊢
  split_ifs at h ⊢
  · exact nestAct_add h n
  · exact nestAct_add h n

lemma nest_add {w : List Char} (h : nest w p = some q) (n : ℕ) :
    nest w (p.1 + n, p.2) = some (q.1 + n, q.2) := by
  induction w generalizing p with
  | nil =>
    cases h
    rfl
  | cons c w ih =>
    obtain ⟨p', hp', h⟩ := bind_eq_some_iff.mp h
    rw [nest_cons, nestStep_add hp' n]
    exact ih h

lemma one_le_of_nestAct {a : ConfigAction} (h : nestAct p a = some q) (hp : 1 ≤ p.1) : 1 ≤ q.1 := by
  cases a with
  | down =>
    obtain ⟨hd, h⟩ := ite_none_left_eq_some.mp h
    cases h
    omega
  | loop | value | next | qup | qdown | bare | numbare =>
    cases h
    exact hp
  | up =>
    cases h
    exact Nat.le_add_left 1 p.1
  | bad | esc | unesc | unbare | utf8 | utfContinue => cases h

lemma one_le_of_nestStep {c : Char} (h : nestStep p c = some q) (hp : 1 ≤ p.1) : 1 ≤ q.1 := by
  unfold nestStep at h
  split_ifs at h
  · exact one_le_of_nestAct h hp
  · exact one_le_of_nestAct h hp

namespace ConfigScan

variable {s : ConfigScan} {c : Char} {here rest r w : List Char} {t : ItemType}

lemma push_of_depth_ne (htop : s.top ≠ -1) (hd : s.depth ≠ s.top) : push here t s = .ok s := by
  simp [push, if_neg htop, if_neg hd]

lemma cap_of_depth_ne (hd : s.depth ≠ s.top) : cap here s = s := if_neg hd

/-- The machine inside a bracket does what `nestAct` says and leaves the item alone. -/
lemma act_nested {d : ℕ} {a : ConfigAction} (htop : s.top ≠ -1) (hdepth : s.depth = s.top + d)
    (hd : 1 ≤ d) (h : nestAct (d, s.go) a = some q) :
    act c rest s a = .more { s with depth := s.top + q.1, go := q.2 } := by
  have hne : s.depth ≠ s.top := by omega
  have hpush : ∀ here t, push here t s = .ok s := fun _ _ => push_of_depth_ne htop hne
  have hself : { s with depth := s.top + d } = s := by rw [← hdepth]
  cases a with
  | down =>
    obtain ⟨hd', h⟩ := ite_none_left_eq_some.mp h
    cases h
    rw [act, if_neg htop, cap_of_depth_ne (by dsimp only at hd' ⊢; omega)]
    have : s.depth - 1 = s.top + ((d - 1 : ℕ) : ℤ) := by dsimp only at hd'; omega
    simp [this]
  | up =>
    cases h
    have : s.depth + 1 = s.top + ((d + 1 : ℕ) : ℤ) := by omega
    simp [act, if_neg htop, hpush, this]
  | value =>
    cases h
    rw [act, if_neg hne, hself]
  | next =>
    cases h
    rw [act, if_neg (fun hc => hne hc.1), hself]
  | loop =>
    cases h
    rw [act, hself]
  | qdown =>
    cases h
    rw [act, cap_of_depth_ne hne]
    dsimp only
    rw [hdepth]
  | qup | bare | numbare =>
    cases h
    rw [act, hpush, Outcome.ofPush]
    rw [hdepth]
  | bad | esc | unesc | unbare | utf8 | utfContinue => cases h

lemma step_nested {d : ℕ} (htop : s.top ≠ -1) (hdepth : s.depth = s.top + d) (hd : 1 ≤ d)
    (h : nestStep (d, s.go) c = some q) :
    step c rest s = .more { s with depth := s.top + q.1, go := q.2 } := by
  unfold nestStep at h
  rw [step]
  split_ifs at h ⊢ with hc
  · rw [unbare, cap_of_depth_ne (by omega)]
    exact act_nested (s := { s with go := .gostruct }) htop hdepth hd h
  · exact act_nested htop hdepth hd h

/-- **A text inside a bracket is passed over.** -/
lemma run_nested {d : ℕ} {q : ℕ × GoTable} (htop : s.top ≠ -1) (hdepth : s.depth = s.top + d)
    (hd : 1 ≤ d) (h : nest w (d, s.go) = some q) :
    run (w ++ r) s = run r { s with depth := s.top + q.1, go := q.2 } := by
  induction w generalizing s d with
  | nil =>
    cases h
    rw [nil_append, ← hdepth]
  | cons c w ih =>
    obtain ⟨p, hp, h⟩ := bind_eq_some_iff.mp h
    rw [cons_append, run, step_nested htop hdepth hd hp]
    exact ih htop rfl (one_le_of_nestStep hp hd) h

end ConfigScan

/-! ### Words -/

/-- A word of the grammar. -/
inductive Token
  /-- A bare word, by its first character and the others. -/
  | bare (c : Char) (w : List Char)
  | quoted (w : List Char)
  /-- A bracket, by what opens it, what is in it and what closes it. -/
  | group (o : Char) (w : List Char) (c : Char)
  deriving DecidableEq, Repr

namespace Token

/-- The characters that belong to the item. -/
def text : Token → List Char
  | bare c w => c :: w
  | quoted w => w
  | group o w c => o :: w ++ [c]

/-- The word as it is written. -/
def render : Token → List Char
  | bare c w => c :: w
  | quoted w => '"' :: w ++ ['"']
  | group o w c => o :: w ++ [c]

def type : Token → ItemType
  | bare c _ => if gostruct c = .numbare then .num else .id
  | quoted _ => .string
  | group _ _ _ => .struct

/-- What follows the text of the word if the word is followed by `r`. -/
def behind (r : List Char) : Token → List Char
  | quoted _ => '"' :: r
  | _ => r

/-- The item for a word followed by `r`. -/
def item (t : Token) (r : List Char) (val : ℤ) : ConfigItem :=
  ⟨t.text ++ t.behind r, t.text.length, val, t.type⟩

/-- The tables take the characters as one word. -/
def Ok : Token → Prop
  | bare c w => (gostruct c = .bare ∨ gostruct c = .numbare) ∧ ∀ x ∈ w, gobare x = .loop
  | quoted w => ∀ x ∈ w, gostring x = .loop
  | group o w c => gostruct o = .up ∧ gostruct c = .down ∧
      (nest w (1, .gostruct) = some (1, .gostruct) ∨ nest w (1, .gostruct) = some (1, .gobare))

instance (t : Token) : Decidable t.Ok :=
  match t with
  | bare _ _ => inferInstanceAs (Decidable (_ ∧ _))
  | quoted w => inferInstanceAs (Decidable (∀ x ∈ w, gostring x = .loop))
  | group _ _ _ => inferInstanceAs (Decidable (_ ∧ _ ∧ _))

section

variable (t : Token) (r : List Char) (val : ℤ)

@[simp] lemma item_text : (t.item r val).text = t.text := by
  simp [item, ConfigItem.text]

@[simp] lemma item_len : (t.item r val).len = t.text.length := rfl

@[simp] lemma item_type : (t.item r val).type = t.type := rfl

end

end Token

/-- The text is at its end, or goes on with a character that ends a bare word. -/
def WordEnds : List Char → Prop
  | [] => True
  | c :: _ => gobare c = .unbare

/-- A closing bracket ends a bare word. -/
lemma gobare_of_down {c : Char} (h : gostruct c = .down) : gobare c = .unbare := by
  have hc : c = ')' ∨ c = ']' ∨ c = '}' := by
    by_contra hne
    unfold gostruct at h
    split_ifs at h
  rcases hc with rfl | rfl | rfl <;> rfl

namespace ConfigScan

variable {s : ConfigScan} {c : Char} {here rest r w : List Char} {t : ItemType}

lemma push_of_depth_eq (htop : s.top ≠ -1) (hd : s.depth = s.top) (hlen : s.out.len = 0) :
    push here t s = .ok (s.setOut { s.out with type := t, str := here }) := by
  have hlt : ¬0 < s.out.len := by omega
  simp [push, if_neg htop, if_pos hd, if_neg hlt]

lemma cap_of_depth_eq (hd : s.depth = s.top) :
    cap here s = s.setOut { s.out with len := s.out.str.length - here.length } := if_pos hd

section

variable (s : ConfigScan) (i : ConfigItem)

@[simp] lemma out_setOut : (s.setOut i).out = i := by
  unfold setOut out
  cases s.onValue <;> rfl

@[simp] lemma setOut_setOut (s : ConfigScan) (i j : ConfigItem) :
    (s.setOut i).setOut j = s.setOut j := by
  unfold setOut
  cases s.onValue <;> simp

@[simp] lemma setOut_depth : (s.setOut i).depth = s.depth := by
  unfold setOut
  cases s.onValue <;> rfl

@[simp] lemma setOut_top : (s.setOut i).top = s.top := by
  unfold setOut
  cases s.onValue <;> rfl

@[simp] lemma setOut_go : (s.setOut i).go = s.go := by
  unfold setOut
  cases s.onValue <;> rfl

@[simp] lemma setOut_utf8Remain : (s.setOut i).utf8Remain = s.utf8Remain := by
  unfold setOut
  cases s.onValue <;> rfl

/-- The table in use and the item are set apart. -/
lemma setOut_go_comm (g : GoTable) : { s.setOut i with go := g } = setOut { s with go := g } i := by
  unfold setOut
  cases s.onValue <;> rfl

lemma setOut_depth_comm (d : ℤ) :
    { s.setOut i with depth := d } = setOut { s with depth := d } i := by
  unfold setOut
  cases s.onValue <;> rfl

end

lemma run_more {s' : ConfigScan} (h : step c rest s = .more s') : run
    (c :: rest) s = run rest s' := by
  rw [run, h]

/-- Characters that a table loops over change nothing. -/
lemma run_loop (h : ∀ x ∈ w, s.go.action x = .loop) : run (w ++ r) s = run r s := by
  induction w with
  | nil => rfl
  | cons x w ih =>
    have hx : s.go.action x = .loop := h x (by simp)
    have hstep : step x (w ++ r) s = .more s := by
      rw [step, if_neg (by rw [hx]; decide), hx]
      rfl
    rw [cons_append, run_more hstep]
    exact ih fun y hy => h y (by simp [hy])

lemma gostruct_ne_unbare (c : Char) : gostruct c ≠ .unbare := by
  unfold gostruct
  split_ifs <;> decide

lemma step_gostruct (hgo : s.go = .gostruct) : step c rest s = act c rest s (gostruct c) := by
  rw [step, hgo]
  exact if_neg (gostruct_ne_unbare c)

/-- A bare word is capped by what ends it. -/
lemma run_unbare (hgo : s.go = .gobare) (hr : WordEnds r) : run r s = run r (unbare r s) := by
  cases r with
  | nil =>
    have hne : (unbare [] s).go ≠ .gobare := by
      rw [unbare]
      exact GoTable.noConfusion
    rw [run, run, finish, finish, if_pos hgo, if_neg hne]
  | cons c r =>
    have hc : s.go.action c = .unbare := by
      rw [hgo]
      exact hr
    have hstep : step c r s = step c r (unbare (c :: r) s) := by
      rw [step, if_pos hc, step_gostruct rfl]
    rw [run, run, hstep]

/-- An item that ends in front of `r`. -/
lemma unbare_setOut {i : ConfigItem} (hd : s.depth = s.top) :
    unbare r (s.setOut i) =
      setOut { s with go := .gostruct } { i with len := i.str.length - r.length } := by
  rw [unbare, cap_of_depth_eq (by simpa using hd), out_setOut, setOut_setOut, setOut_go_comm]

/-- The state is between two words, on the level of the items, and the item `out` is empty. -/
structure Ready (s : ConfigScan) : Prop where
  go : s.go = .gostruct
  top : s.top ≠ -1
  depth : s.depth = s.top
  len : s.out.len = 0

section

variable (h : s.Ready)
include h

lemma Ready.push : push here t s = .ok (s.setOut { s.out with type := t, str := here }) :=
  push_of_depth_eq h.top h.depth h.len

/-- The state is put back to the table between words. -/
lemma Ready.setOut_gostruct (i : ConfigItem) :
    setOut { s with go := .gostruct } i = s.setOut i := by
  rw [← h.go]

lemma Ready.run_bare (hok : (Token.bare c w).Ok) (hr : WordEnds r) :
    run (c :: (w ++ r)) s = run r (s.setOut ((Token.bare c w).item r s.out.val)) := by
  obtain ⟨hc, hw⟩ := hok
  let started : ConfigItem :=
    { s.out with type := (Token.bare c w).type, str := c :: (w ++ r) }
  have hitem : { started with len := started.str.length - r.length } =
      (Token.bare c w).item r s.out.val := by
    have hlen : started.str.length - r.length = w.length + 1 := by
      simp only [started, length_cons, length_append]
      omega
    rw [hlen]
    rfl
  have hstep : step c (w ++ r) s = .more (setOut { s with go := .gobare } started) := by
    rw [step_gostruct h.go]
    rcases hc with hc | hc
    all_goals
      rw [hc, act, h.push, Outcome.ofPush, setOut_go_comm]
      simp [started, Token.type, hc]
  rw [run_more hstep, run_loop (by simpa [GoTable.action] using hw), run_unbare (by simp) hr,
    @unbare_setOut { s with go := .gobare } r started h.depth, hitem]
  exact congrArg (run r) (h.setOut_gostruct _)

/-- A quoted string, if the machine comes to the quote at its end. -/
lemma Ready.run_quoted_of (hbody : ∀ i, run (w ++ '"' :: r) (setOut { s with go := .gostring } i) =
      run ('"' :: r) (setOut { s with go := .gostring } i)) :
    run ('"' :: (w ++ '"' :: r)) s = run r (s.setOut ((Token.quoted w).item r s.out.val)) := by
  let started : ConfigItem := { s.out with type := .string, str := w ++ '"' :: r }
  have hitem : { started with len := started.str.length - ('"' :: r).length } =
      (Token.quoted w).item r s.out.val := by
    have hlen : started.str.length - ('"' :: r).length = w.length := by
      simp only [started, length_cons, length_append]
      omega
    rw [hlen]
    rfl
  have hopen : step '"' (w ++ '"' :: r) s = .more (setOut { s with go := .gostring } started) := by
    rw [step_gostruct h.go, show gostruct '"' = .qup from rfl, act, h.push, Outcome.ofPush,
      setOut_go_comm]
  have hclose : step '"' r (setOut { s with go := .gostring } started) =
      .more (s.setOut ((Token.quoted w).item r s.out.val)) := by
    have hact : (setOut { s with go := .gostring } started).go.action '"' = .qdown := by
      rw [setOut_go]
      rfl
    rw [step, hact, if_neg (by decide), act, ← unbare,
      @unbare_setOut { s with go := .gostring } _ started h.depth, hitem]
    exact congrArg Outcome.more (h.setOut_gostruct _)
  rw [run_more hopen, hbody, run_more hclose]

lemma Ready.run_quoted (hok : (Token.quoted w).Ok) :
    run ('"' :: (w ++ '"' :: r)) s = run r (s.setOut ((Token.quoted w).item r s.out.val)) := by
  refine h.run_quoted_of fun i => run_loop fun x hx => ?_
  rw [setOut_go]
  exact hok x hx

section

variable {g : GoTable} (hc : gostruct c = .down) (hg : g = .gostruct ∨ g = .gobare)
include hc hg

/-- A closing bracket that leads back to the items caps the item. -/
lemma Ready.step_close {i : ConfigItem} :
    step c r (setOut { s with depth := s.top + (1 : ℕ), go := g } i) =
      .more (s.setOut { i with len := i.str.length - r.length }) := by
  let inside : ConfigScan := setOut { s with depth := s.top + (1 : ℕ), go := .gostruct } i
  have hstep : step c r (setOut { s with depth := s.top + (1 : ℕ), go := g } i) =
      act c r inside .down := by
    rcases hg with rfl | rfl
    · rw [step_gostruct (setOut_go _ _), hc]
    · have hact : (setOut { s with depth := s.top + (1 : ℕ), go := .gobare } i).go.action c =
          .unbare := by
        rw [setOut_go]
        exact gobare_of_down hc
      have hne : (setOut { s with depth := s.top + (1 : ℕ), go := .gobare } i).depth ≠
          (setOut { s with depth := s.top + (1 : ℕ), go := .gobare } i).top := by
        rw [setOut_depth, setOut_top]
        change s.top + ((1 : ℕ) : ℤ) ≠ s.top
        omega
      rw [step, if_pos hact, hc, unbare, cap_of_depth_ne hne, setOut_go_comm]
  have hdepth : inside.depth - 1 = s.depth := by
    rw [setOut_depth, h.depth]
    simp
  have htop : inside.top ≠ -1 := by
    rw [setOut_top]
    exact h.top
  rw [hstep, act, if_neg htop, hdepth, setOut_depth_comm, cap_of_depth_eq (by simpa using h.depth),
    out_setOut, setOut_setOut]
  exact congrArg Outcome.more (h.setOut_gostruct _)

/-- A bracket, if the machine comes to the end of it. -/
lemma Ready.run_group_of {o : Char} (ho : gostruct o = .up)
    (hbody : ∀ i, run (w ++ c :: r) (setOut { s with depth := s.top + (1 : ℕ) } i) =
      run (c :: r) (setOut { s with depth := s.top + (1 : ℕ), go := g } i)) :
    run (o :: (w ++ c :: r)) s = run r (s.setOut ((Token.group o w c).item r s.out.val)) := by
  let started : ConfigItem := { s.out with type := .struct, str := o :: (w ++ c :: r) }
  have hitem : { started with len := started.str.length - r.length } =
      (Token.group o w c).item r s.out.val := by
    have hlen : started.str.length - r.length = (o :: w ++ [c]).length := by
      simp only [started, length_cons, length_append, length_nil]
      omega
    have hstr : started.str = o :: w ++ [c] ++ r := by simp [started]
    rw [hlen, hstr]
    rfl
  have hopen : step o (w ++ c :: r) s =
      .more (setOut { s with depth := s.top + (1 : ℕ) } started) := by
    rw [step_gostruct h.go, ho, act, if_neg h.top, h.push]
    dsimp only
    rw [setOut_depth_comm, setOut_depth, h.depth]
    rfl
  rw [run_more hopen, hbody, run_more (h.step_close hc hg), hitem]

end

lemma Ready.run_group {o : Char} (hok : (Token.group o w c).Ok) :
    run (o :: (w ++ c :: r)) s = run r (s.setOut ((Token.group o w c).item r s.out.val)) := by
  obtain ⟨ho, hc, hw⟩ := hok
  have hin : ∃ g, (g = .gostruct ∨ g = .gobare) ∧ nest w (1, .gostruct) = some (1, g) := by
    rcases hw with hw | hw
    · exact ⟨_, .inl rfl, hw⟩
    · exact ⟨_, .inr rfl, hw⟩
  obtain ⟨g, hg, hw⟩ := hin
  refine h.run_group_of hc hg ho fun i => ?_
  have htop : (setOut { s with depth := s.top + (1 : ℕ) } i).top = s.top := setOut_top _ _
  refine (@run_nested _ (c :: r) w 1 (1, g) ?_ ?_ (Nat.le_refl 1) ?_).trans (congrArg _ ?_)
  · rw [htop]
    exact h.top
  · rw [setOut_depth, htop]
  · rw [setOut_go]
    exact h.go ▸ hw
  · rw [htop]
    cases s.onValue <;> rfl

/-- **A word is taken as a whole**, whatever follows it. -/
theorem Ready.run_token {tok : Token} (hok : tok.Ok) (hr : WordEnds r) :
    run (tok.render ++ r) s = run r (s.setOut (tok.item r s.out.val)) := by
  cases tok with
  | bare c w => exact h.run_bare hok hr
  | quoted w =>
    have hrender : (Token.quoted w).render ++ r = '"' :: (w ++ '"' :: r) := by
      simp [Token.render]
    rw [hrender]
    exact h.run_quoted hok
  | group o w c =>
    have hrender : (Token.group o w c).render ++ r = o :: (w ++ c :: r) := by
      simp [Token.render]
    rw [hrender]
    exact h.run_group hok

end

end ConfigScan

end WiredTiger
