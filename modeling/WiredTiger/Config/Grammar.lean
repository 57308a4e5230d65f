/-
# The grammar of configuration strings

A configuration string is a list of entries, each a key with an optional value behind `=` or `:`.  A
key is a bare word or a quoted string, a value also a bracket around such a list.  There may be
blanks between words, and commas and blanks between entries.  In the JSON style keys are quoted
and separated from their values by colons.

A text of the grammar inside a bracket is passed over by `__config_next`, and a value on the level
of the items is taken as a whole.
-/
import WiredTiger.Config.Value

namespace WiredTiger

open List Token Int ItemType

/-! ### The grammar -/

/-- A value: an identifier, a number, a string without its quotes but with its escapes, or a
list of keys with their values. -/
inductive CfgValue
  | ident (w : List Char)
  | number (z : ℤ)
  | string (w : List Char)
  | struct (entries : List (List Char × Option CfgValue))

/-- A key and its value, if it has one. -/
abbrev CfgEntry := List Char × Option CfgValue

/-- Blanks. -/
def Blank (b : List Char) : Prop := ∀ c ∈ b, gostruct c = .loop

/-- The text between the quotes of a string. -/
inductive StringBody : List Char → Prop
  | nil : StringBody []
  | plain {c : Char} {w : List Char} (hc : gostring c = .loop) (hw : StringBody w) :
      StringBody (c :: w)
  | escape {c : Char} {w : List Char} (hc : goesc c = .unesc) (hw : StringBody w) :
      StringBody ('\\' :: c :: w)
  /-- A character of several bytes. -/
  | utf8 {c : Char} {cs w : List Char} (hc : gostring c = .utf8 cs.length)
      (hcs : ∀ x ∈ cs, goutf8Continue x = .utfContinue) (hw : StringBody w) :
      StringBody (c :: (cs ++ w))

/-- The text of a key. -/
inductive KeyText : List Char → List Char → Prop
  | bare {c : Char} {w : List Char} (h : (bare c w).Ok) : KeyText (c :: w) (c :: w)
  | quoted {w : List Char} (h : StringBody w) (hne : w ≠ []) : KeyText w ('"' :: (w ++ ['"']))

/-- What there are texts of. -/
inductive CfgPart
  | value (v : CfgValue)
  | entry (e : CfgEntry)
  | entries (es : List CfgEntry)
  /-- The entries behind an entry. -/
  | more (es : List CfgEntry)

/-- The texts of the grammar. -/
inductive CfgText : CfgPart → List Char → Prop
  | ident {c : Char} {w : List Char} (hc : gostruct c = .bare) (hw : ∀ x ∈ w, gobare x = .loop) :
      CfgText (.value (.ident (c :: w))) (c :: w)
  | number {z : ℤ} (hz : clampLong z = z) : CfgText (.value (.number z)) (intText z)
  | string {w : List Char} (hw : StringBody w) :
      CfgText (.value (.string w)) ('"' :: (w ++ ['"']))
  | struct {o c : Char} {es : List CfgEntry} {t : List Char} (ho : gostruct o = .up)
      (hc : gostruct c = .down) (ht : CfgText (.entries es) t) :
      CfgText (.value (.struct es)) (o :: (t ++ [c]))
  | key {k t : List Char} (hk : KeyText k t) : CfgText (.entry (k, none)) t
  | pair {k t b b' t' : List Char} {sep : Char} {v : CfgValue} (hk : KeyText k t) (hb : Blank b)
      (hsep : gostruct sep = .value) (hb' : Blank b') (hv : CfgText (.value v) t') :
      CfgText (.entry (k, some v)) (t ++ (b ++ sep :: (b' ++ t')))
  | empty {g : List Char} (hg : Gap g) : CfgText (.entries []) g
  | first {g t u : List Char} {e : CfgEntry} {es : List CfgEntry} (hg : Gap g)
      (he : CfgText (.entry e) t) (hes : CfgText (.more es) u) :
      CfgText (.entries (e :: es)) (g ++ (t ++ u))
  | last {g : List Char} (hg : Gap g) : CfgText (.more []) g
  | next {g t u : List Char} {e : CfgEntry} {es : List CfgEntry} (hg : Gap g) (hcomma : ',' ∈ g)
      (he : CfgText (.entry e) t) (hes : CfgText (.more es) u) :
      CfgText (.more (e :: es)) (g ++ (t ++ u))

/-! ### What ends a bare word -/

lemma gobare_of_loop {c : Char} (h : gostruct c = .loop) : gobare c = .unbare := by
  have hc : c = '\t' ∨ c = ' ' ∨ c = '\r' ∨ c = '\n' := by
    by_contra hne
    unfold gostruct at h
    split_ifs at h
  rcases hc with rfl | rfl | rfl | rfl <;> rfl

lemma eq_comma_of_next {c : Char} (h : gostruct c = .next) : c = ',' := by
  by_contra hne
  unfold gostruct at h
  split_ifs at h

lemma gobare_of_value {c : Char} (h : gostruct c = .value) : gobare c = .unbare := by
  have hc : c = ':' ∨ c = '=' := by
    by_contra hne
    unfold gostruct at h
    split_ifs at h
  rcases hc with rfl | rfl <;> rfl

lemma Gap.wordEnds_of_ne {g : List Char} (hg : Gap g) (hne : g ≠ []) (r : List Char) :
    WordEnds (g ++ r) := by
  obtain ⟨c, g, rfl⟩ := exists_cons_of_ne_nil hne
  rcases hg c mem_cons_self with hc | hc
  · exact gobare_of_loop hc
  · rw [eq_comma_of_next hc]
    rfl

lemma Gap.wordEnds {g r : List Char} (hg : Gap g) (hr : WordEnds r) : WordEnds (g ++ r) := by
  by_cases hne : g = []
  · rw [hne]
    exact hr
  · exact hg.wordEnds_of_ne hne r

lemma Blank.gap {b : List Char} (hb : Blank b) : Gap b := fun c hc => .inl (hb c hc)

/-- What stands behind an entry ends a word. -/
lemma CfgText.wordEnds_more {es : List CfgEntry} {u r : List Char} (h : CfgText (.more es) u)
    (hr : WordEnds r) : WordEnds (u ++ r) := by
  cases h with
  | last hg => exact hg.wordEnds hr
  | next hg hcomma he hes =>
    rw [append_assoc]
    exact hg.wordEnds_of_ne (ne_nil_of_mem hcomma) _

/-! ### Inside a bracket -/

namespace ConfigScan

variable {s : ConfigScan} {c : Char} {r w t : List Char}

/-- The machine is inside a bracket, between two words. -/
structure Inside (s : ConfigScan) : Prop where
  go : s.go = .gostruct
  top : s.top ≠ -1
  depth : s.top < s.depth
  remain : s.utf8Remain = 0

lemma Inside.push (h : s.Inside) (here : List Char) (t : ItemType) : push here t s = .ok s :=
  push_of_depth_ne h.top (ne_of_gt h.depth)

/-- Put back to the table between words. -/
lemma Inside.gostruct_eq (h : s.Inside) : { s with go := .gostruct } = s := by rw [← h.go]

/-- A word inside a bracket is not capped. -/
lemma Inside.unbare_go (h : s.Inside) (here : List Char) (g : GoTable) :
    unbare here { s with go := g } = s := by
  have hcap : cap here { s with go := g } = { s with go := g } :=
    cap_of_depth_ne (ne_of_gt h.depth)
  rw [unbare, hcap]
  exact h.gostruct_eq

lemma step_of_action {g : GoTable} {a : ConfigAction} (hgo : s.go = g) (ha : g.action c = a)
    (hne : a ≠ .unbare) : step c r s = act c r s a := by
  rw [step, hgo, ha, if_neg hne]

/-- A character of several bytes has at least two. -/
lemma remain_ne_zero {n : ℕ} (h : gostring c = .utf8 n) : n ≠ 0 := by
  rintro rfl
  unfold gostring at h
  split_ifs at h <;> cases h

/-- The bytes behind the first one of a character. -/
lemma run_utf8 {cs : List Char} (hgo : s.go = .goutf8Continue) (hne : cs ≠ [])
    (hremain : s.utf8Remain = cs.length) (hcs : ∀ x ∈ cs, goutf8Continue x = .utfContinue) :
    run (cs ++ r) s = run r { s with go := .gostring, utf8Remain := 0 } := by
  induction cs generalizing s with
  | nil => exact absurd rfl hne
  | cons x cs ih =>
    have hx : goutf8Continue x = .utfContinue := hcs x mem_cons_self
    have hact : step x (cs ++ r) s = act x (cs ++ r) s .utfContinue :=
      step_of_action hgo hx (by decide)
    rw [length_cons] at hremain
    have hleft : s.utf8Remain - 1 = cs.length := by omega
    rw [act, hleft] at hact
    by_cases hlast : cs.length = 0
    · obtain rfl := length_eq_zero_iff.mp hlast
      rw [if_pos hlast] at hact
      exact run_more hact
    · rw [if_neg hlast] at hact
      rw [cons_append, run_more hact]
      exact ih hgo (fun h => hlast (by rw [h]; rfl)) rfl fun y hy => hcs y (by simp [hy])

/-- The text of a string is passed over. -/
lemma run_stringBody (hw : StringBody w) (hgo : s.go = .gostring) (hremain : s.utf8Remain = 0) :
    run (w ++ r) s = run r s := by
  have hself : { s with go := .gostring } = s := by rw [← hgo]
  have hself' : { s with go := .gostring, utf8Remain := 0 } = s := by rw [← hgo, ← hremain]
  induction hw with
  | nil => rfl
  | plain hc hw ih =>
    rename_i c w
    have hloop : step c (w ++ r) s = .more s := step_of_action hgo hc (by decide)
    rw [cons_append, run_more hloop, ih]
  | escape hc hw ih =>
    rename_i c w
    have hesc : step '\\' (c :: (w ++ r)) s = .more { s with go := .goesc } :=
      step_of_action hgo (show gostring '\\' = .esc from rfl) (by decide)
    have hunesc : step c (w ++ r) { s with go := .goesc } = .more { s with go := .gostring } :=
      step_of_action (show _ = GoTable.goesc from rfl) hc (by decide)
    rw [cons_append, cons_append, run_more hesc, run_more hunesc, hself, ih]
  | utf8 hc hcs hw ih =>
    rename_i c cs w
    have hne : cs ≠ [] := fun h => remain_ne_zero hc (by rw [h]; rfl)
    have hlead : step c (cs ++ (w ++ r)) s =
        .more { s with go := .goutf8Continue, utf8Remain := cs.length } :=
      step_of_action hgo hc ConfigAction.noConfusion
    rw [cons_append, append_assoc, run_more hlead, run_utf8 rfl hne rfl hcs]
    exact (congrArg (run (w ++ r)) hself').trans ih

lemma Inside.run_gap (h : s.Inside) (hg : Gap w) : run (w ++ r) s = run r s :=
  WiredTiger.run_gap h.go (.inl (ne_of_gt h.depth)) hg

/-- A bare word is passed over. -/
lemma Inside.run_bare (h : s.Inside) (hok : (bare c w).Ok) (hr : WordEnds r) :
    run (c :: (w ++ r)) s = run r s := by
  obtain ⟨hc, hw⟩ := hok
  have hstep : step c (w ++ r) s = .more { s with go := .gobare } := by
    rw [step_gostruct h.go]
    rcases hc with hc | hc
    all_goals rw [hc, act, h.push, Outcome.ofPush]
  have hloop : run (w ++ r) { s with go := .gobare } = run r { s with go := .gobare } :=
    run_loop hw
  rw [run_more hstep, hloop, run_unbare rfl hr, h.unbare_go]

lemma Inside.run_word (h : s.Inside) (hok : (word w).Ok) (hne : w ≠ []) (hr : WordEnds r) :
    run (w ++ r) s = run r s := by
  obtain ⟨c, w, rfl⟩ := exists_cons_of_ne_nil hne
  exact h.run_bare hok hr

/-- A quoted string is passed over. -/
lemma Inside.run_quoted (h : s.Inside) (hw : StringBody w) :
    run ('"' :: (w ++ '"' :: r)) s = run r s := by
  have hopen : step '"' (w ++ '"' :: r) s = .more { s with go := .gostring } := by
    rw [step_gostruct h.go, show gostruct '"' = .qup from rfl, act, h.push, Outcome.ofPush]
  have hclose : step '"' r { s with go := .gostring } = .more s := by
    have hact : step '"' r { s with go := .gostring } =
        act '"' r { s with go := .gostring } .qdown :=
      step_of_action (show _ = GoTable.gostring from rfl) rfl (by decide)
    rw [hact, act, ← unbare, h.unbare_go]
  have hbody : run (w ++ '"' :: r) { s with go := .gostring } =
      run ('"' :: r) { s with go := .gostring } := run_stringBody hw rfl h.remain
  rw [run_more hopen, hbody, run_more hclose]

lemma Inside.run_key (h : s.Inside) {k : List Char} (hk : KeyText k t) (hr : WordEnds r) :
    run (t ++ r) s = run r s := by
  cases hk with
  | bare hok => exact h.run_bare hok hr
  | quoted hw hne =>
    rw [cons_append, append_assoc]
    exact h.run_quoted hw

/-- **A text of the grammar inside a bracket is passed over.** -/
theorem Inside.run_text {p : CfgPart} (h : s.Inside) (ht : CfgText p t) (hr : WordEnds r) :
    run (t ++ r) s = run r s := by
  induction ht generalizing s r with
  | ident hc hw => exact h.run_bare ⟨.inl hc, hw⟩ hr
  | number hz => exact h.run_word (intText_word_ok _) (intText_ne_nil _) hr
  | string hw =>
    rw [cons_append, append_assoc]
    exact h.run_quoted hw
  | struct ho hc ht ih =>
    rename_i o c es t
    have hopen : step o (t ++ (c :: r)) s = .more { s with depth := s.depth + 1 } := by
      rw [step_gostruct h.go, ho, act, if_neg h.top]
      simp [h.push]
    have hin : Inside { s with depth := s.depth + 1 } :=
      ⟨h.go, h.top, Int.lt_add_one_of_le (Int.le_of_lt h.depth), h.remain⟩
    have hclose : step c r { s with depth := s.depth + 1 } = .more s := by
      have hne : s.depth ≠ s.top := Int.ne_of_gt h.depth
      rw [step_gostruct hin.go, hc, act, if_neg hin.top]
      simp only [Int.add_sub_cancel]
      rw [cap_of_depth_ne hne]
    rw [cons_append, append_assoc, singleton_append, run_more hopen]
    exact (ih hin (show WordEnds (c :: r) from gobare_of_down hc)).trans (run_more hclose)
  | key hk => exact h.run_key hk hr
  | pair hk hb hsep hb' hv ih =>
    rename_i k t b b' t' sep v
    have hvalue : step sep (b' ++ (t' ++ r)) s = .more s := by
      rw [step_gostruct h.go, hsep, act, if_neg (Int.ne_of_gt h.depth)]
    have hends : WordEnds (sep :: (b' ++ (t' ++ r))) := gobare_of_value hsep
    rw [append_assoc, append_assoc, cons_append, append_assoc,
      h.run_key hk (hb.gap.wordEnds hends), h.run_gap hb.gap, run_more hvalue,
      h.run_gap hb'.gap, ih h hr]
  | empty hg | last hg => exact h.run_gap hg
  | first hg he hes ihe ihes | next hg hcomma he hes ihe ihes =>
    rw [append_assoc, append_assoc, h.run_gap hg, ihe h (hes.wordEnds_more hr),
      ihes h hr]

end ConfigScan

/-! ### On the level of the items -/

/-- The item of a value, processed: its characters, its type, and the number or truth value it
stands for.  The characters of a bracket are a text of what is in it. -/
def CfgValue.ReadAs (item : ConfigItem) : CfgValue → Prop
  | .ident w =>
    item.text = w ∧
      if w = "false".toList then item.type = .bool ∧ item.val = 0
      else if w = "true".toList then item.type = .bool ∧ item.val = 1
      else item.type = .id
  | .number z => item.text = intText z ∧ item.type = .num ∧ item.val = z
  | .string w => item.text = w ∧ item.type = .string
  | .struct es => CfgText (.value (.struct es)) item.text ∧ item.type = .struct

lemma readAs_ident {c : Char} {w r : List Char} {val : ℤ} (hc : gostruct c = .bare) :
    CfgValue.ReadAs (configProcessValue ((bare c w).item r val)) (.ident (c :: w)) := by
  have htype : ((bare c w).item r val).type = .id := by
    rw [item_type, type, if_neg (by rw [hc]; decide)]
  have htext : ((bare c w).item r val).text = c :: w := item_text _ _ _
  have hlen : ((bare c w).item r val).len ≠ 0 := Nat.succ_ne_zero _
  unfold configProcessValue CfgValue.ReadAs
  rw [if_neg hlen, htype, htext]
  simp only
  split_ifs
  · exact ⟨htext, rfl, rfl⟩
  · exact ⟨htext, rfl, rfl⟩
  · exact ⟨htext, htype⟩

namespace ConfigScan

variable {s : ConfigScan} {c : Char} {r w t : List Char}

section

variable (h : s.Ready) (hremain : s.utf8Remain = 0)
include h hremain

lemma Ready.run_string (hw : StringBody w) :
    run ('"' :: (w ++ '"' :: r)) s = run r (s.setOut ((quoted w).item r s.out.val)) := by
  refine h.run_quoted_of fun i => run_stringBody hw ?_ ?_
  · rw [setOut_go]
  · rw [setOut_utf8Remain]
    exact hremain

lemma Ready.run_struct {o : Char} {es : List CfgEntry} (ho : gostruct o = .up)
    (hc : gostruct c = .down) (ht : CfgText (.entries es) t) :
    run (o :: (t ++ c :: r)) s = run r (s.setOut ((group o t c).item r s.out.val)) := by
  refine h.run_group_of hc (.inl rfl) ho fun i => ?_
  have hin : Inside (setOut { s with depth := s.top + (1 : ℕ) } i) := by
    refine ⟨?_, ?_, ?_, ?_⟩
    · rw [setOut_go]
      exact h.go
    · rw [setOut_top]
      exact h.top
    · rw [setOut_top, setOut_depth]
      exact Int.lt_succ s.top
    · rw [setOut_utf8Remain]
      exact hremain
  rw [hin.run_text ht (show WordEnds (c :: r) from gobare_of_down hc), ← h.go]

/-- **A value is taken as a whole.** -/
theorem Ready.run_value {v : CfgValue} (ht : CfgText (.value v) t) (hr : WordEnds r) :
    ∃ item, run (t ++ r) s = run r (s.setOut item) ∧ v.ReadAs (configProcessValue item) := by
  cases ht with
  | ident hc hw =>
    rename_i c w
    refine ⟨_, h.run_bare ⟨.inl hc, hw⟩ hr, ?_⟩
    exact readAs_ident hc
  | number hz =>
    rename_i z
    obtain ⟨c, w, htext⟩ := exists_cons_of_ne_nil (intText_ne_nil z)
    have hok := intText_word_ok z
    rw [htext] at hok
    rw [htext]
    refine ⟨_, h.run_bare hok hr, ?_⟩
    have hread := configProcessValue_intText (z := z) (v := s.out.val) hr
    rw [if_pos hz, htext, hz] at hread
    change CfgValue.ReadAs (configProcessValue ((word (c :: w)).item r s.out.val)) _
    rw [hread]
    exact ⟨by rw [htext, ConfigItem.text, take_left], rfl, rfl⟩
  | string hw =>
    rename_i w
    refine ⟨(quoted w).item r s.out.val, ?_, ?_⟩
    · rw [cons_append, append_assoc]
      exact h.run_string hremain hw
    · rw [configProcessValue_of_type (show string ≠ .id ∧ string ≠ .num by decide)]
      exact ⟨item_text _ _ _, rfl⟩
  | struct ho hc ht =>
    rename_i o c es t
    refine ⟨(group o t c).item r s.out.val, ?_, ?_⟩
    · rw [cons_append, append_assoc]
      exact h.run_struct hremain ho hc ht
    · rw [configProcessValue_of_type (show struct ≠ .id ∧ struct ≠ .num by decide)]
      refine ⟨?_, rfl⟩
      rw [item_text]
      exact .struct ho hc ht

end

end ConfigScan

end WiredTiger
