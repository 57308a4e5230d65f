/-
# Configuration strings are read back

A loop around `__wt_config_next` over a text of the grammar gets the keys and values the text was
made of, one after the other, and then `WT_NOTFOUND`: with or without a bracket around the whole
text, in the native and in the JSON style, and with any blanks and commas between the entries.
-/
import WiredTiger.Config.Grammar

namespace WiredTiger

open List Nat CfgText

open ConfigScan

/-- The items that a loop around `__wt_config_next` gets, and what ends the loop. -/
def wtConfigAll (conf : Config) : List (ConfigItem × ConfigItem) × ConfigError :=
  ((configAll conf).1.map fun kv => (kv.1, configProcessValue kv.2), (configAll conf).2)

/-- The items of an entry; a key without a value has the value true. -/
def CfgEntry.ReadAs (kv : ConfigItem × ConfigItem) (e : CfgEntry) : Prop :=
  kv.1.text = e.1 ∧
    match e.2 with
    | none => kv.2 = trueValue
    | some v => v.ReadAs kv.2

/-- A whole string: a list of entries, perhaps with a bracket around it. -/
inductive CfgString : List CfgEntry → List Char → Prop
  | plain {es : List CfgEntry} {t : List Char} (ht : CfgText (.entries es) t) : CfgString es t
  | bracket {es : List CfgEntry} {g t g' : List Char} {o c : Char} (hg : Gap g)
      (ho : gostruct o = .up) (ht : CfgText (.entries es) t) (hc : gostruct c = .down)
      (hg' : Gap g') : CfgString es (g ++ o :: (t ++ c :: g'))

/-! ### Gaps -/

variable {d : ℤ} {key : ConfigItem} {g r t u tail : List Char} {e : CfgEntry} {es : List CfgEntry}

/-- What stands in front of the first comma, and what behind it. -/
lemma Gap.split (hg : Gap g) (hcomma : ',' ∈ g) :
    ∃ b g', g = b ++ ',' :: g' ∧ Blank b ∧ Gap g' := by
  induction g with
  | nil => cases hcomma
  | cons c g ih =>
    have hg' : Gap g := fun x hx => hg x (mem_cons_of_mem c hx)
    rcases hg c mem_cons_self with hc | hc
    · have hne : ',' ≠ c := by
        rintro rfl
        cases hc
      obtain ⟨b, g', rfl, hb, hg''⟩ := ih hg' ((mem_cons.mp hcomma).resolve_left hne)
      refine ⟨c :: b, g', rfl, ?_, hg''⟩
      intro x hx
      rcases mem_cons.mp hx with rfl | hx
      · exact hc
      · exact hb x hx
    · refine ⟨[], g, ?_, ?_, hg'⟩
      · rw [eq_comma_of_next hc, nil_append]
      · intro x hx
        cases hx

lemma Gap.blank (hg : Gap g) (hcomma : ',' ∉ g) : Blank g := by
  intro c hc
  rcases hg c hc with h | h
  · exact h
  · exact absurd (eq_comma_of_next h ▸ hc) hcomma

lemma run_blank {s : ConfigScan} {b : List Char} (hgo : s.go = .gostruct) (hb : Blank b) :
    run (b ++ r) s = run r s := by
  refine run_loop fun x hx => ?_
  rw [hgo]
  exact hb x hx

/-! ### One entry -/

section

variable (hd : d ≠ -1) (key : ConfigItem)
include hd

lemma run_keyText {k : List Char} (hk : KeyText k t) (hr : WordEnds r) :
    ∃ item, run (t ++ r) (entryStart d key) = run r (behindEntry d (item, trueValue) false) ∧
      item.text = k ∧ 0 < item.len := by
  have hready : (entryStart d key).Ready := ⟨rfl, hd, rfl, rfl⟩
  cases hk with
  | bare hok =>
    rename_i c w
    exact ⟨_, hready.run_bare hok hr, Token.item_text _ _ _, succ_pos _⟩
  | quoted hw hne =>
    refine ⟨(Token.quoted k).item r (entryStart d key).out.val, ?_, Token.item_text _ _ _,
      length_pos_of_ne_nil hne⟩
    rw [cons_append, append_assoc]
    exact hready.run_string rfl hw

/-- **An entry is read whole.** -/
lemma run_entryText (he : CfgText (.entry e) t) (hr : WordEnds r) :
    ∃ kv onValue, run (t ++ r) (entryStart d key) = run r (behindEntry d kv onValue) ∧
      0 < kv.1.len ∧ e.ReadAs (kv.1, configProcessValue kv.2) := by
  cases he with
  | key hk =>
    obtain ⟨item, hrun, htext, hlen⟩ := run_keyText hd key hk hr
    exact ⟨_, _, hrun, hlen, htext, rfl⟩
  | pair hk hb hsep hb' hv =>
    rename_i k t b b' t' sep v
    have hends : WordEnds (b ++ sep :: (b' ++ (t' ++ r))) :=
      hb.gap.wordEnds (show WordEnds (sep :: (b' ++ (t' ++ r))) from gobare_of_value hsep)
    obtain ⟨item, hrun, htext, hlen⟩ := run_keyText hd key hk hends
    have hstep : step sep (b' ++ (t' ++ r)) (behindEntry d (item, trueValue) false) =
        .more (behindEntry d (item, trueValue) true) := by
      rw [step_gostruct rfl, hsep]
      exact act_value rfl rfl
    have hready : (behindEntry d (item, trueValue) true).Ready := ⟨rfl, hd, rfl, rfl⟩
    obtain ⟨value, hvalue, hread⟩ := hready.run_value rfl hv hr
    refine ⟨(item, value), true, ?_, hlen, htext, hread⟩
    rw [append_assoc, append_assoc, cons_append, append_assoc, hrun,
      run_blank rfl hb, run_more hstep, run_blank rfl hb', hvalue]
    rfl

/-! ### What is behind an entry -/

/-- An entry with a comma behind it. -/
lemma configNext_before_comma (hg : Gap g) (he : CfgText (.entry e) t) (hu : Gap u)
    (hcomma : ',' ∈ u) (r : List Char) :
    ∃ kv g', configNext ⟨g ++ (t ++ (u ++ r)), d, d, .gostruct⟩ key =
        .ok (⟨g' ++ r, d, d, .gostruct⟩, kv) ∧
      Gap g' ∧ e.ReadAs (kv.1, configProcessValue kv.2) := by
  obtain ⟨b, g', rfl, hb, hg'⟩ := hu.split hcomma
  have hends : WordEnds (b ++ ',' :: (g' ++ r)) :=
    hb.gap.wordEnds (show WordEnds (',' :: _) from rfl)
  obtain ⟨kv, onValue, hrun, hlen, hread⟩ := run_entryText hd key he hends
  refine ⟨kv, g', configNext_of_comma (b := onValue) hlen ?_, hg', hread⟩
  rw [append_assoc, cons_append, run_gap rfl (.inr rfl) hg, hrun, run_blank rfl hb]

end

/-- An entry with only blanks behind it. -/
lemma StringEnd.configNext_before_end {b : List Char} (h : StringEnd d tail) (key : ConfigItem)
    (hg : Gap g) (he : CfgText (.entry e) t) (hb : Blank b) :
    ∃ kv, configNext ⟨g ++ (t ++ (b ++ tail)), d, d, .gostruct⟩ key =
        .ok (⟨[], 0, d, .gostruct⟩, kv) ∧ e.ReadAs (kv.1, configProcessValue kv.2) := by
  obtain ⟨kv, onValue, hrun, hlen, hread⟩ := run_entryText h.ne key he (hb.gap.wordEnds h.wordEnds)
  refine ⟨kv, h.configNext_of_end (b := onValue) hlen ?_, hread⟩
  rw [run_gap rfl (.inr rfl) hg, hrun, run_blank rfl hb]

/-! ### All entries -/

/-- The items read from `es`, before they are processed. -/
def ReadsAll (items : List (ConfigItem × ConfigItem)) (es : List CfgEntry) : Prop :=
  List.Forall₂ (fun kv e => CfgEntry.ReadAs kv e)
    (items.map fun kv => (kv.1, configProcessValue kv.2)) es

/-- The items from an entry on. -/
lemma configItems_entry {fuel : ℕ} (htail : StringEnd d tail) (key : ConfigItem) (hg : Gap g)
    (he : CfgText (.entry e) t) (hes : CfgText (.more es) u) (hfuel : es.length + 1 < fuel) :
    ∃ items, configItems fuel ⟨g ++ (t ++ (u ++ tail)), d, d, .gostruct⟩ key = (items, .notFound) ∧
      ReadsAll items (e :: es) := by
  obtain ⟨fuel, rfl⟩ := exists_eq_add_one_of_ne_zero (ne_zero_of_lt hfuel)
  induction es generalizing fuel key g t u e with
  | nil =>
    cases hes with
    | last hu =>
      by_cases hcomma : ',' ∈ u
      · obtain ⟨kv, g', hnext, hg', hread⟩ :=
          configNext_before_comma htail.ne key hg he hu hcomma tail
        obtain ⟨fuel, rfl⟩ :=
          exists_eq_add_one_of_ne_zero (show fuel ≠ 0 by simp at hfuel; omega)
        refine ⟨[kv], ?_, .cons hread .nil⟩
        rw [configItems, hnext]
        simp [configItems, htail.configNext_gap hg']
      · obtain ⟨kv, hnext, hread⟩ := htail.configNext_before_end key hg he (hu.blank hcomma)
        refine ⟨[kv], ?_, .cons hread .nil⟩
        rw [configItems, hnext]
        simp [configItems_nil]
  | cons e' es ih =>
    cases hes with
    | next hu hcomma he' hes' =>
      rename_i u' t' u''
      rw [append_assoc u', append_assoc t']
      obtain ⟨kv, g', hnext, hg', hread⟩ :=
        configNext_before_comma htail.ne key hg he hu hcomma (t' ++ (u'' ++ tail))
      rw [length_cons] at hfuel
      obtain ⟨fuel, rfl⟩ := exists_eq_add_one_of_ne_zero (show fuel ≠ 0 by omega)
      obtain ⟨items, hitems, hreads⟩ := ih kv.1 hg' he' hes' fuel (by omega)
      refine ⟨kv :: items, ?_, .cons hread hreads⟩
      rw [configItems, hnext]
      simp [hitems]

lemma CfgText.length_more (h : CfgText (.more es) u) : es.length ≤ u.length := by
  induction es generalizing u with
  | nil => exact zero_le _
  | cons e es ih =>
    cases h with
    | next hg hcomma he hes =>
      have hpos := length_pos_of_mem hcomma
      have hle := ih hes
      simp only [length_cons, length_append]
      omega

/-- The first character of an entry starts a word. -/
lemma CfgText.entry_head (h : CfgText (.entry e) t) :
    ∃ c w, t = c :: w ∧ (gostruct c = .bare ∨ gostruct c = .numbare ∨ gostruct c = .qup) := by
  have hkey : ∀ {k t : List Char}, KeyText k t →
      ∃ c w, t = c :: w ∧ (gostruct c = .bare ∨ gostruct c = .numbare ∨ gostruct c = .qup) := by
    intro k t hk
    cases hk with
    | bare hok => exact ⟨_, _, rfl, hok.1.imp_right .inl⟩
    | quoted hw hne => exact ⟨_, _, rfl, .inr (.inr rfl)⟩
  cases h with
  | key hk => exact hkey hk
  | pair hk hb hsep hb' hv =>
    obtain ⟨c, w, rfl, hc⟩ := hkey hk
    exact ⟨c, _, rfl, hc⟩

/-- The items of a list of entries. -/
lemma configItems_text {fuel : ℕ} (htail : StringEnd d tail) (key : ConfigItem)
    (ht : CfgText (.entries es) t) (hfuel : t.length < fuel) :
    ∃ items, configItems fuel ⟨t ++ tail, d, d, .gostruct⟩ key = (items, .notFound) ∧
      ReadsAll items es := by
  cases ht with
  | empty hg =>
    obtain ⟨fuel, rfl⟩ := exists_eq_add_one_of_ne_zero (ne_zero_of_lt hfuel)
    refine ⟨[], ?_, .nil⟩
    rw [configItems, htail.configNext_gap hg]
  | first hg he hes =>
    have hlen := hes.length_more
    obtain ⟨c, w, rfl, -⟩ := he.entry_head
    simp only [length_append, length_cons] at hfuel
    rw [append_assoc, append_assoc]
    exact configItems_entry htail key hg he hes (by omega)

/-! ### Whole strings -/

/-- Blanks and commas in front of everything else. -/
lemma configNext_init_gap (hg : Gap g) (key : ConfigItem) :
    configNext (configInit (g ++ r)) key = configNext (configInit r) key := by
  have hrun := @run_gap g r ⟨0, -1, .gostruct, 0, { key with len := 0 }, trueValue, false⟩ rfl
    (.inr rfl) hg
  simp [configNext, configInit, hrun]

/-- The items depend on the handle only through the first of them. -/
lemma configItems_congr {conf conf' : Config}
    (h : ∀ key, configNext conf key = configNext conf' key)
    (fuel : ℕ) (key : ConfigItem) : configItems fuel conf key = configItems fuel conf' key := by
  cases fuel with
  | zero => rfl
  | succ fuel => rw [configItems, configItems, h]

lemma configItems_plain {fuel : ℕ} (key : ConfigItem) (ht : CfgText (.entries es) t)
    (hfuel : t.length < fuel) :
    ∃ items, configItems fuel (configInit t) key = (items, .notFound) ∧ ReadsAll items es := by
  cases ht with
  | empty hg =>
    obtain ⟨fuel, rfl⟩ := exists_eq_add_one_of_ne_zero (ne_zero_of_lt hfuel)
    refine ⟨[], ?_, .nil⟩
    have hnext : configNext (configInit t) key = .error .notFound := by
      rw [← append_nil t, configNext_init_gap hg]
      rfl
    rw [configItems, hnext]
  | first hg he hes =>
    rename_i g t u e es
    have hlen : (t ++ u).length < fuel := by
      simp only [length_append] at hfuel ⊢
      omega
    obtain ⟨c, w, rfl, hc⟩ := he.entry_head
    have hcongr : ∀ key, configNext (configInit (g ++ (c :: w ++ u))) key =
        configNext ⟨c :: w ++ u, 0, 0, .gostruct⟩ key := by
      intro key
      rw [configNext_init_gap hg]
      exact configNext_init_word hc key
    rw [configItems_congr hcongr]
    have hall := @configItems_text 0 (c :: w ++ u) [] (e :: es) fuel .string key
      (.first (g := []) (fun x hx => by cases hx) he hes) hlen
    rwa [append_nil] at hall

/-- **Configuration strings are read back.** -/
theorem wtConfigAll_string {t : List Char} {es : List CfgEntry} (h : CfgString es t) :
    ∃ items, wtConfigAll (configInit t) = (items, .notFound) ∧
      List.Forall₂ (fun kv e => CfgEntry.ReadAs kv e) items es := by
  have hread : ∃ items, configAll (configInit t) = (items, .notFound) ∧ ReadsAll items es := by
    cases h with
    | plain ht => exact configItems_plain noItem ht (lt_succ_self _)
    | bracket hg ho ht hc hg' =>
      rename_i g t g' o c
      have hcongr : ∀ key, configNext (configInit (g ++ o :: (t ++ c :: g'))) key =
          configNext ⟨t ++ c :: g', 1, 1, .gostruct⟩ key := by
        intro key
        rw [configNext_init_gap hg]
        exact configNext_open ho
      rw [configAll, configItems_congr hcongr]
      refine configItems_text (.bracket hc hg') noItem ht ?_
      simp only [configInit, length_append, length_cons]
      omega
  obtain ⟨items, hall, hreads⟩ := hread
  refine ⟨items.map fun kv : ConfigItem × ConfigItem => (kv.1, configProcessValue kv.2), ?_, hreads⟩
  rw [wtConfigAll, hall]

/-- A string in a bracket, with a number in the native style, a list in the JSON style, and a comma
at the end. -/
theorem wtConfigAll_string_two :
    ∃ items, wtConfigAll (configInit "(a=-5, \"b\" : [c],)".toList) = (items, .notFound) ∧
      List.Forall₂ (fun kv e => CfgEntry.ReadAs kv e) items
        [("a".toList, some (.number (-5))),
          ("b".toList, some (.struct [("c".toList, none)]))] := by
  have hgap : ∀ g ∈ ["".toList, " ".toList, ", ".toList, ",".toList],
      ∀ x ∈ g, gostruct x = .loop ∨ gostruct x = .next := by decide
  have hblank : ∀ b ∈ ["".toList, " ".toList], ∀ x ∈ b, gostruct x = .loop := by decide
  have hlist : CfgText (.value (.struct [("c".toList, none)])) "[c]".toList :=
    @struct '[' ']' _ "c".toList rfl rfl
      (@first [] "c".toList [] _ _ (hgap [] (by decide))
        (.key (.bare ⟨.inl rfl, by decide⟩)) (.last (hgap [] (by decide))))
  have ha : CfgText (.entry ("a".toList, some (.number (-5)))) "a=-5".toList :=
    @pair _ "a".toList [] [] "-5".toList '=' _ (.bare ⟨.inl rfl, by decide⟩)
      (hblank [] (by decide)) rfl (hblank [] (by decide)) (@number (-5) rfl)
  have hb : CfgText (.entry ("b".toList, some (.struct [("c".toList, none)])))
      "\"b\" : [c]".toList :=
    @pair _ "\"b\"".toList " ".toList " ".toList "[c]".toList ':' _
      (@KeyText.quoted "b".toList (.plain rfl .nil) (by decide)) (hblank _ (by decide)) rfl
      (hblank _ (by decide)) hlist
  have hall : CfgText (.entries [("a".toList, some (.number (-5))),
      ("b".toList, some (.struct [("c".toList, none)]))]) "a=-5, \"b\" : [c],".toList :=
    @first [] "a=-5".toList ", \"b\" : [c],".toList _ _ (hgap [] (by decide)) ha
      (@next ", ".toList "\"b\" : [c]".toList ",".toList _ _ (hgap _ (by decide))
        (by decide) hb (.last (hgap _ (by decide))))
  exact wtConfigAll_string (@CfgString.bracket _ [] "a=-5, \"b\" : [c],".toList [] '(' ')'
    (hgap [] (by decide)) rfl hall rfl (hgap [] (by decide)))

end WiredTiger
