/-
# Lists of configuration items

A list of entries, each a key and perhaps a value, with commas between them, is read back entry by
entry by a loop around `__config_next`, at the top of a string as well as in a bracket; and a
bracket around such a list is a word again.
-/
import WiredTiger.Config.Token

namespace WiredTiger

open List ConfigScan Token

variable {s : ConfigScan}

/-- A key, and the value behind a `=`. -/
structure ConfigEntry where
  key : Token
  value : Option Token
  deriving DecidableEq, Repr

namespace ConfigEntry

def valueText (e : ConfigEntry) : List Char :=
  match e.value with
  | none => []
  | some v => '=' :: v.render

def render (e : ConfigEntry) : List Char := e.key.render ++ e.valueText

/-- The item for the value, if the entry is followed by `r`. -/
def valueItem (e : ConfigEntry) (r : List Char) : ConfigItem :=
  match e.value with
  | none => trueValue
  | some v => v.item r 1

structure Ok (e : ConfigEntry) : Prop where
  key : e.key.Ok
  key_ne : e.key.text ≠ []
  value : ∀ v ∈ e.value, v.Ok

lemma wordEnds_valueText (e : ConfigEntry) {r : List Char} (hr : WordEnds r) :
    WordEnds (e.valueText ++ r) := by
  unfold valueText
  cases e.value with
  | none => exact hr
  | some v => exact show gobare '=' = .unbare by decide

end ConfigEntry

/-- Further entries, each behind a comma, in front of `tail`. -/
def moreEntries : List ConfigEntry → List Char → List Char
  | [], tail => tail
  | e :: es, tail => ',' :: (e.render ++ moreEntries es tail)

/-- Entries in front of `tail`. -/
def entriesText : List ConfigEntry → List Char → List Char
  | [], tail => tail
  | e :: es, tail => e.render ++ moreEntries es tail

/-- The items of the entries. -/
def entryItems (kval : ℤ) : List ConfigEntry → List Char → List (ConfigItem × ConfigItem)
  | [], _ => []
  | e :: es, tail =>
    (e.key.item (e.valueText ++ moreEntries es tail) kval, e.valueItem (moreEntries es tail)) ::
      entryItems kval es tail

section

variable (es : List ConfigEntry)

lemma moreEntries_append (v w : List Char) : moreEntries es (v ++ w) = moreEntries es v ++ w := by
  induction es with
  | nil => rfl
  | cons e es ih => simp [moreEntries, ih]

lemma entriesText_append (v w : List Char) : entriesText es (v ++ w) = entriesText es v ++ w := by
  cases es with
  | nil => rfl
  | cons e es => simp [entriesText, moreEntries_append]

lemma length_le_moreEntries (tail : List Char) : es.length ≤ (moreEntries es tail).length := by
  induction es with
  | nil => simp
  | cons e es ih =>
    simp only [moreEntries, length_cons, length_append]
    omega

lemma length_le_entriesText (tail : List Char) : es.length ≤ (entriesText es tail).length + 1 := by
  cases es with
  | nil => simp
  | cons e es =>
    have := length_le_moreEntries es tail
    simp only [entriesText, length_cons, length_append]
    omega

end

/-! ### One entry -/

/-- `__config_next` at the start of an entry, on the level `d` of the items. -/
def entryStart (d : ℤ) (key : ConfigItem) : ConfigScan :=
  ⟨d, d, .gostruct, 0, { key with len := 0 }, trueValue, false⟩

/-- `__config_next` behind an entry. -/
def behindEntry (d : ℤ) (kv : ConfigItem × ConfigItem) (onValue : Bool) : ConfigScan :=
  ⟨d, d, .gostruct, 0, kv.1, kv.2, onValue⟩

/-- Blanks and commas. -/
def Gap (g : List Char) : Prop := ∀ c ∈ g, gostruct c = .loop ∨ gostruct c = .next

section

open ConfigScan

variable {d : ℤ} {e : ConfigEntry} {es : List ConfigEntry} {key : ConfigItem}
  {kv : ConfigItem × ConfigItem} {g r t tail : List Char} {c : Char} {b : Bool}

/-- A `=` behind a key starts the value. -/
lemma act_value (hdepth : s.depth = s.top) (hkey : s.onValue = false) :
    act c r s .value = .more { s with onValue := true } := by
  have hno : ¬(s.onValue = true ∧ c ≠ ':') := fun h => by simp [hkey] at h
  rw [act, if_pos hdepth, if_neg hno]

/-- A closing bracket on the level of the items leaves the item alone. -/
lemma act_down (htop : s.top ≠ -1) (hdepth : s.depth = s.top) :
    act c r s .down = .more { s with depth := s.depth - 1 } := by
  rw [act, if_neg htop, cap_of_depth_ne]
  change s.depth - 1 ≠ s.top
  omega

lemma finish_of_key (hgo : s.go = .gostruct) (hdepth : s.depth ≤ s.top) (hkey : 0 < s.key.len) :
    finish s = .ok ([], s) := by
  have hne : s.go ≠ .gobare := by simp [hgo]
  simp [finish, if_neg hne, if_pos (And.intro hdepth hkey)]

lemma finish_of_no_key (hgo : s.go = .gostruct) (hdepth : s.depth = 0) (hkey : s.key.len = 0) :
    finish s = .error .notFound := by
  have hne : s.go ≠ .gobare := by simp [hgo]
  have hno : ¬(s.depth ≤ s.top ∧ 0 < s.key.len) := fun h => by omega
  simp [finish, if_neg hne, if_neg hno, if_pos hdepth]

/-- **An entry is read whole.** -/
lemma run_entry (key : ConfigItem) (hd : d ≠ -1) (he : e.Ok) (hr : WordEnds r) :
    run (e.render ++ r) (entryStart d key) = run r
      (behindEntry d (e.key.item (e.valueText ++ r) key.val, e.valueItem r) e.value.isSome) := by
  have hkey : (entryStart d key).Ready := ⟨rfl, hd, rfl, rfl⟩
  rw [ConfigEntry.render, append_assoc,
    hkey.run_token he.key (e.wordEnds_valueText hr)]
  have hset : ∀ i, (entryStart d key).setOut i = { entryStart d key with key := i } := fun _ => rfl
  rw [hset, behindEntry, ConfigEntry.valueItem]
  cases hv : e.value with
  | none =>
    simp only [ConfigEntry.valueText, hv, nil_append]
    rfl
  | some v =>
    have hvt : e.valueText = '=' :: v.render := by simp only [ConfigEntry.valueText, hv]
    let s : ConfigScan :=
      ⟨d, d, .gostruct, 0, e.key.item (e.valueText ++ r) key.val, trueValue, true⟩
    have hs : s.Ready := ⟨rfl, hd, rfl, rfl⟩
    have heq : step '=' (v.render ++ r) { entryStart d key with
        key := e.key.item (e.valueText ++ r) (entryStart d key).out.val } = .more s := by
      rw [step_gostruct rfl, show gostruct '=' = .value from rfl]
      exact act_value rfl rfl
    have hvalue := hs.run_token (he.value v (by rw [hv]; rfl)) hr
    have hcons : e.valueText ++ r = '=' :: (v.render ++ r) := by rw [hvt, cons_append]
    rw [← run_more heq, ← hcons] at hvalue
    exact hvalue

/-- As long as there is no key, blanks and commas are passed over, and so they are outside of the
items. -/
lemma run_gap {s : ConfigScan} (hgo : s.go = .gostruct) (hno : s.depth ≠ s.top ∨ s.key.len = 0)
    (hg : Gap g) : run (g ++ r) s = run r s := by
  induction g with
  | nil => rfl
  | cons c g ih =>
    have hstep : step c (g ++ r) s = .more s := by
      rw [step_gostruct hgo]
      rcases hg c mem_cons_self with hc | hc
      · rw [hc, act]
      · rw [hc, act, if_neg]
        rintro ⟨hd, hlen⟩
        rcases hno with h | h
        · exact h hd
        · omega
    rw [cons_append, run_more hstep]
    exact ih fun x hx => hg x (mem_cons_of_mem c hx)

/-- What ends the entries: the string, or the bracket around them with what may follow it. -/
inductive StringEnd : ℤ → List Char → Prop
  | string : StringEnd 0 []
  | bracket {c : Char} {g : List Char} (hc : gostruct c = .down) (hg : Gap g) : StringEnd 1 (c :: g)

section

variable (h : StringEnd d tail)
include h

lemma StringEnd.ne : d ≠ -1 := by
  cases h <;> decide

lemma StringEnd.wordEnds : WordEnds tail := by
  cases h with
  | string => trivial
  | bracket hc hg => exact gobare_of_down hc

/-- The machine runs to the end of the string, without changing the item. -/
lemma StringEnd.run (hgo : s.go = .gostruct) (hdepth : s.depth = d) (htop : s.top = d) :
    run tail s = finish { s with depth := 0 } := by
  cases h with
  | string => rw [run, ← hdepth]
  | bracket hc hg =>
    rename_i c g
    have hstep : step c g s = .more { s with depth := 0 } := by
      rw [step_gostruct hgo, hc, act_down (by rw [htop]; decide) (hdepth.trans htop.symm), hdepth]
      rfl
    have hgap : run (g ++ []) { s with depth := 0 } =
        run [] { s with depth := 0 } :=
      run_gap hgo (.inl (show (0 : ℤ) ≠ s.top by rw [htop]; decide)) hg
    rw [append_nil] at hgap
    rw [run_more hstep, hgap, run]

omit h in
lemma configNext_of_run (h : run t (entryStart d key) = .ok (r, s)) :
    configNext ⟨t, d, d, .gostruct⟩ key = .ok (⟨r, s.depth, s.top, s.go⟩, s.key, s.value) := by
  rw [configNext]
  change Except.map _ (run t (entryStart d key)) = _
  rw [h]
  rfl

/-- There is no further entry. -/
lemma StringEnd.configNext_gap (hg : Gap g) :
    configNext ⟨g ++ tail, d, d, .gostruct⟩ key = .error .notFound := by
  rw [configNext]
  rw [run_gap rfl (.inr rfl) hg, h.run rfl rfl rfl, finish_of_no_key rfl rfl rfl]
  rfl

omit h in
/-- There is a comma behind an entry. -/
lemma configNext_of_comma (hlen : 0 < kv.1.len)
    (hrun : run t (entryStart d key) = run (',' :: r) (behindEntry d kv b)) :
    configNext ⟨t, d, d, .gostruct⟩ key = .ok (⟨r, d, d, .gostruct⟩, kv) := by
  have hstep : step ',' r (behindEntry d kv b) = .done (behindEntry d kv b) := by
    rw [step_gostruct rfl, show gostruct ',' = .next from rfl, act, if_pos ⟨rfl, hlen⟩]
  rw [run, hstep] at hrun
  exact configNext_of_run hrun

/-- There is nothing behind an entry. -/
lemma StringEnd.configNext_of_end (hlen : 0 < kv.1.len)
    (hrun : ConfigScan.run t (entryStart d key) = ConfigScan.run tail (behindEntry d kv b)) :
    configNext ⟨t, d, d, .gostruct⟩ key = .ok (⟨[], 0, d, .gostruct⟩, kv) := by
  have hdepth : (0 : ℤ) ≤ d := by cases h <;> decide
  rw [h.run rfl rfl rfl, finish_of_key rfl hdepth hlen] at hrun
  exact configNext_of_run hrun

omit h in
lemma configNext_comma (hd : d ≠ -1) (he : e.Ok) :
    configNext ⟨e.render ++ ',' :: r, d, d, .gostruct⟩ key =
      .ok (⟨r, d, d, .gostruct⟩, e.key.item (e.valueText ++ ',' :: r) key.val,
        e.valueItem (',' :: r)) :=
  configNext_of_comma (length_pos_of_ne_nil he.key_ne)
    (run_entry key hd he (show WordEnds (',' :: r) from rfl))

/-! ### All entries -/

omit h in
/-- There is nothing behind the last entry. -/
lemma configNext_nil : configNext ⟨[], 0, d, .gostruct⟩ key = .error .notFound := by
  rw [configNext]
  change Except.map _ (finish _) = _
  rw [finish_of_no_key rfl rfl rfl]
  rfl

lemma StringEnd.configNext_tail : configNext ⟨tail, d, d, .gostruct⟩ key = .error .notFound :=
  h.configNext_gap (g := []) nofun

/-- The last entry, and what is left of the string. -/
lemma StringEnd.configNext_last (he : e.Ok) :
    configNext ⟨e.render ++ tail, d, d, .gostruct⟩ key =
      .ok (⟨[], 0, d, .gostruct⟩, e.key.item (e.valueText ++ tail) key.val, e.valueItem tail) :=
  h.configNext_of_end (length_pos_of_ne_nil he.key_ne) (run_entry key h.ne he h.wordEnds)

end

lemma configItems_nil {fuel : ℕ} :
    configItems fuel ⟨[], 0, d, .gostruct⟩ key = ([], .notFound) := by
  cases fuel with
  | zero => rfl
  | succ fuel => rw [configItems, configNext_nil]

/-- **A list of entries is read back entry by entry.** -/
theorem configItems_entries {fuel : ℕ} (key : ConfigItem) (htail : StringEnd d tail)
    (hes : ∀ e ∈ es, e.Ok)
    (hfuel : es.length < fuel) :
    configItems fuel ⟨entriesText es tail, d, d, .gostruct⟩ key =
      (entryItems key.val es tail, .notFound) := by
  induction es generalizing fuel key with
  | nil =>
    obtain ⟨fuel, rfl⟩ := Nat.exists_eq_add_one_of_ne_zero (Nat.ne_of_gt hfuel)
    rw [configItems, entriesText, htail.configNext_tail]
    rfl
  | cons e es ih =>
    obtain ⟨fuel, rfl⟩ := Nat.exists_eq_add_one_of_ne_zero (Nat.ne_zero_of_lt hfuel)
    have he : e.Ok := hes e (by simp)
    cases es with
    | nil =>
      rw [configItems, entriesText, moreEntries, htail.configNext_last he]
      simp only [configItems_nil]
      rfl
    | cons e' es =>
      let k := e.key.item (e.valueText ++ moreEntries (e' :: es) tail) key.val
      have hrest : configItems fuel ⟨entriesText (e' :: es) tail, d, d, .gostruct⟩ k =
          (entryItems k.val (e' :: es) tail, .notFound) :=
        ih k (fun x hx => hes x (by simp [hx])) (Nat.lt_of_succ_lt_succ hfuel)
      have hfirst : configNext ⟨entriesText (e :: e' :: es) tail, d, d, .gostruct⟩ key =
          .ok (⟨entriesText (e' :: es) tail, d, d, .gostruct⟩, k,
            e.valueItem (moreEntries (e' :: es) tail)) := configNext_comma htail.ne he
      rw [configItems, hfirst]
      simp only [hrest]
      rfl

/-! ### Lists as words -/

/-- The state behind a word inside a bracket. -/
def BehindWord (d : ℕ) (q : Option (ℕ × GoTable)) : Prop :=
  q = some (d, .gostruct) ∨ q = some (d, .gobare)

lemma nest_loop {w : List Char} {p : ℕ × GoTable} (h : ∀ x ∈ w, p.2.action x = .loop) :
    nest w p = some p := by
  induction w with
  | nil => rfl
  | cons x w ih =>
    have hx : nestStep p x = some p := by
      rw [nestStep, h x (by simp)]
      rfl
    rw [nest_cons, hx]
    exact ih fun y hy => h y (by simp [hy])

lemma nestStep_gostruct (d : ℕ) (c : Char) :
    nestStep (d, .gostruct) c = nestAct (d, .gostruct) (gostruct c) :=
  if_neg (gostruct_ne_unbare c)

/-- A character that ends a bare word is looked at with `gostruct`. -/
lemma nestStep_gobare {d : ℕ} (hc : gobare c = .unbare) :
    nestStep (d, .gobare) c = nestStep (d, .gostruct) c :=
  (if_pos hc).trans (nestStep_gostruct d c).symm

lemma BehindWord.bind_cons {d : ℕ} {q : Option (ℕ × GoTable)} {w : List Char}
    (h : BehindWord d q) (hc : gobare c = .unbare) :
    q.bind (nest (c :: w)) = (nestStep (d, .gostruct) c).bind (nest w) := by
  rcases h with rfl | rfl
  · rfl
  · exact congrArg (fun o => Option.bind o (nest w)) (nestStep_gobare hc)

/-- A word inside a bracket keeps the bracket balanced. -/
lemma Token.Ok.nest_render {t : Token} (h : t.Ok) (d : ℕ) :
    BehindWord (d + 1) (nest t.render (d + 1, .gostruct)) := by
  cases t with
  | bare c w =>
    obtain ⟨hc, hw⟩ := h
    have hfirst : nestStep (d + 1, .gostruct) c = some (d + 1, .gobare) := by
      rw [nestStep_gostruct]
      rcases hc with hc | hc
      · rw [hc, nestAct]
      · rw [hc, nestAct]
    refine .inr ?_
    rw [render, nest_cons, hfirst]
    exact nest_loop hw
  | quoted w =>
    have hin : nest w (d + 1, .gostring) = some (d + 1, .gostring) := nest_loop h
    refine .inl ?_
    rw [render, cons_append, nest_cons]
    change nest (w ++ ['"']) (d + 1, .gostring) = _
    rw [nest_append, hin]
    rfl
  | group o w c =>
    obtain ⟨ho, hc, hw⟩ := h
    have hopen : nestStep (d + 1, .gostruct) o = some (1 + (d + 1), .gostruct) := by
      rw [nestStep_gostruct, ho, nestAct, Nat.add_comm]
    have hclose : nestStep (1 + (d + 1), .gostruct) c = some (d + 1, .gostruct) := by
      rw [nestStep_gostruct, hc, nestAct, if_neg (by simp), Nat.add_sub_cancel_left]
    have hin : BehindWord (1 + (d + 1)) (nest w (1 + (d + 1), .gostruct)) :=
      hw.imp (fun hw => nest_add hw (d + 1)) fun hw => nest_add hw (d + 1)
    refine .inl ?_
    rw [render, cons_append, nest_cons, hopen, Option.bind_some, nest_append,
      hin.bind_cons (gobare_of_down hc), hclose]
    rfl

lemma ConfigEntry.Ok.nest_render (he : e.Ok) (d : ℕ) :
    BehindWord (d + 1) (nest e.render (d + 1, .gostruct)) := by
  have hkey := he.key.nest_render d
  rw [ConfigEntry.render, nest_append, ConfigEntry.valueText]
  cases hv : e.value with
  | none =>
    rcases hkey with hkey | hkey
    · exact .inl (by rw [hkey]; rfl)
    · exact .inr (by rw [hkey]; rfl)
  | some v =>
    rw [hkey.bind_cons (by decide)]
    exact (he.value v (by rw [hv]; rfl)).nest_render d

lemma nest_moreEntries (hes : ∀ e ∈ es, e.Ok) {d : ℕ} {q : Option (ℕ × GoTable)}
    (hq : BehindWord (d + 1) q) : BehindWord (d + 1) (q.bind (nest (moreEntries es []))) := by
  induction es generalizing q with
  | nil =>
    rcases hq with rfl | rfl
    · exact .inl rfl
    · exact .inr rfl
  | cons e es ih =>
    rw [moreEntries, hq.bind_cons (by decide)]
    change BehindWord (d + 1) (nest (e.render ++ moreEntries es []) (d + 1, .gostruct))
    rw [nest_append]
    exact ih (fun x hx => hes x (by simp [hx])) ((hes e (by simp)).nest_render d)

/-- The bracket around a list of entries. -/
def Token.ofEntries (o : Char) (es : List ConfigEntry) (c : Char) : Token :=
  .group o (entriesText es []) c

/-- **A bracket around a list of entries is a word.** -/
theorem Token.ofEntries_ok {o : Char} (ho : gostruct o = .up) (hc : gostruct c = .down)
    (hes : ∀ e ∈ es, e.Ok) : (ofEntries o es c).Ok := by
  refine ⟨ho, hc, ?_⟩
  cases es with
  | nil => exact .inl rfl
  | cons e es =>
    rw [entriesText, nest_append]
    exact nest_moreEntries (fun x hx => hes x (by simp [hx])) ((hes e (by simp)).nest_render 0)

lemma Token.ofEntries_text (o : Char) (es : List ConfigEntry) (c : Char) :
    (ofEntries o es c).text = o :: entriesText es [c] := by
  rw [ofEntries, text, cons_append, ← entriesText_append, nil_append]

/-! ### Whole strings -/

/-- The first character of a string that is a list in a bracket only sets the level of the items. -/
lemma configNext_open {o : Char} (ho : gostruct o = .up) :
    configNext (configInit (o :: r)) key = configNext ⟨r, 1, 1, .gostruct⟩ key := by
  have hstep : step o r ⟨0, -1, .gostruct, 0, { key with len := 0 }, trueValue, false⟩ =
      .more (entryStart 1 key) := by
    rw [step_gostruct rfl, ho]
    rfl
  rw [configNext, configNext, configInit, run_more hstep]
  rfl

/-- The first word of a string sets the level of the items. -/
lemma configNext_init_word {c : Char} {w : List Char}
    (hc : gostruct c = .bare ∨ gostruct c = .numbare ∨ gostruct c = .qup) (key : ConfigItem) :
    configNext (configInit (c :: w)) key = configNext ⟨c :: w, 0, 0, .gostruct⟩ key := by
  have hstep : step c w ⟨0, -1, .gostruct, 0, { key with len := 0 }, trueValue, false⟩ =
      step c w ⟨0, 0, .gostruct, 0, { key with len := 0 }, trueValue, false⟩ := by
    rw [step_gostruct rfl, step_gostruct rfl]
    rcases hc with hc | hc | hc
    all_goals
      rw [hc]
      rfl
  rw [configNext, configNext, configInit, run, run, hstep]

lemma configNext_top {t : Token} (ht : t.Ok) (hgroup : t.type ≠ .struct) :
    configNext (configInit (t.render ++ r)) key =
      configNext ⟨t.render ++ r, 0, 0, .gostruct⟩ key := by
  cases t with
  | bare c w => exact configNext_init_word (ht.1.imp id Or.inl) key
  | quoted w => exact configNext_init_word (.inr (.inr rfl)) key
  | group o w c => exact absurd rfl hgroup

/-- The items of a list in a bracket. -/
theorem configAll_bracket {o : Char} (ho : gostruct o = .up) (hc : gostruct c = .down)
    (hes : ∀ e ∈ es, e.Ok) :
    configAll (configInit (o :: entriesText es [c])) = (entryItems 0 es [c], .notFound) := by
  have hfuel : es.length < (o :: entriesText es [c]).length + 1 := by
    have := length_le_entriesText es [c]
    simp only [length_cons]
    omega
  refine Eq.trans ?_ (configItems_entries noItem (.bracket hc nofun) hes hfuel)
  rw [configAll, configInit, length_cons, configItems, configItems, ← configInit,
    configNext_open ho]

/-- The items of a list at the top of a string, whose first key is not a bracket. -/
theorem configAll_top (he : e.Ok) (hes : ∀ e ∈ es, e.Ok) (hgroup : e.key.type ≠ .struct) :
    configAll (configInit (entriesText (e :: es) [])) =
      (entryItems 0 (e :: es) [], .notFound) := by
  have hall : ∀ x ∈ e :: es, x.Ok := by
    intro x hx
    rcases mem_cons.mp hx with rfl | hx
    · exact he
    · exact hes x hx
  have hfuel : (e :: es).length < (entriesText (e :: es) []).length + 1 := by
    have hkey : 0 < e.key.render.length := by
      cases hk : e.key <;> simp [render]
    have := length_le_moreEntries es []
    simp only [entriesText, ConfigEntry.render, length_append, length_cons]
    omega
  have hfirst : configNext (configInit (entriesText (e :: es) [])) noItem =
      configNext ⟨entriesText (e :: es) [], 0, 0, .gostruct⟩ noItem := by
    rw [entriesText, ConfigEntry.render, append_assoc]
    exact configNext_top he.key hgroup
  refine Eq.trans ?_ (configItems_entries noItem .string hall hfuel)
  rw [configAll, configInit, configItems, configItems, ← configInit, hfirst]
  rfl

end

end WiredTiger
