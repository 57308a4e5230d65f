/-
# Values of configuration items (`config/config.c`)

`__config_process_value` gives numbers their value: the text is read with `strtoll`, and letters
behind the digits shift it.  A number that does not fit 64 signed bits becomes an identifier, and
its value is what `strtoll` gives then, the nearest number that fits.
-/
import WiredTiger.Config.Entries
import WiredTiger.Pack.IntPack

namespace WiredTiger

open List Nat Prod Token Char

variable {c : Char}

/-! ### `strtoll` -/

def longMax : ℤ := 2 ^ 63 - 1

def longMin : ℤ := -2 ^ 63

/-- `isspace`. -/
def isSpace (c : Char) : Bool :=
  c = ' ' || c = '\t' || c = '\n' || c = '\r' || c = '\x0b' || c = '\x0c'

/-- The digits behind the sign, and what is left; without a digit nothing is read, and the end is
the start `str`. -/
def strtollDigits (str : List Char) (negative : Bool) (s : List Char) : ℤ × Bool × List Char :=
  let digits := s.takeWhile isDigit
  if digits = [] then (0, false, str)
  else
    let n : ℤ := ofDigitChars 10 digits 0
    let v := if negative then -n else n
    if longMax < v then (longMax, true, s.dropWhile isDigit)
    else if v < longMin then (longMin, true, s.dropWhile isDigit)
    else (v, false, s.dropWhile isDigit)

/-- `strtoll` with base 10: the number, whether `errno` is `ERANGE`, and the end. -/
def strtoll (str : List Char) : ℤ × Bool × List Char :=
  match str.dropWhile isSpace with
  | '-' :: s => strtollDigits str true s
  | '+' :: s => strtollDigits str false s
  | s => strtollDigits str false s

/-! ### Processing -/

/-- The shift that a letter behind the digits asks for. -/
def valueShift (c : Char) : Option ℕ :=
  if c = 'b' ∨ c = 'B' then some 0
  else if c = 'k' ∨ c = 'K' then some 10
  else if c = 'm' ∨ c = 'M' then some 20
  else if c = 'g' ∨ c = 'G' then some 30
  else if c = 't' ∨ c = 'T' then some 40
  else if c = 'p' ∨ c = 'P' then some 50
  else none

/-- `WT_SHIFT_INT64`; nothing is left of a negative number, and the flag says that it is not a
number. -/
def shiftInt64 (v : ℤ) (s : ℕ) : ℤ × Bool :=
  if v < 0 then (v, false)
  else
    let v := toInt64 (toUint64 v * 2 ^ s % 2 ^ 64)
    (v, !decide (v < 0))

/-- The letters behind the digits; the flag says that all are known. -/
def valueLetters : List Char → ℤ → ℤ × Bool
  | [], v => (v, true)
  | c :: cs, v =>
    match valueShift c with
    | none => (v, false)
    | some 0 => valueLetters cs v
    | some s =>
      let r := shiftInt64 v s
      if r.2 then valueLetters cs r.1 else r

/-- `__config_process_value`. -/
def configProcessValue (item : ConfigItem) : ConfigItem :=
  if item.len = 0 then item
  else
    match item.type with
    | .id =>
      if item.text = "false".toList then { item with type := .bool, val := 0 }
      else if item.text = "true".toList then { item with type := .bool, val := 1 }
      else item
    | .num =>
      let r := strtoll item.str
      if r.2.1 then { item with val := r.1, type := .id }
      else
        let left := item.len - (item.str.length - r.2.2.length)
        let l := valueLetters (r.2.2.take left) r.1
        if l.2 then { item with val := l.1 } else { item with val := l.1, type := .id }
    | _ => item

/-! ### Looking up a key -/

/-- One item in the loop of `__config_getraw`: the last match counts, and a key `a.b` is also looked
up as `b` in the value of `a`. -/
def getrawStep (sub : ConfigItem → List Char → Except ConfigError ConfigItem) (key : List Char)
    (found : Option ConfigItem) (kv : ConfigItem × ConfigItem) :
    Except ConfigError (Option ConfigItem) :=
  let k := kv.1
  if k.type ≠ .string ∧ k.type ≠ .id then .ok found
  else if k.text = key then .ok (some kv.2)
  else if k.len < key.length ∧ key[k.len]? = some '.' ∧ key.take k.len = k.text then
    match sub kv.2 (key.drop (k.len + 1)) with
    | .ok v => .ok (some v)
    | .error .notFound => .ok found
    | .error e => .error e
  else .ok found

/-- The loop of `__config_getraw`.  Every dot that is followed makes the key shorter, so that `fuel`
is never used up if it exceeds the length of the key. -/
def configGetrawLoop : ℕ → Config → List Char → Except ConfigError ConfigItem
  | 0, _, _ => .error .notFound
  | fuel + 1, conf, key =>
    let all := configAll conf
    match all.1.foldlM (getrawStep (fun item => configGetrawLoop fuel (configSubinit item)) key)
      none with
    | .error e => .error e
    | .ok found =>
      if all.2 ≠ .notFound then .error all.2
      else
        match found with
        | none => .error .notFound
        | some v => .ok v

/-- `__config_getraw` for a caller's key. -/
def configGetraw (conf : Config) (key : List Char) : Except ConfigError ConfigItem :=
  (configGetrawLoop (key.length + 1) conf key).map configProcessValue

/-- `__wt_config_getones`. -/
def configGetones (config key : List Char) : Except ConfigError ConfigItem :=
  configGetraw (configInit config) key

/-- `__wt_config_subgets`. -/
def configSubgets (cfg : ConfigItem) (key : List Char) : Except ConfigError ConfigItem :=
  configGetraw (configSubinit cfg) key

/-- `__wt_config_subget_next`: the next key, processed. -/
def configSubgetNext (conf : Config) (key : ConfigItem) :
    Except ConfigError (Config × ConfigItem) :=
  (configNext conf key).map fun r => (r.1, configProcessValue r.2.1)

/-! ### Decimal text -/

/-- `PRIu64`. -/
def natText (n : ℕ) : List Char := toDigits 10 n

/-- `PRId64`. -/
def intText (z : ℤ) : List Char := if z < 0 then '-' :: natText z.natAbs else natText z.natAbs

/-- A text without quotes, as a word. -/
def Token.word : List Char → Token
  | [] => .quoted []
  | c :: w => .bare c w

lemma Token.word_text (w : List Char) : (word w).text = w := by
  cases w <;> rfl

lemma Token.word_behind {w : List Char} (hw : w ≠ []) (r : List Char) :
    (word w).behind r = r := by
  cases w with
  | nil => exact absurd rfl hw
  | cons c w => rfl

lemma Token.word_render {w : List Char} (hw : w ≠ []) : (word w).render = w := by
  cases w with
  | nil => exact absurd rfl hw
  | cons c w => rfl

lemma isDigit_of_mem_natText {n : ℕ} (h : c ∈ natText n) : c.isDigit = true :=
  isDigit_of_mem_toDigits (by decide) (le_refl 10) h

lemma natText_ne_nil (n : ℕ) : natText n ≠ [] := toDigits_ne_nil

section

variable (h : c.isDigit = true)
include h

lemma exists_digit : ∃ n < 10, c = ofNat (48 + n) := by
  have h48 : 48 ≤ c.toNat ∧ c.toNat ≤ 57 := by
    simpa [isDigit, UInt32.le_iff_toNat_le] using h
  refine ⟨c.toNat - 48, by omega, ?_⟩
  rw [Nat.add_sub_cancel' h48.1, ofNat_toNat]

lemma gostruct_digit : gostruct c = .numbare := by
  obtain ⟨n, hn, rfl⟩ := exists_digit h
  interval_cases n <;> rfl

lemma gobare_digit : gobare c = .loop := by
  obtain ⟨n, hn, rfl⟩ := exists_digit h
  interval_cases n <;> rfl

lemma isSpace_digit : isSpace c = false := by
  obtain ⟨n, hn, rfl⟩ := exists_digit h
  interval_cases n <;> rfl

lemma valueShift_digit : valueShift c = none := by
  obtain ⟨n, hn, rfl⟩ := exists_digit h
  interval_cases n <;> rfl

end

/-- The text does not go on with a digit. -/
def NoDigit (r : List Char) : Prop := ∀ c ∈ r.head?, c.isDigit = false

/-- What ends a bare word is no digit. -/
lemma WordEnds.noDigit {r : List Char} (hr : WordEnds r) : NoDigit r := by
  cases r with
  | nil => simp [NoDigit]
  | cons c r =>
    rintro _ ⟨⟩
    by_contra hdigit
    rw [Bool.not_eq_false] at hdigit
    exact absurd ((gobare_digit hdigit).symm.trans hr) (by decide)

/-- Only identifiers and numbers are processed. -/
lemma configProcessValue_of_type {item : ConfigItem} (h : item.type ≠ .id ∧ item.type ≠ .num) :
    configProcessValue item = item := by
  unfold configProcessValue
  by_cases hlen : item.len = 0
  · exact if_pos hlen
  · rw [if_neg hlen]
    cases htype : item.type with
    | id => exact absurd htype h.1
    | num => exact absurd htype h.2
    | string | bool | struct => rfl

/-- A decimal number as it is written. -/
structure Decimal where
  negative : Bool
  digits : List Char
  isDigit : ∀ c ∈ digits, c.isDigit = true
  ne_nil : digits ≠ []

/-- The number that is written, brought into the range of `strtoll`. -/
def clampLong (z : ℤ) : ℤ := if longMax < z then longMax else if z < longMin then longMin else z

namespace Decimal

variable {r u : List Char} {v z : ℤ} (d : Decimal)

def text : List Char := if d.negative then '-' :: d.digits else d.digits

def value : ℤ :=
  if d.negative then -(ofDigitChars 10 d.digits 0 : ℕ) else (ofDigitChars 10 d.digits 0 : ℕ)

/-- A number as `PRId64` writes it. -/
def ofInt (z : ℤ) : Decimal :=
  ⟨decide (z < 0), natText z.natAbs, fun _ => isDigit_of_mem_natText, natText_ne_nil _⟩

lemma text_ofInt : (ofInt z).text = intText z := by
  simp [text, ofInt, intText]

lemma value_ofInt : (ofInt z).value = z := by
  have hval : ofDigitChars 10 (natText z.natAbs) 0 = z.natAbs := ofDigitChars_ten_toDigits
  simp only [value, ofInt, hval, decide_eq_true_eq]
  split_ifs <;> omega

lemma strtollDigits_digits (str : List Char) (hr : NoDigit r) :
    strtollDigits str d.negative (d.digits ++ r) =
      (clampLong d.value, decide (clampLong d.value ≠ d.value), r) := by
  have hstop : r.takeWhile Char.isDigit = [] ∧ r.dropWhile Char.isDigit = r := by
    cases r with
    | nil => exact ⟨rfl, rfl⟩
    | cons c r => simp [hr c rfl]
  rw [strtollDigits, takeWhile_append_of_pos d.isDigit, dropWhile_append_of_pos d.isDigit, hstop.1,
    hstop.2, append_nil, if_neg d.ne_nil]
  dsimp only
  unfold value
  generalize (if d.negative then -(_ : ℤ) else _) = z
  unfold clampLong
  split_ifs with h1 h2
  · simp [Int.ne_of_lt h1]
  · simp [Int.ne_of_gt h2]
  · simp

/-- `strtoll` reads a number up to the last digit. -/
lemma strtoll_text (hr : NoDigit r) :
    strtoll (d.text ++ r) = (clampLong d.value, decide (clampLong d.value ≠ d.value), r) := by
  obtain ⟨c, w, hcw⟩ := exists_cons_of_ne_nil d.ne_nil
  have hc : c.isDigit = true := d.isDigit c (hcw ▸ mem_cons_self)
  rw [← d.strtollDigits_digits (d.text ++ r) hr, text]
  cases d.negative with
  | true => rfl
  | false =>
    have hspace : (c :: w ++ r).dropWhile isSpace = c :: w ++ r := by
      simp [isSpace_digit hc]
    rw [if_neg Bool.false_ne_true, hcw, strtoll, hspace]
    obtain ⟨n, hn, rfl⟩ := exists_digit hc
    interval_cases n <;> rfl

lemma text_ne_nil : d.text ≠ [] := by
  unfold text
  split_ifs
  · simp
  · exact d.ne_nil

/-- A number with letters behind it. -/
lemma configProcessValue_text (hr : NoDigit (u ++ r)) :
    configProcessValue ⟨d.text ++ (u ++ r), (d.text ++ u).length, v, .num⟩ =
      if clampLong d.value = d.value then
        ⟨d.text ++ (u ++ r), (d.text ++ u).length, (valueLetters u d.value).1,
          if (valueLetters u d.value).2 then .num else .id⟩
      else ⟨d.text ++ (u ++ r), (d.text ++ u).length, clampLong d.value, .id⟩ := by
  have hlen : (d.text ++ u).length ≠ 0 := by
    simp [d.text_ne_nil]
  have hleft : (d.text ++ u).length - ((d.text ++ (u ++ r)).length - (u ++ r).length) =
      u.length := by
    simp only [length_append]
    omega
  rw [configProcessValue, if_neg hlen]
  simp only [d.strtoll_text hr, decide_eq_true_eq, hleft, take_left]
  by_cases hz : clampLong d.value = d.value
  · rw [if_neg (not_not.mpr hz), if_pos hz, hz]
    split_ifs <;> rfl
  · rw [if_pos hz, if_neg hz]

end Decimal

lemma intText_ne_nil (z : ℤ) : intText z ≠ [] := Decimal.text_ofInt ▸ Decimal.text_ne_nil _

/-- A number is a bare word. -/
lemma intText_word_ok (z : ℤ) : (word (intText z)).Ok := by
  have hdigits : ∀ c ∈ natText z.natAbs, gobare c = .loop :=
    fun c hc => gobare_digit (isDigit_of_mem_natText hc)
  unfold intText
  split_ifs
  · exact ⟨.inr rfl, hdigits⟩
  · cases htext : natText z.natAbs with
    | nil => exact absurd htext (natText_ne_nil _)
    | cons c w =>
      rw [htext] at hdigits
      exact ⟨.inr (gostruct_digit (isDigit_of_mem_natText (htext ▸ mem_cons_self))),
        fun x hx => hdigits x (mem_cons_of_mem c hx)⟩

lemma intText_word_type (z : ℤ) : (word (intText z)).type = .num := by
  unfold intText
  split_ifs
  · rfl
  · cases htext : natText z.natAbs with
    | nil => exact absurd htext (natText_ne_nil _)
    | cons c w =>
      have hc : c.isDigit = true := isDigit_of_mem_natText (htext ▸ mem_cons_self)
      rw [word, type, if_pos (gostruct_digit hc)]

lemma natText_eq_intText (n : ℕ) : natText n = intText n := by
  rw [intText, if_neg (by omega), Int.natAbs_natCast]

lemma natText_word_ok (n : ℕ) : (word (natText n)).Ok := by
  rw [natText_eq_intText]
  exact intText_word_ok n

/-- **A number that is written is read back**, brought into the range of `strtoll`; it stays a
number if it was in the range. -/
theorem configProcessValue_intText {z v : ℤ} {r : List Char} (hr : WordEnds r) :
    configProcessValue ((word (intText z)).item r v) =
      ⟨intText z ++ r, (intText z).length, clampLong z,
        if clampLong z = z then .num else .id⟩ := by
  have hitem : (word (intText z)).item r v = ⟨intText z ++ r, (intText z).length, v, .num⟩ := by
    rw [item, word_text, word_behind (intText_ne_nil z), intText_word_type]
  have h := @Decimal.configProcessValue_text r [] v (.ofInt z) hr.noDigit
  simp only [Decimal.text_ofInt, Decimal.value_ofInt, nil_append, append_nil, valueLetters,
    if_true] at h
  rw [hitem, h]
  split_ifs with hz
  · rw [hz]
  · rfl

/-- A unit behind a number shifts it; without one, or for bytes, it stays. -/
lemma valueLetters_unit {u : Option Char} {s : ℕ} (hu : u.elim (some 0) valueShift = some s)
    (z : ℤ) : valueLetters u.toList z = if s = 0 then (z, true) else shiftInt64 z s := by
  cases u with
  | none =>
    obtain rfl : 0 = s := Option.some.inj hu
    rfl
  | some c =>
    have hc : valueShift c = some s := hu
    cases s with
    | zero => simp [valueLetters, hc]
    | succ s =>
      simp only [if_neg (succ_ne_zero s), Option.toList, valueLetters, hc]
      split_ifs with hr
      · rw [← hr]
      · rfl

lemma shiftInt64_of_lt {n s : ℕ} (h : n * 2 ^ s < 2 ^ 64) :
    shiftInt64 n s = (toInt64 (n * 2 ^ s), decide (n * 2 ^ s < 2 ^ 63)) := by
  have hn : toUint64 n = n := by
    have := (Nat.le_mul_of_pos_right n (Nat.two_pow_pos s)).trans_lt h
    unfold toUint64
    omega
  have hsign : ¬ toInt64 (n * 2 ^ s) < 0 ↔ n * 2 ^ s < 2 ^ 63 := by
    generalize n * 2 ^ s = m at h
    unfold toInt64
    split_ifs <;> omega
  rw [shiftInt64, if_neg (by omega), hn, mod_eq_of_lt h, ← decide_eq_decide.mpr hsign, decide_not]

/-- **Numbers are exact.** A number that fits 64 bits when it is scaled has that value; negative
numbers that are scaled, numbers that do not fit before and scaled ones that need the sign bit are
left as identifiers. -/
theorem configProcessValue_scaled (d : Decimal) (u : Option Char) {s : ℕ}
    (hu : u.elim (some 0) valueShift = some s) {r : List Char} (hr : WordEnds r) (v : ℤ) :
    let item := configProcessValue
      ⟨d.text ++ (u.toList ++ r), (d.text ++ u.toList).length, v, .num⟩
    ((s = 0 ∨ 0 ≤ d.value) → longMin ≤ d.value * 2 ^ s → d.value * 2 ^ s ≤ longMax →
      item.type = .num ∧ item.val = d.value * 2 ^ s) ∧
    ((s ≠ 0 ∧ d.value < 0 ∨ d.value < longMin ∨ longMax < d.value ∨
        longMax < d.value * 2 ^ s ∧ d.value * 2 ^ s < 2 ^ 64) → item.type = .id) := by
  have hdigit : NoDigit (u.toList ++ r) := by
    cases u with
    | none => exact hr.noDigit
    | some c =>
      rintro _ ⟨⟩
      by_contra h
      have := valueShift_digit (Bool.not_eq_false _ ▸ h)
      exact absurd (this.symm.trans hu) (by simp)
  rw [d.configProcessValue_text hdigit, valueLetters_unit hu]
  have hclamp : clampLong d.value = d.value ↔ longMin ≤ d.value ∧ d.value ≤ longMax := by
    unfold clampLong longMin longMax
    split_ifs <;> omega
  generalize d.value = z at *
  by_cases hs : s = 0
  · subst hs
    simp only [pow_zero, mul_one, if_true]
    split_ifs with hz
    · exact ⟨fun _ _ _ => ⟨rfl, rfl⟩, fun h => by omega⟩
    · exact ⟨fun _ h1 h2 => absurd (hclamp.mpr ⟨h1, h2⟩) hz, fun _ => rfl⟩
  rw [if_neg hs]
  rcases lt_or_ge z 0 with hz | hz
  · have hneg : shiftInt64 z s = (z, false) := if_pos hz
    rw [hneg]
    refine ⟨fun h => absurd h (by omega), fun _ => ?_⟩
    by_cases hc : clampLong z = z
    · rw [if_pos hc]
      rfl
    · rw [if_neg hc]
  · obtain ⟨n, rfl⟩ := Int.eq_ofNat_of_zero_le hz
    have hle : n ≤ n * 2 ^ s := Nat.le_mul_of_pos_right n (Nat.two_pow_pos s)
    have hcast : (n : ℤ) * 2 ^ s = (n * 2 ^ s : ℕ) := by
      push_cast
      rfl
    have hshift := @shiftInt64_of_lt n s
    rw [hcast]
    generalize n * 2 ^ s = m at hle hshift
    unfold longMax longMin at *
    constructor
    · intro _ _ hm
      have hlt : m < 2 ^ 63 := by omega
      rw [if_pos (by omega), hshift (by omega), decide_eq_true hlt, toInt64, if_pos hlt]
      exact ⟨rfl, rfl⟩
    · intro h
      by_cases hc : clampLong (n : ℤ) = n
      · rw [if_pos hc, hshift (by omega), decide_eq_false (by omega)]
        rfl
      · rw [if_neg hc]

theorem configProcessValue_scaled_kilo :
    (configProcessValue ⟨['6', '4', 'K', ','], 3, 0, .num⟩).val = 64 * 2 ^ 10 :=
  ((configProcessValue_scaled ⟨false, ['6', '4'], by decide, by decide⟩ (some 'K') (s := 10) rfl
    (r := [',']) rfl 0).1 (.inr (by decide)) (by decide) (by decide)).2

/-- A negative number is not scaled, though it would fit. -/
theorem configProcessValue_negative :
    (configProcessValue ⟨"-1K".toList, 3, 0, .num⟩).type = .id ∧ longMin ≤ -1 * 2 ^ 10 := by
  decide

/-! ### Looking up a field -/

/-- A name that is one bare word, not a number and without a dot. -/
def FieldName (name : List Char) : Prop :=
  (word name).Ok ∧ (word name).type = .id ∧ '.' ∉ name

instance (name : List Char) : Decidable (FieldName name) := inferInstanceAs (Decidable (_ ∧ _ ∧ _))

/-- The entry `name=value`. -/
def fieldEntry (f : List Char × Token) : ConfigEntry := ⟨.word f.1, some f.2⟩

variable {fields : List (List Char × Token)} {name key tail : List Char} {v : Token}
  {found : Option ConfigItem} {sub : ConfigItem → List Char → Except ConfigError ConfigItem}

lemma FieldName.ne_nil (h : FieldName name) : name ≠ [] := by
  rintro rfl
  exact absurd h.2.1 (by decide)

lemma fieldEntry_ok (hname : FieldName name) (hv : v.Ok) : (fieldEntry (name, v)).Ok := by
  refine ⟨hname.1, ?_, ?_⟩
  · rw [fieldEntry, word_text]
    exact hname.ne_nil
  · rintro v' ⟨⟩
    exact hv

lemma fieldEntry_render {name : List Char} (hname : name ≠ []) (v : Token) :
    (fieldEntry (name, v)).render = name ++ '=' :: v.render := by
  rw [ConfigEntry.render, fieldEntry, word_render hname, ConfigEntry.valueText]

lemma wordEnds_moreEntries (es : List ConfigEntry) (htail : WordEnds tail) :
    WordEnds (moreEntries es tail) := by
  cases es with
  | nil => exact htail
  | cons e es => exact show gobare ',' = .unbare by decide

/-- A key without a dot is only compared. -/
lemma getrawStep_field {f : List Char × Token} (hkey : '.' ∉ key) (hf : FieldName f.1)
    (r₁ r₂ : List Char) :
    getrawStep sub key found ((fieldEntry f).key.item r₁ 0, (fieldEntry f).valueItem r₂) =
      .ok (if f.1 = key then some (f.2.item r₂ 1) else found) := by
  let k := (fieldEntry f).key.item r₁ 0
  have htext : k.text = f.1 := (item_text _ _ _).trans (word_text _)
  have htype : ¬(k.type ≠ .string ∧ k.type ≠ .id) := fun h => h.2 hf.2.1
  have hdot : ¬(k.len < key.length ∧ key[k.len]? = some '.' ∧ key.take k.len = k.text) :=
    fun h => hkey (mem_of_getElem? h.2.1)
  rw [getrawStep, if_neg htype, if_neg hdot, htext]
  split_ifs <;> rfl

/-- Fields of other names leave what has been found. -/
lemma getraw_foldlM_of_not_mem (hkey : '.' ∉ key) (hfields : ∀ f ∈ fields, FieldName f.1)
    (hno : key ∉ fields.map fst) :
    (entryItems 0 (fields.map fieldEntry) tail).foldlM (getrawStep sub key) found = .ok found := by
  induction fields with
  | nil => rfl
  | cons f fields ih =>
    simp only [map_cons, mem_cons, not_or] at hno
    rw [map_cons, entryItems, foldlM_cons, getrawStep_field hkey (hfields f (by simp)),
      if_neg (fun h => hno.1 h.symm)]
    exact ih (fun g hg => hfields g (by simp [hg])) hno.2

/-- **A field is found**, whatever stands around it. -/
lemma getraw_foldlM_of_mem (hfields : ∀ f ∈ fields, FieldName f.1)
    (hnodup : (fields.map fst).Nodup) (htail : WordEnds tail) (hmem : (name, v) ∈ fields) :
    ∃ r, WordEnds r ∧
      (entryItems 0 (fields.map fieldEntry) tail).foldlM (getrawStep sub name) found =
        .ok (some (v.item r 1)) := by
  have hdot : '.' ∉ name := (hfields _ hmem).2.2
  induction fields generalizing found with
  | nil => cases hmem
  | cons f fields ih =>
    have hrest : ∀ g ∈ fields, FieldName g.1 := fun g hg => hfields g (by simp [hg])
    rw [map_cons, nodup_cons] at hnodup
    rw [map_cons, entryItems, foldlM_cons, getrawStep_field hdot (hfields f (by simp))]
    rcases mem_cons.mp hmem with rfl | hmem
    · refine ⟨_, wordEnds_moreEntries (fields.map fieldEntry) htail, ?_⟩
      rw [if_pos rfl]
      exact getraw_foldlM_of_not_mem hdot hrest hnodup.1
    · exact ih hrest hnodup.2 hmem

section

variable {conf : Config} (hfields : ∀ f ∈ fields, FieldName f.1)
  (hall : configAll conf = (entryItems 0 (fields.map fieldEntry) tail, .notFound))
include hfields hall

/-- Looking up a field gives its value, processed. -/
theorem configGetraw_of_mem (hnodup : (fields.map fst).Nodup) (htail : WordEnds tail)
    (hmem : (name, v) ∈ fields) :
    ∃ r, WordEnds r ∧ configGetraw conf name = .ok (configProcessValue (v.item r 1)) := by
  obtain ⟨r, hr, hfold⟩ := @getraw_foldlM_of_mem fields name tail v none
    (fun item => configGetrawLoop name.length (configSubinit item)) hfields hnodup htail hmem
  refine ⟨r, hr, ?_⟩
  rw [configGetraw, configGetrawLoop, hall]
  simp only [hfold]
  rfl

/-- Looking up a name that no field has finds nothing. -/
theorem configGetraw_of_not_mem (hname : '.' ∉ name) (hno : name ∉ fields.map fst) :
    configGetraw conf name = .error .notFound := by
  rw [configGetraw, configGetrawLoop, hall]
  simp only [getraw_foldlM_of_not_mem hname hfields hno]
  rfl

end

end WiredTiger
