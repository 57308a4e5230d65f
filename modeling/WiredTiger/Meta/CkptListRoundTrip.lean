/-
# The list of checkpoints is read back

The text of the list is a list of configuration entries, one for each checkpoint, with the fields as
entries inside.  If every name is one word of the configuration grammar, all entries and fields are
found again.  The name that internal checkpoints are given gets the order of the checkpoint behind
it.
-/
import WiredTiger.Meta.CkptList

namespace WiredTiger

open List Nat MetaCkpt Token

variable {n : ℕ} {ck : MetaCkpt} {cks : List MetaCkpt}
variable {i : ℕ}

/-! ### Hexadecimal text -/

lemma gostring_hexChar (hn : n < 16) : gostring (hexChar n) = .loop := by
  interval_cases n <;> decide

lemma rawToHex_eq_nil_iff {raw : List UInt8} : rawToHex raw = [] ↔ raw = [] := by
  cases raw with
  | nil | cons => simp [rawToHex]

lemma gostring_of_mem_rawToHex {raw : List UInt8} {c : Char} (h : c ∈ rawToHex raw) :
    gostring c = .loop := by
  obtain ⟨b, -, hc⟩ := mem_flatMap.mp h
  have hb : b.toNat < 256 := b.toNat_lt
  simp only [mem_cons, not_mem_nil, or_false] at hc
  rcases hc with rfl | rfl
  · exact gostring_hexChar (by omega)
  · exact gostring_hexChar (mod_lt _ (by decide))

/-! ### Numbers -/

lemma clampLong_of_mem {z : ℤ} (h : -2 ^ 63 ≤ z) (h' : z < 2 ^ 63) : clampLong z = z := by
  unfold clampLong longMax longMin
  split_ifs <;> omega

lemma toUint64_clampLong_toInt64 (hn : n < 2 ^ 64) : toUint64 (clampLong (toInt64 n)) = n := by
  have hbounds : -2 ^ 63 ≤ toInt64 n ∧ toInt64 n < 2 ^ 63 := by
    unfold toInt64
    split_ifs <;> omega
  rw [clampLong_of_mem hbounds.1 hbounds.2]
  unfold toUint64 toInt64
  split_ifs <;> omega

/-- Without a sign the digits are the number. -/
lemma scanU64_cons {c : Char} {w : List Char} (hc : c.isDigit = true) :
    scanU64 (c :: w) = if (c :: w).takeWhile Char.isDigit = [] then none
      else some (min (ofDigitChars 10 ((c :: w).takeWhile Char.isDigit) 0) (2 ^ 64 - 1)) := by
  have hspace : (c :: w).dropWhile isSpace = c :: w := by simp [isSpace_digit hc]
  rw [scanU64, hspace]
  obtain ⟨n, hn, rfl⟩ := exists_digit hc
  interval_cases n <;> rfl

lemma scanU64_natText (hn : n < 2 ^ 64) : scanU64 (natText n) = some n := by
  have hdigits : (natText n).takeWhile Char.isDigit = natText n :=
    takeWhile_eq_self_iff.mpr fun _ => isDigit_of_mem_natText
  have hval : ofDigitChars 10 (natText n) 0 = n := ofDigitChars_ten_toDigits
  cases htext : natText n with
  | nil => exact absurd htext (natText_ne_nil n)
  | cons c w =>
    rw [scanU64_cons (isDigit_of_mem_natText (htext ▸ mem_cons_self)), ← htext, hdigits,
      if_neg (natText_ne_nil n), hval, min_eq_left (by omega)]

lemma length_natText_le (hn : n < 2 ^ 64) : (natText n).length ≤ 20 :=
  toDigits_length 10 n 20 (by decide) (by omega)

/-! ### Names -/

/-- A text that is not in quotes, as a word. -/
def nameToken : List Char → Token
  | [] => .quoted []
  | c :: w =>
    match w.getLast? with
    | some l => if gostruct c = .up then .group c w.dropLast l else .bare c w
    | none => .bare c w

/-- The text is one word of the grammar, and not in quotes. -/
def KeyWord (name : List Char) : Prop := name ≠ [] ∧ (nameToken name).Ok

instance (name : List Char) : Decidable (KeyWord name) := inferInstanceAs (Decidable (_ ∧ _))

lemma nameToken_bare {c : Char} {w : List Char} (hc : gostruct c ≠ .up) :
    nameToken (c :: w) = .bare c w := by
  rw [nameToken]
  split
  · exact if_neg hc
  · rfl

/-- A text that is not in quotes is written as it is read. -/
lemma nameToken_eq {name : List Char} (hname : name ≠ []) :
    (nameToken name).text = name ∧ (nameToken name).render = name := by
  cases name with
  | nil => exact absurd rfl hname
  | cons c w =>
    rw [nameToken]
    split
    · next l hl =>
        split_ifs
        · rw [text, render, cons_append, dropLast_append_getLast? l hl]
          exact ⟨rfl, rfl⟩
        · exact ⟨rfl, rfl⟩
    · exact ⟨rfl, rfl⟩

/-- An order may stand behind the internal name. -/
lemma keyWord_internal (z : ℤ) : KeyWord (wtCheckpoint ++ (".".toList ++ intText z)) := by
  have hnum : ∀ c ∈ intText z, gobare c = .loop := by
    intro c hc
    unfold intText at hc
    split_ifs at hc
    · rcases mem_cons.mp hc with rfl | hc
      · decide
      · exact gobare_digit (isDigit_of_mem_natText hc)
    · exact gobare_digit (isDigit_of_mem_natText hc)
  have hword : ∀ c ∈ "iredTigerCheckpoint.".toList, gobare c = .loop := by decide
  have htext : wtCheckpoint ++ (".".toList ++ intText z) =
      'W' :: ("iredTigerCheckpoint.".toList ++ intText z) := by
    unfold wtCheckpoint
    simp
  rw [htext]
  refine ⟨cons_ne_nil _ _, ?_⟩
  rw [nameToken_bare (by decide)]
  refine ⟨.inl (by decide), ?_⟩
  intro c hc
  rcases mem_append.mp hc with hc | hc
  · exact hword c hc
  · exact hnum c hc

lemma MetaCkpt.keyWord_nameText (h : KeyWord ck.name) : KeyWord ck.nameText := by
  rw [nameText]
  split_ifs with hname
  · rw [hname]
    exact keyWord_internal ck.order
  · rwa [append_nil]

/-! ### A checkpoint as an entry -/

/-- What a checkpoint that is written has to be. -/
structure MetaCkpt.Ok (ck : MetaCkpt) : Prop where
  name : KeyWord ck.name
  order_ge : -2 ^ 63 ≤ ck.order
  order_lt : ck.order < 2 ^ 63
  sec_lt : ck.sec < 2 ^ 64
  size_lt : ck.size < 2 ^ 64
  writeGen_lt : ck.writeGen < 2 ^ 64
  runWriteGen_lt : ck.runWriteGen < 2 ^ 64
  ta_fits : ck.ta.Fits
  ta_valid : timeAggregateValidate ck.ta none = .ok ()
  /-- The text of the address is that of the cookie, unless it is still to be made. -/
  addr : ck.changed = false → ck.addr = rawToHex ck.raw

/-- The checkpoint as it is read back. -/
def MetaCkpt.reloaded (ck : MetaCkpt) : MetaCkpt :=
  { ck with
    name := ck.nameText
    ta := { ck.ta with initMerge := false }
    addr := rawToHex ck.raw
    changed := false
    deleted := false
    fake := ck.raw = [] }

/-- A number as a word. -/
def numToken (z : ℤ) : Token := .word (intText z)

/-- The fields of a checkpoint. -/
def MetaCkpt.fields (ck : MetaCkpt) : List (List Char × Token) :=
  [("addr".toList, .quoted (rawToHex ck.raw)), ("order".toList, numToken ck.order),
    ("time".toList, numToken ck.sec), ("size".toList, numToken (toInt64 ck.size)),
    ("newest_start_durable_ts".toList, numToken (toInt64 ck.ta.newestStartDurableTs)),
    ("oldest_start_ts".toList, numToken (toInt64 ck.ta.oldestStartTs)),
    ("newest_txn".toList, numToken (toInt64 ck.ta.newestTxn)),
    ("newest_stop_durable_ts".toList, numToken (toInt64 ck.ta.newestStopDurableTs)),
    ("newest_stop_ts".toList, numToken (toInt64 ck.ta.newestStopTs)),
    ("newest_stop_txn".toList, numToken (toInt64 ck.ta.newestStopTxn)),
    ("prepare".toList, numToken (if ck.ta.prepare then 1 else 0)),
    ("write_gen".toList, numToken (toInt64 ck.writeGen)),
    ("run_write_gen".toList, numToken (toInt64 ck.runWriteGen))]

/-- The fields in a bracket. -/
def MetaCkpt.token (ck : MetaCkpt) : Token := .ofEntries '(' (ck.fields.map fieldEntry) ')'

/-- The names of the fields. -/
def ckptFieldNames : List (List Char) :=
  ["addr".toList, "order".toList, "time".toList, "size".toList, "newest_start_durable_ts".toList,
    "oldest_start_ts".toList, "newest_txn".toList, "newest_stop_durable_ts".toList,
    "newest_stop_ts".toList, "newest_stop_txn".toList, "prepare".toList, "write_gen".toList,
    "run_write_gen".toList]

lemma MetaCkpt.map_fst_fields (ck : MetaCkpt) : ck.fields.map Prod.fst = ckptFieldNames := rfl

lemma ckptFieldNames_nodup : ckptFieldNames.Nodup := by decide

lemma MetaCkpt.fieldName_of_mem : ∀ f ∈ ck.fields, FieldName f.1 := by
  have hall : ∀ name ∈ ckptFieldNames, FieldName name := by decide
  intro f hf
  exact hall f.1 (ck.map_fst_fields ▸ mem_map_of_mem hf)

lemma MetaCkpt.ok_of_mem_fields : ∀ f ∈ ck.fields, f.2.Ok := by
  intro f hf
  simp only [fields, mem_cons, not_mem_nil, or_false] at hf
  rcases hf with rfl | rfl | rfl | rfl | rfl | rfl | rfl | rfl | rfl | rfl | rfl | rfl | rfl
  · exact fun c hc => gostring_of_mem_rawToHex hc
  all_goals exact intText_word_ok _

lemma MetaCkpt.fieldEntries_ok : ∀ e ∈ ck.fields.map fieldEntry, e.Ok := by
  intro e he
  obtain ⟨f, hf, rfl⟩ := mem_map.mp he
  exact fieldEntry_ok (fieldName_of_mem f hf) (ok_of_mem_fields f hf)

lemma MetaCkpt.token_ok (ck : MetaCkpt) : ck.token.Ok :=
  ofEntries_ok (by decide) (by decide) fieldEntries_ok

lemma MetaCkpt.addrText_eq (h : ck.Ok) : ck.addrText = rawToHex ck.raw := by
  unfold addrText
  split_ifs with hchanged hraw
  · rw [eq_nil_of_length_eq_zero hraw]
    rfl
  · rfl
  · exact h.addr (by simpa using hchanged)

lemma numToken_render (z : ℤ) : (numToken z).render = intText z := word_render
    (intText_ne_nil z)

/-- Fields with a comma in front of each. -/
lemma moreEntries_fields {fs : List (List Char × Token)} (hfs : ∀ f ∈ fs, FieldName f.1)
    (tail : List Char) :
    moreEntries (fs.map fieldEntry) tail =
      (fs.flatMap fun f => ',' :: (f.1 ++ '=' :: f.2.render)) ++ tail := by
  induction fs with
  | nil => rfl
  | cons f fs ih =>
    rw [map_cons, moreEntries, ih fun g hg => hfs g (by simp [hg]),
      fieldEntry_render (hfs f (by simp)).ne_nil]
    simp

/-- The fields as they are written are the fields in a bracket. -/
lemma MetaCkpt.fieldsText_eq (h : ck.Ok) : ck.fieldsText = '=' :: ck.token.render := by
  have hrender : ck.token.render = '(' :: entriesText (ck.fields.map fieldEntry) [')'] :=
    ofEntries_text _ _ _
  have hfields : entriesText (ck.fields.map fieldEntry) [')'] =
      "addr".toList ++ '=' :: (quoted (rawToHex ck.raw)).render ++
        ((ck.fields.tail.flatMap fun f => ',' :: (f.1 ++ '=' :: f.2.render)) ++ [')']) := by
    rw [← moreEntries_fields fun f hf => fieldName_of_mem f (mem_of_mem_tail hf),
      ← fieldEntry_render (show "addr".toList ≠ [] by simp)]
    rfl
  have haddr : "=(addr=\"".toList = '=' :: '(' :: ("addr".toList ++ ['=', '"']) := by simp
  have horder : "\",order=".toList = '"' :: ',' :: ("order".toList ++ ['=']) := by simp
  have hlabels : [",time=".toList, ",size=".toList, ",newest_start_durable_ts=".toList,
      ",oldest_start_ts=".toList, ",newest_txn=".toList, ",newest_stop_durable_ts=".toList,
      ",newest_stop_ts=".toList, ",newest_stop_txn=".toList, ",prepare=".toList,
      ",write_gen=".toList, ",run_write_gen=".toList] =
        (ckptFieldNames.drop 2).map fun name => ',' :: (name ++ ['=']) := by decide
  simp only [ckptFieldNames, drop_succ_cons, drop_zero, map_cons, map_nil, cons.injEq,
    and_true] at hlabels
  have hquoted : (quoted (rawToHex ck.raw)).render = '"' :: rawToHex ck.raw ++ ['"'] := rfl
  have hclose : ")".toList = [')'] := by simp
  rw [hrender, hfields]
  unfold fieldsText fields
  simp only [addrText_eq h, haddr, horder, hlabels, tail_cons, flatMap_cons, flatMap_nil,
    numToken_render, natText_eq_intText, hquoted, hclose, append_assoc, cons_append, nil_append]

/-! ### The list -/

/-- The entry of a checkpoint. -/
def MetaCkpt.entry (ck : MetaCkpt) : ConfigEntry := ⟨nameToken ck.nameText, some ck.token⟩

/-- The checkpoints that are written. -/
def liveCkpts (cks : List MetaCkpt) : List MetaCkpt := cks.filter fun ck => !ck.deleted

lemma MetaCkpt.entry_render (h : ck.Ok) :
    ck.entry.render = ck.nameText ++ ck.fieldsText := by
  rw [ConfigEntry.render, entry, (nameToken_eq (keyWord_nameText h.name).1).2,
    ConfigEntry.valueText, fieldsText_eq h]

lemma MetaCkpt.entry_ok (h : ck.Ok) : ck.entry.Ok := by
  have hname := keyWord_nameText h.name
  refine ⟨hname.2, ?_, ?_⟩
  · rw [entry, (nameToken_eq hname.1).1]
    exact hname.1
  · rintro v ⟨⟩
    exact ck.token_ok

lemma checkAddrValidity_of_ok {ta : TimeAggregate} (h : timeAggregateValidate ta none = .ok ()) :
    checkAddrValidity ta = .ok () := by
  rw [checkAddrValidity, h]
  rfl

/-- What the loop writes is the list of entries. -/
lemma ckptlistLoop_eq (h : ∀ ck ∈ liveCkpts cks, ck.Ok) :
    ckptlistLoop [] cks = .ok (entriesText ((liveCkpts cks).map entry) []) ∧
      ckptlistLoop ",".toList cks = .ok (moreEntries ((liveCkpts cks).map entry) []) := by
  induction cks with
  | nil => exact ⟨rfl, rfl⟩
  | cons ck cks ih =>
    rw [liveCkpts, filter_cons] at h ⊢
    cases hdel : ck.deleted with
    | true =>
      simp only [hdel, Bool.not_true, Bool.false_eq_true, if_false] at h ⊢
      obtain ⟨ih1, ih2⟩ := ih h
      simp only [ckptlistLoop, hdel, if_true]
      exact ⟨ih1, ih2⟩
    | false =>
      simp only [hdel, Bool.not_false, if_true] at h ⊢
      have hck : ck.Ok := h ck mem_cons_self
      obtain ⟨-, ih2⟩ := ih fun c hc => h c (mem_cons_of_mem ck hc)
      have hloop : ∀ sep, ckptlistLoop sep (ck :: cks) = .ok (sep ++ ck.entry.render ++
          moreEntries ((liveCkpts cks).map entry) []) := by
        intro sep
        rw [ckptlistLoop, hdel, if_neg Bool.false_ne_true, checkAddrValidity_of_ok hck.ta_valid,
          ih2, entry_render hck, ← append_assoc]
        rfl
      exact ⟨hloop [], hloop ",".toList⟩

/-- The list as a field. -/
def ckptlistFields (cks : List MetaCkpt) : List (List Char × Token) :=
  [("checkpoint".toList, .ofEntries '(' ((liveCkpts cks).map entry) ')')]

lemma metaCkptlistToMeta_eq (h : ∀ ck ∈ liveCkpts cks, ck.Ok) :
    metaCkptlistToMeta cks = .ok (entriesText ((ckptlistFields cks).map fieldEntry) []) := by
  have htext : entriesText ((ckptlistFields cks).map fieldEntry) [] =
      "checkpoint=(".toList ++ entriesText ((liveCkpts cks).map entry) [] ++ ")".toList := by
    rw [ckptlistFields, map_singleton, entriesText, moreEntries, append_nil,
      fieldEntry_render (by simp), ofEntries, render]
    simp
  rw [metaCkptlistToMeta, (ckptlistLoop_eq h).1, htext]
  rfl

/-! ### Reading a checkpoint -/

namespace MetaCkpt

variable {ck : MetaCkpt} {v : ConfigItem} {z : ℤ} (hv : v.text = ck.token.text)
include hv

/-- A field of a checkpoint is found. -/
lemma configSubgets_of_mem {tok : Token} (key : String) (i : ℕ)
    (hi : ck.fields[i]? = some (key.toList, tok)) :
    ∃ r, WordEnds r ∧ configSubgets v key.toList = .ok (configProcessValue (tok.item r 1)) := by
  have hall : configAll (configSubinit v) =
      (entryItems 0 (ck.fields.map fieldEntry) [')'], .notFound) := by
    rw [configSubinit, hv, token, ofEntries_text]
    exact configAll_bracket (by decide) (by decide) fieldEntries_ok
  exact configGetraw_of_mem fieldName_of_mem hall (ck.map_fst_fields ▸ ckptFieldNames_nodup)
    (show WordEnds [')'] from show gobare ')' = .unbare by decide) (mem_of_getElem? hi)

section

variable (key : String) (i : ℕ) (hi : ck.fields[i]? = some (key.toList, numToken z))
include hi

/-- A number of a checkpoint is found. -/
lemma configSubgets_num :
    ∃ a, configSubgets v key.toList = .ok a ∧ a.len = (intText z).length ∧ a.text = intText z ∧
      a.val = clampLong z := by
  obtain ⟨r, hr, hget⟩ := configSubgets_of_mem hv key i hi
  rw [numToken, configProcessValue_intText hr] at hget
  exact ⟨_, hget, rfl, take_left, rfl⟩

lemma ckptField_num :
    ∃ a, ckptField v key = .ok a ∧ a.len = (intText z).length ∧ a.text = intText z ∧
      a.val = clampLong z := by
  obtain ⟨a, hget, ha⟩ := configSubgets_num hv key i hi
  refine ⟨a, ?_, ha⟩
  rw [ckptField, hget]
  rfl

lemma ckptOptField_num : ckptOptField v key = .ok (some (toUint64 (clampLong z))) := by
  obtain ⟨a, hget, hlen, -, hval⟩ := configSubgets_num hv key i hi
  have hne : a.len ≠ 0 := by
    rw [hlen]
    exact fun h => intText_ne_nil z (length_eq_zero_iff.mp h)
  rw [ckptOptField, hget]
  simp [if_pos hne, hval]

end

/-- A 64-bit number of a checkpoint is read back. -/
lemma ckptOptField_eq (key : String) (i : ℕ) (hn : n < 2 ^ 64)
    (hi : ck.fields[i]? = some (key.toList, numToken (toInt64 n))) :
    ckptOptField v key = .ok (some n) := by
  rw [ckptOptField_num hv key i hi, toUint64_clampLong_toInt64 hn]

lemma ckptRenamedField_eq (key old : String) (i : ℕ) (hn : n < 2 ^ 64)
    (hi : ck.fields[i]? = some (key.toList, numToken (toInt64 n))) :
    ckptRenamedField v key old = .ok (some n) := by
  rw [ckptRenamedField, ckptOptField_eq hv key i hn hi]
  rfl

/-- The address of a checkpoint is found. -/
lemma ckptField_addr :
    ∃ a, ckptField v "addr" = .ok a ∧ a.len = (rawToHex ck.raw).length ∧
      a.text = rawToHex ck.raw := by
  obtain ⟨r, hr, hget⟩ := configSubgets_of_mem hv "addr" 0 rfl
  refine ⟨_, ?_, rfl, item_text (quoted (rawToHex ck.raw)) r 1⟩
  rw [ckptField, hget, configProcessValue_of_type]
  · rfl
  · exact ⟨nofun, nofun⟩

/-- **A checkpoint is read back.** -/
lemma ckptLoad_eq {k : ConfigItem} (h : ck.Ok) (hk : k.text = ck.nameText) :
    ckptLoad k v = .ok ck.reloaded := by
  have hpos : ∀ z, (intText z).length ≠ 0 :=
    fun z hz => intText_ne_nil z (length_eq_zero_iff.mp hz)
  -- The fields that have to be there.
  obtain ⟨addr, haddr, haddrlen, haddrtext⟩ := ckptField_addr hv
  obtain ⟨order, horder, horderlen, -, horderval⟩ := ckptField_num hv "order" 1 rfl
  obtain ⟨time, htime, htimelen, htimetext, -⟩ := ckptField_num hv "time" 2 rfl
  obtain ⟨size, hsize, -, -, hsizeval⟩ := ckptField_num hv "size" 3 rfl
  obtain ⟨gen, hgen, hgenlen, -, hgenval⟩ := ckptField_num hv "write_gen" 11 rfl
  have hfake : addr.len = 0 ↔ ck.raw = [] := by
    rw [haddrlen, length_eq_zero_iff, rawToHex_eq_nil_iff]
  have hsec : scanU64 time.text = some ck.sec := by
    rw [htimetext, ← natText_eq_intText, scanU64_natText h.sec_lt]
  have htimeok : ¬(time.len = 0 ∨ 63 < time.len) := by
    have := length_natText_le h.sec_lt
    rw [natText_eq_intText] at this
    rw [htimelen, not_or]
    exact ⟨hpos _, by omega⟩
  -- The fields that may be missing.
  have h4 := ckptRenamedField_eq hv "newest_start_durable_ts" "start_durable_ts" 4
    h.ta_fits.newestStartDurableTs rfl
  have h5 := ckptOptField_eq hv "oldest_start_ts" 5 h.ta_fits.oldestStartTs rfl
  have h6 := ckptOptField_eq hv "newest_txn" 6 h.ta_fits.newestTxn rfl
  have h7 := ckptRenamedField_eq hv "newest_stop_durable_ts" "stop_durable_ts" 7
    h.ta_fits.newestStopDurableTs rfl
  have h8 := ckptOptField_eq hv "newest_stop_ts" 8 h.ta_fits.newestStopTs rfl
  have h9 := ckptOptField_eq hv "newest_stop_txn" 9 h.ta_fits.newestStopTxn rfl
  have h10 := ckptOptField_num hv "prepare" 10 rfl
  have h12 := ckptOptField_eq hv "run_write_gen" 12 h.runWriteGen_lt rfl
  have hprepare : decide (toUint64 (clampLong (if ck.ta.prepare then 1 else 0)) % 2 ^ 8 ≠ 0) =
      ck.ta.prepare := by
    cases ck.ta.prepare <;> decide
  have hta : checkAddrValidity { ck.ta with initMerge := false } = .ok () :=
    checkAddrValidity_of_ok h.ta_valid
  have horder64 : order.val = ck.order := horderval.trans (clampLong_of_mem h.order_ge h.order_lt)
  have hsize64 : toUint64 size.val = ck.size := hsizeval ▸ toUint64_clampLong_toInt64 h.size_lt
  have hgen64 : toUint64 gen.val = ck.writeGen := hgenval ▸ toUint64_clampLong_toInt64 h.writeGen_lt
  unfold ckptLoad
  simp only [bind, Except.bind, haddr, horder, htime, hsec, hsize, hgen, h4, h5, h6, h7, h8, h9,
    h10, h12, if_neg htimeok, horderlen, hgenlen, if_neg (hpos _), hk, Option.getD_some, hprepare,
    hta, horder64, hsize64, hgen64, haddrtext]
  rw [reloaded]
  by_cases hnil : ck.raw = []
  · simp [hfake, hnil]
  · simp [hfake, hnil, nhexToRaw_rawToHex]

end MetaCkpt

/-! ### The round trip -/

/-- Every entry of the list is loaded. -/
lemma mapM_ckptLoad (h : ∀ ck ∈ cks, ck.Ok) (tail : List Char) :
    (entryItems 0 (cks.map entry) tail).mapM
        (fun kv => ckptLoad kv.1 (configProcessValue kv.2)) =
      .ok (cks.map reloaded) := by
  induction cks with
  | nil => rfl
  | cons ck cks ih =>
    have hck : ck.Ok := h ck mem_cons_self
    have hload : ∀ r₁ r₂, ckptLoad (ck.entry.key.item r₁ 0)
        (configProcessValue (ck.entry.valueItem r₂)) = .ok ck.reloaded := by
      intro r₁ r₂
      rw [configProcessValue_of_type]
      · refine ckptLoad_eq (item_text ck.token r₂ 1) hck ?_
        rw [item_text]
        exact (nameToken_eq (keyWord_nameText hck.name).1).1
      · exact ⟨nofun, nofun⟩
    rw [map_cons, entryItems, mapM_cons, hload,
      ih fun c hc => h c (mem_cons_of_mem ck hc)]
    rfl

/-- What is read from the text of a list. -/
lemma metaCkptlistGetFromConfig_eq {sort : CkptSort}
    (h : ∀ ck ∈ liveCkpts cks, ck.Ok) :
    metaCkptlistGetFromConfig sort (entriesText ((ckptlistFields cks).map fieldEntry) []) =
      if (liveCkpts cks).map reloaded = [] then .error (.config .notFound)
      else .ok (sort.run ((liveCkpts cks).map reloaded)) := by
  have hentries : ∀ e ∈ (liveCkpts cks).map entry, e.Ok := by
    intro e he
    obtain ⟨ck, hck, rfl⟩ := mem_map.mp he
    exact entry_ok (h ck hck)
  have hlist : (ofEntries '(' ((liveCkpts cks).map entry) ')').Ok :=
    ofEntries_ok (by decide) (by decide) hentries
  have hname : FieldName "checkpoint".toList := by decide
  have hnames : ∀ f ∈ ckptlistFields cks, FieldName f.1 := by
    intro f hf
    rw [mem_singleton.mp hf]
    exact hname
  have hnodup : ((ckptlistFields cks).map Prod.fst).Nodup := nodup_singleton _
  have hall : configAll (configInit (entriesText ((ckptlistFields cks).map fieldEntry) [])) =
      (entryItems 0 ((ckptlistFields cks).map fieldEntry) [], .notFound) := by
    refine configAll_top (fieldEntry_ok hname hlist) (fun e he => absurd he not_mem_nil) ?_
    exact show (word "checkpoint".toList).type ≠ .struct by decide
  let list : Token := .ofEntries '(' ((liveCkpts cks).map entry) ')'
  obtain ⟨r, -, hget⟩ := configGetraw_of_mem hnames hall hnodup (show WordEnds [] from trivial)
    (mem_singleton_self ("checkpoint".toList, list))
  have hitems : configAll (configSubinit (list.item r 1)) =
      (entryItems 0 ((liveCkpts cks).map entry) [')'], .notFound) := by
    rw [configSubinit, item_text, ofEntries_text]
    exact configAll_bracket (by decide) (by decide) hentries
  rw [metaCkptlistGetFromConfig, configGetones, hget, configProcessValue_of_type]
  · dsimp only
    rw [hitems, mapM_ckptLoad h]
    rfl
  · exact ⟨nofun, nofun⟩

/-- Checkpoints in creation order stay as they are. -/
lemma CkptSort.run_eq (sort : CkptSort)
    (h : cks.Pairwise fun a b => a.order < b.order) : sort.run cks = cks := by
  refine List.Perm.eq_of_pairwise ?_ (sort.sorted cks) (h.imp fun hab => hab.le) (sort.perm cks)
  intro a b ha hb hab hba
  obtain ⟨i, hi, rfl⟩ := getElem_of_mem ((sort.perm cks).mem_iff.mp ha)
  obtain ⟨j, hj, rfl⟩ := getElem_of_mem hb
  have hlt := pairwise_iff_getElem.mp h
  rcases lt_trichotomy i j with hij | rfl | hij
  · exact absurd (hlt i j hi hj hij) (not_lt.mpr hba)
  · rfl
  · exact absurd (hlt j i hj hi hij) (not_lt.mpr hab)

/-- **The checkpoint list is read back**: if every name is one word of the configuration grammar,
the checkpoints that are not deleted are read back in creation order, an internal name with the
order behind it. -/
theorem ckptlist_round_trip (sort : CkptSort) (cks : List MetaCkpt)
    (h : ∀ ck ∈ liveCkpts cks, ck.Ok) :
    ∃ config, metaCkptlistToMeta cks = .ok config ∧
      (liveCkpts cks = [] → metaCkptlistGetFromConfig sort config = .error (.config .notFound)) ∧
      (liveCkpts cks ≠ [] → ∃ out, metaCkptlistGetFromConfig sort config = .ok out ∧
        out.Perm ((liveCkpts cks).map reloaded) ∧
        (out.Pairwise fun a b => a.order ≤ b.order) ∧
        (((liveCkpts cks).Pairwise fun a b => a.order < b.order) →
          out = (liveCkpts cks).map reloaded)) := by
  refine ⟨_, metaCkptlistToMeta_eq h, ?_, ?_⟩
  · intro hnil
    rw [metaCkptlistGetFromConfig_eq h, hnil]
    rfl
  · intro hne
    refine ⟨_, (metaCkptlistGetFromConfig_eq h).trans (if_neg fun hmap => hne ?_), sort.perm _,
      sort.sorted _, ?_⟩
    · exact map_eq_nil_iff.mp hmap
    · intro hsorted
      exact sort.run_eq (pairwise_map.mpr hsorted)

/-- Sorting by insertion. -/
def CkptSort.insertion : CkptSort where
  run := List.insertionSort fun a b => a.order ≤ b.order
  perm := perm_insertionSort _
  sorted cks := by
    exact pairwise_insertionSort _ cks

/-- A checkpoint of the given name and order, with a cookie of two bytes. -/
def namedCkpt (name : String) (order : ℤ) : MetaCkpt where
  name := name.toList
  order := order
  sec := 1700000000
  size := 4096
  writeGen := 7
  runWriteGen := 2 ^ 64 - 1
  ta := .init
  addr := []
  raw := [0x01, 0xab]
  changed := true
  deleted := false
  fake := false

lemma namedCkpt_ok {name : String} {order : ℤ} (hname : KeyWord name.toList)
    (hge : -2 ^ 63 ≤ order) (hlt : order < 2 ^ 63) : (namedCkpt name order).Ok where
  name := hname
  order_ge := hge
  order_lt := hlt
  sec_lt := show 1700000000 < 2 ^ 64 by decide
  size_lt := show 4096 < 2 ^ 64 by decide
  writeGen_lt := show 7 < 2 ^ 64 by decide
  runWriteGen_lt := show 2 ^ 64 - 1 < 2 ^ 64 by decide
  ta_fits := show TimeAggregate.init.Fits from
    ⟨by decide, by decide, by decide, by decide, by decide, by decide⟩
  ta_valid := show timeAggregateValidate .init none = .ok () by decide
  addr := fun h => absurd h (show true ≠ false by decide)

theorem ckptlist_round_trip_two :
    ∃ config, metaCkptlistToMeta [namedCkpt "daily" 1, namedCkpt "WiredTigerCheckpoint" 2] =
        .ok config ∧
      metaCkptlistGetFromConfig .insertion config =
        .ok [(namedCkpt "daily" 1).reloaded, (namedCkpt "WiredTigerCheckpoint" 2).reloaded] := by
  have hok : ∀ ck ∈ liveCkpts [namedCkpt "daily" 1, namedCkpt "WiredTigerCheckpoint" 2], ck.Ok := by
    intro ck hck
    rcases mem_cons.mp (mem_filter.mp hck).1 with rfl | hck
    · exact namedCkpt_ok (by decide) (by decide) (by decide)
    · rw [mem_singleton.mp hck]
      exact namedCkpt_ok (by decide) (by decide) (by decide)
  obtain ⟨config, hconfig, -, hget⟩ := ckptlist_round_trip .insertion _ hok
  obtain ⟨out, hout, -, -, heq⟩ := hget (cons_ne_nil _ _)
  refine ⟨config, hconfig, hout.trans (congrArg _ (heq ?_))⟩
  exact pairwise_pair.mpr (show (1 : ℤ) < 2 by decide)

/-- A name that stands for two words is taken, and the list cannot be read back; an internal name
comes back as another one. -/
theorem ckptlist_name_differs :
    checkpointNameOk "a=b".toList = .ok () ∧
      (metaCkptlistToMeta [namedCkpt "a=b" 1]).bind (metaCkptlistGetFromConfig .insertion) =
        .error (.config .notFound) ∧
      ((metaCkptlistToMeta [namedCkpt "WiredTigerCheckpoint" 2]).bind
          (metaCkptlistGetFromConfig .insertion)).map (List.map name) =
        .ok ["WiredTigerCheckpoint.2".toList] := by
  decide +kernel

end WiredTiger
