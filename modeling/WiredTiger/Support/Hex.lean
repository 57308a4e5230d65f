/-
# Hexadecimal text (`support/hex.c`)

Raw bytes are written as pairs of digits, or as text in which only the bytes that cannot be printed
are written so.  A timestamp is written without leading zeros, its digits last to first and then
turned around.
-/
import Mathlib

namespace WiredTiger

open List Nat

/-- `__wt_hex`. -/
def hexChar (n : ℕ) : Char := "0123456789abcdef".toList.getD n '0'

/-- `__wt_raw_to_hex`, without the nul byte at the end, which `%.*s` does not print. -/
def rawToHex (raw : List UInt8) : List Char :=
  raw.flatMap fun b => [hexChar (b.toNat / 16), hexChar (b.toNat % 16)]

/-- The value of a digit in `__wt_hex2byte`. -/
def hexValue (c : Char) : Option ℕ :=
  if '0' ≤ c ∧ c ≤ '9' then some (c.toNat - '0'.toNat)
  else if 'A' ≤ c ∧ c ≤ 'F' then some (c.toNat - 'A'.toNat + 10)
  else if 'a' ≤ c ∧ c ≤ 'f' then some (c.toNat - 'a'.toNat + 10)
  else none

/-- `__wt_nhex_to_raw`; nothing is returned for `"Invalid format in hexadecimal string"`. -/
def nhexToRaw : List Char → Option (List UInt8)
  | [] => some []
  | [_] => none
  | a :: b :: rest => do
    let hi ← hexValue a
    let lo ← hexValue b
    let raw ← nhexToRaw rest
    some (UInt8.ofNat (16 * hi + lo) :: raw)

lemma hexValue_hexChar {n : ℕ} (hn : n < 16) : hexValue (hexChar n) = some n := by
  interval_cases n <;> decide

/-- A byte is made again from its halves. -/
lemma ofNat_halves (b : UInt8) : UInt8.ofNat (16 * (b.toNat / 16) + b.toNat % 16) = b := by
  rw [div_add_mod, UInt8.ofNat_toNat]

lemma nhexToRaw_rawToHex (raw : List UInt8) : nhexToRaw (rawToHex raw) = some raw := by
  induction raw with
  | nil => rfl
  | cons b raw ih =>
    have hb : b.toNat < 256 := b.toNat_lt
    rw [rawToHex, flatMap_cons, ← rawToHex]
    simp only [cons_append, nil_append, nhexToRaw]
    rw [hexValue_hexChar (by omega), hexValue_hexChar (mod_lt _ (by decide)), ih]
    simp only [Option.bind_eq_bind, Option.bind_some, ofNat_halves]

/-! ### Escaped text -/

/-- `__wt_hex2byte`. -/
def hex2byte (a b : Char) : Option UInt8 :=
  (hexValue a).bind fun hi => (hexValue b).map fun lo => UInt8.ofNat (16 * hi + lo)

/-- What `__wt_raw_to_esc_hex` writes for a byte; which bytes are printable is up to the locale. -/
def escapeByte (isprint : UInt8 → Bool) (b : UInt8) : List Char :=
  if isprint b then
    if Char.ofUInt8 b = '\\' then ['\\', Char.ofUInt8 b] else [Char.ofUInt8 b]
  else ['\\', hexChar (b.toNat / 16), hexChar (b.toNat % 16)]

/-- `__wt_raw_to_esc_hex`, with the nul byte at the end. -/
def rawToEscHex (isprint : UInt8 → Bool) (raw : List UInt8) : List Char :=
  raw.flatMap (escapeByte isprint) ++ ['\x00']

/-- `__wt_esc_hex_to_raw`, up to the nul byte; nothing is returned for `"Invalid format in
hexadecimal string"`. -/
def escHexToRaw : List Char → Option (List UInt8)
  | [] => none
  | c :: p =>
    if c = '\x00' then some []
    else if c ≠ '\\' then (escHexToRaw p).map (c.toUInt8 :: ·)
    else
      match p with
      | a :: b :: q =>
        if a = '\\' then (escHexToRaw (b :: q)).map (c.toUInt8 :: ·)
        else if a = '\x00' ∨ b = '\x00' then none
        else (hex2byte a b).bind fun t => (escHexToRaw q).map (t :: ·)
      | _ => none

lemma hexChar_ne {n : ℕ} (hn : n < 16) : hexChar n ≠ '\x00' ∧ hexChar n ≠ '\\' := by
  interval_cases n <;> decide

lemma hex2byte_hexChar (b : UInt8) :
    hex2byte (hexChar (b.toNat / 16)) (hexChar (b.toNat % 16)) = some b := by
  have hb : b.toNat < 256 := b.toNat_lt
  rw [hex2byte, hexValue_hexChar (by omega), hexValue_hexChar (mod_lt _ (by decide))]
  dsimp only [Option.bind_some, Option.map_some]
  rw [ofNat_halves]

/-- What a byte is written as is read as the byte, whatever text follows. -/
lemma escHexToRaw_escapeByte {isprint : UInt8 → Bool} (h0 : isprint 0 = false) (b : UInt8)
    (c : Char) (q : List Char) :
    escHexToRaw (escapeByte isprint b ++ c :: q) = (escHexToRaw (c :: q)).map (b :: ·) := by
  have hb : (Char.ofUInt8 b).toUInt8 = b := by
    simp [Char.ofUInt8, Char.toUInt8]
  unfold escapeByte
  split_ifs with hp hc
  · rw [hc] at hb ⊢
    simp [escHexToRaw, hb]
  · have hne : Char.ofUInt8 b ≠ '\x00' := by
      intro h
      obtain rfl : 0 = b := by rwa [h] at hb
      exact absurd hp (by simp [h0])
    rw [cons_append, nil_append, escHexToRaw.eq_def]
    dsimp only
    rw [if_neg hne, if_pos hc, hb]
  · have hlt : b.toNat / 16 < 16 := by
      have := b.toNat_lt
      omega
    have hhi := hexChar_ne hlt
    have hlo := hexChar_ne (mod_lt b.toNat (show 16 > 0 by decide))
    rw [cons_append, escHexToRaw.eq_def]
    simp [hhi, hlo, hex2byte_hexChar]

/-! ### Timestamps -/

/-- The digits in the order in which `__wt_timestamp_to_hex_string` comes to them. -/
def timestampDigits (ts : ℕ) : List Char :=
  if ts = 0 then [] else hexChar (ts &&& 0x0f) :: timestampDigits (ts >>> 4)
decreasing_by
  rw [shiftRight_eq_div_pow]
  omega

/-- `__wt_timestamp_to_hex_string`, without the nul byte; `Array.reverse` swaps from both ends. -/
def timestampToHexString (ts : ℕ) : List Char :=
  if ts = 0 then ['0']
  else if ts = 2 ^ 64 - 1 then "ffffffffffffffff".toList
  else (timestampDigits ts).toArray.reverse.toList

/-- The values of characters in `__wt_txn_parse_timestamp_raw`. -/
def hextable : List ℤ :=
  replicate 48 (-1) ++ [0, 1, 2, 3, 4, 5, 6, 7, 8, 9] ++ replicate 7 (-1) ++
    [10, 11, 12, 13, 14, 15] ++ replicate 26 (-1) ++ [10, 11, 12, 13, 14, 15] ++ [-1]

/-- Why a timestamp is not parsed. -/
inductive ParseTsError
  /-- `"%s timestamp too long '%.*s'"` -/
  | tooLong
  /-- `"Failed to parse %s timestamp '%.*s'"` -/
  | failed
  deriving DecidableEq, Repr

/-- One character in `__wt_txn_parse_timestamp_raw`. -/
def parseTimestampStep (ts : ℕ) (c : Char) : Except ParseTsError ℕ :=
  let hexVal := hextable.getD c.toNat (-1)
  if hexVal < 0 then .error .failed else .ok ((ts <<< 4 ||| hexVal.toNat) % 2 ^ 64)

/-- `__wt_txn_parse_timestamp_raw`. -/
def txnParseTimestampRaw (cval : List Char) : Except ParseTsError ℕ :=
  if cval.length = 0 then .ok 0
  else if cval.length > 2 * 8 then .error .tooLong
  else cval.foldlM parseTimestampStep 0

lemma length_timestampDigits (n : ℕ) {ts : ℕ} (h : ts < 16 ^ n) :
    (timestampDigits ts).length ≤ n := by
  induction n generalizing ts with
  | zero =>
    obtain rfl : ts = 0 := by simpa using h
    simp [timestampDigits]
  | succ n ih =>
    rw [timestampDigits]
    split_ifs
    · exact Nat.zero_le _
    · rw [shiftRight_eq_div_pow, length_cons]
      exact succ_le_succ (ih (Nat.div_lt_of_lt_mul (pow_succ' 16 n ▸ h)))

lemma parseTimestampStep_hexChar {ts n : ℕ} (hn : n < 16) (h : 16 * ts + n < 2 ^ 64) :
    parseTimestampStep ts (hexChar n) = .ok (16 * ts + n) := by
  have hval : hextable.getD (hexChar n).toNat (-1) = n := by
    interval_cases n <;> rfl
  have hor : ts <<< 4 ||| n = 16 * ts + n := by
    rw [← shiftLeft_add_eq_or_of_lt hn, shiftLeft_eq]
    omega
  rw [parseTimestampStep, hval, if_neg (by omega), Int.toNat_natCast, hor, mod_eq_of_lt h]

lemma foldlM_timestampDigits {ts : ℕ} (h : ts < 2 ^ 64) :
    (timestampDigits ts).reverse.foldlM parseTimestampStep 0 = .ok ts := by
  induction ts using Nat.strong_induction_on with
  | h ts ih =>
    rw [timestampDigits]
    split_ifs with h0
    · rw [h0]
      rfl
    · have hdiv : ts >>> 4 = ts / 16 := shiftRight_eq_div_pow ts 4
      have hmod : ts &&& 0x0f = ts % 16 := and_two_pow_sub_one_eq_mod ts 4
      rw [reverse_cons, foldlM_append, hdiv, hmod, ih (ts / 16) (by omega) (by omega)]
      have hstep :=
        @parseTimestampStep_hexChar (ts / 16) (ts % 16) (mod_lt _ (by decide)) (by omega)
      rw [div_add_mod] at hstep
      simp only [foldlM_cons, foldlM_nil, bind_pure]
      exact hstep

/-- **Hexadecimal text reads back.** -/
theorem hex_roundTrip {isprint : UInt8 → Bool} (h0 : isprint 0 = false) :
    (∀ raw, escHexToRaw (rawToEscHex isprint raw) = some raw) ∧
      ∀ ts < 2 ^ 64, txnParseTimestampRaw (timestampToHexString ts) = .ok ts := by
  constructor
  · intro raw
    induction raw with
    | nil => rfl
    | cons b raw ih =>
      obtain ⟨c, q, hcq⟩ : ∃ c q, rawToEscHex isprint raw = c :: q :=
        exists_cons_of_ne_nil (by simp [rawToEscHex])
      rw [rawToEscHex, flatMap_cons, append_assoc, ← rawToEscHex, hcq,
        escHexToRaw_escapeByte h0, ← hcq, ih]
      rfl
  · intro ts hts
    unfold timestampToHexString
    split_ifs with hzero hmax
    · rw [hzero]
      rfl
    · rw [hmax]
      rfl
    · have hlen := @length_timestampDigits 16 ts hts
      have hne : timestampDigits ts ≠ [] := by
        rw [timestampDigits, if_neg hzero]
        exact cons_ne_nil _ _
      rw [Array.toList_reverse, txnParseTimestampRaw, length_reverse,
        if_neg (length_eq_zero_iff.not.mpr hne), if_neg (not_lt.mpr hlen)]
      exact foldlM_timestampDigits hts

theorem hex_roundTrip_ascii :
    (∀ raw, escHexToRaw (rawToEscHex (fun b => 0x20 ≤ b && b ≤ 0x7e) raw) = some raw) ∧
      ∀ ts < 2 ^ 64, txnParseTimestampRaw (timestampToHexString ts) = .ok ts :=
  hex_roundTrip (by decide)

end WiredTiger
