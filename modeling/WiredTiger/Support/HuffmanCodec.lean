/-
# Encoding and decoding with a Huffman table

The shift registers of both directions are views of one string of bits: what the encoder has not
written yet are the last bits of it, and what the decoder has read but not used are its next bits.
-/
import WiredTiger.Support.HuffmanTree
import WiredTiger.Lib.Fallible

namespace WiredTiger

open Lib List Nat

/-- What is needed of a descriptor: each symbol has a code, of a length between the depths, and the
table finds the symbol by its code, whatever follows it. -/
structure WellCoded (h : HuffmanObj) : Prop where
  maxDepth_le : h.maxDepth ≤ 16
  minDepth_pos : 0 < h.minDepth
  minDepth_le : ∀ s, h.minDepth ≤ (h.codes s).length
  length_le : ∀ s, (h.codes s).length ≤ h.maxDepth
  pattern_lt : ∀ s, (h.codes s).pattern < 2 ^ (h.codes s).length
  lookup : ∀ s j, j / 2 ^ (h.maxDepth - (h.codes s).length) = (h.codes s).pattern →
    h.code2symbol j = s

/-- The bits of a code. -/
def HuffmanCode.bits (c : HuffmanCode) : List Bool := bitsOf c.length c.pattern

/-- The codes of the symbols, one after the other. -/
def HuffmanObj.encoding (h : HuffmanObj) (src : List UInt8) : List Bool :=
  src.flatMap fun s => (h.codes s).bits

variable {h : HuffmanObj} {st : EncodeState} {done : List Bool} {src : List UInt8}
  {out : List UInt8} {maxLen : ℕ}

lemma encoding_cons (h : HuffmanObj) (s : UInt8) (src : List UInt8) :
    h.encoding (s :: src) = bitsOf (h.codes s).length (h.codes s).pattern ++ h.encoding src := rfl

lemma length_encoding_cons (h : HuffmanObj) (s : UInt8) (src : List UInt8) :
    (h.encoding (s :: src)).length = (h.codes s).length + (h.encoding src).length := by
  rw [encoding_cons, length_append, length_bitsOf]

lemma WellCoded.length_encoding_le (hc : WellCoded h) (src : List UInt8) :
    (h.encoding src).length ≤ src.length * h.maxDepth := by
  induction src with
  | nil => exact zero_le _
  | cons s src ih =>
    have hs := hc.length_le s
    rw [length_encoding_cons, length_cons, add_one_mul]
    omega

lemma WellCoded.encoding_pos (hc : WellCoded h) (hne : src ≠ []) :
    0 < (h.encoding src).length := by
  cases src with
  | nil => exact absurd rfl hne
  | cons s src =>
    have hs := hc.minDepth_le s
    have hpos := hc.minDepth_pos
    rw [length_encoding_cons]
    omega

/-! ### Encoding -/

/-- The bits that are written and those in the shift register are the bits so far. -/
structure EncodeState.Shows (st : EncodeState) (done : List Bool) : Prop where
  bits_eq : bitsOfBytes st.out ++ bitsOf st.valid st.bits = done
  bitpos_eq : st.bitpos = done.length

lemma EncodeState.Shows.length_eq (hst : st.Shows done) :
    8 * st.out.length + st.valid = done.length := by
  rw [← hst.bits_eq, length_append, length_bitsOfBytes, length_bitsOf]

lemma putByte_ok (hlt : out.length < maxLen) (b : UInt8) :
    putByte maxLen out b = .ok (out ++ [b]) := if_pos hlt

/-- Draining moves bits from the register to the bytes. -/
lemma drainBytes_ok {maxLen fuel : ℕ} (hst : st.Shows done)
    (hfuel : st.valid ≤ fuel) (hroom : done.length ≤ 8 * maxLen) :
    ∃ st', drainBytes maxLen fuel st = .ok st' ∧ st'.Shows done ∧ st'.valid < 8 := by
  induction fuel generalizing st with
  | zero => exact ⟨st, rfl, hst, by omega⟩
  | succ fuel ih =>
    rw [drainBytes]
    by_cases hfull : 8 ≤ st.valid
    · have hlen := hst.length_eq
      rw [if_pos hfull, putByte_ok (by omega)]
      have hsplit : bitsOf st.valid st.bits =
          bitsOf 8 (st.bits >>> (st.valid - 8)) ++ bitsOf (st.valid - 8) st.bits := by
        rw [Nat.shiftRight_eq_div_pow, ← bitsOf_add, Nat.add_sub_cancel' hfull]
      refine ih ⟨?_, hst.bitpos_eq⟩ (by dsimp only; omega)
      rw [← hst.bits_eq, hsplit, bitsOfBytes_append, bitsOfBytes_cons, bitsOfBytes_nil,
        append_nil, bitsOf_ofNat, append_assoc]
    · rw [if_neg hfull]
      exact ⟨st, rfl, hst, by omega⟩

/-- The code of a symbol is put behind the bits so far. -/
lemma encodeSymbol_ok (hc : WellCoded h)
    (hst : st.Shows done) (hvalid : st.valid < 8) (s : UInt8)
    (hroom : done.length + (h.codes s).length ≤ 8 * maxLen) :
    ∃ st', encodeSymbol h maxLen st s = .ok st' ∧ st'.Shows (done ++ (h.codes s).bits) ∧
      st'.valid < 8 := by
  have hlen := (hc.length_le s).trans hc.maxDepth_le
  rw [encodeSymbol]
  refine drainBytes_ok ⟨?_, ?_⟩ le_rfl ?_
  · dsimp only
    rw [bitsOf_mod (by omega), bitsOf_shiftLeft_or _ _ (hc.pattern_lt s), ← append_assoc,
      hst.bits_eq, HuffmanCode.bits]
  · rw [hst.bitpos_eq, length_append, HuffmanCode.bits, length_bitsOf]
  · rw [length_append, HuffmanCode.bits, length_bitsOf]
    exact hroom

lemma encodeSymbols_ok (hc : WellCoded h) (src : List UInt8) (hst : st.Shows done)
    (hvalid : st.valid < 8)
    (hroom : done.length + (h.encoding src).length ≤ 8 * maxLen) :
    ∃ st', src.foldlM (encodeSymbol h maxLen) st = .ok st' ∧ st'.Shows (done ++ h.encoding src) ∧
      st'.valid < 8 := by
  induction src generalizing st done with
  | nil => exact ⟨st, rfl, by rwa [HuffmanObj.encoding, flatMap_nil, append_nil], hvalid⟩
  | cons s src ih =>
    rw [length_encoding_cons] at hroom
    obtain ⟨st₁, hs, hshows, hlt⟩ := @encodeSymbol_ok h st done maxLen hc hst hvalid s
      (by omega)
    obtain ⟨st', hrest, hshows', hlt'⟩ := ih hshows hlt (by
      rw [length_append, HuffmanCode.bits, length_bitsOf]
      omega)
    refine ⟨st', ?_, ?_, hlt'⟩
    · rw [foldlM_cons, hs]
      exact hrest
    · rwa [append_assoc] at hshows'

/-- The last byte is filled up. -/
lemma flushBits_ok (hst : st.Shows done)
    (hvalid : st.valid < 8) (hroom : done.length ≤ 8 * maxLen) :
    ∃ out pad, flushBits maxLen st = .ok out ∧
      bitsOfBytes out = done ++ replicate pad false ∧ pad < 8 := by
  have hlen := hst.length_eq
  rw [flushBits]
  split_ifs with hpos
  · rw [putByte_ok (by omega)]
    refine ⟨_, 8 - st.valid, rfl, ?_, by omega⟩
    have hshift := bitsOf_shiftLeft st.valid (8 - st.valid) st.bits
    rw [Nat.add_sub_cancel' hvalid.le] at hshift
    rw [bitsOfBytes_append, bitsOfBytes_cons, bitsOfBytes_nil, append_nil, bitsOf_ofNat, hshift,
      ← append_assoc, hst.bits_eq]
  · refine ⟨_, 0, rfl, ?_, by omega⟩
    have hzero : st.valid = 0 := by omega
    rw [← hst.bits_eq, hzero, bitsOf, append_nil, replicate_zero, append_nil]

/-- The header is in front of the codes. -/
lemma setPadding_ok {body : List Bool} (bitpos : ℕ)
    (hout : bitsOfBytes out = replicate 3 false ++ body) :
    ∃ first rest, setPadding bitpos out = .ok (first :: rest) ∧
      (first :: rest).length = out.length ∧ first.toNat / 32 = bitpos % 8 ∧
      bitsOf 5 first.toNat ++ bitsOfBytes rest = body := by
  cases out with
  | nil => cases hout
  | cons b rest =>
    rw [bitsOfBytes_cons, show 8 = 3 + 5 from rfl, bitsOf_add, append_assoc] at hout
    obtain ⟨hhead, hbody⟩ := append_inj hout (by simp)
    rw [← bitsOf_zero_right, bitsOf_eq_iff] at hhead
    have hb := b.toNat_lt
    have hlow : b.toNat < 2 ^ 5 := by omega
    have hp : bitpos % 8 < 8 := Nat.mod_lt _ (by decide)
    have hor : (b ||| UInt8.ofNat ((bitpos % 8) <<< (8 - huffmanHeader))).toNat =
        bitpos % 8 * 32 + b.toNat := by
      generalize bitpos % 8 = q at hp
      rw [UInt8.toNat_or, UInt8.toNat_ofNat', Nat.or_comm, huffmanHeader, Nat.shiftLeft_eq,
        Nat.mod_eq_of_lt (by omega), Nat.mul_comm, ← Nat.two_pow_add_eq_or_of_lt hlow]
    refine ⟨_, rest, rfl, rfl, ?_, ?_⟩
    · rw [hor]
      omega
    · rw [hor, ← hbody]
      refine congrArg (· ++ bitsOfBytes rest) (bitsOf_congr ?_)
      omega

/-- **What the encoder writes.**  The header, the codes and some bits that fill the last byte; the
size has 32 bits. -/
lemma huffmanEncode_ok (hc : WellCoded h) (hne : src ≠ []) :
    ∃ first rest pad, huffmanEncode h src =
        .ok ((first :: rest).take ((rest.length + 1) % 2 ^ 32)) ∧
      first.toNat / 32 = (3 + (h.encoding src).length) % 8 ∧
      bitsOf 5 first.toNat ++ bitsOfBytes rest = h.encoding src ++ replicate pad false ∧
      pad < 8 := by
  have hbound := hc.length_encoding_le src
  have hstart : EncodeState.Shows ⟨0, huffmanHeader, huffmanHeader, []⟩ (replicate 3 false) :=
    ⟨by rw [bitsOfBytes_nil, nil_append, bitsOf_zero_right, huffmanHeader], rfl⟩
  have hroom : 3 + (h.encoding src).length ≤
      8 * ((huffmanHeader + src.length * h.maxDepth + 7) / 8) := by
    rw [huffmanHeader]
    omega
  obtain ⟨st, hfold, hst, hvalid⟩ := encodeSymbols_ok hc src hstart (by decide)
    (by rw [length_replicate]; exact hroom)
  obtain ⟨out, pad, hflush, hbits, hpad⟩ := flushBits_ok hst hvalid (by
    rw [length_append, length_replicate]
    exact hroom)
  rw [append_assoc] at hbits
  obtain ⟨first, rest, hset, hlen, hfirst, hbody⟩ := setPadding_ok st.bitpos hbits
  have hpos : st.bitpos = 3 + (h.encoding src).length := by
    rw [hst.bitpos_eq, length_append, length_replicate]
  refine ⟨first, rest, pad, ?_, by rw [hfirst, hpos], hbody, hpad⟩
  have hbytes := congrArg length hbits
  simp only [length_bitsOfBytes, length_append, length_replicate] at hbytes
  rw [length_cons] at hlen
  have hsize : (st.bitpos + 7) / 8 = rest.length + 1 := by omega
  rw [huffmanEncode, if_neg hne]
  simp [hfold, hflush, hset, hsize, bind, Except.bind, pure, Except.pure]

/-! ### Decoding -/

/-- The register is filled from the bytes. -/
lemma fillBits_ok {maxDepth : ℕ} (hmax : maxDepth ≤ 16) (src : List UInt8) {bits valid : ℕ}
    (hvalid : valid < 24) :
    ∃ bits' valid' src', fillBits maxDepth src bits valid = (bits', valid', src') ∧ valid' < 24 ∧
      bitsOf valid' bits' ++ bitsOfBytes src' = bitsOf valid bits ++ bitsOfBytes src ∧
      (maxDepth ≤ valid' ∨ src' = []) := by
  induction src generalizing bits valid with
  | nil => exact ⟨bits, valid, [], rfl, hvalid, rfl, .inr rfl⟩
  | cons b src ih =>
    rw [fillBits]
    split_ifs with hlow
    · rw [mod_eq_of_lt (show valid + 8 < 256 by omega)]
      obtain ⟨bits', valid', src', heq, hlt, hbits, hfull⟩ :=
        @ih ((bits <<< 8 ||| b.toNat) % 2 ^ 32) (valid + 8) (by omega)
      refine ⟨bits', valid', src', heq, hlt, hbits.trans ?_, hfull⟩
      rw [bitsOf_mod (by omega), bitsOf_shiftLeft_or _ _ b.toNat_lt, append_assoc,
        bitsOfBytes_cons]
    · exact ⟨bits, valid, b :: src, rfl, hvalid, rfl, .inl (by omega)⟩

/-- The bits that are looked up are the next ones. -/
lemma bitsOf_lookupPattern {maxDepth bits valid : ℕ} (hmax : maxDepth ≤ 16) :
    bitsOf maxDepth (lookupPattern maxDepth bits valid) =
      (bitsOf valid bits ++ replicate (maxDepth - valid) false).take maxDepth := by
  rw [lookupPattern, Nat.and_two_pow_sub_one_eq_mod, bitsOf_mod le_rfl, bitsOf_mod hmax]
  by_cases hle : maxDepth ≤ valid
  · rw [if_pos hle, Nat.sub_eq_zero_of_le hle, replicate_zero, append_nil,
      take_bitsOf hle, Nat.shiftRight_eq_div_pow]
  · have hshift := bitsOf_shiftLeft valid (maxDepth - valid) bits
    rw [Nat.add_sub_cancel' (by omega)] at hshift
    rw [if_neg hle, bitsOf_mod (by omega), hshift, take_of_length_le]
    rw [length_append, length_bitsOf, length_replicate]
    omega

/-- The symbol whose code is next is found. -/
lemma code2symbol_lookupPattern (hc : WellCoded h) {bits valid : ℕ} {s : UInt8} {rest : List Bool}
    (hbits : bitsOf valid bits ++ replicate (h.maxDepth - valid) false =
      (h.codes s).bits ++ rest) :
    h.code2symbol (lookupPattern h.maxDepth bits valid) = s := by
  have hlen := hc.length_le s
  have hlook := @bitsOf_lookupPattern _ bits valid hc.maxDepth_le
  refine hc.lookup s _ (eq_of_bitsOf_eq ?_ (hc.pattern_lt s) ?_)
  · have hlt : lookupPattern h.maxDepth bits valid < 2 ^ h.maxDepth := by
      rw [lookupPattern, Nat.and_two_pow_sub_one_eq_mod]
      exact Nat.mod_lt _ (Nat.two_pow_pos _)
    rw [Nat.div_lt_iff_lt_mul (Nat.two_pow_pos _), ← Nat.pow_add, Nat.add_sub_cancel' hlen]
    exact hlt
  · rw [← take_bitsOf hlen, hlook, hbits, take_take, Nat.min_eq_left hlen, HuffmanCode.bits,
      take_left' (length_bitsOf _ _)]

/-- **What the decoder reads.**  If the next bits are the codes of some symbols, with anything
behind them, and there is room for the symbols, they are decoded. -/
lemma decodeLoop_ok (hc : WellCoded h) {room bits valid : ℕ}
    {rest : List Bool} (hroom : out.length ≤ room) (hvalid : valid < 24)
    (hbits : bitsOf valid bits ++ bitsOfBytes src = h.encoding out ++ rest) :
    decodeLoop h room (h.encoding out).length bits valid src = .ok out := by
  induction out generalizing room bits valid src with
  | nil =>
    rw [decodeLoop.eq_def]
    exact if_pos rfl
  | cons s out ih =>
    obtain ⟨room, rfl⟩ : ∃ n, room = n + 1 := ⟨room - 1, by rw [length_cons] at hroom; omega⟩
    have hpos := hc.encoding_pos (cons_ne_nil s out)
    have hslen := hc.length_le s
    obtain ⟨bits', valid', src', hfill, hlt, heq, hfull⟩ :=
      @fillBits_ok _ hc.maxDepth_le src bits _ hvalid
    rw [hbits, encoding_cons, append_assoc] at heq
    -- the code of the symbol is in the register
    have hle : (h.codes s).length ≤ valid' := by
      rcases hfull with hmax | rfl
      · omega
      · have := congrArg length heq
        simp only [bitsOfBytes_nil, length_append, length_bitsOf, length_nil] at this
        omega
    have hreg := congrArg (take valid') heq
    rw [take_left' (length_bitsOf _ _), take_append, length_bitsOf,
      take_of_length_le (by rw [length_bitsOf]; exact hle)] at hreg
    have hcode := congrArg (· ++ replicate (h.maxDepth - valid') false) hreg
    have hsym : h.code2symbol (lookupPattern h.maxDepth bits' valid') = s := by
      simp only [append_assoc] at hcode
      exact code2symbol_lookupPattern hc hcode
    have hnext : bitsOf (valid' - (h.codes s).length) bits' ++ bitsOfBytes src' =
        h.encoding out ++ rest := by
      have hdrop := congrArg (drop (h.codes s).length) heq
      rwa [drop_append_of_le_length (by rw [length_bitsOf]; exact hle), drop_bitsOf hle,
        drop_left' (length_bitsOf _ _)] at hdrop
    have hmod : (valid' + 256 - (h.codes s).length) % 256 = valid' - (h.codes s).length := by
      omega
    have hsub : (h.encoding (s :: out)).length - (h.codes s).length = (h.encoding out).length := by
      rw [length_encoding_cons]
      omega
    rw [decodeLoop.eq_def]
    dsimp only
    rw [if_neg (by omega)]
    simp only [hfill, hsym, hmod, hsub]
    rw [if_neg (by rw [length_encoding_cons]; omega),
      ih (by rw [length_cons] at hroom; omega) (by omega) hnext]
    rfl

/-- What is decoded has as many bits as there are. -/
lemma length_of_decodeLoop {room fromLenBits bits valid : ℕ}
    (hdec : decodeLoop h room fromLenBits bits valid src = .ok out) :
    (h.encoding out).length = fromLenBits ∧ out.length ≤ room := by
  induction room generalizing out fromLenBits bits valid src with
  | zero =>
    rw [decodeLoop.eq_def] at hdec
    dsimp only at hdec
    split_ifs at hdec with hzero
    · cases hdec
      exact ⟨hzero.symm, le_rfl⟩
  | succ room ih =>
    rw [decodeLoop.eq_def] at hdec
    dsimp only at hdec
    split_ifs at hdec with hzero hshort
    · cases hdec
      exact ⟨hzero.symm, zero_le _⟩
    · obtain ⟨out', hrec, hout⟩ := exists_of_bind_ok hdec
      cases hout
      obtain ⟨hlen, hle⟩ := ih hrec
      rw [length_encoding_cons, length_cons]
      exact ⟨by omega, by omega⟩

end WiredTiger
