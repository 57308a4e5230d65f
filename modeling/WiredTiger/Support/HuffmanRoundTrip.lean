/-
# Huffman encoding loses nothing, unless a frequency does

Each byte is given a frequency of at least 1, so that it has a code.  The frequencies have 32 bits,
and one that is a multiple of `2 ^ 32` is 0: its byte is dropped from the tree and has no code.  A
table may well contain the frequency `2 ^ 32 - 1`.
-/
import WiredTiger.Support.HuffmanCodec

namespace WiredTiger

open Lib List Nat Except UInt8 IndexedSymbol FreqTree

/-! ### Frequencies -/

/-- What a symbol of the table adds to the frequency of a byte. -/
def symbolFrequency (numbytes : ℕ) (b : UInt8) (s : IndexedSymbol) : ℕ :=
  (if s.symbol.toUInt8 = b then s.frequency.toNat else 0) +
    if numbytes = 2 ∧ (s.symbol >>> 8).toUInt8 = b then s.frequency.toNat else 0

/-- How often a byte is expected: once, and as often as the table says. -/
def expectedFrequency (numbytes : ℕ) (table : List IndexedSymbol) (b : UInt8) : ℕ :=
  1 + (table.map (symbolFrequency numbytes b)).sum

lemma addFrequency_toNat (freqs : UInt8 → UInt32) (b b' : UInt8) (x : UInt32) :
    (addFrequency freqs b' x b).toNat =
      ((freqs b).toNat + if b' = b then x.toNat else 0) % 2 ^ 32 := by
  by_cases hb : b' = b
  · subst hb
    rw [addFrequency, Function.update_self, UInt32.toNat_add, if_pos rfl]
  · rw [addFrequency, Function.update_of_ne (Ne.symm hb), if_neg hb, add_zero,
      mod_eq_of_lt (UInt32.toNat_lt _)]

section

variable (numbytes : ℕ) (b : UInt8)

lemma addSymbol_toNat (freqs : UInt8 → UInt32) (s : IndexedSymbol) :
    (addSymbol numbytes freqs s b).toNat =
      ((freqs b).toNat + symbolFrequency numbytes b s) % 2 ^ 32 := by
  rw [addSymbol, symbolFrequency]
  by_cases hn : numbytes = 2
  · rw [if_pos hn, addFrequency_toNat, addFrequency_toNat]
    simp only [hn, true_and]
    omega
  · rw [if_neg hn, addFrequency_toNat]
    simp [hn, false_and, add_zero]

lemma foldl_addSymbol_toNat (table : List IndexedSymbol) (freqs : UInt8 → UInt32) :
    (table.foldl (addSymbol numbytes) freqs b).toNat =
      ((freqs b).toNat + (table.map (symbolFrequency numbytes b)).sum) % 2 ^ 32 := by
  induction table generalizing freqs with
  | nil =>
    rw [foldl_nil, map_nil, sum_nil, add_zero,
      mod_eq_of_lt (UInt32.toNat_lt _)]
  | cons s table ih =>
    rw [foldl_cons, ih, addSymbol_toNat, map_cons, sum_cons]
    omega

/-- The frequency of a byte is 0 if what is expected is a multiple of `2 ^ 32`. -/
lemma frequency_pos_iff (table : List IndexedSymbol) :
    0 < table.foldl (addSymbol numbytes) (fun _ => 1) b ↔
      ¬2 ^ 32 ∣ expectedFrequency numbytes table b := by
  rw [UInt32.lt_iff_toNat_lt, foldl_addSymbol_toNat, expectedFrequency, dvd_iff_mod_eq_zero]
  exact pos_iff_ne_zero

end

/-! ### The leaves -/

lemma mem_allSymbols (b : UInt8) : b ∈ allSymbols :=
  mem_map.mpr ⟨b.toNat, mem_range.mpr b.toNat_lt, UInt8.ofNat_toNat⟩

lemma nodup_allSymbols : allSymbols.Nodup := by
  refine List.Nodup.map_on (fun a ha b hb hab => ?_) nodup_range
  have h := congrArg toNat hab
  rwa [toNat_ofNat', toNat_ofNat', mod_eq_of_lt (mem_range.mp ha),
    mod_eq_of_lt (mem_range.mp hb)] at h

section

variable (byFrequency : Qsort frequency) (numbytes : ℕ) (table : List IndexedSymbol)

/-- The leaves are the bytes with a frequency. -/
lemma symbols_queueLeaves :
    (treesSymbols (queueLeaves (byFrequency.run (indexedFreqs numbytes table)))).Perm
      (allSymbols.filter fun b => 0 < table.foldl (addSymbol numbytes) (fun _ => 1) b) := by
  have hsyms : ∀ l : List IndexedSymbol, treesSymbols (queueLeaves l) =
      (l.filter fun s => 0 < s.frequency).map fun s => s.symbol.toUInt8 := by
    intro l
    rw [treesSymbols, queueLeaves, flatMap_map]
    exact flatMap_pure_eq_map _ _
  rw [hsyms]
  refine (((byFrequency.perm _).filter _).map _).trans ?_
  rw [indexedFreqs, filter_map, map_map]
  refine List.Perm.of_eq ((map_congr_left fun b _ => ?_).trans (map_id _))
  exact toUInt8_toUInt32 b

lemma length_queueLeaves_le :
    (queueLeaves (byFrequency.run (indexedFreqs numbytes table))).length ≤ 256 := by
  rw [queueLeaves, length_map]
  refine (length_filter_le _ _).trans ?_
  rw [(byFrequency.perm _).length_eq, indexedFreqs, length_map, allSymbols, length_map,
    length_range]

lemma treesWeight_queueLeaves_lt :
    treesWeight (queueLeaves (byFrequency.run (indexedFreqs numbytes table))) < 2 ^ 64 - 1 := by
  have hlen := length_queueLeaves_le byFrequency numbytes table
  generalize hl : queueLeaves (byFrequency.run (indexedFreqs numbytes table)) = leaves at hlen
  have hweight : ∀ w ∈ leaves.map weight, w ≤ 2 ^ 32 := by
    intro w hw
    obtain ⟨t, ht, rfl⟩ := mem_map.mp hw
    rw [← hl, queueLeaves] at ht
    obtain ⟨s, -, rfl⟩ := mem_map.mp ht
    exact (UInt32.toNat_lt _).le
  have hsum := sum_le_card_nsmul _ _ hweight
  rw [length_map, smul_eq_mul] at hsum
  rw [treesWeight]
  omega

end

/-! ### The descriptor -/

/-- Codes of different leaves are not mixed up. -/
lemma Coded.apart {codes : UInt8 → HuffmanCode} {syms : List UInt8} {lo hi a b : ℕ}
    (hcoded : Coded codes syms lo hi a b) {s s' : UInt8} (hs : s ∈ syms) (hs' : s' ∈ syms)
    (hne : s ≠ s') :
    (codes s).stop ≤ (codes s').start ∨ (codes s').stop ≤ (codes s).start := by
  have hpair : syms.Pairwise fun s s' =>
      (codes s).stop ≤ (codes s').start ∨ (codes s').stop ≤ (codes s).start :=
    hcoded.ordered.imp Or.inl
  have hsymm : Std.Symm fun s s' =>
      (codes s).stop ≤ (codes s').start ∨ (codes s').stop ≤ (codes s).start := ⟨fun _ _ => Or.symm⟩
  exact hpair.forall hs hs' hne

lemma HuffmanCode.pattern_lt_of_stop_le {c : HuffmanCode} (hlen : c.length ≤ 16)
    (hstop : c.stop ≤ 2 ^ 16) : c.pattern < 2 ^ c.length := by
  have hpow : 2 ^ 16 = 2 ^ c.length * 2 ^ (16 - c.length) := by
    rw [← Nat.pow_add, Nat.add_sub_cancel' hlen]
  rw [HuffmanCode.stop, hpow] at hstop
  exact Nat.le_of_mul_le_mul_right hstop (Nat.two_pow_pos _)

lemma HuffmanCode.start_lt_stop (c : HuffmanCode) : c.start < c.stop :=
  Nat.mul_lt_mul_of_pos_right (Nat.lt_succ_self _) (Nat.two_pow_pos _)

/-- A code that starts with another one is inside its range. -/
lemma HuffmanCode.range_le {c c' : HuffmanCode} (hle : c.length ≤ c'.length)
    (hmax : c'.length ≤ 16) (hdiv : c'.pattern / 2 ^ (c'.length - c.length) = c.pattern) :
    c.start ≤ c'.start ∧ c'.stop ≤ c.stop := by
  have hpow : 2 ^ (16 - c.length) = 2 ^ (c'.length - c.length) * 2 ^ (16 - c'.length) := by
    rw [← Nat.pow_add]
    congr 1
    omega
  have hdiv := (Nat.div_eq_iff (Nat.two_pow_pos _)).mp hdiv
  have hpos := Nat.two_pow_pos (c'.length - c.length)
  rw [start, start, stop, stop, hpow, ← Nat.mul_assoc, ← Nat.mul_assoc]
  refine ⟨Nat.mul_le_mul_right _ (by omega), Nat.mul_le_mul_right _ ?_⟩
  rw [Nat.add_one_mul]
  omega

/-- The places of the table that are written for a symbol are between those of its neighbours. -/
lemma Floods.between {maxDepth : ℕ} (hmax : maxDepth ≤ 16) {codes : UInt8 → HuffmanCode} {s : UInt8}
    {j : ℕ} (hlen : (codes s).length ≤ maxDepth) (hf : Floods maxDepth codes s j) :
    (codes s).start ≤ j * 2 ^ (16 - maxDepth) ∧ j * 2 ^ (16 - maxDepth) < (codes s).stop := by
  have hrange := @HuffmanCode.range_le (codes s) ⟨j, maxDepth⟩ hlen hmax hf.2
  exact ⟨hrange.1, (HuffmanCode.start_lt_stop ⟨j, maxDepth⟩).trans_le hrange.2⟩

/-- **The descriptor of a tree.** -/
lemma huffmanObj_ok {root : FreqTree} (hnodup : root.symbols.Nodup)
    (hfew : root.symbols.length ≤ 2 ^ 16) :
    ∃ h, huffmanObj (some root) = .ok h ∧ h.maxDepth = min 16 root.depth ∧
      h.minDepth = min 16 root.shallow ∧
      Coded h.codes root.symbols 0 (2 ^ 16) h.minDepth h.maxDepth ∧
      (∀ s ∉ root.symbols, h.codes s = ⟨0, 0⟩) ∧
      ∀ s ∈ root.symbols, ∀ j, Floods h.maxDepth h.codes s j → h.code2symbol j = s := by
  have hcoded := @coded_setCodes 0 0 root (fun _ => ⟨0, 0⟩) hnodup (Nat.zero_le _) Nat.one_pos hfew
  have hother : ∀ s ∉ root.symbols, setCodes root.counted (fun _ => ⟨0, 0⟩) 0 0 s = ⟨0, 0⟩ :=
    fun s hs => setCodes_of_notMem hs
  have hstart : huffmanObj (some root) =
      (makeTable (min 16 root.depth) (setCodes root.counted (fun _ => ⟨0, 0⟩) 0 0)).map fun table =>
        ⟨min 16 root.depth, min 16 root.shallow, setCodes root.counted (fun _ => ⟨0, 0⟩) 0 0,
          table⟩ := by
    have hmax : (if max 0 (0 + root.depth) > maxCodeLength then maxCodeLength
        else max 0 (0 + root.depth)) = min 16 root.depth := by
      rw [maxCodeLength]
      split_ifs <;> omega
    rw [huffmanObj, profileTree_eq]
    simp only [hmax]
    rw [Nat.zero_add]
    rfl
  rw [hstart]
  generalize setCodes root.counted (fun _ => ⟨0, 0⟩) 0 0 = codes at hcoded hother
  have hrange : Coded codes root.symbols 0 (2 ^ 16) (min 16 root.shallow) (min 16 root.depth) := by
    rw [Nat.zero_mul, Nat.zero_add, Nat.one_mul, Nat.zero_add, Nat.zero_add, Nat.sub_zero] at hcoded
    exact { hcoded with
      length_le := fun s hs => le_min (hcoded.length_le_max s hs) (hcoded.length_le s hs) }
  have hlen : ∀ s, (codes s).length ≤ min 16 root.depth := by
    intro s
    by_cases hs : s ∈ root.symbols
    · exact hrange.length_le s hs
    · rw [hother s hs]
      exact Nat.zero_le _
  have hpattern : ∀ s, (codes s).pattern < 2 ^ (codes s).length := by
    intro s
    by_cases hs : s ∈ root.symbols
    · exact HuffmanCode.pattern_lt_of_stop_le (hrange.length_le_max s hs) (hrange.stop_le s hs)
    · rw [hother s hs]
      exact Nat.one_pos
  obtain ⟨table, htable, hfloods⟩ := floodSymbols_ok hlen hpattern allSymbols fun _ => 0
  rw [makeTable, htable]
  refine ⟨_, rfl, rfl, rfl, hrange, hother, fun s hs j hf => ?_⟩
  refine (hfloods j).1 s (mem_allSymbols s) hf fun s' _ hf' => ?_
  by_contra hne
  have hs' : s' ∈ root.symbols := by
    by_contra hs'
    exact hf'.1 (by rw [hother s' hs'])
  have hb := hf.between (Nat.min_le_left _ _) (hlen s)
  have hb' := hf'.between (Nat.min_le_left _ _) (hlen s')
  have hapart := hrange.apart hs' hs hne
  omega

section Open

variable {bySymbol : Qsort symbol} {byFrequency : Qsort frequency}
  {table : List IndexedSymbol} {numbytes : ℕ} {h : HuffmanObj}

/-- The bytes that have a frequency. -/
def keptBytes (numbytes : ℕ) (table : List IndexedSymbol) : List UInt8 :=
  allSymbols.filter fun b => ¬2 ^ 32 ∣ expectedFrequency numbytes table b

lemma expectedFrequency_perm {table' : List IndexedSymbol} (hp : table.Perm table') (b : UInt8) :
    expectedFrequency numbytes table b = expectedFrequency numbytes table' b := by
  rw [expectedFrequency, expectedFrequency, (hp.map _).sum_eq]

/-- A table that passes the checks is turned into a tree with the bytes that have a frequency. -/
lemma huffmanOpen_eq (bySymbol : Qsort symbol)
    (byFrequency : Qsort frequency) (hn : numbytes = 1 ∨ numbytes = 2)
    (hne : table ≠ [])
    (hcheck : checkSymbols (if numbytes = 2 then 65535 else 255) none (bySymbol.run table) =
      .ok ()) :
    ∃ root : Option FreqTree, huffmanOpen bySymbol byFrequency table numbytes = huffmanObj root ∧
      (treesSymbols root.toList).Perm (keptBytes numbytes table) := by
  have hweight := treesWeight_queueLeaves_lt byFrequency numbytes (bySymbol.run table)
  have hsyms := symbols_queueLeaves byFrequency numbytes (bySymbol.run table)
  rw [huffmanOpen, if_neg (by omega), if_neg hne]
  generalize hl : queueLeaves (byFrequency.run (indexedFreqs numbytes (bySymbol.run table))) =
    leaves at hweight hsyms
  obtain ⟨root, hroot, hperm⟩ := @combineNodes_ok (2 * leaves.length + 1) leaves [] none
    (succ_pos _) (by rw [append_nil, Option.toList_none, length_nil]; omega)
    (by rwa [Option.toList_none, nil_append, append_nil])
  rw [Option.toList_none, nil_append, append_nil] at hperm
  refine ⟨root, ?_, (hperm.trans hsyms).trans (List.Perm.of_eq (filter_congr fun b _ => ?_))⟩
  · simp [hcheck, hl, hroot, bind, Except.bind]
  · rw [decide_eq_decide, frequency_pos_iff, expectedFrequency_perm (bySymbol.perm table)]

section

variable (hopen : huffmanOpen bySymbol byFrequency table numbytes = .ok h)
include hopen

/-- What `__wt_huffman_open` has done when it succeeds. -/
lemma huffmanOpen_inv :
    ∃ root : FreqTree, huffmanObj (some root) = .ok h ∧
      root.symbols.Perm (keptBytes numbytes table) := by
  have hsteps := hopen
  rw [huffmanOpen] at hsteps
  split at hsteps
  · cases hsteps
  rename_i hn
  split at hsteps
  · cases hsteps
  rename_i hne
  obtain ⟨u, hcheck, -⟩ := exists_of_bind_ok hsteps
  obtain ⟨root, hroot, hperm⟩ := huffmanOpen_eq bySymbol byFrequency (by omega) hne hcheck
  rw [hroot] at hopen
  cases root with
  | none => cases hopen
  | some root =>
    refine ⟨root, hopen, ?_⟩
    rwa [Option.toList_some, treesSymbols, flatMap_singleton] at hperm

omit hopen in
lemma nodup_of_perm_keptBytes {root : FreqTree}
    (hperm : root.symbols.Perm (keptBytes numbytes table)) :
    root.symbols.Nodup ∧ root.symbols.length ≤ 2 ^ 16 := by
  refine ⟨hperm.nodup_iff.mpr (nodup_allSymbols.filter _), ?_⟩
  rw [hperm.length_eq]
  exact (length_filter_le _ _).trans (by rw [allSymbols, length_map]; simp)

omit hopen in
lemma FreqTree.shallow_pos {t : FreqTree} (ht : 1 < t.symbols.length) : 0 < t.shallow := by
  cases t with
  | leaf s w => exact absurd ht (lt_irrefl 1)
  | node w l r => exact succ_pos _

/-- A byte without a frequency has no code. -/
lemma codes_of_dvd {b : UInt8} (hb : 2 ^ 32 ∣ expectedFrequency numbytes table b) :
    h.codes b = ⟨0, 0⟩ := by
  obtain ⟨root, hroot, hperm⟩ := huffmanOpen_inv hopen
  obtain ⟨hnodup, hfew⟩ := nodup_of_perm_keptBytes hperm
  obtain ⟨h', hobj, -, -, -, hother, -⟩ := huffmanObj_ok hnodup hfew
  obtain rfl := ok.inj (hroot.symm.trans hobj)
  refine hother b fun hmem => ?_
  have hkept := (mem_filter.mp (hperm.mem_iff.mp hmem)).2
  exact of_decide_eq_true hkept hb

/-- Codes that are apart. -/
def HuffmanObj.Apart (h : HuffmanObj) : Prop := ∀ s s', s ≠ s' →
  (h.codes s).stop ≤ (h.codes s').start ∨ (h.codes s').stop ≤ (h.codes s).start

/-- If each byte has a frequency, all is well. -/
lemma wellCoded_of_not_dvd (hfreq : ∀ b, ¬2 ^ 32 ∣ expectedFrequency numbytes table b) :
    WellCoded h ∧ h.Apart := by
  obtain ⟨root, hroot, hperm⟩ := huffmanOpen_inv hopen
  obtain ⟨hnodup, hfew⟩ := nodup_of_perm_keptBytes hperm
  obtain ⟨h', hobj, hmax, hmin, hcoded, -, hlookup⟩ := huffmanObj_ok hnodup hfew
  obtain rfl := ok.inj (hroot.symm.trans hobj)
  have hall : keptBytes numbytes table = allSymbols :=
    filter_eq_self.mpr fun b _ => decide_eq_true (hfreq b)
  rw [hall] at hperm
  have hmem : ∀ s, s ∈ root.symbols := fun s => hperm.mem_iff.mpr (mem_allSymbols s)
  have hpos : 0 < root.shallow := by
    refine shallow_pos ?_
    rw [hperm.length_eq, allSymbols, length_map, length_range]
    decide
  have hminpos : 0 < h.minDepth := by
    rw [hmin]
    omega
  refine ⟨⟨?_, hminpos, fun s => hcoded.le_length s (hmem s), fun s => hcoded.length_le s (hmem s),
    fun s => HuffmanCode.pattern_lt_of_stop_le (hcoded.length_le_max s (hmem s))
      (hcoded.stop_le s (hmem s)), fun s j hj => ?_⟩,
    fun s s' hne => hcoded.apart (hmem s) (hmem s') hne⟩
  · rw [hmax]
    exact min_le_left _ _
  · have hlen := hcoded.le_length s (hmem s)
    exact hlookup s (hmem s) j ⟨by omega, hj⟩

end

end Open

/-- No code starts with another one, as it would be inside its range. -/
lemma not_isPrefix_of_apart {h : HuffmanObj} (hc : WellCoded h) (hapart : h.Apart) {s s' : UInt8}
    (hne : s ≠ s') : ¬(h.codes s).bits <+: (h.codes s').bits := by
  intro hpre
  have hlen : (h.codes s).length ≤ (h.codes s').length := by
    have h := hpre.length_le
    rwa [HuffmanCode.bits, HuffmanCode.bits, length_bitsOf, length_bitsOf] at h
  have htake := prefix_iff_eq_take.mp hpre
  rw [HuffmanCode.bits, HuffmanCode.bits, length_bitsOf, take_bitsOf hlen] at htake
  have hlt : (h.codes s').pattern / 2 ^ ((h.codes s').length - (h.codes s).length) <
      2 ^ (h.codes s).length := by
    rw [Nat.div_lt_iff_lt_mul (Nat.two_pow_pos _), ← Nat.pow_add, Nat.add_sub_cancel' hlen]
    exact hc.pattern_lt s'
  have hrange := HuffmanCode.range_le hlen ((hc.length_le s').trans hc.maxDepth_le)
    (eq_of_bitsOf_eq (hc.pattern_lt s) hlt htake).symm
  have h₂ := (h.codes s').start_lt_stop
  have h₃ := hapart s s' hne
  omega

/-! ### The round trip -/

/-- The bytes have codes, none of which starts with another one, and a string is what its encoding
is decoded to. -/
structure RoundTrips (h : HuffmanObj) (src : List UInt8) : Prop where
  code_pos : ∀ s, 0 < (h.codes s).length
  code_le : ∀ s, (h.codes s).length ≤ 16
  apart : ∀ s s', s ≠ s' → ¬(h.codes s).bits <+: (h.codes s').bits
  decoded : (huffmanEncode h src).bind (huffmanDecode h) = .ok src

/-- Sizes are computed with 32 bits: the encoding has fewer than `2 ^ 32` bytes, and the bound for
the size of the decoded string is not cut off below that size. -/
def SizesFit (h : HuffmanObj) (src : List UInt8) : Prop :=
  ((h.encoding src).length + 10) / 8 < 2 ^ 32 ∧
    src.length ≤ (h.encoding src).length / h.minDepth % 2 ^ 32

/-- The number of bits is read back. -/
lemma codedBits_eq {first : UInt8} {n len pad : ℕ} (hfirst : first.toNat / 32 = (3 + len) % 8)
    (hlen : 8 * n = 3 + len + pad) (hpad : pad < 8) (k : ℕ) :
    codedBits k first = (k * 8 + 2 ^ 64 - pad - 3) % 2 ^ 64 := by
  have hand : (first &&& 0xE0).toNat >>> (8 - huffmanHeader) = (3 + len) % 8 := by
    rw [← hfirst, UInt8.toNat_and, shiftRight_and_distrib, huffmanHeader,
      shiftRight_eq_div_pow]
    exact and_two_pow_sub_one_of_lt_two_pow (n := 3) (by omega)
  rw [codedBits, hand, huffmanHeader]
  split_ifs with hp <;> congr 2 <;> omega

section RoundTrip

variable {h : HuffmanObj} {src : List UInt8}

/-- A string whose sizes fit is decoded. -/
lemma decoded_of_sizesFit (hc : WellCoded h) (hfit : SizesFit h src) :
    (huffmanEncode h src).bind (huffmanDecode h) = .ok src := by
  by_cases hne : src = []
  · subst hne
    rfl
  obtain ⟨first, rest, pad, henc, hfirst, hbits, hpad⟩ := huffmanEncode_ok hc hne
  obtain ⟨hsize, hroom⟩ := hfit
  have hlen := congrArg length hbits
  simp only [length_append, length_bitsOf, length_bitsOfBytes, length_replicate] at hlen
  have hcoded : codedBits (rest.length + 1) first = (h.encoding src).length := by
    rw [codedBits_eq (n := rest.length + 1) hfirst (by omega) hpad]
    omega
  have hmin := hc.minDepth_pos
  rw [henc, mod_eq_of_lt (by omega), take_of_length_le (by rw [length_cons])]
  change huffmanDecode h (first :: rest) = _
  rw [huffmanDecode, if_neg (by omega), hcoded]
  exact decodeLoop_ok hc hroom (by decide) hbits

/-- What is decoded has the size it is computed to have. -/
lemma length_of_huffmanDecode {first : UInt8} {rest out : List UInt8}
    (hdec : huffmanDecode h (first :: rest) = .ok out) :
    (h.encoding out).length = codedBits (rest.length + 1) first ∧
      out.length ≤ codedBits (rest.length + 1) first / h.minDepth % 2 ^ 32 := by
  rw [huffmanDecode] at hdec
  split_ifs at hdec
  exact length_of_decodeLoop hdec

/-- If a string is decoded, its sizes fit. -/
lemma sizesFit_of_decoded (hc : WellCoded h)
    (hdec : (huffmanEncode h src).bind (huffmanDecode h) = .ok src) : SizesFit h src := by
  by_cases hne : src = []
  · subst hne
    exact ⟨show 10 / 8 < 2 ^ 32 by decide, zero_le _⟩
  obtain ⟨first, rest, pad, henc, hfirst, hbits, hpad⟩ := huffmanEncode_ok hc hne
  have hlen := congrArg length hbits
  simp only [length_append, length_bitsOf, length_bitsOfBytes, length_replicate] at hlen
  have hbound := (hc.length_encoding_le src).trans (mul_le_mul_left _ hc.maxDepth_le)
  rw [henc] at hdec
  replace hdec : huffmanDecode h ((first :: rest).take ((rest.length + 1) % 2 ^ 32)) = .ok src :=
    hdec
  obtain ⟨k, hk⟩ : ∃ k, (rest.length + 1) % 2 ^ 32 = k := ⟨_, rfl⟩
  rw [hk] at hdec
  cases k with
  | zero => exact absurd (ok.inj hdec).symm hne
  | succ k =>
    rw [take_succ_cons] at hdec
    obtain ⟨hsame, hroom⟩ := length_of_huffmanDecode hdec
    have htake : (rest.take k).length = k := by
      rw [length_take]
      omega
    rw [htake, codedBits_eq (n := rest.length + 1) hfirst (by omega) hpad] at hsame hroom
    -- there is room for fewer than `2 ^ 32` symbols, so that there are not many bits
    rw [← hsame] at hroom
    exact ⟨by omega, hroom⟩

end RoundTrip

section

variable {bySymbol : Qsort IndexedSymbol.symbol} {byFrequency : Qsort IndexedSymbol.frequency}
  {table : List IndexedSymbol} {numbytes : ℕ} {h : HuffmanObj} {src : List UInt8}

lemma RoundTrips.not_dvd (hopen : huffmanOpen bySymbol byFrequency table numbytes = .ok h)
    (hrt : RoundTrips h src) (b : UInt8) : ¬2 ^ 32 ∣ expectedFrequency numbytes table b := by
  intro hb
  have hpos := hrt.code_pos b
  rw [codes_of_dvd hopen hb] at hpos
  exact lt_irrefl 0 hpos

lemma roundTrips_of_sizesFit (hopen : huffmanOpen bySymbol byFrequency table numbytes = .ok h)
    (hfreq : ∀ b, ¬2 ^ 32 ∣ expectedFrequency numbytes table b) (hfit : SizesFit h src) :
    RoundTrips h src := by
  obtain ⟨hc, hapart⟩ := wellCoded_of_not_dvd hopen hfreq
  exact ⟨fun s => hc.minDepth_pos.trans_le (hc.minDepth_le s),
    fun s => (hc.length_le s).trans hc.maxDepth_le,
    fun s s' hne => not_isPrefix_of_apart hc hapart hne, decoded_of_sizesFit hc hfit⟩

end

/-- **When Huffman encoding loses nothing.**  Each of the 256 bytes has a code of 1 to 16 bits, no
code starts with another one, and a string is what its encoding is decoded to, if and only if the
expected frequency of no byte is a multiple of `2 ^ 32` and the sizes of the string fit. -/
theorem huffman_roundTrips_iff {bySymbol : Qsort symbol}
    {byFrequency : Qsort frequency} {table : List IndexedSymbol} {numbytes : ℕ}
    {h : HuffmanObj} (hopen : huffmanOpen bySymbol byFrequency table numbytes = .ok h)
    (src : List UInt8) :
    RoundTrips h src ↔
      (∀ b, ¬2 ^ 32 ∣ expectedFrequency numbytes table b) ∧ SizesFit h src := by
  constructor
  · intro hrt
    have hfreq := hrt.not_dvd hopen
    exact ⟨hfreq, sizesFit_of_decoded (wellCoded_of_not_dvd hopen hfreq).1 hrt.decoded⟩
  · rintro ⟨hfreq, hfit⟩
    exact roundTrips_of_sizesFit hopen hfreq hfit

lemma WellCoded.sizesFit {h : HuffmanObj} (hc : WellCoded h) {src : List UInt8}
    (hlen : src.length < 2 ^ 28) : SizesFit h src := by
  have hbound := (hc.length_encoding_le src).trans (mul_le_mul_left _ hc.maxDepth_le)
  have hleast : src.length * h.minDepth ≤ (h.encoding src).length := by
    clear hbound hlen
    induction src with
    | nil => exact (zero_mul _).le
    | cons s src ih =>
      have hs := hc.minDepth_le s
      rw [length_encoding_cons, length_cons, add_one_mul]
      omega
  refine ⟨by omega, ?_⟩
  rw [mod_eq_of_lt ((div_le_self _ _).trans_lt (by omega))]
  exact (le_div_iff_mul_le hc.minDepth_pos).mpr hleast

/-- **Short strings** are decoded exactly if every byte has a code. -/
lemma roundTrips_short_iff {bySymbol : Qsort IndexedSymbol.symbol}
    {byFrequency : Qsort IndexedSymbol.frequency} {table : List IndexedSymbol} {numbytes : ℕ}
    {h : HuffmanObj} (hopen : huffmanOpen bySymbol byFrequency table numbytes = .ok h)
    {src : List UInt8} (hlen : src.length < 2 ^ 28) :
    RoundTrips h src ↔ ∀ b, ¬2 ^ 32 ∣ expectedFrequency numbytes table b := by
  constructor
  · intro hrt
    exact hrt.not_dvd hopen
  · intro hfreq
    exact roundTrips_of_sizesFit hopen hfreq
      ((wellCoded_of_not_dvd hopen hfreq).1.sizesFit hlen)

/-! ### A table with one symbol -/

/-- Sorting by insertion is one way to sort. -/
def Qsort.insertion (key : IndexedSymbol → UInt32) : Qsort key where
  run := insertionSort fun a b => key a ≤ key b
  perm := perm_insertionSort _
  sorted l := pairwise_insertionSort (fun a b => key a ≤ key b) l

lemma huffmanOpen_single (f : UInt32) :
    ∃ h, huffmanOpen (.insertion _) (.insertion _) [⟨97, f⟩] 1 = .ok h ∧ 0 < h.minDepth := by
  obtain ⟨root, hopen, hperm⟩ := @huffmanOpen_eq [⟨97, f⟩] 1 (.insertion _) (.insertion _)
    (.inl rfl) (cons_ne_nil _ _) rfl
  have hkept : ∀ b : UInt8, b ≠ 97 → b ∈ treesSymbols root.toList := by
    intro b hb
    have hone : expectedFrequency 1 [⟨97, f⟩] b = 1 := by
      simp [expectedFrequency, symbolFrequency, Ne.symm hb]
    refine hperm.mem_iff.mpr (mem_filter.mpr ⟨mem_allSymbols b, decide_eq_true ?_⟩)
    rw [hone]
    decide
  cases root with
  | none => exact absurd (hkept 0 (by decide)) not_mem_nil
  | some root =>
    rw [Option.toList_some, treesSymbols, flatMap_singleton] at hperm hkept
    obtain ⟨hnodup, hfew⟩ := nodup_of_perm_keptBytes hperm
    obtain ⟨h, hobj, -, hmin, -⟩ := huffmanObj_ok hnodup hfew
    refine ⟨h, hopen.trans hobj, ?_⟩
    cases root with
    | leaf s w =>
      have h₀ := mem_singleton.mp (hkept 0 (by decide))
      have h₁ := mem_singleton.mp (hkept 1 (by decide))
      exact absurd (h₀.trans h₁.symm) (by decide)
    | node w l r =>
      rw [hmin, shallow]
      omega

/-- A short string, and a table that has its byte four times. -/
theorem huffman_roundTrips_iff_single :
    ∃ h, huffmanOpen (.insertion _) (.insertion _) [⟨97, 4⟩] 1 = .ok h ∧
      (RoundTrips h [97] ↔
        (∀ b, ¬2 ^ 32 ∣ expectedFrequency 1 [⟨97, 4⟩] b) ∧ SizesFit h [97]) := by
  obtain ⟨h, hopen, -⟩ := huffmanOpen_single 4
  exact ⟨h, hopen, huffman_roundTrips_iff hopen [97]⟩

/-- The largest frequency there is: the byte has no code and is lost. -/
theorem huffman_loses_byte :
    ∃ h, huffmanOpen (.insertion _) (.insertion _) [⟨97, 4294967295⟩] 1 = .ok h ∧
      (h.codes 97).length = 0 ∧ huffmanEncode h [97] = .ok [0x60] ∧
      huffmanDecode h [0x60] = .ok [] := by
  obtain ⟨h, hopen, hmin⟩ := huffmanOpen_single 4294967295
  have hcode : h.codes 97 = ⟨0, 0⟩ := codes_of_dvd hopen (by decide)
  refine ⟨h, hopen, by rw [hcode], ?_, ?_⟩
  · have hroom : 0 < (huffmanHeader + [(97 : UInt8)].length * h.maxDepth + 7) / 8 := by
      rw [huffmanHeader]
      omega
    rw [huffmanEncode, if_neg (cons_ne_nil _ _)]
    generalize (huffmanHeader + [(97 : UInt8)].length * h.maxDepth + 7) / 8 = maxLen at hroom
    have hput : putByte maxLen [] (.ofNat (0 <<< 5)) = .ok [0] := putByte_ok hroom _
    have hsym : encodeSymbol h maxLen ⟨0, 3, 3, []⟩ 97 = .ok ⟨0, 3, 3, []⟩ := by
      rw [encodeSymbol, hcode]
      rfl
    have hflush : flushBits maxLen ⟨0, 3, 3, []⟩ = .ok [0] := hput
    simp only [huffmanHeader, foldlM_cons, foldlM_nil, hsym, hflush, bind, Except.bind, pure,
      Except.pure]
    rfl
  · rw [huffmanDecode, if_neg (by omega)]
    have hnone : codedBits (([] : List UInt8).length + 1) 0x60 = 0 := by decide
    rw [hnone, decodeLoop.eq_def]
    rfl

end WiredTiger
