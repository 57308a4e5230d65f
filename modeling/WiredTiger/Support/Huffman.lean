/-
# Huffman encoding (`support/huffman.c`)

A table of frequencies is turned into a tree, the tree into codes of at most 16 bits, and the codes
into a table that maps each string of bits to the symbol whose code it starts with.  An encoded
value starts with three bits that say how many bits of its last byte are used.
-/
import WiredTiger.Lib.Bits

namespace WiredTiger

open Lib

inductive HuffmanError
  /-- `EINVAL`: illegal number of symbol bytes. -/
  | illegalBytes
  /-- `EINVAL`: illegal number of symbols. -/
  | illegalSymbols
  /-- `EINVAL`: duplicate symbol. -/
  | duplicate (symbol : UInt32)
  /-- `EINVAL`: out-of-range symbol. -/
  | outOfRange (symbol : UInt32)
  /-- `EINVAL`: decompression detected input corruption. -/
  | corruption
  /-- Memory that is not there is accessed, or a number divided by 0. -/
  | fault
  deriving DecidableEq, Repr

/-- `WT_HUFFMAN_HEADER`. -/
def huffmanHeader : ℕ := 3

/-- `MAX_CODE_LENGTH`. -/
def maxCodeLength : ℕ := 16

/-- `INDEXED_SYMBOL`. -/
structure IndexedSymbol where
  symbol : UInt32
  frequency : UInt32
  deriving DecidableEq, Repr

/-- What is known of `qsort`: the result is ordered.  Elements that compare equal are in any
order. -/
structure Qsort (key : IndexedSymbol → UInt32) where
  run : List IndexedSymbol → List IndexedSymbol
  perm : ∀ l, (run l).Perm l
  sorted : ∀ l, (run l).Pairwise fun a b => key a ≤ key b

/-! ### The tree -/

/-- `WT_FREQTREE_NODE`. -/
inductive FreqTree
  | leaf (symbol : UInt8) (weight : ℕ)
  | node (weight : ℕ) (left right : FreqTree)
  deriving DecidableEq, Repr

def FreqTree.weight : FreqTree → ℕ
  | .leaf _ w => w
  | .node w _ _ => w

/-- The weight of the first node of a queue. -/
def firstWeight : List FreqTree → ℕ
  | [] => 2 ^ 64 - 1
  | t :: _ => t.weight

/-- Dequeue the first node with the smaller weight. -/
def dequeueSmaller (leaves combined : List FreqTree) :
    Except HuffmanError (FreqTree × List FreqTree × List FreqTree) :=
  if firstWeight leaves < firstWeight combined then
    match leaves with
    | t :: leaves => .ok (t, leaves, combined)
    | [] => .error .fault
  else
    match combined with
    | t :: combined => .ok (t, leaves, combined)
    | [] => .error .fault

/-- The loop of `__wt_huffman_open` that combines nodes.  It takes one node each time around; the
first one of a pair is kept in `node`. -/
def combineNodes : ℕ → List FreqTree → List FreqTree → Option FreqTree →
    Except HuffmanError (Option FreqTree)
  | 0, _, _, _ => .error .fault
  | fuel + 1, leaves, combined, node =>
    if leaves = [] ∧ combined = [] then .ok node
    else
      match dequeueSmaller leaves combined with
      | .error e => .error e
      | .ok (t, leaves, combined) =>
        match node with
        | none => combineNodes fuel leaves combined (some t)
        | some left => combineNodes fuel leaves
            (combined ++ [.node ((left.weight + t.weight) % 2 ^ 64) left t]) none

/-- What `profile_tree` collects. -/
structure Depths where
  maxDepth : ℕ
  minDepth : ℕ
  deriving DecidableEq, Repr

/-- `profile_tree`: the depths of the leaves, and the number of leaves below each node as its
weight. -/
def profileTree : FreqTree → ℕ → Depths → FreqTree × Depths
  | .leaf symbol _, len, d =>
    (.leaf symbol 1, ⟨if d.maxDepth < len then len else d.maxDepth,
      if d.minDepth > len then len else d.minDepth⟩)
  | .node _ left right, len, d =>
    let l := profileTree left (len + 1) d
    let r := profileTree right (len + 1) l.2
    (.node (l.1.weight + r.1.weight) l.1 r.1, r.2)

/-! ### The codes -/

/-- `WT_HUFFMAN_CODE`. -/
structure HuffmanCode where
  pattern : ℕ
  length : ℕ
  deriving DecidableEq, Repr

/-- If the leaves need all remaining bits, they are numbered consecutively from here on. -/
def lowBitMode (left right : FreqTree) (pattern len : ℕ) : ℕ × ℕ :=
  let remaining := maxCodeLength - len
  let half := 2 ^ (remaining - 1)
  if len < maxCodeLength ∧ (half < left.weight ∨ half < right.weight) then
    (pattern <<< remaining % 2 ^ 16, maxCodeLength)
  else (pattern, len)

/-- `set_codes`. -/
def setCodes : FreqTree → (UInt8 → HuffmanCode) → ℕ → ℕ → UInt8 → HuffmanCode
  | .leaf symbol _, codes, pattern, len => Function.update codes symbol ⟨pattern, len⟩
  | .node _ left right, codes, pattern, len =>
    let (pattern, len) := lowBitMode left right pattern len
    if len < maxCodeLength then
      setCodes right (setCodes left codes (pattern <<< 1 % 2 ^ 16) (len + 1))
        ((pattern <<< 1 ||| 1) % 2 ^ 16) (len + 1)
    else
      setCodes right (setCodes left codes pattern len)
        ((pattern + left.weight) % 2 ^ 16) len

/-- One symbol of `make_table`: flood all bit patterns for the lower-order bits. -/
def floodSymbol (maxDepth : ℕ) (codes : UInt8 → HuffmanCode) (table : ℕ → UInt8) (i : UInt8) :
    Except HuffmanError (ℕ → UInt8) :=
  let code := codes i
  if code.length = 0 then .ok table
  else if maxDepth < code.length then .error .fault
  else
    let shift := maxDepth - code.length
    let c1 := code.pattern <<< shift
    let c2 := (code.pattern + 1) <<< shift
    if 2 ^ maxDepth < c2 then .error .fault
    else .ok fun j => if c1 ≤ j ∧ j < c2 then i else table j

/-- The symbols, in order. -/
def allSymbols : List UInt8 := (List.range 256).map UInt8.ofNat

/-- `make_table`. -/
def makeTable (maxDepth : ℕ) (codes : UInt8 → HuffmanCode) : Except HuffmanError (ℕ → UInt8) :=
  allSymbols.foldlM (floodSymbol maxDepth codes) fun _ => 0

/-! ### Opening -/

/-- `WT_HUFFMAN_OBJ`. -/
structure HuffmanObj where
  maxDepth : ℕ
  minDepth : ℕ
  codes : UInt8 → HuffmanCode
  /-- There is memory for `2 ^ maxDepth` symbols. -/
  code2symbol : ℕ → UInt8

/-- Check for invalid symbols and duplicates. -/
def checkSymbols (numSymbols : UInt32) : Option UInt32 → List IndexedSymbol →
    Except HuffmanError Unit
  | _, [] => .ok ()
  | last, s :: rest =>
    if last = some s.symbol then .error (.duplicate s.symbol)
    else if numSymbols < s.symbol then .error (.outOfRange s.symbol)
    else checkSymbols numSymbols (some s.symbol) rest

/-- `+=` on the frequency of a byte. -/
def addFrequency (freqs : UInt8 → UInt32) (b : UInt8) (frequency : UInt32) : UInt8 → UInt32 :=
  Function.update freqs b (freqs b + frequency)

/-- Add the frequency of a symbol to those of its bytes. -/
def addSymbol (numbytes : ℕ) (freqs : UInt8 → UInt32) (s : IndexedSymbol) : UInt8 → UInt32 :=
  let freqs := addFrequency freqs s.symbol.toUInt8 s.frequency
  if numbytes = 2 then addFrequency freqs (s.symbol >>> 8).toUInt8 s.frequency else freqs

/-- The massaged frequencies. -/
def indexedFreqs (numbytes : ℕ) (table : List IndexedSymbol) : List IndexedSymbol :=
  let freqs := table.foldl (addSymbol numbytes) fun _ => 1
  allSymbols.map fun b => ⟨b.toUInt32, freqs b⟩

/-- Discard the symbols with a frequency of 0. -/
def queueLeaves (freqs : List IndexedSymbol) : List FreqTree :=
  (freqs.filter fun s => 0 < s.frequency).map fun s =>
    .leaf s.symbol.toUInt8 s.frequency.toNat

/-- From the tree to the descriptor.  There is no tree if there are no leaves. -/
def huffmanObj : Option FreqTree → Except HuffmanError HuffmanObj
  | none => .error .fault
  | some root => do
    let (tree, depths) := profileTree root 0 ⟨0, maxCodeLength⟩
    let maxDepth := if depths.maxDepth > maxCodeLength then maxCodeLength else depths.maxDepth
    let codes := setCodes tree (fun _ => ⟨0, 0⟩) 0 0
    let code2symbol ← makeTable maxDepth codes
    return ⟨maxDepth, depths.minDepth, codes, code2symbol⟩

/-- `__wt_huffman_open`. -/
def huffmanOpen (bySymbol : Qsort IndexedSymbol.symbol)
    (byFrequency : Qsort IndexedSymbol.frequency) (table : List IndexedSymbol)
    (numbytes : ℕ) : Except HuffmanError HuffmanObj :=
  if numbytes ≠ 1 ∧ numbytes ≠ 2 then .error .illegalBytes
  else if table = [] then .error .illegalSymbols
  else do
    let table := bySymbol.run table
    checkSymbols (if numbytes = 2 then 65535 else 255) none table
    let leaves := queueLeaves (byFrequency.run (indexedFreqs numbytes table))
    let root ← combineNodes (2 * leaves.length + 1) leaves [] none
    huffmanObj root

/-! ### Encoding -/

/-- The shift register, the number of bits in it, and the bytes that are written. -/
structure EncodeState where
  bits : ℕ
  valid : ℕ
  bitpos : ℕ
  out : List UInt8

/-- Write a byte, if there is memory for it. -/
def putByte (maxLen : ℕ) (out : List UInt8) (b : UInt8) : Except HuffmanError (List UInt8) :=
  if out.length < maxLen then .ok (out ++ [b]) else .error .fault

/-- Drain out full bytes. -/
def drainBytes (maxLen : ℕ) : ℕ → EncodeState → Except HuffmanError EncodeState
  | 0, st => .ok st
  | fuel + 1, st =>
    if 8 ≤ st.valid then do
      let out ← putByte maxLen st.out (.ofNat (st.bits >>> (st.valid - 8)))
      drainBytes maxLen fuel { st with valid := st.valid - 8, out := out }
    else .ok st

/-- Shift the code of a symbol in. -/
def encodeSymbol (h : HuffmanObj) (maxLen : ℕ) (st : EncodeState) (symbol : UInt8) :
    Except HuffmanError EncodeState :=
  let code := h.codes symbol
  drainBytes maxLen (st.valid + code.length)
    { bits := (st.bits <<< code.length ||| code.pattern) % 2 ^ 32
      valid := st.valid + code.length
      bitpos := st.bitpos + code.length
      out := st.out }

/-- Flush the shift register. -/
def flushBits (maxLen : ℕ) (st : EncodeState) : Except HuffmanError (List UInt8) :=
  if 0 < st.valid then putByte maxLen st.out (.ofNat (st.bits <<< (8 - st.valid)))
  else .ok st.out

/-- Set the header. -/
def setPadding (bitpos : ℕ) : List UInt8 → Except HuffmanError (List UInt8)
  | [] => .error .fault
  | b :: out => .ok ((b ||| .ofNat ((bitpos % 8) <<< (8 - huffmanHeader))) :: out)

/-- `__wt_huffman_encode`. -/
def huffmanEncode (h : HuffmanObj) (src : List UInt8) : Except HuffmanError (List UInt8) :=
  if src = [] then .ok []
  else do
    let maxLen := (huffmanHeader + src.length * h.maxDepth + 7) / 8
    let st ← src.foldlM (encodeSymbol h maxLen) ⟨0, huffmanHeader, huffmanHeader, []⟩
    let out ← flushBits maxLen st
    let out ← setPadding st.bitpos out
    return out.take ((st.bitpos + 7) / 8 % 2 ^ 32)

/-! ### Decoding -/

/-- Fill the shift register. -/
def fillBits (maxDepth : ℕ) : List UInt8 → ℕ → ℕ → ℕ × ℕ × List UInt8
  | [], bits, valid => (bits, valid, [])
  | b :: src, bits, valid =>
    if valid < maxDepth then
      fillBits maxDepth src ((bits <<< 8 ||| b.toNat) % 2 ^ 32) ((valid + 8) % 256)
    else (bits, valid, b :: src)

/-- The bits to look up; patterns are short near the end. -/
def lookupPattern (maxDepth bits valid : ℕ) : ℕ :=
  (if maxDepth ≤ valid then bits >>> (valid - maxDepth) else bits <<< (maxDepth - valid) % 2 ^ 32)
    % 2 ^ 16 &&& (2 ^ maxDepth - 1)

/-- The loop of `__wt_huffman_decode`; there is memory for `room` more symbols. -/
def decodeLoop (h : HuffmanObj) : ℕ → ℕ → ℕ → ℕ → List UInt8 → Except HuffmanError (List UInt8)
  | room, fromLenBits, bits, valid, src =>
    if fromLenBits = 0 then .ok []
    else
      let (bits, valid, src) := fillBits h.maxDepth src bits valid
      let symbol := h.code2symbol (lookupPattern h.maxDepth bits valid)
      let len := (h.codes symbol).length
      if fromLenBits < len then .error .corruption
      else
        match room with
        | 0 => .error .fault
        | room + 1 => do
          let out ← decodeLoop h room (fromLenBits - len) bits ((valid + 256 - len) % 256) src
          return symbol :: out

/-- The number of bits that have codes. -/
def codedBits (fromLen : ℕ) (first : UInt8) : ℕ :=
  let paddingInfo := (first &&& 0xE0).toNat >>> (8 - huffmanHeader)
  (fromLen * 8 + 2 ^ 64 - (if paddingInfo ≠ 0 then 8 - paddingInfo else 0) - huffmanHeader) % 2 ^ 64

/-- `__wt_huffman_decode`. -/
def huffmanDecode (h : HuffmanObj) : List UInt8 → Except HuffmanError (List UInt8)
  | [] => .ok []
  | first :: src =>
    let fromLenBits := codedBits (src.length + 1) first
    if h.minDepth = 0 then .error .fault
    else decodeLoop h (fromLenBits / h.minDepth % 2 ^ 32) fromLenBits first.toNat
      (8 - huffmanHeader) src

end WiredTiger
