/-
# The codes of a Huffman tree

Combining nodes keeps all leaves.  `set_codes` gives each leaf a code, and the codes of a tree are
in the order of its leaves: read as numbers of 16 bits, all strings that start with the code of a
leaf are below those that start with the code of a leaf to the right.  So no code starts with
another one, and flooding the table writes each place at most once.
-/
import WiredTiger.Support.Huffman

namespace WiredTiger

open Lib List Option Function FreqTree

variable {codes : UInt8 → HuffmanCode} {pattern len : ℕ}

namespace FreqTree

/-- The symbols of the leaves, from left to right. -/
def symbols : FreqTree → List UInt8
  | leaf s _ => [s]
  | node _ l r => l.symbols ++ r.symbols

/-- The depth of the deepest leaf. -/
def depth : FreqTree → ℕ
  | leaf _ _ => 0
  | node _ l r => max l.depth r.depth + 1

/-- The depth of the leaf that is least deep. -/
def shallow : FreqTree → ℕ
  | leaf _ _ => 0
  | node _ l r => min l.shallow r.shallow + 1

/-- The tree with the numbers of leaves as weights. -/
def counted : FreqTree → FreqTree
  | leaf s _ => leaf s 1
  | node _ l r => node (l.symbols.length + r.symbols.length) l.counted r.counted

lemma weight_counted (t : FreqTree) : t.counted.weight = t.symbols.length := by
  cases t with
  | leaf s w => rfl
  | node w l r => rw [counted, weight, symbols, length_append]

lemma length_symbols_pos (t : FreqTree) : 0 < t.symbols.length := by
  induction t with
  | leaf s w => exact one_pos
  | node w l r ihl ihr =>
    rw [symbols, length_append]
    omega

/-- A tree that is not deep has few leaves. -/
lemma length_symbols_le (t : FreqTree) : t.symbols.length ≤ 2 ^ t.depth := by
  induction t with
  | leaf s w => exact le_rfl
  | node w l r ihl ihr =>
    have hl : 2 ^ l.depth ≤ 2 ^ max l.depth r.depth :=
      Nat.pow_le_pow_right Nat.two_pos (le_max_left _ _)
    have hr : 2 ^ r.depth ≤ 2 ^ max l.depth r.depth :=
      Nat.pow_le_pow_right Nat.two_pos (le_max_right _ _)
    rw [symbols, length_append, depth, Nat.pow_succ]
    omega

end FreqTree

/-- The symbols of several trees. -/
def treesSymbols (ts : List FreqTree) : List UInt8 := ts.flatMap symbols

/-- The weights of several trees, together. -/
def treesWeight (ts : List FreqTree) : ℕ := (ts.map weight).sum

lemma treesSymbols_perm {ts us : List FreqTree} (h : ts.Perm us) :
    (treesSymbols ts).Perm (treesSymbols us) := h.flatMap_right _

lemma treesWeight_perm {ts us : List FreqTree} (h : ts.Perm us) : treesWeight ts = treesWeight us :=
  (h.map _).sum_eq

lemma treesWeight_append (ts us : List FreqTree) :
    treesWeight (ts ++ us) = treesWeight ts + treesWeight us := by
  rw [treesWeight, map_append, sum_append]
  rfl

lemma treesWeight_node (w : ℕ) (l r : FreqTree) : treesWeight [.node w l r] = w := rfl

/-! ### Combining nodes -/

/-- A queue that is not empty is used, and only one node is taken out. -/
lemma dequeueSmaller_ok {leaves combined : List FreqTree}
    (hne : ¬(leaves = [] ∧ combined = [])) (hw : treesWeight (leaves ++ combined) < 2 ^ 64 - 1) :
    ∃ t leaves' combined', dequeueSmaller leaves combined = .ok (t, leaves', combined') ∧
      (t :: (leaves' ++ combined')).Perm (leaves ++ combined) := by
  rw [treesWeight_append] at hw
  simp only [dequeueSmaller]
  split_ifs with hlt
  · cases leaves with
    | nil =>
      cases combined with
      | nil => exact absurd ⟨rfl, rfl⟩ hne
      | cons u us =>
        simp only [treesWeight, map_nil, sum_nil, map_cons, sum_cons] at hw
        simp only [firstWeight] at hlt
        omega
    | cons t ts => exact ⟨t, ts, combined, rfl, List.Perm.refl _⟩
  · cases combined with
    | nil =>
      cases leaves with
      | nil => exact absurd ⟨rfl, rfl⟩ hne
      | cons t ts =>
        simp only [treesWeight, map_nil, sum_nil, map_cons, sum_cons] at hw
        simp only [firstWeight] at hlt
        omega
    | cons u us => exact ⟨u, leaves, us, rfl, perm_middle.symm⟩

/-- All leaves are in the tree that remains. -/
lemma combineNodes_ok {fuel : ℕ} {leaves combined : List FreqTree} {node : Option FreqTree}
    (hfuel : 0 < fuel)
    (hlen : 2 * (leaves ++ combined).length + node.toList.length ≤ fuel)
    (hw : treesWeight (node.toList ++ (leaves ++ combined)) < 2 ^ 64 - 1) :
    ∃ root, combineNodes fuel leaves combined node = .ok root ∧
      (treesSymbols root.toList).Perm (treesSymbols (node.toList ++ (leaves ++ combined))) := by
  induction fuel generalizing leaves combined node with
  | zero => omega
  | succ fuel ih =>
    rw [combineNodes]
    by_cases hempty : leaves = [] ∧ combined = []
    · rw [if_pos hempty]
      obtain ⟨rfl, rfl⟩ := hempty
      exact ⟨node, rfl, by rw [append_nil, append_nil]⟩
    rw [if_neg hempty]
    have hsum := treesWeight_append node.toList (leaves ++ combined)
    obtain ⟨t, leaves', combined', hdeq, hperm⟩ := dequeueSmaller_ok hempty (by omega)
    have hcount := hperm.length_eq
    rw [length_cons] at hcount
    simp only [hdeq]
    cases node with
    | none =>
      have hrest : (([t] : List FreqTree) ++ (leaves' ++ combined')).Perm
          ((none : Option FreqTree).toList ++ (leaves ++ combined)) := hperm
      obtain ⟨root, hroot, hsyms⟩ := @ih leaves' combined' (some t) (by omega)
        (by simp only [toList_some, length_singleton]; omega)
        (by rw [toList_some, treesWeight_perm hrest]; exact hw)
      exact ⟨root, hroot, hsyms.trans (treesSymbols_perm hrest)⟩
    | some left =>
      simp only [toList_some, length_singleton] at hlen
      have hboth : treesWeight (left :: t :: (leaves' ++ combined')) < 2 ^ 64 - 1 := by
        rw [treesWeight_perm (hperm.cons left)]
        exact hw
      have hpair : left.weight + t.weight + treesWeight (leaves' ++ combined') =
          treesWeight (left :: t :: (leaves' ++ combined')) := by
        simp only [treesWeight, map_cons, sum_cons]
        omega
      have hmod : (left.weight + t.weight) % 2 ^ 64 = left.weight + t.weight :=
        Nat.mod_eq_of_lt (by omega)
      simp only [hmod]
      obtain ⟨root, hroot, hsyms⟩ := @ih leaves'
        (combined' ++ [.node (left.weight + t.weight) left t]) none (by omega)
        (by
          simp only [toList_none, length_nil, length_append,
            length_singleton] at hcount hlen ⊢
          omega)
        (by
          rw [toList_none, nil_append, ← append_assoc, treesWeight_append,
            treesWeight_node]
          omega)
      refine ⟨root, hroot, hsyms.trans ?_⟩
      rw [toList_none, nil_append, ← append_assoc]
      refine (treesSymbols_perm perm_append_comm).trans ?_
      rw [show treesSymbols ([.node (left.weight + t.weight) left t] ++ (leaves' ++ combined')) =
        treesSymbols (left :: t :: (leaves' ++ combined')) from by
          simp [treesSymbols, symbols]]
      exact treesSymbols_perm (hperm.cons left)

/-! ### Profiling -/

lemma profileTree_eq (t : FreqTree) (len : ℕ) (d : Depths) :
    profileTree t len d =
      (t.counted, ⟨max d.maxDepth (len + t.depth), min d.minDepth (len + t.shallow)⟩) := by
  induction t generalizing len d with
  | leaf s w =>
    rw [profileTree, counted, depth, shallow, add_zero]
    refine congrArg _ (congrArg₂ Depths.mk ?_ ?_)
    · split_ifs <;> omega
    · split_ifs <;> omega
  | node w l r ihl ihr =>
    rw [profileTree, counted, depth, shallow]
    simp only [ihl, ihr, weight_counted]
    refine congrArg _ (congrArg₂ Depths.mk ?_ ?_)
    · omega
    · omega

/-! ### Codes -/

namespace HuffmanCode

/-- The first number of 16 bits that starts with the code. -/
def start (c : HuffmanCode) : ℕ := c.pattern * 2 ^ (16 - c.length)

/-- Behind the last number of 16 bits that starts with the code. -/
def stop (c : HuffmanCode) : ℕ := (c.pattern + 1) * 2 ^ (16 - c.length)

end HuffmanCode

/-- Leaves have codes in their order, in a range of numbers, with lengths in a range. -/
structure Coded (codes : UInt8 → HuffmanCode) (syms : List UInt8) (lo hi shortest longest : ℕ) :
    Prop where
  le_start : ∀ s ∈ syms, lo ≤ (codes s).start
  stop_le : ∀ s ∈ syms, (codes s).stop ≤ hi
  le_length : ∀ s ∈ syms, shortest ≤ (codes s).length
  length_le : ∀ s ∈ syms, (codes s).length ≤ longest
  length_le_max : ∀ s ∈ syms, (codes s).length ≤ 16
  ordered : syms.Pairwise fun s s' => (codes s).stop ≤ (codes s').start

namespace Coded

variable {codes codes' : UInt8 → HuffmanCode} {syms syms' : List UInt8}
  {lo mid hi a b a' b' : ℕ}

lemma congr (h : Coded codes syms lo hi a b) (heq : ∀ s ∈ syms, codes' s = codes s) :
    Coded codes' syms lo hi a b where
  le_start s hs := by rw [heq s hs]; exact h.le_start s hs
  stop_le s hs := by rw [heq s hs]; exact h.stop_le s hs
  le_length s hs := by rw [heq s hs]; exact h.le_length s hs
  length_le s hs := by rw [heq s hs]; exact h.length_le s hs
  length_le_max s hs := by rw [heq s hs]; exact h.length_le_max s hs
  ordered := h.ordered.imp_of_mem fun hs hs' hle => by rwa [heq _ hs, heq _ hs']

lemma mono (h : Coded codes syms lo hi a b) {lo' hi' : ℕ} (hlo : lo' ≤ lo) (hhi : hi ≤ hi')
    (ha : a' ≤ a) (hb : b ≤ b') : Coded codes syms lo' hi' a' b' where
  le_start s hs := hlo.trans (h.le_start s hs)
  stop_le s hs := (h.stop_le s hs).trans hhi
  le_length s hs := ha.trans (h.le_length s hs)
  length_le s hs := (h.length_le s hs).trans hb
  length_le_max := h.length_le_max
  ordered := h.ordered

/-- Two ranges side by side. -/
lemma append (h : Coded codes syms lo mid a b) (h' : Coded codes syms' mid hi a b)
    (hlo : lo ≤ mid) (hhi : mid ≤ hi) : Coded codes (syms ++ syms') lo hi a b where
  le_start := forall_mem_append.mpr ⟨h.le_start, fun s hs => hlo.trans (h'.le_start s hs)⟩
  stop_le := forall_mem_append.mpr ⟨fun s hs => (h.stop_le s hs).trans hhi, h'.stop_le⟩
  le_length := forall_mem_append.mpr ⟨h.le_length, h'.le_length⟩
  length_le := forall_mem_append.mpr ⟨h.length_le, h'.length_le⟩
  length_le_max := forall_mem_append.mpr ⟨h.length_le_max, h'.length_le_max⟩
  ordered := pairwise_append.mpr ⟨h.ordered, h'.ordered,
    fun s hs s' hs' => (h.stop_le s hs).trans (h'.le_start s' hs')⟩

lemma single {s : UInt8}
    (hs : codes s = ⟨pattern, len⟩) (hlen : len ≤ 16) :
    Coded codes [s] (pattern * 2 ^ (16 - len)) ((pattern + 1) * 2 ^ (16 - len)) len len := by
  have hmem : ∀ x ∈ [s], codes x = ⟨pattern, len⟩ := fun x hx => mem_singleton.mp hx ▸ hs
  exact ⟨fun x hx => by rw [hmem x hx]; exact le_rfl, fun x hx => by rw [hmem x hx]; exact le_rfl,
    fun x hx => by rw [hmem x hx], fun x hx => by rw [hmem x hx],
    fun x hx => by rw [hmem x hx]; exact hlen, pairwise_singleton _ _⟩

end Coded

/-- Codes of other symbols stay. -/
lemma setCodes_of_notMem {t : FreqTree} {s : UInt8}
    (hs : s ∉ t.symbols) : setCodes t.counted codes pattern len s = codes s := by
  induction t generalizing codes pattern len with
  | leaf x w =>
    have hne : s ≠ x := fun h => hs (mem_singleton.mpr h)
    exact update_of_ne hne _ _
  | node w l r ihl ihr =>
    rw [symbols, mem_append, not_or] at hs
    rw [counted, setCodes]
    dsimp only
    split_ifs <;> rw [ihr hs.2, ihl hs.1]

/-- Both sides of a node. -/
lemma coded_node {l r : FreqTree} {p q len lo mid hi a b : ℕ}
    (hnodup : (l.symbols ++ r.symbols).Nodup)
    (hl : Coded (setCodes l.counted codes p len) l.symbols lo mid a b)
    (hr : Coded (setCodes r.counted (setCodes l.counted codes p len) q len) r.symbols mid hi a b)
    (hlo : lo ≤ mid) (hhi : mid ≤ hi) :
    Coded (setCodes r.counted (setCodes l.counted codes p len) q len) (l.symbols ++ r.symbols)
      lo hi a b := by
  refine Coded.append (hl.congr fun s hs => ?_) hr hlo hhi
  exact setCodes_of_notMem ((disjoint_of_nodup_append hnodup) hs)

section

variable (codes : UInt8 → HuffmanCode)

/-- The low-bit mode: leaves are numbered. -/
lemma coded_lowBit {t : FreqTree} {pattern : ℕ} (hnodup : t.symbols.Nodup)
    (hlt : pattern + t.symbols.length ≤ 2 ^ 16) :
    Coded (setCodes t.counted codes pattern 16) t.symbols pattern (pattern + t.symbols.length)
      16 16 := by
  induction t generalizing codes pattern with
  | leaf s w =>
    have hs : setCodes (leaf s w).counted codes pattern 16 s = ⟨pattern, 16⟩ :=
      update_self s _ codes
    have h := Coded.single hs le_rfl
    rwa [Nat.sub_self, Nat.pow_zero, Nat.mul_one, Nat.mul_one] at h
  | node w l r ihl ihr =>
    have hpos := r.length_symbols_pos
    rw [symbols, length_append] at hlt ⊢
    rw [symbols] at hnodup
    have hlow : lowBitMode l.counted r.counted pattern 16 = (pattern, 16) := by
      rw [lowBitMode]
      exact if_neg fun h => absurd h.1 (lt_irrefl _)
    have hmod : (pattern + l.counted.weight) % 2 ^ 16 = pattern + l.symbols.length := by
      rw [weight_counted, Nat.mod_eq_of_lt (by omega)]
    rw [counted, setCodes, hlow]
    dsimp only
    rw [if_neg (show ¬16 < maxCodeLength from lt_irrefl 16), hmod]
    have hr := @ihr (setCodes l.counted codes pattern 16) (pattern + l.symbols.length)
      (List.Nodup.of_append_right hnodup) (by omega)
    rw [Nat.add_assoc] at hr
    exact coded_node hnodup (ihl codes (List.Nodup.of_append_left hnodup) (by omega)) hr
      (by omega) (by omega)

/-- Where the low-bit mode starts. -/
lemma setCodes_lowBit {w : ℕ} {l r : FreqTree} (hlen : len < 16)
    (hmany : 2 ^ (16 - len - 1) < l.symbols.length ∨ 2 ^ (16 - len - 1) < r.symbols.length)
    (hpattern : pattern < 2 ^ len) :
    setCodes (node w l r).counted codes pattern len =
      setCodes (node w l r).counted codes (pattern * 2 ^ (16 - len)) 16 := by
  have hlt : pattern * 2 ^ (16 - len) < 2 ^ 16 := by
    calc pattern * 2 ^ (16 - len) < 2 ^ len * 2 ^ (16 - len) :=
          Nat.mul_lt_mul_of_pos_right hpattern (Nat.two_pow_pos _)
      _ = 2 ^ 16 := by rw [← Nat.pow_add, Nat.add_sub_cancel' hlen.le]
  have hin : lowBitMode l.counted r.counted pattern len = (pattern * 2 ^ (16 - len), 16) := by
    simp only [lowBitMode, maxCodeLength, weight_counted]
    rw [if_pos ⟨hlen, hmany⟩, Nat.shiftLeft_eq, Nat.mod_eq_of_lt hlt]
  have hstay : lowBitMode l.counted r.counted (pattern * 2 ^ (16 - len)) 16 =
      (pattern * 2 ^ (16 - len), 16) := by
    rw [lowBitMode]
    exact if_neg fun h => absurd h.1 (lt_irrefl _)
  rw [counted, setCodes, hin, setCodes, hstay]

/-- Where there are bits enough for both sides of a node. -/
lemma setCodes_split {w : ℕ} {l r : FreqTree} (hlen : len < 16)
    (hfew : l.symbols.length ≤ 2 ^ (16 - len - 1) ∧ r.symbols.length ≤ 2 ^ (16 - len - 1))
    (hpattern : pattern < 2 ^ len) :
    setCodes (node w l r).counted codes pattern len =
      setCodes r.counted (setCodes l.counted codes (2 * pattern) (len + 1)) (2 * pattern + 1)
        (len + 1) := by
  have hmax : 2 * 2 ^ len ≤ 2 ^ 16 := by
    rw [← Nat.pow_succ']
    exact Nat.pow_le_pow_right Nat.two_pos hlen
  have hstay : lowBitMode l.counted r.counted pattern len = (pattern, len) := by
    simp only [lowBitMode, maxCodeLength, weight_counted]
    rw [if_neg (by omega)]
  have hone : pattern <<< 1 ||| 1 = 2 * pattern + 1 := by
    rw [Nat.shiftLeft_eq, Nat.mul_comm]
    exact (Nat.two_pow_add_eq_or_of_lt (show 1 < 2 ^ 1 by norm_num) pattern).symm
  rw [counted, setCodes, hstay]
  dsimp only
  rw [if_pos (show len < maxCodeLength from hlen), hone, Nat.shiftLeft_eq, Nat.pow_one,
    Nat.mul_comm pattern 2, Nat.mod_eq_of_lt (by omega), Nat.mod_eq_of_lt (by omega)]

end

/-- **The codes of a tree.**  They are in the range of the numbers that start with the pattern. -/
lemma coded_setCodes {t : FreqTree} (codes : UInt8 → HuffmanCode)
    (hnodup : t.symbols.Nodup) (hlen : len ≤ 16) (hpattern : pattern < 2 ^ len)
    (hroom : t.symbols.length ≤ 2 ^ (16 - len)) :
    Coded (setCodes t.counted codes pattern len) t.symbols (pattern * 2 ^ (16 - len))
      ((pattern + 1) * 2 ^ (16 - len)) (min 16 (len + t.shallow)) (len + t.depth) := by
  induction t generalizing codes pattern len with
  | leaf s w =>
    have hs : setCodes (leaf s w).counted codes pattern len s = ⟨pattern, len⟩ :=
      update_self s _ codes
    exact (Coded.single hs hlen).mono le_rfl le_rfl (Nat.min_le_right _ _) le_rfl
  | node w l r ihl ihr =>
    have hl := l.length_symbols_pos
    have hr := r.length_symbols_pos
    have hcount : (node w l r).symbols.length = l.symbols.length + r.symbols.length :=
      length_append
    -- a node has two leaves, so that there are bits left
    have hlt : len < 16 := by
      refine lt_of_le_of_ne hlen fun h => ?_
      rw [h, Nat.sub_self, Nat.pow_zero] at hroom
      omega
    have hpow : 2 ^ (16 - len) = 2 * 2 ^ (16 - len - 1) := by
      rw [← Nat.pow_succ', Nat.succ_eq_add_one, Nat.sub_add_cancel (by omega)]
    by_cases hfew : l.symbols.length ≤ 2 ^ (16 - len - 1) ∧ r.symbols.length ≤ 2 ^ (16 - len - 1)
    · have hpow' : 2 ^ (16 - (len + 1)) = 2 ^ (16 - len - 1) := rfl
      have hp : 2 * pattern + 1 < 2 ^ (len + 1) := by
        rw [Nat.pow_succ]
        omega
      have hcl := @ihl (2 * pattern) (len + 1) codes (List.Nodup.of_append_left hnodup) hlt
        (by omega) hfew.1
      have hcr := @ihr (2 * pattern + 1) (len + 1)
        (setCodes l.counted codes (2 * pattern) (len + 1)) (List.Nodup.of_append_right hnodup) hlt
        hp hfew.2
      rw [setCodes_split codes hlt hfew hpattern, hpow, shallow, depth]
      rw [hpow'] at hcl hcr
      have hlo : pattern * (2 * 2 ^ (16 - len - 1)) = 2 * pattern * 2 ^ (16 - len - 1) := by ring
      have hhi : (pattern + 1) * (2 * 2 ^ (16 - len - 1)) =
          (2 * pattern + 1 + 1) * 2 ^ (16 - len - 1) := by ring
      rw [hlo, hhi]
      exact coded_node hnodup (hcl.mono le_rfl le_rfl (by omega) (by omega))
        (hcr.mono le_rfl le_rfl (by omega) (by omega))
        (Nat.mul_le_mul_right _ (Nat.le_succ _)) (Nat.mul_le_mul_right _ (Nat.le_succ _))
    · have hmany : 2 ^ (16 - len - 1) < l.symbols.length ∨
          2 ^ (16 - len - 1) < r.symbols.length := by omega
      have hend : (pattern + 1) * 2 ^ (16 - len) ≤ 2 ^ 16 := by
        calc (pattern + 1) * 2 ^ (16 - len) ≤ 2 ^ len * 2 ^ (16 - len) :=
              Nat.mul_le_mul_right _ hpattern
          _ = 2 ^ 16 := by rw [← Nat.pow_add, Nat.add_sub_cancel' hlen]
      rw [Nat.add_one_mul] at hend ⊢
      -- one side of the node is deeper than there are bits left
      have hdeep : 16 ≤ len + (node w l r).depth := by
        have hside : ∀ t : FreqTree, 2 ^ (16 - len - 1) < t.symbols.length →
            16 - len - 1 < t.depth := fun t ht =>
          (Nat.pow_lt_pow_iff_right Nat.one_lt_two).mp (ht.trans_le t.length_symbols_le)
        rw [depth]
        rcases hmany with h | h
        · have := hside l h
          omega
        · have := hside r h
          omega
      rw [setCodes_lowBit codes hlt hmany hpattern]
      exact (coded_lowBit codes hnodup (by omega)).mono le_rfl (by omega) (by omega) hdeep

/-! ### The table -/

/-- The place of the table is one of those that are written for the symbol. -/
def Floods (maxDepth : ℕ) (codes : UInt8 → HuffmanCode) (s : UInt8) (j : ℕ) : Prop :=
  (codes s).length ≠ 0 ∧ j / 2 ^ (maxDepth - (codes s).length) = (codes s).pattern

/-- One symbol of `make_table`. -/
lemma floodSymbol_ok {maxDepth : ℕ} (table : ℕ → UInt8) {s : UInt8}
    (hlen : (codes s).length ≤ maxDepth) (hpattern : (codes s).pattern < 2 ^ (codes s).length) :
    ∃ table', floodSymbol maxDepth codes table s = .ok table' ∧
      ∀ j, (Floods maxDepth codes s j → table' j = s) ∧
        (¬Floods maxDepth codes s j → table' j = table j) := by
  rw [floodSymbol]
  by_cases hzero : (codes s).length = 0
  · rw [if_pos hzero]
    exact ⟨table, rfl, fun j => ⟨fun h => absurd hzero h.1, fun _ => rfl⟩⟩
  have hfit : ¬2 ^ maxDepth < ((codes s).pattern + 1) <<< (maxDepth - (codes s).length) := by
    rw [Nat.shiftLeft_eq, Nat.not_lt]
    calc ((codes s).pattern + 1) * 2 ^ (maxDepth - (codes s).length)
        ≤ 2 ^ (codes s).length * 2 ^ (maxDepth - (codes s).length) :=
          Nat.mul_le_mul_right _ hpattern
      _ = 2 ^ maxDepth := by rw [← Nat.pow_add, Nat.add_sub_cancel' hlen]
  rw [if_neg hzero, if_neg (by omega), if_neg hfit]
  refine ⟨_, rfl, fun j => ?_⟩
  have hiff : ((codes s).pattern <<< (maxDepth - (codes s).length) ≤ j ∧
      j < ((codes s).pattern + 1) <<< (maxDepth - (codes s).length)) ↔
        Floods maxDepth codes s j := by
    rw [Floods, Nat.shiftLeft_eq, Nat.shiftLeft_eq, Nat.div_eq_iff (Nat.two_pow_pos _)]
    have hpos := Nat.two_pow_pos (maxDepth - (codes s).length)
    rw [Nat.add_one_mul]
    omega
  exact ⟨fun h => if_pos (hiff.mpr h), fun h => if_neg fun h' => h (hiff.mp h')⟩

/-- All symbols, one after the other.  The last one that floods a place has it. -/
lemma floodSymbols_ok {maxDepth : ℕ}
    (hlen : ∀ s, (codes s).length ≤ maxDepth)
    (hpattern : ∀ s, (codes s).pattern < 2 ^ (codes s).length) (syms : List UInt8)
    (table : ℕ → UInt8) :
    ∃ table', syms.foldlM (floodSymbol maxDepth codes) table = .ok table' ∧
      ∀ j, (∀ s ∈ syms, Floods maxDepth codes s j →
          (∀ s' ∈ syms, Floods maxDepth codes s' j → s' = s) → table' j = s) ∧
        ((∀ s ∈ syms, ¬Floods maxDepth codes s j) → table' j = table j) := by
  induction syms generalizing table with
  | nil => exact ⟨table, rfl, fun j => ⟨fun s hs => absurd hs not_mem_nil, fun _ => rfl⟩⟩
  | cons x syms ih =>
    obtain ⟨table₁, hx, hone⟩ := floodSymbol_ok table (hlen x) (hpattern x)
    obtain ⟨table', hrest, hall⟩ := ih table₁
    refine ⟨table', ?_, fun j => ⟨fun s hs hflood huniq => ?_, fun hnone => ?_⟩⟩
    · rw [foldlM_cons, hx]
      exact hrest
    · by_cases hmem : s ∈ syms
      · exact (hall j).1 s hmem hflood fun s' hs' => huniq s' (mem_cons_of_mem _ hs')
      · obtain rfl : s = x := (mem_cons.mp hs).resolve_right hmem
        have hrest : ∀ s' ∈ syms, ¬Floods maxDepth codes s' j := by
          intro s' hs' hf
          obtain rfl := huniq s' (mem_cons_of_mem _ hs') hf
          exact hmem hs'
        rw [(hall j).2 hrest, (hone j).1 hflood]
    · rw [(hall j).2 fun s hs => hnone s (mem_cons_of_mem _ hs),
        (hone j).2 (hnone x mem_cons_self)]

end WiredTiger
