/-
# Comparing keys (`include/btree_cmp_inline.h`)

Keys are byte strings.  There are three routines that compare the key a user searches for with a
key of the tree: the general one, which with `prefix` set answers whether the user's key is a
prefix of the tree's, one that skips leading bytes that are known to match and counts those that
do, and one for short keys.  The first two go over chunks of 16 bytes with vector instructions
where the machine has them.

The result of a comparison is an `Ordering`, `.gt` for a user key greater than the tree key.
A read in front of or behind a key has no result.
-/
import WiredTiger.Lib.Lex

namespace WiredTiger

open Lib Nat List

/-- A key: uninterpreted bytes. -/
abbrev Key := List UInt8

/-- The instruction sets the comparison is written for. -/
inductive Isa
  | x86
  | neon
  | scalar
  deriving DecidableEq, Repr

/-- What the comparison depends on besides the keys. -/
structure Platform where
  isa : Isa
  /-- `WT_ALIGNED_16` for the places the two keys are compared from. -/
  aligned : Key → Key → Bool

/-- `WT_VECTOR_SIZE`. -/
def vectorSize : ℕ := 16

/-- The number of bytes from which on vector instructions are used: two chunks, or one. -/
def vectorMin : Isa → Option ℕ
  | .x86 => some (vectorSize * 2)
  | .neon => some vectorSize
  | .scalar => none

/-- The vector loop over `n` chunks: the number of bytes in front of the first chunk that
differs. -/
def equalChunks : ℕ → Key → Key → ℕ
  | 0, _, _ => 0
  | n + 1, user, tree =>
    if user.take vectorSize = tree.take vectorSize then
      vectorSize + equalChunks n (user.drop vectorSize) (tree.drop vectorSize)
    else 0

/-- The bytes the vector instructions step over. -/
def vectorSkip (isa : Isa) (user tree : Key) : ℕ :=
  match vectorMin isa with
  | some m =>
    if m ≤ min user.length tree.length then
      equalChunks (min user.length tree.length / vectorSize) user tree
    else 0
  | none => 0

/-- Two bytes that differ. -/
def byteOrder (u t : UInt8) : Ordering := if u < t then .lt else .gt

/-- What is left to say about keys that are equal up to the smallest length. -/
def lengthOrder (user tree : Key) : Ordering :=
  if user.length = tree.length then .eq else if user.length < tree.length then .lt else .gt

/-- The byte loop of `__wt_lex_compare`; `none` when it runs to the end of the shorter key. -/
def scalarCompare (pfx : Bool) : Key → Key → Option Ordering
  | u :: user, t :: tree =>
    -- with `prefix`, a nul ends the comparison
    if pfx ∧ (u = 0 ∨ t = 0) then some (if u = 0 then .eq else .gt)
    else if u ≠ t then some (byteOrder u t)
    else scalarCompare pfx user tree
  | _, _ => none

/-- `__wt_lex_compare`. -/
def lexCompare (isa : Isa) (pfx : Bool) (user tree : Key) : Ordering :=
  let k := vectorSkip isa user tree
  match scalarCompare pfx (user.drop k) (tree.drop k) with
  | some o => o
  | none => if pfx ∧ user.length < tree.length then .eq else lengthOrder user tree

/-- `__wt_prefix_match`. -/
def prefixMatch (isa : Isa) (pfx tree : Key) : Ordering := lexCompare isa true pfx tree

/-- The byte loop of `__wt_lex_compare_skip`, with the number of bytes that match. -/
def scalarSkip : Key → Key → Option Ordering × ℕ
  | u :: user, t :: tree =>
    if u ≠ t then (some (byteOrder u t), 0)
    else
      let (o, n) := scalarSkip user tree
      (o, n + 1)
  | _, _ => (none, 0)

/-- `__wt_lex_compare_skip`; `matched` is the number of bytes to skip, and the result is the
comparison with the number of bytes that match.  There must be that many bytes to skip. -/
def lexCompareSkip (P : Platform) (user tree : Key) (matched : ℕ) : Option (Ordering × ℕ) :=
  if min user.length tree.length < matched then none
  else
    let u := user.drop matched
    let t := tree.drop matched
    -- on ARM the chunks are only looked at if they are aligned
    let k := if P.isa = .neon ∧ ¬ P.aligned u t then 0 else vectorSkip P.isa u t
    let (o, n) := scalarSkip (u.drop k) (t.drop k)
    some (o.getD (lengthOrder user tree), matched + k + n)

/-- `WT_COMPARE_SHORT_MAXLEN`. -/
def compareShortMaxlen : ℕ := 9

/-- The switch of `__wt_lex_compare_short` from the case `n` on; `rest` is the answer for keys
that are equal up to the smallest length. -/
def shortCase (rest : Ordering) : ℕ → Key → Key → Option Ordering
  | n + 2, u :: user, t :: tree =>
    if u ≠ t then some (byteOrder u t) else shortCase rest (n + 1) user tree
  | 1, u :: _, t :: _ => some (if u ≠ t then byteOrder u t else rest)
  | 0, u :: _, t :: _ => some (byteOrder u t)
  | _, _, _ => none

/-- `__wt_lex_compare_short`; a length that has no case goes straight to the comparison of the
first bytes. -/
def lexCompareShort (user tree : Key) : Option Ordering :=
  let len := min user.length tree.length
  shortCase (lengthOrder user tree) (if len ≤ compareShortMaxlen then len else 0) user tree

/-! ### The routines compare lexicographically -/

lemma lexCmp_cons_of_ne {u t : UInt8} (h : u ≠ t) (user tree : Key) :
    lexCmp (u :: user) (t :: tree) = byteOrder u t := by
  rw [lexCmp, if_neg h, byteOrder]

lemma lexCmp_eq_lengthOrder {user tree : Key} (h : min user.length tree.length ≤ lcp user tree) :
    lexCmp user tree = lengthOrder user tree := by
  induction user generalizing tree with
  | nil => cases tree <;> simp [lexCmp, lengthOrder]
  | cons u user ih =>
    cases tree with
    | nil => simp [lexCmp, lengthOrder]
    | cons t tree =>
      rw [lcp_cons_cons] at h
      by_cases hut : u = t
      · simp only [length_cons, hut, if_true] at h
        rw [lexCmp, if_pos hut, ih (by omega)]
        simp [lengthOrder]
      · simp [hut] at h

lemma equalChunks_le_lcp (n : ℕ) (user tree : Key)
    (h : n * vectorSize ≤ min user.length tree.length) :
    equalChunks n user tree ≤ lcp user tree := by
  induction n generalizing user tree with
  | zero => exact zero_le _
  | succ n ih =>
    rw [succ_mul] at h
    rw [equalChunks]
    split_ifs with heq
    · have hlen : vectorSize ≤ lcp user tree := le_lcp_iff.mpr ⟨by omega, by omega, heq⟩
      have hrest := ih (user.drop vectorSize) (tree.drop vectorSize)
        (by simp only [length_drop]; omega)
      have := lcp_add hlen
      omega
    · exact zero_le _

lemma vectorSkip_le_lcp (isa : Isa) (user tree : Key) :
    vectorSkip isa user tree ≤ lcp user tree := by
  rw [vectorSkip]
  split
  · split_ifs
    · exact equalChunks_le_lcp _ _ _ (div_mul_le_self _ _)
    · exact zero_le _
  · exact zero_le _

lemma scalarCompare_false (user tree : Key) :
    (scalarCompare false user tree = none ∧ min user.length tree.length ≤ lcp user tree) ∨
      scalarCompare false user tree = some (lexCmp user tree) := by
  induction user generalizing tree with
  | nil => exact Or.inl ⟨by cases tree <;> rfl, by simp⟩
  | cons u user ih =>
    cases tree with
    | nil => exact Or.inl ⟨rfl, by simp⟩
    | cons t tree =>
      by_cases hut : u = t
      · subst hut
        rcases ih tree with ⟨hnone, hle⟩ | hsome
        · refine Or.inl ⟨by simpa [scalarCompare] using hnone, ?_⟩
          simp only [length_cons, lcp_cons_cons, if_true]
          omega
        · refine Or.inr ?_
          simpa [scalarCompare, lexCmp] using hsome
      · exact Or.inr (by simp [scalarCompare, hut, lexCmp_cons_of_ne hut])

/-- Without `prefix`, the general routine compares lexicographically. -/
theorem lexCompare_false (isa : Isa) (user tree : Key) :
    lexCompare isa false user tree = lexCmp user tree := by
  have hk := vectorSkip_le_lcp isa user tree
  simp only [lexCompare]
  rcases scalarCompare_false (user.drop (vectorSkip isa user tree))
    (tree.drop (vectorSkip isa user tree)) with ⟨hnone, hle⟩ | hsome
  · have hlcp := lcp_add hk
    simp only [length_drop] at hle
    rw [hnone, lexCmp_eq_lengthOrder (by omega)]
    simp
  · rw [hsome, lexCmp_drop hk]

lemma scalarSkip_eq (user tree : Key) :
    scalarSkip user tree =
      (if min user.length tree.length ≤ lcp user tree then none else some (lexCmp user tree),
        lcp user tree) := by
  induction user generalizing tree with
  | nil => cases tree <;> simp [scalarSkip]
  | cons u user ih =>
    cases tree with
    | nil => simp [scalarSkip]
    | cons t tree =>
      by_cases hut : u = t
      · subst hut
        simp [scalarSkip, ih, lcp_cons_cons, lexCmp]
      · simp [scalarSkip, hut, lcp_cons_cons, lexCmp_cons_of_ne hut]

/-- Skipping bytes that match does not change the comparison, and all matching bytes are
counted. -/
theorem lexCompareSkip_eq (P : Platform) {user tree : Key} {matched : ℕ}
    (h : matched ≤ lcp user tree) :
    lexCompareSkip P user tree matched = some (lexCmp user tree, lcp user tree) := by
  have hl := lcp_le_left user tree
  have hr := lcp_le_right user tree
  have hlcp := lcp_add h
  obtain ⟨k, hk⟩ : ∃ k, k = if P.isa = .neon ∧ ¬ P.aligned (user.drop matched) (tree.drop matched)
      then 0 else vectorSkip P.isa (user.drop matched) (tree.drop matched) := ⟨_, rfl⟩
  have hkle : k ≤ lcp (user.drop matched) (tree.drop matched) := by
    rw [hk]
    split_ifs
    · exact zero_le _
    · exact vectorSkip_le_lcp _ _ _
  have hlcp' := lcp_add hkle
  have hlen : ¬ min user.length tree.length < matched := by omega
  simp only [lexCompareSkip, if_neg hlen, ← hk, scalarSkip_eq, length_drop]
  congr 2
  · split_ifs with hle
    · rw [Option.getD_none, lexCmp_eq_lengthOrder (by omega)]
    · rw [Option.getD_some, lexCmp_drop hkle, lexCmp_drop h]
  · omega

lemma shortCase_eq {n : ℕ} (hn : 0 < n) (user tree : Key)
    (hmin : min user.length tree.length = n) :
    ∀ rest, rest = lengthOrder user tree →
      shortCase rest n user tree = some (lexCmp user tree) := by
  induction n generalizing user tree with
  | zero => omega
  | succ n ih =>
    intro rest hrest
    obtain _ | ⟨u, user⟩ := user
    · simp at hmin
    obtain _ | ⟨t, tree⟩ := tree
    · simp at hmin
    by_cases hut : u = t
    · subst hut
      simp only [length_cons] at hmin
      cases n with
      | zero =>
        have hlen : lexCmp user tree = lengthOrder user tree :=
          lexCmp_eq_lengthOrder (by omega)
        simp [shortCase, lexCmp, hrest, hlen, lengthOrder]
      | succ n =>
        have := ih (by omega) user tree (by omega) rest (by simp [hrest, lengthOrder])
        simpa [shortCase, lexCmp] using this
    · cases n <;> simp [shortCase, hut, lexCmp_cons_of_ne hut]

/-- The routine for short keys compares lexicographically. -/
theorem lexCompareShort_eq {user tree : Key} (hu : user ≠ []) (ht : tree ≠ [])
    (hlen : user.length ≤ compareShortMaxlen) :
    lexCompareShort user tree = some (lexCmp user tree) := by
  have h₁ := length_pos_of_ne_nil hu
  have h₂ := length_pos_of_ne_nil ht
  have hle : min user.length tree.length ≤ compareShortMaxlen := by omega
  simp only [lexCompareShort, if_pos hle]
  exact shortCase_eq (by omega) user tree rfl _ rfl

end WiredTiger
