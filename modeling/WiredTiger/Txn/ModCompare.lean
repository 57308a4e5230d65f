/-
# The order of a transaction's operations (`txn/txn.c`)

Before the updates of a prepared transaction are resolved, its operations are sorted with `qsort`,
so that all updates of a key are done at the same time.  The comparison has no session and so
cannot call a collator: keys of a tree that has one compare equal.  It looks at the type of the
first operation only: a row-store update and an operation of another kind on the same tree, such as
a reserved update that `__wt_txn_prepare` has freed, are each greater than the other.
-/
import WiredTiger.Btree.Compare

namespace WiredTiger

/-- `WT_TXN_TYPE`. -/
inductive TxnType
  | none
  | basicCol
  | basicRow
  | inmemCol
  | inmemRow
  | refDelete
  | truncateCol
  | truncateRow
  deriving DecidableEq, Repr

/-- What the comparison reads of a tree. -/
structure OpTree where
  id : ℕ
  /-- Whether the tree has a collator. -/
  collator : Bool
  deriving DecidableEq, Repr

/-- An operation of a transaction.  The union is what is read of it: `key` through `op_row`, and
`recno` through `op_col`, whatever the type is.  The record number of a row-store update is the
address of its key, and `__wt_txn_op_free` clears both. -/
structure TxnModOp where
  btree : OpTree
  type : TxnType
  key : Key
  recno : ℕ
  deriving DecidableEq, Repr

/-- A row-store update. -/
def TxnModOp.IsRow (op : TxnModOp) : Prop := op.type = .basicRow ∨ op.type = .inmemRow

instance (op : TxnModOp) : Decidable op.IsRow := inferInstanceAs (Decidable (_ ∨ _))

/-- `__txn_mod_compare`; the number 1 is `.gt`. -/
def txnModCompare (isa : Isa) (a b : TxnModOp) : Ordering :=
  if a.btree.id ≠ b.btree.id then
    if a.btree.id < b.btree.id then .gt else .eq
  else if a.IsRow then
    if a.btree.collator then .eq else lexCompare isa false a.key b.key
  else if a.recno < b.recno then .gt else .eq

/-- Two operations on one tree are on the same object, and both or none are row-store updates. -/
def OpsAlike (ops : List TxnModOp) : Prop :=
  ∀ a ∈ ops, ∀ b ∈ ops, a.btree.id = b.btree.id → a.btree = b.btree ∧ (a.IsRow ↔ b.IsRow)

/-- Two operations on one tree and key. -/
def SameKey (a b : TxnModOp) : Prop :=
  a.btree = b.btree ∧ if a.IsRow then a.key = b.key else a.recno = b.recno

/-- The keys of the operation are not compared. -/
def TxnModOp.Collated (op : TxnModOp) : Prop := op.IsRow ∧ op.btree.collator = true

variable {isa : Isa} {a b c : TxnModOp} {ops : List TxnModOp}

lemma txnModCompare_eq_gt_iff : txnModCompare isa a b = .gt ↔ a.btree.id < b.btree.id ∨
    a.btree.id = b.btree.id ∧
      if a.IsRow then a.btree.collator = false ∧ b.key < a.key else a.recno < b.recno := by
  rw [txnModCompare]
  by_cases hid : a.btree.id = b.btree.id
  · rw [if_neg (not_not_intro hid)]
    by_cases hrow : a.IsRow
    · cases hc : a.btree.collator <;> simp [hid, hrow, lexCompare_false, Lib.lexCmp_eq_gt_iff]
    · simp [hid, hrow]
  · simp [hid]

/-- Rows of one tree are compared three ways. -/
lemma txnModCompare_swap (hid : a.btree = b.btree) (ha : a.IsRow) (hb : b.IsRow) :
    (txnModCompare isa a b).swap = txnModCompare isa b a := by
  cases hc : b.btree.collator <;>
    simp [txnModCompare, hid, ha, hb, hc, lexCompare_false, Lib.lexCmp_swap]

section

variable (h : OpsAlike ops) (ha : a ∈ ops) (hb : b ∈ ops)
include h ha hb

/-- An operation is not greater than one it is greater than. -/
lemma OpsAlike.asymm (hgt : txnModCompare isa a b = .gt) : txnModCompare isa b a ≠ .gt := by
  intro hgt'
  rw [txnModCompare_eq_gt_iff] at hgt hgt'
  rcases hgt with hlt | ⟨hid, hkey⟩
  · omega
  rcases hgt' with hlt | ⟨-, hkey'⟩
  · omega
  rw [← if_congr (h a ha b hb hid).2 rfl rfl] at hkey'
  by_cases hrow : a.IsRow
  · rw [if_pos hrow] at hkey hkey'
    exact lt_asymm hkey.2 hkey'.2
  · rw [if_neg hrow] at hkey hkey'
    omega

lemma OpsAlike.not_gt_trans (hab : txnModCompare isa a b ≠ .gt)
    (hbc : txnModCompare isa b c ≠ .gt) : txnModCompare isa a c ≠ .gt := by
  rw [Ne, txnModCompare_eq_gt_iff, not_or, not_and] at hab hbc ⊢
  refine ⟨by omega, fun hac => ?_⟩
  have hid : a.btree.id = b.btree.id := by omega
  obtain ⟨htree, hiff⟩ := h a ha b hb hid
  have hab := hab.2 hid
  have hbc := hbc.2 (hid ▸ hac)
  rw [← if_congr hiff rfl rfl, ← htree] at hbc
  by_cases hrow : a.IsRow
  · rw [if_pos hrow, not_and, not_lt] at hab hbc ⊢
    exact fun hc => (hab hc).trans (hbc hc)
  · rw [if_neg hrow, not_lt] at hab hbc ⊢
    omega

/-- Two operations are not greater than each other only if the comparison takes them for
equal. -/
lemma OpsAlike.not_gt_iff :
    (txnModCompare isa a b ≠ .gt ∧ txnModCompare isa b a ≠ .gt) ↔
      a.btree = b.btree ∧ (a.Collated ∨ SameKey a b) := by
  by_cases hid : a.btree.id = b.btree.id
  · obtain ⟨htree, hiff⟩ := h a ha b hb hid
    rw [Ne, Ne, txnModCompare_eq_gt_iff, txnModCompare_eq_gt_iff, ← if_congr hiff rfl rfl]
    by_cases hrow : a.IsRow
    · cases hc : b.btree.collator
      · simp [htree, hrow, TxnModOp.Collated, SameKey, hc, le_antisymm_iff]
      · simp [htree, hrow, TxnModOp.Collated, hc]
    · simp [htree, hrow, TxnModOp.Collated, SameKey, le_antisymm_iff, and_comm]
  · have htree : a.btree ≠ b.btree := fun heq => hid (heq ▸ rfl)
    simp only [Ne, txnModCompare_eq_gt_iff, hid, Ne.symm hid, htree, false_and, or_false, iff_false]
    omega

end

/-- **The comparison orders the operations.**  Where the operations of one tree are alike, it is a
strict weak order: nothing is greater than itself, "greater" goes one way and is transitive, and
what it leaves unordered are operations on one tree whose keys are equal or not compared.  Row-store
updates of one tree are compared three ways.  In every arrangement that is sorted, the operations
on a key of a tree without a collator stand together. -/
theorem txnModCompare_sorts (isa : Isa) {ops : List TxnModOp} (h : OpsAlike ops) :
    (∀ a ∈ ops, txnModCompare isa a a = .eq) ∧
    (∀ a ∈ ops, ∀ b ∈ ops, txnModCompare isa a b = .gt → txnModCompare isa b a ≠ .gt) ∧
    (∀ a ∈ ops, ∀ b ∈ ops, ∀ c ∈ ops, txnModCompare isa a b = .gt →
      txnModCompare isa b c = .gt → txnModCompare isa a c = .gt) ∧
    (∀ a ∈ ops, ∀ b ∈ ops, (txnModCompare isa a b ≠ .gt ∧ txnModCompare isa b a ≠ .gt) ↔
      a.btree = b.btree ∧ (a.Collated ∨ SameKey a b)) ∧
    (∀ a ∈ ops, ∀ b ∈ ops, a.btree = b.btree → a.IsRow →
      (txnModCompare isa a b).swap = txnModCompare isa b a) ∧
    (∀ before a between b after, (before ++ a :: (between ++ b :: after)).Perm ops →
      (before ++ a :: (between ++ b :: after)).Pairwise (txnModCompare isa · · ≠ .gt) →
      SameKey a b → ¬ a.Collated → ∀ x ∈ between, SameKey a x) := by
  refine ⟨fun a _ => ?_, fun a ha b hb => h.asymm ha hb, fun a ha b hb c hc hab hbc => ?_,
    fun a ha b hb => h.not_gt_iff ha hb, fun a ha b hb htree hrow => ?_, ?_⟩
  · simp [txnModCompare, lexCompare_false, Lib.lexCmp_eq_eq_iff]
  · by_contra hac
    exact h.not_gt_trans hb ha (h.asymm ha hb hab) hac hbc
  · exact txnModCompare_swap htree hrow ((h a ha b hb (htree ▸ rfl)).2.mp hrow)
  · intro before a between b after hperm hsorted hkey hcoll x hx
    have ha : a ∈ ops := hperm.subset (by simp)
    have hb : b ∈ ops := hperm.subset (by simp)
    have hxo : x ∈ ops := hperm.subset (by simp [hx])
    obtain ⟨-, hsorted, -⟩ := List.pairwise_append.mp hsorted
    obtain ⟨hfirst, hsorted⟩ := List.pairwise_cons.mp hsorted
    have hax := hfirst x (by simp [hx])
    have hxb := (List.pairwise_append.mp hsorted).2.2 x hx b (by simp)
    have hba : txnModCompare isa b a ≠ .gt :=
      ((h.not_gt_iff ha hb).mpr ⟨hkey.1, Or.inr hkey⟩).2
    have hxa := h.not_gt_trans hxo hb hxb hba
    exact ((h.not_gt_iff ha hxo).mp ⟨hax, hxa⟩).2.resolve_left hcoll

/-- Rows of one tree, in the order of their keys. -/
theorem txnModCompare_sorts_rows : ∃ a b : TxnModOp, OpsAlike [a, b] ∧
    txnModCompare .scalar a b = .gt ∧ txnModCompare .scalar b a ≠ .gt := by
  have h : OpsAlike [⟨⟨1, false⟩, .basicRow, [2], 0⟩, ⟨⟨1, false⟩, .basicRow, [1], 0⟩] := by
    simp [OpsAlike, TxnModOp.IsRow]
  exact ⟨_, _, h, rfl, (txnModCompare_sorts .scalar h).2.1 _ (by simp) _ (by simp) rfl⟩

/-- With a collator, the key 2 may stand between two operations on the key 1; a tree of a smaller
number is greater than one that is equal to it; and a row-store update and one that was freed are
each greater than the other. -/
theorem txnModCompare_collator_apart :
    let row tree key : TxnModOp := ⟨⟨tree, true⟩, .basicRow, [key], 0⟩
    let update : TxnModOp := ⟨⟨1, false⟩, .basicRow, [2], 0x1000⟩
    let freed : TxnModOp := ⟨⟨1, false⟩, .none, [], 0⟩
    [row 1 1, row 1 2, row 1 1].Pairwise (txnModCompare .x86 · · ≠ .gt) ∧
      SameKey (row 1 1) (row 1 1) ∧ ¬ SameKey (row 1 1) (row 1 2) ∧
      txnModCompare .x86 (row 1 1) (row 2 1) = .gt ∧
      txnModCompare .x86 (row 2 1) (row 1 1) = .eq ∧
      txnModCompare .x86 update freed = .gt ∧ txnModCompare .x86 freed update = .gt := by
  refine ⟨by decide, ?_, ?_, rfl, rfl, by decide, by decide⟩
  · simp [SameKey]
  · simp [SameKey, TxnModOp.IsRow]

end WiredTiger
