/-
# Preparing a transaction (`__wt_txn_prepare`)

The call sets the prepare timestamp, and then takes the operations of the transaction one by one: an
update gets the timestamp and is in the prepared state, and the operation loses its pointer.  If an
operation is on a logged table, the call fails and leaves everything as it is by then.
-/
import WiredTiger.Txn.Visible
import WiredTiger.Txn.TimestampOrder

namespace WiredTiger

open List Function

/-- An update with the older ones of its key, or what is written of a `WT_PAGE_DELETED`. -/
structure TxnUpdate where
  upd : Update
  older : List ℕ
  /-- `WT_UPDATE_RESTORED_FAST_TRUNCATE`. -/
  restoredFastTruncate : Bool

/-- `WT_TXN_OP_*`. -/
inductive ModOpKind
  | none
  /-- `BASIC_*` and `INMEM_*`. -/
  | update (upd : ℕ)
  /-- The same, with an `op_upd` that is `NULL`. -/
  | cleared
  /-- `REF_DELETE`, with the `ft_info` of the page: `del`, or the updates if it is in memory. -/
  | refDelete (info : List ℕ)
  | truncate
  deriving DecidableEq

/-- `WT_TXN_OP`. -/
structure ModOp where
  metadata : Bool
  /-- Logging is enabled, also for the btree. -/
  logged : Bool
  kind : ModOpKind
  keyRepeated : Bool

def TxnUpdate.prepared (ts : ℕ) (u : TxnUpdate) : TxnUpdate :=
  { u with upd := { u.upd with startTs := ts, prepare := .inprogress } }

variable (ts : ℕ) (h : ℕ → TxnUpdate) (op : ModOp) {ops : List ModOp}

/-- A turn of the loop of `__wt_txn_prepare`.  No operation of a running transaction is cleared. -/
def prepareOp : (ℕ → TxnUpdate) × ModOp :=
  match op.kind with
  | .update p =>
    let u := (h p).upd
    if u.data = .reserve then
      (update h p { h p with upd := { u with txnid := txnAborted } }, { op with kind := .none })
    else
      let u' := (h p).prepared ts
      let h' := update h p { u' with upd := { u'.upd with durableTs := tsNone } }
      let own := ((h p).older.map h').takeWhile (·.upd.txnid = u.txnid)
      let repeated := own.any fun o => o.upd.data ≠ .reserve ∧ ¬o.restoredFastTruncate
      (h', { op with kind := .cleared, keyRepeated := op.keyRepeated || repeated })
  | .refDelete info => (fun p => if p ∈ info then (h p).prepared ts else h p, op)
  | _ => (h, op)

/-- The loop, and whether it ends. -/
def prepareOps (ts : ℕ) : (ℕ → TxnUpdate) → List ModOp → (ℕ → TxnUpdate) × List ModOp × Bool
  | h, [] => (h, [], true)
  | h, op :: ops =>
    if op.metadata = false ∧ op.logged then (h, op :: ops, false)
    else
      let (h, op) := if op.metadata then (h, op) else prepareOp ts h op
      let (h, ops, done) := prepareOps ts h ops
      (h, op :: ops, done)

@[ext]
structure PrepareTxn where
  ts : TsTxn
  /-- There is a log record. -/
  logrec : Bool
  heap : ℕ → TxnUpdate
  ops : List ModOp
  hasSnapshot : Bool
  /-- The id is in the global table. -/
  published : Bool

inductive PrepareError
  | logRecord
  | timestamp (e : TsError)
  /-- `transaction prepare is not supported with logged tables` -/
  | loggedTables

variable (g : TsReads) (prepareTs : Option ℕ) (debugLog : Bool) (x : PrepareTxn)

/-- `__wt_txn_prepare`, and its error.  The configuration has only a prepare timestamp; there is
memory for the values of the cursors. -/
def PrepareTxn.txnPrepare : PrepareTxn × Option PrepareError :=
  if debugLog = false ∧ x.logrec then (x, some .logRecord)
  else
    match setTimestamp g ⟨none, none, none, prepareTs⟩ x.ts with
    | .error e => (x, some (.timestamp e))
    | .ok ts =>
      if ts.hasTsPrepare = false then ({ x with ts := ts }, some (.timestamp .prepareNotSet))
      else
        let (h, ops, done) := prepareOps ts.prepareTimestamp x.heap x.ops
        if done then
          ({ x with
            ts := { ts with prepare := true }, heap := h, ops := ops
            hasSnapshot := false, published := false }, none)
        else ({ x with ts := ts, heap := h, ops := ops }, some .loggedTables)

/-! ### What is prepared -/

/-- In the prepared state, with the timestamp. -/
def IsPrepared (ts : ℕ) (u : TxnUpdate) : Prop := u.upd.prepare = .inprogress ∧ u.upd.startTs = ts

/-- What an operation has to prepare. -/
def ModOp.updates : List ℕ :=
  match op.kind with
  | .update p => if (h p).upd.data = .reserve then [] else [p]
  | .refDelete info => info
  | _ => []

/-- A turn prepares what its operation has to, and takes nothing back. -/
lemma prepareOp_spec (p : ℕ) :
    ((prepareOp ts h op).1 p).upd.data = (h p).upd.data ∧
      (IsPrepared ts (h p) ∨ p ∈ op.updates h → IsPrepared ts ((prepareOp ts h op).1 p)) := by
  obtain ⟨metadata, logged, kind, keyRepeated⟩ := op
  cases kind with
  | update q =>
    simp only [prepareOp, ModOp.updates]
    rcases eq_or_ne p q with rfl | hne
    · split_ifs
      · simp [IsPrepared]
      · simp [IsPrepared, TxnUpdate.prepared]
    · split_ifs <;> simp [hne]
  | refDelete info =>
    simp only [prepareOp, ModOp.updates]
    split_ifs with hp
    · exact ⟨rfl, fun _ => ⟨rfl, rfl⟩⟩
    · simp [hp]
  | none | cleared | truncate => simp [prepareOp, ModOp.updates]

/-- An operation of a transaction that runs and is not prepared. -/
structure ModOp.Running : Prop where
  metadata : op.metadata = false
  kind : op.kind ≠ .cleared
  info : ∀ info, op.kind = .refDelete info → ∀ p ∈ info, (h p).upd.prepare ≠ .inprogress

/-- The loop ends unless a table is logged, and has then prepared everything. -/
lemma prepareOps_spec (hops : ∀ op ∈ ops, op.metadata = false) :
    ((prepareOps ts h ops).2.2 = true ↔ ∀ op ∈ ops, op.logged = false) ∧
      ∀ p, ((prepareOps ts h ops).1 p).upd.data = (h p).upd.data ∧
        (IsPrepared ts (h p) ∨ (∀ op ∈ ops, op.logged = false) ∧ (∃ op ∈ ops, p ∈ op.updates h) →
          IsPrepared ts ((prepareOps ts h ops).1 p)) := by
  induction ops generalizing h with
  | nil => simp [prepareOps]
  | cons op ops ih =>
    obtain ⟨hop, hops⟩ := forall_mem_cons.mp hops
    rw [prepareOps]
    cases hlog : op.logged with
    | true => simp [hop, hlog]
    | false =>
      have hhead := prepareOp_spec ts h op
      have hupd : ∀ o : ModOp, o.updates (prepareOp ts h op).1 = o.updates h := by
        intro o
        simp only [ModOp.updates, (hhead _).1]
      obtain ⟨hdone, hrest⟩ := ih (prepareOp ts h op).1 hops
      simp only [hop, Bool.false_eq_true, and_false, if_false, forall_mem_cons, hlog, true_and]
      refine ⟨hdone, fun p => ⟨(hrest p).1.trans (hhead p).1, ?_⟩⟩
      rintro (hp | ⟨hall, o, ho, hp⟩)
      · exact (hrest p).2 (.inl ((hhead p).2 (.inl hp)))
      · rcases mem_cons.mp ho with rfl | ho
        · exact (hrest p).2 (.inl ((hhead p).2 (.inr hp)))
        · exact (hrest p).2 (.inr ⟨hall, o, ho, (hupd o).symm ▸ hp⟩)

/-! ### What is changed -/

/-- The operation has an update, or a page with something to be prepared. -/
def ModOp.touches : Bool :=
  match op.kind with
  | .update _ => true
  | .refDelete info => info ≠ []
  | _ => false

/-- What is touched shows it at the end. -/
lemma prepareOps_eq_iff (hops : ∀ op ∈ ops, op.Running h) :
    ((prepareOps ts h ops).1 = h ∧ (prepareOps ts h ops).2.1 = ops) ↔
      ∀ op ∈ ops.takeWhile (·.logged = false), op.touches = false := by
  induction ops with
  | nil => simp [prepareOps]
  | cons op ops ih =>
    obtain ⟨hop, hops⟩ := forall_mem_cons.mp hops
    have hrest := fun h' => prepareOps_spec ts h' fun o ho => (hops o ho).metadata
    specialize ih hops
    rw [prepareOps]
    cases hlog : op.logged with
    | true => simp [hop.metadata, hlog]
    | false =>
      have hhead := prepareOp_spec ts h op
      simp only [hop.metadata, Bool.false_eq_true, and_false, if_false, takeWhile_cons, hlog,
        decide_true, if_true, forall_mem_cons]
      obtain ⟨metadata, logged, kind, keyRepeated⟩ := op
      cases kind with
      | update p =>
        refine iff_of_false ?_ (by simp [ModOp.touches])
        rintro ⟨-, heq⟩
        have := (cons.inj heq).1
        simp only [prepareOp] at this
        split_ifs at this <;> cases this
      | refDelete info =>
        rcases info with _ | ⟨p, info⟩
        · simpa [prepareOp, ModOp.touches] using ih
        · refine iff_of_false ?_ (by simp [ModOp.touches])
          rintro ⟨heq, -⟩
          have hp := ((hrest _).2 p).2 (.inl ((hhead p).2 (.inr mem_cons_self)))
          rw [heq] at hp
          exact hop.info _ rfl p mem_cons_self hp.1
      | cleared => exact absurd rfl hop.kind
      | none | truncate => simpa [prepareOp, ModOp.touches] using ih

/-- The prepare timestamp has been set, or can be set now. -/
def PrepareSettable (y : TsTxn) : Prop :=
  match prepareTs with
  | none => y.hasTsPrepare = true
  | some ts => ts ≠ 0 ∧ contextPrepareFails y = false ∧ y.hasTsPrepare = false ∧
    y.hasTsCommit = false ∧ (y.tsRoundPrepared = true ∨ g.prepare.oldest.getD 0 ≤ ts)

/-- The timestamps change if the prepare timestamp has not been set before. -/
lemma setTimestamp_spec (y : TsTxn) :
    match setTimestamp g ⟨none, none, none, prepareTs⟩ y with
    | .error _ => ¬PrepareSettable g prepareTs y
    | .ok ts => (PrepareSettable g prepareTs y ↔ ts.hasTsPrepare = true) ∧
      (ts = y ↔ (ts.hasTsPrepare = true → y.hasTsPrepare = true)) := by
  rcases prepareTs with _ | t
  · exact ⟨Iff.rfl, by simp⟩
  · dsimp only [setTimestamp, setConfigured, setPrepareTimestamp, roundUp, PrepareSettable, bind,
      Except.bind]
    split_ifs <;> grind

/-- **When preparing is all or nothing.**  If the call fails then the transaction is as before, and
otherwise all of its updates are prepared, exactly if it does not come to an operation on a logged
table, or the timestamp was set before and nothing is touched in front of that operation. -/
theorem txnPrepare_atomic_iff (hx : ∀ op ∈ x.ops, op.Running x.heap) :
    ((∀ y e, x.txnPrepare g prepareTs debugLog = (y, some e) → y = x) ∧
      ∀ y, x.txnPrepare g prepareTs debugLog = (y, none) →
        ∀ op ∈ x.ops, ∀ p ∈ op.updates x.heap, IsPrepared y.ts.prepareTimestamp (y.heap p)) ↔
    (¬(debugLog = false ∧ x.logrec) → PrepareSettable g prepareTs x.ts →
      (∃ op ∈ x.ops, op.logged = true) →
      x.ts.hasTsPrepare = true ∧
        ∀ op ∈ x.ops.takeWhile (·.logged = false), op.touches = false) := by
  unfold PrepareTxn.txnPrepare
  by_cases hlog : debugLog = false ∧ x.logrec
  · simp [hlog]
  rw [if_neg hlog]
  have hsame := setTimestamp_spec g prepareTs x.ts
  cases hset : setTimestamp g ⟨none, none, none, prepareTs⟩ x.ts with
  | error e => simp_all
  | ok ts =>
    rw [hset] at hsame
    obtain ⟨hpass, hsame⟩ := hsame
    simp only [hpass, hlog, not_false_eq_true, forall_const]
    cases hts : ts.hasTsPrepare with
    | false => simp [hsame.mpr (by simp [hts])]
    | true =>
      simp only [hts, forall_const] at hsame
      simp only [← hsame, forall_const]
      have heq := prepareOps_eq_iff ts.prepareTimestamp x.heap hx
      obtain ⟨hdone, hspec⟩ :=
        prepareOps_spec ts.prepareTimestamp x.heap fun op hop => (hx op hop).metadata
      generalize prepareOps ts.prepareTimestamp x.heap x.ops = r at hdone heq hspec ⊢
      obtain ⟨h, ops, done⟩ := r
      cases done with
      | true =>
        have hnone := hdone.mp rfl
        refine iff_of_true ⟨by simp, fun y hy op hop p hp => ?_⟩ (by simp_all)
        cases hy
        exact (hspec p).2 (.inr ⟨hnone, op, hop, hp⟩)
      | false =>
        have hlogged : ∃ op ∈ x.ops, op.logged = true := by simpa using hdone
        simp [hlogged, @PrepareTxn.ext_iff _ x, heq]

def preparingTxn (ops : List ModOp) : PrepareTxn :=
  ⟨begunTsTxn, true, fun _ => ⟨⟨1, 0, 0, .tombstone, .init, false, false⟩, [], false⟩, ops, true,
    true⟩

lemma running_update {p : ℕ} {logged : Bool} : ModOp.Running h ⟨false, logged, .update p, false⟩ :=
  ⟨rfl, by simp, by simp⟩

theorem txnPrepare_atomic_iff_one :
    ∃ y, (preparingTxn [⟨false, false, .update 0, false⟩]).txnPrepare unsetTsReads (some 10) true =
      (y, none) ∧ IsPrepared 10 (y.heap 0) := by
  refine ⟨_, rfl, ((txnPrepare_atomic_iff unsetTsReads (some 10) true
    (preparingTxn [⟨false, false, .update 0, false⟩]) ?_).mpr ?_).2 _ rfl _ (.head _) 0 (.head _)⟩
  · exact forall_mem_singleton.mpr (running_update _)
  · simp [preparingTxn]

/-- Behind an update of a table that is not logged, one of a logged table: the first one is prepared
and its operation cleared, but not the transaction. -/
theorem txnPrepare_fails_late :
    let x := preparingTxn [⟨false, false, .update 0, false⟩, ⟨false, true, .update 1, false⟩]
    let r := x.txnPrepare unsetTsReads (some 10) true
    (∀ op ∈ x.ops, op.Running x.heap) ∧ r.2 = some .loggedTables ∧ IsPrepared 10 (r.1.heap 0) ∧
      r.1.ops.map ModOp.kind = [.cleared, .update 1] ∧ r.1.ts.prepare = false := by
  refine ⟨?_, rfl, ⟨rfl, rfl⟩, rfl, rfl⟩
  exact forall_mem_cons.mpr ⟨running_update _, forall_mem_singleton.mpr (running_update _)⟩

end WiredTiger
