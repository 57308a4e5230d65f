/-
# Replaying a log

Recovery starts at the checkpoint's position in the log, but the checkpoint may contain operations
from behind that position.  These are then applied a second time, to a table that has seen later
ones.  This does no harm: a logged operation does to each record something that settles, a record
is set, or dropped, or has bytes at fixed positions written.
-/
import WiredTiger.Lib.Settle
import WiredTiger.Log.OpApply

namespace WiredTiger

open Lib List Except

/-! ### Modifies -/

/-- What an entry that keeps the length of the range it replaces does to the byte at a position. -/
def spliceAt (pad : UInt8) (m : Modify) (i : ℕ) (b : Option UInt8) : Option UInt8 :=
  if i < m.offset then some (b.getD pad)
  else if i < m.offset + m.data.length then m.data[i - m.offset]?
  else b

lemma splice_getElem? (pad : UInt8) {m : Modify} (hm : m.size = m.data.length) (v : List UInt8)
    (i : ℕ) : (splice pad m v)[i]? = spliceAt pad m i v[i]? := by
  rcases le_total v.length m.offset with hge | hlt
  · rw [splice_of_ge pad hge, spliceAt]
    grind
  · rcases le_total (m.offset + m.size) v.length with hle | hcut
    · rw [splice_of_le pad hle, spliceAt]
      grind
    · rcases lt_or_ge m.offset v.length with hoff | hoff
      · rw [splice_of_lt pad hoff hcut, spliceAt]
        grind
      · rw [splice_of_ge pad hoff, spliceAt]
        grind

lemma writeOrFill_spliceAt (pad : UInt8) (m : Modify) (i : ℕ) :
    WriteOrFill pad (spliceAt pad m i) := by
  unfold spliceAt
  by_cases hlow : i < m.offset
  · simp only [if_pos hlow]
    exact .fill
  · by_cases hmid : i < m.offset + m.data.length
    · have hin : i - m.offset < m.data.length := by omega
      simp only [if_neg hlow, if_pos hmid, getElem?_eq_getElem hin]
      exact .write _
    · simp only [if_neg hlow, if_neg hmid]
      exact .keep

/-- Functions that write, or fill up to, fixed positions of a value. -/
def Patch (pad : UInt8) (g : List UInt8 → List UInt8) : Prop :=
  ∃ F : (ℕ → Option UInt8) → ℕ → Option UInt8,
    (∃ f : ℕ → Option UInt8 → Option UInt8,
      (∀ i, WriteOrFill pad (f i)) ∧ ∀ t i, F t i = f i (t i)) ∧
    ∀ v : List UInt8, (fun i : ℕ => (g v)[i]?) = F fun i => v[i]?

lemma settling_patch (pad : UInt8) : Settling (Patch pad) :=
  (settling_writeOrFill pad).pointwise.via fun _ _ h => ext_getElem? (congrFun h)

lemma patch_splices (pad : UInt8) {ms : List Modify} (hms : ∀ m ∈ ms, m.size = m.data.length) :
    Patch pad (splices pad ms) := by
  induction ms with
  | nil => exact (settling_patch pad).one
  | cons m ms ih =>
    refine (settling_patch pad).comp (splice pad m) (splices pad ms) ?_
      (ih fun m' hm' => hms m' (mem_cons_of_mem _ hm'))
    exact ⟨fun t i => spliceAt pad m i (t i),
      ⟨spliceAt pad m, writeOrFill_spliceAt pad m, fun _ _ => rfl⟩,
      fun v => funext (splice_getElem? pad (hms m mem_cons_self) v)⟩

/-- What modifies do to values of a format. -/
def Modifies : ValueFormat → (List UInt8 → List UInt8) → Prop
  | .u => Patch (padByte false)
  | .S => fun g => g = id ∨ ∃ f, Patch (padByte true) f ∧ ∀ v, g v = f v.dropLast ++ [0]

lemma settling_modifies (fmt : ValueFormat) : Settling (Modifies fmt) := by
  cases fmt with
  | u => exact settling_patch _
  | S =>
    have hstrip : ∀ v : List UInt8, (v ++ [0]).dropLast = v := fun _ => dropLast_concat
    exact (settling_patch (padByte true)).inside hstrip

lemma modifies_applyModifies (fmt : ValueFormat) {ms : List Modify}
    (hms : ∀ m ∈ ms, m.size = m.data.length) : Modifies fmt (applyModifies fmt ms) := by
  cases fmt with
  | u => exact patch_splices _ hms
  | S => exact .inr ⟨_, patch_splices _ hms, fun _ => rfl⟩

/-! ### What an operation does to a table -/

section Table

variable {κ : Type} [LinearOrder κ]

namespace LogFile

variable (f : LogFile)

/-- The table after an operation. -/
def effect : LogOp κ → LogTable κ → LogTable κ
  | .put key value, t => f.insert t key value
  | .remove key, t => f.remove t key
  | .truncate start stop, t => f.removeRange t start stop
  | .modify key p, t => fun x =>
    if x = key then (t x).map (applyModifies f.valueFormat (p.foreach 0)) else t x

/-- A string has at least its trailing nul. -/
def ValueOk (value : List UInt8) : Prop := f.valueFormat = .S → value ≠ []

/-- The values of a table are values of its format. -/
def TableOk (t : LogTable κ) : Prop := ∀ x, ∀ v ∈ t x, f.ValueOk v

/-- Operations on a table are given values of its format, and there are no modifies of the bits of
a fixed-length column-store. -/
def OpOk : TxnOp κ → Prop
  | .standard _ value => f.ValueOk value
  | .modify _ _ cursorValue => f.kind ≠ .colFix ∧ f.ValueOk cursorValue
  | .tombstone _ => True
  | .truncate _ _ _ => True

/-- What is in the log. -/
inductive Logged : LogOp κ → Prop
  | put (key : κ) (value : List UInt8) (h : f.ValueOk value) : Logged (.put key value)
  | remove (key : κ) : Logged (.remove key)
  | truncate (start : κ) (stop : Option κ) (h : rangeInOrder (some start) stop = true) :
      Logged (.truncate (some start) stop)
  | modify (key : κ) (es : List Modify) (hes : ∀ m ∈ es, m.size = m.data.length)
      (hkind : f.kind ≠ .colFix) : Logged (.modify key (modifyPack es))

variable {f}

lemma logged_txnOpLog {op : TxnOp κ} (hop : f.OpOk op) : f.Logged (txnOpLog op) := by
  cases op with
  | standard key value => exact .put key value hop
  | modify key es cursorValue =>
    by_cases hidem : modifyIdempotent (modifyPack es) = true
    · rw [txnOpLog, if_pos hidem]
      refine .modify key es (fun m hm => ?_) hop.1
      rw [modifyIdempotent, foreach_modifyPack, drop_zero, all_eq_true] at hidem
      exact of_decide_eq_true (hidem m hm)
    · rw [txnOpLog, if_neg hidem]
      exact .put key cursorValue hop.2
  | tombstone key => exact .remove key
  | truncate start stop inOrder =>
    refine .truncate start stop ?_
    cases stop with
    | none => rfl
    | some b => exact decide_eq_true (inOrder b rfl)

/-- `__txn_op_apply` on what is in the log. -/
lemma txnOpApply_eq (junk : ℕ → UInt8) {t : LogTable κ} (ht : f.TableOk t) {op : LogOp κ}
    (hop : f.Logged op) : txnOpApply f junk t op = .ok (f.effect op t) := by
  cases hop with
  | put key value h => rfl
  | remove key => rfl
  | truncate start stop h => rw [txnOpApply, if_pos h, effect]
  | modify key es hes hkind =>
    rw [txnOpApply, effect, foreach_modifyPack, drop_zero]
    cases hkey : t key with
    | none =>
      refine congrArg ok (funext fun x => ?_)
      by_cases hx : x = key
      · subst hx
        rw [if_pos rfl, hkey, Option.map_none]
      · rw [if_neg hx]
    | some v =>
      have hwf : (foundItem v).WF := le_refl v.length
      have hvalue : (foundItem v).value = v := take_length
      obtain ⟨it, happly, hval⟩ := modifyApplyItem_value junk f.valueFormat es hwf
        fun hS => length_pos_iff.mpr (ht key v hkey hS)
      simp only [happly]
      refine congrArg ok (funext fun x => ?_)
      rw [insert, hval, hvalue]
      by_cases hx : x = key
      · subst hx
        rw [if_pos rfl, if_pos rfl, hkey, Option.map_some]
      · rw [if_neg hx, if_neg hx, if_neg (fun h => hkind h.1)]

lemma valueOk_zero : f.ValueOk [0] := fun _ => cons_ne_nil _ _

lemma valueOk_removed {value : Option (List UInt8)} {v : List UInt8} (hv : v ∈ f.removed value) :
    f.ValueOk v := by
  rw [removed] at hv
  split_ifs at hv with hkind
  · obtain ⟨w, -, rfl⟩ := Option.map_eq_some_iff.mp hv
    exact valueOk_zero
  · cases hv

lemma valueOk_applyModifies (es : List Modify) (v : List UInt8) :
    f.ValueOk (applyModifies f.valueFormat es v) := by
  intro hS
  rw [hS, applyModifies]
  exact append_ne_nil_of_right_ne_nil _ (cons_ne_nil _ _)

/-- Operations keep the values of a table values of its format. -/
lemma TableOk.effect {t : LogTable κ} (ht : f.TableOk t) {op : LogOp κ} (hop : f.Logged op) :
    f.TableOk (f.effect op t) := by
  intro x v hv
  cases hop with
  | put key value h =>
    simp only [LogFile.effect, insert] at hv
    split_ifs at hv with hx hlow
    · cases hv
      exact h
    · cases hv
      cases hx : t x with
      | none => exact valueOk_zero
      | some w => exact ht x w hx
    · exact ht x v hv
  | remove key =>
    simp only [LogFile.effect, LogFile.remove] at hv
    split_ifs at hv with hx
    · exact valueOk_removed hv
    · exact ht x v hv
  | truncate start stop h =>
    simp only [LogFile.effect, removeRange] at hv
    split_ifs at hv with hx
    · exact valueOk_removed hv
    · exact ht x v hv
  | modify key es hes hkind =>
    simp only [LogFile.effect] at hv
    split_ifs at hv with hx
    · obtain ⟨w, -, rfl⟩ := Option.map_eq_some_iff.mp hv
      exact valueOk_applyModifies _ w
    · exact ht x v hv

/-- Applying what is in the log, one operation after the other. -/
lemma txnOpsApply_eq (junk : ℕ → UInt8) {t : LogTable κ} (ht : f.TableOk t) {ops : List (LogOp κ)}
    (hops : ∀ op ∈ ops, f.Logged op) :
    txnOpsApply f junk t ops = .ok (applyAll (ops.map f.effect) t) ∧
      f.TableOk (applyAll (ops.map f.effect) t) := by
  induction ops generalizing t with
  | nil => exact ⟨rfl, ht⟩
  | cons op ops ih =>
    have hop := hops op mem_cons_self
    obtain ⟨hrun, hok⟩ := ih (ht.effect hop) fun o ho => hops o (mem_cons_of_mem _ ho)
    refine ⟨?_, hok⟩
    rw [txnOpsApply, foldlM_cons, txnOpApply_eq junk ht hop]
    exact hrun

/-! ### Operations settle -/

variable (f)

/-- What operations do to a record. -/
def OnRecord (g : Option (List UInt8) → Option (List UInt8)) : Prop :=
  if f.kind = .colFix then WriteOrFill [0] g
  else (∃ c, ∀ x, g x = c) ∨ ∃ m, Modifies f.valueFormat m ∧ ∀ x, g x = x.map m

lemma settling_onRecord : Settling f.OnRecord := by
  unfold OnRecord
  by_cases hkind : f.kind = .colFix
  · simp only [if_pos hkind]
    exact settling_writeOrFill _
  · simp only [if_neg hkind]
    exact (settling_modifies _).resets

lemma onRecord_write (v : List UInt8) : f.OnRecord fun _ => some v := by
  rw [OnRecord]
  split_ifs with hkind
  · exact .write v
  · exact .inl ⟨some v, fun _ => rfl⟩

lemma onRecord_removed : f.OnRecord f.removed := by
  unfold OnRecord removed
  split_ifs with hkind
  · exact .zero
  · exact .inl ⟨none, fun x => rfl⟩

/-- What an operation does to the record with key `x`. -/
def recordEffect (op : LogOp κ) (x : κ) (b : Option (List UInt8)) : Option (List UInt8) :=
  f.effect op (fun _ => b) x

/-- Each record is dealt with on its own. -/
lemma effect_apply (op : LogOp κ) (t : LogTable κ) (x : κ) :
    f.effect op t x = f.recordEffect op x (t x) := by
  cases op <;> rfl

lemma onRecord_ite {p : Prop} [Decidable p] {g g' : Option (List UInt8) → Option (List UInt8)}
    (hg : f.OnRecord g) (hg' : f.OnRecord g') : f.OnRecord fun b => if p then g b else g' b := by
  by_cases hp : p
  · simpa only [if_pos hp] using hg
  · simpa only [if_neg hp] using hg'

variable {f}

lemma Logged.onRecord {op : LogOp κ} (hop : f.Logged op) (x : κ) :
    f.OnRecord (f.recordEffect op x) := by
  have hkeep : f.OnRecord fun b => b := f.settling_onRecord.one
  cases hop with
  | put key value h =>
    refine f.onRecord_ite (f.onRecord_write value) ?_
    by_cases hlow : f.kind = .colFix ∧ x < key
    · simp only [if_pos hlow]
      rw [OnRecord, if_pos hlow.1]
      exact .fill
    · simpa only [if_neg hlow] using hkeep
  | remove | truncate => exact f.onRecord_ite f.onRecord_removed hkeep
  | modify key es hes hkind =>
    refine f.onRecord_ite ?_ hkeep
    rw [OnRecord, if_neg hkind, foreach_modifyPack, drop_zero]
    exact .inr ⟨_, modifies_applyModifies _ hes, fun _ => rfl⟩

/-- **Replay converges.**  The operations of transactions, as they are logged, are applied to any
table; then those from number `j` on are applied to the table that the ones up to number `k` have
led to, `k` not being in front of `j`.  All of this succeeds, whatever new memory contains, and both
tables are the same. -/
theorem replay_converges (junk junk' junk'' : ℕ → UInt8) {t : LogTable κ} (ht : f.TableOk t)
    {ops : List (TxnOp κ)} (hops : ∀ op ∈ ops, f.OpOk op) {j k : ℕ} (hjk : j ≤ k) :
    ∃ once seen, txnOpsApply f junk t (ops.map txnOpLog) = .ok once ∧
      txnOpsApply f junk' t ((ops.take (k + 1)).map txnOpLog) = .ok seen ∧
      txnOpsApply f junk'' seen ((ops.drop j).map txnOpLog) = .ok once := by
  have hlog : ∀ os : List (TxnOp κ), os ⊆ ops → ∀ op ∈ os.map txnOpLog, f.Logged op := by
    intro os hos op hop
    obtain ⟨o, ho, rfl⟩ := mem_map.mp hop
    exact logged_txnOpLog (hops o (hos ho))
  obtain ⟨honce, -⟩ := txnOpsApply_eq junk ht (hlog ops (List.Subset.refl _))
  obtain ⟨hseen, hok⟩ := txnOpsApply_eq junk' ht (hlog _ (take_subset (k + 1) ops))
  obtain ⟨hagain, -⟩ := txnOpsApply_eq junk'' hok (hlog _ (drop_subset j ops))
  refine ⟨_, _, honce, hseen, hagain.trans (congrArg ok ?_)⟩
  simp only [map_take, map_drop]
  refine (@Settling.pointwise _ κ _ f.settling_onRecord).replay ?_ (Nat.le_succ_of_le hjk) t
  intro g hg
  obtain ⟨op, hop, rfl⟩ := mem_map.mp hg
  exact ⟨f.recordEffect op, (hlog ops (List.Subset.refl _) op hop).onRecord, f.effect_apply op⟩

end LogFile

end Table

namespace LogFile

/-- A record is put, modified past its end, removed in a range, and put again. -/
def rewritten : List (TxnOp ℕ) :=
  [.standard 1 [97, 0], .modify 1 [⟨[98], 3, 1⟩] [97, 32, 32, 98, 0],
    .truncate 1 (some 2) (fun b hb => by cases hb; decide), .standard 1 [99, 0]]

/-- The modify is replayed on the record that was put last. -/
theorem replay_converges_rewritten :
    ∃ once seen,
      txnOpsApply ⟨.row, .S⟩ (fun _ => 0) (fun _ => none) (rewritten.map txnOpLog) = .ok once ∧
      txnOpsApply ⟨.row, .S⟩ (fun _ => 0) (fun _ => none) ((rewritten.take 4).map txnOpLog) =
        .ok seen ∧
      txnOpsApply ⟨.row, .S⟩ (fun _ => 0) seen ((rewritten.drop 1).map txnOpLog) = .ok once := by
  refine @replay_converges ℕ _ ⟨.row, .S⟩ _ _ _ _ ?_ rewritten ?_ 1 3 (by decide)
  · intro x v hv
    cases hv
  · simp [rewritten, OpOk, ValueOk]

end LogFile

end WiredTiger
