/-
# The order of the timestamps of a transaction

Along the calls that set timestamps in a transaction, the commit timestamp stays no later than the
durable one, and no earlier than the prepare timestamp, exactly if no call moves the commit
timestamp alone behind a durable timestamp that is set.  Committing a prepared transaction then
does not fail for the order of its timestamps.
-/
import WiredTiger.Lib.Fallible
import WiredTiger.Txn.SetTimestamp

namespace WiredTiger

open Lib Bool

variable {g : TsRead} {gs : TsReads} {cfg : TsConfig} {txn txn' : TsTxn} {ts : ℕ}
variable {flags : CommitFlags}

/-! ### What each routine sets -/

lemma checkCommitTimestamp_ok {commitTs : ℕ} (h : checkCommitTimestamp g txn ts = .ok commitTs) :
    ts ≤ commitTs ∧ (commitTs = ts ∨ txn.hasTsPrepare ∧ commitTs = txn.prepareTimestamp) ∧
      (txn.hasTsPrepare → txn.prepareTimestamp ≤ commitTs) := by
  unfold checkCommitTimestamp at h
  by_cases hp : txn.hasTsPrepare
  · split_ifs at h with hiso hlt hround <;> cases h
    · exact ⟨Nat.le_of_lt hlt, .inr ⟨hp, rfl⟩, fun _ => Nat.le_refl _⟩
    · exact ⟨Nat.le_refl _, .inl rfl, fun _ => Nat.le_of_not_lt hlt⟩
  · rw [not_eq_true] at hp
    simp only [hp, false_eq_true, not_false_eq_true, if_true] at h
    split_ifs at h
    cases h
    exact ⟨Nat.le_refl _, .inl rfl, fun h => absurd (hp.symm.trans h) false_ne_true⟩

lemma setCommitTimestamp_ok (h : setCommitTimestamp g txn ts = .ok txn') :
    ∃ commitTs, checkCommitTimestamp g txn ts = .ok commitTs ∧
      txn' = { txn with
        commitTimestamp := commitTs
        firstCommitTimestamp := if txn.hasTsCommit then txn.firstCommitTimestamp else commitTs
        durableTimestamp := if txn.hasTsDurable then txn.durableTimestamp else commitTs
        hasTsCommit := true } := by
  obtain ⟨commitTs, hts, h⟩ := exists_of_bind_ok h
  cases h
  exact ⟨commitTs, hts, rfl⟩

lemma setDurableTimestamp_ok (h : setDurableTimestamp g txn ts = .ok txn') :
    txn.hasTsCommit ∧ txn.commitTimestamp ≤ ts ∧
      txn' = { txn with durableTimestamp := ts, hasTsDurable := true } := by
  unfold setDurableTimestamp at h
  split_ifs at h with h1 h2 h3 h4 h5
  cases h
  exact ⟨h2, Nat.le_of_not_lt h5, rfl⟩

lemma setReadTimestamp_ok (h : setReadTimestamp g txn ts = .ok txn') :
    ∃ readTs, txn' = { txn with
      readTimestamp := readTs, sharedTsRead := true, isoSnapshot := true } := by
  unfold setReadTimestamp at h
  split_ifs at h
  all_goals
    obtain ⟨readTs, -, h⟩ := exists_of_bind_ok h
    cases h
    exact ⟨readTs, rfl⟩

lemma setPrepareTimestamp_ok (h : setPrepareTimestamp g txn ts = .ok txn') :
    txn.hasTsCommit = false ∧
      ∃ prepareTs, txn' = { txn with prepareTimestamp := prepareTs, hasTsPrepare := true } := by
  unfold setPrepareTimestamp at h
  split_ifs at h with hctx hprep hcommit
  obtain ⟨prepareTs, -, h⟩ := exists_of_bind_ok h
  cases h
  exact ⟨eq_false_iff.mpr hcommit, prepareTs, rfl⟩

lemma setConfigured_ok {set : TsTxn → ℕ → Except TsError TsTxn} {o : Option ℕ}
    (h : setConfigured set o txn = .ok txn') :
    o = none ∧ txn' = txn ∨ ∃ ts, o = some ts ∧ set txn ts = .ok txn' := by
  cases o with
  | none =>
    cases h
    exact .inl ⟨rfl, rfl⟩
  | some ts =>
    unfold setConfigured at h
    dsimp only at h
    split_ifs at h
    exact .inr ⟨ts, rfl, h⟩

/-! ### The order -/

/-- The timestamps that are set are in order.  The durable timestamp is set with the commit
timestamp, if not by itself. -/
structure TsTxn.Ordered (txn : TsTxn) : Prop where
  commit_le_durable : txn.hasTsCommit → txn.commitTimestamp ≤ txn.durableTimestamp
  prepare_le_commit : txn.hasTsPrepare → txn.hasTsCommit →
    txn.prepareTimestamp ≤ txn.commitTimestamp

/-- The order, and which timestamps are set with others. -/
structure TsTxn.Inv (txn : TsTxn) : Prop extends txn.Ordered where
  durable_commit : txn.hasTsDurable → txn.hasTsCommit
  prepared : txn.prepare → txn.hasTsPrepare

/-- A transaction that has begun.  The commit and durable timestamps may be those of a transaction
before it. -/
structure TsTxn.Begun (txn : TsTxn) : Prop where
  commit : txn.hasTsCommit = false
  durable : txn.hasTsDurable = false
  prepareTs : txn.hasTsPrepare = false
  prepare : txn.prepare = false

/-- A call does not move the commit timestamp alone behind a durable timestamp that is set. -/
def TsConfig.Allowed (cfg : TsConfig) (txn : TsTxn) : Prop :=
  txn.hasTsDurable → cfg.durable = none → ∀ ts ∈ cfg.commit, ts ≤ txn.durableTimestamp

lemma TsTxn.Begun.inv (h : txn.Begun) : txn.Inv where
  commit_le_durable hc := by simp [h.commit] at hc
  prepare_le_commit hp := by simp [h.prepareTs] at hp
  durable_commit hd := by simp [h.durable] at hd
  prepared hp := by simp [h.prepare] at hp

/-- After a commit and a durable timestamp, as configured. -/
lemma inv_commit_durable (h : txn.Inv) (ha : cfg.Allowed txn) {txn₁ txn₂ : TsTxn}
    (h₁ : setConfigured (setCommitTimestamp gs.commit) cfg.commit txn = .ok txn₁)
    (h₂ : setConfigured (setDurableTimestamp gs.durable) cfg.durable txn₁ = .ok txn₂) :
    txn₂.Inv := by
  rcases setConfigured_ok h₁ with ⟨hc, rfl⟩ | ⟨ts, hc, h₁⟩
  · rcases setConfigured_ok h₂ with ⟨hd, rfl⟩ | ⟨durableTs, hd, h₂⟩
    · exact h
    · obtain ⟨hcommit, hle, rfl⟩ := setDurableTimestamp_ok h₂
      exact ⟨⟨fun _ => hle, h.prepare_le_commit⟩, fun _ => hcommit, h.prepared⟩
  · obtain ⟨commitTs, hcheck, rfl⟩ := setCommitTimestamp_ok h₁
    obtain ⟨-, hts, hprep⟩ := checkCommitTimestamp_ok hcheck
    rcases setConfigured_ok h₂ with ⟨hd, rfl⟩ | ⟨durableTs, hd, h₂⟩
    · refine ⟨⟨fun _ => ?_, fun hp _ => hprep hp⟩, fun _ => rfl, h.prepared⟩
      dsimp only
      split_ifs with hdur
      · -- the durable timestamp stays, and a commit timestamp that is rounded up is below it too
        have hle := h.commit_le_durable (h.durable_commit hdur)
        rcases hts with rfl | ⟨hp, rfl⟩
        · exact ha hdur hd _ hc
        · exact Nat.le_trans (h.prepare_le_commit hp (h.durable_commit hdur)) hle
      · exact Nat.le_refl _
    · obtain ⟨-, hle, rfl⟩ := setDurableTimestamp_ok h₂
      exact ⟨⟨fun _ => hle, fun hp _ => hprep hp⟩, fun _ => rfl, h.prepared⟩

/-- A call that is allowed keeps the order. -/
lemma setTimestamp_inv (h : txn.Inv) (ha : cfg.Allowed txn)
    (hset : setTimestamp gs cfg txn = .ok txn') : txn'.Inv := by
  obtain ⟨txn₁, h₁, hset⟩ := exists_of_bind_ok hset
  obtain ⟨txn₂, h₂, hset⟩ := exists_of_bind_ok hset
  obtain ⟨txn₃, h₃, h₄⟩ := exists_of_bind_ok hset
  have hinv := inv_commit_durable h ha h₁ h₂
  have hinv₃ : txn₃.Inv := by
    rcases setConfigured_ok h₃ with ⟨-, rfl⟩ | ⟨ts, -, h₃⟩
    · exact hinv
    · obtain ⟨readTs, rfl⟩ := setReadTimestamp_ok h₃
      exact ⟨⟨hinv.commit_le_durable, hinv.prepare_le_commit⟩, hinv.durable_commit,
        hinv.prepared⟩
  rcases setConfigured_ok h₄ with ⟨-, rfl⟩ | ⟨ts, -, h₄⟩
  · exact hinv₃
  · obtain ⟨hcommit, prepareTs, rfl⟩ := setPrepareTimestamp_ok h₄
    refine ⟨⟨hinv₃.commit_le_durable, fun _ hc => ?_⟩, hinv₃.durable_commit, fun _ => rfl⟩
    rw [hcommit] at hc
    cases hc

/-- A call that keeps the commit timestamp in front of the durable one is allowed. -/
lemma allowed_of_ordered (hset : setTimestamp gs cfg txn = .ok txn') (h : txn'.Ordered) :
    cfg.Allowed txn := by
  intro hdur hd ts hc
  rw [Option.mem_def] at hc
  obtain ⟨txn₁, h₁, hset⟩ := exists_of_bind_ok hset
  obtain ⟨txn₂, h₂, hset⟩ := exists_of_bind_ok hset
  obtain ⟨txn₃, h₃, h₄⟩ := exists_of_bind_ok hset
  rw [hc] at h₁
  rw [hd] at h₂
  rcases setConfigured_ok h₁ with ⟨hnone, -⟩ | ⟨ts', hts', h₁⟩
  · cases hnone
  cases hts'
  rcases setConfigured_ok h₂ with ⟨-, rfl⟩ | ⟨ts', hts', -⟩
  swap
  · cases hts'
  obtain ⟨commitTs, hcheck, rfl⟩ := setCommitTimestamp_ok h₁
  have hle := (checkCommitTimestamp_ok hcheck).1
  -- the read and prepare timestamps leave the two as they are
  have hkeep : txn'.hasTsCommit ∧ txn'.commitTimestamp = commitTs ∧
      txn'.durableTimestamp = txn.durableTimestamp := by
    have hkeep₃ : txn₃.hasTsCommit ∧ txn₃.commitTimestamp = commitTs ∧
        txn₃.durableTimestamp = txn.durableTimestamp := by
      rcases setConfigured_ok h₃ with ⟨-, rfl⟩ | ⟨ts, -, h₃⟩
      · exact ⟨rfl, rfl, if_pos hdur⟩
      · obtain ⟨readTs, rfl⟩ := setReadTimestamp_ok h₃
        exact ⟨rfl, rfl, if_pos hdur⟩
    rcases setConfigured_ok h₄ with ⟨-, rfl⟩ | ⟨ts, -, h₄⟩
    · exact hkeep₃
    · obtain ⟨-, prepareTs, rfl⟩ := setPrepareTimestamp_ok h₄
      exact hkeep₃
  have := h.commit_le_durable hkeep.1
  rw [hkeep.2.1, hkeep.2.2] at this
  omega

/-! ### Runs of calls -/

/-- A call in a transaction. -/
inductive TsAction
  | set (gs : TsReads) (cfg : TsConfig)
  | prepare (gs : TsReads) (cfg : TsConfig)

def TsAction.config : TsAction → TsConfig
  | .set _ cfg => cfg
  | .prepare _ cfg => cfg

/-- A call that succeeds. -/
def tsStep (txn : TsTxn) : TsAction → Option TsTxn
  | .set gs cfg => (setTimestamp gs cfg txn).toOption
  | .prepare gs cfg => (txnPrepare gs cfg txn).toOption

lemma txnPrepare_ok (h : txnPrepare gs cfg txn = .ok txn') :
    ∃ txn₁, setTimestamp gs cfg txn = .ok txn₁ ∧ txn₁.hasTsPrepare ∧
      txn' = { txn₁ with prepare := true } := by
  obtain ⟨txn₁, h₁, h⟩ := exists_of_bind_ok h
  split_ifs at h with hp
  cases h
  exact ⟨txn₁, h₁, hp, rfl⟩

lemma tsStep_inv {a : TsAction} (h : txn.Inv) (ha : a.config.Allowed txn)
    (hstep : tsStep txn a = some txn') : txn'.Inv := by
  cases a with
  | set gs cfg => exact setTimestamp_inv h ha (toOption_eq_some hstep)
  | prepare gs cfg =>
    obtain ⟨txn₁, hset, hp, rfl⟩ := txnPrepare_ok (toOption_eq_some hstep)
    have hinv := setTimestamp_inv h ha hset
    exact ⟨⟨hinv.commit_le_durable, hinv.prepare_le_commit⟩, hinv.durable_commit, fun _ => hp⟩

lemma allowed_of_tsStep {a : TsAction} (hstep : tsStep txn a = some txn') (h : txn'.Ordered) :
    a.config.Allowed txn := by
  cases a with
  | set gs cfg => exact allowed_of_ordered (toOption_eq_some hstep) h
  | prepare gs cfg =>
    obtain ⟨txn₁, hset, hp, rfl⟩ := txnPrepare_ok (toOption_eq_some hstep)
    exact allowed_of_ordered hset ⟨h.commit_le_durable, h.prepare_le_commit⟩

/-! ### Committing -/

lemma setConfigured_ne_error {set : TsTxn → ℕ → Except TsError TsTxn} {o : Option ℕ} {e : TsError}
    (h0 : e ≠ .zeroNotPermitted) (h : ∀ ts, set txn ts ≠ .error e) :
    setConfigured set o txn ≠ .error e := by
  cases o with
  | none =>
    intro h'
    cases h'
  | some ts =>
    unfold setConfigured
    dsimp only
    split_ifs
    · intro h'
      cases h'
      exact h0 rfl
    · exact h ts

/-- The order is looked at in committing, and in no routine before it. -/
lemma setTimestamp_ne_commitAfterDurable :
    setTimestamp gs cfg txn ≠ .error .commitAfterDurable := by
  have hround : ∀ round bound ts e, e ≠ .commitAfterDurable →
      roundUp round bound ts e ≠ .error .commitAfterDurable := by
    intro round bound ts e he
    unfold roundUp
    split_ifs <;> simp [he]
  refine bind_ne_error (setConfigured_ne_error (by decide) fun ts => ?_) fun txn =>
    bind_ne_error (setConfigured_ne_error (by decide) fun ts => ?_) fun txn =>
    bind_ne_error (setConfigured_ne_error (by decide) fun ts => ?_) fun txn =>
    setConfigured_ne_error (by decide) fun ts => ?_
  · refine bind_ne_error ?_ fun commitTs => by simp
    unfold checkCommitTimestamp
    split_ifs <;> simp
  · unfold setDurableTimestamp
    split_ifs <;> simp
  · unfold setReadTimestamp
    split_ifs
    all_goals first
      | exact bind_ne_error (hround _ _ _ _ (by decide)) fun _ => by simp
      | simp
  · unfold setPrepareTimestamp
    split_ifs
    all_goals first
      | exact bind_ne_error (hround _ _ _ _ (by decide)) fun _ => by simp
      | simp

lemma commitRequirements_ne_commitAfterDurable :
    commitRequirements txn ≠ .error .commitAfterDurable := by
  unfold commitRequirements
  split_ifs <;> simp

/-- Setting timestamps leaves the transaction prepared. -/
lemma setTimestamp_prepare (h : setTimestamp gs cfg txn = .ok txn') :
    txn'.prepare = txn.prepare := by
  obtain ⟨txn₁, h₁, h⟩ := exists_of_bind_ok h
  obtain ⟨txn₂, h₂, h⟩ := exists_of_bind_ok h
  obtain ⟨txn₃, h₃, h₄⟩ := exists_of_bind_ok h
  have e₁ : txn₁.prepare = txn.prepare := by
    rcases setConfigured_ok h₁ with ⟨-, rfl⟩ | ⟨ts, -, h₁⟩
    · rfl
    · obtain ⟨_, -, rfl⟩ := setCommitTimestamp_ok h₁
      rfl
  have e₂ : txn₂.prepare = txn₁.prepare := by
    rcases setConfigured_ok h₂ with ⟨-, rfl⟩ | ⟨ts, -, h₂⟩
    · rfl
    · obtain ⟨-, -, rfl⟩ := setDurableTimestamp_ok h₂
      rfl
  have e₃ : txn₃.prepare = txn₂.prepare := by
    rcases setConfigured_ok h₃ with ⟨-, rfl⟩ | ⟨ts, -, h₃⟩
    · rfl
    · obtain ⟨_, rfl⟩ := setReadTimestamp_ok h₃
      rfl
  have e₄ : txn'.prepare = txn₃.prepare := by
    rcases setConfigured_ok h₄ with ⟨-, rfl⟩ | ⟨ts, -, h₄⟩
    · rfl
    · obtain ⟨-, _, rfl⟩ := setPrepareTimestamp_ok h₄
      rfl
  rw [e₄, e₃, e₂, e₁]

lemma commitRequirements_ok (h : commitRequirements txn = .ok ()) (hp : txn.prepare) :
    txn.hasTsCommit := by
  unfold commitRequirements at h
  rw [if_pos hp] at h
  by_contra hne
  rw [if_pos hne] at h
  cases h

lemma commitTimestampsAssert_ne_commitAfterDurable
    (h : txn.commitTimestamp ≤ txn.durableTimestamp) :
    commitTimestampsAssert flags txn ≠ .error .commitAfterDurable := by
  unfold commitTimestampsAssert
  dsimp only
  rw [if_neg (show ¬ txn.durableTimestamp < txn.commitTimestamp by omega)]
  split_ifs <;> simp

section

variable (h : txn.Inv) (ha : cfg.Allowed txn)
include h ha

/-- A prepared transaction that satisfies the invariant does so when its timestamps of committing
are set. -/
lemma commit_inv (hset : setTimestamp gs cfg
      { txn with tsRoundPrepared := txn.tsRoundPrepared && txn.prepare } = .ok txn') :
    txn'.Inv := by
  refine setTimestamp_inv ?_ ?_ hset
  · exact ⟨⟨h.commit_le_durable, h.prepare_le_commit⟩, h.durable_commit, h.prepared⟩
  · exact ha

/-- Committing a prepared transaction does not fail for the order. -/
lemma commitTimestamps_ne_commitAfterDurable
    (hp : txn.prepare) : commitTimestamps flags gs cfg txn ≠ .error .commitAfterDurable := by
  intro he
  rcases bind_eq_error he with he | ⟨txn₁, hset, he⟩
  · exact setTimestamp_ne_commitAfterDurable he
  have hinv := commit_inv h ha hset
  rcases bind_eq_error he with he | ⟨⟨⟩, hreq, he⟩
  · exact commitRequirements_ne_commitAfterDurable he
  have hcommit := commitRequirements_ok hreq ((setTimestamp_prepare hset).trans hp)
  rcases bind_eq_error he with he | ⟨-, -, he⟩
  · exact commitTimestampsAssert_ne_commitAfterDurable (hinv.commit_le_durable hcommit) he
  · cases he

/-- A prepared transaction that is committed has its timestamps in order. -/
lemma commitTimestamps_ordered (hp : txn.prepare)
    (hok : commitTimestamps flags gs cfg txn = .ok txn') :
    txn'.prepareTimestamp ≤ txn'.commitTimestamp ∧
      txn'.commitTimestamp ≤ txn'.durableTimestamp := by
  obtain ⟨txn₁, hset, hok⟩ := exists_of_bind_ok hok
  obtain ⟨⟨⟩, hreq, hok⟩ := exists_of_bind_ok hok
  obtain ⟨-, -, hok⟩ := exists_of_bind_ok hok
  cases hok
  have hinv := commit_inv h ha hset
  have hp' : txn'.prepare := (setTimestamp_prepare hset).trans hp
  have hcommit := commitRequirements_ok hreq hp'
  exact ⟨hinv.prepare_le_commit (hinv.prepared hp') hcommit, hinv.commit_le_durable hcommit⟩

end

/-- **The timestamps of a transaction are in order.**  After each of a run of successful calls the
order holds, exactly if no call moves the commit timestamp alone behind a durable timestamp that is
set; and committing, with such a call, is not refused for the order. -/
theorem txn_timestampOrder (h : txn.Begun) (as : List TsAction) :
    (Along tsStep TsTxn.Ordered txn as ↔
      AllSteps tsStep (fun txn a => a.config.Allowed txn) txn as) ∧
    (AllSteps tsStep (fun txn a => a.config.Allowed txn) txn as →
      ∀ txn', run tsStep txn as = some txn' → txn'.prepare → ∀ flags gs cfg, cfg.Allowed txn' →
        commitTimestamps flags gs cfg txn' ≠ .error .commitAfterDurable ∧
        ∀ txn'', commitTimestamps flags gs cfg txn' = .ok txn'' →
          txn''.prepareTimestamp ≤ txn''.commitTimestamp ∧
            txn''.commitTimestamp ≤ txn''.durableTimestamp) := by
  have hkeep : ∀ (s : TsTxn) (a : TsAction) (t : TsTxn), s.Inv → a.config.Allowed s →
      tsStep s a = some t → t.Inv := fun s a t => tsStep_inv
  refine ⟨?_, fun hall txn' hrun hp flags gs cfg ha => ?_⟩
  · refine along_iff_allSteps (fun s hs => hs.toOrdered) hkeep ?_ h.inv as
    intro s a t _ hstep ht
    exact allowed_of_tsStep hstep ht
  · have hinv := run_of_allSteps hkeep h.inv hall hrun
    exact ⟨commitTimestamps_ne_commitAfterDurable hinv ha hp,
      fun txn'' => commitTimestamps_ordered hinv ha hp⟩

/-- A transaction that has begun at snapshot isolation. -/
def begunTsTxn : TsTxn where
  isoSnapshot := true
  running := true
  prepare := false
  prepareIgnoreApiCheck := false
  tsRoundPrepared := false
  tsRoundRead := false
  tsReadBeforeOldest := false
  hasTsCommit := false
  hasTsDurable := false
  hasTsPrepare := false
  sharedTsRead := false
  commitTimestamp := 0
  firstCommitTimestamp := 0
  durableTimestamp := 0
  prepareTimestamp := 0
  readTimestamp := 0

lemma begunTsTxn_begun : begunTsTxn.Begun := ⟨rfl, rfl, rfl, rfl⟩

/-- Global timestamps that are not set. -/
def unsetTsReads : TsReads :=
  let unset : TsRead := ⟨none, none, 0⟩
  ⟨unset, unset, unset, unset⟩

/-- Preparing at 10, and setting the commit timestamp to 20 and the durable one to 30. -/
def commitDurableRun : List TsAction :=
  [.prepare unsetTsReads ⟨none, none, none, some 10⟩,
    .set unsetTsReads ⟨some 20, none, none, none⟩, .set unsetTsReads ⟨none, some 30, none, none⟩]

/-- The order along a run of calls. -/
theorem txn_timestampOrder_example :
    begunTsTxn.Begun ∧ (Along tsStep TsTxn.Ordered begunTsTxn commitDurableRun ↔
      AllSteps tsStep (fun txn a => a.config.Allowed txn) begunTsTxn commitDurableRun) :=
  ⟨begunTsTxn_begun, (txn_timestampOrder begunTsTxn_begun commitDurableRun).1⟩

/-- A commit timestamp that is set again, behind the durable timestamp: each call succeeds, the
order does not hold, and the prepared transaction cannot be committed. -/
theorem commitTimestamp_behindDurable :
    ∃ txn, run tsStep begunTsTxn
        (commitDurableRun ++ [.set unsetTsReads ⟨some 40, none, none, none⟩]) = some txn ∧
      txn.hasTsCommit ∧ txn.hasTsDurable ∧ txn.prepare ∧
      txn.commitTimestamp = 40 ∧ txn.durableTimestamp = 30 ∧
      commitTimestamps ⟨false, false, true, false⟩ unsetTsReads ⟨none, none, none, none⟩ txn =
        .error .commitAfterDurable := by
  exact ⟨_, rfl, rfl, rfl, rfl, rfl, rfl, rfl⟩

end WiredTiger
