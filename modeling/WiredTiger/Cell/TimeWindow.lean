/-
# Time windows and their aggregates (`include/timestamp_inline.h`, `support/timestamp.c`)

A value has a time window, and the address of a page a time aggregate over the values below it.
Both are checked for order, and optionally against the aggregate of the parent page.
-/
import WiredTiger.Lib.Fallible
import WiredTiger.Txn.Visible

namespace WiredTiger

open Lib

/-- A `WT_TIME_AGGREGATE`. -/
structure TimeAggregate where
  newestStartDurableTs : ℕ
  newestStopDurableTs : ℕ
  oldestStartTs : ℕ
  newestTxn : ℕ
  newestStopTs : ℕ
  newestStopTxn : ℕ
  prepare : Bool
  /-- Initialized for aggregation and merge; it is not written. -/
  initMerge : Bool
  deriving DecidableEq, Repr

/-- `WT_TIME_AGGREGATE_INIT`. -/
def TimeAggregate.init : TimeAggregate :=
  ⟨tsNone, tsNone, tsNone, txnNone, tsMax, txnMax, false, false⟩

/-- `WT_TIME_AGGREGATE_INIT_MERGE`. -/
def TimeAggregate.mergeInit : TimeAggregate :=
  ⟨tsNone, tsNone, tsMax, txnNone, tsNone, txnNone, false, true⟩

/-- `WT_TIME_AGGREGATE_IS_EMPTY`. -/
def TimeAggregate.isEmpty (ta : TimeAggregate) : Bool :=
  if ta.initMerge then ta = .mergeInit else ta = .init

/-- `WT_TIME_WINDOW_IS_EMPTY`. -/
def TimeWindow.isEmpty (tw : TimeWindow) : Bool := tw = .init

/-- The fields are 64-bit numbers. -/
structure TimeWindow.Fits (tw : TimeWindow) : Prop where
  durableStartTs : tw.durableStartTs < 2 ^ 64
  startTs : tw.startTs < 2 ^ 64
  startTxn : tw.startTxn < 2 ^ 64
  durableStopTs : tw.durableStopTs < 2 ^ 64
  stopTs : tw.stopTs < 2 ^ 64
  stopTxn : tw.stopTxn < 2 ^ 64

structure TimeAggregate.Fits (ta : TimeAggregate) : Prop where
  newestStartDurableTs : ta.newestStartDurableTs < 2 ^ 64
  newestStopDurableTs : ta.newestStopDurableTs < 2 ^ 64
  oldestStartTs : ta.oldestStartTs < 2 ^ 64
  newestTxn : ta.newestTxn < 2 ^ 64
  newestStopTs : ta.newestStopTs < 2 ^ 64
  newestStopTxn : ta.newestStopTxn < 2 ^ 64

/-! ### Validation -/

/-- Checks are made in order, and the first that finds something is reported
(`WT_TIME_VALIDATE_RET`). -/
def firstError : List (Bool × String) → Except String Unit
  | [] => .ok ()
  | (found, msg) :: checks => if found then .error msg else firstError checks

lemma firstError_ok {checks : List (Bool × String)} :
    firstError checks = .ok () ↔ ∀ c ∈ checks, c.1 = false := by
  induction checks with
  | nil => simp [firstError]
  | cons c checks ih =>
    obtain ⟨found, msg⟩ := c
    cases found <;> simp [firstError, ih]

lemma firstError_bind_ok {checks : List (Bool × String)} {y : Except String Unit} :
    (firstError checks >>= fun _ => y) = .ok () ↔ (∀ c ∈ checks, c.1 = false) ∧ y = .ok () := by
  rw [← firstError_ok]
  rcases firstError checks with e | ⟨⟩ <;> simp [bind, Except.bind]

/-- What validation against a parent looks at: the aggregate of the parent, whether the tree is the
metadata, and the stable timestamp of the system (`__time_stable`). -/
structure ParentTimes where
  parent : TimeAggregate
  metadata : Bool
  stable : ℕ

/-- `__time_aggregate_validate_parent_stable`. -/
def timeAggregateValidateParentStable (ta : TimeAggregate) (stable : ℕ) : Except String Unit :=
  firstError
    [(stable < ta.newestStartDurableTs, "a newest start durable time after"),
      (stable < ta.newestStopDurableTs, "a newest stop durable time after"),
      (stable < ta.oldestStartTs, "an oldest start time after"),
      (ta.newestStopTs ≠ tsMax ∧ stable < ta.newestStopTs, "a newest stop time after")]

/-- `__time_aggregate_validate_parent`. -/
def timeAggregateValidateParent (ta parent : TimeAggregate) : Except String Unit :=
  firstError
    [(parent.newestStartDurableTs < ta.newestStartDurableTs,
        "aggregate time window has a newest start durable time after its parent's"),
      (parent.newestStopDurableTs < ta.newestStopDurableTs,
        "aggregate time window has a newest stop durable time after its parent's"),
      (ta.oldestStartTs < parent.oldestStartTs,
        "aggregate time window has an oldest start time before its parent's"),
      (parent.newestTxn < ta.newestTxn,
        "aggregate time window has a newest transaction after its parent's"),
      (parent.newestStopTs < ta.newestStopTs,
        "aggregate time window has a newest stop time after its parent's"),
      (parent.newestStopTxn < ta.newestStopTxn,
        "aggregate time window has a newest stop transaction after its parent's"),
      (ta.prepare && !parent.prepare,
        "aggregate time window is prepared but its parent is not")]

/-- `__wt_time_aggregate_validate`. -/
def timeAggregateValidate (ta : TimeAggregate) (parent : Option ParentTimes) :
    Except String Unit := do
  firstError
    [(ta.newestStopTs < ta.oldestStartTs,
        "aggregate time window has an oldest start time after its newest stop time"),
      (ta.newestStopTxn < ta.newestTxn,
        "aggregate time window has a newest transaction after its newest stop transaction"),
      (ta.newestStartDurableTs < ta.oldestStartTs,
        "aggregate time window has an oldest start time after its newest start durable time"),
      (ta.newestStopTs ≠ tsMax ∧ ta.newestStopDurableTs < ta.newestStopTs,
        "aggregate time window has a newest stop time after its newest stop durable time"),
      (ta.newestStartDurableTs ≠ ta.newestStopDurableTs ∧
          ta.newestStopTs < ta.newestStartDurableTs,
        "aggregate time window has a newest stop durable time after its newest stop time"),
      (ta.newestStopDurableTs ≠ tsNone ∧ ta.newestStopDurableTs < ta.oldestStartTs,
        "aggregate time window has a newest stop durable time before its oldest start time")]
  match parent with
  | none => .ok ()
  | some pt =>
    if pt.metadata then .ok ()
    else if pt.parent.isEmpty then timeAggregateValidateParentStable ta pt.stable
    else timeAggregateValidateParent ta pt.parent

/-- `__time_value_validate_parent_stable`. -/
def timeValueValidateParentStable (tw : TimeWindow) (stable : ℕ) : Except String Unit :=
  firstError
    [(stable < tw.durableStartTs, "a durable start time after"),
      (stable < tw.startTs, "a start time after"),
      (stable < tw.durableStopTs, "a durable stop time after"),
      (tw.stopTs ≠ tsMax ∧ stable < tw.stopTs, "a stop time after")]

/-- `__time_value_validate_parent`. -/
def timeValueValidateParent (tw : TimeWindow) (parent : TimeAggregate) : Except String Unit :=
  firstError
    [(parent.newestStartDurableTs ≠ tsNone ∧ parent.newestStartDurableTs < tw.durableStartTs,
        "value time window has a durable start time after its parent's newest durable start time"),
      (tw.startTs < parent.oldestStartTs,
        "value time window has a start time before its parent's oldest start time"),
      (parent.newestTxn < tw.startTxn,
        "value time window has a start transaction after its parent's newest transaction"),
      (parent.newestStopDurableTs ≠ tsNone ∧ parent.newestStopDurableTs < tw.durableStopTs,
        "value time window has a durable stop time after its parent's newest durable stop time"),
      (parent.newestStopTs < tw.stopTs,
        "value time window has a stop time after its parent's newest stop time"),
      (parent.newestStopTxn < tw.stopTxn,
        "value time window has a stop transaction after its parent's newest stop transaction"),
      (tw.prepare && !parent.prepare,
        "aggregate time window is prepared but its parent is not")]

/-- `__wt_time_value_validate`. -/
def timeValueValidate (tw : TimeWindow) (parent : Option ParentTimes) : Except String Unit := do
  firstError
    [(tw.stopTs < tw.startTs, "value time window has a start time after its stop time"),
      (tw.stopTxn < tw.startTxn,
        "value time window has a start transaction after its stop transaction"),
      (tw.durableStartTs < tw.startTs,
        "value time window has a start time after its durable start time"),
      (tw.stopTs ≠ tsMax ∧ tw.durableStopTs < tw.stopTs,
        "value time window has a stop time after its durable stop time"),
      (tw.durableStartTs ≠ tw.durableStopTs ∧ tw.stopTs < tw.durableStartTs,
        "value time window has a durable start time after its stop time"),
      (tw.durableStopTs ≠ tsNone ∧ tw.durableStopTs < tw.durableStartTs,
        "value time window has a durable start time after its durable stop time")]
  match parent with
  | none => .ok ()
  | some pt =>
    if pt.metadata then .ok ()
    else if pt.parent.isEmpty then timeValueValidateParentStable tw pt.stable
    else timeValueValidateParent tw pt.parent

/-! ### What is accepted -/

lemma timeValueValidate_ok {tw : TimeWindow} {parent : Option ParentTimes} :
    timeValueValidate tw parent = .ok () ↔ (tw.startTs ≤ tw.stopTs ∧ tw.startTxn ≤ tw.stopTxn ∧
      tw.startTs ≤ tw.durableStartTs ∧ (tw.stopTs ≠ tsMax → tw.stopTs ≤ tw.durableStopTs) ∧
      (tw.durableStartTs ≠ tw.durableStopTs → tw.durableStartTs ≤ tw.stopTs) ∧
      (tw.durableStopTs ≠ tsNone → tw.durableStartTs ≤ tw.durableStopTs)) ∧
      ∀ pt ∈ parent, pt.metadata = false →
        (if pt.parent.isEmpty then timeValueValidateParentStable tw pt.stable
          else timeValueValidateParent tw pt.parent) = .ok () := by
  refine firstError_bind_ok.trans (and_congr (by simp) ?_)
  rcases parent with _ | ⟨parent, metadata, stable⟩
  · simp
  · cases metadata <;> simp

lemma timeAggregateValidate_ok {ta : TimeAggregate} {parent : Option ParentTimes} :
    timeAggregateValidate ta parent = .ok () ↔ (ta.oldestStartTs ≤ ta.newestStopTs ∧
      ta.newestTxn ≤ ta.newestStopTxn ∧ ta.oldestStartTs ≤ ta.newestStartDurableTs ∧
      (ta.newestStopTs ≠ tsMax → ta.newestStopTs ≤ ta.newestStopDurableTs) ∧
      (ta.newestStartDurableTs ≠ ta.newestStopDurableTs →
        ta.newestStartDurableTs ≤ ta.newestStopTs) ∧
      (ta.newestStopDurableTs ≠ tsNone → ta.oldestStartTs ≤ ta.newestStopDurableTs)) ∧
      ∀ pt ∈ parent, pt.metadata = false →
        (if pt.parent.isEmpty then timeAggregateValidateParentStable ta pt.stable
          else timeAggregateValidateParent ta pt.parent) = .ok () := by
  refine firstError_bind_ok.trans (and_congr (by simp) ?_)
  rcases parent with _ | ⟨parent, metadata, stable⟩
  · simp
  · cases metadata <;> simp

/-- The defaults are accepted. -/
lemma timeValueValidate_init : timeValueValidate .init none = .ok () := rfl

lemma timeAggregateValidate_init : timeAggregateValidate .init none = .ok () := rfl

end WiredTiger
