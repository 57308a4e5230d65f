/-
# How windows are made (`include/timestamp_inline.h`, `reconcile/rec_visibility.c`)

The window of a value with a tombstone is put together from both updates, and repaired if their
times are out of order.  A window of which start and stop are the same time is left as it is, and
then the checks of a window may fail.
-/
import WiredTiger.Cell.TimeWindow

namespace WiredTiger

open TimeWindow

/-! ### A value and its tombstone -/

/-- `WT_TIME_WINDOW_SET_START`. -/
def TimeWindow.setStart (tw : TimeWindow) (upd : Update) : TimeWindow :=
  { tw with
    durableStartTs := if upd.durableTs ≠ tsNone then upd.durableTs else upd.startTs
    startTs := upd.startTs
    startTxn := upd.txnid }

/-- `WT_TIME_WINDOW_SET_STOP`. -/
def TimeWindow.setStop (tw : TimeWindow) (upd : Update) : TimeWindow :=
  { tw with
    durableStopTs := if upd.durableTs ≠ tsNone then upd.durableTs else upd.startTs
    stopTs := upd.startTs
    stopTxn := upd.txnid }

/-- The window that `__wt_rec_upd_select` puts together. -/
def TimeWindow.combined (tw : TimeWindow) (value tombstone : Update) : TimeWindow :=
  (tw.setStop tombstone).setStart value

/-- `__timestamp_out_of_order_fix`: the window it leaves, and what it returns. -/
def timestampOutOfOrderFix (tw : TimeWindow) : TimeWindow × Bool :=
  if tw.stopTs < tw.startTs then
    ({ tw with durableStartTs := tw.durableStopTs, startTs := tw.stopTs }, true)
  else if tw.startTs ≠ tw.stopTs ∧ tw.stopTs < tw.durableStartTs then
    ({ tw with durableStartTs := tw.stopTs }, false)
  else (tw, false)

/-- The checks of `__wt_time_value_validate` other than that of the transactions. -/
def TimestampsValid (tw : TimeWindow) : Prop :=
  timeValueValidate { tw with startTxn := txnNone } none = .ok ()

/-- **The fix leaves a valid window unless start and stop are the same time.**  Then the durable
times are left alone, and the one of the start may be behind the stop. -/
theorem outOfOrderFix_valid_iff (tw : TimeWindow) (value tombstone : Update) :
    ∀ w, tw.combined value tombstone = w → w.startTs ≤ w.durableStartTs →
      w.stopTs ≤ w.durableStopTs → (TimestampsValid (timestampOutOfOrderFix w).1 ↔
        ¬(w.startTs = w.stopTs ∧ w.stopTs < w.durableStartTs ∧
          w.durableStartTs ≠ w.durableStopTs)) := by
  rintro w - hvalue htomb
  have htxn : txnNone ≤ w.stopTxn := Nat.zero_le _
  unfold timestampOutOfOrderFix TimestampsValid
  rw [timeValueValidate_ok]
  split_ifs <;> simp only [htxn, true_and, Option.not_mem_none, false_imp_iff,
    and_true, ne_eq, not_true, le_refl, imp_true_iff] <;> omega

/-- An update with a start and a durable time. -/
def updateAt (startTs durableTs : ℕ) : Update :=
  ⟨1, durableTs, startTs, .tombstone, .init, false, false⟩

theorem outOfOrderFix_valid_iff_late :
    TimestampsValid (timestampOutOfOrderFix
      (init.combined (updateAt 20 20) (updateAt 10 10))).1 :=
  (outOfOrderFix_valid_iff .init (updateAt 20 20) (updateAt 10 10) _ rfl (by decide)
    (by decide)).mpr (by decide)

/-- A value that is durable at 20 and a tombstone that is durable at 10, both at 10. -/
theorem outOfOrderFix_leaves_invalid :
    ¬ TimestampsValid (timestampOutOfOrderFix (init.combined (updateAt 10 20)
      (updateAt 10 10))).1 := by
  unfold TimestampsValid
  decide

end WiredTiger
