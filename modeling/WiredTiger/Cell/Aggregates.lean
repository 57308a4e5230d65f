/-
# Collecting time windows (`include/timestamp_inline.h`)

The aggregate of a page is collected from its windows and from the aggregates of the pages below, so
that each field is the newest or the oldest of all windows, however they are grouped.  An aggregate
is checked as a window is.  The checks relate fields that come from different windows, and one of
them does not follow from those of the windows: a window may start and stop at the same time and be
durable later, which is allowed as long as start and stop are durable at the same time.
-/
import WiredTiger.Cell.TimeWindow

namespace WiredTiger

open List

namespace TimeAggregate

/-- `WT_TIME_AGGREGATE_UPDATE`. -/
def update (ta : TimeAggregate) (tw : TimeWindow) : TimeAggregate :=
  let newestTxn := max tw.startTxn ta.newestTxn
  { newestStartDurableTs := max tw.durableStartTs ta.newestStartDurableTs
    newestStopDurableTs := max tw.durableStopTs ta.newestStopDurableTs
    oldestStartTs := min tw.startTs ta.oldestStartTs
    newestTxn := if tw.stopTxn ≠ txnMax then max tw.stopTxn newestTxn else newestTxn
    newestStopTs := max tw.stopTs ta.newestStopTs
    newestStopTxn := max tw.stopTxn ta.newestStopTxn
    prepare := if tw.prepare then true else ta.prepare
    initMerge := ta.initMerge }

/-- `WT_TIME_AGGREGATE_MERGE`. -/
def merge (dest source : TimeAggregate) : TimeAggregate :=
  let newestTxn := max dest.newestTxn source.newestTxn
  let newestStopTxn := max dest.newestStopTxn source.newestStopTxn
  { newestStartDurableTs := max dest.newestStartDurableTs source.newestStartDurableTs
    newestStopDurableTs := max dest.newestStopDurableTs source.newestStopDurableTs
    oldestStartTs := min dest.oldestStartTs source.oldestStartTs
    newestTxn := if newestStopTxn ≠ txnMax then max newestTxn newestStopTxn else newestTxn
    newestStopTs := max dest.newestStopTs source.newestStopTs
    newestStopTxn := newestStopTxn
    prepare := if source.prepare then true else dest.prepare
    initMerge := dest.initMerge }

end TimeAggregate

/-- How windows are collected: one by one, and with what has been collected elsewhere. -/
inductive Aggregation
  | init
  | update (a : Aggregation) (tw : TimeWindow)
  | merge (a source : Aggregation)

namespace Aggregation

def aggregate : Aggregation → TimeAggregate
  | init => .mergeInit
  | update a tw => a.aggregate.update tw
  | merge a source => a.aggregate.merge source.aggregate

def windows : Aggregation → List TimeWindow
  | init => []
  | update a tw => tw :: a.windows
  | merge a source => a.windows ++ source.windows

/-- The aggregates on the way to the last one, which is one of them. -/
def parts : Aggregation → List Aggregation
  | init => [init]
  | update a tw => update a tw :: a.parts
  | merge a source => merge a source :: (a.parts ++ source.parts)

end Aggregation

/-! ### What the fields are -/

variable {f : TimeWindow → ℕ} {l m : List TimeWindow} {n : ℕ} {tw : TimeWindow}

def newest (f : TimeWindow → ℕ) (l : List TimeWindow) : ℕ :=
  l.foldr (fun tw n => max (f tw) n) 0

def oldest (f : TimeWindow → ℕ) (l : List TimeWindow) : ℕ :=
  l.foldr (fun tw n => min (f tw) n) tsMax

lemma newest_cons : newest f (tw :: l) = max (f tw) (newest f l) := rfl

lemma newest_le : newest f l ≤ n ↔ ∀ tw ∈ l, f tw ≤ n := by
  induction l with
  | nil => simp [newest]
  | cons tw l ih => rw [forall_mem_cons, ← ih, ← max_le_iff, newest_cons]

lemma le_oldest : n ≤ oldest f l ↔ n ≤ tsMax ∧ ∀ tw ∈ l, n ≤ f tw := by
  induction l with
  | nil => simp [oldest]
  | cons tw l ih => rw [forall_mem_cons, and_left_comm, ← ih, ← le_min_iff]; rfl

lemma le_newest (h : tw ∈ l) : f tw ≤ newest f l := newest_le.mp le_rfl tw h

lemma oldest_le (h : tw ∈ l) : oldest f l ≤ f tw := (le_oldest.mp le_rfl).2 tw h

/-- The transactions of a window that are there. -/
def TimeWindow.newestTxn (tw : TimeWindow) : ℕ :=
  if tw.stopTxn ≠ txnMax then max tw.stopTxn tw.startTxn else tw.startTxn

/-- Of these windows, the newest durable start is no later than the newest stop, or it is as late as
the newest durable stop. -/
def DurableInOrder (l : List TimeWindow) : Prop :=
  newest TimeWindow.durableStartTs l ≠ newest TimeWindow.durableStopTs l →
    newest TimeWindow.durableStartTs l ≤ newest TimeWindow.stopTs l

/-- What the aggregate over windows is meant to be. -/
def aggregateOf (l : List TimeWindow) : TimeAggregate where
  newestStartDurableTs := newest TimeWindow.durableStartTs l
  newestStopDurableTs := newest TimeWindow.durableStopTs l
  oldestStartTs := oldest TimeWindow.startTs l
  newestTxn := newest TimeWindow.newestTxn l
  newestStopTs := newest TimeWindow.stopTs l
  newestStopTxn := newest TimeWindow.stopTxn l
  prepare := l.any TimeWindow.prepare
  initMerge := true

/-- The newest stop is known among the transactions, unless it is the one that says that there is no
stop. -/
lemma newest_stopTxn_le (h : newest TimeWindow.stopTxn l ≠ txnMax) :
    newest TimeWindow.stopTxn l ≤ newest TimeWindow.newestTxn l := by
  induction l with
  | nil => exact le_rfl
  | cons tw l ih =>
    have hstop : tw.stopTxn ≠ txnMax → tw.stopTxn ≤ tw.newestTxn := by
      intro hne
      rw [TimeWindow.newestTxn, if_pos hne]
      exact le_max_left _ _
    rw [newest_cons] at h ⊢
    rw [newest_cons]
    omega

lemma newest_append : newest f (l ++ m) = max (newest f l) (newest f m) :=
  eq_of_forall_ge_iff fun n => by simp only [newest_le, max_le_iff, forall_mem_append]

/-- **The fields of an aggregate are the newest and the oldest of its windows**, however they were
collected. -/
lemma aggregate_eq (a : Aggregation) : a.aggregate = aggregateOf a.windows := by
  induction a with
  | init => rfl
  | update a tw ih =>
    rw [Aggregation.aggregate, ih, Aggregation.windows]
    simp only [TimeAggregate.update, aggregateOf, TimeAggregate.mk.injEq, any_cons, newest_cons,
      true_and, and_true]
    refine ⟨rfl, ?_, ?_⟩
    · rw [TimeWindow.newestTxn]
      split_ifs <;> omega
    · cases tw.prepare <;> rfl
  | merge a b iha ihb =>
    have holdest : oldest TimeWindow.startTs (a.windows ++ b.windows) =
        min (oldest TimeWindow.startTs a.windows) (oldest TimeWindow.startTs b.windows) :=
      eq_of_forall_le_iff fun n => by
        simp only [le_oldest, le_min_iff, forall_mem_append]
        tauto
    have hstop := @newest_stopTxn_le (a.windows ++ b.windows)
    rw [newest_append, newest_append] at hstop
    rw [Aggregation.aggregate, iha, ihb, Aggregation.windows]
    simp only [TimeAggregate.merge, aggregateOf, TimeAggregate.mk.injEq, newest_append, any_append,
      holdest, true_and, and_true]
    refine ⟨?_, by rw [Bool.or_comm]; exact (Bool.cond_eq_ite ..).symm⟩
    by_cases h : max (newest TimeWindow.stopTxn a.windows) (newest TimeWindow.stopTxn b.windows) =
        txnMax
    · exact if_neg (not_not.mpr h)
    · exact (if_pos h).trans (max_eq_left (hstop h))

lemma aggregateOf_perm (h : l.Perm m) : aggregateOf l = aggregateOf m := by
  have hnewest : ∀ f, newest f l = newest f m := fun f =>
    eq_of_forall_ge_iff fun n => by simp only [newest_le, h.mem_iff]
  have holdest : ∀ f, oldest f l = oldest f m := fun f =>
    eq_of_forall_le_iff fun n => by simp only [le_oldest, h.mem_iff]
  rw [aggregateOf, aggregateOf, h.any_eq, holdest]
  simp only [hnewest]

/-! ### Validity -/

section Valid

variable (hfits : ∀ tw ∈ m, tw.Fits) (hok : ∀ tw ∈ m, timeValueValidate tw none = .ok ())

include hok

lemma isEmpty_aggregateOf (hne : m ≠ []) : (aggregateOf m).isEmpty = false := by
  refine decide_eq_false fun hempty => ?_
  obtain ⟨tw, htw⟩ := exists_mem_of_ne_nil m hne
  have hstart : oldest TimeWindow.startTs m ≤ tw.startTs := oldest_le htw
  have hstop : tw.stopTs ≤ newest TimeWindow.stopTs m := le_newest htw
  have hle := (timeValueValidate_ok.mp (hok tw htw)).1.1
  have h₁ : oldest TimeWindow.startTs m = tsMax := congrArg TimeAggregate.oldestStartTs hempty
  have h₂ : newest TimeWindow.stopTs m = tsNone := congrArg TimeAggregate.newestStopTs hempty
  have h₃ : tsNone < tsMax := by decide
  omega

/-- A window fits into the aggregate. -/
lemma timeValueValidate_aggregateOf (htw : tw ∈ m) (metadata : Bool) (stable : ℕ) :
    timeValueValidate tw (some ⟨aggregateOf m, metadata, stable⟩) = .ok () := by
  refine timeValueValidate_ok.mpr ⟨(timeValueValidate_ok.mp (hok tw htw)).1, ?_⟩
  rintro _ ⟨⟩ -
  have htxn : tw.startTxn ≤ tw.newestTxn := by
    rw [TimeWindow.newestTxn]
    split_ifs
    · exact le_max_right _ _
    · exact le_rfl
  rw [isEmpty_aggregateOf hok (ne_nil_of_mem htw), if_neg Bool.false_ne_true,
    timeValueValidateParent, firstError_ok]
  simp only [forall_mem_cons, decide_eq_false_iff_not, not_and, not_lt, Bool.and_eq_false_iff]
  refine ⟨fun _ => le_newest htw, oldest_le htw, htxn.trans (le_newest htw),
    fun _ => le_newest htw, le_newest htw, le_newest htw, ?_, nofun⟩
  refine (Bool.eq_false_or_eq_true tw.prepare).symm.imp_right fun h => ?_
  exact congrArg not (any_eq_true.mpr ⟨tw, htw, h⟩)

include hfits

/-- An aggregate over some of the windows is valid as part of the whole one exactly if these windows
are in order. -/
lemma timeAggregateValidate_aggregateOf (hl : l ⊆ m) (hne : l ≠ []) (metadata : Bool) (stable : ℕ) :
    timeAggregateValidate (aggregateOf l) (some ⟨aggregateOf m, metadata, stable⟩) = .ok () ↔
      DurableInOrder l := by
  obtain ⟨tw, htw⟩ := exists_mem_of_ne_nil l hne
  have hmono : ∀ f, newest f l ≤ newest f m := fun f => newest_le.mpr fun tw h => le_newest (hl h)
  have hmono' : oldest TimeWindow.startTs m ≤ oldest TimeWindow.startTs l :=
    le_oldest.mpr ⟨(le_oldest.mp le_rfl).1, fun tw h => oldest_le (hl h)⟩
  have hwin := fun tw (htw : tw ∈ l) => (timeValueValidate_ok.mp (hok tw (hl htw))).1
  rw [timeAggregateValidate_ok]
  refine ⟨fun h => h.1.2.2.2.2.1, fun hin => ⟨⟨?_, ?_, ?_, ?_, hin, ?_⟩, ?_⟩⟩
  · exact (oldest_le htw).trans ((hwin tw htw).1.trans (le_newest htw))
  · refine newest_le.mpr fun tw htw => ?_
    have hle := @le_newest TimeWindow.stopTxn l tw htw
    have := (hwin tw htw).2.1
    rw [TimeWindow.newestTxn]
    dsimp only [aggregateOf]
    split_ifs <;> omega
  · exact (oldest_le htw).trans ((hwin tw htw).2.2.1.trans (le_newest htw))
  · refine fun hmax => newest_le.mpr fun tw htw => ?_
    have hle : newest TimeWindow.stopTs l ≤ tsMax :=
      newest_le.mpr fun tw htw => Nat.le_of_lt_succ (hfits tw (hl htw)).stopTs
    have hstop := @le_newest TimeWindow.stopTs l tw htw
    refine ((hwin tw htw).2.2.2.1 fun h => hmax ?_).trans (le_newest htw)
    exact hle.antisymm (h ▸ hstop)
  · intro hnone
    by_contra hlt
    refine hnone (Nat.le_zero.mp (newest_le.mpr fun tw htw => ?_))
    obtain ⟨-, -, hstart, -, -, hdurable⟩ := hwin tw htw
    have h₁ := @oldest_le TimeWindow.startTs l tw htw
    have h₂ := @le_newest TimeWindow.durableStopTs l tw htw
    dsimp only [aggregateOf] at hlt
    by_contra hzero
    have := hdurable fun h => hzero h.le
    omega
  · rintro _ ⟨⟩ -
    rw [isEmpty_aggregateOf hok (ne_nil_of_mem (hl htw)), if_neg Bool.false_ne_true,
      timeAggregateValidateParent, firstError_ok]
    simp only [forall_mem_cons, decide_eq_false_iff_not, not_lt, Bool.and_eq_false_iff]
    refine ⟨hmono _, hmono _, hmono', hmono _, hmono _, hmono _, ?_, nofun⟩
    refine (Bool.eq_false_or_eq_true (l.any TimeWindow.prepare)).symm.imp_right fun h => ?_
    obtain ⟨tw, htw, hp⟩ := any_eq_true.mp h
    exact congrArg not (any_eq_true.mpr ⟨tw, hl htw, hp⟩)

end Valid

lemma Aggregation.windows_subset {a p : Aggregation} (h : p ∈ a.parts) : p.windows ⊆ a.windows := by
  intro tw htw
  induction a with
  | init => rwa [← mem_singleton.mp h]
  | update a _ ih =>
    rcases mem_cons.mp h with rfl | h
    · exact htw
    · exact mem_cons_of_mem _ (ih h)
  | merge a b iha ihb =>
    rcases mem_cons.mp h with rfl | h
    · exact htw
    · exact mem_append.mpr ((mem_append.mp h).imp iha ihb)

/-- **When aggregation preserves validity.**  Windows that are valid give the same aggregate however
they are grouped, and each of them is valid as part of it; the aggregates on the way and the last
one are valid exactly if the windows of each of them are in order. -/
theorem aggregation_valid_iff (a : Aggregation) (hne : a.windows ≠ [])
    (hfits : ∀ tw ∈ a.windows, tw.Fits)
    (hok : ∀ tw ∈ a.windows, timeValueValidate tw none = .ok ()) (metadata : Bool) (stable : ℕ) :
    ((∀ b : Aggregation, b.windows.Perm a.windows → b.aggregate = a.aggregate) ∧
      timeAggregateValidate a.aggregate none = .ok () ∧
      (∀ tw ∈ a.windows,
        timeValueValidate tw (some ⟨a.aggregate, metadata, stable⟩) = .ok ()) ∧
      ∀ p ∈ a.parts, p.windows ≠ [] →
        timeAggregateValidate p.aggregate (some ⟨a.aggregate, metadata, stable⟩) = .ok ()) ↔
    ∀ p ∈ a.parts, p.windows ≠ [] → DurableInOrder p.windows := by
  have hparts : ∀ p ∈ a.parts, p.windows ≠ [] →
      (timeAggregateValidate p.aggregate (some ⟨a.aggregate, metadata, stable⟩) = .ok () ↔
        DurableInOrder p.windows) := by
    intro p hp hpne
    rw [aggregate_eq, aggregate_eq]
    exact timeAggregateValidate_aggregateOf hfits hok (a.windows_subset hp) hpne metadata stable
  constructor
  · rintro ⟨-, -, -, h⟩ p hp hpne
    exact (hparts p hp hpne).mp (h p hp hpne)
  · intro h
    have hself : a ∈ a.parts := by
      cases a <;> exact mem_cons_self
    refine ⟨fun b hb => ?_, ?_, fun tw htw => ?_,
      fun p hp hpne => (hparts p hp hpne).mpr (h p hp hpne)⟩
    · rw [aggregate_eq, aggregate_eq, aggregateOf_perm hb]
    · have hvalid := (hparts a hself hne).mpr (h a hself hne)
      exact timeAggregateValidate_ok.mpr ⟨(timeAggregateValidate_ok.mp hvalid).1, nofun⟩
    · rw [aggregate_eq]
      exact timeValueValidate_aggregateOf hok htw metadata stable

/-- A window that starts and stops at the same time, durable later, and one that stops later. -/
def twoWindows : Aggregation :=
  .merge (.update .init ⟨20, 10, 1, 20, 10, 1, false⟩) (.update .init ⟨1, 1, 1, 30, 15, 1, false⟩)

theorem aggregation_valid_iff_one :
    timeAggregateValidate (Aggregation.update .init .init).aggregate none = .ok () := by
  refine ((aggregation_valid_iff (.update .init .init) (cons_ne_nil _ _) (fun tw htw => ?_)
    (fun tw htw => ?_) false 0).mpr fun p hp hne => ?_).2.1
  · obtain rfl := mem_singleton.mp htw
    constructor <;> decide
  · obtain rfl := mem_singleton.mp htw
    rfl
  · rcases mem_cons.mp hp with rfl | hp
    · intro _
      decide
    · rw [mem_singleton.mp hp] at hne
      exact absurd rfl hne

/-- The newest durable start is that of the first window, and the newest stop that of the second. -/
theorem aggregate_of_valid_invalid :
    (∀ tw ∈ twoWindows.windows, timeValueValidate tw none = .ok ()) ∧
      timeAggregateValidate twoWindows.aggregate none ≠ .ok () := by
  decide

end WiredTiger
