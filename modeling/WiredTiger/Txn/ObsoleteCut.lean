/-
# Obsolete updates are not missed (`__wt_update_obsolete_check` in `btree/row_modify.c`)

The chain of a key is cut behind an update that everybody sees and that has the whole value.  A
reader that comes to it does not look behind it, neither for a visible update nor for the base of a
modify.  A cursor that ignores tombstones does: it passes the tombstone at which the chain is cut.
-/
import WiredTiger.Txn.WorldRun

namespace WiredTiger

open List

/-- What a read of an update list looks at of its cursor. -/
structure ReadFlags where
  /-- `WT_CURSTD_IGNORE_TOMBSTONE`. -/
  ignoreTombstone : Bool
  /-- The tree is the history store. -/
  isHs : Bool

/-- `__wt_txn_upd_visible_type`: the values of the history store are always visible. -/
def updVisibleType (c : ReadFlags) (w : View) (upd : Update) : Except Stop VisibleType :=
  match upd.data with
  | .standard _ =>
    if upd.prepare ≠ .locked ∧ c.isHs ∧ upd.txnid ≠ txnAborted then .ok .true
    else txnUpdVisibleType w upd
  | _ => txnUpdVisibleType w upd

/-- The loop of `__wt_txn_read_upd_list_internal`, with the time window of `upd_value`. -/
def readUpdListLoop (c : ReadFlags) (w : View) :
    List Update → TimeWindow → Option Update → Option Update → Except Stop (UpdList × TimeWindow)
  | [], tw, prepareUpd, restoredUpd => .ok (⟨[], prepareUpd, restoredUpd⟩, tw)
  | upd :: next, tw, prepareUpd, restoredUpd =>
    if upd.data = .reserve then readUpdListLoop c w next tw prepareUpd restoredUpd
    else if upd.data = .tombstone ∧ c.ignoreTombstone ∧ !tw.hasStop then
      readUpdListLoop c w next
        { tw with
          durableStopTs := upd.durableTs, stopTs := upd.startTs, stopTxn := upd.txnid
          prepare := upd.prepare = .inprogress ∨ upd.prepare = .locked }
        prepareUpd restoredUpd
    else
      match updVisibleType c w upd with
      | .error e => .error e
      | .ok .true => .ok (⟨upd :: next, prepareUpd, restoredUpd⟩, tw)
      | .ok visible =>
        let prepareUpd :=
          if (upd.prepare = .inprogress ∨ upd.prepare = .locked) ∧ prepareUpd = none ∧
            upd.prepareRestoredFromDs then some upd else prepareUpd
        let restoredUpd :=
          match upd.data with
          | .standard _ => if upd.restoredFromHs then some upd else restoredUpd
          | _ => restoredUpd
        if visible = .prepare ∧ !w.ignorePrepare then .error .prepareConflict
        else readUpdListLoop c w next tw prepareUpd restoredUpd

/-- What is found: the update and its value, the updates that are saved, and the stop. -/
def foundOf (fmt : ValueFormat) (onpage : Option Value) (found : UpdList × TimeWindow) :
    Option Update × UpdateValue × Option Update × Option Update × TimeWindow :=
  (found.1.chain.head?, updValueAssign fmt onpage found.1.chain, found.1.prepareUpd,
    found.1.restoredUpd, found.2)

/-- `__wt_txn_read_upd_list_internal`, over the value on the page. -/
def readUpdListInternal (c : ReadFlags) (w : View) (fmt : ValueFormat) (onpage : Option Value)
    (upd : List Update) :
    Except Stop (Option Update × UpdateValue × Option Update × Option Update × TimeWindow) :=
  (readUpdListLoop c w upd .init none none).map (foundOf fmt onpage)

section Cut

variable {c : ReadFlags} {w : View} {A B : List Update} {n : Update} (hval : n.data.isValue = true)
include hval

/-- The base of a modify is not behind a whole value. -/
lemma modifyReconstruct_cut (hna : n.txnid ≠ txnAborted) (fmt : ValueFormat)
    (onpage : Option Value) :
    modifyReconstruct fmt onpage (A ++ [n]) = modifyReconstruct fmt onpage (A ++ n :: B) := by
  induction A with
  | nil =>
    cases hdata : n.data with
    | standard | tombstone => simp [modifyReconstruct, hna, hdata]
    | modify | reserve => simp [hdata, UpdData.isValue] at hval
  | cons u A ih => simp [cons_append, modifyReconstruct, ih]

lemma updValueAssign_cut (hna : n.txnid ≠ txnAborted) (fmt : ValueFormat) (onpage : Option Value)
    (u : Update) :
    updValueAssign fmt onpage (u :: (A ++ [n])) =
      updValueAssign fmt onpage (u :: (A ++ n :: B)) := by
  have h := @modifyReconstruct_cut (u :: A) B n hval hna fmt onpage
  simp only [cons_append] at h
  simp [updValueAssign, h]

/-- **A reader that sees the whole value at which a chain is cut** does not miss what is behind. -/
lemma readUpdListLoop_cut (hna : n.txnid ≠ txnAborted) (hc : c.ignoreTombstone = false)
    (hvis : updVisibleType c w n = .ok .true) (fmt : ValueFormat) (onpage : Option Value)
    (tw : TimeWindow) (prepareUpd restoredUpd : Option Update) :
    (readUpdListLoop c w (A ++ [n]) tw prepareUpd restoredUpd).map (foundOf fmt onpage) =
      (readUpdListLoop c w (A ++ n :: B) tw prepareUpd restoredUpd).map (foundOf fmt onpage) := by
  induction A generalizing tw prepareUpd restoredUpd with
  | nil =>
    have hres : n.data ≠ .reserve := fun h => by simp [h, UpdData.isValue] at hval
    have hfound : updValueAssign fmt onpage [n] = updValueAssign fmt onpage (n :: B) := by
      cases hdata : n.data <;> simp_all [updValueAssign, UpdData.isValue]
    simp [readUpdListLoop, hres, hc, hvis, Except.map, foundOf, hfound]
  | cons u A ih =>
    simp only [cons_append, readUpdListLoop, hc, Bool.false_eq_true, false_and, and_false, if_false]
    by_cases hres : u.data = .reserve
    · rw [if_pos hres, if_pos hres]
      exact ih ..
    rw [if_neg hres, if_neg hres]
    rcases updVisibleType c w u with e | visible
    · rfl
    by_cases htrue : visible = .true
    · subst htrue
      simp [Except.map, foundOf, updValueAssign_cut (B := B) hval hna, head?_cons]
    · by_cases hstop : visible = .prepare ∧ (!w.ignorePrepare) = true
      · simp [hstop]
      · simp only [hstop, if_false]
        exact ih ..

end Cut

/-- A reader of the present state: its snapshot and its read timestamp are no older than what is
visible to all. -/
structure ReadsFrom (g : Global) (w : View) : Prop where
  oldest : g.oldestId ≤ w.snap.snapMin
  snap : w.snap.snapMin ≤ w.snap.snapMax
  pinned : ∀ ts, w.readTs = some ts → g.pinnedTs ≤ ts

/-- **Obsolete updates are not missed.**  A chain is cut where the walk from place `i` on says.
Outside shutdown, and if no durable timestamp is older than the start timestamp it belongs to, every
reader but one that ignores tombstones finds the same in the chain that is left. -/
theorem obsoleteCut_invisible (c : ReadFlags) (hc : c.ignoreTombstone = false) (g : Global)
    (hclosing : g.closing = false) (w : View) (hw : ReadsFrom g w) (fmt : ValueFormat)
    (onpage : Option Value) (chain : List Update)
    (hdurable : ∀ u ∈ chain, u.prepare ≠ .inprogress → u.prepare ≠ .locked →
      u.startTs ≤ u.durableTs) {i first : ℕ}
    (hcut : updateObsoleteCheck g (chain.drop i) i none = some first) :
    readUpdListInternal c w fmt onpage (chain.take (first + 1)) =
      readUpdListInternal c w fmt onpage chain := by
  obtain ⟨A, n, B, rfl, rfl, hna, hall, hval, -⟩ := World.Inv.truncate_split hcut
  obtain ⟨hlocked, hin⟩ : n.prepare ≠ .locked ∧ n.prepare ≠ .inprogress := by
    rw [txnUpdVisibleAll] at hall
    split_ifs at hall with hprep
    exact not_or.mp hprep
  have hvis := World.Inv.visible_of_visibleAll hclosing hw.oldest hw.pinned hw.snap
    (hdurable n (by simp) hin hlocked) hna hall
  have hvis' : updVisibleType c w n = .ok .true := by
    unfold updVisibleType
    split
    · split_ifs
      · rfl
      · exact hvis
    · exact hvis
  have htake : (A ++ n :: B).take (0 + A.length + 1) = A ++ [n] := by simp [take_append]
  rw [htake]
  exact readUpdListLoop_cut hval hna hc hvis' ..

/-- A reader that has come after all versions of a key. -/
def lateReader : View := ⟨0, false, .snapshot, .quiet 10, some 60, false⟩

/-- A deleted value. -/
def deletedValue : List Update :=
  [⟨5, 20, 20, .tombstone, .init, false, false⟩, ⟨4, 10, 10, .standard [1], .init, false, false⟩]

lemma lateReader_reads : ReadsFrom ⟨10, 50, false⟩ lateReader :=
  ⟨le_rfl, le_rfl, by simp [lateReader, Snapshot.quiet]⟩

theorem obsoleteCut_deletedValue :
    updateObsoleteCheck ⟨10, 50, false⟩ deletedValue 0 none = some 0 ∧
      readUpdListInternal ⟨false, false⟩ lateReader .u none (deletedValue.take 1) =
        readUpdListInternal ⟨false, false⟩ lateReader .u none deletedValue :=
  ⟨by decide, obsoleteCut_invisible _ rfl _ rfl _ lateReader_reads _ _ _ (by decide) (i := 0)
    (by decide)⟩

/-- A cursor that ignores tombstones misses the value. -/
theorem obsoleteCut_ignoreTombstone :
    ReadsFrom ⟨10, 50, false⟩ lateReader ∧
      updateObsoleteCheck ⟨10, 50, false⟩ deletedValue 0 none = some 0 ∧
      (readUpdListInternal ⟨true, true⟩ lateReader .u none deletedValue).map (·.2.1) =
        .ok (.standard [1]) ∧
      (readUpdListInternal ⟨true, true⟩ lateReader .u none (deletedValue.take 1)).map (·.2.1) =
        .ok .invalid :=
  ⟨lateReader_reads, by decide, rfl, rfl⟩

end WiredTiger
