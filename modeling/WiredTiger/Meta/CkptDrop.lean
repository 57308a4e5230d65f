/-
# Dropping checkpoints by name (`txn/txn_ckpt.c`)

A checkpoint of a tree is taken under a name, the internal one if the application gives none, and it
replaces the checkpoints of that name.  The configuration may also name checkpoints to be dropped,
one by one or from or up to a name.  What is to be deleted is only marked here.

The internal checkpoints are recognised by the leading bytes of their names, and whether the
internal ones are meant by a comparison that is limited to the length of the name that is given.
-/
import WiredTiger.Meta.CkptList

namespace WiredTiger

open Lib List MetaCkpt

/-- What choosing the checkpoints to be dropped fails with. -/
inductive DropError
  | config (e : ConfigError)
  | name (e : NameError)
  /-- `"unexpected value for checkpoint key"` -/
  | unexpectedValue
  deriving DecidableEq, Repr

/-- `strncmp` finds no difference; no text has a nul character. -/
def strncmpEq (a b : List Char) (len : ℕ) : Bool := a.take len = b.take len

/-- `WT_STRING_MATCH`, for the characters of a name. -/
def stringMatch (str bytes : List Char) : Bool := strncmpEq str bytes bytes.length ∧
  str.length = bytes.length

/-- `WT_PREFIX_MATCH` with `WT_CHECKPOINT`: an internal checkpoint. -/
def MetaCkpt.internal (ck : MetaCkpt) : Bool := wtCheckpoint.isPrefixOf ck.name

/-- `F_SET` of `WT_CKPT_DELETE`. -/
def MetaCkpt.markDelete (ck : MetaCkpt) : MetaCkpt := { ck with deleted := true }

/-- A loop that marks the checkpoints with a property. -/
def markIf (p : MetaCkpt → Bool) (cks : List MetaCkpt) : List MetaCkpt :=
  cks.map fun ck => if p ck then ck.markDelete else ck

/-- `__drop`. -/
def ckptDrop (cks : List MetaCkpt) (name : List Char) : List MetaCkpt :=
  if strncmpEq wtCheckpoint name name.length then markIf internal cks
  else markIf (fun ck => stringMatch ck.name name) cks

/-- `__drop_from`. -/
def ckptDropFrom (cks : List MetaCkpt) (name : List Char) : List MetaCkpt :=
  if stringMatch "all".toList name then markIf (fun _ => true) cks
  else
    let before := cks.takeWhile fun ck => !stringMatch ck.name name
    before ++ markIf (fun _ => true) (cks.drop before.length)

/-- `__drop_to`: up to the last checkpoint of the name. -/
def ckptDropTo (cks : List MetaCkpt) (name : List Char) : List MetaCkpt :=
  let behind := (cks.reverse.takeWhile fun ck => !stringMatch ck.name name).reverse
  markIf (fun _ => true) (cks.take (cks.length - behind.length)) ++ behind

/-- One entry of the `drop` configuration in `__checkpoint_lock_dirty_tree`. -/
def dropEntry (cks : List MetaCkpt) (kv : ConfigItem × ConfigItem) :
    Except DropError (List MetaCkpt) := do
  let (k, v) := kv
  (checkpointNameOk (if v.len = 0 then k.text else v.text)).mapError .name
  if v.len = 0 then .ok (ckptDrop cks k.text)
  else if stringMatch "from".toList k.text then .ok (ckptDropFrom cks v.text)
  else if stringMatch "to".toList k.text then .ok (ckptDropTo cks v.text)
  else .error .unexpectedValue

/-- `__checkpoint_lock_dirty_tree`, as far as it chooses the checkpoints to be dropped: the values
of the configuration keys `name` and `drop`, and the checkpoints of the tree. -/
def checkpointMarks (name drop : ConfigItem) (cks : List MetaCkpt) :
    Except DropError (List MetaCkpt) := do
  let name ←
    if name.len = 0 then .ok wtCheckpoint
    else do
      (checkpointNameOk name.text).mapError .name
      .ok name.text
  let cks ←
    if drop.len = 0 then .ok cks
    else do
      let items := configAll (configSubinit drop)
      let cks ← items.1.foldlM dropEntry cks
      if items.2 ≠ .notFound then .error (.config items.2)
      .ok cks
  .ok (ckptDrop cks name)

/-! ### A name takes its own checkpoints -/

lemma stringMatch_iff {str bytes : List Char} : stringMatch str bytes = true ↔ str = bytes := by
  rw [stringMatch, strncmpEq, take_length, decide_eq_true_eq]
  constructor
  · rintro ⟨htake, hlen⟩
    rw [← hlen, take_length] at htake
    exact of_decide_eq_true htake
  · rintro rfl
    exact ⟨decide_eq_true take_length, rfl⟩

lemma strncmpEq_iff_isPrefix {a b : List Char} : strncmpEq a b b.length = true ↔ b <+: a := by
  rw [strncmpEq, take_length, decide_eq_true_eq, prefix_iff_eq_take]
  exact eq_comm

lemma markIf_eq_markIf_iff {p q : MetaCkpt → Bool} {cks : List MetaCkpt} :
    markIf p cks = markIf q cks ↔ ∀ ck ∈ cks, ck.deleted = true ∨ p ck = q ck := by
  rw [markIf, markIf, map_inj_left]
  refine forall₂_congr fun ck _ => ?_
  have hmark : ck.markDelete = ck ↔ ck.deleted = true := by
    constructor
    · intro h
      exact h ▸ rfl
    · intro h
      rw [markDelete, ← h]
  cases p ck <;> cases q ck <;> simp [hmark, @eq_comm _ ck ck.markDelete]

/-- An accepted name is none of an internal checkpoint. -/
lemma not_prefix_of_nameOk {name : List Char} (h : checkpointNameOk name = .ok ()) :
    ¬ wtCheckpoint <+: name := by
  intro hpre
  rw [checkpointNameOk] at h
  obtain ⟨_, -, h⟩ := exists_of_bind_ok h
  rw [if_neg (not_lt.mpr hpre.length_le), if_neg (by simpa using hpre)] at h
  cases h

/-- Nothing in the list is internal or carries the name, other than what is marked already. -/
def Untouched (name : List Char) (cks : List MetaCkpt) : Prop :=
  ∀ ck ∈ cks, ck.deleted = true ∨ ck.internal = false ∧ ck.name ≠ name

/-- A name that the internal one starts with takes the internal checkpoints, and not its own. -/
lemma ckptDrop_of_isPrefix {name : List Char} (hok : checkpointNameOk name = .ok ())
    (hpre : name <+: wtCheckpoint) (cks : List MetaCkpt) :
    ckptDrop cks name = markIf (fun ck => ck.name = name) cks ↔ Untouched name cks := by
  rw [ckptDrop, if_pos (strncmpEq_iff_isPrefix.mpr hpre), markIf_eq_markIf_iff]
  refine forall₂_congr fun ck _ => or_congr_right ?_
  have hnot : ck.name = name → ck.internal = false := by
    rintro rfl
    rw [internal, ← Bool.not_eq_true, isPrefixOf_iff_prefix]
    exact not_prefix_of_nameOk hok
  by_cases hname : ck.name = name
  · simp [hname, hnot hname]
  · simp [hname]

lemma ckptDrop_of_not_isPrefix {name : List Char} (hpre : ¬ name <+: wtCheckpoint)
    (cks : List MetaCkpt) : ckptDrop cks name = markIf (fun ck => ck.name = name) cks := by
  rw [ckptDrop, if_neg fun h => hpre (strncmpEq_iff_isPrefix.mp h), markIf_eq_markIf_iff]
  refine fun ck _ => .inr ?_
  rw [Bool.eq_iff_iff, stringMatch_iff, decide_eq_true_eq]

lemma checkpointMarks_take {name drop : ConfigItem} (hlen : name.len ≠ 0) (hdrop : drop.len = 0)
    (hok : checkpointNameOk name.text = .ok ()) (cks : List MetaCkpt) :
    checkpointMarks name drop cks = .ok (ckptDrop cks name.text) := by
  rw [checkpointMarks, if_neg hlen, hok]
  exact if_pos hdrop

/-- **A name takes its own checkpoints**, dropped or taken again, exactly if the internal name does
not start with it, or if there is nothing in the list for either of the two to take. -/
theorem ckptDrop_exact_iff (name : List Char) (hok : checkpointNameOk name = .ok ())
    (cks : List MetaCkpt) :
    (ckptDrop cks name = markIf (fun ck => ck.name = name) cks ∧
      ∀ item drop : ConfigItem, item.len ≠ 0 → item.text = name → drop.len = 0 →
        checkpointMarks item drop cks = .ok (markIf (fun ck => ck.name = name) cks)) ↔
      (¬ name <+: wtCheckpoint ∨ Untouched name cks) := by
  constructor
  · rintro ⟨hdrop, -⟩
    by_cases hpre : name <+: wtCheckpoint
    · exact .inr ((ckptDrop_of_isPrefix hok hpre cks).mp hdrop)
    · exact .inl hpre
  · intro h
    have hdrop : ckptDrop cks name = markIf (fun ck => ck.name = name) cks := by
      by_cases hpre : name <+: wtCheckpoint
      · exact (ckptDrop_of_isPrefix hok hpre cks).mpr (h.resolve_left (not_not_intro hpre))
      · exact ckptDrop_of_not_isPrefix hpre cks
    refine ⟨hdrop, ?_⟩
    rintro item drop hlen rfl hempty
    rw [checkpointMarks_take hlen hempty hok, hdrop]

/-- A checkpoint of which only the name matters. -/
def ckptOf (name : String) : MetaCkpt :=
  ⟨name.toList, 1, 0, 0, 1, 0, TimeAggregate.init, [], [], false, false, true⟩

/-- `ckpt` is not the start of the internal name. -/
theorem ckptDrop_exact_ckpt :
    ckptDrop [ckptOf "WiredTigerCheckpoint.1", ckptOf "ckpt"] "ckpt".toList =
      markIf (fun ck => ck.name = "ckpt".toList)
        [ckptOf "WiredTigerCheckpoint.1", ckptOf "ckpt"] :=
  ((ckptDrop_exact_iff "ckpt".toList (by decide) _).mpr (.inl (by decide))).1

/-- A checkpoint may be called `Wired`, and dropping it, or taking it again, drops the internal
checkpoint and keeps the one called `Wired`. -/
theorem ckptDrop_takes_internal :
    checkpointNameOk "Wired".toList = .ok () ∧
      ckptDrop [ckptOf "WiredTigerCheckpoint.1", ckptOf "Wired"] "Wired".toList =
        [(ckptOf "WiredTigerCheckpoint.1").markDelete, ckptOf "Wired"] := by
  decide

end WiredTiger
