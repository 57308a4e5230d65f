/-
# The checkpoint's snapshot in the metadata (`meta/meta_ckpt.c`, `txn/txn_recover.c`)

A checkpoint writes its snapshot into the metadata as text, and recovery reads it back to decide
which transactions the checkpoint had seen.  The running ids are a list of decimal numbers.  They
are read back into an array that is indexed with an 8-bit counter, and all numbers go through the
signed numbers of the configuration parser.
-/
import WiredTiger.Config.Value
import WiredTiger.Txn.Visible

namespace WiredTiger

open List Nat Token

variable {fuel counter : ℕ} {arr : List ℕ}

/-- The snapshot of a checkpoint: its bounds and the ids that were running, in order. -/
structure CkptSnapshot where
  snapMin : ℕ
  snapMax : ℕ
  ids : List ℕ
  snapMin_lt : snapMin < 2 ^ 64
  snapMax_lt : snapMax < 2 ^ 64
  ids_lt : ∀ id ∈ ids, id < 2 ^ 64
  count_lt : ids.length < 2 ^ 32
  /-- The ids are sorted, and no id is there twice. -/
  sorted : ids.Pairwise (· < ·)
  /-- Transaction ids start at `WT_TXN_FIRST`, so that there is an id that was next. -/
  snapMax_pos : 0 < snapMax

variable {s : CkptSnapshot}

/-! ### Writing -/

/-- The loop over the ids, with a comma behind each but the last and a bracket behind that. -/
def snapshotList : List ℕ → List Char
  | [] => []
  | [id] => natText id ++ "]".toList
  | id :: ids => natText id ++ ",".toList ++ snapshotList ids

/-- What `__wt_meta_sysinfo_set` writes for the snapshot. -/
def metaSysinfoSet (s : CkptSnapshot) : List Char :=
  "snapshot_min=".toList ++ natText s.snapMin ++ ",snapshot_max=".toList ++ natText s.snapMax ++
    ",snapshot_count=".toList ++ natText s.ids.length ++
    if 0 < s.ids.length then ",snapshots=[".toList ++ snapshotList s.ids else []

/-! ### Reading -/

/-- The recovery snapshot of the connection. -/
structure RecoverySnapshot where
  snapMin : ℕ
  snapMax : ℕ
  count : ℕ
  /-- The array; empty if it is not allocated. -/
  ids : List ℕ
  deriving DecidableEq, Repr

/-- The value of a key, and `0` (what the connection starts with) if there is none. -/
def recoveryValue (config key : List Char) : ℕ :=
  match configGetones config key with
  | .ok cval => if cval.len ≠ 0 then toUint64 cval.val else 0
  | .error _ => 0

/-- The loop over the list: `recovery_ckpt_snapshot[counter++] = k.val` with an 8-bit counter. -/
def recoveryFill : ℕ → Config → ConfigItem → ℕ → List ℕ → List ℕ
  | 0, _, _, _, ids => ids
  | fuel + 1, list, k, counter, ids =>
    match configSubgetNext list k with
    | .error _ => ids
    | .ok (list, k) =>
      recoveryFill fuel list k ((counter + 1) % 2 ^ 8) (ids.set counter (toUint64 k.val))

/-- `__recovery_set_checkpoint_snapshot`. -/
def recoverySetCheckpointSnapshot (config : List Char) : RecoverySnapshot :=
  let count := recoveryValue config "snapshot_count".toList % 2 ^ 32
  ⟨recoveryValue config "snapshot_min".toList, recoveryValue config "snapshot_max".toList, count,
    match configGetones config "snapshots".toList with
    | .ok cval =>
      if cval.len ≠ 0 then
        recoveryFill (cval.len + 1) (configSubinit cval) noItem 0 (replicate count 0)
      else []
    | .error _ => []⟩

/-- `__wt_txn_visible_id_snapshot` on an array of `count` ids. -/
def visibleIdSnapshot (id snapMin snapMax : ℕ) (ids : List ℕ) (count : ℕ) : Bool :=
  if snapMax ≤ id then false
  else if count = 0 ∨ id < snapMin then true
  else !binarySearch id (ids.take count)

/-- `__rollback_txn_visible_id`. -/
def rollbackTxnVisibleId (recovering : Bool) (r : RecoverySnapshot) (id : ℕ) : Bool :=
  if !recovering then true
  else if r.snapMin = txnNone ∧ r.snapMax = txnNone then true
  else visibleIdSnapshot id r.snapMin r.snapMax r.ids r.count

/-! ### The text as a list of fields -/

/-- The ids as entries without a value. -/
def idEntries (ids : List ℕ) : List ConfigEntry := ids.map fun id => ⟨.word (natText id), none⟩

/-- The fields that are written. -/
def snapshotFields (s : CkptSnapshot) : List (List Char × Token) :=
  [("snapshot_min".toList, .word (natText s.snapMin)),
    ("snapshot_max".toList, .word (natText s.snapMax)),
    ("snapshot_count".toList, .word (natText s.ids.length))] ++
  if 0 < s.ids.length then [("snapshots".toList, .ofEntries '[' (idEntries s.ids) ']')] else []

lemma idEntry_ok (id : ℕ) : (⟨.word (natText id), none⟩ : ConfigEntry).Ok := by
  refine ⟨natText_word_ok id, ?_, ?_⟩
  · rw [word_text]
    exact natText_ne_nil id
  · rintro v ⟨⟩

lemma idEntries_ok {ids : List ℕ} : ∀ e ∈ idEntries ids, e.Ok := by
  intro e he
  obtain ⟨id, -, rfl⟩ := mem_map.mp he
  exact idEntry_ok id

lemma idEntry_render (id : ℕ) : (⟨.word (natText id), none⟩ : ConfigEntry).render = natText id := by
  rw [ConfigEntry.render, word_render (natText_ne_nil id)]
  exact append_nil _

/-- The list that is written is a list of entries in a bracket. -/
lemma snapshotList_eq {ids : List ℕ} (hids : ids ≠ []) :
    snapshotList ids = entriesText (idEntries ids) [']'] := by
  induction ids with
  | nil => exact absurd rfl hids
  | cons id ids ih =>
    cases ids with
    | nil =>
      rw [snapshotList, idEntries, map_cons, map_nil, entriesText, idEntry_render]
      rfl
    | cons id' ids =>
      have hrest := ih (cons_ne_nil id' ids)
      rw [idEntries, map_cons] at hrest
      rw [snapshotList, hrest, idEntries, map_cons, map_cons, entriesText, entriesText,
        idEntry_render, idEntry_render, moreEntries, idEntry_render]
      · simp
      · exact cons_ne_nil _ _

/-- The text that is written is the text of the fields. -/
lemma metaSysinfoSet_eq (s : CkptSnapshot) :
    metaSysinfoSet s = entriesText ((snapshotFields s).map fieldEntry) [] := by
  have hmin : "snapshot_min=".toList = "snapshot_min".toList ++ ['='] := rfl
  have hmax : ",snapshot_max=".toList = ',' :: ("snapshot_max".toList ++ ['=']) := rfl
  have hcount : ",snapshot_count=".toList = ',' :: ("snapshot_count".toList ++ ['=']) := rfl
  have hids : ",snapshots=[".toList = ',' :: ("snapshots".toList ++ ['=', '[']) := rfl
  have hnum : ∀ n, (word (natText n)).render = natText n :=
    fun n => word_render (natText_ne_nil n)
  unfold metaSysinfoSet snapshotFields
  rw [hmin, hmax, hcount, hids]
  have hlist : 0 < s.ids.length →
      (ofEntries '[' (idEntries s.ids) ']').render = '[' :: snapshotList s.ids := by
    intro hpos
    rw [snapshotList_eq (ne_nil_of_length_pos hpos)]
    exact ofEntries_text _ _ _
  split_ifs with hpos <;>
    simp only [cons_append, nil_append, map_cons, map_nil, entriesText,
      moreEntries, fieldEntry_render (show "snapshot_min".toList ≠ [] by decide),
      fieldEntry_render (show "snapshot_max".toList ≠ [] by decide),
      fieldEntry_render (show "snapshot_count".toList ≠ [] by decide),
      fieldEntry_render (show "snapshots".toList ≠ [] by decide), hnum, hlist, hpos, append_assoc,
      append_nil]

/-! ### What is read back -/

lemma snapshotFields_names (s : CkptSnapshot) :
    (snapshotFields s).map Prod.fst =
      ["snapshot_min".toList, "snapshot_max".toList, "snapshot_count".toList] ++
        if 0 < s.ids.length then ["snapshots".toList] else [] := by
  unfold snapshotFields
  split_ifs <;> rfl

lemma snapshotFields_nodup (s : CkptSnapshot) : ((snapshotFields s).map Prod.fst).Nodup := by
  rw [snapshotFields_names]
  split_ifs <;> decide

lemma snapshotFields_fieldName : ∀ f ∈ snapshotFields s, FieldName f.1 := by
  intro f hf
  have hname : f.1 ∈ (snapshotFields s).map Prod.fst := mem_map_of_mem hf
  have hall : ∀ name ∈ ["snapshot_min".toList, "snapshot_max".toList, "snapshot_count".toList,
      "snapshots".toList], FieldName name := by decide
  rw [snapshotFields_names] at hname
  refine hall f.1 ?_
  split_ifs at hname
  · exact hname
  · rw [append_nil] at hname
    exact mem_append_left ["snapshots".toList] hname

lemma snapshotFields_value_ok : ∀ f ∈ snapshotFields s, f.2.Ok := by
  have hlist : (ofEntries '[' (idEntries s.ids) ']').Ok :=
    ofEntries_ok (by decide) (by decide) idEntries_ok
  intro f hf
  rcases mem_append.mp hf with hf | hf
  · simp only [mem_cons, not_mem_nil, or_false] at hf
    rcases hf with rfl | rfl | rfl <;> exact natText_word_ok _
  · split_ifs at hf
    · rw [mem_singleton.mp hf]
      exact hlist
    · cases hf

/-- The items of the text are the fields. -/
lemma configAll_metaSysinfoSet (s : CkptSnapshot) :
    configAll (configInit (metaSysinfoSet s)) =
      (entryItems 0 ((snapshotFields s).map fieldEntry) [], .notFound) := by
  have hok : ∀ e ∈ (snapshotFields s).map fieldEntry, e.Ok := by
    intro e he
    obtain ⟨f, hf, rfl⟩ := mem_map.mp he
    exact fieldEntry_ok (snapshotFields_fieldName f hf) (snapshotFields_value_ok f hf)
  rw [metaSysinfoSet_eq]
  unfold snapshotFields at hok ⊢
  rw [cons_append, map_cons] at hok ⊢
  exact configAll_top (hok _ mem_cons_self) (fun e he => hok e (mem_cons_of_mem _ he))
    (show (word "snapshot_min".toList).type ≠ .struct by decide)

/-- A number below `2 ^ 64` after the way through the parser: the largest signed number at most. -/
def throughLong (n : ℕ) : ℕ := min n (2 ^ 63 - 1)

lemma toUint64_clampLong {n : ℕ} : toUint64 (clampLong n) = throughLong n := by
  unfold clampLong longMax longMin toUint64 throughLong
  split_ifs <;> omega

lemma throughLong_eq_self_iff {n : ℕ} : throughLong n = n ↔ n < 2 ^ 63 := by
  unfold throughLong
  omega

lemma configProcessValue_natText {n : ℕ} {v : ℤ} {r : List Char} (hr : WordEnds r) :
    (configProcessValue ((word (natText n)).item r v)).val = clampLong n ∧
      (configProcessValue ((word (natText n)).item r v)).len ≠ 0 := by
  rw [natText_eq_intText, configProcessValue_intText hr]
  exact ⟨rfl, fun h => intText_ne_nil n (length_eq_zero_iff.mp h)⟩

lemma recoveryValue_eq {name : List Char} {n : ℕ}
    (h : (name, word (natText n)) ∈ snapshotFields s) :
    recoveryValue (metaSysinfoSet s) name = throughLong n := by
  obtain ⟨r, hr, hget⟩ := configGetraw_of_mem snapshotFields_fieldName (configAll_metaSysinfoSet s)
    (snapshotFields_nodup s) (show WordEnds [] from trivial) h
  obtain ⟨hval, hlen⟩ := @configProcessValue_natText n 1 r hr
  rw [recoveryValue, configGetones, hget]
  dsimp only
  rw [if_pos hlen, hval, toUint64_clampLong]

/-! ### The array -/

/-- What the loop does with the numbers it gets. -/
def fillArray : List ℕ → ℕ → List ℕ → List ℕ
  | [], _, ids => ids
  | n :: ns, counter, ids => fillArray ns ((counter + 1) % 2 ^ 8) (ids.set counter n)

lemma recoveryFill_of_notFound {list : Config} {k : ConfigItem}
    (h : configNext list k = .error .notFound) : recoveryFill fuel list k counter arr = arr := by
  cases fuel with
  | zero => rfl
  | succ fuel => rw [recoveryFill, configSubgetNext, h, Except.map]

/-- One number of the list is stored. -/
lemma recoveryFill_of_ok {id : ℕ} {list list' : Config} {k : ConfigItem} {r : List ℕ}
    {w : List Char} {val : ℤ} {v : ConfigItem} (hw : WordEnds w)
    (h : configNext list k = .ok (list', (word (natText id)).item w val, v))
    (hrest : ∀ k', recoveryFill fuel list' k' ((counter + 1) % 2 ^ 8)
      (arr.set counter (throughLong id)) = r) : recoveryFill (fuel + 1) list k counter arr = r := by
  have hval := (@configProcessValue_natText id val w hw).1
  rw [recoveryFill, configSubgetNext, h, Except.map]
  dsimp only
  rw [hval, toUint64_clampLong]
  exact hrest _

/-- **The loop stores the numbers of the list** one after the other. -/
lemma recoveryFill_eq {ids : List ℕ} (k : ConfigItem) (hfuel : ids.length < fuel) :
    recoveryFill fuel ⟨entriesText (idEntries ids) [']'], 1, 1, .gostruct⟩ k counter arr =
      fillArray (ids.map throughLong) counter arr := by
  have hend : StringEnd 1 [']'] := .bracket (by decide) nofun
  induction ids generalizing fuel counter arr k with
  | nil => exact recoveryFill_of_notFound hend.configNext_tail
  | cons id ids ih =>
    obtain ⟨fuel, rfl⟩ := exists_eq_add_one_of_ne_zero (ne_zero_of_lt hfuel)
    cases ids with
    | nil =>
      refine recoveryFill_of_ok (show WordEnds [']'] from show gobare ']' = _ by decide)
        (hend.configNext_last (idEntry_ok id)) ?_
      intro k'
      exact recoveryFill_of_notFound configNext_nil
    | cons id' ids =>
      have hnext := @configNext_comma 1 ⟨.word (natText id), none⟩ k
        (entriesText (idEntries (id' :: ids)) [']']) (by decide) (idEntry_ok id)
      refine recoveryFill_of_ok (show WordEnds (',' :: _) from rfl) hnext ?_
      intro k'
      exact ih k' (lt_of_succ_lt_succ hfuel)

/-- The numbers fill an array of zeros in order, as long as the counter does not wrap. -/
lemma fillArray_append {ns before : List ℕ} (h : before.length + ns.length ≤ 2 ^ 8) :
    fillArray ns before.length (before ++ replicate ns.length 0) = before ++ ns := by
  induction ns generalizing before with
  | nil => rfl
  | cons n ns ih =>
    have hset : (before ++ replicate (n :: ns).length 0).set before.length n =
        (before ++ [n]) ++ replicate ns.length 0 := by
      simp [replicate_succ]
    rw [fillArray, hset]
    rw [length_cons] at h
    cases ns with
    | nil => exact append_nil _
    | cons n' ns =>
      have hcounter : (before.length + 1) % 2 ^ 8 = (before ++ [n]).length := by
        rw [length_cons] at h
        rw [length_append, length_singleton]
        omega
      rw [hcounter, ih (by rw [length_append, length_singleton]; omega)]
      simp

/-- The counter never reaches the entries from `256` on. -/
lemma fillArray_getElem? {ns : List ℕ} {i : ℕ} (hcounter : counter < 2 ^ 8) (hi : 2 ^ 8 ≤ i) :
    (fillArray ns counter arr)[i]? = arr[i]? := by
  induction ns generalizing counter arr with
  | nil => rfl
  | cons n ns ih =>
    rw [fillArray, ih (mod_lt _ (by decide)), getElem?_set_ne (by omega)]

/-! ### The snapshot after a restart -/

lemma recoveryFill_open {k : ConfigItem} {r : List Char} :
    recoveryFill fuel (configInit ('[' :: r)) k counter arr =
      recoveryFill fuel ⟨r, 1, 1, .gostruct⟩ k counter arr := by
  cases fuel with
  | zero => rfl
  | succ fuel =>
    rw [recoveryFill, recoveryFill, configSubgetNext, configSubgetNext,
      configNext_open (show gostruct '[' = .up by decide)]

lemma recovered_count (s : CkptSnapshot) :
    (recoverySetCheckpointSnapshot (metaSysinfoSet s)).count = s.ids.length := by
  have hmem : ("snapshot_count".toList, word (natText s.ids.length)) ∈ snapshotFields s :=
    mem_append_left _ (by simp)
  have hlt := s.count_lt
  change recoveryValue (metaSysinfoSet s) "snapshot_count".toList % 2 ^ 32 = _
  rw [recoveryValue_eq hmem, throughLong_eq_self_iff.mpr (by omega), mod_eq_of_lt hlt]

/-- The array that recovery builds. -/
lemma recovered_ids (s : CkptSnapshot) :
    (recoverySetCheckpointSnapshot (metaSysinfoSet s)).ids =
      fillArray (s.ids.map throughLong) 0 (replicate s.ids.length 0) := by
  have hcount := recovered_count s
  unfold recoverySetCheckpointSnapshot at hcount ⊢
  dsimp only at hcount ⊢
  rw [hcount, configGetones]
  by_cases hpos : 0 < s.ids.length
  · let list : Token := .ofEntries '[' (idEntries s.ids) ']'
    have hmem : ("snapshots".toList, list) ∈ snapshotFields s := by
      unfold snapshotFields
      rw [if_pos hpos]
      exact mem_append_right _ mem_cons_self
    obtain ⟨r, hr, hget⟩ := configGetraw_of_mem snapshotFields_fieldName
      (configAll_metaSysinfoSet s) (snapshotFields_nodup s) (show WordEnds [] from trivial) hmem
    have hlen : (list.item r 1).len ≠ 0 := by
      rw [item_len, ofEntries_text]
      exact succ_ne_zero _
    have hitem : configProcessValue (list.item r 1) = list.item r 1 := by
      rw [configProcessValue, if_neg hlen]
      rfl
    have hfuel : s.ids.length < (list.item r 1).len + 1 := by
      have := length_le_entriesText (idEntries s.ids) [']']
      rw [idEntries, length_map] at this
      rw [item_len, ofEntries_text, length_cons]
      exact lt_succ_of_le this
    rw [hget, hitem]
    dsimp only
    rw [if_pos hlen, configSubinit, item_text, ofEntries_text, recoveryFill_open]
    exact recoveryFill_eq noItem hfuel
  · have hnil : s.ids = [] := eq_nil_of_length_eq_zero (by omega)
    have hno : "snapshots".toList ∉ (snapshotFields s).map Prod.fst := by
      rw [snapshotFields_names, if_neg hpos]
      decide
    rw [configGetraw_of_not_mem snapshotFields_fieldName (configAll_metaSysinfoSet s) (by decide)
      hno,
      hnil]
    rfl

/-- Ids that are sorted without repetition are at least their index. -/
lemma CkptSnapshot.le_getElem (s : CkptSnapshot) {i : ℕ} (hi : i < s.ids.length) :
    i ≤ s.ids[i] := by
  induction i with
  | zero => exact zero_le _
  | succ i ih =>
    have hlt := pairwise_iff_getElem.mp s.sorted i (i + 1) (by omega) hi (by omega)
    have := ih (by omega)
    omega

/-- The snapshot of a checkpoint survives a restart: recovery has the same bounds and the same
array, and decides visibility as the checkpoint did. -/
def SnapshotSurvives (s : CkptSnapshot) : Prop :=
  let r := recoverySetCheckpointSnapshot (metaSysinfoSet s)
  r.snapMin = s.snapMin ∧ r.snapMax = s.snapMax ∧ r.count = s.ids.length ∧ r.ids = s.ids ∧
    ∀ id, rollbackTxnVisibleId true r id =
      visibleIdSnapshot id s.snapMin s.snapMax s.ids s.ids.length

/-- With more than 256 running ids the counter wraps, and the entries behind stay zero. -/
lemma length_le_of_recovered_ids
    (h : (recoverySetCheckpointSnapshot (metaSysinfoSet s)).ids = s.ids) :
    s.ids.length ≤ 2 ^ 8 := by
  by_contra hlong
  rw [not_le] at hlong
  have hzero : s.ids[2 ^ 8]? = some 0 := by
    rw [← h, recovered_ids, fillArray_getElem? (by decide) le_rfl,
      getElem?_replicate_of_lt hlong]
  rw [getElem?_eq_getElem hlong, Option.some.injEq] at hzero
  have := s.le_getElem hlong
  omega

/-- **The checkpoint snapshot survives a restart** exactly if there are at most 256 running ids and
all numbers are below `2 ^ 63`. -/
theorem snapshot_survives_iff (s : CkptSnapshot) :
    SnapshotSurvives s ↔ s.ids.length ≤ 2 ^ 8 ∧ s.snapMin < 2 ^ 63 ∧ s.snapMax < 2 ^ 63 ∧
      ∀ id ∈ s.ids, id < 2 ^ 63 := by
  have hmin : (recoverySetCheckpointSnapshot (metaSysinfoSet s)).snapMin = throughLong s.snapMin :=
    recoveryValue_eq (mem_append_left _ (by simp))
  have hmax : (recoverySetCheckpointSnapshot (metaSysinfoSet s)).snapMax = throughLong s.snapMax :=
    recoveryValue_eq (mem_append_left _ (by simp))
  have hshort : s.ids.length ≤ 2 ^ 8 →
      (recoverySetCheckpointSnapshot (metaSysinfoSet s)).ids = s.ids.map throughLong := by
    intro hlen
    have := @fillArray_append (s.ids.map throughLong) [] (by simpa using hlen)
    simpa [recovered_ids] using this
  have hmap : s.ids.map throughLong = s.ids ↔ ∀ id ∈ s.ids, throughLong id = id := by
    rw [← map_inj_left, map_id']
  constructor
  · rintro ⟨h1, h2, -, h4, -⟩
    have hlen := length_le_of_recovered_ids h4
    rw [hmin, throughLong_eq_self_iff] at h1
    rw [hmax, throughLong_eq_self_iff] at h2
    refine ⟨hlen, h1, h2, fun id hid => throughLong_eq_self_iff.mp ?_⟩
    rw [hshort hlen] at h4
    exact hmap.mp h4 id hid
  · rintro ⟨hlen, h1, h2, h4⟩
    have hids : (recoverySetCheckpointSnapshot (metaSysinfoSet s)).ids = s.ids := by
      rw [hshort hlen]
      exact hmap.mpr fun id hid => throughLong_eq_self_iff.mpr (h4 id hid)
    rw [throughLong_eq_self_iff.mpr h1] at hmin
    rw [throughLong_eq_self_iff.mpr h2] at hmax
    refine ⟨hmin, hmax, recovered_count s, hids, fun id => ?_⟩
    have hnone : ¬(s.snapMin = txnNone ∧ s.snapMax = txnNone) :=
      fun h => absurd h.2 (ne_of_gt s.snapMax_pos)
    rw [rollbackTxnVisibleId, hmin, hmax, hids, recovered_count, if_neg (by decide), if_neg hnone]

/-- A checkpoint with the ids 1 to 257 running. -/
def manyRunning : CkptSnapshot where
  snapMin := 1
  snapMax := 258
  ids := range' 1 257
  snapMin_lt := by decide
  snapMax_lt := by decide
  ids_lt := by
    intro id hid
    have := mem_range'_1.mp hid
    omega
  count_lt := by
    rw [length_range']
    decide
  sorted := pairwise_lt_range'
  snapMax_pos := by decide

/-- The counter wraps, and the last id is stored over the first one. -/
theorem snapshot_lost_of_257_ids : ¬SnapshotSurvives manyRunning := by
  intro h
  have hlen := length_le_of_recovered_ids h.2.2.2.1
  rw [show manyRunning.ids = range' 1 257 from rfl, length_range'] at hlen
  exact absurd hlen (by decide)

end WiredTiger
