/-
# The list of checkpoints in the metadata (`meta/meta_ckpt.c`)

The checkpoints of a file are kept in its metadata as one configuration value,
`checkpoint=(name=(addr="...",order=...,...),...)`.  The name is written without quotes.  Numbers of
64 bits are written as signed numbers, since that is what the configuration parser reads.
-/
import WiredTiger.Config.Value
import WiredTiger.Cell.TimeWindow
import WiredTiger.Support.Hex

namespace WiredTiger

open TimeAggregate

/-! ### Checkpoints -/

/-- A `WT_CKPT`, with the flags that writing and reading look at. -/
structure MetaCkpt where
  name : List Char
  order : ℤ
  sec : ℕ
  size : ℕ
  writeGen : ℕ
  runWriteGen : ℕ
  ta : TimeAggregate
  /-- The checkpoint cookie as text. -/
  addr : List Char
  /-- The checkpoint cookie. -/
  raw : List UInt8
  /-- `WT_CKPT_ADD` or `WT_CKPT_UPDATE`. -/
  changed : Bool
  /-- `WT_CKPT_DELETE`. -/
  deleted : Bool
  /-- `WT_CKPT_FAKE`. -/
  fake : Bool
  deriving DecidableEq, Repr

/-- What reading and writing a list of checkpoints fails with. -/
inductive CkptListError
  | config (e : ConfigError)
  /-- `"Invalid format in hexadecimal string"` -/
  | hexFormat
  /-- `"corrupted checkpoint list"` -/
  | corrupted
  /-- The aggregate is not valid. -/
  | invalid (msg : String)
  deriving DecidableEq, Repr

/-- `__wt_check_addr_validity`, as a diagnostic build makes the check. -/
def checkAddrValidity (ta : TimeAggregate) : Except CkptListError Unit :=
  (timeAggregateValidate ta none).mapError .invalid

/-- `WT_CHECKPOINT`. -/
def wtCheckpoint : List Char := "WiredTigerCheckpoint".toList

/-! ### Writing -/

/-- The address that is written. -/
def MetaCkpt.addrText (ck : MetaCkpt) : List Char :=
  if ck.changed then if ck.raw.length = 0 then [] else rawToHex ck.raw else ck.addr

/-- The name that is written: an internal name gets the order behind it. -/
def MetaCkpt.nameText (ck : MetaCkpt) : List Char :=
  ck.name ++ if ck.name = wtCheckpoint then ".".toList ++ intText ck.order else []

/-- The fields of a checkpoint as they are written. -/
def MetaCkpt.fieldsText (ck : MetaCkpt) : List Char :=
  "=(addr=\"".toList ++ ck.addrText ++ "\",order=".toList ++ intText ck.order ++
    ",time=".toList ++ natText ck.sec ++ ",size=".toList ++ intText (toInt64 ck.size) ++
    ",newest_start_durable_ts=".toList ++ intText (toInt64 ck.ta.newestStartDurableTs) ++
    ",oldest_start_ts=".toList ++ intText (toInt64 ck.ta.oldestStartTs) ++
    ",newest_txn=".toList ++ intText (toInt64 ck.ta.newestTxn) ++
    ",newest_stop_durable_ts=".toList ++ intText (toInt64 ck.ta.newestStopDurableTs) ++
    ",newest_stop_ts=".toList ++ intText (toInt64 ck.ta.newestStopTs) ++
    ",newest_stop_txn=".toList ++ intText (toInt64 ck.ta.newestStopTxn) ++
    ",prepare=".toList ++ intText (if ck.ta.prepare then 1 else 0) ++
    ",write_gen=".toList ++ intText (toInt64 ck.writeGen) ++
    ",run_write_gen=".toList ++ intText (toInt64 ck.runWriteGen) ++ ")".toList

/-- The loop of `__wt_meta_ckptlist_to_meta`. -/
def ckptlistLoop (sep : List Char) : List MetaCkpt → Except CkptListError (List Char)
  | [] => .ok []
  | ck :: cks =>
    if ck.deleted then ckptlistLoop sep cks
    else do
      checkAddrValidity ck.ta
      let rest ← ckptlistLoop ",".toList cks
      .ok (sep ++ ck.nameText ++ ck.fieldsText ++ rest)

/-- `__wt_meta_ckptlist_to_meta`. -/
def metaCkptlistToMeta (cks : List MetaCkpt) : Except CkptListError (List Char) := do
  let list ← ckptlistLoop [] cks
  .ok ("checkpoint=(".toList ++ list ++ ")".toList)

/-! ### Reading -/

/-- A field that has to be there. -/
def ckptField (v : ConfigItem) (key : String) : Except CkptListError ConfigItem :=
  (configSubgets v key.toList).mapError .config

/-- A field that may be missing. -/
def ckptOptField (v : ConfigItem) (key : String) : Except CkptListError (Option ℕ) :=
  match configSubgets v key.toList with
  | .ok a => .ok (if a.len ≠ 0 then some (toUint64 a.val) else none)
  | .error .notFound => .ok none
  | .error e => .error (.config e)

/-- A field with the name it had in older versions. -/
def ckptRenamedField (v : ConfigItem) (key old : String) : Except CkptListError (Option ℕ) := do
  match ← ckptOptField v key with
  | some n => .ok (some n)
  | none => ckptOptField v old

/-- `sscanf` with `SCNu64`. -/
def scanU64 (text : List Char) : Option ℕ :=
  let (negative, s) :=
    match text.dropWhile isSpace with
    | '-' :: s => (true, s)
    | '+' :: s => (false, s)
    | s => (false, s)
  let digits := s.takeWhile Char.isDigit
  if digits = [] then none
  else
    let n := min (Nat.ofDigitChars 10 digits 0) (2 ^ 64 - 1)
    some (if negative then (2 ^ 64 - n) % 2 ^ 64 else n)

/-- `__ckpt_load`. -/
def ckptLoad (k v : ConfigItem) : Except CkptListError MetaCkpt := do
  let addr ← ckptField v "addr"
  let raw ←
    if addr.len = 0 then .ok []
    else match nhexToRaw addr.text with
      | some raw => .ok raw
      | none => .error .hexFormat
  let order ← ckptField v "order"
  if order.len = 0 then .error .corrupted
  let time ← ckptField v "time"
  if time.len = 0 ∨ 63 < time.len then .error .corrupted
  let sec ← match scanU64 time.text with
    | some sec => .ok sec
    | none => .error .corrupted
  let size ← ckptField v "size"
  let oldestStartTs ← ckptOptField v "oldest_start_ts"
  let newestTxn ← ckptOptField v "newest_txn"
  let newestStartDurableTs ← ckptRenamedField v "newest_start_durable_ts" "start_durable_ts"
  let newestStopTs ← ckptOptField v "newest_stop_ts"
  let newestStopTxn ← ckptOptField v "newest_stop_txn"
  let newestStopDurableTs ← ckptRenamedField v "newest_stop_durable_ts" "stop_durable_ts"
  let prepare ← ckptOptField v "prepare"
  let ta : TimeAggregate :=
    ⟨newestStartDurableTs.getD init.newestStartDurableTs,
      newestStopDurableTs.getD init.newestStopDurableTs,
      oldestStartTs.getD init.oldestStartTs,
      newestTxn.getD init.newestTxn,
      newestStopTs.getD init.newestStopTs,
      newestStopTxn.getD init.newestStopTxn,
      prepare.getD 0 % 2 ^ 8 ≠ 0, false⟩
  checkAddrValidity ta
  let writeGen ← ckptField v "write_gen"
  if writeGen.len = 0 then .error .corrupted
  let runWriteGen ← ckptOptField v "run_write_gen"
  .ok ⟨k.text, order.val, sec, toUint64 size.val, toUint64 writeGen.val, runWriteGen.getD 0, ta,
    addr.text, raw, false, false, addr.len = 0⟩

/-- What is known of `__wt_qsort` with `__ckpt_compare_order`: the result is in creation order. -/
structure CkptSort where
  run : List MetaCkpt → List MetaCkpt
  perm : ∀ cks, (run cks).Perm cks
  sorted : ∀ cks, (run cks).Pairwise fun a b => a.order ≤ b.order

/-- `__wt_meta_ckptlist_get_from_config`, without a checkpoint to be added.  What ends the loop over
the list is not looked at. -/
def metaCkptlistGetFromConfig (sort : CkptSort) (config : List Char) :
    Except CkptListError (List MetaCkpt) := do
  let cks ← match configGetones config "checkpoint".toList with
    | .ok v => (configAll (configSubinit v)).1.mapM fun kv =>
        ckptLoad kv.1 (configProcessValue kv.2)
    | .error .notFound => .ok []
    | .error e => .error (.config e)
  if cks = [] then .error (.config .notFound) else .ok (sort.run cks)

/-! ### Names -/

/-- What a name is refused for. -/
inductive NameError
  /-- `the "WiredTiger" name space may not be used by applications` -/
  | wiredTigerNameSpace
  /-- `WiredTiger objects should not include grouping characters in their names` -/
  | groupingCharacters
  /-- `the checkpoint name "WiredTigerCheckpoint" is reserved` -/
  | reserved
  deriving DecidableEq, Repr

/-- `__str_name_check`. -/
def strNameCheck (name : List Char) (skipWt : Bool) : Except NameError Unit :=
  if !skipWt ∧ "WiredTiger".toList.isPrefixOf name then .error .wiredTigerNameSpace
  else if name.any fun c => "\x7b\x7d,:[]\\\"'".toList.contains c then .error .groupingCharacters
  else .ok ()

/-- The loop of `__wt_str_name_check` that skips a URI in front of the name and the name of a table:
what is left to be checked, and whether the loop ran out of colons. -/
def skipUri : ℕ → List Char → List Char × Bool
  | 0, name => (name, false)
  | n + 1, name =>
    match name.dropWhile (· ≠ ':') with
    | [] => (name, true)
    | _ :: rest => skipUri n rest

/-- `__checkpoint_name_ok`; `__wt_name_check` is called so that it skips a URI. -/
def checkpointNameOk (name : List Char) : Except NameError Unit := do
  let (rest, skip) := skipUri 2 name
  strNameCheck rest skip
  if name.length < wtCheckpoint.length then .ok ()
  else if !wtCheckpoint.isPrefixOf name then .ok ()
  else .error .reserved

end WiredTiger
