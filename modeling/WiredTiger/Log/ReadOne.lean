/-
# Reading one record of the log (`cursor/cur_log.c`, `__wt_log_scan` with `WT_LOGSCAN_ONE`)

A log cursor reads one record at a time: `search` the one at an LSN the application gives, `next`
the one behind the record it has returned last.  Both call the scan that recovery uses.  The scan
moves `trunc_lsn` to a record whose checksum does not match, and truncates the log at what it takes
for corrupted, whoever has called it.

A scan that reads behind its buffer has no result.
-/
import WiredTiger.Log.Scan

namespace WiredTiger

open List

variable {wasBackup : Bool}

/-! ### What is found at a place of a file -/

/-- What the scan finds at an offset of a file. -/
inductive LogLook
  /-- Nothing but zeroes up to the end of the file. -/
  | next
  /-- A hole, or a record that is not all there: the end of the log. -/
  | ends
  /-- A hole with a corrupted record behind it; the flag is `eol`. -/
  | corrupted (eol : Bool)
  /-- The file cannot be read there. -/
  | unreadable
  /-- The length of the record wraps, and the checksum is taken over more than was read. -/
  | overrun
  /-- The checksum does not match; the flag says that the log has to be salvaged. -/
  | mismatch (salvage : Bool)
  /-- The header of the file, with the offset behind it. -/
  | header (next : ℕ)
  /-- A record, with the offset behind it. -/
  | record (rec : List UInt8) (next : ℕ)
  deriving DecidableEq, Repr

/-- `__log_has_hole`; a corrupted record is no matter in a log that comes from a backup. -/
def lookHole (c : LogConf) (wasBackup : Bool) (file : List UInt8) (off : ℕ) : HasHole :=
  if wasBackup then { logHasHole c file off with errorOffset := 0 } else logHasHole c file off

/-- The scan is at the end of a file. -/
def lookAdvance (c : LogConf) (wasBackup : Bool) (file : List UInt8) (off : ℕ) : LogLook :=
  if off = file.length then .next
  else
    let h := lookHole c wasBackup file off
    if h.errorOffset ≠ 0 then .corrupted false
    else if h.hole then .ends
    else .next

/-- One turn of the loop of `__wt_log_scan` at an offset.  Offsets and lengths have 32 bits, and the
offset may be any that is aligned, so that the sums may wrap. -/
def logLook (c : LogConf) (wasBackup : Bool) (file : List UInt8) (off : ℕ) : LogLook :=
  if file.length < (off + c.allocsize) % 2 ^ 32 then lookAdvance c wasBackup file off
  else if file.length < off + c.allocsize then .unreadable
  else
    let reclen := recLen ((file.drop off).take c.allocsize)
    let rdupLen :=
      if c.allocsize < reclen then rduppo2 reclen c.allocsize % 2 ^ 32 else c.allocsize
    if reclen = 0 then
      let h := lookHole c wasBackup file off
      if h.errorOffset ≠ 0 then .corrupted h.hole
      else if h.hole then .ends
      else lookAdvance c wasBackup file off
    else if c.allocsize < reclen ∧ file.length < (off + rdupLen) % 2 ^ 32 then .ends
    else if c.allocsize < reclen ∧ file.length < off + rdupLen then .unreadable
    else if rdupLen < reclen then .overrun
    else
      let buf := (file.drop off).take rdupLen
      if c.checksumMatch buf reclen = false then
        .mismatch (!wasBackup && (!logCheckPartialWrite buf reclen || logRecordCorrupt buf))
      else if off = 0 then .header rdupLen
      else .record (buf.take reclen) (off + rdupLen)

/-! ### Truncating -/

/-- The log of a connection. -/
structure LogState where
  dir : LogDir
  /-- `trunc_lsn`. -/
  truncLsn : Lsn
  /-- `first_record`: the offset behind the header and the system record. -/
  firstRecord : ℕ
  /-- `WT_CONN_WAS_BACKUP`. -/
  wasBackup : Bool

/-- `__wt_ftruncate`. -/
def truncateTo (file : List UInt8) (n : ℕ) : List UInt8 :=
  file.take n ++ replicate (n - file.length) 0

/-- `__log_open_verify` without an LSN to be returned: only the header is looked at. -/
def logHeaderVerify (c : LogConf) (file : List UInt8) : Except LogError Unit :=
  match logFsRead file 0 c.allocsize with
  | .error e => .error e
  | .ok header =>
    if leField header 16 4 ≠ logMagic then .error .trySalvage
    else if logVersion < leField header 20 2 then .error .version
    else .ok ()

/-- The files between the one that is truncated and the one of `trunc_lsn`; the loop ends with a
file that cannot be verified. -/
def logTruncateBetween (c : LogConf) (firstRecord : ℕ) : List (List UInt8) → List (List UInt8)
  | [] => []
  | file :: rest =>
    match logHeaderVerify c file with
    | .error _ => file :: rest
    | .ok () => truncateTo file firstRecord :: logTruncateBetween c firstRecord rest

/-- `__log_truncate` of this file and those up to `trunc_lsn`. -/
def logTruncate (c : LogConf) (log : LogState) (lsn : Lsn) : LogState :=
  let k := lsn.file - log.dir.first
  let between := log.truncLsn.file - lsn.file - 1
  { log with
    dir.files := log.dir.files.take k ++
      match log.dir.files.drop k with
      | [] => []
      | file :: rest =>
        truncateTo file lsn.offset ::
          (logTruncateBetween c log.firstRecord (rest.take between) ++ rest.drop between) }

/-! ### The scan -/

/-- What the callback of a log cursor keeps. -/
structure LogRead where
  curLsn : Lsn
  nextLsn : Lsn
  logrec : List UInt8
  rectype : ℕ
  txnid : ℕ
  deriving DecidableEq, Repr

/-- `__curlog_logrec`. -/
def curlogLogrec (rec : List UInt8) (lsn next : Lsn) : Except LogError LogRead :=
  match logrecRead (rec.drop logRecordSize) with
  | .error e => .error e
  | .ok (rectype, p) =>
    if rectype = 1 then
      match vunpackUint p.length p with
      | .error _ => .error .unpack
      | .ok (txnid, _) => .ok ⟨lsn, next, rec, rectype, txnid⟩
    else .ok ⟨lsn, next, rec, rectype, 0⟩

/-- The result of the scan and the log it leaves.  Without an error there may still be no record: a
truncation makes the scan return 0. -/
abbrev LogScanned := Except LogError (Option LogRead) × LogState

/-- What the scan does where its loop ends. -/
def scanEndAt (c : LogConf) (log : LogState) (lsn : Lsn) : LogLook → Option LogScanned
  | .next | .ends => some (.error .notfound, log)
  | .corrupted eol => some (if eol then .error .notfound else .ok none, logTruncate c log lsn)
  | .unreadable => some (.error .io, log)
  | .overrun => none
  | .mismatch salvage =>
    let log := { log with truncLsn := lsn }
    if salvage then some (.ok none, logTruncate c log lsn) else some (.error .notfound, log)
  -- only at offset 0, see `scanOneFrom`
  | .header _ => none
  | .record rec next =>
    match c.decode rec with
    | none => some (.error .decode, log)
    | some rec => some ((curlogLogrec rec lsn ⟨lsn.file, next⟩).map some, log)

/-- The place in a file where the scan finds something other than its header. -/
def skipHeader (c : LogConf) (wasBackup : Bool) (file : List UInt8) (off : ℕ) : ℕ :=
  match logLook c wasBackup file off with
  | .header next => next
  | _ => off

/-- The scan from an offset of a file on, with the files behind it. -/
def scanOneFrom (c : LogConf) (log : LogState) (id off : ℕ) (file : List UInt8) :
    List (List UInt8) → Option LogScanned
  | [] =>
    let off := skipHeader c log.wasBackup file off
    scanEndAt c log ⟨id, off⟩ (logLook c log.wasBackup file off)
  | next :: rest =>
    let off := skipHeader c log.wasBackup file off
    match logLook c log.wasBackup file off with
    | .next =>
      match logOpenVerify c next with
      | .error e => some (.error e, log)
      | .ok _ => scanOneFrom c log (id + 1) 0 next rest
    | look => scanEndAt c log ⟨id, off⟩ look

/-- The first file that is read: its number, the offset, and the files from there on. -/
def scanOpen (c : LogConf) (dir : LogDir) (start : Lsn) :
    Except LogError (Lsn × List UInt8 × List (List UInt8)) :=
  if start.offset % c.allocsize ≠ 0 ∨ dir.first + dir.files.length ≤ start.file then
    .error .notfound
  else
    let lsn := if start = .init then ⟨dir.first, 0⟩ else start
    if lsn.file < dir.first then .error .noent
    else
      match dir.files.drop (lsn.file - dir.first) with
      | [] => .error .noent
      | file :: rest =>
        match logOpenVerify c file with
        | .error e => .error e
        | .ok _ => .ok (lsn, file, rest)

/-- `__wt_log_scan` for a log cursor, from the LSN of `__curlog_search` or `__curlog_next` on. -/
def logScanOne (c : LogConf) (log : LogState) (start : Lsn) : Option LogScanned :=
  match scanOpen c log.dir start with
  | .error e => some (.error e, log)
  | .ok (lsn, file, rest) => scanOneFrom c log lsn.file lsn.offset file rest

/-! ### When the log is left alone -/

variable {c : LogConf} {log : LogState} {lsn : Lsn} {file : List UInt8} {id off : ℕ}
  {rest : List (List UInt8)} {look : LogLook}

/-- The scan of an open file comes to a place and finds something there: it goes over the header of
a file, and from a file that ends with zeroes to the next one. -/
inductive ScanComes (c : LogConf) (wasBackup : Bool) :
    ℕ → ℕ → List UInt8 → List (List UInt8) → Lsn → LogLook → Prop
  | here (id off : ℕ) (file : List UInt8) (rest : List (List UInt8)) :
      ScanComes c wasBackup id off file rest ⟨id, off⟩ (logLook c wasBackup file off)
  | header {id off next : ℕ} {file : List UInt8} {rest : List (List UInt8)} {lsn : Lsn}
      {look : LogLook} (h : logLook c wasBackup file off = .header next)
      (hcomes : ScanComes c wasBackup id next file rest lsn look) :
      ScanComes c wasBackup id off file rest lsn look
  | next {id off : ℕ} {file next : List UInt8} {rest : List (List UInt8)} {lsn : Lsn}
      {look : LogLook} {v : Lsn × ℕ} (h : logLook c wasBackup file off = .next)
      (hopen : logOpenVerify c next = .ok v)
      (hcomes : ScanComes c wasBackup (id + 1) 0 next rest lsn look) :
      ScanComes c wasBackup id off file (next :: rest) lsn look

/-- What a reader may find: nothing corrupted, and a checksum that does not match only where the log
is to be truncated anyway. -/
def LogLook.Safe (log : LogState) (lsn : Lsn) : LogLook → Prop
  | .corrupted _ | .overrun => False
  | .mismatch salvage => salvage = false ∧ log.truncLsn = lsn
  | _ => True

lemma lt_length_of_lookHole (h : (lookHole c wasBackup file off).errorOffset ≠ 0) :
    off < file.length := by
  by_contra hle
  apply h
  have hdrop : file.length - off = 0 := by omega
  cases wasBackup <;> simp [lookHole, logHasHole, hdrop, holeLoop]

/-- What is known of a place by what is found there: what is truncated at is in the file, and a
header is at the start of it. -/
def LogLook.Placed (file : List UInt8) (off : ℕ) : LogLook → Prop
  | .corrupted _ | .mismatch _ => off < file.length
  | .header behind => off = 0 ∧ 0 < behind
  | _ => True

section

variable (c : LogConf) (wasBackup : Bool) (file : List UInt8)

lemma lookAdvance_placed (off : ℕ) : (lookAdvance c wasBackup file off).Placed file off := by
  simp only [lookAdvance]
  split_ifs with hend herror hhole
  · trivial
  · exact lt_length_of_lookHole herror
  · trivial
  · trivial

lemma logLook_placed (off : ℕ) : (logLook c wasBackup file off).Placed file off := by
  have halloc := c.align_le
  unfold logLook
  by_cases hadvance : file.length < (off + c.allocsize) % 2 ^ 32
  · rw [if_pos hadvance]
    exact lookAdvance_placed c wasBackup file off
  rw [if_neg hadvance]
  by_cases hread : file.length < off + c.allocsize
  · rw [if_pos hread]
    trivial
  rw [if_neg hread]
  have hin : off < file.length := by omega
  simp only
  generalize recLen ((file.drop off).take c.allocsize) = reclen
  generalize hrdup : (if c.allocsize < reclen then rduppo2 reclen c.allocsize % 2 ^ 32
    else c.allocsize) = rdupLen
  split_ifs with hzero herror hhole hends hcut hover hsum hoff
  · exact hin
  · trivial
  · exact lookAdvance_placed c wasBackup file off
  · trivial
  · trivial
  · trivial
  · exact hin
  · exact ⟨hoff, by omega⟩
  · trivial

lemma skipHeader_not_header (off next : ℕ) :
    logLook c wasBackup file (skipHeader c wasBackup file off) ≠ .header next := by
  intro h
  rw [skipHeader] at h
  split at h
  · rename_i next' h'
    have hpos := logLook_placed c wasBackup file off
    have hzero := logLook_placed c wasBackup file next'
    rw [h'] at hpos
    rw [h] at hzero
    exact absurd hzero.1 (pos_iff_ne_zero.mp hpos.2)
  · rename_i hnot
    exact hnot next h

end

lemma ScanComes.skip
    (h : ScanComes c wasBackup id (skipHeader c wasBackup file off) file rest lsn look) :
    ScanComes c wasBackup id off file rest lsn look := by
  rw [skipHeader] at h
  split at h
  · rename_i h'
    exact .header h' h
  · exact h

/-- A truncation within a file leaves another log, whatever `trunc_lsn` is. -/
lemma not_logTruncate_eq {ret : Except LogError (Option LogRead)} {l : Lsn}
    (hfiles : log.dir.files.drop (lsn.file - log.dir.first) = file :: rest)
    (hin : lsn.offset < file.length) :
    ¬ ∃ ret', some (ret, logTruncate c { log with truncLsn := l } lsn) = some (ret', log) := by
  rintro ⟨ret', h⟩
  replace h := congrArg (fun l => l.dir.files) (Prod.ext_iff.mp (Option.some.inj h)).2
  rw [logTruncate, hfiles] at h
  nth_rewrite 2 [← take_append_drop (lsn.file - log.dir.first) log.dir.files] at h
  rw [hfiles, append_cancel_left_eq] at h
  have hlen := congrArg length (cons.inj h).1
  rw [truncateTo, length_append, length_take, length_replicate] at hlen
  omega

/-- Where the scan ends it leaves the log alone exactly if what it finds is safe. -/
lemma scanEndAt_unchanged_iff
    (hfiles : log.dir.files.drop (id - log.dir.first) = file :: rest)
    (hnot : ∀ next, logLook c log.wasBackup file off ≠ .header next) :
    (∃ ret, scanEndAt c log ⟨id, off⟩ (logLook c log.wasBackup file off) = some (ret, log)) ↔
      (logLook c log.wasBackup file off).Safe log ⟨id, off⟩ := by
  have hplaced := logLook_placed c log.wasBackup file off
  generalize logLook c log.wasBackup file off = look at *
  cases look with
  | next | ends | unreadable => exact ⟨fun _ => trivial, fun _ => ⟨_, rfl⟩⟩
  | overrun =>
    constructor
    · rintro ⟨ret, h⟩
      cases h
    · exact False.elim
  | header n => exact absurd rfl (hnot n)
  | record rec n =>
    refine ⟨fun _ => trivial, fun _ => ?_⟩
    rw [scanEndAt]
    cases c.decode rec with
    | none | some => exact ⟨_, rfl⟩
  | corrupted eol => exact ⟨not_logTruncate_eq hfiles hplaced, False.elim⟩
  | mismatch salvage =>
    constructor
    · intro h
      cases salvage with
      | false =>
        obtain ⟨ret, h⟩ := h
        have hlog := congrArg LogState.truncLsn (Prod.ext_iff.mp (Option.some.inj h)).2
        exact ⟨rfl, hlog.symm⟩
      | true => exact absurd h (not_logTruncate_eq hfiles hplaced)
    · rintro ⟨rfl, htrunc⟩
      refine ⟨.error .notfound, ?_⟩
      rw [scanEndAt, if_neg Bool.false_ne_true, ← htrunc]

/-- The places a scan comes to in a file are the start, the place behind a header, and those in the
files behind it. -/
lemma forall_comes_iff {P : Lsn → LogLook → Prop} (hheader : ∀ lsn n, P lsn (.header n)) :
    (∀ lsn look, ScanComes c wasBackup id off file rest lsn look → P lsn look) ↔
      P ⟨id, skipHeader c wasBackup file off⟩
          (logLook c wasBackup file (skipHeader c wasBackup file off)) ∧
        ∀ next rest' v, rest = next :: rest' →
          logLook c wasBackup file (skipHeader c wasBackup file off) = .next →
          logOpenVerify c next = .ok v →
          ∀ lsn look, ScanComes c wasBackup (id + 1) 0 next rest' lsn look → P lsn look := by
  constructor
  · intro h
    refine ⟨h _ _ (ScanComes.skip (.here _ _ _ _)), ?_⟩
    rintro next rest' v rfl hlook hopen lsn look hcomes
    exact h _ _ (ScanComes.skip (.next hlook hopen hcomes))
  · rintro ⟨hhere, hnext⟩ lsn look hcomes
    have hskip : ∀ n, logLook c wasBackup file off = .header n →
        skipHeader c wasBackup file off = n := fun n hn => by rw [skipHeader, hn]
    have hstay : (∀ n, logLook c wasBackup file off ≠ .header n) →
        skipHeader c wasBackup file off = off := fun hn => by
      rw [skipHeader]
      split
      · rename_i n h'
        exact absurd h' (hn n)
      · rfl
    cases hcomes with
    | here =>
      by_cases hn : ∃ n, logLook c wasBackup file off = .header n
      · obtain ⟨n, hn⟩ := hn
        rw [hn]
        exact hheader _ n
      · rw [hstay fun n h => hn ⟨n, h⟩] at hhere
        exact hhere
    | header h hcomes' =>
      have hoff := hskip _ h
      have hnot := skipHeader_not_header c wasBackup file off
      rw [hoff] at hhere hnext hnot
      cases hcomes' with
      | here => exact hhere
      | header h' _ => exact absurd h' (hnot _)
      | next h' hopen hcomes' => exact hnext _ _ _ rfl h' hopen _ _ hcomes'
    | next h hopen hcomes' =>
      have hoff := hstay fun n h' => by
        rw [h] at h'
        cases h'
      rw [hoff] at hnext
      exact hnext _ _ _ rfl h hopen _ _ hcomes'

lemma scanOpen_ok {dir : LogDir} {start : Lsn} (h : scanOpen c dir start = .ok (lsn, file, rest)) :
    dir.first ≤ lsn.file ∧ dir.files.drop (lsn.file - dir.first) = file :: rest := by
  simp only [scanOpen] at h
  by_cases halign :
      start.offset % c.allocsize ≠ 0 ∨ dir.first + dir.files.length ≤ start.file
  · rw [if_pos halign] at h
    cases h
  rw [if_neg halign] at h
  generalize (if start = .init then (⟨dir.first, 0⟩ : Lsn) else start) = lsn' at h
  split_ifs at h with hfile
  split at h
  · cases h
  · rename_i file' rest' hdrop
    split at h
    · cases h
    · cases h
      exact ⟨Nat.le_of_not_lt hfile, hdrop⟩

lemma scanOneFrom_unchanged_iff (hfirst : log.dir.first ≤ id)
    (hfiles : log.dir.files.drop (id - log.dir.first) = file :: rest) :
    (∃ ret, scanOneFrom c log id off file rest = some (ret, log)) ↔
      ∀ lsn look, ScanComes c log.wasBackup id off file rest lsn look → look.Safe log lsn := by
  induction rest generalizing id off file with
  | nil =>
    rw [forall_comes_iff fun _ _ => trivial, scanOneFrom,
      scanEndAt_unchanged_iff hfiles (skipHeader_not_header c log.wasBackup file off)]
    exact (and_iff_left fun _ _ _ h => by cases h).symm
  | cons next rest ih =>
    rw [forall_comes_iff fun _ _ => trivial, scanOneFrom]
    by_cases hnext : logLook c log.wasBackup file (skipHeader c log.wasBackup file off) = .next
    · simp only [hnext]
      cases hopen : logOpenVerify c next with
      | error e =>
        refine ⟨fun _ => ⟨trivial, ?_⟩, fun _ => ⟨_, rfl⟩⟩
        rintro next' rest' v ⟨⟩ - hopen'
        rw [hopen] at hopen'
        cases hopen'
      | ok v =>
        have hfiles' : log.dir.files.drop (id + 1 - log.dir.first) = next :: rest := by
          rw [Nat.sub_add_comm hfirst, ← drop_drop, hfiles]
          rfl
        rw [ih (Nat.le_succ_of_le hfirst) hfiles']
        constructor
        · intro h
          refine ⟨trivial, ?_⟩
          rintro next' rest' v' ⟨⟩ - -
          exact h
        · rintro ⟨-, h⟩
          exact h next rest v rfl trivial hopen
    · -- the scan ends in this file, whatever is behind it
      refine Iff.trans ?_ (and_iff_left fun _ _ _ _ h => absurd h hnext).symm
      rw [← scanEndAt_unchanged_iff hfiles (skipHeader_not_header c log.wasBackup file off)]
      generalize logLook c log.wasBackup file (skipHeader c log.wasBackup file off) = look at hnext
      cases look with
      | next => exact absurd rfl hnext
      | _ => rfl

/-- **A log cursor leaves the log alone** exactly if its scan meets nothing that it takes for
corrupted, no length that wraps, and no checksum that does not match other than where the log is to
be truncated anyway. -/
theorem logScanOne_unchanged_iff (c : LogConf) (log : LogState) (start : Lsn) :
    (∃ ret, logScanOne c log start = some (ret, log)) ↔
      ∀ lsn file rest, scanOpen c log.dir start = .ok (lsn, file, rest) →
        ∀ place look, ScanComes c log.wasBackup lsn.file lsn.offset file rest place look →
          look.Safe log place := by
  rw [logScanOne]
  cases hopen : scanOpen c log.dir start with
  | error e =>
    refine ⟨fun _ => ?_, fun _ => ⟨_, rfl⟩⟩
    rintro lsn file rest ⟨⟩
  | ok r =>
    obtain ⟨lsn, file, rest⟩ := r
    obtain ⟨hfirst, hfiles⟩ := scanOpen_ok hopen
    simp only [scanOneFrom_unchanged_iff hfirst hfiles]
    constructor
    · rintro h lsn' file' rest' ⟨⟩
      exact h
    · intro h
      exact h lsn file rest rfl

/-- Records whose checksum is the sum of their other bytes. -/
def sumConf : LogConf where
  allocsize := 128
  checksumMatch buf n :=
    leField buf 4 4 = (((buf.take n).take 4 ++ (buf.take n).drop 8).map UInt8.toNat).sum
  decode := some
  align_le := by decide

/-- A log with one record of two blocks; the second one starts with the bytes of a short record. -/
def twoBlockLog : LogState where
  dir.first := 1
  dir.files :=
    [[24, 0, 0, 0, 157, 0, 0, 0, 0, 0, 0, 0, 0, 0, 0, 0, 0x64, 0x10, 0x10, 0, 1, 0, 0, 0] ++
      replicate 104 0 ++
      ([0, 1, 0, 0, 140, 0, 0, 0, 0, 0, 0, 0, 0, 0, 0, 0, 131] ++ replicate 111 0) ++
      ([7, 0, 0, 0, 0, 0, 1] ++ replicate 121 0)]
  truncLsn := ⟨1, 384⟩
  firstRecord := 256
  wasBackup := false

set_option maxRecDepth 4000 in
/-- The log can be read from its start, and a search for the LSN in the middle of its record
truncates it there. -/
theorem logScanOne_truncates :
    (∃ read, logScanOne sumConf twoBlockLog .init = some (.ok (some read), twoBlockLog)) ∧
      ∃ log, logScanOne sumConf twoBlockLog ⟨1, 256⟩ = some (.ok none, log) ∧
        log.truncLsn = ⟨1, 256⟩ ∧ log.dir.files.map length = [256] ∧
        twoBlockLog.dir.files.map length = [384] := by
  refine ⟨⟨_, rfl⟩, _, rfl, rfl, ?_, ?_⟩ <;> decide

end WiredTiger
