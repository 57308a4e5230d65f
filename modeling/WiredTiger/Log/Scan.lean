/-
# The files of the log (`log/log.c`)

The log is a sequence of files.  A file has a header, from version 2 on a system record with the LSN
at the end of the file in front of it, and records, each of which has its length and a checksum; all
of them start on a boundary of the allocation size, and the file is filled up with zeroes.
-/
import WiredTiger.Pack.Struct

namespace WiredTiger

/-! ### Places in the log -/

/-- `WT_LSN`. -/
structure Lsn where
  file : ℕ
  offset : ℕ
  deriving DecidableEq, Repr

namespace Lsn

/-- `WT_INIT_LSN`. -/
def init : Lsn := ⟨1, 0⟩

/-- `WT_ZERO_LSN`. -/
def zero : Lsn := ⟨0, 0⟩

end Lsn

/-- What the log is opened with. -/
structure LogConf where
  allocsize : ℕ
  /-- `__log_checksum_match`, of a buffer and the length of the record in it. -/
  checksumMatch : List UInt8 → ℕ → Bool
  /-- A record decrypted and decompressed. -/
  decode : List UInt8 → Option (List UInt8)
  /-- The allocation size is at least `WT_LOG_ALIGN`. -/
  align_le : 128 ≤ allocsize

/-- Why a scan fails. -/
inductive LogError
  | io
  | noent
  | notfound
  | trySalvage
  | version
  | systemChecksum
  | systemMissing
  | unpack
  | decode
  deriving DecidableEq, Repr

/-! ### Records -/

/-- A little-endian number of `n` bytes. -/
def leField (buf : List UInt8) (offset n : ℕ) : ℕ :=
  Nat.ofDigits 256 (((buf.drop offset).take n).map UInt8.toNat)

/-- `sizeof(WT_LOG_RECORD)`. -/
def logRecordSize : ℕ := 16

def logMagic : ℕ := 0x101064
def logVersion : ℕ := 5
def logVersionSystem : ℕ := 2

/-- The field `len` of a record. -/
def recLen (rec : List UInt8) : ℕ := leField rec 0 4

/-- `__wt_rduppo2`. -/
def rduppo2 (n po2 : ℕ) : ℕ := (n + po2 - 1) / po2 * po2

/-- `__log_record_verify`: the flags, the unused bytes, the length in memory or the length of the
record are wrong. -/
def logRecordCorrupt (rec : List UInt8) : Bool :=
  leField rec 8 2 / 4 ≠ 0 || ((rec.drop 10).take 2).any (· ≠ 0) ||
    (leField rec 12 4 ≠ 0 && leField rec 8 2 % 4 = 0) || recLen rec ≤ logRecordSize

/-- `__log_check_partial_write`. -/
def logCheckPartialWrite (buf : List UInt8) (reclen : ℕ) : Bool :=
  0 < reclen && buf[reclen - 1]? = some 0

/-- `__log_fs_read`. -/
def logFsRead (file : List UInt8) (offset len : ℕ) : Except LogError (List UInt8) :=
  if offset + len ≤ file.length then .ok ((file.drop offset).take len) else .error .io

/-! ### Holes -/

/-- Some byte is not zero. -/
def nonzero (buf : List UInt8) : Bool := buf.any (· ≠ 0)

/-- The buffer from the first block on that is not zero. -/
def nonzeroBlock (allocsize : ℕ) : ℕ → List UInt8 → List UInt8
  | 0, buf => buf
  | fuel + 1, buf =>
    if nonzero (buf.take allocsize) then buf else nonzeroBlock allocsize fuel (buf.drop allocsize)

/-- What `__log_has_hole` returns: whether there is a hole, and the offset of a record behind it
that is corrupted, or 0. -/
structure HasHole where
  hole : Bool
  errorOffset : ℕ
  deriving DecidableEq, Repr

/-- The loop of `__log_has_hole` over buffers of `bufsz` bytes. -/
def holeLoop (c : LogConf) (bufsz : ℕ) : ℕ → ℕ → List UInt8 → HasHole
  | 0, _, _ => ⟨false, 0⟩
  | fuel + 1, off, rest =>
    if rest = [] then ⟨false, 0⟩
    else if nonzero (rest.take bufsz) then
      let p := nonzeroBlock c.allocsize (rest.take bufsz).length (rest.take bufsz)
      if logRecordSize ≤ p.length ∧ logRecordCorrupt p = true then
        ⟨true, off + ((rest.take bufsz).length - p.length)⟩
      else ⟨true, 0⟩
    else holeLoop c bufsz fuel (off + (rest.take bufsz).length) (rest.drop bufsz)

/-- `__log_has_hole`. -/
def logHasHole (c : LogConf) (file : List UInt8) (offset : ℕ) : HasHole :=
  holeLoop c (max (2 ^ 20) c.allocsize) (file.length - offset) offset (file.drop offset)

/-! ### Opening a file -/

/-- Numbers that have been unpacked. -/
def uintOuts : List Out → Option (List ℕ)
  | [] => some []
  | .uint x :: outs => (uintOuts outs).map (x :: ·)
  | _ :: _ => none

/-- `__wt_logrec_read`: the type of a record, and what is behind it. -/
def logrecRead (p : List UInt8) : Except LogError (ℕ × List UInt8) :=
  match vunpackUint p.length p with
  | .error _ => .error .unpack
  | .ok (rectype, n) => .ok (rectype % 2 ^ 32, p.drop n)

/-- `__wt_logop_prev_lsn_unpack`. -/
def logopPrevLsnUnpack (p : List UInt8) : Except LogError Lsn :=
  let u := structUnpackv p ['I', 'I', 'I', 'I']
  match u.err, uintOuts u.outs with
  | none, some [_, _, file, offset] => .ok ⟨file, offset⟩
  | _, _ => .error .unpack

/-- The previous LSN that a system record holds. -/
def logRecoverSystem (buf : List UInt8) : Except LogError Lsn :=
  match logrecRead (buf.drop logRecordSize) with
  | .error e => .error e
  | .ok (rectype, p) => if rectype ≠ 4 then .error .systemMissing else logopPrevLsnUnpack p

/-- `__log_open_verify`: the previous LSN of a file, which is zero if the file has none, and its
version. -/
def logOpenVerify (c : LogConf) (file : List UInt8) : Except LogError (Lsn × ℕ) :=
  match logFsRead file 0 c.allocsize with
  | .error e => .error e
  | .ok header =>
    if leField header 16 4 ≠ logMagic then .error .trySalvage
    else if logVersion < leField header 20 2 then .error .version
    else if leField header 20 2 < logVersionSystem then .ok (.zero, leField header 20 2)
    else
      match logFsRead file c.allocsize c.allocsize with
      | .error e => .error e
      | .ok system =>
        -- the header is there, but not the record: the log ends here
        if recLen system = 0 then .ok (.zero, leField header 20 2)
        else if c.checksumMatch system c.allocsize = false then .error .systemChecksum
        else
          match logRecoverSystem system with
          | .error e => .error e
          | .ok prev => .ok (prev, leField header 20 2)

/-- The log files of a database, which are numbered one after the other. -/
structure LogDir where
  first : ℕ
  files : List (List UInt8)

end WiredTiger
