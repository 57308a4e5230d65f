/-
# Address and checkpoint cookies (`block/block_addr.c`)

A block is known to the btree by its address cookie: the file offset, the size and the checksum,
as variable-length integers, and the id of the object, if the handle has objects.  Offsets and
sizes are counted in allocation units, and the unit at the start of the file is left out of the
count.  A checkpoint cookie holds the addresses of the root and of the three extent lists, and
one object id for the four of them.
-/
import WiredTiger.Pack.IntPackProps

namespace WiredTiger

open Lib List

/-- What is read of `WT_BLOCK`. -/
structure BlockHandle where
  /-- Allocation size. -/
  allocsize : ℕ
  /-- Current writeable object id. -/
  objectid : ℕ
  /-- Address cookies contain object id. -/
  hasObjects : Bool
  allocsize_pos : 0 < allocsize
  allocsize_lt : allocsize < 2 ^ 32
  objectid_lt : objectid < 2 ^ 32

/-- A block: what `__block_addr_unpack` returns. -/
structure BlockAddr where
  objectid : ℕ
  offset : ℤ
  size : ℕ
  checksum : ℕ
  deriving DecidableEq, Repr

/-- The empty block: its offset is `WT_BLOCK_INVALID_OFFSET`. -/
def BlockAddr.empty : BlockAddr := ⟨0, 0, 0, 0⟩

/-- What is packed of `WT_BLOCK_CKPT`: of an extent list, the block it is written to. -/
structure BlockCkpt where
  version : UInt8
  root : BlockAddr
  alloc : BlockAddr
  avail : BlockAddr
  discard : BlockAddr
  fileSize : ℤ
  ckptSize : ℕ
  deriving DecidableEq, Repr

/-- Why a cookie is not packed or unpacked. -/
inductive CookieError
  | read (e : ReadError)
  /-- `WT_ERROR`: unsupported checkpoint version. -/
  | version
  deriving DecidableEq, Repr

/-- `WT_BM_CHECKPOINT_VERSION`. -/
def bmCheckpointVersion : UInt8 := 1

/-- `WT_BLOCK_COOKIE_FILEID`: the following bytes are an object ID. -/
def blockCookieFileid : UInt8 := 0x01

/-- The numbers of an address cookie. -/
structure Cookie where
  i : ℕ
  o : ℕ
  s : ℕ
  c : ℕ

/-! ### Packing -/

/-- `__wt_vpack_uint` at the end of a cookie. -/
def vpackNext (x : ℕ) : Except CookieError (List UInt8) :=
  match (vpackUint 0 x).err with
  | some e => .error (.read (.errno e))
  | none => .ok (vpackUint 0 x).bytes

/-- The flag and the object ID behind it, if it is to be stored. -/
def packObjectid (stored : Prop) [Decidable stored] (i : ℕ) : Except CookieError (List UInt8) :=
  if stored then (vpackNext i).map (blockCookieFileid :: ·) else .ok []

namespace BlockHandle

/-- The numbers that `__wt_block_addr_pack` stores. -/
def toCookie (block : BlockHandle) (a : BlockAddr) : Cookie :=
  if a.size = 0 then ⟨0, 0, 0, 0⟩
  else ⟨a.objectid, (toUint64 a.offset / block.allocsize + (2 ^ 64 - 1)) % 2 ^ 64,
    a.size / block.allocsize, a.checksum⟩

/-- `__wt_block_addr_pack`. -/
def addrPack (block : BlockHandle) (a : BlockAddr) : Except CookieError (List UInt8) := do
  let k := block.toCookie a
  let po ← vpackNext k.o
  let ps ← vpackNext k.s
  let pc ← vpackNext k.c
  -- Don't store object IDs of zero, the function that cracks the cookie defaults IDs to 0.
  let pi ← packObjectid (k.i ≠ 0 ∧ block.hasObjects = true) k.i
  return po ++ ps ++ pc ++ pi

/-- `__wt_block_ckpt_pack`. -/
def ckptPack (block : BlockHandle) (ci : BlockCkpt) (skipAvail : Bool) :
    Except CookieError (List UInt8) := do
  if ci.version ≠ bmCheckpointVersion then .error .version
  let root ← block.addrPack { ci.root with objectid := 0 }
  let alloc ← block.addrPack { ci.alloc with objectid := 0 }
  let avail ← block.addrPack (if skipAvail then .empty else { ci.avail with objectid := 0 })
  let discard ← block.addrPack { ci.discard with objectid := 0 }
  let fileSize ← vpackNext (toUint64 ci.fileSize)
  let ckptSize ← vpackNext ci.ckptSize
  let objectid ← packObjectid (block.objectid ≠ 0) block.objectid
  return ci.version :: (root ++ alloc ++ avail ++ discard ++ fileSize ++ ckptSize ++ objectid)

end BlockHandle

/-! ### Unpacking -/

/-- `__wt_vunpack_uint`: the number and the bytes behind it. -/
def vunpackNext (p : List UInt8) : Except CookieError (ℕ × List UInt8) :=
  match vunpackUint 0 p with
  | .error e => .error (.read e)
  | .ok (x, n) => .ok (x, p.drop n)

/-- The flag, if there are more bytes, and the object ID, if the flag says so. -/
def unpackObjectid (more : Prop) [Decidable more] (p : List UInt8) :
    Except CookieError (ℕ × List UInt8) :=
  if more then
    match p with
    | [] => .error (.read .fault)
    | flags :: p => if flags &&& blockCookieFileid ≠ 0 then vunpackNext p else .ok (0, p)
  else .ok (0, p)

namespace BlockHandle

/-- The block of the numbers that `__block_addr_unpack` has read: a size of 0 is the out-of-band
value. -/
def ofCookie (block : BlockHandle) (k : Cookie) : BlockAddr :=
  if k.s = 0 then .empty
  else ⟨k.i % 2 ^ 32, toInt64 ((k.o + 1) * block.allocsize % 2 ^ 64),
    k.s % 2 ^ 32 * block.allocsize % 2 ^ 32, k.c % 2 ^ 32⟩

/-- `__block_addr_unpack`: the block and the bytes behind the cookie. -/
def addrUnpack (block : BlockHandle) (p : List UInt8) (addrSize : ℕ) :
    Except CookieError (BlockAddr × List UInt8) := do
  let (o, p₁) ← vunpackNext p
  let (s, p₂) ← vunpackNext p₁
  let (c, p₃) ← vunpackNext p₂
  let (i, p₄) ← unpackObjectid (addrSize ≠ 0 ∧ p.length - p₃.length < addrSize) p₃
  return (block.ofCookie ⟨i, o, s, c⟩, p₄)

end BlockHandle

/-- The four blocks have the same object ID. -/
def BlockCkpt.setObjectid (ci : BlockCkpt) (objectid : ℕ) : BlockCkpt :=
  { ci with
    root := { ci.root with objectid := objectid }
    alloc := { ci.alloc with objectid := objectid }
    avail := { ci.avail with objectid := objectid }
    discard := { ci.discard with objectid := objectid } }

/-- `__block_ckpt_unpack`: the checkpoint and the bytes behind the cookie. -/
def BlockHandle.ckptUnpack (block : BlockHandle) (ckpt : List UInt8) (ckptSize : ℕ) :
    Except CookieError (BlockCkpt × List UInt8) :=
  match ckpt with
  | [] => .error (.read .fault)
  | version :: p => do
    if version ≠ bmCheckpointVersion then .error .version
    let (root, p₁) ← block.addrUnpack p 0
    let (alloc, p₂) ← block.addrUnpack p₁ 0
    let (avail, p₃) ← block.addrUnpack p₂ 0
    let (discard, p₄) ← block.addrUnpack p₃ 0
    let (fileSize, p₅) ← vunpackNext p₄
    let (size, p₆) ← vunpackNext p₅
    let (objectid, p₇) ← unpackObjectid (ckpt.length - p₆.length ≠ ckptSize) p₆
    let ci : BlockCkpt := ⟨version, root, alloc, avail, discard, toInt64 fileSize, size⟩
    return (ci.setObjectid (objectid % 2 ^ 32), p₇)

/-! ### Numbers -/

lemma vpackNext_eq (x : ℕ) : vpackNext x = .ok (codeUint x).bytes := by
  rw [vpackNext, vpackUint_of_fits (fun h => h.1 rfl)]

lemma vunpackNext_code {x : ℕ} (hx : x < 2 ^ 64) (rest : List UInt8) :
    vunpackNext ((codeUint x).bytes ++ rest) = .ok (x, rest) := by
  have hlen : (codeUint x).bytes.length = vsizeUint x := by
    rw [Code.length_bytes, vsizeUint_eq]
  rw [vunpackNext, vunpackUint_code hx (fun h => h.1 rfl)]
  exact congrArg (fun q => Except.ok (x, q)) (drop_left' hlen)

/-- The bytes of an object ID, if it is stored. -/
def objectidBytes (stored : Prop) [Decidable stored] (i : ℕ) : List UInt8 :=
  if stored then blockCookieFileid :: (codeUint i).bytes else []

/-- The bytes of the three numbers. -/
def Cookie.bytes (k : Cookie) : List UInt8 :=
  (codeUint k.o).bytes ++ (codeUint k.s).bytes ++ (codeUint k.c).bytes

/-- The numbers are of 64 bits. -/
structure Cookie.Fits (k : Cookie) : Prop where
  i_lt : k.i < 2 ^ 64
  o_lt : k.o < 2 ^ 64
  s_lt : k.s < 2 ^ 64
  c_lt : k.c < 2 ^ 64

lemma packObjectid_eq {stored : Prop} [Decidable stored] {i : ℕ} :
    packObjectid stored i = .ok (objectidBytes stored i) := by
  unfold packObjectid objectidBytes
  rw [vpackNext_eq]
  split_ifs <;> rfl

lemma unpackObjectid_bytes {stored more : Prop} [Decidable stored] [Decidable more] {i : ℕ}
    (hi : i < 2 ^ 64) (h : more ↔ stored) (rest : List UInt8) :
    unpackObjectid more (objectidBytes stored i ++ rest) =
      .ok (if stored then i else 0, rest) := by
  unfold unpackObjectid objectidBytes
  by_cases hs : stored
  · rw [if_pos (h.mpr hs), if_pos hs, if_pos hs]
    exact (if_pos (by decide)).trans (vunpackNext_code hi rest)
  · rw [if_neg (hs ∘ h.mp), if_neg hs, if_neg hs]
    rfl

lemma objectidBytes_length_pos {stored : Prop} [Decidable stored] {i : ℕ} :
    0 < (objectidBytes stored i).length ↔ stored := by
  unfold objectidBytes
  split_ifs with h <;> simp [h]

/-! ### Address cookies -/

namespace BlockHandle

variable {block : BlockHandle} {a : BlockAddr} {k : Cookie}

/-- The address of a block that is in the file. -/
structure IsBlock (block : BlockHandle) (a : BlockAddr) : Prop where
  objectid_lt : a.objectid < 2 ^ 32
  offset_pos : 0 < a.offset
  offset_lt : a.offset < 2 ^ 63
  offset_dvd : (block.allocsize : ℤ) ∣ a.offset
  size_pos : 0 < a.size
  size_lt : a.size < 2 ^ 32
  size_dvd : block.allocsize ∣ a.size
  checksum_lt : a.checksum < 2 ^ 32

/-- A block in the file, or the empty block. -/
def IsAddr (block : BlockHandle) (a : BlockAddr) : Prop := block.IsBlock a ∨ a = .empty

lemma toCookie_fits (ha : block.IsAddr a) : (block.toCookie a).Fits := by
  rcases ha with ha | rfl
  · have hsize : a.size / block.allocsize ≤ a.size := Nat.div_le_self _ _
    have := ha.size_lt
    have := ha.objectid_lt
    have := ha.checksum_lt
    rw [toCookie, if_neg ha.size_pos.ne']
    constructor <;> dsimp only <;> omega
  · constructor <;> exact Nat.two_pow_pos 64

/-- The numbers give back the block, with the object ID that is stored. -/
lemma ofCookie_toCookie (ha : block.IsAddr a) {i : ℕ} (hi : i = 0 ∨ i = (block.toCookie a).i) :
    block.ofCookie { block.toCookie a with i := i } = { a with objectid := i } := by
  rcases ha with ha | rfl
  · obtain ⟨x, hoff⟩ := ha.offset_dvd
    obtain ⟨y, hsize⟩ := ha.size_dvd
    have hpos := block.allocsize_pos
    have hlt := ha.offset_lt
    have h0 := ha.offset_pos
    rw [hoff] at h0 hlt
    have hx : 0 < x := pos_of_mul_pos_right h0 (Int.natCast_nonneg _)
    lift x to ℕ using hx.le
    rw [← Nat.cast_mul] at h0 hlt
    have hxle : x ≤ block.allocsize * x := Nat.le_mul_of_pos_left _ hpos
    have ho : (toUint64 a.offset / block.allocsize + (2 ^ 64 - 1)) % 2 ^ 64 = x - 1 := by
      have hu : toUint64 a.offset = block.allocsize * x := by
        unfold toUint64
        rw [hoff]
        omega
      rw [hu, Nat.mul_div_cancel_left _ hpos]
      omega
    have hslt := ha.size_lt
    have hs0 := ha.size_pos
    have hs : a.size / block.allocsize = y := by rw [hsize, Nat.mul_div_cancel_left _ hpos]
    have hyle : y ≤ block.allocsize * y := Nat.le_mul_of_pos_left _ hpos
    have hy : y ≠ 0 := by
      rintro rfl
      simp [hsize] at hs0
    have hcookie : block.toCookie a = ⟨a.objectid, x - 1, y, a.checksum⟩ := by
      rw [toCookie, if_neg hs0.ne', ho, hs]
    rw [hcookie] at hi ⊢
    have hobj := ha.objectid_lt
    rw [ofCookie, if_neg hy, Nat.sub_add_cancel (by omega), mul_comm x, toInt64,
      Nat.mod_eq_of_lt (show i < 2 ^ 32 by dsimp only at hi; omega),
      Nat.mod_eq_of_lt ha.checksum_lt, Nat.mod_eq_of_lt (show y < 2 ^ 32 by omega), mul_comm y,
      ← hsize, Nat.mod_eq_of_lt hslt, Nat.mod_eq_of_lt (by omega), if_pos (by omega)]
    rw [hoff]
    rfl
  · obtain rfl : i = 0 := hi.elim id id
    rfl

/-- What `__wt_block_addr_pack` writes. -/
lemma addrPack_eq : block.addrPack a = .ok ((block.toCookie a).bytes ++
      objectidBytes ((block.toCookie a).i ≠ 0 ∧ block.hasObjects = true) (block.toCookie a).i) := by
  unfold addrPack
  dsimp only
  rw [vpackNext_eq, vpackNext_eq, vpackNext_eq, packObjectid_eq]
  rfl

/-- What `__block_addr_unpack` reads. -/
lemma addrUnpack_bytes (hk : k.Fits) {stored : Prop} [Decidable stored] {size : ℕ}
    (hsize : size = (k.bytes ++ objectidBytes stored k.i).length ∨ size = 0 ∧ ¬ stored)
    (rest : List UInt8) :
    block.addrUnpack (k.bytes ++ objectidBytes stored k.i ++ rest) size =
      .ok (block.ofCookie { k with i := if stored then k.i else 0 }, rest) := by
  have hmore : (size ≠ 0 ∧ (k.bytes ++ (objectidBytes stored k.i ++ rest)).length -
      (objectidBytes stored k.i ++ rest).length < size) ↔ stored := by
    have hpos := @objectidBytes_length_pos stored _ k.i
    rw [length_append, Nat.add_sub_cancel]
    rcases hsize with rfl | ⟨rfl, hno⟩
    · refine Iff.trans ?_ hpos
      rw [length_append]
      omega
    · exact ⟨fun h => absurd rfl h.1, fun h => absurd h hno⟩
  have ho := vunpackNext_code hk.o_lt ((codeUint k.s).bytes ++ ((codeUint k.c).bytes ++
    (objectidBytes stored k.i ++ rest)))
  rw [← append_assoc, ← append_assoc] at ho
  unfold addrUnpack
  rw [append_assoc]
  rw [Cookie.bytes] at hmore ⊢
  rw [ho]
  dsimp only [bind, Except.bind]
  rw [vunpackNext_code hk.s_lt]
  dsimp only
  rw [vunpackNext_code hk.c_lt]
  dsimp only
  rw [unpackObjectid_bytes hk.i_lt hmore]
  rfl

lemma toCookie_i (ha : block.IsAddr a) : (block.toCookie a).i = a.objectid := by
  rcases ha with ha | rfl
  · rw [toCookie, if_neg ha.size_pos.ne']
  · rfl

/-- A block in a checkpoint cookie, which is packed without an object ID. -/
lemma addrUnpack_zero (ha : block.IsAddr a) :
    ∃ cookie, block.addrPack { a with objectid := 0 } = .ok cookie ∧ ∀ rest,
      block.addrUnpack (cookie ++ rest) 0 = .ok ({ a with objectid := 0 }, rest) := by
  have ha' : block.IsAddr { a with objectid := 0 } := by
    rcases ha with ha | rfl
    · exact .inl { ha with objectid_lt := Nat.two_pow_pos 32 }
    · exact .inr rfl
  have hno : ¬((block.toCookie { a with objectid := 0 }).i ≠ 0 ∧ block.hasObjects = true) :=
    fun h => h.1 (toCookie_i ha')
  refine ⟨_, addrPack_eq, fun rest => ?_⟩
  rw [addrUnpack_bytes (toCookie_fits ha') (.inr ⟨rfl, hno⟩), if_neg hno,
    ofCookie_toCookie ha' (.inl rfl)]

/-! ### Checkpoint cookies -/

/-- A checkpoint that can be packed. -/
structure IsCkpt (block : BlockHandle) (ci : BlockCkpt) : Prop where
  version : ci.version = bmCheckpointVersion
  root : block.IsAddr ci.root
  alloc : block.IsAddr ci.alloc
  avail : block.IsAddr ci.avail
  discard : block.IsAddr ci.discard
  fileSize_ge : -2 ^ 63 ≤ ci.fileSize
  fileSize_lt : ci.fileSize < 2 ^ 63
  ckptSize_lt : ci.ckptSize < 2 ^ 64

/-- A checkpoint cookie gives back the checkpoint, with the object ID of the handle for the four
blocks, and without the available list if it is to be skipped. -/
lemma ckptUnpack_ckptPack {ci : BlockCkpt} (hci : block.IsCkpt ci) (skipAvail : Bool) :
    ∃ cookie, block.ckptPack ci skipAvail = .ok cookie ∧ ∀ rest,
      block.ckptUnpack (cookie ++ rest) cookie.length =
        .ok (({ ci with avail := if skipAvail = true then .empty else ci.avail } :
          BlockCkpt).setObjectid block.objectid, rest) := by
  have havail : block.IsAddr (if skipAvail = true then .empty else ci.avail) := by
    split_ifs
    · exact .inr rfl
    · exact hci.avail
  have hskip : (if skipAvail = true then .empty else { ci.avail with objectid := 0 }) =
      { if skipAvail = true then BlockAddr.empty else ci.avail with objectid := 0 } := by
    split_ifs <;> rfl
  have hobjectid : block.objectid < 2 ^ 64 := by
    have := block.objectid_lt
    omega
  have hfile : toUint64 ci.fileSize < 2 ^ 64 := by
    unfold toUint64
    omega
  obtain ⟨root, hroot, hroot'⟩ := addrUnpack_zero hci.root
  obtain ⟨alloc, halloc, halloc'⟩ := addrUnpack_zero hci.alloc
  obtain ⟨avail, havail, havail'⟩ := addrUnpack_zero havail
  obtain ⟨discard, hdiscard, hdiscard'⟩ := addrUnpack_zero hci.discard
  refine ⟨ci.version :: (root ++ alloc ++ avail ++ discard ++
    (codeUint (toUint64 ci.fileSize)).bytes ++ (codeUint ci.ckptSize).bytes ++
    objectidBytes (block.objectid ≠ 0) block.objectid), ?_,
    fun rest => ?_⟩
  · unfold ckptPack
    rw [if_neg (not_not.mpr hci.version), hroot, halloc, hskip, havail, hdiscard,
      vpackNext_eq, vpackNext_eq, packObjectid_eq]
    rfl
  · have hpos := @objectidBytes_length_pos (block.objectid ≠ 0) _ block.objectid
    unfold ckptUnpack
    simp only [cons_append, append_assoc]
    rw [if_neg (not_not.mpr hci.version), hroot']
    dsimp only [bind, Except.bind]
    rw [halloc']
    dsimp only
    rw [havail']
    dsimp only
    rw [hdiscard']
    dsimp only
    rw [vunpackNext_code hfile]
    dsimp only
    rw [vunpackNext_code hci.ckptSize_lt]
    dsimp only
    rw [unpackObjectid_bytes hobjectid]
    · have hid : (if block.objectid ≠ 0 then block.objectid else 0) % 2 ^ 32 = block.objectid := by
        have := block.objectid_lt
        split_ifs <;> omega
      dsimp only [pure, Except.pure]
      rw [hid, toInt64_toUint64 hci.fileSize_ge hci.fileSize_lt]
      rfl
    · refine Iff.trans ?_ hpos
      simp only [length_cons, length_append]
      omega

/-- **Cookies round trip**: an address cookie gives back the block, with its object ID if the
handle has objects, and a checkpoint cookie gives back the checkpoint, with the object ID of the
handle, and without the available list if it is to be skipped. -/
theorem cookies_round_trip (block : BlockHandle) :
    (∀ a, block.IsAddr a → ∃ cookie, block.addrPack a = .ok cookie ∧ ∀ rest,
      block.addrUnpack (cookie ++ rest) cookie.length =
        .ok ({ a with objectid := if block.hasObjects = true then a.objectid else 0 }, rest)) ∧
    ∀ ci skipAvail, block.IsCkpt ci → ∃ cookie, block.ckptPack ci skipAvail = .ok cookie ∧
      ∀ rest, block.ckptUnpack (cookie ++ rest) cookie.length =
        .ok (({ ci with avail := if skipAvail = true then .empty else ci.avail } :
          BlockCkpt).setObjectid block.objectid, rest) := by
  refine ⟨fun a ha => ⟨_, addrPack_eq, fun rest => ?_⟩,
    fun _ skipAvail hci => ckptUnpack_ckptPack hci skipAvail⟩
  have hi := toCookie_i ha
  have hid : (if (block.toCookie a).i ≠ 0 ∧ block.hasObjects = true then (block.toCookie a).i
      else 0) = if block.hasObjects = true then a.objectid else 0 := by
    rw [hi]
    split_ifs <;> tauto
  rw [addrUnpack_bytes (toCookie_fits ha) (.inl rfl), ofCookie_toCookie ha, hid]
  rw [hid, hi]
  split_ifs <;> simp

/-- A handle without objects. -/
def handle : BlockHandle := ⟨4096, 0, false, by decide, by decide, by decide⟩

/-- The second block of a file, in object 7. -/
def secondBlock : BlockAddr := ⟨7, 8192, 4096, 5⟩

lemma isBlock_secondBlock : handle.IsBlock secondBlock := by
  constructor <;> decide

/-- The first checkpoint of a file, and its address cookies. -/
theorem cookies_round_trip_secondBlock :
    handle.IsAddr secondBlock ∧
    handle.IsCkpt ⟨1, secondBlock, .empty, .empty, .empty, 12288, 4096⟩ ∧
    (∃ cookie, handle.addrPack secondBlock = .ok cookie ∧
      handle.addrUnpack (cookie ++ []) cookie.length = .ok (⟨0, 8192, 4096, 5⟩, [])) ∧
    ∃ cookie, handle.ckptPack ⟨1, secondBlock, .empty, .empty, .empty, 12288, 4096⟩ false =
      .ok cookie := by
  have hci : handle.IsCkpt ⟨1, secondBlock, .empty, .empty, .empty, 12288, 4096⟩ :=
    ⟨rfl, .inl isBlock_secondBlock, .inr rfl, .inr rfl, .inr rfl, by decide, by decide, by decide⟩
  obtain ⟨cookie, hpack, hunpack⟩ := (cookies_round_trip handle).1 _ (.inl isBlock_secondBlock)
  obtain ⟨ckpt, hckpt, -⟩ := (cookies_round_trip handle).2 _ false hci
  exact ⟨.inl isBlock_secondBlock, hci, ⟨cookie, hpack, hunpack []⟩, ckpt, hckpt⟩

/-- A handle without objects does not store the object ID. -/
theorem addrUnpack_drops_objectid :
    handle.IsBlock secondBlock ∧ handle.addrPack secondBlock = .ok [0x81, 0x81, 0x85] ∧
    handle.addrUnpack [0x81, 0x81, 0x85] 3 = .ok (⟨0, 8192, 4096, 5⟩, []) :=
  ⟨isBlock_secondBlock, by decide, by decide⟩

end BlockHandle

end WiredTiger
