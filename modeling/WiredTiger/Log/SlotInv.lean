/-
# What holds of a log slot

The word of a slot in use counts the bytes of all ranges that were handed out, and those of the
ranges that were released: what is missing of the second is held by threads that have still to
release.  So the word says that the slot is complete exactly if it is closed and no thread holds a
range, and the step that gets it there is the only one that sees it.
-/
import WiredTiger.Log.Slot

namespace WiredTiger

open Lib Function Finset List MySlot

/-! ### The ranges handed out -/

namespace MySlot

/-- What a range counts for in the state of its slot. -/
def bytes (my : MySlot) : ℕ := if my.unbuffered then slotUnbuffered else my.size

/-- What a range takes in the buffer. -/
def bufferedSize (my : MySlot) : ℕ := if my.unbuffered then 0 else my.size

/-- What a range takes beyond the buffer. -/
def directSize (my : MySlot) : ℕ := if my.unbuffered then my.size else 0

end MySlot

/-- The bytes joined, as the state counts them. -/
def slotBytes (l : List MySlot) : ℕ := (l.map bytes).sum

/-- The sum of all sizes. -/
def joinedSize (l : List MySlot) : ℕ := (l.map size).sum

def bufferedTotal (l : List MySlot) : ℕ := (l.map bufferedSize).sum

def directTotal (l : List MySlot) : ℕ := (l.map directSize).sum

def directCount (l : List MySlot) : ℕ := l.countP unbuffered

section Totals

variable (my : MySlot) (l l' : List MySlot)

lemma slotBytes_cons : slotBytes (my :: l) = my.bytes + slotBytes l := by simp [slotBytes]

lemma joinedSize_cons : joinedSize (my :: l) = my.size + joinedSize l := by simp [joinedSize]

lemma bufferedTotal_cons : bufferedTotal (my :: l) = my.bufferedSize + bufferedTotal l := by
  simp [bufferedTotal]

lemma directTotal_cons : directTotal (my :: l) = my.directSize + directTotal l := by
  simp [directTotal]

lemma directCount_cons : directCount (my :: l) = directCount l + my.unbuffered.toNat := by
  cases hu : my.unbuffered <;> simp [directCount, hu]

lemma slotBytes_concat : slotBytes (l ++ [my]) = slotBytes l + my.bytes := by simp [slotBytes]

lemma bufferedTotal_concat : bufferedTotal (l ++ [my]) = bufferedTotal l + my.bufferedSize := by
  simp [bufferedTotal]

lemma directCount_concat : directCount (l ++ [my]) = directCount l + my.unbuffered.toNat := by
  cases hu : my.unbuffered <;> simp [directCount, hu]

lemma slotBytes_eq : slotBytes l = bufferedTotal l + directCount l * slotUnbuffered := by
  induction l with
  | nil => rfl
  | cons my l ih =>
    rw [slotBytes_cons, bufferedTotal_cons, directCount_cons, ih, add_mul, bytes,
      bufferedSize]
    cases my.unbuffered <;> simp <;> omega

lemma joinedSize_eq : joinedSize l = bufferedTotal l + directTotal l := by
  induction l with
  | nil => rfl
  | cons my l ih =>
    rw [joinedSize_cons, bufferedTotal_cons, directTotal_cons, ih, bufferedSize,
      directSize]
    cases my.unbuffered <;> simp <;> omega

end Totals

/-- Without an unbuffered range, the buffer has all of them. -/
lemma directTotal_eq_zero {l : List MySlot} (h : directCount l = 0) : directTotal l = 0 := by
  induction l with
  | nil => rfl
  | cons my l ih =>
    rw [directCount_cons] at h
    rw [directTotal_cons, ih (by omega), directSize]
    cases hu : my.unbuffered
    · simp
    · simp [hu] at h

/-- The only unbuffered range is all there is beyond the buffer. -/
lemma directTotal_eq {l : List MySlot} (h : directCount l ≤ 1) {my : MySlot} (hmem : my ∈ l)
    (hu : my.unbuffered = true) : directTotal l = my.size := by
  induction l with
  | nil => cases hmem
  | cons y l ih =>
    rw [directCount_cons] at h
    rw [directTotal_cons]
    rcases mem_cons.mp hmem with rfl | hmem
    · have hrest : directCount l = 0 := by
        rw [hu, Bool.toNat_true] at h
        omega
      rw [directTotal_eq_zero hrest, directSize, if_pos hu, add_zero]
    · have hpos : 0 < directCount l := countP_pos_iff.mpr ⟨my, hmem, hu⟩
      have hy : y.unbuffered = false := by
        cases huy : y.unbuffered with
        | false => rfl
        | true =>
          rw [huy, Bool.toNat_true] at h
          omega
      rw [ih (by omega) hmem, directSize, hy]
      simp

/-- The ranges that were handed out, for half the size `m` of the buffer. -/
structure JoinsOk (m : ℕ) (l : List MySlot) : Prop where
  tiles : Tiles offset size 0 l
  pos : ∀ my ∈ l, 0 < my.size
  fits : ∀ my ∈ l, my.unbuffered = false → my.offset + my.size ≤ 2 * m
  total_le : bufferedTotal l ≤ 2 * m
  count_le : directCount l ≤ 1

lemma joinsOk_nil (m : ℕ) : JoinsOk m [] :=
  ⟨trivial, by simp, by simp, by simp [bufferedTotal], by simp [directCount]⟩

/-- A record joins an open slot. -/
lemma JoinsOk.concat {m size : ℕ} {l : List MySlot} (h : JoinsOk m l) (hcount : directCount l = 0)
    (hlt : slotBytes l < m) (hsize : 0 < size) :
    JoinsOk m (l ++ [⟨slotBytes l, size, decide (m < size)⟩]) := by
  have hbytes : slotBytes l = bufferedTotal l := by rw [slotBytes_eq, hcount]; omega
  have hsum : slotBytes l = joinedSize l := by
    rw [joinedSize_eq, directTotal_eq_zero hcount, hbytes, add_zero]
  refine ⟨h.tiles.concat ?_, fun my hmy => ?_, fun my hmy hu => ?_, ?_, ?_⟩
  · rw [zero_add]
    exact hsum
  · rcases List.mem_append.mp hmy with hold | hnew
    · exact h.pos my hold
    · rw [List.mem_singleton.mp hnew]
      exact hsize
  · rcases List.mem_append.mp hmy with hold | hnew
    · exact h.fits my hold hu
    · obtain rfl := List.mem_singleton.mp hnew
      have := of_decide_eq_false hu
      dsimp only
      omega
  · rw [bufferedTotal_concat, bufferedSize]
    dsimp only
    by_cases hm : m < size
    · rw [if_pos (decide_eq_true hm)]
      omega
    · rw [if_neg (by simpa using hm)]
      omega
  · rw [directCount_concat, hcount, zero_add]
    exact Bool.toNat_le _

/-! ### The invariant -/

/-- What a thread has joined and not released. -/
def JoinPc.bytes : JoinPc → ℕ
  | .joined my | .filled my | .lastRead my _ | .releasing my => my.bytes
  | _ => 0

/-- The closing thread has seen the slot complete. -/
def ClosePc.completing : ClosePc → Bool
  | .owned _ release | .closed release => release
  | .done => true
  | _ => false

/-- How often a thread has seen the slot complete, and has still to write and free it. -/
def SlotThread.completing (t : SlotThread) : ℕ :=
  (decide (t.join = .done)).toNat + t.close.completing.toNat

/-- What is known at a place of joining and releasing. -/
def JoinPc.Ok (m : ℕ) (joins : List MySlot) : JoinPc → Prop
  | .trying size => 0 < size
  | .read size old => 0 < size ∧ slotOpen m old = true
  | .joined my | .filled my | .lastRead my _ | .releasing my => my ∈ joins
  | _ => True

namespace LogSlot

variable {n m : ℕ} {s t : LogSlot n} {i : Fin n}

def pending (s : LogSlot n) : ℕ := ∑ i, (s.thread i).join.bytes

def completing (s : LogSlot n) : ℕ := ∑ i, (s.thread i).completing

/-- The start of the slot, plus the sizes of all ranges. -/
def endOf (s : LogSlot n) : Lsn := ⟨s.startLsn.file, s.startLsn.offset + joinedSize s.joins⟩

/-- What is known at a place of closing. -/
def CloseOk (s : LogSlot n) (i : Fin n) : ClosePc → Prop
  | .idle | .done => True
  | .locked _ => s.lock = some i
  | .read _ old => s.lock = some i ∧ slotClosed old = false ∧
      (slotIsset old slotReserved = true → slotIsset s.state slotReserved = true)
  | .checked _ old => s.lock = some i ∧ slotClosed old = false ∧ slotIsset old slotReserved = false
  | .owned old _ => s.lock = some i ∧ s.closed = true ∧
      ∃ r, SlotFits (slotBytes s.joins) r ∧ old = slotWord (slotBytes s.joins) r false
  | .closed _ => s.lock = some i ∧ s.closed = true ∧ s.allocLsn = s.endOf

/-- The slot is in use, and its word counts the bytes joined and released. -/
structure InUse (s : LogSlot n) (r : ℕ) : Prop where
  state : s.state = slotWord (slotBytes s.joins) r s.closed
  pending : r + s.pending = slotBytes s.joins
  completing : s.completing = s.seen.length

/-- The slot is not in use. -/
structure Unused (s : LogSlot n) : Prop where
  state : s.state = slotFree ∨ s.state = slotWritten
  pending : s.pending = 0
  completing : s.completing = 0

structure Inv (m : ℕ) (s : LogSlot n) : Prop where
  joins : JoinsOk m s.joins
  unbuffered : s.unbuffered = 0 ∨ s.unbuffered = directTotal s.joins
  word : (∃ r, s.InUse r) ∨ s.Unused
  seen : s.seen.length = (s.closed && decide (s.pending = 0)).toNat
  join : ∀ i, (s.thread i).join.Ok m s.joins
  close : ∀ i, s.CloseOk i (s.thread i).close

lemma inv_init (n m : ℕ) (alloc : Lsn) : (init n alloc).Inv m where
  joins := joinsOk_nil m
  unbuffered := .inl rfl
  word := .inr ⟨.inl rfl, sum_eq_zero fun _ _ => rfl, sum_eq_zero fun _ _ => rfl⟩
  seen := rfl
  join _ := trivial
  close _ := trivial

/-! ### Words -/

/-- The bytes of the ranges are within the word. -/
lemma slotFits_of_le {l : List MySlot} (h : JoinsOk m l) (hm : 2 * m ≤ slotBufSize) {r : ℕ}
    (hr : r ≤ slotBytes l) : SlotFits (slotBytes l) r := by
  have hle : slotBytes l ≤ slotBufSize + slotUnbuffered := by
    rw [slotBytes_eq]
    have h1 := h.total_le
    have h2 : directCount l * slotUnbuffered ≤ 1 * slotUnbuffered :=
      Nat.mul_le_mul_right _ h.count_le
    omega
  have hval : slotBufSize + slotUnbuffered = 786432 := by decide
  exact ⟨by omega, by omega⟩

lemma InUse.fits {r : ℕ} (h : s.InUse r) (hs : s.Inv m) (hm : 2 * m ≤ slotBufSize) :
    SlotFits (slotBytes s.joins) r :=
  slotFits_of_le hs.joins hm (by have := h.pending; omega)

lemma Unused.reserved (h : s.Unused) : slotIsset s.state slotReserved = true := by
  rcases h.state with heq | heq
  · rw [heq]
    decide
  · rw [heq]
    decide

lemma Unused.not_open (h : s.Unused) : slotOpen m s.state = false := by
  have hactive : slotActive s.state = false := by
    rcases h.state with heq | heq
    · rw [heq]
      decide
    · rw [heq]
      decide
  simp [slotOpen, hactive]

/-- The word of a slot in use has no bit of a reserved state. -/
lemma InUse.not_reserved {r : ℕ} (h : s.InUse r) (hs : s.Inv m) (hm : 2 * m ≤ slotBufSize) :
    slotIsset s.state slotReserved = false := by
  rw [h.state]
  exact slotIsset_reserved_word (h.fits hs hm)

/-- The unbuffered bit says whether there is an unbuffered range. -/
lemma unbuffered_bit {l : List MySlot} (h : JoinsOk m l) (hm : 2 * m ≤ slotBufSize) :
    slotBytes l / 2 ^ 19 % 2 = directCount l ∧ slotBytes l % 2 ^ 19 = bufferedTotal l := by
  have h1 := h.total_le
  have h2 := h.count_le
  have hbuf : slotBufSize = 262144 := by decide
  have hun : slotUnbuffered = 524288 := by decide
  rw [slotBytes_eq, hun]
  omega

/-! ### Places of a thread -/

lemma pending_update {th : SlotThread} (h : t.thread = update s.thread i th) :
    t.pending + (s.thread i).join.bytes = s.pending + th.join.bytes := by
  rw [pending, h]
  exact sum_update_add (fun th : SlotThread => th.join.bytes) s.thread i th

lemma completing_update {th : SlotThread} (h : t.thread = update s.thread i th) :
    t.completing + (s.thread i).completing = s.completing + th.completing := by
  rw [completing, h]
  exact sum_update_add SlotThread.completing s.thread i th

/-- One thread goes on, and the others stay at their places. -/
lemma forall_thread (P : Fin n → SlotThread → Prop) {th : SlotThread}
    (h : t.thread = update s.thread i th) (hi : P i th)
    (hothers : ∀ j, j ≠ i → P j (s.thread j)) (j : Fin n) : P j (t.thread j) := by
  rw [h]
  exact (forall_update_iff s.thread P).mpr ⟨hi, hothers⟩ j

/-- What is known of a range that a thread holds. -/
lemma JoinPc.Ok.imp {l l' : List MySlot} {pc : JoinPc} (h : pc.Ok m l)
    (hl : ∀ my ∈ l, pc.bytes = my.bytes → my ∈ l') : pc.Ok m l' := by
  cases pc with
  | idle => trivial
  | done => trivial
  | trying size => exact h
  | read size old => exact h
  | joined my | filled my | lastRead my | releasing my => exact hl my h rfl

/-- What a thread holds is part of what is pending. -/
lemma bytes_le_pending (s : LogSlot n) (i : Fin n) : (s.thread i).join.bytes ≤ s.pending :=
  single_le_sum (fun j _ => Nat.zero_le ((s.thread j).join.bytes)) (mem_univ i)

lemma completing_le (s : LogSlot n) (i : Fin n) : (s.thread i).completing ≤ s.completing :=
  single_le_sum (fun j _ => Nat.zero_le ((s.thread j).completing)) (mem_univ i)

/-- What is known at a place of closing stays, if the state changes as it can under the slot lock.
-/
lemma CloseOk.mono {pc : ClosePc} (h : s.CloseOk i pc) (hlock : t.lock = s.lock)
    (hres : slotIsset s.state slotReserved = true → slotIsset t.state slotReserved = true)
    (hclosed : s.closed = true → t.closed = true ∧ t.joins = s.joins)
    (hlsn : t.allocLsn = s.allocLsn ∧ t.startLsn = s.startLsn) : t.CloseOk i pc := by
  cases pc with
  | idle => trivial
  | done => trivial
  | locked forced => exact hlock.trans h
  | read forced old => exact ⟨hlock.trans h.1, h.2.1, fun hold => hres (h.2.2 hold)⟩
  | checked forced old => exact ⟨hlock.trans h.1, h.2⟩
  | owned old release =>
    obtain ⟨hl, hc, hold⟩ := h
    obtain ⟨hc', hj⟩ := hclosed hc
    refine ⟨hlock.trans hl, hc', ?_⟩
    rw [hj]
    exact hold
  | closed release =>
    obtain ⟨hl, hc, ha⟩ := h
    obtain ⟨hc', hj⟩ := hclosed hc
    refine ⟨hlock.trans hl, hc', ?_⟩
    rw [hlsn.1, ha, endOf, endOf, hlsn.2, hj]

end LogSlot

end WiredTiger
