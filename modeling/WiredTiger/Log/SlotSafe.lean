/-
# Log slots are consolidated without gaps

Along every interleaving, the ranges handed out in a slot follow one another from its start, those
that are buffered fit in the buffer, at most one is not, and exactly one thread sees the slot become
complete.  The allocation LSN that the closing thread sets is the start of the slot plus the sizes
of all ranges, as long as that is an offset of 32 bits.
-/
import WiredTiger.Log.SlotInv

namespace WiredTiger

open Lib List Option Function Bool MySlot

namespace LogSlot

variable {n m : ℕ} {s t : LogSlot n} {i : Fin n}
variable {pc : ClosePc} {fileMax : ℕ}

/-! ### Frames -/

/-- A thread that does not hold the slot lock is not closing the slot. -/
lemma CloseOk.idle_or_done (h : s.CloseOk i pc) (hlock : s.lock ≠ some i) :
    pc = .idle ∨ pc = .done := by
  cases pc with
  | idle => exact .inl rfl
  | done => exact .inr rfl
  | locked forced => exact absurd h hlock
  | read | checked | owned | closed => exact absurd h.1 hlock

lemma closeOk_of_idle_or_done (h : pc = .idle ∨ pc = .done) : s.CloseOk i pc := by
  rcases h with rfl | rfl
  · trivial
  · trivial

lemma MySlot.bytes_pos {my : MySlot} (h : 0 < my.size) : 0 < my.bytes := by
  unfold bytes
  split
  · decide
  · exact h

/-- The first thread that sees the slot complete. -/
lemma length_seen (hnone : s.seen.length = 0) (i : Fin n) (done : Bool) :
    (if done then s.seen ++ [i] else s.seen).length = done.toNat := by
  cases done
  · exact hnone
  · simp [hnone]

namespace Inv

variable (hs : s.Inv m)
include hs

lemma joinAt {pc : JoinPc} (h : (s.thread i).join = pc) : pc.Ok m s.joins := h ▸ hs.join i

lemma closeAt (h : (s.thread i).close = pc) : s.CloseOk i pc := h ▸ hs.close i

/-- The unbuffered size, the lock and the LSNs other than the start are changed. -/
lemma frame (u o : ℕ) (e a : Lsn) (l : Option (Fin n))
    (hu : u = 0 ∨ u = directTotal s.joins)
    (hclose : ∀ j, CloseOk
      ⟨s.state, u, s.startLsn, e, o, a, l, s.thread, s.joins, s.closed, s.seen⟩ j
      (s.thread j).close) :
    Inv m ⟨s.state, u, s.startLsn, e, o, a, l, s.thread, s.joins, s.closed, s.seen⟩ := by
  refine ⟨hs.joins, hu, ?_, hs.seen, hs.join, hclose⟩
  exact hs.word.imp (fun ⟨r, hr⟩ => ⟨r, hr.state, hr.pending, hr.completing⟩)
    fun hu => ⟨hu.state, hu.pending, hu.completing⟩

/-- A thread moves on: it holds what it held, and has seen what it had seen. -/
lemma setThread {th : SlotThread} (hjoin : th.join.Ok m s.joins)
    (hclose : s.CloseOk i th.close) (hbytes : th.join.bytes = (s.thread i).join.bytes)
    (hseen : th.completing = (s.thread i).completing) :
    Inv m { s with thread := update s.thread i th } := by
  generalize ht : { s with thread := update s.thread i th } = t
  have hthread : t.thread = update s.thread i th := by rw [← ht]
  have hpending : t.pending = s.pending := by
    have := pending_update hthread
    omega
  have hcompleting : t.completing = s.completing := by
    have := completing_update hthread
    omega
  subst ht
  refine ⟨hs.joins, hs.unbuffered, ?_, ?_,
    forall_thread (fun _ th => th.join.Ok m s.joins) hthread hjoin fun j _ => hs.join j,
    forall_thread (fun j th => s.CloseOk j th.close) hthread hclose fun j _ => hs.close j⟩
  · refine hs.word.imp (fun ⟨r, hr⟩ => ⟨r, hr.state, ?_, hcompleting.trans hr.completing⟩)
      fun hu => ⟨hu.state, hpending.trans hu.pending, hcompleting.trans hu.completing⟩
    rw [hpending]
    exact hr.pending
  · rw [hpending]
    exact hs.seen

lemma setJoin {pc old : JoinPc} (hold : (s.thread i).join = old)
    (hok : pc.Ok m s.joins) (hbytes : pc.bytes = old.bytes) (hdone : pc ≠ .done)
    (hdone' : old ≠ .done) : (s.setJoin i pc).Inv m := by
  subst hold
  refine hs.setThread hok (hs.close i) hbytes ?_
  simp [SlotThread.completing, decide_eq_false hdone, decide_eq_false hdone']

lemma setClose {old : ClosePc} (hold : (s.thread i).close = old) (hok : s.CloseOk i pc)
    (hsame : pc.completing = old.completing) : (s.setClose i pc).Inv m := by
  subst hold
  refine hs.setThread (hs.join i) hok rfl ?_
  simp [SlotThread.completing, hsame]

/-- The slot lock is released, by the thread that holds it. -/
lemma unlock (hlock : s.lock = some i) {old : ClosePc} (hold : (s.thread i).close = old)
    (hpc : pc = .idle ∨ pc = .done) (hsame : pc.completing = old.completing) :
    (s.unlock i pc).Inv m := by
  have hbase : (s.setClose i pc).Inv m := hs.setClose hold (closeOk_of_idle_or_done hpc) hsame
  refine hbase.frame _ _ _ _ _ hbase.unbuffered fun j => closeOk_of_idle_or_done ?_
  refine forall_thread (s := s) (fun _ th => th.close = .idle ∨ th.close = .done) rfl hpc
    (fun j hj => ?_) j
  exact (hs.close j).idle_or_done (hlock ▸ fun h => hj (some.inj h).symm)

/-- The allocation LSN is changed while no thread has just closed the slot. -/
lemma setAlloc (hnone : ∀ j release, (s.thread j).close ≠ .closed release)
    (a e : Lsn) : Inv m { s with allocLsn := a, endLsn := e } := by
  refine hs.frame _ _ _ _ _ hs.unbuffered fun j => ?_
  have hok := hs.close j
  cases hpc : (s.thread j).close with
  | closed release => exact absurd hpc (hnone j release)
  | idle => trivial
  | done => trivial
  | locked | read | checked | owned => rwa [hpc] at hok

/-- A thread that has seen the slot complete sets its last state. -/
lemma finish {closer : Bool} {state : BitVec 64}
    (hstate : state = slotFree ∨ state = slotWritten) (h : s.finish i closer state = some t) :
    t.Inv m := by
  have hres : slotIsset state slotReserved = true := by
    rcases hstate with rfl | rfl <;> decide
  -- the slot is complete, and no one else has seen it
  have huse : 1 ≤ s.completing → s.completing = 1 ∧ s.pending = 0 := by
    intro hge
    rcases hs.word with ⟨r, hr⟩ | hu
    · have hseen := hs.seen
      rw [← hr.completing] at hseen
      have hbool : (s.closed && decide (s.pending = 0)) = true := by
        cases hb : (s.closed && decide (s.pending = 0)) with
        | true => rfl
        | false =>
          rw [hb] at hseen
          simp only [Bool.toNat_false] at hseen
          omega
      rw [hbool] at hseen
      exact ⟨hseen, of_decide_eq_true (Bool.and_eq_true_iff.mp hbool).2⟩
    · have := hu.completing
      omega
  have hone : ∀ {th : SlotThread}, th.join.Ok m s.joins → s.CloseOk i th.close →
      th.join.bytes = (s.thread i).join.bytes → th.completing + 1 = (s.thread i).completing →
      Inv m { s with state := state, thread := update s.thread i th } := by
    intro th hjoin hclose hbytes hseen
    have hpend := pending_update (s := s) (i := i)
      (t := { s with state := state, thread := update s.thread i th }) rfl
    have hcomp := completing_update (s := s) (i := i)
      (t := { s with state := state, thread := update s.thread i th }) rfl
    obtain ⟨hcone, hzero⟩ := huse (by have := completing_le s i; omega)
    have hkeep : ∀ j pc, s.CloseOk j pc → CloseOk
        { s with state := state, thread := update s.thread i th } j pc := fun j pc h =>
      h.mono rfl (fun _ => hres) (fun h => ⟨h, rfl⟩) ⟨rfl, rfl⟩
    rw [hbytes, add_right_cancel_iff] at hpend
    refine ⟨hs.joins, hs.unbuffered, .inr ⟨hstate, hpend.trans hzero, by omega⟩, ?_,
      forall_thread (s := s) (fun _ th => th.join.Ok m _) rfl hjoin fun j _ => hs.join j,
      forall_thread (s := s) (fun j th => CloseOk _ j th.close) rfl (hkeep i _ hclose)
        fun j _ => hkeep j _ (hs.close j)⟩
    rw [hpend]
    exact hs.seen
  unfold LogSlot.finish at h
  cases closer with
  | true =>
    obtain ⟨hpc, h⟩ := ite_none_right_eq_some.mp ((if_pos rfl).symm.trans h)
    cases h
    refine hone (hs.join i) trivial rfl ?_
    rw [SlotThread.completing, SlotThread.completing, hpc]
    rfl
  | false =>
    obtain ⟨hpc, h⟩ := ite_none_right_eq_some.mp ((if_neg Bool.false_ne_true).symm.trans h)
    cases h
    refine hone trivial (hs.close i) (by rw [hpc]; rfl) ?_
    simp [SlotThread.completing, hpc, add_comm]

/-- Nothing is pending exactly if no thread holds a range. -/
lemma pending_eq_zero_iff : s.pending = 0 ↔ ∀ i my cur,
    (s.thread i).join ≠ .joined my ∧ (s.thread i).join ≠ .filled my ∧
    (s.thread i).join ≠ .lastRead my cur ∧ (s.thread i).join ≠ .releasing my := by
  constructor
  · intro hzero i my cur
    have hle := bytes_le_pending s i
    have hok := hs.join i
    have hpos : ∀ {my : MySlot}, my ∈ s.joins → 0 < my.bytes := fun hmem =>
      MySlot.bytes_pos (hs.joins.pos _ hmem)
    refine ⟨fun h => ?_, fun h => ?_, fun h => ?_, fun h => ?_⟩
    all_goals
      rw [h] at hle hok
      have := hpos hok
      simp only [JoinPc.bytes] at hle
      omega
  · intro hnone
    refine Finset.sum_eq_zero fun i _ => ?_
    cases hpc : (s.thread i).join with
    | joined my => exact absurd hpc (hnone i my 0).1
    | filled my => exact absurd hpc (hnone i my 0).2.1
    | lastRead my cur => exact absurd hpc (hnone i my cur).2.2.1
    | releasing my => exact absurd hpc (hnone i my 0).2.2.2
    | _ => rfl

variable (hm : 2 * m ≤ slotBufSize)
include hm

/-- The compare-and-swap of a join succeeds. -/
lemma join_cas {size : ℕ}
    (hpc : (s.thread i).join = .read size s.state) :
    Inv m { s.setJoin i (.joined ⟨(slotJoined s.state).toNat, size, decide (m < size)⟩) with
      state := slotJoinState s.state (decide (m < size)) size
      joins := s.joins ++ [⟨(slotJoined s.state).toNat, size, decide (m < size)⟩] } := by
  obtain ⟨hpos, hopen⟩ : 0 < size ∧ slotOpen m s.state = true := hs.joinAt hpc
  rcases hs.word with ⟨r, hr⟩ | hu
  swap
  · rw [hu.not_open] at hopen
    cases hopen
  have hfits := hr.fits hs hm
  rw [hr.state, slotOpen_word hfits] at hopen
  obtain ⟨hclosed, hbit, hlt⟩ := hopen
  have hcount : directCount s.joins = 0 := (unbuffered_bit hs.joins hm).1.symm.trans hbit
  have hoffset : (slotJoined s.state).toNat = slotBytes s.joins := by
    rw [hr.state, slotJoined_word hfits]
  rw [hoffset]
  set my : MySlot := ⟨slotBytes s.joins, size, decide (m < size)⟩
  have hjoins : JoinsOk m (s.joins ++ [my]) := hs.joins.concat hcount hlt hpos
  have hbytes : slotBytes (s.joins ++ [my]) = slotBytes s.joins + my.bytes := slotBytes_concat _ _
  have hpend := pending_update (t := s.setJoin i (.joined my)) rfl
  rw [hpc] at hpend
  change (s.setJoin i (.joined my)).pending + 0 = s.pending + my.bytes at hpend
  have hrp := hr.pending
  have hclose : ∀ j, CloseOk { s.setJoin i (.joined my) with
      state := slotJoinState s.state (decide (m < size)) size, joins := s.joins ++ [my] } j
      (s.thread j).close := by
    refine fun j => (hs.close j).mono rfl (fun h => ?_) (fun h => ?_) ⟨rfl, rfl⟩
    · rw [hr.not_reserved hs hm] at h
      cases h
    · rw [hclosed] at h
      cases h
  refine ⟨hjoins, .inl ?_, .inl ⟨r, ?_, ?_, ?_⟩, ?_,
    forall_thread (s := s) (fun _ th => th.join.Ok m _) rfl ?_ fun j _ => ?_,
    forall_thread (s := s) (fun j th => CloseOk _ j th.close) rfl (hclose i) fun j _ => hclose j⟩
  · rcases hs.unbuffered with h0 | htotal
    · exact h0
    · exact htotal.trans (directTotal_eq_zero hcount)
  · -- the word counts the new range
    have hfits' : SlotFits (slotBytes s.joins + my.bytes) r := by
      rw [← hbytes]
      refine slotFits_of_le hjoins hm ?_
      rw [hbytes]
      omega
    have hmb : my.bytes = if decide (m < size) = true then slotUnbuffered else size := rfl
    change slotJoinState s.state _ _ = slotWord (slotBytes (s.joins ++ [my])) r s.closed
    rw [hmb] at hbytes hfits'
    rw [hbytes, hr.state, hclosed]
    exact slotJoinState_word hfits hfits'
  · rw [hbytes]
    change r + (s.setJoin i (.joined my)).pending = _
    omega
  · have hcomp := completing_update (t := s.setJoin i (.joined my)) rfl
    simp only [SlotThread.completing, hpc, reduceCtorEq, add_right_cancel_iff] at hcomp
    exact hcomp.trans hr.completing
  · have hseen := hs.seen
    rw [hclosed] at hseen
    change s.seen.length = (s.closed && _).toNat
    rw [hclosed]
    exact hseen
  · exact mem_append_right _ mem_cons_self
  · exact JoinPc.Ok.imp (hs.join j) fun my hmem _ => mem_append_left _ hmem

/-- The bytes of a range are released.  The slot is complete then exactly if it is closed and no
other range is held. -/
lemma release {my : MySlot}
    (hpc : (s.thread i).join = .releasing my) {done : Bool}
    (hdone : done = slotDone (s.state + slotRelSize my.unbuffered my.size)) :
    Inv m { s.setJoin i (if done then .done else .idle) with
      state := s.state + slotRelSize my.unbuffered my.size
      seen := if done then s.seen ++ [i] else s.seen } := by
  have hmem : my ∈ s.joins := hs.joinAt hpc
  have hpos := MySlot.bytes_pos (hs.joins.pos my hmem)
  have hheld : my.bytes ≤ s.pending := by
    have := bytes_le_pending s i
    rwa [hpc] at this
  rcases hs.word with ⟨r, hr⟩ | hu
  swap
  · rw [hu.pending] at hheld
    omega
  set pc : JoinPc := if done then .done else .idle with hpcdef
  have hpend : (s.setJoin i pc).pending + my.bytes = s.pending := by
    have h := pending_update (t := s.setJoin i pc) rfl
    have hzero : pc.bytes = 0 := by
      rw [hpcdef]
      cases done <;> rfl
    rw [hpc, hzero] at h
    exact h
  have hcomp : (s.setJoin i pc).completing = s.completing + done.toNat := by
    have h := completing_update (t := s.setJoin i pc) rfl
    have hd : decide (pc = .done) = done := by
      rw [hpcdef]
      cases done <;> simp
    simp only [SlotThread.completing, hpc, hd, reduceCtorEq, decide_false, Bool.toNat_false] at h
    omega
  have hfits := hr.fits hs hm
  have hrp := hr.pending
  have hfits' : SlotFits (slotBytes s.joins) (r + my.bytes) :=
    slotFits_of_le hs.joins hm (by omega)
  have hmb : my.bytes = if my.unbuffered = true then slotUnbuffered else my.size := rfl
  have hstate : s.state + slotRelSize my.unbuffered my.size =
      slotWord (slotBytes s.joins) (r + my.bytes) s.closed := by
    rw [hmb] at hfits' ⊢
    rw [hr.state]
    exact slotRelease_word hfits hfits'
  -- complete means that nothing is pending any more
  have hdone' : done = (s.closed && decide ((s.setJoin i pc).pending = 0)) := by
    rw [hdone, hstate, slotDone_word hfits']
    congr 1
    refine decide_eq_decide.mpr ?_
    omega
  have hnone : s.seen.length = 0 := by
    rw [hs.seen, decide_eq_false (by omega), Bool.and_false]
    rfl
  have hlen := length_seen hnone i done
  have hclose : ∀ j, CloseOk { s.setJoin i pc with
      state := s.state + slotRelSize my.unbuffered my.size
      seen := if done then s.seen ++ [i] else s.seen } j (s.thread j).close := by
    refine fun j => (hs.close j).mono rfl (fun h => ?_) (fun h => ⟨h, rfl⟩) ⟨rfl, rfl⟩
    rw [hr.not_reserved hs hm] at h
    cases h
  refine ⟨hs.joins, hs.unbuffered, .inl ⟨r + my.bytes, hstate, ?_, ?_⟩, ?_,
    forall_thread (s := s) (fun _ th => th.join.Ok m _) rfl ?_ fun j _ => hs.join j,
    forall_thread (s := s) (fun j th => CloseOk _ j th.close) rfl (hclose i) fun j _ => hclose j⟩
  · change r + my.bytes + (s.setJoin i pc).pending = slotBytes s.joins
    omega
  · refine hcomp.trans ?_
    rw [hr.completing, hnone, zero_add]
    exact hlen.symm
  · refine hlen.trans ?_
    rw [hdone']
    rfl
  · rw [hpcdef]
    cases done <;> trivial

/-- The compare-and-swap of the closing thread succeeds.  The slot is complete then exactly if no
range is held. -/
lemma close_cas {forced : Bool}
    (hpc : (s.thread i).close = .checked forced s.state) {done : Bool}
    (hdone : done = slotDone (s.state ||| slotClose)) :
    Inv m { s.setClose i (.owned s.state done) with
      state := s.state ||| slotClose, closed := true
      seen := if done then s.seen ++ [i] else s.seen } := by
  obtain ⟨hlock, hnot, hres⟩ : s.lock = some i ∧ slotClosed s.state = false ∧
      slotIsset s.state slotReserved = false := hs.closeAt hpc
  rcases hs.word with ⟨r, hr⟩ | hu
  swap
  · rw [hu.reserved] at hres
    cases hres
  have hfits := hr.fits hs hm
  have hclosed : s.closed = false := by
    rw [hr.state, slotClosed_word hfits] at hnot
    exact hnot
  have hold : s.state = slotWord (slotBytes s.joins) r false := hclosed ▸ hr.state
  have hnew : s.state ||| slotClose = slotWord (slotBytes s.joins) r true := by
    rw [hold, slotClose_word hfits]
  have hpend : (s.setClose i (.owned s.state done)).pending = s.pending := by
    have h := pending_update (t := s.setClose i (.owned s.state done)) rfl
    exact add_right_cancel h
  have hcomp := completing_update (t := s.setClose i (.owned s.state done)) rfl
  rw [SlotThread.completing, SlotThread.completing, hpc] at hcomp
  change _ + ((decide ((s.thread i).join = .done)).toNat + 0) =
    _ + ((decide ((s.thread i).join = .done)).toNat + done.toNat) at hcomp
  have hrp := hr.pending
  have hdone' : done = decide (s.pending = 0) := by
    rw [hdone, hnew, slotDone_word hfits, Bool.true_and]
    refine decide_eq_decide.mpr ?_
    omega
  have hnone : s.seen.length = 0 := by
    rw [hs.seen, hclosed]
    rfl
  have hlen := length_seen hnone i done
  refine ⟨hs.joins, hs.unbuffered, .inl ⟨r, hnew, ?_, ?_⟩, ?_,
    forall_thread (s := s) (fun _ th => th.join.Ok m _) rfl (hs.join i) fun j _ => hs.join j,
    forall_thread (s := s) (fun j th => CloseOk _ j th.close) rfl ⟨hlock, rfl, r, hfits, hold⟩
      fun j hj => closeOk_of_idle_or_done ((hs.close j).idle_or_done ?_)⟩
  · change r + (s.setClose i (.owned s.state done)).pending = slotBytes s.joins
    omega
  · change (s.setClose i (.owned s.state done)).completing = _
    rw [hlen, ← zero_add done.toNat, ← hnone, ← hr.completing]
    omega
  · refine hlen.trans ?_
    change done.toNat = (true && decide ((s.setClose i (.owned s.state done)).pending = 0)).toNat
    rw [hpend, Bool.true_and, ← hdone']
  · rw [hlock]
    exact fun h => hj (some.inj h).symm

/-- The closing thread sets the end LSN, once the unbuffered size is known. -/
lemma close_end {old : BitVec 64} {release : Bool}
    (hpc : (s.thread i).close = .owned old release)
    (hwait : ¬(slotUnbufferedIsset old = true ∧ s.unbuffered = 0)) :
    (s.startLsn.offset + ((slotJoinedBuffered old).toNat + s.unbuffered) % 2 ^ 32) % 2 ^ 32 =
      s.endOf.offset % 2 ^ 32 := by
  obtain ⟨-, -, r, hfits, rfl⟩ : s.lock = some i ∧ s.closed = true ∧
      ∃ r, SlotFits (slotBytes s.joins) r ∧ old = slotWord (slotBytes s.joins) r false :=
    hs.closeAt hpc
  obtain ⟨hbit, hlow⟩ := unbuffered_bit hs.joins hm
  rw [slotUnbufferedIsset_word hfits, hbit, decide_eq_true_eq] at hwait
  have hunbuf : s.unbuffered = directTotal s.joins := by
    rcases hs.unbuffered with h0 | htotal
    · have hcount : directCount s.joins = 0 := by
        omega
      rw [h0, directTotal_eq_zero hcount]
    · exact htotal
  rw [slotJoinedBuffered_word hfits, hlow, hunbuf, endOf, joinedSize_eq, Nat.add_mod_mod]

end Inv

/-! ### Joining and releasing -/

lemma inv_joinNext (hs : s.Inv (slotBufMax fileMax)) (hm : 2 * slotBufMax fileMax ≤ slotBufSize)
    (h : s.joinNext fileMax i = some t) : t.Inv (slotBufMax fileMax) := by
  have hok := hs.join i
  unfold joinNext at h
  cases hpc : (s.thread i).join <;> rw [hpc] at h hok <;> dsimp only at h
  case idle => cases h
  case trying size =>
    split_ifs at h with hopen
    cases h
    exact hs.setJoin hpc ⟨hok, hopen⟩ rfl nofun nofun
  case read size old =>
    split_ifs at h with heq <;> cases h
    · subst heq
      exact hs.join_cas hm hpc
    · exact hs.setJoin hpc hok.1 rfl nofun nofun
  case joined my =>
    cases h
    have hbase : (s.setJoin i (.filled my)).Inv (slotBufMax fileMax) :=
      hs.setJoin hpc hok rfl nofun nofun
    refine hbase.frame _ _ _ _ _ ?_ fun j => ?_
    · split_ifs with hu
      · exact .inr (directTotal_eq hs.joins.count_le hok hu).symm
      · exact hs.unbuffered
    · exact (hbase.close j).mono rfl (fun h => h) (fun h => ⟨h, rfl⟩) ⟨rfl, rfl⟩
  case filled my =>
    split_ifs at h <;> cases h
    · exact hs.setJoin hpc hok rfl nofun nofun
    · exact hs.setJoin hpc hok rfl nofun nofun
  case lastRead my cur =>
    split_ifs at h <;> cases h
    · have hbase : (s.setJoin i (.releasing my)).Inv (slotBufMax fileMax) :=
        hs.setJoin hpc hok rfl nofun nofun
      exact hbase.frame _ _ _ _ _ hbase.unbuffered fun j =>
        (hbase.close j).mono rfl (fun h => h) (fun h => ⟨h, rfl⟩) ⟨rfl, rfl⟩
    · exact hs.setJoin hpc hok rfl nofun nofun
  case releasing my =>
    split_ifs at h with hdone <;> cases h
    · exact hs.release hm hpc (Eq.symm hdone)
    · exact hs.release hm hpc (eq_false_of_ne_true hdone).symm
  case done => cases h

/-! ### Closing -/

/-- The end of the slot is an offset that an LSN can hold, where the closing thread sets it. -/
def LsnFits (s : LogSlot n) (a : Fin n × SlotOp) : Prop :=
  a.2 = .closeNext → ∀ old release, (s.thread a.1).close = .owned old release →
    s.startLsn.offset + joinedSize s.joins < 2 ^ 32

lemma inv_closeNext (hs : s.Inv m) (hm : 2 * m ≤ slotBufSize) (hlsn : s.LsnFits (i, .closeNext))
    (h : s.closeNext i = some t) : t.Inv m := by
  have hok := hs.close i
  unfold closeNext at h
  cases hpc : (s.thread i).close <;> rw [hpc] at h hok <;> dsimp only at h
  case idle => cases h
  case locked forced =>
    split_ifs at h with hbusy hclosed <;> cases h
    · exact hs.unlock hok hpc (.inl rfl) rfl
    · exact hs.unlock hok hpc (.inl rfl) rfl
    · exact hs.setClose hpc ⟨hok, eq_false_of_ne_true hclosed, fun h => h⟩ rfl
  case read forced old =>
    obtain ⟨hlock, hclosed, hres⟩ := hok
    split_ifs at h with hset <;> cases h
    · exact hs.unlock hlock hpc (.inl rfl) rfl
    · -- a slot that was reserved is so still, for it cannot be activated now
      exact hs.setClose hpc ⟨hlock, hclosed, eq_false_of_ne_true fun hold => hset (hres hold)⟩ rfl
  case checked forced old =>
    split at h <;> cases h
    · next heq =>
      subst heq
      exact hs.close_cas hm hpc rfl
    · exact hs.setClose hpc hok.1 rfl
  case owned old release =>
    obtain ⟨hwait, h⟩ := ite_none_left_eq_some.mp h
    have hlt := hlsn rfl old release hpc
    have hend := hs.close_end hm hpc hwait
    rw [Nat.mod_eq_of_lt (show s.endOf.offset < 2 ^ 32 from hlt)] at hend
    have hnone : ∀ j release, (s.thread j).close ≠ .closed release := by
      intro j release' hj
      obtain rfl := some.inj (hok.1.symm.trans (hs.closeAt hj).1)
      simp [hpc] at hj
    have hbase := hs.setAlloc hnone s.endOf s.endOf
    rw [hend] at h
    cases h
    exact hbase.setClose hpc ⟨hok.1, hok.2.1, rfl⟩ rfl
  case closed release =>
    cases h
    refine hs.unlock hok.1 hpc ?_ ?_
    · cases release
      · exact .inl rfl
      · exact .inr rfl
    · cases release <;> rfl
  case done => cases h

/-! ### The other steps -/

/-- A free slot is activated: nothing is left of its last use. -/
lemma inv_activate (hs : s.Inv m) (hm : 2 * m ≤ slotBufSize) (h : s.activate = some t) :
    t.Inv m := by
  obtain ⟨⟨hfree, hlock⟩, h⟩ := ite_none_right_eq_some.mp h
  cases h
  rcases hs.word with ⟨r, hr⟩ | hu
  · have hnot := hr.not_reserved hs hm
    rw [hfree] at hnot
    exact absurd hnot (by decide)
  refine ⟨joinsOk_nil m, .inl rfl, .inl ⟨0, ?_, ?_, hu.completing⟩, rfl, fun j => ?_,
    fun j => ?_⟩
  · change (0 : BitVec 64) = slotWord 0 0 false
    decide
  · rw [zero_add]
    exact hu.pending
  · refine JoinPc.Ok.imp (hs.join j) fun my hmem hbytes => absurd (bytes_le_pending s j) ?_
    rw [hu.pending, hbytes, not_le]
    exact MySlot.bytes_pos (hs.joins.pos my hmem)
  · exact closeOk_of_idle_or_done ((hs.close j).idle_or_done (by rw [hlock]; simp))

lemma two_mul_slotBufMax_le (fileMax : ℕ) :
    2 * slotBufMax fileMax ≤ min (fileMax / 10) slotBufSize :=
  Nat.mul_div_le _ _

lemma slotBufMax_fits : 2 * slotBufMax fileMax ≤ slotBufSize :=
  (two_mul_slotBufMax_le fileMax).trans (min_le_right _ _)

lemma inv_step (hs : s.Inv (slotBufMax fileMax)) {a : Fin n × SlotOp} (ha : s.LsnFits a)
    (h : s.step fileMax a = some t) : t.Inv (slotBufMax fileMax) := by
  have hm := @slotBufMax_fits fileMax
  obtain ⟨i, op⟩ := a
  cases op with
  | activate => exact inv_activate hs hm h
  | others lsn =>
    obtain ⟨hlock, h⟩ := ite_none_right_eq_some.mp h
    cases h
    have hbase := hs.setAlloc (fun j release hj => ?_) lsn s.endLsn
    · exact hbase
    exact absurd (hlock.symm.trans (hs.closeAt hj).1) (by simp)
  | join size =>
    obtain ⟨⟨hpc, hpos, -⟩, h⟩ := ite_none_right_eq_some.mp h
    cases h
    exact hs.setJoin hpc hpos rfl nofun nofun
  | joinNext => exact inv_joinNext hs hm h
  | close forced =>
    obtain ⟨⟨hlock, hpc⟩, h⟩ := ite_none_right_eq_some.mp h
    cases h
    have hbase : Inv (slotBufMax fileMax) { s with lock := some i } :=
      hs.frame _ _ _ _ _ hs.unbuffered fun j =>
        closeOk_of_idle_or_done ((hs.close j).idle_or_done (by rw [hlock]; simp))
    exact hbase.setClose hpc rfl rfl
  | closeNext => exact inv_closeNext hs hm ha h
  | written closer => exact hs.finish (.inr rfl) h
  | free closer => exact hs.finish (.inl rfl) h
  | workerFree =>
    obtain ⟨hwritten, h⟩ := ite_none_right_eq_some.mp h
    cases h
    rcases hs.word with ⟨r, hr⟩ | hu
    · have hnot := hr.not_reserved hs hm
      rw [hwritten] at hnot
      exact absurd hnot (by decide)
    refine ⟨hs.joins, hs.unbuffered, .inr ⟨.inl rfl, hu.pending, hu.completing⟩, hs.seen,
      hs.join, fun j => ?_⟩
    refine (hs.close j).mono rfl (fun _ => ?_) (fun h => ⟨h, rfl⟩) ⟨rfl, rfl⟩
    change slotIsset slotFree slotReserved = true
    decide

/-! ### Runs -/

/-- No thread holds a range of the slot, and it is closed. -/
def Complete (s : LogSlot n) : Prop :=
  s.closed = true ∧ ∀ i my cur, (s.thread i).join ≠ .joined my ∧
  (s.thread i).join ≠ .filled my ∧ (s.thread i).join ≠ .lastRead my cur ∧
  (s.thread i).join ≠ .releasing my

/-- A slot of a log whose files have a maximum size. -/
structure Consolidated (fileMax : ℕ) (s : LogSlot n) : Prop where
  /-- The ranges follow one another from the start of the slot. -/
  contiguous : Tiles MySlot.offset MySlot.size 0 s.joins
  disjoint : s.joins.Pairwise fun a b => a.offset + a.size ≤ b.offset
  fits : ∀ my ∈ s.joins, my.unbuffered = false →
    my.offset + my.size ≤ min (fileMax / 10) slotBufSize
  unbuffered : (s.joins.filter MySlot.unbuffered).length ≤ 1
  /-- One thread has seen the slot become complete once it is, and none before. -/
  complete : (s.Complete → ∃ i, s.seen = [i]) ∧ (¬s.Complete → s.seen = [])
  /-- The allocation LSN when `__log_slot_close` returns. -/
  alloc : ∀ i release, (s.thread i).close = .closed release → s.allocLsn = s.endOf

lemma Inv.consolidated (hs : s.Inv (slotBufMax fileMax)) : s.Consolidated fileMax := by
  refine ⟨hs.joins.tiles, hs.joins.tiles.pairwise, fun my hmem hu => ?_, ?_, ⟨fun hc => ?_,
    fun hc => ?_⟩, fun i release hpc => ?_⟩
  · exact (hs.joins.fits my hmem hu).trans (two_mul_slotBufMax_le fileMax)
  · rw [← countP_eq_length_filter]
    exact hs.joins.count_le
  · have hseen := hs.seen
    rw [hc.1, decide_eq_true (hs.pending_eq_zero_iff.mpr hc.2)] at hseen
    exact length_eq_one_iff.mp hseen
  · have hseen := hs.seen
    have hbool : (s.closed && decide (s.pending = 0)) = false := by
      rw [eq_false_iff]
      intro h
      obtain ⟨hclosed, hzero⟩ := and_eq_true_iff.mp h
      exact hc ⟨hclosed, hs.pending_eq_zero_iff.mp (of_decide_eq_true hzero)⟩
    rw [hbool] at hseen
    exact length_eq_zero_iff.mp hseen
  · exact (hs.closeAt hpc).2.2

/-- The allocation LSN has to be an offset of 32 bits. -/
lemma lsnFits_of_consolidated (hs : s.Inv (slotBufMax fileMax)) {a : Fin n × SlotOp}
    (h : s.step fileMax a = some t) (ht : t.Consolidated fileMax) : s.LsnFits a := by
  obtain ⟨i, op⟩ := a
  rintro rfl old release hpc
  change s.closeNext i = some t at h
  unfold closeNext at h
  rw [hpc] at h
  dsimp only at h
  obtain ⟨hwait, h⟩ := ite_none_left_eq_some.mp h
  rw [hs.close_end slotBufMax_fits hpc hwait] at h
  cases h
  have halloc := ht.alloc i release
    (congrArg SlotThread.close (update_self i _ s.thread))
  have hoffset := congrArg Lsn.offset halloc
  change s.endOf.offset % 2 ^ 32 = s.endOf.offset at hoffset
  change s.endOf.offset < 2 ^ 32
  omega

/-- **Log slots are consolidated** along every interleaving of joins, releases, closes and frees,
exactly if each closing thread finds the end of the slot within the 32 bits of an LSN's offset: the
ranges are contiguous and disjoint, fit in the buffer but for at most one that is not buffered,
exactly one thread sees the slot become complete, and the allocation LSN is the start of the slot
plus the sizes of all ranges. -/
theorem slots_consolidated (n fileMax : ℕ) (alloc : Lsn) (as : List (Fin n × SlotOp)) :
    Along (step fileMax) (Consolidated fileMax) (init n alloc) as ↔
      AllSteps (step fileMax) LsnFits (init n alloc) as :=
  along_iff_allSteps (fun _ hs => hs.consolidated) (fun _ _ _ hs ha h => inv_step hs ha h)
    (fun _ _ _ hs h ht => lsnFits_of_consolidated hs h ht) (inv_init n _ alloc) as

/-- A record of almost 4 GB joins the first slot of a log file, and the slot is closed. -/
def hugeRecord : List (Fin 1 × SlotOp) :=
  [(0, .activate), (0, .join 4294967168), (0, .joinNext), (0, .joinNext), (0, .joinNext),
    (0, .close false), (0, .closeNext), (0, .closeNext), (0, .closeNext), (0, .closeNext)]

/-- The allocation LSN is then before the start of the slot. -/
theorem close_wraps_alloc_lsn :
    (run (step (100 * 1024 * 1024)) (init 1 ⟨1, 128⟩) hugeRecord).map (fun s =>
      ((s.thread 0).close, s.startLsn, joinedSize s.joins, s.allocLsn)) =
    some (.closed false, ⟨1, 128⟩, 4294967168, ⟨1, 0⟩) := by
  decide +kernel

/-- Two threads join; one closes the slot in between, and the other is the last to release. -/
def twoRecords : List (Fin 2 × SlotOp) :=
  [(0, .activate), (0, .join 256), (1, .join 128), (0, .joinNext), (1, .joinNext), (1, .joinNext),
    (0, .joinNext), (0, .joinNext), (0, .joinNext), (1, .joinNext), (0, .close false),
    (0, .closeNext), (0, .closeNext), (0, .closeNext), (0, .joinNext), (0, .joinNext),
    (0, .joinNext), (0, .joinNext), (0, .closeNext), (1, .joinNext), (1, .joinNext)]

example : (run (step (100 * 1024 * 1024)) (init 2 ⟨1, 128⟩) twoRecords).map (fun s =>
      (s.joins.map offset, s.allocLsn, s.seen)) =
    some ([0, 128], ⟨1, 512⟩, [1]) := by
  decide +kernel

end LogSlot

end WiredTiger
