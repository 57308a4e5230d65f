/-
# A reader-writer lock excludes

Every writer that has a ticket has one of its own, between the ticket that is served and the next
one; the group of readers that wait has a ticket in there, too, or the next one.  A writer that has
the lock has the ticket that is served, so that readers neither join nor are let in before it moves
the ticket on.
-/
import WiredTiger.Support.RwLock

namespace WiredTiger

open Lib Option Function RwPc

/-! ### Tickets -/

/-- How many tickets are served before this one. -/
def ticketsTo (current ticket : UInt8) : ℕ := (ticket - current).toNat

lemma ticketsTo_eq_zero {c t : UInt8} : ticketsTo c t = 0 ↔ t = c := by
  unfold ticketsTo
  rw [← UInt8.toNat_inj, UInt8.toNat_sub]
  have := t.toNat_lt
  have := c.toNat_lt
  omega

lemma toNat_ticket_succ (t : UInt8) : (t + 1).toNat = (t.toNat + 1) % 2 ^ 8 := UInt8.toNat_add t 1

lemma ticket_ne_succ (c : UInt8) : c ≠ c + 1 := by
  rw [Ne, ← UInt8.toNat_inj, toNat_ticket_succ]
  omega

/-- The next ticket is one more, unless it gets to the one that is served. -/
lemma ticketsTo_succ {c t : UInt8} (h : c ≠ t + 1) : ticketsTo c (t + 1) = ticketsTo c t + 1 := by
  unfold ticketsTo
  rw [Ne, ← UInt8.toNat_inj, toNat_ticket_succ] at h
  rw [UInt8.toNat_sub, UInt8.toNat_sub, toNat_ticket_succ]
  have := c.toNat_lt
  omega

/-- Serving a ticket is one step to those behind it. -/
lemma ticketsTo_serve {c t : UInt8} (h : t ≠ c) : ticketsTo (c + 1) t + 1 = ticketsTo c t := by
  unfold ticketsTo
  rw [Ne, ← UInt8.toNat_inj] at h
  rw [UInt8.toNat_sub, UInt8.toNat_sub, toNat_ticket_succ]
  have := t.toNat_lt
  have := c.toNat_lt
  omega

namespace RwPc

/-- The thread waits in the group of readers that is not in yet. -/
def queued (current : UInt8) : RwPc → Bool
  | .readWait ticket => ticket ≠ current
  | _ => false

/-- The ticket of a writer.  Who has the lock has the one that is served. -/
def writerTicket (current : UInt8) : RwPc → Option UInt8
  | .writeWait ticket => some ticket
  | .writing | .writeUnlockTop | .writeUnlock _ => some current
  | _ => none

/-- What has been checked of the word before a compare-and-swap. -/
def Checked : RwPc → Prop
  | .tryRead old | .readJoin old => old.current = old.next ∧ old.addReader.readersActive ≠ 0
  | .readQueue old => old.current ≠ old.next ∧ old.readersQueued ≠ 255
  | .tryWrite old => old.current = old.next ∧ old.readersActive = 0
  | .writeTake old => old.current ≠ old.next + 1
  | _ => True

/-- What holds of each thread. -/
structure Fits (l : LockWord) (x : RwPc) : Prop where
  checked : x.Checked
  wait : ∀ t, x = .readWait t → t = l.current ∨ t = l.reader
  ticket : ∀ t, x.writerTicket l.current = some t →
    ticketsTo l.current t < ticketsTo l.current l.next
  alone : x.holdsWrite = true → l.readersActive = 0

end RwPc

namespace RwState

variable {n : ℕ} {x y : RwPc}

/-- What holds after every step. -/
structure Inv (s : RwState n) : Prop where
  fits : ∀ i, (s.pc i).Fits s.lock
  distinct : ∀ i j t, i ≠ j → (s.pc i).writerTicket s.lock.current = some t →
    (s.pc j).writerTicket s.lock.current ≠ some t
  active : s.lock.readersActive.toNat = countAt (holdsRead s.lock.current) s.pc
  queued : s.lock.readersQueued.toNat = countAt (queued s.lock.current) s.pc
  /-- Readers that wait have a ticket behind the one that is served, up to the next one. -/
  group : s.lock.readersQueued ≠ 0 → 0 < ticketsTo s.lock.current s.lock.reader ∧
    ticketsTo s.lock.current s.lock.reader ≤ ticketsTo s.lock.current s.lock.next

lemma inv_init (n : ℕ) : (init n).Inv where
  fits _ := ⟨trivial, nofun, nofun, nofun⟩
  distinct _ _ _ _ h := by cases h
  active := (countAt_eq_zero_iff.mpr fun _ => rfl).symm
  queued := (countAt_eq_zero_iff.mpr fun _ => rfl).symm
  group h := absurd rfl h

variable {s : RwState n} {i : Fin n}

/-- A step that serves no ticket: it changes the word and the place of one thread. -/
lemma Inv.set (h : s.Inv) {l : LockWord} (hcurrent : l.current = s.lock.current)
    (hself : x.Fits l) (hother : ∀ j ≠ i, (s.pc j).Fits s.lock → (s.pc j).Fits l)
    (hticket : ∀ t, x.writerTicket s.lock.current = some t →
      ∀ j ≠ i, (s.pc j).writerTicket s.lock.current ≠ some t)
    (hactive : l.readersActive.toNat + ((s.pc i).holdsRead s.lock.current).toNat =
      s.lock.readersActive.toNat + (x.holdsRead s.lock.current).toNat)
    (hqueued : l.readersQueued.toNat + ((s.pc i).queued s.lock.current).toNat =
      s.lock.readersQueued.toNat + (x.queued s.lock.current).toNat)
    (hgroup : l.readersQueued ≠ 0 → 0 < ticketsTo l.current l.reader ∧
      ticketsTo l.current l.reader ≤ ticketsTo l.current l.next) :
    (s.set i l x).Inv where
  fits j := by
    show (update s.pc i x j).Fits l
    rcases eq_or_ne j i with rfl | hj
    · rwa [update_self]
    · rw [update_of_ne hj]
      exact hother j hj (h.fits j)
  distinct j k t hjk hj₀ hk₀ := by
    have hj : (update s.pc i x j).writerTicket s.lock.current = some t := hcurrent ▸ hj₀
    have hk : (update s.pc i x k).writerTicket s.lock.current = some t := hcurrent ▸ hk₀
    rcases eq_or_ne j i with rfl | hji
    · rw [update_self] at hj
      rw [update_of_ne hjk.symm] at hk
      exact hticket t hj k hjk.symm hk
    · rw [update_of_ne hji] at hj
      rcases eq_or_ne k i with rfl | hki
      · rw [update_self] at hk
        exact hticket t hk j hji hj
      · rw [update_of_ne hki] at hk
        exact h.distinct j k t hjk hj hk
  active := by
    have hcount := countAt_update (RwPc.holdsRead s.lock.current) s.pc i x
    have := h.active
    show l.readersActive.toNat = countAt (RwPc.holdsRead l.current) (update s.pc i x)
    rw [hcurrent]
    omega
  queued := by
    have hcount := countAt_update (RwPc.queued s.lock.current) s.pc i x
    have := h.queued
    show l.readersQueued.toNat = countAt (RwPc.queued l.current) (update s.pc i x)
    rw [hcurrent]
    omega
  group := hgroup

section

variable (h : s.Inv) (hpc : s.pc i = y)
include h hpc

/-- A step that leaves the word, and what the thread has and waits for. -/
lemma Inv.quiet (hself : x.Fits s.lock)
    (hticket : x.writerTicket s.lock.current = y.writerTicket s.lock.current)
    (hread : x.holdsRead s.lock.current = y.holdsRead s.lock.current)
    (hqueued : x.queued s.lock.current = y.queued s.lock.current) : (s.set i s.lock x).Inv := by
  subst hpc
  refine h.set rfl hself (fun _ _ => id) (fun t ht j hj => ?_) (by rw [hread]) (by rw [hqueued])
    h.group
  exact h.distinct i j t hj.symm (hticket ▸ ht)

omit h hpc in
/-- No writer has a ticket if the next ticket is the one that is served. -/
lemma Inv.no_writer (h : s.Inv) (hfree : s.lock.current = s.lock.next) (j : Fin n) :
    (s.pc j).writerTicket s.lock.current = none := by
  cases ht : (s.pc j).writerTicket s.lock.current with
  | none => rfl
  | some t =>
    have := (h.fits j).ticket t ht
    rw [← hfree, ticketsTo_eq_zero.mpr rfl] at this
    omega

omit h hpc in
lemma holdsWrite_ticket (h : x.holdsWrite = true) (c : UInt8) :
    x.writerTicket c = some c := by
  cases x <;> first | rfl | cases h

omit h hpc in
/-- There is a reader in if a thread has the shared lock. -/
lemma Inv.active_pos (h : s.Inv) (hread : (s.pc i).holdsRead s.lock.current = true) :
    0 < s.lock.readersActive.toNat := by
  rw [h.active]
  refine Nat.pos_of_ne_zero fun hzero => ?_
  have := countAt_eq_zero_iff.mp hzero i
  rw [hread] at this
  cases this

/-- A reader leaves. -/
lemma Inv.dropReader (hread : y.holdsRead s.lock.current = true)
    (hqueued : y.queued s.lock.current = false) : (s.set i s.lock.dropReader .idle).Inv := by
  subst hpc
  have hpos := h.active_pos hread
  have hdrop : s.lock.dropReader.readersActive.toNat + 1 = s.lock.readersActive.toNat := by
    show (s.lock.readersActive - 1).toNat + 1 = _
    rw [UInt32.toNat_sub]
    have := s.lock.readersActive.toNat_lt
    have : (1 : UInt32).toNat = 1 := rfl
    omega
  refine h.set rfl ⟨trivial, nofun, nofun, nofun⟩ ?_ nofun ?_ ?_ h.group
  · intro j _ hfits
    refine ⟨hfits.checked, hfits.wait, hfits.ticket, fun hwrite => ?_⟩
    have := hfits.alone hwrite
    rw [this] at hpos
    cases hpos
  · rw [hread, ← hdrop]
    rfl
  · rw [hqueued]
    rfl

variable (hread : y.holdsRead s.lock.current = false) (hqueued : y.queued s.lock.current = false)
include hread hqueued

/-- A reader comes in. -/
lemma Inv.addReader (hfree : s.lock.current = s.lock.next)
    (hmax : s.lock.addReader.readersActive ≠ 0) : (s.set i s.lock.addReader .reading).Inv := by
  subst hpc
  have hadd : s.lock.addReader.readersActive.toNat = s.lock.readersActive.toNat + 1 := by
    have hne : s.lock.readersActive + 1 ≠ 0 := hmax
    rw [Ne, ← UInt32.toNat_inj, UInt32.toNat_add] at hne
    show (s.lock.readersActive + 1).toNat = _
    rw [UInt32.toNat_add]
    have := s.lock.readersActive.toNat_lt
    have : (1 : UInt32).toNat = 1 := rfl
    have : (0 : UInt32).toNat = 0 := rfl
    omega
  refine h.set rfl ⟨trivial, nofun, nofun, nofun⟩ ?_ nofun ?_ ?_ h.group
  · intro j _ hfits
    refine ⟨hfits.checked, hfits.wait, hfits.ticket, fun hwrite => ?_⟩
    have := h.no_writer hfree j
    rw [holdsWrite_ticket hwrite] at this
    cases this
  · rw [hadd, hread]
    rfl
  · rw [hqueued]
    rfl

/-- A reader queues. -/
lemma Inv.queueReader (hbusy : s.lock.current ≠ s.lock.next) (hmax : s.lock.readersQueued ≠ 255) :
    (s.set i s.lock.queueReader (.readWait s.lock.queueReader.reader)).Inv := by
  subst hpc
  have hadd : s.lock.queueReader.readersQueued.toNat = s.lock.readersQueued.toNat + 1 := by
    show (s.lock.readersQueued + 1).toNat = _
    rw [Ne, ← UInt8.toNat_inj] at hmax
    rw [toNat_ticket_succ]
    have := s.lock.readersQueued.toNat_lt
    have : (255 : UInt8).toNat = 255 := rfl
    omega
  -- the ticket of the group is the next one if this is its first reader
  have hgroup : 0 < ticketsTo s.lock.current s.lock.queueReader.reader ∧
      ticketsTo s.lock.current s.lock.queueReader.reader ≤
        ticketsTo s.lock.current s.lock.next := by
    unfold LockWord.queueReader
    split_ifs with hzero
    · refine ⟨Nat.pos_of_ne_zero fun hz => hbusy ?_, le_rfl⟩
      exact (ticketsTo_eq_zero.mp hz).symm
    · exact h.group hzero
  have hne : s.lock.queueReader.reader ≠ s.lock.current := by
    intro heq
    rw [ticketsTo_eq_zero.mpr heq] at hgroup
    omega
  refine h.set rfl ⟨trivial, ?_, nofun, nofun⟩ ?_ nofun ?_ ?_ fun _ => hgroup
  · rintro t ⟨rfl⟩
    exact .inr rfl
  · intro j _ hfits
    refine ⟨hfits.checked, fun t ht => ?_, hfits.ticket, hfits.alone⟩
    rcases eq_or_ne t s.lock.current with heq | hcur
    · exact .inl heq
    · refine .inr ?_
      have hreader : t = s.lock.reader := (hfits.wait t ht).resolve_left hcur
      have hpos : s.lock.readersQueued ≠ 0 := by
        intro hzero
        have hcount := h.queued
        rw [hzero] at hcount
        have := countAt_eq_zero_iff.mp hcount.symm j
        rw [ht] at this
        exact absurd (of_decide_eq_false this) (not_not.mpr hcur)
      show t = if s.lock.readersQueued = 0 then _ else _
      rw [if_neg hpos, hreader]
  · rw [hread]
    show s.lock.readersActive.toNat + _ = s.lock.readersActive.toNat +
      (decide (s.lock.queueReader.reader = s.lock.current)).toNat
    rw [decide_eq_false hne]
  · rw [hadd, hqueued]
    show _ = s.lock.readersQueued.toNat +
      (decide (s.lock.queueReader.reader ≠ s.lock.current)).toNat
    rw [decide_eq_true hne]
    rfl

/-- A writer takes a ticket, and with it the lock if that is how it looked. -/
lemma Inv.takeTicket (hroom : s.lock.current ≠ s.lock.next + 1) (hchecked : x.Checked)
    (hx : x.writerTicket s.lock.current = some s.lock.next) (hwait : ∀ t, x ≠ .readWait t)
    (halone : x.holdsWrite = true → s.lock.readersActive = 0)
    (hxread : x.holdsRead s.lock.current = false) (hxqueued : x.queued s.lock.current = false) :
    (s.set i s.lock.takeTicket x).Inv := by
  subst hpc
  have hnext := ticketsTo_succ hroom
  refine h.set rfl ⟨hchecked, fun t ht => absurd ht (hwait t), ?_, halone⟩ ?_ ?_ ?_ ?_ ?_
  · intro t ht
    obtain rfl := some.inj (hx.symm.trans ht)
    show ticketsTo s.lock.current s.lock.next < ticketsTo s.lock.current (s.lock.next + 1)
    omega
  · intro j _ hfits
    refine ⟨hfits.checked, hfits.wait, fun t ht => ?_, hfits.alone⟩
    have := hfits.ticket t ht
    show ticketsTo s.lock.current t < ticketsTo s.lock.current (s.lock.next + 1)
    omega
  · intro t ht j _ hj
    obtain rfl := some.inj (hx.symm.trans ht)
    exact lt_irrefl _ ((h.fits j).ticket _ hj)
  · rw [hread, hxread]
    rfl
  · rw [hqueued, hxqueued]
    rfl
  · intro hpos
    obtain ⟨hgt, hle⟩ := h.group hpos
    refine ⟨hgt, ?_⟩
    show ticketsTo s.lock.current s.lock.reader ≤ ticketsTo s.lock.current (s.lock.next + 1)
    omega

end

/-! ### Serving the next ticket -/

section Serve

variable (h : s.Inv) (hwrite : (s.pc i).holdsWrite = true)

include h hwrite

/-- Nobody has the shared lock while a writer has the lock. -/
lemma Inv.no_reader (j : Fin n) : (s.pc j).holdsRead s.lock.current = false := by
  refine countAt_eq_zero_iff.mp ?_ j
  rw [← h.active, (h.fits i).alone hwrite]
  rfl

/-- Readers that wait are in the group. -/
lemma Inv.wait_reader {j : Fin n} {t : UInt8} (hj : s.pc j = .readWait t) :
    t = s.lock.reader ∧ t ≠ s.lock.current := by
  have hne : t ≠ s.lock.current := by
    have := h.no_reader hwrite j
    rw [hj] at this
    exact of_decide_eq_false this
  exact ⟨((h.fits j).wait t hj).resolve_left hne, hne⟩

/-- Other writers have tickets behind the one that is served, and wait. -/
lemma Inv.other_writer {j : Fin n} (hji : j ≠ i) {c t : UInt8}
    (hj : (s.pc j).writerTicket c = some t) :
    s.pc j = .writeWait t ∧ t ≠ s.lock.current := by
  have hother : (s.pc j).writerTicket s.lock.current ≠ some s.lock.current :=
    h.distinct i j _ hji.symm (holdsWrite_ticket hwrite _)
  have hnot : (s.pc j).holdsWrite ≠ true := fun hw => hother (holdsWrite_ticket hw _)
  have hwait : s.pc j = .writeWait t := by
    cases hpc : s.pc j
    case writeWait t' =>
      rw [hpc] at hj
      exact congrArg _ (some.inj hj)
    all_goals
      rw [hpc] at hj hnot
      first
        | exact absurd rfl hnot
        | cases hj
  refine ⟨hwait, ?_⟩
  rintro rfl
  rw [hwait] at hother
  exact hother rfl

lemma Inv.next_ne : s.lock.next ≠ s.lock.current := by
  intro heq
  have := (h.fits i).ticket _ (holdsWrite_ticket hwrite _)
  rw [heq] at this
  exact lt_irrefl _ this

/-- Readers of the group are in if its ticket is served. -/
lemma Inv.holdsRead_serve (j : Fin n) : (s.pc j).holdsRead (s.lock.current + 1) =
    (decide (s.lock.current + 1 = s.lock.reader) && (s.pc j).queued s.lock.current) := by
  have hno := h.no_reader hwrite j
  cases hpc : s.pc j
  case readWait t =>
    obtain ⟨rfl, hne⟩ := h.wait_reader hwrite hpc
    show decide (s.lock.reader = s.lock.current + 1) =
      (decide (s.lock.current + 1 = s.lock.reader) && decide (s.lock.reader ≠ s.lock.current))
    rw [decide_eq_true hne, Bool.and_true, decide_eq_decide]
    exact eq_comm
  all_goals
    rw [hpc] at hno
    first
      | exact (Bool.and_false _).symm
      | cases hno

/-- The other ones still wait. -/
lemma Inv.queued_serve (j : Fin n) : (s.pc j).queued (s.lock.current + 1) =
    (!decide (s.lock.current + 1 = s.lock.reader) && (s.pc j).queued s.lock.current) := by
  cases hpc : s.pc j
  case readWait t =>
    obtain ⟨rfl, hne⟩ := h.wait_reader hwrite hpc
    show decide (s.lock.reader ≠ s.lock.current + 1) =
      (!decide (s.lock.current + 1 = s.lock.reader) && decide (s.lock.reader ≠ s.lock.current))
    rw [decide_eq_true hne, Bool.and_true, decide_not]
    exact congrArg _ (decide_eq_decide.mpr eq_comm)
  all_goals exact (Bool.and_false _).symm

/-- A writer serves the next ticket. -/
lemma Inv.nextBatch : (s.set i s.lock.nextBatch .idle).Inv := by
  have hcurrent : s.lock.nextBatch.current = s.lock.current + 1 := by
    unfold LockWord.nextBatch
    split_ifs <;> rfl
  have hsame : s.lock.nextBatch.next = s.lock.next ∧ s.lock.nextBatch.reader = s.lock.reader := by
    unfold LockWord.nextBatch
    split_ifs <;> exact ⟨rfl, rfl⟩
  have hnext := ticketsTo_serve (h.next_ne hwrite)
  have hzero := (h.fits i).alone hwrite
  have hpc : ∀ p : RwPc → Bool, p .idle = false → p (s.pc i) = false →
      countAt p (update s.pc i .idle) = countAt p s.pc := by
    intro p hidle hi
    have := countAt_update p s.pc i .idle
    rw [hidle, hi] at this
    exact this
  have hiread := h.holdsRead_serve hwrite i
  have hiqueued : (s.pc i).queued s.lock.current = false := by
    cases hi : s.pc i <;> rw [hi] at hwrite <;> first | rfl | cases hwrite
  rw [hiqueued, Bool.and_false] at hiread
  have hiqueued' := h.queued_serve hwrite i
  rw [hiqueued, Bool.and_false] at hiqueued'
  refine ⟨fun j => ?_, fun j k t hjk hj hk => ?_, ?_, ?_, ?_⟩
  · show (update s.pc i .idle j).Fits s.lock.nextBatch
    rcases eq_or_ne j i with rfl | hji
    · rw [update_self]
      exact ⟨trivial, nofun, nofun, nofun⟩
    · rw [update_of_ne hji]
      refine ⟨(h.fits j).checked, fun t ht => ?_, fun t ht => ?_, fun hw => ?_⟩
      · rw [hsame.2]
        exact .inr (h.wait_reader hwrite ht).1
      · obtain ⟨hj, hne⟩ := h.other_writer hwrite hji ht
        have hlt := (h.fits j).ticket t (by rw [hj]; rfl)
        have := ticketsTo_serve hne
        rw [hcurrent, hsame.1]
        omega
      · have := h.other_writer hwrite hji (holdsWrite_ticket hw s.lock.current)
        exact absurd rfl this.2
  · have hwaits : ∀ k, (update s.pc i .idle k).writerTicket
        s.lock.nextBatch.current = some t → k ≠ i ∧ s.pc k = .writeWait t := by
      intro k hk
      rcases eq_or_ne k i with rfl | hki
      · rw [update_self] at hk
        cases hk
      · rw [update_of_ne hki] at hk
        exact ⟨hki, (h.other_writer hwrite hki hk).1⟩
    have hj := (hwaits j hj).2
    have hk := (hwaits k hk).2
    exact h.distinct j k t hjk (by rw [hj]; rfl) (by rw [hk]; rfl)
  · show _ = countAt (RwPc.holdsRead s.lock.nextBatch.current) (update s.pc i .idle)
    rw [hcurrent, hpc _ rfl hiread]
    have hcount := h.queued
    unfold LockWord.nextBatch
    split_ifs with hserve
    · refine (UInt8.toNat_toUInt32 _).trans (hcount.trans ?_)
      refine countAt_congr fun j => ?_
      rw [h.holdsRead_serve hwrite j, decide_eq_true hserve, Bool.true_and]
    · rw [hzero]
      refine (countAt_eq_zero_iff.mpr fun j => ?_).symm
      rw [h.holdsRead_serve hwrite j, decide_eq_false hserve, Bool.false_and]
  · show _ = countAt (RwPc.queued s.lock.nextBatch.current) (update s.pc i .idle)
    rw [hcurrent, hpc _ rfl hiqueued']
    have hcount := h.queued
    unfold LockWord.nextBatch
    split_ifs with hserve
    · refine (countAt_eq_zero_iff.mpr fun j => ?_).symm
      rw [h.queued_serve hwrite j, decide_eq_true hserve]
      rfl
    · refine hcount.trans (countAt_congr fun j => ?_)
      rw [h.queued_serve hwrite j, decide_eq_false hserve]
      rfl
  · show s.lock.nextBatch.readersQueued ≠ 0 →
      0 < ticketsTo s.lock.nextBatch.current s.lock.nextBatch.reader ∧
        ticketsTo s.lock.nextBatch.current s.lock.nextBatch.reader ≤
          ticketsTo s.lock.nextBatch.current s.lock.nextBatch.next
    rw [hcurrent, hsame.1, hsame.2]
    unfold LockWord.nextBatch
    split_ifs with hserve
    · exact fun hpos => absurd rfl hpos
    · intro hpos
      obtain ⟨hgt, hle⟩ := h.group hpos
      have hne : s.lock.reader ≠ s.lock.current := by
        intro heq
        rw [ticketsTo_eq_zero.mpr heq] at hgt
        exact lt_irrefl _ hgt
      have hstep := ticketsTo_serve hne
      have hne' : ticketsTo (s.lock.current + 1) s.lock.reader ≠ 0 := fun hz =>
        hserve (ticketsTo_eq_zero.mp hz).symm
      omega

end Serve

/-! ### Every step -/

/-- The thread has nothing of the lock. -/
def Plain : RwPc → Bool
  | .idle | .tryReadTop | .tryRead _ | .readTop | .readJoin _ | .readQueue _ | .tryWriteTop
  | .tryWrite _ | .writeTop | .writeTake _ => true
  | _ => false

lemma plain_facts (h : Plain x = true) (c : UInt8) : x.writerTicket c = none ∧
    x.holdsRead c = false ∧ x.queued c = false ∧ x.holdsWrite = false ∧ ∀ t, x ≠ .readWait t := by
  cases x <;> first | exact ⟨rfl, rfl, rfl, rfl, nofun⟩ | cases h

/-- A step between places where the thread has nothing of the lock. -/
lemma Inv.plain (h : s.Inv) (hpc : s.pc i = y) (hy : Plain y = true) (hx : Plain x = true)
    (hchecked : x.Checked) : (s.set i s.lock x).Inv := by
  obtain ⟨hticket, hread, hqueued, -⟩ := plain_facts hy s.lock.current
  obtain ⟨hxticket, hxread, hxqueued, hxwrite, hxwait⟩ := plain_facts hx s.lock.current
  refine h.quiet hpc ⟨hchecked, fun t ht => absurd ht (hxwait t), fun t ht => ?_, fun hw => ?_⟩
    (hxticket.trans hticket.symm) (hxread.trans hread.symm) (hxqueued.trans hqueued.symm)
  · rw [hxticket] at ht
    cases ht
  · rw [hxwrite] at hw
    cases hw

lemma Inv.call (h : s.Inv) {c : RwCall} (hx : c.start (s.pc i) = some x) :
    (s.set i s.lock x).Inv := by
  have hfits := h.fits i
  cases hpc : s.pc i <;> cases c <;> rw [hpc] at hx <;> cases hx
  all_goals
    rw [hpc] at hfits
    exact h.quiet hpc ⟨trivial, nofun, hfits.ticket, hfits.alone⟩ rfl rfl rfl

/-- A compare-and-swap takes place on the word that was read, or leaves the word. -/
lemma inv_casWord {old new : LockWord} {ok fail : RwPc}
    (hok : s.lock = old → (s.set i new ok).Inv) (hfail : (s.set i s.lock fail).Inv) :
    (s.set i (casWord s.lock old new ok fail).1 (casWord s.lock old new ok fail).2).Inv := by
  unfold casWord
  split_ifs with heq
  · exact hok heq
  · exact hfail

lemma Inv.advance (h : s.Inv) {lx : LockWord × RwPc}
    (hx : (s.pc i).advance s.lock = some lx) : (s.set i lx.1 lx.2).Inv := by
  have hfits := h.fits i
  cases hpc : s.pc i <;> rw [hpc] at hx hfits
  case idle | reading | writing => cases hx
  case tryReadTop =>
    dsimp only [RwPc.advance] at hx
    split_ifs at hx with hbusy hmax <;> cases hx
    · exact h.plain hpc rfl rfl trivial
    · exact h.plain hpc rfl rfl trivial
    · exact h.plain hpc rfl rfl ⟨not_not.mp hbusy, hmax⟩
  case readTop =>
    dsimp only [RwPc.advance] at hx
    split_ifs at hx with hfree hmax hfull <;> cases hx
    · exact h.plain hpc rfl rfl trivial
    · exact h.plain hpc rfl rfl ⟨hfree, hmax⟩
    · exact h.plain hpc rfl rfl trivial
    · refine h.plain hpc rfl rfl ⟨hfree, fun hmax => hfull ?_⟩
      exact decide_eq_true (.inl hmax)
  case tryRead old | readJoin old =>
    cases hx
    refine inv_casWord ?_ (h.plain hpc rfl rfl trivial)
    rintro rfl
    exact h.addReader hpc rfl rfl hfits.checked.1 hfits.checked.2
  case readQueue old =>
    cases hx
    refine inv_casWord ?_ (h.plain hpc rfl rfl trivial)
    rintro rfl
    exact h.queueReader hpc rfl rfl hfits.checked.1 hfits.checked.2
  case readWait ticket =>
    dsimp only [RwPc.advance] at hx
    split_ifs at hx with hwait <;> cases hx
    · exact h.quiet hpc hfits rfl rfl rfl
    · obtain rfl := not_not.mp hwait
      refine h.quiet hpc ⟨trivial, nofun, nofun, nofun⟩ rfl ?_ ?_
      · exact (decide_eq_true rfl).symm
      · exact (decide_eq_false (not_not.mpr rfl)).symm
  case readUnlockTop =>
    cases hx
    exact h.quiet hpc ⟨trivial, nofun, nofun, nofun⟩ rfl rfl rfl
  case readUnlock old =>
    cases hx
    refine inv_casWord ?_ ?_
    · rintro rfl
      exact h.dropReader hpc rfl rfl
    · exact h.quiet hpc ⟨trivial, nofun, nofun, nofun⟩ rfl rfl rfl
  case tryWriteTop =>
    dsimp only [RwPc.advance] at hx
    split_ifs at hx with hbusy <;> cases hx
    · exact h.plain hpc rfl rfl trivial
    · obtain ⟨hfree, hactive⟩ := not_or.mp hbusy
      exact h.plain hpc rfl rfl ⟨not_not.mp hfree, not_not.mp hactive⟩
  case tryWrite old =>
    cases hx
    refine inv_casWord ?_ (h.plain hpc rfl rfl trivial)
    rintro rfl
    obtain ⟨hfree, hactive⟩ := hfits.checked
    exact h.takeTicket hpc rfl rfl (hfree ▸ ticket_ne_succ _) trivial (congrArg some hfree) nofun
      (fun _ => hactive) rfl rfl
  case writeTop =>
    dsimp only [RwPc.advance] at hx
    split_ifs at hx with hfull <;> cases hx
    · exact h.plain hpc rfl rfl trivial
    · exact h.plain hpc rfl rfl hfull
  case writeTake old =>
    cases hx
    refine inv_casWord ?_ (h.plain hpc rfl rfl trivial)
    rintro rfl
    exact h.takeTicket hpc rfl rfl hfits.checked trivial rfl nofun nofun rfl rfl
  case writeWait ticket =>
    dsimp only [RwPc.advance] at hx
    split_ifs at hx with hwait <;> cases hx
    · exact h.quiet hpc hfits rfl rfl rfl
    · obtain ⟨hticket, hactive⟩ := not_or.mp hwait
      obtain rfl := not_not.mp hticket
      exact h.quiet hpc ⟨trivial, nofun, hfits.ticket, fun _ => not_not.mp hactive⟩ rfl rfl rfl
  case writeUnlockTop =>
    cases hx
    exact h.quiet hpc ⟨trivial, nofun, hfits.ticket, hfits.alone⟩ rfl rfl rfl
  case writeUnlock old =>
    cases hx
    refine inv_casWord ?_ ?_
    · rintro rfl
      exact h.nextBatch (by rw [hpc]; rfl)
    · exact h.quiet hpc ⟨trivial, nofun, hfits.ticket, hfits.alone⟩ rfl rfl rfl

lemma inv_step {a : Fin n × RwAction} {s' : RwState n} (h : s.Inv) (hstep : s.step a = some s') :
    s'.Inv := by
  obtain ⟨i, c | -⟩ := a
  · obtain ⟨x, hx, rfl⟩ := map_eq_some_iff.mp hstep
    exact h.call hx
  · obtain ⟨lx, hlx, rfl⟩ := map_eq_some_iff.mp hstep
    exact h.advance hlx

/-- **In every interleaving of any number of threads, a thread that has the exclusive lock has it
alone, and the number of readers in the word is the number of threads that have the shared lock.**
-/
theorem rwlock_excludes {as : List (Fin n × RwAction)} {s : RwState n}
    (hrun : run step (init n) as = some s) :
    (∀ i j, (s.pc i).holdsWrite = true → (s.pc j).holdsWrite = true → i = j) ∧
      (∀ i j, (s.pc i).holdsWrite = true → (s.pc j).holdsRead s.lock.current = false) ∧
      s.lock.readersActive.toNat = s.readers := by
  have h : s.Inv := run_invariant (fun _ _ _ h hs => inv_step h hs) (inv_init n) hrun
  refine ⟨fun i j hi hj => ?_, fun i j hi => h.no_reader hi j, h.active⟩
  by_contra hne
  exact h.distinct i j _ hne (holdsWrite_ticket hi s.lock.current)
    (holdsWrite_ticket hj s.lock.current)

/-- A writer gets the lock, a reader queues, and the writer lets it in. -/
def handover : List (Fin 2 × RwAction) :=
  [(0, .call .writelock), (0, .advance), (0, .advance), (0, .advance), (1, .call .readlock),
    (1, .advance), (1, .advance), (0, .call .writeunlock), (0, .advance), (0, .advance)]

theorem rwlock_excludes_handover :
    ∃ s : RwState 2, run step (init 2) handover = some s ∧ s.lock.readersActive = 1 ∧
      s.lock.readersActive.toNat = s.readers :=
  ⟨_, rfl, rfl, (@rwlock_excludes 2 handover _ rfl).2.2⟩

/-- What the word says of the threads that wait. -/
structure WaitersOk (s : RwState n) : Prop where
  queued : s.lock.readersQueued.toNat = countAt (RwPc.queued s.lock.current) s.pc
  reader : ∀ i t, s.pc i = .readWait t → t ≠ s.lock.current → t = s.lock.reader ∧
    ticketsTo s.lock.current t ≤ ticketsTo s.lock.current s.lock.next
  writer : ∀ i j t, s.pc i = .writeWait t → (s.pc j).writerTicket s.lock.current = some t → i = j

/-- **Tickets are not mixed up**, in any interleaving of any number of threads, also when they wrap:
readers wait for the ticket of their group, no later than the next one, and every writer for a
ticket of its own. -/
theorem rwlock_waiters (as : List (Fin n × RwAction)) : Along step WaitersOk (init n) as := by
  refine (along_of_invariant (fun _ _ _ => inv_step) (inv_init n) as).mono fun s h => ?_
  refine ⟨h.queued, fun i t hi hne => ?_, fun i j t hi hj => ?_⟩
  · obtain rfl := ((h.fits i).wait t hi).resolve_left hne
    refine ⟨rfl, (h.group fun hzero => ?_).2⟩
    -- this thread is counted
    have hcount := h.queued
    rw [hzero] at hcount
    have hnot := countAt_eq_zero_iff.mp hcount.symm i
    simp [hi, RwPc.queued, hne] at hnot
  · by_contra hij
    exact h.distinct i j t hij (by rw [hi]; rfl) hj

end RwState

end WiredTiger
