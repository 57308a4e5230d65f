/-
# The invariant of the versions of a key

In every reachable world each update fits the phase of its transaction, no version stands on top of
one whose transaction may still roll back, and every version's transaction sees all versions below
it.  A conflict check that passed stays good as long as the head of the chain does not move.
-/
import WiredTiger.Txn.SnapshotInv

namespace WiredTiger

open Lib List Bool World

variable {f : ℕ} {txns : List Txn} {x : Txn} {u v : Update} {tw : Option TimeWindow} {n : Update}

/-! ### What the checks say -/

/-- The version a time window tells of: its stop, if it has one. -/
def TimeWindow.newest (tw : TimeWindow) : ℕ × ℕ :=
  if tw.hasStop then (tw.stopTxn, tw.stopTs) else (tw.startTxn, tw.startTs)

lemma World.modifyCheck_eq (w : World) (hiso : x.view.isolation = .snapshot) :
    w.modifyCheck x = modifyCheckChain x.view w.cellTimeWindow w.updates :=
  if_neg (by simp [hiso])

lemma txnUpdVisibleType_eq_true {w : View}
    (h : txnUpdVisibleType w n = .ok .true) :
    txnVisible w n.txnid n.startTs = true ∧ n.prepare ≠ .locked ∧ n.prepare ≠ .inprogress := by
  simp only [txnUpdVisibleType] at h
  split_ifs at h with hlocked hvis hprep
  · cases h
  · cases h
  · exact ⟨by simpa using hvis, hlocked, hprep⟩

/-- What a snapshot transaction sees is its own, or its snapshot shows it. -/
lemma txnVisible_id {w : View} {id ts : ℕ} (hiso : w.isolation = .snapshot)
    (h : txnVisible w id ts = true) :
    id = txnNone ∨ id = w.id ∨ txnVisibleIdSnapshot id w.snap = true := by
  simp only [txnVisible, txnVisibleId, hiso] at h
  split_ifs at h <;> simp_all

lemma txnVisible_ne_aborted {w : View} {id ts : ℕ} (h : txnVisible w id ts = true) :
    id ≠ txnAborted := by
  rintro rfl
  simp [txnVisible, txnVisibleId, txnNone, txnAborted] at h

/-- A conflict check goes on behind an update that is rolled back, and passes at one that the
transaction sees. -/
lemma modifyCheckChain_cons {w : View} {next : List Update} :
    modifyCheckChain w tw (u :: next) = .ok true ↔ txnUpdVisibleType w u = .ok .true ∨
      (u.txnid = txnAborted ∧ u.prepare ≠ .locked ∧ modifyCheckChain w tw next = .ok true) := by
  rw [modifyCheckChain]
  by_cases hlocked : u.prepare = .locked
  · simp [txnUpdVisibleType, hlocked]
  rw [txnUpdVisibleType, if_neg hlocked]
  by_cases hab : u.txnid = txnAborted
  · have hvis : txnVisible w u.txnid u.startTs = false := by
      simp [txnVisible, txnVisibleId, hab, txnNone, txnAborted]
    simp [hab ▸ hvis, hab, hlocked]
  · rcases (if !txnVisible w u.txnid u.startTs then _ else _ : VisibleType) <;> simp [hab]

/-- A conflict check passes on the first update that is not rolled back, or on the page. -/
lemma modifyCheckChain_pass {w : View} {chain : List Update}
    (h : modifyCheckChain w tw chain = .ok true) :
    (∃ A n B, chain = A ++ n :: B ∧ (∀ a ∈ A, a.txnid = txnAborted) ∧
        txnUpdVisibleType w n = .ok .true) ∨
      ((∀ a ∈ chain, a.txnid = txnAborted) ∧
        ∀ t, tw = some t → txnVisible w t.newest.1 t.newest.2 = true) := by
  induction chain with
  | nil =>
    refine .inr ⟨by simp, ?_⟩
    rintro t rfl
    simp only [modifyCheckChain, Except.ok.injEq] at h
    rw [TimeWindow.newest]
    split_ifs at h ⊢ with hstop
    · simp only [txnTwStopVisible, and_eq_true] at h
      exact h.2
    · simp only [txnTwStartVisible, and_eq_true] at h
      exact h.2
  | cons upd next ih =>
    rcases modifyCheckChain_cons.mp h with hvis | ⟨hab, -, hnext⟩
    · exact .inl ⟨[], upd, next, rfl, by simp, hvis⟩
    rcases ih hnext with ⟨A, n, B, rfl, hA, hn⟩ | ⟨hall, htw⟩
    · refine .inl ⟨upd :: A, n, B, rfl, ?_, hn⟩
      simpa [hab] using hA
    · refine .inr ⟨?_, htw⟩
      simpa [hab] using hall

section

variable {chain : List Update} {w : View} (hpass : modifyCheckChain w tw chain = .ok true)
include hpass

/-- Nothing but updates that are in the way of a conflict check changes, so the check that passed
still does. -/
lemma modifyCheckChain_changed {chain' : List Update} (h : List.Forall₂ (fun u u' => u' = u ∨
      (u.txnid ≠ txnAborted ∧ txnUpdVisibleType w u ≠ .ok .true)) chain chain') :
    modifyCheckChain w tw chain' = .ok true := by
  induction h with
  | nil => exact hpass
  | @cons u u' l l' hu _ ih =>
    rw [modifyCheckChain_cons] at hpass ⊢
    rcases hu with rfl | ⟨hne, htype⟩
    · exact hpass.imp_right fun ⟨hab, hlocked, hnext⟩ => ⟨hab, hlocked, ih hnext⟩
    · rcases hpass with hvis | ⟨hab, -⟩
      · exact absurd hvis htype
      · exact absurd hab hne

/-- A reader that sees more passes the check as well. -/
lemma modifyCheckChain_mono {w' : View}
    (hsub : ∀ id ts, txnVisible w id ts = true → txnVisible w' id ts = true) :
    modifyCheckChain w' tw chain = .ok true := by
  induction chain with
  | nil =>
    cases tw with
    | none => rfl
    | some tw =>
      simp only [modifyCheckChain, txnTwStopVisible, txnTwStartVisible, Except.ok.injEq]
        at hpass ⊢
      split_ifs at hpass ⊢ with hstop
      · simp only [and_eq_true] at hpass ⊢
        exact ⟨hpass.1, hsub _ _ hpass.2⟩
      · simp only [and_eq_true] at hpass ⊢
        exact ⟨hpass.1, hsub _ _ hpass.2⟩
  | cons upd next ih =>
    rw [modifyCheckChain_cons] at hpass ⊢
    refine hpass.imp (fun htrue => ?_) fun ⟨hab, hlocked, hnext⟩ => ⟨hab, hlocked, ih hnext⟩
    obtain ⟨hvis, hlocked, hprep⟩ := txnUpdVisibleType_eq_true htrue
    simp [txnUpdVisibleType, hlocked, hprep, hsub _ _ hvis]

end

/-- Behind an update the reader sees, a chain does not matter to the check. -/
lemma modifyCheckChain_cut {w : View} {A B : List Update}
    (hn : txnUpdVisibleType w n = .ok .true) :
    modifyCheckChain w tw (A ++ [n]) = modifyCheckChain w tw (A ++ n :: B) := by
  induction A with
  | nil => simp [modifyCheckChain, hn]
  | cons a A ih => simp [cons_append, modifyCheckChain, ih]

/-! ### The invariant -/

/-- The update is rolled back, is from before, or fits the phase of its transaction. -/
def NodeOk (f : ℕ) (txns : List Txn) (u : Update) : Prop :=
  u.txnid = txnAborted ∨ (u.txnid < f ∧ u.Settled) ∨
    ∃ x ∈ txns, x.owns u = true ∧ x.PhaseOk u

/-- The transaction of the update cannot roll back any more. -/
def Closed (txns : List Txn) (u : Update) : Prop :=
  ∀ y ∈ txns, y.owns u = true → y.isOpen = false

/-- How a transaction stands to a version below one of its own: the version is not open, and the
transaction sees it. -/
def Sees (f : ℕ) (txns : List Txn) (x : Txn) (v : Update) : Prop :=
  v.txnid = x.view.id ∨
    (Closed txns v ∧
      (v.txnid < f ∨ txnVisibleIdSnapshot v.txnid x.view.snap = true))

/-- How a version stands to an older one: what is below a version from before is from before. -/
def PairOk (f : ℕ) (txns : List Txn) (u v : Update) : Prop :=
  u.txnid ≠ txnAborted → v.txnid ≠ txnAborted →
    (u.txnid < f ∧ v.txnid < f) ∨ ∃ x ∈ txns, x.owns u = true ∧ Sees f txns x v

/-- The page tells of the newest version that left the chain. -/
def CellOk (cell : Option Cell) (past : List Update) : Prop :=
  ∀ A n B, past = A ++ n :: B → (∀ a ∈ A, a.txnid = txnAborted) → n.txnid ≠ txnAborted →
    ∃ c, cell = some c ∧ c.tw.newest = (n.txnid, n.startTs)

/-- The invariant; ids below `f` are from before the first transaction. -/
structure World.Inv (f : ℕ) (w : World) : Prop where
  pos : 0 < f
  le : f ≤ w.current
  cap : w.current ≤ txnAborted
  txns : TxnsInv f w.current w.txns
  nodes : ∀ u ∈ w.updates, NodeOk f w.txns u
  pairs : w.versions.Pairwise (PairOk f w.txns)
  past : ∀ n ∈ w.past, n.upd.txnid = txnAborted ∨
    (n.upd.txnid < w.current ∧ Closed w.txns n.upd)
  addrs : ∀ n ∈ w.chain, n.addr < w.nextAddr
  running : ∀ x ∈ w.txns, ∀ next, x.pending = some next → x.phase = .running
  pending : ∀ x ∈ w.txns, ∀ next, x.pending = some next →
    (∀ a, next = some a → a < w.nextAddr) ∧ (w.head = next → w.modifyCheck x = .ok true)
  cell : (∃ u ∈ w.updates, u.txnid ≠ txnAborted ∧ Closed w.txns u) ∨
    CellOk w.cell (w.past.map Node.upd)

/-- A world without transactions: each update of the chain is rolled back or committed, and every id
is below the next one. -/
structure World.Initial (w : World) : Prop where
  pos : 0 < w.current
  cap : w.current ≤ txnAborted
  txns : w.txns = []
  past : w.past = []
  nodes : ∀ u ∈ w.updates, u.txnid = txnAborted ∨ (u.txnid < w.current ∧ u.Settled)
  addrs : ∀ n ∈ w.chain, n.addr < w.nextAddr

lemma World.Initial.inv {w : World} (h : w.Initial) : w.Inv w.current where
  pos := h.pos
  le := le_rfl
  cap := h.cap
  txns := by
    rw [h.txns]
    exact ⟨by simp, by simp, by simp, by simp, by simp, by simp, by simp, by simp, by simp⟩
  nodes := by
    intro u hu
    rcases h.nodes u hu with hab | hok
    · exact .inl hab
    · exact .inr (.inl hok)
  pairs := by
    have hv : w.versions = w.updates := by
      rw [versions, h.past, append_nil, updates]
    rw [hv]
    refine List.Pairwise.imp_of_mem ?_ (pairwise_of_forall (R := fun _ _ => True) (by simp))
    intro u v hu hv _ hua hva
    exact .inl ⟨((h.nodes u hu).resolve_left hua).1, ((h.nodes v hv).resolve_left hva).1⟩
  past := by simp [h.past]
  addrs := h.addrs
  running := by simp [h.txns]
  pending := by simp [h.txns]
  cell := by
    refine .inr ?_
    intro A n B hpast
    simp [h.past] at hpast

/-! ### What a transaction that passed the check sees -/

namespace World.Inv

variable {w w' : World}

lemma closed_of_lt (h : w.Inv f) (hu : u.txnid < f) : Closed w.txns u := by
  intro y hy hown
  have := (h.txns.le_txnid hy hown).1
  omega

/-- Who sees a version sees what is below it. -/
lemma sees_below (h : w.Inv f) (hx : x ∈ w.txns) (hid : x.view.hasId = true)
    {A B : List Update} {n : Update} (hsplit : w.versions = A ++ n :: B)
    (hn : n.txnid ≠ txnAborted) (hsees : Sees f w.txns x n) (hv : v ∈ B)
    (hva : v.txnid ≠ txnAborted) : Sees f w.txns x v := by
  have hpair : PairOk f w.txns n v := by
    have hp := h.pairs
    rw [hsplit] at hp
    exact (pairwise_cons.mp (pairwise_append.mp hp).2.1).1 v hv
  rcases hpair hn hva with ⟨-, hvf⟩ | ⟨y, hy, hown, hyv⟩
  · exact .inr ⟨h.closed_of_lt hvf, .inl hvf⟩
  obtain ⟨hyid, hyn⟩ := Txn.owns_iff.mp hown
  rcases hsees with hxn | ⟨hclosed, hvis⟩
  · -- the version is the transaction's own
    obtain rfl := h.txns.owner_eq hx hy (Txn.owns_iff.mpr ⟨hid, hxn⟩) hown
    exact hyv
  have hvis : txnVisibleIdSnapshot n.txnid x.view.snap = true :=
    hvis.resolve_left (by have := (h.txns.le_txnid hy hown).1; omega)
  rcases hyv with hvy | ⟨hvclosed, hvseen⟩
  · have hvn : v.txnid = n.txnid := hvy.trans hyn.symm
    refine .inr ⟨?_, .inr (by rw [hvn]; exact hvis)⟩
    intro z hz hzown
    refine hclosed z hz (Txn.owns_iff.mpr ?_)
    obtain ⟨hzid, hzv⟩ := Txn.owns_iff.mp hzown
    exact ⟨hzid, hvn.symm.trans hzv⟩
  · refine .inr ⟨hvclosed, ?_⟩
    rcases hvseen with hvf | hvseen
    · exact .inl hvf
    · exact .inr (h.txns.mono y hy x hx hyid (by rw [← hyn]; exact hvis) _ hvseen)

/-- A version in the chain that a transaction can see is its own, or is not open. -/
lemma sees_of_visible (h : w.Inv f) (hx : x ∈ w.txns) {n : Update} (hn : n ∈ w.updates)
    (htype : txnUpdVisibleType x.view n = .ok .true) : Sees f w.txns x n := by
  obtain ⟨hvis, hlocked, hprep⟩ := txnUpdVisibleType_eq_true htype
  have hid := txnVisible_id (h.txns.isolation x hx) hvis
  rcases h.nodes n hn with hab | ⟨hlt, -⟩ | ⟨y, hy, hown, hok⟩
  · exact absurd hab (txnVisible_ne_aborted hvis)
  · exact .inr ⟨h.closed_of_lt hlt, .inl hlt⟩
  obtain ⟨hyid, hyn⟩ := Txn.owns_iff.mp hown
  rcases hid with hnone | hxn | hvis
  · have := (h.txns.le_txnid hy hown).1
    have := h.pos
    simp only [txnNone] at hnone
    omega
  · exact .inl hxn
  refine .inr ⟨?_, .inr hvis⟩
  intro z hz hzown
  obtain rfl := h.txns.owner_eq hz hy hzown hown
  rw [← not_eq_true]
  intro hopen
  rcases Txn.inTable_or_inprogress hyid hopen hok with htable | hin
  · have := h.txns.hidden x hx z hz htable
    rw [hyn, this] at hvis
    cases hvis
  · exact hprep hin

/-- **First updater wins, at the check.**  A transaction that passes the conflict check sees every
version of the key. -/
theorem sees_of_check (h : w.Inv f) (hx : x ∈ w.txns) (hid : x.view.hasId = true)
    (hcheck : w.modifyCheck x = .ok true) (hv : v ∈ w.versions) (hva : v.txnid ≠ txnAborted) :
    Sees f w.txns x v := by
  have hversions : w.versions = w.updates ++ w.past.map Node.upd := by
    rw [versions, map_append, updates]
  rw [w.modifyCheck_eq (h.txns.isolation x hx)] at hcheck
  rcases modifyCheckChain_pass hcheck with ⟨A, n, B, hsplit, hA, hn⟩ | ⟨hall, hcell⟩
  · -- the newest version is in memory
    have hsplit' : w.versions = A ++ n :: (B ++ w.past.map Node.upd) := by
      rw [hversions, hsplit, append_assoc, cons_append]
    have hna : n.txnid ≠ txnAborted := txnVisible_ne_aborted (txnUpdVisibleType_eq_true hn).1
    have hsees := h.sees_of_visible hx (by rw [hsplit]; simp) hn
    rw [hsplit'] at hv
    rcases mem_append.mp hv with hvA | hv
    · exact absurd (hA v hvA) hva
    rcases mem_cons.mp hv with rfl | hv
    · exact hsees
    · exact h.sees_below hx hid hsplit' hna hsees hv hva
  · -- the newest version is on the page
    have hvpast : v ∈ w.past.map Node.upd := by
      rw [hversions] at hv
      exact (mem_append.mp hv).resolve_left fun hmem => hva (hall v hmem)
    obtain ⟨A, n, B, hsplit, hA, hna⟩ :=
      exists_first (p := fun u => u.txnid ≠ txnAborted) hvpast hva
    replace hA : ∀ a ∈ A, a.txnid = txnAborted := fun a ha => not_not.mp (hA a ha)
    have hok : CellOk w.cell (w.past.map Node.upd) := by
      refine h.cell.resolve_left ?_
      rintro ⟨u, hu, hua, -⟩
      exact hua (hall u hu)
    obtain ⟨c, hc, hnewest⟩ := hok A n B hsplit hA hna
    have hvis := hcell c.tw (by rw [cellTimeWindow, hc])
    rw [hnewest] at hvis
    have hclosed : Closed w.txns n := by
      obtain ⟨m, hm, rfl⟩ := mem_map.mp (by rw [hsplit]; simp : n ∈ w.past.map Node.upd)
      exact ((h.past m hm).resolve_left hna).2
    have hsees : Sees f w.txns x n := by
      rcases txnVisible_id (h.txns.isolation x hx) hvis with hnone | hxn | hvis
      · have hnf : n.txnid < f := by
          rw [show n.txnid = 0 from hnone]
          exact h.pos
        exact .inr ⟨hclosed, .inl hnf⟩
      · exact .inl hxn
      · exact .inr ⟨hclosed, .inr hvis⟩
    have hsplit' : w.versions = (w.updates ++ A) ++ n :: B := by
      rw [hversions, hsplit, append_assoc]
    rw [hsplit] at hvpast
    rcases mem_append.mp hvpast with hvA | hv'
    · exact absurd (hA v hvA) hva
    rcases mem_cons.mp hv' with rfl | hv'
    · exact hsees
    · exact h.sees_below hx hid hsplit' hna hsees hv' hva

end World.Inv

end WiredTiger
