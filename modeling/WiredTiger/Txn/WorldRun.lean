/-
# The invariant is kept

Each kind of step keeps the invariant of the versions of a key, so it holds in every world that is
reached from one without transactions.
-/
import WiredTiger.Txn.WorldInv

namespace WiredTiger

open Lib List Nat World Txn Node

variable {f : ℕ} {txns txns' : List Txn} {x : Txn} {u v : Update} {w : World} {g : Global} {t : ℕ}
  {n : Update}

/-! ### Changes of the transactions -/

/-- The transactions change, but for ids below `current` the views are the same and nothing opens
again. -/
structure Extends (current : ℕ) (txns txns' : List Txn) : Prop where
  keep : ∀ x ∈ txns, x.view.hasId = true → ∃ x' ∈ txns', x'.view = x.view
  back : ∀ x' ∈ txns', x'.view.hasId = true → x'.view.id < current →
    ∃ x ∈ txns, x.view = x'.view ∧ (x'.isOpen = true → x.isOpen = true)

namespace Extends

variable {current : ℕ}

lemma closed (h : Extends current txns txns') (hu : u.txnid < current) (hc : Closed txns u) :
    Closed txns' u := by
  intro y hy hown
  obtain ⟨hid, heq⟩ := owns_iff.mp hown
  obtain ⟨x, hx, hview, hopen⟩ := h.back y hy hid (by omega)
  have hxown : x.owns u = true := by
    rw [owns_congr hview]
    exact hown
  by_contra hne
  have := hc x hx hxown
  simp [hopen (by simpa using hne)] at this

lemma pairOk (h : Extends current txns txns') (hv : v.txnid ≠ txnAborted → v.txnid < current)
    (hp : PairOk f txns u v) : PairOk f txns' u v := by
  intro hua hva
  rcases hp hua hva with hlt | ⟨x, hx, hown, hsees⟩
  · exact .inl hlt
  obtain ⟨x', hx', hview⟩ := h.keep x hx (owns_iff.mp hown).1
  refine .inr ⟨x', hx', by rw [owns_congr hview]; exact hown, ?_⟩
  rcases hsees with hself | ⟨hclosed, hvis⟩
  · exact .inl (by rw [hview]; exact hself)
  · exact .inr ⟨h.closed (hv hva) hclosed, by rw [hview]; exact hvis⟩

/-- One transaction is replaced by another with the same view. -/
lemma set {x' : Txn} (hx : txns[t]? = some x) (hview : x'.view = x.view)
    (hopen : x'.isOpen = true → x.isOpen = true) : Extends current txns (txns.set t x') where
  keep := by
    intro y hy _
    rcases eq_or_mem_set hx hy with rfl | hy
    · exact ⟨x', mem_set_self hx, hview⟩
    · exact ⟨y, hy, rfl⟩
  back := by
    intro y hy _ _
    rcases mem_or_eq_of_mem_set hy with hy | rfl
    · exact ⟨y, hy, rfl, id⟩
    · exact ⟨x, mem_of_getElem? hx, hview.symm, hopen⟩

/-- A transaction without an id begins. -/
lemma begin (hid : x.view.hasId = false) : Extends current txns (txns ++ [x]) where
  keep := fun y hy _ => ⟨y, mem_append_left _ hy, rfl⟩
  back := by
    intro y hy hyid _
    rcases mem_append.mp hy with hy | hy
    · exact ⟨y, hy, rfl, id⟩
    · simp [mem_singleton.mp hy, hid] at hyid

/-- A transaction that has an id is not the one that gets one. -/
lemma mem_set_of_hasId {x' y : Txn} (hx : txns[t]? = some x) (hid : x.view.hasId = false)
    (hy : y ∈ txns) (hyid : y.view.hasId = true) : y ∈ txns.set t x' := by
  refine (eq_or_mem_set hx hy).resolve_left ?_
  rintro rfl
  simp [hid] at hyid

/-- A transaction gets an id that is not below `current`. -/
lemma allocId (hx : txns[t]? = some x) (hid : x.view.hasId = false) :
    Extends current txns
      (txns.set t { x with view := { x.view with id := current, hasId := true } }) where
  keep := fun y hy hyid => ⟨y, mem_set_of_hasId hx hid hy hyid, rfl⟩
  back := by
    intro y hy _ hlt
    rcases mem_or_eq_of_mem_set hy with hy | rfl
    · exact ⟨y, hy, rfl, fun h => h⟩
    · simp at hlt

end Extends

lemma NodeOk.of_owner (h : NodeOk f txns u)
    (hown : ∀ x ∈ txns, x.owns u = true → x.PhaseOk u →
      ∃ x' ∈ txns', x'.view = x.view ∧ x'.PhaseOk u) : NodeOk f txns' u := by
  rcases h with hab | hlt | ⟨x, hx, hxu, hok⟩
  · exact .inl hab
  · exact .inr (.inl hlt)
  · obtain ⟨x', hx', hview, hok'⟩ := hown x hx hxu hok
    exact .inr (.inr ⟨x', hx', by rw [owns_congr hview]; exact hxu, hok'⟩)

namespace World.Inv

/-- Every id in the versions has been given out. -/
lemma lt_current (h : w.Inv f) (hv : v ∈ w.versions) (hva : v.txnid ≠ txnAborted) :
    v.txnid < w.current := by
  rw [versions, map_append, mem_append] at hv
  rcases hv with hv | hv
  · rcases h.nodes v hv with hab | ⟨hlt, -⟩ | ⟨y, hy, hown, -⟩
    · exact absurd hab hva
    · have := h.le
      omega
    · exact (h.txns.le_txnid hy hown).2
  · obtain ⟨m, hm, rfl⟩ := mem_map.mp hv
    exact ((h.past m hm).resolve_left hva).1

lemma updates_subset (hv : v ∈ w.updates) : v ∈ w.versions := by
  rw [versions, map_append]
  exact mem_append_left _ hv

/-- What the invariant says of an update that is under way. -/
def PendingOk (w : World) (x : Txn) : Prop :=
  ∀ next, x.pending = some next → x.phase = .running ∧
    (∀ a, next = some a → a < w.nextAddr) ∧ (w.head = next → w.modifyCheck x = .ok true)

/-- The transactions change and the chain does not. -/
lemma of_extends (h : w.Inv f) {txns' : List Txn} {current' : ℕ}
    (hcap : current' ≤ txnAborted) (hle : w.current ≤ current')
    (htxns : TxnsInv f current' txns') (hext : Extends w.current w.txns txns')
    (hnodes : ∀ u ∈ w.updates, NodeOk f w.txns u → NodeOk f txns' u)
    (hnew : ∀ x ∈ txns', x ∈ w.txns ∨ PendingOk w x) :
    World.Inv f { w with txns := txns', current := current' } where
  pos := h.pos
  le := h.le.trans hle
  cap := hcap
  txns := htxns
  nodes := fun u hu => hnodes u hu (h.nodes u hu)
  pairs := by
    refine List.Pairwise.imp_of_mem ?_ h.pairs
    intro u v hu hv hp
    exact hext.pairOk (h.lt_current hv) hp
  past := by
    intro n hn
    rcases h.past n hn with hab | ⟨hlt, hclosed⟩
    · exact .inl hab
    · exact .inr ⟨hlt.trans_le hle, hext.closed hlt hclosed⟩
  addrs := h.addrs
  running := fun x hx next hnext =>
    (hnew x hx).elim (fun hx => h.running x hx next hnext) fun hok => (hok next hnext).1
  pending := fun x hx next hnext =>
    (hnew x hx).elim (fun hx => h.pending x hx next hnext) fun hok => (hok next hnext).2
  cell := by
    rcases h.cell with ⟨u, hu, hua, hclosed⟩ | hcell
    · exact .inl ⟨u, hu, hua, hext.closed (h.lt_current (updates_subset hu) hua) hclosed⟩
    · exact .inr hcell

/-- A transaction begins. -/
lemma begin (h : w.Inv f) (readTs : Option ℕ) (ignorePrepare : Bool) :
    World.Inv f { w with txns := w.txns ++ [w.newTxn readTs ignorePrepare] } := by
  refine h.of_extends h.cap le_rfl (h.txns.begin h.le readTs ignorePrepare) (.begin rfl) ?_ ?_
  · intro u _ hok
    exact hok.of_owner fun x hx _ hphase => ⟨x, mem_append_left _ hx, rfl, hphase⟩
  · intro x hx
    refine (mem_append.mp hx).imp_right fun hx next hnext => ?_
    rw [mem_singleton.mp hx] at hnext
    cases hnext

/-- With an id of its own a transaction sees all it saw without one. -/
lemma txnVisible_allocId {view : View} (hid : view.hasId = false) (hnone : view.id = txnNone)
    {id ts current : ℕ} (h : txnVisible view id ts = true) :
    txnVisible { view with id := current, hasId := true } id ts = true := by
  have hne := txnVisible_ne_aborted h
  simp only [txnVisible, txnVisibleId, hnone, hid] at h ⊢
  by_cases hcur : id = current
  · subst hcur
    simp [hne]
  · by_cases h0 : id = txnNone
    · simp only [h0] at h ⊢
      exact by simpa using Or.inr (by simpa using h)
    · simpa [hne, hcur, h0] using h

section

variable (h : w.Inv f) (hx : w.txns[t]? = some x)
include h hx

/-- A transaction gets its id. -/
lemma allocId (hrun : x.phase = .running) (hid : x.view.hasId = false)
    (hlt : w.current < txnAborted) :
    World.Inv f
      { w.setTxn t { x with view := { x.view with id := w.current, hasId := true } } with
        current := w.current + 1 } := by
  have hxmem : x ∈ w.txns := mem_of_getElem? hx
  set x' : Txn := { x with view := { x.view with id := w.current, hasId := true } }
  refine h.of_extends hlt (le_succ _) (h.txns.allocId h.le hx hrun)
    (Extends.allocId hx hid) ?_ ?_
  · intro u _ hok
    exact hok.of_owner fun y hy hown hphase =>
      ⟨y, Extends.mem_set_of_hasId hx hid hy (owns_iff.mp hown).1, rfl, hphase⟩
  · intro y hy
    refine (mem_or_eq_of_mem_set hy).imp_right ?_
    rintro rfl next hnext
    obtain ⟨haddr, hcheck⟩ := h.pending x hxmem next hnext
    refine ⟨hrun, haddr, fun hhead => ?_⟩
    have hiso := h.txns.isolation x hxmem
    have hpass := hcheck hhead
    rw [w.modifyCheck_eq hiso] at hpass
    rw [w.modifyCheck_eq (x := x') hiso]
    exact modifyCheckChain_mono hpass
      (fun _ _ hvis => txnVisible_allocId hid (h.txns.noId x hxmem hid) hvis)

/-- A transaction goes on. -/
lemma advance {x' : Txn} (hadv : x.Advances w x') : World.Inv f (w.setTxn t x') := by
  have hxmem : x ∈ w.txns := mem_of_getElem? hx
  refine h.of_extends h.cap le_rfl (h.txns.advance hx hadv.view hadv.table hadv.resolves)
    (Extends.set hx hadv.view hadv.opens) ?_ ?_
  · intro u hu hok
    refine hok.of_owner fun y hy hown hphase => ?_
    rcases eq_or_mem_set hx hy with rfl | hy
    · exact ⟨x', mem_set_self hx, hadv.view, hadv.keeps u hu hown hphase⟩
    · exact ⟨y, hy, rfl, hphase⟩
  · intro y hy
    refine (mem_or_eq_of_mem_set hy).imp_right ?_
    rintro rfl next hnext
    have hsame : w.modifyCheck y = w.modifyCheck x := by
      rw [modifyCheck, modifyCheck, hadv.view]
    rw [hsame]
    rcases hadv.pending next hnext with ⟨hold, hstays⟩ | ⟨hrun, rfl, hcheck⟩
    · exact ⟨hstays (h.running x hxmem next hold), h.pending x hxmem next hold⟩
    · refine ⟨hrun, fun a ha => ?_, fun _ => hcheck⟩
      simp only [head, Option.map_eq_some_iff] at ha
      obtain ⟨n, hn, rfl⟩ := ha
      exact h.addrs n (mem_of_mem_head? hn)

/-- An update is swapped in. -/
lemma prepend (hrun : x.phase = .running) (hid : x.view.hasId = true)
    (hpend : x.pending = some w.head) (data : UpdData) :
    World.Inv f
      { w.setTxn t { x with pending := none } with
        chain := ⟨w.nextAddr, x.newUpdate data⟩ :: w.chain
        nextAddr := w.nextAddr + 1 } := by
  set x' : Txn := { x with pending := none } with hx'
  obtain ⟨hnid, hninit, hnts⟩ := x.newUpdate_spec data
  set n := x.newUpdate data
  have hcheck : w.modifyCheck x = .ok true := (h.pending x (mem_of_getElem? hx) _ hpend).2 rfl
  -- first the transaction has no update under way any more
  replace h : (w.setTxn t x').Inv f := by
    refine h.advance hx ⟨rfl, by simp [hrun], id, fun hopen => ?_, id, ?_, fun _ _ _ => id, ?_⟩
    · simp [isOpen, hrun] at hopen
    · intro p c d hphase
      simp [hx', hrun] at hphase
    · rintro next ⟨⟩
  have hx'mem : x' ∈ w.txns.set t x' := mem_set_self hx
  have hnown : x'.owns n = true := owns_iff.mpr ⟨hid, hnid⟩
  refine ⟨h.pos, h.le, h.cap, h.txns, ?_, ?_, h.past, ?_, h.running, ?_, ?_⟩
  · intro u hu
    rcases mem_cons.mp hu with rfl | hu
    · exact .inr (.inr ⟨x', hx'mem, hnown, by simpa [Txn.PhaseOk, hx', hrun] using ⟨hninit, hnts⟩⟩)
    · exact h.nodes u hu
  · refine pairwise_cons.mpr ⟨fun v hv _ hva => .inr ⟨x', hx'mem, hnown, ?_⟩, h.pairs⟩
    exact h.sees_of_check hx'mem hid hcheck hv hva
  · intro m hm
    rcases mem_cons.mp hm with rfl | hm
    · exact lt_succ_self _
    · exact (h.addrs m hm).trans (lt_succ_self _)
  · intro y hy next hnext
    -- the head is a new one
    have haddr := (h.pending y hy next hnext).1
    refine ⟨fun a ha => (haddr a ha).trans (lt_succ_self _), ?_⟩
    intro hhead
    have := haddr w.nextAddr (by rw [← hhead]; rfl)
    exact absurd this (lt_irrefl _)
  · refine h.cell.imp_left ?_
    rintro ⟨u, hu, hclosed⟩
    exact ⟨u, mem_cons_of_mem _ hu, hclosed⟩

end

section

variable {i t : ℕ} {n : Node} {u' : Update} (h : w.Inv f) (hx : w.txns[t]? = some x)
  (hn : w.chain[i]? = some n) (hown : x.owns n.upd = true) (hu : x.resolveUpdate n.upd = some u')
include h hx hn hown hu

/-- What the loop of a transaction does to the chain. -/
lemma resolve_forall₂ :
    List.Forall₂ (fun u v => v = u ∨ (u ∈ w.updates ∧ x.owns u = true ∧ x.PhaseOk u ∧
      x.resolveUpdate u = some v)) w.updates ((w.chain.set i ⟨n.addr, u'⟩).map upd) := by
  have hmem : n.upd ∈ w.updates := mem_map_of_mem (mem_of_getElem? hn)
  have hphase : x.PhaseOk n.upd := by
    rcases h.nodes n.upd hmem with hab | ⟨hlt, -⟩ | ⟨y, hy, hyown, hok⟩
    · have := (h.txns.le_txnid (mem_of_getElem? hx) hown).2
      have := h.cap
      omega
    · have := (h.txns.le_txnid (mem_of_getElem? hx) hown).1
      omega
    · obtain rfl := h.txns.owner_eq hy (mem_of_getElem? hx) hyown hown
      exact hok
  rw [map_set]
  exact forall₂_set (fun _ => .inl rfl) (x := n.upd) (by simp [updates, hn])
    (.inr ⟨hmem, hown, hphase, hu⟩)

/-- A transaction handles one of its updates. -/
lemma resolve : World.Inv f { w with chain := w.chain.set i ⟨n.addr, u'⟩ } := by
  have hxmem : x ∈ w.txns := mem_of_getElem? hx
  have hforall := h.resolve_forall₂ hx hn hown hu
  have hspec : ∀ {u v}, x.owns u = true → x.PhaseOk u → x.resolveUpdate u = some v → _ :=
    fun hown hok hu => resolveUpdate_spec (owns_iff.mp hown).1 hok
      (h.txns.resolving x hxmem) hu
  have hids : List.Forall₂ (fun u v : Update => v.txnid = u.txnid ∨ v.txnid = txnAborted)
      w.versions (((w.chain.set i ⟨n.addr, u'⟩) ++ w.past).map upd) := by
    rw [versions, map_append, map_append]
    refine rel_append ?_ (forall₂_same.mpr fun _ _ => .inl rfl)
    refine hforall.imp fun u v huv => ?_
    rcases huv with rfl | ⟨-, hown, hok, hres⟩
    · exact .inl rfl
    · rcases (hspec hown hok hres).2 with ⟨hab, -⟩ | ⟨hid, -⟩
      · exact .inr hab
      · exact .inl hid
  have hhead : head { w with chain := w.chain.set i ⟨n.addr, u'⟩ } = w.head := by
    have hmap : (w.chain.set i ⟨n.addr, u'⟩).map addr = w.chain.map addr :=
      map_set_eq hn rfl
    simp [head, ← head?_map, hmap]
  refine ⟨h.pos, h.le, h.cap, h.txns, ?_, ?_, h.past, ?_, h.running, ?_, ?_⟩
  · intro v hv
    obtain ⟨u, hu, huv⟩ := exists_left_of_mem hforall hv
    rcases huv with rfl | ⟨-, hown, hok, hres⟩
    · exact h.nodes v hu
    · rcases (hspec hown hok hres).2 with ⟨hab, -⟩ | ⟨hid, hok', -⟩
      · exact .inl hab
      · exact .inr (.inr ⟨x, hxmem, by simpa [owns, hid] using hown, hok'⟩)
  · refine pairwise_of_forall₂ hids h.pairs ?_
    intro u v a b hua hvb hp hna hnb
    have hua := hua.resolve_right hna
    have hvb := hvb.resolve_right hnb
    have := hp (by rw [← hua]; exact hna) (by rw [← hvb]; exact hnb)
    simpa [Sees, Closed, owns, hua, hvb] using this
  · intro m hm
    rcases mem_or_eq_of_mem_set hm with hm | rfl
    · exact h.addrs m hm
    · exact h.addrs n (mem_of_getElem? hn)
  · intro y hy next hnext
    obtain ⟨haddr, hcheck⟩ := h.pending y hy next hnext
    refine ⟨haddr, fun hh => ?_⟩
    rw [hhead] at hh
    have hpass := hcheck hh
    have hiso := h.txns.isolation y hy
    rw [modifyCheck_eq _ hiso] at hpass ⊢
    refine modifyCheckChain_changed hpass (hforall.imp fun u v huv => ?_)
    refine huv.imp id ?_
    rintro ⟨hmem, hown, hok, hres⟩
    have hlt := h.txns.le_txnid hxmem hown
    refine ⟨by have := h.cap; omega, ?_⟩
    -- an update that is being handled is not one another transaction can write over
    intro htype
    have hnotrun : y ≠ x := by
      rintro rfl
      have hphase := h.running y hy next hnext
      simp [resolveUpdate, hphase] at hres
    obtain ⟨-, hlocked, hprep⟩ := txnUpdVisibleType_eq_true htype
    rcases h.sees_of_visible hy hmem htype with hself | ⟨hclosed, hvis⟩
    · rcases hyid : y.view.hasId with _ | _
      · have := h.txns.noId y hy hyid
        have := h.pos
        simp only [txnNone] at *
        omega
      · exact hnotrun (h.txns.owner_eq hy hxmem (owns_iff.mpr ⟨hyid, hself⟩) hown)
    · have hclosedx := hclosed x hxmem hown
      rcases (hspec hown hok hres).2 with ⟨-, hopen⟩ | ⟨-, -, htable | ⟨hprep', -⟩⟩
      · simp [hclosedx] at hopen
      · have hhid := h.txns.hidden y hy x hxmem htable
        rw [← (owns_iff.mp hown).2] at hhid
        rcases hvis with hlt' | hvis
        · omega
        · simp [hhid] at hvis
      · exact hprep'.elim hprep hlocked
  · rcases h.cell with ⟨u, hu, hua, hclosed⟩ | hcell
    · left
      obtain ⟨v, hv, huv⟩ := exists_right_of_mem hforall hu
      refine ⟨v, hv, ?_⟩
      rcases huv with rfl | ⟨-, hown, hok, hres⟩
      · exact ⟨hua, hclosed⟩
      · rcases (hspec hown hok hres).2 with ⟨-, hopen⟩ | ⟨hid, -⟩
        · simp [hclosed x hxmem hown] at hopen
        · refine ⟨by rw [hid]; exact hua, ?_⟩
          simpa [Closed, owns, hid] using hclosed
    · exact .inr hcell

end

/-! ### Updates leave the chain -/

/-- A chain whose first version is at `i` can be cut behind the one at `k`: everybody sees it, and
what is behind it. -/
def CutAt (g : Global) (chain : List Update) (i k : ℕ) : Prop :=
  ∃ A n B, chain = A ++ n :: B ∧ k = i + A.length ∧ n.txnid ≠ txnAborted ∧
    txnUpdVisibleAll g n = true ∧ n.data.isValue = true ∧
    ∀ v ∈ B, v.txnid = txnAborted ∨ txnUpdVisibleAll g v = true

lemma CutAt.cons {chain : List Update} {i k : ℕ} (h : CutAt g chain (i + 1) k) (upd : Update) :
    CutAt g (upd :: chain) i k := by
  obtain ⟨A, n, B, rfl, rfl, hn⟩ := h
  exact ⟨upd :: A, n, B, rfl, by simp only [length_cons]; omega, hn⟩

/-- `__wt_update_obsolete_check` finds an update that everybody sees, and everybody sees what is
behind it. -/
lemma updateObsoleteCheck_spec {chain : List Update} {i k : ℕ} {first : Option ℕ}
    (h : updateObsoleteCheck g chain i first = some k) :
    (first = some k ∧ ∀ v ∈ chain, v.txnid = txnAborted ∨ txnUpdVisibleAll g v = true) ∨
      CutAt g chain i k := by
  induction chain generalizing i first with
  | nil => exact .inl ⟨h, by simp⟩
  | cons upd next ih =>
    simp only [updateObsoleteCheck] at h
    split_ifs at h with hab hall hfirst
    all_goals rcases ih h with ⟨hk, hrest⟩ | hfound
    all_goals try exact .inr (hfound.cons upd)
    · exact .inl ⟨hk, by simpa [hab] using hrest⟩
    · obtain rfl : i = k := by simpa using hk
      exact .inr ⟨[], upd, next, rfl, rfl, hab, hall, hfirst.2, hrest⟩
    · exact .inl ⟨hk, by simpa [hall] using hrest⟩
    · cases hk

/-- The place behind which a chain is cut. -/
lemma truncate_split {chain : List Update} {i first : ℕ}
    (h : updateObsoleteCheck g (chain.drop i) i none = some first) : CutAt g chain 0 first := by
  rcases updateObsoleteCheck_spec h with ⟨hk, -⟩ | ⟨A, n, B, hsplit, rfl, hn⟩
  · cases hk
  have hi : i ≤ chain.length := by
    by_contra hi
    simp [drop_eq_nil_of_le (by omega : chain.length ≤ i)] at hsplit
  refine ⟨chain.take i ++ A, n, B, ?_, by simp [hi], hn⟩
  rw [append_assoc, ← hsplit, take_append_drop]

/-- An id below all running ones is seen, if its timestamp is. -/
lemma txnVisible_of_lt {view : View} {id ts : ℕ} (hlt : id < view.snap.snapMin)
    (hmin : view.snap.snapMin ≤ view.snap.snapMax) (hna : id ≠ txnAborted)
    (hts : ∀ readTs, view.readTs = some readTs → ts = tsNone ∨ ts ≤ readTs) :
    txnVisible view id ts = true := by
  have hsnap : txnVisibleIdSnapshot id view.snap = true := by
    rw [← Bool.not_eq_false, txnVisibleIdSnapshot_eq_false_iff]
    rintro (hmem | hmax)
    · have := view.snap.min_le id hmem
      omega
    · omega
  exact txnVisible_iff.mpr ⟨by simp [txnVisibleId, hna, hsnap], .inr hts⟩

/-- What everybody sees is not prepared, and older than what is pinned. -/
lemma visibleAll_spec (hclosing : g.closing = false) (h : txnUpdVisibleAll g n = true) :
    (n.prepare ≠ .locked ∧ n.prepare ≠ .inprogress) ∧ n.txnid < g.oldestId ∧
      (n.durableTs = tsNone ∨ n.durableTs ≤ g.pinnedTs) := by
  simp only [txnUpdVisibleAll] at h
  split_ifs at h with hprep
  obtain ⟨hid, hts⟩ := (txnVisibleAll_iff hclosing).mp h
  exact ⟨not_or.mp hprep, hid, hts.imp_right And.right⟩

/-- What everybody sees, a reader that is no older than the global state sees. -/
lemma visible_of_visibleAll {view : View} (hclosing : g.closing = false)
    (hold : g.oldestId ≤ view.snap.snapMin) (hts : ∀ ts, view.readTs = some ts → g.pinnedTs ≤ ts)
    (hmin : view.snap.snapMin ≤ view.snap.snapMax) (hle : n.startTs ≤ n.durableTs)
    (hna : n.txnid ≠ txnAborted) (h : txnUpdVisibleAll g n = true) :
    txnUpdVisibleType view n = .ok .true := by
  obtain ⟨⟨hlocked, hin⟩, hid, hdurable⟩ := visibleAll_spec hclosing h
  have hvis : txnVisible view n.txnid n.startTs = true := by
    refine txnVisible_of_lt (hid.trans_le hold) hmin hna fun ts hread => ?_
    rcases hdurable with hnone | hpinned
    · simp only [tsNone] at hnone ⊢
      omega
    · exact .inr (hle.trans (hpinned.trans (hts ts hread)))
  simp [txnUpdVisibleType, hlocked, hin, hvis]

section

variable (hpins : w.pins g = true) (hn : n ∈ w.updates) (hna : n.txnid ≠ txnAborted)
  (hall : txnUpdVisibleAll g n = true)
include hpins hn hna hall

/-- An update everybody sees is committed for good. -/
lemma closed_of_visibleAll (h : w.Inv f) : n.Settled ∧ Closed w.txns n := by
  simp only [pins, Bool.and_eq_true, all_eq_true, Bool.not_eq_true'] at hpins
  obtain ⟨hprep, hid, -⟩ := visibleAll_spec hpins.1 hall
  rcases h.nodes n hn with hab | ⟨hlt, hset⟩ | ⟨y, hy, hown, hok⟩
  · exact absurd hab hna
  · exact ⟨hset, h.closed_of_lt hlt⟩
  have hclosed : y.isOpen = false := by
    rw [← Bool.not_eq_true]
    intro hopen
    rcases inTable_or_inprogress (owns_iff.mp hown).1 hopen hok with htable | hin
    · have hold := (hpins.2 y hy).1
      simp only [htable, Bool.not_true, Bool.false_or, decide_eq_true_eq] at hold
      rw [(owns_iff.mp hown).2] at hid
      omega
    · exact hprep.2 hin
  refine ⟨?_, ?_⟩
  · rcases hok.not_open hclosed with hset | hin | hlocked
    · exact hset
    · exact absurd hin hprep.2
    · exact absurd hlocked hprep.1
  · intro z hz hzown
    rw [h.txns.owner_eq hz hy hzown hown]
    exact hclosed

/-- A running transaction sees what everybody sees. -/
lemma visible_of_pins (h : w.Inv f) (hx : x ∈ w.txns) (hrun : x.phase = .running) :
    txnUpdVisibleType x.view n = .ok .true := by
  obtain ⟨hset, -⟩ := h.closed_of_visibleAll hpins hn hna hall
  simp only [pins, Bool.and_eq_true, all_eq_true, Bool.not_eq_true'] at hpins
  have hx' := (hpins.2 x hx).2
  simp only [hrun, bne_self_eq_false, Bool.false_or, Bool.and_eq_true, decide_eq_true_eq] at hx'
  refine visible_of_visibleAll hpins.1 hx'.1 ?_ (h.txns.bounds x hx).1 hset.2 hna hall
  intro ts hts
  simpa [hts] using hx'.2

end

/-- A tail of the chain leaves it; nothing is lost of the versions. -/
lemma cut (h : w.Inv f) {k : ℕ} {cell : Option Cell}
    (hdrop : ∀ u ∈ w.updates.drop k, u.txnid = txnAborted ∨ Closed w.txns u)
    (hpending : ∀ x ∈ w.txns, ∀ next, x.pending = some next →
      head { w with chain := w.chain.take k } = next →
        modifyCheck { w with chain := w.chain.take k } x = .ok true)
    (hcell : (∃ u ∈ w.updates.take k, u.txnid ≠ txnAborted ∧ Closed w.txns u) ∨
      CellOk cell (w.updates.drop k ++ w.past.map upd))
    (hsame : cell = w.cell ∨ ∀ x ∈ w.txns, x.pending = none) :
    World.Inv f
      { w with chain := w.chain.take k, cell := cell, past := w.chain.drop k ++ w.past } := by
  have hupdates : (w.chain.take k).map upd = w.updates.take k := by
    rw [updates, map_take]
  have hversions : (w.chain.take k ++ (w.chain.drop k ++ w.past)).map upd = w.versions := by
    rw [← append_assoc, take_append_drop, versions]
  refine ⟨h.pos, h.le, h.cap, h.txns, ?_, ?_, ?_, ?_, h.running, ?_, ?_⟩
  · intro u hu
    have hu : u ∈ w.updates.take k := by rwa [← hupdates]
    exact h.nodes u (mem_of_mem_take hu)
  · rw [versions, hversions]
    exact h.pairs
  · intro n hn
    rcases mem_append.mp hn with hn | hn
    · have hmem : n.upd ∈ w.updates.drop k := by
        rw [updates, ← map_drop]
        exact mem_map_of_mem hn
      refine or_iff_not_imp_left.mpr fun hab => ?_
      exact ⟨h.lt_current (updates_subset (mem_of_mem_drop hmem)) hab,
        (hdrop n.upd hmem).resolve_left hab⟩
    · exact h.past n hn
  · exact fun n hn => h.addrs n (mem_of_mem_take hn)
  · intro x hx next hnext
    refine ⟨(h.pending x hx next hnext).1, fun hhead => ?_⟩
    rcases hsame with rfl | hnone
    · exact hpending x hx next hnext hhead
    · simp [hnone x hx] at hnext
  · rw [map_append, map_drop]
    rcases hcell with ⟨u, hu, hclosed⟩ | hcell
    · exact .inl ⟨u, by rw [updates, hupdates]; exact hu, hclosed⟩
    · exact .inr hcell

/-- Obsolete updates are dropped. -/
lemma truncate (h : w.Inv f) {i first : ℕ} (hpins : w.pins g = true)
    (hfirst : updateObsoleteCheck g (w.updates.drop i) i none = some first) :
    World.Inv f
      { w with
        chain := w.chain.take (first + 1)
        past := w.chain.drop (first + 1) ++ w.past } := by
  obtain ⟨A, n, B, hsplit, hlen, hna, hall, -, hB⟩ := truncate_split hfirst
  rw [zero_add] at hlen
  have hn : n ∈ w.updates := by
    rw [hsplit]
    simp
  obtain ⟨-, hclosed⟩ := h.closed_of_visibleAll hpins hn hna hall
  have htake : w.updates.take (first + 1) = A ++ [n] := by
    rw [hsplit, hlen, ← singleton_append, ← append_assoc]
    exact take_left' (by simp)
  have hdrop : w.updates.drop (first + 1) = B := by
    rw [hsplit, hlen, ← singleton_append, ← append_assoc]
    exact drop_left' (by simp)
  refine h.cut ?_ ?_ (.inl ⟨n, by rw [htake]; simp, hna, hclosed⟩) (.inl rfl)
  · intro u hu
    rw [hdrop] at hu
    by_cases hab : u.txnid = txnAborted
    · exact .inl hab
    · have hmem : u ∈ w.updates := by
        rw [hsplit]
        simp [hu]
      exact .inr (h.closed_of_visibleAll hpins hmem hab ((hB u hu).resolve_left hab)).2
  · intro x hx next hnext hhead
    -- a transaction with an update under way is running, so it sees the last update of the chain
    have hrun := h.running x hx next hnext
    have htype := h.visible_of_pins hpins hn hna hall hx hrun
    have hhead' : w.head = next := by
      rw [← hhead, head, head]
      cases hchain : w.chain with
      | nil => simp
      | cons m chain => simp
    have hpass := (h.pending x hx next hnext).2 hhead'
    have hiso := h.txns.isolation x hx
    rw [w.modifyCheck_eq hiso, hsplit] at hpass
    rw [modifyCheck_eq _ hiso, updates, map_take,
      ← updates, htake, modifyCheckChain_cut (B := B) htype]
    exact hpass

/-- The window that is written tells of the newest version. -/
lemma writtenWindow_newest {old : Option TimeWindow} {next : List Update}
    {tw : TimeWindow} (h : writtenWindow old n next = some tw)
    (hstop : tw.hasStop = decide (n.data = .tombstone)) : tw.newest = (n.txnid, n.startTs) := by
  rw [TimeWindow.newest, hstop]
  rw [writtenWindow] at h
  split_ifs at h with htomb
  · rw [if_pos (by simpa using htomb)]
    split at h
    · cases h
      rfl
    · obtain ⟨tw', -, rfl⟩ := Option.map_eq_some_iff.mp h
      rfl
  · rw [if_neg (by simpa using htomb)]
    cases h
    rfl

/-- The newest version that is not rolled back is written to the page. -/
lemma written_cellOk {n : ℕ} {value : Value} {cell : Option Cell} {past : List Update}
    (h : w.written n value = some cell) :
    ((∀ u ∈ w.updates.drop n, u.txnid = txnAborted) ∧ cell = w.cell) ∨
      CellOk cell (w.updates.drop n ++ past) := by
  rw [written] at h
  split at h
  next hnil =>
    refine .inl ⟨?_, by simpa using h.symm⟩
    simpa using dropWhile_eq_nil_iff.mp hnil
  next upd next hcons =>
    split at h
    next tw htw =>
      split_ifs at h with hstop
      cases h
      right
      intro A m B hsplit hA hm
      -- the first version of the list that is not rolled back is the one written
      have hfirst : upd = m := by
        have hdrop := congrArg (dropWhile fun u => u.txnid == txnAborted) hsplit
        rw [dropWhile_append, hcons] at hdrop
        rw [dropWhile_append_of_pos (by simpa using hA),
          dropWhile_cons_of_neg (by simpa using hm)] at hdrop
        simp only [isEmpty_cons, Bool.false_eq_true, if_false, cons_append,
          cons.injEq] at hdrop
        exact hdrop.1
      subst hfirst
      exact ⟨_, rfl, writtenWindow_newest htw hstop⟩
    next => cases h

/-- Eviction writes the newest version to the page. -/
lemma evict (h : w.Inv f) {n : ℕ} {value : Value} {cell : Option Cell}
    (hpend : ∀ x ∈ w.txns, x.pending = none)
    (hended : ∀ u ∈ w.updates.drop n, w.ended u = true)
    (hcell : w.written n value = some cell) :
    World.Inv f
      { w with chain := w.chain.take n, cell := cell, past := w.chain.drop n ++ w.past } := by
  refine h.cut ?_ ?_ ?_ (.inr hpend)
  · intro u hu
    right
    intro y hy hown
    have hall := all_eq_true.mp (hended u hu) y hy
    simp only [hown, Bool.not_true, Bool.false_or, beq_iff_eq] at hall
    simp [isOpen, hall]
  · intro x hx next hnext
    simp [hpend x hx] at hnext
  · rcases written_cellOk hcell with ⟨hab, rfl⟩ | hok
    · rcases h.cell with ⟨u, hu, hua, hclosed⟩ | hok
      · left
        refine ⟨u, ?_, hua, hclosed⟩
        rw [← take_append_drop n w.updates] at hu
        exact (mem_append.mp hu).resolve_right fun hmem => hua (hab u hmem)
      · right
        intro A m B hsplit hA hm
        obtain ⟨A', rfl⟩ | ⟨B', hB'⟩ : (∃ A', A = w.updates.drop n ++ A') ∨
            ∃ B', w.updates.drop n = A ++ m :: B' := by
          rcases append_eq_append_iff.mp hsplit with ⟨A', hA', -⟩ | ⟨B', hB', hrest⟩
          · exact .inl ⟨A', hA'⟩
          · cases B' with
            | nil => exact .inl ⟨[], by simpa using hB'.symm⟩
            | cons b B' =>
              simp only [cons_append, cons.injEq] at hrest
              exact .inr ⟨B', by rw [hB', hrest.1]⟩
        · rw [append_assoc] at hsplit
          exact hok A' m B (append_cancel_left hsplit)
            (fun a ha => hA a (mem_append_right _ ha)) hm
        · exact absurd (hab m (by rw [hB']; simp)) hm
    · exact .inr hok

/-- **Every step keeps the invariant.** -/
theorem step (h : w.Inv f) {w' : World} {a : Action} (hstep : w.step a = some w') : w'.Inv f := by
  cases step_effect hstep with
  | begin readTs ignorePrepare => exact h.begin readTs ignorePrepare
  | allocId t x _ hx hrun hid hlt => exact h.allocId hx hrun hid hlt
  | advance t x x' _ hx hadv => exact h.advance hx hadv
  | prepend t x data _ hx hrun hid hpend => exact h.prepend hx hrun hid hpend data
  | resolve t i x n u _ hx hn hown hu => exact h.resolve hx hn hown hu
  | truncate g i first hpins hfirst => exact h.truncate hpins hfirst
  | evict n value cell _ hpend hended hcell => exact h.evict hpend hended hcell

/-- Every run keeps the invariant. -/
lemma run (h : w.Inv f) {w' : World} {as : List Action}
    (hrun : Lib.run World.step w as = some w') : w'.Inv f :=
  run_invariant (fun _ _ _ hi hs => hi.step hs) h hrun

end World.Inv

end WiredTiger
