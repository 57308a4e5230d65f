/-
# Reads of a snapshot do not change

Other transactions begin, write, prepare, commit and roll back.  To a reader with a snapshot the
updates of a chain change in few ways: what its snapshot hides stays hidden, what is prepared gets
a timestamp that is no older or is dropped, and all else stays as it is.
-/
import WiredTiger.Txn.WorldRun

namespace WiredTiger

open Lib List Option Except World Update Txn

variable {f : ℕ} {view : View} {txns txns' : List Txn} {u u' u'' : Update}

/-! ### How an update changes to a reader -/

/-- The update is prepared, or its commit is under way. -/
def Update.Pending (u : Update) : Prop := u.prepare = .inprogress ∨ u.prepare = .locked

/-- What a reader can make of the changes to an update. -/
structure Evolves (view : View) (u u' : Update) : Prop where
  data : u'.data = u.data
  restored : u'.restoredFromHs = u.restoredFromHs
  aborted : u.txnid = txnAborted → u'.txnid = txnAborted
  change : u' = u ∨
    (txnVisibleId view u.txnid = false ∧ txnVisibleId view u'.txnid = false) ∨
    (u.Pending ∧ (txnVisibleId view u'.txnid = false ∨
      (u'.txnid = u.txnid ∧ u.startTs ≤ u'.startTs)))

lemma txnVisibleId_aborted : txnVisibleId view txnAborted = false := by
  simp [txnVisibleId, txnNone, txnAborted]

namespace Evolves

lemma refl (u : Update) : Evolves view u u := ⟨rfl, rfl, id, .inl rfl⟩

/-- What is hidden is hidden for good. -/
lemma hidden (h : Evolves view u u') (hid : txnVisibleId view u.txnid = false) :
    txnVisibleId view u'.txnid = false := by
  rcases h.change with rfl | ⟨-, hid'⟩ | ⟨-, hid' | ⟨heq, -⟩⟩
  · exact hid
  · exact hid'
  · exact hid'
  · rw [heq]
    exact hid

lemma trans (h : Evolves view u u') (h' : Evolves view u' u'') : Evolves view u u'' := by
  refine ⟨h'.data.trans h.data, h'.restored.trans h.restored, fun ha => h'.aborted (h.aborted ha),
    ?_⟩
  rcases h.change with rfl | ⟨hid, hid'⟩ | ⟨hpend, hchange⟩
  · exact h'.change
  · exact .inr (.inl ⟨hid, h'.hidden hid'⟩)
  · refine .inr (.inr ⟨hpend, ?_⟩)
    rcases hchange with hid | ⟨heq, hts⟩
    · exact .inl (h'.hidden hid)
    · rcases h'.change with rfl | ⟨-, hid''⟩ | ⟨-, hid'' | ⟨heq', hts'⟩⟩
      · exact .inr ⟨heq, hts⟩
      · exact .inl hid''
      · exact .inl hid''
      · exact .inr ⟨heq'.trans heq, hts.trans hts'⟩

end Evolves

/-- A later timestamp is not easier to see. -/
lemma txnVisible_of_le {id ts ts' : ℕ} (hle : ts ≤ ts') (h : txnVisible view id ts' = true) :
    txnVisible view id ts = true := by
  obtain ⟨hid, hts⟩ := txnVisible_iff.mp h
  refine txnVisible_iff.mpr ⟨hid, hts.imp_right fun hts readTs hread => ?_⟩
  rcases hts readTs hread with hnone | hle'
  · simp only [tsNone] at hnone ⊢
    omega
  · omega

/-- The id of an update that is visible is not hidden. -/
lemma not_hidden (h : txnUpdVisibleType view u = .ok .true) :
    txnVisibleId view u.txnid ≠ false := by
  intro hid
  simpa [txnVisible, hid] using (txnUpdVisibleType_eq_true h).1

/-! ### How a chain changes to a reader -/

/-- A chain changes update by update, and may be cut behind one the reader stops at. -/
inductive EvolvesChain (view : View) (S : Update → Update → Prop) :
    List Update → List Update → Prop
  | nil : EvolvesChain view S [] []
  | cons {u u' : Update} {chain chain' : List Update} (hu : S u u')
      (hrest : EvolvesChain view S chain chain') : EvolvesChain view S (u :: chain) (u' :: chain')
  | cut {u u' : Update} {chain : List Update} (hu : S u u')
      (hvis : txnUpdVisibleType view u' = .ok .true) (hval : u'.data.isValue = true) :
      EvolvesChain view S (u :: chain) [u']

/-- How an update changes between two states of the transactions: besides what the reader makes of
it, an update that cannot be rolled back stays so. -/
structure Moves (view : View) (txns txns' : List Txn) (u u' : Update) : Prop where
  evolves : Evolves view u u'
  closed : u.txnid ≠ txnAborted → Closed txns u → u'.txnid = u.txnid ∧ Closed txns' u'

/-- What the read of an update tells about the update before. -/
lemma Evolves.visible_before (h : Evolves view u u')
    (hvis : txnUpdVisibleType view u' = .ok .true) : u' = u ∨ u.Pending ∧
      txnVisible view u.txnid u.startTs = true := by
  obtain ⟨hvis', -, -⟩ := txnUpdVisibleType_eq_true hvis
  rcases h.change with rfl | ⟨-, hid⟩ | ⟨hpend, hid | ⟨heq, hts⟩⟩
  · exact .inl rfl
  · exact absurd hid (not_hidden hvis)
  · exact absurd hid (not_hidden hvis)
  · rw [heq] at hvis'
    exact .inr ⟨hpend, txnVisible_of_le hts hvis'⟩

lemma Evolves.eq_of_visible (h : Evolves view u u')
    (htype : txnUpdVisibleType view u = .ok .true) : u' = u := by
  obtain ⟨-, hlocked, hprep⟩ := txnUpdVisibleType_eq_true htype
  rcases h.change with rfl | ⟨hid, -⟩ | ⟨hpend, -⟩
  · rfl
  · exact absurd hid (not_hidden htype)
  · exact (hpend.elim hprep hlocked).elim

/-! ### Two reads -/

/-- The restored update a walk remembers. -/
def restoredOf (upd : Update) (restoredUpd : Option Update) : Option Update :=
  match upd.data with
  | .standard _ => if upd.restoredFromHs then some upd else restoredUpd
  | _ => restoredUpd

variable {chain chain' : List Update} {p p' ru ru' : Option Update} {r r' : UpdList}

section

variable (hign : view.ignorePrepare = false)
include hign

/-- A walk that comes to an end stops at an update, or passes one that is invisible. -/
lemma txnReadUpdList_cons (h : txnReadUpdList view (u :: chain) p ru = .ok r) :
    (u.data ≠ .reserve ∧ txnUpdVisibleType view u = .ok .true ∧ r = ⟨u :: chain, p, ru⟩) ∨
      ((u.data = .reserve ∨ txnVisible view u.txnid u.startTs = false) ∧
        ∃ p', txnReadUpdList view chain p' (restoredOf u ru) = .ok r) := by
  rw [txnReadUpdList] at h
  by_cases hres : u.data = .reserve
  · rw [if_pos hres] at h
    refine .inr ⟨.inl hres, p, ?_⟩
    simpa [restoredOf, hres] using h
  rw [if_neg hres] at h
  rcases htype : txnUpdVisibleType view u with e | vt
  · simp [htype] at h
  cases vt with
  | true =>
    simp only [htype, ok.injEq] at h
    exact .inl ⟨hres, rfl, h.symm⟩
  | prepare => simp [htype, hign] at h
  | false =>
    have hvis : txnVisible view u.txnid u.startTs = false := by
      simp only [txnUpdVisibleType] at htype
      split_ifs at htype with hlocked hvis hprep <;> simp_all
    rw [htype] at h
    exact .inr ⟨.inr hvis, _, h⟩

/-- New updates that the reader does not see do not stop it. -/
lemma txnReadUpdList_fresh {new : List Update}
    (hnew : ∀ n ∈ new, txnVisibleId view n.txnid = false ∧ n.restoredFromHs = false)
    (h : txnReadUpdList view (new ++ chain) p ru = .ok r) :
    ∃ p', txnReadUpdList view chain p' ru = .ok r := by
  induction new generalizing p with
  | nil => exact ⟨p, h⟩
  | cons n new ih =>
    obtain ⟨hhid, hrest⟩ := hnew n mem_cons_self
    rcases txnReadUpdList_cons hign h with ⟨-, htype, -⟩ | ⟨-, p', h'⟩
    · exact absurd hhid (not_hidden htype)
    · have hru : restoredOf n ru = ru := by
        rw [restoredOf]
        split
        · simp [hrest]
        · rfl
      rw [hru] at h'
      exact ih (fun m hm => hnew m (mem_cons_of_mem _ hm)) h'

/-- **Two walks find the same.**  Both come to the end of the chain, or both stop at one update. -/
lemma readUpdList_evolves (h : EvolvesChain view (Moves view txns txns') chain chain')
    (hru : ru.map data = ru'.map data) (hr : txnReadUpdList view chain p ru = .ok r)
    (hr' : txnReadUpdList view chain' p' ru' = .ok r') :
    (r.chain = [] ∧ r'.chain = [] ∧
        r.restoredUpd.map data = r'.restoredUpd.map data) ∨
      ∃ A n rest rest', chain = A ++ n :: rest ∧ txnUpdVisibleType view n = .ok .true ∧
        r.chain = n :: rest ∧ r'.chain = n :: rest' ∧
        (EvolvesChain view (Moves view txns txns') rest rest' ∨ n.data.isValue = true) := by
  -- an update that is passed over is not found later on
  have hfound : ∀ {u u' : Update}, Evolves view u u' → u'.data ≠ .reserve →
      txnUpdVisibleType view u' = .ok .true →
      ¬ (u.data = .reserve ∨ txnVisible view u.txnid u.startTs = false) := by
    rintro u u' hev hres htype (hres' | hvis)
    · exact hres (hev.data.trans hres')
    · rcases hev.visible_before htype with rfl | ⟨-, hvis'⟩
      · simp [(txnUpdVisibleType_eq_true htype).1] at hvis
      · simp [hvis'] at hvis
  induction h generalizing p p' ru ru' with
  | nil =>
    simp only [txnReadUpdList, ok.injEq] at hr hr'
    subst hr hr'
    exact .inl ⟨rfl, rfl, hru⟩
  | @cons u u' chain chain' hu hrest ih =>
    rcases txnReadUpdList_cons hign hr with ⟨hres, htype, rfl⟩ | ⟨hskip, q, hr⟩
    · obtain rfl := hu.evolves.eq_of_visible htype
      rcases txnReadUpdList_cons hign hr' with ⟨-, -, rfl⟩ | ⟨hskip', -⟩
      · exact .inr ⟨[], u', chain, chain', rfl, htype, rfl, rfl, .inl hrest⟩
      · exact absurd hskip' (hfound (Evolves.refl u') hres htype)
    · rcases txnReadUpdList_cons hign hr' with ⟨hres', htype', -⟩ | ⟨-, q', hr'⟩
      · exact absurd hskip (hfound hu.evolves hres' htype')
      · have hru' : (restoredOf u ru).map data = (restoredOf u' ru').map data := by
          simp only [restoredOf, hu.evolves.data, hu.evolves.restored]
          split
          next value hdata =>
            split_ifs
            · simp [hu.evolves.data]
            · exact hru
          next => exact hru
        rcases ih hru' hr hr' with hend | ⟨A, n, rest, rest', rfl, hn⟩
        · exact .inl hend
        · exact .inr ⟨u :: A, n, rest, rest', rfl, hn⟩
  | @cut u u' chain hu hvis hval =>
    have hres' : u'.data ≠ .reserve := by
      intro h
      simp [h, UpdData.isValue] at hval
    rcases txnReadUpdList_cons hign hr with ⟨hres, htype, rfl⟩ | ⟨hskip, -⟩
    · obtain rfl := hu.evolves.eq_of_visible htype
      rcases txnReadUpdList_cons hign hr' with ⟨-, -, rfl⟩ | ⟨hskip', -⟩
      · exact .inr ⟨[], u', chain, [], rfl, htype, rfl, rfl, .inr hval⟩
      · exact absurd hskip' (hfound (Evolves.refl u') hres' htype)
    · exact absurd hskip (hfound hu.evolves hres' hvis)

end

/-- A value is rebuilt from updates that cannot be rolled back as before. -/
lemma modifyReconstruct_evolves {fmt : ValueFormat} {onpage : Option Value}
    (h : EvolvesChain view (Moves view txns txns') chain chain')
    (hclosed : ∀ m ∈ chain, m.txnid = txnAborted ∨ Closed txns m) :
    modifyReconstruct fmt onpage chain' = modifyReconstruct fmt onpage chain := by
  have hstays : ∀ {u u' : Update}, Moves view txns txns' u u' →
      (u.txnid = txnAborted ∨ Closed txns u) → (u'.txnid = txnAborted ↔ u.txnid = txnAborted) := by
    intro u u' hu hc
    refine ⟨fun hab => ?_, hu.evolves.aborted⟩
    by_contra hne
    exact hne ((hu.closed hne (hc.resolve_left hne)).1.symm.trans hab)
  induction h with
  | nil => rfl
  | @cons u u' chain chain' hu hrest ih =>
    have ih := ih fun m hm => hclosed m (mem_cons_of_mem _ hm)
    simp [modifyReconstruct, hstays hu (hclosed u mem_cons_self), hu.evolves.data, ih]
  | @cut u u' chain hu hvis hval =>
    have hab : u'.txnid ≠ txnAborted :=
      txnVisible_ne_aborted (txnUpdVisibleType_eq_true hvis).1
    have hab' : u.txnid ≠ txnAborted := fun h => hab (hu.evolves.aborted h)
    simp only [modifyReconstruct, hab, hab', hu.evolves.data, if_false]
    rw [hu.evolves.data] at hval
    cases hdata : u.data with
    | standard value => rfl
    | tombstone => rfl
    | reserve | modify => simp [hdata, UpdData.isValue] at hval

/-! ### Chains through a run -/

variable {txns'' : List Txn}

lemma Moves.trans (h : Moves view txns txns' u u') (h' : Moves view txns' txns'' u' u'') :
    Moves view txns txns'' u u'' := by
  refine ⟨h.evolves.trans h'.evolves, fun hne hclosed => ?_⟩
  obtain ⟨heq, hclosed'⟩ := h.closed hne hclosed
  obtain ⟨heq', hclosed''⟩ := h'.closed (by rw [heq]; exact hne) hclosed'
  exact ⟨heq'.trans heq, hclosed''⟩

namespace EvolvesChain

/-- The updates change once more. -/
lemma then_moves {d d' : List Update} (h : EvolvesChain view (Moves view txns txns') chain d)
    (hd : List.Forall₂ (Moves view txns' txns'') d d') :
    EvolvesChain view (Moves view txns txns'') chain d' := by
  induction h generalizing d' with
  | nil =>
    cases hd
    exact .nil
  | cons hu _ ih =>
    cases hd with
    | cons hu' hrest => exact .cons (hu.trans hu') (ih hrest)
  | cut hu hvis hval =>
    cases hd with
    | cons hu' hrest =>
      cases hrest
      obtain rfl := hu'.evolves.eq_of_visible hvis
      exact .cut (hu.trans hu') hvis hval

/-- The chain is cut behind an update the reader stops at. -/
lemma then_cut {S : Update → Update → Prop} {A B : List Update} {n : Update}
    (h : EvolvesChain view S chain (A ++ n :: B)) (hvis : txnUpdVisibleType view n = .ok .true)
    (hval : n.data.isValue = true) : EvolvesChain view S chain (A ++ [n]) := by
  induction A generalizing chain with
  | nil =>
    cases h with
    | cons hu _ | cut hu _ _ => exact .cut hu hvis hval
  | cons a A ih =>
    rw [cons_append] at h
    generalize hl : A ++ n :: B = l at h
    cases h with
    | cons hu hrest =>
      subst hl
      exact .cons hu (ih hrest)
    | cut => simp at hl

end EvolvesChain

namespace World

variable {w w' w₀ : World} {x y : Txn} {r t : ℕ}

/-- What another transaction in the global table writes is hidden. -/
lemma Inv.hidden_other (h : w.Inv f) (hx : w.txns[r]? = some x) (hy : w.txns[t]? = some y)
    (hne : t ≠ r) (htable : y.inTable = true) :
    txnVisibleId x.view y.view.id = false ∧ y.view.id ≠ x.view.id := by
  have hxmem := mem_of_getElem? hx
  have hymem := mem_of_getElem? hy
  have hyid := hasId_of_inTable htable
  have hbound := h.txns.ids y hymem hyid
  have hpos := h.pos
  have hcap := h.cap
  have hself : y.view.id ≠ x.view.id := by
    intro heq
    rcases hxid : x.view.hasId with _ | _
    · have := h.txns.noId x hxmem hxid
      simp only [txnNone] at this
      omega
    · exact hne (h.txns.uniq t r y x hy hx hyid hxid heq)
  refine ⟨?_, hself⟩
  have h0 : y.view.id ≠ txnNone := by
    simp only [txnNone]
    omega
  have hab : y.view.id ≠ txnAborted := by omega
  simp [txnVisibleId, h0, hab, hself, h.txns.isolation x hxmem,
    h.txns.hidden x hxmem y hymem htable]

/-- An update stays as it is while the transactions change. -/
lemma Inv.moves_refl (h : w.Inv f) (hext : Extends w.current w.txns txns') :
    List.Forall₂ (Moves view w.txns txns') w.updates w.updates :=
  forall₂_same.mpr fun u hu => ⟨Evolves.refl u, fun hne hclosed =>
    ⟨rfl, hext.closed (h.lt_current (Inv.updates_subset hu) hne) hclosed⟩⟩

/-- A transaction that handles an update does nothing to it that a reader should not see. -/
lemma Inv.moves_resolve (h : w.Inv f) {i : ℕ} {n : Node} {v : Update}
    (hx : w.txns[r]? = some x) (hy : w.txns[t]? = some y) (hne : t ≠ r)
    (hn : w.chain[i]? = some n) (hown : y.owns n.upd = true) (hu : y.resolveUpdate n.upd = some v) :
    List.Forall₂ (Moves x.view w.txns w.txns) w.updates
      ((w.chain.set i ⟨n.addr, v⟩).map Node.upd) := by
  have hymem := mem_of_getElem? hy
  refine (h.resolve_forall₂ hy hn hown hu).imp fun u u' huu' => ?_
  rcases huu' with rfl | ⟨hmem, hown, hok, hres⟩
  · exact ⟨Evolves.refl u', fun _ hclosed => ⟨rfl, hclosed⟩⟩
  obtain ⟨hyid, heq⟩ := owns_iff.mp hown
  obtain ⟨hdata, hchange⟩ := resolveUpdate_spec hyid hok (h.txns.resolving y hymem) hres
  have hhidden : y.inTable = true → txnVisibleId x.view u.txnid = false := by
    intro htable
    rw [heq]
    exact (h.hidden_other hx hy hne htable).1
  refine ⟨⟨hdata, resolveUpdate_restored hres, fun hab => by omega, ?_⟩, ?_⟩
  · rcases hchange with ⟨hab, hopen⟩ | ⟨hid, -, htable | ⟨hpend, hts, -⟩⟩
    · have hhid' : txnVisibleId x.view u'.txnid = false := by rw [hab]; exact txnVisibleId_aborted
      rcases inTable_or_inprogress hyid hopen hok with htable | hin
      · exact .inr (.inl ⟨hhidden htable, hhid'⟩)
      · exact .inr (.inr ⟨.inl hin, .inl hhid'⟩)
    · exact .inr (.inl ⟨hhidden htable, by rw [hid]; exact hhidden htable⟩)
    · exact .inr (.inr ⟨hpend, .inr ⟨hid, hts⟩⟩)
  · intro _ hclosed
    rcases hchange with ⟨-, hopen⟩ | ⟨hid, -⟩
    · simp [hclosed y hymem hown] at hopen
    · refine ⟨hid, ?_⟩
      simpa [Closed, owns, hid] using hclosed

/-- What is below an update that a reader sees, and did not write, cannot be rolled back. -/
lemma Inv.closed_below (h : w.Inv f) (hx : w.txns[r]? = some x)
    (hown : ∀ u ∈ w.updates, x.owns u = false) {A rest : List Update} {n m : Update}
    (hchain : w.updates = A ++ n :: rest) (htype : txnUpdVisibleType x.view n = .ok .true)
    (hm : m ∈ rest) : m.txnid = txnAborted ∨ Closed w.txns m := by
  refine or_iff_not_imp_left.mpr fun hma => ?_
  have hxmem := mem_of_getElem? hx
  have hn : n ∈ w.updates := by
    rw [hchain]
    simp
  have hna := txnVisible_ne_aborted (txnUpdVisibleType_eq_true htype).1
  have hclosed : Closed w.txns n := by
    rcases h.sees_of_visible hxmem hn htype with hself | ⟨hclosed, -⟩
    · rcases hid : x.view.hasId with _ | _
      · have h0 := h.txns.noId x hxmem hid
        refine h.closed_of_lt ?_
        rw [hself, h0]
        exact h.pos
      · have := hown n hn
        simp [owns, hid, hself] at this
    · exact hclosed
  have hpair : PairOk f w.txns n m := by
    have hp := h.pairs
    rw [versions, map_append, ← updates, hchain, append_assoc] at hp
    exact (pairwise_cons.mp (pairwise_append.mp hp).2.1).1 m
      (mem_append_left _ hm)
  rcases hpair hna hma with ⟨-, hlt⟩ | ⟨y, hy, hyown, hself | ⟨hclosed', -⟩⟩
  · exact h.closed_of_lt hlt
  · -- an older update of the same transaction
    have heq : m.txnid = n.txnid := hself.trans (owns_iff.mp hyown).2.symm
    simpa [Closed, owns, heq] using hclosed
  · exact hclosed'

/-- A reader `x` with a snapshot, since the world was `w₀`: the chain is what is left of the old
one, behind updates the reader does not see. -/
structure ReaderSince (f r : ℕ) (x : Txn) (w₀ w : World) : Prop where
  inv : w.Inv f
  reader : w.txns[r]? = some x
  running : x.phase = .running
  cell : w.cell = w₀.cell
  chain : ∃ new old, w.updates = new ++ old ∧
    (∀ n ∈ new, txnVisibleId x.view n.txnid = false ∧ n.restoredFromHs = false) ∧
    EvolvesChain x.view (Moves x.view w₀.txns w.txns) w₀.updates old

namespace ReaderSince

/-- The updates change one by one. -/
lemma moves (h : ReaderSince f r x w₀ w) (hinv : w'.Inv f) (hreader : w'.txns[r]? = some x)
    (hcell : w'.cell = w.cell) (new₁ : List Update) {mid : List Update}
    (hupd : w'.updates = new₁ ++ mid)
    (hnew₁ : ∀ n ∈ new₁, txnVisibleId x.view n.txnid = false ∧ n.restoredFromHs = false)
    (hmoves : List.Forall₂ (Moves x.view w.txns w'.txns) w.updates mid) :
    ReaderSince f r x w₀ w' := by
  refine ⟨hinv, hreader, h.running, hcell.trans h.cell, ?_⟩
  obtain ⟨new, old, hsplit, hnew, hold⟩ := h.chain
  rw [hsplit] at hmoves
  refine ⟨new₁ ++ mid.take new.length, mid.drop new.length, ?_, ?_, ?_⟩
  · rw [hupd, append_assoc, take_append_drop]
  · have htake := forall₂_take new.length hmoves
    rw [take_left] at htake
    intro n' hn'
    rcases mem_append.mp hn' with hn' | hn'
    · exact hnew₁ n' hn'
    · obtain ⟨n, hn, hnn'⟩ := exists_left_of_mem htake hn'
      obtain ⟨hhid, hrest⟩ := hnew n hn
      exact ⟨hnn'.evolves.hidden hhid, hnn'.evolves.restored.trans hrest⟩
  · have hdrop := forall₂_drop new.length hmoves
    rw [drop_left] at hdrop
    exact hold.then_moves hdrop

/-- Steps of other transactions on the key in memory. -/
lemma step (h : ReaderSince f r x w₀ w) {a : Action} (hactor : a.actor ≠ some r)
    (hevict : a.isEvict = false) (hstep : w.step a = some w') : ReaderSince f r x w₀ w' := by
  have hinv := h.inv
  have hinv' := hinv.step hstep
  have hother : ∀ {t : ℕ}, a.actor = some t → t ≠ r := by
    rintro t ha rfl
    exact hactor ha
  cases step_effect hstep with
  | begin readTs ignorePrepare =>
    refine h.moves hinv' ?_ rfl [] rfl (by simp) (hinv.moves_refl (.begin rfl))
    rw [List.getElem?_append_left (List.getElem?_eq_some_iff.mp h.reader).1]
    exact h.reader
  | allocId t y ha hy hrun hid hlt =>
    refine h.moves hinv' ?_ rfl [] rfl (by simp)
      (hinv.moves_refl (Extends.allocId hy hid))
    exact (getElem?_set_ne (hother ha)).trans h.reader
  | advance t y y' ha hy hadv =>
    refine h.moves hinv' ?_ rfl [] rfl (by simp)
      (hinv.moves_refl (Extends.set hy hadv.view hadv.opens))
    exact (getElem?_set_ne (hother ha)).trans h.reader
  | prepend t y data ha hy hrun hid hpend =>
    have htable : y.inTable = true := by simp [inTable, hid, hrun]
    refine h.moves hinv' ?_ rfl [y.newUpdate data] rfl ?_
      (hinv.moves_refl (Extends.set hy rfl fun h => h))
    · exact (getElem?_set_ne (hother ha)).trans h.reader
    · intro n hn
      obtain rfl := mem_singleton.mp hn
      rw [(y.newUpdate_spec data).1]
      exact ⟨(hinv.hidden_other h.reader hy (hother ha) htable).1, by simp [newUpdate]⟩
  | resolve t i y n u ha hy hn hown hu =>
    exact h.moves hinv' h.reader rfl [] rfl (by simp)
      (hinv.moves_resolve h.reader hy (hother ha) hn hown hu)
  | truncate g i first hpins hfirst =>
    obtain ⟨A, n, B, hsplit, hlen, hna, hall, hval, -⟩ := Inv.truncate_split hfirst
    rw [zero_add] at hlen
    have hvis : txnUpdVisibleType x.view n = .ok .true := by
      have hn : n ∈ w.updates := by
        rw [hsplit]
        simp
      exact hinv.visible_of_pins hpins hn hna hall (mem_of_getElem? h.reader) h.running
    obtain ⟨new, old, hsplit', hnew, hold⟩ := h.chain
    -- the reader does not see what is new, so the cut is in the old part
    obtain ⟨A', rfl, rfl⟩ : ∃ A', A = new ++ A' ∧ old = A' ++ n :: B := by
      rcases append_eq_append_iff.mp (hsplit.symm.trans hsplit') with
        ⟨A', hA', hrest⟩ | ⟨A', hA', hrest⟩
      · cases A' with
        | nil => exact ⟨[], by simpa using hA'.symm, by simpa using hrest.symm⟩
        | cons b A' =>
          simp only [cons_append, List.cons.injEq] at hrest
          exact absurd (hnew n (by rw [hA', hrest.1]; simp)).1 (not_hidden hvis)
      · exact ⟨A', hA', hrest⟩
    refine ⟨hinv', h.reader, h.running, h.cell, new, A' ++ [n], ?_, hnew,
      hold.then_cut hvis hval⟩
    have htake : w.updates.take (first + 1) = (new ++ A') ++ [n] := by
      rw [hsplit, hlen, ← singleton_append, ← append_assoc]
      exact take_left' (by simp [add_assoc])
    rw [updates, map_take, ← updates, htake, append_assoc]
  | evict n value cell ha _ _ _ => simp [ha] at hevict

/-- The two reads, before and after, give the same value if both give one. -/
lemma read_eq (h₀ : w₀.Inv f) (h : ReaderSince f r x w₀ w) (hx : w₀.txns[r]? = some x)
    (hign : x.view.ignorePrepare = false) (hown : ∀ u ∈ w₀.updates, x.owns u = false)
    {g : Global} {fmt : ValueFormat} {hs : List HsRec} {after : Bool} {v v' : UpdateValue}
    (hv : txnRead x.view g fmt hs after w₀.cell w₀.updates = .ok v)
    (hv' : txnRead x.view g fmt hs after w.cell w.updates = .ok v') : v = v' := by
  obtain ⟨new, old, hsplit, hnew, hold⟩ := h.chain
  rw [h.cell, hsplit] at hv'
  rcases hr : txnReadUpdList x.view w₀.updates none none with e | found
  · simp [txnRead, hr, bind, Except.bind] at hv
  rcases hr' : txnReadUpdList x.view (new ++ old) none none with e | found'
  · simp [txnRead, hr', bind, Except.bind] at hv'
  simp only [txnRead, hr, bind, Except.bind] at hv
  simp only [txnRead, hr', bind, Except.bind] at hv'
  obtain ⟨p, hr'⟩ := txnReadUpdList_fresh hign hnew hr'
  rcases readUpdList_evolves hign hold rfl hr hr' with
    ⟨hnil, hnil', hres⟩ | ⟨A, n, rest, rest', hchain, htype, hfound, hfound', hrest⟩
  · -- no update is visible
    simp only [hnil, hnil', ne_eq, not_true, if_false] at hv hv'
    cases hcell : w₀.cell with
    | none =>
      simp only [hcell, Except.ok.injEq] at hv hv'
      exact hv.symm.trans hv'
    | some cell =>
      rcases hru : found.restoredUpd with _ | ⟨_, _, _, data, _, _, _⟩ <;>
        rcases hru' : found'.restoredUpd with _ | ⟨_, _, _, data', _, _, _⟩ <;>
        simp only [hru, hru', map_none, map_some, reduceCtorEq,
          some.injEq] at hres hv hv'
      · rw [hv] at hv'
        exact Except.ok.inj hv'
      · subst hres
        cases data <;> simp only at hv hv' <;> rw [hv] at hv' <;> exact Except.ok.inj hv'
  · -- both reads stop at one update
    simp only [hfound, hfound', ne_eq, reduceCtorEq, not_false_eq_true, if_true,
      Except.ok.injEq] at hv hv'
    subst hv hv'
    have hbelow := fun m => h₀.closed_below (m := m) hx hown hchain htype
    cases hdata : n.data with
    | standard | tombstone | reserve => simp [updValueAssign, hdata]
    | modify entries =>
      have hrest := hrest.resolve_right (by simp [hdata, UpdData.isValue])
      have hrec : ∀ onpage, modifyReconstruct fmt onpage (n :: rest') =
          modifyReconstruct fmt onpage (n :: rest) := by
        intro onpage
        simp [modifyReconstruct, modifyReconstruct_evolves hrest hbelow]
      simp [updValueAssign, hdata, hrec]

end ReaderSince

end World

/-! ### Snapshot isolation -/

namespace World

variable {w w' w₀ : World}

/-- The value a transaction gets for the key. -/
def read (w : World) (x : Txn) (g : Global) (fmt : ValueFormat) (hs : List HsRec) (after : Bool) :
    Except Stop UpdateValue :=
  txnRead x.view g fmt hs after w.cell w.updates

/-- **Snapshot isolation of reads.**  In every reachable world take a running transaction that does
not ignore prepared updates and has not written the key.  Whatever the other transactions do in
memory then, two reads of it that give a value give the same value; what keeps a read from giving
one is a prepare conflict or an update whose commit is under way.  And a snapshot hides just the ids
that are running when it is taken, and those from its upper bound on. -/
theorem read_stable (h₀ : w₀.Initial) {as bs : List Action} (hrun : run step w₀ as = some w)
    {r : ℕ} {x : Txn} (hx : w.txns[r]? = some x) (hrunning : x.phase = .running)
    (hign : x.view.ignorePrepare = false) (hown : ∀ u ∈ w.updates, x.owns u = false)
    (hothers : ∀ b ∈ bs, b.actor ≠ some r ∧ b.isEvict = false)
    (hrun' : run step w bs = some w') (g : Global) (fmt : ValueFormat) (hs : List HsRec)
    (after : Bool) :
    (w'.txns[r]? = some x ∧
      ∀ v v', w.read x g fmt hs after = .ok v → w'.read x g fmt hs after = .ok v' → v = v') ∧
    (∀ (s : Snapshot) (id : ℕ),
      txnVisibleIdSnapshot id s = false ↔ id ∈ s.ids ∨ s.snapMax ≤ id) ∧
    ∀ id, txnVisibleIdSnapshot id w.getSnapshot = false ↔
      (∃ y ∈ w.txns, y.inTable = true ∧ y.view.id = id) ∨ w.current ≤ id := by
  have hinv : w.Inv w₀.current := h₀.inv.run hrun
  have hself : ∀ l, EvolvesChain x.view (Moves x.view w.txns w.txns) l l := by
    intro l
    induction l with
    | nil => exact .nil
    | cons u l ih => exact .cons ⟨Evolves.refl u, fun _ hclosed => ⟨rfl, hclosed⟩⟩ ih
  have hstart : ReaderSince w₀.current r x w w :=
    ⟨hinv, hx, hrunning, rfl, [], w.updates, rfl, by simp, hself _⟩
  have hend : ReaderSince w₀.current r x w w' :=
    run_invariant_of (A := fun b => b.actor ≠ some r ∧ b.isEvict = false)
      (fun _ _ _ hb hs hstep => hs.step hb.1 hb.2 hstep) hstart hothers hrun'
  refine ⟨⟨hend.reader, ?_⟩, fun _ _ => txnVisibleIdSnapshot_eq_false_iff,
    fun _ => getSnapshot_eq_false_iff⟩
  intro v v' hv hv'
  exact ReaderSince.read_eq hinv hend hx hign hown hv hv'

end World

/-- A key with a value on the page, before any transaction. -/
def keyOnPage : World :=
  ⟨1, [], [], some ⟨⟨tsNone, tsNone, txnNone, tsNone, tsMax, txnMax, false⟩, [1]⟩, none, 0, []⟩

lemma keyOnPage_initial : keyOnPage.Initial :=
  ⟨by decide, by decide, rfl, rfl, by simp [keyOnPage, updates], by simp [keyOnPage]⟩

/-- A transaction writes the key and prepares, then a reader begins. -/
def readerOverPrepared (ignorePrepare : Bool) : List Action :=
  [.begin none false, .txn 0 .allocId, .txn 0 .check, .txn 0 (.cas (.standard [2])),
    .txn 0 (.prepare 5), .txn 0 (.resolve 0), .txn 0 .release, .begin none ignorePrepare]

/-- A reader begins while the writer is running, and the writer commits. -/
def readerBeforeCommit : List Action :=
  [.begin none false, .txn 0 .allocId, .begin none false]

/-- The prepared transaction commits. -/
def commitOfPrepared : List Action :=
  [.txn 0 (.commitPrepared 6 7), .txn 0 (.resolve 0), .txn 0 (.resolve 0), .txn 0 .release]

/-- The writer writes and commits. -/
def writeAndCommit : List Action :=
  [.txn 0 .check, .txn 0 (.cas (.standard [2])), .txn 0 .commit, .txn 0 .release]

/-- A reader that ignores prepared updates reads the value on the page while the transaction is
prepared, and the new value once it has committed. -/
theorem read_ignorePrepare_changes :
    ∃ w w' x, keyOnPage.Initial ∧
      run step keyOnPage (readerOverPrepared true) = some w ∧
      run step w commitOfPrepared = some w' ∧ w.txns[1]? = some x ∧
      w'.txns[1]? = some x ∧ x.phase = .running ∧ (∀ u ∈ w.updates, x.owns u = false) ∧
      w.read x ⟨0, 0, false⟩ .u [] true = .ok (.standard [1]) ∧
      w'.read x ⟨0, 0, false⟩ .u [] true = .ok (.standard [2]) := by
  refine ⟨_, _, _, keyOnPage_initial, rfl, rfl, rfl, rfl, rfl, ?_, rfl, rfl⟩
  decide

/-- The reader that began before the commit reads the value on the page, before and after. -/
theorem read_stable_overCommit :
    ∃ w w' x, run step keyOnPage readerBeforeCommit = some w ∧
      run step w writeAndCommit = some w' ∧ w.txns[1]? = some x ∧
      ∀ v, w'.read x ⟨0, 0, false⟩ .u [] true = .ok v → v = .standard [1] := by
  refine ⟨_, _, _, rfl, rfl, rfl, ?_⟩
  intro v hv
  have hstable := @read_stable _ _ _ keyOnPage_initial readerBeforeCommit writeAndCommit rfl
    1 _ rfl rfl rfl (by decide) (by decide) rfl ⟨0, 0, false⟩ .u [] true
  exact (hstable.1.2 _ v rfl hv).symm

namespace World

/-- What transactions see. -/
structure Isolated (w : World) : Prop where
  closed : ∀ x ∈ w.txns, ∀ u ∈ w.updates, txnUpdVisibleType x.view u = .ok .true →
    u.txnid ≠ x.view.id → Closed w.txns u
  ended : ∀ x ∈ w.txns, ∀ y ∈ w.txns, y.inTable = true →
    txnVisibleIdSnapshot y.view.id x.view.snap = false
  causal : ∀ x ∈ w.txns, ∀ y ∈ w.txns, y.view.hasId = true →
    txnVisibleIdSnapshot y.view.id x.view.snap = true →
    ∀ id, txnVisibleIdSnapshot id y.view.snap = true → txnVisibleIdSnapshot id x.view.snap = true

/-- **No transaction reads what may be rolled back.**  In every run an update that a transaction
sees is its own, or that of one that cannot roll back; no snapshot shows a transaction that is in
the table, and one that shows a transaction shows all that this one's snapshot showed. -/
theorem isolated (h₀ : w₀.Initial) (as : List Action) : Along step Isolated w₀ as := by
  refine (along_of_invariant (fun _ _ _ h hs => h.step hs) h₀.inv as).mono fun w h => ?_
  refine ⟨fun x hx u hu htype hne => ?_, h.txns.hidden,
    fun x hx y hy hid => h.txns.mono y hy x hx hid⟩
  exact ((h.sees_of_visible hx hu htype).resolve_left hne).1

end World

theorem isolated_overCommit :
    Along World.step World.Isolated keyOnPage (readerBeforeCommit ++ writeAndCommit) :=
  World.isolated keyOnPage_initial _

end WiredTiger
