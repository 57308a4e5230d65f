/-
# Ids and snapshots

What holds of the transactions in every reachable world: ids are distinct, a transaction that is in
the global table is invisible to every snapshot, and a snapshot that sees a transaction sees
whatever that transaction's own snapshot saw.
-/
import WiredTiger.Txn.WorldStep
import WiredTiger.Lib.Pointwise

namespace WiredTiger

open Lib List Option World

lemma mem_sortSnapshot_ids {id snapMax : ℕ} {ids : List ℕ} :
    id ∈ (sortSnapshot ids snapMax).ids ↔ id ∈ ids :=
  mem_insertionSort _

lemma sortSnapshot_min_le {ids : List ℕ} {snapMax : ℕ} :
    (sortSnapshot ids snapMax).snapMin ≤ (sortSnapshot ids snapMax).snapMax := by
  simp only [sortSnapshot]
  split
  · split_ifs with hle
    · exact hle
    · exact le_rfl
  · exact le_rfl

lemma World.mem_runningIds {w : World} {id : ℕ} :
    id ∈ w.runningIds ↔ ∃ x ∈ w.txns, x.inTable = true ∧ x.view.id = id := by
  simp only [runningIds, mem_filterMap]
  constructor
  · rintro ⟨x, hx, h⟩
    split_ifs at h with htable
    exact ⟨x, hx, htable, by simpa using h⟩
  · rintro ⟨x, hx, htable, rfl⟩
    exact ⟨x, hx, by simp [htable]⟩

/-- A snapshot does not see what is in the global table when it is taken, nor ids that are given out
later. -/
lemma World.getSnapshot_eq_false_iff {w : World} {id : ℕ} :
    txnVisibleIdSnapshot id w.getSnapshot = false ↔
      (∃ x ∈ w.txns, x.inTable = true ∧ x.view.id = id) ∨ w.current ≤ id := by
  rw [txnVisibleIdSnapshot_eq_false_iff, getSnapshot, mem_sortSnapshot_ids,
    mem_runningIds]
  rfl

/-- Ids below `f` were given out before the first of the transactions. -/
structure TxnsInv (f current : ℕ) (txns : List Txn) : Prop where
  ids : ∀ x ∈ txns, x.view.hasId = true → f ≤ x.view.id ∧ x.view.id < current
  noId : ∀ x ∈ txns, x.view.hasId = false → x.view.id = txnNone
  uniq : ∀ (i j : ℕ) (x y : Txn), txns[i]? = some x → txns[j]? = some y →
    x.view.hasId = true → y.view.hasId = true → x.view.id = y.view.id → i = j
  bounds : ∀ x ∈ txns, x.view.snap.snapMin ≤ x.view.snap.snapMax ∧
    x.view.snap.snapMax ≤ current
  old : ∀ x ∈ txns, ∀ id < f, txnVisibleIdSnapshot id x.view.snap = true
  hidden : ∀ x ∈ txns, ∀ y ∈ txns, y.inTable = true →
    txnVisibleIdSnapshot y.view.id x.view.snap = false
  mono : ∀ x ∈ txns, ∀ y ∈ txns, x.view.hasId = true →
    txnVisibleIdSnapshot x.view.id y.view.snap = true →
    ∀ id, txnVisibleIdSnapshot id x.view.snap = true → txnVisibleIdSnapshot id y.view.snap = true
  isolation : ∀ x ∈ txns, x.view.isolation = .snapshot
  resolving : ∀ x ∈ txns, ∀ p c d, x.phase = .resolving p c d → p ≤ c ∧ c ≤ d

namespace TxnsInv

variable {f current : ℕ} {txns : List Txn} {x y : Txn} {u : Update}

section

variable (h : TxnsInv f current txns)
include h

/-- An update has one owner. -/
lemma owner_eq (hx : x ∈ txns) (hy : y ∈ txns) (hxu : x.owns u = true) (hyu : y.owns u = true) :
    x = y := by
  obtain ⟨hxid, hxeq⟩ := Txn.owns_iff.mp hxu
  obtain ⟨hyid, hyeq⟩ := Txn.owns_iff.mp hyu
  obtain ⟨i, hi⟩ := mem_iff_getElem?.mp hx
  obtain ⟨j, hj⟩ := mem_iff_getElem?.mp hy
  obtain rfl := h.uniq i j x y hi hj hxid hyid (hxeq.symm.trans hyeq)
  exact some.inj (hi.symm.trans hj)

lemma le_txnid (hx : x ∈ txns) (hxu : x.owns u = true) : f ≤ u.txnid ∧ u.txnid < current := by
  obtain ⟨hid, heq⟩ := Txn.owns_iff.mp hxu
  rw [heq]
  exact h.ids x hx hid

/-- Nobody sees an id that has not been given out. -/
lemma not_visible (hx : x ∈ txns) {id : ℕ} (hid : current ≤ id) :
    txnVisibleIdSnapshot id x.view.snap = false :=
  txnVisibleIdSnapshot_eq_false_iff.mpr (.inr ((h.bounds x hx).2.trans hid))

omit h in
/-- A transaction begins. -/
lemma begin {w : World} (h : TxnsInv f w.current w.txns) (hf : f ≤ w.current)
    (readTs : Option ℕ) (ignorePrepare : Bool) :
    TxnsInv f w.current (w.txns ++ [w.newTxn readTs ignorePrepare]) := by
  set n := w.newTxn readTs ignorePrepare
  have hnid : n.view.hasId = false := rfl
  have hsnap : n.view.snap = w.getSnapshot := rfl
  have hmem : ∀ {z}, z ∈ w.txns ++ [n] → z ∈ w.txns ∨ z = n := by simp
  refine ⟨?_, ?_, ?_, ?_, ?_, ?_, ?_, ?_, ?_⟩
  · intro x hx hid
    rcases hmem hx with hx | rfl
    · exact h.ids x hx hid
    · simp [hnid] at hid
  · intro x hx hid
    rcases hmem hx with hx | rfl
    · exact h.noId x hx hid
    · rfl
  · intro i j x y hi hj hxid hyid heq
    have hold : ∀ {k : ℕ} {z : Txn}, (w.txns ++ [n])[k]? = some z → z.view.hasId = true →
        w.txns[k]? = some z := by
      intro k z hk hz
      rcases getElem?_concat_cases hk with ⟨-, hk⟩ | ⟨-, rfl⟩
      · exact hk
      · simp [hnid] at hz
    exact h.uniq i j x y (hold hi hxid) (hold hj hyid) hxid hyid heq
  · intro x hx
    rcases hmem hx with hx | rfl
    · exact h.bounds x hx
    · exact ⟨sortSnapshot_min_le, le_rfl⟩
  · intro x hx id hid
    rcases hmem hx with hx | rfl
    · exact h.old x hx id hid
    · rw [hsnap, ← Bool.not_eq_false, getSnapshot_eq_false_iff]
      rintro (⟨y, hy, htable, rfl⟩ | hle)
      · have := (h.ids y hy (Txn.hasId_of_inTable htable)).1
        omega
      · omega
  · intro x hx y hy htable
    obtain hy | rfl := hmem hy
    · rcases hmem hx with hx | rfl
      · exact h.hidden x hx y hy htable
      · rw [hsnap, getSnapshot_eq_false_iff]
        exact .inl ⟨y, hy, htable, rfl⟩
    · simp [Txn.hasId_of_inTable htable] at hnid
  · intro x hx y hy hid hxy id hvis
    obtain hx | rfl := hmem hx
    · rcases hmem hy with hy | rfl
      · exact h.mono x hx y hy hid hxy id hvis
      · -- whatever the new snapshot does not see, no snapshot sees
        rw [hsnap, ← Bool.not_eq_false, getSnapshot_eq_false_iff]
        rintro (⟨z, hz, htable, rfl⟩ | hle)
        · simp [h.hidden x hx z hz htable] at hvis
        · simp [h.not_visible hx hle] at hvis
    · simp [hnid] at hid
  · intro x hx
    rcases hmem hx with hx | rfl
    · exact h.isolation x hx
    · rfl
  · intro x hx p c d hphase
    rcases hmem hx with hx | rfl
    · exact h.resolving x hx p c d hphase
    · cases hphase

/-- A transaction gets the next id. -/
lemma allocId (hf : f ≤ current) {t : ℕ} (hx : txns[t]? = some x) (hrun : x.phase = .running) :
    TxnsInv f (current + 1)
      (txns.set t { x with view := { x.view with id := current, hasId := true } }) := by
  set x' : Txn := { x with view := { x.view with id := current, hasId := true } } with hx'
  have hxmem : x ∈ txns := mem_of_getElem? hx
  have hmem : ∀ {z}, z ∈ txns.set t x' → z ∈ txns ∨ z = x' := mem_or_eq_of_mem_set
  -- every snapshot there is now was there before
  have hsnap : ∀ {z}, z ∈ txns.set t x' → ∃ z₀ ∈ txns, z₀.view.snap = z.view.snap := by
    intro z hz
    rcases hmem hz with hz | rfl
    · exact ⟨z, hz, rfl⟩
    · exact ⟨x, hxmem, rfl⟩
  have hlt : ∀ {k : ℕ} {z : Txn}, (txns.set t x')[k]? = some z → k ≠ t →
      z.view.hasId = true → z.view.id < current := by
    intro k z hk hkt hid
    rw [getElem?_set_ne (Ne.symm hkt)] at hk
    exact (h.ids z (mem_of_getElem? hk) hid).2
  have hself : ∀ {z : Txn}, (txns.set t x')[t]? = some z → z = x' := by
    intro z hz
    rw [List.getElem?_set_self (List.getElem?_eq_some_iff.mp hx).1] at hz
    exact (some.inj hz).symm
  refine ⟨?_, ?_, ?_, ?_, ?_, ?_, ?_, ?_, ?_⟩
  · intro z hz hid
    rcases hmem hz with hz | rfl
    · have := h.ids z hz hid
      omega
    · exact ⟨hf, Nat.lt_succ_self current⟩
  · intro z hz hid
    rcases hmem hz with hz | rfl
    · exact h.noId z hz hid
    · simp [hx'] at hid
  · intro i j y z hi hj hyid hzid heq
    rcases eq_or_ne i t with rfl | hit
    · rcases eq_or_ne j i with rfl | hji
      · rfl
      · have := hlt hj hji hzid
        rw [hself hi] at heq
        simp only [hx'] at heq
        omega
    · rcases eq_or_ne j t with rfl | hjt
      · have := hlt hi hit hyid
        rw [hself hj] at heq
        simp only [hx'] at heq
        omega
      · rw [getElem?_set_ne (Ne.symm hit)] at hi
        rw [getElem?_set_ne (Ne.symm hjt)] at hj
        exact h.uniq i j y z hi hj hyid hzid heq
  · intro z hz
    obtain ⟨z₀, hz₀, heq⟩ := hsnap hz
    have := h.bounds z₀ hz₀
    rw [heq] at this
    omega
  · intro z hz id hid
    obtain ⟨z₀, hz₀, heq⟩ := hsnap hz
    rw [← heq]
    exact h.old z₀ hz₀ id hid
  · intro y hy z hz htable
    obtain ⟨y₀, hy₀, heq⟩ := hsnap hy
    rw [← heq]
    rcases hmem hz with hz | rfl
    · exact h.hidden y₀ hy₀ z hz htable
    · exact h.not_visible hy₀ le_rfl
  · intro y hy z hz hid hvis id hyid
    obtain ⟨z₀, hz₀, heq⟩ := hsnap hz
    rw [← heq] at hvis ⊢
    rcases hmem hy with hy | rfl
    · exact h.mono y hy z₀ hz₀ hid hvis id hyid
    · simp [hx', h.not_visible hz₀ le_rfl] at hvis
  · intro z hz
    rcases hmem hz with hz | rfl
    · exact h.isolation z hz
    · exact h.isolation x hxmem
  · intro z hz p c d hphase
    rcases hmem hz with hz | rfl
    · exact h.resolving z hz p c d hphase
    · simp [hx', hrun] at hphase

/-- A transaction goes on. -/
lemma advance {t : ℕ} {x' : Txn} (hx : txns[t]? = some x) (hview : x'.view = x.view)
    (htable : x'.inTable = true → x.inTable = true)
    (hres : ∀ p c d, x'.phase = .resolving p c d → p ≤ c ∧ c ≤ d) :
    TxnsInv f current (txns.set t x') := by
  have hxmem : x ∈ txns := mem_of_getElem? hx
  have hmem : ∀ {z}, z ∈ txns.set t x' → z ∈ txns ∨ z = x' := mem_or_eq_of_mem_set
  have hviews : ∀ {z}, z ∈ txns.set t x' → ∃ z₀ ∈ txns, z₀.view = z.view := by
    intro z hz
    rcases hmem hz with hz | rfl
    · exact ⟨z, hz, rfl⟩
    · exact ⟨x, hxmem, hview.symm⟩
  have hget : ∀ {k : ℕ} {z : Txn}, (txns.set t x')[k]? = some z →
      ∃ z₀, txns[k]? = some z₀ ∧ z₀.view = z.view := by
    intro k z hk
    rcases eq_or_ne k t with rfl | hkt
    · rw [List.getElem?_set_self (List.getElem?_eq_some_iff.mp hx).1] at hk
      exact ⟨x, hx, by rw [← some.inj hk, hview]⟩
    · rw [getElem?_set_ne (Ne.symm hkt)] at hk
      exact ⟨z, hk, rfl⟩
  refine ⟨?_, ?_, ?_, ?_, ?_, ?_, ?_, ?_, ?_⟩
  · intro z hz
    obtain ⟨z₀, hz₀, heq⟩ := hviews hz
    rw [← heq]
    exact h.ids z₀ hz₀
  · intro z hz
    obtain ⟨z₀, hz₀, heq⟩ := hviews hz
    rw [← heq]
    exact h.noId z₀ hz₀
  · intro i j y z hi hj
    obtain ⟨y₀, hi₀, hy⟩ := hget hi
    obtain ⟨z₀, hj₀, hz⟩ := hget hj
    rw [← hy, ← hz]
    exact h.uniq i j y₀ z₀ hi₀ hj₀
  · intro z hz
    obtain ⟨z₀, hz₀, heq⟩ := hviews hz
    rw [← heq]
    exact h.bounds z₀ hz₀
  · intro z hz
    obtain ⟨z₀, hz₀, heq⟩ := hviews hz
    rw [← heq]
    exact h.old z₀ hz₀
  · intro y hy z hz hin
    obtain ⟨y₀, hy₀, heq⟩ := hviews hy
    rw [← heq]
    rcases hmem hz with hz | rfl
    · exact h.hidden y₀ hy₀ z hz hin
    · rw [hview]
      exact h.hidden y₀ hy₀ x hxmem (htable hin)
  · intro y hy z hz
    obtain ⟨y₀, hy₀, hyeq⟩ := hviews hy
    obtain ⟨z₀, hz₀, hzeq⟩ := hviews hz
    rw [← hyeq, ← hzeq]
    exact h.mono y₀ hy₀ z₀ hz₀
  · intro z hz
    obtain ⟨z₀, hz₀, heq⟩ := hviews hz
    rw [← heq]
    exact h.isolation z₀ hz₀
  · intro z hz
    rcases hmem hz with hz | rfl
    · exact h.resolving z hz
    · exact hres

end

end TxnsInv

end WiredTiger
