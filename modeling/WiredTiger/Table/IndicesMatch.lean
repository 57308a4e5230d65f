/-
# Indices match the table

Every successful call keeps the indices of a table matching its rows, with two exceptions: an update
that inserts a row into a table with an immutable index leaves the row without an entry there, and
an insert with overwrite on a cursor that was left on another row spoils the columns of that row.
-/
import WiredTiger.Table.Indices
import WiredTiger.Lib.Direction

namespace WiredTiger

open Lib List Function Cg

variable {κ ν ι α : Type*}

/-! ### The same call on all cursors -/

/-- Calls that all return the same. -/
lemma applyCg_map {f : Cg κ ν → Cg κ ν × CursorRet} {l : List α} {h h' : α → Cg κ ν}
    {ret : CursorRet} (hl : l ≠ []) (hret : ret = .ok ∨ ret = .notFound)
    (hf : ∀ a ∈ l, f (h a) = (h' a, ret)) : applyCg f (l.map h) .ok = (l.map h', ret) := by
  have hall : ∀ c ∈ l.map h, (f c).2 = ret :=
    forall_mem_map.mpr fun a ha => congrArg Prod.snd (hf a ha)
  rw [applyCg_all (mt map_eq_nil_iff.mp hl) hall hret, map_map]
  exact congrArg (·, ret) (map_congr_left fun a ha => congrArg Prod.fst (hf a ha))

/-- Calls that are all successful. -/
lemma eachCg_map {f : Cg κ ν → Cg κ ν × CursorRet} {l : List α} {h h' : α → Cg κ ν}
    (hf : ∀ a ∈ l, f (h a) = (h' a, .ok)) : eachCg f (l.map h) = (l.map h', .ok) := by
  induction l with
  | nil => rfl
  | cons a l ih =>
    have hrest := ih fun b hb => hf b (mem_cons_of_mem a hb)
    simp only [map_cons, eachCg, hf a mem_cons_self, hrest, if_true]

/-! ### The same call on all indices -/

section

variable {k : κ} {l : List α} {h : α → Cg κ ν} {v : α → ν}
  {f : ι × κ → TableIndex κ ν ι → TableIndex κ ν ι × CursorRet}
  {g : TableIndex κ ν ι → TableIndex κ ν ι} {skip : Bool} {idxs : List (TableIndex κ ν ι)}
  (hl : l ≠ []) (hkey : ∀ a ∈ l, (h a).key.get = some k)
  (hvalue : ∀ a ∈ l, (h a).value.get = some (v a))
include hl hkey hvalue

lemma indexKey_map (idx : TableIndex κ ν ι) :
    indexKey idx (l.map h) = some (idx.columns (l.map v), k) := by
  have hvalues : ∀ {m : List α}, (∀ a ∈ m, (h a).value.get = some (v a)) →
      ((m.map h).mapM fun c => c.value.get) = some (m.map v) := by
    intro m hm
    induction m with
    | nil => rfl
    | cons a m ih =>
      have hrest := ih fun b hb => hm b (mem_cons_of_mem a hb)
      simp only [map_cons, mapM_cons, hm a mem_cons_self, hrest]
      rfl
  have hhead : ((l.map h).head?.bind fun c => c.key.get) = some k := by
    obtain ⟨a, l, rfl⟩ := exists_cons_of_ne_nil hl
    exact hkey a mem_cons_self
  rw [indexKey, hhead, hvalues hvalue]

/-- A call that is successful on the entry of the row in the cursors, for each index that is not
skipped. -/
lemma applyIdx_map
    (hf : ∀ idx ∈ idxs, (skip && idx.immutable) = false →
      f (idx.columns (l.map v), k) idx = (g idx, .ok)) :
    applyIdx f skip (l.map h) idxs =
      (idxs.map fun idx => if skip && idx.immutable then idx else g idx, .ok) := by
  induction idxs with
  | nil => rfl
  | cons idx idxs ih =>
    have hrest := ih fun i hi => hf i (mem_cons_of_mem idx hi)
    cases hskip : (skip && idx.immutable) with
    | true => simp only [applyIdx, hskip, if_true, hrest, map_cons]
    | false =>
      have hone := hf idx mem_cons_self hskip
      simp only [applyIdx, hskip, Bool.false_eq_true, if_false, applySingleIdx,
        indexKey_map hl hkey hvalue, hone, if_true, hrest, map_cons]

end

/-! ### The entries of the rows -/

section

variable [LinearOrder κ] [DecidableEq ι] {columns : List ν → ι} {row row' : κ → List ν}
  {K D R : Finset κ} {k : κ} {vs : List ν}

/-- The entries for the rows with the keys `K`. -/
def entriesFor (columns : List ν → ι) (row : κ → List ν) (K : Finset κ) : Finset (ι × κ) :=
  K.image fun k => (columns (row k), k)

lemma mem_entriesFor {e : ι × κ} :
    e ∈ entriesFor columns row K ↔ e.2 ∈ K ∧ e.1 = columns (row e.2) := by
  obtain ⟨c, j⟩ := e
  simp only [entriesFor, Finset.mem_image, Prod.mk.injEq]
  constructor
  · rintro ⟨j', hj', rfl, rfl⟩
    exact ⟨hj', rfl⟩
  · rintro ⟨hj, rfl⟩
    exact ⟨j, hj, rfl, rfl⟩

lemma entriesFor_erase :
    (entriesFor columns row K).erase (columns (row k), k) = entriesFor columns row (K.erase k) := by
  ext ⟨c, j⟩
  simp only [Finset.mem_erase, mem_entriesFor, ne_eq, Prod.mk.injEq, not_and]
  constructor
  · rintro ⟨hne, hj, rfl⟩
    exact ⟨⟨fun hjk => hne (by rw [hjk]) hjk, hj⟩, rfl⟩
  · rintro ⟨⟨hne, hj⟩, rfl⟩
    exact ⟨fun _ => hne, hj, rfl⟩

/-- The entries after a row is written. -/
lemma entriesFor_insert (hk : row' k = vs) (hne : ∀ j, j ≠ k → row' j = row j) :
    entriesFor columns row' (insert k K) =
      insert (columns vs, k) (entriesFor columns row (K.erase k)) := by
  ext ⟨c, j⟩
  simp only [Finset.mem_insert, mem_entriesFor, Finset.mem_erase, Prod.mk.injEq]
  by_cases hj : j = k
  · subst hj
    simp [hk]
  · simp [hj, hne j hj]

end

namespace IndexedTable

variable [LinearOrder κ] [DecidableEq ι] {t t' : IndexedTable κ ν ι} {k : κ} {vs : List ν}
  {p : (Finset κ × (κ → ν)) × ν}
  {overwrite : Bool} {columns : List ν → ι}

lemma Matching.entries_eq (hm : t.Matching) {idx : TableIndex κ ν ι} (hidx : idx ∈ t.indices) :
    idx.entries = entriesFor idx.columns t.row t.keys := hm.entries idx hidx

/-- There are indices, and they match. -/
def Indexed (t : IndexedTable κ ν ι) : Prop := t.Matching ∧ t.indices ≠ []

/-! ### A row is written -/

/-- The column groups with the row `vs` for the key `k`. -/
def written (t : IndexedTable κ ν ι) (k : κ) (vs : List ν) : List (Finset κ × (κ → ν)) :=
  (t.groups.zip vs).map fun p => (insert k p.1.1, update p.1.2 k p.2)

lemma mem_zip_keys (hm : t.Matching) (hp : p ∈ t.groups.zip vs) :
    p.1.1 = t.keys := hm.same p.1 (of_mem_zip hp).1

lemma zip_ne_nil (hm : t.Matching) (hlen : vs.length = t.groups.length) :
    t.groups.zip vs ≠ [] := by
  intro h
  have hz : (t.groups.zip vs).length = 0 := by rw [h]; rfl
  rw [length_zip, hlen, min_self] at hz
  exact hm.ne (length_eq_zero_iff.mp hz)

omit [LinearOrder κ] [DecidableEq ι] in
/-- What is made from the column groups alone. -/
lemma map_zip_fst {β : Type*} (hlen : vs.length = t.groups.length)
    (f : Finset κ × (κ → ν) → β) : ((t.groups.zip vs).map fun p => f p.1) = t.groups.map f := by
  calc (t.groups.zip vs).map (fun p => f p.1)
      = ((t.groups.zip vs).map Prod.fst).map f := by rw [map_map]; rfl
    _ = t.groups.map f := by rw [map_fst_zip (by omega)]

omit [LinearOrder κ] [DecidableEq ι] in
/-- What is made from the elements without their places. -/
lemma map_zipIdx_fst {β : Type*} (l : List α) (f : α → β) :
    (l.zipIdx.map fun a => f a.1) = l.map f := by
  calc (l.zipIdx.map fun a => f a.1) = (l.zipIdx.map Prod.fst).map f := by rw [map_map]; rfl
    _ = l.map f := by rw [zipIdx_map_fst]

/-- Column groups with the keys `K`, and indices with the entries of their rows. -/
lemma matching_of {gs : List (Finset κ × (κ → ν))} {is : List (TableIndex κ ν ι)} {K : Finset κ}
    (hne : gs ≠ []) (hkeys : ∀ g ∈ gs, g.1 = K)
    (his : ∀ idx ∈ is, idx.entries = entriesFor idx.columns (fun k => gs.map fun g => g.2 k) K) :
    (⟨gs, is⟩ : IndexedTable κ ν ι).Matching := by
  have hkeys' : (⟨gs, is⟩ : IndexedTable κ ν ι).keys = K := by
    obtain ⟨g, gs, rfl⟩ := exists_cons_of_ne_nil hne
    exact hkeys g mem_cons_self
  refine ⟨hne, fun g hg => (hkeys g hg).trans hkeys'.symm, fun idx hidx => ?_⟩
  rw [hkeys']
  exact his idx hidx

/-! ### The entries of a row that is written -/

/-- The entry of an index for a row. -/
def addEntry (e : ι × κ) (idx : TableIndex κ ν ι) : TableIndex κ ν ι :=
  { idx with entries := insert e idx.entries }

def dropEntry (e : ι × κ) (idx : TableIndex κ ν ι) : TableIndex κ ν ι :=
  { idx with entries := idx.entries.erase e }

/-- The entry of the row `vs` takes the place of that of the old row, if there is one. -/
def replaceEntry (t : IndexedTable κ ν ι) (k : κ) (vs : List ν) (idx : TableIndex κ ν ι) :
    TableIndex κ ν ι :=
  addEntry (idx.columns vs, k) (dropEntry (idx.columns (t.row k), k) idx)

/-- The indices without the entry of the row of `k`, those that are skipped apart. -/
def dropped (t : IndexedTable κ ν ι) (skip : Bool) (k : κ) : List (TableIndex κ ν ι) :=
  t.indices.map fun idx => if skip && idx.immutable then idx
    else dropEntry (idx.columns (t.row k), k) idx

/-- The indices after the row `vs` is written, those that are skipped apart. -/
def rewritten (t : IndexedTable κ ν ι) (skip : Bool) (k : κ) (vs : List ν) :
    List (TableIndex κ ν ι) :=
  t.indices.map fun idx => if skip && idx.immutable then idx else t.replaceEntry k vs idx

/-! ### Inserts and updates -/

/-- The cursors with the key and the value set, and no position. -/
def lost (k : κ) (p : (Finset κ × (κ → ν)) × ν) : Cg κ ν := loaded none k p.1 (.ext p.2)

/-- The cursors on the row of `k`. -/
def standing (k : κ) (g : Finset κ × (κ → ν)) : Cg κ ν :=
  ⟨g.1, g.2, .int k, some k, .int (g.2 k)⟩

/-- The cursors on the row of `k`, with the new value put back. -/
def refilled (k : κ) (p : (Finset κ × (κ → ν)) × ν) : Cg κ ν :=
  ⟨p.1.1, p.1.2, .int k, some k, .ext p.2⟩

/-- The cursors on the row of `k` that is written. -/
def updated (k : κ) (p : (Finset κ × (κ → ν)) × ν) : Cg κ ν :=
  ⟨insert k p.1.1, update p.1.2 k p.2, .int k, some k, .int p.2⟩

/-- The cursors after their columns of the row of `k` are written to the row of `q`. -/
def insertedAt (q k : κ) (p : (Finset κ × (κ → ν)) × ν) : Cg κ ν :=
  ⟨insert q p.1.1, update p.1.2 q p.2, .ext k, none, .ext p.2⟩

/-- The row that the cursor on the column group `i` writes to when the row of `k` is inserted. -/
def target (overwrite : Bool) (pos : ℕ → Option κ) (k : κ) (i : ℕ) : κ :=
  if i = 0 ∨ overwrite = false then k else (pos i).getD k

omit [LinearOrder κ] [DecidableEq ι] in
@[simp] lemma load_indices (pos : ℕ → Option κ) : (t.load pos k vs).indices = t.indices := rfl

omit [LinearOrder κ] [DecidableEq ι] in
@[simp] lemma loadKey_indices (pos : ℕ → Option κ) : (t.loadKey pos k).indices = t.indices := rfl

lemma update_cursor (h : k ∈ p.1.1 ∨ overwrite = true) :
    curfileUpdate overwrite (lost k p) = (updated k p, .ok) ∧
      curfileUpdate overwrite (refilled k p) = (updated k p, .ok) := by
  have hno : ¬(k ∉ p.1.1 ∧ overwrite = false) := by
    rw [not_and_or, not_not, Bool.not_eq_false]
    exact h
  refine ⟨if_neg fun h => hno h.2, ?_⟩
  simp [curfileUpdate, pinned, refilled, updated, store, Held.get]

lemma insert_loaded (q : Option κ) (h : k ∉ p.1.1 ∨ overwrite = true) :
    curfileInsert overwrite (loaded q k p.1 (.ext p.2)) =
      (insertedAt (if overwrite = false then k else q.getD k) k p, .ok) := by
  cases overwrite with
  | true => cases q <;> rfl
  | false =>
    have hk : k ∉ p.1.1 := h.resolve_right Bool.false_ne_true
    cases q <;> exact if_neg hk

omit [LinearOrder κ] [DecidableEq ι] in
lemma settle_eq_some {s s' : OpenTable κ ν ι} {cur : ℕ} {r : TableStore κ ν ι × CursorRet}
    (h : s.settle cur r = some s') : r.2 = .ok ∧ s'.table = .of r.1 := by
  obtain ⟨hok, h⟩ := Option.ite_none_right_eq_some.mp h
  exact ⟨hok, by rw [← Option.some.inj h]⟩

omit [DecidableEq ι] in
/-- Cursors on trees with the row `vs`. -/
lemma of_written {h : (Finset κ × (κ → ν)) × ν → Cg κ ν} {is : List (TableIndex κ ν ι)}
    (hh : ∀ p, ((h p).keys, (h p).column) = (insert k p.1.1, update p.1.2 k p.2)) :
    of ⟨(t.groups.zip vs).map h, is⟩ = ⟨t.written k vs, is⟩ := by
  rw [of, map_map]
  exact congrArg (IndexedTable.mk · is) (map_congr_left fun p _ => hh p)

section

variable (hm : t.Matching)
include hm

lemma Matching.mem_entries {idx : TableIndex κ ν ι} (hidx : idx ∈ t.indices)
    {e : ι × κ} : e ∈ idx.entries ↔ e.2 ∈ t.keys ∧ e.1 = idx.columns (t.row e.2) := by
  rw [hm.entries_eq hidx, mem_entriesFor]

/-- There is no entry without a row. -/
lemma dropped_absent (hk : k ∉ t.keys) (skip : Bool) : t.dropped skip k = t.indices := by
  refine (map_congr_left fun idx hidx => ?_).trans (map_id _)
  have hno : (idx.columns (t.row k), k) ∉ idx.entries :=
    fun h => hk ((hm.mem_entries hidx).mp h).1
  rw [dropEntry, Finset.erase_eq_of_notMem hno, ite_self]
  rfl

lemma insert_loaded_there (hk : k ∈ t.keys) (hp : p ∈ t.groups.zip vs) (q : Option κ) :
    curfileInsert false (loaded q k p.1 (.ext p.2)) = (lost k p, .duplicateKey) := by
  have hkeys : k ∈ p.1.1 := mem_zip_keys hm hp ▸ hk
  cases q <;> exact if_pos hkeys

/-- The entry of the row that the cursors stand on is removed from the indices. -/
lemma drop_entries {skip : Bool} {idxs : List (TableIndex κ ν ι)}
    (hold : ∀ idx ∈ idxs, (idx.columns (t.row k), k) ∈ idx.entries) :
    applyIdx (indexRemove overwrite) skip (t.groups.map (standing k)) idxs =
      (idxs.map fun idx => if skip && idx.immutable then idx
        else dropEntry (idx.columns (t.row k), k) idx, .ok) :=
  applyIdx_map (v := fun g => g.2 k) hm.ne (fun g _ => rfl) (fun g _ => rfl)
    fun idx hidx _ => by exact if_neg fun hno => hno.1 (hold idx hidx)

lemma drop_row (hk : k ∈ t.keys) (skip : Bool) :
    applyIdx (indexRemove overwrite) skip (t.groups.map (standing k)) t.indices =
      (t.dropped skip k, .ok) :=
  drop_entries hm fun _ hidx => (hm.mem_entries hidx).mpr ⟨hk, rfl⟩

section

variable (hlen : vs.length = t.groups.length)
include hlen

lemma zipIdx_ne_nil : (t.groups.zip vs).zipIdx ≠ [] :=
  fun h => zip_ne_nil hm hlen (zipIdx_eq_nil_iff.mp h)

/-- The entry of the new row is inserted into the indices. -/
lemma insert_row {h : ((Finset κ × (κ → ν)) × ν) × ℕ → Cg κ ν} {skip : Bool}
    (hkey : ∀ a, (h a).key.get = some k) (hvalue : ∀ a, (h a).value.get = some a.1.2) :
    applyIdx (indexInsert overwrite) skip ((t.groups.zip vs).zipIdx.map h) (t.dropped skip k) =
      (t.rewritten skip k vs, .ok) := by
  have hnew : ∀ idx ∈ t.dropped skip k, (skip && idx.immutable) = false →
      (idx.columns vs, k) ∉ idx.entries := by
    intro idx hmem hskip
    obtain ⟨idx, hold, rfl⟩ := mem_map.mp hmem
    split_ifs at hskip ⊢ with himm
    · rw [himm] at hskip
      cases hskip
    · simp only [dropEntry, hm.entries_eq hold, entriesFor_erase, mem_entriesFor]
      exact fun h => absurd rfl (Finset.mem_erase.mp h.1).1
  rw [applyIdx_map (g := fun idx => addEntry (idx.columns vs, k) idx) (v := fun a => a.1.2)
    (zipIdx_ne_nil hm hlen) (fun a _ => hkey a) (fun a _ => hvalue a), dropped, map_map]
  · refine congrArg (·, CursorRet.ok) (map_congr_left fun idx _ => ?_)
    cases himm : (skip && idx.immutable) <;>
      simp only [comp_apply, himm, dropEntry, replaceEntry, Bool.false_eq_true, if_true,
        if_false]
  · intro idx hidx hskip
    rw [map_zipIdx_fst _ Prod.snd, map_snd_zip (by omega)]
    exact if_neg fun hno => hnew idx hidx hskip hno.1

lemma search_loaded_notFound (pos : ℕ → Option κ) (hk : k ∉ t.keys) :
    applyCg search (t.load pos k vs).cgs .ok = ((t.groups.zip vs).map (lost k), .notFound) := by
  rw [← map_zipIdx_fst]
  refine applyCg_map (zipIdx_ne_nil hm hlen) (.inr rfl) fun a ha => ?_
  have hkeys : k ∉ a.1.1.1 := mem_zip_keys hm (fst_mem_of_mem_zipIdx ha) ▸ hk
  cases h : pos a.2 <;> exact if_neg hkeys

/-- The cursors find the row of a key that is there. -/
lemma search_loaded (pos : ℕ → Option κ) (hk : k ∈ t.keys) :
    applyCg search (t.load pos k vs).cgs .ok = (t.groups.map (standing k), .ok) := by
  rw [← map_zip_fst hlen, ← map_zipIdx_fst]
  refine applyCg_map (zipIdx_ne_nil hm hlen) (.inl rfl) fun a ha => ?_
  have hkeys : k ∈ a.1.1.1 := mem_zip_keys hm (fst_mem_of_mem_zipIdx ha) ▸ hk
  cases h : pos a.2 <;> exact if_pos hkeys

/-- Indices in which the row that is written has its entry match the table again. -/
lemma matching_written {skip : Bool}
    (hskip : ∀ idx ∈ t.indices, (skip && idx.immutable) = true →
      k ∈ t.keys ∧ idx.columns vs = idx.columns (t.row k)) :
    (⟨t.written k vs, t.rewritten skip k vs⟩ : IndexedTable κ ν ι).Matching := by
  have hrow : ∀ j, ((t.written k vs).map fun g => g.2 j) =
      (t.groups.zip vs).map fun p => update p.1.2 k p.2 j := by
    intro j
    rw [written, map_map]
    rfl
  have hentries : ∀ idx ∈ t.indices, insert (idx.columns vs, k)
      (idx.entries.erase (idx.columns (t.row k), k)) =
        entriesFor idx.columns (fun j => (t.written k vs).map fun g => g.2 j)
          (insert k t.keys) := by
    intro idx hidx
    rw [hm.entries_eq hidx, entriesFor_erase]
    refine (entriesFor_insert ?_ fun j hj => ?_).symm
    · rw [hrow]
      simp only [update_self]
      exact map_snd_zip (by omega)
    · rw [hrow]
      simp only [update_of_ne hj]
      exact map_zip_fst hlen fun g => g.2 j
  refine matching_of (K := insert k t.keys) (fun h => zip_ne_nil hm hlen (map_eq_nil_iff.mp h))
    (fun g' hg' => ?_) fun idx hidx => ?_
  · obtain ⟨p, hp, rfl⟩ := mem_map.mp hg'
    exact congrArg (insert k) (mem_zip_keys hm hp)
  · obtain ⟨idx, hold, rfl⟩ := mem_map.mp hidx
    split_ifs with himm
    · -- the entry of the old row is that of the new one
      obtain ⟨hk, hsame⟩ := hskip idx hold himm
      rw [← hentries idx hold, hsame]
      exact (Finset.insert_erase ((hm.mem_entries hold).mpr ⟨hk, rfl⟩)).symm
    · exact hentries idx hold

/-- The end of an update, when the old entries are removed. -/
lemma updateColumns_eq {h : (Finset κ × (κ → ν)) × ν → Cg κ ν}
    (hupdate : ∀ p ∈ t.groups.zip vs, curfileUpdate overwrite (h p) = (updated k p, .ok)) :
    updateColumns overwrite ⟨(t.groups.zip vs).map h, t.dropped true k⟩ =
      (⟨(t.groups.zip vs).map (updated k), t.rewritten true k vs⟩, .ok) := by
  have hadd : applyIdx (indexInsert overwrite) true ((t.groups.zip vs).map (updated k))
      (t.dropped true k) = (t.rewritten true k vs, .ok) := by
    rw [← map_zipIdx_fst]
    exact insert_row hm hlen (fun a => rfl) (fun a => rfl)
  simp only [updateColumns, applyCg_map (zip_ne_nil hm hlen) (.inl rfl) hupdate, if_true, hadd]

section

variable (hidx : t.indices ≠ []) (pos : ℕ → Option κ)
include hidx

omit hm hlen [LinearOrder κ] [DecidableEq ι] in
lemma isEmpty_indices : t.indices.isEmpty = false := by
  simpa using hidx

/-- Without a row the column groups are updated at once. -/
lemma curtableUpdate_absent (hk : k ∉ t.keys) :
    curtableUpdate overwrite (t.load pos k vs) =
      updateColumns overwrite ⟨(t.groups.zip vs).map (lost k), t.dropped true k⟩ := by
  rw [dropped_absent hm hk]
  simp only [curtableUpdate, load_indices, isEmpty_indices hidx, Bool.false_eq_true, if_false,
    search_loaded_notFound hm hlen pos hk, reduceCtorEq, if_true]

/-- An update writes its row, whether or not it is there, and skips the immutable indices. -/
lemma curtableUpdate_eq (h : k ∈ t.keys ∨ overwrite = true) :
    curtableUpdate overwrite (t.load pos k vs) =
      (⟨(t.groups.zip vs).map (updated k), t.rewritten true k vs⟩, .ok) := by
  have hthere : ∀ p ∈ t.groups.zip vs, k ∈ p.1.1 ∨ overwrite = true := fun p hp =>
    h.imp_left (mem_zip_keys hm hp ▸ ·)
  by_cases hk : k ∈ t.keys
  · have hrefill : (t.groups.map (standing k)).zipWith (fun c v => { c with value := v })
        ((t.load pos k vs).cgs.map value) = (t.groups.zip vs).map (refilled k) := by
      have hvalues : (t.load pos k vs).cgs.map value = (t.groups.zip vs).map fun p => .ext p.2 := by
        rw [← map_zipIdx_fst (t.groups.zip vs), load, map_map]
        rfl
      rw [hvalues, ← map_zip_fst hlen, zipWith_map, zipWith_self]
      rfl
    simp only [curtableUpdate, load_indices, isEmpty_indices hidx, Bool.false_eq_true, if_false,
      search_loaded hm hlen pos hk, if_true, hrefill, drop_row hm hk]
    exact updateColumns_eq hm hlen fun p hp => (update_cursor (hthere p hp)).2
  · rw [curtableUpdate_absent hm hlen hidx pos hk]
    exact updateColumns_eq hm hlen fun p hp => (update_cursor (hthere p hp)).1

lemma curtableUpdate_fails (hk : k ∉ t.keys) :
    (curtableUpdate false (t.load pos k vs)).2 ≠ .ok := by
  have hupdate : applyCg (curfileUpdate false) ((t.groups.zip vs).map (lost k)) .ok =
      ((t.groups.zip vs).map (lost k), .notFound) := by
    refine applyCg_map (zip_ne_nil hm hlen) (.inr rfl) fun p hp => ?_
    have hkeys : k ∉ p.1.1 := mem_zip_keys hm hp ▸ hk
    exact if_pos ⟨rfl, hkeys, rfl⟩
  rw [curtableUpdate_absent hm hlen hidx pos hk, updateColumns]
  simp [hupdate]

lemma of_update (h : (curtableUpdate overwrite (t.load pos k vs)).2 = .ok) :
    of (curtableUpdate overwrite (t.load pos k vs)).1 =
      ⟨t.written k vs, t.rewritten true k vs⟩ := by
  by_cases hw : k ∈ t.keys ∨ overwrite = true
  · rw [curtableUpdate_eq hm hlen hidx pos hw]
    exact of_written fun _ => rfl
  · obtain ⟨hk, hw⟩ := not_or.mp hw
    rw [Bool.not_eq_true] at hw
    exact absurd (hw ▸ h) (curtableUpdate_fails hm hlen hidx pos hk)

/-- The insert of a row that is not there. -/
lemma curtableInsert_new (hk : k ∉ t.keys) :
    curtableInsert overwrite (t.load pos k vs) =
      (⟨(t.groups.zip vs).zipIdx.map fun a => insertedAt (target overwrite pos k a.2) k a.1,
        t.rewritten false k vs⟩, .ok) := by
  obtain ⟨p, ps, hzip⟩ := exists_cons_of_ne_nil (zip_ne_nil hm hlen)
  have hnew : ∀ q ∈ p :: ps, k ∉ q.1.1 := fun q hq => mem_zip_keys hm (hzip ▸ hq) ▸ hk
  have hfirst : curfileInsert false (loaded (pos 0) k p.1 (.ext p.2)) = (insertedAt k k p, .ok) :=
    insert_loaded (pos 0) (.inl (hnew p mem_cons_self))
  have hrest : eachCg (curfileInsert overwrite)
      ((ps.zipIdx 1).map fun a => loaded (pos a.2) k a.1.1 (.ext a.1.2)) =
        ((ps.zipIdx 1).map fun a => insertedAt (target overwrite pos k a.2) k a.1, .ok) := by
    refine eachCg_map fun a ha => ?_
    have hplace : a.2 ≠ 0 := Nat.one_le_iff_ne_zero.mp (le_snd_of_mem_zipIdx ha)
    rw [insert_loaded (pos a.2) (.inl (hnew a.1 (mem_cons_of_mem p (fst_mem_of_mem_zipIdx ha)))),
      target]
    simp only [hplace, false_or]
  have hadd : applyIdx (indexInsert overwrite) false ((t.groups.zip vs).zipIdx.map fun a =>
      insertedAt (target overwrite pos k a.2) k a.1) (t.dropped false k) = _ :=
    insert_row hm hlen (fun _ => rfl) fun _ => rfl
  have hret : ¬(CursorRet.ok = .duplicateKey ∧ overwrite = true) := nofun
  rw [dropped_absent hm hk, hzip, zipIdx_cons, map_cons] at hadd
  rw [load, hzip, zipIdx_cons, map_cons, map_cons]
  simp only [curtableInsert, isEmpty_indices hidx, Bool.false_eq_true, if_false, hfirst,
    if_neg hret, if_true, hrest]
  exact congrArg (fun r : _ × CursorRet => (TableStore.mk _ r.1, r.2)) hadd

/-- The insert of a row that is there turns into an update. -/
lemma curtableInsert_update (hk : k ∈ t.keys) :
    curtableInsert true (t.load pos k vs) =
      (⟨(t.groups.zip vs).map fun p => (updated k p).reset, t.rewritten true k vs⟩, .ok) := by
  obtain ⟨p, ps, hzip⟩ := exists_cons_of_ne_nil (zip_ne_nil hm hlen)
  have hfirst := insert_loaded_there hm hk (hzip ▸ mem_cons_self : p ∈ t.groups.zip vs) (pos 0)
  -- the primary has given up its position when the update begins
  have hload : t.load (update pos 0 none) k vs = ⟨lost k p ::
      (ps.zipIdx 1).map fun a => loaded (pos a.2) k a.1.1 (.ext a.1.2), t.indices⟩ := by
    rw [load, hzip, zipIdx_cons, map_cons]
    refine congrArg (fun cs => TableStore.mk (lost k p :: cs) t.indices)
      (map_congr_left fun a ha => ?_)
    have hplace : a.2 ≠ 0 := Nat.one_le_iff_ne_zero.mp (le_snd_of_mem_zipIdx ha)
    rw [update_of_ne hplace]
  have hupdate : curtableUpdate true (t.load (update pos 0 none) k vs) = _ :=
    curtableUpdate_eq hm hlen hidx _ (.inr rfl)
  rw [hload] at hupdate
  rw [load, hzip, zipIdx_cons, map_cons]
  simp only [curtableInsert, isEmpty_indices hidx, Bool.false_eq_true, if_false, hfirst, hupdate,
    and_self, if_true, map_map, ← hzip]
  rfl

omit hidx in
lemma curtableInsert_fails (hk : k ∈ t.keys) :
    (curtableInsert false (t.load pos k vs)).2 ≠ .ok := by
  obtain ⟨p, ps, hzip⟩ := exists_cons_of_ne_nil (zip_ne_nil hm hlen)
  have hfirst := insert_loaded_there hm hk (hzip ▸ mem_cons_self : p ∈ t.groups.zip vs) (pos 0)
  rw [load, hzip, zipIdx_cons, map_cons]
  simp [curtableInsert, hfirst]

end

lemma matching_update (hidx : t.indices ≠ []) {pos : ℕ → Option κ} (himm : t.KeepsImmutable k vs)
    (hrow : k ∈ t.keys ∨ ∀ idx ∈ t.indices, idx.immutable = false)
    (h : (curtableUpdate overwrite (t.load pos k vs)).2 = .ok) :
    (of (curtableUpdate overwrite (t.load pos k vs)).1).Indexed := by
  rw [of_update hm hlen hidx pos h]
  refine ⟨matching_written hm hlen fun idx hidx hskip => ?_, mt map_eq_nil_iff.mp hidx⟩
  rcases hrow with hk | hmutable
  · exact ⟨hk, himm hk idx hidx hskip⟩
  · rw [hmutable idx hidx] at hskip
    cases hskip

lemma matching_insert (hidx : t.indices ≠ []) {pos : ℕ → Option κ} (himm : t.KeepsImmutable k vs)
    (hpos : k ∉ t.keys → ∀ i < t.groups.length, target overwrite pos k i = k)
    (h : (curtableInsert overwrite (t.load pos k vs)).2 = .ok) :
    (of (curtableInsert overwrite (t.load pos k vs)).1).Indexed := by
  by_cases hk : k ∈ t.keys
  · cases overwrite with
    | false => exact absurd h (curtableInsert_fails hm hlen pos hk)
    | true =>
      rw [curtableInsert_update hm hlen hidx pos hk, of_written fun _ => rfl]
      exact ⟨matching_written hm hlen fun idx hmem hskip => ⟨hk, himm hk idx hmem hskip⟩,
        mt map_eq_nil_iff.mp hidx⟩
  · have hcgs : ((t.groups.zip vs).zipIdx.map fun a =>
        insertedAt (target overwrite pos k a.2) k a.1) =
          (t.groups.zip vs).map (insertedAt k k) := by
      rw [← map_zipIdx_fst (t.groups.zip vs)]
      refine map_congr_left fun a ha => ?_
      have hplace : a.2 < t.groups.length := by
        have hlt := snd_lt_of_mem_zipIdx ha
        rw [length_zip] at hlt
        omega
      rw [hpos hk a.2 hplace]
    rw [curtableInsert_new hm hlen hidx pos hk, hcgs, of_written fun _ => rfl]
    exact ⟨matching_written hm hlen fun idx _ hskip => (nomatch hskip), mt map_eq_nil_iff.mp hidx⟩

/-- A cursor that writes the new columns to another row leaves its column group without the new
row. -/
lemma target_of_matching (hidx : t.indices ≠ []) {pos : ℕ → Option κ} (hk : k ∉ t.keys)
    (hm' : (of (curtableInsert overwrite (t.load pos k vs)).1).Matching) {i : ℕ}
    (hi : i < t.groups.length) : target overwrite pos k i = k := by
  rw [curtableInsert_new hm hlen hidx pos hk] at hm'
  obtain ⟨p, ps, hzip⟩ := exists_cons_of_ne_nil (zip_ne_nil hm hlen)
  have hilen : i < (t.groups.zip vs).length := by
    rw [length_zip]
    omega
  have hkey : k ∈ (of (⟨(t.groups.zip vs).zipIdx.map fun a =>
      insertedAt (target overwrite pos k a.2) k a.1, t.rewritten false k vs⟩ :
        TableStore κ ν ι)).keys := by
    rw [hzip]
    exact Finset.mem_insert_self k p.1.1
  have hsame := hm'.same _ (mem_map.mpr ⟨_, mem_map.mpr
    ⟨_, mk_mem_zipIdx_iff_getElem?.mpr (getElem?_eq_getElem hilen), rfl⟩, rfl⟩)
  have hmem : k ∈ insert (target overwrite pos k i) (t.groups.zip vs)[i].1.1 := by
    rw [← hsame] at hkey
    exact hkey
  rcases Finset.mem_insert.mp hmem with h | h
  · exact h.symm
  · exact absurd (mem_zip_keys hm (getElem_mem hilen) ▸ h) hk

end

/-! ### Removes -/

/-- Rows are removed from the column groups and their entries from the indices. -/
lemma matching_removed {K : Finset κ} {f : Finset κ → Finset κ}
    (hf : f t.keys = K) {g : TableIndex κ ν ι → TableIndex κ ν ι}
    (hg : ∀ idx ∈ t.indices, (g idx).columns = idx.columns ∧
      (g idx).entries = entriesFor idx.columns t.row K) :
    (⟨t.groups.map fun x => (f x.1, x.2), t.indices.map g⟩ : IndexedTable κ ν ι).Matching := by
  refine matching_of (K := K) (fun h => hm.ne (map_eq_nil_iff.mp h)) (fun x hx => ?_)
    fun idx hidx => ?_
  · obtain ⟨y, hy, rfl⟩ := mem_map.mp hx
    exact (congrArg f (hm.same y hy)).trans hf
  · obtain ⟨idx, hold, rfl⟩ := mem_map.mp hidx
    obtain ⟨hcols, hentries⟩ := hg idx hold
    rw [hcols, hentries]
    simp only [map_map]
    rfl

section

variable (hidx : t.indices ≠ []) (pos : ℕ → Option κ)
include hidx

lemma of_remove_found (hk : k ∈ t.keys) :
    of (curtableRemove overwrite (t.loadKey pos k)).1 =
      ⟨t.groups.map fun g => (g.1.erase k, g.2), t.dropped false k⟩ := by
  have hsearch : applyCg search (t.loadKey pos k).cgs .ok = (t.groups.map (standing k), .ok) := by
    rw [← map_zipIdx_fst]
    refine applyCg_map (fun h => hm.ne (zipIdx_eq_nil_iff.mp h)) (.inl rfl) fun a ha => ?_
    have hkeys : k ∈ a.1.1 := hm.same a.1 (fst_mem_of_mem_zipIdx ha) ▸ hk
    cases h : pos a.2 <;> exact if_pos hkeys
  have hremove : applyCg (curfileRemove overwrite) (t.groups.map (standing k)) .ok =
      (t.groups.map fun g => (standing k g).strike k, .ok) :=
    applyCg_map hm.ne (.inl rfl) fun g hg => rfl
  simp only [curtableRemove, loadKey_indices, isEmpty_indices hidx, Bool.false_eq_true, if_false,
    hsearch, if_true, drop_row hm hk, hremove, true_or, removeDone, of]
  split_ifs <;> simp only [map_map] <;> rfl

lemma of_remove_absent (hk : k ∉ t.keys) :
    of (curtableRemove overwrite (t.loadKey pos k)).1 = t := by
  have hsearch : applyCg search (t.loadKey pos k).cgs .ok =
      (t.groups.map fun g => loaded none k g .unset, .notFound) := by
    rw [← map_zipIdx_fst]
    refine applyCg_map (fun h => hm.ne (zipIdx_eq_nil_iff.mp h)) (.inr rfl) fun a ha => ?_
    have hkeys : k ∉ a.1.1 := hm.same a.1 (fst_mem_of_mem_zipIdx ha) ▸ hk
    cases h : pos a.2 <;> exact if_neg hkeys
  simp only [curtableRemove, loadKey_indices, isEmpty_indices hidx, Bool.false_eq_true, if_false,
    hsearch, reduceCtorEq, if_true, removeDone, of]
  split_ifs <;> simp only [map_map] <;> exact congrArg (IndexedTable.mk · t.indices) (map_id _)

lemma matching_remove : (of (curtableRemove overwrite (t.loadKey pos k)).1).Indexed := by
  by_cases hk : k ∈ t.keys
  · rw [of_remove_found hm hidx pos hk]
    refine ⟨matching_removed hm (f := fun K => K.erase k) rfl fun idx hidx => ⟨rfl, ?_⟩,
      mt map_eq_nil_iff.mp hidx⟩
    rw [← entriesFor_erase, ← hm.entries_eq hidx]
    rfl
  · rw [of_remove_absent hm hidx pos hk]
    exact ⟨hm, hidx⟩

end

end

/-! ### Truncates -/

/-- The rows that a loop passes: it ends on the last row or goes on to the next one. -/
inductive Passes (dest : κ → Option κ) (more : κ → Bool) : κ → Finset κ → Prop
  | last {p : κ} (h : more p = true → dest p = none) : Passes dest more p {p}
  | next {p q : κ} {D : Finset κ} (hmore : more p = true) (hdest : dest p = some q)
      (hpass : Passes dest more q D) (hp : p ∉ D) : Passes dest more p (insert p D)

/-- A key is between the ends of a range. -/
def Between (start stop : Option κ) (k : κ) : Prop := (∀ p ∈ start, p ≤ k) ∧ ∀ q ∈ stop, k ≤ q

instance (start stop : Option κ) (k : κ) : Decidable (Between start stop k) :=
  inferInstanceAs (Decidable (_ ∧ _))

/-- Indices without the entries of the rows `R`. -/
def without (t : IndexedTable κ ν ι) (R : Finset κ) : List (TableIndex κ ν ι) :=
  t.indices.map fun idx => { idx with entries := entriesFor idx.columns t.row (t.keys \ R) }

variable {dest : κ → Option κ} {move : Cg κ ν → Cg κ ν × CursorRet} {more : κ → Bool}
  {p : κ} {D R : Finset κ}

/-- The loop passes the rows with `Q` from `p` on in one direction, if it goes on as long as there
is another one. -/
lemma passes_of (d : Dir) {K : Finset κ} {Q : κ → Prop} [DecidablePred Q]
    (hmore : ∀ a, ∀ b ∈ K, d.Before a b → Q b → more a = true)
    (hQ : ∀ a b, more a = true → d.next K a = some b → Q b) (hp : p ∈ K) (hpQ : Q p) :
    Passes (d.next K) more p (K.filter fun j => ¬ d.Before j p ∧ Q j) := by
  induction hn : (K.filter (d.Before p)).card using Nat.strong_induction_on generalizing p with
  | _ n ih =>
    have hfirst := Dir.isFirst_next d K p
    by_cases hgo : more p = true ∧ d.next K p ≠ none
    · obtain ⟨hgo, hne⟩ := hgo
      obtain ⟨p', hp'⟩ := Option.ne_none_iff_exists'.mp hne
      rw [hp'] at hfirst
      obtain ⟨hmem, hlt, hleast⟩ := hfirst
      have hfewer : (K.filter (d.Before p')).card < n := by
        rw [← hn]
        refine Finset.card_lt_card (Finset.ssubset_iff_of_subset ?_ |>.mpr ⟨p', ?_, ?_⟩)
        · exact Finset.monotone_filter_right K fun j _ => hlt.trans
        · exact Finset.mem_filter.mpr ⟨hmem, hlt⟩
        · exact fun h => Dir.not_before_self (Finset.mem_filter.mp h).2
      have hsplit : (K.filter fun j => ¬ d.Before j p ∧ Q j) =
          insert p (K.filter fun j => ¬ d.Before j p' ∧ Q j) := by
        ext j
        simp only [Finset.mem_filter, Finset.mem_insert]
        constructor
        · rintro ⟨hj, hpj, hQj⟩
          refine or_iff_not_imp_left.mpr fun hne => ⟨hj, ?_, hQj⟩
          exact hleast j hj (Dir.before_of_ne hpj (Ne.symm hne))
        · rintro (rfl | ⟨hj, hpj, hQj⟩)
          · exact ⟨hp, Dir.not_before_self, hpQ⟩
          · exact ⟨hj, (Dir.before_of_before_of_not hlt hpj).not_symm, hQj⟩
      rw [hsplit]
      refine .next hgo hp' (ih _ hfewer hmem (hQ p p' hgo hp') rfl) fun h => ?_
      exact (Finset.mem_filter.mp h).2.1 hlt
    · have hone : (K.filter fun j => ¬ d.Before j p ∧ Q j) = {p} := by
        ext j
        simp only [Finset.mem_filter, Finset.mem_singleton]
        constructor
        · rintro ⟨hj, hpj, hQj⟩
          by_contra hne
          have hlt := Dir.before_of_ne hpj (Ne.symm hne)
          refine hgo ⟨hmore p j hj hlt hQj, fun hnone => ?_⟩
          rw [hnone] at hfirst
          exact hfirst j hj hlt
        · rintro rfl
          exact ⟨hp, Dir.not_before_self, hpQ⟩
      rw [hone]
      exact .last fun hmore => by_contra fun hne => hgo ⟨hmore, hne⟩

/-- Forwards from `p` until the stop is met. -/
lemma passes_next {K : Finset κ} {stop : Option κ} (hp : p ∈ K)
    (hstop : ∀ q ∈ stop, q ∈ K ∧ p ≤ q) :
    Passes (above K) (fun k => stop.all fun q => k < q) p
      (K.filter (Between (some p) stop)) := by
  have hrange : K.filter (Between (some p) stop) =
      K.filter fun j => ¬ j < p ∧ ∀ q ∈ stop, j ≤ q :=
    Finset.filter_congr fun j _ => by simp [Between]
  rw [hrange]
  refine passes_of .up (fun a b _ hlt hb => ?_) (fun a b hmore hab q hq => ?_) hp
    fun q hq => (hstop q hq).2
  · cases stop with
    | none => rfl
    | some q => simpa using lt_of_lt_of_le hlt (hb q rfl)
  · have haq : a < q := by simpa [Option.mem_def.mp hq] using hmore
    exact (above_eq_some.mp hab).2.2 q (hstop q hq).1 haq

/-- Backwards from `q` to the first row. -/
lemma passes_prev {K : Finset κ} {q : κ} (hq : q ∈ K) :
    Passes (below K) (fun _ => true) q (K.filter (Between none (some q))) := by
  have hrange : K.filter (Between none (some q)) = K.filter fun j => ¬ q < j ∧ True :=
    Finset.filter_congr fun j _ => by simp [Between]
  rw [hrange]
  exact passes_of .down (fun _ _ _ _ _ => rfl) (fun _ _ _ _ => trivial) hq trivial

section

variable (hm : t.Matching)
include hm

/-- A step of the loop: the row that the cursors stand on loses its entries. -/
lemma drop_without (hp : p ∈ t.keys) (hR : p ∉ R) :
    applyIdx (indexRemove overwrite) false (t.groups.map (standing p)) (t.without R) =
      (t.without (insert p R), .ok) := by
  rw [drop_entries hm]
  · rw [without, without, map_map]
    refine congrArg (·, CursorRet.ok) (map_congr_left fun idx _ => ?_)
    simp only [comp_apply, dropEntry, entriesFor_erase, Bool.false_and,
      Bool.false_eq_true, if_false]
    rw [Finset.sdiff_insert]
  · intro idx hidx
    obtain ⟨idx, -, rfl⟩ := mem_map.mp hidx
    exact mem_entriesFor.mpr ⟨Finset.mem_sdiff.mpr ⟨hp, hR⟩, rfl⟩

/-- **The loop removes the entries of the rows it passes.** -/
lemma truncateIndices_eq
    (hmove : ∀ g ∈ t.groups, ∀ p, move (standing p g) = (standing p g).move (dest p))
    (hpass : Passes dest more p D) (hD : D ⊆ t.keys) (hR : Disjoint D R) {fuel : ℕ}
    (hfuel : D.card < fuel) :
    truncateIndices overwrite move more fuel ⟨t.groups.map (standing p), t.without R⟩ =
      (t.without (D ∪ R), .ok) := by
  have hsearch : ∀ {p}, p ∈ t.keys → applyCg search (t.groups.map (standing p)) .ok =
      (t.groups.map (standing p), .ok) :=
    fun hp => applyCg_map hm.ne (.inl rfl) fun g hg => if_pos ((hm.same g hg).symm ▸ hp : _ ∈ g.1)
  have hhead : ∀ p : κ, ((t.groups.map (standing p)).head?.bind fun c => c.key.get) = some p := by
    intro p
    obtain ⟨g, gs, hcons⟩ := exists_cons_of_ne_nil hm.ne
    rw [hcons]
    rfl
  induction hpass generalizing R fuel with
  | last hlast =>
    rename_i p
    obtain ⟨fuel, rfl⟩ := Nat.exists_eq_add_one_of_ne_zero (Nat.ne_zero_of_lt hfuel)
    have hp : p ∈ t.keys := hD (Finset.mem_singleton_self p)
    have hpR : p ∉ R := Finset.disjoint_singleton_left.mp hR
    rw [← Finset.insert_eq, truncateIndices]
    simp only [hsearch hp, if_true, drop_without hm hp hpR, hhead, Option.any_some]
    cases hmore : more p with
    | false => rfl
    | true =>
      have hend : applyCg move (t.groups.map (standing p)) .ok =
          (t.groups.map fun g => (standing p g).reset, .notFound) := by
        refine applyCg_map hm.ne (.inr rfl) fun g hg => ?_
        rw [hmove g hg, hlast hmore]
        rfl
      simp [hend]
  | next hmore hdest hpass hpD ih =>
    rename_i p q D
    obtain ⟨fuel, rfl⟩ := Nat.exists_eq_add_one_of_ne_zero (Nat.ne_zero_of_lt hfuel)
    obtain ⟨hpR, hDR⟩ := Finset.disjoint_insert_left.mp hR
    have hp : p ∈ t.keys := hD (Finset.mem_insert_self p D)
    have hstep : applyCg move (t.groups.map (standing p)) .ok =
        (t.groups.map (standing q), .ok) := by
      refine applyCg_map hm.ne (.inl rfl) fun g hg => ?_
      rw [hmove g hg, hdest]
      rfl
    have hcard : D.card < fuel := by
      rw [Finset.card_insert_of_notMem hpD] at hfuel
      omega
    have hrest := ih (fun x hx => hD (Finset.mem_insert_of_mem hx))
      (Finset.disjoint_insert_right.mpr ⟨hpD, hDR⟩ : Disjoint D (insert p R)) hcard
    rw [truncateIndices]
    simp only [hsearch hp, if_true, drop_without hm hp hpR, hhead, Option.any_some, hmore, hstep,
      hrest]
    rw [Finset.union_insert, Finset.insert_union]

/-- The loop over all rows of `D`, from indices that match. -/
lemma truncateIndices_all
    (hmove : ∀ g ∈ t.groups, ∀ p, move (standing p g) = (standing p g).move (dest p))
    (hpass : Passes dest more p D) (hD : D ⊆ t.keys) :
    truncateIndices overwrite move more (t.keys.card + 1) ⟨t.cursorsAt p, t.indices⟩ =
      (t.without D, .ok) := by
  have hall : t.indices = t.without ∅ := by
    rw [without]
    conv_lhs => rw [← map_id t.indices]
    refine map_congr_left fun idx hidx => ?_
    rw [Finset.sdiff_empty, ← hm.entries_eq hidx]
    rfl
  have h : truncateIndices overwrite move more (t.keys.card + 1)
      ⟨t.groups.map (standing p), t.without ∅⟩ = (t.without (D ∪ ∅), .ok) :=
    truncateIndices_eq hm hmove hpass hD (Finset.disjoint_empty_right D)
      (Nat.lt_succ_of_le (Finset.card_le_card hD))
  rw [Finset.union_empty, ← hall] at h
  exact h

omit hm in
/-- The records that a truncate of a column group passes are removed.  Those that are gone lie in
front of the cursor, so that it moves as if they were there. -/
lemma rangeTruncate_keys {d : Dir} {K : Finset κ}
    (hmove : ∀ c p, c.pos = some p → move c = c.move (d.next c.keys p))
    (hpass : Passes (d.next K) more p D) {c : Cg κ ν} (hkeys : c.keys = K \ R)
    (hkey : c.key = .int p) (hpos : c.pos = some p) (hR : ∀ r ∈ R, d.Before r p) {fuel : ℕ}
    (hfuel : D.card < fuel) :
    (rangeTruncate overwrite move more fuel c).2 = .ok ∧
      (rangeTruncate overwrite move more fuel c).1.keys = K \ (D ∪ R) ∧
      (rangeTruncate overwrite move more fuel c).1.column = c.column := by
  have hremove : ∀ {c : Cg κ ν} {p}, c.key = .int p → c.pos = some p →
      curfileRemove overwrite c = (c.strike p, .ok) := by
    intro c p hkey hpos
    simp only [curfileRemove, pinned, hkey, hpos, Held.get]
  have hnext : ∀ {c : Cg κ ν} {p : κ} {R : Finset κ}, c.keys = K \ R → c.pos = some p →
      (∀ r ∈ R, d.Before r p) → move (c.strike p) = (c.strike p).move (d.next K p) := by
    intro c p R hkeys hpos hR
    rw [hmove (c.strike p) p hpos]
    refine congrArg (Cg.move · _) (Dir.next_congr (Finset.ext fun x => ?_))
    simp only [strike, erase, hkeys, Finset.mem_filter, Finset.mem_erase, Finset.mem_sdiff]
    constructor
    · exact fun h => ⟨h.1.2.1, h.2⟩
    · exact fun h => ⟨⟨h.2.ne.symm, h.1, fun hx => h.2.not_symm (hR x hx)⟩, h.2⟩
  induction hpass generalizing R fuel c with
  | last hlast =>
    rename_i p
    obtain ⟨fuel, rfl⟩ := Nat.exists_eq_add_one_of_ne_zero (Nat.ne_zero_of_lt hfuel)
    have hgone : c.keys.erase p = K \ ({p} ∪ R) := by
      rw [hkeys, Finset.erase_eq, sdiff_sdiff, Finset.sup_eq_union, Finset.union_comm]
    simp only [rangeTruncate, hremove hkey hpos, hkey, Held.get, Option.any_some, if_true]
    cases hmore : more p with
    | false => exact ⟨rfl, hgone, rfl⟩
    | true =>
      rw [hnext hkeys hpos hR, hlast hmore]
      exact ⟨rfl, hgone, rfl⟩
  | next hmore hdest hpass hpD ih =>
    rename_i p q D
    obtain ⟨fuel, rfl⟩ := Nat.exists_eq_add_one_of_ne_zero (Nat.ne_zero_of_lt hfuel)
    have hcard : D.card < fuel := by
      rw [Finset.card_insert_of_notMem hpD] at hfuel
      omega
    have hfirst := Dir.isFirst_next d K p
    rw [hdest] at hfirst
    have hkeys' : ((c.strike p).place q).keys = K \ insert p R := by
      rw [Finset.sdiff_insert, ← hkeys]
      rfl
    have hR' : ∀ r ∈ insert p R, d.Before r q := by
      intro r hr
      rcases Finset.mem_insert.mp hr with rfl | hr
      · exact hfirst.2.1
      · exact (hR r hr).trans hfirst.2.1
    have hrest := ih hkeys' rfl rfl hR' hcard
    have hstep : move (c.strike p) = ((c.strike p).place q, .ok) := by
      rw [hnext hkeys hpos hR, hdest]
      rfl
    rw [Finset.insert_union, ← Finset.union_insert]
    simp only [rangeTruncate, hremove hkey hpos, hkey, Held.get, Option.any_some, hmore, if_true,
      hstep]
    exact hrest

/-- A truncate removes the rows that it passes, with their entries. -/
lemma truncateFrom_eq {d : Dir}
    (hmove : ∀ (c : Cg κ ν) p, c.pos = some p → move c = c.move (d.next c.keys p))
    (hpass : Passes (d.next t.keys) more p D) (hD : D ⊆ t.keys) :
    t.truncateFrom overwrite move more p =
      (⟨t.groups.map fun g => (g.1 \ D, g.2), t.without D⟩, .ok) := by
  have hfuel : D.card < t.keys.card + 1 := Nat.lt_succ_of_le (Finset.card_le_card hD)
  have hindices : (if t.indices.isEmpty then (t.indices, CursorRet.ok) else
      truncateIndices overwrite move more (t.keys.card + 1) ⟨t.cursorsAt p, t.indices⟩) =
        (t.without D, .ok) := by
    split_ifs with hempty
    · rw [without, isEmpty_iff.mp hempty]
      rfl
    · refine truncateIndices_all hm (fun g hg p => ?_) hpass hD
      rw [← hm.same g hg]
      exact hmove (standing p g) p rfl
  have hone : ∀ g ∈ t.groups, _ := fun g hg =>
    @rangeTruncate_keys _ _ _ overwrite move more p D ∅ d t.keys hmove hpass (standing p g)
      ((hm.same g hg).trans Finset.sdiff_empty.symm) rfl rfl (by simp) _ hfuel
  have hgroups : eachCg (rangeTruncate overwrite move more (t.keys.card + 1)) (t.cursorsAt p) =
      (t.groups.map fun g =>
        (rangeTruncate overwrite move more (t.keys.card + 1) (standing p g)).1, .ok) :=
    eachCg_map fun g hg => Prod.ext rfl (hone g hg).1
  simp only [truncateFrom, hindices, if_true, hgroups, of, map_map]
  refine congrArg (fun gs => (IndexedTable.mk gs _, CursorRet.ok)) (map_congr_left fun g hg => ?_)
  obtain ⟨-, hkeys, hcolumn⟩ := hone g hg
  refine Prod.ext (hkeys.trans ?_) hcolumn
  rw [Finset.union_empty, hm.same g hg]

lemma matching_truncate {start stop : Option κ}
    (hstart : ∀ p ∈ start, p ∈ t.keys) (hstop : ∀ q ∈ stop, q ∈ t.keys)
    (hle : ∀ p ∈ start, ∀ q ∈ stop, p ≤ q) (hsome : start.isSome ∨ stop.isSome)
    (hidx : t.indices ≠ []) : (t.tableRangeTruncate overwrite start stop).1.Indexed := by
  have htruncated : ∀ D : Finset κ, (⟨t.groups.map fun g => (g.1 \ D, g.2), t.without D⟩ :
      IndexedTable κ ν ι).Indexed := fun D =>
    ⟨matching_removed hm (f := fun K => K \ D) rfl fun idx _ => ⟨rfl, rfl⟩,
      mt map_eq_nil_iff.mp hidx⟩
  match start, stop with
  | none, none => simp at hsome
  | none, some q =>
    rw [tableRangeTruncate, truncateFrom_eq (d := .down) hm (fun c p hpos => by
      rw [Cg.prev, hpos]
      rfl) (passes_prev (hstop q rfl)) (Finset.filter_subset _ _)]
    exact htruncated _
  | some p, stop =>
    rw [tableRangeTruncate, truncateFrom_eq (d := .up) hm (fun c p hpos => by
      rw [Cg.next, hpos]
      rfl) (passes_next (hstart p rfl) fun q hq => ⟨hstop q hq, hle p rfl q hq⟩)
        (Finset.filter_subset _ _)]
    exact htruncated _

end

end IndexedTable

/-! ### Runs -/

namespace OpenTable

open IndexedTable

variable [LinearOrder κ] [DecidableEq ι] {s s' : OpenTable κ ν ι}

section

variable {call : TableStore κ ν ι → TableStore κ ν ι × CursorRet} {cur : ℕ} {key : Option κ}
  {vs : List ν}

lemma write_eq_some (h : s.write call cur key vs = some s') :
    ∃ k, s.keyFor cur key = some k ∧ vs.length = s.table.groups.length ∧
      s.table.KeepsImmutable k vs ∧ (call (s.table.load (s.posFor cur key) k vs)).2 = .ok ∧
      s'.table = .of (call (s.table.load (s.posFor cur key) k vs)).1 := by
  obtain ⟨k, hk, h⟩ := Option.bind_eq_some_iff.mp h
  obtain ⟨⟨hlen, himm⟩, h⟩ := Option.ite_none_right_eq_some.mp h
  exact ⟨k, hk, hlen, himm, settle_eq_some h⟩

omit [LinearOrder κ] [DecidableEq ι] in
/-- A key that is set takes the position of the primary only. -/
lemma posFor_of_ne {i : ℕ} (hi : i ≠ 0) : s.posFor cur key i = s.pos cur i := by
  unfold posFor
  split_ifs
  · exact Function.update_of_ne hi _ _
  · rfl

omit [LinearOrder κ] [DecidableEq ι] in
/-- An insert writes its columns to its own row exactly if the cursors behind the primary do not
stand on another one. -/
lemma target_eq_iff {overwrite : Bool} {k : κ} {n : ℕ} :
    (∀ i < n, target overwrite (s.posFor cur key) k i = k) ↔
      (overwrite = true → ∀ i, 0 < i → i < n → ∀ p ∈ s.pos cur i, p = k) := by
  constructor
  · intro h hw i hi hin p hp
    have htarget := h i hin
    rw [target, if_neg (by simp [hi.ne', hw]), posFor_of_ne hi.ne', Option.mem_def.mp hp] at htarget
    exact htarget
  · intro h i hin
    by_cases hplace : i = 0 ∨ overwrite = false
    · exact if_pos hplace
    · obtain ⟨hi, hw⟩ := not_or.mp hplace
      rw [target, if_neg hplace, posFor_of_ne hi]
      cases hpos : s.pos cur i with
      | none => rfl
      | some p => exact h (by simpa using hw) i (Nat.pos_of_ne_zero hi) hin p hpos

end

/-- A successful call keeps the indices, if it finds its row. -/
lemma indexed_step {call : Call κ ν} (hs : s.table.Indexed) (hrow : s.FindsRow call)
    (h : s.step call = some s') : s'.table.Indexed := by
  obtain ⟨hm, hidx⟩ := id hs
  cases call with
  | insert cur overwrite key vs =>
    obtain ⟨k, hk, hlen, himm, hok, ht⟩ := write_eq_some h
    rw [ht]
    exact matching_insert hm hlen hidx himm
      (fun hnew => target_eq_iff.mpr fun hw => hrow k hk hw hnew) hok
  | update cur overwrite key vs =>
    obtain ⟨k, hk, hlen, himm, hok, ht⟩ := write_eq_some h
    rw [ht]
    exact matching_update hm hlen hidx himm (hrow k hk) hok
  | remove cur overwrite key =>
    obtain ⟨k, -, h⟩ := Option.bind_eq_some_iff.mp h
    rw [(settle_eq_some h).2]
    exact matching_remove hm hidx _
  | truncate overwrite start stop used =>
    obtain ⟨⟨hstart, hstop, hle, hsome⟩, h⟩ := Option.ite_none_right_eq_some.mp h
    obtain ⟨-, h⟩ := Option.ite_none_right_eq_some.mp h
    rw [← Option.some.inj h]
    exact matching_truncate hm hstart hstop hle hsome hidx
  | seek cur k =>
    obtain ⟨-, h⟩ := Option.ite_none_right_eq_some.mp h
    rw [← Option.some.inj h]
    exact hs
  | unpin cur i =>
    rw [← Option.some.inj h]
    exact hs

/-- An update that inserts a row leaves an immutable index without the entry, and an insert on a
cursor that stands on another row leaves a column group without the row. -/
lemma findsRow_of_matching {call : Call κ ν} (hs : s.table.Indexed) (h : s.step call = some s')
    (hm' : s'.Matching) : s.FindsRow call := by
  obtain ⟨hm, hidx⟩ := hs
  cases call with
  | insert cur overwrite key vs =>
    obtain ⟨k, hk, hlen, -, -, ht⟩ := write_eq_some h
    intro k' hk' hw hnew
    obtain rfl : k = k' := Option.some.inj (hk.symm.trans hk')
    rw [Matching, ht] at hm'
    exact target_eq_iff.mp (fun i hi => target_of_matching hm hlen hidx hnew hm' hi) hw
  | update cur overwrite key vs =>
    obtain ⟨k, hk, hlen, -, hok, ht⟩ := write_eq_some h
    intro k' hk'
    obtain rfl : k = k' := Option.some.inj (hk.symm.trans hk')
    refine or_iff_not_imp_left.mpr fun hnew idx hmem => ?_
    rw [of_update hm hlen hidx _ hok] at ht
    by_contra himm
    rw [Bool.not_eq_false] at himm
    -- the index is unchanged, and the row `k` is there now
    have hmem' : idx ∈ s'.table.indices := by
      rw [ht]
      exact mem_map.mpr ⟨idx, hmem, if_pos himm⟩
    have hkey : k ∈ s'.table.keys := by
      obtain ⟨p, ps, hzip⟩ := exists_cons_of_ne_nil (zip_ne_nil hm hlen)
      rw [ht, IndexedTable.keys, written, hzip]
      exact Finset.mem_insert_self k p.1.1
    have hentry : (idx.columns (s'.table.row k), k) ∈ idx.entries :=
      (IndexedTable.Matching.mem_entries hm' hmem').mpr ⟨hkey, rfl⟩
    exact hnew ((hm.mem_entries hmem).mp hentry).1
  | remove | truncate | seek | unpin => trivial

/-- A new table with `n` column groups and an index on all columns, and cursors that were just
opened. -/
def oneIndex (n : ℕ) (immutable : Bool) : OpenTable ℕ ℕ (List ℕ) :=
  ⟨⟨List.replicate n (∅, fun _ => 0), [⟨immutable, id, ∅⟩]⟩, fun _ _ => none⟩

end OpenTable

end WiredTiger
