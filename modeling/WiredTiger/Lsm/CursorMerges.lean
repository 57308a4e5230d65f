/-
# LSM cursors read the merged map

The chunk cursors of a walk stand on the first keys that have not been passed (`Heads`).  The first
of these keys is the first key of all chunks, and the newest cursor on it is the one of the newest
chunk that holds it.  To step off a key moves exactly the cursors that stand on it, so that a walk
over tombstones comes to the next key of the merged map.

A cursor on the merged map is simulated call by call (`Refines`).
-/
import WiredTiger.Lib.Pointwise
import WiredTiger.Lsm.Cursor

namespace WiredTiger

open Lib List Nat Dir MapPlace LsmChunk

/-! ### Tombstones -/

lemma clsmDeleted_iff (item : List UInt8) : clsmDeleted item = true ↔ item = tombstone := by
  constructor
  · intro h
    obtain ⟨hlen, htake⟩ : item.length = 2 ∧ item.take 2 = tombstone := by
      simpa [clsmDeleted, tombstone] using h
    rw [← htake, ← hlen, take_length]
  · rintro rfl
    rfl

/-- No encoded value is the tombstone. -/
lemma clsmDeleted_encode (v : List UInt8) : clsmDeleted (clsmDeletedEncode v) = false := by
  by_contra h
  have heq : clsmDeletedEncode v = tombstone := (clsmDeleted_iff _).mp (by simpa using h)
  unfold clsmDeletedEncode at heq
  split_ifs at heq with hv
  · have hlen : v.length + 1 = 2 := by simpa [tombstone] using congrArg length heq
    have : 2 ≤ v.length := hv.1
    omega
  · exact hv (by simp [heq, tombstone])

lemma clsmDeletedDecode_encode (v : List UInt8) : clsmDeletedDecode (clsmDeletedEncode v) = v := by
  unfold clsmDeletedEncode
  split_ifs with hv
  · have hlen : 2 ≤ v.length := hv.1
    have htake : (v ++ tombstone.take 1).take tombstone.length = tombstone := by
      rw [take_append_of_le_length hv.1, hv.2]
    have hlong : (v ++ tombstone.take 1).length > tombstone.length := by
      simp only [length_append, tombstone, length_cons, length_nil, take]
      omega
    rw [clsmDeletedDecode, if_pos ⟨hlong, htake⟩]
    exact dropLast_concat
  · exact if_neg fun h => hv ⟨h.1.le, h.2⟩

namespace LsmChunk

variable {κ : Type*} {c : LsmChunk κ} {k : κ}

lemma deleted_raw : clsmDeleted (c.raw k) = (c.entry k).isNone := by
  unfold raw
  cases c.entry k with
  | none => rfl
  | some v => exact clsmDeleted_encode v

lemma decode_raw {v : List UInt8} (h : c.entry k = some v) : clsmDeletedDecode (c.raw k) = v := by
  simp only [raw, h, clsmDeletedDecode_encode]

lemma not_bloomMiss (hk : k ∈ c.keys) : c.bloomMiss k = false := by
  unfold bloomMiss
  cases hb : c.bloom with
  | none => rfl
  | some b => simp [c.bloom_of_mem b hb k hk]

end LsmChunk

variable {κ : Type*} [LinearOrder κ] {d : Dir} {k : κ} {P : κ → Prop}
  {chunks : List (LsmChunk κ)}

/-! ### One chunk cursor -/

namespace ChunkCursor

variable {c : ChunkCursor κ}

/-- The cursor stands on the first key with `P` of its chunk. -/
def Stands (d : Dir) (P : κ → Prop) (c : ChunkCursor κ) : Prop :=
  d.IsFirst c.chunk.keys P c.pos

@[simp] lemma chunk_move (d : Dir) (c : ChunkCursor κ) : (c.move d).chunk = c.chunk := rfl

omit [LinearOrder κ] in
@[simp] lemma chunk_reset (c : ChunkCursor κ) : c.reset.chunk = c.chunk := rfl

lemma stands_move_reset (d : Dir) (c : ChunkCursor κ) :
    (c.reset.move d).Stands d fun _ => True :=
  isFirst_first d c.chunk.keys

lemma stands_move (h : c.pos = some k) : (c.move d).Stands d (d.Before k) := by
  unfold Stands move
  rw [h]
  exact isFirst_next d c.chunk.keys k

/-- A cursor that stands on `k` moves. -/
def stepOff (d : Dir) (k : κ) (c : ChunkCursor κ) : ChunkCursor κ :=
  if c.pos = some k then c.move d else c

lemma chunk_stepOff (d : Dir) (k : κ) (c : ChunkCursor κ) : (c.stepOff d k).chunk = c.chunk := by
  unfold stepOff
  split_ifs <;> rfl

/-- The cursors that do not stand on `k` are behind it already. -/
lemma Stands.stepOff (h : c.Stands d (d.From k)) :
    (c.stepOff d k).Stands d (d.Before k) := by
  unfold ChunkCursor.stepOff
  split_ifs with hpos
  · exact stands_move hpos
  · have hk : k ∉ c.chunk.keys := fun hk => hpos (h.unique (isFirst_from_of_mem hk))
    rw [Stands, h.unique (isFirst_from_of_notMem hk)]
    exact isFirst_next d _ k

section

variable (d : Dir) (k : κ) (down : Bool) (c : ChunkCursor κ)

lemma positionChunk_chunk : (c.positionChunk d k down).1.chunk = c.chunk := by
  unfold positionChunk
  dsimp only
  split
  · rfl
  · split_ifs <;> rfl

/-- A chunk cursor is positioned on the key, or else on the first one behind it. -/
lemma stands_positionChunk : (c.positionChunk d k down).1.Stands d (d.From k) := by
  unfold positionChunk
  dsimp only [searchNear]
  split
  · rename_i hnear
    have hempty : c.chunk.keys = ∅ := near_eq_none.mp hnear
    unfold Stands
    rw [hnear, hempty]
    exact fun x hx => absurd hx (Finset.notMem_empty x)
  · rename_i k' hnear
    by_cases hlt : d.Before k' k
    · rw [if_pos hlt]
      -- the search has ended in front of the key, and the next record is behind it
      refine (stands_move hnear).congr fun x hx => ?_
      constructor
      · exact fun hx' hxk => (not_between_near hnear hx).1 ⟨hx', hxk.not_symm⟩
      · exact fun hxk => before_of_before_of_not hlt hxk
    · rw [if_neg hlt, Stands]
      rw [hnear]
      exact ⟨near_mem hnear, hlt,
        fun x hx hxk hxk' => (not_between_near (d := d) hnear hx).2 ⟨hxk, hxk'⟩⟩

lemma positionChunk_eq : (c.positionChunk d k down).2 = some .eq ↔ k ∈ c.chunk.keys := by
  unfold positionChunk
  dsimp only [searchNear]
  split
  · rename_i hnear
    simp [near_eq_none.mp hnear]
  · rename_i k' hnear
    have hmem : k ∈ c.chunk.keys ↔ k' = k := by
      constructor
      · intro hk
        rw [near_of_mem hk] at hnear
        exact (Option.some.inj hnear).symm
      · rintro rfl
        exact near_mem hnear
    rw [hmem]
    split_ifs with hlt hmove
    · simp [hlt.ne]
    · simp [hlt.ne]
    · simp

end

end ChunkCursor

/-! ### The front of a walk -/

open ChunkCursor

/-- Each of the cursors stands on the first key with `P` of its chunk. -/
def Heads (d : Dir) (P : κ → Prop) (cs : List (ChunkCursor κ)) : Prop :=
  ∀ c ∈ cs, c.Stands d P

/-- No cursor stands in front of `k`, and the one at `i` is the newest that stands on it. -/
structure IsFront (d : Dir) (cs : List (ChunkCursor κ)) (i : ℕ) (k : κ) (multiple : Bool) :
    Prop where
  here : ∃ c, cs[i]? = some c ∧ c.pos = some k
  newest : ∀ j c, j < i → cs[j]? = some c → c.pos ≠ some k
  front : ∀ c ∈ cs, ∀ x, c.pos = some x → ¬ d.Before x k
  single : multiple = false → ∀ j c, j ≠ i → cs[j]? = some c → c.pos ≠ some k

/-- What the search for the front among the cursors finds. -/
def FrontSpec (d : Dir) (cs : List (ChunkCursor κ)) : Option (ℕ × κ) × Bool → Prop
  | (none, multiple) => multiple = false ∧ ∀ c ∈ cs, c.pos = none
  | (some (i, k), multiple) => IsFront d cs i k multiple

/-- A cursor behind the front is looked at. -/
lemma IsFront.concat {cs : List (ChunkCursor κ)} {c : ChunkCursor κ} {i : ℕ} {m m' : Bool}
    (h : IsFront d cs i k m) (hpos : ∀ x, c.pos = some x → ¬ d.Before x k)
    (hm : m' = false → m = false ∧ c.pos ≠ some k) : IsFront d (cs ++ [c]) i k m' := by
  obtain ⟨⟨c₀, hc₀, hk₀⟩, hnew, hfront, hsingle⟩ := h
  have hi : i < cs.length := (List.getElem?_eq_some_iff.mp hc₀).1
  refine ⟨⟨c₀, by rwa [getElem?_append_left hi], hk₀⟩, ?_, ?_, ?_⟩
  · intro j c' hj hc'
    rcases getElem?_concat_cases hc' with ⟨-, hc'⟩ | ⟨rfl, -⟩
    · exact hnew j c' hj hc'
    · omega
  · intro c' hc' x hx
    rcases mem_append.mp hc' with hc' | hc'
    · exact hfront c' hc' x hx
    · obtain rfl := mem_singleton.mp hc'
      exact hpos x hx
  · intro hm' j c' hj hc'
    rcases getElem?_concat_cases hc' with ⟨-, hc'⟩ | ⟨-, rfl⟩
    · exact hsingle (hm hm').1 j c' hj hc'
    · exact (hm hm').2

/-- A cursor becomes the front. -/
lemma isFront_concat_self {cs : List (ChunkCursor κ)} {c : ChunkCursor κ} (hk : c.pos = some k)
    (hcs : ∀ c' ∈ cs, ∀ x, c'.pos = some x → d.Before k x) :
    IsFront d (cs ++ [c]) cs.length k false := by
  have hother : ∀ j c', j < cs.length → cs[j]? = some c' → c'.pos ≠ some k := fun j c' _ hc' hp =>
    not_before_self (hcs c' (mem_of_getElem? hc') k hp)
  refine ⟨⟨c, by simp, hk⟩, ?_, ?_, ?_⟩
  · intro j c' hj hc'
    rw [getElem?_append_left hj] at hc'
    exact hother j c' hj hc'
  · intro c' hc' x hx
    rcases mem_append.mp hc' with hc' | hc'
    · exact (hcs c' hc' x hx).not_symm
    · obtain rfl := mem_singleton.mp hc'
      obtain rfl : x = k := Option.some.inj (hx.symm.trans hk)
      exact not_before_self
  · intro _ j c' hj hc'
    rcases getElem?_concat_cases hc' with ⟨hlt, hc'⟩ | ⟨rfl, -⟩
    · exact hother j c' hlt hc'
    · exact absurd rfl hj

/-- **The front of a walk.** The loop of `__clsm_get_current` finds the newest cursor on the first
key. -/
lemma frontSpec_frontCursor (d : Dir) (cs pre : List (ChunkCursor κ)) (cur : Option (ℕ × κ))
    (m : Bool) (h : FrontSpec d pre (cur, m)) :
    FrontSpec d (pre ++ cs) (Clsm.frontCursor d pre.length cur m cs) := by
  induction cs generalizing pre cur m with
  | nil => simpa [Clsm.frontCursor] using h
  | cons c cs ih =>
    have hlen : pre.length + 1 = (pre ++ [c]).length := by simp
    rw [append_cons, Clsm.frontCursor, hlen]
    cases hpos : c.pos with
    | none =>
      refine ih _ _ _ ?_
      cases cur with
      | none =>
        refine ⟨h.1, fun c' hc' => ?_⟩
        rcases mem_append.mp hc' with hc' | hc'
        · exact h.2 c' hc'
        · rwa [mem_singleton.mp hc']
      | some r => exact h.concat (by simp [hpos]) fun hm => ⟨hm, by simp [hpos]⟩
    | some x =>
      cases cur with
      | none =>
        refine ih _ _ _ ?_
        have hnone := h.2
        exact h.1 ▸ isFront_concat_self hpos fun c' hc' y hy => by
          rw [hnone c' hc'] at hy
          cases hy
      | some r =>
        obtain ⟨j, b⟩ := r
        replace h : IsFront d pre j b m := h
        dsimp only
        by_cases hlt : d.Before x b
        · rw [if_pos hlt]
          refine ih _ _ _ (isFront_concat_self hpos fun c' hc' y hy => ?_)
          exact before_of_before_of_not hlt (h.front c' hc' y hy)
        have hnot : ∀ y, c.pos = some y → ¬ d.Before y b := by
          rw [hpos]
          rintro y ⟨⟩
          exact hlt
        rw [if_neg hlt]
        split_ifs with heq
        · exact ih _ _ _ (h.concat hnot (by simp))
        · refine ih _ _ _ (h.concat hnot fun hm => ⟨hm, ?_⟩)
          rw [hpos]
          exact fun h' => heq (Option.some.inj h')

/-! ### The newest chunk decides -/

/-- The chunks of a list of cursors. -/
def chunksOf (cs : List (ChunkCursor κ)) : List (LsmChunk κ) := cs.map (·.chunk)

omit [LinearOrder κ] in
lemma getElem?_chunksOf {cs : List (ChunkCursor κ)} {i : ℕ} {c : ChunkCursor κ}
    (h : cs[i]? = some c) : (chunksOf cs)[i]? = some c.chunk := by
  simp [chunksOf, h]

omit [LinearOrder κ] in
lemma exists_of_chunksOf {cs : List (ChunkCursor κ)} {i : ℕ} {chunk : LsmChunk κ}
    (h : (chunksOf cs)[i]? = some chunk) : ∃ c, cs[i]? = some c ∧ c.chunk = chunk := by
  simpa [chunksOf] using h

lemma mem_allKeys :
    k ∈ Clsm.allKeys chunks ↔ ∃ c ∈ chunks, k ∈ c.keys := by
  induction chunks with
  | nil => simp [Clsm.allKeys]
  | cons c chunks ih => simp [Clsm.allKeys, ih]

lemma merged_eq_of_newest {i : ℕ} {c : LsmChunk κ}
    (hi : chunks[i]? = some c) (hk : k ∈ c.keys)
    (hnew : ∀ j c', j < i → chunks[j]? = some c' → k ∉ c'.keys) :
    merged chunks k = c.entry k := by
  induction chunks generalizing i with
  | nil => simp at hi
  | cons c₀ chunks ih =>
    cases i with
    | zero =>
      obtain rfl : c₀ = c := by simpa using hi
      simp [merged, hk]
    | succ i =>
      have hk₀ : k ∉ c₀.keys := hnew 0 c₀ (by omega) rfl
      have hrest := ih (i := i) hi fun j c' hj hc' => hnew (j + 1) c' (by omega) hc'
      simpa [merged, hk₀] using hrest

lemma mem_live :
    k ∈ live chunks ↔ k ∈ Clsm.allKeys chunks ∧ (merged chunks k).isSome := by
  simp [live]

lemma isFirst_live_none (h : ∀ c ∈ chunks, ∀ x ∈ c.keys, ¬ P x) :
    d.IsFirst (live chunks) P none := by
  intro x hx
  obtain ⟨c, hc, hxc⟩ := mem_allKeys.mp (mem_live.mp hx).1
  exact h c hc x hxc

/-! ### A walk -/

section Walk

variable {cs : List (ChunkCursor κ)} {c : ChunkCursor κ} {i : ℕ} {m : Bool}

lemma pos_none_of_heads (hheads : Heads d P cs) (hnone : ∀ c ∈ cs, c.pos = none) :
    ∀ c ∈ chunksOf cs, ∀ x ∈ c.keys, ¬ P x := by
  intro c hc x hx
  obtain ⟨c', hc', rfl⟩ := mem_map.mp hc
  have h := hheads c' hc'
  rw [Stands, hnone c' hc'] at h
  exact h x hx

namespace IsFront

variable (h : IsFront d cs i k m)
include h

lemma pos_eq (hc : cs[i]? = some c) : c.pos = some k := by
  obtain ⟨c', hc', hpos⟩ := h.here
  rwa [Option.some.inj (hc'.symm.trans hc)] at hpos

variable (hheads : Heads d P cs)
include hheads

/-- The front of a walk is the first key of all chunks that has not been passed. -/
lemma not_before (hc : c ∈ cs) {x : κ} (hx : x ∈ c.chunk.keys) (hP : P x) :
    ¬ d.Before x k := by
  have hs := hheads c hc
  cases hpos : c.pos with
  | none =>
    rw [Stands, hpos] at hs
    exact absurd hP (hs x hx)
  | some y =>
    rw [Stands, hpos] at hs
    exact fun hxk => h.front c hc y hpos (before_of_not_before (hs.2.2 x hx hP) hxk)

lemma prop : P k := by
  obtain ⟨c, hc, hpos⟩ := h.here
  have hs := hheads c (mem_of_getElem? hc)
  rw [Stands, hpos] at hs
  exact hs.2.1

/-- The cursors on the front key are those of the chunks that hold it. -/
lemma mem_iff (hc : c ∈ cs) : k ∈ c.chunk.keys ↔ c.pos = some k := by
  have hs := hheads c hc
  constructor
  · intro hk
    refine hs.unique ⟨hk, h.prop hheads, fun x hx hP => ?_⟩
    exact h.not_before hheads hc hx hP
  · intro hpos
    rw [Stands, hpos] at hs
    exact hs.1

/-- The newest cursor on the front key has the value that decides. -/
lemma merged_eq (hc : cs[i]? = some c) : merged (chunksOf cs) k = c.chunk.entry k := by
  refine merged_eq_of_newest (getElem?_chunksOf hc)
    ((h.mem_iff hheads (mem_of_getElem? hc)).mpr (h.pos_eq hc)) fun j c₁ hj hc₁ hk => ?_
  obtain ⟨c₂, hc₂, rfl⟩ := exists_of_chunksOf hc₁
  exact h.newest j c₂ hj hc₂ ((h.mem_iff hheads (mem_of_getElem? hc₂)).mp hk)

/-- The cursors of a walk that has passed nothing of `P` stand on the keys from the front on. -/
lemma heads_from (hP : ∀ x y, P x → d.Before x y → P y) : Heads d (d.From k) cs := by
  intro c hc
  refine (hheads c hc).congr fun x hx => ⟨fun hx' => h.not_before hheads hc hx hx', fun hx' => ?_⟩
  rcases eq_or_ne k x with rfl | hne
  · exact h.prop hheads
  · exact hP k x (h.prop hheads) (before_of_ne hx' hne)

lemma mem_allKeys : k ∈ Clsm.allKeys (chunksOf cs) := by
  obtain ⟨c, hc, hpos⟩ := h.here
  exact WiredTiger.mem_allKeys.mpr ⟨c.chunk, mem_of_getElem? (getElem?_chunksOf hc),
    (h.mem_iff hheads (mem_of_getElem? hc)).mpr hpos⟩

lemma behind {x : κ} (hx : x ∈ Clsm.allKeys (chunksOf cs)) (hP : P x) : ¬ d.Before x k := by
  obtain ⟨c, hc, hx⟩ := WiredTiger.mem_allKeys.mp hx
  obtain ⟨c', hc', rfl⟩ := mem_map.mp hc
  exact h.not_before hheads hc' hx hP

open Classical in
/-- Behind the front there is a key less. -/
lemma card_lt {Q : κ → Prop}
    (hP : ∀ x y, P x → d.Before x y → P y) (hQ : ∀ x, Q x → d.Before k x) :
    ((Clsm.allKeys (chunksOf cs)).filter Q).card <
      ((Clsm.allKeys (chunksOf cs)).filter P).card := by
  refine Finset.card_lt_card ((Finset.ssubset_iff_of_subset ?_).mpr ⟨k, ?_, ?_⟩)
  · intro x hx
    obtain ⟨hx, hkx⟩ := Finset.mem_filter.mp hx
    exact Finset.mem_filter.mpr ⟨hx, hP k x (h.prop hheads) (hQ x hkx)⟩
  · exact Finset.mem_filter.mpr ⟨h.mem_allKeys hheads, h.prop hheads⟩
  · exact fun hk => not_before_self (hQ k (Finset.mem_filter.mp hk).2)

end IsFront

end Walk

/-! ### Stepping off a key -/

namespace Clsm

variable {s : Clsm κ} {i : ℕ} {c : ChunkCursor κ} {cs : List (ChunkCursor κ)}
  {down : ℕ → κ → Bool} {closest : Option (ℕ × κ)}

/-- The current cursor stands on `k`, and while walking so does no other, or `multiple` is set. -/
structure Ready (d : Dir) (s : Clsm κ) (i : ℕ) (k : κ) : Prop where
  heads : Heads d (fun x => ¬ d.Before x k) s.cursors
  single : s.multiple = false → ∀ j c, j ≠ i → s.cursors[j]? = some c → c.pos ≠ some k

section StepOff

variable (h : s.Ready d i k) (hcur : s.current = some i) (hc : s.cursors[i]? = some c)
  (hpos : c.pos = some k)
include h hcur hc hpos

/-- To step off `k` moves the cursors that stand on it. -/
lemma Ready.cursors_stepOff :
    s.stepOff d = { s with cursors := s.cursors.map (ChunkCursor.stepOff d k) } := by
  unfold stepOff
  simp only [hcur, Option.bind_some, hc, Option.map_some]
  congr 1
  refine ext_getElem? fun j => ?_
  rw [getElem?_modify, getElem?_map]
  by_cases hji : i = j
  · subst hji
    cases hm : s.multiple <;> simp [hc, hpos, ChunkCursor.stepOff]
  · cases hm : s.multiple with
    | false =>
      simp only [Bool.false_eq_true, if_false, if_neg hji]
      cases hcj : s.cursors[j]? with
      | none => rfl
      | some cj => simp [ChunkCursor.stepOff, h.single hm j cj (Ne.symm hji) hcj]
    | true =>
      simp only [if_true, getElem?_mapIdx, if_neg hji]
      cases hcj : s.cursors[j]? with
      | none => rfl
      | some cj =>
        by_cases hk : cj.pos = some k
        · simp [ChunkCursor.stepOff, hk, hpos, Ne.symm hji]
        · simp [ChunkCursor.stepOff, hk, hpos]

lemma Ready.heads_stepOff : Heads d (d.Before k) (s.stepOff d).cursors := by
  rw [h.cursors_stepOff hcur hc hpos]
  intro c' hc'
  obtain ⟨c₀, hc₀, rfl⟩ := mem_map.mp hc'
  exact (h.heads c₀ hc₀).stepOff

end StepOff

lemma chunksOf_map_stepOff (d : Dir) (k : κ) (cs : List (ChunkCursor κ)) :
    chunksOf (cs.map (ChunkCursor.stepOff d k)) = chunksOf cs := by
  simp [chunksOf, ChunkCursor.chunk_stepOff]

/-- The cursor stands on the record of `k`. -/
structure StandsOn (s : Clsm κ) (k : κ) : Prop where
  key : s.key.get = some k
  here : ∃ i c, s.current = some i ∧ s.cursors[i]? = some c ∧ c.pos = some k ∧ k ∈ c.chunk.keys ∧
    ∀ d, s.iterate = some d → s.Ready d i k

lemma StandsOn.setValue (h : s.StandsOn k) (value : Held (List UInt8)) :
    ({ s with value := value } : Clsm κ).StandsOn k := by
  obtain ⟨hkey, i, c, hcur, hc, hpos, hk, hready⟩ := h
  exact ⟨hkey, i, c, hcur, hc, hpos, hk, fun d hd => ⟨(hready d hd).heads, (hready d hd).single⟩⟩

/-- A walk has ended on a record, or there is none. -/
def Lands (chunks : List (LsmChunk κ)) : Option κ → Clsm κ × CursorRet → Prop
  | none, (s, ret) =>
    ret = .notFound ∧ chunksOf s.cursors = chunks ∧ s.current = none ∧ s.key = .unset ∧
      s.value = .unset
  | some k, (s, ret) =>
    ret = .ok ∧ chunksOf s.cursors = chunks ∧ s.StandsOn k ∧ s.value.novalue = .unset ∧
      s.record = (merged chunks k).map fun v => (k, v)

lemma frontCursor_cases (d : Dir) (cs : List (ChunkCursor κ)) :
    (∃ m, frontCursor d 0 none false cs = (none, m) ∧ ∀ c ∈ cs, c.pos = none) ∨
      ∃ i k m, frontCursor d 0 none false cs = (some (i, k), m) ∧ IsFront d cs i k m := by
  have h := frontSpec_frontCursor d cs [] none false ⟨rfl, by simp⟩
  rcases hf : frontCursor d 0 none false cs with ⟨_ | ⟨i, k⟩, m⟩ <;>
    rw [nil_append, length_nil, hf] at h
  · exact .inl ⟨m, rfl, h.2⟩
  · exact .inr ⟨i, k, m, rfl, h⟩

omit [LinearOrder κ] in
lemma rawAt_eq (h : cs[i]? = some c) : rawAt cs i k = c.chunk.raw k := by
  simp [rawAt, h]

/-- The front of a walk with a value is where the walk ends. -/
lemma lands_front {m : Bool} (hfront : IsFront d s.cursors i k m) (hheads : Heads d P s.cursors)
    (hP : ∀ x y, P x → d.Before x y → P y) (hiter : s.iterate = some d)
    (hc : s.cursors[i]? = some c) {v : List UInt8} (hv : c.chunk.entry k = some v) :
    Lands (chunksOf s.cursors) (some k)
      ({ s with
          current := some i
          multiple := m
          key := .int k
          value := .int (clsmDeletedDecode (c.chunk.raw k)) }, .ok) := by
  have hpos := hfront.pos_eq hc
  have hk : k ∈ c.chunk.keys := (hfront.mem_iff hheads (mem_of_getElem? hc)).mpr hpos
  refine ⟨rfl, rfl, ⟨rfl, i, c, rfl, hc, hpos, hk, fun d' hd' => ?_⟩, rfl, ?_⟩
  · obtain rfl : d = d' := Option.some.inj (hiter.symm.trans hd')
    exact ⟨hfront.heads_from hheads hP, hfront.single⟩
  · rw [hfront.merged_eq hheads hc, hv, decode_raw hv]
    rfl

open Classical in
/-- **A walk ends on the first record that has not been passed.** The induction is on the number of
keys that have not been passed; a tombstone is passed. -/
lemma lands_findLive (fuel : ℕ) (s : Clsm κ) (P : κ → Prop) (hheads : Heads d P s.cursors)
    (hP : ∀ x y, P x → d.Before x y → P y) (hiter : s.iterate = some d)
    (hfuel : ((allKeys (chunksOf s.cursors)).filter P).card < fuel) (dest : Option κ)
    (hdest : d.IsFirst (live (chunksOf s.cursors)) P dest) :
    Lands (chunksOf s.cursors) dest (findLive d fuel s) := by
  induction fuel generalizing s P with
  | zero => exact absurd hfuel (Nat.not_lt_zero _)
  | succ fuel ih =>
    rw [findLive]
    rcases frontCursor_cases d s.cursors with ⟨m, hf, hnone⟩ | ⟨i, k, m, hf, hspec⟩
    · obtain rfl : dest = none :=
        hdest.unique (isFirst_live_none (pos_none_of_heads hheads hnone))
      simp only [getCurrent, hf]
      exact ⟨rfl, rfl, rfl, rfl, rfl⟩
    · obtain ⟨c, hc, hpos⟩ := hspec.here
      simp only [getCurrent, hf, rawAt_eq hc, deleted_raw]
      cases hv : c.chunk.entry k with
      | some v =>
        obtain rfl : dest = some k := hdest.unique
          ⟨mem_live.mpr ⟨hspec.mem_allKeys hheads, by rw [hspec.merged_eq hheads hc, hv]; rfl⟩,
            hspec.prop hheads, fun x hx => hspec.behind hheads (mem_live.mp hx).1⟩
        exact lands_front hspec hheads hP hiter hc hv
      | none =>
        -- a tombstone: the cursors step off it
        have hdead : k ∉ live (chunksOf s.cursors) := fun h => by
          have := (mem_live.mp h).2
          rw [hspec.merged_eq hheads hc, hv] at this
          cases this
        have hiff : ∀ x ∈ live (chunksOf s.cursors), P x ↔ d.Before k x := by
          intro x hx
          refine ⟨fun hPx => ?_, hP k x (hspec.prop hheads)⟩
          exact before_of_ne (hspec.behind hheads (mem_live.mp hx).1 hPx) fun h => hdead (h ▸ hx)
        simp only [Option.isNone_none, if_true]
        set s' : Clsm κ :=
          { s with current := some i, multiple := m, key := .unset, value := .unset }
        have hready : s'.Ready d i k := ⟨hspec.heads_from hheads hP, hspec.single⟩
        have hc' : s'.cursors[i]? = some c := hc
        have hoff := hready.heads_stepOff rfl hc' hpos
        rw [hready.cursors_stepOff rfl hc' hpos] at hoff ⊢
        rw [← chunksOf_map_stepOff d k s.cursors]
        refine ih _ (d.Before k) hoff (fun x y => Dir.Before.trans) hiter ?_ ?_
        · rw [chunksOf_map_stepOff]
          exact (hspec.card_lt hheads hP fun _ => id).trans_le (Nat.lt_succ_iff.mp hfuel)
        · rw [chunksOf_map_stepOff]
          exact hdest.congr hiff

open Classical in
omit [LinearOrder κ] in
lemma card_filter_lt {t : Finset κ} {n : ℕ} (h : t.card < n) : (t.filter P).card < n :=
  lt_of_le_of_lt (Finset.card_filter_le t P) h

/-- A walk that steps off `k` ends on the next record. -/
lemma lands_stepOff {fuel : ℕ} (h : s.Ready d i k) (hcur : s.current = some i)
    (hc : s.cursors[i]? = some c) (hpos : c.pos = some k) (hiter : s.iterate = some d)
    (hfuel : (allKeys (chunksOf s.cursors)).card < fuel) :
    Lands (chunksOf s.cursors) (d.next (live (chunksOf s.cursors)) k)
      (findLive d fuel (s.stepOff d)) := by
  have hoff := h.heads_stepOff hcur hc hpos
  rw [h.cursors_stepOff hcur hc hpos] at hoff ⊢
  rw [← chunksOf_map_stepOff d k s.cursors] at hfuel ⊢
  refine lands_findLive fuel _ (d.Before k) hoff (fun x y => Dir.Before.trans) hiter ?_ _
    (isFirst_next d _ k)
  exact card_filter_lt hfuel

/-! ### Getting a walk started -/

lemma getStarted_none (d : Dir) (down : ℕ → κ → Bool) (i : ℕ) (cur : Option ℕ)
    (cs : List (ChunkCursor κ)) :
    getStarted d none down i cur cs = (cs.map fun c => c.reset.move d, cur) := by
  induction cs generalizing i with
  | nil => rfl
  | cons c cs ih => simp [getStarted, ih]

/-- All cursors but the one at `skip` are positioned at `k`. -/
def positionAll (d : Dir) (k : κ) (down : ℕ → κ → Bool) (skip : Option ℕ) :
    ℕ → List (ChunkCursor κ) → List (ChunkCursor κ)
  | _, [] => []
  | i, c :: cs =>
    (if skip = some i then c else (c.positionChunk d k (down i k)).1) ::
      positionAll d k down skip (i + 1) cs

section PositionAll

variable {skip : Option ℕ}

@[simp] lemma chunksOf_positionAll (d : Dir) (k : κ) (down : ℕ → κ → Bool) (skip : Option ℕ)
    (i : ℕ) (cs : List (ChunkCursor κ)) :
    chunksOf (positionAll d k down skip i cs) = chunksOf cs := by
  induction cs generalizing i with
  | nil => rfl
  | cons c cs ih =>
    have hc : (if skip = some i then c else (c.positionChunk d k (down i k)).1).chunk =
        c.chunk := by
      split_ifs
      · rfl
      · exact positionChunk_chunk d k _ c
    simpa [positionAll, chunksOf, hc] using ih (i + 1)

lemma getElem?_positionAll {j : ℕ} (h : skip = some (i + j)) :
    (positionAll d k down skip i cs)[j]? = cs[j]? := by
  induction cs generalizing i j with
  | nil => rfl
  | cons c cs ih =>
    cases j with
    | zero => simp [positionAll, h]
    | succ j => exact ih (by rw [h]; congr 1; omega)

lemma heads_positionAll
    (h : ∀ j c, skip = some (i + j) → cs[j]? = some c → c.Stands d (d.From k)) :
    Heads d (d.From k) (positionAll d k down skip i cs) := by
  induction cs generalizing i with
  | nil => exact fun c hc => absurd hc not_mem_nil
  | cons c cs ih =>
    rintro c' (_ | ⟨_, hc'⟩)
    · split_ifs with hi
      · exact h 0 c hi rfl
      · exact stands_positionChunk d k _ c
    · exact ih (fun j c₁ hj => h (j + 1) c₁ (by rw [hj]; congr 1; omega)) c' hc'

lemma positionAll_of_lt {n : ℕ} (h : n < i) :
    positionAll d k down (some n) i cs = positionAll d k down none i cs := by
  induction cs generalizing i with
  | nil => rfl
  | cons c cs ih =>
    have hne : ¬ some n = some i := fun h' => h.ne (Option.some.inj h')
    simp only [positionAll, ih (lt_succ_of_lt h), if_neg hne, reduceCtorEq, if_false]

/-- The place of the newest cursor whose chunk holds `k`. -/
def holder (k : κ) (cs : List (ChunkCursor κ)) : Option ℕ :=
  cs.findIdx? fun c => k ∈ c.chunk.keys

lemma holder_cons : holder k (c :: cs) =
    if k ∈ c.chunk.keys then some 0 else (holder k cs).map (· + 1) := by
  simp [holder, findIdx?_cons]

lemma getStarted_some (cur : Option ℕ) :
    getStarted d (some k) down i cur cs =
      (positionAll d k down cur i cs, cur.or ((holder k cs).map (i + ·))) := by
  induction cs generalizing i cur with
  | nil => simp [getStarted, positionAll, holder]
  | cons c cs ih =>
    have hshift : (fun j => i + 1 + j) = fun j => i + (j + 1) := by
      funext j
      omega
    rw [getStarted, positionAll, holder_cons]
    by_cases hcur : cur = some i
    · simp [hcur, ih]
    · by_cases hk : k ∈ c.chunk.keys ∧ cur = none
      · simp [hk.1, hk.2, ih, positionChunk_eq, positionAll_of_lt (lt_succ_self i)]
      · simp only [hcur, if_false, positionChunk_eq, hk, ih, hshift]
        rcases not_and_or.mp hk with hk' | hk'
        · simp [hk', Function.comp_def]
        · obtain ⟨n, rfl⟩ := Option.ne_none_iff_exists'.mp hk'
          simp

lemma holder_eq_some {j : ℕ} (h : holder k cs = some j) :
    ∃ c, cs[j]? = some c ∧ k ∈ c.chunk.keys ∧ merged (chunksOf cs) k = c.chunk.entry k := by
  obtain ⟨hj, hk, hnew⟩ := findIdx?_eq_some_iff_getElem.mp h
  have hc : cs[j]? = some cs[j] := getElem?_eq_getElem hj
  replace hk : k ∈ cs[j].chunk.keys := by simpa using hk
  refine ⟨cs[j], hc, hk, merged_eq_of_newest (getElem?_chunksOf hc) hk fun j' c' hj' hc' => ?_⟩
  obtain ⟨c₂, hc₂, rfl⟩ := exists_of_chunksOf hc'
  obtain ⟨hlt, rfl⟩ := List.getElem?_eq_some_iff.mp hc₂
  simpa using hnew j' hj'

lemma holder_eq_none (h : holder k cs = none) : k ∉ allKeys (chunksOf cs) := by
  intro hk
  obtain ⟨c, hc, hkc⟩ := mem_allKeys.mp hk
  obtain ⟨c', hc', rfl⟩ := mem_map.mp hc
  have := findIdx?_eq_none_iff.mp h c' hc'
  simp [hkc] at this

end PositionAll

lemma stands_of_pos (hpos : c.pos = some k) (hk : k ∈ c.chunk.keys) :
    c.Stands d (d.From k) := by
  rw [Stands, hpos]
  exact isFirst_from_of_mem hk

lemma pos_of_stands (h : c.Stands d (d.From k)) (hk : k ∈ c.chunk.keys) :
    c.pos = some k :=
  h.unique (isFirst_from_of_mem hk)

/-! ### `next` and `prev` -/

lemma lands_move_start (d : Dir) (down : ℕ → κ → Bool) (hcur : s.current = none)
    (hkey : s.key.get = none) :
    Lands (chunksOf s.cursors) (d.first (live (chunksOf s.cursors))) (s.move d down) := by
  have hchunks : chunksOf (s.cursors.map fun c => c.reset.move d) = chunksOf s.cursors := by
    simp [chunksOf]
  simp only [move, hcur, hkey, getStarted_none, true_or, if_true, Option.isSome_none,
    Bool.false_eq_true, if_false]
  rw [← hchunks]
  refine lands_findLive _ _ (fun _ => True) ?_ (fun _ _ _ _ => trivial) rfl
    (card_filter_lt ?_) _ (isFirst_first d _)
  · intro c hc
    obtain ⟨c₀, -, rfl⟩ := mem_map.mp hc
    exact stands_move_reset d c₀
  · rw [hchunks]
    exact lt_succ_self _

lemma lands_move_missed (d : Dir) (down : ℕ → κ → Bool) (hcur : s.current = none)
    (hkey : s.key.get = some k) :
    Lands (chunksOf s.cursors) (d.next (live (chunksOf s.cursors)) k) (s.move d down) := by
  have hheads : Heads d (d.From k) (positionAll d k down none 0 s.cursors) :=
    heads_positionAll (by simp)
  simp only [move, hcur, hkey, getStarted_some, true_or, if_true, Option.none_or, zero_add]
  cases hh : holder k s.cursors with
  | none =>
    have hlive : k ∉ live (chunksOf s.cursors) := fun hk => holder_eq_none hh (mem_live.mp hk).1
    rw [← chunksOf_positionAll d k down none 0 s.cursors] at hlive ⊢
    refine lands_findLive _ _ _ hheads (fun x y hx hxy hy => hx (hxy.trans hy)) rfl
      (card_filter_lt ?_) _ (isFirst_from_of_notMem hlive)
    rw [chunksOf_positionAll]
    exact lt_succ_self _
  | some n =>
    rw [← chunksOf_positionAll d k down none 0 s.cursors]
    obtain ⟨c₀, hc₀, hk, -⟩ := holder_eq_some hh
    replace hc₀ := getElem?_chunksOf hc₀
    rw [← chunksOf_positionAll d k down none 0 s.cursors] at hc₀
    obtain ⟨c, hc, hchunk⟩ := exists_of_chunksOf hc₀
    rw [← hchunk] at hk
    refine lands_stepOff
      (s := ⟨positionAll d k down none 0 s.cursors, some n, some d, true, s.key, s.value.novalue⟩)
      ⟨hheads, ?_⟩ rfl hc (pos_of_stands (hheads c (mem_of_getElem? hc)) hk) rfl ?_
    · rintro ⟨⟩
    · rw [chunksOf_positionAll]
      exact lt_succ_self _

lemma lands_move_on (d : Dir) (down : ℕ → κ → Bool) (h : s.StandsOn k) :
    Lands (chunksOf s.cursors) (d.next (live (chunksOf s.cursors)) k) (s.move d down) := by
  obtain ⟨hkey, i, c, hcur, hc, hpos, hk, hready⟩ := h
  by_cases hiter : s.iterate = some d
  · obtain ⟨hheads, hsingle⟩ := hready d hiter
    simp only [move, hcur, hiter, reduceCtorEq, ne_eq, not_true_eq_false, or_self, if_false]
    exact lands_stepOff (s := ⟨s.cursors, some i, some d, s.multiple, s.key, s.value.novalue⟩)
      ⟨hheads, hsingle⟩ rfl hc hpos rfl (lt_succ_self _)
  · have hheads : Heads d (d.From k) (positionAll d k down (some i) 0 s.cursors) := by
      refine heads_positionAll fun j c' hj hc' => ?_
      obtain rfl : i = j := by simpa using hj
      rw [Option.some.inj (hc'.symm.trans hc)]
      exact stands_of_pos hpos hk
    simp only [move, hcur, hiter, hkey, getStarted_some, ne_eq, not_false_eq_true, or_true, if_true,
      Option.some_or, Option.isSome_some]
    rw [← chunksOf_positionAll d k down (some i) 0 s.cursors]
    refine lands_stepOff
      (s := ⟨positionAll d k down (some i) 0 s.cursors, some i, some d, true, s.key,
        s.value.novalue⟩) ⟨hheads, ?_⟩ rfl ?_ hpos rfl ?_
    · rintro ⟨⟩
    · exact (getElem?_positionAll (by rw [zero_add])).trans hc
    · rw [chunksOf_positionAll]
      exact lt_succ_self _

/-! ### The searches -/

omit [LinearOrder κ] in
@[simp] lemma chunksOf_enter (k : κ) (s : Clsm κ) :
    chunksOf (s.enter k).cursors = chunksOf s.cursors := by
  unfold enter resetCursors
  dsimp only
  split_ifs
  · rfl
  · simp [chunksOf]

omit [LinearOrder κ] in
lemma enter_fields (k : κ) (s : Clsm κ) :
    (s.enter k).current = none ∧ (s.enter k).key = .ext k ∧
    (s.enter k).value = s.value.novalue ∧ (s.enter k).iterate = none := by
  unfold enter resetCursors
  dsimp only
  split_ifs with h
  · exact ⟨h.1, rfl, rfl, rfl⟩
  · exact ⟨rfl, rfl, rfl, rfl⟩

lemma lookup_cons_mem (hk : k ∈ c.chunk.keys) :
    lookup k i (c :: cs) =
      if clsmDeleted (c.chunk.raw k) then (c.reset :: cs, none)
      else (c.search k :: cs, some (i, c.chunk.raw k)) := by
  simp [lookup, ChunkCursor.search, hk, not_bloomMiss hk, ChunkCursor.reset]

/-- A chunk without the key is passed, whether its Bloom filter tells so or not. -/
lemma lookup_cons_notMem (hk : k ∉ c.chunk.keys) :
    ∃ c₁ : ChunkCursor κ, c₁.chunk = c.chunk ∧
      lookup k i (c :: cs) = (c₁ :: (lookup k (i + 1) cs).1, (lookup k (i + 1) cs).2) := by
  cases cs with
  | nil =>
    refine ⟨c.reset, rfl, ?_⟩
    cases hb : c.chunk.bloomMiss k <;>
      simp [lookup, ChunkCursor.search, hk, hb, ChunkCursor.reset]
  | cons c' cs =>
    refine ⟨if c.chunk.bloomMiss k then c else c.search k, by split_ifs <;> rfl, ?_⟩
    rw [lookup.eq_def k i (c :: c' :: cs)]
    cases hb : c.chunk.bloomMiss k <;> simp [ChunkCursor.search, hk, hb]

lemma chunksOf_lookup (k : κ) (i : ℕ) (cs : List (ChunkCursor κ)) :
    chunksOf (lookup k i cs).1 = chunksOf cs := by
  induction cs generalizing i with
  | nil => rfl
  | cons c cs ih =>
    by_cases hk : k ∈ c.chunk.keys
    · rw [lookup_cons_mem hk]
      split_ifs <;> simp [chunksOf, ChunkCursor.reset, ChunkCursor.search]
    · obtain ⟨c₁, hc₁, heq⟩ := @lookup_cons_notMem _ _ k i c cs hk
      rw [heq]
      simpa [chunksOf, hc₁] using ih (i + 1)

lemma merged_cons (c : LsmChunk κ) (chunks : List (LsmChunk κ)) (k : κ) :
    merged (c :: chunks) k = if k ∈ c.keys then c.entry k else merged chunks k := by
  by_cases hk : k ∈ c.keys <;> simp [merged, hk]

/-- The first chunk that holds the key decides. -/
lemma lookup_spec (k : κ) (i : ℕ) (cs : List (ChunkCursor κ)) :
    match (lookup k i cs).2 with
    | none => merged (chunksOf cs) k = none
    | some (n, raw) => ∃ j c, n = i + j ∧ (lookup k i cs).1[j]? = some c ∧ c.pos = some k ∧
        k ∈ c.chunk.keys ∧ merged (chunksOf cs) k = some (clsmDeletedDecode raw) := by
  induction cs generalizing i with
  | nil => rfl
  | cons c cs ih =>
    by_cases hk : k ∈ c.chunk.keys
    · have hmerged : merged (chunksOf (c :: cs)) k = c.chunk.entry k :=
        (merged_cons ..).trans (if_pos hk)
      rw [lookup_cons_mem hk, deleted_raw, hmerged]
      cases hv : c.chunk.entry k with
      | none => rfl
      | some v =>
        refine ⟨0, c.search k, rfl, rfl, by simp [ChunkCursor.search, hk], hk, ?_⟩
        rw [decode_raw hv]
    · obtain ⟨c₁, hc₁, heq⟩ := @lookup_cons_notMem _ _ k i c cs hk
      have hrest := ih (i + 1)
      have hmerged : merged (chunksOf (c :: cs)) k = merged (chunksOf cs) k :=
        (merged_cons ..).trans (if_neg hk)
      rw [heq, hmerged]
      cases hr : (lookup k (i + 1) cs).2 with
      | none =>
        rw [hr] at hrest
        exact hrest
      | some r =>
        rw [hr] at hrest
        obtain ⟨j, c', hn, hc', hrest⟩ := hrest
        exact ⟨j + 1, c', by omega, hc', hrest⟩

lemma merged_isSome (h : (merged chunks k).isSome) :
    k ∈ live chunks := by
  refine mem_live.mpr ⟨?_, h⟩
  obtain ⟨v, hv⟩ := Option.isSome_iff_exists.mp h
  obtain ⟨c, hc, -⟩ := Option.bind_eq_some_iff.mp hv
  exact mem_allKeys.mpr ⟨c, mem_of_find?_eq_some hc, by simpa using find?_some hc⟩

/-- `search` finds the record of the merged map, or nothing and keeps the key. -/
lemma search_spec (k : κ) (s : Clsm κ) (hvalue : s.value.novalue = .unset) :
    if k ∈ live (chunksOf s.cursors) then Lands (chunksOf s.cursors) (some k) (s.search k)
    else (s.search k).2 = .notFound ∧ chunksOf (s.search k).1.cursors = chunksOf s.cursors ∧
      (s.search k).1.current = none ∧ (s.search k).1.key = .ext k ∧
      (s.search k).1.value = .unset := by
  have hchunks := chunksOf_lookup k 0 (s.enter k).cursors
  have hspec := lookup_spec k 0 (s.enter k).cursors
  obtain ⟨hcur, hkey, hval, hiter⟩ := enter_fields k s
  unfold search
  rcases hl : lookup k 0 (s.enter k).cursors with ⟨cs, _ | ⟨n, raw⟩⟩
  · rw [hl, chunksOf_enter] at hspec hchunks
    replace hspec : merged (chunksOf s.cursors) k = none := hspec
    rw [if_neg fun h => by simpa [hspec] using (mem_live.mp h).2]
    simp only [hl]
    exact ⟨trivial, hchunks, hcur, hkey, hval.trans hvalue⟩
  · rw [hl, chunksOf_enter] at hspec hchunks
    obtain ⟨j, c, hn, hc, hpos, hk, hv⟩ := hspec
    rw [if_pos (merged_isSome (by simp [hv]))]
    simp only [hl]
    refine ⟨rfl, hchunks, ⟨rfl, n, c, rfl, ?_, hpos, hk, ?_⟩, rfl, ?_⟩
    · rw [hn, zero_add]
      exact hc
    · intro d hd
      have : (s.enter k).iterate = some d := hd
      rw [hiter] at this
      cases this
    · rw [hv]
      rfl

/-! ### `search_near` -/

lemma frontCursor_cons (cur : Option (ℕ × κ)) (m : Bool) (cs : List (ChunkCursor κ)) :
    frontCursor d i cur m (c :: cs) =
      frontCursor d (i + 1) (frontCursor d i cur m [c]).1 (frontCursor d i cur m [c]).2 cs := by
  rw [frontCursor, frontCursor]
  cases c.pos with
  | none => rfl
  | some k =>
    rcases cur with _ | ⟨j, b⟩
    · rfl
    · dsimp only
      split_ifs <;> rfl

lemma findClosest_cons_mem
    (hk : k ∈ c.chunk.keys) :
    findClosest k down i closest (c :: cs) =
      (c.searchNear k (down i k) :: cs, some (i, k), true) := by
  simp [findClosest, ChunkCursor.searchNear, near_of_mem hk]

/-- A chunk without the key is looked at as for a walk. -/
lemma findClosest_cons_notMem
    (hk : k ∉ c.chunk.keys) (m : Bool) {c₁ : ChunkCursor κ}
    (hc₁ : (c.positionChunk .up k (down i k)).1 = c₁) :
    findClosest k down i closest (c :: cs) =
      (c₁ :: (findClosest k down (i + 1) (frontCursor .up i closest m [c₁]).1 cs).1,
        (findClosest k down (i + 1) (frontCursor .up i closest m [c₁]).1 cs).2) := by
  subst hc₁
  cases hnear : near c.chunk.keys k (down i k) with
  | none => simp [findClosest, ChunkCursor.searchNear, hnear, positionChunk, frontCursor]
  | some k' =>
    have hne : k' ≠ k := fun h => hk (h ▸ near_mem hnear)
    have hmove : (positionChunk .up k (down i k) c).1 =
        if k' < k then ChunkCursor.move .up ⟨c.chunk, some k'⟩ else ⟨c.chunk, some k'⟩ := by
      by_cases hlt : k' < k
      · have hb : up.Before k' k := hlt
        simp [ChunkCursor.searchNear, hnear, positionChunk, hlt, hb]
      · have hb : ¬ up.Before k' k := hlt
        simp [ChunkCursor.searchNear, hnear, positionChunk, hlt, hb]
    rw [hmove]
    simp only [findClosest, ChunkCursor.searchNear, hnear, if_neg hne, frontCursor]
    cases (if k' < k then ChunkCursor.move .up ⟨c.chunk, some k'⟩ else ⟨c.chunk, some k'⟩ :
      ChunkCursor κ).pos with
    | none => rfl
    | some x =>
      rcases closest with _ | ⟨j, b⟩
      · rfl
      · by_cases hxb : x < b
        · simp [Dir.Before, hxb]
        · by_cases heq : x = b <;> simp [Dir.Before, hxb, heq]

lemma findClosest_of_absent
    (habs : holder k cs = none) (m : Bool) :
    findClosest k down i closest cs =
      (positionAll .up k down none i cs,
        (frontCursor .up i closest m (positionAll .up k down none i cs)).1, false) := by
  induction cs generalizing i closest m with
  | nil => rfl
  | cons c cs ih =>
    rw [holder_cons] at habs
    split_ifs at habs with hk
    rw [findClosest_cons_notMem hk m rfl, ih (by simpa using habs) (frontCursor .up i closest m
      [(c.positionChunk .up k (down i k)).1]).2, ← frontCursor_cons]
    simp [positionAll]

/-- The loop stops at the newest chunk that holds the key. -/
lemma findClosest_of_holder
    {j : ℕ} (h : holder k cs = some j) :
    ∃ cs', findClosest k down i closest cs = (cs', some (i + j, k), true) ∧
      chunksOf cs' = chunksOf cs ∧ ∃ c, cs'[j]? = some c ∧ c.pos = some k := by
  induction cs generalizing i j closest with
  | nil => cases h
  | cons c cs ih =>
    rw [holder_cons] at h
    split_ifs at h with hk
    · obtain rfl : 0 = j := Option.some.inj h
      exact ⟨_, findClosest_cons_mem hk, by simp [chunksOf, ChunkCursor.searchNear], _, rfl,
        near_of_mem hk _⟩
    · obtain ⟨j', hj', rfl⟩ := Option.map_eq_some_iff.mp h
      rw [findClosest_cons_notMem hk false rfl]
      obtain ⟨cs', heq, hchunks, c', hc', hpos⟩ := @ih (i + 1) _ _ hj'
      refine ⟨(c.positionChunk .up k (down i k)).1 :: cs', ?_, ?_, c', hc', hpos⟩
      · rw [heq, add_right_comm, add_assoc]
      · simpa [chunksOf, positionChunk_chunk] using hchunks

/-- The loop of `__clsm_search_near` has found `b`: the first key from `k` on in any chunk, with the
newest chunk that holds it. -/
structure Closest (k : κ) (chunks : List (LsmChunk κ)) (cs : List (ChunkCursor κ)) (i : ℕ) (b : κ)
    (exact : Bool) : Prop where
  chunks_eq : chunksOf cs = chunks
  here : ∃ c, cs[i]? = some c ∧ c.pos = some b ∧ b ∈ c.chunk.keys ∧
    merged chunks b = c.chunk.entry b
  le : k ≤ b
  first : ∀ x ∈ allKeys chunks, k ≤ x → b ≤ x
  exact_iff : exact = true ↔ b = k

lemma findClosest_spec (k : κ) (down : ℕ → κ → Bool) (cs : List (ChunkCursor κ)) :
    match findClosest k down 0 none cs with
    | (cs', none, _) => chunksOf cs' = chunksOf cs ∧ ∀ x ∈ allKeys (chunksOf cs), x < k
    | (cs', some (i, b), exact) => Closest k (chunksOf cs) cs' i b exact := by
  cases hh : holder k cs with
  | some j =>
    obtain ⟨cs', heq, hchunks, c, hc, hpos⟩ := @findClosest_of_holder _ _ k 0 cs down none j hh
    obtain ⟨c₀, hc₀, hk, hmerged⟩ := holder_eq_some hh
    have hchunk : c.chunk = c₀.chunk := by
      have := getElem?_chunksOf hc
      rw [hchunks, getElem?_chunksOf hc₀] at this
      exact (Option.some.inj this).symm
    rw [heq, zero_add]
    exact ⟨hchunks, ⟨c, hc, hpos, hchunk ▸ hk, hchunk ▸ hmerged⟩, le_rfl, fun x _ hx => hx,
      by simp⟩
  | none =>
    have hheads : Heads .up (up.From k) (positionAll .up k down none 0 cs) :=
      heads_positionAll (by simp)
    rw [findClosest_of_absent hh false]
    rcases frontCursor_cases .up (positionAll .up k down none 0 cs) with
      ⟨m, hf, hnone⟩ | ⟨i, b, m, hf, hspec⟩ <;> rw [hf]
    · refine ⟨chunksOf_positionAll .., fun x hx => ?_⟩
      obtain ⟨c, hc, hxc⟩ := mem_allKeys.mp hx
      rw [← chunksOf_positionAll .up k down none 0 cs] at hc
      exact not_not.mp (pos_none_of_heads hheads hnone c hc x hxc)
    · obtain ⟨c, hc, hpos⟩ := hspec.here
      have hb := (hspec.mem_iff hheads (mem_of_getElem? hc)).mpr hpos
      have hall := hspec.mem_allKeys hheads
      rw [chunksOf_positionAll] at hall
      refine ⟨chunksOf_positionAll .., ⟨c, hc, hpos, hb, ?_⟩, not_lt.mp (hspec.prop hheads), ?_, ?_⟩
      · rw [← hspec.merged_eq hheads hc, chunksOf_positionAll]
      · intro x hx hkx
        rw [← chunksOf_positionAll .up k down none 0 cs] at hx
        exact not_lt.mp (hspec.behind hheads hx (not_lt.mpr hkx))
      · refine ⟨fun h => (Bool.false_ne_true h).elim, ?_⟩
        rintro rfl
        exact absurd hall (holder_eq_none hh)

/-- A search has ended near `k`. -/
def NearLands (chunks : List (LsmChunk κ)) (k : κ) (dest : Option κ)
    (r : Clsm κ × CursorRet × Ordering) : Prop :=
  Lands chunks dest (r.1, r.2.1) ∧ ∀ k', dest = some k' → r.2.2 = compare k' k

lemma Lands.leaveNear {dest : Option κ} {r : Clsm κ × CursorRet}
    {exact : Ordering} (h : Lands chunks dest r)
    (hexact : ∀ k', dest = some k' → exact = compare k' k) :
    NearLands chunks k dest (r.1.leaveNear r.2 exact) := by
  obtain ⟨s, ret⟩ := r
  cases dest with
  | none =>
    obtain ⟨rfl, hchunks, -⟩ := h
    exact ⟨⟨rfl, hchunks, rfl, rfl, rfl⟩, by simp⟩
  | some k' =>
    obtain ⟨rfl, hrest⟩ := h
    exact ⟨⟨rfl, hrest⟩, hexact⟩

/-- There is nothing from the key on, and the search goes backwards. -/
lemma nearLands_nearPrev
    (h : Lands chunks (below (live chunks) k) (move .down down { s with current := none })) :
    NearLands chunks k (below (live chunks) k) (nearPrev down s) :=
  h.leaveNear fun _ hk' => (compare_lt_iff_lt.mpr (below_eq_some.mp hk').2.1).symm

lemma searchNear_of_none {exact : Bool}
    (hf : findClosest k down 0 none (s.enter k).cursors = (cs, none, exact)) :
    s.searchNear k down = nearPrev down { s.enter k with cursors := cs } := by
  simp [searchNear, hf]

/-- The cursor on the closest record. -/
def onClosest (k : κ) (s : Clsm κ) (cs : List (ChunkCursor κ)) (i : ℕ) (b : κ) : Clsm κ :=
  { s.enter k with cursors := cs, current := some i, key := .int b }

section

variable {b : κ} {exact : Bool}
  (hf : findClosest k down 0 none (s.enter k).cursors = (cs, some (i, b), exact))
  (hc : cs[i]? = some c)
include hf hc

lemma searchNear_of_live (hv : (c.chunk.entry b).isSome) :
    s.searchNear k down =
      ({ s.onClosest k cs i b with value := .int (clsmDeletedDecode (c.chunk.raw b)) }, .ok,
        if exact then .eq else .gt) := by
  have hd : (c.chunk.entry b).isNone = false := by simpa using hv
  simp only [searchNear, hf, rawAt_eq hc, deleted_raw, hd, leaveNear]
  rfl

lemma searchNear_of_dead (hv : c.chunk.entry b = none) :
    s.searchNear k down =
      match next down (s.onClosest k cs i b) with
      | (s, .ok) => s.leaveNear .ok .gt
      | (s, _) => nearPrev down s := by
  simp only [searchNear, hf, rawAt_eq hc, deleted_raw, hv, onClosest]
  rfl

end

/-- **`search_near` finds the nearest record of the merged map**, a larger one first. -/
lemma nearLands_searchNear (k : κ) (down : ℕ → κ → Bool) (s : Clsm κ) :
    NearLands (chunksOf s.cursors) k (near (live (chunksOf s.cursors)) k false)
      (s.searchNear k down) := by
  obtain ⟨-, hkey, -, hiter⟩ := enter_fields k s
  have hspec := findClosest_spec k down (s.enter k).cursors
  rcases hf : findClosest k down 0 none (s.enter k).cursors with ⟨cs, _ | ⟨i, b⟩, exact⟩
  · rw [hf, chunksOf_enter] at hspec
    obtain ⟨hchunks, hlt⟩ := hspec
    have hfirst : up.IsFirst (live (chunksOf s.cursors)) (up.From k) none :=
      fun x hx hkx => hkx (hlt x (mem_live.mp hx).1)
    rw [searchNear_of_none hf, near_eq_or hfirst, Option.none_or, ← hchunks]
    exact nearLands_nearPrev (@lands_move_missed _ _ k
      { s.enter k with cursors := cs, current := none } .down down rfl (by simp [hkey, Held.get]))
  · rw [hf, chunksOf_enter] at hspec
    obtain ⟨hchunks, ⟨c, hc, hpos, hbc, hmerged⟩, hle, hfirst, hexact⟩ :
      Closest k (chunksOf s.cursors) cs i b exact := hspec
    rw [← hchunks] at hmerged hfirst ⊢
    have hon : (s.onClosest k cs i b).StandsOn b := by
      refine ⟨rfl, i, c, rfl, hc, hpos, hbc, fun d hd => ?_⟩
      rw [show (s.enter k).iterate = some d from hd] at hiter
      cases hiter
    have hlive : ∀ x ∈ live (chunksOf cs), ¬ x < k → b ≤ x := fun x hx hkx =>
      hfirst x (mem_live.mp hx).1 (not_lt.mp hkx)
    cases hv : c.chunk.entry b with
    | some v =>
      have hb : b ∈ live (chunksOf cs) := merged_isSome (by rw [hmerged, hv]; rfl)
      rw [searchNear_of_live hf hc (by simp [hv]), near_eq_or (r := some b)
        ⟨hb, not_lt.mpr hle, fun x hx hkx => not_lt.mpr (hlive x hx hkx)⟩]
      refine ⟨⟨rfl, rfl, hon.setValue _, rfl, ?_⟩, ?_⟩
      · rw [hmerged, hv, decode_raw hv]
        rfl
      · rintro k' ⟨⟩
        rcases eq_or_ne b k with rfl | hne
        · simp [hexact.mpr rfl]
        · have hfalse : exact = false := by simpa using mt hexact.mp hne
          simp [hfalse, compare_gt_iff_gt.mpr (lt_of_le_of_ne hle hne.symm)]
    | none =>
      -- a tombstone: the walk goes on from it
      have hb : b ∉ live (chunksOf cs) := fun h => by
        simpa [hmerged, hv] using (mem_live.mp h).2
      have hfrom : up.IsFirst (live (chunksOf cs)) (up.From k)
          (up.next (live (chunksOf cs)) b) := by
        refine (isFirst_next .up _ b).congr fun x hx => ⟨fun hbx => ?_, fun hkx => ?_⟩
        · exact not_lt.mpr (hle.trans (le_of_lt hbx))
        · exact lt_of_le_of_ne (hlive x hx hkx) fun h => hb (h ▸ hx)
      have hcursors : (s.onClosest k cs i b).cursors = cs := rfl
      have hnext := lands_move_on .up down hon
      rw [hcursors] at hnext
      rw [searchNear_of_dead hf hc hv, near_eq_or hfrom, next]
      generalize move .up down (s.onClosest k cs i b) = r at hnext ⊢
      obtain ⟨s', ret⟩ := r
      cases ha : up.next (live (chunksOf cs)) b with
      | none =>
        rw [ha] at hfrom
        rw [ha] at hnext
        obtain ⟨rfl, hchunks', -, hkey', -⟩ := hnext
        rw [← hchunks'] at hfrom ⊢
        -- nothing is found forwards, and the search goes to the last record
        refine nearLands_nearPrev ?_
        rw [below_eq_greatest hfrom]
        exact lands_move_start (s := { s' with current := none }) .down down rfl
          (by rw [hkey']; rfl)
      | some a =>
        rw [ha] at hnext
        obtain ⟨rfl, hrest⟩ := hnext
        have hlands : Lands (chunksOf cs) (some a) (s', .ok) := ⟨rfl, hrest⟩
        refine hlands.leaveNear ?_
        rintro k' ⟨⟩
        have hba : b < a := (above_eq_some.mp ha).2.1
        exact (compare_gt_iff_gt.mpr (lt_of_le_of_lt hle hba)).symm

/-! ### The simulation -/

/-- What the LSM cursor has of the place of a cursor on the merged map. -/
def Refines (chunks : List (LsmChunk κ)) (s : Clsm κ) (p : MapPlace κ) : Prop :=
  chunksOf s.cursors = chunks ∧ s.value.novalue = .unset ∧
    match p with
    | .start => s.current = none ∧ s.key.get = none
    | .on k => s.StandsOn k
    | .missed k => s.current = none ∧ s.key.get = some k

lemma refines_opened (chunks : List (LsmChunk κ)) : Refines chunks (opened chunks) .start :=
  ⟨by simp [opened, chunksOf, Function.comp_def], rfl, rfl, rfl⟩

/-- A call that has ended on a record, or has found none. -/
lemma Lands.refines {dest : Option κ} {r : Clsm κ × CursorRet}
    (h : Lands chunks dest r) (exact : κ → Option Ordering) :
    let q := match dest with
      | none => start.notFound
      | some k => found (merged chunks) k (exact k)
    Refines chunks r.1 q.1 ∧ r.2 = q.2.ret ∧ r.1.record = q.2.record := by
  obtain ⟨s, ret⟩ := r
  cases dest with
  | none =>
    obtain ⟨rfl, hchunks, hcur, hkey, hvalue⟩ := h
    refine ⟨⟨hchunks, by rw [hvalue]; rfl, hcur, by rw [hkey]; rfl⟩, rfl, ?_⟩
    simp [record, hkey, Held.get, notFound]
  | some k =>
    obtain ⟨rfl, hchunks, hon, hvalue, hrecord⟩ := h
    exact ⟨⟨hchunks, hvalue, hon⟩, rfl, hrecord⟩

/-- **Each call is simulated** by the call on the merged map. -/
lemma Refines.call {p : MapPlace κ} (h : Refines chunks s p)
    (a : LsmCall κ) :
    Refines chunks (s.call a).1 (p.call .missed (live chunks) (merged chunks) a).1 ∧
      (s.call a).2 = (p.call .missed (live chunks) (merged chunks) a).2 := by
  obtain ⟨rfl, hvalue, hp⟩ := h
  have hmove : ∀ d down, Refines (chunksOf s.cursors) (s.move d down).1
        (p.move d (live (chunksOf s.cursors)) (merged (chunksOf s.cursors))).1 ∧
      (⟨(s.move d down).2, (s.move d down).1.record, none⟩ : LsmResult κ) =
        (p.move d (live (chunksOf s.cursors)) (merged (chunksOf s.cursors))).2 := by
    intro d down
    obtain ⟨dest, hdest, hmove⟩ : ∃ dest, Lands (chunksOf s.cursors) dest (s.move d down) ∧
        p.move d (live (chunksOf s.cursors)) (merged (chunksOf s.cursors)) =
          match dest with
          | none => MapPlace.start.notFound
          | some k => MapPlace.found (merged (chunksOf s.cursors)) k none := by
      cases p with
      | start => exact ⟨_, lands_move_start d down hp.1 hp.2, rfl⟩
      | on k => exact ⟨_, lands_move_on d down hp, rfl⟩
      | missed k => exact ⟨_, lands_move_missed d down hp.1 hp.2, rfl⟩
    rw [hmove]
    obtain ⟨href, hret, hrecord⟩ := hdest.refines fun _ => none
    refine ⟨href, ?_⟩
    cases dest <;> rw [hret, hrecord] <;> rfl
  cases a with
  | next down => exact hmove .up down
  | prev down => exact hmove .down down
  | search k =>
    have hspec := search_spec k s hvalue
    simp only [Clsm.call, MapPlace.call]
    split_ifs at hspec ⊢ with hk
    · obtain ⟨href, hret, hrecord⟩ := hspec.refines fun _ => none
      exact ⟨href, by rw [hret, hrecord]; rfl⟩
    · obtain ⟨hret, hchunks, hcur, hkey, hval⟩ := hspec
      refine ⟨⟨hchunks, by rw [hval]; rfl, hcur, by rw [hkey]; rfl⟩, ?_⟩
      simp [hret, record, hval, Held.get, MapPlace.notFound]
  | searchNear k down =>
    obtain ⟨hlands, hexact⟩ := nearLands_searchNear k down s
    obtain ⟨href, hret, hrecord⟩ := hlands.refines fun k' => some (compare k' k)
    simp only [Clsm.call, MapPlace.call]
    cases hn : near (live (chunksOf s.cursors)) k false with
    | none =>
      rw [hn] at href hret hrecord
      dsimp only at hret hrecord
      exact ⟨href, by rw [hret, hrecord]; rfl⟩
    | some k' =>
      rw [hn] at href hret hrecord
      dsimp only at hret hrecord
      exact ⟨href, by rw [hret, hrecord, hexact k' hn]; rfl⟩

lemma Refines.results {p : MapPlace κ} (h : Refines chunks s p)
    (calls : List (LsmCall κ)) :
    s.results calls = p.results .missed (live chunks) (merged chunks) calls := by
  induction calls generalizing s p with
  | nil => rfl
  | cons a calls ih =>
    obtain ⟨hrefines, hresult⟩ := h.call a
    rw [Clsm.results, MapPlace.results, hresult, ih hrefines]

end Clsm

/-! ### A scan of the merged map -/

namespace MapPlace

variable {keys : Finset κ} {value : κ → Option (List UInt8)} {l₁ l₂ : List κ}

lemma least_of_sort (h : keys.sort = l₂) : least keys = l₂.head? := by
  have hlt := h ▸ keys.sortedLT_sort.pairwise
  have hmem : ∀ x, x ∈ keys ↔ x ∈ l₂ := fun x => h ▸ (keys.mem_sort _).symm
  cases l₂ with
  | nil => exact least_eq_none.mpr (Finset.eq_empty_of_forall_notMem (by simpa using hmem))
  | cons k l =>
    refine least_eq_some.mpr ⟨(hmem k).mpr mem_cons_self, fun x hx => ?_⟩
    rcases mem_cons.mp ((hmem x).mp hx) with rfl | hx
    · exact le_rfl
    · exact ((pairwise_cons.mp hlt).1 x hx).le

lemma above_of_sort (h : keys.sort = l₁ ++ k :: l₂) : above keys k = l₂.head? := by
  have hlt := h ▸ keys.sortedLT_sort.pairwise
  have hmem : ∀ x, x ∈ keys ↔ x ∈ l₁ ∨ x = k ∨ x ∈ l₂ := fun x => by
    rw [← keys.mem_sort (· ≤ ·), h, mem_append, mem_cons]
  obtain ⟨-, hkl, hfront⟩ := pairwise_append.mp hlt
  have hk : ∀ x ∈ l₁, x < k := fun x hx => hfront x hx k mem_cons_self
  obtain ⟨hkl, hl⟩ := pairwise_cons.mp hkl
  cases l₂ with
  | nil =>
    refine above_eq_none.mpr fun x hx => ?_
    rcases (hmem x).mp hx with hx | rfl | hx
    · exact (hk x hx).le
    · exact le_rfl
    · cases hx
  | cons y l =>
    refine above_eq_some.mpr
      ⟨(hmem y).mpr (.inr (.inr mem_cons_self)), hkl y mem_cons_self, fun x hx hkx => ?_⟩
    rcases (hmem x).mp hx with hx | rfl | hx
    · exact absurd hkx (hk x hx).asymm
    · exact absurd hkx (lt_irrefl _)
    · rcases mem_cons.mp hx with rfl | hx
      · exact le_rfl
      · exact ((pairwise_cons.mp hl).1 x hx).le

/-- The cursor is behind the keys `l₁`. -/
def Behind (l₁ : List κ) : MapPlace κ → Prop
  | start => l₁ = []
  | on k => ∃ l, l₁ = l ++ [k]
  | missed _ => False

lemma move_of_sort {p : MapPlace κ} (h : keys.sort = l₁ ++ l₂) (hp : p.Behind l₁) :
    p.move .up keys value =
      match l₂.head? with
      | none => start.notFound
      | some k => found value k none := by
  let land : Option κ → MapPlace κ × LsmResult κ
    | none => start.notFound
    | some k => found value k none
  cases p with
  | start =>
    obtain rfl : l₁ = [] := hp
    exact congrArg land (least_of_sort h)
  | on k =>
    obtain ⟨l, rfl⟩ := hp
    rw [append_assoc, singleton_append] at h
    exact congrArg land (above_of_sort h)
  | missed k => exact hp.elim

lemma results_scan {p : MapPlace κ} {miss : κ → MapPlace κ} {n : ℕ}
    (h : keys.sort = l₁ ++ l₂) (hp : p.Behind l₁) (hn : n = l₂.length + 1)
    (downs : ℕ → ℕ → κ → Bool) :
    p.results miss keys value ((range n).map fun i => .next (downs i)) =
      (l₂.map fun k => (⟨.ok, (value k).map fun v => (k, v), none⟩ : LsmResult κ)) ++
        [⟨.notFound, none, none⟩] := by
  subst hn
  induction l₂ generalizing l₁ p downs with
  | nil => simp [results, call, move_of_sort h hp, notFound]
  | cons k l ih =>
    have hrest := @ih (l₁ ++ [k]) (on k) (by simpa using h) ⟨l₁, rfl⟩ fun i => downs (i + 1)
    rw [length_cons, range_succ_eq_map, map_cons, map_map]
    simp only [results, call, move_of_sort h hp, head?_cons, found]
    exact congrArg _ hrest

lemma results_concat (miss : κ → MapPlace κ) (keys : Finset κ) (value : κ → Option (List UInt8))
    (p : MapPlace κ) (calls : List (LsmCall κ)) :
    ∃ q : MapPlace κ, ∀ a, p.results miss keys value (calls ++ [a]) =
      p.results miss keys value calls ++ [(q.call miss keys value a).2] := by
  induction calls generalizing p with
  | nil => exact ⟨p, fun a => rfl⟩
  | cons b calls ih =>
    obtain ⟨q, hq⟩ := ih (p.call miss keys value b).1
    exact ⟨q, fun a => congrArg _ (hq a)⟩

end MapPlace

/-- **LSM cursors read the merged map.** Every sequence of calls returns what it returns on the map
in which the newest chunk that holds a key decides; where a search finds nothing the cursor goes on
from the key searched for.  A scan comes to every live key once and in order, and `search_near`
finds a live key with none between it and the key searched for. -/
theorem lsmCursor_reads_merged (chunks : List (LsmChunk κ)) :
    (∀ calls, (Clsm.opened chunks).results calls =
      start.results .missed (live chunks) (merged chunks) calls) ∧
    (∀ downs : ℕ → ℕ → κ → Bool, (Clsm.opened chunks).results
        ((range ((live chunks).card + 1)).map fun i => .next (downs i)) =
      ((live chunks).sort.map fun k => ⟨.ok, (merged chunks k).map fun v => (k, v), none⟩) ++
        [⟨.notFound, none, none⟩]) ∧
    ∀ calls k down, ∃ r, (Clsm.opened chunks).results (calls ++ [.searchNear k down]) =
        (Clsm.opened chunks).results calls ++ [r] ∧
      (live chunks = ∅ ∧ r = ⟨.notFound, none, none⟩ ∨
        ∃ k' v, r = ⟨.ok, some (k', v), some (compare k' k)⟩ ∧ k' ∈ live chunks ∧
          merged chunks k' = some v ∧
          ∀ x ∈ live chunks, ¬ (k' < x ∧ x ≤ k) ∧ ¬ (k ≤ x ∧ x < k')) := by
  have hresults := (Clsm.refines_opened chunks).results
  refine ⟨hresults, fun downs => ?_, fun calls k down => ?_⟩
  · have hlen : (live chunks).card + 1 = (live chunks).sort.length + 1 := by
      rw [Finset.length_sort]
    rw [hresults]
    exact results_scan (p := .start) (nil_append _).symm rfl hlen downs
  · obtain ⟨q, hq⟩ := results_concat .missed (live chunks) (merged chunks) .start calls
    refine ⟨_, by rw [hresults, hresults, hq], ?_⟩
    simp only [call]
    cases hn : near (live chunks) k false with
    | none => exact .inl ⟨near_eq_none.mp hn, rfl⟩
    | some k' =>
      obtain ⟨v, hv⟩ := Option.isSome_iff_exists.mp (mem_live.mp (near_mem hn)).2
      refine .inr ⟨k', v, ?_, near_mem hn, hv, fun x hx => near_adjacent hn hx⟩
      simp [found, hv, Option.map_some]

/-- A chunk with the keys 1 and 3. -/
def oneAndThree : LsmChunk ℕ := ⟨{1, 3}, fun _ => some [], none, by simp⟩

/-- On the map itself a search that finds nothing leaves a cursor without a position, and the next
record is the first one; the LSM cursor goes on from the key searched for. -/
theorem next_after_missed_search :
    (Clsm.opened [oneAndThree]).results [.search 2, .next fun _ _ => false] =
        [⟨.notFound, none, none⟩, ⟨.ok, some (3, []), none⟩] ∧
      start.results (fun _ => .start) (live [oneAndThree]) (merged [oneAndThree])
          [.search 2, .next fun _ _ => false] =
        [⟨.notFound, none, none⟩, ⟨.ok, some (1, []), none⟩] := by
  decide

end WiredTiger
