/-
# Values written through LSM cursors (`lsm/lsm_cursor.c`, `lsm/lsm_merge.c`)

A value that begins like a tombstone is written with a byte more, which is taken off when it is
read.  The value that an update leaves in the cursor is the one in the chunk, with that byte.  An
insert that finds the LSM cursor on the primary chunk, and not in a walk, leaves it there, although
the chunk cursor has no position any more: a walk that starts then passes over a record of the
primary chunk, and may come to an older one of the same key.  `__clsm_enter` ends the walk of a
cursor that is to write for the first time under snapshot isolation and leaves it on its chunk.
-/
import WiredTiger.Lsm.CursorMerges

namespace WiredTiger

open Lib ChunkCursor List Clsm LsmChunk

variable {κ : Type*} [LinearOrder κ] {k : κ} {P : κ → Prop} {chunks : List (LsmChunk κ)}
variable {chunks' : List (LsmChunk κ)}

/-! ### Writing -/

/-- What a value in the tree of a chunk stands for. -/
def ofRaw (raw : List UInt8) : Option (List UInt8) :=
  if clsmDeleted raw then none else some (clsmDeletedDecode raw)

/-- A record is written to a chunk; such a chunk has no Bloom filter yet. -/
def LsmChunk.put (k : κ) (raw : List UInt8) (c : LsmChunk κ) : LsmChunk κ where
  keys := insert k c.keys
  entry := Function.update c.entry k (ofRaw raw)
  bloom := none
  bloom_of_mem := nofun

namespace Clsm

/-- `__clsm_reset_cursors`, but for the cursor on the primary chunk. -/
def resetOthers (s : Clsm κ) : Clsm κ :=
  if (s.current = none ∨ s.current = some 0) ∧ s.iterate = none then s
  else { s with
    cursors := match s.cursors with
      | [] => []
      | c :: cs => c :: cs.map reset
    current := none
    iterate := none }

/-- `__clsm_put`.  The cursor on the primary chunk does an `update` if the LSM cursor is to be
positioned, and otherwise an `insert`, which leaves it without a position.  So does the `insert` of
the cursors on `older` chunks behind it, which only looks for conflicts. -/
def put (k : κ) (raw : List UInt8) (position : Bool) (older : ℕ) (s : Clsm κ) : Option (Clsm κ) :=
  let s := s.resetOthers
  match s.cursors with
  | [] => none
  | c :: cs => some { s with
      current := if position then some 0 else s.current
      cursors := ⟨c.chunk.put k raw, if position then some k else none⟩ ::
        ((cs.take older).map reset ++ cs.drop older) }

/-- `__clsm_open_cursors`, with the chunk cursors that are open then. -/
def reopen (cursors : List (ChunkCursor κ)) (s : Clsm κ) : Clsm κ :=
  { s with cursors := cursors, current := none, iterate := none, key := s.key.localCopy }

/-- How `__clsm_enter` finds a cursor that is to write. -/
inductive Entry (κ : Type*)
  | upToDate
  /-- `__clsm_open_cursors` is called and finds all chunk cursors good ("spurious generation
  bump"), as when a cursor that has read writes for the first time under snapshot isolation. -/
  | spurious
  | reopened (cursors : List (ChunkCursor κ))

/-- `__clsm_enter(clsm, false, true)`.  A spurious call of `__clsm_open_cursors` ends a walk and
keeps the current chunk cursor. -/
def enterWrite (e : Entry κ) (s : Clsm κ) : Clsm κ :=
  match e with
  | .upToDate => s
  | .spurious => { s with iterate := none, key := s.key.localCopy }
  | .reopened cursors => s.reopen cursors

/-- `set_key`, `set_value` and `__clsm_insert`, from `__clsm_enter` on; nothing is returned if it
fails. -/
def insert (k : κ) (v : List UInt8) (overwrite : Bool) (older : ℕ) (e : Entry κ) (s : Clsm κ) :
    Option (Clsm κ) :=
  let s := s.enterWrite e
  match if overwrite then (s.cursors, none) else lookup k 0 s.cursors with
  | (_, some _) => none
  | (cursors, none) =>
    (put k (clsmDeletedEncode v) false older { s with cursors := cursors }).map fun s =>
      { s with key := .unset, value := .unset }

/-- `set_key`, `set_value` and `__clsm_update`, from `__clsm_enter` on; nothing is returned if it
fails. -/
def update (k : κ) (v : List UInt8) (overwrite : Bool) (older : ℕ) (e : Entry κ) (s : Clsm κ) :
    Option (Clsm κ) :=
  let s := s.enterWrite e
  let found := if overwrite then some s
    else match lookup k 0 s.cursors with
      | (_, none) => none
      | (cursors, some (i, _)) => some { s with cursors := cursors, current := some i }
  found.bind fun s => (put k (clsmDeletedEncode v) true older s).map fun s =>
    { s with key := .int k, value := .int (rawAt s.cursors 0 k) }

/-! ### Merges -/

/-- The records the merge cursor of `__wt_lsm_merge` returns.  Its values are not decoded, and in a
minor merge a tombstone is a record. -/
def mergeLoop (minor : Bool) : ℕ → Clsm κ → List (κ × List UInt8)
  | 0, _ => []
  | fuel + 1, s =>
    match frontCursor .up 0 none false s.cursors with
    | (none, _) => []
    | (some (i, k), multiple) =>
      let raw := rawAt s.cursors i k
      let rest := mergeLoop minor fuel
        (stepOff .up { s with current := some i, multiple := multiple })
      if !minor && clsmDeleted raw then rest else (k, raw) :: rest

/-- All records of a merge of these chunks. -/
def mergeRecords (minor : Bool) (chunks : List (LsmChunk κ)) : List (κ × List UInt8) :=
  let s := opened chunks
  mergeLoop minor ((allKeys chunks).card + 1)
    { s with cursors := s.cursors.map (ChunkCursor.move .up) }

end Clsm

/-- The chunk has been loaded with these records, and may have a Bloom filter. -/
structure LsmChunk.Loaded (records : List (κ × List UInt8)) (c : LsmChunk κ) : Prop where
  keys : ∀ k, k ∈ c.keys ↔ ∃ raw, (k, raw) ∈ records
  entry : ∀ k raw, (k, raw) ∈ records → c.entry k = ofRaw raw

/-- `__wt_lsm_merge`: a chunk takes the place of some neighbouring ones.  If they are not the oldest
it is a minor merge. -/
inductive MergeStep : List (LsmChunk κ) → List (LsmChunk κ) → Prop
  | merge (newer range older : List (LsmChunk κ)) (c : LsmChunk κ) :
      c.Loaded (mergeRecords (!older.isEmpty) range) →
      MergeStep (newer ++ (range ++ older)) (newer ++ c :: older)

/-! ### The merged map after a write -/

lemma ofRaw_encode (v : List UInt8) : ofRaw (clsmDeletedEncode v) = some v := by
  rw [ofRaw, clsmDeleted_encode, clsmDeletedDecode_encode]
  rfl

omit [LinearOrder κ] in
lemma LsmChunk.ofRaw_raw (c : LsmChunk κ) (k : κ) : ofRaw (c.raw k) = c.entry k := by
  rw [ofRaw, deleted_raw]
  cases h : c.entry k with
  | none => rfl
  | some v => exact congrArg some (decode_raw h)

lemma mem_live_iff : k ∈ live chunks ↔ (merged chunks k).isSome :=
  ⟨fun h => (mem_live.mp h).2, merged_isSome⟩

namespace Clsm

variable {s s' : Clsm κ} {v raw : List UInt8} {older : ℕ}

omit [LinearOrder κ] in
lemma resetOthers_chunks (s : Clsm κ) : chunksOf s.resetOthers.cursors = chunksOf s.cursors := by
  unfold resetOthers
  split_ifs
  · rfl
  · cases s.cursors <;> simp [chunksOf]

omit [LinearOrder κ] in
lemma resetOthers_iterate (s : Clsm κ) : s.resetOthers.iterate = none := by
  unfold resetOthers
  split_ifs with h
  · exact h.2
  · rfl

/-- What `__clsm_put` leaves behind. -/
lemma put_spec {position : Bool} (h : s.put k raw position older = some s') :
    merged (chunksOf s'.cursors) =
        Function.update (merged (chunksOf s.cursors)) k (ofRaw raw) ∧
      s'.iterate = none ∧
      s'.current = (if position then some 0 else s.resetOthers.current) ∧
      ∃ c, s'.cursors[0]? = some c ∧ c.pos = (if position then some k else none) ∧
        k ∈ c.chunk.keys ∧ c.chunk.entry k = ofRaw raw := by
  unfold put at h
  dsimp only at h
  split at h
  · cases h
  · rename_i c cs hcs
    obtain rfl := Option.some.inj h
    have holder : chunksOf ((cs.take older).map reset ++ cs.drop older) =
        chunksOf cs := by
      simp only [chunksOf, map_append, map_map, Function.comp_def, chunk_reset]
      rw [← map_append, take_append_drop]
    refine ⟨?_, resetOthers_iterate s, rfl, _, rfl, rfl, Finset.mem_insert_self _ _,
      Function.update_self _ _ _⟩
    rw [← resetOthers_chunks s, hcs]
    funext x
    change merged (c.chunk.put k raw :: chunksOf _) x = _
    rw [merged_cons, holder]
    by_cases hx : x = k
    · subst hx
      rw [Function.update_self]
      exact (if_pos (Finset.mem_insert_self _ _)).trans (Function.update_self _ _ _)
    · rw [Function.update_of_ne hx]
      simp only [LsmChunk.put, Finset.mem_insert, hx, false_or, Function.update_of_ne hx]
      exact (merged_cons _ _ x).symm

/-- The cursor is on the primary chunk, and it does not walk or its walk is ended by
`__clsm_enter`. -/
def Stale (e : Entry κ) (s : Clsm κ) : Prop :=
  s.current = some 0 ∧ match e with
    | .upToDate => s.iterate = none
    | .spurious => True
    | .reopened _ => False

omit [LinearOrder κ] in
lemma stale_of_enterWrite {e : Entry κ}
    (h : (s.enterWrite e).current = some 0 ∧ (s.enterWrite e).iterate = none) : s.Stale e := by
  cases e with
  | upToDate => exact h
  | spurious => exact ⟨h.1, trivial⟩
  | reopened cursors => cases h.1

omit [LinearOrder κ] in
lemma resetOthers_current (h : ¬(s.current = some 0 ∧ s.iterate = none)) :
    s.resetOthers.current = none := by
  unfold resetOthers
  split_ifs with h'
  · exact h'.1.resolve_right fun hcur => h ⟨hcur, h'.2⟩
  · rfl

/-- An insert leaves the cursor without a position, unless it was on the primary chunk. -/
lemma insert_spec {overwrite : Bool} {e : Entry κ} (h : s.insert k v overwrite older e = some s') :
    merged (chunksOf s'.cursors) =
        Function.update (merged (chunksOf (s.enterWrite e).cursors)) k (some v) ∧
      (¬ s.Stale e → Refines (chunksOf s'.cursors) s' .start) := by
  unfold insert at h
  dsimp only at h
  set s₀ := s.enterWrite e
  have hchunks : chunksOf (if overwrite then (s₀.cursors, none) else lookup k 0 s₀.cursors).1 =
      chunksOf s₀.cursors := by
    split_ifs
    · rfl
    · exact chunksOf_lookup k 0 s₀.cursors
  split at h
  · cases h
  · rename_i cursors heq
    obtain ⟨s₁, hput, rfl⟩ := Option.map_eq_some_iff.mp h
    obtain ⟨hmerged, -, hcur, -⟩ := put_spec hput
    rw [heq] at hchunks
    refine ⟨?_, fun hstale => ⟨rfl, rfl, ?_, rfl⟩⟩
    · rw [ofRaw_encode] at hmerged
      rw [← hchunks]
      exact hmerged
    · exact hcur.trans (resetOthers_current fun h => hstale (stale_of_enterWrite h))

/-- An update leaves the cursor on the record, with the value as the chunk has it. -/
lemma update_spec {overwrite : Bool} {e : Entry κ} (h : s.update k v overwrite older e = some s') :
    merged (chunksOf s'.cursors) =
        Function.update (merged (chunksOf (s.enterWrite e).cursors)) k (some v) ∧
      Refines (chunksOf s'.cursors) s' (.on k) ∧
      s'.record = some (k, clsmDeletedEncode v) := by
  unfold update at h
  obtain ⟨s₀, hfound, h⟩ := Option.bind_eq_some_iff.mp h
  have hchunks : chunksOf s₀.cursors = chunksOf (s.enterWrite e).cursors := by
    split_ifs at hfound
    · rw [Option.some.inj hfound]
    · have hlookup := chunksOf_lookup k 0 (s.enterWrite e).cursors
      split at hfound <;> cases hfound
      rename_i heq
      rwa [heq] at hlookup
  obtain ⟨s₁, hput, rfl⟩ := Option.map_eq_some_iff.mp h
  obtain ⟨hmerged, hiter, hcur, c, hc, hpos, hk, hentry⟩ := put_spec hput
  rw [ofRaw_encode] at hmerged hentry
  refine ⟨hchunks ▸ hmerged, ⟨rfl, rfl, rfl, 0, c, hcur, hc, hpos, hk, fun d hd => ?_⟩, ?_⟩
  · rw [hiter] at hd
    cases hd
  · simp [record, Held.get, Option.bind_some, Option.map_some, rawAt_eq hc, raw,
      hentry]

end Clsm

/-! ### The merged map after a merge -/

namespace Clsm

open Classical in
/-- **The records of a merge.** Each key that has not been passed comes once, with the value of the
newest chunk; the induction is on the number of these keys. -/
lemma mem_mergeLoop (minor : Bool) (fuel : ℕ) (s : Clsm κ) (P : κ → Prop)
    (hheads : Heads .up P s.cursors) (hP : ∀ x y, P x → Dir.up.Before x y → P y)
    (hfuel : ((allKeys (chunksOf s.cursors)).filter P).card < fuel) :
    (∀ k raw, (k, raw) ∈ mergeLoop minor fuel s → ofRaw raw = merged (chunksOf s.cursors) k) ∧
    ∀ k, (∃ raw, (k, raw) ∈ mergeLoop minor fuel s) ↔ k ∈ allKeys (chunksOf s.cursors) ∧ P k ∧
      (minor = true ∨ (merged (chunksOf s.cursors) k).isSome) := by
  induction fuel generalizing s P with
  | zero => exact absurd hfuel (Nat.not_lt_zero _)
  | succ fuel ih =>
    rw [mergeLoop]
    rcases frontCursor_cases .up s.cursors with ⟨m, hf, hnone⟩ | ⟨i, b, m, hf, hspec⟩ <;> rw [hf]
    · refine ⟨by simp, fun k => ⟨by simp, ?_⟩⟩
      rintro ⟨hk, hPk, -⟩
      obtain ⟨c, hc, hk⟩ := mem_allKeys.mp hk
      exact absurd hPk (pos_none_of_heads hheads hnone c hc k hk)
    · obtain ⟨c, hc, hpos⟩ := hspec.here
      set s' : Clsm κ := { s with current := some i, multiple := m }
      have hready : s'.Ready .up i b := ⟨hspec.heads_from hheads hP, hspec.single⟩
      have hc' : s'.cursors[i]? = some c := hc
      have hoff := hready.heads_stepOff rfl hc' hpos
      have hmerged := hspec.merged_eq hheads hc
      dsimp only
      rw [hready.cursors_stepOff rfl hc' hpos] at hoff ⊢
      obtain ⟨ihv, ihk⟩ := ih _ _ hoff (fun x y => Dir.Before.trans) (by
        rw [chunksOf_map_stepOff]
        exact (hspec.card_lt hheads hP fun _ => id).trans_le (Nat.lt_succ_iff.mp hfuel))
      rw [chunksOf_map_stepOff] at ihv ihk
      rw [rawAt_eq hc, deleted_raw, ← hmerged]
      generalize @mergeLoop κ _ minor fuel _ = rest at ihv ihk ⊢
      -- a key that has not been passed is the front or behind it
      have hsplit : ∀ k, k ∈ allKeys (chunksOf s.cursors) ∧ P k ↔
          k = b ∨ k ∈ allKeys (chunksOf s.cursors) ∧ Dir.up.Before b k := by
        intro k
        constructor
        · rintro ⟨hk, hPk⟩
          refine or_iff_not_imp_left.mpr fun hne => ⟨hk, ?_⟩
          exact Dir.before_of_ne (hspec.behind hheads hk hPk) (Ne.symm hne)
        · rintro (rfl | ⟨hk, hbk⟩)
          · exact ⟨hspec.mem_allKeys hheads, hspec.prop hheads⟩
          · exact ⟨hk, hP b k (hspec.prop hheads) hbk⟩
      have hskip : (!minor && (merged (chunksOf s.cursors) b).isNone) = true ↔
          ¬ (minor = true ∨ (merged (chunksOf s.cursors) b).isSome) := by
        simp
      split_ifs with h
      · refine ⟨ihv, fun k => (ihk k).trans ?_⟩
        rw [← and_assoc, ← and_assoc, hsplit]
        refine and_congr_left fun hvalue => ⟨.inr, fun hk => hk.resolve_left ?_⟩
        rintro rfl
        exact hskip.mp h hvalue
      · refine ⟨fun k raw hk => ?_, fun k => ?_⟩
        · rcases mem_cons.mp hk with heq | hk
          · cases heq
            exact (ofRaw_raw _ _).trans hmerged.symm
          · exact ihv k raw hk
        · have hcons : (∃ raw, (k, raw) ∈ (b, c.chunk.raw b) :: rest) ↔
              k = b ∨ ∃ raw, (k, raw) ∈ rest := by
            simp [exists_or]
          rw [hcons, ihk, ← and_assoc, ← and_assoc, hsplit, or_and_right]
          refine or_congr_left (iff_self_and.mpr ?_)
          rintro rfl
          exact not_not.mp fun hvalue => h (hskip.mpr hvalue)

lemma mem_mergeRecords (minor : Bool) (chunks : List (LsmChunk κ)) :
    (∀ k raw, (k, raw) ∈ mergeRecords minor chunks → ofRaw raw = merged chunks k) ∧
    ∀ k, (∃ raw, (k, raw) ∈ mergeRecords minor chunks) ↔
      k ∈ allKeys chunks ∧ (minor = true ∨ (merged chunks k).isSome) := by
  classical
  have hchunks : chunksOf ((opened chunks).cursors.map (ChunkCursor.move .up)) = chunks := by
    simp [opened, chunksOf, Function.comp_def]
  have hheads : Heads .up (fun _ => True) ((opened chunks).cursors.map (ChunkCursor.move .up)) := by
    intro c hc
    obtain ⟨c, hc', rfl⟩ := mem_map.mp hc
    obtain ⟨chunk, -, rfl⟩ := mem_map.mp hc'
    exact stands_move_reset .up ⟨chunk, none⟩
  have h := mem_mergeLoop minor ((allKeys chunks).card + 1)
    { opened chunks with cursors := (opened chunks).cursors.map (ChunkCursor.move .up) }
    (fun _ => True) hheads (fun _ _ _ _ => trivial) (by
      rw [hchunks]
      exact card_filter_lt (Nat.lt_succ_self _))
  simp only [hchunks, true_and] at h
  exact h

end Clsm

lemma merged_append (newer older : List (LsmChunk κ)) (k : κ) :
    merged (newer ++ older) k =
      if k ∈ allKeys newer then merged newer k else merged older k := by
  induction newer with
  | nil => rfl
  | cons c newer ih =>
    rw [cons_append, merged_cons, merged_cons, ih]
    by_cases hk : k ∈ c.keys
    · simp [allKeys, hk]
    · simp [allKeys, hk]

/-- **A merge does not change the merged map.** Where it drops a tombstone there is no older chunk
with the key. -/
lemma MergeStep.merged_eq {chunks : List (LsmChunk κ)} (h : MergeStep chunks chunks') :
    merged chunks' = merged chunks := by
  obtain ⟨newer, range, older, c, hc⟩ := h
  obtain ⟨hvalue, hkeys⟩ := mem_mergeRecords (!older.isEmpty) range
  funext k
  rw [merged_append newer, merged_append newer, merged_cons, merged_append range]
  congr 1
  have hmem := (hc.keys k).trans (hkeys k)
  by_cases hk : k ∈ c.keys
  · obtain ⟨raw, hraw⟩ := (hc.keys k).mp hk
    rw [if_pos hk, if_pos (hmem.mp hk).1, hc.entry k raw hraw, hvalue k raw hraw]
  · rw [if_neg hk]
    split_ifs with hrange
    · obtain ⟨hminor, hnone⟩ := not_or.mp fun h => hk (hmem.mpr ⟨hrange, h⟩)
      obtain rfl : older = [] := by simpa using hminor
      exact (Option.not_isSome_iff_eq_none.mp hnone).symm
    · rfl

lemma merged_eq_of_merges (h : Relation.ReflTransGen MergeStep chunks chunks') :
    merged chunks' = merged chunks := by
  induction h with
  | refl => rfl
  | tail _ hstep ih => exact hstep.merged_eq.trans ih

/-! ### Reading what was written -/

namespace MapPlace

/-- To go on from a key, whether it was found or not, is the same. -/
lemma results_missed (miss : κ → MapPlace κ) (keys : Finset κ) (value : κ → Option (List UInt8))
    (k : κ) (calls : List (LsmCall κ)) :
    (missed k).results miss keys value calls = (on k).results miss keys value calls := by
  cases calls with
  | nil => rfl
  | cons a calls => cases a <;> rfl

end MapPlace

/-- What calls return on the map of these chunks in which `k` has got the value `v`. -/
def wanted (chunks : List (LsmChunk κ)) (k : κ) (v : List UInt8) (p : MapPlace κ)
    (calls : List (LsmCall κ)) : List (LsmResult κ) :=
  p.results .missed (insert k (live chunks)) (Function.update (merged chunks) k (some v)) calls

/-- The value `v` written for `k` is read, by this cursor and, after any number of merges, when its
chunk cursors have been opened anew or by a new cursor. -/
structure LsmReadsBack (chunks : List (LsmChunk κ)) (k : κ) (v : List UInt8) (p : MapPlace κ)
    (s : Clsm κ) : Prop where
  here : ∀ calls, s.results calls = wanted chunks k v p calls
  reopened : ∀ cursors, Relation.ReflTransGen MergeStep (chunksOf s.cursors) (chunksOf cursors) →
    ∀ calls, (s.reopen cursors).results calls = wanted chunks k v p calls
  opened : ∀ chunks', Relation.ReflTransGen MergeStep (chunksOf s.cursors) chunks' →
    ∀ calls, (opened chunks').results calls = wanted chunks k v .start calls

namespace Clsm

lemma live_of_merged {v : List UInt8}
    (h : merged chunks' = Function.update (merged chunks) k (some v)) :
    live chunks' = Insert.insert k (live chunks) := by
  ext x
  rw [Finset.mem_insert, mem_live_iff, mem_live_iff, h]
  by_cases hx : x = k
  · simp [hx]
  · simp [hx]

lemma Refines.results_reopen {s : Clsm κ} {p : MapPlace κ} (h : Refines chunks s p)
    (cursors : List (ChunkCursor κ)) (calls : List (LsmCall κ)) :
    (s.reopen cursors).results calls =
      p.results .missed (live (chunksOf cursors)) (merged (chunksOf cursors)) calls := by
  obtain ⟨-, hvalue, hp⟩ := h
  have hkey : (s.reopen cursors).key.get = s.key.get := s.key.get_localCopy
  have hmissed : ∀ k, s.key.get = some k → (s.reopen cursors).results calls =
      (MapPlace.missed k).results .missed (live (chunksOf cursors)) (merged (chunksOf cursors))
        calls :=
    fun k hk => Refines.results (s := s.reopen cursors) (p := .missed k)
      ⟨rfl, hvalue, rfl, hkey.trans hk⟩ calls
  cases p with
  | start =>
    exact Refines.results (s := s.reopen cursors) (p := .start)
      ⟨rfl, hvalue, rfl, hkey.trans hp.2⟩ calls
  | on k => exact (hmissed k hp.key).trans (MapPlace.results_missed _ _ _ k calls)
  | missed k => exact hmissed k hp.2

lemma Refines.readsBack {s : Clsm κ} {v : List UInt8} {p : MapPlace κ}
    (h : Refines (chunksOf s.cursors) s p)
    (hmerged : merged (chunksOf s.cursors) = Function.update (merged chunks) k (some v)) :
    LsmReadsBack chunks k v p s := by
  refine ⟨fun calls => ?_, fun cursors hmerges calls => ?_, fun chunks' hmerges calls => ?_⟩
  · rw [h.results, live_of_merged hmerged, hmerged]
    rfl
  · have heq := (merged_eq_of_merges hmerges).trans hmerged
    rw [h.results_reopen, live_of_merged heq, heq]
    rfl
  · have heq := (merged_eq_of_merges hmerges).trans hmerged
    rw [(refines_opened chunks').results, live_of_merged heq, heq]
    rfl

end Clsm

lemma clsmDeletedEncode_eq_self (v : List UInt8) :
    clsmDeletedEncode v = v ↔ ¬ tombstone <+: v := by
  rw [prefix_iff_eq_take, clsmDeletedEncode]
  split_ifs with h
  · refine iff_of_false (fun heq => ?_) (not_not.mpr h.2.symm)
    simp [tombstone] at heq
  · refine iff_of_true rfl fun heq => h ⟨?_, heq.symm⟩
    rw [heq, length_take]
    exact min_le_right _ _

/-- **What is written to an LSM tree is read.** After an insert the merged map has the value, and
every call reads that map, unless the cursor was on the primary chunk and did not walk, or its walk
was ended by a spurious call of `__clsm_open_cursors`.  After an update every call reads it, and the
value left in the cursor is the one written unless that begins with the bytes of a tombstone. -/
theorem lsm_reads_written (s s' : Clsm κ) (k : κ) (v : List UInt8) (overwrite : Bool) (older : ℕ)
    (e : Entry κ) :
    (s.insert k v overwrite older e = some s' → ¬ s.Stale e →
      LsmReadsBack (chunksOf (s.enterWrite e).cursors) k v .start s') ∧
    (s.update k v overwrite older e = some s' →
      LsmReadsBack (chunksOf (s.enterWrite e).cursors) k v (.on k) s' ∧
        (s'.record = some (k, v) ↔ ¬ tombstone <+: v)) := by
  constructor
  · intro h hstale
    obtain ⟨hmerged, hrefines⟩ := insert_spec h
    exact (hrefines hstale).readsBack hmerged
  · intro h
    obtain ⟨hmerged, hrefines, hrecord⟩ := update_spec h
    refine ⟨hrefines.readsBack hmerged, ?_⟩
    rw [hrecord, ← clsmDeletedEncode_eq_self]
    simp

/-- A chunk of these keys, all with one value. -/
def uniformChunk (keys : Finset ℕ) (v : List UInt8) : LsmChunk ℕ :=
  ⟨keys, fun _ => some v, none, by simp⟩

/-- A new cursor inserts and updates a value of the bytes of a tombstone. -/
theorem lsm_reads_written_tombstone :
    let s := opened [uniformChunk {5} [2]]
    (∃ s', s.insert 5 [0x14, 0x14] true 0 .spurious = some s' ∧
      LsmReadsBack (chunksOf s.cursors) 5 [0x14, 0x14] .start s') ∧
    ∃ s', s.update 5 [0x14, 0x14] true 0 .upToDate = some s' ∧
      LsmReadsBack (chunksOf s.cursors) 5 [0x14, 0x14] (.on 5) s' :=
  let s := opened [uniformChunk {5} [2]]
  ⟨⟨_, rfl, (lsm_reads_written s _ 5 [0x14, 0x14] true 0 .spurious).1 rfl
      (by simp [Clsm.Stale, s, opened])⟩,
    ⟨_, rfl, ((lsm_reads_written s _ 5 [0x14, 0x14] true 0 .upToDate).2 rfl).1⟩⟩

/-- An update leaves a byte too many in the cursor.  After a search that ends on the primary chunk,
or a walk to it that is ended by `__clsm_enter`, an insert makes the walk come to the value in the
older chunk. -/
theorem lsm_reads_not_written :
    let two := opened [uniformChunk {5} [2], uniformChunk {3, 5} [1]]
    let next : Clsm ℕ → Clsm ℕ := fun s => (s.next fun _ _ => false).1
    let walk := fun s : Clsm ℕ => s.results [.next fun _ _ => false, .next fun _ _ => false]
    ((opened [uniformChunk {5} [2]]).update 5 [0x14, 0x14] true 0 .upToDate).bind record =
      some (5, [0x14, 0x14, 0x14]) ∧
    ((two.search 5).1.insert 5 [7] true 0 .upToDate).map walk =
      some [⟨.ok, some (3, [1]), none⟩, ⟨.ok, some (5, [1]), none⟩] ∧
    ((next (next two)).insert 5 [7] true 0 .spurious).map walk =
      some [⟨.ok, some (3, [1]), none⟩, ⟨.ok, some (5, [1]), none⟩] := by
  decide

/-- **Merges are invisible.**  A cursor that is opened anew, after any calls, on the chunks that
any number of merges have left goes on as if there had been none. -/
theorem merges_invisible {cursors : List (ChunkCursor κ)}
    (h : Relation.ReflTransGen MergeStep chunks (chunksOf cursors))
    (before calls : List (LsmCall κ)) :
    let s := before.foldl (fun s a => (s.call a).1) (opened chunks)
    (s.reopen cursors).results calls = s.results calls := by
  -- calls are simulated on the merged map, which merges do not change
  obtain ⟨p, hp⟩ : ∃ p,
      Refines chunks (before.foldl (fun s a => (s.call a).1) (opened chunks)) p := by
    induction before using reverseRecOn with
    | nil => exact ⟨_, refines_opened chunks⟩
    | append_singleton before a ih =>
      obtain ⟨p, hp⟩ := ih
      rw [foldl_append]
      exact ⟨_, (hp.call a).1⟩
  have hmerged := merged_eq_of_merges h
  have hlive : live (chunksOf cursors) = live chunks := by
    ext x
    rw [mem_live_iff, mem_live_iff, hmerged]
  dsimp only
  rw [hp.results_reopen, hp.results, hlive, hmerged]

theorem merges_invisible_two :
    let s := ((opened [oneAndThree, oneAndThree]).call (.search 3)).1
    (s.reopen [⟨oneAndThree, none⟩]).results [.search 1] = s.results [.search 1] := by
  let range := [oneAndThree, oneAndThree]
  have hrecs : mergeRecords false range = [(1, []), (3, [])] := by decide
  refine merges_invisible (.single (.merge [] range [] oneAndThree ?_)) [.search 3] _
  refine ⟨by simp [hrecs, oneAndThree, exists_or], fun k raw h => ?_⟩
  rcases hrecs ▸ h with _ | ⟨_, _ | ⟨_, ⟨⟩⟩⟩ <;> rfl

end WiredTiger
