/-
# Table cursors over column groups (`cursor/cur_table.c`)

The columns of a table are stored in column groups, each of them a tree with the primary keys of the
table, and a table cursor has a cursor on each of them.  The first one is the primary.  A call
either makes the same call on all of the cursors (`APPLY_CG`), or makes it on the primary only and
then copies the key that was found to the others and searches for it.

A row is returned in pieces, one from each cursor, so that the cursors have to stand on the same
key.  `__curtable_search_near` does not move on to the third cursor, it searches the second one over
and over again; the other calls keep the cursors together.
-/
import WiredTiger.Cursor.File
import WiredTiger.Lib.Run

namespace WiredTiger

open Lib List Option CursorRet

variable {κ ν : Type*}

section Model

variable [LinearOrder κ]

/-! ### The table cursor -/

/-- `APPLY_CG`: `WT_NOTFOUND` is kept and does not end the loop. -/
def applyCg (f : Cg κ ν → Cg κ ν × CursorRet) :
    List (Cg κ ν) → CursorRet → List (Cg κ ν) × CursorRet
  | [], ret => ([], ret)
  | c :: cs, ret =>
    let ret := ret.tret (f c).2
    if ret = .ok ∨ ret = .notFound then
      ((f c).1 :: (applyCg f cs ret).1, (applyCg f cs ret).2)
    else ((f c).1 :: cs, ret)

/-- `__wt_curtable_set_key`. -/
def curtableSetKey (k : κ) : List (Cg κ ν) → List (Cg κ ν)
  | [] => []
  | primary :: cs => primary.setKey k :: cs.map (Cg.copyKey (primary.setKey k))

/-- `__curtable_search`. -/
def curtableSearch (cgs : List (Cg κ ν)) : List (Cg κ ν) × CursorRet := applyCg Cg.search cgs .ok

/-- `__curtable_next`. -/
def curtableNext (cgs : List (Cg κ ν)) : List (Cg κ ν) × CursorRet := applyCg Cg.next cgs .ok

/-- `__curtable_prev`. -/
def curtablePrev (cgs : List (Cg κ ν)) : List (Cg κ ν) × CursorRet := applyCg Cg.prev cgs .ok

/-- The loop of `__curtable_next_random`: the other cursors, one after the other. -/
def fillColumns (primary : Cg κ ν) : List (Cg κ ν) → List (Cg κ ν) × CursorRet
  | [] => ([], .ok)
  | c :: cs =>
    let r := (primary.copyKey c).search
    if r.2 = .ok then (r.1 :: (fillColumns primary cs).1, (fillColumns primary cs).2)
    else (r.1 :: cs, r.2)

/-- `__curtable_next_random`. -/
def curtableNextRandom (pick : κ) : List (Cg κ ν) → List (Cg κ ν) × CursorRet
  | [] => ([], .ok)
  | primary :: cs =>
    let r := primary.nextRandom pick
    if r.2 = .ok then (r.1 :: (fillColumns r.1 cs).1, (fillColumns r.1 cs).2)
    else (r.1 :: cs, r.2)

/-- The loop of `__curtable_search_near` over `n` cursors: `cp` is not moved, each turn searches the
same cursor. -/
def searchSame (primary : Cg κ ν) : ℕ → Cg κ ν → Cg κ ν × CursorRet
  | 0, c => (c, .ok)
  | n + 1, c =>
    let r := (primary.copyKey c).search
    if r.2 = .ok then searchSame primary n r.1 else r

/-- `__curtable_search_near`. -/
def curtableSearchNear (down : Bool) : List (Cg κ ν) → List (Cg κ ν) × CursorRet
  | [] => ([], .ok)
  | primary :: cs =>
    let r := primary.searchNear down
    if r.2 = .ok then
      match cs with
      | [] => ([r.1], .ok)
      | c :: cs =>
        let s := searchSame r.1 (cs.length + 1) c
        (r.1 :: s.1 :: cs, s.2)
    else (r.1 :: cs, r.2)

/-! ### Sequences of calls -/

/-- A call on a table cursor. -/
inductive TableCall (κ : Type*)
  | setKey (k : κ)
  | search
  | searchNear (down : Bool)
  | next
  | prev
  | nextRandom (pick : κ)

/-- The cursors, and what the last call has returned that was to position them. -/
structure CurTable (κ ν : Type*) where
  cgs : List (Cg κ ν)
  ret : Option CursorRet

namespace CurTable

/-- What a call has left and returned. -/
def after (r : List (Cg κ ν) × CursorRet) : CurTable κ ν := ⟨r.1, some r.2⟩

/-- One call. -/
def perform (s : CurTable κ ν) : TableCall κ → CurTable κ ν
  | .setKey k => ⟨curtableSetKey k s.cgs, none⟩
  | .search => after (curtableSearch s.cgs)
  | .searchNear down => after (curtableSearchNear down s.cgs)
  | .next => after (curtableNext s.cgs)
  | .prev => after (curtablePrev s.cgs)
  | .nextRandom pick => after (curtableNextRandom pick s.cgs)

/-- Every call can be made. -/
def step (s : CurTable κ ν) (call : TableCall κ) : Option (CurTable κ ν) := some (s.perform call)

/-- A table cursor that was just opened. -/
def opened (groups : List (Finset κ × (κ → ν))) : CurTable κ ν :=
  ⟨groups.map fun g => ⟨g.1, g.2, .unset, none, .unset⟩, none⟩

/-- All cursors stand on the record of one key and return its columns. -/
def Together (cgs : List (Cg κ ν)) : Prop :=
  ∃ k, ∀ c ∈ cgs, k ∈ c.keys ∧ c.pos = some k ∧ c.key.get = some k ∧ c.value.get = some (c.column k)

/-- After a successful call the cursors are together. -/
def Aligned (s : CurTable κ ν) : Prop := s.ret = some .ok → Together s.cgs

/-- The calls that keep the cursors together: a `search_near` over more than two column groups only
if there is nothing to be found or the cursor stands on the key that is searched for. -/
def Harmless (s : CurTable κ ν) : TableCall κ → Prop
  | .searchNear _ =>
    s.cgs.length ≤ 2 ∨
      ∀ c ∈ s.cgs, ∀ k, c.key.get = some k → c.keys = ∅ ∨ c.pos = some k
  | _ => True

end CurTable

end Model

/-! ### The cursors agree -/

/-- The value at a position. -/
def Cg.shown (c : Cg κ ν) : Option κ → Held ν
  | none => .unset
  | some k => .int (c.column k)

/-- The cursor is on a tree with these keys, its key is `key` and it stands on the record of
`pos`. -/
structure Cg.Stands (keys : Finset κ) (key pos : Option κ) (c : Cg κ ν) : Prop where
  keys : c.keys = keys
  key : c.key.get = key
  pos : c.pos = pos
  value : c.value = c.shown c.pos

/-- The cursors have the same key and stand on the same record. -/
def CursorsAgree (keys : Finset κ) (key pos : Option κ) (cgs : List (Cg κ ν)) : Prop :=
  (∀ k ∈ pos, k ∈ keys) ∧ ∀ c ∈ cgs, c.Stands keys key pos

namespace Cg

variable {keys : Finset κ} {key pos : Option κ} {c primary : Cg κ ν} {k : κ}

section

variable (h : c.Stands keys key pos)
include h

lemma stands_place (k : κ) : (c.place k).Stands keys (some k) (some k) := ⟨h.keys, rfl, rfl, rfl⟩

lemma stands_lose : c.lose.Stands keys key none := by
  refine ⟨h.keys, ?_, rfl, ?_⟩
  · exact (Held.get_localCopy _).trans h.key
  · change c.value.novalue = .unset
    rw [h.value]
    cases c.pos <;> rfl

lemma stands_reset : c.reset.Stands keys none none :=
  ⟨h.keys, rfl, rfl, rfl⟩

lemma stands_setKey (k : κ) : (c.setKey k).Stands keys (some k) pos := ⟨h.keys, rfl, h.pos, h.value⟩

end

end Cg

/-- What a call does to cursors that stand alike: it ends on a record, it finds nothing and has no
position, or it is refused and changes nothing. -/
inductive Outcome (f : Cg κ ν → Cg κ ν × CursorRet) (keys : Finset κ) (key pos : Option κ) : Prop
  | found {k : κ} (hk : k ∈ keys) (h : ∀ c, Cg.Stands keys key pos c → f c = (c.place k, .ok))
  | lost (key' : Option κ) (h : ∀ c, Cg.Stands keys key pos c →
      (f c).2 = .notFound ∧ (f c).1.Stands keys key' none)
  | refused (h : ∀ c, Cg.Stands keys key pos c → f c = (c, .einval))

/-- A call has the same outcome on cursors that stand alike. -/
def Uniform (f : Cg κ ν → Cg κ ν × CursorRet) : Prop := ∀ keys key pos, Outcome f keys key pos

/-- Calls that go to a record which the position determines. -/
lemma uniform_move {f : Cg κ ν → Cg κ ν × CursorRet} (dest : Finset κ → Option κ → Option κ)
    (hf : ∀ c, f c = c.move (dest c.keys c.pos))
    (hdest : ∀ keys pos, ∀ k ∈ dest keys pos, k ∈ keys) : Uniform f := by
  intro keys key pos
  cases hk : dest keys pos with
  | none =>
    refine .lost none fun c h => ?_
    rw [hf, h.keys, h.pos, hk]
    exact ⟨rfl, Cg.stands_reset h⟩
  | some k =>
    refine .found (hdest keys pos k hk) fun c h => ?_
    rw [hf, h.keys, h.pos, hk]
    rfl

/-! ### Calls on the table cursor -/

variable {keys : Finset κ} {key pos : Option κ} {c primary : Cg κ ν} {cgs cs : List (Cg κ ν)}
  {f : Cg κ ν → Cg κ ν × CursorRet} {k : κ}

@[simp] lemma CursorRet.tret_self (r : CursorRet) : r.tret r = r := by
  unfold tret
  split_ifs <;> rfl

lemma CursorRet.ok_tret (r : CursorRet) : ok.tret r = r := by
  cases r <;> rfl

/-- Calls that all return the same, whether or not they find something. -/
lemma applyCg_same {ret : CursorRet} (hret : ret = .ok ∨ ret = .notFound)
    (hf : ∀ c ∈ cs, (f c).2 = ret) : applyCg f cs ret = (cs.map fun c => (f c).1, ret) := by
  induction cs with
  | nil => rfl
  | cons c cs ih =>
    have hrest := ih fun d hd => hf d (mem_cons_of_mem c hd)
    simp [applyCg, hf c mem_cons_self, tret_self, if_pos hret, hrest, map_cons]

lemma applyCg_all {ret : CursorRet} (hne : cgs ≠ []) (hf : ∀ c ∈ cgs, (f c).2 = ret)
    (hret : ret = .ok ∨ ret = .notFound) :
    applyCg f cgs .ok = (cgs.map fun c => (f c).1, ret) := by
  obtain ⟨c, cs, rfl⟩ := exists_cons_of_ne_nil hne
  have hrest := applyCg_same hret fun d hd => hf d (mem_cons_of_mem c hd)
  simp [applyCg, hf c mem_cons_self, ok_tret, if_pos hret, hrest, map_cons]

section

variable [LinearOrder κ]

lemma uniform_search : Uniform (@Cg.search κ ν _) := by
  intro keys key pos
  cases key with
  | none => exact .refused fun c h => by simp only [Cg.search, h.key]
  | some k =>
    by_cases hk : k ∈ keys
    · exact .found hk fun c h => by simp [Cg.search, h.key, h.keys, if_pos hk]
    · refine .lost (some k) fun c h => ?_
      simp only [Cg.search, h.key, h.keys, if_neg hk]
      exact ⟨trivial, Cg.stands_lose h⟩

lemma uniform_searchNear (down : Bool) : Uniform (@Cg.searchNear κ ν _ down) := by
  intro keys key pos
  cases key with
  | none => exact .refused fun c h => by simp only [Cg.searchNear, h.key]
  | some k =>
    cases hk : near keys k down with
    | some k' =>
      exact .found (near_mem hk) fun c h => by simp only [Cg.searchNear, h.key, h.keys, hk]
    | none =>
      refine .lost (some k) fun c h => ?_
      simp only [Cg.searchNear, h.key, h.keys, hk]
      exact ⟨trivial, Cg.stands_lose h⟩

lemma uniform_next : Uniform (@Cg.next κ ν _) := by
  refine uniform_move (fun keys pos => match pos with
    | none => least keys
    | some k => above keys k) (fun c => rfl) fun keys pos k hk => ?_
  cases pos with
  | none => exact (least_eq_some.mp hk).1
  | some p => exact (above_eq_some.mp hk).1

lemma uniform_prev : Uniform (@Cg.prev κ ν _) := by
  refine uniform_move (fun keys pos => match pos with
    | none => greatest keys
    | some k => below keys k) (fun c => rfl) fun keys pos k hk => ?_
  cases pos with
  | none => exact (greatest_eq_some.mp hk).1
  | some p => exact (below_eq_some.mp hk).1

lemma mem_of_pick {pick : κ}
    (hk : (if pick ∈ keys then some pick else least keys) = some k) : k ∈ keys := by
  split_ifs at hk with hpick
  · exact some.inj hk ▸ hpick
  · exact (least_eq_some.mp hk).1

lemma uniform_nextRandom (pick : κ) : Uniform (@Cg.nextRandom κ ν _ pick) :=
  uniform_move (fun keys _ => if pick ∈ keys then some pick else least keys)
    (fun _ => rfl) fun _ _ _ hk => mem_of_pick hk

section

variable (hp : primary.key.get = some k) (hk : k ∈ keys)
include hp hk

/-- A cursor that gets the key of the primary finds it. -/
lemma search_copyKey (hc : c.Stands keys key pos) :
    (primary.copyKey c).search = (c.place k, .ok) := by
  have hkey : (primary.copyKey c).key.get = some k := by
    simp only [Cg.copyKey, hp]
    rfl
  have hkeys : (primary.copyKey c).keys = keys := by
    simp only [Cg.copyKey, hp]
    exact hc.keys
  have hplace : (primary.copyKey c).place k = c.place k := by
    simp only [Cg.copyKey, hp]
    rfl
  rw [Cg.search, hkey, hkeys]
  exact (if_pos hk).trans (by rw [hplace])

lemma fillColumns_eq (hcs : ∀ c ∈ cs, c.Stands keys key pos) :
    fillColumns primary cs = (cs.map (Cg.place k), .ok) := by
  induction cs with
  | nil => rfl
  | cons c cs ih =>
    have hrest := ih fun d hd => hcs d (mem_cons_of_mem c hd)
    simp [fillColumns, search_copyKey hp hk (hcs c mem_cons_self), hrest, map_cons]

/-- The second cursor is searched, however often. -/
lemma searchSame_eq (hc : c.Stands keys key pos) (n : ℕ) :
    searchSame primary (n + 1) c = (c.place k, .ok) := by
  induction n generalizing c key pos with
  | zero => simp only [searchSame, search_copyKey hp hk hc, if_true]
  | succ n ih =>
    rw [searchSame, search_copyKey hp hk hc]
    exact ih (Cg.stands_place hc k)

end

end

/-! ### A table without rows -/

/-- A cursor on a tree without records. -/
def Cg.Bare (c : Cg κ ν) : Prop := ∃ key, c.Stands ∅ key none

/-- Nothing is found in a tree without records. -/
lemma Uniform.bare (hf : Uniform f) (hc : c.Bare) : (f c).1.Bare ∧ (f c).2 ≠ .ok := by
  obtain ⟨key, hc⟩ := hc
  cases hf ∅ key none with
  | found hk => exact absurd hk (Finset.notMem_empty _)
  | lost key' h =>
    obtain ⟨hret, hstands⟩ := h c hc
    exact ⟨⟨key', hstands⟩, by simp [hret]⟩
  | refused h =>
    rw [h c hc]
    exact ⟨⟨key, hc⟩, nofun⟩

lemma applyCg_bare (hf : Uniform f) (hcgs : ∀ c ∈ cgs, c.Bare) (ret : CursorRet)
    (hret : cgs = [] → ret ≠ .ok) :
    (∀ c ∈ (applyCg f cgs ret).1, c.Bare) ∧ (applyCg f cgs ret).2 ≠ .ok := by
  induction cgs generalizing ret with
  | nil => exact ⟨nofun, hret rfl⟩
  | cons c cs ih =>
    obtain ⟨hc, hcs⟩ := forall_mem_cons.mp hcgs
    obtain ⟨hbare, hne⟩ := hf.bare hc
    have htret : ret.tret (f c).2 ≠ .ok := by
      revert hne
      cases ret <;> cases (f c).2 <;> decide
    simp only [applyCg]
    split_ifs
    · obtain ⟨hrest, hne⟩ := ih hcs (ret.tret (f c).2) fun _ => htret
      exact ⟨forall_mem_cons.mpr ⟨hbare, hrest⟩, hne⟩
    · exact ⟨forall_mem_cons.mpr ⟨hbare, hcs⟩, htret⟩

/-- The primary finds nothing, so that the others are left alone. -/
lemma primary_bare (hf : Uniform f) (hcgs : ∀ d ∈ c :: cs, d.Bare) :
    (∀ d ∈ (f c).1 :: cs, d.Bare) ∧ (f c).2 ≠ .ok := by
  obtain ⟨hc, hcs⟩ := forall_mem_cons.mp hcgs
  exact ⟨forall_mem_cons.mpr ⟨(hf.bare hc).1, hcs⟩, (hf.bare hc).2⟩

/-! ### Runs -/

namespace CurTable

variable {s : CurTable κ ν}

/-- The cursors are on trees without records, and the last call has found nothing. -/
def Bare (s : CurTable κ ν) : Prop :=
  s.cgs ≠ [] ∧ (∀ c ∈ s.cgs, c.Bare) ∧ s.ret ≠ some .ok

lemma applyCg_ne_nil (f : Cg κ ν → Cg κ ν × CursorRet) (hne : cgs ≠ []) (ret : CursorRet) :
    (applyCg f cgs ret).1 ≠ [] := by
  obtain ⟨c, cs, rfl⟩ := exists_cons_of_ne_nil hne
  simp only [applyCg]
  split_ifs <;> exact cons_ne_nil _ _

lemma bare_applyCg (hf : Uniform f) (hs : s.Bare) : (after (applyCg f s.cgs .ok)).Bare := by
  obtain ⟨hne, hbare, -⟩ := hs
  obtain ⟨hbare', hret⟩ := applyCg_bare hf hbare .ok fun hnil => absurd hnil hne
  exact ⟨applyCg_ne_nil f hne .ok, hbare', fun h => hret (some.inj h)⟩

/-- The cursors agree, and they stand on a record after a successful call. -/
def Inv (keys : Finset κ) (s : CurTable κ ν) : Prop :=
  s.cgs ≠ [] ∧ ∃ key pos, CursorsAgree keys key pos s.cgs ∧
    (s.ret = some .ok → ∃ k, key = some k ∧ pos = some k)

lemma Inv.aligned (hs : s.Inv keys) : s.Aligned := by
  intro hret
  obtain ⟨-, key, pos, ⟨hpos, hcgs⟩, hok⟩ := hs
  obtain ⟨k, rfl, rfl⟩ := hok hret
  refine ⟨k, fun c hc => ?_⟩
  have hstands := hcgs c hc
  refine ⟨hstands.keys ▸ hpos k rfl, hstands.pos, hstands.key, ?_⟩
  rw [hstands.value, hstands.pos]
  rfl

/-- All cursors have found the key `k`. -/
lemma inv_of_stands (hk : k ∈ keys) (hne : cgs ≠ [])
    (hcgs : ∀ c ∈ cgs, c.Stands keys (some k) (some k)) (ret : CursorRet) :
    Inv keys ⟨cgs, some ret⟩ := by
  refine ⟨hne, some k, some k, ⟨?_, hcgs⟩, fun _ => ⟨k, rfl, rfl⟩⟩
  intro k' hk'
  exact some.inj hk' ▸ hk

/-- **The same call on cursors that agree** returns the same on each of them, and they agree
again. -/
lemma inv_applyCg (hf : Uniform f) (hs : s.Inv keys) :
    (after (applyCg f s.cgs .ok)).Inv keys := by
  obtain ⟨hne, key, pos, ⟨hpos, hcgs⟩, -⟩ := hs
  have hne' := applyCg_ne_nil f hne .ok
  cases hf keys key pos with
  | found hk h =>
    have hret : ∀ c ∈ s.cgs, (f c).2 = .ok := fun c hc => by rw [h c (hcgs c hc)]
    have hall := applyCg_all hne hret (.inl rfl)
    refine inv_of_stands hk hne' ?_ _
    rw [hall]
    exact forall_mem_map.mpr fun c hc => h c (hcgs c hc) ▸ Cg.stands_place (hcgs c hc) _
  | lost key' h =>
    have hall := applyCg_all hne (fun c hc => (h c (hcgs c hc)).1) (.inr rfl)
    rw [hall] at hne' ⊢
    exact ⟨hne', key', none, ⟨nofun, forall_mem_map.mpr fun c hc => (h c (hcgs c hc)).2⟩, nofun⟩
  | refused h =>
    -- the first cursor refuses the call and ends the loop
    obtain ⟨c, cs, hcs⟩ := exists_cons_of_ne_nil hne
    have hfirst : applyCg f s.cgs .ok = (s.cgs, .einval) := by
      simp [hcs, applyCg, h c (hcgs c (hcs ▸ mem_cons_self)), ok_tret]
    rw [hfirst]
    exact ⟨hne, key, pos, ⟨hpos, hcgs⟩, nofun⟩

variable [LinearOrder κ]

lemma Bare.perform (hs : s.Bare) (call : TableCall κ) : (s.perform call).Bare := by
  obtain ⟨hne, hbare, -⟩ := id hs
  obtain ⟨c, cs, hcs⟩ := exists_cons_of_ne_nil hne
  rw [hcs] at hbare
  cases call with
  | setKey k =>
    change Bare ⟨curtableSetKey k s.cgs, none⟩
    rw [hcs]
    have hset : ∀ d ∈ c :: cs, (d.setKey k).Bare := fun d hd =>
      let ⟨_, h⟩ := hbare d hd
      ⟨_, Cg.stands_setKey h k⟩
    exact ⟨cons_ne_nil _ _, forall_mem_map.mpr hset, nofun⟩
  | search => exact bare_applyCg uniform_search hs
  | next => exact bare_applyCg uniform_next hs
  | prev => exact bare_applyCg uniform_prev hs
  | searchNear down =>
    obtain ⟨hbare', hret⟩ := primary_bare (uniform_searchNear down) hbare
    change (after (curtableSearchNear down s.cgs)).Bare
    rw [hcs]
    simp only [curtableSearchNear, if_neg hret]
    exact ⟨cons_ne_nil _ _, hbare', fun h => hret (some.inj h)⟩
  | nextRandom pick =>
    obtain ⟨hbare', hret⟩ := primary_bare (uniform_nextRandom pick) hbare
    change (after (curtableNextRandom pick s.cgs)).Bare
    rw [hcs]
    simp only [curtableNextRandom, if_neg hret]
    exact ⟨cons_ne_nil _ _, hbare', fun h => hret (some.inj h)⟩

/-- Without a key there is nothing to search for. -/
lemma searchNear_no_key (hc : c.Stands keys none pos) (down : Bool) :
    curtableSearchNear down (c :: cs) = (c :: cs, .einval) := by
  simp only [curtableSearchNear, Cg.searchNear, hc.key]
  rfl

section

variable {down : Bool} {k' : κ} (hc : c.Stands keys (some k) pos)
  (hnear : near keys k down = some k')
include hc hnear

/-- The first two cursors go to the key that is found, and the others stay. -/
lemma searchNear_two {d : Cg κ ν} (hd : d.Stands keys (some k) pos) :
    curtableSearchNear down (c :: d :: cs) = (c.place k' :: d.place k' :: cs, .ok) := by
  have hfirst : c.searchNear down = (c.place k', .ok) := by
    simp [Cg.searchNear, hc.key, hc.keys, hnear]
  simp [curtableSearchNear, hfirst,
    searchSame_eq (rfl : (c.place k').key.get = some k') (near_mem hnear) hd]

lemma searchNear_one : curtableSearchNear down [c] = ([c.place k'], .ok) := by
  simp [curtableSearchNear, Cg.searchNear, hc.key, hc.keys, hnear]

end

/-- A search near a key, by the number of cursors. -/
lemma Inv.searchNear {down : Bool} (hkeys : keys.Nonempty) (hs : s.Inv keys)
    (hsafe : s.Harmless (.searchNear down)) : (after (curtableSearchNear down s.cgs)).Inv keys := by
  obtain ⟨hne, key, pos, ⟨hpos, hcgs⟩, -⟩ := id hs
  obtain ⟨c, cs, hcs⟩ := exists_cons_of_ne_nil hne
  have hc : c.Stands keys key pos := hcgs c (hcs ▸ mem_cons_self)
  cases key with
  | none =>
    rw [hcs, searchNear_no_key hc, ← hcs]
    exact ⟨hne, none, pos, ⟨hpos, hcgs⟩, nofun⟩
  | some k =>
    obtain ⟨k', hnear⟩ := ne_none_iff_exists'.mp
      (fun h => hkeys.ne_empty (near_eq_none.mp h) : near keys k down ≠ none)
    have hk' : k' ∈ keys := near_mem hnear
    cases cs with
    | nil =>
      rw [hcs, searchNear_one hc hnear]
      refine inv_of_stands hk' (cons_ne_nil _ _) (fun d hd => ?_) .ok
      exact mem_singleton.mp hd ▸ Cg.stands_place hc k'
    | cons d cs =>
      have hd : d.Stands keys (some k) pos := hcgs d (hcs ▸ by simp)
      rw [hcs, searchNear_two hc hnear hd]
      -- the cursors behind the second one stay where they are, on the key that is searched for
      have hstay : ∀ e ∈ cs, e.Stands keys (some k') (some k') := by
        intro e he
        have hstands := hcgs e (hcs ▸ by simp [he])
        rcases hsafe with hlen | hon
        · rw [hcs] at hlen
          cases cs with
          | nil => cases he
          | cons e' cs => simp at hlen
        · have hposk : pos = some k := by
            rcases hon c (hcs ▸ mem_cons_self) k hc.key with hempty | hposk
            · exact absurd (hc.keys.symm.trans hempty) hkeys.ne_empty
            · exact hc.pos.symm.trans hposk
          have hkk : k' = k := by
            rw [near_of_mem (hpos k hposk)] at hnear
            exact (some.inj hnear).symm
          rw [hkk]
          exact hposk ▸ hstands
      refine inv_of_stands hk' (cons_ne_nil _ _) (fun e he => ?_) .ok
      rcases mem_cons.mp he with rfl | he
      · exact Cg.stands_place hc k'
      · rcases mem_cons.mp he with rfl | he
        · exact Cg.stands_place hd k'
        · exact hstay e he

lemma Inv.perform {call : TableCall κ} (hkeys : keys.Nonempty) (hs : s.Inv keys)
    (hsafe : s.Harmless call) : (s.perform call).Inv keys := by
  obtain ⟨hne, key, pos, ⟨hpos, hcgs⟩, -⟩ := id hs
  obtain ⟨c, cs, hcs⟩ := exists_cons_of_ne_nil hne
  rw [hcs] at hcgs
  have hc : c.Stands keys key pos := hcgs c mem_cons_self
  cases call with
  | setKey k =>
    change Inv keys ⟨curtableSetKey k s.cgs, none⟩
    rw [hcs]
    exact ⟨cons_ne_nil _ _, some k, pos,
      ⟨hpos, forall_mem_map.mpr fun d hd => Cg.stands_setKey (hcgs d hd) k⟩, nofun⟩
  | search => exact inv_applyCg uniform_search hs
  | next => exact inv_applyCg uniform_next hs
  | prev => exact inv_applyCg uniform_prev hs
  | searchNear down => exact hs.searchNear hkeys hsafe
  | nextRandom pick =>
    obtain ⟨k, hk⟩ : ∃ k, (if pick ∈ keys then some pick else least keys) = some k := by
      split_ifs
      · exact ⟨pick, rfl⟩
      · exact ne_none_iff_exists'.mp fun h => hkeys.ne_empty (least_eq_none.mp h)
    have hmem : k ∈ keys := mem_of_pick hk
    have hfirst : c.nextRandom pick = (c.place k, .ok) := by
      rw [Cg.nextRandom, hc.keys, hk]
      rfl
    have hrest : fillColumns (c.place k) cs = (cs.map (Cg.place k), .ok) :=
      fillColumns_eq rfl hmem fun d hd => hcgs d (mem_cons_of_mem c hd)
    change (after (curtableNextRandom pick s.cgs)).Inv keys
    rw [hcs]
    simp only [curtableNextRandom, hfirst, hrest, if_true]
    refine inv_of_stands hmem (cons_ne_nil _ _) ?_ .ok
    rw [← map_cons]
    exact forall_mem_map.mpr fun d hd => Cg.stands_place (hcgs d hd) k

/-- A search near a key cannot do without what `Harmless` asks for. -/
lemma Inv.harmless {call : TableCall κ} (hkeys : keys.Nonempty) (hs : s.Inv keys)
    (h : (s.perform call).Aligned) : s.Harmless call := by
  obtain ⟨hne, key, pos, ⟨hpos, hcgs⟩, -⟩ := hs
  cases call with
  | setKey | search | next | prev | nextRandom => trivial
  | searchNear down =>
    change (after (curtableSearchNear down s.cgs)).Aligned at h
    refine or_iff_not_imp_left.mpr fun hlen x hx k hk => .inr ?_
    obtain rfl : key = some k := (hcgs x hx).key.symm.trans hk
    obtain ⟨k', hnear⟩ := ne_none_iff_exists'.mp
      (fun h => hkeys.ne_empty (near_eq_none.mp h) : near keys k down ≠ none)
    match hcs : s.cgs with
    | [] => exact absurd hcs hne
    | [c] => simp [hcs] at hlen
    | [c, d] => simp [hcs] at hlen
    | c :: d :: e :: cs =>
      rw [hcs] at h hcgs hx
      have hc := hcgs c (by simp)
      have hd := hcgs d (by simp)
      have he := hcgs e (by simp)
      rw [searchNear_two hc hnear hd] at h
      obtain ⟨k'', hall⟩ := h rfl
      obtain ⟨-, hepos, hekey, -⟩ := hall e (by simp [after])
      rw [(hcgs x hx).pos, ← he.pos, hepos, ← hekey, he.key]

/-- **The cursors of a table cursor stay together exactly as long as no `search_near` over more than
two column groups leaves its place.**  In every sequence of calls on an open table cursor, over
column groups with the same keys, each successful call leaves all cursors on the record of one key
if and only if every call is `Harmless`. -/
theorem aligned_iff {groups : List (Finset κ × (κ → ν))} (hne : groups ≠ [])
    (hsame : ∀ g ∈ groups, ∀ g' ∈ groups, g.1 = g'.1) (calls : List (TableCall κ)) :
    Along step Aligned (opened groups) calls ↔ AllSteps step Harmless (opened groups) calls := by
  obtain ⟨g, gs, rfl⟩ := exists_cons_of_ne_nil hne
  have hkeys : ∀ c ∈ (opened (g :: gs)).cgs, c.Stands g.1 none none := by
    intro c hc
    obtain ⟨g', hg', rfl⟩ := mem_map.mp hc
    exact ⟨hsame g' hg' g mem_cons_self, rfl, rfl, rfl⟩
  by_cases hempty : g.1 = ∅
  · have hbare : (opened (g :: gs)).Bare :=
      ⟨cons_ne_nil _ _, fun c hc => ⟨none, hempty ▸ hkeys c hc⟩, nofun⟩
    refine along_iff_allSteps (fun s hs hret => absurd hret hs.2.2) ?_ ?_ hbare calls
    · rintro s a t hs - ht
      exact some.inj ht ▸ hs.perform a
    · rintro s a t hs - -
      cases a with
      | searchNear down => exact .inr fun c hc k _ => .inl (hs.2.1 c hc).choose_spec.keys
      | setKey | search | next | prev | nextRandom => trivial
  · have hnonempty : g.1.Nonempty := Finset.nonempty_iff_ne_empty.mpr hempty
    have hinv : (opened (g :: gs)).Inv g.1 :=
      ⟨cons_ne_nil _ _, none, none, ⟨nofun, hkeys⟩, nofun⟩
    refine along_iff_allSteps (fun s hs => hs.aligned) ?_ ?_ hinv calls
    · intro s a t hs hsafe ht
      exact some.inj ht ▸ hs.perform hnonempty hsafe
    · intro s a t hs ht h
      cases ht
      exact hs.harmless hnonempty h

/-- The rows 1 and 2 of a table, spread over `n` column groups. -/
def twoRows (n : ℕ) : List (Finset ℕ × (ℕ → ℕ)) := List.replicate n ({1, 2}, fun k => 10 * k)

theorem aligned_iff_twoRows :
    Along step Aligned (opened (twoRows 2)) [.next, .setKey 2, .searchNear false, .prev] ↔
      AllSteps step Harmless (opened (twoRows 2)) [.next, .setKey 2, .searchNear false, .prev] :=
  aligned_iff (cons_ne_nil _ _) (by simp) _

/-- The third cursor still returns its columns of the first row when the others return those of the
second one. -/
theorem searchNear_leaves_third :
    ¬ Along step Aligned (opened (twoRows 3)) [.next, .setKey 2, .searchNear false] := by
  rintro ⟨-, h⟩
  obtain ⟨-, h⟩ := h _ rfl
  obtain ⟨-, h⟩ := h _ rfl
  obtain ⟨k, hall⟩ := h _ rfl (by decide)
  have hfirst : (20 : ℕ) = 10 * k := some.inj (hall _ mem_cons_self).2.2.2
  have hthird : (10 : ℕ) = 10 * k := some.inj
    (hall _ (mem_cons_of_mem _ (mem_cons_of_mem _ mem_cons_self))).2.2.2
  omega

end CurTable

end WiredTiger
