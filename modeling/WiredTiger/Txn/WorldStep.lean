/-
# What a step of a transaction can do

Every step of `World.step` is one of a few kinds: a transaction begins, gets its id, goes on in its
life, puts an update on the chain or changes one of its updates, or a tail of the chain leaves it.
For each kind the lemmas here say all that the invariants need, so that none of them looks into the
step function again.
-/
import WiredTiger.Txn.World

namespace WiredTiger

open Lib Option Txn

variable {u : Update}

/-! ### Updates in the phases of their transaction -/

/-- The update is committed for good, at the latest when its transaction is. -/
def Update.Settled (u : Update) : Prop :=
  (u.prepare = .init ∨ u.prepare = .resolved) ∧ u.startTs ≤ u.durableTs

/-- The prepare state and the timestamps of an update fit the phase of its transaction. -/
def Txn.PhaseOk (x : Txn) (u : Update) : Prop :=
  match x.phase with
  | .running | .failed | .committing | .rollingBack none =>
    u.prepare = .init ∧ u.startTs ≤ u.durableTs
  | .preparing prepareTs =>
    (u.prepare = .init ∧ u.startTs ≤ u.durableTs) ∨
      (u.prepare = .inprogress ∧ u.startTs = prepareTs)
  | .prepared prepareTs | .rollingBack (some prepareTs) =>
    u.prepare = .inprogress ∧ u.startTs = prepareTs
  | .resolving prepareTs _ _ =>
    ((u.prepare = .inprogress ∨ u.prepare = .locked) ∧ u.startTs = prepareTs) ∨
      (u.prepare = .resolved ∧ u.startTs ≤ u.durableTs)
  | .committed => u.Settled
  | .rolledBack => False

lemma Txn.owns_iff {x : Txn} : x.owns u = true ↔ x.view.hasId = true ∧ u.txnid = x.view.id := by
  simp [owns]

lemma Txn.owns_congr {x x' : Txn} (h : x'.view = x.view) : x'.owns u = x.owns u := by
  simp [owns, h]

lemma Txn.hasId_of_inTable {x : Txn} (h : x.inTable = true) : x.view.hasId = true := by
  simp only [inTable, Bool.and_eq_true] at h
  exact h.1

/-- An open transaction is in the global table, or its updates are prepared. -/
lemma Txn.inTable_or_inprogress {x : Txn} (hid : x.view.hasId = true) (hopen : x.isOpen = true)
    (h : x.PhaseOk u) : x.inTable = true ∨ u.prepare = .inprogress := by
  rcases x with ⟨view, phase, commitTs, pending⟩
  cases phase with
  | rollingBack prepareTs =>
    cases prepareTs with
    | none => exact .inl (by simp_all [inTable])
    | some prepareTs => exact .inr h.1
  | prepared prepareTs => exact .inr h.1
  | _ => simp_all [inTable, isOpen]

/-- An update of a transaction that is not open any more is committed, or will be. -/
lemma Txn.PhaseOk.not_open {x : Txn} (h : x.PhaseOk u) (hopen : x.isOpen = false) :
    u.Settled ∨ (u.prepare = .inprogress ∨ u.prepare = .locked) := by
  rcases x with ⟨view, phase, commitTs, pending⟩
  cases phase with
  | resolving prepareTs commitTs durableTs =>
    rcases h with ⟨h, -⟩ | h
    · exact .inr h
    · exact .inl ⟨.inr h.1, h.2⟩
  | committed => exact .inl h
  | rolledBack => exact absurd h id
  | _ => simp [isOpen] at hopen

@[simp] lemma Txn.opSetTimestamp_keeps (x : Txn) (u : Update) :
    (x.opSetTimestamp u).txnid = u.txnid ∧ (x.opSetTimestamp u).data = u.data ∧
      (x.opSetTimestamp u).prepare = u.prepare ∧
      (x.opSetTimestamp u).restoredFromHs = u.restoredFromHs := by
  unfold opSetTimestamp
  split
  · exact ⟨rfl, rfl, rfl, rfl⟩
  · split_ifs <;> exact ⟨rfl, rfl, rfl, rfl⟩

lemma Txn.opSetTimestamp_le (x : Txn) (h : u.startTs ≤ u.durableTs) :
    (x.opSetTimestamp u).startTs ≤ (x.opSetTimestamp u).durableTs := by
  unfold opSetTimestamp
  split
  · exact h
  · split_ifs
    · exact le_rfl
    · exact h

/-- A new update has the id of its transaction, and is not prepared. -/
lemma Txn.newUpdate_spec (x : Txn) (data : UpdData) :
    (x.newUpdate data).txnid = x.view.id ∧ (x.newUpdate data).prepare = .init ∧
      (x.newUpdate data).startTs ≤ (x.newUpdate data).durableTs := by
  refine ⟨?_, ?_, ?_⟩
  · simp [newUpdate]
  · simp [newUpdate]
  · exact x.opSetTimestamp_le le_rfl

/-- **One update in the loops of prepare, commit and rollback.**  The payload stays; the update is
dropped, by a transaction that is open, or it keeps its id. -/
lemma Txn.resolveUpdate_spec {x : Txn} {u' : Update} (hid : x.view.hasId = true) (hok : x.PhaseOk u)
    (hres : ∀ p c d, x.phase = .resolving p c d → p ≤ c ∧ c ≤ d) (h : x.resolveUpdate u = some u') :
    u'.data = u.data ∧
      ((u'.txnid = txnAborted ∧ x.isOpen = true) ∨
        (u'.txnid = u.txnid ∧ x.PhaseOk u' ∧
          (x.inTable = true ∨
            ((u.prepare = .inprogress ∨ u.prepare = .locked) ∧ u.startTs ≤ u'.startTs ∧
              (u.prepare = .locked → u'.prepare = .resolved))))) := by
  rcases x with ⟨view, phase, commitTs, pending⟩
  cases phase with
  | preparing prepareTs =>
    simp only [resolveUpdate] at h
    split_ifs at h with hreserve hinit
    · cases h
      exact ⟨rfl, .inl ⟨rfl, rfl⟩⟩
    · cases h
      exact ⟨rfl, .inr ⟨rfl, .inr ⟨rfl, rfl⟩, .inl (by simpa [inTable] using hid)⟩⟩
  | committing =>
    simp only [resolveUpdate] at h
    split_ifs at h with hreserve hsame
    · cases h
      exact ⟨rfl, .inl ⟨rfl, rfl⟩⟩
    · cases h
      refine ⟨by simp, .inr ⟨by simp, ⟨?_, ?_⟩, ?_⟩⟩
      · simpa using hok.1
      · exact opSetTimestamp_le _ hok.2
      · exact .inl (by simpa [inTable] using hid)
  | resolving prepareTs commitTs' durableTs =>
    obtain ⟨hpc, hcd⟩ := hres _ _ _ rfl
    simp only [resolveUpdate] at h
    rcases hok with ⟨hprep, hts⟩ | ⟨hprep, -⟩
    · rcases hprep with hprep | hprep
      · rw [hprep] at h
        cases h
        refine ⟨rfl, .inr ⟨rfl, .inl ⟨.inr rfl, hts⟩, .inr ⟨.inl hprep, le_rfl, ?_⟩⟩⟩
        simp [hprep]
      · rw [hprep] at h
        cases h
        refine ⟨rfl, .inr ⟨rfl, .inr ⟨rfl, hcd⟩, .inr ⟨.inr hprep, ?_, fun _ => rfl⟩⟩⟩
        simpa [hts] using hpc
    · rw [hprep] at h
      cases h
  | rollingBack prepareTs =>
    cases h
    exact ⟨rfl, .inl ⟨rfl, rfl⟩⟩
  | _ => cases h

lemma Txn.resolveUpdate_restored {x : Txn} {u' : Update} (h : x.resolveUpdate u = some u') :
    u'.restoredFromHs = u.restoredFromHs := by
  rcases x with ⟨view, phase, commitTs, pending⟩
  cases phase with
  | preparing prepareTs =>
    simp only [resolveUpdate] at h
    split_ifs at h <;> cases h <;> rfl
  | committing =>
    simp only [resolveUpdate] at h
    split_ifs at h <;> cases h <;> simp
  | resolving prepareTs commitTs' durableTs =>
    simp only [resolveUpdate] at h
    split at h <;> cases h <;> rfl
  | rollingBack prepareTs =>
    cases h
    rfl
  | _ => cases h

/-! ### Kinds of steps -/

/-- A transaction goes on in its life, with the same view. -/
structure Txn.Advances (w : World) (x x' : Txn) : Prop where
  view : x'.view = x.view
  live : x.phase ≠ .committed
  opens : x'.isOpen = true → x.isOpen = true
  closes : x.isOpen = false → x'.phase = .committed
  table : x'.inTable = true → x.inTable = true
  resolves : ∀ p c d, x'.phase = .resolving p c d → p ≤ c ∧ c ≤ d
  keeps : ∀ u ∈ w.updates, x.owns u = true → x.PhaseOk u → x'.PhaseOk u
  pending : ∀ next, x'.pending = some next →
    (x.pending = some next ∧ (x.phase = .running → x'.phase = .running)) ∨
      (x'.phase = .running ∧ next = w.head ∧ w.modifyCheck x = .ok true)

/-- The transaction that takes the step. -/
def Action.actor : Action → Option ℕ
  | .txn t _ => some t
  | _ => none

/-- The step is an eviction. -/
def Action.isEvict : Action → Bool
  | .evict .. => true
  | _ => false

/-- A transaction that has just begun. -/
def World.newTxn (w : World) (readTs : Option ℕ) (ignorePrepare : Bool) : Txn :=
  ⟨⟨txnNone, false, .snapshot, w.getSnapshot, readTs, ignorePrepare⟩, .running, none, none⟩

/-- The kinds of steps. -/
inductive World.Effect (w : World) (a : Action) : World → Prop
  | begin (readTs : Option ℕ) (ignorePrepare : Bool) :
      Effect w a { w with txns := w.txns ++ [w.newTxn readTs ignorePrepare] }
  | allocId (t : ℕ) (x : Txn) (ha : a.actor = some t) (hx : w.txns[t]? = some x)
      (hrun : x.phase = .running) (hid : x.view.hasId = false) (hlt : w.current < txnAborted) :
      Effect w a
        { w.setTxn t { x with view := { x.view with id := w.current, hasId := true } } with
          current := w.current + 1 }
  | advance (t : ℕ) (x x' : Txn) (ha : a.actor = some t) (hx : w.txns[t]? = some x)
      (hadv : x.Advances w x') : Effect w a (w.setTxn t x')
  | prepend (t : ℕ) (x : Txn) (data : UpdData) (ha : a.actor = some t)
      (hx : w.txns[t]? = some x) (hrun : x.phase = .running) (hid : x.view.hasId = true)
      (hpend : x.pending = some w.head) :
      Effect w a
        { w.setTxn t { x with pending := none } with
          chain := ⟨w.nextAddr, x.newUpdate data⟩ :: w.chain
          nextAddr := w.nextAddr + 1 }
  | resolve (t i : ℕ) (x : Txn) (n : Node) (u : Update) (ha : a.actor = some t)
      (hx : w.txns[t]? = some x) (hn : w.chain[i]? = some n) (hown : x.owns n.upd = true)
      (hu : x.resolveUpdate n.upd = some u) :
      Effect w a { w with chain := w.chain.set i ⟨n.addr, u⟩ }
  | truncate (g : Global) (i first : ℕ) (hpins : w.pins g = true)
      (hfirst : updateObsoleteCheck g (w.updates.drop i) i none = some first) :
      Effect w a
        { w with
          chain := w.chain.take (first + 1)
          past := w.chain.drop (first + 1) ++ w.past }
  | evict (n : ℕ) (value : Value) (cell : Option Cell) (ha : a.isEvict = true)
      (hpend : ∀ x ∈ w.txns, x.pending = none)
      (hended : ∀ u ∈ w.updates.drop n, w.ended u = true)
      (hcell : w.written n value = some cell) :
      Effect w a
        { w with chain := w.chain.take n, cell := cell, past := w.chain.drop n ++ w.past }

namespace World

variable {w w' : World} {t : ℕ} {x : Txn}

/-- A conflict check leaves the transaction where it is, or makes it fail. -/
lemma checked_advances (hrun : x.phase = .running) (h : w.checked t x = some w') :
    ∃ x', x.Advances w x' ∧ w' = w.setTxn t x' := by
  have hlive : x.phase ≠ .committed := by simp [hrun]
  have hopen : x.isOpen = true := by simp [isOpen, hrun]
  rw [checked] at h
  rcases hcheck : w.modifyCheck x with e | ok
  · simp [hcheck] at h
  cases ok with
  | true =>
    simp only [hcheck, some.injEq] at h
    refine ⟨{ x with pending := some w.head },
      ⟨rfl, hlive, fun _ => hopen, by simp [hopen], fun h => h, ?_, fun _ _ _ h => h, ?_⟩,
      h.symm⟩
    · intro p c d hres
      simp [hrun] at hres
    · intro next hnext
      exact .inr ⟨hrun, by simpa using hnext.symm, hcheck⟩
  | false =>
    simp only [hcheck, some.injEq] at h
    refine ⟨{ x with pending := none, phase := .failed },
      ⟨rfl, hlive, fun _ => hopen, by simp [hopen], fun h => ?_, ?_, ?_, ?_⟩, h.symm⟩
    · simpa [inTable, hrun] using h
    · intro p c d hres
      simp at hres
    · intro u _ _ hok
      simpa [Txn.PhaseOk, hrun] using hok
    · intro next hnext
      simp at hnext

/-- A transaction with nothing under way changes its phase. -/
lemma advances_phase {phase : Phase} (hlive : x.phase ≠ .committed)
    (hopen : x.isOpen = true ∨ phase = .committed)
    (htable : ({ x with phase := phase } : Txn).inTable = true → x.inTable = true)
    (hres : ∀ p c d, phase = .resolving p c d → p ≤ c ∧ c ≤ d)
    (hkeeps : ∀ u ∈ w.updates, x.owns u = true → x.PhaseOk u →
      ({ x with phase := phase } : Txn).PhaseOk u)
    (hpend : x.phase = .running → x.pending = none) :
    x.Advances w { x with phase := phase } := by
  refine ⟨rfl, hlive, ?_, ?_, htable, hres, hkeeps, ?_⟩
  · intro h
    rcases hopen with hopen | rfl
    · exact hopen
    · simp [isOpen] at h
  · intro h
    exact hopen.resolve_left (by simp [h])
  · intro next h
    refine .inl ⟨h, fun hrun => ?_⟩
    simp [hpend hrun] at h

/-- The end of a loop: what is left of the transaction's updates fits its next phase. -/
lemma release_advances {phase : Phase}
    (hdone : ∀ u ∈ w.updates, x.owns u = true → x.resolveUpdate u = none)
    (h : x.released = some phase) : x.Advances w { x with phase := phase } := by
  rcases x with ⟨view, ph, commitTs, pending⟩
  cases ph with
  | preparing prepareTs =>
    obtain rfl : phase = .prepared prepareTs := by simpa [released] using h.symm
    refine advances_phase (by simp) (.inl rfl) (by simp [inTable]) (by simp) ?_ (by simp)
    intro u hu hown hok
    have hnone := hdone u hu hown
    simp only [resolveUpdate] at hnone
    split_ifs at hnone with hreserve hinit
    exact hok.resolve_left fun h => hinit h.1
  | committing =>
    obtain rfl : phase = .committed := by simpa [released] using h.symm
    refine advances_phase (by simp) (.inr rfl) (by simp [inTable]) (by simp) ?_ (by simp)
    exact fun u _ _ hok => ⟨.inl hok.1, hok.2⟩
  | resolving prepareTs commitTs' durableTs =>
    obtain rfl : phase = .committed := by simpa [released] using h.symm
    refine advances_phase (by simp) (.inr rfl) (by simp [inTable]) (by simp) ?_ (by simp)
    intro u hu hown hok
    have hnone := hdone u hu hown
    rcases hok with ⟨hprep | hprep, -⟩ | ⟨hprep, hts⟩
    · simp [resolveUpdate, hprep] at hnone
    · simp [resolveUpdate, hprep] at hnone
    · exact ⟨.inr hprep, hts⟩
  | rollingBack prepareTs =>
    obtain rfl : phase = .rolledBack := by simpa [released] using h.symm
    refine advances_phase (by simp) (.inl rfl) (by simp [inTable]) (by simp) ?_ (by simp)
    intro u hu hown _
    simpa [resolveUpdate] using hdone u hu hown
  | _ => simp [released] at h

/-- A step of a transaction is of one of the kinds. -/
lemma txnStep_effect {op : Op} (hx : w.txns[t]? = some x) (h : w.txnStep t x op = some w') :
    w.Effect (.txn t op) w' := by
  cases op <;> simp only [txnStep] at h
  case allocId =>
    split_ifs at h with hc
    cases h
    exact .allocId t x rfl hx hc.1 hc.2.1 hc.2.2
  case timestamp commitTs =>
    split_ifs at h with hc
    cases h
    refine .advance t x _ rfl hx ⟨rfl, by simp [hc.1], fun h => h, ?_, fun h => h, ?_,
      fun _ _ _ h => h, fun next h => .inl ⟨h, fun h => h⟩⟩
    · simp [isOpen, hc.1]
    · intro p c d hres
      simp [hc.1] at hres
  case check =>
    split_ifs at h with hc
    obtain ⟨x', hadv, rfl⟩ := checked_advances hc.1 h
    exact .advance t x x' rfl hx hadv
  case cas data =>
    rcases hp : x.pending with _ | next
    · simp [hp] at h
    simp only [hp] at h
    split_ifs at h with hc hhead
    · cases h
      exact .prepend t x data rfl hx hc.1 hc.2 (by rw [hp, hhead])
    · obtain ⟨x', hadv, rfl⟩ := checked_advances hc.1 h
      exact .advance t x x' rfl hx hadv
  case prepare prepareTs =>
    split_ifs at h with hc
    cases h
    refine .advance t x _ rfl hx (advances_phase (by simp [hc.1]) ?_ ?_ (by simp) ?_
      fun _ => hc.2.1)
    · exact .inl (by simp [isOpen, hc.1])
    · simp [inTable, hc.1]
    · intro u _ _ hok
      exact .inl (by simpa [Txn.PhaseOk, hc.1] using hok)
  case commit =>
    split_ifs at h with hc
    cases h
    refine .advance t x _ rfl hx (advances_phase (by simp [hc.1]) ?_ ?_ (by simp) ?_
      fun _ => hc.2)
    · exact .inl (by simp [isOpen, hc.1])
    · simp [inTable, hc.1]
    · intro u _ _ hok
      simpa [Txn.PhaseOk, hc.1] using hok
  case commitPrepared commitTs durableTs =>
    split at h
    next prepareTs hphase =>
      split_ifs at h with hc
      cases h
      refine .advance t x _ rfl hx (advances_phase (by simp [hphase]) ?_ ?_ ?_ ?_ ?_)
      · exact .inl (by simp [isOpen, hphase])
      · simp [inTable]
      · intro p c d hres
        cases hres
        exact hc
      · intro u _ _ hok
        obtain ⟨hprep, hts⟩ : u.prepare = .inprogress ∧ u.startTs = prepareTs := by
          simpa [Txn.PhaseOk, hphase] using hok
        exact .inl ⟨.inl hprep, hts⟩
      · simp [hphase]
    next => cases h
  case rollback =>
    have hstep : ∀ {p}, w' = w.setTxn t { x with phase := .rollingBack p } → x.isOpen = true →
        (x.phase = .running → x.pending = none) → (p = none → x.inTable = x.view.hasId) →
        (∀ u, x.PhaseOk u → ({ x with phase := .rollingBack p } : Txn).PhaseOk u) →
        w.Effect (.txn t .rollback) w' := by
      rintro p rfl hopen hpend htable hkeeps
      refine .advance t x _ rfl hx (advances_phase ?_ (.inl hopen) ?_ (by simp)
        (fun u _ _ => hkeeps u) hpend)
      · intro h
        simp [isOpen, h] at hopen
      · cases p with
        | none =>
          intro h
          have hid : x.view.hasId = true := by simpa [inTable] using h
          rw [htable rfl, hid]
        | some p => simp [inTable]
    split at h
    case h_1 hphase | h_2 hphase =>
      split_ifs at h with hc
      exact hstep (by simpa using h.symm) (by simp [isOpen, hphase]) (fun _ => hc)
        (fun _ => by simp [inTable, hphase]) (by simp [Txn.PhaseOk, hphase])
    next prepareTs hphase =>
      exact hstep (by simpa using h.symm) (by simp [isOpen, hphase]) (by simp [hphase])
        (by simp) (by simp [Txn.PhaseOk, hphase])
    next => cases h
  case resolve i =>
    rcases hn : w.chain[i]? with _ | n
    · simp [hn] at h
    simp only [hn] at h
    split_ifs at h with hown
    obtain ⟨u, hu, rfl⟩ := map_eq_some_iff.mp h
    exact .resolve t i x n u rfl hx hn hown hu
  case release =>
    split_ifs at h with hdone
    obtain ⟨phase, hphase, rfl⟩ := map_eq_some_iff.mp h
    refine .advance t x _ rfl hx (release_advances ?_ hphase)
    intro u hu hown
    simpa [hown] using List.all_eq_true.mp hdone u hu

/-- **What a step can do.** -/
theorem step_effect {a : Action} (h : w.step a = some w') : w.Effect a w' := by
  cases a with
  | begin readTs ignorePrepare =>
    cases h
    exact .begin readTs ignorePrepare
  | txn t op =>
    simp only [step] at h
    split at h
    next => cases h
    next x hx => exact txnStep_effect hx h
  | truncate g i =>
    simp only [step] at h
    split_ifs at h with hpins
    obtain ⟨first, hfirst, rfl⟩ := map_eq_some_iff.mp h
    exact .truncate g i first hpins hfirst
  | evict n value =>
    simp only [step] at h
    split_ifs at h with hc
    obtain ⟨cell, hcell, rfl⟩ := map_eq_some_iff.mp h
    refine .evict n value cell rfl ?_ ?_ hcell
    · intro x hx
      simpa using List.all_eq_true.mp hc.1 x hx
    · exact fun u hu => List.all_eq_true.mp hc.2 u hu

end World

end WiredTiger
