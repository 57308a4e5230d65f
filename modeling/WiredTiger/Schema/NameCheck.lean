/-
# Names of objects (`schema/schema_util.c`)

Applications may not use names that begin with `WiredTiger`, nor names with characters that group in
configuration strings.  The check leaves out up to two parts of a URI that end in a colon, and looks
at what is left; only if two were left out, the beginning of the name is looked at.
-/
import WiredTiger.Meta.CkptList

namespace WiredTiger

open List

variable {skip : Bool} {t r name : List Char} {n : ℕ}

/-- `__wt_str_name_check`. -/
def wtStrNameCheck (str : List Char) : Except NameError Unit :=
  let (rest, skip) := skipUri 2 str
  strNameCheck rest skip

/-- The name has the prefix that is reserved. -/
def ReservedName (name : List Char) : Prop := "WiredTiger".toList <+: name

/-- The name has a character that is used in configuration strings. -/
def GroupingName (name : List Char) : Prop := ∃ c ∈ name, c ∈ "\x7b\x7d,:[]\\\"'".toList

/-- The name is one that applications may not use. -/
def NameRefused (name : List Char) : Prop := ReservedName name ∨ GroupingName name

lemma strNameCheck_ok_iff :
    strNameCheck name skip = .ok () ↔
      (skip = false → ¬ ReservedName name) ∧ ¬ GroupingName name := by
  rw [ReservedName, GroupingName, ← isPrefixOf_iff_prefix]
  unfold strNameCheck
  split_ifs with h1 h2 <;> simp_all

lemma skipUri_colon (ht : ':' ∉ t) : skipUri (n + 1) (t ++ ':' :: r) = skipUri n r := by
  have hdrop : (t ++ ':' :: r).dropWhile (· ≠ ':') = ':' :: r := by
    rw [dropWhile_append_of_pos fun c hc => by simpa using fun h : c = ':' => ht (h ▸ hc)]
    simp
  rw [skipUri, hdrop]

lemma skipUri_name (hname : ':' ∉ name) : skipUri (n + 1) name = (name, true) := by
  have hdrop : name.dropWhile (· ≠ ':') = [] :=
    dropWhile_eq_nil_iff.mpr fun c hc => by simpa using fun h : c = ':' => hname (h ▸ hc)
  rw [skipUri, hdrop]

/-- **The reserved names are protected** only where two parts are left out, and then not in the
second of these. -/
theorem wtStrNameCheck_protects_iff (type : List Char) (htype : ':' ∉ type) :
    (∀ name, ':' ∉ name →
      ((wtStrNameCheck (type ++ ':' :: name) = .ok () ↔ ¬ NameRefused name) ↔
        (ReservedName name → GroupingName name))) ∧
    ∀ table name, ':' ∉ table →
      ((wtStrNameCheck (type ++ ':' :: (table ++ ':' :: name)) = .ok () ↔
          ¬ NameRefused table ∧ ¬ NameRefused name) ↔
        (NameRefused table → NameRefused name)) := by
  unfold NameRefused
  constructor
  · intro name hname
    rw [wtStrNameCheck, skipUri_colon htype, skipUri_name hname]
    simp only [strNameCheck_ok_iff]
    tauto
  · intro table name htable
    rw [wtStrNameCheck, skipUri_colon htype, skipUri_colon htable, skipUri]
    simp only [strNameCheck_ok_iff]
    tauto

theorem wtStrNameCheck_protects_file :
    (wtStrNameCheck ("file".toList ++ ':' :: "a".toList) = .ok () ↔ ¬ NameRefused "a".toList) ↔
      (ReservedName "a".toList → GroupingName "a".toList) :=
  (wtStrNameCheck_protects_iff "file".toList (by decide)).1 "a".toList (by decide)

/-- The metadata file is accepted. -/
theorem wtStrNameCheck_metadata :
    wtStrNameCheck "file:WiredTiger.wt".toList = .ok () ∧ NameRefused "WiredTiger.wt".toList :=
  ⟨by decide, .inl ⟨".wt".toList, by decide⟩⟩

end WiredTiger
