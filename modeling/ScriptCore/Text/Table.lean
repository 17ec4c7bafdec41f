import Std.Data.TreeMap.Lemmas
import ScriptCore.Text

/-! # Tables keyed by text

A table finds the entry of a text by a fingerprint of its units, a 64-bit number that two texts seldom
share. Texts with the same fingerprint share a bucket, in which they are compared.

* `find?_insert`, `find?_erase`: what entering and removing a text do to the entries of all texts. -/

namespace ScriptCore

/-- A number that depends on all units of a text. -/
def Text.fingerprint (t : Text) : UInt64 :=
  t.units.foldl (fun h u => h * 1099511628211 + u.toUInt64) 14695981039346656037

/-- Entries for texts. -/
structure TextTable (α : Type) where
  /-- The entries of the texts with a given fingerprint. -/
  buckets : Std.TreeMap UInt64 (List (Text × α))

namespace TextTable

variable {α : Type}

def empty : TextTable α := ⟨∅⟩

/-- The entries with the fingerprint of `t`. -/
def bucket (table : TextTable α) (t : Text) : List (Text × α) :=
  table.buckets.getD t.fingerprint []

/-- The entry of a text. -/
def find? (table : TextTable α) (t : Text) : Option α := (table.bucket t).lookup t

/-- Enters a text. -/
def insert (table : TextTable α) (t : Text) (a : α) : TextTable α :=
  ⟨table.buckets.insert t.fingerprint ((t, a) :: table.bucket t)⟩

/-- Removes a text. A bucket that is left empty goes too. -/
def erase (table : TextTable α) (t : Text) : TextTable α :=
  match (table.bucket t).filter (·.1 ≠ t) with
  | [] => ⟨table.buckets.erase t.fingerprint⟩
  | rest => ⟨table.buckets.insert t.fingerprint rest⟩

theorem bucket_insert (table : TextTable α) (t u : Text) (a : α) :
    (table.insert t a).bucket u =
      if t.fingerprint = u.fingerprint then (t, a) :: table.bucket t else table.bucket u := by
  unfold insert bucket
  simp only [Std.TreeMap.getD_insert, Std.LawfulEqCmp.compare_eq_iff_eq]

theorem bucket_erase (table : TextTable α) (t u : Text) :
    (table.erase t).bucket u =
      if t.fingerprint = u.fingerprint then (table.bucket t).filter (·.1 ≠ t)
      else table.bucket u := by
  unfold erase
  split
  · next h =>
    unfold bucket at h ⊢
    simp only [Std.TreeMap.getD_erase, Std.LawfulEqCmp.compare_eq_iff_eq, h]
  · unfold bucket
    simp only [Std.TreeMap.getD_insert, Std.LawfulEqCmp.compare_eq_iff_eq]

theorem lookup_filter_ne (t u : Text) (entries : List (Text × α)) :
    (entries.filter (·.1 ≠ t)).lookup u = if t = u then none else entries.lookup u := by
  induction entries with
  | nil => simp
  | cons e entries ih =>
    obtain ⟨v, a⟩ := e
    by_cases hv : v = t
    · rw [List.filter_cons_of_neg (by simpa using hv), ih, List.lookup_cons]
      by_cases hu : t = u
      · rw [if_pos hu, if_pos hu]
      · rw [if_neg hu, if_neg hu, hv, beq_false_of_ne (Ne.symm hu)]
    · rw [List.filter_cons_of_pos (by simpa using hv), List.lookup_cons, List.lookup_cons, ih]
      by_cases hu : u = v
      · subst hu; simp [Ne.symm hv]
      · rw [beq_false_of_ne hu]

theorem find?_insert (table : TextTable α) (t u : Text) (a : α) :
    (table.insert t a).find? u = if t = u then some a else table.find? u := by
  rw [find?, bucket_insert]
  by_cases h : t = u
  · subst h; simp
  · rw [if_neg h]
    split
    · next hf =>
      rw [List.lookup_cons, beq_false_of_ne (Ne.symm h), find?, bucket, bucket, hf]
    · rfl

theorem find?_erase (table : TextTable α) (t u : Text) :
    (table.erase t).find? u = if t = u then none else table.find? u := by
  rw [find?, bucket_erase]
  split
  · next hf => rw [lookup_filter_ne, find?, bucket, bucket, hf]
  · next hf =>
    have h : t ≠ u := fun h => hf (congrArg Text.fingerprint h)
    rw [if_neg h]; rfl

end TextTable

end ScriptCore
