import Mathlib.Data.List.Forall2
import Mathlib.Order.Basic
import ScriptCore.Machine

/-! # Data that agree up to a renaming of handles

Two runs that differ only in when garbage is collected allocate in different slots. A `Renaming` pairs
the handles of one with those of the other, kind by kind, and data of the two are *alike* when they
agree but for handles, and the handles in them are paired. `Renamable` is the class of types for which
this makes sense; `refs` lists the references in a datum, each with the kind of block it must name.

* `Alike.mono`: data stay alike when pairs are added.
* `transfer`: only pairs of references that occur in the data matter, which is what a collection needs.
* `paired`: the references of data that are alike are paired one by one. -/

namespace ScriptCore

/-! ### References and renamings -/

/-- What a reference must name. -/
inductive Kind where
  | string
  | object
  | scope
  | cell
deriving DecidableEq, Inhabited, Repr

/-- A handle and what it must name. -/
structure Ref where
  kind : Kind
  handle : Handle
deriving DecidableEq, Inhabited, Repr

/-- Pairs of handles, one of each run, kind by kind. -/
structure Renaming where
  rel : Kind → Handle → Handle → Prop

namespace Renaming

/-- Ordered by the pairs they have. -/
instance : Preorder Renaming where
  le ρ ρ' := ∀ k x y, ρ.rel k x y → ρ'.rel k x y
  le_refl _ _ _ _ h := h
  le_trans _ _ _ h h' k x y hx := h' k x y (h k x y hx)

/-- No pairs. -/
def none : Renaming := ⟨fun _ _ _ => False⟩

/-- One more pair. -/
def add (ρ : Renaming) (k : Kind) (x y : Handle) : Renaming :=
  ⟨fun k' x' y' => ρ.rel k' x' y' ∨ k' = k ∧ x' = x ∧ y' = y⟩

theorem le_add (ρ : Renaming) (k : Kind) (x y : Handle) : ρ ≤ ρ.add k x y :=
  fun _ _ _ h => Or.inl h

theorem add_self (ρ : Renaming) (k : Kind) (x y : Handle) : (ρ.add k x y).rel k x y :=
  Or.inr ⟨rfl, rfl, rfl⟩

/-- The references are of one kind and paired. -/
def Pairs (ρ : Renaming) (r s : Ref) : Prop := r.kind = s.kind ∧ ρ.rel r.kind r.handle s.handle

/-- The pairs whose two sides satisfy `P` and `Q`. -/
def restrict (ρ : Renaming) (P Q : Handle → Prop) : Renaming :=
  ⟨fun k x y => ρ.rel k x y ∧ P x ∧ Q y⟩

end Renaming

/-! ### Types with references -/

/-- A type whose data hold references. -/
class Renamable (α : Type) where
  /-- The references in a datum. -/
  refs : α → List Ref
  /-- Two data agree but for handles, and the handles are paired. -/
  Alike : Renaming → α → α → Prop
  /-- Only pairs of references that occur matter. -/
  transfer : ∀ {ρ ρ' : Renaming} {a b : α}, Alike ρ a b →
    (∀ k x y, ⟨k, x⟩ ∈ refs a → ⟨k, y⟩ ∈ refs b → ρ.rel k x y → ρ'.rel k x y) → Alike ρ' a b
  /-- The references are paired one by one. -/
  paired : ∀ {ρ : Renaming} {a b : α}, Alike ρ a b → List.Forall₂ ρ.Pairs (refs a) (refs b)

export Renamable (refs Alike)

variable {α β : Type} {ρ ρ' : Renaming}

/-- **Data stay alike when pairs are added.** -/
theorem Renamable.Alike.mono [Renamable α] {a b : α} (h : Alike ρ a b) (hρ : ρ ≤ ρ') :
    Alike ρ' a b :=
  transfer h fun k x y _ _ => hρ k x y

/-- A reference on the left is paired. -/
theorem Renamable.Alike.paired_left [Renamable α] {a b : α} (h : Alike ρ a b) {r : Ref}
    (hr : r ∈ refs a) : ∃ y, ρ.rel r.kind r.handle y ∧ ⟨r.kind, y⟩ ∈ refs b := by
  have hp := paired h
  generalize refs a = as, refs b = bs at hp hr
  induction hp with
  | nil => cases hr
  | @cons x y as bs hxy _ ih =>
    rcases List.mem_cons.mp hr with rfl | hr
    · exact ⟨y.handle, hxy.2, by rw [hxy.1]; exact List.mem_cons_self ..⟩
    · obtain ⟨z, hz, hmem⟩ := ih hr
      exact ⟨z, hz, List.mem_cons_of_mem _ hmem⟩

/-- A reference on the right is paired. -/
theorem Renamable.Alike.paired_right [Renamable α] {a b : α} (h : Alike ρ a b) {r : Ref}
    (hr : r ∈ refs b) : ∃ x, ρ.rel r.kind x r.handle ∧ ⟨r.kind, x⟩ ∈ refs a := by
  have hp := paired h
  generalize refs a = as, refs b = bs at hp hr
  induction hp with
  | nil => cases hr
  | @cons x y as bs hxy _ ih =>
    rcases List.mem_cons.mp hr with rfl | hr
    · exact ⟨x.handle, hxy.1 ▸ hxy.2, by rw [← hxy.1]; exact List.mem_cons_self ..⟩
    · obtain ⟨z, hz, hmem⟩ := ih hr
      exact ⟨z, hz, List.mem_cons_of_mem _ hmem⟩

namespace Renamable

/-- Data without references are alike when they are equal. -/
@[reducible] def plain : Renamable α where
  refs _ := []
  Alike _ a b := a = b
  transfer h _ := h
  paired _ := .nil

/-- Data that are alike when what `f` shows of them is. -/
@[reducible] def via [Renamable β] (f : α → β) : Renamable α where
  refs a := refs (f a)
  Alike ρ a b := Alike ρ (f a) (f b)
  transfer h hr := transfer h hr
  paired h := paired h

/-- One reference. -/
@[reducible] def ofRef (k : Kind) (f : α → Handle) : Renamable α where
  refs a := [⟨k, f a⟩]
  Alike ρ a b := ρ.rel k (f a) (f b)
  transfer h hr := hr _ _ _ (List.mem_singleton_self _) (List.mem_singleton_self _) h
  paired h := .cons ⟨rfl, h⟩ .nil

end Renamable

open Renamable (plain via ofRef transfer paired)

/-- A datum of which nothing but its equality matters. -/
structure Plain (α : Type) where
  val : α

instance : Renamable (Plain α) where
  refs _ := []
  Alike _ a b := a.val = b.val
  transfer h _ := h
  paired _ := .nil

instance : Renamable Unit := plain
instance : Renamable Bool := plain
instance : Renamable Float := plain
instance : Renamable UInt32 := plain
instance : Renamable String := plain
instance : Renamable Text := plain
instance : Renamable ClassTag := plain

instance : Renamable StringRef := ofRef .string StringRef.handle
instance : Renamable ObjectRef := ofRef .object ObjectRef.handle
instance : Renamable ScopeRef := ofRef .scope ScopeRef.handle
instance : Renamable CellRef := ofRef .cell CellRef.handle

/-! ### Pairs, options and lists -/

instance [Renamable α] [Renamable β] : Renamable (α × β) where
  refs p := refs p.1 ++ refs p.2
  Alike ρ p q := Alike ρ p.1 q.1 ∧ Alike ρ p.2 q.2
  transfer h hr :=
    ⟨transfer h.1 fun k x y hx hy => hr k x y (List.mem_append_left _ hx) (List.mem_append_left _ hy),
      transfer h.2 fun k x y hx hy =>
        hr k x y (List.mem_append_right _ hx) (List.mem_append_right _ hy)⟩
  paired h := List.rel_append (paired h.1) (paired h.2)

/-- Both are missing, or both are there and alike. -/
inductive OptionAlike [Renamable α] (ρ : Renaming) : Option α → Option α → Prop where
  | none : OptionAlike ρ none none
  | some {a b : α} (h : Alike ρ a b) : OptionAlike ρ (some a) (some b)

instance [Renamable α] : Renamable (Option α) where
  refs
    | some a => refs a
    | none => []
  Alike := OptionAlike
  transfer h hr := by
    cases h with
    | none => exact .none
    | some h => exact .some (transfer h hr)
  paired h := by
    cases h with
    | none => exact .nil
    | some h => exact paired h

/-- Equally long, and alike in each place. -/
inductive ListAlike [Renamable α] (ρ : Renaming) : List α → List α → Prop where
  | nil : ListAlike ρ [] []
  | cons {a b : α} {as bs : List α} (h : Alike ρ a b) (hs : ListAlike ρ as bs) :
      ListAlike ρ (a :: as) (b :: bs)

theorem ListAlike.transfer [Renamable α] : ∀ {as bs : List α}, ListAlike ρ as bs →
    (∀ k x y, ⟨k, x⟩ ∈ as.flatMap refs → ⟨k, y⟩ ∈ bs.flatMap refs → ρ.rel k x y → ρ'.rel k x y) →
    ListAlike ρ' as bs
  | _, _, .nil, _ => .nil
  | _, _, .cons h hs, hr =>
    .cons
      (Renamable.transfer h fun k x y hx hy =>
        hr k x y (by simp [List.flatMap_cons, hx]) (by simp [List.flatMap_cons, hy]))
      (hs.transfer fun k x y hx hy => hr k x y (by
        rw [List.flatMap_cons]; exact List.mem_append_right _ hx) (by
        rw [List.flatMap_cons]; exact List.mem_append_right _ hy))

theorem ListAlike.paired [Renamable α] : ∀ {as bs : List α}, ListAlike ρ as bs →
    List.Forall₂ ρ.Pairs (as.flatMap refs) (bs.flatMap refs)
  | _, _, .nil => .nil
  | _, _, .cons h hs => by
    rw [List.flatMap_cons, List.flatMap_cons]
    exact List.rel_append (Renamable.paired h) hs.paired

instance [Renamable α] : Renamable (List α) where
  refs as := as.flatMap refs
  Alike := ListAlike
  transfer h hr := h.transfer hr
  paired h := h.paired

/-! ### References of compound data -/

@[simp] theorem refs_plain (a : Plain α) : refs a = [] := rfl

@[simp] theorem refs_prod [Renamable α] [Renamable β] (a : α) (b : β) :
    refs (a, b) = refs a ++ refs b := rfl

@[simp] theorem refs_none [Renamable α] : refs (none : Option α) = [] := rfl

@[simp] theorem refs_some [Renamable α] (a : α) : refs (some a) = refs a := rfl

@[simp] theorem refs_list [Renamable α] (as : List α) : refs as = as.flatMap refs := rfl

@[simp] theorem refs_stringRef (s : StringRef) : refs s = [⟨.string, s.handle⟩] := rfl

@[simp] theorem refs_objectRef (o : ObjectRef) : refs o = [⟨.object, o.handle⟩] := rfl

@[simp] theorem refs_scopeRef (s : ScopeRef) : refs s = [⟨.scope, s.handle⟩] := rfl

@[simp] theorem refs_cellRef (c : CellRef) : refs c = [⟨.cell, c.handle⟩] := rfl

/-! ### Lists and options that are alike -/

section Lists

variable [Renamable α] {as bs as' bs' : List α}

theorem alike_append (h : Alike ρ as bs) (h' : Alike ρ as' bs') :
    Alike ρ (as ++ as') (bs ++ bs') := by
  induction h with
  | nil => exact h'
  | cons h _ ih => exact .cons h ih

theorem Renamable.Alike.length_eq (h : Alike ρ as bs) : as.length = bs.length := by
  induction h with
  | nil => rfl
  | cons _ _ ih => rw [List.length_cons, List.length_cons, ih]

theorem alike_getElem? (h : Alike ρ as bs) : ∀ i : Nat, Alike ρ as[i]? bs[i]? := by
  induction h with
  | nil => exact fun i => .none
  | cons h _ ih =>
    intro i
    cases i with
    | zero => exact .some h
    | succ i => exact ih i

theorem alike_tail (h : Alike ρ as bs) : Alike ρ as.tail bs.tail := by
  cases h with
  | nil => exact .nil
  | cons _ hs => exact hs

theorem alike_drop (h : Alike ρ as bs) : ∀ n : Nat, Alike ρ (as.drop n) (bs.drop n) := by
  induction h with
  | nil => intro n; rw [List.drop_nil]; exact .nil
  | cons h hs ih =>
    intro n
    cases n with
    | zero => exact .cons h hs
    | succ n => exact ih n

theorem alike_reverse (h : Alike ρ as bs) : Alike ρ as.reverse bs.reverse := by
  induction h with
  | nil => exact .nil
  | cons h _ ih =>
    rw [List.reverse_cons, List.reverse_cons]
    exact alike_append ih (.cons h .nil)

theorem alike_getLast? (h : Alike ρ as bs) : Alike ρ as.getLast? bs.getLast? := by
  rw [← List.head?_reverse, ← List.head?_reverse]
  generalize as.reverse = l, bs.reverse = l', alike_reverse h = h
  cases h with
  | nil => exact .none
  | cons h _ => exact .some h

theorem alike_replicate {a b : α} (h : Alike ρ a b) : ∀ n : Nat,
    Alike ρ (List.replicate n a) (List.replicate n b)
  | 0 => .nil
  | n + 1 => .cons h (alike_replicate h n)

theorem alike_getD {a b : Option α} {c d : α} (h : Alike ρ a b) (h' : Alike ρ c d) :
    Alike ρ (a.getD c) (b.getD d) := by
  cases h with
  | none => exact h'
  | some h => exact h

theorem alike_or {a b c d : Option α} (h : Alike ρ a b) (h' : Alike ρ c d) :
    Alike ρ (a.or c) (b.or d) := by
  cases h with
  | none => exact h'
  | some h => exact .some h

end Lists

end ScriptCore
