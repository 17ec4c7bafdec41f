import ScriptCore.Proofs.Object.Rejections
import ScriptCore.Proofs.Property.Spelling
import ScriptCore.Proofs.Renaming.Heap

/-! # Where names are bound

A name is bound in the innermost scope whose binding object has it as a property of its own. What that object inherits
plays no part. So what a name is bound to depends on the scopes and on the own properties of their objects, and changes
only where a cell is bound to a key anew.

* `Heap.Finds`: what the walk through the scopes finds, or that it finds nothing.
* `Chain.exists_finds`, `Finds.binding`: **the walk ends**, and `Heap.binding` is that walk.
* `frames_of`: **binding one cell leaves every name as it was** that is not bound to the cell afterwards.
* `keyOfName_ends`: **a name becomes a key**, which makes no difference to any binding. -/

namespace ScriptCore

namespace Heap

variable {h h' : Heap} {key : PropertyKey} {s : ScopeRef} {sc : Scope} {o : ObjectRef} {obj : Object} {c : CellRef}
  {d : Descriptor} {l : List Handle} {name : String} {b b' : Block} {id : Handle}
  {found : Option (ObjectRef × CellRef)}

/-! ### The innermost binding -/

/-- **What the key is bound to from the scope `s`**: of the binding objects from there outwards, the first that has the
key as an own property, and the cell; nothing if none has. -/
inductive Finds (h : Heap) (key : PropertyKey) : ScopeRef → Option (ObjectRef × CellRef) → Prop where
  | here {s : ScopeRef} {sc : Scope} {c : CellRef} (hs : h.scope s = .ok sc)
      (hown : h.ownCell sc.object key = .ok (some c)) : Finds h key s (some (sc.object, c))
  | outermost {s : ScopeRef} {sc : Scope} (hs : h.scope s = .ok sc) (hnone : h.ownCell sc.object key = .ok none)
      (hparent : sc.parent = none) : Finds h key s none
  | outer {s p : ScopeRef} {sc : Scope} {found : Option (ObjectRef × CellRef)} (hs : h.scope s = .ok sc)
      (hnone : h.ownCell sc.object key = .ok none) (hparent : sc.parent = some p) (rest : Finds h key p found) :
      Finds h key s found

/-- The binding object of the outermost scope from `s` outwards. -/
inductive Outermost (h : Heap) : ScopeRef → ObjectRef → Prop where
  | here {s : ScopeRef} {sc : Scope} (hs : h.scope s = .ok sc) (hparent : sc.parent = none) : Outermost h s sc.object
  | outer {s p : ScopeRef} {sc : Scope} {o : ObjectRef} (hs : h.scope s = .ok sc) (hparent : sc.parent = some p)
      (rest : Outermost h p o) : Outermost h s o

theorem Finds.exists_scope (hf : h.Finds key s found) : ∃ sc, h.scope s = .ok sc := by
  cases hf with
  | here hs | outermost hs | outer hs => exact ⟨_, hs⟩

theorem Finds.ownCell (hf : h.Finds key s found) :
    ∀ {o c}, found = some (o, c) → h.ownCell o key = .ok (some c) := by
  induction hf with
  | here _ hown => rintro _ _ ⟨⟩; exact hown
  | outermost => exact nofun
  | outer _ _ _ _ ih => exact ih

namespace Chain

theorem cases_some (hc : Chain h (some s) l) :
    ∃ sc l', h.scope s = .ok sc ∧ l = s.handle :: l' ∧ Chain h sc.parent l' := by
  cases hc with
  | cons hb rest => exact ⟨_, _, scope_eq_ok.mpr hb, rfl, rest⟩

end Chain

/-- The walk from `s` ends after it went through `n` scopes and looked at one more. -/
inductive Ends (h : Heap) (key : PropertyKey) : Nat → ScopeRef → Prop where
  | here {s : ScopeRef} {sc : Scope} (hs : h.scope s = .ok sc)
      (hend : h.ownCell sc.object key ≠ .ok none ∨ sc.parent = none) : Ends h key 0 s
  | outer {s p : ScopeRef} {sc : Scope} {n : Nat} (hs : h.scope s = .ok sc) (hnone : h.ownCell sc.object key = .ok none)
      (hparent : sc.parent = some p) (rest : Ends h key n p) : Ends h key (n + 1) s

namespace Ends

variable {n n' : Nat}

/-- From each scope the walk is of one length. -/
theorem eq (he : h.Ends key n s) (he' : h.Ends key n' s) : n = n' := by
  induction he generalizing n' with
  | here hs hend =>
    cases he' with
    | here => rfl
    | outer hs' hnone hparent _ =>
      cases hs.symm.trans hs'
      rcases hend with hend | hend
      · exact absurd hnone hend
      · cases hend.symm.trans hparent
  | outer hs hnone hparent _ ih =>
    cases he' with
    | here hs' hend =>
      cases hs.symm.trans hs'
      rcases hend with hend | hend
      · exact absurd hnone hend
      · cases hend.symm.trans hparent
    | outer hs' _ hparent' rest =>
      cases hs.symm.trans hs'
      cases hparent.symm.trans hparent'
      rw [ih rest]

theorem live (he : h.Ends key n s) : (h.block? s.handle).isSome = true := by
  cases he with
  | here hs => exact Option.isSome_of_eq_some (scope_eq_ok.mp hs)
  | outer hs => exact Option.isSome_of_eq_some (scope_eq_ok.mp hs)

/-- Every shorter walk is one from a scope on the way. -/
theorem exists_shorter (he : h.Ends key n s) : ∀ i ≤ n, ∃ p, h.Ends key i p := by
  induction he with
  | here hs hend =>
    intro i hi
    obtain rfl := Nat.le_zero.mp hi
    exact ⟨_, .here hs hend⟩
  | outer hs hnone hparent rest ih =>
    intro i hi
    rcases Nat.le_succ_iff.mp hi with hi | rfl
    · exact ih i hi
    · exact ⟨_, .outer hs hnone hparent rest⟩

/-- **A walk visits no scope twice**, so it goes through no more scopes than there are slots. -/
theorem lt_size (he : h.Ends key n s) : n < h.slots.size := by
  have hways : ∀ i : Fin (n + 1), ∃ p, h.Ends key i p := fun i => he.exists_shorter i (Nat.le_of_lt_succ i.isLt)
  choose p hp using hways
  have hinj : Function.Injective fun i => (⟨(p i).handle.index, index_lt_of_resolves (hp i).live⟩ : Fin h.slots.size) :=
    fun i j hij => by
      have hhandle : (p i).handle = (p j).handle := eq_of_index_eq (hp i).live (hp j).live (Fin.mk.inj hij)
      have hscope : p i = p j := congrArg ScopeRef.mk hhandle
      exact Fin.ext ((hp i).eq (hscope ▸ hp j))
  simpa using Fintype.card_le_of_injective _ hinj

end Ends

theorem Finds.exists_ends (hf : h.Finds key s found) : ∃ n, h.Ends key n s ∧
    ∀ bound, n < bound → h.bindingWithin key bound (some s) = .ok (found.map Prod.fst) := by
  induction hf with
  | here hs hown =>
    refine ⟨0, .here hs (.inl (by rw [hown]; exact nofun)), fun bound hlt => ?_⟩
    obtain ⟨bound, rfl⟩ := Nat.exists_eq_succ_of_ne_zero (Nat.ne_of_gt hlt)
    rw [Heap.bindingWithin, hs]
    dsimp only
    rw [hown]
    rfl
  | outermost hs hnone hparent =>
    refine ⟨0, .here hs (.inr hparent), fun bound hlt => ?_⟩
    obtain ⟨bound, rfl⟩ := Nat.exists_eq_succ_of_ne_zero (Nat.ne_of_gt hlt)
    rw [Heap.bindingWithin, hs]
    dsimp only
    rw [hnone, hparent]
    cases bound <;> rfl
  | outer hs hnone hparent _ ih =>
    obtain ⟨n, he, hwithin⟩ := ih
    refine ⟨n + 1, .outer hs hnone hparent he, fun bound hlt => ?_⟩
    obtain ⟨bound, rfl⟩ := Nat.exists_eq_succ_of_ne_zero (Nat.ne_of_gt (Nat.zero_lt_of_lt hlt))
    rw [Heap.bindingWithin, hs]
    dsimp only
    rw [hnone, hparent]
    exact hwithin bound (Nat.lt_of_succ_lt_succ hlt)

/-- **The walk of the heap is that walk**, as it may take as many steps as there are slots. -/
theorem Finds.binding (hf : h.Finds key s found) : h.binding s key = .ok (found.map Prod.fst) := by
  obtain ⟨n, he, hwithin⟩ := hf.exists_ends
  exact hwithin _ (Nat.lt_succ_of_lt he.lt_size)

theorem Outermost.outermostWithin (ho : h.Outermost s o) : ∀ {l : List Handle} {bound : Nat},
    Chain h (some s) l → l.length ≤ bound → h.outermostWithin bound s = .ok o := by
  induction ho with
  | here hs hparent =>
    intro l bound hc hle
    obtain ⟨_, l', -, rfl, -⟩ := hc.cases_some
    cases bound with
    | zero => exact absurd hle (Nat.not_succ_le_zero _)
    | succ bound =>
      rw [Heap.outermostWithin, hs]
      dsimp only
      rw [hparent]
  | outer hs hparent _ ih =>
    intro l bound hc hle
    obtain ⟨_, l', hs', rfl, rest⟩ := hc.cases_some
    cases hs.symm.trans hs'
    cases bound with
    | zero => exact absurd hle (Nat.not_succ_le_zero _)
    | succ bound =>
      rw [Heap.outermostWithin, hs]
      dsimp only
      rw [hparent]
      exact ih (hparent ▸ rest) (Nat.le_of_succ_le_succ hle)

theorem Outermost.outermostObject (ho : h.Outermost s o) (hc : Chain h (some s) l) :
    h.outermostObject s = .ok o :=
  ho.outermostWithin hc (Nat.le_succ_of_le hc.length_le)

/-! ### What changes make of it -/

/-- **The key reads in `h'` as it does in `h`** from the scope `s`: it is bound to the same cell, which holds the same,
or is bound to none. -/
structure ReadsAlike (h h' : Heap) (key : PropertyKey) (s : ScopeRef) : Prop where
  finds : ∀ found, h'.Finds key s found ↔ h.Finds key s found
  cell : ∀ o c, h'.Finds key s (some (o, c)) → h'.cell c = h.cell c

/-- From every scope every key reads in `h'` as it does in `h`, unless it is bound to `c` in `h'`. -/
def Frames (h : Heap) (c : CellRef) (h' : Heap) : Prop :=
  ∀ key s, (∃ o, h'.Finds key s (some (o, c))) ∨ h.ReadsAlike h' key s

theorem Finds.mono (hf : h.Finds key s found) (hscope : ∀ s, h'.scope s = h.scope s)
    (hown : ∀ o k, h'.ownCell o k = h.ownCell o k) : h'.Finds key s found := by
  induction hf with
  | here hs hcell => exact .here ((hscope _).trans hs) ((hown _ _).trans hcell)
  | outermost hs hnone hparent => exact .outermost ((hscope _).trans hs) ((hown _ _).trans hnone) hparent
  | outer hs hnone hparent _ ih => exact .outer ((hscope _).trans hs) ((hown _ _).trans hnone) hparent ih

/-- **Binding one cell leaves every key as it was** that is not bound to the cell afterwards. -/
theorem frames_of (hscope : ∀ s, h'.scope s = h.scope s)
    (hown : ∀ o k, h'.ownCell o k = h.ownCell o k ∨ h'.ownCell o k = .ok (some c))
    (hcell : ∀ x ≠ c, h'.cell x = h.cell x) : h.Frames c h' := by
  intro key s
  by_cases hbound : ∃ o, h'.Finds key s (some (o, c))
  · exact .inl hbound
  refine .inr ⟨fun found => ⟨fun hf => ?_, fun hf => ?_⟩, fun o x hf => hcell x fun hx => hbound ⟨o, hx ▸ hf⟩⟩
  · -- Whatever is not bound to the cell was there before.
    induction hf with
    | @here s sc x hs hx =>
      rcases hown sc.object key with hsame | hnew
      · exact .here ((hscope s).symm.trans hs) (hsame.symm.trans hx)
      · cases hx.symm.trans hnew
        exact absurd ⟨_, .here hs hx⟩ hbound
    | @outermost s sc hs hnone hparent =>
      rcases hown sc.object key with hsame | hnew
      · exact .outermost ((hscope s).symm.trans hs) (hsame.symm.trans hnone) hparent
      · cases hnone.symm.trans hnew
    | @outer s p sc found hs hnone hparent _ ih =>
      rcases hown sc.object key with hsame | hnew
      · exact .outer ((hscope s).symm.trans hs) (hsame.symm.trans hnone) hparent
          (ih fun ⟨o, hf⟩ => hbound ⟨o, .outer hs hnone hparent hf⟩)
      · cases hnone.symm.trans hnew
  · -- Whatever was there before is there still, as the cell is not bound further inside.
    induction hf with
    | @here s sc x hs hx =>
      rcases hown sc.object key with hsame | hnew
      · exact .here ((hscope s).trans hs) (hsame.trans hx)
      · exact absurd ⟨_, .here ((hscope s).trans hs) hnew⟩ hbound
    | @outermost s sc hs hnone hparent =>
      rcases hown sc.object key with hsame | hnew
      · exact .outermost ((hscope s).trans hs) (hsame.trans hnone) hparent
      · exact absurd ⟨_, .here ((hscope s).trans hs) hnew⟩ hbound
    | @outer s p sc found hs hnone hparent _ ih =>
      rcases hown sc.object key with hsame | hnew
      · exact .outer ((hscope s).trans hs) (hsame.trans hnone) hparent
          (ih fun ⟨o, hf⟩ => hbound ⟨o, .outer ((hscope s).trans hs) (hsame.trans hnone) hparent hf⟩)
      · exact absurd ⟨_, .here ((hscope s).trans hs) hnew⟩ hbound

/-! ### What filling and overwriting a slot leave -/

/-- `h'` differs from `h` at the handle `id` only, which names the block `b` there. -/
def SameBut (h : Heap) (id : Handle) (b : Block) (h' : Heap) : Prop :=
  ∀ x, h'.block? x = if x = id then some b else h.block? x

namespace SameBut

variable (hsame : h.SameBut id b h')
include hsame

theorem scope (hid : ∀ sc, h.block? id ≠ some (.scope sc)) (hb : ∀ sc, b ≠ .scope sc) (s : ScopeRef) :
    h'.scope s = h.scope s := by
  unfold Heap.scope
  rw [hsame]
  split_ifs with hs
  · rw [hs]
    split
    · next sc hsc => exact absurd (Option.some.inj hsc) (hb sc)
    · rfl
  · rfl

theorem text (hid : ∀ t, h.block? id ≠ some (.string t)) (hb : ∀ t, b ≠ .string t) (t : StringRef) :
    h'.text t = h.text t := by
  unfold Heap.text
  rw [hsame]
  split_ifs with ht
  · rw [ht]
    split
    · next t hb' => exact absurd (Option.some.inj hb') (hb t)
    · rfl
  · rfl

theorem object (hid : ∀ obj, h.block? id ≠ some (.object obj)) (hb : ∀ obj, b ≠ .object obj) (o : ObjectRef) :
    h'.object o = h.object o := by
  unfold Heap.object
  rw [hsame]
  split_ifs with ho
  · rw [ho]
    split
    · next obj hb' => exact absurd (Option.some.inj hb') (hb obj)
    · rfl
  · rfl

theorem cell (hid : ∀ d, h.block? id ≠ some (.cell d)) (hb : ∀ d, b ≠ .cell d) (c : CellRef) :
    h'.cell c = h.cell c := by
  unfold Heap.cell
  rw [hsame]
  split_ifs with hc
  · rw [hc]
    split
    · next d hb' => exact absurd (Option.some.inj hb') (hb d)
    · rfl
  · rfl

end SameBut

/-- **Overwriting a cell** leaves scopes and texts, and the heap is valid. -/
theorem put_cell (hc : h.cell c = .ok d) (d' : Descriptor) :
    (∀ s, (h.put c.handle (.cell d')).scope s = h.scope s) ∧ (∀ t, (h.put c.handle (.cell d')).text t = h.text t) ∧
      (h.Valid → (h.put c.handle (.cell d')).Valid) := by
  have hblock := cell_eq_ok.mp hc
  have hsame : h.SameBut c.handle (.cell d') (h.put c.handle (.cell d')) :=
    block?_put (Option.isSome_of_eq_some hblock) _
  refine ⟨hsame.scope ?_ ?_, hsame.text ?_ ?_, fun hv => hv.put hblock ?_ ?_⟩
  all_goals
    intro _ hb
    first | cases hb | cases hblock.symm.trans hb

/-- **Overwriting an object** leaves scopes and texts, and the heap is valid. -/
theorem put_object (ho : h.object o = .ok obj) (obj' : Object) :
    (∀ s, (h.put o.handle (.object obj')).scope s = h.scope s) ∧
      (∀ t, (h.put o.handle (.object obj')).text t = h.text t) ∧
      (h.Valid → (h.put o.handle (.object obj')).Valid) := by
  have hblock := object_eq_ok.mp ho
  have hsame : h.SameBut o.handle (.object obj') (h.put o.handle (.object obj')) :=
    block?_put (Option.isSome_of_eq_some hblock) _
  refine ⟨hsame.scope ?_ ?_, hsame.text ?_ ?_, fun hv => hv.put hblock ?_ ?_⟩
  all_goals
    intro _ hb
    first | cases hb | cases hblock.symm.trans hb

/-- **Overwriting a scope** leaves objects, cells and texts. -/
theorem put_scope (hs : h.scope s = .ok sc) (sc' : Scope) :
    (∀ o, (h.put s.handle (.scope sc')).object o = h.object o) ∧ (∀ c, (h.put s.handle (.scope sc')).cell c = h.cell c) ∧
      ∀ t, (h.put s.handle (.scope sc')).text t = h.text t := by
  have hblock := scope_eq_ok.mp hs
  have hsame : h.SameBut s.handle (.scope sc') (h.put s.handle (.scope sc')) :=
    block?_put (Option.isSome_of_eq_some hblock) _
  refine ⟨hsame.object ?_ ?_, hsame.cell ?_ ?_, hsame.text ?_ ?_⟩
  all_goals
    intro _ hb
    first | cases hb | cases hblock.symm.trans hb

theorem ownCell_of_object (ho : ∀ o, h'.object o = h.object o) (o : ObjectRef) (k : PropertyKey) :
    h'.ownCell o k = h.ownCell o k := by
  unfold Heap.ownCell
  rw [ho]

/-! ### Names -/

/-- The name was interned, and is the key. -/
def Named (h : Heap) (name : String) (key : PropertyKey) : Prop :=
  ∃ t, h.text t = .ok (Text.ofString name) ∧ h.keyOfString t = .ok key

theorem keyOfString_of_text {t : StringRef} {u : Text} (ht : h.text t = .ok u) : ∃ key, h.keyOfString t = .ok key := by
  unfold Heap.keyOfString
  rw [ht]
  dsimp only [bind, Except.bind]
  cases arrayIndex? u.units.toList <;> exact ⟨_, rfl⟩

/-- A name that was interned is a key already. -/
theorem Named.keyOfName (hv : h.Valid) (hn : h.Named name key) : keyOfName name h = .done key h := by
  obtain ⟨t, ht, hkey⟩ := hn
  have hintern : internString name h = .done t h := by
    unfold internString intern
    rw [hv.canonical.find?_eq_some.mpr ht]
  unfold Heap.keyOfName
  rw [Proc.bind_done hintern]
  show Proc.reads (fun h => h.keyOfString t) h = _
  unfold Proc.reads
  dsimp only
  rw [hkey]

theorem Named.of_text (hn : h.Named name key) (htext : ∀ t, h'.text t = h.text t) : h'.Named name key := by
  obtain ⟨t, ht, hkey⟩ := hn
  refine ⟨t, (htext t).trans ht, ?_⟩
  unfold Heap.keyOfString at hkey ⊢
  rwa [htext]

/-- **On the way from `h` to `h'` the name was interned as the key**, and objects, scopes and cells are as they were. -/
structure Naming (h : Heap) (name : String) (key : PropertyKey) (h' : Heap) : Prop where
  done : keyOfName name h = .done key h'
  valid : h'.Valid
  named : h'.Named name key
  object : ∀ o, h'.object o = h.object o
  scope : ∀ s, h'.scope s = h.scope s
  cell : ∀ c, h'.cell c = h.cell c
  text : ∀ t u, h.text t = .ok u → h'.text t = .ok u

/-- **A name becomes a key**, unless the heap is full. -/
theorem keyOfName_ends (hv : h.Valid) (name : String) :
    h.IsFull ∧ keyOfName name h = .failed .outOfMemory h ∨ ∃ key h', h.Naming name key h' := by
  have hvalid := (routine_keyOfName (K := fun _ => True) name).keeps_valid h hv
  have hkeyed : ∀ {t : StringRef} {h' : Heap}, internString name h = .done t h' →
      h'.text t = .ok (Text.ofString name) → ∃ key, keyOfName name h = .done key h' ∧ h'.Named name key := by
    intro t h' hdone ht
    obtain ⟨key, hkey⟩ := keyOfString_of_text ht
    refine ⟨key, ?_, t, ht, hkey⟩
    unfold keyOfName
    rw [Proc.bind_done hdone]
    show Proc.reads (fun h => h.keyOfString t) h' = _
    unfold Proc.reads
    dsimp only
    rw [hkey]
  rcases intern_filled hv (Text.ofString name) with ⟨t, hfound, ht⟩ | ⟨-, ⟨hfull, hfailed⟩ | ⟨t, h', hmade, hf⟩⟩
  · obtain ⟨key, hdone, hn⟩ := hkeyed hfound ht
    exact .inr ⟨key, h, hdone, hv, hn, fun _ => rfl, fun _ => rfl, fun _ => rfl, fun _ _ ht => ht⟩
  · refine .inl ⟨hfull, ?_⟩
    unfold keyOfName
    exact Proc.bind_failed hfailed _
  · obtain ⟨key, hdone, hn⟩ := hkeyed hmade (text_eq_ok.mpr hf.block?_self)
    rw [hdone] at hvalid
    obtain ⟨u, hsame⟩ : ∃ u, h.SameBut t.handle (.string u) h' := ⟨_, hf.block?⟩
    have hvacant : ∀ b, h.block? t.handle ≠ some b := fun b hb => by rw [hf.fresh rfl] at hb; cases hb
    refine .inr ⟨key, h', hdone, hvalid, hn, hsame.object (fun _ => hvacant _) ?_,
      hsame.scope (fun _ => hvacant _) ?_, hsame.cell (fun _ => hvacant _) ?_,
      fun t u ht => text_eq_ok.mpr (hf.block?_of_some (text_eq_ok.mp ht))⟩
    all_goals
      intro _ hb
      cases hb

theorem Chain.of_scope {p : Option ScopeRef} (hc : Chain h p l) (hscope : ∀ s, h'.scope s = h.scope s) :
    Chain h' p l :=
  hc.mono fun x sc hx => ⟨sc, scope_eq_ok.mp ((hscope ⟨x⟩).trans (scope_eq_ok.mpr hx)), rfl⟩

namespace Naming

variable (hi : h.Naming name key h')
include hi

theorem ownCell (o : ObjectRef) (k : PropertyKey) : h'.ownCell o k = h.ownCell o k := ownCell_of_object hi.object o k

theorem isArray (o : ObjectRef) : h'.isArray o = h.isArray o := by
  unfold Heap.isArray
  rw [hi.object]

theorem finds (hf : h.Finds key s found) : h'.Finds key s found := hf.mono hi.scope hi.ownCell

end Naming

end Heap

end ScriptCore
