import Mathlib.Algebra.Group.Nat.Defs
import ScriptCore.Proofs.Heap.Changes

/-! # How long a stale handle stays stale

A slot keeps its block from when it is filled to when a collection frees it, and each time it is freed its
generation moves on by one. So a handle names its allocation until the slot is freed, and then nothing, as
long as the generation has not come round: it is a 32-bit word, and after `2 ^ 32` frees the handle names
whatever the slot holds then.

* `Block.Becomes`: what an allocation may turn into while it lives.
* `Op.slot_run`: **what an operation does to a slot**, and `slot_runAll` what many do.
* `Stale`: what every reader and writer makes of a handle that names nothing.
* `Built.generations`: a handle that was issued, after any operations. -/

namespace ScriptCore

/-- What an allocation may turn into while it lives: strings never change, objects keep their class and kind,
and scopes their place. -/
inductive Block.Becomes : Block → Block → Prop where
  | string (t : Text) : Becomes (.string t) (.string t)
  | object {o o' : Object} (tag : o'.tag = o.tag) (kind : o'.kind = o.kind) : Becomes (.object o) (.object o')
  | scope {s s' : Scope} (object : s'.object = s.object) (parent : s'.parent = s.parent) :
      Becomes (.scope s) (.scope s')
  | cell (d d' : Descriptor) : Becomes (.cell d) (.cell d')

namespace Block.Becomes

theorem refl (b : Block) : b.Becomes b := by
  cases b with
  | string t => exact .string t
  | object o => exact .object rfl rfl
  | scope s => exact .scope rfl rfl
  | cell d => exact .cell d d

theorem trans {a b c : Block} (hab : a.Becomes b) (hbc : b.Becomes c) : a.Becomes c := by
  cases hab with
  | string t => exact hbc
  | object tag kind => cases hbc with | object tag' kind' => exact .object (tag'.trans tag) (kind'.trans kind)
  | scope object parent =>
    cases hbc with | scope object' parent' => exact .scope (object'.trans object) (parent'.trans parent)
  | cell d d' => cases hbc with | cell _ d'' => exact .cell d d''

end Block.Becomes

namespace Heap

variable {h h' : Heap} {i : Nat} {g : UInt32} {c : Option Block}

/-! ### Slots between collections -/

theorem Rewrites.becomes {id : Handle} {b b' : Block} (hr : h.Rewrites id b b') : b.Becomes b' := by
  cases hr with
  | cell d d' => exact .cell d d'
  | scope object parent => exact .scope object parent
  | narrowed prototype tag kind find => exact .object tag kind
  | bound o key cell => exact .object rfl rfl
  | inherits o check => exact .object rfl rfl

/-- The slots of `h` are there in `h'` with their generations, and their blocks live. -/
def Lasts (h h' : Heap) : Prop :=
  ∀ (i : Nat) (g : UInt32) (c : Option Block), h.slots[i]? = some ⟨g, c⟩ →
    ∃ c', h'.slots[i]? = some ⟨g, c'⟩ ∧ ∀ b, c = some b → ∃ b', c' = some b' ∧ b.Becomes b'

theorem Lasts.refl (h : Heap) : h.Lasts h := fun _ _ c hs => ⟨c, hs, fun b hb => ⟨b, hb, .refl b⟩⟩

theorem Lasts.trans {h₁ h₂ : Heap} (hl : h.Lasts h₁) (hl' : h₁.Lasts h₂) : h.Lasts h₂ := by
  intro i g c hs
  obtain ⟨c₁, hs₁, hblock₁⟩ := hl i g c hs
  obtain ⟨c₂, hs₂, hblock₂⟩ := hl' i g c₁ hs₁
  refine ⟨c₂, hs₂, fun b hb => ?_⟩
  obtain ⟨b₁, hb₁, hbecomes₁⟩ := hblock₁ b hb
  obtain ⟨b₂, hb₂, hbecomes₂⟩ := hblock₂ b₁ hb₁
  exact ⟨b₂, hb₂, hbecomes₁.trans hbecomes₂⟩

theorem Change.lasts (hc : h.Change h') : h.Lasts h' := by
  cases hc with
  | @filled b id _ admits filled =>
    intro i g c hs
    rw [filled.slots]
    by_cases hi : i = id.index
    · subst hi
      rcases filled.vacant with hv | ⟨-, rfl⟩
      · rw [hs] at hv
        cases hv
        exact ⟨some b, by simp, by simp⟩
      · simp at hs
    · rw [if_neg hi]
      exact Lasts.refl h i g c hs
  | @written id b b' resolves rewrites =>
    intro i g c hs
    have hslot := block?_eq_some.mp resolves
    obtain ⟨hlt, -⟩ := Array.getElem?_eq_some_iff.mp hslot
    show ∃ c', (h.slots.setIfInBounds _ _)[i]? = _ ∧ _
    rw [Array.getElem?_setIfInBounds]
    by_cases hi : id.index = i
    · subst hi
      rw [hs] at hslot
      cases hslot
      refine ⟨some b', by simp [hlt], fun b₁ hb₁ => ⟨b', rfl, ?_⟩⟩
      cases hb₁
      exact rewrites.becomes
    · rw [if_neg hi]
      exact Lasts.refl h i g c hs
  | rooted roots freeRoots => exact Lasts.refl h

theorem Changed.lasts (hc : h.Changed h') : h.Lasts h' :=
  hc.keeps (fun _ _ _ _ hchange hl => hl.trans hchange.lasts) (.refl h)

/-! ### Slots and any operation -/

/-- The slot `i` holds a block. -/
def holds (h : Heap) (i : Nat) : Bool :=
  match h.slots[i]? with
  | some slot => slot.isOccupied
  | none => false

theorem holds_eq (hs : h.slots[i]? = some ⟨g, c⟩) : h.holds i = c.isSome := by
  unfold holds
  rw [hs]
  rfl

/-- A collection leaves a slot as it is, or frees it if it held a block. -/
theorem slot_collect (reported : List Handle) (hs : h.slots[i]? = some ⟨g, c⟩) :
    (h.collect reported).slots[i]? = some ⟨g, c⟩ ∨
      c.isSome ∧ (h.collect reported).slots[i]? = some ⟨g + 1, none⟩ := by
  unfold collect
  dsimp only
  rw [slots_sweep]
  dsimp only
  split
  · exact .inl hs
  · rw [hs]
    cases c with
    | none => exact .inl rfl
    | some b => exact .inr ⟨rfl, rfl⟩

/-- **What an operation does to a slot**: it frees the slot, whose generation moves on, or the slot keeps its
generation, and its block if it held one. -/
theorem Op.slot_run (hv : h.Valid) (op : Op) (hs : h.slots[i]? = some ⟨g, c⟩) :
    (h.holds i = true ∧ (op.run h).holds i = false ∧ (op.run h).slots[i]? = some ⟨g + 1, none⟩) ∨
      ∃ c', (op.run h).slots[i]? = some ⟨g, c'⟩ ∧ ∀ b, c = some b → ∃ b', c' = some b' ∧ b.Becomes b' := by
  by_cases hop : op.IsCollection
  · obtain ⟨reported, rfl⟩ := hop
    show (_ ∧ (h.collect reported).holds i = _ ∧ (h.collect reported).slots[i]? = _) ∨
      ∃ c', (h.collect reported).slots[i]? = _ ∧ _
    rcases slot_collect reported hs with hkept | ⟨hc, hfreed⟩
    · exact .inr ⟨c, hkept, fun b hb => ⟨b, hb, .refl b⟩⟩
    · exact .inl ⟨(holds_eq hs).trans hc, holds_eq hfreed, hfreed⟩
  · exact .inr ((Op.changed hv hop).lasts i g c hs)

/-- The heap that some operations leave, one after the other, whether they succeed or fail. -/
def runAll (ops : List Op) (h : Heap) : Heap := ops.foldl (fun h op => op.run h) h

/-- How many of the operations free the slot `i`. -/
def frees (i : Nat) : List Op → Heap → Nat
  | [], _ => 0
  | op :: ops, h => (h.holds i && !(op.run h).holds i).toNat + frees i ops (op.run h)

/-- How many of the operations fill the slot `i`. -/
def fills (i : Nat) : List Op → Heap → Nat
  | [], _ => 0
  | op :: ops, h => (!h.holds i && (op.run h).holds i).toNat + fills i ops (op.run h)

/-- **What many operations do to a slot.** Its generation counts the frees; if there are none, the slot keeps
the block that it held. -/
theorem slot_runAll : ∀ (ops : List Op) (h : Heap) (g : UInt32) (c : Option Block), h.Valid →
    h.slots[i]? = some ⟨g, c⟩ →
    ∃ c', (runAll ops h).slots[i]? = some ⟨g + (frees i ops h).toUInt32, c'⟩ ∧
      ∀ b, c = some b → frees i ops h = 0 → fills i ops h = 0 ∧ ∃ b', c' = some b' ∧ b.Becomes b'
  | [], h, g, c, hv, hs => by
    refine ⟨c, ?_, fun b hb _ => ⟨rfl, b, hb, .refl b⟩⟩
    rw [frees]
    simpa [runAll] using hs
  | op :: ops, h, g, c, hv, hs => by
    have hv' : (op.run h).Valid := hv.run op
    have hheld := holds_eq hs
    rcases Op.slot_run hv op hs with ⟨hocc, hvac, hfreed⟩ | ⟨c₁, hkept, hblock⟩
    · obtain ⟨c', hs', -⟩ := slot_runAll ops _ _ _ hv' hfreed
      refine ⟨c', ?_, fun b _ hnone => ?_⟩
      · rw [frees, hocc, hvac]
        refine hs'.trans ?_
        simp [UInt32.add_assoc]
      · rw [frees, hocc, hvac] at hnone
        simp at hnone
    · have hnot : (h.holds i && !(op.run h).holds i) = false := by
        rw [hheld, holds_eq hkept]
        cases c with
        | none => rfl
        | some b =>
          obtain ⟨b', rfl, -⟩ := hblock b rfl
          rfl
      obtain ⟨c', hs', hlast⟩ := slot_runAll ops _ _ _ hv' hkept
      refine ⟨c', ?_, fun b hb hnone => ?_⟩
      · rw [frees, hnot]
        refine hs'.trans ?_
        simp
      · rw [frees, hnot] at hnone
        obtain ⟨b₁, hb₁, hbecomes⟩ := hblock b hb
        obtain ⟨hfills, b', hb', hbecomes'⟩ := hlast b₁ hb₁ (by simpa using hnone)
        refine ⟨?_, b', hb', hbecomes.trans hbecomes'⟩
        rw [fills, hheld, hb]
        simpa using hfills

/-! ### Handles that name nothing -/

/-- Every reader and writer refuses the handle, and nothing changes. -/
structure Stale (h : Heap) (id : Handle) : Prop where
  text : h.text ⟨id⟩ = .error .invalidHandle
  keyOfString : h.keyOfString ⟨id⟩ = .error .invalidHandle
  cell : h.cell ⟨id⟩ = .error .invalidHandle
  scope : h.scope ⟨id⟩ = .error .invalidHandle
  object : h.object ⟨id⟩ = .error .invalidHandle
  isValidObject : h.isValidObject ⟨id⟩ = false
  tag : h.tag ⟨id⟩ = .error .invalidHandle
  isArray : h.isArray ⟨id⟩ = .error .invalidHandle
  prototype : h.prototype ⟨id⟩ = .error .invalidHandle
  isExtensible : h.isExtensible ⟨id⟩ = .error .invalidHandle
  closure : h.closure ⟨id⟩ = .error .invalidHandle
  isCallable : h.isCallable (.object ⟨id⟩) = .error .invalidHandle
  ownKeys : h.ownKeys ⟨id⟩ = .error .invalidHandle
  ownEntry : ∀ n, h.ownEntry ⟨id⟩ n = .error .invalidHandle
  ownCell : ∀ key, h.ownCell ⟨id⟩ key = .error .invalidHandle
  ownProperty : ∀ key, h.ownProperty ⟨id⟩ key = .error .invalidHandle
  findProperty : ∀ key, h.findProperty ⟨id⟩ key = .error .invalidHandle
  property : ∀ key, h.property ⟨id⟩ key = .error .invalidHandle
  putCell : ∀ d, putCell ⟨id⟩ d h = .failed .invalidHandle h
  modifyScope : ∀ f, modifyScope ⟨id⟩ f h = .failed .invalidHandle h
  modifyObject : ∀ f, modifyObject ⟨id⟩ f h = .failed .invalidHandle h
  setPrototype : ∀ p, setPrototype ⟨id⟩ p h = .failed .invalidHandle h
  define : ∀ key d, define ⟨id⟩ key d h = .failed .invalidHandle h
  remove : ∀ key, remove ⟨id⟩ key h = .failed .invalidHandle h
  installCell : ∀ key c, installCell ⟨id⟩ key c h = .failed .invalidHandle h
  allocObject : ∀ tag kind, allocObject (some ⟨id⟩) tag kind h = .failed .invalidHandle h

theorem cell_cases (h : Heap) (c : CellRef) : (∃ d, h.cell c = .ok d) ∨ h.cell c = .error .invalidHandle := by
  unfold Heap.cell
  split
  · exact .inl ⟨_, rfl⟩
  · exact .inr rfl

theorem stale_of_block? {id : Handle} (hid : h.block? id = none) : h.Stale id := by
  have hobject : h.object ⟨id⟩ = .error .invalidHandle := by simp [Heap.object, hid]
  have htext : h.text ⟨id⟩ = .error .invalidHandle := by simp [Heap.text, hid]
  have hcell : h.cell ⟨id⟩ = .error .invalidHandle := by simp [Heap.cell, hid]
  have hscope : h.scope ⟨id⟩ = .error .invalidHandle := by simp [Heap.scope, hid]
  have hown : ∀ key, h.ownCell ⟨id⟩ key = .error .invalidHandle := fun key => by
    simp only [Heap.ownCell, hobject]
    rfl
  have hfind : ∀ key, h.findProperty ⟨id⟩ key = .error .invalidHandle := fun key => by
    simp [Heap.findProperty, maxPrototypeChain, Heap.findWithin, hobject]
  have hmodify : ∀ f, Heap.modifyObject ⟨id⟩ f h = .failed .invalidHandle h := fun f => by
    simp [Heap.modifyObject, hobject]
  exact
    { text := htext
      keyOfString := by simp only [Heap.keyOfString, htext]; rfl
      cell := hcell
      scope := hscope
      object := hobject
      isValidObject := by rw [Heap.isValidObject, hobject]; rfl
      tag := by simp only [Heap.tag, hobject]; rfl
      isArray := by simp only [Heap.isArray, hobject]; rfl
      prototype := by simp only [Heap.prototype, hobject]; rfl
      isExtensible := by simp only [Heap.isExtensible, hobject]; rfl
      closure := by simp only [Heap.closure, hobject]; rfl
      isCallable := by simp only [Heap.isCallable, hobject]; rfl
      ownKeys := by simp only [Heap.ownKeys, hobject]; rfl
      ownEntry := fun n => by simp only [Heap.ownEntry, hobject]; rfl
      ownCell := hown
      ownProperty := fun key => by simp only [Heap.ownProperty, hown]; rfl
      findProperty := hfind
      property := fun key => by simp only [Heap.property, hfind]; rfl
      putCell := fun d => by simp [Heap.putCell, modifyCell, hcell]
      modifyScope := fun f => by simp [Heap.modifyScope, hscope]
      modifyObject := hmodify
      setPrototype := fun p => by rw [Heap.setPrototype, Proc.discard_bind, Proc.reads_bind, hobject]
      define := fun key d => by rw [Heap.define, Proc.discard_bind, Proc.reads_bind, hobject]
      remove := fun key => by rw [Heap.remove, Proc.reads_bind, hown]
      installCell := fun key c => by
        rw [Heap.installCell_ample, Proc.discard_bind, Proc.reads_bind]
        rcases h.cell_cases c with ⟨d, hd⟩ | hd
        · rw [hd]
          exact hmodify _
        · rw [hd]
      allocObject := fun tag kind => by
        simp only [Heap.allocObject]
        rw [Proc.discard_bind, Proc.reads_bind, hobject] }

/-! ### Handles that were issued -/

/-- The handle of what a procedure answers with. -/
def answer? {α : Type} (handle : α → Handle) (p : Proc Heap α) (h : Heap) : Option Handle :=
  match p h with
  | .done a _ => some (handle a)
  | _ => none

/-- The handle that an allocating operation issues, if it succeeds. -/
def Op.issued? : Op → Heap → Option Handle
  | .intern t => answer? StringRef.handle (Heap.intern t)
  | .allocCell d => answer? CellRef.handle (Heap.allocCell d)
  | .allocObject prototype tag kind => answer? ObjectRef.handle (Heap.allocObject prototype tag kind)
  | .define o key d => answer? CellRef.handle (Heap.define o key d)
  | .allocScope s => answer? ScopeRef.handle (Heap.allocScope s)
  | _ => fun _ => none

/-- The block that an allocating operation asks for. -/
def Op.allocated? : Op → Option Block
  | .intern t => some (.string t)
  | .allocCell d => some (.cell d)
  | .allocObject prototype tag kind => some (.object ⟨prototype, tag, true, .empty, kind⟩)
  | .define _ _ d => some (.cell d)
  | .allocScope s => some (.scope s)
  | _ => none

theorem block?_answered {α : Type} {handle : α → Handle} {p : Proc Heap α} {b : Block} {id : Handle}
    (hid : answer? handle p h = some id) (hdone : ∀ a h', p h = .done a h' → h'.block? (handle a) = some b) :
    (after p h).block? id = some b := by
  unfold answer? at hid
  unfold after
  cases hp : p h with
  | done a h' =>
    rw [hp] at hid
    rw [← Option.some.inj hid]
    exact hdone a h' hp
  | failed e h' => rw [hp] at hid; cases hid
  | stalled => rw [hp] at hid; cases hid

/-- A handle that is issued names the block that was asked for. -/
theorem Op.block?_issued (hv : h.Valid) {op : Op} {id : Handle} (hid : op.issued? h = some id) :
    ∃ b, op.allocated? = some b ∧ (op.run h).block? id = some b := by
  cases op with
  | intern t =>
    refine ⟨_, rfl, block?_answered hid fun s h' hp => ?_⟩
    rcases intern_filled hv t with ⟨r, hdone, hr⟩ | ⟨-, ⟨-, hfailed⟩ | ⟨r, h₁, hdone, hf⟩⟩
    · cases hdone.symm.trans hp
      exact text_eq_ok.mp hr
    · cases hfailed.symm.trans hp
    · cases hdone.symm.trans hp
      exact hf.block?_self
  | allocCell d =>
    refine ⟨_, rfl, block?_answered hid fun c h' hp => ?_⟩
    rcases allocCell_filled hv d with ⟨-, hfailed⟩ | ⟨r, h₁, hdone, hf⟩
    · cases hfailed.symm.trans hp
    · cases hdone.symm.trans hp
      exact hf.block?_self
  | allocObject prototype tag kind =>
    refine ⟨_, rfl, block?_answered hid fun o h' hp => ?_⟩
    rcases allocObject_filled hv prototype tag kind with ⟨e, hfailed⟩ | ⟨r, h₁, hdone, hf⟩
    · cases hfailed.symm.trans hp
    · cases hdone.symm.trans hp
      exact hf.block?_self
  | define o key d =>
    refine ⟨_, rfl, block?_answered hid fun c h' hp => ?_⟩
    rcases define_filled hv o key d with ⟨e, hfailed⟩ | ⟨obj, r, h₁, ho, hf, -, hdone⟩
    · cases hfailed.symm.trans hp
    · cases hdone.symm.trans hp
      have ho₁ := hf.block?_of_some (object_eq_ok.mp ho)
      have hcell := hf.block?_self
      rw [block?_put (by rw [ho₁]; rfl), if_neg, hcell]
      intro hsame
      rw [hsame, ho₁] at hcell
      cases hcell
  | allocScope s =>
    refine ⟨_, rfl, block?_answered hid fun r h' hp => ?_⟩
    rcases allocScope_filled hv s with ⟨e, hfailed⟩ | ⟨r', h₁, hdone, hf⟩
    · cases hfailed.symm.trans hp
    · cases hdone.symm.trans hp
      exact hf.block?_self
  | _ => cases hid

theorem add_toUInt32_eq_self (g : UInt32) (n : Nat) : g + n.toUInt32 = g ↔ n % 2 ^ 32 = 0 := by
  rw [← UInt32.toNat_inj, UInt32.toNat_add]
  have hg := g.toNat_lt
  simp only [Nat.toUInt32_eq, UInt32.toNat_ofNat']
  omega

/-- What a handle names after many operations: what its slot holds, if the generation has come round. -/
theorem block?_runAll (hv : h.Valid) {id : Handle} {b : Block} (hid : h.block? id = some b) (ops : List Op) :
    ∃ g c, (runAll ops h).slots[id.index]? = some ⟨g, c⟩ ∧
      ((runAll ops h).block? id = if frees id.index ops h % 2 ^ 32 = 0 then c else none) ∧
      (frees id.index ops h = 0 → fills id.index ops h = 0 ∧ ∃ b', c = some b' ∧ b.Becomes b') := by
  obtain ⟨c, hs, hblock⟩ := slot_runAll ops h _ _ hv (block?_eq_some.mp hid)
  refine ⟨_, c, hs, ?_, hblock b rfl⟩
  unfold Heap.block? resolve
  rw [hs]
  simp only [add_toUInt32_eq_self]

/-- **A stale handle stays stale while generations last.** On every heap that operations lead to, let an
operation issue the handle `id`, and let any operations follow, which free its slot `n` times. If `n` is zero
the handle names the allocation that it was issued for: the slot was not filled again either, and the block
is what became of the one asked for. If `0 < n < 2 ^ 32`, every reader and writer refuses the handle, whatever
the slot holds by now. If `n = 2 ^ 32`, the handle names what the slot holds, if it holds anything. -/
theorem Built.generations (hb : h.Built) {op : Op} {id : Handle} (hid : op.issued? h = some id)
    (ops : List Op) :
    (frees id.index ops (op.run h) = 0 → fills id.index ops (op.run h) = 0 ∧
      ∃ b b', op.allocated? = some b ∧ (runAll ops (op.run h)).block? id = some b' ∧ b.Becomes b') ∧
    (0 < frees id.index ops (op.run h) → frees id.index ops (op.run h) < 2 ^ 32 →
      (runAll ops (op.run h)).Stale id) ∧
    (frees id.index ops (op.run h) = 2 ^ 32 → ∀ g b,
      (runAll ops (op.run h)).slots[id.index]? = some ⟨g, some b⟩ →
      (runAll ops (op.run h)).block? id = some b) := by
  obtain ⟨b, hb', hnames⟩ := Op.block?_issued hb.valid hid
  obtain ⟨g, c, hslot, hblock, hlast⟩ := block?_runAll (hb.valid.run op) hnames ops
  refine ⟨fun hnone => ?_, fun hpos hlt => ?_, fun hround g' b' hs => ?_⟩
  · obtain ⟨hfills, b', rfl, hbecomes⟩ := hlast hnone
    rw [hnone] at hblock
    exact ⟨hfills, b, b', hb', hblock, hbecomes⟩
  · refine stale_of_block? (hblock.trans (if_neg ?_))
    rw [Nat.mod_eq_of_lt hlt]
    exact Nat.ne_of_gt hpos
  · rw [hround] at hblock
    rw [hslot] at hs
    cases hs
    exact hblock

/-! ### Going round -/

theorem runAll_append (ops ops' : List Op) (h : Heap) :
    runAll (ops ++ ops') h = runAll ops' (runAll ops h) := List.foldl_append ..

theorem frees_append (i : Nat) : ∀ (ops ops' : List Op) (h : Heap),
    frees i (ops ++ ops') h = frees i ops h + frees i ops' (runAll ops h)
  | [], ops', h => (Nat.zero_add _).symm
  | op :: ops, ops', h => by
    rw [List.cons_append, frees, frees, frees_append i ops ops', Nat.add_assoc]
    rfl

/-- Garbage is collected and the string `t` is made, again and again. -/
def recycle (t : Text) (rounds : Nat) : List Op := (List.replicate rounds [Op.collect [], .intern t]).flatten

/-- The only slot of the heap is occupied, and the host keeps nothing alive. -/
structure Lone (h : Heap) (g : UInt32) (b : Block) : Prop where
  accounted : h.Accounted
  roots : h.roots = #[]
  slots : h.slots = #[⟨g, some b⟩]

theorem not_reach_nil {slots : Array Slot} {id : Handle} : ¬ Reach slots [] id := by
  intro hr
  induction hr with
  | root hmem _ => cases hmem
  | step _ _ _ _ ih => exact ih

theorem limits_collect (h : Heap) (reported : List Handle) : (h.collect reported).limits = h.limits := by
  have hslot : ∀ (h : Heap) (i : Nat), (h.sweepSlot i).limits = h.limits := by
    intro h i
    unfold sweepSlot
    split
    · rfl
    · split <;> rfl
  have hall : ∀ (l : List Nat) (h : Heap), (l.foldl sweepSlot h).limits = h.limits := by
    intro l
    induction l with
    | nil => exact fun h => rfl
    | cons i l ih => exact fun h => (ih _).trans (hslot h i)
  exact hall _ _

theorem roots_collect (h : Heap) (reported : List Handle) : (h.collect reported).roots = h.roots := by
  rw [collect_eq_sweptTo]
  exact (roots_sweptTo h reported _).1

/-- A collection frees the slot. -/
theorem Lone.collect {b : Block} (hl : h.Lone g b) : (h.collect []).slots = #[⟨g + 1, none⟩] := by
  have hslot : h.slots[0]? = some ⟨g, some b⟩ := by rw [hl.slots]; rfl
  have hfreed : (h.collect []).slots[0]? = some ⟨g + 1, none⟩ := by
    rcases slot_collect [] hslot with hkept | ⟨-, hfreed⟩
    · have hv := hl.accounted.valid
      have hreach := ((slots_collect hv.marks_size hv.marks_clear [] 0 g b).mp hkept).2
      rw [rootHandles, hl.roots] at hreach
      exact absurd hreach not_reach_nil
    · exact hfreed
  have hsize : (h.collect []).slots.size = 1 := by rw [size_collect, hl.slots]; rfl
  refine Array.ext_getElem? fun i => ?_
  cases i with
  | zero => exact hfreed
  | succ i => rw [Array.getElem?_eq_none (by omega), Array.getElem?_eq_none (by simp)]

/-- A round frees the slot and fills it again. -/
theorem Lone.round {b : Block} (hl : h.Lone g b) (t : Text) :
    (runAll [.collect [], .intern t] h).Lone (g + 1) (.string t) ∧
      frees 0 [.collect [], .intern t] h = 1 := by
  have ha : (h.collect []).Accounted := hl.accounted.collect []
  have hslots := hl.collect
  have hroots : (h.collect []).roots = #[] := (roots_collect h []).trans hl.roots
  have hlive : (h.collect []).live = 0 := by rw [ha.counted.live_eq, hslots]; rfl
  have hroom : 0 < (h.collect []).limits.maxSlots := by
    have hle := hl.accounted.counted.live_le
    rw [hl.accounted.counted.live_eq, hl.slots] at hle
    rw [limits_collect]
    exact hle
  have hvacant : (h.collect []).free ≠ [] := by
    refine List.ne_nil_of_mem ((ha.valid.mem_free 0).mpr ⟨g + 1, ?_⟩)
    rw [hslots]
    rfl
  have hheld : h.holds 0 = true := holds_eq (g := g) (c := some b) (by rw [hl.slots]; rfl)
  have hnot : ((Op.collect []).run h).holds 0 = false :=
    holds_eq (h := h.collect []) (g := g + 1) (c := none) (by rw [hslots]; rfl)
  refine ⟨?_, by simp [frees, hheld, hnot]⟩
  rcases intern_filled ha.valid t with ⟨s, -, hs⟩ | ⟨-, ⟨hfull, -⟩ | ⟨s, h', hdone, hf⟩⟩
  · have hblock := block?_eq_some.mp (text_eq_ok.mp hs)
    rw [hslots] at hblock
    obtain ⟨hlt, -⟩ := Array.getElem?_eq_some_iff.mp hblock
    simp_all
  · rcases hfull with hfull | ⟨hfree, -⟩
    · omega
    · exact absurd hfree hvacant
  · have hid : s.handle = ⟨0, g + 1⟩ := by
      rcases hf.vacant with hv | ⟨hfree, -⟩
      · obtain ⟨⟨i, k⟩⟩ := s
        rw [hslots] at hv
        obtain ⟨hlt, -⟩ := Array.getElem?_eq_some_iff.mp hv
        obtain rfl : i = 0 := by simpa using hlt
        cases hv
        rfl
      · exact absurd hfree hvacant
    have hround : runAll [.collect [], .intern t] h = h' := by
      show after (Heap.intern t) (h.collect []) = h'
      rw [after, hdone]
    have hall := (hl.accounted.run (.collect [])).run (.intern t)
    refine ⟨hall, by rw [hround, hf.roots.1, hroots], ?_⟩
    rw [hround]
    refine Array.ext_getElem? fun i => ?_
    rw [hf.slots, hid, hslots]
    cases i with
    | zero => rfl
    | succ i => simp

/-- After any number of rounds the generation has moved on by as much. -/
theorem Lone.recycle {b : Block} (hl : h.Lone g b) (t : Text) : ∀ rounds : Nat,
    (∃ b', (runAll (recycle t rounds) h).Lone (g + rounds.toUInt32) b' ∧ (0 < rounds → b' = .string t)) ∧
      frees 0 (Heap.recycle t rounds) h = rounds
  | 0 => ⟨⟨b, by simpa [Heap.recycle, runAll] using hl, by simp⟩, rfl⟩
  | rounds + 1 => by
    obtain ⟨⟨b', hl', -⟩, hfrees⟩ := Lone.recycle hl t rounds
    obtain ⟨hround, hfree⟩ := hl'.round t
    have hsplit : Heap.recycle t (rounds + 1) = Heap.recycle t rounds ++ [.collect [], .intern t] := by
      simp [Heap.recycle, List.replicate_succ']
    rw [hsplit, runAll_append, frees_append, hfrees, hfree]
    refine ⟨⟨_, ?_, fun _ => rfl⟩, rfl⟩
    simpa [UInt32.add_assoc] using hround

/-- A heap with room for one block, which is an object. -/
def tiny : Heap := (Op.allocObject none .object .ordinary).run (empty (.ofMax 1))

/-- After `2 ^ 32` rounds the object's handle names the string that has its slot; a round before it named
nothing. -/
theorem Built.generations_tiny :
    (Op.allocObject none .object .ordinary).issued? (empty (.ofMax 1)) = some ⟨0, 0⟩ ∧
    frees 0 (recycle (.ofString "a") (2 ^ 32)) tiny = 2 ^ 32 ∧
    (runAll (recycle (.ofString "a") (2 ^ 32)) tiny).text ⟨⟨0, 0⟩⟩ = .ok (.ofString "a") ∧
    (runAll (recycle (.ofString "a") (2 ^ 32 - 1)) tiny).Stale ⟨0, 0⟩ := by
  have hb : (empty (.ofMax 1)).Built := ⟨_, [], rfl⟩
  have hissued : (Op.allocObject none .object .ordinary).issued? (empty (.ofMax 1)) = some ⟨0, 0⟩ := rfl
  have hl : tiny.Lone 0 (.object ⟨none, .object, true, .empty, .ordinary⟩) :=
    ⟨(accounted_empty _).run _, rfl, rfl⟩
  obtain ⟨⟨b, hround, hstring⟩, hfrees⟩ := hl.recycle (.ofString "a") (2 ^ 32)
  obtain ⟨-, hfrees'⟩ := hl.recycle (.ofString "a") (2 ^ 32 - 1)
  have hslot : (runAll (recycle (.ofString "a") (2 ^ 32)) tiny).slots[0]? =
      some ⟨0 + (2 ^ 32).toUInt32, some (.string (.ofString "a"))⟩ := by
    rw [hround.slots, hstring (by decide)]
    rfl
  obtain ⟨-, -, hcome⟩ := hb.generations hissued (recycle (.ofString "a") (2 ^ 32))
  obtain ⟨-, hstale, -⟩ := hb.generations hissued (recycle (.ofString "a") (2 ^ 32 - 1))
  refine ⟨hissued, hfrees, text_eq_ok.mpr (hcome hfrees _ _ hslot), hstale ?_ ?_⟩
  · exact Nat.lt_of_lt_of_eq (by decide) hfrees'.symm
  · exact Nat.lt_of_le_of_lt (Nat.le_of_eq hfrees') (by decide)

end Heap

end ScriptCore
