import Mathlib.Data.List.Nodup
import Mathlib.Data.List.Perm.Subperm
import ScriptCore.Object.Arrays
import ScriptCore.Proofs.Heap.Changes

/-! # The cell that holds the length of an array

An array keeps its length in a cell of its own: no other property of any object is bound to it, so it is
written only where the length is meant. `Measured` says so of an array, together with the count that the
cell holds and the elements that the count bounds; one element may be ahead of it while it is being added.

* `Built.linked`: the properties of live objects have live cells.
* `live_le_slotBound`: how many blocks can be live at once.
* `Measured.frame`: what has to be shown of a heap for an array to stay measured.
* `Measured.define` and so on: **what operations on other properties leave of it.** -/

namespace ScriptCore.Heap

variable {h h' : Heap}

/-! ### Every property has a cell -/

/-- The properties of live objects have live cells. -/
def Linked (h : Heap) : Prop :=
  ∀ o obj key c, h.object o = .ok obj → obj.properties.find? key = some c → ∃ d, h.cell c = .ok d

/-- A new block brings no property with it. -/
theorem Filled.object_of_find? {b : Block} {id : Handle} {o : ObjectRef} {obj : Object} {key : PropertyKey}
    {c : CellRef} (hf : h.Filled b id h') (hb : ∀ new, b = .object new → new.properties = .empty)
    (ho : h'.object o = .ok obj) (hfind : obj.properties.find? key = some c) : h.object o = .ok obj := by
  rw [object_eq_ok, hf.block?] at ho
  split at ho
  · rw [hb obj (Option.some.inj ho)] at hfind
    simp [PropertyMap.find?, PropertyMap.empty] at hfind
  · exact object_eq_ok.mpr ho

namespace Linked

theorem filled {b : Block} {id : Handle} (hl : h.Linked) (hadmits : h.Admits b) (hf : h.Filled b id h') :
    h'.Linked := by
  intro o obj key c ho hfind
  have hold := hf.object_of_find? (by rintro new rfl; exact hadmits.1) ho hfind
  obtain ⟨d, hc⟩ := hl o obj key c hold hfind
  exact ⟨d, cell_eq_ok.mpr (hf.block?_of_some (cell_eq_ok.mp hc))⟩

theorem put {id : Handle} {b b' : Block} (hl : h.Linked) (hid : h.block? id = some b)
    (hcell : ∀ d, b = .cell d → ∃ d', b' = .cell d')
    (hfind : ∀ obj key c, b' = .object obj → obj.properties.find? key = some c → ∃ d, h.cell c = .ok d) :
    (h.put id b').Linked := by
  have hput := block?_put (b := b') (Option.isSome_of_eq_some hid)
  have hkept : ∀ c d, h.cell c = .ok d → ∃ d', (h.put id b').cell c = .ok d' := by
    intro c d hc
    simp only [cell_eq_ok, hput] at hc ⊢
    by_cases hcid : c.handle = id
    · rw [hcid, hid, Option.some.injEq] at hc
      simpa only [hcid, if_true, Option.some.injEq] using hcell d hc
    · exact ⟨d, by rw [if_neg hcid, hc]⟩
  intro o obj key c ho hobj
  obtain ⟨d, hc⟩ : ∃ d, h.cell c = .ok d := by
    rw [object_eq_ok, hput] at ho
    by_cases hoid : o.handle = id
    · rw [if_pos hoid] at ho
      exact hfind obj key c (Option.some.inj ho) hobj
    · rw [if_neg hoid, ← object_eq_ok] at ho
      exact hl o obj key c ho hobj
  exact hkept c d hc

theorem change (hl : h.Linked) (hc : Change h h') : h'.Linked := by
  cases hc with
  | filled admits filled => exact hl.filled admits filled
  | rooted roots freeRoots => exact fun o obj key c ho => hl o obj key c ho
  | @written id b b' resolves rewrites =>
    have hold : ∀ obj key c, b = .object obj → obj.properties.find? key = some c → ∃ d, h.cell c = .ok d := by
      rintro obj key c rfl hfind
      exact hl ⟨id⟩ obj key c (object_eq_ok.mpr resolves) hfind
    cases rewrites with
    | cell d d' => exact hl.put resolves (fun _ _ => ⟨d', rfl⟩) fun _ _ _ hobj => by cases hobj
    | scope => exact hl.put resolves (fun _ hcell => by cases hcell) fun _ _ _ hobj => by cases hobj
    | narrowed _ _ _ find =>
      refine hl.put resolves (fun _ hcell => by cases hcell) ?_
      rintro _ key c ⟨⟩ hfind
      exact hold _ key c rfl (find key c hfind)
    | bound o key' cell =>
      refine hl.put resolves (fun _ hcell => by cases hcell) ?_
      rintro _ key c ⟨⟩ hfind
      rw [PropertyMap.find?_insert] at hfind
      split at hfind
      · exact Option.some.inj hfind ▸ ⟨_, cell⟩
      · exact hold _ key c rfl hfind
    | inherits o check =>
      refine hl.put resolves (fun _ hcell => by cases hcell) ?_
      rintro _ key c ⟨⟩ hfind
      exact hold _ key c rfl hfind

theorem collect (hl : h.Linked) (hv : h.Valid) (reported : List Handle) : (h.collect reported).Linked := by
  intro o obj key c ho hfind
  obtain ⟨hold, -⟩ := (block?_collect hv reported _ _).mp (object_eq_ok.mp ho)
  obtain ⟨d, hc⟩ := hl o obj key c (object_eq_ok.mpr hold) hfind
  refine ⟨d, cell_eq_ok.mpr (block?_collect_of_mem hv (object_eq_ok.mp ho) ?_ (cell_eq_ok.mp hc))⟩
  have hentry : (key, c) ∈ obj.properties.recent := by
    rw [PropertyMap.find?, PropertyMap.index_eq, List.lookup_eq_some_iff] at hfind
    obtain ⟨l, l', hl, -⟩ := hfind
    simp [hl]
  simp only [Block.handles, Object.handles, List.mem_append, List.mem_flatMap]
  exact .inl (.inr ⟨(key, c), hentry, .inr (List.mem_singleton_self _)⟩)

end Linked

theorem Built.linked (hb : h.Built) : h.Linked :=
  hb.induct_changes (fun limits o obj key c ho => by simp [object, block?, resolve, empty] at ho)
    (fun _ _ _ _ hc hl => hl.change hc) fun _ reported hv hl => hl.collect hv reported

/-! ### Live blocks are counted by 32-bit words -/

/-- There are no more slots than can be numbered. -/
def Numbered (h : Heap) : Prop := h.slots.size ≤ slotBound

theorem Numbered.put (hn : h.Numbered) (id : Handle) (b : Block) : (h.put id b).Numbered := by
  unfold Numbered Heap.put
  rw [Array.size_setIfInBounds]
  exact hn

theorem keeps_numbered_alloc (b : Block) : Proc.Keeps Numbered (alloc b) := by
  intro h hn
  unfold alloc
  split
  · exact hn
  split
  · split
    · show (Array.setIfInBounds _ _ _).size ≤ slotBound
      rw [Array.size_setIfInBounds]
      exact hn
    · exact hn
  · split
    · exact hn
    · next hlt =>
      show (Array.push _ _).size ≤ slotBound
      rw [Array.size_push]
      exact Nat.lt_of_not_le hlt

theorem keeps_numbered_intern (t : Text) : Proc.Keeps Numbered (intern t) := by
  intro h hn
  have halloc := keeps_numbered_alloc (.string t) h hn
  unfold intern
  split
  · exact hn
  · cases ha : alloc (.string t) h with
    | done id h' => rw [ha] at halloc; exact halloc
    | failed e h' => rw [ha] at halloc; exact halloc
    | stalled => trivial

theorem Routine.keeps_numbered {α : Type} {K : ObjectKind → Prop} {p : Proc Heap α} (hp : Routine K p) :
    Proc.Keeps Numbered p := by
  refine hp.keeps (fun b _ _ => keeps_numbered_alloc b) keeps_numbered_intern (fun o f _ h hn => ?_)
    (fun s f h hn => ?_) fun c f h hn => ?_
  · exact leaves_modifyObject hn fun _ _ => hn.put _ _
  · exact leaves_modifyScope hn fun _ _ => hn.put _ _
  · exact leaves_modifyCell hn fun _ _ _ _ => hn.put _ _

theorem Built.numbered (hb : h.Built) : h.Numbered := by
  refine hb.induct (fun _ => Nat.zero_le _) fun op h hn => ?_
  refine op.keeps (fun _ hp => hp.keeps_numbered) (fun h v hn => ?_) (fun h i hn => ?_)
    (fun h reported hn => ?_) hn
  · unfold addRoot
    split <;> exact hn
  · unfold removeRoot
    split <;> exact hn
  · unfold Numbered
    rw [size_collect]
    exact hn

theorem live_le_slotBound (ha : h.Accounted) (hn : h.Numbered) : h.live ≤ slotBound := by
  rw [ha.counted.live_eq]
  exact Nat.le_trans Array.countP_le_size hn

/-- No more cells are live than can be numbered. -/
theorem Numbered.count_cells {cs : List CellRef} (hn : h.Numbered) (hdistinct : cs.Nodup)
    (hlive : ∀ c ∈ cs, ∃ d, h.cell c = .ok d) : cs.length < UInt32.size := by
  have hblock : ∀ c ∈ cs, ∃ b, h.block? c.handle = some b := fun c hc =>
    (hlive c hc).elim fun _ hd => ⟨_, cell_eq_ok.mp hd⟩
  have hnodup : (cs.map fun c => c.handle.index).Nodup := by
    refine List.Nodup.map_on (fun c hc c' hc' hindex => ?_) hdistinct
    obtain ⟨b, hb⟩ := hblock c hc
    obtain ⟨b', hb'⟩ := hblock c' hc'
    have hgeneration : c.handle.generation = c'.handle.generation := by
      have hslot := block?_eq_some.mp hb
      rw [hindex, block?_eq_some.mp hb'] at hslot
      exact (congrArg Slot.generation (Option.some.inj hslot)).symm
    obtain ⟨⟨index, generation⟩⟩ := c
    obtain ⟨⟨index', generation'⟩⟩ := c'
    cases hindex
    cases hgeneration
    rfl
  have hsub : ∀ x ∈ cs.map fun c => c.handle.index, x ∈ List.range h.slots.size := by
    intro x hx
    obtain ⟨c, hc, rfl⟩ := List.mem_map.mp hx
    obtain ⟨b, hb⟩ := hblock c hc
    exact List.mem_range.mpr (index_lt_of_resolves (Option.isSome_of_eq_some hb))
  have hlength := (hnodup.subperm hsub).length_le
  rw [List.length_map, List.length_range] at hlength
  have hbound : slotBound = 4294967295 := rfl
  have hsize : UInt32.size = 4294967296 := rfl
  have hnumbered : h.slots.size ≤ slotBound := hn
  omega

/-- Positions below the bound are different indices. -/
theorem index_injective {i j : Nat} (hi : i < UInt32.size) (hj : j < UInt32.size)
    (hij : PropertyKey.index i.toUInt32 = .index j.toUInt32) : i = j := by
  have htoNat := congrArg UInt32.toNat (PropertyKey.index.inj hij)
  rwa [UInt32.toNat_ofNat', UInt32.toNat_ofNat', Nat.mod_eq_of_lt hi, Nat.mod_eq_of_lt hj] at htoNat

/-! ### Looking at a heap after a write -/

theorem object_put_object {o : ObjectRef} {obj : Object} (ho : h.object o = .ok obj) (obj' : Object)
    (x : ObjectRef) : (h.put o.handle (.object obj')).object x = if x = o then .ok obj' else h.object x := by
  unfold object
  rw [block?_put (Option.isSome_of_eq_some (object_eq_ok.mp ho))]
  by_cases hx : x = o
  · rw [if_pos hx, if_pos (by rw [hx])]
  · rw [if_neg hx, if_neg fun hh => hx (by cases x; cases o; exact congrArg _ hh)]

theorem cell_put_object {o : ObjectRef} {obj : Object} (ho : h.object o = .ok obj) (obj' : Object)
    (x : CellRef) : (h.put o.handle (.object obj')).cell x = h.cell x := by
  have hid := object_eq_ok.mp ho
  unfold cell
  rw [block?_put (Option.isSome_of_eq_some hid)]
  by_cases hx : x.handle = o.handle
  · rw [if_pos hx, hx, hid]
  · rw [if_neg hx]

theorem cell_put_cell {c : CellRef} {d : Descriptor} (hc : h.cell c = .ok d) (d' : Descriptor)
    (x : CellRef) : (h.put c.handle (.cell d')).cell x = if x = c then .ok d' else h.cell x := by
  unfold cell
  rw [block?_put (Option.isSome_of_eq_some (cell_eq_ok.mp hc))]
  by_cases hx : x = c
  · rw [if_pos hx, if_pos (by rw [hx])]
  · rw [if_neg hx, if_neg fun hh => hx (by cases x; cases c; exact congrArg _ hh)]

theorem object_put_cell {c : CellRef} {d : Descriptor} (hc : h.cell c = .ok d) (d' : Descriptor)
    (x : ObjectRef) : (h.put c.handle (.cell d')).object x = h.object x := by
  have hid := cell_eq_ok.mp hc
  unfold object
  rw [block?_put (Option.isSome_of_eq_some hid)]
  by_cases hx : x.handle = c.handle
  · rw [if_pos hx, hx, hid]
  · rw [if_neg hx]

theorem allocObject_done {o : ObjectRef} {h₁ : Heap} {prototype : Option ObjectRef} {tag : ClassTag}
    {kind : ObjectKind} (hv : h.Valid) (halloc : allocObject prototype tag kind h = .done o h₁) :
    h.Filled (.object ⟨prototype, tag, true, .empty, kind⟩) o.handle h₁ ∧ h₁.Valid := by
  have hkept : (allocObject prototype tag kind h).Leaves Valid :=
    (routine_allocObject (K := fun _ => True) prototype tag trivial).keeps_valid h hv
  rw [halloc] at hkept
  rcases allocObject_filled hv prototype tag kind with ⟨e, hfailed⟩ | ⟨o', h', hdone, hf⟩
  · rw [halloc] at hfailed
    cases hfailed
  · rw [halloc] at hdone
    cases hdone
    exact ⟨hf, hkept⟩

/-! ### The length of an array -/

/-- The array `a` keeps its length under the key `s` in the cell `c`, to which nothing else is bound. The
length is `n`, and all elements are below it, except that `late` may be ahead of it. -/
structure Measured (a : ObjectRef) (s : StringRef) (c : CellRef) (n : Nat) (late : Option UInt32)
    (h : Heap) : Prop where
  valid : h.Valid
  own : ∃ obj, h.object a = .ok obj ∧ obj.kind = .array ∧ obj.properties.find? (.string s) = some c
  cell : h.cell c = .ok (lengthDescriptor n)
  unshared : ∀ o obj key, h.object o = .ok obj → obj.properties.find? key = some c → o = a ∧ key = .string s
  below : ∀ obj i c', h.object a = .ok obj → obj.properties.find? (.index i) = some c' →
    i.toNat < n ∨ late = some i

section

variable {a o : ObjectRef} {s : StringRef} {c : CellRef} {n : Nat} {late : Option UInt32}

namespace Measured

/-- **An array stays measured** if its kind and its length stay, and every property of an object either was
there before or has another cell and is no element of the array, or else the late one. -/
theorem frame {late' : Option UInt32} (hm : Measured a s c n late h) (hv : h'.Valid)
    (hown : ∃ obj, h'.object a = .ok obj ∧ obj.kind = .array ∧ obj.properties.find? (.string s) = some c)
    (hcell : h'.cell c = .ok (lengthDescriptor n)) (hlate : ∀ i, late = some i → late' = some i)
    (hentry : ∀ o obj' key c', h'.object o = .ok obj' → obj'.properties.find? key = some c' →
      (∃ obj, h.object o = .ok obj ∧ obj.properties.find? key = some c') ∨
        c' ≠ c ∧ (o = a → ∀ i, key = .index i → late' = some i)) :
    Measured a s c n late' h' where
  valid := hv
  own := hown
  cell := hcell
  unshared o obj key ho hfind := by
    rcases hentry o obj key c ho hfind with ⟨obj', ho', hfind'⟩ | ⟨hne, -⟩
    · exact hm.unshared o obj' key ho' hfind'
    · exact absurd rfl hne
  below obj i c' ho hfind := by
    rcases hentry a obj (.index i) c' ho hfind with ⟨obj', ho', hfind'⟩ | ⟨-, hnew⟩
    · exact (hm.below obj' i c' ho' hfind').imp_right (hlate i)
    · exact .inr (hnew rfl i rfl)

/-- The late element is not ahead of the length after all. -/
theorem settle (hm : Measured a s c n late h) (hlate : ∀ i, late = some i → i.toNat < n) :
    Measured a s c n none h :=
  { hm with below := fun obj i c' ho hfind => .inl ((hm.below obj i c' ho hfind).elim id (hlate i)) }

/-- A new block disturbs nothing. -/
theorem filled {b : Block} {id : Handle} (hm : Measured a s c n late h) (hf : h.Filled b id h') (hv : h'.Valid)
    (hb : ∀ obj, b = .object obj → obj.properties = .empty) : Measured a s c n late h' := by
  obtain ⟨obj, ho, hkind, hfind⟩ := hm.own
  refine hm.frame hv ⟨obj, object_eq_ok.mpr (hf.block?_of_some (object_eq_ok.mp ho)), hkind, hfind⟩
    (cell_eq_ok.mpr (hf.block?_of_some (cell_eq_ok.mp hm.cell))) (fun _ hi => hi) ?_
  exact fun o obj' key c' ho' hfind' => .inl ⟨obj', hf.object_of_find? hb ho' hfind', hfind'⟩

/-- Overwriting an object: its new properties, if they are elements of the array, are late. -/
theorem putObject {late' : Option UInt32} {obj obj' : Object} (hm : Measured a s c n late h)
    (ho : h.object o = .ok obj) (hkind : obj'.kind = obj.kind)
    (hlength : o = a → obj'.properties.find? (.string s) = obj.properties.find? (.string s))
    (hlate : ∀ i, late = some i → late' = some i)
    (hentry : ∀ key c', obj'.properties.find? key = some c' → obj.properties.find? key = some c' ∨
      c' ≠ c ∧ (o = a → ∀ i, key = .index i → late' = some i)) :
    Measured a s c n late' (h.put o.handle (.object obj')) := by
  have hobject := object_put_object ho obj'
  refine hm.frame (hm.valid.putObject ho obj') ?_
    ((cell_put_object ho obj' c).trans hm.cell) hlate ?_
  · obtain ⟨own, hown, harray, hfind⟩ := hm.own
    rw [hobject]
    by_cases hao : a = o
    · subst hao
      rw [ho] at hown
      cases hown
      exact ⟨obj', if_pos rfl, hkind.trans harray, (hlength rfl).trans hfind⟩
    · exact ⟨own, by rw [if_neg hao, hown], harray, hfind⟩
  · intro x obj'' key c' hx hfind
    rw [hobject] at hx
    by_cases hxo : x = o
    · subst hxo
      rw [if_pos rfl] at hx
      cases hx
      exact (hentry key c' hfind).imp_left fun hold => ⟨obj, ho, hold⟩
    · rw [if_neg hxo] at hx
      exact .inl ⟨obj'', hx, hfind⟩

/-- Changing an object so that no property is added, and not the length of the array. -/
theorem modifyObject (o : ObjectRef) {f : Object → Object}
    (hkind : ∀ x, (f x).kind = x.kind)
    (hlength : o = a → ∀ x, (f x).properties.find? (.string s) = x.properties.find? (.string s))
    (hfind : ∀ x key c', (f x).properties.find? key = some c' → x.properties.find? key = some c') :
    Proc.Keeps (Measured a s c n late) (Heap.modifyObject o f) := fun _ hm =>
  leaves_modifyObject hm fun obj ho => hm.putObject ho (hkind obj) (fun hoa => hlength hoa obj) (fun _ hi => hi)
    fun key c' hold => .inl (hfind obj key c' hold)

/-- Changing another cell than that of the length. -/
theorem modifyCell {c' : CellRef} (hne : c' ≠ c) (f : Descriptor → Except Error Descriptor) :
    Proc.Keeps (Measured a s c n late) (Heap.modifyCell c' f) := by
  intro h hm
  refine leaves_modifyCell hm fun d d' hc' _ => ?_
  have hobject := object_put_cell hc' d'
  refine hm.frame (hm.valid.putCell hc' d') ?_ ?_ (fun _ hi => hi) ?_
  · simpa only [hobject] using hm.own
  · rw [cell_put_cell hc', if_neg (Ne.symm hne)]
    exact hm.cell
  · intro o obj key c'' ho hfind
    rw [hobject] at ho
    exact .inl ⟨obj, ho, hfind⟩

/-- Writing the length: it may be any count that the elements stay below. -/
theorem resize {k : Nat} (hm : Measured a s c n late h)
    (hbelow : ∀ obj i c', h.object a = .ok obj → obj.properties.find? (.index i) = some c' → i.toNat < k) :
    writeCell c (.ofCount k) h = .done () (h.put c.handle (.cell (lengthDescriptor k))) ∧
      Measured a s c k none (h.put c.handle (.cell (lengthDescriptor k))) := by
  have hobject := object_put_cell hm.cell (lengthDescriptor k)
  refine ⟨writeCell_done hm.cell rfl _, hm.valid.putCell hm.cell _, ?_, ?_, ?_, ?_⟩
  · simpa only [hobject] using hm.own
  · rw [cell_put_cell hm.cell, if_pos rfl]
  · intro o obj key ho hfind
    rw [hobject] at ho
    exact hm.unshared o obj key ho hfind
  · intro obj i c' ho hfind
    rw [hobject] at ho
    exact .inl (hbelow obj i c' ho hfind)

/-- **Defining a property other than the length** either fails and changes nothing, or leaves the array
measured, its new element being late; one more block is live then. -/
theorem define {key : PropertyKey} (hm : Measured a s c n none h) (hkey : o = a → key ≠ .string s)
    (d : Descriptor) :
    (∃ e, Heap.define o key d h = .failed e h) ∨
      ∃ c' h', Heap.define o key d h = .done c' h' ∧ h'.live = h.live + 1 ∧
        Measured a s c n (if o = a then key.asIndex? else none) h' := by
  rcases define_filled hm.valid o key d with hfailed | ⟨obj, c', h₁, ho, hf, hv, hdone⟩
  · exact .inl hfailed
  have hm₁ := hm.filled hf hv (by simp)
  have ho₁ : h₁.object o = .ok obj := object_eq_ok.mpr (hf.block?_of_some (object_eq_ok.mp ho))
  have hne : c' ≠ c := by
    rintro rfl
    have hcell := cell_eq_ok.mp hm.cell
    rw [hf.fresh rfl] at hcell
    cases hcell
  refine .inr ⟨c', _, hdone, hf.live, ?_⟩
  refine hm₁.putObject ho₁ rfl (fun hoa => ?_) nofun fun key' c'' hfind => ?_
  · rw [PropertyMap.find?_insert, if_neg (hkey hoa)]
  · rw [PropertyMap.find?_insert] at hfind
    split at hfind
    · next hkk =>
      refine .inr ⟨Option.some.inj hfind ▸ hne, fun hoa i hi => ?_⟩
      rw [if_pos hoa, hkk, hi]
      rfl
    · exact .inl hfind

/-- Defining a property of another object. -/
theorem define_other (hoa : o ≠ a) (key : PropertyKey) (d : Descriptor) :
    Proc.Keeps (Measured a s c n none) (Heap.define o key d) := by
  intro h hm
  have hkey : o = a → key ≠ .string s := fun hbad => absurd hbad hoa
  rcases hm.define hkey d with ⟨e, hfailed⟩ | ⟨c', h', hdone, -, hm'⟩
  · rw [hfailed]
    exact hm
  · rw [if_neg hoa] at hm'
    rw [hdone]
    exact hm'

theorem intern (t : Text) : Proc.Keeps (Measured a s c n late) (Heap.intern t) := by
  intro h hm
  have hkept := keeps_intern t h hm.valid
  rcases intern_filled hm.valid t with ⟨r, hdone, -⟩ | ⟨-, ⟨-, hfailed⟩ | ⟨r, h', hdone, hf⟩⟩
  · rw [hdone]
    exact hm
  · rw [hfailed]
    exact hm
  · rw [hdone] at hkept ⊢
    exact hm.filled hf hkept (by simp)

theorem allocObject (prototype : Option ObjectRef) (tag : ClassTag) (kind : ObjectKind) :
    Proc.Keeps (Measured a s c n late) (Heap.allocObject prototype tag kind) := by
  intro h hm
  rcases allocObject_filled hm.valid prototype tag kind with ⟨e, hfailed⟩ | ⟨o, h', hdone, -⟩
  · rw [hfailed]
    exact hm
  · obtain ⟨hf, hv⟩ := allocObject_done hm.valid hdone
    rw [hdone]
    exact hm.filled hf hv fun obj hobj => by rw [← Block.object.inj hobj]

theorem remove {key : PropertyKey} (hkey : o = a → key ≠ .string s) :
    Proc.Keeps (Measured a s c n late) (Heap.remove o key) := by
  refine .bind (.reads _) fun found => ?_
  cases found with
  | none => exact .pure _
  | some c' =>
    refine .bind (modifyObject o (fun _ => rfl) (fun hoa x => ?_) fun x k c'' hfind => ?_) fun _ => .pure _
    · rw [PropertyMap.find?_erase, if_neg (hkey hoa)]
    · rw [PropertyMap.find?_erase] at hfind
      split at hfind
      · cases hfind
      · exact hfind

/-- Cutting off the elements from `k` on. -/
theorem truncate (hm : Measured a s c n late h) (k : UInt32) :
    ∃ h', retainKeys a (fun key => !key.isBeyond k) h = .done () h' ∧ Measured a s c n late h' ∧
      ∀ obj i c', h'.object a = .ok obj → obj.properties.find? (.index i) = some c' → i.toNat < k.toNat := by
  obtain ⟨obj, ho, -⟩ := hm.own
  have hfind : ∀ key, (obj.properties.filter fun key => !key.isBeyond k).find? key =
      if key.isBeyond k then none else obj.properties.find? key := by
    intro key
    rw [PropertyMap.find?_filter]
    cases key.isBeyond k <;> rfl
  refine ⟨_, modifyObject_done ho _, ?_, fun obj' i c' ho' hi => ?_⟩
  · refine hm.putObject ho rfl (fun _ => (hfind _).trans rfl) (fun _ hi => hi) fun key c' hc' => .inl ?_
    rw [hfind] at hc'
    split at hc'
    · cases hc'
    · exact hc'
  · rw [object_put_object ho, if_pos rfl] at ho'
    cases ho'
    rw [hfind] at hi
    split at hi
    · cases hi
    · next hbeyond => simpa [PropertyKey.isBeyond, UInt32.le_iff_toNat_le] using hbeyond

theorem isArray (hm : Measured a s c n late h) : h.isArray a = .ok true := by
  obtain ⟨obj, ho, hkind, -⟩ := hm.own
  exact isArray_eq_ok.mpr ⟨obj, ho, by simp [hkind]⟩

theorem ownCell (hm : Measured a s c n late h) : h.ownCell a (.string s) = .ok (some c) := by
  obtain ⟨obj, ho, -, hfind⟩ := hm.own
  unfold Heap.ownCell
  rw [ho, ← hfind]
  rfl

theorem ownProperty (hm : Measured a s c n late h) :
    h.ownProperty a (.string s) = .ok (some (lengthDescriptor n)) := by
  have hcell := hm.cell
  unfold Heap.ownProperty
  rw [hm.ownCell]
  show (do return some (← h.cell c) : Except Error (Option Descriptor)) = _
  rw [hcell]
  rfl

/-- The cell of any other property is another one. -/
theorem ne_cell {key : PropertyKey} {c' : CellRef} {obj : Object} (hm : Measured a s c n late h)
    (hkey : o = a → key ≠ .string s) (ho : h.object o = .ok obj) (hfind : obj.properties.find? key = some c') :
    c' ≠ c := by
  rintro rfl
  obtain ⟨hoa, hks⟩ := hm.unshared o obj key ho hfind
  exact hkey hoa hks

end Measured

/-- A property that is found is one of its holder. -/
theorem findWithin_holds {key : PropertyKey} {holder : ObjectRef} {c : CellRef} : ∀ (bound : Nat)
    (o : Option ObjectRef), h.findWithin key bound o = .ok (some (holder, c)) →
    ∃ obj, h.object holder = .ok obj ∧ obj.properties.find? key = some c
  | bound, none, hfound => by
    rw [findWithin] at hfound
    cases hfound
  | 0, some o, hfound => by
    rw [findWithin] at hfound
    cases hfound
  | bound + 1, some o, hfound => by
    rw [findWithin] at hfound
    cases ho : h.object o with
    | error e => rw [ho] at hfound; cases hfound
    | ok obj =>
      simp only [ho] at hfound
      cases hown : obj.properties.find? key with
      | none =>
        rw [hown] at hfound
        exact findWithin_holds bound _ hfound
      | some c' =>
        rw [hown] at hfound
        cases hfound
        exact ⟨obj, ho, hown⟩

/-! ### New arrays -/

/-- A new object whose length is defined at once has it for itself. -/
theorem measured_new {h₁ h₂ : Heap} {prototype : Option ObjectRef} {tag : ClassTag} (hv : h.Valid)
    (hl : h.Linked) (halloc : allocObject prototype tag .array h = .done a h₁)
    (hdefine : define a (.string s) (lengthDescriptor n) h₁ = .done c h₂) : Measured a s c n none h₂ := by
  obtain ⟨hf, hv₁⟩ := allocObject_done hv halloc
  have hv₂ := (routine_define (K := fun _ => True) a (.string s) (lengthDescriptor n)).keeps_valid h₁ hv₁
  rw [hdefine] at hv₂
  rcases define_filled hv₁ a (.string s) (lengthDescriptor n) with ⟨e, hfailed⟩ | ⟨obj, c', h', ho, hf', -, hdone⟩
  · rw [hdefine] at hfailed
    cases hfailed
  rw [hdefine] at hdone
  cases hdone
  obtain rfl : obj = ⟨prototype, tag, true, .empty, .array⟩ := by
    have hself := hf.block?_self
    rw [object_eq_ok.mp ho] at hself
    exact Block.object.inj (Option.some.inj hself)
  have ho' := object_eq_ok.mpr (hf'.block?_of_some (object_eq_ok.mp ho))
  have hfind : ∀ key, (PropertyMap.empty.insert (.string s) c).find? key =
      if PropertyKey.string s = key then some c else none := by
    intro key
    rw [PropertyMap.find?_insert]
    simp [PropertyMap.find?, PropertyMap.empty]
  -- The cell of the length is new, so no property is bound to it yet.
  have hunbound : ∀ x obj key, h'.object x = .ok obj → obj.properties.find? key ≠ some c := by
    intro x obj key hx hbound
    have hx₁ := hf'.object_of_find? (by simp) hx hbound
    obtain ⟨d, hc⟩ := hl x obj key c (hf.object_of_find? (by rintro new ⟨⟩; rfl) hx₁ hbound) hbound
    have hfresh := hf'.fresh (x := c.handle) rfl
    rw [hf.block?_of_some (cell_eq_ok.mp hc)] at hfresh
    cases hfresh
  refine ⟨hv₂, ⟨_, by rw [object_put_object ho', if_pos rfl], rfl, by rw [hfind, if_pos rfl]⟩,
    (cell_put_object ho' _ c).trans (cell_eq_ok.mpr hf'.block?_self), fun x obj key hx hbound => ?_,
    fun obj i c' hx hbound => ?_⟩
  · rw [object_put_object ho'] at hx
    by_cases hxa : x = a
    · rw [if_pos hxa] at hx
      cases hx
      rw [hfind] at hbound
      split at hbound
      · next hkey => exact ⟨hxa, hkey.symm⟩
      · cases hbound
    · rw [if_neg hxa] at hx
      exact absurd hbound (hunbound x obj key hx)
  · rw [object_put_object ho', if_pos rfl] at hx
    cases hx
    rw [hfind, if_neg (by simp)] at hbound
    cases hbound

/-- **Defining elements below the length** keeps the array measured, and makes a block for each. -/
theorem Measured.defineElements {h' : Heap} : ∀ (values : List Value) (i : Nat) {h : Heap},
    Measured a s c n none h → i + values.length ≤ n → ScriptCore.defineElements a i values h = .done () h' →
    Measured a s c n none h' ∧ h'.live = h.live + values.length
  | [], i, h, hm, _, hdone => by
    cases hdone
    exact ⟨hm, rfl⟩
  | v :: values, i, h, hm, hle, hdone => by
    rw [List.length_cons] at hle ⊢
    unfold ScriptCore.defineElements at hdone
    rw [Proc.discard_bind, Proc.bind_eq] at hdone
    have hkey : a = a → PropertyKey.index i.toUInt32 ≠ .string s := by simp
    rcases hm.define hkey (.data v) with
      ⟨e, hfailed⟩ | ⟨c', h₁, hdefined, hlive, hm₁⟩
    · rw [hfailed] at hdone
      cases hdone
    · rw [hdefined] at hdone
      have hbelow : i.toUInt32.toNat < n := by
        have := Nat.mod_le i UInt32.size
        show i % UInt32.size < n
        omega
      have hsettled : Measured a s c n none h₁ := hm₁.settle fun j hj => by
        rw [if_pos rfl] at hj
        cases hj
        exact hbelow
      obtain ⟨hm', hlive'⟩ := Measured.defineElements values (i + 1) hsettled (by omega) hdone
      exact ⟨hm', by omega⟩

end

end ScriptCore.Heap
