import ScriptCore.Proofs.Scope.FirstStatement

/-! # Procedures that end in one way

Much of what a procedure does runs no code. Then it ends in one way, whatever the ways to run code: it delivers what it
should, or it finds the heap full.

* `Machine.Builds`: **what the procedure delivers**, if the heap does not get full.
* `Heap.Completes`: what only works on the heap ends.
* `findWithin_next`: a walk along a chain finds what it did while no object is touched. -/

namespace ScriptCore

variable {α β : Type} {h h' : Heap} {m : Machine} {o q : ObjectRef} {obj : Object} {key : PropertyKey} {c : CellRef}
  {d : Descriptor} {e : Error}

/-! ### Procedures that build something -/

/-- **The procedure builds something**, and what it delivers and the heap satisfy `Q`; or it finds the heap full. Of the
machine it works on the heap alone, and how code is run makes no difference. -/
def Machine.Builds (m : Machine) (h : Heap) (p : Engine → Run α) (Q : Heap → α → Prop) : Prop :=
  (∃ h', h'.IsFull ∧ ∀ E, p E { m with heap := h } = .failed .outOfMemory { m with heap := h' }) ∨
    ∃ x h', Q h' x ∧ ∀ E, p E { m with heap := h } = .done x { m with heap := h' }

/-- The procedure delivers something, or it fails since the heap is full. -/
def Heap.Completes (h : Heap) (p : Proc Heap α) : Prop :=
  h.IsFull ∧ p h = .failed .outOfMemory h ∨ ∃ x h', p h = .done x h'

namespace Machine.Builds

variable {p : Engine → Run α} {f : Engine → α → Run β} {P Q : Heap → α → Prop} {Q' : Heap → β → Prop}

theorem pure {x : α} (hx : Q h x) : m.Builds h (fun _ => pure x) Q := .inr ⟨x, h, hx, fun _ => rfl⟩

theorem bind (hp : m.Builds h p P) (hf : ∀ h' x, P h' x → m.Builds h' (fun E => f E x) Q') :
    m.Builds h (fun E => p E >>= f E) Q' := by
  obtain ⟨h', hfull, hfailed⟩ | ⟨x, h', hx, hdone⟩ := hp
  · exact .inl ⟨h', hfull, fun E => Proc.bind_failed (hfailed E) _⟩
  · obtain ⟨h'', hfull, hfailed⟩ | ⟨y, h'', hy, hdone'⟩ := hf h' x hx
    · exact .inl ⟨h'', hfull, fun E => (Proc.bind_done (hdone E) _).trans (hfailed E)⟩
    · exact .inr ⟨y, h'', hy, fun E => (Proc.bind_done (hdone E) _).trans (hdone' E)⟩

theorem discard_bind {f : Engine → Unit → Run β} (hp : m.Builds h p P)
    (hf : ∀ h' x, P h' x → m.Builds h' (fun E => f E ()) Q') : m.Builds h (fun E => discard (p E) >>= f E) Q' := by
  have hbind : m.Builds h (fun E => p E >>= fun _ => f E ()) Q' := hp.bind hf
  simpa only [Proc.discard_bind] using hbind

theorem imp (hp : m.Builds h p P) (hPQ : ∀ h' x, P h' x → Q h' x) : m.Builds h p Q := by
  obtain hfull | ⟨x, h', hx, hdone⟩ := hp
  · exact .inl hfull
  · exact .inr ⟨x, h', hPQ h' x hx, hdone⟩

/-- A procedure over the heap builds what it leaves behind, if it ends. -/
theorem onHeap {p : Proc Heap α} (hcompletes : h.Completes p) (hp : h.Gives p Q) : m.Builds h (fun _ => Run.onHeap p) Q := by
  obtain ⟨hfull, hfailed⟩ | ⟨x, h', hdone⟩ := hcompletes
  · exact .inl ⟨h, hfull, fun _ => Run.onHeap_failed hfailed⟩
  · exact .inr ⟨x, h', hp x h' hdone, fun _ => Run.onHeap_done hdone⟩

/-- What the procedure does on this machine is all that counts. -/
theorem congr {p' : Engine → Run α} (hp : m.Builds h p Q)
    (hsame : ∀ E, p' E { m with heap := h } = p E { m with heap := h }) : m.Builds h p' Q := by
  obtain ⟨h', hfull, hfailed⟩ | ⟨x, h', hx, hdone⟩ := hp
  · exact .inl ⟨h', hfull, fun E => (hsame E).trans (hfailed E)⟩
  · exact .inr ⟨x, h', hx, fun E => (hsame E).trans (hdone E)⟩

theorem read {g : Heap → Except Error α} {x : α} (hx : g h = .ok x) (hf : m.Builds h (fun E => f E x) Q') :
    m.Builds h (fun E => Run.readHeap g >>= f E) Q' := by
  refine hf.congr fun E => ?_
  rw [Run.readHeap_bind]
  dsimp only
  rw [hx]

theorem realm {f : Engine → Realm → Run β} (hf : m.Builds h (fun E => f E m.realm) Q') :
    m.Builds h (fun E => Run.realm >>= f E) Q' := hf

end Machine.Builds

namespace Heap

theorem completes_allocCell (hk : h.WellKept) (d : Descriptor) : h.Completes (allocCell d) := by
  obtain hfull | ⟨c, h', hdone, -⟩ := allocCell_filled hk.valid d
  · exact .inl hfull
  · exact .inr ⟨c, h', hdone⟩

theorem completes_define (hk : h.WellKept) (ho : h.object o = .ok obj) (key : PropertyKey) (d : Descriptor) :
    h.Completes (define o key d) := by
  obtain hfull | ⟨c, h', -, -, hdone⟩ := define_of_object hk.valid ho key d
  · exact .inl hfull
  · exact .inr ⟨c, _, hdone⟩

theorem completes_keyOfName (hk : h.WellKept) (name : String) : h.Completes (keyOfName name) := by
  obtain hfull | ⟨key, h', hi⟩ := keyOfName_ends hk.valid name
  · exact .inl hfull
  · exact .inr ⟨key, h', hi.done⟩

/-- An object with a live prototype is made, if there is room. -/
theorem completes_allocObject (hk : h.WellKept) (hq : h.object q = .ok obj) (tag : ClassTag) (kind : ObjectKind) :
    h.Completes (allocObject (some q) tag kind) := by
  have hread : allocObject (some q) tag kind h =
      (do return ⟨← alloc (.object ⟨some q, tag, true, .empty, kind⟩)⟩ : Proc Heap ObjectRef) h := by
    unfold allocObject
    dsimp only
    rw [Proc.discard_bind, Proc.reads_bind, hq]
  unfold Completes
  rw [hread, Proc.bind_eq]
  obtain ⟨hfull, hfailed⟩ | ⟨id, h', hdone, -⟩ :=
    alloc_filled hk.valid.toConsistent (.object ⟨some q, tag, true, .empty, kind⟩)
  · rw [hfailed]
    exact .inl ⟨hfull, rfl⟩
  · rw [hdone]
    exact .inr ⟨_, h', rfl⟩

theorem completes_installCell (ho : h.object o = .ok obj) (hc : h.cell c = .ok d) (key : PropertyKey) :
    h.Completes (installCell o key c) :=
  .inr ⟨(), _, installCell_done ho hc key⟩

/-- A walk finds what it did as long as no object is touched. -/
theorem findWithin_next {C : CellRef → Prop} (ht : OnlyTouches (fun _ => False) C h h') :
    ∀ (n : Nat) (o : Option ObjectRef) {found},
    h.findWithin key n o = .ok found → h'.findWithin key n o = .ok found
  | _, none, _, hfound => by
    rw [findWithin] at hfound ⊢
    exact hfound
  | 0, some _, _, hfound => by cases hfound
  | n + 1, some o, _, hfound => by
    cases ho : h.object o with
    | error e =>
      rw [findWithin, ho] at hfound
      cases hfound
    | ok obj =>
      rw [findWithin, ho] at hfound
      rw [findWithin, ht.object o obj id ho]
      dsimp only at hfound ⊢
      cases hfind : obj.properties.find? key with
      | some x =>
        rw [hfind] at hfound
        exact hfound
      | none =>
        rw [hfind] at hfound
        exact findWithin_next ht n obj.prototype hfound

end Heap

end ScriptCore
