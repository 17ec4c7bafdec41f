import ScriptCore.Proofs.Scope.Stops

/-! # Destructuring

A pattern of names, nested in objects and arrays, takes a value apart. Reads and writes take turns: each name is written
as soon as its value is found, and what is written may not be read again, since every name is bound to a cell of its own
that no property on the way shares.

* `Heap.BindsEach`: each name is bound to a cell of its own.
* `Heap.Readable`: each property that is read has a value of its own.
* `Machine.Passed`: what is so after some stops.
* `Machine.Goes`: **the way ends at its last stop**, or before one that finds nothing to take apart.
* `Pattern.goes`: every pattern goes its way.
* `writePattern_writes`: **a pattern writes each of its names**, or those in front of the part that fails. -/

namespace ScriptCore

variable {h h' h₁ : Heap} {m : Machine} {R : Realm} {B C : CellRef → Prop} {key : PropertyKey} {v u w : Value}
  {s : ScopeRef} {name : String} {names : List String} {cellOf : String → CellRef} {x y : Sight} {part : Part}
  {path : List Part} {found : Option (ObjectRef × CellRef)}

/-! ### Names in cells of their own -/

/-- The cells of the names. -/
def Slots (cellOf : String → CellRef) (names : List String) (c : CellRef) : Prop := ∃ name ∈ names, c = cellOf name

/-- **Each of the names is bound to a cell of its own** from the scope, which holds a value that may be written, in a
binding object that is not an array. -/
structure Heap.BindsEach (h : Heap) (s : ScopeRef) (names : List String) (cellOf : String → CellRef) : Prop where
  bound : ∀ name ∈ names, ∃ key o, h.Spells key name ∧ h.Finds key s (some (o, cellOf name)) ∧ h.isArray o = .ok false
  stores : ∀ name ∈ names, ∃ v, h.Stores (cellOf name) v
  apart : ∀ name ∈ names, ∀ name' ∈ names, cellOf name = cellOf name' → name = name'

namespace Heap

/-- The walk finds what it did as long as no object is touched. -/
theorem Finds.next (hf : h.Finds key s found) (ht : OnlyTouches (fun _ => False) C h h') : h'.Finds key s found := by
  have hown : ∀ {o x}, h.ownCell o key = .ok x → h'.ownCell o key = .ok x := by
    intro o x hx
    unfold Heap.ownCell at hx ⊢
    cases ho : h.object o with
    | error e => rw [ho] at hx; cases hx
    | ok obj =>
      rw [ho] at hx
      rw [ht.object o obj id ho]
      exact hx
  induction hf with
  | here hs hcell => exact .here (ht.scope _ _ hs) (hown hcell)
  | outermost hs hnone hparent => exact .outermost (ht.scope _ _ hs) (hown hnone) hparent
  | outer hs hnone hparent _ ih => exact .outer (ht.scope _ _ hs) (hown hnone) hparent ih

namespace BindsEach

variable (hb : h.BindsEach s names cellOf)
include hb

theorem next (ht : OnlyTouches (fun _ => False) C h h') (hstores : ∀ name ∈ names, ∃ v, h'.Stores (cellOf name) v) :
    h'.BindsEach s names cellOf := by
  refine ⟨fun name hname => ?_, hstores, hb.apart⟩
  obtain ⟨key, o, hs, hf, harray⟩ := hb.bound name hname
  refine ⟨key, o, ht.spells hs, hf.next ht, ?_⟩
  obtain ⟨obj, ho, hkind⟩ := Heap.isArray_eq_ok.mp harray
  exact Heap.isArray_eq_ok.mpr ⟨obj, ht.object o obj id ho, hkind⟩

/-- The cell of a name is not that of another. -/
theorem not_slots {others : List String} (hsub : others ⊆ names) (hname : name ∈ names) (hnot : name ∉ others) :
    ¬ Slots cellOf others (cellOf name) := by
  rintro ⟨other, hother, hsame⟩
  obtain rfl := hb.apart name hname other (hsub hother) hsame
  exact hnot hother

/-- **A name takes a value**, and no other cell is touched. -/
theorem builds_assignName (hk : h.WellKept) (hname : name ∈ names) (w : Value) :
    m.Builds h (fun E => assignName E s name w) fun h' _ => h'.WellKept ∧
      OnlyTouches (fun _ => False) (· = cellOf name) h h' ∧ h'.Stores (cellOf name) w ∧ ∃ key, h'.Named name key := by
  obtain ⟨key, o, hs, hf, harray⟩ := hb.bound name hname
  obtain ⟨v, d, hd, hcontent⟩ := hb.stores name hname
  obtain ⟨sc, hsc⟩ := hf.exists_scope
  rcases keyOfName_ends hk.valid name with ⟨hfull, hfailed⟩ | ⟨key', h₁, hi⟩
  · exact .inl ⟨h, hfull, fun E => Proc.bind_failed (Run.onHeap_failed hfailed) _⟩
  obtain ⟨hk₁, -, hs₁⟩ := keyOfName_names hk hi.done
  obtain rfl := (hi.untouched.spells hs).key_eq hk₁.valid.canonical hs₁
  have hd₁ : h₁.cell (cellOf name) = .ok d := (hi.cell _).trans hd
  obtain ⟨-, htext, hvalid⟩ := put_cell hd₁ { d with content := .data w true }
  have hset : ∀ E, setProperty E o key w sc.strict { m with heap := h₁ } = _ := fun E =>
    setProperty_own (m := { m with heap := h₁ }) ((hi.isArray o).trans harray) ((hi.ownCell o key).trans (hf.ownCell rfl))
      hd₁ hcontent E w sc.strict
  refine .inr ⟨(), _, ⟨⟨hvalid hk₁.valid, hk₁.numbered.put _ _⟩, ?_, ?_, key, hi.named.of_text htext⟩, fun E => ?_⟩
  · exact hi.untouched.untouched.andThen (onlyTouches_put_cell hd₁ _)
  · exact ⟨_, (cell_put_cell hd₁ _ _).trans (if_pos rfl), rfl⟩
  · dsimp only
    rw [assignName_bound (m := { m with heap := h }) hi.done (hi.finds hf) rfl ((hi.scope s).trans hsc)]
    exact Proc.bind_done (hset E) _

end BindsEach

/-- A name that was interned is a key at once. -/
theorem Named.naming (hnamed : h.Named name key) (hv : h.Valid) : h.Naming name key h :=
  ⟨hnamed.keyOfName hv, hv, hnamed, fun _ => rfl, fun _ => rfl, fun _ => rfl, fun _ _ ht => ht⟩

section Looking

variable (hb : m.heap.BindsEach s names cellOf) (hname : name ∈ names) (hstores : m.heap.Stores (cellOf name) w)
include hb hname hstores

/-- **Looking a name up delivers what its cell holds.** -/
theorem BindsEach.lookupName_done (hi : m.heap.Naming name key h₁) (E : Engine) :
    lookupName E s name m = .done w { m with heap := h₁ } := by
  obtain ⟨key', o, hs, hf, -⟩ := hb.bound name hname
  obtain ⟨d, hd, hcontent⟩ := hstores
  obtain ⟨t, ht, hkey⟩ := hi.named
  obtain rfl := (hi.untouched.spells hs).key_eq hi.valid.canonical (spells_of_keyOfString ht hkey)
  rw [lookupName_bound hi.done (hi.finds hf) rfl ((hi.cell _).trans hd)]
  exact readDescriptor_data hcontent E _ _

theorem BindsEach.reads (hv : m.heap.Valid) : m.Reads s name w := by
  intro E
  rcases keyOfName_ends hv name with ⟨hfull, hfailed⟩ | ⟨key, h₁, hi⟩
  · exact .inr ⟨hfull, Proc.bind_failed (Run.onHeap_failed hfailed) _⟩
  · exact .inl ⟨h₁, hb.lookupName_done hname hstores hi E⟩

end Looking

end Heap

/-! ### Going the way -/

/-- **Each property that is read has a value of its own**: every stop is led to that comes before something that cannot
be taken apart. -/
def Heap.Readable (h : Heap) (R : Realm) (B : CellRef → Prop) (x : Sight) (stops : List Stop) : Prop :=
  ∀ before p after, stops = before ++ p :: after →
    (∀ q ∈ before, q.kind = .apart → ∃ y, h.Leads R B x q.path y ∧ y.isNullish = false) → ∃ y, h.Leads R B x p.path y

namespace Heap.Readable

variable {stops stops' : List Stop}

theorem left (hr : h.Readable R B x (stops ++ stops')) : h.Readable R B x stops := by
  rintro before p after rfl hpassed
  exact hr before p (after ++ stops') (by simp) hpassed

theorem right (hr : h.Readable R B x (stops ++ stops'))
    (hstops : ∀ q ∈ stops, q.kind = .apart → ∃ y, h.Leads R B x q.path y ∧ y.isNullish = false) :
    h.Readable R B x stops' := by
  rintro before p after rfl hpassed
  refine hr (stops ++ before) p after (by simp) fun q hq hkind => ?_
  rcases List.mem_append.mp hq with hq | hq
  · exact hstops q hq hkind
  · exact hpassed q hq hkind

/-- The stops in a part are readable from there. -/
theorem under (hc : h.Canonical) (hn : h.Spells R.names.length "length")
    (hr : h.Readable R B x (stops.map (Stop.under part))) (hne : stops ≠ []) :
    ∃ y, h.HasPart R B x part y ∧ h.Readable R B y stops := by
  obtain ⟨y, hpart⟩ : ∃ y, h.HasPart R B x part y := by
    obtain ⟨p, rest, rfl⟩ := List.exists_cons_of_ne_nil hne
    obtain ⟨_, hleads⟩ := hr [] (p.under part) (rest.map (Stop.under part)) rfl nofun
    cases hleads with
    | cons hpart _ => exact ⟨_, hpart⟩
  refine ⟨y, hpart, ?_⟩
  rintro before p after rfl hpassed
  obtain ⟨z, hleads⟩ := hr (before.map (Stop.under part)) (p.under part) (after.map (Stop.under part)) (by simp)
    fun q hq hkind => by
      obtain ⟨r, hr, rfl⟩ := List.mem_map.mp hq
      obtain ⟨z, hleads, hz⟩ := hpassed r hr hkind
      exact ⟨z, .cons hpart hleads, hz⟩
  cases hleads with
  | cons hpart' hleads =>
    cases hpart'.unique hc hn hpart
    exact ⟨z, hleads⟩

end Heap.Readable

/-- **What is so after some stops**: the names there hold what the paths lead to, and reading along the paths delivers
it; what was taken apart was not `undefined` or `null`; and nothing else was touched. -/
structure Machine.Passed (m : Machine) (names : List String) (cellOf : String → CellRef) (x : Sight) (v : Value)
    (stops : List Stop) (h h' : Heap) : Prop where
  kept : h'.WellKept
  touches : Heap.OnlyTouches (fun _ => False) (Slots cellOf (stopNames stops)) h h'
  written : ∀ p ∈ stops, ∀ name, p.kind = .name name → ∃ y w key, y.Shown h' w ∧ h'.Stores (cellOf name) w ∧
    h'.Named name key ∧ m.heap.Leads m.realm (Slots cellOf names) x p.path y ∧
    m.Follows (Slots cellOf names) h' v p.path w
  apart : ∀ p ∈ stops, p.kind = .apart → ∃ y, m.heap.Leads m.realm (Slots cellOf names) x p.path y ∧ y.isNullish = false

/-- **The procedure goes the way from stop to stop**: it gets past the last one, or it fails at the first that finds
`undefined` or `null` to take apart; or it finds the heap full. How code is run makes no difference. -/
inductive Machine.Goes (m : Machine) (names : List String) (cellOf : String → CellRef) (x : Sight) (v : Value)
    (stops : List Stop) (h : Heap) (p : Engine → Run Unit) : Prop where
  | full {h' : Heap} : h'.IsFull →
      (∀ E, p E { m with heap := h } = .failed .outOfMemory { m with heap := h' }) → Goes m names cellOf x v stops h p
  | passed {h' : Heap} : m.Passed names cellOf x v stops h h' →
      (∀ E, p E { m with heap := h } = .done () { m with heap := h' }) → Goes m names cellOf x v stops h p
  | stopped {before after : List Stop} {q : Stop} {y : Sight} {h' : Heap} {text : String} :
      stops = before ++ q :: after → m.Passed names cellOf x v before h h' → q.kind = .apart →
      m.heap.Leads m.realm (Slots cellOf names) x q.path y → y.isNullish = true →
      (∀ E, p E { m with heap := h } = .failed (.typeError text) { m with heap := h' }) → Goes m names cellOf x v stops h p

/-- The heap on the way: nothing but the cells of the names was touched, and they are bound as they were. -/
structure Machine.OnWay (m : Machine) (s : ScopeRef) (names : List String) (cellOf : String → CellRef) (h : Heap) :
    Prop where
  kept : h.WellKept
  touches : Heap.OnlyTouches (fun _ => False) (Slots cellOf names) m.heap h
  binds : h.BindsEach s names cellOf

theorem Slots.mono {some more : List String} {c : CellRef} (hc : Slots cellOf some c) (hsub : some ⊆ more) :
    Slots cellOf more c :=
  let ⟨name, hname, hsame⟩ := hc
  ⟨name, hsub hname, hsame⟩

namespace Machine

variable {stops stops' : List Stop} {h₂ : Heap}

theorem OnWay.untouched (ho : m.OnWay s names cellOf h) (hk : h'.WellKept) (ht : Heap.Untouched h h') :
    m.OnWay s names cellOf h' :=
  ⟨hk, ho.touches.andThen ht.untouched,
    ho.binds.next ht fun name hname => (ho.binds.stores name hname).imp fun _ hv => ht.stores id hv⟩

theorem OnWay.passed (ho : m.OnWay s names cellOf h) (hp : m.Passed names cellOf x v stops h h')
    (hsub : stopNames stops ⊆ names) : m.OnWay s names cellOf h' := by
  refine ⟨hp.kept, ho.touches.andThen (hp.touches.widen fun _ hc => hc.mono hsub),
    ho.binds.next hp.touches fun name hname => ?_⟩
  by_cases hmem : name ∈ stopNames stops
  · obtain ⟨p, hp', hkind⟩ := mem_stopNames.mp hmem
    obtain ⟨_, w, _, -, hw, -⟩ := hp.written p hp' name hkind
    exact ⟨w, hw⟩
  · exact (ho.binds.stores name hname).imp fun _ hv => hp.touches.stores (ho.binds.not_slots hsub hname hmem) hv

namespace Passed

theorem nil (hk : h.WellKept) : m.Passed names cellOf x v [] h h :=
  ⟨hk, .refl _ _ h, nofun, nofun⟩

/-- A stop where nothing is written. -/
theorem start {p : Stop} (hk : h.WellKept) (hpath : p.path = []) (hname : ∀ name, p.kind ≠ .name name)
    (hx : p.kind = .apart → x.isNullish = false) : m.Passed names cellOf x v [p] h h := by
  refine ⟨hk, .refl _ _ h, fun q hq name hkind => ?_, fun q hq hkind => ?_⟩
  · rw [List.mem_singleton.mp hq] at hkind
    exact absurd hkind (hname name)
  · obtain rfl := List.mem_singleton.mp hq
    rw [hpath]
    exact ⟨x, .nil, hx hkind⟩

/-- **The one part of the way after the other.** What was written stays, as the names are not the same. -/
theorem append (hp : m.Passed names cellOf x v stops h h₁) (hp' : m.Passed names cellOf x v stops' h₁ h')
    (hb : h.BindsEach s names cellOf) (hsub : stopNames (stops ++ stops') ⊆ names)
    (hnodup : (stopNames (stops ++ stops')).Nodup) : m.Passed names cellOf x v (stops ++ stops') h h' := by
  rw [stopNames_append] at hsub hnodup
  obtain ⟨hsub₁, hsub₂⟩ := List.append_subset.mp hsub
  have ht₂ : Heap.OnlyTouches (fun _ => False) (Slots cellOf names) h₁ h' :=
    hp'.touches.widen fun _ hc => hc.mono hsub₂
  refine ⟨hp'.kept, ?_, fun p hmem name hkind => ?_, fun p hmem hkind => ?_⟩
  · rw [stopNames_append]
    have ht : Heap.OnlyTouches (fun _ => False) (Slots cellOf (stopNames stops ++ stopNames stops')) h h₁ :=
      hp.touches.widen fun _ hc => hc.mono (List.subset_append_left _ _)
    exact ht.andThen (hp'.touches.widen fun _ hc => hc.mono (List.subset_append_right _ _))
  · rcases List.mem_append.mp hmem with hmem | hmem
    · obtain ⟨y, w, key, hy, hw, hnamed, hleads, hfollows⟩ := hp.written p hmem name hkind
      have hname : name ∈ stopNames stops := mem_stopNames.mpr ⟨p, hmem, hkind⟩
      have hnot : name ∉ stopNames stops' := fun hname' =>
        (List.nodup_append.mp hnodup).2.2 name hname name hname' rfl
      exact ⟨y, w, key, hy.next ht₂, hp'.touches.stores (hb.not_slots hsub₂ (hsub₁ hname) hnot) hw, hnamed.next ht₂,
        hleads, hfollows.next ht₂⟩
    · exact hp'.written p hmem name hkind
  · rcases List.mem_append.mp hmem with hmem | hmem
    · exact hp.apart p hmem hkind
    · exact hp'.apart p hmem hkind

/-- **The way through a part**, once it was read. -/
theorem under (hp : m.Passed names cellOf y u stops h₁ h') (ht : Heap.Untouched h h₁) (hnamed : part.Named h₁ key)
    (hs : m.Settles (Slots cellOf names) h₁ v key u) (hpart : m.heap.HasPart m.realm (Slots cellOf names) x part y)
    (hsub : stopNames stops ⊆ names) : m.Passed names cellOf x v (stops.map (Stop.under part)) h h' := by
  have ht' : Heap.OnlyTouches (fun _ => False) (Slots cellOf names) h₁ h' :=
    hp.touches.widen fun _ hc => hc.mono hsub
  refine ⟨hp.kept, ?_, fun p hmem name hkind => ?_, fun p hmem hkind => ?_⟩
  · rw [stopNames_under]
    exact ht.untouched.andThen hp.touches
  · obtain ⟨q, hq, rfl⟩ := List.mem_map.mp hmem
    obtain ⟨z, w, k, hz, hw, hname, hleads, hfollows⟩ := hp.written q hq name hkind
    exact ⟨z, w, k, hz, hw, hname, .cons hpart hleads, .cons (hnamed.next ht') (hs.next ht') hfollows⟩
  · obtain ⟨q, hq, rfl⟩ := List.mem_map.mp hmem
    obtain ⟨z, hleads, hz⟩ := hp.apart q hq hkind
    exact ⟨z, .cons hpart hleads, hz⟩

end Passed

namespace Goes

variable {p : Engine → Run Unit}

theorem seq {q : Engine → Run Unit} (hp : m.Goes names cellOf x v stops h p)
    (hq : ∀ h', m.Passed names cellOf x v stops h h' → m.Goes names cellOf x v stops' h' q)
    (hb : h.BindsEach s names cellOf) (hsub : stopNames (stops ++ stops') ⊆ names)
    (hnodup : (stopNames (stops ++ stops')).Nodup) :
    m.Goes names cellOf x v (stops ++ stops') h (fun E => do p E; q E) := by
  cases hp with
  | full hfull hfailed => exact .full hfull fun E => Proc.bind_failed (hfailed E) _
  | @stopped before after r _ _ _ hstops hpassed hkind hleads hnullish hfailed =>
    have hsplit : stops ++ stops' = before ++ r :: (after ++ stops') := by
      rw [hstops, List.append_assoc, List.cons_append]
    exact .stopped hsplit hpassed hkind hleads hnullish fun E => Proc.bind_failed (hfailed E) _
  | passed hpassed hdone =>
    cases hq _ hpassed with
    | full hfull hfailed => exact .full hfull fun E => (Proc.bind_done (hdone E) _).trans (hfailed E)
    | passed hpassed' hdone' =>
      exact .passed (hpassed.append hpassed' hb hsub hnodup) fun E => (Proc.bind_done (hdone E) _).trans (hdone' E)
    | @stopped before after r _ _ _ hstops hpassed' hkind hleads hnullish hfailed =>
      have hsplit : stops ++ stops' = (stops ++ before) ++ r :: after := by
        rw [hstops, List.append_assoc]
      rw [hsplit, stopNames_append] at hsub hnodup
      exact .stopped hsplit
        (hpassed.append hpassed' hb (List.append_subset.mp hsub).1 (List.nodup_append.mp hnodup).1) hkind hleads hnullish
        fun E => (Proc.bind_done (hdone E) _).trans (hfailed E)

theorem under {get : Engine → Run Value} {f : Engine → Value → Run Unit}
    (hget : m.Builds h get fun h₁ u => h₁.WellKept ∧ Heap.Untouched h h₁ ∧ y.Shown h₁ u ∧
      m.Settles (Slots cellOf names) h₁ v key u)
    (hnamed : part.Named h key) (hpart : m.heap.HasPart m.realm (Slots cellOf names) x part y)
    (hsub : stopNames stops ⊆ names)
    (hf : ∀ h₁ u, h₁.WellKept → Heap.Untouched h h₁ → y.Shown h₁ u →
      m.Goes names cellOf y u stops h₁ (fun E => f E u)) :
    m.Goes names cellOf x v (stops.map (Stop.under part)) h (fun E => get E >>= f E) := by
  obtain ⟨h₁, hfull, hfailed⟩ | ⟨u, h₁, ⟨hk₁, ht₁, hy, hs⟩, hdone⟩ := hget
  · exact .full hfull fun E => Proc.bind_failed (hfailed E) _
  cases hf h₁ u hk₁ ht₁ hy with
  | full hfull hfailed => exact .full hfull fun E => (Proc.bind_done (hdone E) _).trans (hfailed E)
  | passed hpassed hdone' =>
    exact .passed (hpassed.under ht₁ (hnamed.next ht₁) hs hpart hsub) fun E =>
      (Proc.bind_done (hdone E) _).trans (hdone' E)
  | @stopped before after q _ _ _ hstops hpassed hkind hleads hnullish hfailed =>
    rw [hstops, stopNames_append] at hsub
    have hsplit : stops.map (Stop.under part) =
        before.map (Stop.under part) ++ q.under part :: after.map (Stop.under part) := by
      rw [hstops, List.map_append, List.map_cons]
    exact .stopped hsplit (hpassed.under ht₁ (hnamed.next ht₁) hs hpart (List.append_subset.mp hsub).1) hkind
      (.cons hpart hleads) hnullish fun E => (Proc.bind_done (hdone E) _).trans (hfailed E)

end Goes

end Machine

/-! ### Every pattern goes its way -/

theorem requireIterable_nullish (hv : v.isNullish = true) : ∃ text, ∀ m : Machine,
    requireIterable v m = .failed (.typeError text) m := by
  cases v with
  | undefined | null => exact ⟨_, fun _ => rfl⟩
  | _ => cases hv

theorem requireIterable_done (hv : v.isNullish = false) (m : Machine) : requireIterable v m = .done () m := by
  unfold requireIterable
  rw [hv]
  rfl

section Going

variable {stops stops' : List Stop}

/-- A value is written to a name. -/
theorem Machine.OnWay.goes_assignName (ho : m.OnWay s names cellOf h) (hx : x.Shown h v) (hname : name ∈ names) :
    m.Goes names cellOf x v [⟨[], .name name⟩] h (fun E => assignName E s name v) := by
  obtain ⟨h', hfull, hfailed⟩ | ⟨_, h', ⟨hk', ht, hv, key, hnamed⟩, hdone⟩ := ho.binds.builds_assignName ho.kept hname v
  · exact .full hfull hfailed
  refine .passed ⟨hk', ht.widen fun _ hc => ⟨name, List.mem_singleton_self _, hc⟩,
    fun p hp other hkind => ?_, fun p hp hkind => ?_⟩ hdone
  · obtain rfl := List.mem_singleton.mp hp
    cases hkind
    exact ⟨x, v, key, hx.next ht, hv, hnamed, .nil, .nil⟩
  · obtain rfl := List.mem_singleton.mp hp
    cases hkind

/-- **A value is taken apart**, if it is not `undefined` or `null`. -/
theorem Machine.OnWay.goes_apart {p q : Engine → Run Unit} (ho : m.OnWay s names cellOf h)
    (hr : m.heap.Readable m.realm (Slots cellOf names) x (⟨[], .apart⟩ :: stops))
    (hsub : stopNames stops ⊆ names) (hnodup : (stopNames stops).Nodup)
    (hnullish : x.isNullish = true → ∃ text, ∀ E, p E { m with heap := h } = .failed (.typeError text) { m with heap := h })
    (hdone : x.isNullish = false → ∀ E, p E { m with heap := h } = q E { m with heap := h })
    (hq : m.heap.Readable m.realm (Slots cellOf names) x stops → m.Goes names cellOf x v stops h q) :
    m.Goes names cellOf x v (⟨[], .apart⟩ :: stops) h p := by
  cases hx : x.isNullish with
  | true =>
    obtain ⟨text, hfailed⟩ := hnullish hx
    have hsplit : ⟨[], .apart⟩ :: stops = [] ++ (⟨[], .apart⟩ : Stop) :: stops := rfl
    exact .stopped hsplit (.nil ho.kept) rfl .nil hx hfailed
  | false =>
    have hstart : m.Passed names cellOf x v [⟨[], .apart⟩] h h := .start ho.kept rfl nofun fun _ => hx
    have hread : m.heap.Readable m.realm (Slots cellOf names) x ([⟨[], .apart⟩] ++ stops) := hr
    have hrun := hdone hx
    cases hq (hread.right hstart.apart) with
    | full hfull hfailed => exact .full hfull fun E => (hrun E).trans (hfailed E)
    | passed hpassed hends => exact .passed (hstart.append hpassed ho.binds hsub hnodup) fun E => (hrun E).trans (hends E)
    | @stopped before after r _ _ _ hstops hpassed hkind hleads hnull hfailed =>
      have hsplit : ⟨[], .apart⟩ :: stops = (⟨[], .apart⟩ :: before) ++ r :: after := congrArg _ hstops
      rw [hstops, stopNames_append] at hsub hnodup
      exact .stopped hsplit
        (hstart.append hpassed ho.binds (List.append_subset.mp hsub).1 (List.nodup_append.mp hnodup).1) hkind hleads hnull
        fun E => (hrun E).trans (hfailed E)

/-- A target of an object or array pattern, and those after it: the part is read and written. -/
theorem Machine.OnWay.goes_target {f : Engine → Value → Run Unit} {q : Engine → Run Unit} (ho : m.OnWay s names cellOf h)
    (hn : m.realm.names.Spelled m.heap) (hc : m.heap.Canonical) (hx : x.Shown h v) (hnamed : part.Named h key)
    (hr : m.heap.Readable m.realm (Slots cellOf names) x (stops.map (Stop.under part) ++ stops')) (hne : stops ≠ [])
    (hsub : stopNames stops ++ stopNames stops' ⊆ names) (hnodup : (stopNames stops ++ stopNames stops').Nodup)
    (hf : ∀ {h₁ y u}, m.OnWay s names cellOf h₁ → Heap.Untouched h h₁ → y.Shown h₁ u →
      m.heap.Readable m.realm (Slots cellOf names) y stops → m.Goes names cellOf y u stops h₁ (fun E => f E u))
    (hq : ∀ {h₁}, m.OnWay s names cellOf h₁ → Heap.OnlyTouches (fun _ => False) (Slots cellOf names) h h₁ → x.Shown h₁ v →
      m.heap.Readable m.realm (Slots cellOf names) x stops' → m.Goes names cellOf x v stops' h₁ q) :
    m.Goes names cellOf x v (stops.map (Stop.under part) ++ stops') h
      (fun E => do let item ← getProperty E v key; f E item; q E) := by
  obtain ⟨y, hpart, hry⟩ := hr.left.under hc hn.length hne
  rw [← stopNames_under part, ← stopNames_append] at hsub hnodup
  have hsub₁ : stopNames (stops.map (Stop.under part)) ⊆ names := by
    rw [stopNames_append] at hsub
    exact (List.append_subset.mp hsub).1
  have hfirst : m.Goes names cellOf x v (stops.map (Stop.under part)) h (fun E => getProperty E v key >>= f E) :=
    .under (builds_getPart ho.kept ho.touches hn hx hnamed.is hpart) hnamed hpart (stopNames_under part stops ▸ hsub₁)
      fun h₁ u hk₁ ht₁ hy => hf (ho.untouched hk₁ ht₁) ht₁ hy hry
  have hboth := hfirst.seq (q := q) (fun h₁ hp => hq (ho.passed hp hsub₁)
    (hp.touches.widen fun _ hc => hc.mono hsub₁) (hx.next hp.touches) (hr.right hp.apart))
      ho.binds hsub hnodup
  simpa only [bind_assoc] using hboth

mutual

/-- **Every pattern goes its way.** -/
theorem Pattern.goes (hn : m.realm.names.Spelled m.heap) (hc : m.heap.Canonical) :
    ∀ (target : Pattern) {r : Reference} {h : Heap} {x : Sight} {v : Value},
    m.OnWay s names cellOf h → target.ResolvesTo h s r → x.Shown h v →
      m.heap.Readable m.realm (Slots cellOf names) x target.stops → stopNames target.stops ⊆ names →
        (stopNames target.stops).Nodup → m.Goes names cellOf x v target.stops h (fun E => r.write E v)
  | .ident name, _, h, x, v, ho, hr, hx, _, hsub, _ => by
    obtain rfl := hr
    unfold Reference.write
    exact ho.goes_assignName hx (hsub (List.mem_singleton_self _))
  | .member _ _, _, _, _, _, _, hr, _, _, _, _ => hr.elim
  | .object [], _, h, x, v, ho, ⟨_, hr, hrs⟩, _, _, _, _ => by
    obtain rfl := hrs
    obtain rfl := hr
    unfold Reference.write writeProperties
    exact .passed (.start ho.kept rfl nofun nofun) fun _ => rfl
  | .object ((name, target) :: rest), _, h, x, v, ho, ⟨rs, hr, hrs⟩, hx, hread, hsub, hnodup => by
    obtain rfl := hr
    unfold Reference.write
    refine ho.goes_apart hread hsub hnodup (fun hnullish => ?_) (fun _ _ => rfl) fun hread' =>
      goes_properties hn hc ((name, target) :: rest) ho hrs hx hread' hsub hnodup
    obtain ⟨key, r, rs', rfl, hnamed, -, -⟩ := hrs
    have hkey : (Part.property name).Named h key := hnamed
    obtain ⟨text, hfailed⟩ := getProperty_nullish (m := m) hx hkey.is hnullish
    refine ⟨text, fun E => ?_⟩
    unfold writeProperties
    exact Proc.bind_failed (hfailed E) _
  | .array elements, _, h, x, v, ho, ⟨rs, hr, hrs⟩, hx, hread, hsub, hnodup => by
    obtain rfl := hr
    unfold Reference.write
    refine ho.goes_apart hread hsub hnodup (fun hnullish => ?_) (fun hnullish E => ?_) fun hread' =>
      goes_elements hn hc 0 elements ho hrs hx hread' hsub hnodup
    · rw [hx.isNullish] at hnullish
      obtain ⟨text, hfailed⟩ := requireIterable_nullish hnullish
      exact ⟨text, fun E => Proc.bind_failed (hfailed _) _⟩
    · rw [hx.isNullish] at hnullish
      exact Proc.bind_done (requireIterable_done hnullish _) _

theorem goes_properties (hn : m.realm.names.Spelled m.heap) (hc : m.heap.Canonical) :
    ∀ (properties : List (String × Pattern)) {rs : List (PropertyKey × Reference)} {h : Heap} {x : Sight}
    {v : Value}, m.OnWay s names cellOf h → propertiesResolveTo h s properties rs → x.Shown h v →
      m.heap.Readable m.realm (Slots cellOf names) x (propertyStops properties) →
        stopNames (propertyStops properties) ⊆ names → (stopNames (propertyStops properties)).Nodup →
          m.Goes names cellOf x v (propertyStops properties) h (fun E => writeProperties E v rs)
  | [], _, h, x, v, ho, hrs, _, _, _, _ => by
    obtain rfl := hrs
    unfold writeProperties
    exact .passed (.nil ho.kept) fun _ => rfl
  | (name, target) :: rest, _, h, x, v, ho, ⟨key, r, rs', hrs, hnamed, hr, hrest⟩, hx, hread, hsub, hnodup => by
    subst hrs
    unfold propertyStops at hread hsub hnodup ⊢
    rw [stopNames_append, stopNames_under] at hsub hnodup
    unfold writeProperties
    have hkey : (Part.property name).Named h key := hnamed
    refine ho.goes_target hn hc hx hkey hread target.stops_ne_nil hsub hnodup
      (fun ho₁ ht₁ hy hry => ?_) fun ho₁ ht₁ hx₁ hr₁ => ?_
    · exact Pattern.goes hn hc target ho₁ (Pattern.ResolvesTo.next ht₁ target hr) hy hry (List.append_subset.mp hsub).1
        (List.nodup_append.mp hnodup).1
    · exact goes_properties hn hc rest ho₁ (propertiesResolveTo_next ht₁ rest hrest) hx₁ hr₁ (List.append_subset.mp hsub).2
        (List.nodup_append.mp hnodup).2.1

theorem goes_elements (hn : m.realm.names.Spelled m.heap) (hc : m.heap.Canonical) :
    ∀ (i : Nat) (elements : List (Option Pattern)) {rs : List (Option Reference)} {h : Heap} {x : Sight} {v : Value},
      m.OnWay s names cellOf h → elementsResolveTo h s elements rs → x.Shown h v →
      m.heap.Readable m.realm (Slots cellOf names) x (elementStops i elements) →
        stopNames (elementStops i elements) ⊆ names → (stopNames (elementStops i elements)).Nodup →
          m.Goes names cellOf x v (elementStops i elements) h (fun E => writeElements E v i rs)
  | _, [], _, h, x, v, ho, hrs, _, _, _, _ => by
    obtain rfl := hrs
    unfold writeElements
    exact .passed (.nil ho.kept) fun _ => rfl
  | i, none :: rest, _, h, x, v, ho, ⟨rs', hrs, hrest⟩, hx, hread, hsub, hnodup => by
    subst hrs
    unfold elementStops at hread hsub hnodup ⊢
    unfold writeElements
    exact goes_elements hn hc (i + 1) rest ho hrest hx hread hsub hnodup
  | i, some target :: rest, _, h, x, v, ho, ⟨r, rs', hrs, hr, hrest⟩, hx, hread, hsub, hnodup => by
    subst hrs
    unfold elementStops at hread hsub hnodup ⊢
    rw [stopNames_append, stopNames_under] at hsub hnodup
    unfold writeElements
    have hkey : (Part.element i).Named h (.index i.toUInt32) := rfl
    refine ho.goes_target hn hc hx hkey hread target.stops_ne_nil hsub hnodup
      (fun ho₁ ht₁ hy hry => ?_) fun ho₁ ht₁ hx₁ hr₁ => ?_
    · exact Pattern.goes hn hc target ho₁ (Pattern.ResolvesTo.next ht₁ target hr) hy hry (List.append_subset.mp hsub).1
        (List.nodup_append.mp hnodup).1
    · exact goes_elements hn hc (i + 1) rest ho₁ (elementsResolveTo_next ht₁ rest hrest) hx₁ hr₁
        (List.append_subset.mp hsub).2 (List.nodup_append.mp hnodup).2.1

end

end Going

/-! ### Patterns that are written -/

/-- **What a pattern wrote**: each name at the stops in front holds what its path leads to, and following the path
delivers it; the names at the other stops hold what they did; and nothing else was touched. -/
structure Machine.Wrote (m : Machine) (s : ScopeRef) (names : List String) (cellOf : String → CellRef) (v : Value)
    (before after : List Stop) (m' : Machine) : Prop where
  written : ∀ p ∈ before, ∀ name, p.kind = .name name → ∃ y w,
    m.heap.Leads m.realm (Slots cellOf names) (m.heap.sight v) p.path y ∧ y.Shown m'.heap w ∧
      (∀ E, lookupName E s name m' = .done w m') ∧ ∀ E, getPath E v p.path m' = .done w m'
  left : ∀ p ∈ after, ∀ name, p.kind = .name name → ∀ w, m.heap.Stores (cellOf name) w → m'.Reads s name w
  touches : Heap.OnlyTouches (fun _ => False) (Slots cellOf (stopNames before)) m.heap m'.heap

theorem Machine.Passed.wrote {before after : List Stop}
    (hp : m.Passed names cellOf (m.heap.sight v) v before h h') (ho : m.OnWay s names cellOf h)
    (ht : Heap.Untouched m.heap h) (hsub : stopNames (before ++ after) ⊆ names)
    (hnodup : (stopNames (before ++ after)).Nodup) : m.Wrote s names cellOf v before after { m with heap := h' } := by
  rw [stopNames_append] at hsub hnodup
  obtain ⟨hsub₁, hsub₂⟩ := List.append_subset.mp hsub
  have hb := (ho.passed hp hsub₁).binds
  have htouches : Heap.OnlyTouches (fun _ => False) (Slots cellOf (stopNames before)) m.heap h' :=
    ht.untouched.andThen hp.touches
  refine ⟨fun p hmem name hkind => ?_, fun p hmem name hkind w hw => ?_, htouches⟩
  · obtain ⟨y, w, key, hy, hw, hnamed, hleads, hfollows⟩ := hp.written p hmem name hkind
    exact ⟨y, w, hleads, hy, hb.lookupName_done (m := { m with heap := h' })
      (hsub₁ (mem_stopNames.mpr ⟨p, hmem, hkind⟩)) hw (hnamed.naming hp.kept.valid), hfollows.getPath hp.kept.valid⟩
  · have hname : name ∈ stopNames after := mem_stopNames.mpr ⟨p, hmem, hkind⟩
    have hnot : name ∉ stopNames before := fun hname' => (List.nodup_append.mp hnodup).2.2 name hname' name hname rfl
    exact hb.reads (m := { m with heap := h' }) (hsub₂ hname)
      (htouches.stores (hb.not_slots hsub₁ (hsub₂ hname) hnot) hw) hp.kept.valid

/-- **Destructuring writes every leaf.** Let a pattern be built of distinct names, objects, arrays and holes, each name
be bound to a cell of its own with a value that may be written, in a binding object that is not an array, and each
property that is read be a unit or the length of a string, or a stored value whose cell is not one of those of the names,
as for an object that shares no cell with the binding objects. Then, unless the heap is full, there are two cases,
whatever the ways to run code:

* None of the values that an array pattern or an object pattern with properties is to take apart is `undefined` or
  `null`. Then the pattern is written, and each name holds what its path leads to.
* The first of them that is makes it fail. Then the names in front of it hold what their paths lead to, and those
  behind what they held before. -/
theorem writePattern_writes (hk : m.heap.WellKept) (hn : m.realm.names.Spelled m.heap) (target : Pattern)
    (hnames : ∀ p ∈ target.stops, p.kind ≠ .member) (hnodup : target.boundNames.Nodup)
    (hb : m.heap.BindsEach s target.boundNames cellOf)
    (hread : m.heap.Readable m.realm (Slots cellOf target.boundNames) (m.heap.sight v) target.stops) :
    (∃ h', h'.IsFull ∧ ∀ E, writePattern E s target v m = .failed .outOfMemory { m with heap := h' }) ∨
    (∃ h', m.Wrote s target.boundNames cellOf v target.stops [] { m with heap := h' } ∧
      (∀ p ∈ target.stops, p.kind = .apart → ∀ y,
        m.heap.Leads m.realm (Slots cellOf target.boundNames) (m.heap.sight v) p.path y → y.isNullish = false) ∧
      ∀ E, writePattern E s target v m = .done () { m with heap := h' }) ∨
    ∃ before p after y h' text, target.stops = before ++ p :: after ∧ p.kind = .apart ∧
      m.heap.Leads m.realm (Slots cellOf target.boundNames) (m.heap.sight v) p.path y ∧ y.isNullish = true ∧
      (∀ q ∈ before, q.kind = .apart → ∀ y,
        m.heap.Leads m.realm (Slots cellOf target.boundNames) (m.heap.sight v) q.path y → y.isNullish = false) ∧
      m.Wrote s target.boundNames cellOf v before after { m with heap := h' } ∧
      ∀ E, writePattern E s target v m = .failed (.typeError text) { m with heap := h' } := by
  have hstops := target.stopNames_stops
  have hc := hk.valid.canonical
  obtain ⟨h₁, hfull, hfailed⟩ | ⟨r, h₁, ⟨hk₁, ht₁, hr⟩, hresolved⟩ := builds_resolvePattern (s := s) (m := m) target hk hnames
  · exact .inl ⟨h₁, hfull, fun E => Proc.bind_failed (hfailed E) _⟩
  have ho : m.OnWay s target.boundNames cellOf h₁ := (⟨hk, .refl _ _ _, hb⟩ : m.OnWay s _ cellOf m.heap).untouched hk₁ ht₁
  have hunique : ∀ {stops h₂}, m.Passed target.boundNames cellOf (m.heap.sight v) v stops h₁ h₂ → ∀ p ∈ stops,
      p.kind = .apart → ∀ y, m.heap.Leads m.realm (Slots cellOf target.boundNames) (m.heap.sight v) p.path y →
        y.isNullish = false := by
    intro stops h₂ hp p hmem hkind y hleads
    obtain ⟨z, hleads', hz⟩ := hp.apart p hmem hkind
    rwa [hleads.unique hc hn.length hleads']
  have hsub : stopNames target.stops ⊆ target.boundNames := hstops ▸ List.Subset.refl _
  rw [← hstops] at hnodup
  cases Pattern.goes hn hc target ho hr ((m.heap.shown_sight v).next ht₁) hread hsub hnodup with
  | full hfull hfailed => exact .inl ⟨_, hfull, fun E => (Proc.bind_done (hresolved E) _).trans (hfailed E)⟩
  | passed hp hdone =>
    rw [← List.append_nil target.stops] at hsub hnodup
    exact .inr (.inl ⟨_, hp.wrote ho ht₁ hsub hnodup, hunique hp, fun E =>
      (Proc.bind_done (hresolved E) _).trans (hdone E)⟩)
  | @stopped before after p y h' text hsplit hp hkind hleads hnullish hfailed =>
    refine .inr (.inr ⟨before, p, after, y, h', text, hsplit, hkind, hleads, hnullish, hunique hp, ?_, fun E =>
      (Proc.bind_done (hresolved E) _).trans (hfailed E)⟩)
    have hskip : stopNames (p :: after) = stopNames after := by
      obtain ⟨path, kind⟩ := p
      cases hkind
      rfl
    have hall : stopNames (before ++ after) = stopNames target.stops := by
      rw [hsplit, stopNames_append, stopNames_append, hskip]
    exact hp.wrote ho ht₁ (hall ▸ hsub) (hall ▸ hnodup)

/-- The first unit of the second unit. -/
def innerUnit : Pattern := .array [none, some (.array [some (.ident "x")])]

theorem Heap.Readable.of_leads {stops : List Stop} (hleads : ∀ p ∈ stops, ∃ y, h.Leads R B x p.path y) :
    h.Readable R B x stops := by
  rintro before p after rfl -
  exact hleads p (by simp)

/-- The text `length` has a second unit, which has a first one. -/
theorem readable_innerUnit {r : StringRef} (ht : h.text r = .ok (Text.ofString "length")) :
    h.Readable R B (h.sight (.string r)) innerUnit.stops := by
  have hsight : h.sight (.string r) = .text (Text.ofString "length") := by
    unfold Heap.sight
    dsimp only
    rw [ht]
  have hunit : (Text.ofString "length").unitAt? (1 : UInt32).toNat = some 101 := by decide +kernel
  have houter : h.HasPart R B (.text (Text.ofString "length")) (.element 1) (.text ⟨#[101]⟩) := .unit rfl hunit
  have hinner : h.HasPart R B (.text ⟨#[101]⟩) (.element 0) (.text ⟨#[101]⟩) := .unit rfl rfl
  rw [hsight]
  refine .of_leads fun p hp => ?_
  simp only [innerUnit, Pattern.stops, elementStops, Stop.under, List.map_cons, List.map_nil, List.append_nil,
    List.mem_cons, List.not_mem_nil, or_false] at hp
  rcases hp with rfl | rfl | rfl
  · exact ⟨_, .nil⟩
  · exact ⟨_, .cons houter .nil⟩
  · exact ⟨_, .cons houter (.cons hinner .nil)⟩

/-- The name is bound in the global scope, and the text `length` can be taken apart. -/
def takesUnit (m₀ : Machine) : Bool :=
  match m₀.realm.names.length, Run.onHeap (declare m₀.realm.globalScope "x" .null) m₀ with
  | .string s, .done c m =>
    match m.heap.scope m.realm.globalScope, Heap.keyOfName "x" m.heap with
    | .ok sc, .done (.string r) _ =>
      (m.heap.text r).toOption == some (Text.ofString "x") &&
        (m.heap.ownCell sc.object (.string r)).toOption == some (some c) &&
        m.heap.writableOn [m.realm.globalScope.handle] (.string r) &&
        match writePattern Edit.refusing m.realm.globalScope innerUnit (.string s) m with
        | .done _ _ => true
        | _ => false
    | _, _ => false
  | _, _ => false

theorem of_takesUnit {m₀ : Machine} (htakes : takesUnit m₀ = true) : ∃ s c m, m₀.realm.names.length = .string s ∧
    Run.onHeap (declare m₀.realm.globalScope "x" .null) m₀ = .done c m ∧
    m.heap.BindsEach m.realm.globalScope ["x"] (fun _ => c) ∧
    ∃ m', writePattern Edit.refusing m.realm.globalScope innerUnit (.string s) m = .done () m' := by
  unfold takesUnit at htakes
  split at htakes
  · next s c m hs hdeclared =>
    refine ⟨s, c, m, hs, hdeclared, ?_⟩
    split at htakes
    · next sc r _ hsc _ =>
      simp only [Bool.and_eq_true, beq_iff_eq] at htakes
      obtain ⟨⟨⟨htext, hown⟩, hwritable⟩, hwritten⟩ := htakes
      have hcell := Except.eq_ok_of_toOption hown
      obtain ⟨harray, hstores⟩ := Heap.holds_of_writableOn hwritable _ (List.mem_singleton_self _) sc hsc
      obtain ⟨d, w, hd, hcontent⟩ := hstores c hcell
      refine ⟨⟨fun name hname => ?_, fun name hname => ⟨w, d, hd, hcontent⟩, fun a ha b hb _ => ?_⟩, ?_⟩
      · obtain rfl := List.mem_singleton.mp hname
        exact ⟨.string r, sc.object, ⟨r, rfl, Except.eq_ok_of_toOption htext⟩, .here hsc hcell, harray⟩
      · rw [List.mem_singleton.mp ha, List.mem_singleton.mp hb]
      · split at hwritten
        · next m' hdone => exact ⟨m', hdone⟩
        · cases hwritten
    · cases htakes
  · cases htakes

theorem writePattern_writes_unit : ∃ (m₀ m : Machine) (c : CellRef) (s : StringRef) (h' : Heap),
    Machine.create .standard {} 0 true = .ok m₀ ∧
    Run.onHeap (declare m₀.realm.globalScope "x" .null) m₀ = .done c m ∧ m₀.realm.names.length = .string s ∧
    m.Wrote m.realm.globalScope ["x"] (fun _ => c) (.string s) innerUnit.stops [] { m with heap := h' } ∧
    ∀ E, writePattern E m.realm.globalScope innerUnit (.string s) m = .done () { m with heap := h' } := by
  have htakes : (Machine.create .standard {} 0 true).toOption.any takesUnit = true := by decide +kernel
  obtain ⟨m₀, hm, htakes⟩ := Except.exists_of_any htakes
  obtain ⟨s, c, m, hs, hdeclared, hb, m', hwritten⟩ := of_takesUnit htakes
  obtain ⟨_, h, hrun, hend⟩ := Run.onHeap_bind_done (f := pure) ((congrFun (bind_pure _) m₀).trans hdeclared)
  cases hend
  obtain ⟨hk, hn⟩ := Heap.gives_spelled (Heap.routine_declare _ _ _) (Machine.spelled_create hm) c h hrun
  obtain ⟨s', hs', ht⟩ : ∃ r, m₀.realm.names.length = .string r ∧ h.text r = .ok (Text.ofString "length") := hn.length
  cases hs.symm.trans hs'
  rcases writePattern_writes (m := { m₀ with heap := h }) hk hn innerUnit (by decide) (by decide)
    hb (readable_innerUnit ht) with ⟨_, -, hfailed⟩ | ⟨h', hwrote, -, hdone⟩ | ⟨_, _, _, _, _, _, -, -, -, -, -, -, hfailed⟩
  · cases (hfailed Edit.refusing).symm.trans hwritten
  · exact ⟨m₀, _, c, s, h', hm, hdeclared, hs, hwrote, hdone⟩
  · cases (hfailed Edit.refusing).symm.trans hwritten

end ScriptCore
