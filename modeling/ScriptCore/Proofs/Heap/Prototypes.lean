import ScriptCore.Proofs.Heap.Changes

/-! # Chains of prototypes

Following prototypes from a live object meets live objects only and comes to an end. An object inherits from
a live one from the start, a collection that keeps an object keeps all that it inherits from, and
`Heap.setPrototype` walks the whole chain of the new prototype before it sets it. Chains may be longer than
such a walk: allocation does not look at their length.

* `Lineage`: the members of a chain, each live.
* `checkPrototype_eq_ok`: the walk succeeds exactly on short chains that do not meet the object.
* `Founded.change`, `Founded.collect`: changes and collections keep every chain finite.
* `Built.prototypes`: **chains are live and end, and when a prototype may be set.** -/

namespace ScriptCore

/-- What a block inherits from, if it is an object. -/
def Block.prototype? : Block → Option (Option ObjectRef)
  | .object o => some o.prototype
  | _ => none

namespace Heap

variable {h h' : Heap} {o : ObjectRef} {p : Option ObjectRef} {l : List ObjectRef}

/-- Following prototypes from `p` meets the live objects `l` and ends. -/
inductive Lineage (h : Heap) : Option ObjectRef → List ObjectRef → Prop where
  | nil : Lineage h none []
  | cons {o : ObjectRef} {p : Option ObjectRef} {l : List ObjectRef} (live : h.prototype o = .ok p)
      (rest : Lineage h p l) : Lineage h (some o) (o :: l)

theorem prototype_eq_ok : h.prototype o = .ok p ↔ ∃ obj, h.object o = .ok obj ∧ obj.prototype = p := by
  unfold prototype
  cases h.object o with
  | error e =>
    refine ⟨nofun, ?_⟩
    rintro ⟨obj, ho, -⟩
    cases ho
  | ok obj =>
    refine ⟨fun hp => ⟨obj, rfl, Except.ok.inj hp⟩, ?_⟩
    rintro ⟨_, ⟨⟩, rfl⟩
    rfl

namespace Lineage

theorem unique {l' : List ObjectRef} (hc : h.Lineage p l) (hc' : h.Lineage p l') : l = l' := by
  induction hc generalizing l' with
  | nil => cases hc'; rfl
  | cons live rest ih =>
    cases hc' with
    | cons live' rest' =>
      rw [live] at live'
      cases live'
      rw [ih rest']

/-- Each member of a chain starts a chain of its own, which is no longer. -/
theorem suffix (hc : h.Lineage p l) (ho : o ∈ l) : ∃ l', h.Lineage (some o) l' ∧ l'.length ≤ l.length := by
  induction hc with
  | nil => cases ho
  | @cons q p l live rest ih =>
    rcases List.mem_cons.mp ho with rfl | ho
    · exact ⟨_, .cons live rest, Nat.le_refl _⟩
    · obtain ⟨l', hl', hle⟩ := ih ho
      exact ⟨l', hl', Nat.le_succ_of_le hle⟩

/-- **No object inherits from itself.** -/
theorem not_mem (hc : h.Lineage p l) (hp : h.prototype o = .ok p) : o ∉ l := by
  intro ho
  obtain ⟨l', hl', hle⟩ := hc.suffix ho
  rw [hl'.unique (.cons hp hc), List.length_cons] at hle
  omega

/-- A chain stays as it is where its members keep their prototypes. -/
theorem mono (hc : h.Lineage p l) (hsame : ∀ o ∈ l, ∀ p, h.prototype o = .ok p → h'.prototype o = .ok p) :
    h'.Lineage p l := by
  induction hc with
  | nil => exact .nil
  | cons live rest ih =>
    exact .cons (hsame _ (List.mem_cons_self ..) _ live) (ih fun o ho => hsame o (List.mem_cons_of_mem _ ho))

theorem live (hc : h.Lineage p l) (ho : o ∈ l) : ∃ obj, h.object o = .ok obj := by
  obtain ⟨l', hl', -⟩ := hc.suffix ho
  cases hl' with
  | cons live _ =>
    obtain ⟨obj, hobj, -⟩ := prototype_eq_ok.mp live
    exact ⟨obj, hobj⟩

theorem live_of_eq {q : ObjectRef} (hc : h.Lineage p l) (hq : p = some q) : ∃ obj, h.object q = .ok obj := by
  cases hc with
  | nil => cases hq
  | cons live rest => exact (cons live rest).live (by rw [Option.some.inj hq]; exact List.mem_cons_self ..)

theorem nodup (hc : h.Lineage p l) : l.Nodup := by
  induction hc with
  | nil => exact List.nodup_nil
  | cons live rest ih => exact List.nodup_cons.mpr ⟨rest.not_mem live, ih⟩

end Lineage

/-! ### The walk before a prototype is set -/

/-- **The walk succeeds exactly on chains** of at most `bound` live members that do not meet the object. -/
theorem checkPrototype_eq_ok : ∀ (bound : Nat) (p : Option ObjectRef),
    h.checkPrototype o bound p = .ok () ↔ ∃ l, h.Lineage p l ∧ l.length ≤ bound ∧ o ∉ l
  | bound, none => by
    rw [checkPrototype]
    exact ⟨fun _ => ⟨[], .nil, Nat.zero_le _, by simp⟩, fun _ => rfl⟩
  | 0, some p => by
    rw [checkPrototype]
    refine ⟨nofun, ?_⟩
    rintro ⟨l, hc, hle, -⟩
    cases hc
    simp at hle
  | bound + 1, some p => by
    rw [checkPrototype]
    by_cases hpo : p = o
    · rw [if_pos hpo]
      refine ⟨nofun, ?_⟩
      rintro ⟨l, hc, -, hnot⟩
      cases hc
      exact absurd (hpo ▸ List.mem_cons_self ..) hnot
    rw [if_neg hpo]
    cases hp : h.object p with
    | error e =>
      refine ⟨nofun, ?_⟩
      rintro ⟨l, hc, -⟩
      cases hc with
      | cons live rest =>
        obtain ⟨obj, hobj, -⟩ := prototype_eq_ok.mp live
        rw [hp] at hobj
        cases hobj
    | ok obj =>
      dsimp only
      have hproto : h.prototype p = .ok obj.prototype := prototype_eq_ok.mpr ⟨obj, hp, rfl⟩
      rw [checkPrototype_eq_ok bound obj.prototype]
      constructor
      · rintro ⟨l, hc, hle, hnot⟩
        exact ⟨p :: l, .cons hproto hc, Nat.succ_le_succ hle, by simp [Ne.symm hpo, hnot]⟩
      · rintro ⟨l, hc, hle, hnot⟩
        cases hc with
        | cons live rest =>
          rw [hproto] at live
          cases live
          exact ⟨_, rest, Nat.le_of_succ_le_succ hle, fun ho => hnot (List.mem_cons_of_mem _ ho)⟩

/-- The prototype `p` may be given to `o`. -/
def MayInherit (h : Heap) (o : ObjectRef) (p : Option ObjectRef) : Prop :=
  ∃ l, h.Lineage p l ∧ l.length ≤ maxPrototypeChain ∧ o ∉ l

/-- The prototype of a live object is set if it may be. -/
theorem setPrototype_done {obj : Object} (ho : h.object o = .ok obj) (hp : h.MayInherit o p) :
    setPrototype o p h = .done () (h.put o.handle (.object { obj with prototype := p })) := by
  have hcheck : h.checkPrototype o maxPrototypeChain p = .ok () := (checkPrototype_eq_ok _ p).mpr hp
  unfold setPrototype
  rw [Proc.discard_bind, Proc.reads_bind, ho]
  dsimp only
  rw [Proc.reads_bind, hcheck]
  dsimp only
  exact modifyObject_done ho _

/-- Any other request is refused and changes nothing. -/
theorem setPrototype_failed (hp : (∀ obj, h.object o ≠ .ok obj) ∨ ¬ h.MayInherit o p) :
    ∃ e, setPrototype o p h = .failed e h := by
  unfold setPrototype
  rw [Proc.discard_bind, Proc.reads_bind]
  cases ho : h.object o with
  | error e => exact ⟨e, rfl⟩
  | ok obj =>
    dsimp only
    rw [Proc.reads_bind]
    cases hcheck : h.checkPrototype o maxPrototypeChain p with
    | error e => exact ⟨e, rfl⟩
    | ok u =>
      rcases hp with hdead | hnot
      · exact absurd ho (hdead obj)
      · exact absurd ((checkPrototype_eq_ok _ p).mp hcheck) hnot

/-! ### What changes do to chains -/

theorem prototype_eq_block? : h.prototype o = .ok p ↔ (h.block? o.handle).bind Block.prototype? = some p := by
  rw [prototype_eq_ok]
  simp only [object_eq_ok]
  cases h.block? o.handle with
  | none => simp
  | some b => cases b <;> simp [Block.prototype?]

/-- Every live object starts a chain. -/
def Founded (h : Heap) : Prop := ∀ o p, h.prototype o = .ok p → ∃ l, h.Lineage p l

namespace Founded

/-- Nothing is lost where every object has the prototype that it had. -/
theorem of_prototype (hf : h.Founded) (hsame : ∀ o p, h'.prototype o = .ok p ↔ h.prototype o = .ok p) :
    h'.Founded := by
  intro o p hp
  obtain ⟨l, hc⟩ := hf o p ((hsame o p).mp hp)
  exact ⟨l, hc.mono fun o _ p => (hsame o p).mpr⟩

theorem put {id : Handle} {b b' : Block} (hf : h.Founded) (hid : h.block? id = some b)
    (hsame : b'.prototype? = b.prototype?) : (h.put id b').Founded := by
  refine hf.of_prototype fun o p => ?_
  rw [prototype_eq_block?, prototype_eq_block?, block?_put (by rw [hid]; rfl)]
  by_cases ho : o.handle = id
  · rw [if_pos ho, ho, hid, Option.bind_some, Option.bind_some, hsame]
  · rw [if_neg ho]

/-- A new object inherits from one that was live before, if from any. -/
theorem filled {b : Block} {id : Handle} (hf : h.Founded) (hadmits : h.Admits b) (hfilled : h.Filled b id h') :
    h'.Founded := by
  have hkept : ∀ o p, h.prototype o = .ok p → h'.prototype o = .ok p := by
    intro o p hp
    obtain ⟨obj, ho, hproto⟩ := prototype_eq_ok.mp hp
    exact prototype_eq_ok.mpr ⟨obj, object_eq_ok.mpr (hfilled.block?_of_some (object_eq_ok.mp ho)), hproto⟩
  have hold : ∀ o p, h.prototype o = .ok p → ∃ l, h'.Lineage p l := by
    intro o p hp
    obtain ⟨l, hc⟩ := hf o p hp
    exact ⟨l, hc.mono fun o _ => hkept o⟩
  intro o p hp
  rw [prototype_eq_block?, hfilled.block?] at hp
  by_cases ho : o.handle = id
  · rw [if_pos ho, Option.bind_some] at hp
    cases b with
    | object obj =>
      obtain rfl : obj.prototype = p := Option.some.inj hp
      cases hproto : obj.prototype with
      | none => exact ⟨[], .nil⟩
      | some q =>
        obtain ⟨qobj, hq⟩ := hadmits.2 q hproto
        have hq' : h.prototype q = .ok qobj.prototype := prototype_eq_ok.mpr ⟨qobj, hq, rfl⟩
        obtain ⟨l, hc⟩ := hold q _ hq'
        exact ⟨q :: l, .cons (hkept q _ hq') hc⟩
    | string | cell | scope => cases hp
  · rw [if_neg ho, ← prototype_eq_block?] at hp
    exact hold o p hp

/-- Giving an object a prototype whose chain does not meet it: the other chains that meet the object go on
with the new one. -/
theorem inherits {id : Handle} {obj : Object} (hf : h.Founded) (hid : h.block? id = some (.object obj))
    (hp : h.MayInherit ⟨id⟩ p) : (h.put id (.object { obj with prototype := p })).Founded := by
  obtain ⟨new, hnew, -, hnot⟩ := hp
  have hproto : ∀ (o : ObjectRef) q, (h.put id (.object { obj with prototype := p })).prototype o = .ok q ↔
      if o.handle = id then p = q else h.prototype o = .ok q := by
    intro o q
    rw [prototype_eq_block?, block?_put (by rw [hid]; rfl)]
    by_cases ho : o.handle = id
    · rw [if_pos ho, if_pos ho, Option.bind_some, Block.prototype?, Option.some.injEq]
    · rw [if_neg ho, if_neg ho, prototype_eq_block?]
  have htail : (h.put id (.object { obj with prototype := p })).Lineage p new := by
    refine hnew.mono fun o ho q hq => (hproto o q).mpr ?_
    rw [if_neg]
    · exact hq
    · rintro rfl
      exact hnot ho
  -- by induction on the old chain, which is cut off where it meets the object
  have hall : ∀ q l, h.Lineage q l → ∃ l', (h.put id (.object { obj with prototype := p })).Lineage q l' := by
    intro q l hc
    induction hc with
    | nil => exact ⟨[], .nil⟩
    | @cons o q l live rest ih =>
      by_cases ho : o.handle = id
      · exact ⟨o :: new, .cons ((hproto o p).mpr (if_pos ho ▸ rfl)) htail⟩
      · obtain ⟨l', hl'⟩ := ih
        exact ⟨o :: l', .cons ((hproto o q).mpr (if_neg ho ▸ live)) hl'⟩
  intro o q hq
  rw [hproto] at hq
  by_cases ho : o.handle = id
  · rw [if_pos ho] at hq
    exact ⟨new, hq ▸ htail⟩
  · rw [if_neg ho] at hq
    obtain ⟨l, hc⟩ := hf o q hq
    exact hall q l hc

/-- **No change makes a chain endless.** -/
theorem change (hf : h.Founded) (hc : Change h h') : h'.Founded := by
  cases hc with
  | filled admits filled => exact hf.filled admits filled
  | rooted roots freeRoots => exact hf.of_prototype fun _ _ => Iff.rfl
  | written resolves rewrites =>
    cases rewrites with
    | cell | scope | bound => exact hf.put resolves rfl
    | narrowed prototype => exact hf.put resolves (congrArg some prototype)
    | inherits o check => exact hf.inherits resolves ((checkPrototype_eq_ok _ _).mp check)

/-- A collection that keeps an object keeps what it inherits from. -/
theorem collect (hf : h.Founded) (hv : h.Valid) (reported : List Handle) : (h.collect reported).Founded := by
  have hnext : ∀ o obj q, (h.collect reported).object o = .ok obj → obj.prototype = some q →
      (∃ qobj, h.object q = .ok qobj) → ∃ qobj, (h.collect reported).object q = .ok qobj := by
    rintro o obj q ho hproto ⟨qobj, hq⟩
    refine ⟨qobj, object_eq_ok.mpr (block?_collect_of_mem hv (object_eq_ok.mp ho) ?_ (object_eq_ok.mp hq))⟩
    simp [Block.handles, Object.handles, hproto]
  have hold : ∀ o obj, (h.collect reported).object o = .ok obj → h.object o = .ok obj := fun o obj ho =>
    object_eq_ok.mpr ((block?_collect hv reported _ _).mp (object_eq_ok.mp ho)).1
  have hchain : ∀ p l, h.Lineage p l → (∀ q, p = some q → ∃ qobj, (h.collect reported).object q = .ok qobj) →
      (h.collect reported).Lineage p l := by
    intro p l hc
    induction hc with
    | nil => exact fun _ => .nil
    | @cons o p l live rest ih =>
      intro hsurvives
      obtain ⟨obj, ho⟩ := hsurvives o rfl
      have hproto : h.prototype o = .ok obj.prototype := prototype_eq_ok.mpr ⟨obj, hold o obj ho, rfl⟩
      rw [live] at hproto
      cases hproto
      exact .cons (prototype_eq_ok.mpr ⟨obj, ho, rfl⟩)
        (ih fun q hq => hnext o obj q ho hq (rest.live_of_eq hq))
  intro o p hp
  obtain ⟨obj, ho, rfl⟩ := prototype_eq_ok.mp hp
  obtain ⟨l, hc⟩ := hf o obj.prototype (prototype_eq_ok.mpr ⟨obj, hold o obj ho, rfl⟩)
  exact ⟨l, hchain _ l hc fun q hq => hnext o obj q ho hq (hc.live_of_eq hq)⟩

end Founded

theorem Built.founded (hb : h.Built) : h.Founded :=
  hb.induct_changes (fun limits o p hp => by simp [prototype_eq_block?, block?, resolve, empty] at hp)
    (fun _ _ _ _ hc hf => hf.change hc) fun _ reported hv hf => hf.collect hv reported

/-- **Prototypes are live, chains end, and when a prototype may be set.** On every heap that operations lead
to: what a live object inherits from is live, and following prototypes from it meets live objects only, none
of them twice, and ends. The prototype of a live object is set exactly if the chain of the new prototype
consists of live objects, has at most `maxPrototypeChain` members and does not contain the object; any other
request fails and leaves the heap as it was. -/
theorem Built.prototypes (hb : h.Built) :
    (∀ o obj p, h.object o = .ok obj → obj.prototype = some p → ∃ pobj, h.object p = .ok pobj) ∧
    (∀ o obj, h.object o = .ok obj →
      ∃ l, h.Lineage (some o) l ∧ l.Nodup ∧ ∀ q ∈ l, ∃ qobj, h.object q = .ok qobj) ∧
    (∀ o obj p, h.object o = .ok obj → h.MayInherit o p →
      setPrototype o p h = .done () (h.put o.handle (.object { obj with prototype := p }))) ∧
    (∀ o p, (∀ obj, h.object o ≠ .ok obj) ∨ ¬ h.MayInherit o p → ∃ e, setPrototype o p h = .failed e h) := by
  refine ⟨fun o obj p ho hp => ?_, fun o obj ho => ?_, fun o obj p => setPrototype_done,
    fun o p => setPrototype_failed⟩
  · obtain ⟨l, hc⟩ := hb.founded o _ (prototype_eq_ok.mpr ⟨obj, ho, rfl⟩)
    exact hc.live_of_eq hp
  · have hproto := prototype_eq_ok.mpr ⟨obj, ho, rfl⟩
    obtain ⟨l, hc⟩ := hb.founded o _ hproto
    have hall : h.Lineage (some o) (o :: l) := .cons hproto hc
    exact ⟨o :: l, hall, hall.nodup, fun q => hall.live⟩

/-- An object, one that inherits from it and outlived a collection, and one that inherits from that. -/
def descended : Heap :=
  [Op.allocObject none .object .ordinary, .allocObject (some ⟨⟨0, 0⟩⟩) .array .array, .collect [⟨1, 0⟩],
    .allocObject (some ⟨⟨1, 0⟩⟩) .object .ordinary].foldl (fun h op => op.run h) (empty (.ofMax 8))

/-- The chain of the youngest is finite; the oldest may not inherit from it, but the youngest from nothing. -/
theorem Built.prototypes_descended :
    descended.Built ∧
    (∃ obj, descended.object ⟨⟨2, 0⟩⟩ = .ok obj ∧ obj.prototype = some ⟨⟨1, 0⟩⟩ ∧
      (∃ pobj, descended.object ⟨⟨1, 0⟩⟩ = .ok pobj) ∧
      (∃ l, descended.Lineage (some ⟨⟨2, 0⟩⟩) l ∧ l.Nodup ∧ ∀ q ∈ l, ∃ qobj, descended.object q = .ok qobj) ∧
      descended.MayInherit ⟨⟨2, 0⟩⟩ none ∧
      setPrototype ⟨⟨2, 0⟩⟩ none descended =
        .done () (descended.put ⟨2, 0⟩ (.object { obj with prototype := none }))) ∧
    ¬ descended.MayInherit ⟨⟨0, 0⟩⟩ (some ⟨⟨2, 0⟩⟩) ∧
    ∃ e, setPrototype ⟨⟨0, 0⟩⟩ (some ⟨⟨2, 0⟩⟩) descended = .failed e descended := by
  have hb : descended.Built := ⟨_, _, rfl⟩
  obtain ⟨hlive, hchain, hset, hrefused⟩ := hb.prototypes
  obtain ⟨obj, hobj, hproto⟩ : ∃ obj, descended.object ⟨⟨2, 0⟩⟩ = .ok obj ∧ obj.prototype = some ⟨⟨1, 0⟩⟩ :=
    ⟨_, rfl, rfl⟩
  have hnone : descended.MayInherit ⟨⟨2, 0⟩⟩ none := ⟨[], .nil, Nat.zero_le _, by simp⟩
  have hall : descended.Lineage (some ⟨⟨2, 0⟩⟩) [⟨⟨2, 0⟩⟩, ⟨⟨1, 0⟩⟩, ⟨⟨0, 0⟩⟩] :=
    .cons rfl (.cons rfl (.cons rfl .nil))
  have hcycle : ¬ descended.MayInherit ⟨⟨0, 0⟩⟩ (some ⟨⟨2, 0⟩⟩) := by
    rintro ⟨l, hl, -, hnot⟩
    rw [hl.unique hall] at hnot
    exact hnot (by simp)
  exact ⟨hb, ⟨obj, hobj, hproto, hlive _ _ _ hobj hproto, hchain _ _ hobj, hnone, hset _ _ _ hobj hnone⟩,
    hcycle, hrefused _ _ (.inr hcycle)⟩

end Heap

end ScriptCore
