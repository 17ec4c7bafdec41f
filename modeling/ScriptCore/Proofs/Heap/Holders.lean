import ScriptCore.Proofs.Heap.Generations

/-! # Roots that several holders share

A root is named by its place among the roots, and the place of a removed root is given out again. So a
name belongs to one holder at a time, as long as no holder asks for the removal of a root that it has removed
before and that is another's by now: such a request is *late*.

* `Shared`, `Deed`: a heap, what its holders were given, and what they and others do.
* `Honoured.run`: what one deed keeps, if it is not late.
* `NoneLate.honours_roots`: **a root lasts until its holder removes it, and the value with it.**
* `removal_releases_another`: what a late request does. -/

namespace ScriptCore.Heap

variable {h : Heap}

/-! ### One root -/

theorem root?_eq_some {i : Nat} {v : Value} : h.root? i = some v ↔ h.roots[i]? = some (some v) :=
  Option.join_eq_some_iff

/-- The name of a new root is nobody's. -/
theorem Rooted.root?_added (hr : h.Rooted) (v : Value) : h.root? (h.addRoot v).1 = none := by
  unfold Heap.addRoot
  cases hfree : h.freeRoots with
  | nil => simp [root?]
  | cons i rest =>
    have hi : h.roots[i]? = some none := (hr.mem_freeRoots i).mp (by rw [hfree]; exact List.mem_cons_self ..)
    simp [root?, hi]

theorem Rooted.root?_addRoot (hr : h.Rooted) (v : Value) (i : Nat) :
    (h.addRoot v).2.root? i = if i = (h.addRoot v).1 then some v else h.root? i := by
  unfold Heap.addRoot
  cases hfree : h.freeRoots with
  | nil =>
    simp only [root?, Array.getElem?_push]
    by_cases hi : i = h.roots.size <;> simp [hi]
  | cons j rest =>
    have hj : h.roots[j]? = some none := (hr.mem_freeRoots j).mp (by rw [hfree]; exact List.mem_cons_self ..)
    obtain ⟨hlt, -⟩ := Array.getElem?_eq_some_iff.mp hj
    simp only [root?, Array.getElem?_setIfInBounds]
    by_cases hi : j = i
    · subst hi
      simp [hlt]
    · simp [hi, Ne.symm hi]

theorem root?_removeRoot (h : Heap) (i j : Nat) :
    (h.removeRoot i).root? j = if j = i then none else h.root? j := by
  unfold removeRoot
  cases hi : h.root? i with
  | none =>
    by_cases hj : j = i
    · rw [if_pos hj, hj]
      exact hi
    · rw [if_neg hj]
  | some v =>
    by_cases hj : i = j
    · subst hj
      simp only [root?, Array.getElem?_setIfInBounds, if_true]
      split <;> rfl
    · simp only [root?, Array.getElem?_setIfInBounds, if_neg hj, if_neg (Ne.symm hj)]

theorem keeps_roots {α : Type} {p : Proc Heap α} {roots : Array (Option Value)}
    (hp : Routine (fun _ => True) p) : Proc.Keeps (fun h => h.Valid ∧ h.roots = roots) p := by
  have hgrows : ∀ {α : Type} {p : Proc Heap α}, Proc.Keeps Valid p →
      (∀ h, h.Consistent → (p h).Leaves (Grows h)) → Proc.Keeps (fun h => h.Valid ∧ h.roots = roots) p := by
    rintro α p hvalid hgrows h ⟨hv, hroots⟩
    have hl := hvalid h hv
    have hg := hgrows h hv.toConsistent
    cases hph : p h with
    | done a h' => rw [hph] at hl hg; exact ⟨hl, hg.roots.trans hroots⟩
    | failed e h' => rw [hph] at hl hg; exact ⟨hl, hg.roots.trans hroots⟩
    | stalled => trivial
  exact hp.keeps (fun b hb _ => hgrows (keeps_alloc hb) fun _ hv => grows_alloc hv b)
    (fun t => hgrows (keeps_intern t) fun _ hv => grows_intern hv t)
    (fun o f _ => hgrows (keeps_modifyObject o f) fun _ _ => grows_modifyObject o f)
    (fun s f => hgrows (keeps_modifyScope s f) fun _ _ => grows_modifyScope s f)
    (fun c f => hgrows (keeps_modifyCell c f) fun _ _ => grows_modifyCell c f)

theorem Op.SparesRoots.roots_run (hv : h.Valid) {op : Op} (hop : op.SparesRoots) :
    (op.run h).roots = h.roots :=
  (hop.keeps (fun _ hp => keeps_roots hp)
    (fun h' reported hi => ⟨hi.1.collect reported, (roots_collect h' reported).trans hi.2⟩) ⟨hv, rfl⟩).2

/-- What a root refers to outlives every operation. -/
theorem block?_run_of_root (hv : h.Valid) (op : Op) {i : Nat} {v : Value} (hroot : h.root? i = some v)
    {x : Handle} (hx : x ∈ v.handles) {b : Block} (hb : h.block? x = some b) :
    ∃ b', (op.run h).block? x = some b' ∧ b.Becomes b' := by
  by_cases hop : op.IsCollection
  · obtain ⟨reported, rfl⟩ := hop
    refine ⟨b, (block?_collect hv reported x b).mpr ⟨hb, .root ?_ (Option.isSome_of_eq_some hb)⟩, .refl b⟩
    have hmem : some v ∈ h.roots.toList := by
      rw [root?_eq_some] at hroot
      exact Array.mem_toList_iff.mpr (Array.mem_of_getElem? hroot)
    exact List.mem_append_left _ (List.mem_flatMap.mpr ⟨_, hmem, hx⟩)
  · obtain ⟨c, hc, hblock⟩ := (Op.changed hv hop).lasts _ _ _ (block?_eq_some.mp hb)
    obtain ⟨b', rfl, hbecomes⟩ := hblock b rfl
    exact ⟨b', block?_eq_some.mpr hc, hbecomes⟩

/-! ### Holders and their deeds -/

/-- What a holder has: the name of the root that it was given, the value it asked to be kept, and whether it
asked for its removal. -/
structure Holding where
  root : Nat
  value : Value
  removed : Bool

/-- A heap and its holders: the holder `k` is the one that was given the `k`-th root. -/
structure Shared where
  heap : Heap
  holdings : List Holding

/-- What happens to a heap that holders share. -/
inductive Deed where
  /-- A further holder asks for a root. -/
  | add (v : Value)
  /-- The holder `k` asks for the removal of its root, for the first time or again. -/
  | remove (k : Nat)
  /-- Anybody does anything else, such as a collection. -/
  | work (op : { op : Op // op.SparesRoots })

def Deed.run : Deed → Shared → Shared
  | .add v, s => ⟨(s.heap.addRoot v).2, s.holdings ++ [⟨(s.heap.addRoot v).1, v, false⟩]⟩
  | .remove k, s =>
    match s.holdings[k]? with
    | some r => ⟨s.heap.removeRoot r.root, s.holdings.set k { r with removed := true }⟩
    | none => s
  | .work op, s => ⟨op.1.run s.heap, s.holdings⟩

/-- The root is some holder's. -/
def Shared.Holds (s : Shared) (root : Nat) : Prop :=
  ∃ r ∈ s.holdings, r.removed = false ∧ r.root = root

instance (s : Shared) (root : Nat) : Decidable (s.Holds root) :=
  inferInstanceAs (Decidable (∃ r ∈ s.holdings, r.removed = false ∧ r.root = root))

/-- The holder asks for the removal of a root that it removed before and that is another's by now. -/
def Deed.Late : Deed → Shared → Prop
  | .remove k, s => ∃ r ∈ s.holdings[k]?, r.removed = true ∧ s.Holds r.root
  | .add _, _ | .work _, _ => False

instance : ∀ (d : Deed) (s : Shared), Decidable (d.Late s)
  | .remove k, s => inferInstanceAs (Decidable (∃ r ∈ s.holdings[k]?, r.removed = true ∧ s.Holds r.root))
  | .add _, _ | .work _, _ => .isFalse not_false

def runDeeds (ds : List Deed) (s : Shared) : Shared := ds.foldl (fun s d => d.run s) s

/-- None of the deeds is late. -/
def NoneLate : List Deed → Shared → Prop
  | [], _ => True
  | d :: ds, s => ¬ d.Late s ∧ NoneLate ds (d.run s)

instance decidableNoneLate : ∀ (ds : List Deed) (s : Shared), Decidable (NoneLate ds s)
  | [], _ => .isTrue trivial
  | d :: ds, s =>
    have := decidableNoneLate ds (d.run s)
    inferInstanceAs (Decidable (¬ d.Late s ∧ NoneLate ds (d.run s)))

variable {s : Shared}

theorem runDeeds_append (ds ds' : List Deed) (s : Shared) :
    runDeeds (ds ++ ds') s = runDeeds ds' (runDeeds ds s) := List.foldl_append

theorem noneLate_append : ∀ (ds ds' : List Deed) (s : Shared),
    NoneLate (ds ++ ds') s ↔ NoneLate ds s ∧ NoneLate ds' (runDeeds ds s)
  | [], _, _ => by simp [NoneLate, runDeeds]
  | d :: ds, ds', s => by
    rw [List.cons_append, NoneLate, NoneLate, noneLate_append ds ds' (d.run s), and_assoc]
    rfl

theorem getElem?_concat_eq_some {α : Type} {l : List α} {new r : α} {k : Nat} :
    (l ++ [new])[k]? = some r ↔ l[k]? = some r ∨ k = l.length ∧ r = new := by
  rw [List.getElem?_append]
  split
  · constructor
    · exact .inl
    · rintro (hr | ⟨rfl, -⟩)
      · exact hr
      · omega
  · rw [List.getElem?_eq_none (l := l) (by omega)]
    by_cases hk : k = l.length
    · subst hk
      simp [eq_comm]
    · simp [hk, List.getElem?_eq_none (l := [new]) (i := k - l.length) (by simp; omega)]

/-! ### What the deeds keep -/

/-- Every holder that did not ask for the removal has its root with its value, no two have the same one, and a
name that was removed names nothing unless it is another's. -/
structure Honoured (s : Shared) : Prop where
  accounted : s.heap.Accounted
  kept : ∀ (k : Nat) (r : Holding), s.holdings[k]? = some r → r.removed = false →
    s.heap.root? r.root = some r.value
  distinct : ∀ (j k : Nat) (r r' : Holding), s.holdings[j]? = some r → s.holdings[k]? = some r' →
    r.removed = false → r'.removed = false → r.root = r'.root → j = k
  gone : ∀ (k : Nat) (r : Holding), s.holdings[k]? = some r → r.removed = true → ¬ s.Holds r.root →
    s.heap.root? r.root = none

namespace Honoured

theorem start (hb : h.Built) : Honoured ⟨h, []⟩ :=
  ⟨hb.accounted, by simp, by simp, by simp⟩

theorem add (hs : Honoured s) (v : Value) : Honoured ((Deed.add v).run s) := by
  have hrooted := hs.accounted.rooted
  have hnew := hrooted.root?_added v
  have hroot := hrooted.root?_addRoot v
  have hother : ∀ (k : Nat) (r : Holding), s.holdings[k]? = some r → r.removed = false →
      r.root ≠ (s.heap.addRoot v).1 := by
    intro k r hk hr hsame
    have hkept := hs.kept k r hk hr
    rw [hsame, hnew] at hkept
    cases hkept
  refine ⟨hs.accounted.run (.addRoot v), ?_, ?_, ?_⟩
  · intro k r hk hr
    rcases getElem?_concat_eq_some.mp hk with hk | ⟨-, rfl⟩
    · exact (hroot r.root).trans ((if_neg (hother k r hk hr)).trans (hs.kept k r hk hr))
    · exact (hroot _).trans (if_pos rfl)
  · intro j k r r' hj hk hr hr' hsame
    rcases getElem?_concat_eq_some.mp hj with hj | ⟨rfl, rfl⟩ <;>
      rcases getElem?_concat_eq_some.mp hk with hk | ⟨rfl, rfl⟩
    · exact hs.distinct j k r r' hj hk hr hr' hsame
    · exact absurd hsame (hother j r hj hr)
    · exact absurd hsame.symm (hother k r' hk hr')
    · rfl
  · intro k r hk hr hnot
    rcases getElem?_concat_eq_some.mp hk with hk | ⟨-, rfl⟩
    · refine (hroot r.root).trans ((if_neg fun hsame => hnot ?_).trans (hs.gone k r hk hr ?_))
      · exact ⟨_, List.mem_concat_self, rfl, hsame.symm⟩
      · rintro ⟨r', hmem, hr', hsame⟩
        exact hnot ⟨r', List.mem_append_left _ hmem, hr', hsame⟩
    · cases hr

theorem remove (hs : Honoured s) {k : Nat} (hlate : ¬ (Deed.remove k).Late s) :
    Honoured ((Deed.remove k).run s) := by
  simp only [Deed.run]
  cases hk : s.holdings[k]? with
  | none => exact hs
  | some r₀ =>
    have hroot := s.heap.root?_removeRoot r₀.root
    -- nobody else has the root: not while this holder has it, nor later, for then the request is late
    have hother : ∀ (j : Nat) (r : Holding), j ≠ k → s.holdings[j]? = some r → r.removed = false →
        r.root ≠ r₀.root := by
      intro j r hjk hj hr hsame
      cases hr₀ : r₀.removed with
      | false => exact hjk (hs.distinct j k r r₀ hj hk hr hr₀ hsame)
      | true => exact hlate ⟨r₀, hk, hr₀, r, List.mem_of_getElem? hj, hr, hsame⟩
    have hset : ∀ {j : Nat} {r : Holding}, (s.holdings.set k { r₀ with removed := true })[j]? = some r →
        j = k ∧ r = { r₀ with removed := true } ∨ j ≠ k ∧ s.holdings[j]? = some r := by
      intro j r hj
      by_cases hjk : j = k
      · subst hjk
        rw [List.getElem?_set_self (List.getElem?_eq_some_iff.mp hk).1] at hj
        exact .inl ⟨rfl, (Option.some.inj hj).symm⟩
      · rw [List.getElem?_set_ne (Ne.symm hjk)] at hj
        exact .inr ⟨hjk, hj⟩
    refine ⟨hs.accounted.run (.removeRoot r₀.root), ?_, ?_, ?_⟩
    · intro j r hj hr
      rcases hset hj with ⟨rfl, rfl⟩ | ⟨hjk, hj⟩
      · cases hr
      · exact (hroot r.root).trans ((if_neg (hother j r hjk hj hr)).trans (hs.kept j r hj hr))
    · intro i j r r' hi hj hr hr' hsame
      rcases hset hi with ⟨rfl, rfl⟩ | ⟨-, hi⟩
      · cases hr
      rcases hset hj with ⟨rfl, rfl⟩ | ⟨-, hj⟩
      · cases hr'
      exact hs.distinct i j r r' hi hj hr hr' hsame
    · intro j r hj hr hnot
      refine (hroot r.root).trans ?_
      by_cases hsame : r.root = r₀.root
      · exact if_pos hsame
      rw [if_neg hsame]
      rcases hset hj with ⟨rfl, rfl⟩ | ⟨hjk, hj⟩
      · exact absurd rfl hsame
      · refine hs.gone j r hj hr ?_
        rintro ⟨r', hmem, hr', hsame'⟩
        obtain ⟨i, hi⟩ := List.mem_iff_getElem?.mp hmem
        have hik : i ≠ k := by
          rintro rfl
          rw [hk] at hi
          cases hi
          exact hsame hsame'.symm
        exact hnot ⟨r', List.mem_of_getElem? ((List.getElem?_set_ne (Ne.symm hik)).trans hi), hr', hsame'⟩

theorem work (hs : Honoured s) (op : { op : Op // op.SparesRoots }) : Honoured ((Deed.work op).run s) := by
  have hroot : ∀ i, (op.1.run s.heap).root? i = s.heap.root? i := fun i => by
    unfold root?
    rw [op.2.roots_run hs.accounted.valid]
  exact ⟨hs.accounted.run op.1, fun k r hk hr => (hroot _).trans (hs.kept k r hk hr), hs.distinct,
    fun k r hk hr hnot => (hroot _).trans (hs.gone k r hk hr hnot)⟩

/-- **One deed keeps the roots of all holders, if it is not late.** -/
theorem run (hs : Honoured s) {d : Deed} (hd : ¬ d.Late s) : Honoured (d.run s) :=
  match d, hd with
  | .add v, _ => hs.add v
  | .remove _, hlate => hs.remove hlate
  | .work op, _ => hs.work op

theorem runDeeds : ∀ {ds : List Deed} {s : Shared}, Honoured s → NoneLate ds s → Honoured (runDeeds ds s)
  | [], _, hs, _ => hs
  | _ :: _, _, hs, hd => (hs.run hd.1).runDeeds hd.2

end Honoured

/-! ### What becomes of one root -/

/-- Only the holder itself marks its root as removed. -/
theorem holding_run {k : Nat} {r : Holding} (hk : s.holdings[k]? = some r) (d : Deed) :
    (d = .remove k ∧ (d.run s).holdings[k]? = some { r with removed := true }) ∨
      (d ≠ .remove k ∧ (d.run s).holdings[k]? = some r) := by
  obtain ⟨hlt, -⟩ := List.getElem?_eq_some_iff.mp hk
  cases d with
  | add v => exact .inr ⟨nofun, getElem?_concat_eq_some.mpr (.inl hk)⟩
  | work op => exact .inr ⟨nofun, hk⟩
  | remove j =>
    by_cases hjk : j = k
    · subst hjk
      refine .inl ⟨rfl, ?_⟩
      simp only [Deed.run, hk]
      exact List.getElem?_set_self hlt
    · refine .inr ⟨fun hsame => hjk (Deed.remove.inj hsame), ?_⟩
      simp only [Deed.run]
      cases s.holdings[j]? with
      | none => exact hk
      | some r' => exact (List.getElem?_set_ne hjk).trans hk

theorem holding_removed {k : Nat} : ∀ (ds : List Deed) (s : Shared) (r : Holding), s.holdings[k]? = some r →
    r.removed = true ∨ .remove k ∈ ds → (runDeeds ds s).holdings[k]? = some { r with removed := true }
  | [], _, ⟨_, _, removed⟩, hk, hr => by
    rcases hr with hr | hr
    · exact hk.trans (by rw [show removed = true from hr])
    · cases hr
  | d :: ds, s, r, hk, hr => by
    rcases holding_run hk d with ⟨-, hk'⟩ | ⟨hne, hk'⟩
    · exact holding_removed ds (d.run s) { r with removed := true } hk' (.inl rfl)
    · refine holding_removed ds (d.run s) r hk' (hr.imp_right fun hmem => ?_)
      exact (List.mem_cons.mp hmem).resolve_left (Ne.symm hne)

/-- What a value that is held refers to outlives every deed. -/
theorem Honoured.block?_run (hs : Honoured s) {k : Nat} {r : Holding} (hk : s.holdings[k]? = some r)
    (hr : r.removed = false) (d : Deed) {x : Handle} (hx : x ∈ r.value.handles) {b : Block}
    (hb : s.heap.block? x = some b) : ∃ b', (d.run s).heap.block? x = some b' ∧ b.Becomes b' := by
  have hroot := hs.kept k r hk hr
  have hop := fun op => block?_run_of_root hs.accounted.valid op hroot hx hb
  cases d with
  | add v => exact hop (.addRoot v)
  | work op => exact hop op.1
  | remove j =>
    simp only [Deed.run]
    cases s.holdings[j]? with
    | none => exact ⟨b, hb, .refl b⟩
    | some r' => exact hop (.removeRoot r'.root)

theorem Honoured.held : ∀ {ds : List Deed} {s : Shared} {k : Nat} {r : Holding}, Honoured s →
    NoneLate ds s → s.holdings[k]? = some r → r.removed = false → .remove k ∉ ds →
    (Heap.runDeeds ds s).heap.root? r.root = some r.value ∧
      ∀ x ∈ r.value.handles, ∀ b, s.heap.block? x = some b →
        ∃ b', (Heap.runDeeds ds s).heap.block? x = some b' ∧ b.Becomes b'
  | [], _, k, r, hs, _, hk, hr, _ => ⟨hs.kept k r hk hr, fun _ _ b hb => ⟨b, hb, .refl b⟩⟩
  | d :: ds, s, k, r, hs, hd, hk, hr, hnot => by
    rcases holding_run hk d with ⟨rfl, -⟩ | ⟨-, hk'⟩
    · exact absurd (List.mem_cons_self ..) hnot
    obtain ⟨hroot, hlives⟩ := (hs.run hd.1).held hd.2 hk' hr fun hmem => hnot (List.mem_cons_of_mem _ hmem)
    refine ⟨hroot, fun x hx b hb => ?_⟩
    obtain ⟨b₁, hb₁, hbecomes₁⟩ := hs.block?_run hk hr d hx hb
    obtain ⟨b₂, hb₂, hbecomes₂⟩ := hlives x hx b₁ hb₁
    exact ⟨b₂, hb₂, hbecomes₁.trans hbecomes₂⟩

/-- **What a late request does**: it releases the root of another holder, which did not ask for that. -/
theorem Honoured.removal_releases_another (hs : Honoured s) {k : Nat} (hlate : (Deed.remove k).Late s) :
    ∃ (j : Nat) (r : Holding), j ≠ k ∧ s.holdings[j]? = some r ∧ r.removed = false ∧
      s.heap.root? r.root = some r.value ∧ ((Deed.remove k).run s).heap.root? r.root = none := by
  obtain ⟨r₀, hk, hr₀, r, hmem, hr, hsame⟩ := hlate
  obtain ⟨j, hj⟩ := List.mem_iff_getElem?.mp hmem
  refine ⟨j, r, ?_, hj, hr, hs.kept j r hj hr, ?_⟩
  · rintro rfl
    rw [hk] at hj
    cases hj
    rw [hr₀] at hr
    cases hr
  · simp only [Deed.run, Option.mem_def.mp hk]
    exact (s.heap.root?_removeRoot _ _).trans (if_pos hsame)

/-- **A root lasts until its holder removes it.** On a heap that operations lead to, let holders ask for roots,
remove their own, some of them more than once, and let anybody do anything else with the heap, collections
included, but let no request be late. Take the holder that was given a root for `v` in between. While it has
not asked for the removal, its root has the value `v`, and what `v` refers to lives; once it has, the name of
its root names nothing, until it is given to another. And a request that is late at the end would release the
root of another holder. -/
theorem NoneLate.honours_roots (hb : h.Built) {earlier later : List Deed} {v : Value}
    (hlate : NoneLate (earlier ++ .add v :: later) ⟨h, []⟩) :
    let before := runDeeds earlier ⟨h, []⟩
    let holder := before.holdings.length
    let root := (before.heap.addRoot v).1
    let after := runDeeds (earlier ++ .add v :: later) ⟨h, []⟩
    (.remove holder ∉ later → after.heap.root? root = some v ∧
      ∀ x ∈ v.handles, ∀ b, before.heap.block? x = some b →
        ∃ b', after.heap.block? x = some b' ∧ b.Becomes b') ∧
    (.remove holder ∈ later → ¬ after.Holds root → after.heap.root? root = none) ∧
    (∀ k, (Deed.remove k).Late after → ∃ (j : Nat) (r : Holding), j ≠ k ∧ after.holdings[j]? = some r ∧
      r.removed = false ∧ after.heap.root? r.root = some r.value ∧
      ((Deed.remove k).run after).heap.root? r.root = none) := by
  obtain ⟨hearlier, hlater⟩ := (noneLate_append _ _ _).mp hlate
  have hbefore : Honoured (runDeeds earlier ⟨h, []⟩) := (Honoured.start hb).runDeeds hearlier
  have hadded := hbefore.add v
  have hafter : Honoured (runDeeds (earlier ++ .add v :: later) ⟨h, []⟩) := (Honoured.start hb).runDeeds hlate
  intro before holder root after
  have hgiven : ((Deed.add v).run before).holdings[holder]? = some ⟨root, v, false⟩ :=
    getElem?_concat_eq_some.mpr (.inr ⟨rfl, rfl⟩)
  have hrun : after = runDeeds later ((Deed.add v).run before) := runDeeds_append _ _ _
  refine ⟨fun hnot => ?_, fun hmem hfree => ?_, fun k hk => hafter.removal_releases_another hk⟩
  · obtain ⟨hroot, hlives⟩ := hadded.held hlater.2 hgiven rfl hnot
    rw [hrun]
    refine ⟨hroot, fun x hx b hblock => ?_⟩
    exact hlives x hx b ((block?_addRoot _ v x).trans hblock)
  · have hremoved := holding_removed later _ _ hgiven (.inr hmem)
    rw [← hrun] at hremoved
    exact hafter.gone holder _ hremoved rfl hfree

/-- A heap with two objects. -/
def pair : Heap :=
  [Op.allocObject none .object .ordinary, .allocObject none .array .array].foldl (fun h op => op.run h)
    (empty (.ofMax 4))

def collectNow : Deed := .work ⟨.collect [], trivial⟩

/-- Three holders, of which the last was given the name that the second had. The first asks for its removal
twice, without being late. -/
theorem NoneLate.honours_roots_recycled :
    NoneLate ([.add (.object ⟨⟨0, 0⟩⟩), .add .null, .remove 1] ++ .add (.object ⟨⟨1, 0⟩⟩) ::
      [.remove 0, .remove 0, collectNow]) ⟨pair, []⟩ ∧
    let after := runDeeds ([.add (.object ⟨⟨0, 0⟩⟩), .add .null, .remove 1] ++ .add (.object ⟨⟨1, 0⟩⟩) ::
      [.remove 0, .remove 0, collectNow]) ⟨pair, []⟩
    after.heap.root? 1 = some (.object ⟨⟨1, 0⟩⟩) ∧ (∃ b, after.heap.block? ⟨1, 0⟩ = some b) ∧
    after.heap.root? 0 = none := by
  have hb : pair.Built := ⟨_, _, rfl⟩
  have hlate : NoneLate ([.add (.object ⟨⟨0, 0⟩⟩), .add .null, .remove 1] ++ .add (.object ⟨⟨1, 0⟩⟩) ::
      [.remove 0, .remove 0, collectNow]) ⟨pair, []⟩ := by decide
  obtain ⟨hroot, hlives⟩ := (NoneLate.honours_roots hb hlate).1 (by simp [collectNow, runDeeds, Deed.run])
  obtain ⟨b, hb', -⟩ := hlives ⟨1, 0⟩ (by simp [Value.handles]) _ rfl
  have hremoved : NoneLate ([] ++ .add (.object ⟨⟨0, 0⟩⟩) :: [.add .null, .remove 1,
      .add (.object ⟨⟨1, 0⟩⟩), .remove 0, .remove 0, collectNow]) ⟨pair, []⟩ := hlate
  exact ⟨hlate, hroot, ⟨b, hb'⟩, (NoneLate.honours_roots hb hremoved).2.1 (by simp [runDeeds]) (by decide)⟩

/-- **A second request for the same removal releases what another holder keeps.** The first holder removes its
root, the second is given its name, and what that names is not none; then the first asks again. The second
never did, and yet its root is gone and a collection frees its array. -/
theorem repeated_removal_releases :
    let given := runDeeds [.add (.object ⟨⟨0, 0⟩⟩), .remove 0, .add (.object ⟨⟨1, 0⟩⟩)] ⟨pair, []⟩
    let after := runDeeds [.remove 0, collectNow] given
    pair.Built ∧ given.heap.root? 0 = some (.object ⟨⟨1, 0⟩⟩) ∧
    (after.holdings[1]?.map fun r => (r.root, r.removed)) = some (0, false) ∧
    after.heap.root? 0 = none ∧ (given.heap.block? ⟨1, 0⟩).isSome = true ∧
    (after.heap.block? ⟨1, 0⟩).isSome = false :=
  ⟨⟨_, _, rfl⟩, by decide⟩

end ScriptCore.Heap
