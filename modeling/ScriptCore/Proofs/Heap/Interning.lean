import ScriptCore.Proofs.Heap.Changes

/-! # One live string for each text

The table of interned strings is kept in step with the slots: a collection takes a string out of it exactly
when it frees the slot. So a text has at most one live string, whatever was collected before and whatever
slots were used again, and comparing handles compares contents.

* `Interns`: what interning a text may come to.
* `eq_iff_of_text`: **strings that resolve are equal exactly when their contents are.**
* `Built.interning`: the table, the handles and interning on every heap that operations lead to. -/

namespace ScriptCore.Heap

variable {h : Heap} {s r : StringRef} {t u : Text}

/-- What interning `t` may come to. The live string with these contents is found, and nothing changes. If
there is none, one slot is filled with a new string, or the heap is full and stays as it is. -/
structure Interns (h : Heap) (t : Text) (o : Outcome Heap StringRef) : Prop where
  live : ∀ s, h.text s = .ok t → o = .done s h
  new : (∀ s, h.text s ≠ .ok t) →
    h.IsFull ∧ o = .failed .outOfMemory h ∨
      ∃ s h', o = .done s h' ∧ h.Filled (.string t) s.handle h' ∧
        occupied h'.slots = occupied h.slots + 1 ∧ h'.text s = .ok t

/-- The table names the live strings. -/
theorem Canonical.find?_eq_some (hc : h.Canonical) : h.interned.find? t = some s ↔ h.text s = .ok t := by
  rw [hc t s, text_eq_ok]

/-- **Strings that resolve are equal exactly when their contents are.** -/
theorem Canonical.eq_iff_of_text (hc : h.Canonical) (hs : h.text s = .ok t) (hr : h.text r = .ok u) :
    s = r ↔ t = u := by
  constructor
  · rintro rfl
    rw [hs] at hr
    exact Except.ok.inj hr
  · rintro rfl
    have hfind := hc.find?_eq_some.mpr hs
    rw [hc.find?_eq_some.mpr hr] at hfind
    exact (Option.some.inj hfind).symm

theorem interns_intern (ha : h.Accounted) (t : Text) : h.Interns t (intern t h) := by
  have hc := ha.valid.canonical
  rcases intern_filled ha.valid t with ⟨s, hdone, hs⟩ | ⟨hnone, hnew⟩
  · refine ⟨fun r hr => ?_, fun hnone => absurd hs (hnone s)⟩
    rw [hdone, (hc.eq_iff_of_text hs hr).mpr rfl]
  · refine ⟨fun s hs => absurd hs (hnone s), fun _ => ?_⟩
    rcases hnew with hfull | ⟨s, h', hdone, hf⟩
    · exact .inl hfull
    have ha' : h'.Accounted := by
      have hkept := keeps_accounted (keeps_intern t) (fun _ hv => grows_intern hv t) h ha
      rw [hdone] at hkept
      exact hkept
    refine .inr ⟨s, h', hdone, hf, ?_, text_eq_ok.mpr hf.block?_self⟩
    rw [← ha'.counted.live_eq, ← ha.counted.live_eq, hf.live]

/-- **Interning is canonical.** On every heap that operations and collections lead to, the table has the
entry `s` for `t` exactly when `s` is a live string with contents `t`. Of two strings that resolve the handles
are equal exactly when the contents are, and so are strict equality of the values and equality of the keys.
Interning gives the live string with the contents, if there is one, and else fills exactly one slot or finds
the heap full, whether the contents are given as code units or as characters. -/
theorem Built.interning (hb : h.Built) :
    (∀ t s, h.interned.find? t = some s ↔ h.text s = .ok t) ∧
    (∀ s r t u, h.text s = .ok t → h.text r = .ok u →
      (s = r ↔ t = u) ∧
      ((Value.string s).strictEquals (.string r) = true ↔ t = u) ∧
      (PropertyKey.string s = PropertyKey.string r ↔ t = u)) ∧
    (∀ t, h.Interns t (intern t h)) ∧
    (∀ name, h.Interns (Text.ofString name) (internString name h)) := by
  have hc := hb.valid.canonical
  refine ⟨fun t s => hc.find?_eq_some, fun s r t u hs hr => ?_, interns_intern hb.accounted,
    fun name => interns_intern hb.accounted _⟩
  have heq := hc.eq_iff_of_text hs hr
  refine ⟨heq, ?_, ?_⟩
  · rw [← heq]
    exact beq_iff_eq
  · rw [← heq]
    exact ⟨PropertyKey.string.inj, congrArg PropertyKey.string⟩

/-- A heap on which a string died, another took its slot, and the first was made again. -/
def remade : Heap :=
  [Op.intern (.ofString "a"), .intern (.ofString "b"), .collect [⟨1, 0⟩], .intern (.ofString "c"),
    .intern (.ofString "a")].foldl (fun h op => op.run h) (empty (.ofMax 8))

/-- The string that was never collected is found again; the one that was made again has a handle of its own,
and the handle that it had before names nothing. -/
theorem Built.interning_remade :
    remade.Built ∧ remade.text ⟨⟨0, 0⟩⟩ = .error .invalidHandle ∧
    intern (.ofString "b") remade = .done ⟨⟨1, 0⟩⟩ remade ∧
    remade.interned.find? (.ofString "a") = some ⟨⟨2, 0⟩⟩ ∧
    ((Value.string ⟨⟨0, 1⟩⟩).strictEquals (.string ⟨⟨2, 0⟩⟩) = true ↔
      Text.ofString "c" = Text.ofString "a") := by
  have hb : remade.Built := ⟨_, _, rfl⟩
  obtain ⟨htable, hequal, hintern, -⟩ := hb.interning
  exact ⟨hb, rfl, (hintern _).live _ rfl, (htable _ _).mpr rfl, (hequal _ _ _ _ rfl rfl).2.1⟩

end ScriptCore.Heap
