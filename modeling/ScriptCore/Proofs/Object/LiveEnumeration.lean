import ScriptCore.Proofs.Object.KeyOrder

/-! # Listing the keys of an object that changes

A cursor remembers a bare position among the keys of an object. When a key before that position is removed, the keys
behind it move up, and the one that was to come next moves past the cursor: it is overtaken, and not listed any more.
This is the only way in which a key that stays where it is can be missed. No key is ever listed twice.

* `Visit`, `Visit.Act`: a cursor and a machine, and what happens to them.
* `KeyCursor.nextWithin_induct`: what single moves keep, a cursor keeps until it lists a key.
* `Visit.Sound`, `Visit.Tracks`, `Visit.Misses`: what holds of a visit, and of a key that it has still to list or has
  missed.
* `Visit.keys_survive`: **a key that stays is listed unless an operation makes the cursor overtake it.**
* `Visit.key_overtaken`: to delete a key that has been listed makes the cursor miss the next one. -/

namespace ScriptCore

variable {α : Type} {h : Heap} {o : ObjectRef} {key k : PropertyKey} {cell : CellRef} {c c' : KeyCursor} {m : Machine}
  {s : StringRef} {inherited : Bool}

/-! ### Moves on any heap -/

namespace KeyCursor

/-- The cursor goes through objects, and started at one. -/
structure OnObjects (c : KeyCursor) : Prop where
  own : c.ownIsProto = false
  source : ∀ next length proto, c.source ≠ .units next length proto

/-- The key is not among those of `o` that the cursor passed, and it is at `o`. -/
def isBefore (c : KeyCursor) (h : Heap) (o : ObjectRef) (k : PropertyKey) : Bool :=
  match c.source with
  | .entries q i => decide (q = o) && decide (k ∉ (h.keysOf o).take i)
  | _ => false

theorem isBefore_iff : c.isBefore h o k = true ↔ ∃ i, c.source = .entries o i ∧ k ∉ (h.keysOf o).take i := by
  unfold isBefore
  cases c.source with
  | entries q i =>
    simp only [Bool.and_eq_true, decide_eq_true_eq, KeySource.entries.injEq]
    constructor
    · rintro ⟨rfl, hk⟩
      exact ⟨i, ⟨rfl, rfl⟩, hk⟩
    · rintro ⟨_, ⟨rfl, rfl⟩, hk⟩
      exact ⟨rfl, hk⟩
  | units next length proto => simp
  | done => simp

/-- **What a move comes to on any heap.** -/
inductive Moves (h : Heap) (c : KeyCursor) : Except Error KeyMove → KeyCursor → Prop where
  /-- The cursor is done, or the heap refuses to show it an object. -/
  | stays {r : Except Error KeyMove} (hr : ∀ key, r ≠ .ok (.listed key)) : Moves h c r c
  /-- It goes on behind an object. -/
  | leaves {q : ObjectRef} {i : Nat} {obj : Object} (source : c.source = .entries q i) (live : h.object q = .ok obj)
      (last : obj.properties.toList[i]? = none) :
      Moves h c (.ok .skipped) { c with source := behind c.inherited obj.prototype }
  /-- It passes an entry whose key it has met, or whose cell the heap refuses to show. -/
  | passes {q : ObjectRef} {i : Nat} {obj : Object} {key : PropertyKey} {cell : CellRef} {r : Except Error KeyMove}
      (source : c.source = .entries q i) (live : h.object q = .ok obj)
      (entry : obj.properties.toList[i]? = some (key, cell)) (hr : ∀ key, r ≠ .ok (.listed key))
      (met : h.observes cell = true → key ∈ c.seen) : Moves h c r { c with source := .entries q (i + 1) }
  /-- It meets a new key, and lists it if it can be observed. -/
  | meets {q : ObjectRef} {i : Nat} {obj : Object} {key : PropertyKey} {cell : CellRef}
      (source : c.source = .entries q i) (live : h.object q = .ok obj)
      (entry : obj.properties.toList[i]? = some (key, cell)) (new : key ∉ c.seen) :
      Moves h c (.ok (if h.observes cell then .listed key else .skipped))
        { c with source := .entries q (i + 1), seen := c.seen.insert key }

theorem OnObjects.moves {r : Except Error KeyMove} (hc : c.OnObjects) (hmove : c.move h = (r, c')) : Moves h c r c' := by
  cases hsource : c.source with
  | units next length proto => exact absurd hsource (hc.source _ _ _)
  | done =>
    cases (move_done hsource h).symm.trans hmove
    exact .stays nofun
  | entries q i =>
    cases ho : h.object q with
    | error e =>
      cases (move_dead hc.own hsource ho).symm.trans hmove
      exact .stays nofun
    | ok obj =>
      cases hi : obj.properties.toList[i]? with
      | none =>
        cases (move_behind hc.own hsource ho hi).symm.trans hmove
        exact .leaves hsource ho hi
      | some e =>
        obtain ⟨key, cell⟩ := e
        have hmeet := (move_entry hc.own hsource ho hi).symm.trans hmove
        unfold meet at hmeet
        cases hd : h.cell cell with
        | error e =>
          rw [hd] at hmeet
          cases hmeet
          exact .passes hsource ho hi nofun fun hobserves => by simp [Heap.observes, hd] at hobserves
        | ok d =>
          have hobserves : h.observes cell = d.isObservable := by simp [Heap.observes, hd]
          rw [hd] at hmeet
          dsimp only at hmeet
          split at hmeet
          · next hmet =>
            cases hmeet
            exact .passes hsource ho hi nofun fun _ => hmet
          · next hnew =>
            cases hmeet
            have hmeets := Moves.meets hsource ho hi hnew
            rw [hobserves] at hmeets
            exact hmeets

theorem mem_insert_seen {seen : Std.TreeSet PropertyKey PropertyKey.compare} :
    k ∈ seen.insert key ↔ k = key ∨ k ∈ seen := by
  rw [Std.TreeSet.mem_insert, Std.LawfulEqCmp.compare_eq_iff_eq, eq_comm]

/-- **What moves keep, the cursor keeps until it lists a key.** -/
theorem nextWithin_induct {P : KeyCursor → Prop} {Q : PropertyKey → KeyCursor → Prop}
    (hmoves : ∀ c c' r, P c → c.move h = (r, c') →
      (∀ key, r = .ok (.listed key) → Q key c') ∧ ((∀ key, r ≠ .ok (.listed key)) → P c'))
    {r : Except Error (Option PropertyKey)} {bound : Nat} {c c' : KeyCursor} (hc : P c) (hnext : c.nextWithin h bound = (r, c')) :
    (∀ key, r = .ok (some key) → Q key c') ∧ ((∀ key, r ≠ .ok (some key)) → P c') := by
  induction bound generalizing c with
  | zero =>
    cases hnext
    exact ⟨fun _ hkey => (by cases hkey), fun _ => hc⟩
  | succ bound ih =>
    rw [nextWithin] at hnext
    split at hnext
    · next e c₁ hmove =>
      cases hnext
      exact ⟨fun _ hkey => (by cases hkey), fun _ => (hmoves _ _ _ hc hmove).2 fun _ hkey => (by cases hkey)⟩
    · next key c₁ hmove =>
      cases hnext
      exact ⟨fun _ hkey => by cases hkey; exact (hmoves _ _ _ hc hmove).1 key rfl, fun hnot => absurd rfl (hnot key)⟩
    · next c₁ hmove =>
      cases hnext
      exact ⟨fun _ hkey => (by cases hkey), fun _ => (hmoves _ _ _ hc hmove).2 fun _ hkey => (by cases hkey)⟩
    · next c₁ hmove => exact ih ((hmoves _ _ _ hc hmove).2 fun _ hkey => by cases hkey) hnext

/-! ### What becomes of one key -/

/-- The cursor goes through objects and has met the keys that it has listed. -/
structure Sound (ks : List PropertyKey) (c : KeyCursor) : Prop where
  onObjects : c.OnObjects
  met : ∀ key ∈ ks, key ∈ c.seen

theorem OnObjects.moved {r : Except Error KeyMove} (hc : c.OnObjects) (hmoves : Moves h c r c') : c'.OnObjects := by
  cases hmoves with
  | stays hr => exact hc
  | leaves source live last =>
    refine ⟨hc.own, fun next length proto => ?_⟩
    unfold behind
    dsimp only
    split
    · split <;> exact nofun
    · exact nofun
  | passes | meets => exact ⟨hc.own, nofun⟩

theorem OnObjects.inherited_next {r : Except Error (Option PropertyKey)} (hc : c.OnObjects) (hnext : c.next h = (r, c')) :
    c'.inherited = c.inherited := by
  have hmoves : ∀ (c₁ c₂ : KeyCursor) (r : Except Error KeyMove), c₁.OnObjects ∧ c₁.inherited = c.inherited → c₁.move h = (r, c₂) →
      c₂.OnObjects ∧ c₂.inherited = c.inherited := by
    intro c₁ c₂ r hc₁ hmove
    have hmoves := hc₁.1.moves hmove
    exact ⟨hc₁.1.moved hmoves, by cases hmoves <;> exact hc₁.2⟩
  obtain ⟨hlisted, hother⟩ := nextWithin_induct (Q := fun _ c' => c'.OnObjects ∧ c'.inherited = c.inherited)
    (fun c₁ c₂ r hc₁ hmove => ⟨fun _ _ => hmoves c₁ c₂ r hc₁ hmove, fun _ => hmoves c₁ c₂ r hc₁ hmove⟩) ⟨hc, rfl⟩ hnext
  by_cases hr : ∃ key, r = .ok (some key)
  · obtain ⟨key, rfl⟩ := hr
    exact (hlisted key rfl).2
  · exact (hother (not_exists.mp hr)).2

/-- **A key that is listed was not listed before.** -/
theorem Sound.next {ks : List PropertyKey} {r : Except Error (Option PropertyKey)} (hc : Sound ks c)
    (hnext : c.next h = (r, c')) :
    (∀ key, r = .ok (some key) → key ∉ ks ∧ Sound (ks ++ [key]) c') ∧ ((∀ key, r ≠ .ok (some key)) → Sound ks c') := by
  refine nextWithin_induct (P := Sound ks) (Q := fun key c' => key ∉ ks ∧ Sound (ks ++ [key]) c') ?_ hc hnext
  intro c c' r hc hmove
  have hmoves := hc.onObjects.moves hmove
  have hmoved := hc.onObjects.moved hmoves
  cases hmoves with
  | stays hr => exact ⟨fun key hkey => absurd hkey (hr key), fun _ => ⟨hmoved, hc.met⟩⟩
  | leaves => exact ⟨nofun, fun _ => ⟨hmoved, hc.met⟩⟩
  | passes _ _ _ hr => exact ⟨fun key hkey => absurd hkey (hr key), fun _ => ⟨hmoved, hc.met⟩⟩
  | @meets q i obj key cell source live entry new =>
    have hmet : ∀ x ∈ ks, x ∈ c.seen.insert key := fun x hx => mem_insert_seen.mpr (.inr (hc.met x hx))
    refine ⟨fun key' hkey => ?_, fun _ => ⟨hmoved, hmet⟩⟩
    split at hkey
    · cases hkey
      refine ⟨fun hks => new (hc.met _ hks), hmoved, fun x hx => ?_⟩
      rcases List.mem_append.mp hx with hx | hx
      · exact hmet x hx
      · exact mem_insert_seen.mpr (.inl (List.mem_singleton.mp hx))
    · cases hkey

end KeyCursor

/-- The keys up to an entry, and its own. -/
theorem Heap.take_keysOf {q : ObjectRef} {i : Nat} {obj : Object} (live : h.object q = .ok obj)
    (entry : obj.properties.toList[i]? = some (key, cell)) :
    (h.keysOf q).take (i + 1) = (h.keysOf q).take i ++ [key] := by
  unfold Heap.keysOf
  rw [Heap.entriesOf_eq live, List.take_add_one, List.getElem?_map, entry]
  rfl

/-- An entry whose key can be observed. -/
theorem Heap.observes_of_shows {q : ObjectRef} {i : Nat} {obj : Object} (live : h.object q = .ok obj)
    (entry : obj.properties.toList[i]? = some (key, cell)) (hshows : h.shows q key = true) : h.observes cell = true := by
  have hentry : (key, cell) ∈ h.entriesOf q := by
    rw [Heap.entriesOf_eq live]
    exact List.mem_of_getElem? entry
  rw [← Heap.shows_eq (Heap.mem_entriesOf.mp hentry)]
  exact hshows

theorem Heap.mem_keysOf_of_shows (hshows : h.shows o k = true) : k ∈ h.keysOf o := by
  by_contra hnot
  rw [Heap.shows_false hnot] at hshows
  cases hshows

namespace KeyCursor

/-- The key is still ahead of the cursor, which has not met it. -/
structure Tracks (h : Heap) (o : ObjectRef) (k : PropertyKey) (c : KeyCursor) : Prop where
  onObjects : c.OnObjects
  ahead : c.isBefore h o k = true
  new : k ∉ c.seen

/-- The cursor is at `o`, and the key is among those that it passed. -/
def Passed (h : Heap) (o : ObjectRef) (k : PropertyKey) (c : KeyCursor) : Prop :=
  ∃ i, c.source = .entries o i ∧ k ∈ (h.keysOf o).take i

/-- **A key ahead of the cursor stays ahead until it is listed**, if it can be observed. -/
theorem Tracks.next {r : Except Error (Option PropertyKey)} (hc : Tracks h o k c) (hshows : h.shows o k = true)
    (hnext : c.next h = (r, c')) : r = .ok (some k) ∧ Passed h o k c' ∨ Tracks h o k c' := by
  have hmoves : ∀ c c' r, Tracks h o k c → c.move h = (r, c') →
      (∀ key, r = .ok (.listed key) → key = k ∧ Passed h o k c' ∨ Tracks h o k c') ∧
        ((∀ key, r ≠ .ok (.listed key)) → Tracks h o k c') := by
    intro c c' r hc hmove
    have hmoves := hc.onObjects.moves hmove
    have hmoved := hc.onObjects.moved hmoves
    obtain ⟨i, hsource, hbehind⟩ := isBefore_iff.mp hc.ahead
    cases hmoves with
    | stays hr => exact ⟨fun key hkey => absurd hkey (hr key), fun _ => hc⟩
    | leaves source live last =>
      -- all keys of the object are behind a cursor that leaves it
      cases hsource.symm.trans source
      have hle := List.getElem?_eq_none_iff.mp last
      rw [List.take_of_length_le (by simpa [Heap.keysOf, Heap.entriesOf_eq live] using hle)] at hbehind
      exact absurd (Heap.mem_keysOf_of_shows hshows) hbehind
    | @passes q j obj key cell r source live entry hr met =>
      cases hsource.symm.trans source
      refine ⟨fun key' hkey => absurd hkey (hr key'), fun _ => ⟨hmoved, isBefore_iff.mpr ⟨_, rfl, ?_⟩, hc.new⟩⟩
      rw [Heap.take_keysOf live entry, List.mem_append, List.mem_singleton, not_or]
      refine ⟨hbehind, ?_⟩
      rintro rfl
      exact hc.new (met (Heap.observes_of_shows live entry hshows))
    | @meets q j obj key cell source live entry new =>
      cases hsource.symm.trans source
      by_cases hk : key = k
      · subst hk
        rw [if_pos (Heap.observes_of_shows live entry hshows)]
        refine ⟨fun _ hkey => ?_, fun hnot => absurd rfl (hnot key)⟩
        cases hkey
        exact .inl ⟨rfl, i + 1, rfl, by rw [Heap.take_keysOf live entry]; simp⟩
      · have htracks : Tracks h o k { c with source := .entries o (i + 1), seen := c.seen.insert key } := by
          refine ⟨hmoved, isBefore_iff.mpr ⟨_, rfl, ?_⟩, fun hseen => ?_⟩
          · rw [Heap.take_keysOf live entry, List.mem_append, List.mem_singleton, not_or]
            exact ⟨hbehind, Ne.symm hk⟩
          · rcases mem_insert_seen.mp hseen with rfl | hseen
            · exact hk rfl
            · exact hc.new hseen
        exact ⟨fun _ _ => .inr htracks, fun _ => htracks⟩
  obtain ⟨hlisted, hother⟩ :=
    nextWithin_induct (Q := fun key c' => key = k ∧ Passed h o k c' ∨ Tracks h o k c') hmoves hc hnext
  by_cases hr : ∃ key, r = .ok (some key)
  · obtain ⟨key, rfl⟩ := hr
    exact (hlisted key rfl).imp (fun hk => by rw [hk.1]; exact ⟨rfl, hk.2⟩) id
  · exact .inr (hother (not_exists.mp hr))

/-- The key is not ahead of the cursor any more, and nothing comes after the object. -/
structure Misses (h : Heap) (o : ObjectRef) (k : PropertyKey) (c : KeyCursor) : Prop where
  onObjects : c.OnObjects
  own : c.inherited = false
  place : c.source = .done ∨ Passed h o k c

theorem Misses.not_before (hc : Misses h o k c) : c.isBefore h o k = false := by
  rw [← Bool.not_eq_true, isBefore_iff]
  rintro ⟨i, hsource, hk⟩
  rcases hc.place with hdone | ⟨j, hpassed, hk'⟩
  · rw [hdone] at hsource
    cases hsource
  · cases hpassed.symm.trans hsource
    exact hk hk'

/-- **A key that is behind the cursor is not listed.** -/
theorem Misses.next {r : Except Error (Option PropertyKey)} (hc : Misses h o k c) (hnext : c.next h = (r, c')) :
    r ≠ .ok (some k) ∧ Misses h o k c' := by
  have hmoves : ∀ c c' r, Misses h o k c → c.move h = (r, c') →
      (∀ key, r = .ok (.listed key) → key ≠ k ∧ Misses h o k c') ∧
        ((∀ key, r ≠ .ok (.listed key)) → Misses h o k c') := by
    intro c c' r hc hmove
    have hmoves := hc.onObjects.moves hmove
    have hmoved := hc.onObjects.moved hmoves
    have hplace : ∀ {q i}, c.source = .entries q i → q = o ∧ k ∈ (h.keysOf o).take i := by
      intro q i hsource
      rcases hc.place with hdone | ⟨j, hentries, hk⟩
      · rw [hdone] at hsource
        cases hsource
      · cases hentries.symm.trans hsource
        exact ⟨rfl, hk⟩
    have hbehind : ∀ {q i obj key cell}, c.source = .entries q i → h.object q = .ok obj →
        obj.properties.toList[i]? = some (key, cell) → q = o ∧ key ≠ k ∧ k ∈ (h.keysOf o).take (i + 1) := by
      intro q i obj key cell hsource live entry
      obtain ⟨rfl, hk⟩ := hplace hsource
      have htake := Heap.take_keysOf live entry
      refine ⟨rfl, ?_, by rw [htake]; exact List.mem_append_left _ hk⟩
      rintro rfl
      have hnodup := (h.nodup_keysOf q).sublist (List.take_sublist (i + 1) _)
      rw [htake, List.nodup_append] at hnodup
      exact hnodup.2.2 _ hk _ (List.mem_singleton_self _) rfl
    cases hmoves with
    | stays hr => exact ⟨fun key hkey => absurd hkey (hr key), fun _ => hc⟩
    | @leaves q i obj source live last =>
      refine ⟨nofun, fun _ => ⟨hmoved, hc.own, .inl ?_⟩⟩
      show behind c.inherited obj.prototype = .done
      rw [hc.own]
      cases obj.prototype <;> rfl
    | passes source live entry hr met =>
      obtain ⟨rfl, -, hk⟩ := hbehind source live entry
      exact ⟨fun key hkey => absurd hkey (hr key), fun _ => ⟨hmoved, hc.own, .inr ⟨_, rfl, hk⟩⟩⟩
    | meets source live entry new =>
      obtain ⟨rfl, hne, hk⟩ := hbehind source live entry
      refine ⟨fun key hkey => ⟨?_, hmoved, hc.own, .inr ⟨_, rfl, hk⟩⟩, fun _ => ⟨hmoved, hc.own, .inr ⟨_, rfl, hk⟩⟩⟩
      split at hkey
      · cases hkey
        exact hne
      · cases hkey
  obtain ⟨hlisted, hother⟩ := nextWithin_induct (Q := fun key c' => key ≠ k ∧ Misses h o k c') hmoves hc hnext
  by_cases hr : ∃ key, r = .ok (some key)
  · obtain ⟨key, rfl⟩ := hr
    obtain ⟨hne, hmisses⟩ := hlisted key rfl
    exact ⟨fun hkey => hne (Option.some.inj (Except.ok.inj hkey)), hmisses⟩
  · exact ⟨fun hkey => hr ⟨k, hkey⟩, hother (not_exists.mp hr)⟩

end KeyCursor

/-! ### Operations between two moves -/

/-- The keys that are left of the first `i` are not more than `i`, and come first. -/
theorem take_arranged (ks new : List PropertyKey) (keep : PropertyKey → Bool) (i : Nat) :
    ∃ rest, ks.filter keep ++ new = (ks.take i).filter keep ++ rest ∧ ((ks.take i).filter keep).length ≤ i := by
  refine ⟨(ks.drop i).filter keep ++ new, ?_, (List.length_filter_le ..).trans (List.length_take_le ..)⟩
  rw [← List.append_assoc, ← List.filter_append, List.take_append_drop]

namespace Heap.Arranged

variable {ks : List PropertyKey} {keep : PropertyKey → Bool} {i : Nat}

/-- A key that the object had and has is one that was kept. -/
theorem kept (ha : h.Arranged o ks keep) (hk : k ∈ h.keysOf o) : keep k = true := by
  obtain ⟨new, hkeys, hnew⟩ := ha.keys
  rw [hkeys] at hk
  rcases List.mem_append.mp hk with hk | hk
  · exact (List.mem_filter.mp hk).2
  · exact hnew k hk

/-- **A key that stays does not come behind a place in front of which it was.** -/
theorem mem_take (ha : h.Arranged o ks keep) (hstays : k ∈ h.keysOf o) (hk : k ∈ ks.take i) :
    k ∈ (h.keysOf o).take i := by
  obtain ⟨new, hkeys, -⟩ := ha.keys
  obtain ⟨rest, htake, hle⟩ := take_arranged ks new keep i
  rw [hkeys, htake, List.take_append, List.take_of_length_le hle]
  exact List.mem_append_left _ (List.mem_filter.mpr ⟨hk, ha.kept hstays⟩)

/-- **A key that stays comes in front of a place only if a key in front of it is removed.** -/
theorem exists_removed (ha : h.Arranged o ks keep) (hmem : k ∈ ks) (hk : k ∉ ks.take i) (hovertaken : k ∈ (h.keysOf o).take i) :
    ∃ key ∈ ks.take i, key ∉ h.keysOf o := by
  by_contra hnone
  push Not at hnone
  obtain ⟨new, hkeys, -⟩ := ha.keys
  have hall : (ks.take i).filter keep = ks.take i := List.filter_eq_self.mpr fun key hkey => ha.kept (hnone key hkey)
  obtain ⟨rest, htake, -⟩ := take_arranged ks new keep i
  rw [hall] at htake
  have hlength : (ks.take i).length = i := by
    rw [List.length_take, Nat.min_eq_left]
    by_contra hlt
    rw [List.take_of_length_le (by omega)] at hk
    exact hk hmem
  rw [hkeys, htake, List.take_append_of_le_length (by omega), List.take_of_length_le (by omega)] at hovertaken
  exact hk hovertaken

end Heap.Arranged

/-! ### Visits -/

/-- A cursor lists keys while the machine goes on. -/
structure Visit where
  machine : Machine
  cursor : KeyCursor
  /-- The keys listed so far. -/
  listed : List PropertyKey

namespace Visit

/-- What happens meanwhile. -/
inductive Act where
  /-- The cursor is asked for the next key. -/
  | next
  /-- An operation is performed; it may run code. -/
  | edit (engine : Engine) (e : Edit)

/-- What comes of it. -/
def act (s : Visit) : Act → Visit
  | .next =>
    match s.cursor.next s.machine.heap with
    | (.ok (some key), c) => { s with cursor := c, listed := s.listed ++ [key] }
    | (_, c) => { s with cursor := c }
  | .edit engine e => { s with machine := e.run engine s.machine }

def run (s : Visit) (acts : List Act) : Visit := acts.foldl act s

/-- The keys of `o` that the cursor has passed. -/
def passed (s : Visit) (o : ObjectRef) : List PropertyKey :=
  match s.cursor.source with
  | .entries q i => if q = o then (s.machine.heap.keysOf o).take i else []
  | _ => []

/-- The key is ahead of the cursor on `o`. -/
def isAhead (s : Visit) (o : ObjectRef) (k : PropertyKey) : Bool := s.cursor.isBefore s.machine.heap o k

/-- Only properties of `o` are set, defined and deleted. -/
def Alters (o : ObjectRef) (acts : List Act) : Prop := ∀ engine e, .edit engine e ∈ acts → e.Alters o

/-- No operation runs code. -/
def Quiet : List Act → Visit → Prop
  | [], _ => True
  | a :: acts, s => (∀ engine e, a = .edit engine e → e.RunsNothing s.machine) ∧ Quiet acts (s.act a)

theorem quiet_of_edits {acts : List Act} {v : Visit} (hacts : ∀ engine e, .edit engine e ∈ acts → ∀ m, e.RunsNothing m) :
    Quiet acts v := by
  induction acts generalizing v with
  | nil => exact trivial
  | cons a acts ih =>
    refine ⟨fun engine e ha => hacts engine e (ha ▸ List.mem_cons_self) v.machine, ih fun engine e he => ?_⟩
    exact hacts engine e (List.mem_cons_of_mem a he)

/-- The key can be observed on `o` all the time. -/
def shown (o : ObjectRef) (k : PropertyKey) : List Act → Visit → Bool
  | [], s => s.machine.heap.shows o k
  | a :: acts, s => s.machine.heap.shows o k && shown o k acts (s.act a)

/-- An operation moves the key past the cursor. -/
def overtaken (o : ObjectRef) (k : PropertyKey) : List Act → Visit → Bool
  | [], _ => false
  | a :: acts, s =>
    (match a with
      | .next => false
      | .edit _ _ => s.isAhead o k && !(s.act a).isAhead o k) || overtaken o k acts (s.act a)

/-- An operation removes a key that the cursor has passed. -/
def removed (o : ObjectRef) : List Act → Visit → Bool
  | [], _ => false
  | a :: acts, s => (s.passed o).any (fun key => decide (key ∉ (s.act a).machine.heap.keysOf o)) || removed o acts (s.act a)

variable {acts : List Act} {v : Visit}

theorem shown_head (hshown : shown o k acts v = true) : v.machine.heap.shows o k = true := by
  cases acts with
  | nil => exact hshown
  | cons a acts => exact (Bool.and_eq_true_iff.mp hshown).1

/-- The cursor lists a key, or none. -/
theorem act_next (v : Visit) :
    (∃ key c, v.cursor.next v.machine.heap = (.ok (some key), c) ∧
      v.act .next = { v with cursor := c, listed := v.listed ++ [key] }) ∨
    ∃ r c, v.cursor.next v.machine.heap = (r, c) ∧ (∀ key, r ≠ .ok (some key)) ∧ v.act .next = { v with cursor := c } := by
  unfold act
  dsimp only
  obtain ⟨r, c⟩ := v.cursor.next v.machine.heap
  cases r with
  | error e => exact .inr ⟨_, c, rfl, nofun, rfl⟩
  | ok found =>
    cases found with
    | none => exact .inr ⟨_, c, rfl, nofun, rfl⟩
    | some key => exact .inl ⟨key, c, rfl, rfl⟩

/-- The keys listed so far are different, and the cursor has met them. -/
structure Sound (v : Visit) : Prop where
  cursor : v.cursor.Sound v.listed
  nodup : v.listed.Nodup

theorem Sound.act (hs : v.Sound) (a : Act) : (v.act a).Sound := by
  cases a with
  | edit engine e => exact ⟨hs.cursor, hs.nodup⟩
  | next =>
    rcases v.act_next with ⟨key, c, hnext, hact⟩ | ⟨r, c, hnext, hr, hact⟩
    · obtain ⟨hnew, hsound⟩ := (hs.cursor.next hnext).1 key rfl
      rw [hact]
      refine ⟨hsound, List.nodup_append.mpr ⟨hs.nodup, List.nodup_singleton _, ?_⟩⟩
      intro x hx y hy
      rw [List.mem_singleton.mp hy]
      exact ne_of_mem_of_not_mem hx hnew
    · rw [hact]
      exact ⟨(hs.cursor.next hnext).2 hr, hs.nodup⟩

/-- **No key is listed twice**, whatever happens meanwhile. -/
theorem Sound.run (hs : v.Sound) (acts : List Act) : (v.run acts).Sound := by
  induction acts generalizing v with
  | nil => exact hs
  | cons a acts ih => exact ih (hs.act a)

/-! ### One key -/

theorem inherited_act (hs : v.Sound) (a : Act) : (v.act a).cursor.inherited = v.cursor.inherited := by
  cases a with
  | edit engine e => rfl
  | next =>
    rcases v.act_next with ⟨key, c, hnext, hact⟩ | ⟨r, c, hnext, -, hact⟩ <;> rw [hact]
    · exact hs.cursor.onObjects.inherited_next hnext
    · exact hs.cursor.onObjects.inherited_next hnext

theorem mem_listed_act (hk : k ∈ v.listed) (a : Act) : k ∈ (v.act a).listed := by
  cases a with
  | edit engine e => exact hk
  | next =>
    rcases v.act_next with ⟨key, c, -, hact⟩ | ⟨r, c, -, -, hact⟩
    · rw [hact]
      exact List.mem_append_left _ hk
    · rw [hact]
      exact hk

theorem mem_listed_run (hk : k ∈ v.listed) (acts : List Act) : k ∈ (v.run acts).listed := by
  induction acts generalizing v with
  | nil => exact hk
  | cons a acts ih => exact ih (mem_listed_act hk a)

/-- **A key that is never overtaken is listed or still ahead.** -/
theorem tracks_run (hv : v.cursor.Tracks v.machine.heap o k) (hshown : shown o k acts v = true)
    (hnot : overtaken o k acts v = false) :
    k ∈ (v.run acts).listed ∨ (v.run acts).cursor.Tracks (v.run acts).machine.heap o k := by
  induction acts generalizing v with
  | nil => exact .inr hv
  | cons a acts ih =>
    obtain ⟨hshows, hshown'⟩ := Bool.and_eq_true_iff.mp hshown
    obtain ⟨hhead, hrest⟩ := Bool.or_eq_false_iff.mp hnot
    cases a with
    | next =>
      rcases v.act_next with ⟨key, c, hnext, hact⟩ | ⟨r, c, hnext, hr, hact⟩
      · rcases hv.next hshows hnext with ⟨hkey, -⟩ | htracks
        · refine .inl (mem_listed_run ?_ acts)
          rw [hact, Option.some.inj (Except.ok.inj hkey)]
          exact List.mem_append_right _ (List.mem_singleton_self k)
        · exact ih (by rw [hact]; exact htracks) hshown' hrest
      · rcases hv.next hshows hnext with ⟨hkey, -⟩ | htracks
        · exact absurd hkey (hr k)
        · exact ih (by rw [hact]; exact htracks) hshown' hrest
    | edit engine e =>
      have hahead : (v.act (.edit engine e)).isAhead o k = true := by
        have hbefore : v.isAhead o k = true := hv.ahead
        simpa [hbefore] using hhead
      exact ih ⟨hv.onObjects, hahead, hv.new⟩ hshown' hrest

/-! ### Operations that run no code -/

/-- The heap is valid, and the length of an array has a name. -/
structure Proper (v : Visit) : Prop where
  valid : v.machine.heap.Valid
  length : ∃ s, v.machine.realm.names.length = .string s

theorem Alters.tail {a : Act} (halters : Alters o (a :: acts)) : Alters o acts := fun engine e he =>
  halters engine e (List.mem_cons_of_mem a he)

/-- An operation that runs no code keeps the keys in order. -/
theorem Proper.arranged {a : Act} (hp : v.Proper) (halters : Alters o (a :: acts)) (hquiet : Quiet (a :: acts) v)
    (hshown : shown o k (a :: acts) v = true) :
    ∃ keep, (v.act a).machine.Arranged o (v.machine.heap.keysOf o) keep := by
  obtain ⟨s, hs⟩ := hp.length
  obtain ⟨cell, hown⟩ := Heap.mem_keysOf.mp (Heap.mem_keysOf_of_shows (shown_head hshown))
  obtain ⟨obj, ho, -⟩ := Heap.ownCell_eq_ok.mp hown
  cases a with
  | next =>
    have hmachine : (v.act .next).machine = v.machine := by
      rcases v.act_next with ⟨key, c, -, hact⟩ | ⟨r, c, -, -, hact⟩ <;> rw [hact]
    rw [hmachine]
    exact ⟨_, hp.length, .refl hp.valid ho⟩
  | edit engine e =>
    exact Edit.arranged_run (halters engine e (List.mem_cons_self ..)) (hquiet.1 engine e rfl) hp.valid hs ho

theorem Proper.act {a : Act} (hp : v.Proper) (halters : Alters o (a :: acts)) (hquiet : Quiet (a :: acts) v)
    (hshown : shown o k (a :: acts) v = true) : (v.act a).Proper := by
  obtain ⟨keep, ha⟩ := hp.arranged halters hquiet hshown
  exact ⟨ha.heap.valid, ha.length⟩

/-- **A key is overtaken only where one is removed that the cursor has passed.** -/
theorem Proper.removed (hp : v.Proper) (halters : Alters o acts) (hquiet : Quiet acts v)
    (hshown : shown o k acts v = true) (hovertaken : overtaken o k acts v = true) : removed o acts v = true := by
  induction acts generalizing v with
  | nil => cases hovertaken
  | cons a acts ih =>
    have hshown' := (Bool.and_eq_true_iff.mp hshown).2
    rw [Visit.removed, Bool.or_eq_true]
    rcases Bool.or_eq_true_iff.mp hovertaken with hhead | hrest
    · refine .inl ?_
      cases a with
      | next => cases hhead
      | edit engine e =>
        obtain ⟨keep, ha⟩ := hp.arranged halters hquiet hshown
        obtain ⟨hahead, hpassed⟩ := Bool.and_eq_true_iff.mp hhead
        obtain ⟨i, hsource, hk⟩ := KeyCursor.isBefore_iff.mp hahead
        have hbehind : k ∈ ((v.act (.edit engine e)).machine.heap.keysOf o).take i := by
          by_contra hnot
          have hstill : (v.act (.edit engine e)).isAhead o k = true := KeyCursor.isBefore_iff.mpr ⟨i, hsource, hnot⟩
          rw [hstill] at hpassed
          cases hpassed
        obtain ⟨key, hkey, hremoved⟩ :=
          ha.heap.exists_removed (Heap.mem_keysOf_of_shows (shown_head hshown)) hk hbehind
        have hpassed : v.passed o = (v.machine.heap.keysOf o).take i := by
          simp [passed, hsource]
        rw [hpassed, List.any_eq_true]
        exact ⟨key, hkey, decide_eq_true hremoved⟩
    · exact .inr (ih (hp.act halters hquiet hshown) halters.tail hquiet.2 hshown' hrest)

/-- **A key behind the cursor stays there.** It is not listed, and not overtaken again. -/
theorem Proper.misses_run (hp : v.Proper) (halters : Alters o acts) (hquiet : Quiet acts v)
    (hshown : shown o k acts v = true) (hv : v.cursor.Misses v.machine.heap o k) :
    overtaken o k acts v = false ∧ (k ∉ v.listed → k ∉ (v.run acts).listed) := by
  induction acts generalizing v with
  | nil => exact ⟨rfl, id⟩
  | cons a acts ih =>
    have hshown' := (Bool.and_eq_true_iff.mp hshown).2
    have ih := ih (hp.act halters hquiet hshown) halters.tail hquiet.2 hshown'
    cases a with
    | next =>
      rcases v.act_next with ⟨key, c, hnext, hact⟩ | ⟨r, c, hnext, hr, hact⟩
      · obtain ⟨hne, hmisses⟩ := hv.next hnext
        obtain ⟨hnot, hlisted⟩ := ih (by rw [hact]; exact hmisses)
        refine ⟨hnot, fun hk => hlisted ?_⟩
        rw [hact, List.mem_append, List.mem_singleton, not_or]
        exact ⟨hk, fun hkey => hne (by rw [hkey])⟩
      · obtain ⟨hnot, hlisted⟩ := ih (by rw [hact]; exact (hv.next hnext).2)
        exact ⟨hnot, fun hk => hlisted (by rw [hact]; exact hk)⟩
    | edit engine e =>
      obtain ⟨keep, ha⟩ := hp.arranged halters hquiet hshown
      have hstays := Heap.mem_keysOf_of_shows (shown_head hshown')
      have hplace : (v.act (.edit engine e)).cursor.source = .done ∨
          KeyCursor.Passed (v.act (.edit engine e)).machine.heap o k (v.act (.edit engine e)).cursor :=
        hv.place.imp id fun ⟨i, hsource, hk⟩ => ⟨i, hsource, ha.heap.mem_take hstays hk⟩
      obtain ⟨hnot, hlisted⟩ := ih ⟨hv.onObjects, hv.own, hplace⟩
      refine ⟨?_, hlisted⟩
      have hbehind : v.isAhead o k = false := hv.not_before
      rw [overtaken, hnot, hbehind]
      rfl

/-- **A key that is overtaken is not listed**, if nothing comes after the object. -/
theorem Proper.overtaken_run (hp : v.Proper) (halters : Alters o acts) (hquiet : Quiet acts v)
    (hshown : shown o k acts v = true) (hinherited : v.cursor.inherited = false) (hsound : v.Sound)
    (hv : v.cursor.Tracks v.machine.heap o k) (hk : k ∉ v.listed) (hovertaken : overtaken o k acts v = true) :
    k ∉ (v.run acts).listed := by
  induction acts generalizing v with
  | nil => cases hovertaken
  | cons a acts ih =>
    obtain ⟨hshows, hshown'⟩ := Bool.and_eq_true_iff.mp hshown
    have hp' := hp.act halters hquiet hshown
    have hsound' := hsound.act a
    have hinherited' : (v.act a).cursor.inherited = false := (inherited_act hsound a).trans hinherited
    cases a with
    | next =>
      have hrest : overtaken o k acts (v.act .next) = true := by simpa [overtaken] using hovertaken
      rcases v.act_next with ⟨key, c, hnext, hact⟩ | ⟨r, c, hnext, hr, hact⟩
      · rcases hv.next hshows hnext with ⟨-, hpassed⟩ | htracks
        · -- a key that has been listed is behind the cursor, so it is not overtaken
          have hmisses : (v.act .next).cursor.Misses (v.act .next).machine.heap o k :=
            ⟨hsound'.cursor.onObjects, hinherited', .inr (by rw [hact]; exact hpassed)⟩
          rw [(hp'.misses_run halters.tail hquiet.2 hshown' hmisses).1] at hrest
          cases hrest
        · have hnew : k ∉ (v.act .next).listed := fun hk' => by
            have hseen := hsound'.cursor.met k hk'
            rw [hact] at hseen
            exact htracks.new hseen
          exact ih hp' halters.tail hquiet.2 hshown' hinherited' hsound' (by rw [hact]; exact htracks) hnew hrest
      · rcases hv.next hshows hnext with ⟨hkey, -⟩ | htracks
        · exact absurd hkey (hr k)
        · exact ih hp' halters.tail hquiet.2 hshown' hinherited' hsound' (by rw [hact]; exact htracks)
            (by rw [hact]; exact hk) hrest
    | edit engine e =>
      have hbefore : v.isAhead o k = true := hv.ahead
      by_cases hahead : (v.act (.edit engine e)).isAhead o k = true
      · have hrest : overtaken o k acts (v.act (.edit engine e)) = true := by simpa [overtaken, hahead] using hovertaken
        exact ih hp' halters.tail hquiet.2 hshown' hinherited' hsound' ⟨hv.onObjects, hahead, hv.new⟩ hk hrest
      · obtain ⟨i, hsource, -⟩ := KeyCursor.isBefore_iff.mp hbefore
        have hbehind : k ∈ ((v.act (.edit engine e)).machine.heap.keysOf o).take i := by
          by_contra hnot
          exact hahead (KeyCursor.isBefore_iff.mpr ⟨i, hsource, hnot⟩)
        exact (hp'.misses_run halters.tail hquiet.2 hshown' ⟨hv.onObjects, hinherited, .inr ⟨i, hsource, hbehind⟩⟩).2 hk

/-! ### Deletions -/

/-- Without one of the first `i` elements the element at `i` comes among them, and no other. -/
theorem mem_take_filter_ne {ks : List PropertyKey} {i : Nat} (hnodup : ks.Nodup) (hk : k ∈ ks) (hbehind : k ∉ ks.take i) :
    k ∈ (ks.filter (· ≠ key)).take i ↔ key ∈ ks.take i ∧ ks[i]? = some k := by
  have hlength : (ks.take i).length = i := by
    rw [List.length_take, Nat.min_eq_left]
    by_contra hlt
    rw [List.take_of_length_le (by omega)] at hbehind
    exact hbehind hk
  have hsplit : ks.filter (· ≠ key) = (ks.take i).filter (· ≠ key) ++ (ks.drop i).filter (· ≠ key) := by
    rw [← List.filter_append, List.take_append_drop]
  have hparts : (ks.take i).Nodup ∧ ∀ x ∈ ks.take i, x ∉ ks.drop i := by
    have hboth := hnodup
    rw [← List.take_append_drop i ks, List.nodup_append] at hboth
    exact ⟨hboth.1, fun x hx hx' => hboth.2.2 x hx x hx' rfl⟩
  rw [hsplit]
  by_cases hkey : key ∈ ks.take i
  · have hrest : (ks.drop i).filter (· ≠ key) = ks.drop i := by
      refine List.filter_eq_self.mpr fun x hx => decide_eq_true fun heq => ?_
      exact hparts.2 key hkey (heq ▸ hx)
    have hshorter : ((ks.take i).filter (· ≠ key)).length = i - 1 := by
      have herase : (ks.take i).filter (· ≠ key) = (ks.take i).erase key := by
        rw [hparts.1.erase_eq_filter]
        exact List.filter_congr fun x _ => by by_cases hx : x = key <;> simp [hx]
      rw [herase, List.length_erase_of_mem hkey, hlength]
    have hone : i - (i - 1) = 1 := by
      have hpos := List.length_pos_of_mem hkey
      omega
    rw [hrest, List.take_append, List.take_of_length_le (by omega), hshorter, hone, List.mem_append]
    have hnot : k ∉ (ks.take i).filter (· ≠ key) := fun hmem => hbehind (List.mem_filter.mp hmem).1
    simp only [hnot, false_or, hkey, true_and, List.take_one, List.head?_drop, Option.mem_toList]
  · have hfirst : (ks.take i).filter (· ≠ key) = ks.take i :=
      List.filter_eq_self.mpr fun x hx => decide_eq_true fun heq => hkey (heq ▸ hx)
    rw [hfirst, List.take_append_of_le_length (by omega), List.take_of_length_le (by omega)]
    exact ⟨fun hmem => absurd hmem hbehind, fun hmem => absurd hmem.1 hkey⟩

/-- **A deletion moves exactly the next key past the cursor**, and only if the deleted key has been passed. -/
theorem overtaken_delete {d : Descriptor} {i : Nat} (hsource : v.cursor.source = .entries o i)
    (hahead : v.isAhead o k = true) (hk : k ∈ v.machine.heap.keysOf o)
    (hd : v.machine.heap.ownProperty o key = .ok (some d)) (hdelete : (!d.configurable || d.isVariable) = false)
    (engine : Engine) (strict : Bool) :
    (v.act (.edit engine (.delete o key strict))).isAhead o k = false ↔
      key ∈ v.passed o ∧ (v.machine.heap.keysOf o)[i]? = some k := by
  obtain ⟨j, hsource', hbehind⟩ := KeyCursor.isBefore_iff.mp hahead
  cases hsource.symm.trans hsource'
  obtain ⟨cell, hown⟩ := Heap.mem_keysOf.mp hk
  obtain ⟨obj, ho, -⟩ := Heap.ownCell_eq_ok.mp hown
  have hput := Heap.object_put_object ho { obj with properties := obj.properties.erase key } o
  rw [if_pos rfl] at hput
  have hkeys : (v.act (.edit engine (.delete o key strict))).machine.heap.keysOf o =
      (v.machine.heap.keysOf o).filter (· ≠ key) := by
    have hrun : (Edit.delete o key strict).run engine v.machine = { v.machine with
        heap := v.machine.heap.put o.handle (.object { obj with properties := obj.properties.erase key }) } := by
      have hperform : (Edit.delete o key strict).perform engine v.machine = .done () _ :=
        Proc.bind_done (Machine.deleteProperty_done hd hdelete ho strict) _
      unfold Edit.run
      rw [hperform]
      rfl
    show ((Edit.delete o key strict).run engine v.machine).heap.keysOf o = _
    rw [hrun, Heap.keysOf_eq hput, Heap.keysOf_eq ho]
    exact obj.properties.keys_erase key
  have hpassed : v.passed o = (v.machine.heap.keysOf o).take i := by
    simp [passed, hsource]
  rw [hpassed, ← mem_take_filter_ne (v.machine.heap.nodup_keysOf o) hk hbehind, ← hkeys, ← Bool.not_eq_true]
  unfold isAhead
  rw [KeyCursor.isBefore_iff, not_exists]
  constructor
  · intro hnot
    by_contra hmem
    exact hnot i ⟨hsource, hmem⟩
  · rintro hmem j ⟨hj, hnot⟩
    cases hsource.symm.trans hj
    exact hnot hmem

/-! ### The result -/

/-- **A key that stays is listed once, unless the cursor overtakes it.** Properties of `o` are set, defined and deleted
while a cursor lists its keys; an operation may run code and do anything. The key `k` can be observed on `o` all the time,
and in the end the cursor is done. Then no key has been listed twice. If no operation has moved `k` past the cursor, `k`
has been listed. Operations that run no code move it so only by removing a key that the cursor has passed; and if they do,
`k` is not listed, unless prototypes come after the object. -/
theorem keys_survive (hheap : m.heap.Valid) (hname : m.realm.names.length = .string s)
    (hcursor : m.heap.cursor m.realm (.object o) inherited = .ok c) (halters : Alters o acts)
    (hshown : shown o k acts ⟨m, c, []⟩ = true) (hdone : (run ⟨m, c, []⟩ acts).cursor.source = .done) :
    (run ⟨m, c, []⟩ acts).listed.Nodup ∧
    (overtaken o k acts ⟨m, c, []⟩ = false → k ∈ (run ⟨m, c, []⟩ acts).listed) ∧
    (Quiet acts ⟨m, c, []⟩ → overtaken o k acts ⟨m, c, []⟩ = true → removed o acts ⟨m, c, []⟩ = true) ∧
    (Quiet acts ⟨m, c, []⟩ → inherited = false →
      (k ∈ (run ⟨m, c, []⟩ acts).listed ↔ overtaken o k acts ⟨m, c, []⟩ = false)) := by
  cases hcursor
  have hsound : Sound ⟨m, { source := .entries o 0, inherited, ownIsProto := false, seen := ∅ }, []⟩ :=
    ⟨⟨⟨rfl, nofun⟩, nofun⟩, List.nodup_nil⟩
  have htracks : KeyCursor.Tracks m.heap o k { source := .entries o 0, inherited, ownIsProto := false, seen := ∅ } :=
    ⟨⟨rfl, nofun⟩, KeyCursor.isBefore_iff.mpr ⟨0, rfl, by simp⟩, by simp⟩
  have hproper : Proper ⟨m, { source := .entries o 0, inherited, ownIsProto := false, seen := ∅ }, []⟩ :=
    ⟨hheap, s, hname⟩
  have hlisted := fun hnot => (tracks_run htracks hshown hnot).resolve_right fun htracks' => by
    obtain ⟨i, hsource, -⟩ := KeyCursor.isBefore_iff.mp htracks'.ahead
    rw [hdone] at hsource
    cases hsource
  refine ⟨(hsound.run acts).nodup, hlisted, fun hquiet hovertaken => hproper.removed halters hquiet hshown hovertaken,
    fun hquiet hinherited => ⟨fun hk => ?_, hlisted⟩⟩
  by_contra hnot
  exact hproper.overtaken_run halters hquiet hshown hinherited hsound htracks nofun (Bool.not_eq_false _ ▸ hnot) hk

/-- A new machine, and an object that has the keys 0, 1 and 2. -/
def ofThree : Option (ObjectRef × Machine) :=
  (Machine.create .standard {} 0 true).toOption.bind fun m =>
    match Heap.allocObject none .object .ordinary m.heap with
    | .done o h => some (o, { m with heap :=
        [Heap.Op.define o (.index 0) (.data .null), .define o (.index 1) (.data .null),
          .define o (.index 2) (.data .null)].foldl (fun h op => op.run h) h })
    | _ => none

theorem built_ofThree (hthree : ofThree = some (o, m)) : m.heap.Built := by
  obtain ⟨m₀, hcreate, hthree⟩ := Option.bind_eq_some_iff.mp hthree
  have hbuilt := Machine.built_create (Except.eq_ok_of_toOption hcreate)
  have hobject := Heap.keeps_built (.allocObject none .object .ordinary) (fun _ => rfl) m₀.heap hbuilt
  split at hthree
  · next o' h hdone =>
    change (Heap.allocObject none .object .ordinary m₀.heap).Leaves _ at hobject
    rw [hdone] at hobject
    replace hobject : h.Built := hobject
    cases hthree
    exact ((hobject.run (.define o (.index 0) (.data .null))).run (.define o (.index 1) (.data .null))).run
      (.define o (.index 2) (.data .null))
  · cases hthree

/-- A key is deleted after the first one has been listed. -/
def deleting (o : ObjectRef) (key : PropertyKey) : List Act :=
  [.next, .edit Edit.refusing (.delete o key true), .next, .next]

theorem alters_deleting (o : ObjectRef) (key : PropertyKey) : Alters o (deleting o key) := by
  intro engine e he
  simp only [deleting, List.mem_cons, reduceCtorEq, Act.edit.injEq, List.not_mem_nil, or_false, false_or] at he
  rw [he.2]
  exact rfl

theorem quiet_deleting (o : ObjectRef) (key : PropertyKey) (v : Visit) : Quiet (deleting o key) v := by
  refine quiet_of_edits fun engine e he m => ?_
  simp only [deleting, List.mem_cons, reduceCtorEq, Act.edit.injEq, List.not_mem_nil, or_false, false_or] at he
  rw [he.2]
  exact fun _ _ => rfl

/-- The keys that are listed, if the key 1 can be observed all the time and the cursor comes to its end; and whether a key
was removed that it had passed. -/
def listedThrough (acts : List Act) (o : ObjectRef) (v : Visit) : Option (List PropertyKey × Bool) :=
  match (v.run acts).cursor.source with
  | .done => if shown o (.index 1) acts v then some ((v.run acts).listed, removed o acts v) else none
  | _ => none

theorem of_listedThrough {ks : List PropertyKey} {b : Bool} (hlisted : listedThrough acts o v = some (ks, b)) :
    (v.run acts).cursor.source = .done ∧ shown o (.index 1) acts v = true ∧ (v.run acts).listed = ks ∧
      removed o acts v = b := by
  unfold listedThrough at hlisted
  split at hlisted
  · next hdone =>
    split at hlisted
    · next hshown =>
      cases hlisted
      exact ⟨hdone, hshown, rfl, rfl⟩
    · cases hlisted
  · cases hlisted

/-- The key 2 is deleted after the key 0 has been listed, and the key 1 is listed. -/
theorem keys_survive_behind : ∃ (o : ObjectRef) (m : Machine) (c : KeyCursor) (s : StringRef),
    m.heap.Valid ∧ m.realm.names.length = .string s ∧ m.heap.cursor m.realm (.object o) false = .ok c ∧
    Alters o (deleting o (.index 2)) ∧ Quiet (deleting o (.index 2)) ⟨m, c, []⟩ ∧
    shown o (.index 1) (deleting o (.index 2)) ⟨m, c, []⟩ = true ∧
    (run ⟨m, c, []⟩ (deleting o (.index 2))).cursor.source = .done ∧
    removed o (deleting o (.index 2)) ⟨m, c, []⟩ = false ∧
    .index 1 ∈ (run ⟨m, c, []⟩ (deleting o (.index 2))).listed := by
  have hruns : (ofThree.bind fun x => (x.2.heap.cursor x.2.realm (.object x.1) false).toOption.map fun c =>
      (decide (x.2.realm.names.length = .string ⟨⟨0, 0⟩⟩), listedThrough (deleting x.1 (.index 2)) x.1 ⟨x.2, c, []⟩)) =
      some (true, some ([.index 0, .index 1], false)) := by decide +kernel
  obtain ⟨⟨o, m⟩, hthree, hruns⟩ := Option.bind_eq_some_iff.mp hruns
  obtain ⟨c, hcursor, hruns⟩ := Option.map_eq_some_iff.mp hruns
  dsimp only at hcursor hruns
  obtain ⟨hname, hlisted⟩ := Prod.mk.inj hruns
  replace hname := of_decide_eq_true hname
  replace hcursor := Except.eq_ok_of_toOption hcursor
  have hvalid := (built_ofThree hthree).valid
  obtain ⟨hdone, hshown, -, hremoved⟩ := of_listedThrough hlisted
  have halters := alters_deleting o (.index 2)
  have hquiet := quiet_deleting o (.index 2) ⟨m, c, []⟩
  obtain ⟨-, hkept, hovertaken, -⟩ := keys_survive hvalid hname hcursor halters hshown hdone
  have hnot : overtaken o (.index 1) (deleting o (.index 2)) ⟨m, c, []⟩ = false := by
    rw [← Bool.not_eq_true]
    intro htrue
    rw [hovertaken hquiet htrue] at hremoved
    cases hremoved
  exact ⟨o, m, c, _, hvalid, hname, hcursor, halters, hquiet, hshown, hdone, hremoved, hkept hnot⟩

/-- **A deletion makes the cursor miss a key**: the key 0 is deleted when it has been listed, and the key 1 is not listed,
although it can be observed all the time and the cursor comes to its end. -/
theorem key_overtaken : ∃ (o : ObjectRef) (m : Machine) (c : KeyCursor),
    m.heap.Built ∧ m.heap.cursor m.realm (.object o) false = .ok c ∧ Alters o (deleting o (.index 0)) ∧
    Quiet (deleting o (.index 0)) ⟨m, c, []⟩ ∧ shown o (.index 1) (deleting o (.index 0)) ⟨m, c, []⟩ = true ∧
    (run ⟨m, c, []⟩ (deleting o (.index 0))).cursor.source = .done ∧
    (run ⟨m, c, []⟩ (deleting o (.index 0))).listed = [.index 0, .index 2] := by
  have hruns : (ofThree.bind fun x => (x.2.heap.cursor x.2.realm (.object x.1) false).toOption.map fun c =>
      listedThrough (deleting x.1 (.index 0)) x.1 ⟨x.2, c, []⟩) = some (some ([.index 0, .index 2], true)) := by decide +kernel
  obtain ⟨⟨o, m⟩, hthree, hruns⟩ := Option.bind_eq_some_iff.mp hruns
  obtain ⟨c, hcursor, hlisted⟩ := Option.map_eq_some_iff.mp hruns
  dsimp only at hcursor hlisted
  obtain ⟨hdone, hshown, hkeys, -⟩ := of_listedThrough hlisted
  exact ⟨o, m, c, built_ofThree hthree, Except.eq_ok_of_toOption hcursor, alters_deleting o _, quiet_deleting o _ _,
    hshown, hdone, hkeys⟩

end Visit

end ScriptCore
