import ScriptCore.Proofs.Object.Assignment

/-! # What is visible and what is read

Asking for a property and reading it are two lookups that each tell the kinds of bases apart before they walk a chain.
Both see the same properties: a unit or the length of a string, or what the nearest holder on the chain has. Only an
index beyond the end of a string sets them apart, since reading ends there and asking goes on.

* `Heap.Holder`, `findWithin_iff`: the nearest holder of a key, as a relation that follows the chain.
* `Heap.Sees`: **what reading a property comes upon**; `Found.read` says what it makes of it.
* `visible_iff_found`: **a property is visible exactly when reading comes upon one.**
* `sees_beyond`, `unfound_visible`: the exception. -/

namespace ScriptCore

variable {h : Heap} {R : Realm} {m m' : Machine} {o q : ObjectRef} {key : PropertyKey} {c : CellRef} {base : Value}
  {s : StringRef} {t : Text} {i : UInt32} {e : Error}

namespace Heap

/-! ### The nearest holder -/

/-- **The nearest holder `q` of a key** on the chain from an object, with its cell `c`, among the first objects. -/
inductive Holder (h : Heap) (key : PropertyKey) (q : ObjectRef) (c : CellRef) : Nat → ObjectRef → Prop where
  | own {n obj} : h.object q = .ok obj → obj.properties.find? key = some c → Holder h key q c (n + 1) q
  | inherited {n o p obj} : h.object o = .ok obj → obj.properties.find? key = none → obj.prototype = some p →
      Holder h key q c n p → Holder h key q c (n + 1) o

/-- The walk along a chain finds the nearest holder and nothing else. -/
theorem findWithin_iff : ∀ (n : Nat) (o : ObjectRef),
    h.findWithin key n (some o) = .ok (some (q, c)) ↔ h.Holder key q c n o
  | 0, o => ⟨nofun, nofun⟩
  | n + 1, o => by
    constructor
    · intro hfound
      unfold findWithin at hfound
      cases ho : h.object o with
      | error e => simp only [ho, reduceCtorEq] at hfound
      | ok obj =>
        simp only [ho] at hfound
        cases hfind : obj.properties.find? key with
        | some x =>
          simp only [hfind, Except.ok.injEq, Option.some.injEq, Prod.mk.injEq] at hfound
          obtain ⟨rfl, rfl⟩ := hfound
          exact .own ho hfind
        | none =>
          simp only [hfind] at hfound
          cases hp : obj.prototype with
          | none =>
            rw [hp, findWithin] at hfound
            cases hfound
          | some p =>
            rw [hp] at hfound
            exact .inherited ho hfind hp ((findWithin_iff n p).mp hfound)
    · intro hholder
      cases hholder with
      | own ho hfind =>
        rw [findWithin, ho]
        simp only [hfind]
      | inherited ho hfind hp hrest =>
        rw [findWithin, ho]
        simp only [hfind, hp]
        exact (findWithin_iff n _).mpr hrest

theorem findProperty_iff : h.findProperty o key = .ok (some (q, c)) ↔ h.Holder key q c maxPrototypeChain o :=
  findWithin_iff maxPrototypeChain o

end Heap

/-! ### What reading comes upon -/

/-- What reading a property comes upon. -/
inductive Found where
  /-- A unit of a string. -/
  | unit (u : UInt16)
  /-- The length of a string. -/
  | length (n : Nat)
  /-- A property of an object on the chain. -/
  | held (holder : ObjectRef) (cell : CellRef)

/-- The object where the chain begins that reading a property of a value walks, if it walks one. -/
def Realm.chainStart? (R : Realm) (key : PropertyKey) : Value → Option ObjectRef
  | .undefined | .null => none
  | .string _ =>
    match key with
    | .index _ => none
    | .string _ => if key = R.names.length then none else some R.stringPrototype
  | .number _ => some R.numberPrototype
  | .bool _ => some R.booleanPrototype
  | .object o => some o

/-- **Reading the property of a base comes upon something**: a string has its units and its length, and every base
has what the nearest holder on its chain has. -/
inductive Heap.Sees (h : Heap) (R : Realm) : Value → PropertyKey → Found → Prop where
  | unit {s : StringRef} {t : Text} {i : UInt32} {u : UInt16} : h.text s = .ok t → t.unitAt? i.toNat = some u →
      Sees h R (.string s) (.index i) (.unit u)
  | length {s w : StringRef} {t : Text} : h.text s = .ok t → .string w = R.names.length →
      Sees h R (.string s) (.string w) (.length t.length)
  | held {base : Value} {key : PropertyKey} {o q : ObjectRef} {c : CellRef} :
      R.chainStart? key base = some o → h.Holder key q c maxPrototypeChain o → Sees h R base key (.held q c)

/-- What reading delivers of what it came upon: a getter is called with the base. -/
def Found.read (engine : Engine) (base : Value) : Found → Run Value
  | .unit u => do return .string (← Heap.intern ⟨#[u]⟩)
  | .length n => return .ofCount n
  | .held _ c => do readDescriptor engine (← Run.readHeap fun h => h.cell c) base

/-- The base is not a released string, and the key is no index beyond the end of a string. -/
def Heap.Within (h : Heap) (base : Value) (key : PropertyKey) : Prop :=
  ∀ s, base = .string s → ∃ t, h.text s = .ok t ∧ ∀ i, key = .index i → i.toNat < t.length

/-! ### The two lookups -/

/-- Asking for a property only looks at the heap. -/
theorem hasProperty_eq (base : Value) (key : PropertyKey) (m : Machine) : hasProperty base key m =
    match m.heap.hasOn m.realm base key with
    | .ok (some b) => .done b m
    | .ok none => refuseBase "check" base key m
    | .error e => .failed e m := by
  show (Run.readHeap (fun h => h.hasOn m.realm base key) >>= _) m = _
  rw [Run.readHeap_bind]
  cases m.heap.hasOn m.realm base key with
  | error e => rfl
  | ok found => cases found <;> rfl

/-- Reading a property first looks where it is. -/
theorem getProperty_eq (E : Engine) (base : Value) (key : PropertyKey) (m : Machine) : getProperty E base key m =
    match m.heap.lookup m.realm base key with
    | .ok .refused => refuseBase "read" base key m
    | .ok (.found v) => .done v m
    | .ok (.unit u) => (Found.unit u).read E base m
    | .ok .missing => .done .undefined m
    | .ok (.chain o) =>
      match m.heap.findProperty o key with
      | .ok (some (q, c)) => (Found.held q c).read E base m
      | .ok none => .done .undefined m
      | .error e => .failed e m
    | .error e => .failed e m := by
  show (Run.readHeap (fun h => h.lookup m.realm base key) >>= _) m = _
  rw [Run.readHeap_bind]
  cases m.heap.lookup m.realm base key with
  | error e => rfl
  | ok found =>
    cases found with
    | chain o =>
      show (Run.readHeap (fun h => h.property o key) >>= _) m = _
      rw [Run.readHeap_bind]
      unfold Heap.property
      dsimp only [bind, Except.bind]
      cases m.heap.findProperty o key with
      | error e => rfl
      | ok found =>
        cases found with
        | none => rfl
        | some found =>
          obtain ⟨q, c⟩ := found
          show _ = (Run.readHeap (fun h => h.cell c) >>= _) m
          rw [Run.readHeap_bind]
          dsimp only
          cases m.heap.cell c <;> rfl
    | _ => rfl

namespace Heap

theorem lookup_unit {u : UInt16} (ht : h.text s = .ok t) (hu : t.unitAt? i.toNat = some u) :
    h.lookup R (.string s) (.index i) = .ok (.unit u) := by
  unfold lookup
  dsimp only
  rw [ht]
  dsimp only [bind, Except.bind]
  rw [hu]
  rfl

theorem lookup_beyond (ht : h.text s = .ok t) (hi : t.length ≤ i.toNat) :
    h.lookup R (.string s) (.index i) = .ok .missing := by
  unfold lookup
  dsimp only
  rw [ht]
  dsimp only [bind, Except.bind]
  rw [show t.unitAt? i.toNat = none from Array.getElem?_eq_none hi]
  rfl

theorem lookup_length {w : StringRef} (ht : h.text s = .ok t) (hw : .string w = R.names.length) :
    h.lookup R (.string s) (.string w) = .ok (.found (.ofCount t.length)) := by
  unfold lookup
  dsimp only
  rw [if_pos hw, ht]
  rfl

theorem lookup_chain (hstart : R.chainStart? key base = some o) : h.lookup R base key = .ok (.chain o) := by
  cases base with
  | undefined | null => cases hstart
  | number x | bool b | object q => cases hstart; rfl
  | string s =>
    cases key with
    | index i => cases hstart
    | string w =>
      unfold Realm.chainStart? at hstart
      unfold lookup
      dsimp only at hstart ⊢
      split at hstart
      · cases hstart
      · next hne =>
        cases hstart
        rw [if_neg hne]
        rfl

theorem hasOn_unit (ht : h.text s = .ok t) (hi : i.toNat < t.length) :
    h.hasOn R (.string s) (.index i) = .ok (some true) := by
  unfold hasOn
  dsimp only
  rw [ht]
  dsimp only [bind, Except.bind]
  rw [if_pos (decide_eq_true hi)]
  rfl

theorem hasOn_beyond (ht : h.text s = .ok t) (hi : t.length ≤ i.toNat) :
    h.hasOn R (.string s) (.index i) = h.hasOn R (.object R.stringPrototype) (.index i) := by
  unfold hasOn
  dsimp only
  rw [ht]
  dsimp only [bind, Except.bind]
  rw [if_neg (by simpa using hi)]

theorem hasOn_length {w : StringRef} (ht : h.text s = .ok t) (hw : .string w = R.names.length) :
    h.hasOn R (.string s) (.string w) = .ok (some true) := by
  unfold hasOn
  dsimp only
  rw [ht]
  dsimp only [bind, Except.bind]
  rw [if_pos (by simpa using hw)]
  rfl

theorem hasOn_chain (hstart : R.chainStart? key base = some o) (hin : h.Within base key) :
    h.hasOn R base key = (do return some (← h.findProperty o key).isSome) := by
  cases base with
  | undefined | null => cases hstart
  | number x | bool b | object q => cases hstart; rfl
  | string s =>
    obtain ⟨t, ht, -⟩ := hin s rfl
    cases key with
    | index i => cases hstart
    | string w =>
      unfold Realm.chainStart? at hstart
      unfold hasOn
      dsimp only at hstart ⊢
      split at hstart
      · cases hstart
      · next hne =>
        cases hstart
        rw [ht]
        dsimp only [bind, Except.bind]
        rw [if_neg (by simpa using hne)]

end Heap

/-! ### The two lookups agree -/

/-- **Asking for a property and reading it agree.** -/
structure Machine.SeesAlike (E : Engine) (m : Machine) (base : Value) (key : PropertyKey) : Prop where
  visible : hasProperty base key m = .done true m ↔ ∃ found, m.heap.Sees m.realm base key found
  reads : ∀ found, m.heap.Sees m.realm base key found → getProperty E base key m = found.read E base m
  invisible : hasProperty base key m = .done false m ↔
    (¬∃ found, m.heap.Sees m.realm base key found) ∧ getProperty E base key m = .done .undefined m
  /-- Asking has no other endings than that both fail alike, as they do when the chain is too long. -/
  fails : hasProperty base key m = .done true m ∨ hasProperty base key m = .done false m ∨
    ∃ e, hasProperty base key m = .failed e m ∧ getProperty E base key m = .failed e m

namespace Machine.SeesAlike

variable {E : Engine}

theorem of_found (found : Found) (hsees : ∀ f, m.heap.Sees m.realm base key f ↔ f = found)
    (hhas : hasProperty base key m = .done true m) (hget : getProperty E base key m = found.read E base m) :
    m.SeesAlike E base key where
  visible := ⟨fun _ => ⟨found, (hsees found).mpr rfl⟩, fun _ => hhas⟩
  reads f hf := by
    obtain rfl := (hsees f).mp hf
    exact hget
  invisible := by
    constructor
    · intro hfalse
      rw [hhas] at hfalse
      cases hfalse
    · intro ⟨hnone, _⟩
      exact absurd ⟨found, (hsees found).mpr rfl⟩ hnone
  fails := .inl hhas

theorem of_none (hnone : ¬∃ f, m.heap.Sees m.realm base key f) (hhas : hasProperty base key m = .done false m)
    (hget : getProperty E base key m = .done .undefined m) : m.SeesAlike E base key where
  visible := by
    constructor
    · intro htrue
      rw [hhas] at htrue
      cases htrue
    · intro hsees
      exact absurd hsees hnone
  reads f hf := absurd ⟨f, hf⟩ hnone
  invisible := ⟨fun _ => ⟨hnone, hget⟩, fun _ => hhas⟩
  fails := .inr (.inl hhas)

theorem of_failed (hnone : ¬∃ f, m.heap.Sees m.realm base key f) (hhas : hasProperty base key m = .failed e m)
    (hget : getProperty E base key m = .failed e m) : m.SeesAlike E base key where
  visible := by
    constructor
    · intro htrue
      rw [hhas] at htrue
      cases htrue
    · intro hsees
      exact absurd hsees hnone
  reads f hf := absurd ⟨f, hf⟩ hnone
  invisible := by
    constructor
    · intro hfalse
      rw [hhas] at hfalse
      cases hfalse
    · intro ⟨_, hundefined⟩
      rw [hget] at hundefined
      cases hundefined
  fails := .inr (.inr ⟨e, hhas, hget⟩)

/-- A base of which a chain is walked is seen as far as the walk goes. -/
theorem of_chain (hstart : m.realm.chainStart? key base = some o) (hin : m.heap.Within base key) :
    m.SeesAlike E base key := by
  have hsees : ∀ f, m.heap.Sees m.realm base key f →
      ∃ q c, f = .held q c ∧ m.heap.findProperty o key = .ok (some (q, c)) := by
    intro f hf
    cases hf with
    | unit => cases hstart
    | length _ hw =>
      unfold Realm.chainStart? at hstart
      dsimp only at hstart
      rw [if_pos hw] at hstart
      cases hstart
    | held hstart' hholder =>
      cases hstart.symm.trans hstart'
      exact ⟨_, _, rfl, Heap.findProperty_iff.mpr hholder⟩
  have hhas := hasProperty_eq base key m
  rw [Heap.hasOn_chain hstart hin] at hhas
  have hget := getProperty_eq E base key m
  rw [Heap.lookup_chain hstart] at hget
  dsimp only [bind, Except.bind] at hhas hget
  cases hfound : m.heap.findProperty o key with
  | error e =>
    rw [hfound] at hhas hget hsees
    refine of_failed (fun ⟨f, hf⟩ => ?_) hhas hget
    obtain ⟨_, _, _, herror⟩ := hsees f hf
    cases herror
  | ok found =>
    rw [hfound] at hhas hget hsees
    cases found with
    | none =>
      refine of_none (fun ⟨f, hf⟩ => ?_) hhas hget
      obtain ⟨_, _, _, hnone⟩ := hsees f hf
      cases hnone
    | some found =>
      obtain ⟨q, c⟩ := found
      refine of_found (.held q c) (fun f => ⟨fun hf => ?_, ?_⟩) hhas hget
      · obtain ⟨_, _, rfl, hsame⟩ := hsees f hf
        cases hsame
        rfl
      · rintro rfl
        exact .held hstart (Heap.findProperty_iff.mp hfound)

/-- A unit of a string is its own. -/
theorem of_unit (ht : m.heap.text s = .ok t) (hi : i.toNat < t.length) : m.SeesAlike E (.string s) (.index i) := by
  have hu : t.unitAt? i.toNat = some t.units[i.toNat] := Array.getElem?_eq_getElem hi
  refine of_found (.unit t.units[i.toNat]) (fun f => ⟨fun hf => ?_, ?_⟩) ?_ ?_
  · cases hf with
    | unit ht' hu' =>
      cases ht.symm.trans ht'
      cases hu.symm.trans hu'
      rfl
    | held hstart _ => cases hstart
  · rintro rfl
    exact .unit ht hu
  · rw [hasProperty_eq, Heap.hasOn_unit ht hi]
  · rw [getProperty_eq, Heap.lookup_unit ht hu]

/-- The length of a string is its own. -/
theorem of_length {w : StringRef} (ht : m.heap.text s = .ok t) (hw : .string w = m.realm.names.length) :
    m.SeesAlike E (.string s) (.string w) := by
  refine of_found (.length t.length) (fun f => ⟨fun hf => ?_, ?_⟩) ?_ ?_
  · cases hf with
    | length ht' _ =>
      cases ht.symm.trans ht'
      rfl
    | held hstart _ =>
      unfold Realm.chainStart? at hstart
      dsimp only at hstart
      rw [if_pos hw] at hstart
      cases hstart
  · rintro rfl
    exact .length ht hw
  · rw [hasProperty_eq, Heap.hasOn_length ht hw]
  · rw [getProperty_eq, Heap.lookup_length ht hw]
    rfl

theorem of_within (hbase : base.isNullish = false) (hin : m.heap.Within base key) : m.SeesAlike E base key := by
  cases base with
  | undefined | null => cases hbase
  | number x | bool b | object o => exact of_chain rfl hin
  | string s =>
    obtain ⟨t, ht, hindex⟩ := hin s rfl
    cases key with
    | index i => exact of_unit ht (hindex i rfl)
    | string w =>
      by_cases hw : .string w = m.realm.names.length
      · exact of_length ht hw
      · exact of_chain (o := m.realm.stringPrototype) (if_neg hw) hin

end Machine.SeesAlike

/-- Beyond the end of a string reading comes upon nothing and walks no chain; asking goes on to the prototype. -/
theorem sees_beyond (ht : m.heap.text s = .ok t) (hi : t.length ≤ i.toNat) (E : Engine) :
    (¬∃ found, m.heap.Sees m.realm (.string s) (.index i) found) ∧
    getProperty E (.string s) (.index i) m = .done .undefined m ∧
    hasProperty (.string s) (.index i) m = hasProperty (.object m.realm.stringPrototype) (.index i) m := by
  refine ⟨fun ⟨found, hf⟩ => ?_, ?_, ?_⟩
  · cases hf with
    | unit ht' hu =>
      cases ht.symm.trans ht'
      rw [show t.unitAt? i.toNat = none from Array.getElem?_eq_none hi] at hu
      cases hu
    | held hstart _ => cases hstart
  · rw [getProperty_eq, Heap.lookup_beyond ht hi]
  · rw [hasProperty_eq, hasProperty_eq, Heap.hasOn_beyond ht hi]
    cases hhas : m.heap.hasOn m.realm (.object m.realm.stringPrototype) (.index i) with
    | error e => rfl
    | ok answer =>
      cases answer with
      | some b => rfl
      | none =>
        -- An object is never refused.
        unfold Heap.hasOn at hhas
        dsimp only [bind, Except.bind] at hhas
        cases hfound : m.heap.findProperty m.realm.stringPrototype (.index i) with
        | error e => rw [hfound] at hhas; cases hhas
        | ok found => rw [hfound] at hhas; cases hhas

/-- A string that was released cannot be asked, though its prototype can be read. -/
theorem asks_released (hs : m.heap.text s = .error e) (key : PropertyKey) (E : Engine) :
    hasProperty (.string s) key m = .failed e m ∧
    (getProperty E (.string s) key m = .failed e m ∨
      m.realm.chainStart? key (.string s) = some m.realm.stringPrototype) := by
  constructor
  · rw [hasProperty_eq]
    have hhas : m.heap.hasOn m.realm (.string s) key = .error e := by
      unfold Heap.hasOn
      dsimp only
      rw [hs]
      rfl
    rw [hhas]
  · cases key with
    | index i =>
      refine .inl ?_
      have hlookup : m.heap.lookup m.realm (.string s) (.index i) = .error e := by
        unfold Heap.lookup
        dsimp only
        rw [hs]
        rfl
      rw [getProperty_eq, hlookup]
    | string w =>
      by_cases hw : .string w = m.realm.names.length
      · refine .inl ?_
        have hlookup : m.heap.lookup m.realm (.string s) (.string w) = .error e := by
          unfold Heap.lookup
          dsimp only
          rw [if_pos hw, hs]
          rfl
        rw [getProperty_eq, hlookup]
      · exact .inr (if_neg hw)

/-- **A property is visible exactly when reading comes upon one**, of every base that has properties, unless an index
is beyond the end of a string. There reading delivers `undefined` at once, and what is visible is what the prototype
of strings shows. -/
theorem visible_iff_found (E : Engine) (m : Machine) (base : Value) (key : PropertyKey)
    (hbase : base.isNullish = false) :
    (m.heap.Within base key → m.SeesAlike E base key) ∧
    (∀ s t i, base = .string s → key = .index i → m.heap.text s = .ok t → t.length ≤ i.toNat →
      (¬∃ found, m.heap.Sees m.realm base key found) ∧ getProperty E base key m = .done .undefined m ∧
      hasProperty base key m = hasProperty (.object m.realm.stringPrototype) key m) ∧
    (∀ s e, base = .string s → m.heap.text s = .error e → hasProperty base key m = .failed e m ∧
      (getProperty E base key m = .failed e m ∨ m.realm.chainStart? key base = some m.realm.stringPrototype)) := by
  refine ⟨.of_within hbase, ?_, ?_⟩
  · rintro s t i rfl rfl ht hi
    exact sees_beyond ht hi E
  · rintro s e rfl hs
    exact asks_released hs key E

/-- The prototype of strings takes the index 9, which the text `length` does not reach and asking for it sees. -/
def hiddenIndex (m : Machine) : Bool :=
  match m.realm.names.length, setProperty Edit.refusing m.realm.stringPrototype (.index 9) .null true m with
  | .string s, .done true m₁ =>
    (m₁.heap.text s).toOption.any (fun t => decide (0 < t.length) && decide (t.length ≤ 9)) &&
      (m₁.heap.hasOn m₁.realm (.string s) (.index 9)).toOption == some (some true)
  | _, _ => false

theorem of_hiddenIndex (hindex : hiddenIndex m = true) : ∃ s t m₁, m.realm.names.length = .string s ∧
    setProperty Edit.refusing m.realm.stringPrototype (.index 9) .null true m = .done true m₁ ∧
    m₁.heap.text s = .ok t ∧ 0 < t.length ∧ t.length ≤ 9 ∧
    m₁.heap.hasOn m₁.realm (.string s) (.index 9) = .ok (some true) := by
  unfold hiddenIndex at hindex
  split at hindex
  · next s m₁ hs hset =>
    obtain ⟨htext, hhas⟩ := Bool.and_eq_true_iff.mp hindex
    cases ht : m₁.heap.text s with
    | error e => rw [ht] at htext; cases htext
    | ok t =>
      rw [ht] at htext
      obtain ⟨hpos, hle⟩ := Bool.and_eq_true_iff.mp htext
      exact ⟨s, t, m₁, hs, hset, ht, of_decide_eq_true hpos, of_decide_eq_true hle,
        Except.eq_ok_of_toOption (beq_iff_eq.mp hhas)⟩
  · cases hindex

theorem exists_hiddenIndex : ∃ m, Machine.create .standard {} 0 true = .ok m ∧ hiddenIndex m = true := by
  have hindex : (Machine.create .standard {} 0 true).toOption.any hiddenIndex = true := by decide +kernel
  exact Except.exists_of_any hindex

theorem visible_iff_found_first_unit : ∃ (m : Machine) (s : StringRef) (t : Text), m.heap.text s = .ok t ∧
    0 < t.length ∧ (Value.string s).isNullish = false ∧ m.heap.Within (.string s) (.index 0) ∧
    m.SeesAlike Edit.refusing (.string s) (.index 0) := by
  obtain ⟨_, -, hindex⟩ := exists_hiddenIndex
  obtain ⟨s, t, m, -, -, ht, hpos, -, -⟩ := of_hiddenIndex hindex
  have hin : m.heap.Within (.string s) (.index 0) := fun _ hs => by
    cases hs
    exact ⟨t, ht, fun _ hkey => by cases hkey; exact hpos⟩
  exact ⟨m, s, t, ht, hpos, rfl, hin, (visible_iff_found Edit.refusing m (.string s) (.index 0) rfl).1 hin⟩

/-- **An index that reading does not find is visible**, if it is beyond the end of a string and the prototype of
strings has it. -/
theorem unfound_visible : ∃ (m₀ m : Machine) (s : StringRef), Machine.create .standard {} 0 true = .ok m₀ ∧
    setProperty Edit.refusing m₀.realm.stringPrototype (.index 9) .null true m₀ = .done true m ∧
    m₀.realm.names.length = .string s ∧ hasProperty (.string s) (.index 9) m = .done true m ∧
    (¬∃ found, m.heap.Sees m.realm (.string s) (.index 9) found) ∧
    ∀ E, getProperty E (.string s) (.index 9) m = .done .undefined m := by
  obtain ⟨m₀, hm₀, hindex⟩ := exists_hiddenIndex
  obtain ⟨s, t, m, hs, hset, ht, -, hle, hhas⟩ := of_hiddenIndex hindex
  have hbeyond : t.length ≤ (9 : UInt32).toNat := hle
  refine ⟨m₀, m, s, hm₀, hset, hs, ?_, (sees_beyond ht hbeyond Edit.refusing).1,
    fun E => (sees_beyond ht hbeyond E).2.1⟩
  rw [hasProperty_eq, hhas]

end ScriptCore
