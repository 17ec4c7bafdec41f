import ScriptCore.Proofs.Number.Wholes
import ScriptCore.Proofs.Object.Edits
import ScriptCore.Proofs.Property.Spelling

/-! # Keys are canonical

An index is recognised in a text by its digits and in a number by its value. Both recognisers agree, because the
text of a number that is an index has exactly those digits, as long as the printer writes whole numbers with their
digits. So a value and its text are the same key, and a key and its string form determine each other.

* `arrayIndex?_iff`: the texts that write an index.
* `toString_of_arrayIndexOfNumber?`: the text of a number that is an index writes the index.
* `Heap.Yields`: the keys that a heap has given out.
* `keys_canonical`: **the recognisers agree, and keys and their string forms determine each other.** -/

namespace ScriptCore

/-! ### The text of an index -/

/-- The code unit of a character of the first plane. -/
def unitOf (c : Char) : UInt16 := c.toNat.toUInt16

/-- The code units of the decimal text of a number. -/
def decimalUnits (n : Nat) : List UInt16 := (Nat.toDigits 10 n).map unitOf

theorem toNat_unitOf {c : Char} (hc : c.isDigit = true) : (unitOf c).toNat = c.toNat :=
  Text.toNat_toUInt16 (Nat.lt_of_le_of_lt (Number.toNat_of_isDigit hc).2 (by decide))

/-- Digits are single units. -/
theorem units_ofString_digits {ds : List Char} (h : ∀ c ∈ ds, c.isDigit = true) :
    (Text.ofString (String.ofList ds)).units.toList = ds.map unitOf := by
  show (String.ofList ds).toList.flatMap Text.unitsOfChar = ds.map unitOf
  rw [String.toList_ofList]
  induction ds with
  | nil => rfl
  | cons c ds ih =>
    have hc := (Number.toNat_of_isDigit (h c (List.mem_cons_self ..))).2
    rw [List.flatMap_cons, List.map_cons, ih fun d hd => h d (List.mem_cons_of_mem _ hd), Text.unitsOfChar,
      if_pos (by omega)]
    rfl

theorem units_decimal (n : Nat) :
    (Text.ofString (String.ofList (Nat.toDigits 10 n))).units.toList = decimalUnits n :=
  units_ofString_digits (Number.isDigits_toDigits n).2

theorem indexDigits?_append (us vs : List UInt16) (n : Nat) :
    indexDigits? (us ++ vs) n = (indexDigits? us n).bind (indexDigits? vs) := by
  induction us generalizing n with
  | nil => rfl
  | cons u us ih =>
    rw [List.cons_append, indexDigits?, indexDigits?]
    split
    · split
      · exact ih _
      · rfl
    · rfl

/-- The digits of a number are read as the number. -/
theorem indexDigits?_decimalUnits {n : Nat} (hn : n ≤ indexBound) : indexDigits? (decimalUnits n) 0 = some n := by
  induction n using Nat.strongRecOn with
  | _ n ih =>
    have hlast : ∀ d < 10, ∀ m, 10 * m + d ≤ indexBound →
        indexDigits? ((Nat.toDigits 10 d).map unitOf) m = some (10 * m + d) := by
      intro d hd m hm
      have hdigit : (unitOf d.digitChar).toNat = 48 + d := by
        rw [toNat_unitOf (by rw [Nat.isDigit_digitChar, decide_eq_true hd]), Nat.toNat_digitChar_of_lt_ten hd]
      have hunit : unitDigit? (unitOf d.digitChar) = some d := by
        unfold unitDigit?
        rw [hdigit, if_pos (by omega), Nat.add_sub_cancel_left]
      rw [Nat.toDigits_of_lt_base hd, List.map_cons, indexDigits?, hunit]
      dsimp only
      rw [if_pos hm]
      rfl
    unfold decimalUnits
    by_cases hlt : n < 10
    · have h := hlast n hlt 0 (by omega)
      rwa [Nat.mul_zero, Nat.zero_add] at h
    · have h := hlast (n % 10) (Nat.mod_lt _ (by decide)) (n / 10) (by rw [Nat.div_add_mod]; exact hn)
      rw [Nat.div_add_mod, Nat.toDigits_of_lt_base (Nat.mod_lt _ (by decide))] at h
      have hfront := ih (n / 10) (by omega) (by omega)
      unfold decimalUnits at hfront
      rw [Nat.toDigits_of_base_le (by decide) (by omega), List.map_append, indexDigits?_append, hfront]
      exact h

theorem arrayIndex?_decimalUnits {i : UInt32} (hi : i.toNat < indexBound) :
    arrayIndex? (decimalUnits i.toNat) = some i := by
  have hdigits := indexDigits?_decimalUnits (Nat.le_of_lt hi)
  cases hus : decimalUnits i.toNat with
  | nil => exact absurd (List.map_eq_nil_iff.mp hus) Nat.toDigits_ne_nil
  | cons u us =>
    -- A zero in front is the whole text.
    have hfront : ¬ (u.toNat = 48 ∧ us ≠ []) := by
      rintro ⟨hu, hne⟩
      cases hds : Nat.toDigits 10 i.toNat with
      | nil => exact Nat.toDigits_ne_nil hds
      | cons c cs =>
        unfold decimalUnits at hus
        rw [hds, List.map_cons] at hus
        obtain ⟨rfl, rfl⟩ := List.cons.inj hus
        have hc : c.isDigit = true := (Number.isDigits_toDigits i.toNat).2 c (hds ▸ List.mem_cons_self ..)
        have hzero : c = '0' := Char.toNat_inj.mp ((toNat_unitOf hc).symm.trans hu)
        by_cases hi0 : i.toNat = 0
        · rw [hi0] at hds
          cases hds
          exact hne rfl
        · exact Number.head?_toDigits hi0 (by rw [hds, hzero]; rfl)
    rw [arrayIndex?, if_neg hfront, ← hus, hdigits]
    dsimp only
    rw [if_pos hi]
    exact congrArg some UInt32.ofNat_toNat

/-- **The texts that write an index.** -/
theorem arrayIndex?_iff (us : List UInt16) (i : UInt32) :
    arrayIndex? us = some i ↔ us = decimalUnits i.toNat ∧ i.toNat < indexBound := by
  constructor
  · intro h
    have hi := arrayIndex?_lt h
    exact ⟨arrayIndex?_injective h (arrayIndex?_decimalUnits hi), hi⟩
  · rintro ⟨rfl, hi⟩
    exact arrayIndex?_decimalUnits hi

/-- **The text of a number that is an index writes the index.** -/
theorem toString_of_arrayIndexOfNumber? [Number.Printer] (hprinter : Number.Printer.WritesWholes) {x : Float}
    {i : UInt32} (h : arrayIndexOfNumber? x = some i) : Number.toString x = String.ofList (Nat.toDigits 10 i.toNat) := by
  obtain ⟨n, hn, rfl⟩ := Option.map_eq_some_iff.mp h
  obtain ⟨z, hz, hn⟩ := Option.bind_eq_some_iff.mp hn
  split at hn
  · next hbound =>
    cases hn
    have hlt : z.toNat < indexBound := by omega
    have hword : z.toNat.toUInt32.toNat = z.toNat := Nat.mod_eq_of_lt (Nat.lt_trans hlt (by decide))
    rw [hword]
    exact Number.toString_whole hprinter (by rwa [Int.toNat_of_nonneg hbound.1]) (Nat.lt_trans hlt (by decide))
  · cases hn

theorem arrayIndex?_toString [Number.Printer] (hprinter : Number.Printer.WritesWholes) {x : Float} {i : UInt32}
    (h : arrayIndexOfNumber? x = some i) : arrayIndex? (Text.ofString (Number.toString x)).units.toList = some i := by
  rw [toString_of_arrayIndexOfNumber? hprinter h, units_decimal]
  exact arrayIndex?_decimalUnits (arrayIndexOfNumber?_lt h)

namespace Heap

/-! ### Keys that a heap has given out -/

/-- The heap has given out the key, for a name, for a string or for a value, and the key's string, if it has one, has
not died since. -/
inductive Yields [Number.Printer] : Heap → PropertyKey → Prop
  | name {n h h' key} : h.Built → keyOfName n h = .done key h' → Yields h' key
  | string {h s key} : h.Built → h.keyOfString s = .ok key → Yields h key
  | value {engine v m m' key} : m'.heap.Built → toPropertyKey engine v m = .done key m' → Yields m'.heap key
  | kept {h h' key} : Yields h key → h'.Built → (∀ s t, key = .string s → h.text s = .ok t → h'.text s = .ok t) →
      Yields h' key

variable {h h' h₁ h₂ : Heap} {key k l : PropertyKey} {s r : StringRef} {t : Text}

/-- The key is the one that some string is: an index that has a successor, or a live string that writes no index. -/
def Proper (h : Heap) : PropertyKey → Prop
  | .index i => i.toNat < indexBound
  | .string s => ∃ t, h.text s = .ok t ∧ arrayIndex? t.units.toList = none

/-- The key of a string is read off its text. -/
theorem keyOfString_eq (ht : h.text s = .ok t) :
    h.keyOfString s = .ok ((arrayIndex? t.units.toList).elim (.string s) .index) := by
  unfold keyOfString
  rw [ht]
  dsimp only [bind, Except.bind]
  cases arrayIndex? t.units.toList <;> rfl

theorem proper_of_keyOfString (hkey : h.keyOfString s = .ok key) : h.Proper key := by
  cases ht : h.text s with
  | error e =>
    unfold keyOfString at hkey
    rw [ht] at hkey
    cases hkey
  | ok t =>
    rw [keyOfString_eq ht] at hkey
    cases hindex : arrayIndex? t.units.toList with
    | some i =>
      rw [hindex] at hkey
      cases hkey
      exact arrayIndex?_lt hindex
    | none =>
      rw [hindex] at hkey
      cases hkey
      exact ⟨t, ht, hindex⟩

/-- What ends in reading the key of a string gives a proper key. -/
theorem proper_of_bind {σ : Type} {f : σ → Heap} {p : Proc σ StringRef} {a a' : σ}
    (hdone : (p >>= fun s => Proc.reads fun a => (f a).keyOfString s) a = .done key a') : (f a').Proper key := by
  obtain ⟨s, -, hread⟩ := Proc.done_of_bind_reads hdone
  exact proper_of_keyOfString hread

theorem proper_of_toPropertyKey [Number.Printer] {engine : Engine} {v : Value} {m m' : Machine}
    (hdone : toPropertyKey engine v m = .done key m') : m'.heap.Proper key := by
  cases v with
  | number x =>
    unfold toPropertyKey at hdone
    dsimp only at hdone
    cases hindex : arrayIndexOfNumber? x with
    | some i =>
      rw [hindex] at hdone
      cases hdone
      exact arrayIndexOfNumber?_lt hindex
    | none =>
      rw [hindex] at hdone
      exact proper_of_bind hdone
  | string r => exact proper_of_bind (p := pure r) hdone
  | _ => exact proper_of_bind hdone

/-- Interning keeps the texts that there are, and the heap one that operations lead to. -/
theorem intern_done (hb : h.Built) (hdone : intern t h = .done s h') :
    h'.Built ∧ h'.text s = .ok t ∧ ∀ r u, h.text r = .ok u → h'.text r = .ok u := by
  have hbuilt := keeps_built (p := intern t) (.intern t) (fun _ => rfl) h hb
  rw [hdone] at hbuilt
  refine ⟨hbuilt, ?_⟩
  rcases intern_filled hb.valid t with ⟨r, hfound, hr⟩ | ⟨-, ⟨-, hfailed⟩ | ⟨r, h'', hmade, hf⟩⟩
  · rw [hfound] at hdone
    cases hdone
    exact ⟨hr, fun _ _ hu => hu⟩
  · rw [hfailed] at hdone
    cases hdone
  · rw [hmade] at hdone
    cases hdone
    exact ⟨text_eq_ok.mpr hf.block?_self, fun _ _ hu => text_eq_ok.mpr (hf.block?_of_some (text_eq_ok.mp hu))⟩

/-- The keys that are given out are proper, and stay so. -/
theorem Yields.proper [Number.Printer] (hk : h.Yields key) : h.Built ∧ h.Proper key := by
  induction hk with
  | @name n h h' key hb hdone =>
    obtain ⟨s, hintern, -⟩ := Proc.done_of_bind_reads hdone
    exact ⟨(intern_done hb hintern).1, proper_of_bind (f := id) hdone⟩
  | string hb hkey => exact ⟨hb, proper_of_keyOfString hkey⟩
  | value hb hdone => exact ⟨hb, proper_of_toPropertyKey hdone⟩
  | @kept h h' key _ hb hkept ih =>
    refine ⟨hb, ?_⟩
    cases key with
    | index i => exact ih.2
    | string s =>
      obtain ⟨t, ht, hnone⟩ := ih.2
      exact ⟨t, hkept s t rfl ht, hnone⟩

/-! ### Keys and their string forms -/

/-- A text that is live is interned as it is. -/
theorem intern_live (hb : h.Built) (hs : h.text s = .ok t) : intern t h = .done s h :=
  (interns_intern hb.accounted t).live s hs

theorem arrayIndex?_indexText (i : UInt32) (hi : i.toNat < indexBound) :
    arrayIndex? (Text.ofString (indexText i)).units.toList = some i := by
  unfold indexText
  rw [units_decimal]
  exact arrayIndex?_decimalUnits hi

/-- **The string form of a key leads back to the key.** -/
theorem keyToString_done (hb : h.Built) (hkey : h.Proper key) (hdone : keyToString key h = .done s h') :
    h'.Built ∧ (∀ r u, h.text r = .ok u → h'.text r = .ok u) ∧ ∃ t, h'.text s = .ok t ∧ h'.keyOfString s = .ok key := by
  cases key with
  | index i =>
    obtain ⟨hb', ht, hkept⟩ := intern_done hb hdone
    refine ⟨hb', hkept, _, ht, ?_⟩
    rw [keyOfString_eq ht, arrayIndex?_indexText i hkey]
    rfl
  | string r =>
    obtain ⟨t, ht, hnone⟩ := hkey
    cases hdone
    refine ⟨hb, fun _ _ hu => hu, t, ht, ?_⟩
    rw [keyOfString_eq ht, hnone]
    rfl

/-- The string form of a key is there, unless the heap is full and has to be filled with the digits of an index. -/
theorem keyToString_ends (hb : h.Built) (key : PropertyKey) :
    (∃ s h', keyToString key h = .done s h') ∨
      (∃ i, key = .index i) ∧ h.IsFull ∧ keyToString key h = .failed .outOfMemory h := by
  cases key with
  | string r => exact .inl ⟨r, h, rfl⟩
  | index i =>
    rcases intern_filled hb.valid (Text.ofString (indexText i)) with
      ⟨r, hfound, -⟩ | ⟨-, ⟨hfull, hfailed⟩ | ⟨r, h', hmade, -⟩⟩
    · exact .inl ⟨r, h, hfound⟩
    · exact .inr ⟨⟨i, rfl⟩, hfull, hfailed⟩
    · exact .inl ⟨r, h', hmade⟩

/-- **Keys are equal exactly when their string forms are**, as strings and as texts. -/
theorem keyToString_inj (hb : h.Built) (hk : h.Proper k) (hl : h.Proper l) (hks : keyToString k h = .done s h₁)
    (hlr : keyToString l h₁ = .done r h₂) : (k = l ↔ s = r) ∧ (k = l ↔ h₂.text s = h₂.text r) := by
  obtain ⟨hb₁, hkept₁, t, ht, hkey⟩ := keyToString_done hb hk hks
  have hl₁ : h₁.Proper l := by
    cases l with
    | index i => exact hl
    | string q =>
      obtain ⟨u, hu, hnone⟩ := hl
      exact ⟨u, hkept₁ q u hu, hnone⟩
  obtain ⟨hb₂, hkept₂, u, hu, hkey'⟩ := keyToString_done hb₁ hl₁ hlr
  have ht₂ := hkept₂ s t ht
  have hkey₂ : h₂.keyOfString s = .ok k := by
    rw [keyOfString_eq ht₂, ← keyOfString_eq ht]
    exact hkey
  have hstring : k = l → s = r := by
    rintro rfl
    cases k with
    | string q =>
      cases hks
      cases hlr
      rfl
    | index i =>
      obtain ⟨-, ht', -⟩ := intern_done hb hks
      have hlive := (intern_live hb₁ ht').symm.trans hlr
      cases hlive
      rfl
  have hback : s = r → k = l := by
    rintro rfl
    exact Except.ok.inj (hkey₂.symm.trans hkey')
  have htexts : s = r ↔ h₂.text s = h₂.text r := by
    rw [hb₂.valid.canonical.eq_iff_of_text ht₂ hu, ht₂, hu]
    exact ⟨congrArg _, Except.ok.inj⟩
  exact ⟨⟨hstring, hback⟩, ⟨fun h => htexts.mp (hstring h), fun h => hback (htexts.mpr h)⟩⟩

end Heap

/-! ### Numbers -/

open Heap in
/-- **A number is the key that its text is.** The key is there whenever the text is; and where the text cannot be made,
because the heap is full, either the key needs no text or it cannot be made in the same way. -/
theorem toPropertyKey_number [Number.Printer] (hprinter : Number.Printer.WritesWholes) (engine : Engine) (x : Float)
    {m : Machine} (hb : m.heap.Built) :
    (∃ key m', toPropertyKey engine (.number x) m = .done key m' ∧
      ∀ s h', Heap.internString (Number.toString x) m.heap = .done s h' → h'.keyOfString s = .ok key) ∨
    toPropertyKey engine (.number x) m = .failed .outOfMemory m ∧
      Heap.internString (Number.toString x) m.heap = .failed .outOfMemory m.heap := by
  have hmade : ∀ {s h' t}, Heap.internString (Number.toString x) m.heap = .done s h' → h'.text s = .ok t →
      ∃ key m', (do
        let s ← Run.onHeap (Heap.internString (Number.toString x))
        Run.readHeap fun h => h.keyOfString s) m = .done key m' ∧
        ∀ s h', Heap.internString (Number.toString x) m.heap = .done s h' → h'.keyOfString s = .ok key := by
    intro s h' t hdone ht
    obtain ⟨key, hkey⟩ : ∃ key, h'.keyOfString s = .ok key := ⟨_, Heap.keyOfString_eq ht⟩
    refine ⟨key, { m with heap := h' }, ?_, fun s' h'' hdone' => ?_⟩
    · rw [Proc.bind_done (Run.onHeap_done hdone)]
      show Proc.reads _ _ = _
      unfold Proc.reads
      dsimp only
      rw [hkey]
    · rw [hdone] at hdone'
      cases hdone'
      exact hkey
  unfold toPropertyKey
  dsimp only
  cases hindex : arrayIndexOfNumber? x with
  | some i =>
    refine .inl ⟨.index i, m, rfl, fun s h' hdone => ?_⟩
    obtain ⟨-, ht, -⟩ := Heap.intern_done hb hdone
    rw [Heap.keyOfString_eq ht, arrayIndex?_toString hprinter hindex]
    rfl
  | none =>
    dsimp only
    rcases intern_filled hb.valid (Text.ofString (Number.toString x)) with
      ⟨s, hdone, ht⟩ | ⟨-, ⟨-, hfailed⟩ | ⟨s, h', hdone, hf⟩⟩
    · exact .inl (hmade hdone ht)
    · exact .inr ⟨Proc.bind_failed (Run.onHeap_failed hfailed) _, hfailed⟩
    · exact .inl (hmade hdone (text_eq_ok.mpr hf.block?_self))

/-- **Keys are canonical**, whatever the printer, as long as it writes whole numbers below `2 ^ 32` with their digits. A
text writes the index `i` exactly when it is the decimal text of `i`, without leading
zeros, and `i` is below `2 ^ 32 - 1`. A number is the key that its text is, whatever number it is; only where the heap
is full and the text cannot be made is there no key, unless the number is an index. Of a number that is no index nothing
has to be known about the text, because its key is read off that. For every key that was given out
for a name, a string or a value, the string form leads back to the key, two such keys are equal exactly when their
string forms are, and no such index is `2 ^ 32 - 1`. -/
theorem keys_canonical [Number.Printer] (hprinter : Number.Printer.WritesWholes) (engine : Engine) :
    (∀ us i, arrayIndex? us = some i ↔ us = decimalUnits i.toNat ∧ i.toNat < 2 ^ 32 - 1) ∧
    (∀ (x : Float) (m : Machine), m.heap.Built →
      (∃ key m', toPropertyKey engine (.number x) m = .done key m' ∧
        ∀ s h', Heap.internString (Number.toString x) m.heap = .done s h' → h'.keyOfString s = .ok key) ∨
      toPropertyKey engine (.number x) m = .failed .outOfMemory m ∧
        Heap.internString (Number.toString x) m.heap = .failed .outOfMemory m.heap) ∧
    (∀ (h : Heap) (key : PropertyKey), h.Yields key →
      ((∃ s h', Heap.keyToString key h = .done s h' ∧ h'.keyOfString s = .ok key) ∨
        (∃ i, key = .index i) ∧ h.IsFull ∧ Heap.keyToString key h = .failed .outOfMemory h) ∧
      ∀ i, key = .index i → i.toNat ≠ 2 ^ 32 - 1) ∧
    (∀ (h h₁ h₂ : Heap) (k l : PropertyKey) (s r : StringRef), h.Yields k → h.Yields l →
      Heap.keyToString k h = .done s h₁ → Heap.keyToString l h₁ = .done r h₂ →
      (k = l ↔ s = r) ∧ (k = l ↔ h₂.text s = h₂.text r)) := by
  refine ⟨arrayIndex?_iff, fun x m hb => toPropertyKey_number hprinter engine x hb, fun h key hkey => ⟨?_, ?_⟩,
    fun h h₁ h₂ k l s r hk hl hks hlr => Heap.keyToString_inj hk.proper.1 hk.proper.2 hl.proper.2 hks hlr⟩
  · obtain ⟨hb, hproper⟩ := hkey.proper
    refine (Heap.keyToString_ends hb key).imp_left fun ⟨s, h', hdone⟩ => ⟨s, h', hdone, ?_⟩
    obtain ⟨-, -, -, -, hback⟩ := Heap.keyToString_done hb hproper hdone
    exact hback
  · rintro i rfl
    exact Nat.ne_of_lt hkey.proper.2

/-- The heap of the machine has room for the text of the number 7, or has it. -/
def writesSeven (m : Machine) : Bool :=
  match Heap.internString (Number.toString 7) m.heap with
  | .done _ _ => true
  | _ => false

/-- On a new machine the number 7 and the text `7` are the same key, and its string form leads back to it. -/
theorem keys_canonical_seven : ∃ m s h s' h', Machine.create .standard {} 0 true = .ok m ∧ m.heap.Built ∧
    arrayIndex? [55] = some 7 ∧ toPropertyKey Edit.refusing (.number 7) m = .done (.index 7) m ∧
    Heap.internString (Number.toString 7) m.heap = .done s h ∧ h.keyOfString s = .ok (.index 7) ∧
    m.heap.Yields (.index 7) ∧ Heap.keyToString (.index 7) m.heap = .done s' h' ∧
    h'.keyOfString s' = .ok (.index 7) := by
  have hseven : (Machine.create .standard {} 0 true).toOption.any writesSeven = true := by decide +kernel
  cases hm : Machine.create .standard {} 0 true with
  | error e => rw [hm] at hseven; cases hseven
  | ok m =>
    rw [hm] at hseven
    change writesSeven m = true at hseven
    unfold writesSeven at hseven
    split at hseven
    · next s h hdone =>
      obtain ⟨hindex, hnumber, hkeys, -⟩ := keys_canonical Number.Printer.writesWholes_shortest Edit.refusing
      have hb := Machine.built_create hm
      have hfast : toPropertyKey Edit.refusing (.number 7) m = .done (.index 7) m := by
        unfold toPropertyKey
        dsimp only
        rw [show arrayIndexOfNumber? 7 = some 7 by decide +kernel]
        rfl
      have hyields : m.heap.Yields (.index 7) := .value hb hfast
      have hread : h.keyOfString s = .ok (.index 7) := by
        rcases hnumber 7 m hb with ⟨key, m', hkey, hall⟩ | ⟨hfailed, -⟩
        · rw [hfast] at hkey
          cases hkey
          exact hall s h hdone
        · rw [hfast] at hfailed
          cases hfailed
      rcases (hkeys m.heap (.index 7) hyields).1 with ⟨s', h', hform, hback⟩ | ⟨-, -, hfailed⟩
      · exact ⟨m, s, h, s', h', rfl, hb, (hindex _ _).mpr ⟨by decide, by decide⟩, hfast, hdone, hread, hyields, hform,
          hback⟩
      · have htext : Number.toString 7 = Heap.indexText 7 := by decide +kernel
        rw [Heap.keyToString, ← htext, hdone] at hfailed
        cases hfailed
    · cases hseven

end ScriptCore
