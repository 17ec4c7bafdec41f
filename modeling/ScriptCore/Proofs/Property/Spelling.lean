import Mathlib.Data.Nat.Digits.Lemmas
import ScriptCore.Proofs.Heap.Interning

/-! # Names and the keys they spell

A name is a string, and the key that it becomes is an index if the name writes one, the interned string with
its text otherwise. Neither step loses anything: a string is read back from its text as it was, and an index is
written in one way only. So on a valid heap names and their keys determine each other.

* `Text.lossy_ofString`: **a string is read back as it was written.**
* `arrayIndex?_injective`: an index is written in one way.
* `Heap.Spells`: the key that a name is; `Spells.key_eq` and `Spells.name_eq` are its two directions. -/

namespace ScriptCore

/-! ### Strings and their texts -/

namespace Text

theorem toNat_toUInt16 {n : Nat} (h : n < 0x10000) : n.toUInt16.toNat = n := by
  rw [UInt16.toNat_ofNat']
  exact Nat.mod_eq_of_lt h

theorem isHigh_toUInt16 {n : Nat} (h : n < 0x10000) :
    isHigh n.toUInt16 = decide (0xD800 ≤ n ∧ n < 0xDC00) := by
  simp only [isHigh, UInt16.le_iff_toNat_le, UInt16.lt_iff_toNat_lt, toNat_toUInt16 h, Bool.decide_and]
  rfl

theorem isLow_toUInt16 {n : Nat} (h : n < 0x10000) :
    isLow n.toUInt16 = decide (0xDC00 ≤ n ∧ n < 0xE000) := by
  simp only [isLow, UInt16.le_iff_toNat_le, UInt16.lt_iff_toNat_lt, toNat_toUInt16 h, Bool.decide_and]
  rfl

theorem Reading.cons_plain {n : Nat} (h : n < 0x10000) (hhigh : ¬ (0xD800 ≤ n ∧ n < 0xDC00))
    (hlow : ¬ (0xDC00 ≤ n ∧ n < 0xE000)) (r : Reading) :
    Reading.cons n.toUInt16 r = ⟨none, Char.ofNat n :: r.settle⟩ := by
  unfold Reading.cons
  rw [isHigh_toUInt16 h, isLow_toUInt16 h, decide_eq_false hhigh, decide_eq_false hlow, toNat_toUInt16 h]
  rfl

theorem Reading.cons_low {n : Nat} (hlow : 0xDC00 ≤ n ∧ n < 0xE000) (r : Reading) :
    Reading.cons n.toUInt16 r = ⟨some n.toUInt16, r.settle⟩ := by
  have h : n < 0x10000 := by omega
  have hhigh : ¬ (0xD800 ≤ n ∧ n < 0xDC00) := by omega
  unfold Reading.cons
  rw [isHigh_toUInt16 h, isLow_toUInt16 h, decide_eq_false hhigh, decide_eq_true hlow]
  rfl

theorem Reading.cons_high {n : Nat} (hhigh : 0xD800 ≤ n ∧ n < 0xDC00) (low : UInt16) (cs : List Char) :
    Reading.cons n.toUInt16 ⟨some low, cs⟩ = ⟨none, charOfPair n.toUInt16 low :: cs⟩ := by
  have h : n < 0x10000 := by omega
  unfold Reading.cons
  rw [isHigh_toUInt16 h, decide_eq_true hhigh]
  rfl

/-- The units of a character read as that character, whatever follows them. -/
theorem Reading.foldr_unitsOfChar (c : Char) (cs : List Char) :
    (unitsOfChar c).foldr Reading.cons ⟨none, cs⟩ = ⟨none, c :: cs⟩ := by
  have hvalid : c.toNat < 0xD800 ∨ 0xDFFF < c.toNat ∧ c.toNat < 0x110000 := c.valid
  unfold unitsOfChar
  dsimp only
  by_cases hplane : c.toNat < 0x10000
  · rw [if_pos hplane, List.foldr_cons, List.foldr_nil,
      Reading.cons_plain hplane (by omega) (by omega), Char.ofNat_toNat]
    rfl
  · have hhigh : 0xD800 ≤ 0xD800 + (c.toNat - 0x10000) / 0x400 ∧
        0xD800 + (c.toNat - 0x10000) / 0x400 < 0xDC00 := by omega
    have hlow : 0xDC00 ≤ 0xDC00 + (c.toNat - 0x10000) % 0x400 ∧
        0xDC00 + (c.toNat - 0x10000) % 0x400 < 0xE000 := by omega
    have hpair : charOfPair (0xD800 + (c.toNat - 0x10000) / 0x400).toUInt16
        (0xDC00 + (c.toNat - 0x10000) % 0x400).toUInt16 = c := by
      unfold charOfPair
      rw [toNat_toUInt16 (by omega), toNat_toUInt16 (by omega), show 0x10000 +
        (0xD800 + (c.toNat - 0x10000) / 0x400 - 0xD800) * 0x400 +
        (0xDC00 + (c.toNat - 0x10000) % 0x400 - 0xDC00) = c.toNat by omega, Char.ofNat_toNat]
    rw [if_neg hplane, List.foldr_cons, List.foldr_cons, List.foldr_nil, Reading.cons_low hlow,
      Reading.cons_high hhigh, hpair]
    rfl

/-- **A string is read back as it was written.** -/
theorem lossy_ofString (s : String) : (ofString s).lossy = s := by
  have hread : ∀ cs : List Char, (cs.flatMap unitsOfChar).foldr Reading.cons ⟨none, []⟩ = ⟨none, cs⟩ := by
    intro cs
    induction cs with
    | nil => rfl
    | cons c cs ih => rw [List.flatMap_cons, List.foldr_append, ih, Reading.foldr_unitsOfChar]
  show String.ofList (lossyChars _) = s
  unfold lossyChars
  rw [show (ofString s).units.toList = s.toList.flatMap unitsOfChar from rfl, hread]
  exact String.ofList_toList

theorem ofString_injective {s t : String} (h : ofString s = ofString t) : s = t := by
  rw [← lossy_ofString s, h, lossy_ofString]

end Text

/-! ### Indices -/

/-- The value of a decimal digit. -/
def digitOf (u : UInt16) : Nat := u.toNat - 48

theorem indexDigits?_eq_some : ∀ {us : List UInt16} {v n : Nat}, indexDigits? us v = some n →
    (∀ u ∈ us, 48 ≤ u.toNat ∧ u.toNat ≤ 57) ∧ (us.map digitOf).foldl (fun v d => 10 * v + d) v = n
  | [], v, n, h => ⟨fun _ hu => absurd hu List.not_mem_nil, Option.some.inj h⟩
  | u :: us, v, n, h => by
    unfold indexDigits? unitDigit? at h
    by_cases hu : 48 ≤ u.toNat ∧ u.toNat ≤ 57
    · simp only [if_pos hu] at h
      split at h
      · obtain ⟨hus, hfold⟩ := indexDigits?_eq_some h
        refine ⟨fun x hx => ?_, hfold⟩
        rcases List.mem_cons.mp hx with rfl | hx
        · exact hu
        · exact hus x hx
      · cases h
    · simp only [if_neg hu] at h
      cases h

theorem ofDigits_reverse (ds : List Nat) :
    Nat.ofDigits 10 ds.reverse = ds.foldl (fun v d => 10 * v + d) 0 := by
  rw [Nat.ofDigits_eq_foldr, List.foldr_reverse]
  congr 1
  funext v d
  push_cast
  omega

/-- The digits of a text that writes an index are those of the index. -/
theorem map_digitOf_of_arrayIndex? {us : List UInt16} {i : UInt32} (h : arrayIndex? us = some i) :
    (∀ u ∈ us, 48 ≤ u.toNat ∧ u.toNat ≤ 57) ∧
      us.map digitOf = if i.toNat = 0 then [0] else (Nat.digits 10 i.toNat).reverse := by
  unfold arrayIndex? at h
  cases us with
  | nil => cases h
  | cons u us =>
    dsimp only at h
    by_cases hzero : u.toNat = 48 ∧ us ≠ []
    · rw [if_pos hzero] at h
      cases h
    rw [if_neg hzero] at h
    cases hn : indexDigits? (u :: us) 0 with
    | none => rw [hn] at h; cases h
    | some n =>
      rw [hn] at h
      dsimp only at h
      split at h
      · next hlt =>
        obtain ⟨hdigit, hfold⟩ := indexDigits?_eq_some hn
        refine ⟨hdigit, ?_⟩
        have hi : i.toNat = n := by
          rw [← Option.some.inj h]
          exact Nat.mod_eq_of_lt (Nat.lt_trans hlt (by decide))
        rw [← ofDigits_reverse] at hfold
        by_cases hu : u.toNat = 48
        · -- A zero in front stands alone.
          obtain rfl : us = [] := by
            by_contra hus
            exact hzero ⟨hu, hus⟩
          have hn0 : n = 0 := by
            rw [← hfold]
            simp [digitOf, hu]
          simp [hi, hn0, digitOf, hu]
        · have hpos : digitOf u ≠ 0 := by
            have := hdigit u (List.mem_cons_self ..)
            unfold digitOf
            omega
          have hdigits : Nat.digits 10 n = ((u :: us).map digitOf).reverse := by
            rw [← hfold]
            refine Nat.digits_ofDigits 10 (by omega) _ (fun d hd => ?_) fun _ => ?_
            · obtain ⟨x, hx, rfl⟩ := List.mem_map.mp (List.mem_reverse.mp hd)
              have := hdigit x hx
              unfold digitOf
              omega
            · rw [List.getLast_reverse]
              exact hpos
          have hn0 : n ≠ 0 := by
            rintro rfl
            simp at hdigits
          rw [hi, if_neg hn0, hdigits, List.reverse_reverse]
      · cases h

/-- **An index is written in one way.** -/
theorem arrayIndex?_injective {us vs : List UInt16} {i : UInt32} (hu : arrayIndex? us = some i)
    (hv : arrayIndex? vs = some i) : us = vs := by
  have hback : ∀ {ws : List UInt16}, (∀ u ∈ ws, 48 ≤ u.toNat ∧ u.toNat ≤ 57) →
      (ws.map digitOf).map (fun d => (d + 48).toUInt16) = ws := by
    intro ws hws
    rw [List.map_map]
    refine (List.map_congr_left fun u hu => ?_).trans (List.map_id ws)
    have hdigit := hws u hu
    refine UInt16.toNat_inj.mp ?_
    rw [Function.comp_apply, Text.toNat_toUInt16 (by unfold digitOf; omega)]
    show u.toNat - 48 + 48 = u.toNat
    omega
  obtain ⟨hdu, hmu⟩ := map_digitOf_of_arrayIndex? hu
  obtain ⟨hdv, hmv⟩ := map_digitOf_of_arrayIndex? hv
  rw [← hback hdu, ← hback hdv, hmu, hmv]

/-! ### Keys -/

namespace Heap

variable {h h' : Heap} {key key' : PropertyKey} {name name' : String}

/-- **The key that a name is**: the index that it writes, or the string with its text. -/
def Spells (h : Heap) (key : PropertyKey) (name : String) : Prop :=
  match arrayIndex? (Text.ofString name).units.toList with
  | some i => key = .index i
  | none => ∃ s, key = .string s ∧ h.text s = .ok (Text.ofString name)

/-- A name is one key. -/
theorem Spells.key_eq (hc : h.Canonical) (hs : h.Spells key name) (hs' : h.Spells key' name) : key = key' := by
  unfold Spells at hs hs'
  cases hindex : arrayIndex? (Text.ofString name).units.toList with
  | some i =>
    rw [hindex] at hs hs'
    exact hs.trans hs'.symm
  | none =>
    rw [hindex] at hs hs'
    obtain ⟨s, rfl, hs⟩ := hs
    obtain ⟨s', rfl, hs'⟩ := hs'
    rw [(hc.eq_iff_of_text hs hs').mpr rfl]

/-- A key is one name. -/
theorem Spells.name_eq (hs : h.Spells key name) (hs' : h.Spells key name') : name = name' := by
  unfold Spells at hs hs'
  cases hindex : arrayIndex? (Text.ofString name).units.toList with
  | some i =>
    rw [hindex] at hs
    subst hs
    cases hindex' : arrayIndex? (Text.ofString name').units.toList with
    | some j =>
      rw [hindex'] at hs'
      cases hs'
      exact Text.ofString_injective (congrArg Text.mk
        (Array.toList_inj.mp (arrayIndex?_injective hindex hindex')))
    | none =>
      rw [hindex'] at hs'
      obtain ⟨s, hkey, -⟩ := hs'
      cases hkey
  | none =>
    rw [hindex] at hs
    obtain ⟨s, rfl, hs⟩ := hs
    cases hindex' : arrayIndex? (Text.ofString name').units.toList with
    | some j =>
      rw [hindex'] at hs'
      cases hs'
    | none =>
      rw [hindex'] at hs'
      obtain ⟨s', hkey, hs'⟩ := hs'
      cases hkey
      exact Text.ofString_injective (Except.ok.inj (hs.symm.trans hs'))

/-- What a key spells is a matter of its text. -/
theorem Spells.of_texts (hs : h.Spells key name)
    (hkeep : ∀ s t, key = .string s → h.text s = .ok t → h'.text s = .ok t) : h'.Spells key name := by
  unfold Spells at hs ⊢
  cases hindex : arrayIndex? (Text.ofString name).units.toList with
  | some i => rwa [hindex] at hs
  | none =>
    rw [hindex] at hs
    obtain ⟨s, hkey, hs⟩ := hs
    exact ⟨s, hkey, hkeep s _ hkey hs⟩

theorem spells_of_keyOfString {s : StringRef} (hs : h.text s = .ok (Text.ofString name))
    (hkey : h.keyOfString s = .ok key) : h.Spells key name := by
  unfold keyOfString at hkey
  rw [hs] at hkey
  dsimp only [bind, Except.bind] at hkey
  unfold Spells
  cases hindex : arrayIndex? (Text.ofString name).units.toList with
  | some i =>
    rw [hindex] at hkey
    exact (Except.ok.inj hkey).symm
  | none =>
    rw [hindex] at hkey
    exact ⟨s, (Except.ok.inj hkey).symm, hs⟩

end Heap

end ScriptCore
