import Mathlib.Data.List.TakeWhile
import ScriptCore.Proofs.Number.Layout
import ScriptCore.Proofs.Number.Signs

/-! # Which texts are numbers

Several readers stand behind one another: exact names, names in any case that are turned away, the marks of a
radix, and a permissive reader of decimals. Together they accept one grammar, `Numeric`, and they accept all of it.

* `Trimmed`, `trimmed_iff`: the text without the blanks at its ends.
* `isSome_decimal?`: the decimals, with a point and an exponent or without.
* `isNaN_readTrimmed`: **what is read is a number exactly on the grammar**, case by case as the readers follow.
* `ofString_accepts`: the same for text with blanks around it. -/

namespace ScriptCore.Number

/-! ### The grammar -/

/-- The code points that may stand around a number: controls of layout, spaces and line separators. -/
def blanks : List Nat :=
  [0x09, 0x0A, 0x0B, 0x0C, 0x0D, 0x20, 0xA0, 0x1680, 0x2000, 0x2001, 0x2002, 0x2003, 0x2004, 0x2005, 0x2006, 0x2007,
    0x2008, 0x2009, 0x200A, 0x2028, 0x2029, 0x202F, 0x205F, 0x3000, 0xFEFF]

/-- `cs` is what is left of `text` without the blanks at both ends. -/
structure Trimmed (text cs : List Char) : Prop where
  around : ∃ before after, text = before ++ (cs ++ after) ∧ ∀ c ∈ before ++ after, c.toNat ∈ blanks
  first : ∀ c, cs.head? = some c → c.toNat ∉ blanks
  last : ∀ c, cs.getLast? = some c → c.toNat ∉ blanks

/-- Digits, at least one of them, with a point before, inside or after them, or without a point. -/
inductive Mantissa : List Char → Prop
  | plain {ds} : IsDigits ds → Mantissa ds
  | point {a b} : (∀ c ∈ a ++ b, c.isDigit = true) → a ++ b ≠ [] → Mantissa (a ++ '.' :: b)

/-- A mark, a sign or none, and digits; or nothing. -/
inductive Exponent : List Char → Prop
  | absent : Exponent []
  | power {mark ds} (sign : SignMark) : mark = 'e' ∨ mark = 'E' → IsDigits ds → Exponent (mark :: (sign.text ++ ds))

/-- The marks that announce a radix, in both cases. -/
def radices : List (Char × Nat) := [('x', 16), ('X', 16), ('b', 2), ('B', 2), ('o', 8), ('O', 8)]

/-- The digits of a radix. -/
def radixDigits : Nat → List Char
  | 2 => "01".toList
  | 8 => "01234567".toList
  | 16 => "0123456789abcdefABCDEF".toList
  | _ => []

/-- **Numeric text**, without blanks around it. -/
inductive Numeric : List Char → Prop
  | empty : Numeric []
  | infinity (sign : SignMark) : Numeric (sign.text ++ "Infinity".toList)
  | radix {mark radix ds} : (mark, radix) ∈ radices → ds ≠ [] → (∀ c ∈ ds, c ∈ radixDigits radix) →
      Numeric ('0' :: mark :: ds)
  | decimal {m e} (sign : SignMark) : Mantissa m → Exponent e → Numeric (sign.text ++ (m ++ e))

variable {cs ds text : List Char} {c : Char}

/-! ### Blanks -/

theorem isBlank_iff (c : Char) : isBlank c = true ↔ c.toNat ∈ blanks := by
  simp only [isBlank, blanks, Bool.or_eq_true, Bool.and_eq_true, decide_eq_true_eq, beq_iff_eq, List.mem_cons,
    List.not_mem_nil, or_false]
  omega

theorem dropWhile_blanks {before : List Char} (hbefore : ∀ c ∈ before, c.toNat ∈ blanks)
    (hfirst : ∀ c, cs.head? = some c → c.toNat ∉ blanks) : (before ++ cs).dropWhile isBlank = cs := by
  rw [List.dropWhile_append_of_pos fun c hc => (isBlank_iff c).mpr (hbefore c hc)]
  cases cs with
  | nil => rfl
  | cons c cs => exact List.dropWhile_cons_of_neg fun hc => hfirst c rfl ((isBlank_iff c).mp hc)

theorem Trimmed.eq_trim (h : Trimmed text cs) : cs = trim text := by
  obtain ⟨before, after, rfl, hblank⟩ := h.around
  have hbefore : ∀ c ∈ before, c.toNat ∈ blanks := fun c hc => hblank c (List.mem_append_left _ hc)
  have hafter : ∀ c ∈ after.reverse, c.toNat ∈ blanks := fun c hc =>
    hblank c (List.mem_append_right _ (List.mem_reverse.mp hc))
  unfold trim
  cases cs with
  | nil =>
    rw [List.nil_append, List.dropWhile_eq_nil_iff.mpr fun c hc => (isBlank_iff c).mpr (hblank c hc)]
    rfl
  | cons c cs =>
    have hlast : ∀ d, (c :: cs).reverse.head? = some d → d.toNat ∉ blanks := fun d hd =>
      h.last d (List.head?_reverse ▸ hd)
    have hfirst : ∀ d, (c :: cs ++ after).head? = some d → d.toNat ∉ blanks := h.first
    rw [dropWhile_blanks hbefore hfirst, List.reverse_append, dropWhile_blanks hafter hlast, List.reverse_reverse]

/-- Blanks that `dropWhile` takes away, and none where it stops. -/
theorem exists_blanks (text : List Char) : ∃ before, text = before ++ text.dropWhile isBlank ∧
    (∀ c ∈ before, c.toNat ∈ blanks) ∧ ∀ c, (text.dropWhile isBlank).head? = some c → c.toNat ∉ blanks := by
  refine ⟨text.takeWhile isBlank, List.takeWhile_append_dropWhile.symm,
    fun c hc => (isBlank_iff c).mp (List.mem_takeWhile_imp hc), fun c hc hblank => ?_⟩
  have hnot := List.head?_dropWhile_not isBlank text
  rw [hc] at hnot
  exact absurd ((isBlank_iff c).mpr hblank) (by simpa using hnot)

theorem trimmed_trim (text : List Char) : Trimmed text (trim text) := by
  obtain ⟨before, hfront, hbefore, hfirst⟩ := exists_blanks text
  obtain ⟨after, hback, hafter, hlast⟩ := exists_blanks (text.dropWhile isBlank).reverse
  have hkept : text.dropWhile isBlank = trim text ++ after.reverse := by
    rw [← List.reverse_reverse (text.dropWhile isBlank), hback, List.reverse_append]
    rfl
  refine ⟨⟨before, after.reverse, hkept ▸ hfront, fun c hc => ?_⟩, fun c hc => hfirst c ?_, fun c hc => hlast c ?_⟩
  · exact (List.mem_append.mp hc).elim (hbefore c) fun hc => hafter c (List.mem_reverse.mp hc)
  · rw [hkept, List.head?_append, hc]
    rfl
  · rw [← hc]
    exact List.getLast?_reverse.symm

/-- **One text is left when the blanks are gone**, the one that the program goes on with. -/
theorem trimmed_iff : Trimmed text cs ↔ cs = trim text :=
  ⟨Trimmed.eq_trim, fun h => h ▸ trimmed_trim text⟩

/-! ### Signs -/

theorem splitSign_append (sign : SignMark) (h : ∀ c, cs.head? = some c → c ≠ '+' ∧ c ≠ '-') :
    splitSign (sign.text ++ cs) = (decide (sign = .minus), cs) := by
  cases sign with
  | plus | minus => rfl
  | absent =>
    show splitSign cs = (false, cs)
    unfold splitSign
    split
    · exact absurd rfl (h _ rfl).2
    · exact absurd rfl (h _ rfl).1
    · rfl

theorem exists_mark (cs : List Char) : ∃ sign : SignMark, cs = sign.text ++ (splitSign cs).2 := by
  unfold splitSign
  split
  · exact ⟨.minus, rfl⟩
  · exact ⟨.plus, rfl⟩
  · exact ⟨.absent, rfl⟩

/-! ### Radix literals -/

theorem digit?_eq (c : Char) : digit? c =
    if 48 ≤ c.toNat ∧ c.toNat ≤ 57 then some (c.toNat - 48)
    else if 97 ≤ c.toNat ∧ c.toNat ≤ 102 then some (c.toNat - 97 + 10)
    else if 65 ≤ c.toNat ∧ c.toNat ≤ 70 then some (c.toNat - 65 + 10)
    else none := by
  simp only [digit?, Char.le_def, UInt32.le_iff_toNat_le, Bool.and_eq_true, decide_eq_true_eq]
  rfl

theorem toNat_injective : Function.Injective Char.toNat := fun _ _ => Char.toNat_inj.mp

theorem mem_radices {mark : Char} {radix : Nat} (h : (mark, radix) ∈ radices) :
    mark ∈ "xXbBoO".toList ∧ (radix = 2 ∨ radix = 8 ∨ radix = 16) := by
  have hall : ∀ form ∈ radices, form.1 ∈ "xXbBoO".toList ∧ (form.2 = 2 ∨ form.2 = 8 ∨ form.2 = 16) := by decide
  exact hall _ h

/-- The digits below a radix are those of the list. -/
theorem digit?_lt_iff {mark : Char} {radix : Nat} (h : (mark, radix) ∈ radices) (c : Char) :
    (∃ d, digit? c = some d ∧ d < radix) ↔ c ∈ radixDigits radix := by
  have hradix := (mem_radices h).2
  rw [← List.mem_map_of_injective toNat_injective, digit?_eq]
  rcases hradix with rfl | rfl | rfl
  · rw [show (radixDigits 2).map Char.toNat = [48, 49] by decide]
    simp only [List.mem_cons, List.not_mem_nil]
    split_ifs <;> simp <;> omega
  · rw [show (radixDigits 8).map Char.toNat = [48, 49, 50, 51, 52, 53, 54, 55] by decide]
    simp only [List.mem_cons, List.not_mem_nil]
    split_ifs <;> simp <;> omega
  · rw [show (radixDigits 16).map Char.toNat = [48, 49, 50, 51, 52, 53, 54, 55, 56, 57, 97, 98, 99, 100, 101, 102,
      65, 66, 67, 68, 69, 70] by decide]
    simp only [List.mem_cons, List.not_mem_nil]
    split_ifs <;> simp <;> omega

theorem isSome_accumulate? (radix : Nat) : ∀ (cs : List Char) (value : Float),
    (accumulate? radix cs value).isSome ↔ ∀ c ∈ cs, ∃ d, digit? c = some d ∧ d < radix
  | [], value => by simp [accumulate?]
  | c :: cs, value => by
    rw [List.forall_mem_cons, accumulate?]
    cases hd : digit? c with
    | none => simp
    | some d =>
      dsimp only
      by_cases hlt : d < radix
      · rw [if_pos hlt, isSome_accumulate? radix cs]
        exact ⟨fun h => ⟨⟨d, rfl, hlt⟩, h⟩, And.right⟩
      · rw [if_neg hlt]
        simp [hlt]

/-- An integer in a radix is read as a number exactly when it has digits, all of them of the radix. -/
theorem isNaN_radixValue {mark : Char} {radix : Nat} (h : (mark, radix) ∈ radices) (ds : List Char) :
    ((radixValue? radix ds).getD nan).isNaN = false ↔ ds ≠ [] ∧ ∀ c ∈ ds, c ∈ radixDigits radix := by
  have hradix : 0 < radix ∧ radix < 2 ^ 53 := by
    have := (mem_radices h).2
    omega
  have hsome : (radixValue? radix ds).isSome ↔ ds ≠ [] ∧ ∀ c ∈ ds, c ∈ radixDigits radix := by
    unfold radixValue?
    by_cases hempty : ds = []
    · simp [hempty]
    · rw [if_neg (by rwa [List.isEmpty_iff]), isSome_accumulate?]
      simp only [digit?_lt_iff h, hempty, ne_eq, not_false_eq_true, true_and]
  rw [← hsome]
  cases hvalue : radixValue? radix ds with
  | none =>
    rw [Option.getD_none, show nan.isNaN = true by decide]
    simp
  | some x =>
    have hx : Positive x := by
      unfold radixValue? at hvalue
      split at hvalue
      · cases hvalue
      · exact positive_accumulate hradix.1 hradix.2 positive_zero hvalue
    rw [Option.getD_some, hx.isNaN]
    simp

theorem radixLiteral?_some {radix : Nat} (h : radixLiteral? cs = some (radix, ds)) :
    ∃ mark, (mark, radix) ∈ radices ∧ cs = '0' :: mark :: ds := by
  unfold radixLiteral? at h
  split at h
  all_goals cases h
  all_goals exact ⟨_, by decide, rfl⟩

theorem radixLiteral?_mark {mark : Char} {radix : Nat} (h : (mark, radix) ∈ radices) (ds : List Char) :
    radixLiteral? ('0' :: mark :: ds) = some (radix, ds) := by
  simp only [radices, List.mem_cons, Prod.mk.injEq, List.not_mem_nil, or_false] at h
  rcases h with ⟨rfl, rfl⟩ | ⟨rfl, rfl⟩ | ⟨rfl, rfl⟩ | ⟨rfl, rfl⟩ | ⟨rfl, rfl⟩ | ⟨rfl, rfl⟩ <;> rfl

/-! ### Decimals -/

theorem takeWhile_digits {rest : List Char} (hds : ∀ c ∈ ds, c.isDigit = true)
    (hrest : ∀ c, rest.head? = some c → c.isDigit = false) :
    (ds ++ rest).takeWhile Char.isDigit = ds ∧ (ds ++ rest).dropWhile Char.isDigit = rest := by
  rw [List.takeWhile_append_of_pos hds, List.dropWhile_append_of_pos hds]
  cases rest with
  | nil => exact ⟨List.append_nil ds, rfl⟩
  | cons c rest =>
    have hc : ¬ c.isDigit = true := by rw [hrest c rfl]; decide
    rw [List.takeWhile_cons_of_neg hc, List.dropWhile_cons_of_neg hc]
    exact ⟨List.append_nil ds, rfl⟩

theorem isSome_exponent? : (exponent? cs).isSome ↔ Exponent cs := by
  constructor
  · intro h
    cases cs with
    | nil => exact .absent
    | cons c cs =>
      rw [exponent?] at h
      split at h
      · next hmark =>
        obtain ⟨sign, hsign⟩ := exists_mark cs
        split at h
        next negative ds hsplit =>
        rw [hsplit] at hsign
        split at h
        · cases h
        · next hdigits =>
          have hds : ds ≠ [] ∧ ∀ c ∈ ds, c.isDigit = true := by simpa using hdigits
          rw [hsign]
          exact .power sign (by simpa using hmark) hds
      · cases h
  · rintro (_ | ⟨sign, hmark, hds⟩)
    · rfl
    · have hall := List.all_eq_true.mpr hds.2
      have hempty := List.isEmpty_eq_false_iff.mpr hds.1
      rw [exponent?, if_pos (by simpa using hmark), splitSign_mark sign hds]
      simp [hall, hempty]

theorem Exponent.head {e : List Char} (h : Exponent e) : ∀ c, e.head? = some c → c = 'e' ∨ c = 'E' := by
  cases h with
  | absent => rintro c ⟨⟩
  | power sign hmark _ =>
    rintro c ⟨⟩
    exact hmark

/-- **The decimals that are read.** -/
theorem isSome_decimal? : (decimal? cs).isSome ↔ ∃ m e, cs = m ++ e ∧ Mantissa m ∧ Exponent e := by
  constructor
  · intro h
    have hcs : cs = cs.takeWhile Char.isDigit ++ cs.dropWhile Char.isDigit :=
      List.takeWhile_append_dropWhile.symm
    have hint : ∀ c ∈ cs.takeWhile Char.isDigit, c.isDigit = true := fun c => List.mem_takeWhile_imp
    unfold decimal? at h
    dsimp only at h
    split at h
    · next r hrest =>
      dsimp only at h
      split at h
      · cases h
      next hsome =>
      rw [Option.isSome_map, isSome_exponent?] at h
      have hr : r = r.takeWhile Char.isDigit ++ r.dropWhile Char.isDigit := List.takeWhile_append_dropWhile.symm
      refine ⟨cs.takeWhile Char.isDigit ++ '.' :: r.takeWhile Char.isDigit, r.dropWhile Char.isDigit, ?_,
        .point (fun c hc => ?_) (fun hnil => hsome ?_), h⟩
      · rw [List.append_assoc, List.cons_append, ← hr, ← hrest]
        exact hcs
      · exact (List.mem_append.mp hc).elim (hint c) List.mem_takeWhile_imp
      · obtain ⟨hleft, hright⟩ := List.append_eq_nil_iff.mp hnil
        rw [hleft, hright]
        rfl
    · dsimp only at h
      split at h
      · cases h
      next hsome =>
      rw [Option.isSome_map, isSome_exponent?] at h
      exact ⟨_, _, hcs, .plain ⟨fun hnil => hsome (by rw [hnil]; rfl), hint⟩, h⟩
  · rintro ⟨m, e, rfl, hm, he⟩
    have hdigit : ∀ c, e.head? = some c → c.isDigit = false := fun c hc => by
      rcases he.head c hc with rfl | rfl <;> rfl
    cases hm with
    | plain hds =>
      obtain ⟨htake, hdrop⟩ := takeWhile_digits hds.2 hdigit
      unfold decimal?
      dsimp only
      rw [htake, hdrop]
      split
      · rcases he.head _ rfl with hmark | hmark <;> exact absurd hmark (by decide)
      · dsimp only
        rw [if_neg (by simpa using hds.1), Option.isSome_map, isSome_exponent?]
        exact he
    | @point a b hds hne =>
      obtain ⟨htake, hdrop⟩ : (a ++ '.' :: (b ++ e)).takeWhile Char.isDigit = a ∧
          (a ++ '.' :: (b ++ e)).dropWhile Char.isDigit = '.' :: (b ++ e) :=
        takeWhile_digits (fun c hc => hds c (List.mem_append_left _ hc)) fun c hc => by cases hc; rfl
      obtain ⟨htake', hdrop'⟩ := takeWhile_digits (fun c hc => hds c (List.mem_append_right _ hc)) hdigit
      rw [List.append_assoc, List.cons_append]
      unfold decimal?
      dsimp only
      rw [htake, hdrop]
      split
      · next r heq =>
        obtain rfl : b ++ e = r := (List.cons.inj heq).2
        dsimp only
        rw [htake', hdrop', if_neg (by simpa [List.append_eq_nil_iff] using hne), Option.isSome_map, isSome_exponent?]
        exact he
      · next hpoint => exact absurd rfl (hpoint (b ++ e))

/-! ### Numeric text -/

theorem Mantissa.head {m e : List Char} (h : Mantissa m) :
    ∃ c cs, m ++ e = c :: cs ∧ (c.isDigit = true ∨ c = '.') := by
  cases h with
  | plain hds =>
    cases m with
    | nil => exact absurd rfl hds.1
    | cons c cs => exact ⟨c, _, rfl, .inl (hds.2 c (List.mem_cons_self ..))⟩
  | @point a b hds _ =>
    cases a with
    | nil => exact ⟨'.', _, rfl, .inr rfl⟩
    | cons c a => exact ⟨c, _, rfl, .inl (hds c (List.mem_cons_self ..))⟩

theorem splitSign_decimal {m e : List Char} (sign : SignMark) (h : Mantissa m) :
    splitSign (sign.text ++ (m ++ e)) = (decide (sign = .minus), m ++ e) := by
  refine splitSign_append sign fun c hc => ?_
  obtain ⟨d, cs, heq, hd⟩ := h.head (e := e)
  rw [heq] at hc
  obtain rfl : d = c := Option.some.inj hc
  rcases hd with hd | rfl
  · exact ⟨ne_of_isDigit hd (by decide), ne_of_isDigit hd (by decide)⟩
  · decide

/-- The characters of a decimal: digits, the point, marks and signs. -/
theorem mem_decimal {m e : List Char} (sign : SignMark) (hm : Mantissa m) (he : Exponent e)
    (hc : c ∈ sign.text ++ (m ++ e)) : c.isDigit = true ∨ c ∈ ".eE+-".toList := by
  have hsign : ∀ sign : SignMark, c ∈ sign.text → c ∈ ".eE+-".toList := by
    rintro (_ | _ | _) hc
    · cases hc
    all_goals
      rw [List.mem_singleton.mp hc]
      decide
  rcases List.mem_append.mp hc with hc | hc
  · exact .inr (hsign sign hc)
  rcases List.mem_append.mp hc with hc | hc
  · cases hm with
    | plain hds => exact .inl (hds.2 c hc)
    | point hds _ =>
      rcases List.mem_append.mp hc with hc | hc
      · exact .inl (hds c (List.mem_append_left _ hc))
      rcases List.mem_cons.mp hc with rfl | hc
      · exact .inr (by decide)
      · exact .inl (hds c (List.mem_append_right _ hc))
  · cases he with
    | absent => cases hc
    | power sign hmark hds =>
      rcases List.mem_cons.mp hc with rfl | hc
      · rcases hmark with rfl | rfl <;> exact .inr (by decide)
      rcases List.mem_append.mp hc with hc | hc
      · exact .inr (hsign sign hc)
      · exact .inl (hds.2 c hc)

/-- The rest of the text after a sign is one of the names that are turned away. -/
abbrev Named (cs : List Char) : Prop :=
  (isNamed "inf" (splitSign cs).2 || isNamed "infinity" (splitSign cs).2 || isNamed "nan" (splitSign cs).2) = true

/-- No name begins with a digit or a point. -/
theorem not_isNamed {name : String} (hname : name.toList.head? = some 'i' ∨ name.toList.head? = some 'n')
    (hc : c.isDigit = true ∨ c = '.') : isNamed name (c :: cs) = false := by
  refine Bool.eq_false_iff.mpr fun h => ?_
  have hlower : c.toLower = c := by
    rcases hc with hc | rfl
    · have hle := (toNat_of_isDigit hc).2
      unfold Char.toLower
      rw [dif_neg]
      rintro ⟨hupper, -⟩
      exact absurd (UInt32.le_iff_toNat_le.mp hupper) (by show ¬ 65 ≤ c.toNat; omega)
    · rfl
  have hhead : name.toList.head? = some c := by
    rw [← eq_of_beq h, List.map_cons, hlower]
    rfl
  rw [hhead] at hname
  rcases hc with hc | rfl
  · rcases hname with hname | hname <;> cases hname <;> exact absurd hc (by decide)
  · rcases hname with hname | hname <;> exact absurd hname (by decide)

theorem not_named_cons (hc : c.isDigit = true ∨ c = '.') (hrest : (splitSign ds).2 = c :: cs) : ¬ Named ds := by
  unfold Named
  rw [hrest, not_isNamed (by decide) hc, not_isNamed (by decide) hc, not_isNamed (by decide) hc]
  decide

/-- Numeric text that is turned away as a name is `Infinity`, which was read before. -/
theorem Numeric.named (h : Numeric cs) (hnamed : Named cs) :
    ∃ sign : SignMark, cs = sign.text ++ "Infinity".toList := by
  cases h with
  | empty => exact absurd hnamed (by unfold Named; decide)
  | infinity sign => exact ⟨sign, rfl⟩
  | radix _ _ _ => exact absurd hnamed (not_named_cons (.inl (by decide)) rfl)
  | @decimal m e sign hm he =>
    obtain ⟨c, cs, heq, hc⟩ := hm.head (e := e)
    exact absurd hnamed (not_named_cons hc (by rw [splitSign_decimal sign hm, heq]))

theorem isNaN_signed {negative : Bool} {x : Float} (h : Positive x) : (signed negative x).isNaN = false := by
  cases negative with
  | false => exact h.isNaN
  | true => exact h.isNaN_neg

/-- Without the names, only decimals are read. -/
theorem isNaN_read (hnamed : ¬ Named cs) :
    ((read? cs).getD nan).isNaN = false ↔ (decimal? (splitSign cs).2).isSome := by
  simp only [Named, Bool.or_eq_true, not_or, Bool.not_eq_true] at hnamed
  obtain ⟨⟨hinf, hinfinity⟩, hnan⟩ := hnamed
  unfold read?
  dsimp only
  rw [hinf, hinfinity, hnan, if_neg (by decide), if_neg (by decide)]
  cases decimal? (splitSign cs).2 with
  | none =>
    rw [Option.map_none, Option.getD_none, show nan.isNaN = true by decide]
    simp
  | some d =>
    rw [Option.map_some, Option.getD_some, isNaN_signed (positive_ofDigits ..)]
    simp

/-- **What is read is a number exactly on numeric text.** -/
theorem isNaN_readTrimmed (cs : List Char) : (readTrimmed cs).isNaN = false ↔ Numeric cs := by
  unfold readTrimmed
  by_cases hempty : cs = []
  · subst hempty
    exact ⟨fun _ => .empty, fun _ => positive_zero.isNaN⟩
  rw [if_neg (by rwa [List.isEmpty_iff])]
  by_cases hinfinity : ∃ sign : SignMark, cs = sign.text ++ "Infinity".toList
  · obtain ⟨sign, rfl⟩ := hinfinity
    refine ⟨fun _ => .infinity sign, fun _ => ?_⟩
    cases sign with
    | absent | plus => exact positive_infinity.isNaN
    | minus => exact positive_infinity.isNaN_neg
  have hunsigned : ¬ (cs = "Infinity".toList ∨ cs = "+Infinity".toList) := fun h =>
    hinfinity (h.elim (fun h => ⟨.absent, h⟩) fun h => ⟨.plus, h⟩)
  have hminus : cs ≠ "-Infinity".toList := fun h => hinfinity ⟨.minus, h⟩
  rw [if_neg hunsigned, if_neg hminus]
  dsimp only
  by_cases hnamed : Named cs
  · rw [if_pos hnamed, show nan.isNaN = true by decide]
    exact ⟨fun h => (nomatch h), fun h => absurd (h.named hnamed) hinfinity⟩
  rw [if_neg hnamed]
  cases hradix : radixLiteral? cs with
  | some literal =>
    obtain ⟨radix, ds⟩ := literal
    obtain ⟨mark, hmark, rfl⟩ := radixLiteral?_some hradix
    dsimp only
    rw [isNaN_radixValue hmark]
    refine ⟨fun h => .radix hmark h.1 h.2, fun h => ?_⟩
    generalize hcs : '0' :: mark :: ds = cs at h
    cases h with
    | empty => cases hcs
    | infinity sign => exact absurd ⟨sign, hcs⟩ hinfinity
    | radix hmark' hne hds =>
      obtain ⟨rfl, rfl⟩ := List.cons.inj (List.cons.inj hcs).2
      rw [radixLiteral?_mark hmark'] at hradix
      cases hradix
      exact ⟨hne, hds⟩
    | decimal sign hm he =>
      -- The mark of a radix stands in no decimal.
      have hall : ∀ c ∈ "xXbBoO".toList, ¬ (c.isDigit = true ∨ c ∈ ".eE+-".toList) := by simp
      have hmem : mark ∈ '0' :: mark :: ds := by simp
      exact absurd (mem_decimal sign hm he (hcs ▸ hmem)) (hall mark (mem_radices hmark).1)
  | none =>
    dsimp only
    rw [isNaN_read hnamed, isSome_decimal?]
    constructor
    · rintro ⟨m, e, hrest, hm, he⟩
      obtain ⟨sign, hsign⟩ := exists_mark cs
      rw [hsign, hrest]
      exact .decimal sign hm he
    · intro h
      cases h with
      | empty => exact absurd rfl hempty
      | infinity sign => exact absurd ⟨sign, rfl⟩ hinfinity
      | radix hmark _ _ =>
        rw [radixLiteral?_mark hmark] at hradix
        cases hradix
      | decimal sign hm he =>
        rw [splitSign_decimal sign hm]
        exact ⟨_, _, rfl, hm, he⟩

/-- **Numeric text is exactly what is read as a number.** The text, without the blanks at both ends, is empty; or
`Infinity` with an optional sign; or an integer after the mark of a radix, with at least one digit and all digits
of that radix; or a decimal with an optional sign, at least one digit, an optional point and an optional exponent.
Every other text is read as not-a-number. -/
theorem ofString_accepts (s : String) :
    (ofString s).isNaN = false ↔ ∃ cs, Trimmed s.toList cs ∧ Numeric cs := by
  unfold ofString
  rw [isNaN_readTrimmed]
  exact ⟨fun h => ⟨_, trimmed_trim _, h⟩, fun ⟨_, htrim, h⟩ => htrim.eq_trim ▸ h⟩

end ScriptCore.Number
