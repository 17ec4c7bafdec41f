import Mathlib.Data.List.DropRight
import ScriptCore.Proofs.Number.Numeral

/-! # The layout of a number is exact

The layout drops the zeros around the digits of a text while the point keeps its place, and puts the point, zeros
or an exponent where they are wanted. Nothing of this changes the number that is written.

* `Normal`: digits without zeros at either end, and the place of the point among them.
* `normalize?_text`: a numeral is brought into that form.
* `Normal.place`: **what is laid out from it is a tidy numeral for the same number.**
* `layout_exact`: both together, with the notation that is chosen. -/

namespace ScriptCore.Number

variable {ds cs : List Char} {c : Char} {point : Int} {x : ℚ} {w : Numeral}

/-! ### Taking a numeral apart -/

theorem splitOnce?_append (c : Char) (b : List Char) :
    ∀ {a : List Char}, c ∉ a → splitOnce? c (a ++ c :: b) = some (a, b)
  | [], _ => if_pos rfl
  | d :: a, h => by
    have hne : d ≠ c := fun hd => h (hd ▸ List.mem_cons_self ..)
    rw [List.cons_append, splitOnce?, if_neg hne,
      splitOnce?_append c b fun ha => h (List.mem_cons_of_mem _ ha)]
    rfl

theorem splitOnce?_of_not_mem (c : Char) : ∀ {a : List Char}, c ∉ a → splitOnce? c a = none
  | [], _ => rfl
  | d :: a, h => by
    have hne : d ≠ c := fun hd => h (hd ▸ List.mem_cons_self ..)
    rw [splitOnce?, if_neg hne, splitOnce?_of_not_mem c fun ha => h (List.mem_cons_of_mem _ ha)]
    rfl

theorem IsDigits.not_mem (h : IsDigits ds) (hc : c.isDigit = false) : c ∉ ds :=
  fun hmem => ne_of_isDigit (h.2 c hmem) hc rfl

theorem splitSign_mark (sign : SignMark) (h : IsDigits ds) :
    splitSign (sign.text ++ ds) = (decide (sign = .minus), ds) := by
  cases sign with
  | plus => rfl
  | minus => rfl
  | absent =>
    obtain ⟨hne, hdigit⟩ := h
    cases ds with
    | nil => exact absurd rfl hne
    | cons c ds =>
      have hc := hdigit c (List.mem_cons_self ..)
      have hminus : c ≠ '-' := ne_of_isDigit hc (by decide)
      have hplus : c ≠ '+' := ne_of_isDigit hc (by decide)
      show splitSign (c :: ds) = (false, c :: ds)
      unfold splitSign
      split
      · next heq => exact absurd (List.cons.inj heq).1 hminus
      · next heq => exact absurd (List.cons.inj heq).1 hplus
      · rfl

/-- An exponent of at most three digits is read as it is. -/
theorem word?_mark (sign : SignMark) (h : IsDigits ds) (hshort : ds.length ≤ 3) :
    word? (sign.text ++ ds) = some (sign.apply (digitsValue ds)) := by
  have hlt : digitsValue ds < 1000 :=
    Nat.lt_of_lt_of_le (digitsValue_lt h.2) (Nat.pow_le_pow_right (by decide) hshort)
  have hall : ds.all Char.isDigit = true := List.all_eq_true.mpr h.2
  have hempty : ds.isEmpty = false := List.isEmpty_eq_false_iff.mpr h.1
  unfold word?
  rw [splitSign_mark sign h]
  simp only [hall, hempty, Bool.not_true, Bool.or_self, Bool.false_eq_true, if_false]
  cases sign <;> simp only [SignMark.apply, decide_true, if_true, reduceCtorEq, decide_false,
    Bool.false_eq_true, if_false] <;> rw [if_pos (by omega)]

/-- The exponent of a numeral has at most three digits. -/
def Numeral.ShortExponent (w : Numeral) : Prop :=
  ∀ sign ds, w.exponent = some (sign, ds) → ds.length ≤ 3

namespace Numeral

theorem WellFormed.mantissa_not_mem (hw : w.WellFormed) (hc : c.isDigit = false) (hpoint : c ≠ '.') :
    c ∉ w.mantissa := by
  have hwhole : c ∉ w.whole := hw.whole.not_mem hc
  unfold mantissa
  cases hf : w.fraction with
  | none => exact hwhole
  | some ds =>
    intro hmem
    rcases List.mem_append.mp hmem with hmem | hmem
    · exact hwhole hmem
    · rcases List.mem_cons.mp hmem with rfl | hmem
      · exact hpoint rfl
      · exact (hw.fraction ds hf).not_mem hc hmem

theorem WellFormed.splitPoint (hw : w.WellFormed) :
    Number.splitPoint w.mantissa = (w.whole, w.places) := by
  have hpoint : '.' ∉ w.whole := hw.whole.not_mem (by decide)
  unfold Number.splitPoint mantissa places
  cases w.fraction with
  | none => rw [splitOnce?_of_not_mem _ hpoint]; rfl
  | some ds => rw [splitOnce?_append _ _ hpoint]; rfl

theorem WellFormed.splitExponent (hw : w.WellFormed) (hshort : w.ShortExponent) :
    Number.splitExponent w.text = (w.mantissa, w.power) := by
  have hmark : 'e' ∉ w.mantissa := hw.mantissa_not_mem (by decide) (by decide)
  unfold Number.splitExponent text power
  cases he : w.exponent with
  | none =>
    dsimp only
    rw [splitOnce?_of_not_mem _ hmark]
  | some e =>
    obtain ⟨sign, ds⟩ := e
    dsimp only
    rw [splitOnce?_append _ _ hmark]
    dsimp only
    rw [word?_mark sign (hw.exponent sign ds he) (hshort sign ds he)]
    rfl

end Numeral

/-! ### Zeros at the ends -/

theorem digitsValue_dropWhile : ∀ ds : List Char, digitsValue (ds.dropWhile (· == '0')) = digitsValue ds
  | [] => rfl
  | c :: ds => by
    by_cases hc : c = '0'
    · subst hc
      rw [List.dropWhile_cons_of_pos (by decide), digitsValue_dropWhile ds, digitsValue_cons]
      simp
    · rw [List.dropWhile_cons_of_neg (by simpa using hc)]

theorem mem_dropWhile (hc : c ≠ '0') (hmem : c ∈ ds) : c ∈ ds.dropWhile (· == '0') := by
  rw [← List.takeWhile_append_dropWhile (p := (· == '0')) (l := ds)] at hmem
  rcases List.mem_append.mp hmem with hzero | hmem
  · exact absurd (by simpa using List.mem_takeWhile_imp hzero) hc
  · exact hmem

theorem head?_dropWhile (ds : List Char) : (ds.dropWhile (· == '0')).head? ≠ some '0' := by
  intro h
  have hnot := List.head?_dropWhile_not (· == '0') ds
  rw [h] at hnot
  exact absurd hnot (by decide)

/-- What is dropped at the end is zeros. -/
theorem exists_zeros (ds : List Char) : ∃ n, ds = dropTrailingZeros ds ++ List.replicate n '0' := by
  refine ⟨(ds.reverse.takeWhile (· == '0')).length, List.reverse_injective ?_⟩
  unfold dropTrailingZeros
  rw [List.reverse_append, List.reverse_reverse, List.reverse_replicate]
  have hzeros : ds.reverse.takeWhile (· == '0') =
      List.replicate (ds.reverse.takeWhile (· == '0')).length '0' :=
    List.eq_replicate_iff.mpr ⟨rfl, fun c hc => by simpa using List.mem_takeWhile_imp hc⟩
  rw [← hzeros, List.takeWhile_append_dropWhile]

theorem mem_dropTrailingZeros (hc : c ≠ '0') (hmem : c ∈ ds) : c ∈ dropTrailingZeros ds :=
  List.mem_reverse.mpr (mem_dropWhile hc (List.mem_reverse.mpr hmem))

theorem getLast?_dropTrailingZeros (ds : List Char) : (dropTrailingZeros ds).getLast? ≠ some '0' := by
  unfold dropTrailingZeros
  rw [List.getLast?_reverse]
  exact head?_dropWhile _

theorem head?_dropTrailingZeros (hne : dropTrailingZeros ds ≠ []) :
    (dropTrailingZeros ds).head? = ds.head? := by
  obtain ⟨n, hds⟩ := exists_zeros ds
  conv_rhs => rw [hds]
  rw [List.head?_append_of_ne_nil _ hne]

/-! ### The normal form -/

/-- **The number `x` in normal form**: `0.digits · 10 ^ point`, the digits without zeros at either end. -/
structure Normal (digits : List Char) (point : Int) (x : ℚ) : Prop where
  isDigits : IsDigits digits
  head : digits.head? ≠ some '0'
  last : digits.getLast? ≠ some '0'
  value : digitsValue digits * 10 ^ (point - digits.length) = x

namespace Normal

variable {digits : List Char}

theorem length_pos (h : Normal digits point x) : 0 < digits.length := List.length_pos_iff.mpr h.isDigits.1

/-- **The point tells the size of the number.** -/
theorem bounds (h : Normal digits point x) : 10 ^ (point - 1) ≤ x ∧ x < 10 ^ point := by
  have hten : (1 : ℚ) < 10 := by norm_num
  have hne : (10 : ℚ) ≠ 0 := by norm_num
  have hlow : ((10 : ℚ) ^ (digits.length - 1)) ≤ digitsValue digits := by
    exact_mod_cast le_digitsValue h.isDigits h.head
  have hhigh : (digitsValue digits : ℚ) < 10 ^ digits.length := by
    exact_mod_cast digitsValue_lt h.isDigits.2
  have hscale : (0 : ℚ) < 10 ^ (point - digits.length) := zpow_pos (by norm_num) _
  have hpos := h.length_pos
  rw [← h.value]
  constructor
  · calc (10 : ℚ) ^ (point - 1) = 10 ^ (digits.length - 1) * 10 ^ (point - digits.length) := by
          rw [← zpow_natCast, ← zpow_add₀ hne]
          congr 1
          omega
      _ ≤ _ := mul_le_mul_of_nonneg_right hlow hscale.le
  · calc _ < (10 : ℚ) ^ digits.length * 10 ^ (point - digits.length) := mul_lt_mul_of_pos_right hhigh hscale
      _ = 10 ^ point := by
          rw [← zpow_natCast, ← zpow_add₀ hne]
          congr 1
          omega

/-- The numbers from `10 ^ 21` on have their point after more than twenty-one digits. -/
theorem large_iff (h : Normal digits point x) : 10 ^ 21 ≤ x ↔ 21 < point := by
  obtain ⟨hlow, hhigh⟩ := h.bounds
  have hten : (1 : ℚ) ≤ 10 := by norm_num
  constructor
  · intro hx
    by_contra hle
    have hpow : (10 : ℚ) ^ point ≤ 10 ^ (21 : Int) := zpow_le_zpow_right₀ hten (by omega)
    exact absurd (hhigh.trans_le hpow) (not_lt.mpr (by exact_mod_cast hx))
  · intro hpoint
    have hpow : (10 : ℚ) ^ (21 : Int) ≤ 10 ^ (point - 1) := zpow_le_zpow_right₀ hten (by omega)
    exact (show (10 : ℚ) ^ 21 ≤ _ by exact_mod_cast hpow).trans hlow

/-- The numbers below `10 ^ -6` have at least six zeros between the point and their digits. -/
theorem small_iff (h : Normal digits point x) : x < 10 ^ (-6 : Int) ↔ point ≤ -6 := by
  obtain ⟨hlow, hhigh⟩ := h.bounds
  have hten : (1 : ℚ) ≤ 10 := by norm_num
  constructor
  · intro hx
    by_contra hle
    have hpow : (10 : ℚ) ^ (-6 : Int) ≤ 10 ^ (point - 1) := zpow_le_zpow_right₀ hten (by omega)
    exact absurd (hpow.trans hlow) (not_le.mpr hx)
  · intro hpoint
    exact hhigh.trans_le (zpow_le_zpow_right₀ hten hpoint)

end Normal

/-- Digits, of which one is not zero, without the zeros at either end. -/
theorem IsDigits.normal (h : ∀ c ∈ ds, c.isDigit = true) (hnonzero : ∃ c ∈ ds, c ≠ '0') (point : Int) :
    Normal (dropTrailingZeros (ds.dropWhile (· == '0')))
      (point - (ds.length - (ds.dropWhile (· == '0')).length : Nat))
      (digitsValue ds * 10 ^ (point - ds.length)) := by
  have hten : (10 : ℚ) ≠ 0 := by norm_num
  obtain ⟨c, hmem, hc⟩ := hnonzero
  set front := ds.dropWhile (· == '0') with hfront
  have hle : front.length ≤ ds.length := (List.dropWhile_sublist _).length_le
  have hmem' : c ∈ dropTrailingZeros front := mem_dropTrailingZeros hc (mem_dropWhile hc hmem)
  have hne : dropTrailingZeros front ≠ [] := List.ne_nil_of_mem hmem'
  obtain ⟨n, hzeros⟩ := exists_zeros front
  have hvalue : digitsValue ds = digitsValue (dropTrailingZeros front) * 10 ^ n := by
    rw [← digitsValue_dropWhile ds, ← hfront, hzeros, digitsValue_append, digitsValue_zeros, ← hzeros,
      List.length_replicate, Nat.add_zero]
  have hlength : front.length = (dropTrailingZeros front).length + n := by
    conv_lhs => rw [hzeros]
    rw [List.length_append, List.length_replicate]
  refine ⟨⟨hne, fun d hd => h d ?_⟩, ?_, getLast?_dropTrailingZeros _, ?_⟩
  · have hfrontmem : d ∈ front := hzeros ▸ List.mem_append_left _ hd
    exact (List.dropWhile_sublist _).subset hfrontmem
  · rw [head?_dropTrailingZeros hne]
    exact head?_dropWhile _
  · rw [hvalue]
    push_cast
    rw [mul_assoc, ← zpow_natCast, ← zpow_add₀ hten]
    congr 2
    omega

/-- **A numeral is brought into normal form**, if one of its digits is not zero. -/
theorem normalize?_text (hw : w.WellFormed) (hshort : w.ShortExponent)
    (hnonzero : ∃ c ∈ w.whole ++ w.places, c ≠ '0') :
    ∃ digits point, normalize? w.text = some (digits, point) ∧ Normal digits point w.value := by
  have hplaces : ∀ c ∈ w.places, c.isDigit = true := by
    unfold Numeral.places
    cases hf : w.fraction with
    | none => exact fun c hc => absurd hc List.not_mem_nil
    | some ds => exact (hw.fraction ds hf).2
  have hdigits : ∀ c ∈ w.whole ++ w.places, c.isDigit = true := fun c hc =>
    (List.mem_append.mp hc).elim (hw.whole.2 c) (hplaces c)
  have hnormal := IsDigits.normal hdigits hnonzero (w.whole.length + w.power)
  have hdrain : drain? ((w.whole ++ w.places).length - ((w.whole ++ w.places).dropWhile (· == '0')).length)
      (w.whole ++ w.places) = some ((w.whole ++ w.places).dropWhile (· == '0')) := by
    unfold drain?
    rw [if_pos (Nat.sub_le _ _), ← List.suffix_iff_eq_drop.mp (List.dropWhile_suffix _)]
  have hvalue : (digitsValue (w.whole ++ w.places) : ℚ) *
      10 ^ ((w.whole.length : Int) + w.power - (w.whole ++ w.places).length) = w.value := by
    rw [w.value_eq, List.length_append]
    congr 2
    push_cast
    omega
  rw [hvalue] at hnormal
  refine ⟨_, _, ?_, hnormal⟩
  unfold normalize?
  rw [hw.splitExponent hshort]
  dsimp only
  rw [hw.splitPoint]
  dsimp only
  rw [hdrain]
  rfl

/-! ### Laying the digits out -/

/-- `w` is a tidy numeral for the number `x`, and it has an exponent only where the number is large or small. -/
structure Lays (point : Int) (x : ℚ) (w : Numeral) : Prop where
  wellFormed : w.WellFormed
  tidy : w.Tidy
  value : w.value = x
  exponent : w.exponent.isSome ↔ 21 < point ∨ point ≤ -6

namespace Numeral

/-- One digit before the point, the others behind it, and an exponent that has a sign. -/
def scientific (digits : List Char) (e : Int) : Numeral where
  whole := digits.take 1
  fraction := if digits.drop 1 = [] then none else some (digits.drop 1)
  exponent := some (if 0 ≤ e then .plus else .minus, Nat.toDigits 10 e.natAbs)

theorem places_scientific (digits : List Char) (e : Int) : (scientific digits e).places = digits.drop 1 := by
  unfold places scientific
  by_cases hempty : digits.drop 1 = []
  · rw [if_pos hempty, hempty]
    rfl
  · rw [if_neg hempty]
    rfl

theorem power_scientific (digits : List Char) (e : Int) : (scientific digits e).power = e := by
  show SignMark.apply (digitsValue (Nat.toDigits 10 e.natAbs)) (if 0 ≤ e then .plus else .minus) = e
  rw [digitsValue_toDigits]
  by_cases hsign : 0 ≤ e
  · rw [if_pos hsign, SignMark.apply, Int.natAbs_of_nonneg hsign]
  · rw [if_neg hsign, SignMark.apply]
    omega

theorem text_scientific (digits : List Char) (e : Int) :
    (scientific digits e).text = digits.take 1 ++
      (if (digits.drop 1).isEmpty then [] else '.' :: digits.drop 1) ++ 'e' :: signedExponent e := by
  have hsigned : SignMark.text (if 0 ≤ e then .plus else .minus) ++ Nat.toDigits 10 e.natAbs =
      signedExponent e := by
    unfold signedExponent
    by_cases hsign : 0 ≤ e
    · rw [if_pos hsign, if_pos hsign]
      rfl
    · rw [if_neg hsign, if_neg hsign]
      rfl
  show (scientific digits e).mantissa ++ 'e' :: (_ ++ _) = _
  rw [hsigned]
  unfold mantissa scientific
  by_cases hempty : digits.drop 1 = []
  · rw [if_pos hempty, if_pos (List.isEmpty_iff.mpr hempty), List.append_nil]
  · have htail : ¬ (digits.drop 1).isEmpty = true := by rwa [List.isEmpty_iff]
    rw [if_neg hempty, if_neg htail]

end Numeral

section

variable {digits : List Char} (h : Normal digits point x)

include h

theorem Normal.numeral_value (w : Numeral) (zeros : Nat)
    (hdigits : digitsValue (w.whole ++ w.places) = digitsValue digits * 10 ^ zeros)
    (hpower : w.power - w.places.length + zeros = point - digits.length) : w.value = x := by
  have hten : (10 : ℚ) ≠ 0 := by norm_num
  rw [w.value_eq, ← h.value, hdigits]
  push_cast
  rw [mul_assoc, ← zpow_natCast, ← zpow_add₀ hten, ← hpower]
  congr 2
  omega

/-- All digits stand before the point, with zeros up to it. -/
theorem Normal.lays_whole (hlow : (digits.length : Int) ≤ point) (hhigh : point ≤ 21) :
    Lays point x ⟨digits ++ List.replicate (point - digits.length).toNat '0', none, none⟩ := by
  have hpos := h.length_pos
  have hne : digits ++ List.replicate (point - digits.length).toNat '0' ≠ [] :=
    List.append_ne_nil_of_left_ne_nil h.isDigits.1 _
  refine ⟨⟨⟨hne, fun c hc => ?_⟩, fun _ hds => (nomatch hds), fun _ _ he => (nomatch he)⟩,
    ⟨.inr ?_, fun _ hds => (nomatch hds), fun _ _ he => (nomatch he)⟩,
    h.numeral_value _ (point - digits.length).toNat ?_ ?_, ?_⟩
  · rcases List.mem_append.mp hc with hc | hc
    · exact h.isDigits.2 c hc
    · rw [List.eq_of_mem_replicate hc]
      decide
  · rw [List.head?_append_of_ne_nil _ h.isDigits.1]
    exact h.head
  · show digitsValue (_ ++ []) = _
    rw [List.append_nil, digitsValue_append, digitsValue_zeros, List.length_replicate, Nat.add_zero]
  · show (0 : Int) - (0 : Nat) + _ = _
    omega
  · simp only [Option.isSome_none, Bool.false_eq_true, false_iff]
    omega

/-- The point stands among the digits. -/
theorem Normal.lays_split (hlow : 0 < point) (hsplit : point < digits.length) (hhigh : point ≤ 21) :
    Lays point x ⟨digits.take point.toNat, some (digits.drop point.toNat), none⟩ := by
  have hpos := h.length_pos
  have htake : digits.take point.toNat ≠ [] := List.ne_nil_of_length_pos (by rw [List.length_take]; omega)
  have hdrop : digits.drop point.toNat ≠ [] := List.ne_nil_of_length_pos (by rw [List.length_drop]; omega)
  refine ⟨⟨⟨htake, fun c hc => h.isDigits.2 c (List.mem_of_mem_take hc)⟩, ?_, fun _ _ he => nomatch he⟩,
    ⟨.inr ?_, ?_, fun _ _ he => nomatch he⟩, h.numeral_value _ 0 ?_ ?_, ?_⟩
  · rintro ds ⟨⟩
    exact ⟨hdrop, fun c hc => h.isDigits.2 c (List.mem_of_mem_drop hc)⟩
  · rw [List.head?_take, if_neg (by omega)]
    exact h.head
  · rintro ds ⟨⟩
    rw [List.getLast?_drop, if_neg (by omega)]
    exact h.last
  · show digitsValue (digits.take _ ++ digits.drop _) = _
    rw [List.take_append_drop, Nat.pow_zero, Nat.mul_one]
  · show (0 : Int) - ((digits.drop point.toNat).length : Nat) + (0 : Nat) = _
    rw [List.length_drop]
    omega
  · simp only [Option.isSome_none, Bool.false_eq_true, false_iff]
    omega

/-- All digits stand behind the point, with zeros before them. -/
theorem Normal.lays_fraction (hlow : -6 < point) (hhigh : point ≤ 0) :
    Lays point x ⟨['0'], some (List.replicate (-point).toNat '0' ++ digits), none⟩ := by
  have hne : List.replicate (-point).toNat '0' ++ digits ≠ [] :=
    List.append_ne_nil_of_right_ne_nil _ h.isDigits.1
  have hzero : IsDigits ['0'] := ⟨by simp, by simp⟩
  refine ⟨⟨hzero, ?_, fun _ _ he => nomatch he⟩,
    ⟨.inl rfl, ?_, fun _ _ he => nomatch he⟩, h.numeral_value _ 0 ?_ ?_, ?_⟩
  · rintro ds ⟨⟩
    refine ⟨hne, fun c hc => ?_⟩
    rcases List.mem_append.mp hc with hc | hc
    · rw [List.eq_of_mem_replicate hc]
      decide
    · exact h.isDigits.2 c hc
  · rintro ds ⟨⟩
    rw [List.getLast?_append_of_ne_nil _ h.isDigits.1]
    exact h.last
  · show digitsValue (List.replicate 1 '0' ++ (List.replicate (-point).toNat '0' ++ digits)) = _
    rw [digitsValue_append, digitsValue_append, digitsValue_zeros, digitsValue_zeros]
    omega
  · show (0 : Int) - ((List.replicate (-point).toNat '0' ++ digits).length : Nat) + (0 : Nat) = _
    rw [List.length_append, List.length_replicate]
    omega
  · simp only [Option.isSome_none, Bool.false_eq_true, false_iff]
    omega

/-- One digit stands before the point, and the exponent says the rest. -/
theorem Normal.lays_scientific (hsize : 21 < point ∨ point ≤ -6) :
    Lays point x (.scientific digits (point - 1)) := by
  have hpos := h.length_pos
  have htake : digits.take 1 ≠ [] := List.ne_nil_of_length_pos (by rw [List.length_take]; omega)
  have hhead : (digits.take 1).head? ≠ some '0' := by
    rw [List.head?_take, if_neg (by decide)]
    exact h.head
  have hfraction : ∀ ds, (Numeral.scientific digits (point - 1)).fraction = some ds →
      ds = digits.drop 1 ∧ ds ≠ [] := by
    intro ds hds
    by_cases hempty : digits.drop 1 = []
    · rw [Numeral.scientific, if_pos hempty] at hds
      cases hds
    · rw [Numeral.scientific, if_neg hempty] at hds
      cases hds
      exact ⟨rfl, hempty⟩
  refine ⟨⟨⟨htake, fun c hc => h.isDigits.2 c (List.mem_of_mem_take hc)⟩, fun ds hds => ?_, ?_⟩,
    ⟨.inr hhead, fun ds hds => ?_, ?_⟩, h.numeral_value _ 0 ?_ ?_, ?_⟩
  · obtain ⟨rfl, hne⟩ := hfraction ds hds
    exact ⟨hne, fun c hc => h.isDigits.2 c (List.mem_of_mem_drop hc)⟩
  · rintro sign ds ⟨⟩
    exact isDigits_toDigits _
  · obtain ⟨rfl, hne⟩ := hfraction ds hds
    have hlength := List.length_pos_iff.mpr hne
    rw [List.length_drop] at hlength
    rw [List.getLast?_drop, if_neg (by omega)]
    exact h.last
  · rintro sign ds ⟨⟩
    refine ⟨?_, head?_toDigits (by omega), ?_, fun heq => hhead (congrArg List.head? heq)⟩
    · split <;> decide
    · show (digits.take 1).length = 1
      rw [List.length_take]
      omega
  · rw [Numeral.places_scientific, Nat.pow_zero, Nat.mul_one]
    exact congrArg digitsValue (List.take_append_drop 1 digits)
  · rw [Numeral.places_scientific, Numeral.power_scientific, List.length_drop]
    omega
  · simpa [Numeral.scientific] using hsize

/-- **What is laid out from the normal form is a tidy numeral for the same number.** -/
theorem Normal.place : ∃ w : Numeral, place? digits point = some w.text ∧ Lays point x w := by
  have hpos := h.length_pos
  unfold place?
  dsimp only
  by_cases hwhole : (digits.length : Int) ≤ point ∧ point ≤ 21
  · rw [if_pos hwhole]
    exact ⟨_, rfl, h.lays_whole hwhole.1 hwhole.2⟩
  rw [if_neg hwhole]
  by_cases hsplit : 0 < point ∧ point ≤ 21
  · have hlt : point < digits.length := by omega
    rw [if_pos hsplit, splitAt?, if_pos (by omega)]
    exact ⟨_, rfl, h.lays_split hsplit.1 hlt hsplit.2⟩
  rw [if_neg hsplit]
  by_cases hfraction : -6 < point ∧ point ≤ 0
  · rw [if_pos hfraction]
    exact ⟨_, rfl, h.lays_fraction hfraction.1 hfraction.2⟩
  rw [if_neg hfraction, splitAt?, if_pos (by omega)]
  exact ⟨_, congrArg some (Numeral.text_scientific digits (point - 1)).symm, h.lays_scientific (by omega)⟩

end

/-! ### The layout of a text -/

/-- The text of a numeral is laid out as a tidy numeral for the same number. -/
theorem layout?_text (hw : w.WellFormed) (hshort : w.ShortExponent)
    (hnonzero : ∃ c ∈ w.whole ++ w.places, c ≠ '0') :
    ∃ (point : Int) (digits : List Char) (v : Numeral), Normal digits point w.value ∧
      layout? w.text = some v.text ∧ Lays point w.value v := by
  obtain ⟨digits, point, hnormalize, hnormal⟩ := normalize?_text hw hshort hnonzero
  obtain ⟨v, hplace, hv⟩ := hnormal.place
  refine ⟨point, digits, v, hnormal, ?_, hv⟩
  unfold layout?
  rw [hnormalize]
  exact hplace

/-- **The layout is exact.** Let `w` be a numeral with a digit that is not zero and an exponent of at most three
digits, if it has one. Its text has a layout, so no digit string is split or cut where it has no digits. The
layout is a numeral `v` for exactly the same number, and no zero of it could be left out. It has an exponent, with
a sign and with one digit before the point, exactly when the number is at least `10 ^ 21` or below `10 ^ -6`. -/
theorem layout_exact (w : Numeral) (hw : w.WellFormed) (hshort : w.ShortExponent)
    (hnonzero : ∃ c ∈ w.whole ++ w.places, c ≠ '0') :
    ∃ v : Numeral, layout? w.text = some v.text ∧ v.WellFormed ∧ v.Tidy ∧ v.value = w.value ∧
      (v.exponent.isSome ↔ 10 ^ 21 ≤ w.value ∨ w.value < 10 ^ (-6 : Int)) := by
  obtain ⟨point, digits, v, hnormal, hlayout, hv⟩ := layout?_text hw hshort hnonzero
  refine ⟨v, hlayout, hv.wellFormed, hv.tidy, hv.value, ?_⟩
  rw [hv.exponent, hnormal.large_iff, hnormal.small_iff]

/-- The text `0012.3400e-9`. -/
def padded : Numeral := ⟨"0012".toList, some "3400".toList, some (.minus, "9".toList)⟩

/-- Zeros on both sides go, and the number is below `10 ^ -6`. -/
theorem layout_exact_padded :
    padded.text = "0012.3400e-9".toList ∧ layout? padded.text = some "1.234e-8".toList ∧
      padded.WellFormed ∧ padded.ShortExponent ∧ (∃ c ∈ padded.whole ++ padded.places, c ≠ '0') ∧
      ∃ v : Numeral, layout? padded.text = some v.text ∧ v.value = padded.value ∧ v.exponent.isSome := by
  have hw : padded.WellFormed := by
    refine ⟨⟨by simp [padded], by simp [padded]⟩, ?_, ?_⟩
    · rintro ds ⟨⟩
      exact ⟨by simp, by simp⟩
    · rintro sign ds ⟨⟩
      exact ⟨by simp, by simp⟩
  have hshort : padded.ShortExponent := by
    rintro sign ds ⟨⟩
    decide
  have hnonzero : ∃ c ∈ padded.whole ++ padded.places, c ≠ '0' := ⟨'1', by decide, by decide⟩
  have hvalue : padded.value < 10 ^ (-6 : Int) := by
    rw [show padded.value = (12 + 3400 / 10 ^ 4) * 10 ^ (-9 : Int) from rfl]
    norm_num
  obtain ⟨v, hlayout, -, -, hv, hexponent⟩ := layout_exact padded hw hshort hnonzero
  exact ⟨by decide, by decide, hw, hshort, hnonzero, v, hlayout, hv, hexponent.mpr (.inr hvalue)⟩

end ScriptCore.Number
