import ScriptCore.Proofs.Number.Layout

/-! # Whole numbers are written with their decimal digits

Below `2 ^ 53` no two whole numbers round to one double. So of the whole decimals only the number itself lies in
the interval that the digits are sought in, and it is found, perhaps with zeros left out at its end. The layout
puts them back.

* `Interval.Around`: an interval around a whole number with no other whole number in it.
* `shortest_text`: the digits that are found are those of the number.
* `Printer.WritesWholes`: a printer writes whole numbers with their digits, as the one that seeks the fewest does.
* `toString_whole`: **a whole number below `2 ^ 32` is then written with its decimal digits.** -/

namespace ScriptCore.Number

variable {n q : Nat} {x : Float} {b : Binary} {i : Interval} {v w : Numeral}

/-! ### The fraction that a whole number is -/

/-- A double that is not zero and not subnormal has a significand of 53 bits. -/
theorem significand_of_decode (hb : decode x = some b) :
    b.exponent = leastExponent ∧ b.significand < 2 ^ 52 ∨ 2 ^ 52 ≤ b.significand := by
  unfold decode at hb
  dsimp only at hb
  split at hb
  · cases hb
  split at hb
  · cases hb
    exact .inl ⟨rfl, Nat.mod_lt _ (by decide)⟩
  · cases hb
    exact .inr (Nat.le_add_left _ _)

/-- A positive whole number below `2 ^ 53` is a fraction whose denominator is a power of two. -/
theorem binary_of_whole (hb : decode x = some b) (hzero : b.significand ≠ 0) (hwhole : b.whole? = some (n : Int))
    (hlt : n < 2 ^ 53) :
    0 < n ∧ b.negative = false ∧ ∃ q : Nat, b.exponent = -(q : Int) ∧ b.significand = n * 2 ^ q := by
  have hsize := significand_of_decode hb
  unfold Binary.whole? at hwhole
  dsimp only at hwhole
  -- The sign is plus, because the number is not zero.
  have hsign : ∀ m : Nat, m ≠ 0 → (if b.negative then -(m : Int) else m) = n → b.negative = false ∧ m = n := by
    intro m hm heq
    cases hnegative : b.negative with
    | false =>
      rw [hnegative, if_neg (by decide)] at heq
      exact ⟨rfl, by omega⟩
    | true =>
      rw [hnegative, if_pos rfl] at heq
      omega
  split at hwhole
  · next hexponent =>
    have hpos : 0 < Nat.pow 2 b.exponent.toNat := Nat.two_pow_pos _
    obtain ⟨hnegative, hn⟩ := hsign _ (Nat.mul_ne_zero hzero (Nat.ne_of_gt hpos)) (Option.some.inj hwhole)
    have hlarge : 2 ^ 52 ≤ b.significand := hsize.resolve_left fun h => by
      rw [h.1] at hexponent
      exact absurd hexponent (by decide)
    have hexponent0 : b.exponent.toNat = 0 := by
      by_contra hne
      have htwo : 2 ^ 1 ≤ Nat.pow 2 b.exponent.toNat := Nat.pow_le_pow_right (by decide) (by omega)
      have := Nat.mul_le_mul hlarge htwo
      omega
    have hn' : b.significand = n := by
      rw [hexponent0] at hn
      exact (Nat.mul_one _).symm.trans hn
    exact ⟨by omega, hnegative, 0, by omega, by rw [hn', Nat.pow_zero, Nat.mul_one]⟩
  · next hexponent =>
    split at hwhole
    · next hdiv =>
      have hmul := Nat.div_mul_cancel (Nat.dvd_of_mod_eq_zero hdiv)
      have hquotient : b.significand / Nat.pow 2 (-b.exponent).toNat ≠ 0 := fun h => hzero (by
        rw [← hmul, h, Nat.zero_mul])
      obtain ⟨hnegative, hn⟩ := hsign _ hquotient (Option.some.inj hwhole)
      rw [hn] at hmul hquotient
      exact ⟨Nat.pos_of_ne_zero hquotient, hnegative, (-b.exponent).toNat, by omega, hmul.symm⟩
    · cases hwhole

/-! ### The interval around it -/

/-- The interval is around the whole number `n`, and no other whole number lies in it. -/
structure Interval.Around (i : Interval) (n : Nat) : Prop where
  value : i.value = n * i.den
  low : i.low < i.value ∧ i.value < i.low + i.den
  high : i.value < i.high ∧ i.high < i.value + i.den

theorem around_ofBinary (hn : 0 < n) (q : Nat) : (Interval.ofBinary (n * 2 ^ q) (-(q : Int))).Around n := by
  have hscale : Nat.pow 2 (-(q : Int) - 2).toNat = 1 := by
    rw [show (-(q : Int) - 2).toNat = 0 by omega]
  have hden : Nat.pow 2 (-(-(q : Int) - 2)).toNat = 4 * 2 ^ q := by
    rw [show (-(-(q : Int) - 2)).toNat = q + 2 by omega]
    show 2 ^ (q + 2) = 4 * 2 ^ q
    rw [Nat.pow_add, Nat.mul_comm]
  have hpow : 0 < 2 ^ q := Nat.two_pow_pos q
  have hpos : 0 < n * 2 ^ q := Nat.mul_pos hn hpow
  unfold Interval.ofBinary
  dsimp only
  rw [hscale, hden]
  refine ⟨?_, ?_, ?_, ?_⟩
  · show 4 * (n * 2 ^ q) * 1 = n * (4 * 2 ^ q)
    rw [Nat.mul_one, Nat.mul_left_comm]
  · dsimp only
    split <;> omega
  · dsimp only
    omega
  · dsimp only
    omega

section

variable (h : i.Around n)
include h

theorem Interval.Around.den_pos : 0 < i.den := by
  have := h.low
  omega

/-- Of the whole numbers only `n` lies in the interval. -/
theorem Interval.Around.contains_iff (k : Nat) : i.contains k 1 = true ↔ k = n := by
  have hbelow : k < n → k * i.den + i.den ≤ n * i.den := fun hlt => by
    rw [← Nat.succ_mul]
    exact Nat.mul_le_mul_right _ hlt
  have habove : n < k → n * i.den + i.den ≤ k * i.den := fun hlt => by
    rw [← Nat.succ_mul]
    exact Nat.mul_le_mul_right _ hlt
  obtain ⟨hvalue, hlow, hhigh⟩ := h
  rw [hvalue] at hlow hhigh
  unfold Interval.contains
  split
  · simp only [Nat.mul_one, Bool.and_eq_true, decide_eq_true_eq]
    exact ⟨fun hk => by omega, fun hk => by subst hk; omega⟩
  · simp only [Nat.mul_one, Bool.and_eq_true, decide_eq_true_eq]
    exact ⟨fun hk => by omega, fun hk => by subst hk; omega⟩

/-- A grid of whole numbers has a point in the interval exactly when `n` is one of its points. -/
theorem Interval.Around.pick? {step : Nat} (hstep : 0 < step) :
    i.pick? step 1 = if n / step * step = n then some (n / step) else none := by
  have hquotient : i.value * 1 / (i.den * step) = n / step := by
    rw [Nat.mul_one, h.value, Nat.mul_comm n, Nat.mul_div_mul_left _ _ h.den_pos]
  have hupper : i.contains ((n / step + 1) * step) 1 = false := by
    rw [Bool.eq_false_iff, Ne, h.contains_iff]
    have := Nat.lt_div_mul_add hstep (a := n)
    rw [Nat.succ_mul]
    omega
  unfold Interval.pick?
  dsimp only
  rw [hquotient, hupper]
  by_cases heq : n / step * step = n
  · rw [(h.contains_iff _).mpr heq, if_pos heq]
  · rw [Bool.eq_false_iff.mpr fun hc => heq ((h.contains_iff _).mp hc), if_neg heq]

/-- The search ends at the latest with all digits of the number, and what it finds is the number. -/
theorem Interval.Around.search {position : Nat} : ∀ {tries digits : Nat}, digits ≤ position →
    position < digits + tries → ∃ m e : Nat, i.search position tries digits = ⟨m, e⟩ ∧ m * 10 ^ e = n
  | 0, _, hle, hlt => by omega
  | tries + 1, digits, hle, hlt => by
    have hstep : Nat.pow 10 ((position : Int) - digits).toNat = 10 ^ (position - digits) := by
      rw [show ((position : Int) - digits).toNat = position - digits by omega]
      rfl
    have hden : Nat.pow 10 (-((position : Int) - digits)).toNat = 1 := by
      rw [show (-((position : Int) - digits)).toNat = 0 by omega]
    unfold Interval.search
    dsimp only
    rw [hstep, hden, h.pick? (Nat.pow_pos (by decide))]
    split
    · next m hm =>
      split at hm
      · next heq =>
        cases hm
        exact ⟨_, position - digits, by congr 1; omega, heq⟩
      · cases hm
    · next hm =>
      by_cases hlast : digits = position
      · rw [hlast, Nat.sub_self, Nat.pow_zero, Nat.div_one, Nat.mul_one, if_pos rfl] at hm
        cases hm
      · exact Interval.Around.search (by omega) (by omega)

end

/-! ### The digits that are found -/

theorem length_toDigits_le {k : Nat} (hn : 0 < n) (hlt : n < 10 ^ k) : (Nat.toDigits 10 n).length ≤ k := by
  have hle := le_digitsValue (isDigits_toDigits n) (head?_toDigits (Nat.ne_of_gt hn))
  rw [digitsValue_toDigits] at hle
  have := (Nat.pow_lt_pow_iff_right (by decide : 1 < 10)).mp (Nat.lt_of_le_of_lt hle hlt)
  omega

/-- A decimal that is a whole number is written in place, with a zero after the point. -/
theorem text_whole {m e : Nat} (hn : 0 < n) (hlt : n < 10 ^ 16) (hvalue : m * 10 ^ e = n) :
    (Decimal.mk m e).text = Nat.toDigits 10 n ++ ['.', '0'] := by
  have hm : m ≠ 0 := by
    rintro rfl
    omega
  have hdigits := isDigits_toDigits m
  obtain ⟨zeros, hzeros⟩ := exists_zeros (Nat.toDigits 10 m)
  set kept := dropTrailingZeros (Nat.toDigits 10 m) with hkeptdef
  have hlength : (Nat.toDigits 10 m).length = kept.length + zeros := by
    conv_lhs => rw [hzeros]
    rw [List.length_append, List.length_replicate]
  have hpoint : (Nat.toDigits 10 m).length + e ≤ 16 := by
    have hle := le_digitsValue hdigits (head?_toDigits hm)
    rw [digitsValue_toDigits] at hle
    have hpow : 10 ^ ((Nat.toDigits 10 m).length - 1 + e) < 10 ^ 16 := by
      rw [Nat.pow_add]
      exact Nat.lt_of_le_of_lt (Nat.mul_le_mul_right _ hle) (hvalue ▸ hlt)
    have := (Nat.pow_lt_pow_iff_right (by decide : 1 < 10)).mp hpow
    omega
  -- The zeros that were left out are put back, with those of the exponent.
  have hfilled : kept ++ List.replicate (zeros + e) '0' = Nat.toDigits 10 n := by
    have hsplit : kept ++ List.replicate (zeros + e) '0' = Nat.toDigits 10 m ++ List.replicate e '0' := by
      rw [hzeros, List.append_assoc, List.replicate_append_replicate]
    have hall : IsDigits (Nat.toDigits 10 m ++ List.replicate e '0') := by
      refine ⟨List.append_ne_nil_of_left_ne_nil hdigits.1 _, fun d hd => ?_⟩
      rcases List.mem_append.mp hd with hd | hd
      · exact hdigits.2 d hd
      · rw [List.eq_of_mem_replicate hd]
        decide
    rw [hsplit, eq_toDigits hall (by rw [List.head?_append_of_ne_nil _ hdigits.1]; exact head?_toDigits hm),
      digitsValue_append, digitsValue_zeros, List.length_replicate, digitsValue_toDigits, Nat.add_zero, hvalue]
  unfold Decimal.text
  dsimp only
  rw [← hkeptdef, if_pos (by omega), ← hfilled]
  rw [show ((((Nat.toDigits 10 m).length : Int) + e) - kept.length).toNat = zeros + e by omega]

/-- **The digits that are found for a whole number are its own.** -/
theorem shortest_text (hn : 0 < n) (hlt : n < 2 ^ 53) (q : Nat) :
    (shortest (n * 2 ^ q) (-(q : Int))).text = Nat.toDigits 10 n ++ ['.', '0'] := by
  have hsmall : n < 10 ^ 16 := Nat.lt_trans hlt (by decide)
  have haround := around_ofBinary hn q
  have hposition : (Interval.ofBinary (n * 2 ^ q) (-(q : Int))).position = ((Nat.toDigits 10 n).length : Int) := by
    unfold Interval.position digitCount
    rw [haround.value, if_pos (Nat.le_mul_of_pos_left _ hn), Nat.mul_div_cancel _ haround.den_pos]
  have hlength := length_toDigits_le hn hsmall
  have hne : (Nat.toDigits 10 n).length ≠ 0 := fun h => Nat.toDigits_ne_nil (List.length_eq_zero_iff.mp h)
  obtain ⟨m, e, hsearch, hvalue⟩ :
      ∃ m e : Nat, Interval.search _ (Nat.toDigits 10 n).length 17 1 = ⟨m, e⟩ ∧ m * 10 ^ e = n :=
    haround.search (by omega) (by omega)
  unfold shortest
  dsimp only
  rw [hposition, hsearch]
  exact text_whole hn hsmall hvalue

/-! ### Printers that write whole numbers -/

/-- A whole number in its decimal digits, with nothing or with zeros after a point. -/
def inDigits (n : Nat) (zeros : Option (List Char)) : Numeral := ⟨Nat.toDigits 10 n, zeros, none⟩

/-- **The printer writes a whole number below `2 ^ 32` with its decimal digits**, as `7`, `7.0` or `7.00`. -/
def Printer.WritesWholes [Printer] : Prop :=
  ∀ (x : Float) (b : Binary) (n : Nat), decode x = some b → b.whole? = some (n : Int) → 0 < n → n < 2 ^ 32 →
    ∃ zeros, (∀ ds, zeros = some ds → ds ≠ [] ∧ ∀ c ∈ ds, c = '0') ∧
      Printer.text b.significand b.exponent = (inDigits n zeros).text

/-- The fewest digits that read back as a whole number are its own. -/
theorem Printer.writesWholes_shortest : Printer.WritesWholes := by
  intro x b n hb hwhole hn hlt
  have hzero : b.significand ≠ 0 := by
    intro hzero
    unfold Binary.whole? at hwhole
    simp only [hzero, Nat.zero_mul, Nat.zero_mod, Nat.zero_div, if_true, Int.natCast_zero, Int.neg_zero,
      ite_self, Option.some.injEq] at hwhole
    omega
  have hlt' : n < 2 ^ 53 := Nat.lt_trans hlt (by decide)
  obtain ⟨-, -, q, hexponent, hsignificand⟩ := binary_of_whole hb hzero hwhole hlt'
  refine ⟨some ['0'], by simp, ?_⟩
  rw [hexponent, hsignificand]
  exact shortest_text hn hlt' q

section

variable {zeros : Option (List Char)} (hzeros : ∀ ds, zeros = some ds → ds ≠ [] ∧ ∀ c ∈ ds, c = '0')
include hzeros

theorem wellFormed_inDigits (n : Nat) : (inDigits n zeros).WellFormed where
  whole := isDigits_toDigits n
  fraction ds hds := ⟨(hzeros ds hds).1, fun c hc => by rw [(hzeros ds hds).2 c hc]; decide⟩
  exponent := nofun

theorem value_inDigits (n : Nat) : (inDigits n zeros).value = n := by
  have hplaces : digitsValue (inDigits n zeros).places = 0 := by
    unfold inDigits Numeral.places
    cases hds : zeros with
    | none => rfl
    | some ds =>
      rw [Option.getD_some, List.eq_replicate_of_mem (hzeros ds hds).2]
      exact digitsValue_zeros _
  unfold Numeral.value
  rw [hplaces, show (inDigits n zeros).whole = Nat.toDigits 10 n from rfl, digitsValue_toDigits]
  simp [Numeral.power, inDigits]

end

/-! ### The layout -/

/-- A tidy numeral without an exponent that denotes a whole number is the number's digits. -/
theorem Numeral.Tidy.text_of_whole (ht : v.Tidy) (hv : v.WellFormed) (hexponent : v.exponent = none)
    (hvalue : v.value = n) : v.text = Nat.toDigits 10 n := by
  have hpower : v.power = 0 := by
    unfold power
    rw [hexponent]
  have hscaled : digitsValue (v.whole ++ v.places) = n * 10 ^ v.places.length := by
    have hten : (10 : ℚ) ≠ 0 := by norm_num
    rw [v.value_eq, hpower, zero_sub, zpow_neg, zpow_natCast, mul_inv_eq_iff_eq_mul₀ (pow_ne_zero _ hten)] at hvalue
    exact_mod_cast hvalue
  have hfraction : v.fraction = none := by
    by_contra hsome
    obtain ⟨ds, hds⟩ := Option.ne_none_iff_exists'.mp hsome
    have hdigits := hv.fraction ds hds
    have hplaces : v.places = ds := by
      unfold places
      rw [hds]
      rfl
    -- What stands after the point is worth a whole number, less than one.
    have hzero : digitsValue ds = 0 := by
      rw [hplaces, digitsValue_append] at hscaled
      have hdvd : 10 ^ ds.length ∣ digitsValue ds :=
        (Nat.dvd_add_right (Nat.dvd_mul_left _ _)).mp ⟨n, hscaled.trans (Nat.mul_comm ..)⟩
      exact Nat.eq_zero_of_dvd_of_lt hdvd (digitsValue_lt hdigits.2)
    have hlast := List.dropLast_append_getLast hdigits.1
    have hdigit := toNat_of_isDigit (hdigits.2 _ (List.getLast_mem hdigits.1))
    rw [← hlast, digitsValue_append, digitsValue_cons] at hzero
    refine ht.fraction ds hds ?_
    rw [List.getLast?_eq_some_getLast hdigits.1]
    refine congrArg some (Char.toNat_inj.mp ?_)
    rw [List.length_nil, Nat.pow_zero, Nat.mul_one] at hzero
    show _ = 48
    omega
  have hplaces : v.places = [] := by
    unfold places
    rw [hfraction]
    rfl
  have htext : v.text = v.whole := by
    unfold text mantissa
    rw [hexponent, hfraction]
  rw [hplaces, List.append_nil, List.length_nil, Nat.pow_zero, Nat.mul_one] at hscaled
  rw [htext, ← hscaled]
  rcases ht.whole with hzero | hhead
  · rw [hzero]
    rfl
  · exact eq_toDigits hv.whole hhead

/-- **A whole number below `2 ^ 32` is written with its decimal digits**, whatever else the printer does. -/
theorem toString_whole [Printer] (hp : Printer.WritesWholes) (hwhole : whole? x = some (n : Int))
    (hlt : n < 2 ^ 32) : toString x = String.ofList (Nat.toDigits 10 n) := by
  obtain ⟨b, hb, hwhole⟩ := Option.bind_eq_some_iff.mp hwhole
  have hlt' : n < 2 ^ 53 := Nat.lt_trans hlt (by decide)
  unfold toString
  rw [hb]
  dsimp only
  by_cases hzero : b.significand = 0
  · have hn : n = 0 := by
      unfold Binary.whole? at hwhole
      simp only [hzero, Nat.zero_mul, Nat.zero_mod, Nat.zero_div, if_true, Int.natCast_zero, Int.neg_zero,
        ite_self, Option.some.injEq] at hwhole
      omega
    rw [if_pos hzero, hn]
    rfl
  · obtain ⟨hpos, hnegative, -⟩ := binary_of_whole hb hzero hwhole hlt'
    obtain ⟨zeros, hzeros, htext⟩ := hp x b n hb hwhole hpos hlt
    have hw := wellFormed_inDigits hzeros n
    have hvalue := value_inDigits hzeros n
    have hnonzero : ∃ c ∈ (inDigits n zeros).whole ++ (inDigits n zeros).places, c ≠ '0' := by
      cases hcs : Nat.toDigits 10 n with
      | nil => exact absurd hcs Nat.toDigits_ne_nil
      | cons c cs =>
        have hc : c ≠ '0' := fun hc => head?_toDigits (Nat.ne_of_gt hpos) (by rw [hcs, hc]; rfl)
        exact ⟨c, List.mem_append_left _ (by rw [inDigits, hcs]; exact List.mem_cons_self ..), hc⟩
    obtain ⟨point, digits, v, hnormal, hlayout, hv⟩ := layout?_text hw nofun hnonzero
    have hlarge : ¬ (10 : ℚ) ^ 21 ≤ (inDigits n zeros).value := by
      rw [hvalue, not_le]
      exact_mod_cast Nat.lt_trans hlt (by decide : 2 ^ 32 < 10 ^ 21)
    have hsmall : ¬ (inDigits n zeros).value < 10 ^ (-6 : Int) := by
      rw [hvalue, not_lt]
      have : (1 : ℚ) ≤ n := by exact_mod_cast hpos
      refine le_trans ?_ this
      norm_num
    have hexponent : v.exponent = none := by
      rw [← Option.not_isSome_iff_eq_none, hv.exponent, ← hnormal.large_iff, ← hnormal.small_iff]
      tauto
    rw [if_neg hzero, htext, hlayout, hnegative]
    exact congrArg String.ofList (hv.tidy.text_of_whole hv.wellFormed hexponent (hv.value.trans hvalue))

end ScriptCore.Number
