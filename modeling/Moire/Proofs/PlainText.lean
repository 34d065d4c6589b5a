import Mathlib.Data.List.TakeWhile
import Mathlib.Tactic
import Moire.Number.Text
import Moire.Proofs.FloatParts

/-!
# The plain layout tells floats apart

A decimal without an exponent is read as the number that it was written for
(`readDecimal?_positional`). With the fact that the shortest decimal of a float belongs to no other
float, the plain layout is injective, `plain_injective`, and a key that holds the text of a float
determines the float. The layouts that keys are made of hold neither the bar that divides the fields
of a key nor the one that divides the names of a path (`isField_plain`, `isField_fixed`).
-/

namespace Moire

/-! ## Reading what was written without an exponent -/

/-- A count is written in digits alone. -/
theorem isDigit_of_mem_repr {n : ℕ} {c : Char} (h : c ∈ (Nat.repr n).toList) : c.isDigit := by
  rw [Nat.toList_repr] at h
  exact Nat.isDigit_of_mem_toDigits (by decide) (by decide) h

/-- Digits alone are read as their value. -/
theorem readDecimal?_digits {whole : List Char} (hwhole : ∀ c ∈ whole, c.isDigit)
    (hne : whole ≠ []) : readDecimal? whole = some ⟨digitsValue whole, 0⟩ := by
  have hdrop : whole.dropWhile Char.isDigit = [] := List.dropWhile_eq_nil_iff.mpr hwhole
  have htake : whole.takeWhile Char.isDigit = whole := List.takeWhile_eq_self_iff.mpr hwhole
  simp [readDecimal?, hdrop, htake, hne]

/-- Digits around a point are read as their value, divided by a power of ten for the ones behind it.
-/
theorem readDecimal?_point {whole fraction : List Char} (hwhole : ∀ c ∈ whole, c.isDigit)
    (hfraction : ∀ c ∈ fraction, c.isDigit) (hne : whole ≠ []) :
    readDecimal? (whole ++ '.' :: fraction) =
      some ⟨digitsValue (whole ++ fraction), -fraction.length⟩ := by
  have hdrop : (whole ++ '.' :: fraction).dropWhile Char.isDigit = '.' :: fraction :=
    List.dropWhile_append_of_pos hwhole
  have htake : (whole ++ '.' :: fraction).takeWhile Char.isDigit = whole := by
    rw [List.takeWhile_append_of_pos hwhole]
    simp
  have hrest : fraction.dropWhile Char.isDigit = [] := List.dropWhile_eq_nil_iff.mpr hfraction
  have hall : fraction.takeWhile Char.isDigit = fraction := List.takeWhile_eq_self_iff.mpr hfraction
  simp [readDecimal?, hdrop, htake, hrest, hall, hne]

/-- A decimal is read from a text that does not begin with a sign. -/
theorem exists_head?_of_readDecimal? {text : List Char} {d : Decimal}
    (h : readDecimal? text = some d) : ∃ c, text.head? = some c ∧ c ≠ '+' ∧ c ≠ '-' := by
  cases text with
  | nil => cases h
  | cons c rest =>
      refine ⟨c, rfl, ?_, ?_⟩ <;>
      · rintro rfl
        cases h

/-! ## Fields of a key -/

/-- A character that divides neither the fields of a key nor the names of a path. -/
def isFieldChar (c : Char) : Bool := c != '_' && c != '/'

/-- A text that can be a field of a key. -/
def IsField (text : String) : Prop := ∀ c ∈ text.toList, isFieldChar c = true

instance (text : String) : Decidable (IsField text) :=
  decidable_of_iff (text.toList.all isFieldChar = true) List.all_eq_true

/-- Two fields put together are a field. -/
theorem IsField.append {first second : String} (h : IsField first) (h' : IsField second) :
    IsField (first ++ second) := by
  intro c hc
  rw [String.toList_append, List.mem_append] at hc
  exact hc.elim (h c) (h' c)

/-- A field does not hold what divides fields or names. -/
theorem IsField.notMem {text : String} (h : IsField text) {c : Char} (hc : isFieldChar c = false) :
    c ∉ text.toList := by
  intro hmem
  rw [h c hmem] at hc
  cases hc

namespace Layout

@[simp] theorem toList_zeros (count : ℕ) : (zeros count).toList = List.replicate count '0' :=
  String.toList_ofList

@[simp] theorem length_zeros (count : ℕ) : (zeros count).length = count := by
  rw [← String.length_toList, toList_zeros, List.length_replicate]

/-- A digit string is not changed by the point apart from the zeros that make it long enough. -/
theorem exists_toList_pointAt {places : ℕ} (hplaces : places ≠ 0) (digits : String) :
    ∃ whole fraction : List Char,
      (pointAt places digits).toList = whole ++ '.' :: fraction ∧
      whole ++ fraction =
        List.replicate (places + 1 - digits.length) '0' ++ digits.toList ∧
      whole ≠ [] ∧ fraction.length = places := by
  set padded := List.replicate (places + 1 - digits.length) '0' ++ digits.toList with hpadded
  have hlength : places + 1 ≤ padded.length := by
    rw [hpadded, List.length_append, List.length_replicate, String.length_toList]
    omega
  refine ⟨padded.take (padded.length - places), padded.drop (padded.length - places), ?_,
    List.take_append_drop _ _, ?_, ?_⟩
  · simp [pointAt, hplaces, hpadded, String.length_toList]
  · apply List.ne_nil_of_length_pos
    rw [List.length_take]
    omega
  · rw [List.length_drop]
    omega

/-- A decimal that is written without an exponent is read as the same number. -/
theorem readDecimal?_positional (d : Decimal) :
    ∃ read, readDecimal? (positional d).toList = some read ∧ read.value = d.value := by
  unfold positional
  split
  next hsign =>
    obtain ⟨n, hn⟩ := Int.eq_ofNat_of_zero_le hsign
    rw [hn, Int.toNat_natCast, String.toList_append, toList_zeros]
    refine ⟨_, readDecimal?_digits ?_ (by simp), ?_⟩
    · intro c hc
      rcases List.mem_append.mp hc with hc | hc
      · exact isDigit_of_mem_repr hc
      · rw [List.eq_of_mem_replicate hc]
        decide
    · have hvalue : digitsValue ((Nat.repr d.coefficient).toList ++ List.replicate n '0') =
          10 ^ n * d.coefficient := by
        show Nat.ofDigitChars 10 _ 0 = _
        rw [Nat.ofDigitChars_append, Nat.toList_repr, Nat.ofDigitChars_ten_toDigits,
          Nat.ofDigitChars_replicate_zero]
      rw [Decimal.value, Decimal.value, hvalue, hn]
      push_cast
      rw [zpow_natCast]
      ring
  next hsign =>
    obtain ⟨n, hn⟩ := Int.eq_ofNat_of_zero_le (show 0 ≤ -d.exponent by omega)
    rw [hn, Int.toNat_natCast]
    obtain ⟨whole, fraction, htext, hdigits, hne, hlength⟩ :=
      exists_toList_pointAt (show n ≠ 0 by omega) (Nat.repr d.coefficient)
    have hall : ∀ c ∈ whole ++ fraction, c.isDigit := by
      intro c hc
      rw [hdigits] at hc
      rcases List.mem_append.mp hc with hc | hc
      · rw [List.eq_of_mem_replicate hc]
        decide
      · exact isDigit_of_mem_repr hc
    rw [List.forall_mem_append] at hall
    refine ⟨_, htext ▸ readDecimal?_point hall.1 hall.2 hne, ?_⟩
    have hvalue : digitsValue (whole ++ fraction) = d.coefficient := by
      rw [hdigits]
      show Nat.ofDigitChars 10 _ 0 = _
      rw [Nat.ofDigitChars_append, Nat.ofDigitChars_replicate_zero, Nat.mul_zero, Nat.toList_repr,
        Nat.ofDigitChars_ten_toDigits]
    rw [Decimal.value, Decimal.value, hvalue, hlength]
    congr
    omega

/-! ## The sign -/

/-- The sign of a text is told from what follows it. -/
theorem readSign_signed (negative : Bool) {body : String} {c : Char}
    (hbody : body.toList.head? = some c) (hplus : c ≠ '+') (hminus : c ≠ '-') :
    readSign (signed negative body).toList = (negative, body.toList) := by
  obtain ⟨rest, hrest⟩ := List.head?_eq_some_iff.mp hbody
  cases negative with
  | true => simp [signed, readSign]
  | false =>
      have hunsigned : readSign (c :: rest) = (false, c :: rest) := by
        unfold readSign
        split <;> simp_all
      simp [signed, hrest, hunsigned]

/-! ## The plain layout -/

/-- The decimal zero is read as zero. -/
theorem reads_zero (e : ℤ) : Binary64.Reads 0 e (Decimal.mk 0 0).value := by
  have hpos : (0 : ℚ) < 2 ^ (e - 2) := by positivity
  have hend : Binary64.lowerEnd 0 e = 0 := if_neg fun h ↦ absurd h.1 (by decide)
  have hvalue : (Decimal.mk 0 0).value = 0 := by simp [Decimal.value]
  refine ⟨?_, ?_, fun hodd ↦ by omega⟩ <;> rw [hvalue]
  · simp [hend]
  · positivity

/-- What a float's text is made of: a sign, and a body from which the other parts are read. -/
theorem exists_plain_eq (x : Float) :
    ∃ negative body c, plain x = signed negative body ∧ body.toList.head? = some c ∧ c ≠ '+' ∧
      c ≠ '-' ∧
      ((Binary64.ofFloat x = .nan ∧ negative = false ∧ body = "NaN") ∨
        (Binary64.ofFloat x = .infinite negative ∧ body = "inf") ∨
        ∃ m e d, Binary64.ofFloat x = .finite negative m e ∧
          readDecimal? body.toList = some d ∧ Binary64.Reads m e d.value) := by
  unfold plain
  split
  next h => exact ⟨false, "NaN", 'N', rfl, rfl, by decide, by decide, Or.inl ⟨h, rfl, rfl⟩⟩
  next negative h =>
    exact ⟨negative, "inf", 'i', rfl, rfl, by decide, by decide, Or.inr (Or.inl ⟨h, rfl⟩)⟩
  next negative m e h =>
    have hlegal := Binary64.legal_ofFloat h
    split
    next hzero =>
      refine ⟨negative, "0", '0', rfl, rfl, by decide, by decide,
        Or.inr (Or.inr ⟨m, e, ⟨0, 0⟩, h, by decide, ?_⟩)⟩
      exact hzero ▸ reads_zero e
    next hpos =>
      obtain ⟨d, hd, hvalue⟩ := readDecimal?_positional (Decimal.shortest .away m e)
      obtain ⟨c, hc, hplus, hminus⟩ := exists_head?_of_readDecimal? hd
      have hreads := reads_shortest hlegal (Nat.pos_of_ne_zero hpos) .away
      exact ⟨negative, _, c, rfl, hc, hplus, hminus,
        Or.inr (Or.inr ⟨m, e, d, h, hd, hvalue ▸ hreads⟩)⟩

/-- Different floats have different texts. -/
theorem plain_injective : Function.Injective plain := by
  intro x y h
  obtain ⟨negative, body, c, hx, hc, hplus, hminus, hbody⟩ := exists_plain_eq x
  obtain ⟨negative', body', c', hy, hc', hplus', hminus', hbody'⟩ := exists_plain_eq y
  have hread : (negative, body.toList) = (negative', body'.toList) := by
    rw [← readSign_signed negative hc hplus hminus, ← readSign_signed negative' hc' hplus' hminus',
      ← hx, ← hy, h]
  obtain ⟨rfl, hsame⟩ := Prod.mk.inj hread
  obtain rfl := String.toList_inj.mp hsame
  have hnan : readDecimal? "NaN".toList = none := by decide
  have hinf : readDecimal? "inf".toList = none := by decide
  apply Binary64.ofFloat_injective
  obtain ⟨hparts, -, rfl⟩ | ⟨hparts, rfl⟩ | ⟨m, e, d, hparts, hd, hreads⟩ := hbody <;>
    obtain ⟨hparts', -, hbody'⟩ | ⟨hparts', hbody'⟩ | ⟨n, f, d', hparts', hd', hreads'⟩ := hbody'
  · rw [hparts, hparts']
  · simp at hbody'
  · cases hnan.symm.trans hd'
  · simp at hbody'
  · rw [hparts, hparts']
  · cases hinf.symm.trans hd'
  · cases hnan.symm.trans (hbody' ▸ hd)
  · cases hinf.symm.trans (hbody' ▸ hd)
  · cases hd.symm.trans hd'
    obtain ⟨rfl, rfl⟩ := hreads.unique (Binary64.legal_ofFloat hparts).toCanonical
      (Binary64.legal_ofFloat hparts').toCanonical hreads'
    rw [hparts, hparts']

/-! ## Texts without a bar -/

/-- A count is written as a field. -/
theorem isField_repr (n : ℕ) : IsField (Nat.repr n) := by
  intro c hc
  have hdigit : c.isDigit := isDigit_of_mem_repr hc
  have hne : c ≠ '_' ∧ c ≠ '/' := by
    constructor <;>
    · rintro rfl
      exact absurd hdigit (by decide)
  simp [isFieldChar, hne]

/-- A sign in front of a field leaves it a field. -/
theorem isField_signed (negative : Bool) {body : String} (h : IsField body) :
    IsField (signed negative body) := by
  cases negative with
  | true => exact IsField.append (show IsField "-" by decide) h
  | false => simpa [signed] using h

/-- Zeros are a field. -/
theorem isField_zeros (count : ℕ) : IsField (zeros count) := by
  intro c hc
  rw [toList_zeros] at hc
  rw [List.eq_of_mem_replicate hc]
  decide

/-- A point among digits leaves them a field. -/
theorem isField_pointAt (places n : ℕ) : IsField (pointAt places (Nat.repr n)) := by
  by_cases hplaces : places = 0
  · rw [pointAt, if_pos hplaces]
    exact isField_repr n
  · obtain ⟨whole, fraction, htext, hdigits, -⟩ := exists_toList_pointAt hplaces (Nat.repr n)
    -- The point stands between two parts of a text of digits.
    have hparts : ∀ c ∈ whole ++ fraction, isFieldChar c = true := by
      rw [hdigits, List.forall_mem_append, ← toList_zeros]
      exact ⟨isField_zeros _, isField_repr n⟩
    rw [List.forall_mem_append] at hparts
    unfold IsField
    rw [htext, List.forall_mem_append, List.forall_mem_cons]
    exact ⟨hparts.1, by decide, hparts.2⟩

/-- The plain layout of a decimal is a field. -/
theorem isField_positional (d : Decimal) : IsField (positional d) := by
  unfold positional
  split
  · exact (isField_repr _).append (isField_zeros _)
  · exact isField_pointAt _ _

/-- The plain text of a float can be a field of a key. -/
theorem isField_plain (x : Float) : IsField (plain x) := by
  unfold plain
  split
  · decide
  · exact isField_signed _ (by decide)
  · split
    · exact isField_signed _ (by decide)
    · exact isField_signed _ (isField_positional _)

/-- The text of a float with a fixed number of decimals can be a field of a key. -/
theorem isField_fixed (places : ℕ) (x : Float) : IsField (fixed places x) := by
  unfold fixed
  split
  · decide
  · exact isField_signed _ (by decide)
  · exact isField_signed _ (isField_pointAt _ _)

end Layout

end Moire
