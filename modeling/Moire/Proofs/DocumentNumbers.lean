import Mathlib
import Moire.Json.Reader
import Moire.Proofs.DocumentForms
import Moire.Proofs.NearestFloat
import Moire.Proofs.PlainText

/-!
# Numbers in documents are read back

A `Numeral` holds the digits of a number in a document with what the format asks of them, and is
read as the number that it stands for wherever something else than a number follows
(`Numeral.number_text`). Every decimal of a document is the text of a numeral of the same value
(`exists_numeral`), so that a finite real is read back as it was written, `number_document`, and so
is a whole number of the 64-bit ranges, `number_repr`.
-/

namespace Moire.Json

/-! ## Numerals -/

/-- A nonempty run of digits. -/
structure IsDigits (digits : List Char) : Prop where
  ne_nil : digits ≠ []
  isDigit : ∀ c ∈ digits, c.isDigit

/-- What follows is not taken for a part of a number. -/
def EndsNumber (rest : List Char) : Prop :=
  ∀ c ∈ rest.head?, ¬ c.isDigit ∧ c ≠ '.' ∧ c ≠ 'e' ∧ c ≠ 'E'

/-- The digits of a number without its sign. -/
structure Numeral where
  whole : List Char
  isDigits_whole : IsDigits whole
  /-- A leading zero stands alone. -/
  length_whole : whole.head? = some '0' → whole.length = 1
  /-- The digits behind the point. -/
  decimals : Option (List Char)
  isDigits_decimals : ∀ digits ∈ decimals, IsDigits digits
  /-- The digits of the exponent, and whether it is negative. -/
  power : Option (Bool × List Char)
  isDigits_power : ∀ mark ∈ power, IsDigits mark.2

namespace Numeral

/-- The text of the exponent. -/
def powerText (numeral : Numeral) : List Char :=
  match numeral.power with
  | some (negative, digits) => 'e' :: (if negative then '-' else '+') :: digits
  | none => []

/-- The text of the digits behind the point. -/
def decimalsText (numeral : Numeral) : List Char :=
  match numeral.decimals with
  | some digits => '.' :: digits
  | none => []

/-- The text of the number. -/
def text (numeral : Numeral) : List Char :=
  numeral.whole ++ (numeral.decimalsText ++ numeral.powerText)

/-- The exponent that is written out. -/
def powerValue? (numeral : Numeral) : Option ℤ :=
  numeral.power.map fun mark ↦
    if mark.1 then -(digitsValue mark.2 : ℤ) else (digitsValue mark.2 : ℤ)

/-- The decimal that the number stands for. -/
def decimal (numeral : Numeral) : Decimal where
  coefficient := digitsValue (numeral.whole ++ numeral.decimals.getD [])
  exponent := numeral.powerValue?.getD 0 - (numeral.decimals.getD []).length

/-- The number has a point or an exponent. -/
def IsReal (numeral : Numeral) : Prop :=
  numeral.decimals ≠ none ∨ numeral.power ≠ none

end Numeral

/-! ## Runs of digits -/

variable {rest digits : List Char}

/-- The digits before anything else are taken. -/
theorem takeWhile_digits (hdigits : ∀ c ∈ digits, c.isDigit)
    (hrest : ∀ c ∈ rest.head?, ¬ c.isDigit) :
    (digits ++ rest).takeWhile Char.isDigit = digits := by
  rw [List.takeWhile_append_of_pos hdigits]
  cases rest with
  | nil => simp
  | cons c rest => simp [hrest c rfl]

/-- After the digits the rest is left. -/
theorem dropWhile_digits (hdigits : ∀ c ∈ digits, c.isDigit)
    (hrest : ∀ c ∈ rest.head?, ¬ c.isDigit) :
    (digits ++ rest).dropWhile Char.isDigit = rest := by
  rw [List.dropWhile_append_of_pos hdigits]
  cases rest with
  | nil => rfl
  | cons c rest => simp [hrest c rfl]

/-- The value of digits in a row is that of the first ones, moved, and that of the others. -/
theorem digitsValue_append (digits rest : List Char) :
    digitsValue (digits ++ rest) = 10 ^ rest.length * digitsValue digits + digitsValue rest := by
  show Nat.ofDigitChars 10 _ 0 = _
  rw [Nat.ofDigitChars_append, Nat.ofDigitChars_eq_ofDigitChars_zero]
  rfl

/-- The digits of a count have its value. -/
theorem digitsValue_repr (n : ℕ) : digitsValue (Nat.repr n).toList = n := by
  rw [Nat.toList_repr]
  exact Nat.ofDigitChars_ten_toDigits

/-- Zeros alone have no value. -/
theorem digitsValue_replicate_zero (n : ℕ) : digitsValue (List.replicate n '0') = 0 := by
  show Nat.ofDigitChars 10 _ 0 = 0
  rw [Nat.ofDigitChars_replicate_zero, Nat.mul_zero]

/-- A count is written in digits. -/
theorem isDigits_repr (n : ℕ) : IsDigits (Nat.repr n).toList where
  ne_nil := by
    rw [Nat.toList_repr]
    exact Nat.toDigits_ne_nil
  isDigit := fun _ hc ↦ isDigit_of_mem_repr hc

/-- A number above zero does not begin with a zero. -/
theorem head?_repr_ne_zero {n : ℕ} (hn : 0 < n) : (Nat.repr n).toList.head? ≠ some '0' := by
  rw [Nat.toList_repr]
  induction n using Nat.strong_induction_on with
  | h n ih =>
      rw [Nat.toDigits_eq_if (by decide)]
      split
      next hsmall =>
        interval_cases n <;> decide
      next hlarge =>
        have hne : Nat.toDigits 10 (n / 10) ≠ [] := Nat.toDigits_ne_nil
        rw [List.head?_append_of_ne_nil _ hne]
        exact ih (n / 10) (by omega) (by omega)

/-! ## Reading a numeral -/

/-- The decimals are read back from their text. -/
theorem fraction_decimalsText (numeral : Numeral)
    (hrest : ∀ c ∈ rest.head?, ¬ c.isDigit ∧ c ≠ '.') :
    fraction (numeral.decimalsText ++ rest) = some (numeral.decimals, rest) := by
  unfold Numeral.decimalsText
  split
  next digits hdecimals =>
    obtain ⟨hne, hdigits⟩ := numeral.isDigits_decimals digits hdecimals
    have hend : ∀ c ∈ rest.head?, ¬ c.isDigit := fun c hc ↦ (hrest c hc).1
    simp [fraction, takeWhile_digits hdigits hend, dropWhile_digits hdigits hend, hne, hdecimals]
  next hdecimals =>
    rw [hdecimals, List.nil_append]
    unfold fraction
    split
    next => exact absurd rfl (hrest '.' rfl).2
    next => rfl

/-- The power of ten is read back from its text. -/
theorem exponent_powerText (numeral : Numeral) (hrest : EndsNumber rest) :
    exponent (numeral.powerText ++ rest) = some (numeral.powerValue?, rest) := by
  unfold Numeral.powerText Numeral.powerValue?
  split
  next negative digits hpower =>
    obtain ⟨hne, hdigits⟩ := numeral.isDigits_power _ hpower
    have hend : ∀ c ∈ rest.head?, ¬ c.isDigit := fun c hc ↦ (hrest c hc).1
    cases negative <;>
      simp [exponent, takeWhile_digits hdigits hend, dropWhile_digits hdigits hend, hne, hpower]
  next hpower =>
    rw [hpower, List.nil_append]
    cases rest with
    | nil => rfl
    | cons c rest =>
        obtain ⟨-, -, hlower, hupper⟩ := hrest c rfl
        simp [exponent, hlower, hupper]

/-- Neither the power nor what ends a number begins with a digit or a dot. -/
theorem head?_powerText (numeral : Numeral) (hrest : EndsNumber rest) :
    ∀ c ∈ (numeral.powerText ++ rest).head?, ¬ c.isDigit ∧ c ≠ '.' := by
  intro c hc
  unfold Numeral.powerText at hc
  split at hc
  · obtain rfl : 'e' = c := Option.some.inj hc
    decide
  · exact ⟨(hrest c hc).1, (hrest c hc).2.1⟩

/-- Nothing after the whole part begins with a digit. -/
theorem head?_decimalsText (numeral : Numeral) (hrest : EndsNumber rest) :
    ∀ c ∈ (numeral.decimalsText ++ (numeral.powerText ++ rest)).head?, ¬ c.isDigit := by
  intro c hc
  unfold Numeral.decimalsText at hc
  split at hc
  · obtain rfl : '.' = c := Option.some.inj hc
    decide
  · exact (head?_powerText numeral hrest c hc).1

/-- What a number is read as. -/
def Numeral.read (numeral : Numeral) (negative : Bool) : Json :=
  match numeral.decimals, numeral.power with
  | none, none => ofWhole negative (digitsValue numeral.whole)
  | _, _ => .real (numeral.decimal.toFloat negative)

/-- A numeral with decimals or a power is read as a real number. -/
theorem Numeral.read_eq_real {numeral : Numeral} (h : numeral.IsReal) (negative : Bool) :
    numeral.read negative = .real (numeral.decimal.toFloat negative) := by
  unfold read
  split
  next hdecimals hpower => exact absurd h (by simp [IsReal, hdecimals, hpower])
  next => rfl

/-- A number behind its sign. -/
def unsignedNumber (negative : Bool) (text : List Char) : Option (Json × List Char) := do
  let whole := text.takeWhile Char.isDigit
  if whole.isEmpty || (whole.head? = some '0' && 1 < whole.length) then none
  let (decimals, text) ← fraction (text.dropWhile Char.isDigit)
  let (power, text) ← exponent text
  match decimals, power with
  | none, none => return (ofWhole negative (digitsValue whole), text)
  | _, _ =>
      let decimals := decimals.getD []
      let value : Decimal := ⟨digitsValue (whole ++ decimals), power.getD 0 - decimals.length⟩
      return (.real (value.toFloat negative), text)

/-- A number that begins with a minus is negative. -/
theorem number_minus (text : List Char) : number ('-' :: text) = unsignedNumber true text := rfl

/-- A number that does not begin with a minus is not negative. -/
theorem number_plus {text : List Char} (h : text.head? ≠ some '-') :
    number text = unsignedNumber false text := by
  unfold number
  split
  next negative other heq =>
    split at heq
    next => exact absurd rfl h
    next =>
      cases heq
      rfl

/-- A number is read up to its end. -/
theorem Numeral.unsignedNumber_text (numeral : Numeral) (negative : Bool)
    (hrest : EndsNumber rest) :
    unsignedNumber negative (numeral.text ++ rest) = some (numeral.read negative, rest) := by
  obtain ⟨hne, hdigits⟩ := numeral.isDigits_whole
  have hlead : ¬ (numeral.whole.head? = some '0' ∧ 1 < numeral.whole.length) := by
    rintro ⟨hzero, hlong⟩
    have hone := numeral.length_whole hzero
    omega
  have hguard : (numeral.whole.isEmpty ||
      (numeral.whole.head? = some '0' && 1 < numeral.whole.length)) = false := by
    simpa [hne] using hlead
  have hparts : (match numeral.decimals, numeral.powerValue? with
      | none, none => some (ofWhole negative (digitsValue numeral.whole), rest)
      | _, _ => some (.real (numeral.decimal.toFloat negative), rest)) =
      some (numeral.read negative, rest) := by
    unfold read powerValue?
    cases numeral.decimals <;> cases numeral.power <;> rfl
  rw [text, List.append_assoc, List.append_assoc, ← hparts]
  unfold unsignedNumber
  rw [takeWhile_digits hdigits (head?_decimalsText numeral hrest),
    dropWhile_digits hdigits (head?_decimalsText numeral hrest),
    fraction_decimalsText numeral (head?_powerText numeral hrest)]
  simp only [hguard, Bool.false_eq_true, if_false, Option.bind_eq_bind, Option.bind_some,
    exponent_powerText numeral hrest]
  rfl

/-- A numeral is read back from its text, with the sign in front. -/
theorem Numeral.number_text (numeral : Numeral) (negative : Bool) (hrest : EndsNumber rest) :
    number ((if negative then ['-'] else []) ++ (numeral.text ++ rest)) =
      some (numeral.read negative, rest) := by
  cases negative with
  | true => exact (number_minus _).trans (numeral.unsignedNumber_text true hrest)
  | false =>
      refine (number_plus ?_).trans (numeral.unsignedNumber_text false hrest)
      obtain ⟨hne, hdigits⟩ := numeral.isDigits_whole
      intro hminus
      rw [if_neg Bool.false_ne_true, List.nil_append, text, List.append_assoc,
        List.head?_append_of_ne_nil _ hne] at hminus
      exact absurd (hdigits '-' (List.mem_of_mem_head? hminus)) (by decide)

/-! ## The numerals of documents -/

/-- Zeros are digits. -/
theorem isDigit_of_mem_replicate_zero {n : ℕ} {c : Char} (h : c ∈ List.replicate n '0') :
    c.isDigit := by
  rw [List.eq_of_mem_replicate h]
  decide

/-- A single zero is a whole number in digits. -/
theorem isDigits_zero : IsDigits ['0'] :=
  ⟨List.cons_ne_nil _ _, fun _ hc ↦ isDigit_of_mem_replicate_zero (n := 1) hc⟩

/-- A number with a point among its digits. -/
theorem exists_numeral_pointAt {n places : ℕ} (hn : 0 < n) (hplaces : places ≠ 0) :
    ∃ numeral : Numeral, numeral.IsReal ∧
      numeral.text = (Layout.pointAt places (Nat.repr n)).toList ∧
      numeral.decimal = ⟨n, -places⟩ := by
  obtain ⟨whole, fraction, htext, hdigits, hne, hlength⟩ :=
    Layout.exists_toList_pointAt hplaces (Nat.repr n)
  have hall : ∀ c ∈ whole ++ fraction, c.isDigit := by
    intro c hc
    rw [hdigits] at hc
    rcases List.mem_append.mp hc with hc | hc
    · exact isDigit_of_mem_replicate_zero hc
    · exact isDigit_of_mem_repr hc
  rw [List.forall_mem_append] at hall
  have hcount : whole.length + places = places + 1 - (Nat.repr n).length + (Nat.repr n).length := by
    have hlengths := congrArg List.length hdigits
    rwa [List.length_append, List.length_append, List.length_replicate, String.length_toList,
      hlength] at hlengths
  -- Zeros stand in front of the digits only if there is one digit in front of the point.
  have hlead : whole.head? = some '0' → whole.length = 1 := by
    intro hzero
    by_contra hlong
    have hnone : places + 1 - (Nat.repr n).length = 0 := by omega
    rw [hnone, List.replicate_zero, List.nil_append] at hdigits
    rw [← List.head?_append_of_ne_nil _ hne, hdigits] at hzero
    exact head?_repr_ne_zero hn hzero
  have hfraction : fraction ≠ [] := by
    rintro rfl
    exact hplaces hlength.symm
  refine ⟨⟨whole, ⟨hne, hall.1⟩, hlead, some fraction, ?_, none, ?_⟩, Or.inl (by simp), ?_, ?_⟩
  · rintro digits ⟨⟩
    exact ⟨hfraction, hall.2⟩
  · rintro mark ⟨⟩
  · simp [Numeral.text, Numeral.decimalsText, Numeral.powerText, htext]
  · have hvalue : digitsValue (whole ++ fraction) = n := by
      rw [hdigits, digitsValue_append, digitsValue_replicate_zero, digitsValue_repr, Nat.mul_zero,
        Nat.zero_add]
    simp [Numeral.decimal, Numeral.powerValue?, hvalue, hlength]

/-- A whole number with a point behind it. -/
theorem exists_numeral_whole {n : ℕ} (hn : 0 < n) (count : ℕ) :
    ∃ numeral : Numeral, numeral.IsReal ∧
      numeral.text = (Nat.repr n ++ Layout.zeros count ++ ".0").toList ∧
      numeral.decimal = ⟨n * 10 ^ (count + 1), -1⟩ := by
  have hne : (Nat.repr n).toList ≠ [] := (isDigits_repr n).ne_nil
  refine ⟨⟨(Nat.repr n).toList ++ List.replicate count '0', ⟨by simp, ?_⟩, ?_, some ['0'], ?_,
    none, ?_⟩, Or.inl (by simp), ?_, ?_⟩
  · rw [List.forall_mem_append]
    exact ⟨(isDigits_repr n).isDigit, fun c hc ↦ isDigit_of_mem_replicate_zero hc⟩
  · intro hzero
    rw [List.head?_append_of_ne_nil _ hne] at hzero
    exact absurd hzero (head?_repr_ne_zero hn)
  · rintro digits ⟨⟩
    exact isDigits_zero
  · rintro mark ⟨⟩
  · simp [Numeral.text, Numeral.decimalsText, Numeral.powerText]
  · have hvalue : digitsValue ((Nat.repr n).toList ++ List.replicate count '0' ++ ['0']) =
        n * 10 ^ (count + 1) := by
      rw [List.append_assoc, ← List.replicate_succ', digitsValue_append, digitsValue_replicate_zero,
        digitsValue_repr, List.length_replicate, Nat.add_zero, Nat.mul_comm]
    simp only [Numeral.decimal, Numeral.powerValue?, Option.getD_some, hvalue]
    rfl

/-- A number with an exponent. -/
theorem exists_numeral_power (n : ℕ) (power : ℤ) :
    ∃ numeral : Numeral, numeral.IsReal ∧
      numeral.text = (Layout.pointAfterFirst (Nat.repr n) ++ (if 0 ≤ power then "e+" else "e-") ++
        Nat.repr power.natAbs).toList ∧
      numeral.decimal = ⟨n, power - ((Nat.repr n).length - 1 : ℕ)⟩ := by
  have hmark : ((if 0 ≤ power then "e+" else "e-") : String).toList =
      ['e', if decide (power < 0) then '-' else '+'] := by
    by_cases hsign : 0 ≤ power
    · simp [hsign]
    · simp [hsign, not_le.mp hsign]
  have hpower : (if decide (power < 0) then -(power.natAbs : ℤ) else power.natAbs) = power := by
    by_cases hsign : power < 0
    · rw [if_pos (decide_eq_true hsign)]
      omega
    · rw [if_neg (mt of_decide_eq_true hsign)]
      omega
  have hexponent : ∀ mark ∈ some (decide (power < 0), (Nat.repr power.natAbs).toList),
      IsDigits mark.2 := by
    rintro mark ⟨⟩
    exact isDigits_repr _
  have hvalue := digitsValue_repr n
  have hlength : (Nat.repr n).length = (Nat.repr n).toList.length := String.length_toList.symm
  obtain ⟨hne, hdigits⟩ := isDigits_repr n
  rw [hlength, String.toList_append, String.toList_append, hmark]
  unfold Layout.pointAfterFirst
  split
  next first second rest hrepr =>
    rw [hrepr] at hdigits hvalue ⊢
    refine ⟨⟨[first], ⟨by simp, by simp [hdigits]⟩, fun _ ↦ rfl, some (second :: rest), ?_, _,
      hexponent⟩, Or.inl (by simp), ?_, ?_⟩
    · rintro digits ⟨⟩
      exact ⟨by simp, fun c hc ↦ hdigits c (List.mem_cons_of_mem _ hc)⟩
    · simp [Numeral.text, Numeral.decimalsText, Numeral.powerText]
    · simp only [Numeral.decimal, Numeral.powerValue?, Option.map_some, Option.getD_some,
        digitsValue_repr, hpower]
      exact congrArg (Decimal.mk · _) hvalue
  next hshort =>
    obtain ⟨c, hrepr⟩ : ∃ c, (Nat.repr n).toList = [c] := by
      match h : (Nat.repr n).toList with
      | [] => exact absurd h hne
      | [c] => exact ⟨c, rfl⟩
      | first :: second :: rest => exact absurd h (hshort first second rest)
    rw [hrepr] at hdigits hvalue ⊢
    refine ⟨⟨[c], ⟨by simp, hdigits⟩, fun _ ↦ rfl, none, by simp, _, hexponent⟩, Or.inr (by simp),
      ?_, ?_⟩
    · simp [Numeral.text, Numeral.decimalsText, Numeral.powerText]
    · simp only [Numeral.decimal, Numeral.powerValue?, Option.map_some, Option.getD_some,
        digitsValue_repr, hpower]
      exact congrArg (Decimal.mk · _) hvalue

/-- A decimal is written as a number of the same value. -/
theorem exists_numeral {d : Decimal} (hd : 0 < d.coefficient) :
    ∃ numeral : Numeral, numeral.IsReal ∧ numeral.text = (Layout.documentDecimal d).toList ∧
      numeral.decimal.value = d.value := by
  obtain ⟨n, e⟩ := d
  unfold Layout.documentDecimal Layout.positional
  dsimp only at hd ⊢
  split
  next =>
    split
    next hsign =>
      obtain ⟨count, rfl⟩ := Int.eq_ofNat_of_zero_le hsign
      obtain ⟨numeral, hreal, htext, hdecimal⟩ := exists_numeral_whole hd count
      refine ⟨numeral, hreal, htext, ?_⟩
      rw [hdecimal, Decimal.value, Decimal.value]
      push_cast
      rw [zpow_neg, zpow_one, pow_succ, zpow_natCast]
      ring
    next hsign =>
      obtain ⟨places, hplaces⟩ := Int.eq_ofNat_of_zero_le (show 0 ≤ -e by omega)
      obtain ⟨numeral, hreal, htext, hdecimal⟩ :=
        exists_numeral_pointAt hd (show places ≠ 0 by omega)
      refine ⟨numeral, hreal, by rw [htext, hplaces, Int.toNat_natCast], ?_⟩
      rw [hdecimal, ← hplaces, neg_neg]
  next =>
    obtain ⟨numeral, hreal, htext, hdecimal⟩ :=
      exists_numeral_power n (e + (Nat.repr n).length - 1)
    have hlength : 0 < (Nat.repr n).length := by
      rw [← String.length_toList]
      exact List.length_pos_of_ne_nil (isDigits_repr n).ne_nil
    refine ⟨numeral, hreal, htext, ?_⟩
    rw [hdecimal, show e + (Nat.repr n).length - 1 - ((Nat.repr n).length - 1 : ℕ) = e by omega]

/-! ## Numbers read back -/

/-- The real zero. -/
def Numeral.zero : Numeral where
  whole := ['0']
  isDigits_whole := isDigits_zero
  length_whole := fun _ ↦ rfl
  decimals := some ['0']
  isDigits_decimals := by
    rintro digits ⟨⟩
    exact isDigits_zero
  power := none
  isDigits_power := by rintro mark ⟨⟩

/-- A layout has a minus in front when it is of a negative number. -/
theorem toList_signed (negative : Bool) (body : String) :
    (Layout.signed negative body).toList = (if negative then ['-'] else []) ++ body.toList := by
  cases negative <;> simp [Layout.signed]

/-- A real that has a text in documents is read back from it. -/
theorem number_document {x : Float} {text : String} (h : Layout.document? x = some text)
    (hrest : EndsNumber rest) : number (text.toList ++ rest) = some (.real x, rest) := by
  unfold Layout.document? at h
  split at h
  next negative m e hx =>
    split at h
    next hzero =>
      subst hzero
      obtain rfl := Option.some.inj h
      rw [toList_signed, List.append_assoc]
      refine (Numeral.zero.number_text negative hrest).trans ?_
      rw [Numeral.read_eq_real (Or.inl (Option.some_ne_none _)), Decimal.toFloat_zero hx rfl]
    next hpos =>
      obtain rfl := Option.some.inj h
      have hm : 0 < m := Nat.pos_of_ne_zero hpos
      have hreads := reads_shortest (Binary64.legal_ofFloat hx) hm .even
      have hcoefficient : 0 < (Decimal.shortest .even m e).coefficient := by
        refine Nat.pos_of_ne_zero fun hzero ↦ ?_
        have hvalue := hreads.pos hm
        rw [Decimal.value, hzero, Nat.cast_zero, zero_mul] at hvalue
        exact lt_irrefl _ hvalue
      obtain ⟨numeral, hreal, htext, hvalue⟩ := exists_numeral hcoefficient
      rw [toList_signed, List.append_assoc, ← htext, numeral.number_text negative hrest,
        Numeral.read_eq_real hreal, Decimal.toFloat_eq hx hm (hvalue ▸ hreads)]
  next => cases h

/-- The numeral of a natural number. -/
def Numeral.ofNat (n : ℕ) : Numeral where
  whole := (Nat.repr n).toList
  isDigits_whole := isDigits_repr n
  length_whole := by
    intro hzero
    rcases Nat.eq_zero_or_pos n with rfl | hn
    · rfl
    · exact absurd hzero (head?_repr_ne_zero hn)
  decimals := none
  isDigits_decimals := by rintro digits ⟨⟩
  power := none
  isDigits_power := by rintro mark ⟨⟩

/-- The numeral of a count is written as the count. -/
theorem Numeral.text_ofNat (n : ℕ) : (ofNat n).text = (Nat.repr n).toList :=
  List.append_nil _

/-- The numeral of a count is read as a whole number. -/
theorem Numeral.read_ofNat (n : ℕ) (negative : Bool) :
    (ofNat n).read negative = ofWhole negative n :=
  congrArg (ofWhole negative) (digitsValue_repr n)

/-- A whole number of the 64-bit ranges is read back. -/
theorem number_repr {n : ℤ} (h : IsWord n) (hrest : EndsNumber rest) :
    number ((Int.repr n).toList ++ rest) = some (.integer n, rest) := by
  cases n with
  | ofNat m =>
      have hlarge : m < 18446744073709551616 := Int.ofNat_lt.mp h.2
      show number ((Nat.repr m).toList ++ rest) = _
      rw [← Numeral.text_ofNat]
      refine ((Numeral.ofNat m).number_text false hrest).trans ?_
      rw [Numeral.read_ofNat, ofWhole, if_neg Bool.false_ne_true, if_pos hlarge]
      rfl
  | negSucc m =>
      have hsmall : m + 1 ≤ 9223372036854775808 := by
        have hlow := h.1
        rw [Int.negSucc_eq] at hlow
        omega
      have hrepr : (Int.repr (Int.negSucc m)).toList = ['-'] ++ (Nat.repr (m + 1)).toList :=
        String.toList_append
      rw [hrepr, List.append_assoc, ← Numeral.text_ofNat]
      refine ((Numeral.ofNat (m + 1)).number_text true hrest).trans ?_
      rw [Numeral.read_ofNat, ofWhole, if_pos rfl, if_pos ⟨Nat.succ_pos m, hsmall⟩]
      rfl

end Moire.Json
