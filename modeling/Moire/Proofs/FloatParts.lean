import Mathlib
import Moire.Number.Machine
import Moire.Proofs.ShortestDecimal

/-!
# Machine floats and their parts

`Binary64` takes a float apart, and so does the model of machine arithmetic that the operations of
floats are computed in. Here the two are brought together (`unpack_toModel`), the parts that a float
can have are described (`legal_ofFloat`), and a float is shown to be determined by its parts
(`ofFloat_injective`): the parts make up its word, and all that is not a number is one word.
-/

namespace Moire.Binary64

open Float.Model (UnpackedFloat Format)
open Float.Model.UnpackedFloat (Sign packComponents unpackMantissa unpackExponent unpackSign)

/-! ## The fields of a word -/

/-- The fraction field of a word. -/
theorem toNat_unpackMantissa (bits : BitVec Format.binary64.numBits) :
    (unpackMantissa bits).toNat = bits.toNat % leadingBit := by
  simp [unpackMantissa, leadingBit]

/-- The exponent field stands between the fraction and the sign. -/
theorem toNat_unpackExponent (bits : BitVec Format.binary64.numBits) :
    (unpackExponent bits).toNat = bits.toNat / leadingBit % 2048 := by
  simp [unpackExponent, leadingBit, Nat.shiftRight_eq_div_pow]

/-- The sign is the highest bit. -/
theorem toNat_unpackSign (bits : BitVec Format.binary64.numBits) :
    (unpackSign bits).toNat = bits.toNat / signWeight % 2 := by
  simp [unpackSign, signWeight, Nat.shiftRight_eq_div_pow]

/-- The exponent field has a value just if the bits of the word there do. -/
theorem unpackExponent_eq_iff (bits : BitVec Format.binary64.numBits)
    (exponent : BitVec Format.binary64.exponentBits) :
    unpackExponent bits = exponent ↔ bits.toNat / leadingBit % 2048 = exponent.toNat := by
  rw [← BitVec.toNat_inj, toNat_unpackExponent]

/-- The fraction is zero just if the bits of the word there are. -/
theorem unpackMantissa_eq_zero_iff (bits : BitVec Format.binary64.numBits) :
    unpackMantissa bits = 0#_ ↔ bits.toNat % leadingBit = 0 := by
  rw [← BitVec.toNat_inj, toNat_unpackMantissa]
  rfl

/-- What a word can stand for, by its fields. -/
theorem ofBits_cases (bits : ℕ) :
    (ofBits bits = .nan ∧ bits / leadingBit % 2048 = 2047 ∧ bits % leadingBit ≠ 0) ∨
    (ofBits bits = .infinite (decide (signWeight ≤ bits)) ∧ bits / leadingBit % 2048 = 2047 ∧
      bits % leadingBit = 0) ∨
    (ofBits bits = .finite (decide (signWeight ≤ bits)) (bits % leadingBit) minExponent ∧
      bits / leadingBit % 2048 = 0) ∨
    (ofBits bits = .finite (decide (signWeight ≤ bits)) (leadingBit + bits % leadingBit)
        ((bits / leadingBit % 2048 : ℕ) - 1075) ∧
      0 < bits / leadingBit % 2048 ∧ bits / leadingBit % 2048 < 2047) := by
  have hsize : bits / leadingBit % 2048 < 2048 := Nat.mod_lt _ (by decide)
  by_cases hlast : bits / leadingBit % 2048 = 2047
  · by_cases hfraction : bits % leadingBit = 0
    · simp [ofBits, hlast, hfraction]
    · simp [ofBits, hlast, hfraction]
  · by_cases hfirst : bits / leadingBit % 2048 = 0
    · simp [ofBits, hfirst]
    · refine Or.inr (Or.inr (Or.inr ⟨by simp [ofBits, hlast, hfirst], ?_⟩))
      omega

/-- The parts of a number make up its word. -/
theorem toBits_ofBits {bits : ℕ} (hbits : bits < 2 * signWeight) (hnumber : ofBits bits ≠ .nan) :
    (ofBits bits).toBits = bits := by
  have hsign : toBits.signBit (decide (signWeight ≤ bits)) + bits % signWeight = bits := by
    unfold toBits.signBit
    by_cases hlarge : signWeight ≤ bits <;> simp [hlarge] <;> unfold signWeight at * <;> omega
  have hrest : bits % signWeight = bits / leadingBit % 2048 * leadingBit + bits % leadingBit := by
    unfold signWeight leadingBit
    omega
  have hfraction : bits % leadingBit < leadingBit := Nat.mod_lt _ (by decide)
  obtain ⟨hparts, -⟩ | ⟨hparts, hlast, hzero⟩ | ⟨hparts, hfirst⟩ | ⟨hparts, -⟩ := ofBits_cases bits
  · exact absurd hparts hnumber
  · rw [hlast, hzero] at hrest
    rw [hparts, toBits]
    omega
  · rw [hfirst] at hrest
    rw [hparts, toBits, if_pos hfraction]
    omega
  · rw [hparts, toBits, if_neg (by omega), Int.sub_add_cancel, Int.toNat_natCast,
      Nat.add_sub_cancel_left, ← hrest, hsign]

/-- The parts of every finite float are legal. -/
theorem legal_ofBits {bits : ℕ} {negative : Bool} {m : ℕ} {e : ℤ}
    (h : ofBits bits = .finite negative m e) : Legal m e := by
  have hfraction : bits % leadingBit < leadingBit := Nat.mod_lt _ (by decide)
  obtain ⟨hparts, -⟩ | ⟨hparts, -⟩ | ⟨hparts, -⟩ | ⟨hparts, hfields⟩ := ofBits_cases bits
  · cases hparts.symm.trans h
  · cases hparts.symm.trans h
  · cases hparts.symm.trans h
    exact ⟨⟨by omega, le_rfl, fun _ ↦ rfl⟩, by decide⟩
  · cases hparts.symm.trans h
    refine ⟨⟨by omega, ?_, fun hsmall ↦ by omega⟩, ?_⟩
    · unfold minExponent
      omega
    · unfold maxExponent
      omega

/-! ## Floats and their parts -/

/-- The word of a float has 64 bits. -/
theorem toNat_toBits_lt (x : Float) : x.toBits.toNat < 2 * signWeight :=
  x.toBits.toNat_lt

/-- Floats with the same word are equal. -/
theorem eq_of_toBits_eq {x y : Float} (h : x.toBits = y.toBits) : x = y := by
  obtain ⟨⟨bits, hbits⟩⟩ := x
  obtain ⟨⟨bits', hbits'⟩⟩ := y
  cases h
  rfl

/-- There is one float that is not a number. -/
theorem toBits_of_nan {x : Float} (h : ofFloat x = .nan) :
    x.toBits.toBitVec = Float.Model.UnpackedFloat.packedNaN Format.binary64 := by
  obtain ⟨-, hlast, hfraction⟩ | ⟨hparts, -⟩ | ⟨hparts, -⟩ | ⟨hparts, -⟩ :=
    ofBits_cases x.toBits.toNat
  · exact x.toModel.valid.eq_packedNaN ((unpackExponent_eq_iff _ _).mpr hlast)
      (mt (unpackMantissa_eq_zero_iff _).mp hfraction)
  all_goals cases h.symm.trans hparts

/-- A float is determined by its parts. -/
theorem ofFloat_injective : Function.Injective ofFloat := by
  intro x y h
  apply eq_of_toBits_eq
  by_cases hnan : ofFloat x = .nan
  · have hbits := (toBits_of_nan hnan).trans (toBits_of_nan (h ▸ hnan)).symm
    exact UInt64.toBitVec_inj.mp hbits
  · have hnan' : ofFloat y ≠ .nan := h ▸ hnan
    have hbits := congrArg toBits h
    unfold ofFloat at hbits hnan hnan'
    rw [toBits_ofBits (toNat_toBits_lt x) hnan, toBits_ofBits (toNat_toBits_lt y) hnan'] at hbits
    exact UInt64.toNat_inj.mp hbits

/-- A sign bit as a sign. -/
def sign (negative : Bool) : Sign := if negative then .negative else .positive

/-- The parts of a float as the model of machine arithmetic has them. -/
def unpacked : Binary64 → UnpackedFloat
  | .nan => .notANumber
  | .infinite negative => .infinity (sign negative)
  | .finite negative m e =>
      if h : m = 0 then .zero (sign negative)
      else .finite (sign negative) m e (Nat.pos_of_ne_zero h)

/-- A finite float without a mantissa is a zero. -/
theorem unpacked_zero (negative : Bool) (e : ℤ) :
    (finite negative 0 e).unpacked = .zero (sign negative) := rfl

/-- A finite float with a mantissa is unpacked as it is. -/
theorem unpacked_finite (negative : Bool) {m : ℕ} (hm : 0 < m) (e : ℤ) :
    (finite negative m e).unpacked = UnpackedFloat.finite (sign negative) m e hm :=
  dif_neg hm.ne'

/-- The model of machine arithmetic takes a word apart into the same parts. -/
theorem unpack_eq (bits : BitVec Format.binary64.numBits) :
    UnpackedFloat.unpack Format.binary64 bits = (ofBits bits.toNat).unpacked := by
  have hsign : Sign.ofBitVec (unpackSign bits) = sign (decide (signWeight ≤ bits.toNat)) := by
    have hbits : bits.toNat < 2 * signWeight := bits.isLt
    have hsmall : unpackSign bits = 0#1 ↔ ¬ signWeight ≤ bits.toNat := by
      rw [← BitVec.toNat_inj, toNat_unpackSign]
      show bits.toNat / signWeight % 2 = 0 ↔ _
      unfold signWeight at *
      omega
    unfold Sign.ofBitVec sign
    by_cases hlarge : signWeight ≤ bits.toNat <;> simp [hsmall, hlarge]
  have hlast : unpackExponent bits = -1#_ ↔ bits.toNat / leadingBit % 2048 = 2047 :=
    unpackExponent_eq_iff bits _
  have hfirst : unpackExponent bits = 0#_ ↔ bits.toNat / leadingBit % 2048 = 0 :=
    unpackExponent_eq_iff bits _
  have hbias : (Format.binary64.exponentBias : ℤ) + Format.binary64.mantissaBitsWithoutImplicit =
      1075 := rfl
  have hnormal : (1#1 ++ unpackMantissa bits).toNat = leadingBit + bits.toNat % leadingBit := by
    rw [BitVec.toNat_append, toNat_unpackMantissa, ← Nat.shiftLeft_add_eq_or_of_lt]
    · rfl
    · exact Nat.mod_lt _ (by decide)
  unfold UnpackedFloat.unpack
  simp only [hsign, hbias, toNat_unpackExponent, toNat_unpackMantissa]
  obtain ⟨hparts, hexponent, hfraction⟩ | ⟨hparts, hexponent, hfraction⟩ | ⟨hparts, hexponent⟩ |
    ⟨hparts, hexponent⟩ := ofBits_cases bits.toNat
  · rw [hparts, if_pos (hlast.mpr hexponent),
      if_neg (mt (unpackMantissa_eq_zero_iff bits).mp hfraction)]
    rfl
  · rw [hparts, if_pos (hlast.mpr hexponent),
      if_pos ((unpackMantissa_eq_zero_iff bits).mpr hfraction)]
    rfl
  · rw [hparts, if_neg (by rw [hlast]; omega), if_pos (hfirst.mpr hexponent)]
    have hleast : ((bits.toNat / leadingBit % 2048 : ℕ) : ℤ) - 1075 + 1 = minExponent := by
      rw [hexponent]
      rfl
    by_cases hfraction : bits.toNat % leadingBit = 0
    · simp only [unpacked, dif_pos hfraction,
        dif_pos ((unpackMantissa_eq_zero_iff bits).mpr hfraction)]
    · simp only [hleast, unpacked, dif_neg hfraction,
        dif_neg (mt (unpackMantissa_eq_zero_iff bits).mp hfraction)]
  · rw [hparts, if_neg (by rw [hlast]; omega), if_neg (by rw [hfirst]; omega)]
    have hpos : leadingBit + bits.toNat % leadingBit ≠ 0 := by
      have : 0 < leadingBit := by decide
      omega
    simp only [hnormal, unpacked, dif_neg hpos]

/-- The model of machine arithmetic unpacks a float into its parts. -/
theorem unpack_toModel (x : Float) : x.toModel.unpack = (ofFloat x).unpacked :=
  unpack_eq x.toModel.toBits.toBitVec

/-- Floats are compared by their parts. -/
theorem lt_eq (x y : Float) :
    Number.lt x y = ((ofFloat x).unpacked.compare (ofFloat y).unpacked == some .lt) := by
  rw [← unpack_toModel, ← unpack_toModel]
  show decide (decide (x.toModel < y.toModel) = true) = _
  rw [Bool.decide_eq_true, Bool.eq_iff_iff, decide_eq_true_iff]
  rfl

/-- Equality of floats is that of their parts. -/
theorem eq_eq (x y : Float) :
    Number.eq x y = ((ofFloat x).unpacked.compare (ofFloat y).unpacked == some .eq) := by
  rw [← unpack_toModel, ← unpack_toModel]
  rfl

/-- The parts of a word that is put together from its fields. -/
theorem ofBits_fields (negative : Bool) {exponent fraction : ℕ} (hexponent : exponent < 2048)
    (hfraction : fraction < leadingBit) :
    ofBits (toBits.signBit negative + (exponent * leadingBit + fraction)) =
      if exponent = 2047 then if fraction = 0 then .infinite negative else .nan
      else if exponent = 0 then .finite negative fraction minExponent
      else .finite negative (leadingBit + fraction) (exponent - 1075) := by
  set rest := exponent * leadingBit + fraction with hrest
  have hsign : decide (signWeight ≤ toBits.signBit negative + rest) = negative := by
    have hless : rest < signWeight := by
      unfold leadingBit signWeight at *
      omega
    cases negative <;> simp [toBits.signBit, hless]
  have hfields : (toBits.signBit negative + rest) / leadingBit % 2048 = exponent ∧
      (toBits.signBit negative + rest) % leadingBit = fraction := by
    cases negative <;> simp [toBits.signBit] <;> unfold leadingBit signWeight at * <;> omega
  simp only [ofBits, hsign, hfields.1, hfields.2]

/-- The packed word holds the sign, the exponent and the fraction in their places. -/
theorem toNat_packComponents (negative : Bool) (exponent : BitVec Format.binary64.exponentBits)
    (mantissa : BitVec Format.binary64.mantissaBitsWithoutImplicit) :
    (packComponents Format.binary64 (sign negative) exponent mantissa).toNat =
      toBits.signBit negative + (exponent.toNat * leadingBit + mantissa.toNat) := by
  have hsign : (sign negative).toBitVec.toNat * signWeight = toBits.signBit negative := by
    cases negative <;> rfl
  rw [packComponents, BitVec.toNat_append, ← Nat.shiftLeft_add_eq_or_of_lt mantissa.isLt,
    BitVec.toNat_append, ← Nat.shiftLeft_add_eq_or_of_lt exponent.isLt, ← hsign]
  simp only [Nat.shiftLeft_eq]
  unfold signWeight leadingBit
  omega

/-- Packing into given fields and unpacking again. -/
theorem unpack_of_pack_eq {x : UnpackedFloat} {negative : Bool}
    {exponent : BitVec Format.binary64.exponentBits}
    {mantissa : BitVec Format.binary64.mantissaBitsWithoutImplicit}
    (h : UnpackedFloat.pack Format.binary64 x =
      packComponents Format.binary64 (sign negative) exponent mantissa) :
    (Float.Model.pack x).unpack =
      (ofBits (toBits.signBit negative +
        (exponent.toNat * leadingBit + mantissa.toNat))).unpacked := by
  rw [← toNat_packComponents, ← unpack_eq, ← h]
  rfl

/-- The mantissa and the exponent of a finite float are those of the format. -/
theorem legal_ofFloat {x : Float} {negative : Bool} {m : ℕ} {e : ℤ}
    (h : ofFloat x = .finite negative m e) : Legal m e :=
  legal_ofBits h

end Moire.Binary64
