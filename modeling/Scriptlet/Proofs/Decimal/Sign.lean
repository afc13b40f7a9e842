import Scriptlet.Decimal.Reading

/-!
# Numbers without a minus sign

Two doubles may be equal although their bits are not: there are two zeros. But digits are read
without a sign (`unsigned_ofDigits`), and if two numbers without a minus sign are equal, they are
one number (`eq_of_beq`).

**Bits.** A double is a bit of sign, an exponent and a mantissa. It is unpacked to be calculated
with, and the result is packed. Products and quotients of unpacked numbers without a minus sign
have none, and rounding does not change a sign.
-/

namespace Scriptlet.Decimal

open Float.Model (Format UnpackedFloat)
open Float.Model.UnpackedFloat (Accuracy Sign packComponents unpackExponent unpackMantissa
  unpackSign)

variable {f : Format}

/-! ## Signs of unpacked numbers -/

/-- An unpacked number without a minus sign. -/
def Positive : UnpackedFloat → Prop
  | .infinity s | .zero s | .finite s _ _ _ => s = .positive
  | .notANumber => True

/-- What holds of a number in either case holds of it. -/
theorem cases_of {motive : UnpackedFloat → Prop} {c : Prop} [Decidable c] {u : c → UnpackedFloat}
    {v : ¬c → UnpackedFloat} (hu : ∀ h, motive (u h)) (hv : ∀ h, motive (v h)) :
    motive (dite c u v) := by
  by_cases h : c
  · rw [dif_pos h]
    exact hu h
  · rw [dif_neg h]
    exact hv h

theorem positive_roundWithAccuracy (m : Nat) (e : Int) (a : Accuracy) :
    Positive (.roundWithAccuracy f .positive m e a) := by
  unfold UnpackedFloat.roundWithAccuracy
  exact cases_of (motive := Positive) (fun _ => rfl) fun _ => rfl

theorem positive_ofNat (n : Nat) : Positive (.ofNat f n) := by
  unfold UnpackedFloat.ofNat UnpackedFloat.ofInt UnpackedFloat.normalize
  split
  · next h =>
    have hlt := Int.compare_eq_lt.1 h
    omega
  · rfl
  · exact positive_roundWithAccuracy ..

theorem Positive.mul : ∀ {u v : UnpackedFloat}, Positive u → Positive v → Positive (u.mul f v)
  | .notANumber, _, _, _ | .infinity _, .notANumber, _, _ | .zero _, .notANumber, _, _
  | .finite .., .notANumber, _, _ | .infinity _, .zero _, _, _ | .zero _, .infinity _, _, _ =>
    trivial
  | .infinity _, .infinity _, rfl, rfl | .infinity _, .finite .., rfl, rfl
  | .finite .., .infinity _, rfl, rfl | .finite .., .zero _, rfl, rfl
  | .zero _, .finite .., rfl, rfl | .zero _, .zero _, rfl, rfl => rfl
  | .finite .., .finite .., rfl, rfl => positive_roundWithAccuracy ..

theorem Positive.div : ∀ {u v : UnpackedFloat}, Positive u → Positive v → Positive (u.div f v)
  | .notANumber, _, _, _ | .infinity _, .notANumber, _, _ | .zero _, .notANumber, _, _
  | .finite .., .notANumber, _, _ | .infinity _, .infinity _, _, _ | .zero _, .zero _, _, _ =>
    trivial
  | .infinity _, .zero _, rfl, rfl | .zero _, .infinity _, rfl, rfl
  | .infinity _, .finite .., rfl, rfl | .finite .., .infinity _, rfl, rfl
  | .finite .., .zero _, rfl, rfl | .zero _, .finite .., rfl, rfl => rfl
  | .finite .., .finite .., rfl, rfl => positive_roundWithAccuracy ..

theorem positive_ofScientific (m : Nat) (e : Int) : Positive (.ofScientific f m e) := by
  unfold UnpackedFloat.ofScientific
  refine cases_of (motive := Positive) (fun _ => rfl) fun _ => ?_
  refine cases_of (motive := Positive) (fun _ => rfl) fun _ => ?_
  refine cases_of (motive := Positive) (fun _ => rfl) fun _ => ?_
  exact cases_of (motive := Positive) (fun _ => .mul rfl rfl) fun _ => .div rfl rfl

/-- Unpacked numbers without a minus sign that compare as equal are one. -/
theorem Positive.eq_of_compare : ∀ {u v : UnpackedFloat}, Positive u → Positive v →
    u.compare v = some .eq → u = v
  | .infinity _, .infinity _, rfl, rfl, _ | .zero _, .zero _, rfl, rfl, _ => rfl
  | .finite _ m e _, .finite _ m' e' _, rfl, rfl, h => by
    obtain ⟨he, hm⟩ := Ordering.then_eq_eq.1 (Option.some.inj h)
    obtain rfl := Int.compare_eq_eq.1 he
    obtain rfl := Nat.compare_eq_eq.1 hm
    rfl

/-! ## The bit of sign -/

theorem getLsbD_unpackSign (b : BitVec f.numBits) :
    (unpackSign b).getLsbD 0 = b.getLsbD (f.mantissaBitsWithoutImplicit + f.exponentBits) := by
  show ((b.extractLsb _ _).cast _).getLsbD 0 = _
  simp

theorem unpackSign_packComponents (s : Sign) (e : BitVec f.exponentBits)
    (m : BitVec f.mantissaBitsWithoutImplicit) :
    unpackSign (packComponents f s e m) = s.toBitVec := by
  refine BitVec.eq_of_getLsbD_eq fun i hi => ?_
  obtain rfl : i = 0 := by omega
  have hout : ¬ f.mantissaBitsWithoutImplicit + f.exponentBits < f.mantissaBitsWithoutImplicit := by
    omega
  rw [getLsbD_unpackSign]
  simp [packComponents, BitVec.getLsbD_append, BitVec.getElem_append, hout]

theorem Positive.pack {u : UnpackedFloat} (h : Positive u) : unpackSign (u.pack f) = 0#1 := by
  cases u with
  | notANumber => exact unpackSign_packComponents ..
  | infinity s | zero s =>
    obtain rfl : s = .positive := h
    exact unpackSign_packComponents ..
  | finite s m e hm =>
    obtain rfl : s = .positive := h
    unfold UnpackedFloat.pack
    dsimp only
    split
    · exact unpackSign_packComponents ..
    · split <;> exact unpackSign_packComponents ..

theorem positive_unpack {b : BitVec f.numBits} (h : unpackSign b = 0#1) :
    Positive (.unpack f b) := by
  have hs : Sign.ofBitVec (unpackSign b) = .positive := by
    rw [h]
    rfl
  unfold UnpackedFloat.unpack
  refine cases_of (motive := Positive) (fun _ => ?_) fun _ => ?_
  · exact cases_of (motive := Positive) (fun _ => hs) fun _ => trivial
  · refine cases_of (motive := Positive) (fun _ => ?_) fun _ => hs
    exact cases_of (motive := Positive) (fun _ => hs) fun _ => hs

/-! ## Numbers from their parts -/

/-- What bits are unpacked to, and what this says of their exponent and their mantissa. -/
inductive Unpacks (b : BitVec f.numBits) : UnpackedFloat → Prop
  | infinity (s : Sign) (he : unpackExponent b = -1#_) (hm : unpackMantissa b = 0#_) :
    Unpacks b (.infinity s)
  | notANumber : Unpacks b .notANumber
  | zero (s : Sign) (he : unpackExponent b = 0#_) (hm : unpackMantissa b = 0#_) :
    Unpacks b (.zero s)
  | subnormal (s : Sign) (m : Nat) (e : Int) (hpos : 0 < m) (he : unpackExponent b = 0#_)
    (hm : m = (unpackMantissa b).toNat) : Unpacks b (.finite s m e hpos)
  | normal (s : Sign) (m : Nat) (e : Int) (hpos : 0 < m)
    (he : e = (unpackExponent b).toNat - (f.exponentBias + f.mantissaBitsWithoutImplicit : Int))
    (hm : m = (1#1 ++ unpackMantissa b).toNat) : Unpacks b (.finite s m e hpos)

theorem unpacks (b : BitVec f.numBits) : Unpacks b (.unpack f b) := by
  unfold UnpackedFloat.unpack
  refine cases_of (motive := Unpacks b) (fun he => ?_) fun _ => ?_
  · exact cases_of (motive := Unpacks b) (fun hm => .infinity _ he hm) fun _ => .notANumber
  · refine cases_of (motive := Unpacks b) (fun he => ?_) fun _ => .normal _ _ _ _ rfl rfl
    exact cases_of (motive := Unpacks b) (fun hm => .zero _ he hm)
      fun _ => .subnormal _ _ _ _ he rfl

/-- The bit in front of a mantissa makes it greater than all mantissas without it, by the same for
all. -/
theorem exists_implicit (n : Nat) :
    ∃ bit, ∀ m : BitVec n, m.toNat < bit ∧ (1#1 ++ m).toNat = bit + m.toNat := by
  refine ⟨1 <<< n, fun m => ⟨?_, ?_⟩⟩
  · rw [Nat.shiftLeft_eq, Nat.one_mul]
    exact m.isLt
  · rw [BitVec.toNat_append, ← Nat.shiftLeft_add_eq_or_of_lt m.isLt]
    rfl

/-- Bits that are unpacked to one number have the same exponent and the same mantissa. -/
theorem Unpacks.parts {b b' : BitVec f.numBits} {u : UnpackedFloat} (h : Unpacks b u)
    (h' : Unpacks b' u) (hu : u ≠ .notANumber) :
    unpackExponent b = unpackExponent b' ∧ unpackMantissa b = unpackMantissa b' := by
  obtain ⟨bit, hbit⟩ := exists_implicit f.mantissaBitsWithoutImplicit
  obtain ⟨hlt, himplicit⟩ := hbit (unpackMantissa b)
  obtain ⟨hlt', himplicit'⟩ := hbit (unpackMantissa b')
  cases h with
  | infinity _ he hm =>
    cases h' with
    | infinity _ he' hm' => exact ⟨he.trans he'.symm, hm.trans hm'.symm⟩
  | notANumber => exact absurd rfl hu
  | zero _ he hm =>
    cases h' with
    | zero _ he' hm' => exact ⟨he.trans he'.symm, hm.trans hm'.symm⟩
  | subnormal _ _ _ _ he hm =>
    cases h' with
    | subnormal _ _ _ _ he' hm' =>
      exact ⟨he.trans he'.symm, BitVec.eq_of_toNat_eq (hm.symm.trans hm')⟩
    | normal _ _ _ _ he' hm' => omega
  | normal _ _ _ _ he hm =>
    cases h' with
    | subnormal _ _ _ _ he' hm' => omega
    | normal _ _ _ _ he' hm' =>
      exact ⟨BitVec.eq_of_toNat_eq (by omega), BitVec.eq_of_toNat_eq (by omega)⟩

/-- Bits with the same parts are the same. -/
theorem eq_of_parts {b b' : BitVec f.numBits} (hs : unpackSign b = unpackSign b')
    (he : unpackExponent b = unpackExponent b') (hm : unpackMantissa b = unpackMantissa b') :
    b = b' := by
  have hpos := f.hm
  have hpos' := f.he
  refine BitVec.eq_of_getLsbD_eq fun i hi => ?_
  by_cases hlow : i < f.mantissaBitsWithoutImplicit
  · have h := congrArg (BitVec.getLsbD · i) hm
    simpa [unpackMantissa, hlow, show i ≤ f.mantissaBitsWithoutImplicit - 1 by omega] using h
  · by_cases hmid : i < f.mantissaBitsWithoutImplicit + f.exponentBits
    · have h := congrArg (BitVec.getLsbD · (i - f.mantissaBitsWithoutImplicit)) he
      have hi' : i - f.mantissaBitsWithoutImplicit < f.mantissaBitsWithoutImplicit +
          f.exponentBits - 1 - f.mantissaBitsWithoutImplicit + 1 := by
        omega
      simpa only [unpackExponent, BitVec.getLsbD_cast, BitVec.getLsbD_extractLsb, hi',
        decide_true, Bool.true_and, Nat.add_sub_cancel' (Nat.not_lt.1 hlow)] using h
    · have h := congrArg (BitVec.getLsbD · 0) hs
      obtain rfl : i = f.mantissaBitsWithoutImplicit + f.exponentBits := by
        unfold Format.numBits at hi
        omega
      rwa [getLsbD_unpackSign, getLsbD_unpackSign] at h

/-! ## Doubles -/

/-- The bits of a double. -/
def bits (x : Float) : BitVec Format.binary64.numBits := x.toBits.toBitVec

/-- A double whose bit of sign is not set. -/
def Unsigned (x : Float) : Prop := unpackSign (bits x) = 0#1

theorem Unsigned.mul {x y : Float} (hx : Unsigned x) (hy : Unsigned y) : Unsigned (x * y) :=
  ((positive_unpack hx).mul (positive_unpack hy)).pack

theorem Unsigned.div {x y : Float} (hx : Unsigned x) (hy : Unsigned y) : Unsigned (x / y) :=
  ((positive_unpack hx).div (positive_unpack hy)).pack

theorem unsigned_powerOfTen : ∀ x ∈ Float.exactlyRepresentablePowersOfTen.toList, Unsigned x := by
  unfold Unsigned
  decide +kernel

theorem unsigned_ofScientific (m : Nat) (s : Bool) (e : Nat) :
    Unsigned (Float.ofScientific m s e) := by
  unfold Float.ofScientific
  split
  · have hm : Unsigned m.toUInt64.toFloat := (positive_ofNat _).pack
    have he : ∀ h : e < Float.exactlyRepresentablePowersOfTen.size,
        Unsigned Float.exactlyRepresentablePowersOfTen[e] := fun h =>
      unsigned_powerOfTen _ (Array.getElem_mem_toList h)
    dsimp only
    split
    · exact hm.div (he _)
    · exact hm.mul (he _)
  · exact (positive_ofScientific _ _).pack

/-- Digits are read without a sign. -/
theorem unsigned_ofDigits (whole fraction : List Nat) (exponent : Int) :
    Unsigned (ofDigits whole fraction exponent) :=
  unsigned_ofScientific ..

/-- **Equal numbers without a minus sign are one.** -/
theorem Unsigned.eq_of_beq {x y : Float} (hx : Unsigned x) (hy : Unsigned y)
    (h : (x == y) = true) : x = y := by
  have hcompare : x.toModel.unpack.compare y.toModel.unpack = some .eq := LawfulBEq.eq_of_beq h
  have hunpack := (positive_unpack hx).eq_of_compare (positive_unpack hy) hcompare
  have hnumber : x.toModel.unpack ≠ .notANumber := by
    intro hn
    rw [hn] at hcompare
    cases hcompare
  obtain ⟨he, hm⟩ := (unpacks (bits x)).parts (hunpack ▸ unpacks (bits y)) hnumber
  have hbits := eq_of_parts (hx.trans hy.symm) he hm
  obtain ⟨⟨xbits, _⟩⟩ := x
  obtain ⟨⟨ybits, _⟩⟩ := y
  obtain rfl : xbits = ybits := UInt64.toBitVec_inj.1 hbits
  rfl

end Scriptlet.Decimal
