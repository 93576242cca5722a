import CoreWar.Arena

/-!
# Points as exact numbers

The points for owned cells are a floating-point product, and a fraction of a point is
lost.  That this gives the floor of the product, and that nothing is cut off at the
largest integer there is, needs a bound on the product.

A floating-point number is `Bounded` by `k` if it is not negative and is a mantissa of
at most fifty-three bits times a power of two with an exponent of at most `k`.
Rounding keeps such bounds (`bounded_roundWithAccuracy`), and so does a multiplication,
with the sum of the exponents and a few bits more (`bounded_mul`).  The weight of a
cell and the number of cells are small enough for the product to be bounded by zero;
then dropping the fraction is taking the floor (`toUInt64_eq_floor`).
-/

namespace CoreWar
namespace Points

open Float.Model Float.Model.UnpackedFloat

/-- The number that a mantissa and an exponent stand for.  What is not finite counts as
zero. -/
def valueOf : UnpackedFloat → Rat
  | .finite s m e _ => mkRat (s.apply (m <<< e.toNat : Nat)) (1 <<< (-e).toNat)
  | _ => 0

/-- The number that a floating-point number stands for. -/
def value (x : Float) : Rat := valueOf x.toModel.unpack

/-- A number that is not negative, with a mantissa of at most fifty-three bits and an
exponent of at most `k`. -/
inductive Bounded (k : Int) : UnpackedFloat → Prop
  | zero (s : Sign) : Bounded k (.zero s)
  | finite {m : Nat} {e : Int} (hpos : 0 < m) (hm : m < 0x20000000000000) (he : e ≤ k) :
      Bounded k (.finite .positive m e hpos)

theorem Bounded.mono {k l : Int} {u : UnpackedFloat} (h : Bounded k u) (hkl : k ≤ l) :
    Bounded l u := by
  cases h with
  | zero s => exact .zero s
  | finite hpos hm he => exact .finite hpos hm (Int.le_trans he hkl)

/-! ## Rounding -/

theorem log2_lt {m k : Nat} (hk : 0 < k) (hm : m < 1 <<< k) : m.log2 < k := by
  rw [Nat.one_shiftLeft] at hm
  by_cases hzero : m = 0
  · rw [hzero]
    exact hk
  · exact (Nat.log2_lt hzero).mpr hm

/-- A mantissa that loses all bits but fifty-three. -/
theorem shiftRight_lt {m n : Nat} (h : m.log2 ≤ n + 52) : m >>> n < 0x20000000000000 := by
  rw [Nat.shiftRight_eq_div_pow, Nat.div_lt_iff_lt_mul (Nat.two_pow_pos n)]
  calc m < 2 ^ (m.log2 + 1) := Nat.lt_log2_self
    _ ≤ 2 ^ (53 + n) := Nat.pow_le_pow_right (by decide) (by omega)
    _ = 0x20000000000000 * 2 ^ n := Nat.pow_add 2 53 n

theorem mantissa_shiftRight (em : ExtendedMantissa) (n : Nat) :
    (em >>> n).mantissa = em.mantissa >>> n := by
  induction n with
  | zero => rfl
  | succ n ih =>
      change (em >>> n).mantissa / 2 = em.mantissa >>> (n + 1)
      rw [ih, Nat.shiftRight_succ]

theorem roundedMantissa_le (em : ExtendedMantissa) : em.roundedMantissa ≤ em.mantissa + 1 := by
  obtain ⟨m, round, sticky⟩ := em
  cases round with
  | false => cases sticky <;> exact Nat.le_succ m
  | true =>
      cases sticky with
      | false =>
          change m + m % 2 ≤ m + 1
          omega
      | true => exact Nat.le_refl _

theorem targetExponent_eq (e : Int) :
    Format.binary64.targetExponent e = max (e - 53) (-1074) := rfl

/-- Where a number is brought to its exponent, the mantissa loses the bits that it has
too many. -/
theorem shiftToTargetExponent_spec (m : Nat) (e : Int) (a : Accuracy) :
    ∃ n : Nat, (shiftToTargetExponent Format.binary64 m e a).1.mantissa = m >>> n ∧
      (shiftToTargetExponent Format.binary64 m e a).2 = e + n ∧
      m.log2 ≤ n + 52 ∧ -1074 ≤ e + n ∧
      (n = 0 ∨ (n : Int) ≤ m.log2 - 52 ∨ e + n = -1074) := by
  refine ⟨(Format.binary64.targetExponent (totalExponent m e) - e).toNat, ?_, rfl, ?_⟩
  · unfold shiftToTargetExponent shiftToExponent
    rw [mantissa_shiftRight]
    congr 1
    unfold ExtendedMantissa.ofMantissaAndAccuracy
    split <;> rfl
  · rw [targetExponent_eq]
    unfold totalExponent
    omega

/-- Rounding raises the exponent by the number of bits that are lost, or by one more. -/
theorem bounded_roundWithAccuracy {m : Nat} {e k : Int} (a : Accuracy) (he : e + 1 ≤ k)
    (hbits : m.log2 + e ≤ k + 51) (hk : -1073 ≤ k) :
    Bounded k (roundWithAccuracy Format.binary64 .positive m e a) := by
  obtain ⟨n, hmantissa, hexponent, hlog, hmin, hmax⟩ := shiftToTargetExponent_spec m e a
  unfold roundWithAccuracy
  cases hfirst : shiftToTargetExponent Format.binary64 m e a with
  | mk em e₁ =>
      rw [hfirst] at hmantissa hexponent
      dsimp only at hmantissa hexponent
      obtain ⟨n', hmantissa', hexponent', hlog', hmin', hmax'⟩ :=
        shiftToTargetExponent_spec em.roundedMantissa e₁ .exact
      -- A carry gives at most `2 ^ 53`, so the second shift is by at most one.
      have hrounded : em.roundedMantissa ≤ 0x20000000000000 := by
        have hle := roundedMantissa_le em
        have hlt := shiftRight_lt hlog
        omega
      have hcarry : em.roundedMantissa.log2 < 54 := log2_lt (by decide) (by omega)
      dsimp only
      by_cases hzero :
          (shiftToTargetExponent Format.binary64 em.roundedMantissa e₁ .exact).1.mantissa = 0
      · rw [dif_pos hzero]
        exact .zero _
      · rw [dif_neg hzero]
        apply Bounded.finite
        · rw [hmantissa']
          exact shiftRight_lt hlog'
        · rw [hexponent']
          omega

theorem bounded_mul {k l : Int} {u v : UnpackedFloat} (hu : Bounded k u) (hv : Bounded l v)
    (h : -1073 ≤ k + l + 54) : Bounded (k + l + 54) (UnpackedFloat.mul Format.binary64 u v) := by
  cases hu with
  | zero s => cases hv with
    | zero t => exact .zero _
    | finite => exact .zero _
  | @finite m e _ hm he => cases hv with
    | zero t => exact .zero _
    | @finite m' e' _ hm' he' =>
        have hproduct : m * m' < 1 <<< 106 :=
          Nat.lt_of_lt_of_le (Nat.mul_lt_mul'' hm hm') (by decide)
        have hbits := log2_lt (by decide) hproduct
        exact bounded_roundWithAccuracy .exact (by omega) (by omega) h

/-- A number of at most fifty-three bits. -/
theorem bounded_ofNat {n : Nat} (h : n.log2 ≤ 52) :
    Bounded (n.log2 - 51) (UnpackedFloat.ofNat Format.binary64 n) := by
  change Bounded _ (UnpackedFloat.normalize Format.binary64 (n : Int) 0 .positive)
  unfold UnpackedFloat.normalize
  split
  next hneg =>
    rw [Int.compare_eq_lt] at hneg
    omega
  · exact .zero _
  · have htarget : Format.binary64.targetExponent (totalExponent n 0) = n.log2 - 52 := by
      rw [targetExponent_eq]
      unfold totalExponent
      omega
    have hshift : (0 - ((n.log2 : Int) - 52)).toNat = 52 - n.log2 := by omega
    have hbits : (n <<< (52 - n.log2)).log2 < 53 := by
      apply log2_lt (by decide)
      rw [Nat.shiftLeft_eq]
      calc n * 2 ^ (52 - n.log2)
          < 2 ^ (n.log2 + 1) * 2 ^ (52 - n.log2) :=
            Nat.mul_lt_mul_of_pos_right Nat.lt_log2_self (Nat.two_pow_pos _)
        _ = 2 ^ 53 := by rw [← Nat.pow_add, show n.log2 + 1 + (52 - n.log2) = 53 by omega]
        _ = 1 <<< 53 := rfl
    simp only [UnpackedFloat.round, Int.toNat_natCast, htarget, decreaseExponent, hshift]
    exact bounded_roundWithAccuracy .exact (by omega) (by omega) (by omega)

/-! ## Packing -/

theorem ofBitVec_unpackSign (s : Sign) (e : BitVec 11) (m : BitVec 52) :
    Sign.ofBitVec (unpackSign (packComponents Format.binary64 s e m)) = s := by
  have hbit : (s.toBitVec ++ e ++ m).getLsbD 63 = s.toBitVec[0] := by
    rw [BitVec.getLsbD_append, BitVec.getLsbD_append]
    rfl
  have hsign : unpackSign (packComponents Format.binary64 s e m) = s.toBitVec := by
    apply BitVec.eq_of_getElem_eq
    intro i hi
    obtain rfl : i = 0 := by omega
    change (BitVec.cast _ (BitVec.extractLsb' 63 1 _))[0] = _
    rw [BitVec.getElem_cast, BitVec.getElem_extractLsb']
    exact hbit
  rw [hsign]
  cases s <;> rfl

/-- Unpacking gives a mantissa of at most fifty-three bits. -/
theorem mantissa_lt_of_unpack {b : BitVec 64} {s : Sign} {m : Nat} {e : Int} {hm : 0 < m}
    (h : UnpackedFloat.unpack Format.binary64 b = .finite s m e hm) : m < 0x20000000000000 := by
  unfold UnpackedFloat.unpack at h
  dsimp only at h
  by_cases hones : @unpackExponent Format.binary64 b = -1#11
  · rw [if_pos hones] at h
    by_cases hzero : @unpackMantissa Format.binary64 b = 0#52
    · rw [if_pos hzero] at h
      cases h
    · rw [if_neg hzero] at h
      cases h
  · rw [if_neg hones] at h
    by_cases hsmall : @unpackExponent Format.binary64 b = 0#11
    · rw [if_pos hsmall] at h
      by_cases hzero : @unpackMantissa Format.binary64 b = 0#52
      · rw [dif_pos hzero] at h
        cases h
      · rw [dif_neg hzero] at h
        cases h
        exact Nat.lt_trans (@unpackMantissa Format.binary64 b).isLt (by decide)
    · rw [if_neg hsmall] at h
      cases h
      exact BitVec.isLt _

theorem bounded_unpack {k : Int} {b : BitVec 64}
    (hsign : Sign.ofBitVec (@unpackSign Format.binary64 b) = .positive)
    (he : @unpackExponent Format.binary64 b ≠ -1#11) (hk : -1074 ≤ k)
    (hek : ((@unpackExponent Format.binary64 b).toNat : Int) - 1075 ≤ k) :
    Bounded k (UnpackedFloat.unpack Format.binary64 b) := by
  have hm := (@unpackMantissa Format.binary64 b).isLt
  unfold UnpackedFloat.unpack
  dsimp only
  rw [if_neg he, hsign]
  by_cases hzero : @unpackExponent Format.binary64 b = 0#11
  · rw [if_pos hzero]
    by_cases hnone : @unpackMantissa Format.binary64 b = 0#52
    · rw [dif_pos hnone]
      exact .zero _
    · rw [dif_neg hnone, hzero]
      exact .finite _ (Nat.lt_trans hm (by decide)) hk
  · rw [if_neg hzero]
    exact .finite _ (BitVec.isLt _) hek

theorem bounded_unpack_packComponents {k : Int} {e : BitVec 11} (m : BitVec 52)
    (he : e ≠ -1#11) (hk : -1074 ≤ k) (hek : (e.toNat : Int) - 1075 ≤ k) :
    Bounded k
      (UnpackedFloat.unpack Format.binary64 (packComponents Format.binary64 .positive e m)) := by
  apply bounded_unpack
  · exact ofBitVec_unpackSign _ _ _
  · rwa [unpackExponent_packComponents]
  · exact hk
  · rwa [unpackExponent_packComponents]

/-- A number that does not overflow keeps its bound when it is packed. -/
theorem Bounded.unpack_pack {k : Int} {u : UnpackedFloat} (h : Bounded k u) (hk : -1074 ≤ k)
    (hk' : k ≤ 970) : Bounded k (Float.Model.pack u).unpack := by
  cases h with
  | zero s => cases s <;> exact .zero _
  | @finite m e hpos hm he =>
      have hbias : (e + Format.binary64.exponentBias + 52).toNat = (e + 1075).toNat :=
        congrArg Int.toNat (Int.add_assoc e 1023 52)
      change Bounded k (UnpackedFloat.unpack Format.binary64 (UnpackedFloat.pack Format.binary64 _))
      unfold UnpackedFloat.pack
      simp only [Int.cast_ofNat_Int, hbias]
      -- The exponent is not so large that the number would be packed as infinity.
      rw [if_neg (by omega)]
      split
      · have hfield : (BitVec.ofNat 11 (e + 1075).toNat).toNat = (e + 1075).toNat := by
          rw [BitVec.toNat_ofNat]
          omega
        have hfinite : BitVec.ofNat 11 (e + 1075).toNat ≠ -1#11 := by
          intro hones
          rw [hones] at hfield
          have hall : (-1#11).toNat = 2047 := rfl
          omega
        have hexponent : ((BitVec.ofNat 11 (e + 1075).toNat).toNat : Int) - 1075 ≤ k := by
          omega
        exact bounded_unpack_packComponents _ hfinite hk hexponent
      · have hsubnormal : (0 : Int) - 1075 ≤ k := by omega
        exact bounded_unpack_packComponents _ (by decide) hk hsubnormal

/-! ## The floor -/

theorem floor_mkRat (n : Int) {d : Nat} (hd : d ≠ 0) : (mkRat n d).floor = n / d := by
  rcases h : mkRat n d with ⟨num, den, hden, hcoprime⟩
  obtain ⟨m, hm, rfl, rfl⟩ := Rat.mkRat_num_den hd h
  rw [Rat.floor_def, Int.natCast_mul]
  exact (Int.mul_ediv_mul_of_pos_left _ _ (by omega)).symm

/-- A mantissa whose exponent is not positive loses its fraction. -/
theorem roundToInt_of_nonpos (m : Nat) {e : Int} (he : e ≤ 0) :
    roundToInt .positive m e = (m >>> (-e).toNat : Nat) := by
  have hleft : (e - 0).toNat = 0 := Int.toNat_of_nonpos (by omega)
  have hright : (0 - (e - (0 : Nat))).toNat = (-e).toNat := by omega
  simp only [roundToInt, decreaseExponent, shiftToExponent, hleft, hright, mantissa_shiftRight,
    Nat.shiftLeft_zero]
  rfl

theorem floor_valueOf_of_nonpos {m : Nat} (hpos : 0 < m) {e : Int} (he : e ≤ 0) :
    (valueOf (.finite .positive m e hpos)).floor = (m >>> (-e).toNat : Nat) := by
  have hshift : e.toNat = 0 := Int.toNat_of_nonpos he
  change (mkRat (m <<< e.toNat : Nat) (1 <<< (-e).toNat)).floor = _
  rw [hshift, Nat.shiftLeft_zero, floor_mkRat _ (by simp), Nat.shiftRight_eq_div_pow,
    Nat.one_shiftLeft, Int.natCast_ediv]

theorem toUInt64_eq_floor_valueOf {u : UnpackedFloat} (h : Bounded 0 u) :
    (u.toUInt64.toNat : Int) = (valueOf u).floor ∧ u.toUInt64.toNat < 0x20000000000000 := by
  cases h with
  | zero s => exact ⟨rfl, (by decide : 0 < 0x20000000000000)⟩
  | @finite m e hpos hm he =>
      have hsize : UInt64.size = 18446744073709551616 := rfl
      have hle : m >>> (-e).toNat ≤ m := Nat.shiftRight_le _ _
      have hword : (UnpackedFloat.toUInt64 (.finite .positive m e hpos)).toNat
          = m >>> (-e).toNat := by
        change (UInt64.ofNatClamp (roundToInt .positive m e).toNat).toNat = _
        rw [roundToInt_of_nonpos m he, Int.toNat_natCast, UInt64.ofNatClamp, dif_pos (by omega),
          UInt64.toNat_ofNatLT]
      rw [hword, floor_valueOf_of_nonpos hpos he]
      exact ⟨rfl, by omega⟩

/-- Dropping the fraction of a bounded number gives its floor. -/
theorem toUInt64_eq_floor {x : Float} (h : Bounded 0 x.toModel.unpack) :
    (x.toUInt64.toNat : Int) = (value x).floor ∧ x.toUInt64.toNat < 0x20000000000000 :=
  toUInt64_eq_floor_valueOf h

/-! ## Weights and cells -/

/-- A weight in the range that rules allow. -/
theorem bounded_weight {x : Float} (hleast : Float.ofNat 0 ≤ x)
    (hmost : x ≤ Float.ofNat 0xFFFFFFFF) : Bounded (-21) x.toModel.unpack := by
  have hleast : UnpackedFloat.le (.zero .positive) x.toModel.unpack = true :=
    of_decide_eq_true hleast
  have hmost : UnpackedFloat.le x.toModel.unpack
      (.finite .positive 0x1FFFFFFFE00000 (-21) (by decide)) = true := of_decide_eq_true hmost
  cases hx : x.toModel.unpack with
  | notANumber =>
      rw [hx] at hleast
      cases hleast
  | infinity s =>
      rw [hx] at hleast hmost
      cases s with
      | negative => cases hleast
      | positive => cases hmost
  | zero s => exact .zero s
  | finite s m e hpos =>
      have hm := mantissa_lt_of_unpack hx
      rw [hx] at hleast hmost
      cases s with
      | negative => cases hleast
      | positive =>
          -- Mantissas of different exponents do not compare, but the exponents do.
          change ((compare e (-21)).then (compare m 0x1FFFFFFFE00000)).isLE = true at hmost
          exact .finite hpos hm (Std.isLE_compare.mp (Ordering.isLE_left_of_isLE_then hmost))

/-- A number of up to fifty-three bits is turned into a floating-point number by way of
a word. -/
theorem ofNat_eq {n : Nat} (h : n < 0x20000000000000) :
    Float.ofNat n = n.toUInt64.toFloat * Float.ofBits 0x3FF0000000000000 := by
  unfold Float.ofNat OfScientific.ofScientific instOfScientificFloat Float.ofScientific
  dsimp only
  rw [dif_pos ⟨h, by decide⟩]
  rfl

theorem bounded_cells {n : Nat} (h : n ≤ Arena.size) :
    Bounded (-33) (Float.ofNat n).toModel.unpack := by
  have hsize : Arena.size = 65536 := rfl
  have hword : n.toUInt64.toNat = n := Nat.mod_eq_of_lt (by omega)
  have hlog : n.log2 < 17 := log2_lt (by decide) (by simp only [Nat.one_shiftLeft]; omega)
  have hcells : Bounded (-35) n.toUInt64.toFloat.toModel.unpack := by
    have hexact := bounded_ofNat (n := n.toUInt64.toNat) (by rw [hword]; omega)
    have hmono := hexact.mono (l := -35) (by rw [hword]; omega)
    exact hmono.unpack_pack (by decide) (by decide)
  have hone : Bounded (-52) (Float.ofBits 0x3FF0000000000000).toModel.unpack :=
    .finite (m := 0x10000000000000) (by decide) (by decide) (Int.le_refl _)
  rw [ofNat_eq (by omega)]
  exact (bounded_mul hcells hone (by decide)).unpack_pack (by decide) (by decide)

/-- The points for cells are the floor of the product that counts them. -/
theorem points_eq_floor {weight : Float} (hleast : Float.ofNat 0 ≤ weight)
    (hmost : weight ≤ Float.ofNat 0xFFFFFFFF) {cells : Nat} (hcells : cells ≤ Arena.size) :
    ((weight * Float.ofNat cells).toUInt64.toNat : Int)
        = (value (weight * Float.ofNat cells)).floor ∧
      (weight * Float.ofNat cells).toUInt64.toNat < 0x20000000000000 := by
  have hproduct := bounded_mul (bounded_weight hleast hmost) (bounded_cells hcells) (by decide)
  exact toUInt64_eq_floor (hproduct.unpack_pack (by decide) (by decide))

end Points
end CoreWar
