import Xv6Prng.AesLayers
import Xv6Prng.Library.BinaryField

/-!
# Bytes as elements of GF(2^8)

The field is the ring of polynomials over two elements modulo `X^8 + X^4 + X^3 + X + 1`.
`xTimes` is multiplication by the root and `mult` the product of the field; that the
modulus is irreducible follows from the inverses that the table of the S-box holds under
its affine map.
-/

noncomputable section

namespace Xv6Prng.Aes

open ByteWords BinaryField Polynomial

def modulus : (ZMod 2)[X] := X ^ 8 + X ^ 4 + X ^ 3 + X + 1

abbrev GF : Type := AdjoinRoot modulus

abbrev GF.x : GF := AdjoinRoot.root modulus

theorem modulus_eq : modulus = X ^ 8 + poly (0x1b : Byte) := by
  have hpoly : poly (0x1b : Byte) = X ^ 4 + X ^ 3 + X + 1 := by
    rw [poly]
    simp [Finset.sum_range_succ]
    ring
  rw [hpoly, modulus]
  ring

theorem modulus_monic : modulus.Monic := by
  rw [modulus_eq]
  exact monic_X_pow_add (degree_poly_lt _)

theorem modulus_natDegree : modulus.natDegree = 8 := by
  have hlt : (poly (0x1b : Byte)).degree < (X ^ 8 : (ZMod 2)[X]).degree := by
    rw [degree_X_pow]
    exact degree_poly_lt _
  rw [modulus_eq, natDegree_eq_of_degree_eq (degree_add_eq_left_of_degree_lt hlt), natDegree_X_pow]

def toField : Byte ≃ GF := wordEquiv modulus_monic modulus_natDegree

theorem toField_xor (a b : Byte) : toField (a ^^^ b) = toField a + toField b := word_xor modulus a b

@[simp] theorem toField_zero : toField 0 = 0 := word_zero modulus

@[simp] theorem toField_one : toField 1 = 1 := word_one modulus (by decide)

theorem and_one_ne_zero : ∀ b : Byte, b &&& 1 ≠ 0 ↔ b.getLsbD 0 = true := by decide +kernel

theorem toField_halve (b : Byte) :
    toField b = (if b &&& 1 ≠ 0 then (1 : GF) else 0) + GF.x * toField (b >>> 1) := by
  simp only [and_one_ne_zero]
  exact word_eq_halve modulus b

theorem toField_xTimes (b : Byte) : toField (xTimes b) = GF.x * toField b := by
  have hshift := root_mul_word modulus (by decide) modulus_eq b
  rw [xTimes_eq, toField_xor, apply_ite toField, toField_zero]
  exact hshift.symm

theorem toField_multLoop {fuel : ℕ} {mul : Byte} (h : mul.toNat < 2 ^ fuel) (i result : Byte) :
    toField (multLoop fuel mul i result) =
      toField result + GF.x * toField i * toField mul := by
  induction fuel generalizing mul i result with
  | zero =>
    obtain rfl : mul = 0 := BitVec.eq_of_toNat_eq (by simpa using h)
    rw [multLoop, toField_zero, mul_zero, add_zero]
  | succ fuel ih =>
    have hhalf : (mul >>> 1).toNat < 2 ^ fuel := by
      rw [BitVec.toNat_ushiftRight, Nat.shiftRight_one]
      omega
    rw [multLoop]
    split_ifs with h0 h1
    · rw [h0, toField_zero, mul_zero, add_zero]
    · rw [ih hhalf, toField_xor, toField_xTimes, toField_halve mul, if_pos h1]
      ring
    · rw [ih hhalf, toField_xTimes, toField_halve mul, if_neg h1]
      ring

theorem toField_mult (a b : Byte) : toField (mult a b) = toField a * toField b := by
  have hhalf : (a >>> 1).toNat < 2 ^ 8 := BitVec.isLt _
  rw [mult, toField_multLoop hhalf, toField_halve a]
  split_ifs with h
  · rw [toField_xor, toField_zero]
    ring
  · rw [toField_zero]
    ring

/-- `b'_i = b_i + b_{i+4} + b_{i+5} + b_{i+6} + b_{i+7} + c_i`, indices modulo 8, with
`c` the bits of `0x63`. -/
def affine (b : Byte) : Byte :=
  BitVec.ofFnLE fun i : Fin 8 =>
    b[i] ^^ b[i + 4] ^^ b[i + 5] ^^ b[i + 6] ^^ b[i + 7] ^^ (0x63 : Byte)[i]

def unaffine (b : Byte) : Byte :=
  BitVec.ofFnLE fun i : Fin 8 => b[i + 2] ^^ b[i + 5] ^^ b[i + 7] ^^ (0x05 : Byte)[i]

theorem affine_unaffine : ∀ b : Byte, affine (unaffine b) = b := by decide +kernel

theorem mult_unaffine_sBox : ∀ b : Byte, b ≠ 0 → mult b (unaffine (sBox b)) = 1 := by
  decide +kernel

instance : Fact (Irreducible modulus) := by
  refine ⟨irreducible_of_inverses modulus_monic modulus_natDegree (by decide) fun b hb => ?_⟩
  refine ⟨unaffine (sBox b), (toField_mult b (unaffine (sBox b))).symm.trans ?_⟩
  rw [mult_unaffine_sBox b hb, toField_one]

instance : CharP GF 2 := charP_of_injective_algebraMap (algebraMap (ZMod 2) GF).injective 2

/-- The S-box of the standard: inversion, with zero its own inverse, then the affine map. -/
def fieldSBox (a : GF) : GF := toField (affine (toField.symm a⁻¹))

theorem toField_sBox (b : Byte) : toField (sBox b) = fieldSBox (toField b) := by
  have hinv : (toField b)⁻¹ = toField (unaffine (sBox b)) := by
    by_cases hb : b = 0
    · subst hb
      rw [toField_zero, inv_zero, show unaffine (sBox 0) = 0 by decide +kernel, toField_zero]
    · rw [inv_eq_of_mul_eq_one_right]
      rw [← toField_mult, mult_unaffine_sBox b hb, toField_one]
  rw [fieldSBox, hinv, Equiv.symm_apply_apply, affine_unaffine]

end Xv6Prng.Aes

end
