import Mathlib

/-!
# Words as polynomials over the field of two elements

A word of `n` bits is the polynomial with those bits as coefficients, and modulo a monic
polynomial of degree `n` the words are exactly the residue classes. Exclusive or is then
addition, and the two shifts by one bit are what a shift-and-add multiplication needs of
multiplication by the indeterminate.
-/

noncomputable section

namespace BinaryField

open Polynomial

variable {n : ℕ}

def poly (x : BitVec n) : (ZMod 2)[X] :=
  ∑ i ∈ Finset.range n, if x.getLsbD i then X ^ i else 0

theorem coeff_poly (x : BitVec n) (i : ℕ) :
    (poly x).coeff i = if x.getLsbD i then 1 else 0 := by
  have hterm (j : ℕ) : (if x.getLsbD j then (X : (ZMod 2)[X]) ^ j else 0).coeff i =
      if i = j then (if x.getLsbD j then 1 else 0) else 0 := by
    split_ifs <;> simp_all [coeff_X_pow]
  rw [poly, finsetSum_coeff, Finset.sum_congr rfl fun j _ => hterm j, Finset.sum_ite_eq]
  split_ifs with hi hbit hbit
  · rfl
  · rfl
  · exact absurd (Finset.mem_range.mpr (BitVec.lt_of_getLsbD hbit)) hi
  · rfl

theorem poly_xor (x y : BitVec n) : poly (x ^^^ y) = poly x + poly y := by
  ext i
  rw [coeff_add, coeff_poly, coeff_poly, coeff_poly, BitVec.getLsbD_xor]
  cases x.getLsbD i <;> cases y.getLsbD i <;> decide

theorem poly_zero : poly (0 : BitVec n) = 0 := by
  ext i
  simp [coeff_poly]

theorem poly_one (hn : 0 < n) : poly (1 : BitVec n) = 1 := by
  ext i
  rw [coeff_poly, coeff_one]
  simp [BitVec.getLsbD_one, hn, eq_comm]

theorem degree_poly_lt (x : BitVec n) : (poly x).degree < n := by
  rw [degree_lt_iff_coeff_zero]
  intro i hi
  rw [coeff_poly, BitVec.getLsbD_of_ge x i hi]
  rfl

theorem poly_injective : Function.Injective (poly (n := n)) := by
  intro x y h
  apply BitVec.eq_of_getLsbD_eq
  intro i _
  have hc := congrArg (fun p => p.coeff i) h
  simp only [coeff_poly] at hc
  cases hx : x.getLsbD i <;> cases hy : y.getLsbD i <;> simp_all

theorem exists_poly_eq {p : (ZMod 2)[X]} (hp : p.degree < n) : ∃ x : BitVec n, poly x = p := by
  refine ⟨BitVec.ofFnLE fun i => decide (p.coeff i.val = 1), ?_⟩
  ext i
  rw [coeff_poly]
  by_cases hi : i < n
  · rw [BitVec.getLsbD_ofFnLE]
    have hbit : ∀ c : ZMod 2, (if decide (c = 1) = true then (1 : ZMod 2) else 0) = c := by decide
    simpa [hi] using hbit (p.coeff i)
  · rw [BitVec.getLsbD_of_ge _ _ (by omega), (degree_lt_iff_coeff_zero p n).mp hp i (by omega)]
    rfl

theorem X_mul_poly (x : BitVec n) (hn : 0 < n) :
    X * poly x = poly (x <<< 1) + if x.getLsbD (n - 1) then X ^ n else 0 := by
  ext i
  have htop : (if x.getLsbD (n - 1) then (X : (ZMod 2)[X]) ^ n else 0).coeff i =
      if i = n ∧ x.getLsbD (n - 1) then 1 else 0 := by
    split_ifs <;> simp_all [coeff_X_pow]
  rw [coeff_add, coeff_poly, htop, BitVec.getLsbD_shiftLeft]
  cases i with
  | zero => simp [hn.ne]
  | succ i =>
    rw [coeff_X_mul, coeff_poly]
    rcases Nat.lt_trichotomy (i + 1) n with hi | hi | hi
    · simp [hi, hi.ne]
    · subst hi
      simp
    · simp [BitVec.getLsbD_of_ge x i (by omega), hi.ne', show ¬ i + 1 < n by omega]

theorem poly_eq_halve (x : BitVec n) :
    poly x = C (if x.getLsbD 0 then (1 : ZMod 2) else 0) + X * poly (x >>> 1) := by
  ext i
  rw [coeff_add, coeff_poly]
  cases i with
  | zero =>
    rw [coeff_X_mul_zero, add_zero, coeff_C_zero]
  | succ i =>
    rw [coeff_X_mul, coeff_poly, BitVec.getLsbD_ushiftRight, Nat.add_comm 1 i, coeff_C_succ,
      zero_add]

variable (f : (ZMod 2)[X])

def word (x : BitVec n) : AdjoinRoot f := AdjoinRoot.mk f (poly x)

theorem word_xor (x y : BitVec n) : word f (x ^^^ y) = word f x + word f y := by
  rw [word, poly_xor, map_add]
  rfl

theorem word_zero : word f (0 : BitVec n) = 0 := by
  rw [word, poly_zero, map_zero]

theorem word_one (hn : 0 < n) : word f (1 : BitVec n) = 1 := by
  rw [word, poly_one hn, map_one]

theorem word_eq_halve (x : BitVec n) :
    word f x = (if x.getLsbD 0 then (1 : AdjoinRoot f) else 0) +
      AdjoinRoot.root f * word f (x >>> 1) := by
  rw [word, poly_eq_halve, map_add, map_mul, AdjoinRoot.mk_X, apply_ite C, C_1, C_0,
    apply_ite (AdjoinRoot.mk f), map_one, map_zero]
  rfl

theorem root_mul_word {r : BitVec n} (hn : 0 < n) (hf : f = X ^ n + poly r) (x : BitVec n) :
    AdjoinRoot.root f * word f x =
      word f (x <<< 1) + if x.getLsbD (n - 1) then word f r else 0 := by
  have hpow : AdjoinRoot.mk f (X ^ n) = word f r := by
    rw [word, AdjoinRoot.mk_eq_mk, CharTwo.sub_eq_add, ← hf]
  rw [word, ← AdjoinRoot.mk_X, ← map_mul, X_mul_poly x hn, map_add, apply_ite (AdjoinRoot.mk f),
    map_zero, hpow]
  rfl

variable {f} (hf : f.Monic) (hn : f.natDegree = n)
include hf hn

theorem word_bijective : Function.Bijective (word f : BitVec n → AdjoinRoot f) := by
  have hdeg : f.degree = n := by rw [degree_eq_natDegree hf.ne_zero, hn]
  constructor
  · intro x y h
    have hdvd := AdjoinRoot.mk_eq_mk.mp h
    have hlt : (poly x - poly y).degree < f.degree := by
      rw [hdeg]
      exact (degree_sub_le _ _).trans_lt (max_lt (degree_poly_lt x) (degree_poly_lt y))
    exact poly_injective (sub_eq_zero.mp (eq_zero_of_dvd_of_degree_lt hdvd hlt))
  · intro a
    obtain ⟨p, rfl⟩ := AdjoinRoot.mk_surjective a
    have hlt : (p %ₘ f).degree < n := hdeg ▸ degree_modByMonic_lt p hf
    obtain ⟨x, hx⟩ := exists_poly_eq hlt
    refine ⟨x, ?_⟩
    rw [word, hx, AdjoinRoot.mk_eq_mk]
    exact ⟨-(p /ₘ f), by linear_combination modByMonic_add_div p f⟩

def wordEquiv : BitVec n ≃ AdjoinRoot f := Equiv.ofBijective (word f) (word_bijective hf hn)

theorem irreducible_of_inverses (hpos : 0 < n)
    (h : ∀ x : BitVec n, x ≠ 0 → ∃ y : BitVec n, word f x * word f y = 1) : Irreducible f := by
  have hfield : IsField (AdjoinRoot f) := by
    refine ⟨⟨0, 1, ?_⟩, mul_comm, fun {a} ha => ?_⟩
    · intro h01
      have heq := (word_bijective hf hn).injective
        ((word_zero f (n := n)).trans (h01.trans (word_one f hpos).symm))
      have hbit := congrArg (fun x => BitVec.getLsbD x 0) heq
      simp [hpos] at hbit
    · obtain ⟨x, rfl⟩ := (word_bijective hf hn).surjective a
      have hx : x ≠ 0 := fun hx => ha (by rw [hx, word_zero])
      obtain ⟨y, hy⟩ := h x hx
      exact ⟨word f y, hy⟩
  have hmax : (Ideal.span {f}).IsMaximal := Ideal.Quotient.maximal_of_isField _ hfield
  exact ((Ideal.span_singleton_prime hf.ne_zero).mp hmax.isPrime).irreducible

omit hf hn

section Column

variable {R : Type*} [CommRing R]

def column (c : Fin 4 → R) : R[X] := ∑ r : Fin 4, C (c r) * X ^ r.val

theorem coeff_column (c : Fin 4 → R) (r : Fin 4) : (column c).coeff r.val = c r := by
  simp [column, coeff_X_pow, Fin.val_inj]

theorem column_mul_modByMonic [Nontrivial R] [CharP R 2] (a s : Fin 4 → R) :
    (column a * column s) %ₘ (X ^ 4 + C 1) = column fun r => ∑ j, a (r - j) * s j := by
  -- What the product has in degrees 4 to 6.
  let high : R[X] := C (a 1) * C (s 3) + C (a 2) * C (s 2) + C (a 3) * C (s 1) +
    (C (a 2) * C (s 3) + C (a 3) * C (s 2)) * X + C (a 3) * C (s 3) * X ^ 2
  have htwo : (2 : R[X]) = 0 := CharTwo.two_eq_zero
  have hdeg : (X ^ 4 + C 1 : R[X]).degree = (4 : ℕ) := degree_X_pow_add_C (by decide) 1
  have hmonic : (X ^ 4 + C 1 : R[X]).Monic := monic_X_pow_add_C 1 (by decide)
  refine (div_modByMonic_unique high _ hmonic ⟨?_, ?_⟩).2
  · simp only [column, Fin.sum_univ_four, high, map_add, map_mul, map_one]
    simp only [Fin.isValue, pow_zero, pow_one, mul_one, Fin.reduceSub, sub_self, sub_zero,
      Fin.coe_ofNat_eq_mod, Nat.reduceMod]
    linear_combination high * htwo
  · rw [hdeg]
    exact degree_sum_fin_lt _

end Column

end BinaryField

end
