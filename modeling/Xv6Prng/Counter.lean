import Xv6Prng.Library.ByteWords
import Xv6Prng.Library.Countdown

/-!
# The 128-bit block counter of the generator

`incrctr` carries out of a full word by incrementing the next one, and leaves the
full word full: only the increment of the all-ones counter clears anything. The
orbit therefore fills the words one after the other and falls back to zero after
`2^34 - 3` increments, where a 128-bit increment would take `2^128`.

The four `int`s of the source are words compared with the unsigned `0xFFFFFFFF`;
`counter[k]++` past `0x7FFFFFFF` is the wrapping increment the compiled code does.
-/

namespace Xv6Prng

open Function

/-- `int counter[4]` of the `prng` record. -/
structure Counter where
  c0 : Word
  c1 : Word
  c2 : Word
  c3 : Word
  deriving DecidableEq, Repr

variable {c : Counter} {n : ℕ}

namespace Counter

def full : Word := 0xFFFFFFFF#32

def zero : Counter := ⟨0, 0, 0, 0⟩

def incrctr (c : Counter) : Counter :=
  if c.c0 ≠ full then { c with c0 := c.c0 + 1 }
  else if c.c1 ≠ full then { c with c1 := c.c1 + 1 }
  else if c.c2 ≠ full then { c with c2 := c.c2 + 1 }
  else if c.c3 ≠ full then { c with c3 := c.c3 + 1 }
  else zero

def value (c : Counter) : ℕ :=
  c.c0.toNat + 2 ^ 32 * c.c1.toNat + 2 ^ 64 * c.c2.toNat + 2 ^ 96 * c.c3.toNat

def wrapDistance (c : Counter) : ℕ :=
  4 * (2 ^ 32 - 1) + 1 - (c.c0.toNat + c.c1.toNat + c.c2.toNat + c.c3.toNat)

def period : ℕ := 2 ^ 34 - 3

theorem toNat_succ {w : Word} (h : w ≠ full) : (w + 1).toNat = w.toNat + 1 := by
  unfold full at h
  bv_omega

theorem toNat_lt_full {w : Word} (h : w ≠ full) : w.toNat < 2 ^ 32 - 1 := by
  unfold full at h
  bv_omega

theorem toNat_full : full.toNat = 2 ^ 32 - 1 := rfl

theorem incrctr_c0 (h : c.c0 ≠ full) : incrctr c = { c with c0 := c.c0 + 1 } :=
  if_pos h

theorem incrctr_c1 (h0 : c.c0 = full) (h1 : c.c1 ≠ full) :
    incrctr c = { c with c1 := c.c1 + 1 } := by
  simp [incrctr, h0, h1]

theorem incrctr_c2 (h0 : c.c0 = full) (h1 : c.c1 = full) (h2 : c.c2 ≠ full) :
    incrctr c = { c with c2 := c.c2 + 1 } := by
  simp [incrctr, h0, h1, h2]

theorem incrctr_c3 (h0 : c.c0 = full) (h1 : c.c1 = full) (h2 : c.c2 = full) (h3 : c.c3 ≠ full) :
    incrctr c = { c with c3 := c.c3 + 1 } := by
  simp [incrctr, h0, h1, h2, h3]

theorem incrctr_wrap (h0 : c.c0 = full) (h1 : c.c1 = full) (h2 : c.c2 = full) (h3 : c.c3 = full) :
    incrctr c = zero := by
  simp [incrctr, h0, h1, h2, h3]

theorem incrctr_cases (c : Counter) :
    (c.c0 ≠ full ∧ incrctr c = { c with c0 := c.c0 + 1 }) ∨
    (c.c0 = full ∧ c.c1 ≠ full ∧ incrctr c = { c with c1 := c.c1 + 1 }) ∨
    (c.c0 = full ∧ c.c1 = full ∧ c.c2 ≠ full ∧ incrctr c = { c with c2 := c.c2 + 1 }) ∨
    (c.c0 = full ∧ c.c1 = full ∧ c.c2 = full ∧ c.c3 ≠ full ∧
      incrctr c = { c with c3 := c.c3 + 1 }) ∨
    (c.c0 = full ∧ c.c1 = full ∧ c.c2 = full ∧ c.c3 = full ∧ incrctr c = zero) := by
  by_cases h0 : c.c0 = full
  · by_cases h1 : c.c1 = full
    · by_cases h2 : c.c2 = full
      · by_cases h3 : c.c3 = full
        · simp [h0, h1, h2, h3, incrctr_wrap]
        · simp [h0, h1, h2, h3, incrctr_c3]
      · simp [h0, h1, h2, incrctr_c2]
    · simp [h0, h1, incrctr_c1]
  · simp [h0, incrctr_c0]

theorem wrapDistance_zero : wrapDistance zero = period := by decide

theorem countdown : Countdown incrctr wrapDistance zero where
  dist_pos c := by
    have h0 := c.c0.isLt
    have h1 := c.c1.isLt
    have h2 := c.c2.isLt
    have h3 := c.c3.isLt
    unfold wrapDistance
    omega
  dist_step c hc := by
    have h0 := c.c0.isLt
    have h1 := c.c1.isLt
    have h2 := c.c2.isLt
    have h3 := c.c3.isLt
    rcases incrctr_cases c with ⟨hn, he⟩ | ⟨-, hn, he⟩ | ⟨-, -, hn, he⟩ | ⟨-, -, -, hn, he⟩ |
      ⟨e0, e1, e2, e3, -⟩
    · have hs := toNat_succ hn
      have hl := toNat_lt_full hn
      rw [he]
      simp only [wrapDistance] at hc ⊢
      omega
    · have hs := toNat_succ hn
      have hl := toNat_lt_full hn
      rw [he]
      simp only [wrapDistance] at hc ⊢
      omega
    · have hs := toNat_succ hn
      have hl := toNat_lt_full hn
      rw [he]
      simp only [wrapDistance] at hc ⊢
      omega
    · have hs := toNat_succ hn
      have hl := toNat_lt_full hn
      rw [he]
      simp only [wrapDistance] at hc ⊢
      omega
    · rw [wrapDistance, e0, e1, e2, e3, toNat_full] at hc
      omega
  reset c hc := by
    have h0 := c.c0.isLt
    have h1 := c.c1.isLt
    have h2 := c.c2.isLt
    have h3 := c.c3.isLt
    have hfull (w : Word) (hw : w.toNat = 2 ^ 32 - 1) : w = full :=
      BitVec.eq_of_toNat_eq (hw.trans toNat_full.symm)
    unfold wrapDistance at hc
    exact incrctr_wrap (hfull _ (by omega)) (hfull _ (by omega)) (hfull _ (by omega))
      (hfull _ (by omega))
  dist_le c := by
    rw [wrapDistance_zero]
    unfold wrapDistance period
    omega

theorem iterate_ne (c : Counter) {m : ℕ} (hmn : m < n) (hn : n < m + period) :
    incrctr^[n] c ≠ incrctr^[m] c :=
  countdown.iterate_ne c hmn (by rwa [wrapDistance_zero])

theorem iterate_wrapDistance (c : Counter) : incrctr^[wrapDistance c] c = zero :=
  countdown.iterate_dist c

theorem iterate_zero_eq_zero_iff (n : ℕ) : incrctr^[n] zero = zero ↔ period ∣ n := by
  rw [← wrapDistance_zero]
  exact countdown.iterate_eq_reset_iff n

theorem iterate_low (c : Counter) (hn : n ≤ 2 ^ 32 - 1 - c.c0.toNat) :
    incrctr^[n] c = { c with c0 := c.c0 + BitVec.ofNat 32 n } := by
  induction n with
  | zero => simp
  | succ n ih =>
    have hlt := c.c0.isLt
    rw [iterate_succ_apply', ih (by omega), incrctr_c0]
    · simp only [Counter.mk.injEq, and_self, and_true]
      apply BitVec.eq_of_toNat_eq
      simp only [BitVec.ofNat_eq_ofNat, BitVec.toNat_add, BitVec.toNat_ofNat]
      omega
    · intro hf
      have ht := congrArg BitVec.toNat hf
      rw [toNat_full, BitVec.toNat_add, BitVec.toNat_ofNat] at ht
      omega

theorem c0_ne_zero_of_step (hc : c.c0 ≠ 0) (hd : 1 < wrapDistance c) : (incrctr c).c0 ≠ 0 := by
  rcases incrctr_cases c with ⟨hn, he⟩ | ⟨-, -, he⟩ | ⟨-, -, -, he⟩ | ⟨-, -, -, -, he⟩ |
    ⟨e0, e1, e2, e3, -⟩
  · rw [he]
    have hs := toNat_succ hn
    intro h0
    simp only at h0
    rw [h0] at hs
    simp at hs
  · rwa [he]
  · rwa [he]
  · rwa [he]
  · rw [wrapDistance, e0, e1, e2, e3, toNat_full] at hd
    omega

theorem iterate_c0_ne_zero (hc : c.c0 ≠ 0) (hn : n < wrapDistance c) : (incrctr^[n] c).c0 ≠ 0 := by
  induction n with
  | zero => exact hc
  | succ n ih =>
    have hd := countdown.dist_iterate c (n := n) (by omega)
    rw [iterate_succ_apply']
    exact c0_ne_zero_of_step (ih (by omega)) (by omega)

theorem iterate_c0_eq_zero_iff (hc : c.c0 ≠ 0) (hn : n < 2 ^ 32) :
    (incrctr^[n] c).c0 = 0 ↔ n = wrapDistance c := by
  constructor
  · intro h0
    by_contra hne
    rcases Nat.lt_or_ge n (wrapDistance c) with hlt | hge
    · exact iterate_c0_ne_zero hc hlt h0
    · have hsplit := countdown.iterate_dist_add c (n - wrapDistance c)
      have hpos := countdown.dist_pos c
      rw [Nat.sub_add_cancel hge] at hsplit
      rw [hsplit, iterate_low zero (by simp [zero]; omega)] at h0
      have ht := congrArg BitVec.toNat h0
      simp only [zero, BitVec.toNat_add, BitVec.toNat_ofNat] at ht
      omega
  · rintro rfl
    rw [iterate_wrapDistance]
    rfl

theorem iterate_zero_c0_eq_zero_iff (n : ℕ) : (incrctr^[n] zero).c0 = 0 ↔ period ∣ n := by
  refine ⟨fun h0 => ?_, fun hd => by rw [(iterate_zero_eq_zero_iff n).mpr hd]; rfl⟩
  by_contra hd
  -- Reduce to the position inside the current period, and step off zero once.
  have hpos : 0 < period := by decide
  have hr : n % period ≠ 0 := fun h => hd (Nat.dvd_of_mod_eq_zero h)
  have hmod : incrctr^[n] zero = incrctr^[n % period] zero := by
    conv_lhs => rw [← Nat.mod_add_div n period, iterate_add_apply]
    rw [(iterate_zero_eq_zero_iff (period * (n / period))).mpr (Dvd.intro _ rfl)]
  obtain ⟨k, hk⟩ := Nat.exists_eq_succ_of_ne_zero hr
  have hlt := Nat.mod_lt n hpos
  rw [hmod, hk, iterate_succ_apply] at h0
  refine iterate_c0_ne_zero (c := incrctr zero) (by decide) ?_ h0
  have hone : wrapDistance (incrctr zero) = period - 1 := by decide
  omega

/-- The first `n` increments are those of a 128-bit integer, and visit pairwise
different counters as such increments do. -/
def Counts128 (c : Counter) (n : ℕ) : Prop :=
  (∀ m ≤ n, (incrctr^[m] c).value = (c.value + m) % 2 ^ 128) ∧
  (n < 2 ^ 128 → ∀ i j, i < j → j ≤ n → incrctr^[i] c ≠ incrctr^[j] c)

theorem value_lt (c : Counter) : c.value < 2 ^ 128 := by
  have h0 := c.c0.isLt
  have h1 := c.c1.isLt
  have h2 := c.c2.isLt
  have h3 := c.c3.isLt
  unfold value
  omega

theorem value_iterate_low (c : Counter) (hn : n ≤ 2 ^ 32 - 1 - c.c0.toNat) :
    (incrctr^[n] c).value = c.value + n := by
  have hlt := c.c0.isLt
  rw [iterate_low c hn]
  simp only [value, BitVec.toNat_add, BitVec.toNat_ofNat]
  omega

theorem iterate_fill_low (c : Counter) :
    incrctr^[2 ^ 32 - 1 - c.c0.toNat] c = { c with c0 := full } := by
  have hlt := c.c0.isLt
  rw [iterate_low c le_rfl]
  simp only [Counter.mk.injEq, and_self, and_true]
  apply BitVec.eq_of_toNat_eq
  rw [toNat_full, BitVec.toNat_add, BitVec.toNat_ofNat]
  omega

theorem value_incrctr_carry (h0 : c.c0 = full) (hne : ¬ (c.c1 = full ∧ c.c2 = full ∧ c.c3 = full)) :
    c.value + 2 ^ 32 ≤ (incrctr c).value := by
  rcases incrctr_cases c with ⟨hn, -⟩ | ⟨-, hn, he⟩ | ⟨-, -, hn, he⟩ | ⟨-, -, -, hn, he⟩ |
    ⟨-, e1, e2, e3, -⟩
  · exact absurd h0 hn
  · have hs := toNat_succ hn
    rw [he]
    simp only [value]
    omega
  · have hs := toNat_succ hn
    rw [he]
    simp only [value]
    omega
  · have hs := toNat_succ hn
    rw [he]
    simp only [value]
    omega
  · exact absurd ⟨e1, e2, e3⟩ hne

theorem value_high_full (h1 : c.c1 = full) (h2 : c.c2 = full) (h3 : c.c3 = full) :
    c.value + (2 ^ 32 - 1 - c.c0.toNat) + 1 = 2 ^ 128 := by
  have hlt := c.c0.isLt
  rw [value, h1, h2, h3, toNat_full]
  omega

theorem iterate_high_full (h1 : c.c1 = full) (h2 : c.c2 = full) (h3 : c.c3 = full) (n : ℕ) :
    incrctr^[n + (2 ^ 32 - 1 - c.c0.toNat + 1)] c = incrctr^[n] zero := by
  rw [iterate_add_apply, iterate_succ_apply', iterate_fill_low,
    incrctr_wrap (c := { c with c0 := full }) rfl h1 h2 h3]

theorem value_iterate_high_full (h1 : c.c1 = full) (h2 : c.c2 = full) (h3 : c.c3 = full) {m : ℕ}
    (hm : m ≤ 2 ^ 32 - 1 - c.c0.toNat + 2 ^ 32) :
    (incrctr^[m] c).value = (c.value + m) % 2 ^ 128 := by
  have hv := value_high_full h1 h2 h3
  rcases Nat.lt_or_ge (2 ^ 32 - 1 - c.c0.toNat) m with hlt | hle
  · obtain ⟨k, rfl⟩ : ∃ k, m = k + (2 ^ 32 - 1 - c.c0.toNat + 1) :=
      ⟨m - (2 ^ 32 - 1 - c.c0.toNat + 1), by omega⟩
    have hz : zero.value = 0 := rfl
    have hc0 : zero.c0.toNat = 0 := rfl
    rw [iterate_high_full h1 h2 h3, value_iterate_low zero (by omega), hz]
    omega
  · rw [value_iterate_low c hle]
    omega

theorem not_counts_carry (hne : ¬ (c.c1 = full ∧ c.c2 = full ∧ c.c3 = full)) :
    (incrctr^[2 ^ 32 - 1 - c.c0.toNat + 1] c).value ≠
      (c.value + (2 ^ 32 - 1 - c.c0.toNat + 1)) % 2 ^ 128 := by
  have hfill := value_iterate_low c le_rfl
  rw [iterate_succ_apply']
  rw [iterate_fill_low] at hfill ⊢
  have hjump := value_incrctr_carry (c := { c with c0 := full }) rfl hne
  have hlt := value_lt (incrctr { c with c0 := full })
  omega

theorem not_counts_high_full (h1 : c.c1 = full) (h2 : c.c2 = full) (h3 : c.c3 = full) :
    (incrctr^[2 ^ 32 - 1 - c.c0.toNat + 2 ^ 32 + 1] c).value ≠
      (c.value + (2 ^ 32 - 1 - c.c0.toNat + 2 ^ 32 + 1)) % 2 ^ 128 := by
  have hv := value_high_full h1 h2 h3
  have hz := not_counts_carry (c := zero) (by decide)
  have hc0 : zero.c0.toNat = 0 := rfl
  have hv0 : zero.value = 0 := rfl
  rw [hc0, hv0] at hz
  rw [show 2 ^ 32 - 1 - c.c0.toNat + 2 ^ 32 + 1 =
    2 ^ 32 - 1 - 0 + 1 + (2 ^ 32 - 1 - c.c0.toNat + 1) by omega, iterate_high_full h1 h2 h3]
  omega

theorem counts128_iff (c : Counter) (n : ℕ) :
    Counts128 c n ↔ n ≤ 2 ^ 32 - 1 - c.c0.toNat ∨
      (c.c1 = full ∧ c.c2 = full ∧ c.c3 = full ∧ n ≤ 2 ^ 32 - 1 - c.c0.toNat + 2 ^ 32) := by
  constructor
  · rintro ⟨hval, -⟩
    by_contra hn
    simp only [not_or, not_le] at hn
    by_cases hfull : c.c1 = full ∧ c.c2 = full ∧ c.c3 = full
    · obtain ⟨h1, h2, h3⟩ := hfull
      have hgt : 2 ^ 32 - 1 - c.c0.toNat + 2 ^ 32 < n := by
        by_contra hle
        exact hn.2 ⟨h1, h2, h3, by omega⟩
      exact not_counts_high_full h1 h2 h3 (hval _ hgt)
    · exact not_counts_carry hfull (hval _ hn.1)
  · intro hn
    have hlt := c.c0.isLt
    refine ⟨fun m hm => ?_, fun _ i j hij hj => ?_⟩
    · rcases hn with hn | ⟨h1, h2, h3, hn⟩
      · rw [Nat.mod_eq_of_lt]
        · exact value_iterate_low c (by omega)
        · have hv := value_lt (incrctr^[m] c)
          rwa [value_iterate_low c (by omega)] at hv
      · exact value_iterate_high_full h1 h2 h3 (by omega)
    · refine (iterate_ne c hij ?_).symm
      unfold period
      omega

/-- After the first carry out of the low word the counter is not the successor. -/
theorem not_counts128_carry : ¬ Counts128 ⟨full, 0, 0, 0⟩ 1 := by
  rintro ⟨hval, -⟩
  exact not_counts_carry (c := ⟨full, 0, 0, 0⟩) (by decide) (hval 1 le_rfl)

end Counter
end Xv6Prng
