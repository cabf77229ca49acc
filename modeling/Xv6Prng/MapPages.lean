import Xv6Prng.CopySpace

/-!
# `mappages` on words

The arguments of `mappages` are words of 32 bits, and its loop ends when the address is equal to
that of the last page. The range may end at the top of the address space, where the next address
would be 0. An entry is the word `pa | perm | PTE_P`. Where `pa` is the address of a page, `perm`
has no more than flags and neither range wraps around, this is the `mappages` of `UserSpace`.
-/

namespace Xv6Prng.UserSpace.MapPages

open Halting Function

def PGROUNDDOWN (a : Word) : Word := a &&& ~~~(0xfff : Word)

def ofWord (w : Word) : Pte := ⟨w.toNat / PGSIZE, w.setWidth 12⟩

/-- The loop of `mappages`; nothing is returned if it does not end within `fuel` turns. -/
def mappagesLoop (last perm : Word) : ℕ → Word → Word → PgDir → M (Option (PgDir × Bool))
  | 0, _, _, _ => pure none
  | fuel + 1, a, pa, d => do
    match ← walkpgdir d (a.toNat / PGSIZE) true with
    | none => pure (some (d, false))
    | some d =>
      if (d.pte (a.toNat / PGSIZE)).Present then throw (.panic "remap")
      else
        let d := d.setPte (a.toNat / PGSIZE) (ofWord (pa ||| perm ||| 1#32))
        if a = last then pure (some (d, true))
        else mappagesLoop last perm fuel (a + 0x1000#32) (pa + 0x1000#32) d

def mappages (d : PgDir) (va size pa perm : Word) : M (Option (PgDir × Bool)) :=
  mappagesLoop (PGROUNDDOWN (va + size - 1#32)) perm (2 ^ 20) (PGROUNDDOWN va) pa d

def entry (pa perm : Word) (k : ℕ) : Pte :=
  ofWord ((pa + BitVec.ofNat 32 (k * PGSIZE)) ||| perm ||| 1#32)

/-- The pages from `v` to `w` have the entries `f`, or if the call failed none at all, and the
other pages have those of before. -/
structure Maps (d d' : PgDir) (v w : ℕ) (f : ℕ → Pte) (ok : Bool) : Prop where
  inside : ∀ u, v ≤ u → u ≤ w → d'.pte u = f (u - v) ∨ ok = false ∧ ¬ (d'.pte u).Present
  outside : ∀ u, u < v ∨ w < u → d'.pte u = d.pte u

theorem toNat_PGROUNDDOWN (a : Word) : (PGROUNDDOWN a).toNat = a.toNat / PGSIZE * PGSIZE := by
  have hshift : PGROUNDDOWN a = a >>> 12 <<< 12 := by
    have hmask : ~~~(0xfff : Word) = BitVec.allOnes 32 <<< 12 := by decide
    ext i hi
    simp only [PGROUNDDOWN, hmask, BitVec.getElem_and, BitVec.getElem_shiftLeft,
      BitVec.getElem_allOnes, BitVec.getElem_ushiftRight]
    by_cases hlow : i < 12
    · simp [hlow]
    · simp [hlow, show 12 + (i - 12) = i by omega, BitVec.getLsbD_eq_getElem hi]
  rw [hshift, BitVec.toNat_shiftLeft, BitVec.toNat_ushiftRight, Nat.shiftRight_eq_div_pow,
    Nat.shiftLeft_eq]
  have := a.isLt
  simp only [PGSIZE]
  omega

theorem entry_succ (pa perm : Word) (k : ℕ) :
    entry (pa + 0x1000#32) perm k = entry pa perm (k + 1) := by
  have hadd : BitVec.ofNat 32 ((k + 1) * PGSIZE) = 0x1000#32 + BitVec.ofNat 32 (k * PGSIZE) := by
    rw [Nat.succ_mul, Nat.add_comm, BitVec.ofNat_add]
  rw [entry, entry, hadd, BitVec.add_assoc]

theorem entry_eq {perm : Word} (hperm : perm.toNat < PGSIZE) (pa : Word) (k : ℕ) :
    entry pa perm k = ⟨(pa + BitVec.ofNat 32 (k * PGSIZE)).toNat / PGSIZE,
      pa.setWidth 12 ||| perm.setWidth 12 ||| PTE_P⟩ := by
  have hlow : (perm ||| 1#32).toNat < 2 ^ 12 := by
    rw [BitVec.toNat_or]
    exact Nat.or_lt_two_pow hperm (by decide)
  have hshift : (BitVec.ofNat 32 (k * PGSIZE)).setWidth 12 = 0#12 := by
    apply BitVec.eq_of_toNat_eq
    simp only [BitVec.toNat_setWidth, BitVec.toNat_ofNat, PGSIZE]
    omega
  rw [entry, ofWord, BitVec.or_assoc, Pte.mk.injEq]
  constructor
  · change _ / 2 ^ 12 = _ / 2 ^ 12
    rw [BitVec.toNat_or, ← Nat.shiftRight_eq_div_pow, Nat.shiftRight_or_distrib,
      Nat.shiftRight_eq_div_pow (BitVec.toNat (perm ||| 1#32)), Nat.div_eq_of_lt hlow, Nat.or_zero,
      Nat.shiftRight_eq_div_pow]
  · rw [BitVec.setWidth_or, BitVec.setWidth_or, BitVec.setWidth_add _ _ (by decide), hshift,
      BitVec.add_zero, BitVec.or_assoc]
    rfl

theorem mappagesLoop_returns {last perm a pa : Word} {v w fuel : ℕ} {d : PgDir}
    (hlast : last.toNat = w * PGSIZE) (ha : a.toNat = v * PGSIZE) (hvw : v ≤ w)
    (hfuel : w - v < fuel) (hnone : ∀ u, v ≤ u → u ≤ w → ¬ (d.pte u).Present) (s : Machine) :
    Returns (mappagesLoop last perm fuel a pa d) s fun r s' => ∃ d' ok, r = some (d', ok) ∧
      Takes s s' ∧ Maps d d' v w (entry pa perm) ok := by
  induction fuel generalizing a pa v d s with
  | zero => omega
  | succ fuel ih =>
    have hpage : a.toNat / PGSIZE = v := by rw [ha, Nat.mul_div_cancel _ (by decide)]
    rw [mappagesLoop, hpage]
    refine (walkpgdir_returns d v s).bind fun r s₁ hr => ?_
    obtain ⟨htakes, -, hsome⟩ := hr
    cases r with
    | none =>
      exact returns_pure ⟨d, false, rfl, htakes, fun u hv hw => Or.inr ⟨rfl, hnone u hv hw⟩,
        fun _ _ => rfl⟩
    | some d₁ =>
      obtain ⟨hpte, htable, -⟩ := hsome d₁ rfl
      dsimp only
      rw [if_neg (by rw [hpte]; exact hnone v le_rfl hvw)]
      have hset := PgDir.pte_setPte (e := ofWord (pa ||| perm ||| 1#32)) htable
      rw [hpte] at hset
      have hfirst : (d₁.setPte v (ofWord (pa ||| perm ||| 1#32))).pte v = entry pa perm 0 := by
        rw [hset, update_self, entry, Nat.zero_mul]
        exact congrArg (fun x => ofWord (x ||| perm ||| 1#32)) (BitVec.add_zero pa).symm
      have hother : ∀ u, u ≠ v → (d₁.setPte v (ofWord (pa ||| perm ||| 1#32))).pte u = d.pte u :=
        fun u hu => by rw [hset, update_of_ne hu]
      generalize d₁.setPte v (ofWord (pa ||| perm ||| 1#32)) = d₂ at hfirst hother
      have hend : a = last ↔ v = w := by
        rw [← BitVec.toNat_inj, ha, hlast, Nat.mul_left_inj (by decide)]
      split_ifs with heq
      · obtain rfl := hend.mp heq
        refine returns_pure ⟨d₂, true, rfl, htakes, fun u hv hw => Or.inl ?_,
          fun u hu => hother u (by omega)⟩
        obtain rfl : u = v := by omega
        rw [Nat.sub_self, hfirst]
      · have hlt : v < w := lt_of_le_of_ne hvw fun h => heq (hend.mpr h)
        have hnext : (a + 0x1000#32).toNat = (v + 1) * PGSIZE := by
          have := last.isLt
          rw [BitVec.toNat_add, ha, BitVec.toNat_ofNat]
          simp only [PGSIZE] at hlast ⊢
          omega
        refine (ih (d := d₂) hnext hlt (by omega) (fun u hv hw => ?_) s₁).mono fun r s₂ hr => ?_
        · rw [hother u (by omega)]
          exact hnone u (by omega) hw
        · obtain ⟨d', ok, rfl, htakes₂, hmaps⟩ := hr
          refine ⟨d', ok, rfl, htakes.trans htakes₂, fun u hv hw => ?_, fun u hu => ?_⟩
          · rcases Nat.eq_or_lt_of_le hv with rfl | hv
            · rw [hmaps.outside v (Or.inl (Nat.lt_succ_self v)), hfirst, Nat.sub_self]
              exact Or.inl rfl
            · have hinside := hmaps.inside u hv hw
              rwa [entry_succ, show u - (v + 1) + 1 = u - v by omega] at hinside
          · rw [hmaps.outside u (by omega), hother u (by omega)]

theorem toNat_last {va size : Word} (hsize : 0 < size.toNat)
    (hrange : va.toNat + size.toNat ≤ 2 ^ 32) :
    (PGROUNDDOWN (va + size - 1#32)).toNat = (va.toNat + size.toNat - 1) / PGSIZE * PGSIZE := by
  have hend : (va + size - 1#32).toNat = va.toNat + size.toNat - 1 := by
    rw [BitVec.toNat_sub, BitVec.toNat_add, BitVec.toNat_ofNat]
    omega
  rw [toNat_PGROUNDDOWN, hend]

/-- For every range that does not wrap around and has no page mapped, and every `perm`. -/
theorem mappages_maps (d : PgDir) (va size pa perm : Word) (hsize : 0 < size.toNat)
    (hrange : va.toNat + size.toNat ≤ 2 ^ 32)
    (hnone : ∀ v, va.toNat / PGSIZE ≤ v → v ≤ (va.toNat + size.toNat - 1) / PGSIZE →
      ¬ (d.pte v).Present) (s : Machine) :
    (Returns (mappages d va size pa perm) s fun r s' => ∃ d' ok, r = some (d', ok) ∧ Takes s s' ∧
      Maps d d' (va.toNat / PGSIZE) ((va.toNat + size.toNat - 1) / PGSIZE) (entry pa perm) ok) ∧
    (perm.toNat < PGSIZE → ∀ k, entry pa perm k =
      ⟨(pa + BitVec.ofNat 32 (k * PGSIZE)).toNat / PGSIZE,
        pa.setWidth 12 ||| perm.setWidth 12 ||| PTE_P⟩) := by
  refine ⟨?_, fun hperm k => entry_eq hperm pa k⟩
  refine mappagesLoop_returns (toNat_last hsize hrange) (toNat_PGROUNDDOWN va)
    (Nat.div_le_div_right (by omega)) ?_ hnone s
  simp only [PGSIZE]
  omega

section Pages

variable {last perm a pa va size : Word} {v w q fuel : ℕ}

theorem ofWord_eq (hperm : perm.toNat < PGSIZE) (hpa : pa.toNat = q * PGSIZE) :
    ofWord (pa ||| perm ||| 1#32) = ⟨q, perm.setWidth 12 ||| PTE_P⟩ := by
  have hflags : pa.setWidth 12 = 0#12 := by
    apply BitVec.eq_of_toNat_eq
    rw [BitVec.toNat_setWidth, hpa]
    exact Nat.mul_mod_left q _
  have hentry := entry_eq hperm pa 0
  rw [entry, Nat.zero_mul, BitVec.add_zero, hpa, Nat.mul_div_cancel _ (by decide), hflags,
    BitVec.zero_or] at hentry
  exact hentry

theorem mappagesLoop_eq (hperm : perm.toNat < PGSIZE) (hlast : last.toNat = w * PGSIZE)
    (ha : a.toNat = v * PGSIZE) (hvw : v ≤ w) (hfuel : w - v < fuel)
    (hpa : pa.toNat = q * PGSIZE) (hq : q + (w - v) < 2 ^ 20) (d : PgDir) :
    mappagesLoop last perm fuel a pa d =
      UserSpace.mappages (w - v + 1) v q (perm.setWidth 12) d >>= fun r => pure (some r) := by
  induction fuel generalizing a pa v q d with
  | zero => omega
  | succ fuel ih =>
    have hpage : a.toNat / PGSIZE = v := by rw [ha, Nat.mul_div_cancel _ (by decide)]
    have hend : a = last ↔ v = w := by
      rw [← BitVec.toNat_inj, ha, hlast, Nat.mul_left_inj (by decide)]
    rw [mappagesLoop, UserSpace.mappages, hpage, bind_assoc]
    congr 1
    funext r
    cases r with
    | none => rfl
    | some d₁ =>
      dsimp only
      split_ifs with hpresent heq
      · rfl
      · obtain rfl := hend.mp heq
        rw [Nat.sub_self, UserSpace.mappages, ofWord_eq hperm hpa, pure_bind]
      · have hlt : v < w := lt_of_le_of_ne hvw fun h => heq (hend.mpr h)
        have hwords := last.isLt
        simp only [PGSIZE] at hlast ha hpa
        rw [ofWord_eq hperm hpa, show w - v = w - (v + 1) + 1 by omega]
        refine ih ?_ hlt (by omega) ?_ (by omega) _
        · rw [BitVec.toNat_add, ha, BitVec.toNat_ofNat]
          simp only [PGSIZE]
          omega
        · rw [BitVec.toNat_add, hpa, BitVec.toNat_ofNat]
          simp only [PGSIZE]
          omega

theorem mappages_eq (hsize : 0 < size.toNat) (hrange : va.toNat + size.toNat ≤ 2 ^ 32)
    (hperm : perm.toNat < PGSIZE) (hpa : pa.toNat = q * PGSIZE)
    (hw : w = (va.toNat + size.toNat - 1) / PGSIZE) (hq : q + (w - va.toNat / PGSIZE) < 2 ^ 20)
    (d : PgDir) :
    mappages d va size pa perm =
      UserSpace.mappages (w - va.toNat / PGSIZE + 1) (va.toNat / PGSIZE) q (perm.setWidth 12) d >>=
        fun r => pure (some r) := by
  subst hw
  refine mappagesLoop_eq hperm (toNat_last hsize hrange) (toNat_PGROUNDDOWN va)
    (Nat.div_le_div_right (by omega)) ?_ hpa hq d
  simp only [PGSIZE]
  omega

end Pages

/-- The last line of `kmap`, in a machine that has the pages for its eight tables. -/
theorem mappages_maps_devices :
    Returns (mappages ⟨0x600, fun _ => none⟩ 0xfe000000 0x2000000 0xfe000000 2) manyFree
      fun r s' => ∃ d', r = some (d', true) ∧ Takes manyFree s' ∧
        Maps ⟨0x600, fun _ => none⟩ d' 0xfe000 0xfffff (entry 0xfe000000 2) true := by
  have hmaps := (mappages_maps ⟨0x600, fun _ => none⟩ 0xfe000000 0x2000000 0xfe000000 2 (by decide)
    (by decide) (fun _ _ _ => (by decide : ¬ Pte.zero.Present)) manyFree).1
  have henough : Enough 0 ⟨0x600, fun _ => none⟩ manyFree :=
    ⟨rfl, by rw [absent_empty]; exact le_of_le_of_eq (by decide) List.length_range'.symm⟩
  have hok : Returns (mappages ⟨0x600, fun _ => none⟩ 0xfe000000 0x2000000 0xfe000000 2) manyFree
      fun r _ => ∃ d', r = some (d', true) := by
    rw [mappages_eq (w := 0xfffff) (q := 0xfe000) (by decide) (by decide) (by decide) rfl rfl
      (by decide)]
    refine (henough.mappages (by decide) (fun _ _ _ => (by decide : ¬ Pte.zero.Present)) _ _).bind
      fun r s' hr => returns_pure ⟨r.1, ?_⟩
    rw [← hr.1]
  obtain ⟨r, s', hrun, d', ok, rfl, htakes, hd'⟩ := hmaps
  obtain ⟨r, s'', hrun', d'', rfl⟩ := hok
  rw [hrun] at hrun'
  cases hrun'
  exact ⟨_, _, hrun, d', rfl, htakes, hd'⟩

end Xv6Prng.UserSpace.MapPages
