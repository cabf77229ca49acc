import Xv6Prng.UserSpace

/-!
# `copyout`

`copyout` writes page by page through the page table. `uva2ka` looks at the entry that
`walkpgdir` returns without a check for null, so that an address without a page table makes the
kernel read through a null pointer. Everywhere else `copyout` writes what it should and stops at
the first page that the user may not use.

What it writes is compared with single stores, byte after byte, each through the page table.
-/

namespace Xv6Prng.UserSpace

open ByteWords Halting Function

def pageOf (va : Word) : ℕ := va.toNat / PGSIZE

def offsetOf (va : Word) : Fin PGSIZE := ⟨va.toNat % PGSIZE, Nat.mod_lt _ (by decide)⟩

def Accessible (d : PgDir) (va : Word) : Prop :=
  (d.pte (pageOf va)).Present ∧ (d.pte (pageOf va)).User

def store (d : PgDir) (mem : PageNo → Page) (va : Word) (b : Byte) : PageNo → Page :=
  let frame := (d.pte (pageOf va)).frame
  Function.update mem frame (Function.update (mem frame) (offsetOf va) b)

def storeAll (d : PgDir) : (PageNo → Page) → Word → List Byte → PageNo → Page
  | mem, _, [] => mem
  | mem, va, b :: bytes => storeAll d (store d mem va b) (va + 1) bytes

abbrev after (va : Word) (j : ℕ) : Word := va + BitVec.ofNat 32 j

section Addresses

variable {va : Word}

theorem after_zero : after va 0 = va := BitVec.add_zero va

theorem after_after (va : Word) (i j : ℕ) : after (after va i) j = after va (i + j) := by
  rw [after, after, after, BitVec.add_assoc, ← BitVec.ofNat_add]

theorem toNat_after {j : ℕ} (h : va.toNat % PGSIZE + j < PGSIZE) :
    (after va j).toNat = va.toNat + j := by
  have hlt := va.isLt
  rw [after, BitVec.toNat_add, BitVec.toNat_ofNat]
  simp only [PGSIZE] at h
  omega

theorem pageOf_after {j : ℕ} (h : va.toNat % PGSIZE + j < PGSIZE) :
    pageOf (after va j) = pageOf va := by
  rw [pageOf, pageOf, toNat_after h]
  simp only [PGSIZE] at h ⊢
  omega

theorem offsetOf_after {j : ℕ} (h : va.toNat % PGSIZE + j < PGSIZE) :
    (offsetOf (after va j)).val = va.toNat % PGSIZE + j := by
  simp only [offsetOf]
  rw [toNat_after h]
  simp only [PGSIZE] at h ⊢
  omega

theorem after_page (va : Word) :
    BitVec.ofNat 32 ((va.toNat / PGSIZE + 1) * PGSIZE) = after va (PGSIZE - va.toNat % PGSIZE) := by
  apply BitVec.eq_of_toNat_eq
  have hlt := va.isLt
  rw [after, BitVec.toNat_add, BitVec.toNat_ofNat, BitVec.toNat_ofNat]
  simp only [PGSIZE]
  omega

end Addresses

section Stores

variable {d : PgDir} {va : Word}

theorem storeAll_append (mem : PageNo → Page) (va : Word) (xs ys : List Byte) :
    storeAll d mem va (xs ++ ys) = storeAll d (storeAll d mem va xs) (after va xs.length) ys := by
  induction xs generalizing mem va with
  | nil => rw [List.nil_append, List.length_nil, after_zero, storeAll]
  | cons b xs ih =>
    rw [List.cons_append, storeAll, storeAll, ih, List.length_cons, Nat.add_comm xs.length 1,
      ← after_after]
    rfl

theorem write_nil (x : Page) (off : ℕ) : x.write off [] = x := by
  funext i
  simp [Page.write]

theorem write_cons (x : Page) (off : Fin PGSIZE) (b : Byte) (bytes : List Byte) :
    x.write off.val (b :: bytes) = Page.write (update x off b) (off.val + 1) bytes := by
  funext i
  by_cases hi : i = off
  · subst hi
    simp [Page.write]
  · have hne : i.val ≠ off.val := fun h => hi (Fin.ext h)
    simp only [Page.write, update_of_ne hi, List.length_cons]
    by_cases hin : off.val + 1 ≤ i.val ∧ i.val - (off.val + 1) < bytes.length
    · rw [dif_pos hin, dif_pos ⟨by omega, by omega⟩]
      have hsub : i.val - off.val = (i.val - (off.val + 1)) + 1 := by omega
      simp only [List.get_eq_getElem, hsub, List.getElem_cons_succ]
    · rw [dif_neg hin, dif_neg fun h => hin ⟨by omega, by omega⟩]

theorem storeAll_page (mem : PageNo → Page) {bytes : List Byte}
    (h : va.toNat % PGSIZE + bytes.length ≤ PGSIZE) :
    storeAll d mem va bytes = update mem (d.pte (pageOf va)).frame
      ((mem (d.pte (pageOf va)).frame).write (va.toNat % PGSIZE) bytes) := by
  induction bytes generalizing mem va with
  | nil => rw [storeAll, write_nil, update_eq_self]
  | cons b bytes ih =>
    have hwrite := write_cons (mem (d.pte (pageOf va)).frame) (offsetOf va) b bytes
    rw [storeAll]
    cases bytes with
    | nil =>
      rw [storeAll, store]
      rw [write_nil] at hwrite
      rw [← hwrite]
      rfl
    | cons c bytes =>
      have hin : va.toNat % PGSIZE + 1 < PGSIZE := by
        simp only [List.length_cons] at h
        omega
      have hoff : (va + 1).toNat % PGSIZE = va.toNat % PGSIZE + 1 := offsetOf_after hin
      rw [ih _ (by rw [hoff]; simp only [List.length_cons] at h ⊢; omega), hoff,
        show pageOf (va + 1) = pageOf va from pageOf_after hin, store, update_self,
        update_idem]
      exact congrArg (update mem _) hwrite.symm

end Stores

/-- No address that the loop comes to is without a page table: the loop comes to an address when
all before it are accessible. -/
def NoGap (d : PgDir) (va : Word) (len : ℕ) : Prop :=
  ∀ j < len, (∀ i < j, Accessible d (after va i)) → d.HasTable (pageOf (after va j))

/-- The first `k` bytes are stored, all of them at accessible addresses; that is the whole
buffer, or the next address is not accessible. -/
def Copied (d : PgDir) (va : Word) (bytes : List Byte) (s : Machine) (r : Word) (s' : Machine) :
    Prop :=
  ∃ k ≤ bytes.length, (∀ j < k, Accessible d (after va j)) ∧
    s' = { s with mem := storeAll d s.mem va (bytes.take k) } ∧
    (r = 0 ∧ k = bytes.length ∨ r = -1 ∧ k < bytes.length ∧ ¬ Accessible d (after va k))

section Copy

variable {d : PgDir} {va : Word} {bytes : List Byte} {s : Machine}

theorem uva2ka_null (h : ¬ d.HasTable (pageOf va)) :
    (uva2ka d (pageOf va)).run s = .error .nullPte s := by
  have hnone := Option.not_isSome_iff_eq_none.mp h
  rw [uva2ka, walkpgdir, hnone]
  rfl

theorem walkpgdir_run (h : d.HasTable (pageOf va)) :
    (walkpgdir d (pageOf va) false).run s = .ok (some d) s := by
  obtain ⟨t, ht⟩ := Option.isSome_iff_exists.mp h
  rw [walkpgdir, ht]
  rfl

theorem uva2ka_some (h : Accessible d va) :
    (uva2ka d (pageOf va)).run s = .ok (some (d.pte (pageOf va)).frame) s := by
  rw [uva2ka, bind_ok (walkpgdir_run (PgDir.hasTable_of_present h.1))]
  simp only [h.1, h.2, not_true_eq_false, if_false]
  rfl

theorem uva2ka_none (htable : d.HasTable (pageOf va)) (h : ¬ Accessible d va) :
    (uva2ka d (pageOf va)).run s = .ok none s := by
  rw [uva2ka, bind_ok (walkpgdir_run htable)]
  by_cases hpresent : (d.pte (pageOf va)).Present
  · have huser : ¬ (d.pte (pageOf va)).User := fun huser => h ⟨hpresent, huser⟩
    simp only [hpresent, huser, not_true_eq_false, not_false_eq_true, if_false, if_true]
    rfl
  · simp only [hpresent, not_false_eq_true, if_true]
    rfl

theorem accessible_after {j : ℕ} (h : va.toNat % PGSIZE + j < PGSIZE) :
    Accessible d (after va j) ↔ Accessible d va := by
  rw [Accessible, Accessible, pageOf_after h]

abbrev chunk (va : Word) (len : ℕ) : ℕ := min (PGSIZE - va.toNat % PGSIZE) len

theorem add_lt_of_lt_chunk {i len : ℕ} (hi : i < chunk va len) :
    va.toNat % PGSIZE + i < PGSIZE := by
  have := hi.trans_le (Nat.min_le_left _ _)
  omega

theorem noGap_step {len : ℕ} (hacc : Accessible d va) :
    NoGap d va len ↔ NoGap d (after va (chunk va len)) (len - chunk va len) := by
  have hfirst : ∀ i < chunk va len, Accessible d (after va i) := fun i hi =>
    (accessible_after (add_lt_of_lt_chunk hi)).mpr hacc
  constructor
  · intro h j hj hbefore
    rw [after_after]
    refine h (chunk va len + j) (by omega) fun i hi => ?_
    by_cases hic : i < chunk va len
    · exact hfirst i hic
    · have := hbefore (i - chunk va len) (by omega)
      rwa [after_after, Nat.add_sub_cancel' (not_lt.mp hic)] at this
  · intro h j hj hbefore
    by_cases hjc : j < chunk va len
    · rw [pageOf_after (add_lt_of_lt_chunk hjc)]
      exact PgDir.hasTable_of_present hacc.1
    · have hnext := h (j - chunk va len) (by omega) fun i hi => by
        rw [after_after]
        exact hbefore _ (by omega)
      rwa [after_after, Nat.add_sub_cancel' (not_lt.mp hjc)] at hnext

variable {fuel : ℕ}

theorem copyoutLoop_step (hacc : Accessible d va) (hlen : 0 < bytes.length) :
    (copyoutLoop d (fuel + 1) va bytes).run s =
      (copyoutLoop d fuel (after va (chunk va bytes.length))
        (bytes.drop (chunk va bytes.length))).run
        { s with mem := storeAll d s.mem va (bytes.take (chunk va bytes.length)) } := by
  have hpage : va.toNat % PGSIZE + (bytes.take (chunk va bytes.length)).length ≤ PGSIZE := by
    have hmod : va.toNat % PGSIZE < PGSIZE := Nat.mod_lt _ (by decide)
    have hchunk : chunk va bytes.length ≤ PGSIZE - va.toNat % PGSIZE := Nat.min_le_left _ _
    rw [List.length_take]
    omega
  have hturn : (copyoutLoop d (fuel + 1) va bytes).run s =
      (copyoutLoop d fuel (after va (PGSIZE - va.toNat % PGSIZE))
        (bytes.drop (chunk va bytes.length))).run
        { s with mem := storeAll d s.mem va (bytes.take (chunk va bytes.length)) } := by
    rw [copyoutLoop, if_pos hlen, show va.toNat / PGSIZE = pageOf va from rfl,
      bind_ok (uva2ka_some hacc), storeAll_page s.mem hpage, ← after_page]
    rfl
  rcases Nat.lt_or_ge (PGSIZE - va.toNat % PGSIZE) bytes.length with hlong | hshort
  · rwa [← Nat.min_eq_left hlong.le] at hturn
  · -- the buffer ends in this page, and the address does not matter any more
    have hend : bytes.drop (chunk va bytes.length) = [] :=
      List.drop_eq_nil_of_le (Nat.le_min.mpr ⟨hshort, le_rfl⟩)
    rw [hturn, hend]
    cases fuel <;> rfl

theorem copied_nil (d : PgDir) (va : Word) (s : Machine) : Copied d va [] s 0 s :=
  ⟨0, le_rfl, fun j hj => absurd hj (Nat.not_lt_zero j), rfl, Or.inl ⟨rfl, rfl⟩⟩

theorem noGap_zero (d : PgDir) (va : Word) : NoGap d va 0 :=
  fun j hj => absurd hj (Nat.not_lt_zero j)

theorem Copied.step (hacc : Accessible d va) {r : Word} {s' : Machine}
    (h : Copied d (after va (chunk va bytes.length)) (bytes.drop (chunk va bytes.length))
      { s with mem := storeAll d s.mem va (bytes.take (chunk va bytes.length)) } r s') :
    Copied d va bytes s r s' := by
  obtain ⟨k, hk, hall, rfl, hend⟩ := h
  have hle : chunk va bytes.length ≤ bytes.length := Nat.min_le_right _ _
  rw [List.length_drop] at hk hend
  refine ⟨chunk va bytes.length + k, by omega, fun j hj => ?_, ?_, ?_⟩
  · by_cases hjc : j < chunk va bytes.length
    · exact (accessible_after (add_lt_of_lt_chunk hjc)).mpr hacc
    · have := hall (j - chunk va bytes.length) (by omega)
      rwa [after_after, Nat.add_sub_cancel' (not_lt.mp hjc)] at this
  · have htake : bytes.take (chunk va bytes.length + k) = bytes.take (chunk va bytes.length) ++
        (bytes.drop (chunk va bytes.length)).take k := List.take_add
    rw [htake, storeAll_append, List.length_take, Nat.min_eq_left hle]
  · rw [after_after] at hend
    rcases hend with ⟨hr, hk⟩ | ⟨hr, hk, hnot⟩
    · exact Or.inl ⟨hr, by omega⟩
    · exact Or.inr ⟨hr, by omega, hnot⟩

theorem copyoutLoop_refused (hpos : 0 < bytes.length) (htable : d.HasTable (pageOf va))
    (hacc : ¬ Accessible d va) :
    NoGap d va bytes.length ∧
      Returns (copyoutLoop d (fuel + 1) va bytes) s (Copied d va bytes s) := by
  constructor
  · intro j hj hbefore
    rcases Nat.eq_zero_or_pos j with rfl | hjpos
    · rwa [after_zero]
    · have h0 := hbefore 0 hjpos
      rw [after_zero] at h0
      exact absurd h0 hacc
  · rw [copyoutLoop, if_pos hpos]
    refine Returns.bind_of_eq (uva2ka_none htable hacc) (returns_pure ?_)
    refine ⟨0, Nat.zero_le _, fun j hj => absurd hj (Nat.not_lt_zero j), rfl,
      Or.inr ⟨rfl, hpos, ?_⟩⟩
    rwa [after_zero]

theorem copyoutLoop_null (hpos : 0 < bytes.length) (htable : ¬ d.HasTable (pageOf va)) :
    ¬ NoGap d va bytes.length ∧
      Stops (copyoutLoop d (fuel + 1) va bytes) s fun e _ => e = .nullPte := by
  constructor
  · intro h
    have := h 0 hpos fun i hi => absurd hi (Nat.not_lt_zero i)
    rw [after_zero] at this
    exact htable this
  · rw [copyoutLoop, if_pos hpos]
    exact ⟨.nullPte, s, bind_error (uva2ka_null htable), rfl⟩

theorem copyoutLoop_cases (hfuel : bytes.length ≤ fuel) :
    (NoGap d va bytes.length ∧ Returns (copyoutLoop d fuel va bytes) s (Copied d va bytes s)) ∨
    (¬ NoGap d va bytes.length ∧
      Stops (copyoutLoop d fuel va bytes) s fun e _ => e = .nullPte) := by
  induction fuel generalizing va bytes s with
  | zero =>
    obtain rfl : bytes = [] := List.length_eq_zero_iff.mp (Nat.le_zero.mp hfuel)
    exact Or.inl ⟨noGap_zero d va, returns_pure (copied_nil d va s)⟩
  | succ fuel ih =>
    rcases Nat.eq_zero_or_pos bytes.length with hzero | hpos
    · obtain rfl := List.length_eq_zero_iff.mp hzero
      exact Or.inl ⟨noGap_zero d va, returns_pure (copied_nil d va s)⟩
    by_cases htable : d.HasTable (pageOf va)
    swap
    · exact Or.inr (copyoutLoop_null hpos htable)
    by_cases hacc : Accessible d va
    swap
    · exact Or.inl (copyoutLoop_refused hpos htable hacc)
    have hmod : va.toNat % PGSIZE < PGSIZE := Nat.mod_lt _ (by decide)
    have hstep : (copyoutLoop d (fuel + 1) va bytes).run s = _ := copyoutLoop_step hacc hpos
    have hchunk : 0 < chunk va bytes.length := Nat.lt_min.mpr ⟨by omega, hpos⟩
    have hdrop : (bytes.drop (chunk va bytes.length)).length ≤ fuel := by
      rw [List.length_drop]
      omega
    rw [Returns, Stops, hstep]
    rcases ih hdrop with ⟨hgap, hcopy⟩ | ⟨hgap, hstop⟩ <;> rw [List.length_drop] at hgap
    · exact Or.inl ⟨(noGap_step hacc).mpr hgap, hcopy.mono fun _ _ h => h.step hacc⟩
    · exact Or.inr ⟨fun h => hgap ((noGap_step hacc).mp h), hstop⟩

end Copy

theorem copyout_iff (d : PgDir) (va : Word) (bytes : List Byte) (s : Machine) :
    Returns (copyout d va bytes) s (Copied d va bytes s) ↔ NoGap d va bytes.length := by
  rcases copyoutLoop_cases (le_refl bytes.length) with ⟨hgap, hok⟩ | ⟨hgap, hnull⟩
  · exact iff_of_true hok hgap
  · exact iff_of_false hnull.not_returns hgap

/-- `exec` makes room on the stack for a string of `len` bytes and its end. -/
def pushArgument (sp : Word) (len : ℕ) : Word := (sp - BitVec.ofNat 32 (len + 1)) &&& ~~~3

/-- The tables of `exec` for a program of one page: the program, the guard page and the stack,
and the kernel's part. -/
def execDir : PgDir where
  page := 0x600
  pde i :=
    if i = 0 then
      some ⟨0x601, fun j =>
        if j = 0 then ⟨0x500, 7⟩ else if j = 1 then ⟨0x501, 3⟩ else if j = 2 then ⟨0x502, 7⟩
        else .zero⟩
    else if 512 ≤ i ∧ i < 568 then some ⟨0x602 + i, fun j => ⟨(i - 512) * NPTENTRIES + j, 3⟩⟩
    else if 1016 ≤ i then some ⟨0x602 + i, fun j => ⟨i * NPTENTRIES + j, 3⟩⟩
    else none

@[irreducible] def longArgument : List Byte := List.replicate 0x2003000 0x61 ++ [0]

theorem length_longArgument : longArgument.length = 0x2003001 := by
  rw [longArgument, List.length_append, List.length_replicate, List.length_singleton]

/-- An argument of a little more than 32 MB takes the stack pointer below 0 and past the devices,
to where there is no page table. -/
theorem not_copyout :
    pushArgument 0x3000 0x2003000 = 0xFDFFFFFC ∧ longArgument.length = 0x2003000 + 1 ∧
    Stops (copyout execDir 0xFDFFFFFC longArgument) emptyMachine (fun e _ => e = .nullPte) ∧
    ¬ Returns (copyout execDir 0xFDFFFFFC longArgument) emptyMachine
      (Copied execDir 0xFDFFFFFC longArgument emptyMachine) := by
  have htable : ¬ execDir.HasTable (pageOf 0xFDFFFFFC) := by
    rw [PgDir.HasTable]
    decide
  have hstop : Stops (copyout execDir 0xFDFFFFFC longArgument) emptyMachine
      (fun e _ => e = .nullPte) := by
    rw [copyout, length_longArgument]
    exact (copyoutLoop_null (by rw [length_longArgument]; decide) htable).2
  exact ⟨by decide, length_longArgument, hstop, hstop.not_returns⟩

end Xv6Prng.UserSpace
