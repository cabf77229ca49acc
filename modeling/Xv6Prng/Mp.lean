import Xv6Prng.Library.ByteWords

/-!
# The multiprocessor table: `mp.c`

`mpinit` walks over the entries of the configuration table. In the `default` case the `break`
leaves the `switch` and not the loop, so that at an entry of an unknown type the walk stands still
for ever.

The table is the memory from its address on; `mpsearch` has found `mp`, or nothing.
-/

namespace Xv6Prng.Mp

open ByteWords Function

abbrev NCPU : ℕ := 8

/-- What is used of a `struct mp`. -/
structure Pointer where
  physaddr : Word
  imcrp : Byte
  deriving DecidableEq

structure Globals where
  ismp : Bool
  ncpu : ℕ
  apicid : ℕ → Byte
  ioapicid : Byte
  lapic : Word
  ports : ℕ → Byte

def sum (addr : ℕ → Byte) (len : ℕ) : Byte := (List.range len).foldl (fun s i => s + addr i) 0

def tableLength (conf : ℕ → Byte) : ℕ := (conf 4).toNat + 256 * (conf 5).toNat

def mpconfig (mp : Option Pointer) (conf : ℕ → Byte) : Option Pointer :=
  match mp with
  | none => none
  | some mp =>
    if mp.physaddr = 0 then none
    else if (List.range 4).map conf ≠ [0x50, 0x43, 0x4d, 0x50] then none
    else if conf 6 ≠ 1 ∧ conf 6 ≠ 4 then none
    else if sum conf (tableLength conf) ≠ 0 then none
    else some mp

/-- The body of the loop: `p` as an offset in the table, and the variables. -/
def turn (conf : ℕ → Byte) (s : ℕ × Globals) : ℕ × Globals :=
  match (conf s.1).toNat with
  | 0 => (s.1 + 20,
      if s.2.ncpu < NCPU then
        { s.2 with
          apicid := Function.update s.2.apicid s.2.ncpu (conf (s.1 + 1))
          ncpu := s.2.ncpu + 1 }
      else s.2)
  | 2 => (s.1 + 8, { s.2 with ioapicid := conf (s.1 + 1) })
  | 1 | 3 | 4 => (s.1 + 8, s.2)
  | _ => (s.1, { s.2 with ismp := false })

/-- The loop, which is cut off after `fuel` turns. -/
def scan (conf : ℕ → Byte) (e : ℕ) : ℕ → ℕ × Globals → Option Globals
  | 0, _ => none
  | fuel + 1, s => if s.1 < e then scan conf e fuel (turn conf s) else some s.2

/-- The first entry comes after the 44 bytes of a `struct mpconf`. -/
def start (conf : ℕ → Byte) (g : Globals) : ℕ × Globals :=
  (44, { g with ismp := true, lapic := ofBytes (conf 36) (conf 37) (conf 38) (conf 39) })

def finish (mp : Pointer) (g : Globals) : Globals :=
  if g.ismp = false then { g with ncpu := 1, lapic := 0, ioapicid := 0 }
  else if mp.imcrp ≠ 0 then
    { g with
      ports := Function.update (Function.update g.ports 0x22 0x70) 0x23 (g.ports 0x23 ||| 1) }
  else g

def mpinit (fuel : ℕ) (mp : Option Pointer) (conf : ℕ → Byte) (g : Globals) : Option Globals :=
  match mpconfig mp conf with
  | none => some g
  | some mp => (scan conf (tableLength conf) fuel (start conf g)).map (finish mp)

def Known (conf : ℕ → Byte) (p : ℕ) : Prop := (conf p).toNat ≤ 4

def entry (conf : ℕ → Byte) : ℕ → ℕ
  | 0 => 44
  | k + 1 => entry conf k + if (conf (entry conf k)).toNat = 0 then 20 else 8

variable {conf : ℕ → Byte} {s : ℕ × Globals} {g : Globals} {e k : ℕ}

theorem fst_turn (h : Known conf s.1) :
    (turn conf s).1 = s.1 + if (conf s.1).toNat = 0 then 20 else 8 := by
  rw [Known] at h
  rw [turn]
  split <;> simp_all
  omega

theorem turn_unknown (h : ¬ Known conf s.1) : (turn conf s).1 = s.1 := by
  rw [Known] at h
  rw [turn]
  split <;> simp_all

theorem ncpu_turn (h : s.2.ncpu ≤ NCPU) : (turn conf s).2.ncpu ≤ NCPU := by
  rw [turn]
  split
  · dsimp only
    split_ifs with hlt
    · exact hlt
    · exact h
  all_goals exact h

theorem ncpu_iterate (h : s.2.ncpu ≤ NCPU) (k : ℕ) : ((turn conf)^[k] s).2.ncpu ≤ NCPU := by
  induction k with
  | zero => exact h
  | succ k ih =>
    rw [iterate_succ_apply']
    exact ncpu_turn ih

theorem scan_eq_some {fuel : ℕ} : scan conf e fuel s = some g ↔
    ∃ k < fuel, (∀ j < k, ((turn conf)^[j] s).1 < e) ∧ e ≤ ((turn conf)^[k] s).1 ∧
      ((turn conf)^[k] s).2 = g := by
  induction fuel generalizing s with
  | zero => simp [scan]
  | succ fuel ih =>
    rw [scan]
    split_ifs with hlt
    · rw [ih]
      constructor
      · rintro ⟨k, hk, hbefore, hend⟩
        refine ⟨k + 1, by omega, fun j hj => ?_, hend⟩
        cases j with
        | zero => exact hlt
        | succ j => exact hbefore j (by omega)
      · rintro ⟨k, hk, hbefore, hend⟩
        cases k with
        | zero => exact absurd hend.1 (not_le.mpr hlt)
        | succ k => exact ⟨k, by omega, fun j hj => hbefore (j + 1) (by omega), hend⟩
    · constructor
      · intro h
        exact ⟨0, Nat.succ_pos fuel, by simp, not_lt.mp hlt, Option.some_inj.mp h⟩
      · rintro ⟨k, -, hbefore, -, hg⟩
        cases k with
        | zero => exact congrArg some hg
        | succ k => exact absurd (hbefore 0 (Nat.succ_pos k)) hlt

theorem fst_iterate (h : ∀ j < k, Known conf (entry conf j)) :
    ((turn conf)^[k] (start conf g)).1 = entry conf k := by
  induction k with
  | zero => rfl
  | succ k ih =>
    have hk := ih fun j hj => h j (by omega)
    rw [iterate_succ_apply', fst_turn (by rw [hk]; exact h k (Nat.lt_succ_self k)), hk, entry]

theorem le_entry (conf : ℕ → Byte) (k : ℕ) : 8 * k ≤ entry conf k := by
  induction k with
  | zero => exact Nat.zero_le _
  | succ k ih =>
    rw [entry]
    split_ifs
    · omega
    · omega

theorem entry_mono (conf : ℕ → Byte) : Monotone (entry conf) :=
  monotone_nat_of_le_succ fun _ => Nat.le_add_right _ _

theorem exists_past_iff (g : Globals) : (∃ k, e ≤ ((turn conf)^[k] (start conf g)).1) ↔
    ∀ k, entry conf k < e → Known conf (entry conf k) := by
  constructor
  · rintro ⟨k, hk⟩
    by_contra hnot
    push Not at hnot
    classical
    obtain ⟨hlt, hunknown⟩ := Nat.find_spec hnot
    have hknown : ∀ j < Nat.find hnot, Known conf (entry conf j) := fun j hj => by
      have hmin := Nat.find_min hnot hj
      rw [not_and, not_not] at hmin
      exact hmin ((entry_mono conf hj.le).trans_lt hlt)
    -- from the first unknown entry on the walk stands still
    have hstays (n : ℕ) : ((turn conf)^[n + Nat.find hnot] (start conf g)).1 =
        entry conf (Nat.find hnot) := by
      induction n with
      | zero =>
        rw [Nat.zero_add]
        exact fst_iterate hknown
      | succ n ih => rw [Nat.succ_add, iterate_succ_apply', turn_unknown (by rwa [ih]), ih]
    rcases Nat.lt_or_ge k (Nat.find hnot) with hbefore | hafter
    · rw [fst_iterate fun j hj => hknown j (hj.trans hbefore)] at hk
      exact absurd ((entry_mono conf hbefore.le).trans_lt hlt) (not_lt.mpr hk)
    · rw [← Nat.sub_add_cancel hafter, hstays] at hk
      exact absurd hlt (not_lt.mpr hk)
  · intro h
    by_contra hnot
    push Not at hnot
    have hall (k : ℕ) : ∀ j < k, Known conf (entry conf j) := by
      induction k with
      | zero => simp
      | succ k ih =>
        intro j hj
        rcases Nat.lt_or_eq_of_le (Nat.le_of_lt_succ hj) with hlt | rfl
        · exact ih j hlt
        · exact h j (by rw [← fst_iterate (g := g) ih]; exact hnot j)
    have hlt := hnot e
    rw [fst_iterate (hall e)] at hlt
    have := le_entry conf e
    omega

theorem mpinit_iff {mp : Option Pointer} (hconf : (mpconfig mp conf).isSome)
    (hcpu : g.ncpu ≤ NCPU) :
    ((∃ fuel, (mpinit fuel mp conf g).isSome) ↔
      ∀ k, entry conf k < tableLength conf → Known conf (entry conf k)) ∧
    (∀ k, ((turn conf)^[k] (start conf g)).2.ncpu ≤ NCPU) ∧
    ∀ fuel g', mpinit fuel mp conf g = some g' → g'.ncpu ≤ NCPU := by
  obtain ⟨mp', hmp⟩ := Option.isSome_iff_exists.mp hconf
  have hall (k : ℕ) : ((turn conf)^[k] (start conf g)).2.ncpu ≤ NCPU := ncpu_iterate hcpu k
  simp only [mpinit, hmp, Option.isSome_map]
  refine ⟨?_, hall, fun fuel g' hg => ?_⟩
  · rw [← exists_past_iff g]
    constructor
    · rintro ⟨fuel, hsome⟩
      obtain ⟨g', hg⟩ := Option.isSome_iff_exists.mp hsome
      obtain ⟨k, -, -, hpast, -⟩ := scan_eq_some.mp hg
      exact ⟨k, hpast⟩
    · intro hpast
      classical
      refine ⟨Nat.find hpast + 1, Option.isSome_iff_exists.mpr ⟨_, scan_eq_some.mpr
        ⟨Nat.find hpast, Nat.lt_succ_self _, fun j hj => not_le.mp (Nat.find_min hpast hj),
          Nat.find_spec hpast, rfl⟩⟩⟩
  · obtain ⟨g₁, hscan, rfl⟩ := Option.map_eq_some_iff.mp hg
    obtain ⟨k, -, -, -, rfl⟩ := scan_eq_some.mp hscan
    rw [finish]
    split_ifs
    · exact Nat.le_of_ble_eq_true rfl
    · exact hall k
    · exact hall k

def oneEntry (type check : Byte) : ℕ → Byte := fun i =>
  [0x50, 0x43, 0x4d, 0x50, 45, 0, 4, check].getD i (if i = 44 then type else 0)

def somePointer : Option Pointer := some ⟨0x9fc00, 0⟩

def cleared : Globals := ⟨false, 0, fun _ => 0, 0, 0, fun _ => 0⟩

theorem mpinit_iff_oneProcessor :
    ((∃ fuel, (mpinit fuel somePointer (oneEntry 0 159) cleared).isSome) ↔
      ∀ k, entry (oneEntry 0 159) k < tableLength (oneEntry 0 159) →
        Known (oneEntry 0 159) (entry (oneEntry 0 159) k)) ∧
    (∀ k, ((turn (oneEntry 0 159))^[k] (start (oneEntry 0 159) cleared)).2.ncpu ≤ NCPU) ∧
    ∀ fuel g', mpinit fuel somePointer (oneEntry 0 159) cleared = some g' → g'.ncpu ≤ NCPU :=
  mpinit_iff (by decide) (by decide)

/-- The walk does not get past an entry of type 5. -/
theorem not_mpinit :
    (mpconfig somePointer (oneEntry 5 154)).isSome ∧
      ∀ fuel, mpinit fuel somePointer (oneEntry 5 154) cleared = none := by
  refine ⟨by decide, fun fuel => ?_⟩
  have hstays (fuel : ℕ) (s : ℕ × Globals) (hs : s.1 = 44) :
      scan (oneEntry 5 154) 45 fuel s = none := by
    induction fuel generalizing s with
    | zero => rfl
    | succ fuel ih =>
      rw [scan, if_pos (by omega)]
      exact ih _ ((turn_unknown (by rw [hs, Known]; decide)).trans hs)
  have hconf : mpconfig somePointer (oneEntry 5 154) = somePointer := by decide
  rw [mpinit, hconf]
  exact Option.map_eq_none_iff.mpr (hstays fuel _ rfl)

end Xv6Prng.Mp
