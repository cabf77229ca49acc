import Xv6Prng.Hash
import Mathlib.Tactic.Abel

/-!
# The compression of `hash.c` and SHA-256

The standard's constants are fractions of roots of the first primes, its schedule is a
recursion, and its rotations are rotations. The loops of `sha256internal` follow it with any
function in the place of `rotright` that rotates by the ten amounts they use. `rotright` itself
does not: it shifts left by `4 - n` where a rotation shifts by `32 - n`.
-/

namespace Xv6Prng

open ByteWords

namespace Fips180

def root (e n : ℕ) : ℕ :=
  (List.range 40).foldr (fun i r => if (r + 2 ^ i) ^ e ≤ n then r + 2 ^ i else r) 0

/-- The first 32 bits of the fractional part of the root of `p` of degree `e`. -/
def fraction (e p : ℕ) : Word := BitVec.ofNat 32 (root e (p * 2 ^ (32 * e)))

def primes : List ℕ :=
  (List.range 312).filter fun n => 2 ≤ n ∧ ∀ d ∈ List.range n, 2 ≤ d → n % d ≠ 0

def K (t : ℕ) : Word := fraction 3 (primes.getD t 0)

def H0 (i : ℕ) : Word := fraction 2 (primes.getD i 0)

def ch (x y z : Word) : Word := (x &&& y) ^^^ (~~~x &&& z)

def maj (x y z : Word) : Word := (x &&& y) ^^^ (x &&& z) ^^^ (y &&& z)

def bigSigma0 (x : Word) : Word := x.rotateRight 2 ^^^ x.rotateRight 13 ^^^ x.rotateRight 22

def bigSigma1 (x : Word) : Word := x.rotateRight 6 ^^^ x.rotateRight 11 ^^^ x.rotateRight 25

def smallSigma0 (x : Word) : Word := x.rotateRight 7 ^^^ x.rotateRight 18 ^^^ (x >>> 3)

def smallSigma1 (x : Word) : Word := x.rotateRight 17 ^^^ x.rotateRight 19 ^^^ (x >>> 10)

def W (M : ℕ → Word) (t : ℕ) : Word :=
  if t < 16 then M t
  else smallSigma1 (W M (t - 2)) + W M (t - 7) + smallSigma0 (W M (t - 15)) + W M (t - 16)
termination_by t

structure Value where
  a : Word
  b : Word
  c : Word
  d : Word
  e : Word
  f : Word
  g : Word
  h : Word

def initialValue : Value := ⟨H0 0, H0 1, H0 2, H0 3, H0 4, H0 5, H0 6, H0 7⟩

def step (M : ℕ → Word) (v : Value) (t : ℕ) : Value :=
  let T1 := v.h + bigSigma1 v.e + ch v.e v.f v.g + K t + W M t
  let T2 := bigSigma0 v.a + maj v.a v.b v.c
  ⟨T1 + T2, v.a, v.b, v.c, v.d + T1, v.e, v.f, v.g⟩

def add (v w : Value) : Value :=
  ⟨v.a + w.a, v.b + w.b, v.c + w.c, v.d + w.d, v.e + w.e, v.f + w.f, v.g + w.g, v.h + w.h⟩

def compress (M : ℕ → Word) (v : Value) : Value := add ((List.range 64).foldl (step M) v) v

def hash (M : ℕ → ℕ → Word) : ℕ → Value
  | 0 => initialValue
  | N + 1 => compress (M N) (hash M N)

end Fips180

namespace Hash

def amounts : List ℕ := [7, 18, 17, 19, 6, 11, 25, 2, 13, 22]

theorem rotright_two (wide : Word → ℕ → Word) : rotright wide 1 2 = 4 := by
  have hleft : (4 - BitVec.ofNat 32 2).toNat = 2 := rfl
  rw [rotright, hleft, if_pos (by decide)]
  decide

def State.toValue (v : State) : Fips180.Value := ⟨v.a, v.b, v.c, v.d, v.e, v.f, v.g, v.z⟩

theorem primes_length : Fips180.primes.length = 64 := by decide +kernel

theorem k_eq : k = Fips180.primes.map (Fips180.fraction 3) := by decide +kernel

theorem k_getD {t : ℕ} (ht : t < 64) : k.getD t 0 = Fips180.K t := by
  rw [← primes_length] at ht
  rw [Fips180.K, k_eq, List.getD_eq_getElem _ _ (by rwa [List.length_map]), List.getElem_map,
    List.getD_eq_getElem _ _ ht]

theorem initial_toValue : initial.toValue = Fips180.initialValue := by
  simp only [State.toValue, initial, Fips180.initialValue, Fips180.Value.mk.injEq]
  decide +kernel

structure Scheduled (M : ℕ → Word) (n : ℕ) (w : Array Word) : Prop where
  size : w.size = n
  word : ∀ t < n, w.getD t 0 = Fips180.W M t

theorem getD_push (w : Array Word) (x : Word) (t : ℕ) :
    (w.push x).getD t 0 = if t = w.size then x else w.getD t 0 := by
  rw [Array.getD_eq_getD_getElem?, Array.getElem?_push, Array.getD_eq_getD_getElem?]
  split <;> rfl

theorem scheduled_block (M : ℕ → Word) :
    Scheduled M 16 (Array.ofFn fun i : Fin 16 => M i.val) where
  size := Array.size_ofFn
  word t ht := by
    rw [Fips180.W, if_pos ht, Array.getD_eq_getD_getElem?, Array.getElem?_ofFn, dif_pos ht,
      Option.getD_some]

section Rotation

variable {rot : Word → ℕ → Word} (hrot : ∀ a, ∀ n ∈ amounts, rot a n = a.rotateRight n)
include hrot

variable {M : ℕ → Word} {w : Array Word}

theorem Scheduled.step {n : ℕ} (h : Scheduled M n w)
    (hn : 16 ≤ n) : Scheduled M (n + 1) (scheduleStep rot w n) where
  size := by rw [scheduleStep, Array.size_push, h.size]
  word t ht := by
    rw [scheduleStep, getD_push, h.size]
    by_cases hlast : t = n
    · rw [if_pos hlast, hlast, Fips180.W, if_neg (by omega), h.word _ (by omega),
        h.word _ (by omega), h.word _ (by omega), h.word _ (by omega),
        hrot _ 7 (by decide), hrot _ 18 (by decide), hrot _ 17 (by decide), hrot _ 19 (by decide)]
      simp only [Fips180.smallSigma0, Fips180.smallSigma1]
      abel
    · rw [if_neg hlast]
      exact h.word t (by omega)

theorem scheduled_schedule (buffer : ℕ → Word) (c : ℕ) :
    Scheduled (fun i => buffer (c + i)) 64 (schedule rot buffer c) := by
  suffices h : ∀ n, Scheduled (fun i => buffer (c + i)) (n + 16)
      ((List.range n).foldl (fun w i => scheduleStep rot w (i + 16))
        (Array.ofFn fun i : Fin 16 => buffer (c + i.val))) from h 48
  intro n
  induction n with
  | zero => exact scheduled_block fun i => buffer (c + i)
  | succ n ih =>
    rw [List.range_succ, List.foldl_append]
    have hstep := ih.step hrot (Nat.le_add_left 16 n)
    rwa [Nat.add_right_comm] at hstep

theorem round_toValue (hw : Scheduled M 64 w) (v : State)
    {t : ℕ} (ht : t < 64) : (round rot w v t).toValue = Fips180.step M v.toValue t := by
  simp only [round, State.toValue, Fips180.step, Fips180.bigSigma0, Fips180.bigSigma1,
    Fips180.ch, Fips180.maj, k_getD ht, hw.word t ht, hrot _ 6 (by decide), hrot _ 11 (by decide),
    hrot _ 25 (by decide), hrot _ 2 (by decide), hrot _ 13 (by decide), hrot _ 22 (by decide)]

theorem rounds_toValue (hw : Scheduled M 64 w) (v : State) {n : ℕ}
    (hn : n ≤ 64) : ((List.range n).foldl (round rot w) v).toValue =
      (List.range n).foldl (Fips180.step M) v.toValue := by
  induction n with
  | zero => rfl
  | succ n ih =>
    rw [List.range_succ, List.foldl_append, List.foldl_append, ← ih (by omega)]
    exact round_toValue hrot hw _ hn

theorem chunk_toValue (buffer : ℕ → Word) (h : State) (c : ℕ) :
    (chunk rot buffer h c).toValue = Fips180.compress (fun i => buffer (c + i)) h.toValue := by
  rw [Fips180.compress, ← rounds_toValue hrot (scheduled_schedule hrot buffer c) h le_rfl]
  simp only [chunk, State.toValue, Fips180.add, BitVec.add_comm]

theorem sha256With_toValue (buffer : ℕ → Word) (N : ℕ) :
    (sha256With rot buffer (16 * N)).toValue =
      Fips180.hash (fun b t => buffer (16 * b + t)) N := by
  have hblocks : (16 * N + 15) / 16 = N := by omega
  rw [sha256With, hblocks]
  clear hblocks
  induction N with
  | zero => exact initial_toValue
  | succ N ih =>
    rw [List.range_succ, List.foldl_append, Fips180.hash, ← ih]
    exact chunk_toValue hrot buffer _ _

end Rotation

end Hash

end Xv6Prng
