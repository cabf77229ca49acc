import Xv6Prng.Kernel

/-!
# The hash of `hash.c`

`init` copies the message into a page taken from the allocator. It checks the length
first; the page is not cleared, since the call of `memset` that should do it passes its
arguments in the wrong order and writes nothing. `char` is signed: a byte above `0x7F`
is sign-extended before it is shifted into its word.

`rotright` shifts left by `sizeof(unsigned int) - n`, an unsigned difference that wraps
for `n > 4`. C leaves such a shift undefined, so its value is a parameter, `wide`. The loops
take any function in the place of `rotright`. The static arrays `h` and `w` are written
before they are read in every call and are locals here.
-/

namespace Xv6Prng

open ByteWords Halting Ownership

namespace Hash

/-- `h[0]` to `h[7]`, and the working variables of the compression. -/
structure State where
  a : Word
  b : Word
  c : Word
  d : Word
  e : Word
  f : Word
  g : Word
  z : Word

def initial : State where
  a := 0x6a09e667
  b := 0xbb67ae85
  c := 0x3c6ef372
  d := 0xa54ff53a
  e := 0x510e527f
  f := 0x9b05688c
  g := 0x1f83d9ab
  z := 0x5be0cd19

def k : List Word := [
  0x428a2f98, 0x71374491, 0xb5c0fbcf, 0xe9b5dba5, 0x3956c25b, 0x59f111f1, 0x923f82a4, 0xab1c5ed5,
  0xd807aa98, 0x12835b01, 0x243185be, 0x550c7dc3, 0x72be5d74, 0x80deb1fe, 0x9bdc06a7, 0xc19bf174,
  0xe49b69c1, 0xefbe4786, 0x0fc19dc6, 0x240ca1cc, 0x2de92c6f, 0x4a7484aa, 0x5cb0a9dc, 0x76f988da,
  0x983e5152, 0xa831c66d, 0xb00327c8, 0xbf597fc7, 0xc6e00bf3, 0xd5a79147, 0x06ca6351, 0x14292967,
  0x27b70a85, 0x2e1b2138, 0x4d2c6dfc, 0x53380d13, 0x650a7354, 0x766a0abb, 0x81c2c92e, 0x92722c85,
  0xa2bfe8a1, 0xa81a664b, 0xc24b8b70, 0xc76c51a3, 0xd192e819, 0xd6990624, 0xf40e3585, 0x106aa070,
  0x19a4c116, 0x1e376c08, 0x2748774c, 0x34b0bcb5, 0x391c0cb3, 0x4ed8aa4a, 0x5b9cca4f, 0x682e6ff3,
  0x748f82ee, 0x78a5636f, 0x84c87814, 0x8cc70208, 0x90befffa, 0xa4506ceb, 0xbef9a3f7, 0xc67178f2]

def rotright (wide : Word → ℕ → Word) (a : Word) (n : ℕ) : Word :=
  let left := (4 - BitVec.ofNat 32 n).toNat
  (a >>> n) ||| if left < 32 then a <<< left else wide a left

/-- `bufsize` of `init`, the length of the padded message in bytes. -/
def bufsize (size : ℤ) : ℤ := size + (512 - size.tmod 512)

def sizeOk (size : ℤ) : Prop := ¬ (size < 0 ∨ bufsize size < size ∨ bufsize size ≥ PGSIZE)

instance (size : ℤ) : Decidable (sizeOk size) := inferInstanceAs (Decidable (¬ _))

theorem sizeOk_iff (size : ℤ) : sizeOk size ↔ 0 ≤ size ∧ size < 3584 := by
  simp only [sizeOk, bufsize, PGSIZE]
  constructor
  · intro h
    have h0 : 0 ≤ size := by omega
    rw [Int.tmod_eq_emod_of_nonneg h0] at h
    omega
  · rintro ⟨h0, h1⟩
    rw [Int.tmod_eq_emod_of_nonneg h0]
    omega

def messageWord (data : Buffer 4096) (i : ℕ) : Word :=
  (byteAt data (i + 3)).signExtend 32 ||| ((byteAt data (i + 2)).signExtend 32 <<< 8) |||
    ((byteAt data (i + 1)).signExtend 32 <<< 16) ||| ((byteAt data i).signExtend 32 <<< 24)

/-- The buffer after the loop of `init`: word `i / 4` is written for `i = 0, 4, … < size`. -/
def fill (data : Buffer 4096) (size : ℤ) (buffer : Page) : Page :=
  (List.range ((size.toNat + 3) / 4)).foldl
    (fun page index => storeWord page index (messageWord data (4 * index))) buffer

section Loops

variable (rot : Word → ℕ → Word)

def scheduleStep (w : Array Word) (i : ℕ) : Array Word :=
  let x := w.getD (i - 15) 0
  let y := w.getD (i - 2) 0
  let s0 := rot x 7 ^^^ rot x 18 ^^^ (x >>> 3)
  let s1 := rot y 17 ^^^ rot y 19 ^^^ (y >>> 10)
  w.push (w.getD (i - 16) 0 + s0 + w.getD (i - 7) 0 + s1)

def schedule (buffer : ℕ → Word) (chunkind : ℕ) : Array Word :=
  (List.range 48).foldl (fun w i => scheduleStep rot w (i + 16))
    (Array.ofFn fun i : Fin 16 => buffer (chunkind + i.val))

def round (w : Array Word) (v : State) (i : ℕ) : State :=
  let S1 := rot v.e 6 ^^^ rot v.e 11 ^^^ rot v.e 25
  let ch := (v.e &&& v.f) ^^^ (~~~v.e &&& v.g)
  let temp1 := v.z + S1 + ch + k.getD i 0 + w.getD i 0
  let S0 := rot v.a 2 ^^^ rot v.a 13 ^^^ rot v.a 22
  let maj := (v.a &&& v.b) ^^^ (v.a &&& v.c) ^^^ (v.b &&& v.c)
  let temp2 := S0 + maj
  { a := temp1 + temp2, b := v.a, c := v.b, d := v.c, e := v.d + temp1, f := v.e, g := v.f,
    z := v.g }

def chunk (buffer : ℕ → Word) (h : State) (chunkind : ℕ) : State :=
  let w := schedule rot buffer chunkind
  let v := (List.range 64).foldl (round rot w) h
  { a := h.a + v.a, b := h.b + v.b, c := h.c + v.c, d := h.d + v.d, e := h.e + v.e,
    f := h.f + v.f, g := h.g + v.g, z := h.z + v.z }

/-- The loop over `chunkind = 0, 16, … < words`; `words` is a multiple of 128 here. -/
def sha256With (buffer : ℕ → Word) (words : ℕ) : State :=
  (List.range ((words + 15) / 16)).foldl (fun h i => chunk rot buffer h (16 * i)) initial

end Loops

def sha256internal (wide : Word → ℕ → Word) (buffer : ℕ → Word) (words : ℕ) : State :=
  sha256With (rotright wide) buffer words

def word (h : State) : ℕ → Word
  | 0 => h.a
  | 1 => h.b
  | 2 => h.c
  | 3 => h.d
  | 4 => h.e
  | 5 => h.f
  | 6 => h.g
  | _ => h.z

def digest (h : State) : Buffer 32 := fun i => byteOf (word h (i.val / 4)) (3 - i.val % 4)

def hashed (wide : Word → ℕ → Word) (data : Buffer 4096) (size : ℤ) (page : Page) : Buffer 32 :=
  digest (sha256internal wide (loadWord (fill data size page)) ((bufsize size).toNat / 4))

end Hash

variable {L : Layout}

/-- The result of `kalloc` is not checked: the length check comes first, and the first
access to a null buffer after it. The buffer is never freed. -/
def sha256 (data : Buffer 4096) (size : ℤ) : KernelM L (Buffer 32) := do
  let buffer ← kalloc
  if Hash.sizeOk size then
    match buffer with
    | none => throw (.undefined .badPointer)
    | some p =>
      modify fun s => s.setHeap (s.heap.write p (Hash.fill data size (s.heap.mem p)))
      let s ← get
      return Hash.digest
        (Hash.sha256internal L.wide (loadWord (s.heap.mem p)) ((Hash.bufsize size).toNat / 4))
  else panic "invalid sha256 message size\n"

end Xv6Prng
