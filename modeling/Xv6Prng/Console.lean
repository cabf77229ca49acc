import Xv6Prng.Library.ByteWords

/-!
# The console's input buffer

`input` of `console.c`: characters up to `w` are for readers, those from `w` to `e` are still
being edited. `consoleintr` handles one key at a time, `consoleread` takes one character at a
time; both hold `cons.lock`.
-/

namespace Xv6Prng.Console

abbrev INPUT_BUF : ℕ := 128

structure Input where
  buf : Fin INPUT_BUF → Byte
  r : Word
  w : Word
  e : Word

namespace Input

variable (I : Input)

def index (x : Word) : Fin INPUT_BUF := ⟨x.toNat % INPUT_BUF, Nat.mod_lt _ (by decide)⟩

def backspace : Input := { I with e := I.e - 1 }

def killLine : ℕ → Input → Input
  | 0, I => I
  | fuel + 1, I =>
    if I.e ≠ I.w ∧ I.buf (index (I.e - 1)) ≠ 10 then killLine fuel I.backspace else I

def put (c : Byte) : Input := { I with buf := Function.update I.buf (index I.e) c, e := I.e + 1 }

def lineEnd (c : Byte) : Prop := c = 10 ∨ c = 4 ∨ I.e = I.r + BitVec.ofNat 32 INPUT_BUF

instance (c : Byte) : Decidable (I.lineEnd c) := inferInstanceAs (Decidable (_ ∨ _))

def commit : Input := { I with w := I.e }

/-- The default case of `consoleintr`, and whether it reaches the calls of `wakeup`. -/
def store (c : Byte) : Input × Bool :=
  if c ≠ 0 ∧ (I.e - I.r).toNat < INPUT_BUF then
    let c := if c = 13 then 10 else c
    if (I.put c).lineEnd c then ((I.put c).commit, true) else (I.put c, false)
  else (I, false)

/-- One turn of the loop of `consoleintr`; the number of turns of `C('U')` is the length of the
line. -/
def key (c : Byte) : Input × Bool :=
  if c = 16 then (I, false)
  else if c = 21 then (killLine (I.e - I.w).toNat I, false)
  else if c = 8 ∨ c = 127 then (if I.e ≠ I.w then I.backspace else I, false)
  else I.store c

def readable : Prop := I.r ≠ I.w

instance : Decidable I.readable := inferInstanceAs (Decidable (_ ≠ _))

def take : Byte × Input := (I.buf (index I.r), { I with r := I.r + 1 })

theorem killLine_readable (fuel : ℕ) (I : Input) : (killLine fuel I).readable ↔ I.readable := by
  induction fuel generalizing I with
  | zero => exact Iff.rfl
  | succ fuel ih =>
    unfold killLine
    split
    · exact ih I.backspace
    · exact Iff.rfl

theorem key_readable {I : Input} {c : Byte} (h : (I.key c).2 = false) :
    (I.key c).1.readable ↔ I.readable := by
  unfold key at h ⊢
  split_ifs at h ⊢
  · exact Iff.rfl
  · exact killLine_readable _ I
  · exact Iff.rfl
  · exact Iff.rfl
  · unfold store at h ⊢
    dsimp only at h ⊢
    split_ifs at h ⊢ <;> exact Iff.rfl

end Input

end Xv6Prng.Console
