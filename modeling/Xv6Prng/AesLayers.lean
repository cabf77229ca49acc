import Xv6Prng.Aes

/-!
# The layers of the cipher are undone by the inverse layers

Each layer is a map on the cells of the state, so an inverse is checked cell by cell.
The table inverse is a finite check; the column matrices are inverse already as
polynomials in `xTimes`, so only its linearity is needed and no arithmetic modulo the
field polynomial. For any array of round keys `aesEncrypt` and `aesDecrypt` are then
inverse to each other on blocks.
-/

namespace Xv6Prng.Aes

open ByteWords

@[simp] theorem byteOfState_ofCells (f : Fin 4 → Fin 4 → Byte) (row col : Fin 4) :
    byteOfState row col (ofCells f) = f row col := by
  simp only [byteOfState, ofCells, Vector.getElem_ofFn]
  congr 1 <;> ext <;> simp only <;> omega

theorem ext_cells {s t : Block} (h : ∀ row col, byteOfState row col s = byteOfState row col t) :
    s = t := by
  apply Vector.ext
  intro i hi
  have hc := h ⟨i / 4, by omega⟩ ⟨i % 4, by omega⟩
  simp only [byteOfState] at hc
  have hi' : i / 4 * 4 + i % 4 = i := by omega
  simpa only [hi'] using hc

theorem invSBox_sBox : ∀ b : Byte, invSBox (sBox b) = b := by decide +kernel

theorem invSubBytes_subBytes (s : Block) : invSubBytes (subBytes s) = s := by
  apply ext_cells
  intro row col
  simp [invSubBytes, subBytes, invSBox_sBox]

theorem invShiftRows_shiftRows (s : Block) : invShiftRows (shiftRows s) = s := by
  apply ext_cells
  intro row col
  simp [invShiftRows, shiftRows]

theorem addRoundKey_addRoundKey (s : Block) (roundKeys : RoundKeys) (base : ℕ) :
    addRoundKey (addRoundKey s roundKeys base) roundKeys base = s := by
  apply ext_cells
  intro row col
  simp [addRoundKey]

theorem loadFromState_loadToState (b : Block) : loadFromState (loadToState b) = b := by
  ext i hi
  have hi' : i / 4 * 4 + i % 4 = i := by omega
  simp [loadFromState, loadToState, hi']

theorem loadToState_loadFromState (s : Block) : loadToState (loadFromState s) = s := by
  apply ext_cells
  intro row col
  simp only [loadToState, byteOfState_ofCells, loadFromState, Vector.getElem_ofFn]
  congr 1 <;> ext <;> simp only <;> omega

theorem xTimes_eq (x : Byte) : xTimes x = (x <<< 1) ^^^ (if x.getLsbD 7 then 0x1b else 0) := by
  have hbit : x &&& 0x80 ≠ 0 ↔ x.getLsbD 7 = true := by
    revert x
    decide +kernel
  by_cases h : x.getLsbD 7 = true
  · rw [xTimes, if_pos (hbit.mpr h), if_pos h]
  · rw [xTimes, if_neg (fun hn => h (hbit.mp hn)), if_neg h]
    simp

theorem xor_left_comm (a b c : Byte) : a ^^^ (b ^^^ c) = b ^^^ (a ^^^ c) := by
  rw [← BitVec.xor_assoc, BitVec.xor_comm a b, BitVec.xor_assoc]

theorem xTimes_xor (x y : Byte) : xTimes (x ^^^ y) = xTimes x ^^^ xTimes y := by
  rw [xTimes_eq, xTimes_eq, xTimes_eq, BitVec.shiftLeft_xor_distrib, BitVec.getLsbD_xor]
  cases x.getLsbD 7 <;> cases y.getLsbD 7 <;>
    simp [BitVec.xor_assoc, xor_left_comm, BitVec.xor_comm]

theorem multLoop_xor (fuel : ℕ) (mul i j r t : Byte) :
    multLoop fuel mul (i ^^^ j) (r ^^^ t) = multLoop fuel mul i r ^^^ multLoop fuel mul j t := by
  induction fuel generalizing mul i j r t with
  | zero => rfl
  | succ fuel ih =>
    simp only [multLoop]
    split_ifs with h0 h1
    · rfl
    · rw [← ih, xTimes_xor]
      simp only [BitVec.xor_assoc, xor_left_comm]
    · rw [xTimes_xor, ih]

theorem mult_xor (mul x y : Byte) : mult mul (x ^^^ y) = mult mul x ^^^ mult mul y := by
  unfold mult
  split_ifs with h
  · rw [← multLoop_xor]
    simp
  · exact multLoop_xor 8 _ x y 0 0

theorem invMix_mix_coefficients : ∀ x : Byte,
    mult 0xe (mult 2 x) ^^^ mult 0xb x ^^^ mult 0xd x ^^^ mult 0x9 (mult 3 x) = x ∧
    mult 0xe (mult 3 x) ^^^ mult 0xb (mult 2 x) ^^^ mult 0xd x ^^^ mult 0x9 x = 0 ∧
    mult 0xe x ^^^ mult 0xb (mult 3 x) ^^^ mult 0xd (mult 2 x) ^^^ mult 0x9 x = 0 ∧
    mult 0xe x ^^^ mult 0xb x ^^^ mult 0xd (mult 3 x) ^^^ mult 0x9 (mult 2 x) = 0 := by
  decide +kernel

theorem xor_transpose (a₀ a₁ a₂ a₃ b₀ b₁ b₂ b₃ c₀ c₁ c₂ c₃ d₀ d₁ d₂ d₃ : Byte) :
    (a₀ ^^^ a₁ ^^^ a₂ ^^^ a₃) ^^^ (b₀ ^^^ b₁ ^^^ b₂ ^^^ b₃) ^^^ (c₀ ^^^ c₁ ^^^ c₂ ^^^ c₃) ^^^
      (d₀ ^^^ d₁ ^^^ d₂ ^^^ d₃) =
    (a₀ ^^^ b₀ ^^^ c₀ ^^^ d₀) ^^^ (a₁ ^^^ b₁ ^^^ c₁ ^^^ d₁) ^^^ (a₂ ^^^ b₂ ^^^ c₂ ^^^ d₂) ^^^
      (a₃ ^^^ b₃ ^^^ c₃ ^^^ d₃) := by
  ac_rfl

theorem invMix_mix_byte (a b c d : Byte) :
    mult 0xe (mult 2 a ^^^ mult 3 b ^^^ c ^^^ d) ^^^ mult 0xb (a ^^^ mult 2 b ^^^ mult 3 c ^^^ d) ^^^
      mult 0xd (a ^^^ b ^^^ mult 2 c ^^^ mult 3 d) ^^^
      mult 0x9 (mult 3 a ^^^ b ^^^ c ^^^ mult 2 d) = a := by
  simp only [mult_xor]
  rw [xor_transpose, (invMix_mix_coefficients a).1, (invMix_mix_coefficients b).2.1,
    (invMix_mix_coefficients c).2.2.1, (invMix_mix_coefficients d).2.2.2]
  simp

theorem invMixColumns_mixColumns (s : Block) : invMixColumns (mixColumns s) = s := by
  apply ext_cells
  intro row col
  simp only [invMixColumns, mixColumns, byteOfState_ofCells]
  -- The matrices are circulant: row `r` is row 0 on the column rotated by `r`.
  have hbyte := fun r₀ r₁ r₂ r₃ => invMix_mix_byte (byteOfState r₀ col s) (byteOfState r₁ col s)
    (byteOfState r₂ col s) (byteOfState r₃ col s)
  fin_cases row
  · exact hbyte 0 1 2 3
  · refine Eq.trans ?_ (hbyte 1 2 3 0)
    dsimp only
    ac_rfl
  · refine Eq.trans ?_ (hbyte 2 3 0 1)
    dsimp only
    ac_rfl
  · refine Eq.trans ?_ (hbyte 3 0 1 2)
    dsimp only
    ac_rfl

theorem decryptRound_encryptRound (roundKeys : RoundKeys) (s : Block) (round : ℕ) :
    decryptRound roundKeys (shiftRows (subBytes (encryptRound roundKeys s round))) round =
      shiftRows (subBytes s) := by
  rw [decryptRound, invShiftRows_shiftRows, invSubBytes_subBytes, encryptRound,
    addRoundKey_addRoundKey, invMixColumns_mixColumns]

theorem decryptRounds_encryptRounds (roundKeys : RoundKeys) (rounds : List ℕ) (s : Block) :
    rounds.reverse.foldl (decryptRound roundKeys)
      (shiftRows (subBytes (rounds.foldl (encryptRound roundKeys) s))) =
      shiftRows (subBytes s) := by
  -- The last round encrypted is the first to be decrypted.
  induction rounds using List.reverseRecOn with
  | nil => rfl
  | append_singleton rounds round ih =>
    rw [List.foldl_append, List.reverse_append, List.foldl_append]
    simp only [List.foldl_cons, List.foldl_nil, List.reverse_singleton]
    rw [decryptRound_encryptRound, ih]

theorem aesDecrypt_aesEncrypt (roundKeys : RoundKeys) (keySize : ℕ) (b : Block) :
    aesDecrypt (aesEncrypt b roundKeys keySize) roundKeys keySize = b := by
  rw [aesDecrypt, aesEncrypt, loadToState_loadFromState, addRoundKey_addRoundKey,
    decryptRounds_encryptRounds, invShiftRows_shiftRows, invSubBytes_subBytes,
    addRoundKey_addRoundKey, loadFromState_loadToState]

theorem aesEncrypt_injective (roundKeys : RoundKeys) (keySize : ℕ) :
    Function.Injective fun b => aesEncrypt b roundKeys keySize :=
  Function.LeftInverse.injective (g := fun b => aesDecrypt b roundKeys keySize)
    (aesDecrypt_aesEncrypt roundKeys keySize)

instance : Finite Block :=
  Finite.of_injective (fun b (i : Fin 16) => b[i]) fun a b h =>
    Vector.ext fun i hi => congrFun h ⟨i, hi⟩

theorem aesEncrypt_aesDecrypt (roundKeys : RoundKeys) (keySize : ℕ) (b : Block) :
    aesEncrypt (aesDecrypt b roundKeys keySize) roundKeys keySize = b := by
  obtain ⟨a, rfl⟩ := Finite.surjective_of_injective (aesEncrypt_injective roundKeys keySize) b
  exact congrArg (fun c => aesEncrypt c roundKeys keySize)
    (aesDecrypt_aesEncrypt roundKeys keySize a)

theorem aes_mutually_inverse (roundKeys : RoundKeys) (keySize : ℕ) (b : Block) :
    aesDecrypt (aesEncrypt b roundKeys keySize) roundKeys keySize = b ∧
      aesEncrypt (aesDecrypt b roundKeys keySize) roundKeys keySize = b :=
  ⟨aesDecrypt_aesEncrypt roundKeys keySize b, aesEncrypt_aesDecrypt roundKeys keySize b⟩

end Xv6Prng.Aes
