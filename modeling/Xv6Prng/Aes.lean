import Xv6Prng.Library.ByteWords

/-!
# The AES block cipher of `aes.c`

The state of the cipher is the 16-byte array of the source, addressed by row and
column through `byteOfState`. A loop of the source that writes every cell of the
state once, from values read before the loop or from the cell itself, is given by
the value of each cell.

`char` temporaries are signed in the source; they are only copied, or xored and
then truncated to a byte, so that their sign never shows.
-/

namespace Xv6Prng.Aes

open ByteWords

def BLOCK_LENGTH : ℕ := 16
def AES_256_KEY_SIZE : ℕ := 8

/-- Sixteen bytes in memory order: plaintext, ciphertext, or the state by rows. -/
abbrev Block := Vector Byte 16

def byteOfState (row column : Fin 4) (state : Block) : Byte :=
  state[row.val * 4 + column.val]

def ofCells (f : Fin 4 → Fin 4 → Byte) : Block :=
  Vector.ofFn fun i => f ⟨i.val / 4, by omega⟩ ⟨i.val % 4, by omega⟩

def loadToState (input : Block) : Block :=
  ofCells fun row col => input[col.val * 4 + row.val]

def loadFromState (state : Block) : Block :=
  Vector.ofFn fun i => byteOfState ⟨i.val % 4, by omega⟩ ⟨i.val / 4, by omega⟩ state

set_option maxRecDepth 2000 in
def sBoxTable : List Byte := [
  0x63, 0x7c, 0x77, 0x7b, 0xf2, 0x6b, 0x6f, 0xc5, 0x30, 0x01, 0x67, 0x2b, 0xfe, 0xd7, 0xab, 0x76,
  0xca, 0x82, 0xc9, 0x7d, 0xfa, 0x59, 0x47, 0xf0, 0xad, 0xd4, 0xa2, 0xaf, 0x9c, 0xa4, 0x72, 0xc0,
  0xb7, 0xfd, 0x93, 0x26, 0x36, 0x3f, 0xf7, 0xcc, 0x34, 0xa5, 0xe5, 0xf1, 0x71, 0xd8, 0x31, 0x15,
  0x04, 0xc7, 0x23, 0xc3, 0x18, 0x96, 0x05, 0x9a, 0x07, 0x12, 0x80, 0xe2, 0xeb, 0x27, 0xb2, 0x75,
  0x09, 0x83, 0x2c, 0x1a, 0x1b, 0x6e, 0x5a, 0xa0, 0x52, 0x3b, 0xd6, 0xb3, 0x29, 0xe3, 0x2f, 0x84,
  0x53, 0xd1, 0x00, 0xed, 0x20, 0xfc, 0xb1, 0x5b, 0x6a, 0xcb, 0xbe, 0x39, 0x4a, 0x4c, 0x58, 0xcf,
  0xd0, 0xef, 0xaa, 0xfb, 0x43, 0x4d, 0x33, 0x85, 0x45, 0xf9, 0x02, 0x7f, 0x50, 0x3c, 0x9f, 0xa8,
  0x51, 0xa3, 0x40, 0x8f, 0x92, 0x9d, 0x38, 0xf5, 0xbc, 0xb6, 0xda, 0x21, 0x10, 0xff, 0xf3, 0xd2,
  0xcd, 0x0c, 0x13, 0xec, 0x5f, 0x97, 0x44, 0x17, 0xc4, 0xa7, 0x7e, 0x3d, 0x64, 0x5d, 0x19, 0x73,
  0x60, 0x81, 0x4f, 0xdc, 0x22, 0x2a, 0x90, 0x88, 0x46, 0xee, 0xb8, 0x14, 0xde, 0x5e, 0x0b, 0xdb,
  0xe0, 0x32, 0x3a, 0x0a, 0x49, 0x06, 0x24, 0x5c, 0xc2, 0xd3, 0xac, 0x62, 0x91, 0x95, 0xe4, 0x79,
  0xe7, 0xc8, 0x37, 0x6d, 0x8d, 0xd5, 0x4e, 0xa9, 0x6c, 0x56, 0xf4, 0xea, 0x65, 0x7a, 0xae, 0x08,
  0xba, 0x78, 0x25, 0x2e, 0x1c, 0xa6, 0xb4, 0xc6, 0xe8, 0xdd, 0x74, 0x1f, 0x4b, 0xbd, 0x8b, 0x8a,
  0x70, 0x3e, 0xb5, 0x66, 0x48, 0x03, 0xf6, 0x0e, 0x61, 0x35, 0x57, 0xb9, 0x86, 0xc1, 0x1d, 0x9e,
  0xe1, 0xf8, 0x98, 0x11, 0x69, 0xd9, 0x8e, 0x94, 0x9b, 0x1e, 0x87, 0xe9, 0xce, 0x55, 0x28, 0xdf,
  0x8c, 0xa1, 0x89, 0x0d, 0xbf, 0xe6, 0x42, 0x68, 0x41, 0x99, 0x2d, 0x0f, 0xb0, 0x54, 0xbb, 0x16]

set_option maxRecDepth 2000 in
def invSBoxTable : List Byte := [
  0x52, 0x09, 0x6a, 0xd5, 0x30, 0x36, 0xa5, 0x38, 0xbf, 0x40, 0xa3, 0x9e, 0x81, 0xf3, 0xd7, 0xfb,
  0x7c, 0xe3, 0x39, 0x82, 0x9b, 0x2f, 0xff, 0x87, 0x34, 0x8e, 0x43, 0x44, 0xc4, 0xde, 0xe9, 0xcb,
  0x54, 0x7b, 0x94, 0x32, 0xa6, 0xc2, 0x23, 0x3d, 0xee, 0x4c, 0x95, 0x0b, 0x42, 0xfa, 0xc3, 0x4e,
  0x08, 0x2e, 0xa1, 0x66, 0x28, 0xd9, 0x24, 0xb2, 0x76, 0x5b, 0xa2, 0x49, 0x6d, 0x8b, 0xd1, 0x25,
  0x72, 0xf8, 0xf6, 0x64, 0x86, 0x68, 0x98, 0x16, 0xd4, 0xa4, 0x5c, 0xcc, 0x5d, 0x65, 0xb6, 0x92,
  0x6c, 0x70, 0x48, 0x50, 0xfd, 0xed, 0xb9, 0xda, 0x5e, 0x15, 0x46, 0x57, 0xa7, 0x8d, 0x9d, 0x84,
  0x90, 0xd8, 0xab, 0x00, 0x8c, 0xbc, 0xd3, 0x0a, 0xf7, 0xe4, 0x58, 0x05, 0xb8, 0xb3, 0x45, 0x06,
  0xd0, 0x2c, 0x1e, 0x8f, 0xca, 0x3f, 0x0f, 0x02, 0xc1, 0xaf, 0xbd, 0x03, 0x01, 0x13, 0x8a, 0x6b,
  0x3a, 0x91, 0x11, 0x41, 0x4f, 0x67, 0xdc, 0xea, 0x97, 0xf2, 0xcf, 0xce, 0xf0, 0xb4, 0xe6, 0x73,
  0x96, 0xac, 0x74, 0x22, 0xe7, 0xad, 0x35, 0x85, 0xe2, 0xf9, 0x37, 0xe8, 0x1c, 0x75, 0xdf, 0x6e,
  0x47, 0xf1, 0x1a, 0x71, 0x1d, 0x29, 0xc5, 0x89, 0x6f, 0xb7, 0x62, 0x0e, 0xaa, 0x18, 0xbe, 0x1b,
  0xfc, 0x56, 0x3e, 0x4b, 0xc6, 0xd2, 0x79, 0x20, 0x9a, 0xdb, 0xc0, 0xfe, 0x78, 0xcd, 0x5a, 0xf4,
  0x1f, 0xdd, 0xa8, 0x33, 0x88, 0x07, 0xc7, 0x31, 0xb1, 0x12, 0x10, 0x59, 0x27, 0x80, 0xec, 0x5f,
  0x60, 0x51, 0x7f, 0xa9, 0x19, 0xb5, 0x4a, 0x0d, 0x2d, 0xe5, 0x7a, 0x9f, 0x93, 0xc9, 0x9c, 0xef,
  0xa0, 0xe0, 0x3b, 0x4d, 0xae, 0x2a, 0xf5, 0xb0, 0xc8, 0xeb, 0xbb, 0x3c, 0x83, 0x53, 0x99, 0x61,
  0x17, 0x2b, 0x04, 0x7e, 0xba, 0x77, 0xd6, 0x26, 0xe1, 0x69, 0x14, 0x63, 0x55, 0x21, 0x0c, 0x7d]

def sBox (b : Byte) : Byte := sBoxTable.getD b.toNat 0

def invSBox (b : Byte) : Byte := invSBoxTable.getD b.toNat 0

def rconTable : List Word := [
  0x00000000, 0x01000000, 0x02000000, 0x04000000,
  0x08000000, 0x10000000, 0x20000000, 0x40000000,
  0x80000000, 0x1B000000, 0x36000000]

def rcon (i : ℕ) : Word := rconTable.getD i 0

def subBytes (state : Block) : Block :=
  ofCells fun row col => sBox (byteOfState row col state)

def invSubBytes (state : Block) : Block :=
  ofCells fun row col => invSBox (byteOfState row col state)

/-- The column index `(column + row) & 3` is addition in `Fin 4`. -/
def shiftRows (state : Block) : Block :=
  ofCells fun row col => byteOfState row (col + row) state

/-- `(column - row) & 3` on unsigned integers is subtraction in `Fin 4`. -/
def invShiftRows (state : Block) : Block :=
  ofCells fun row col => byteOfState row (col - row) state

def xTimes (i : Byte) : Byte :=
  if i &&& 0x80 ≠ 0 then (i <<< 1) ^^^ 0x1b else i <<< 1

/-- `while (mul != 0)` of `mult`. The fuel bounds the loop: `mul` is a byte and is
halved by every iteration. -/
def multLoop : ℕ → Byte → Byte → Byte → Byte
  | 0, _, _, result => result
  | fuel + 1, mul, i, result =>
    if mul = 0 then result
    else
      let i := xTimes i
      multLoop fuel (mul >>> 1) i (if mul &&& 1 ≠ 0 then result ^^^ i else result)

def mult (mul i : Byte) : Byte :=
  multLoop 8 (mul >>> 1) i (if mul &&& 1 ≠ 0 then 0 ^^^ i else 0)

def mixColumns (state : Block) : Block :=
  ofCells fun row col =>
    let storedColumn := fun r => byteOfState r col state
    match row with
    | 0 => mult 2 (storedColumn 0) ^^^ mult 3 (storedColumn 1) ^^^ storedColumn 2 ^^^ storedColumn 3
    | 1 => storedColumn 0 ^^^ mult 2 (storedColumn 1) ^^^ mult 3 (storedColumn 2) ^^^ storedColumn 3
    | 2 => storedColumn 0 ^^^ storedColumn 1 ^^^ mult 2 (storedColumn 2) ^^^ mult 3 (storedColumn 3)
    | 3 => mult 3 (storedColumn 0) ^^^ storedColumn 1 ^^^ storedColumn 2 ^^^ mult 2 (storedColumn 3)

def invMixColumns (state : Block) : Block :=
  ofCells fun row col =>
    let storedColumn := fun r => byteOfState r col state
    match row with
    | 0 => mult 0xe (storedColumn 0) ^^^ mult 0xb (storedColumn 1) ^^^
        mult 0xd (storedColumn 2) ^^^ mult 0x9 (storedColumn 3)
    | 1 => mult 0x9 (storedColumn 0) ^^^ mult 0xe (storedColumn 1) ^^^
        mult 0xb (storedColumn 2) ^^^ mult 0xd (storedColumn 3)
    | 2 => mult 0xd (storedColumn 0) ^^^ mult 0x9 (storedColumn 1) ^^^
        mult 0xe (storedColumn 2) ^^^ mult 0xb (storedColumn 3)
    | 3 => mult 0xb (storedColumn 0) ^^^ mult 0xd (storedColumn 1) ^^^
        mult 0x9 (storedColumn 2) ^^^ mult 0xe (storedColumn 3)

abbrev RoundKeys := ℕ → Word

/-- `addRoundKey(state, &roundKeys[base])`: row `r` takes the byte of the column's key
word that `(key >> (24 - 8 * r)) & 0xFF` selects. -/
def addRoundKey (state : Block) (roundKeys : RoundKeys) (base : ℕ) : Block :=
  ofCells fun row col =>
    byteOfState row col state ^^^ byteOf (roundKeys (base + col.val)) (3 - row.val)

def rotWord (word : Word) : Word := (word <<< 8) ||| (word >>> 24)

def subWord (word : Word) : Word :=
  ofBytes (sBox (byteOf word 0)) (sBox (byteOf word 1)) (sBox (byteOf word 2)) (sBox (byteOf word 3))

/-- One iteration of the second loop of `keyExpansion`: `roundKeys[index] = ...`. -/
def expandStep (keySize : ℕ) (roundKeys : List Word) (index : ℕ) : List Word :=
  let temp := roundKeys.getD (index - 1) 0
  let temp :=
    if index % keySize = 0 then subWord (rotWord temp) ^^^ rcon (index / keySize)
    else if keySize > 6 ∧ index % keySize = 4 then subWord temp
    else temp
  roundKeys ++ [roundKeys.getD (index - keySize) 0 ^^^ temp]

def expandedKey (key : ℕ → Word) (keySize : ℕ) : List Word :=
  let rounds := 6 + keySize
  (List.range' keySize (4 * (rounds + 1) - keySize)).foldl (expandStep keySize)
    ((List.range keySize).map key)

def keyExpansion (key : ℕ → Word) (keySize : ℕ) : RoundKeys :=
  let roundKeys := expandedKey key keySize
  fun i => roundKeys.getD i 0

def encryptRound (roundKeys : RoundKeys) (state : Block) (round : ℕ) : Block :=
  addRoundKey (mixColumns (shiftRows (subBytes state))) roundKeys (round * 4)

def aesEncrypt (input : Block) (roundKeys : RoundKeys) (keySize : ℕ) : Block :=
  let rounds := 6 + keySize
  let state := addRoundKey (loadToState input) roundKeys 0
  let state := (List.range' 1 (rounds - 1)).foldl (encryptRound roundKeys) state
  loadFromState (addRoundKey (shiftRows (subBytes state)) roundKeys (rounds * 4))

def decryptRound (roundKeys : RoundKeys) (state : Block) (round : ℕ) : Block :=
  invMixColumns (addRoundKey (invSubBytes (invShiftRows state)) roundKeys (round * 4))

def aesDecrypt (input : Block) (roundKeys : RoundKeys) (keySize : ℕ) : Block :=
  let rounds := 6 + keySize
  let state := addRoundKey (loadToState input) roundKeys (rounds * 4)
  let state := (List.range' 1 (rounds - 1)).reverse.foldl (decryptRound roundKeys) state
  loadFromState (addRoundKey (invSubBytes (invShiftRows state)) roundKeys 0)

end Xv6Prng.Aes
