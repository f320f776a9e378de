import Mathlib.Data.Fin.VecNotation
import Thingino.Lib.Gf256

/-! The Advanced Encryption Standard, FIPS 197, as it is written.

The state is four rows by four columns of bytes, filled column by column from the
block. A round substitutes each byte (its inverse in the field, then an affine map on
the bits), shifts row `r` by `r` places, multiplies every column by the polynomial
`{03}x³ + {01}x² + {01}x + {02}` and adds four words of the key schedule; the last
round leaves the columns as they are. The schedule is a sequence of words, one for each
index. -/
namespace Thingino.Lib.Fips197
open Gf256

inductive KeySize where
  | aes128 | aes192 | aes256
deriving DecidableEq, Repr

namespace KeySize

/-- `Nk`, the words of the key. -/
def nk : KeySize → Nat
  | aes128 => 4
  | aes192 => 6
  | aes256 => 8

/-- `Nr`, the rounds. -/
def nr : KeySize → Nat
  | aes128 => 10
  | aes192 => 12
  | aes256 => 14

def bits (size : KeySize) : Nat := 32 * size.nk

theorem nk_pos (size : KeySize) : 0 < size.nk := by cases size <;> decide

theorem nr_eq (size : KeySize) : size.nr = size.nk + 6 := by cases size <;> rfl

end KeySize

/-! ### The substitution -/

/-- Bit `i` is the sum of the bits `i`, `i + 4`, …, `i + 7`, indices modulo eight, and of bit `i` of `{63}`. -/
def affine (b : Byte) : Byte :=
  ofBits fun i => b.getLsbD i ^^ b.getLsbD ((i + 4) % 8) ^^ b.getLsbD ((i + 5) % 8) ^^ b.getLsbD ((i + 6) % 8) ^^
    b.getLsbD ((i + 7) % 8) ^^ (0x63#8).getLsbD i

noncomputable def sBox (b : Byte) : Byte := affine (inv b)

/-! ### The key schedule -/

/-- A word is four bytes. -/
abbrev Word := Fin 4 → Byte

def rotWord (a : Word) : Word := fun i => a (i + 1)

noncomputable def subWord (a : Word) : Word := fun i => sBox (a i)

/-- The power `n` of `{02}`. -/
noncomputable def xPower : Nat → Byte
  | 0 => 1#8
  | n + 1 => mul 2#8 (xPower n)

/-- The round constant `j`, from one on. -/
noncomputable def rcon (j : Nat) : Word := ![xPower (j - 1), 0#8, 0#8, 0#8]

def xorWord (a b : Word) : Word := fun i => a i ^^^ b i

/-- Word `i` of the key schedule. -/
noncomputable def keyWord (size : KeySize) (key : Nat → Byte) (i : Nat) : Word :=
  if _h : i < size.nk then fun j => key (4 * i + j.val)
  else
    let temp := keyWord size key (i - 1)
    let temp :=
      if i % size.nk = 0 then xorWord (subWord (rotWord temp)) (rcon (i / size.nk))
      else if 6 < size.nk ∧ i % size.nk = 4 then subWord temp
      else temp
    xorWord (keyWord size key (i - size.nk)) temp
termination_by i
decreasing_by
  · have := size.nk_pos
    omega
  · have := size.nk_pos
    omega

/-! ### The cipher -/

/-- Row, then column. -/
abbrev State := Fin 4 → Fin 4 → Byte

def toState (b : Block) : State := fun r c => b[r.val + 4 * c.val]

def ofState (s : State) : Block := Vector.ofFn fun i => s ⟨i.val % 4, by omega⟩ ⟨i.val / 4, by omega⟩

noncomputable def subBytes (s : State) : State := fun r c => sBox (s r c)

def shiftRows (s : State) : State := fun r c => s r (c + r)

/-- The coefficients of the fixed polynomial, the constant one first. -/
def coefficient : Fin 4 → Byte := ![0x02#8, 0x01#8, 0x01#8, 0x03#8]

noncomputable def mixColumns (s : State) : State := fun r c =>
  mul (coefficient r) (s 0 c) ^^^ mul (coefficient (r - 1)) (s 1 c) ^^^ mul (coefficient (r - 2)) (s 2 c) ^^^
    mul (coefficient (r - 3)) (s 3 c)

def addRoundKey (w : Nat → Word) (round : Nat) (s : State) : State := fun r c => s r c ^^^ w (4 * round + c.val) r

/-- The state after `k` rounds that mix the columns. -/
noncomputable def rounds (w : Nat → Word) (s : State) : Nat → State
  | 0 => addRoundKey w 0 s
  | k + 1 => addRoundKey w (k + 1) (mixColumns (shiftRows (subBytes (rounds w s k))))

/-- `Cipher`. -/
noncomputable def cipher (size : KeySize) (key : Nat → Byte) (b : Block) : Block :=
  let w := keyWord size key
  ofState (addRoundKey w size.nr (shiftRows (subBytes (rounds w (toState b) (size.nr - 1)))))

/-! ### Rules -/

theorem keyWord_lt {size : KeySize} {key : Nat → Byte} {i : Nat} (h : i < size.nk) :
    keyWord size key i = fun j => key (4 * i + j.val) := by
  rw [keyWord, dif_pos h]

theorem keyWord_ge {size : KeySize} {key : Nat → Byte} {i : Nat} (h : size.nk ≤ i) :
    keyWord size key i = xorWord (keyWord size key (i - size.nk))
      (if i % size.nk = 0 then xorWord (subWord (rotWord (keyWord size key (i - 1)))) (rcon (i / size.nk))
      else if 6 < size.nk ∧ i % size.nk = 4 then subWord (keyWord size key (i - 1))
      else keyWord size key (i - 1)) := by
  rw [keyWord, dif_neg (Nat.not_lt.mpr h)]

/-- A byte whose inverse is known is known. -/
theorem sBox_eq {b c : Byte} (h : mul b c = 1#8) : sBox b = affine c := by
  rw [sBox, inv_eq h]

theorem sBox_zero : sBox 0#8 = affine 0#8 := by
  rw [sBox, inv_zero]

theorem ofState_toState (b : Block) : ofState (toState b) = b := by
  apply Vector.ext
  intro i hi
  simp only [toState, ofState, Vector.getElem_ofFn]
  congr 1
  omega

end Thingino.Lib.Fips197
