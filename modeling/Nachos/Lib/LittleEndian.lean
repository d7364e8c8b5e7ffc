import Mathlib.Algebra.Group.Nat.Defs
import Mathlib.Logic.Function.Basic

/-!
# Little-endian words

A 32-bit C integer is carried as the `Int` it denotes, and its image in memory
is four bytes of two's complement, least significant first.  `byte` is one byte
of that image and `int32` reads the four back.
-/

namespace Lib
namespace LittleEndian

/-- Byte `k` of the two's complement of `x`. -/
def byte (x : Int) (k : Nat) : UInt8 :=
  UInt8.ofNat ((x % 4294967296).toNat / 256 ^ k)

/-- The integer whose two's complement has these four bytes. -/
def int32 (b₀ b₁ b₂ b₃ : UInt8) : Int :=
  let n := b₀.toNat + 256 * b₁.toNat + 65536 * b₂.toNat + 16777216 * b₃.toNat
  if n < 2147483648 then n else n - 4294967296

/-- The values of a 32-bit `int`. -/
def Fits (x : Int) : Prop := -2147483648 ≤ x ∧ x < 2147483648

instance (x : Int) : Decidable (Fits x) := inferInstanceAs (Decidable (_ ∧ _))

/-- Two's-complement wrap-around of 32-bit arithmetic. -/
def wrap (x : Int) : Int := (x + 2147483648) % 4294967296 - 2147483648

theorem wrap_of_fits {x : Int} (h : Fits x) : wrap x = x := by
  obtain ⟨hlo, hhi⟩ := h
  rw [wrap]
  omega

theorem byte_toNat (x : Int) (k : Nat) :
    (byte x k).toNat = (x % 4294967296).toNat / 256 ^ k % 256 := by
  simp [byte, UInt8.toNat_ofNat']

theorem fits_int32 (b₀ b₁ b₂ b₃ : UInt8) : Fits (int32 b₀ b₁ b₂ b₃) := by
  have h₀ := b₀.toNat_lt
  have h₁ := b₁.toNat_lt
  have h₂ := b₂.toNat_lt
  have h₃ := b₃.toNat_lt
  simp only [Fits, int32]
  split <;> constructor <;> omega

/-- Reading back the four bytes of a value that fits gives the value. -/
theorem int32_byte {x : Int} (h : Fits x) :
    int32 (byte x 0) (byte x 1) (byte x 2) (byte x 3) = x := by
  obtain ⟨hlo, hhi⟩ := h
  simp only [int32, byte_toNat, Nat.reducePow, Nat.div_one]
  split <;> omega

end LittleEndian
end Lib
