import Mathlib.Algebra.Group.Int.Defs
import Mathlib.Algebra.GroupWithZero.Nat

/-!
# Compile-time constants and payloads

The values `common.h`, `dram_index.h`, `pimlex_host.cpp` and the tree header
fix at build time. Keys are 64-bit words that the modelled functions compare
and never compute with, so they are plain naturals here.
-/

namespace PimLex

/-- `DTYPE`, the key type. -/
abbrev DTYPE := ℕ

/-- Keys per interleave block; a partial key is the first key of its block. -/
abbrev interleave : ℕ := 8

/-- Base keys per buffer page. -/
abbrev pageRatio : ℕ := 8

/-- Entries in a buffer page. -/
abbrev bufSize : ℕ := 16

/-- Partitions of the partial keys. -/
abbrev nrPartition : ℕ := 128

/-- Host threads. -/
abbrev threadNum : ℕ := 32

/-- Threads of a merge. -/
abbrev mergeThreadNum : ℕ := 32

/-- Keys of a tree node. -/
abbrev childNum : ℕ := 32

theorem childNum_ne_zero : childNum ≠ 0 := by decide

instance : NeZero childNum := ⟨childNum_ne_zero⟩

/-- Entries of a send or receive buffer. -/
abbrev maxBufferSize : ℕ := 2 ^ 15

/-- `INVAILD_POS`, the kernel's answer for a query it leaves to the host. -/
abbrev invaildPos : ℕ := 1000000000

/-- Conversion to `int32_t`. -/
def toInt32 (x : ℤ) : ℤ := x.bmod (2 ^ 32)

theorem toInt32_eq {x : ℤ} (hlow : -2 ^ 31 ≤ x) (hhigh : x < 2 ^ 31) : toInt32 x = x :=
  Int.bmod_eq_of_le_mul_two (by omega) (by omega)

/-- A square of words of 64 bits is zero. -/
theorem square_wraps_iff {n : ℕ} : n * n % 2 ^ 64 = 0 ↔ 2 ^ 32 ∣ n := by
  have hsquare : (2 ^ 32) ^ 2 ∣ n ^ 2 ↔ 2 ^ 32 ∣ n := Nat.pow_dvd_pow_iff (by decide)
  rw [← hsquare, ← Nat.dvd_iff_mod_eq_zero, sq n, ← pow_mul]

/-- The 32 payload bytes stored with a key. -/
structure StringPayload where
  realPayload : Vector UInt8 32
  deriving DecidableEq, Repr

/-- `string_payload(int i)`: every byte set to `i`. -/
def StringPayload.ofByte (i : UInt8) : StringPayload := ⟨Vector.replicate 32 i⟩

theorem StringPayload.ofByte_injective {i j : UInt8} (h : ofByte i = ofByte j) : i = j := by
  have hbyte := congrArg (fun p : StringPayload => p.realPayload[0]) h
  simpa [ofByte] using hbyte

end PimLex
