import Mathlib

namespace Boltq.Lib
open List

abbrev Bytes := List UInt8

def le : Nat → Nat → Bytes
  | 0, _ => []
  | w+1, n => UInt8.ofNat n :: le w (n / 256)

def unle : Bytes → Nat
  | [] => 0
  | b :: bs => b.toNat + 256 * unle bs

@[simp] theorem length_le (w n : Nat) : (le w n).length = w := by
  induction w generalizing n with
  | zero => rfl
  | succ w ih => simp [le, ih]

@[simp] theorem drop_le_append (n : Nat) (bs : Bytes) (h : w ≤ k) :
    (le w n ++ bs).drop k = bs.drop (k - w) := by
  rw [drop_append, drop_eq_nil_of_le (by simpa using h), length_le, nil_append]

theorem unle_le (w n : Nat) : unle (le w n) = n % 256 ^ w := by
  induction w generalizing n with
  | zero => simp [le, unle, Nat.mod_one]
  | succ w ih =>
    have hb : (UInt8.ofNat n).toNat = n % 256 := by simp [UInt8.toNat_ofNat']
    rw [le, unle, ih, hb, Nat.pow_succ, Nat.mul_comm (256 ^ w), Nat.mod_mul]

theorem unle_le_of_lt (h : n < 256 ^ w) : unle (le w n) = n := by
  rw [unle_le, Nat.mod_eq_of_lt h]

theorem unle_lt (bs : Bytes) : unle bs < 256 ^ bs.length := by
  induction bs with
  | nil => exact Nat.one_pos
  | cons b bs ih =>
    have hb : b.toNat < 256 := b.toNat_lt
    simp only [unle, length_cons, Nat.pow_succ]
    omega

theorem le_unle (bs : Bytes) (h : bs.length = w) : le w (unle bs) = bs := by
  induction bs generalizing w with
  | nil => subst h; rfl
  | cons b bs ih =>
    subst h
    have hb : b.toNat < 256 := b.toNat_lt
    have hlow : UInt8.ofNat (b.toNat + 256 * unle bs) = b := by
      apply UInt8.toNat_inj.mp
      rw [UInt8.toNat_ofNat']
      omega
    have hhigh : (b.toNat + 256 * unle bs) / 256 = unle bs := by omega
    rw [length_cons, le, unle, hlow, hhigh, ih rfl]

def slice (b : Bytes) (lo hi : Nat) : Option Bytes :=
  if lo ≤ hi ∧ hi ≤ b.length then some ((b.drop lo).take (hi - lo)) else none

theorem slice_of_le {b : Bytes} (h : lo ≤ hi) (hb : hi ≤ b.length) :
    slice b lo hi = some ((b.drop lo).take (hi - lo)) :=
  if_pos ⟨h, hb⟩

theorem slice_to_end {b : Bytes} (h : lo ≤ b.length) : slice b lo b.length = some (b.drop lo) := by
  rw [slice_of_le h (Nat.le_refl _), take_of_length_le (by simp)]

def wordOfInt (i : Int) : Nat := (i % 2 ^ 64).toNat

def intOfWord (n : Nat) : Int := if n < 2 ^ 63 then n else (n : Int) - 2 ^ 64

theorem int_of_word_of_int (hl : -2 ^ 63 ≤ i) (hu : i < 2 ^ 63) : intOfWord (wordOfInt i) = i := by
  unfold intOfWord wordOfInt
  split <;> omega

theorem wordOfInt_lt (i : Int) : wordOfInt i < 256 ^ 8 := by
  unfold wordOfInt
  omega

def crcBit (c : Nat) : Nat := if c % 2 = 1 then (c / 2) ^^^ 0xEDB88320 else c / 2

def crcByte (c : Nat) (b : UInt8) : Nat :=
  crcBit (crcBit (crcBit (crcBit (crcBit (crcBit (crcBit (crcBit (c ^^^ b.toNat))))))))

def crc32 (bs : Bytes) : Nat := bs.foldl crcByte 0xFFFFFFFF ^^^ 0xFFFFFFFF

theorem crcBit_lt (h : c < 2 ^ 32) : crcBit c < 2 ^ 32 := by
  unfold crcBit
  split
  · exact Nat.xor_lt_two_pow (by omega) (by omega)
  · omega

theorem crcByte_lt (h : c < 2 ^ 32) (b : UInt8) : crcByte c b < 2 ^ 32 := by
  have hb : b.toNat < 2 ^ 32 := Nat.lt_trans b.toNat_lt (by decide)
  have hx : c ^^^ b.toNat < 2 ^ 32 := Nat.xor_lt_two_pow h hb
  unfold crcByte
  iterate 8 apply crcBit_lt
  exact hx

theorem crc32_lt (bs : Bytes) : crc32 bs < 256 ^ 4 := by
  have hfold : ∀ (bs : Bytes) (c : Nat), c < 2 ^ 32 → bs.foldl crcByte c < 2 ^ 32 := by
    intro bs
    induction bs with
    | nil => intro c hc; exact hc
    | cons b bs ih => intro c hc; exact ih _ (crcByte_lt hc b)
  have h := hfold bs 0xFFFFFFFF (by decide)
  exact Nat.xor_lt_two_pow h (by decide)

/-- The published check value of the polynomial. -/
example : crc32 [0x31, 0x32, 0x33, 0x34, 0x35, 0x36, 0x37, 0x38, 0x39] = 0xCBF43926 := by
  decide +kernel

end Boltq.Lib
