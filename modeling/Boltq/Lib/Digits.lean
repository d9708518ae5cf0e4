import Boltq.Lib.Bytes

namespace Boltq.Lib

def hexDigit (n : Nat) : UInt8 := if n < 10 then UInt8.ofNat (48 + n) else UInt8.ofNat (55 + n)

def hexVal (c : UInt8) : Option Nat :=
  if 48 ≤ c ∧ c ≤ 57 then some (c.toNat - 48)
  else if 65 ≤ c ∧ c ≤ 70 then some (c.toNat - 55)
  else if 97 ≤ c ∧ c ≤ 102 then some (c.toNat - 87)
  else none

theorem hexVal_hexDigit (h : n < 16) : hexVal (hexDigit n) = some n :=
  (by decide : ∀ n < 16, hexVal (hexDigit n) = some n) n h

def digitVal (c : UInt8) : Option Nat := if 48 ≤ c ∧ c ≤ 57 then some (c.toNat - 48) else none

theorem digitVal_hexDigit (h : n < 10) : digitVal (hexDigit n) = some n :=
  (by decide : ∀ n < 10, digitVal (hexDigit n) = some n) n h

def decimalLoop : Nat → Nat → Bytes
  | 0, _ => []
  | fuel+1, n =>
    if n < 10 then [hexDigit n] else decimalLoop fuel (n / 10) ++ [hexDigit (n % 10)]

def decimal (n : Nat) : Bytes := decimalLoop (n + 1) n

def digitsLoop : Nat → Bytes → Option Nat
  | acc, [] => some acc
  | acc, c :: cs =>
    match digitVal c with
    | none => none
    | some d => digitsLoop (acc * 10 + d) cs

def parseDecimal (s : Bytes) : Option Nat := if s = [] then none else digitsLoop 0 s

theorem digitsLoop_snoc (acc : Nat) (s : Bytes) (h : digitVal c = some d) :
    digitsLoop acc (s ++ [c]) = (digitsLoop acc s).map (fun n => n * 10 + d) := by
  induction s generalizing acc with
  | nil => simp [digitsLoop, h]
  | cons b s ih =>
    simp only [List.cons_append, digitsLoop]
    cases digitVal b with
    | none => rfl
    | some e => exact ih _

theorem decimalLoop_ne_nil (fuel n : Nat) : decimalLoop (fuel + 1) n ≠ [] := by
  unfold decimalLoop
  split <;> simp

theorem digitVal_of_mem_decimalLoop (fuel n : Nat) (h : c ∈ decimalLoop fuel n) :
    (digitVal c).isSome = true := by
  induction fuel generalizing n with
  | zero => cases h
  | succ fuel ih =>
    unfold decimalLoop at h
    split at h
    · rename_i hn
      rw [List.mem_singleton.mp h, digitVal_hexDigit hn]
      rfl
    · rcases List.mem_append.mp h with h | h
      · exact ih _ h
      · rw [List.mem_singleton.mp h, digitVal_hexDigit (by omega : n % 10 < 10)]
        rfl

theorem digitVal_of_mem_decimal (h : c ∈ decimal n) : (digitVal c).isSome = true :=
  digitVal_of_mem_decimalLoop _ _ h

theorem digitsLoop_decimalLoop (fuel n : Nat) (h : n < fuel) :
    digitsLoop 0 (decimalLoop fuel n) = some n := by
  induction fuel generalizing n with
  | zero => omega
  | succ fuel ih =>
    unfold decimalLoop
    split
    · rename_i hn
      simp [digitsLoop, digitVal_hexDigit hn]
    · rename_i hn
      rw [digitsLoop_snoc 0 _ (digitVal_hexDigit (by omega : n % 10 < 10)), ih _ (by omega)]
      simp only [Option.map_some, Option.some.injEq]
      omega

theorem parseDecimal_decimal (n : Nat) : parseDecimal (decimal n) = some n := by
  rw [parseDecimal, decimal, if_neg (decimalLoop_ne_nil n n),
    digitsLoop_decimalLoop _ _ (Nat.lt_succ_self n)]

theorem decimal_inj (h : decimal m = decimal n) : m = n := by
  have hm := parseDecimal_decimal m
  rw [h, parseDecimal_decimal] at hm
  exact (Option.some.inj hm).symm

theorem decimal_head (n : Nat) : ∃ d s, d < 10 ∧ decimal n = hexDigit d :: s := by
  have hloop : ∀ fuel n, ∃ d s, d < 10 ∧ decimalLoop (fuel + 1) n = hexDigit d :: s := by
    intro fuel
    induction fuel with
    | zero =>
      intro n
      unfold decimalLoop
      split
      · exact ⟨n, [], by assumption, rfl⟩
      · exact ⟨n % 10, [], by omega, rfl⟩
    | succ fuel ih =>
      intro n
      unfold decimalLoop
      split
      · exact ⟨n, [], by assumption, rfl⟩
      · obtain ⟨d, s, hd, hs⟩ := ih (n / 10)
        exact ⟨d, s ++ [hexDigit (n % 10)], hd, by rw [hs]; rfl⟩
  exact hloop n n

end Boltq.Lib
