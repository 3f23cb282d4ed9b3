/-!
# Hexadecimal digits

Digits are written in lower case and read in either case; what is written is read back.
-/

namespace RegisterMachine

namespace Hexadecimal

def digit (n : Nat) : Char := Nat.digitChar n

def value? (c : Char) : Option Nat :=
  if '0' ≤ c ∧ c ≤ '9' then some (c.toNat - '0'.toNat)
  else if 'a' ≤ c ∧ c ≤ 'f' then some (c.toNat - 'a'.toNat + 10)
  else if 'A' ≤ c ∧ c ≤ 'F' then some (c.toNat - 'A'.toNat + 10)
  else none

theorem value?_digit : ∀ n < 16, value? (digit n) = some n := by decide

def number? (digits : List Char) : Option Nat :=
  digits.foldlM (fun n c => do return 16 * n + (← value? c)) 0

/-- The digits of a number, with zeros in front of them up to a width. -/
def padded (width n : Nat) : String :=
  let digits := Nat.toDigits 16 n
  String.ofList (List.replicate (width - digits.length) '0' ++ digits)

theorem number?_append_digit {digits : List Char} {n : Nat} (h : number? digits = some n) {d : Nat}
    (hd : d < 16) : number? (digits ++ [digit d]) = some (16 * n + d) := by
  unfold number? at h ⊢
  rw [List.foldlM_append, h]
  simp [value?_digit d hd]

theorem number?_replicate (count : Nat) : number? (List.replicate count '0') = some 0 := by
  induction count with
  | zero => rfl
  | succ count ih =>
    rw [List.replicate_succ']
    exact number?_append_digit ih (d := 0) (by decide)

/-- A number is read back from its digits, whatever zeros are in front of them. -/
theorem number?_replicate_toDigits (count n : Nat) :
    number? (List.replicate count '0' ++ Nat.toDigits 16 n) = some n := by
  induction n using Nat.strongRecOn with
  | ind n ih =>
    rcases Nat.lt_or_ge n 16 with hlt | hge
    · rw [Nat.toDigits_of_lt_base hlt]
      have h := number?_append_digit (number?_replicate count) hlt
      rwa [Nat.mul_zero, Nat.zero_add] at h
    · rw [Nat.toDigits_of_base_le (by decide) hge, ← List.append_assoc]
      have h := number?_append_digit (ih (n / 16) (by omega)) (Nat.mod_lt n (by decide))
      rwa [Nat.div_add_mod] at h

@[simp] theorem number?_padded (width n : Nat) : number? (padded width n).toList = some n := by
  unfold padded
  rw [String.toList_ofList]
  exact number?_replicate_toDigits _ n

end Hexadecimal

end RegisterMachine
