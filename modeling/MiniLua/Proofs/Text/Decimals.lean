import MiniLua.Text.Bytes

/-!
Numbers written in digits: the digits of a number have its value, so that different numbers are written differently.
-/

namespace MiniLua.Text

theorem hexValue_hexDigit {n : Nat} (h : n < 16) : hexValue (hexDigit n) = n := by
  have hall : ∀ d : Fin 16, hexValue (hexDigit d) = d := by decide
  exact hall ⟨n, h⟩

theorem isDigit_hexDigit {n : Nat} (h : n < 10) : isDigit (hexDigit n) = true := by
  have hall : ∀ d : Fin 10, isDigit (hexDigit d) = true := by decide
  exact hall ⟨n, h⟩

theorem digitsValue_concat (base : Nat) (ds : Bytes) (d : UInt8) :
    digitsValue base (ds ++ [d]) = digitsValue base ds * base + hexValue d := by
  simp [digitsValue]

theorem digitsValue_positional {base : Nat} (hlow : 2 ≤ base) (hhigh : base ≤ 16) (n : Nat) :
    digitsValue base (positional base n) = n := by
  induction n using Nat.strongRecOn with
  | ind n ih =>
      rw [positional]
      split
      · next h =>
        have hn : n < 16 := by omega
        simp [digitsValue, hexValue_hexDigit hn]
      · next h =>
        have hlt : n / base < n := Nat.div_lt_self (by omega) hlow
        have hdigit : n % base < 16 := Nat.lt_of_lt_of_le (Nat.mod_lt n (by omega)) hhigh
        rw [digitsValue_concat, ih _ hlt, hexValue_hexDigit hdigit, Nat.mul_comm]
        exact Nat.div_add_mod n base

theorem decimal_injective {m n : Nat} (h : decimal m = decimal n) : m = n := by
  have hvalue := congrArg (digitsValue 10) h
  rwa [decimal, decimal, digitsValue_positional (by decide) (by decide),
    digitsValue_positional (by decide) (by decide)] at hvalue

theorem isDigit_of_mem_decimal {n : Nat} {b : UInt8} (h : b ∈ decimal n) : isDigit b = true := by
  unfold decimal at h
  induction n using Nat.strongRecOn with
  | ind n ih =>
      rw [positional] at h
      split at h
      · next hn =>
        rw [List.mem_singleton.mp h]
        apply isDigit_hexDigit
        omega
      · next hn =>
        rcases List.mem_append.mp h with hm | hm
        · exact ih _ (Nat.div_lt_self (by omega) (by decide)) hm
        · rw [List.mem_singleton.mp hm]
          apply isDigit_hexDigit
          omega

theorem decimal_ne_nil (n : Nat) : decimal n ≠ [] := by
  rw [decimal, positional]
  split <;> simp

/-- No number starts with a sign. -/
theorem decimal_ne_minus (n : Nat) (r : Bytes) : decimal n ≠ 0x2d :: r := by
  intro h
  have hdigit : isDigit 0x2d = true := isDigit_of_mem_decimal (n := n) (by simp [h])
  exact absurd hdigit (by decide)

theorem integer_injective {x y : Int} (h : integer x = integer y) : x = y := by
  cases x with
  | ofNat m =>
      cases y with
      | ofNat n => rw [decimal_injective h]
      | negSucc n => exact absurd h (decimal_ne_minus m _)
  | negSucc m =>
      cases y with
      | ofNat n => exact absurd h.symm (decimal_ne_minus n _)
      | negSucc n =>
          have hdigits := decimal_injective (List.cons.inj h).2
          rw [Nat.succ.inj hdigits]

end MiniLua.Text
