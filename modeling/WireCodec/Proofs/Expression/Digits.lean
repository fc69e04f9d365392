import WireCodec.Expression.Token

/-!
# Digits

The digits that a number is written in spell the number (`WireCodec.digitsValue_toDigits`), in
capital letters too, and the first of them is zero for zero only.
-/

namespace WireCodec

variable {base n : Nat}

/-- **The digits of a number spell it**, in whatever letters. -/
theorem digitsValue_toDigits (hbase : 1 < base) {f : Char → Char}
    (hf : ∀ d < base, hexDigitValue (f d.digitChar) = d) (n : Nat) :
    digitsValue base ((Nat.toDigits base n).map f) = n := by
  induction n using Nat.strongRecOn with
  | ind n ih =>
    rw [Nat.toDigits_eq_if hbase]
    split
    · rename_i hn
      simp [digitsValue, hf n hn]
    · have hdiv : n / base < n := Nat.div_lt_self (by omega) hbase
      have hlast := hf (n % base) (Nat.mod_lt _ (by omega))
      rw [List.map_append, digitsValue, List.foldl_append]
      have := ih (n / base) hdiv
      rw [digitsValue] at this
      rw [this]
      simp only [List.map_cons, List.map_nil, List.foldl_cons, List.foldl_nil, hlast]
      exact Nat.div_add_mod' n base

/-- What a number is written in are digits of its base. -/
theorem exists_of_mem_toDigits (hbase : 1 < base) {c : Char} (hc : c ∈ Nat.toDigits base n) :
    ∃ d < base, d.digitChar = c := by
  induction n using Nat.strongRecOn with
  | ind n ih =>
    rw [Nat.toDigits_eq_if hbase] at hc
    split at hc
    · rename_i hn
      exact ⟨n, hn, (List.mem_singleton.mp hc).symm⟩
    · rcases List.mem_append.mp hc with hc | hc
      · exact ih _ (Nat.div_lt_self (by omega) hbase) hc
      · exact ⟨n % base, Nat.mod_lt _ (by omega), (List.mem_singleton.mp hc).symm⟩

/-- A number is written without a zero in front. -/
theorem head?_toDigits_ne (hbase : 1 < base) (hzero : ∀ d < base, d.digitChar = '0' → d = 0)
    (hn : n ≠ 0) : (Nat.toDigits base n).head? ≠ some '0' := by
  induction n using Nat.strongRecOn with
  | ind n ih =>
    rw [Nat.toDigits_eq_if hbase]
    split
    · rename_i hlt
      simp only [List.head?_cons, ne_eq, Option.some.injEq]
      exact fun h => hn (hzero n hlt h)
    · have hdiv : n / base < n := Nat.div_lt_self (by omega) hbase
      have hpos : 0 < n / base := Nat.div_pos (by omega) (by omega)
      have hfirst := ih (n / base) hdiv (by omega)
      cases hdigits : Nat.toDigits base (n / base) with
      | nil => exact absurd hdigits Nat.toDigits_ne_nil
      | cons d digits => simpa [hdigits] using hfirst

end WireCodec
