import Mathlib.Data.Nat.Digits.Lemmas

/-! The digits of a number, the highest one first. -/

namespace Lib.Digits

variable {base k n : Nat}

/-- The `k` lowest digits of a number below `base ^ k`, the highest one first. -/
def highFirst (base : Nat) : Nat → Nat → List Nat
  | 0, _ => []
  | k + 1, n => n / base ^ k :: highFirst base k (n % base ^ k)

theorem highFirst_succ (base k n : Nat) :
    highFirst base (k + 1) n = n / base ^ k :: highFirst base k (n % base ^ k) := rfl

theorem length_highFirst (base k n : Nat) : (highFirst base k n).length = k := by
  induction k generalizing n with
  | zero => rfl
  | succ k ih => rw [highFirst_succ, List.length_cons, ih]

theorem highFirst_zero (base k : Nat) : highFirst base k 0 = List.replicate k 0 := by
  induction k with
  | zero => rfl
  | succ k ih => rw [highFirst_succ, Nat.zero_div, Nat.zero_mod, ih, List.replicate_succ]

theorem lt_of_mem_highFirst (hbase : 0 < base) (hn : n < base ^ k) {d : Nat}
    (hd : d ∈ highFirst base k n) : d < base := by
  induction k generalizing n with
  | zero => cases hd
  | succ k ih =>
    have hpow := Nat.pow_pos (n := k) hbase
    rcases List.mem_cons.mp hd with rfl | hd
    · exact Nat.div_lt_of_lt_mul (by rwa [← Nat.pow_succ])
    · exact ih (Nat.mod_lt _ hpow) hd

theorem ofDigits_highFirst (hbase : 0 < base) (hn : n < base ^ k) :
    Nat.ofDigits base (highFirst base k n).reverse = n := by
  induction k generalizing n with
  | zero => exact (Nat.lt_one_iff.mp hn).symm
  | succ k ih =>
    rw [highFirst_succ, Nat.ofDigits_reverse_cons, length_highFirst,
      ih (Nat.mod_lt _ (Nat.pow_pos hbase)), Nat.mod_add_div]

/-- As many digits as the number has. -/
theorem highFirst_log (hbase : 1 < base) (hn : n ≠ 0) :
    highFirst base (Nat.log base n + 1) n = (Nat.digits base n).reverse := by
  have hlt := Nat.lt_pow_succ_log_self hbase n
  have hpos : 0 < base := Nat.zero_lt_of_lt hbase
  rw [← List.reverse_inj, List.reverse_reverse]
  refine Nat.ofDigits_inj_of_len_eq hbase ?_ ?_ ?_ ?_
  · rw [List.length_reverse, length_highFirst, Nat.length_digits _ _ hbase hn]
  · exact fun d hd => lt_of_mem_highFirst hpos hlt (List.mem_reverse.mp hd)
  · exact fun d hd => Nat.digits_lt_base hbase hd
  · rw [ofDigits_highFirst hpos hlt, Nat.ofDigits_digits]

end Lib.Digits
