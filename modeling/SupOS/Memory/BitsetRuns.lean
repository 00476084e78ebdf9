import SupOS.Memory.Bitset

/-! The search of a `Bitset` for several set bits in a row in one word. -/

namespace SupOS

open Lib

namespace Bitset

variable {b : Bitset} {nb i k r : Nat}

/-- `nb` set bits in a row from bit `r` on, in one word and below the size. -/
structure RunAt (b : Bitset) (nb r : Nat) : Prop where
  bits : ∀ m, r ≤ m → m < r + nb → b.bit m = true
  word : r / 64 = (r + nb - 1) / 64
  inside : r + nb ≤ b.size

/-- The index is that of the first run of `nb` bits, and missing when there is none. -/
def LeastRun (b : Bitset) (nb : Nat) : Option Nat → Prop
  | some r => b.RunAt nb r ∧ ∀ r' < r, ¬b.RunAt nb r'
  | none => ∀ r, ¬b.RunAt nb r

theorem runs_succ (w : BitVec 64) (nb : Nat) : runs w (nb + 1) = runs w nb &&& (w <<< nb) := by
  rw [runs, List.range_succ, List.foldl_concat]
  rfl

/-- Each shifted copy of the word asks for one bit more. -/
theorem getLsbD_runs {w : BitVec 64} (hk : k < 64) :
    (runs w nb).getLsbD k = true ↔ ∀ j < nb, j ≤ k ∧ w.getLsbD (k - j) = true := by
  induction nb with
  | zero =>
    refine iff_of_true ?_ fun j hj => absurd hj (Nat.not_lt_zero j)
    show (BitVec.allOnes 64).getLsbD k = true
    rw [BitVec.getLsbD_allOnes, decide_eq_true hk]
  | succ nb ih =>
    rw [runs_succ, BitVec.getLsbD_and, Bool.and_eq_true, ih, Nat.forall_lt_succ_right,
      BitVec.getLsbD_shiftLeft]
    simp [hk]

/-- The bit of the computed word where `nb` bits of the bitset end. -/
theorem runs_bit (hpos : 0 < nb) (hk : k < 64) : (runs (b.data i) nb).getLsbD k = true ↔
    nb ≤ k + 1 ∧ ∀ m, i * 64 + (k + 1 - nb) ≤ m → m ≤ i * 64 + k → b.bit m = true := by
  have hbit (j : Nat) (hj : j ≤ k) : b.bit (i * 64 + (k - j)) = (b.data i).getLsbD (k - j) := by
    rw [bit, Words.bit, show (i * 64 + (k - j)) / 64 = i by omega,
      show (i * 64 + (k - j)) % 64 = k - j by omega]
  rw [getLsbD_runs hk]
  constructor
  · intro h
    have hlast := (h (nb - 1) (by omega)).1
    refine ⟨by omega, fun m hm hle => ?_⟩
    obtain ⟨j, rfl, hj⟩ : ∃ j, m = i * 64 + (k - j) ∧ j ≤ k := ⟨i * 64 + k - m, by omega, by omega⟩
    rw [hbit j hj]
    exact (h j (by omega)).2
  · rintro ⟨hle, h⟩ j hj
    have hjk : j ≤ k := by omega
    refine ⟨hjk, ?_⟩
    rw [← hbit j hjk]
    exact h _ (by omega) (by omega)

/-- A run sets the bit where it ends. -/
theorem RunAt.bit_end (h : b.RunAt nb r) (hpos : 0 < nb) :
    (runs (b.data (r / 64)) nb).getLsbD ((r + nb - 1) % 64) = true := by
  have hword := h.word
  refine (runs_bit hpos (Nat.mod_lt _ (by decide))).mpr ⟨by omega, fun m hm hle => ?_⟩
  exact h.bits m (by omega) (by omega)

theorem runAt_of_bit (hpos : 0 < nb) (hk : k < 64) (h : (runs (b.data i) nb).getLsbD k = true)
    (hle : i * 64 + k < b.size) : b.RunAt nb (i * 64 + (k + 1 - nb)) := by
  obtain ⟨hlen, hbits⟩ := (runs_bit hpos hk).mp h
  exact ⟨fun m hm hlt => hbits m hm (by omega), by omega, by omega⟩

/-- No run starts before the one that ends at the first bit of the first computed word with one. -/
theorem RunAt.le (h : b.RunAt nb r) (hpos : 0 < nb) (hk : k < 64) (hlen : nb ≤ k + 1)
    (hwords : ∀ j < i, runs (b.data j) nb = 0#64)
    (hbits : ∀ j < k, (runs (b.data i) nb).getLsbD j = false) : i * 64 + (k + 1 - nb) ≤ r := by
  have hend := h.bit_end hpos
  have hword := h.word
  have hi : i ≤ r / 64 := by
    by_contra hlt
    rw [hwords _ (Nat.lt_of_not_le hlt), BitVec.getLsbD_zero] at hend
    cases hend
  rcases Nat.eq_or_lt_of_le hi with rfl | hlt
  · have hle : k ≤ (r + nb - 1) % 64 := by
      by_contra hlt
      rw [hbits _ (Nat.lt_of_not_le hlt)] at hend
      cases hend
    omega
  · omega

/-- `largeBsf` finds the first run of as many bits as it is asked for, if there is one. The bits of a
bitset lie in memory, and are far fewer than `2 ^ 64`. -/
theorem largeBsf_least (hpos : 1 ≤ nb) (hnb : nb < 56) (hle : nb ≤ b.size) (hsize : b.size + 63 < 2 ^ 64) :
    ∃ r, b.largeBsf nb = .ok r ∧ b.LeastRun nb r := by
  have hassert : assert (decide (nb < 64 - 8 ∨ 2 ^ 63 ≤ nb)) = .ok () :=
    assert_eq_ok.mpr (decide_eq_true (.inl hnb))
  unfold largeBsf
  rw [hassert, ok_bind, u64_of_lt hsize]
  simp only [if_pos (show nb < 2 ^ 63 by omega)]
  cases hfirst : firstIndex (fun i => runs (b.data i) nb != 0#64) ((b.size + 63) / 64) 0 with
  | none =>
    refine ⟨none, rfl, fun r h => ?_⟩
    have hin := h.inside
    have hzero : runs (b.data (r / 64)) nb = 0#64 := by
      simpa using firstIndex_none hfirst (r / 64) (Nat.zero_le _) (by omega)
    have hend := h.bit_end hpos
    rw [hzero, BitVec.getLsbD_zero] at hend
    cases hend
  | some i =>
    obtain ⟨-, hlt, hne, hmin⟩ := firstIndex_some hfirst
    obtain ⟨hk, hbit, hlow⟩ := lowestOne_spec (w := runs (b.data i) nb) (by simpa using hne)
    have hlen := ((runs_bit hpos hk).mp hbit).1
    have hleast {r : Nat} (h : b.RunAt nb r) : i * 64 + (lowestOne (runs (b.data i) nb) + 1 - nb) ≤ r :=
      h.le hpos hk hlen (fun j hj => by simpa using hmin j (Nat.zero_le j) hj) hlow
    have hres : u64 (lowestOne (runs (b.data i) nb) + 1 + (2 ^ 64 - nb) + i * 64) =
        i * 64 + (lowestOne (runs (b.data i) nb) + 1 - nb) := by
      unfold u64
      omega
    have hlimit : u64 (b.size + (2 ^ 64 - nb)) = b.size - nb := by
      unfold u64
      omega
    dsimp only
    rw [hres, hlimit]
    by_cases hin : b.size - nb < i * 64 + (lowestOne (runs (b.data i) nb) + 1 - nb)
    · rw [if_pos hin]
      refine ⟨none, rfl, fun r h => ?_⟩
      have hstart := hleast h
      have hinside := h.inside
      omega
    · rw [if_neg hin]
      refine ⟨_, rfl, runAt_of_bit hpos hk hbit (by omega), fun r' hr' h => ?_⟩
      exact absurd (hleast h) (Nat.not_le_of_lt hr')

/-- Three bits that go on into the next word are no run, and those behind them are. -/
theorem largeBsf_least_third : ∃ r,
    (Bitset.mk (fun i => if i = 0 then 0xC000000000000000#64 else 0x1D#64) 130).largeBsf 3 = .ok r ∧
    (Bitset.mk (fun i => if i = 0 then 0xC000000000000000#64 else 0x1D#64) 130).LeastRun 3 r :=
  largeBsf_least (by decide) (by decide) (by decide) (by decide)

end Bitset

end SupOS
