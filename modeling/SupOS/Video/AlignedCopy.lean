import SupOS.Fault
import SupOS.Lib.Bytes
import SupOS.Lib.Outcome

/-! `memcpy_aligned` of `Graphics/Screen.cpp` and `memcpy` of `libc`, in a memory of which one range
may be read and one may be written. -/

namespace SupOS.Video

open Lib

inductive AccessFault
  /-- An access that leaves the range. -/
  | outside (addr : Nat)
  /-- An access of `_mm_load_si128` or `_mm_stream_si128` to an address that 16 does not divide. -/
  | unaligned (addr : Nat)
  /-- A loop that has not ended within its fuel. -/
  | diverges
  deriving DecidableEq, Repr

/-- The arguments of a copy, which name the ranges. -/
structure Copy where
  dst : Nat
  src : Nat
  size : Nat

namespace Copy

variable (c : Copy) (m : Bytes)

/-- A load of `n` bytes. -/
def load (n addr : Nat) : Except AccessFault Bytes :=
  if c.src ≤ addr ∧ addr + n ≤ c.src + c.size then .ok (m.view addr) else .error (.outside addr)

def store (n addr : Nat) (x : Bytes) : Except AccessFault Bytes :=
  if c.dst ≤ addr ∧ addr + n ≤ c.dst + c.size then .ok (m.blit addr n x)
  else .error (.outside addr)

/-- `_mm_load_si128` -/
def load128 (addr : Nat) : Except AccessFault Bytes :=
  if addr % 16 = 0 then c.load m 16 addr else .error (.unaligned addr)

/-- `_mm_stream_si128` -/
def stream128 (addr : Nat) (x : Bytes) : Except AccessFault Bytes :=
  if addr % 16 = 0 then c.store m 16 addr x else .error (.unaligned addr)

/-- `rep movs` of words of `n` bytes, from the word `i` on. -/
def repMovs (n i : Nat) (m : Bytes) : Nat → Except AccessFault Bytes
  | 0 => .ok m
  | count + 1 => do
    let x ← c.load m n (c.src + n * i)
    let m ← c.store m n (c.dst + n * i) x
    repMovs n (i + 1) m count

def memcpy : Except AccessFault Bytes :=
  if c.dst % 8 = 0 ∧ c.src % 8 = 0 ∧ c.size % 8 = 0 then c.repMovs 8 0 m (c.size / 8)
  else c.repMovs 1 0 m c.size

/-- The loop `for(i = 0; i < size - 63; i += 64)`. -/
def blocks (i : Nat) (m : Bytes) : Nat → Except AccessFault (Nat × Bytes)
  | 0 => .error .diverges
  | fuel + 1 =>
    if i < u64 (c.size + 2 ^ 64 - 63) then do
      let xmm1 ← c.load128 m (c.src + i)
      let xmm2 ← c.load128 m (c.src + i + 16)
      let xmm3 ← c.load128 m (c.src + i + 32)
      let xmm4 ← c.load128 m (c.src + i + 48)
      let m ← c.stream128 m (c.dst + i) xmm1
      let m ← c.stream128 m (c.dst + i + 16) xmm2
      let m ← c.stream128 m (c.dst + i + 32) xmm3
      let m ← c.stream128 m (c.dst + i + 48) xmm4
      blocks (u64 (i + 64)) m fuel
    else .ok (i, m)

/-- The loop `for(; i < size; i += 16)`. -/
def tail (i : Nat) (m : Bytes) : Nat → Except AccessFault Bytes
  | 0 => .error .diverges
  | fuel + 1 =>
    if i < c.size then do
      let xmm1 ← c.load128 m (c.src + i)
      let m ← c.stream128 m (c.dst + i) xmm1
      tail (u64 (i + 16)) m fuel
    else .ok m

def memcpyAligned : Except AccessFault Bytes :=
  if (c.src ||| c.dst) &&& 0xf ≠ 0 then c.memcpy m
  else do
    let (i, m) ← c.blocks 0 m (c.size + 1)
    c.tail i m (c.size + 1)

/-- Two ranges of addresses that do not overlap. -/
structure Disjoint (c : Copy) : Prop where
  dst_end : c.dst + c.size ≤ 2 ^ 64
  src_end : c.src + c.size ≤ 2 ^ 64
  apart : c.src + c.size ≤ c.dst ∨ c.dst + c.size ≤ c.src

/-- The memory once the first `n` bytes are copied. -/
def copied (n : Nat) : Bytes := m.blit c.dst n (m.view c.src)

variable {c m} {n i k : Nat}

/-! ### What a copied part is -/

theorem copied_zero : c.copied m 0 = m := Bytes.blit_zero ..

/-- Neither range takes more than half of the address space. -/
theorem Disjoint.size_le (h : c.Disjoint) : c.size ≤ 2 ^ 63 := by
  have hdst := h.dst_end
  have hsrc := h.src_end
  have hapart := h.apart
  omega

/-- The source is still what it was. -/
theorem Disjoint.view_copied (h : c.Disjoint) (hi : i ≤ c.size) {x : Nat} (hx : x < c.size) :
    c.copied m i (c.src + x) = m (c.src + x) := by
  have hapart := h.apart
  exact Bytes.blit_outside (by omega)

/-- A part that follows is copied, whenever it has been loaded. -/
theorem Disjoint.copied_step (h : c.Disjoint) (hn : i + n ≤ c.size) {j : Nat} (hj : j ≤ c.size) :
    (c.copied m i).blit (c.dst + i) n ((c.copied m j).view (c.src + i)) = c.copied m (i + n) := by
  have hview : ∀ x < n, (c.copied m j).view (c.src + i) x = (m.view c.src).view i x := by
    intro x hx
    simp only [Bytes.view_apply]
    rw [Nat.add_assoc, h.view_copied hj (by omega)]
  have hwhole : c.copied m (i + n) = _ := (Bytes.blit_append ..).symm
  rw [hwhole, copied]
  funext a
  by_cases ha : a < c.dst + i ∨ c.dst + i + n ≤ a
  · rw [Bytes.blit_outside ha, Bytes.blit_outside ha]
  · rw [Bytes.blit_inside (by omega) (by omega), Bytes.blit_inside (by omega) (by omega)]
    exact hview _ (by omega)

theorem load_eq (hi : i + n ≤ c.size) : c.load m n (c.src + i) = .ok (m.view (c.src + i)) :=
  if_pos ⟨Nat.le_add_right .., by omega⟩

theorem store_eq (hi : i + n ≤ c.size) (x : Bytes) :
    c.store m n (c.dst + i) x = .ok (m.blit (c.dst + i) n x) :=
  if_pos ⟨Nat.le_add_right .., by omega⟩

theorem repMovs_eq (h : c.Disjoint) (hsize : n * (i + k) ≤ c.size) :
    c.repMovs n i (c.copied m (n * i)) k = .ok (c.copied m (n * (i + k))) := by
  induction k generalizing i with
  | zero => rfl
  | succ k ih =>
    have hmul : n * (i + 1 + k) = n * (i + (k + 1)) := by rw [Nat.add_right_comm, Nat.add_assoc]
    have hle : n * (i + 1) ≤ n * (i + (k + 1)) := Nat.mul_le_mul_left n (by omega)
    rw [Nat.mul_add, Nat.mul_one] at hle
    unfold repMovs
    rw [load_eq (by omega), ok_bind, store_eq (by omega), ok_bind, h.copied_step (by omega) (by omega)]
    have hrest := ih (i := i + 1) (hmul ▸ hsize)
    rwa [Nat.mul_add, Nat.mul_one, hmul] at hrest

/-- `memcpy` copies the range. -/
theorem memcpy_eq (h : c.Disjoint) : c.memcpy m = .ok (c.copied m c.size) := by
  unfold memcpy
  split
  · rename_i halign
    have hquads : 8 * (0 + c.size / 8) = c.size := by omega
    have hloop := repMovs_eq (m := m) (n := 8) (i := 0) (k := c.size / 8) h (by omega)
    rwa [hquads, Nat.mul_zero, copied_zero] at hloop
  · have hloop := repMovs_eq (m := m) (n := 1) (i := 0) (k := c.size) h (by omega)
    simpa only [Nat.one_mul, Nat.zero_add, copied_zero] using hloop

/-! ### The loops -/

/-- The arguments that the loops are for. -/
structure Aligned (c : Copy) : Prop where
  dst : c.dst % 16 = 0
  src : c.src % 16 = 0

instance : Decidable c.Aligned :=
  decidable_of_iff (c.dst % 16 = 0 ∧ c.src % 16 = 0) ⟨fun h => ⟨h.1, h.2⟩, fun h => ⟨h.1, h.2⟩⟩

theorem aligned_iff : (c.src ||| c.dst) &&& 0xf = 0 ↔ c.Aligned := by
  rw [show (0xf : Nat) = 2 ^ 4 - 1 from rfl, Nat.and_two_pow_sub_one_eq_mod, Nat.or_mod_two_pow,
    Nat.or_eq_zero_iff]
  exact ⟨fun h => ⟨h.2, h.1⟩, fun h => ⟨h.src, h.dst⟩⟩

theorem Aligned.load128_eq (ha : c.Aligned) (hi : i % 16 = 0) (hsize : i + 16 ≤ c.size) :
    c.load128 m (c.src + i) = .ok (m.view (c.src + i)) := by
  have hsrc := ha.src
  unfold load128
  rw [if_pos (by omega), load_eq hsize]

theorem Aligned.stream128_eq (ha : c.Aligned) (hi : i % 16 = 0) (hsize : i + 16 ≤ c.size)
    (x : Bytes) : c.stream128 m (c.dst + i) x = .ok (m.blit (c.dst + i) 16 x) := by
  have hdst := ha.dst
  unfold stream128
  rw [if_pos (by omega), store_eq hsize]

/-- A load that is made lies in the range. -/
theorem load128_inside {x : Bytes} (h : c.load128 m (c.src + i) = .ok x) : i + 16 ≤ c.size := by
  unfold load128 load at h
  split at h
  · split at h
    · omega
    · cases h
  · cases h

/-- From 63 bytes on, the first loop copies blocks until less than 64 bytes are left. -/
theorem Aligned.blocks_eq (ha : c.Aligned) (h : c.Disjoint) (hsize : 63 ≤ c.size) {fuel : Nat}
    (hi : i % 16 = 0) (hle : i ≤ c.size) (hfuel : c.size < i + 64 * fuel) :
    ∃ j, c.blocks i (c.copied m i) fuel = .ok (j, c.copied m j) ∧ j % 16 = 0 ∧ j ≤ c.size := by
  have hend := h.size_le
  induction fuel generalizing i with
  | zero => omega
  | succ fuel ih =>
    unfold blocks
    have hbound : u64 (c.size + 2 ^ 64 - 63) = c.size - 63 := by
      unfold u64
      omega
    rw [hbound]
    by_cases hlt : i < c.size - 63
    · have hnext : u64 (i + 64) = i + 64 := u64_of_lt (by omega)
      have hblock : c.copied m (i + 16 + 16 + 16 + 16) = c.copied m (i + 64) := rfl
      rw [if_pos hlt, Nat.add_assoc c.src, Nat.add_assoc c.src, Nat.add_assoc c.src,
        Nat.add_assoc c.dst, Nat.add_assoc c.dst, Nat.add_assoc c.dst,
        ha.load128_eq hi (by omega), ok_bind, ha.load128_eq (by omega) (by omega), ok_bind,
        ha.load128_eq (by omega) (by omega), ok_bind, ha.load128_eq (by omega) (by omega), ok_bind,
        ha.stream128_eq hi (by omega), ok_bind, h.copied_step (by omega) hle,
        ha.stream128_eq (by omega) (by omega), ok_bind, h.copied_step (by omega) hle,
        ha.stream128_eq (i := i + 32) (by omega) (by omega), ok_bind,
        h.copied_step (i := i + 32) (by omega) hle,
        ha.stream128_eq (i := i + 48) (by omega) (by omega), ok_bind,
        h.copied_step (i := i + 48) (by omega) hle, hnext]
      exact ih (by omega) (by omega) (by omega)
    · rw [if_neg hlt]
      exact ⟨i, rfl, hi, hle⟩

/-- The first loop is never left with fewer bytes: its bound wraps around. -/
theorem blocks_short (hpos : c.size < 63) {fuel : Nat} {r : Nat × Bytes} :
    c.blocks 0 m fuel ≠ .ok r := by
  intro h
  cases fuel with
  | zero => cases h
  | succ fuel =>
    have hbound : 0 < u64 (c.size + 2 ^ 64 - 63) := by
      unfold u64
      omega
    unfold blocks at h
    rw [if_pos hbound] at h
    obtain ⟨_, -, h⟩ := bind_eq_ok.mp h
    obtain ⟨_, -, h⟩ := bind_eq_ok.mp h
    obtain ⟨_, -, h⟩ := bind_eq_ok.mp h
    obtain ⟨_, hload, -⟩ := bind_eq_ok.mp h
    have hinside := load128_inside (i := 0 + 48) hload
    omega

theorem Aligned.tail_eq (ha : c.Aligned) (h : c.Disjoint) {fuel : Nat} (hi : i % 16 = 0)
    (hle : i ≤ c.size) (hsize : c.size % 16 = 0) (hfuel : c.size < i + 16 * fuel) :
    c.tail i (c.copied m i) fuel = .ok (c.copied m c.size) := by
  have hend := h.size_le
  induction fuel generalizing i with
  | zero => omega
  | succ fuel ih =>
    unfold tail
    by_cases hlt : i < c.size
    · have hnext : u64 (i + 16) = i + 16 := u64_of_lt (by omega)
      rw [if_pos hlt, ha.load128_eq hi (by omega), ok_bind, ha.stream128_eq hi (by omega), ok_bind,
        h.copied_step (by omega) hle, hnext]
      exact ih (by omega) (by omega) (by omega)
    · obtain rfl : i = c.size := by omega
      rw [if_neg hlt]

/-- The second loop stays in the range only if it ends with it. -/
theorem tail_inside (h : c.Disjoint) {fuel : Nat} {m' : Bytes} (hi : i % 16 = 0) (hle : i ≤ c.size)
    (hrun : c.tail i m fuel = .ok m') : c.size % 16 = 0 := by
  have hend := h.size_le
  induction fuel generalizing i m with
  | zero => cases hrun
  | succ fuel ih =>
    unfold tail at hrun
    by_cases hlt : i < c.size
    · rw [if_pos hlt] at hrun
      obtain ⟨x, hload, hrun⟩ := bind_eq_ok.mp hrun
      obtain ⟨m₁, -, hrun⟩ := bind_eq_ok.mp hrun
      have hinside := load128_inside hload
      rw [u64_of_lt (by omega)] at hrun
      exact ih (by omega) hinside hrun
    · omega

/-- `memcpy_aligned` copies what `memcpy` copies, within the ranges, unless both addresses are aligned
and the size is below 64 or no multiple of 16. -/
theorem memcpyAligned_iff (h : c.Disjoint) (m : Bytes) :
    c.memcpy m = .ok (m.blit c.dst c.size (m.view c.src)) ∧
    (c.memcpyAligned m = c.memcpy m ↔
      ¬(c.dst % 16 = 0 ∧ c.src % 16 = 0) ∨ 64 ≤ c.size ∧ c.size % 16 = 0) := by
  have hcpy := memcpy_eq (m := m) h
  refine ⟨hcpy, ?_⟩
  rw [hcpy]
  unfold memcpyAligned
  by_cases ha : c.Aligned
  · rw [if_neg (not_not_intro (aligned_iff.mpr ha))]
    by_cases hsize : 63 ≤ c.size
    · have hfuel : c.size < 0 + 64 * (c.size + 1) := by omega
      obtain ⟨j, hblocks, hj, hle⟩ := ha.blocks_eq (m := m) h hsize rfl (Nat.zero_le _) hfuel
      rw [copied_zero] at hblocks
      rw [hblocks, ok_bind]
      constructor
      · intro hrun
        have h16 := tail_inside h hj hle hrun
        exact .inr ⟨by omega, h16⟩
      · rintro (hna | ⟨-, h16⟩)
        · exact absurd ⟨ha.dst, ha.src⟩ hna
        · exact ha.tail_eq h hj hle h16 (by omega)
    · refine iff_of_false (fun hrun => ?_) ?_
      · obtain ⟨r, hblocks, -⟩ := bind_eq_ok.mp hrun
        exact blocks_short (by omega) hblocks
      · rintro (hna | ⟨h64, -⟩)
        · exact hna ⟨ha.dst, ha.src⟩
        · omega
  · rw [if_pos (mt aligned_iff.mp ha), hcpy]
    exact iff_of_true rfl (.inl fun hok => ha ⟨hok.1, hok.2⟩)

/-- A line of 20 pixels. -/
def line : Copy := ⟨0x1000, 0x2000, 80⟩

theorem memcpyAligned_iff_line : line.memcpy (fun _ => 0) =
      .ok (Bytes.blit (fun _ => 0) 0x1000 80 (Bytes.view (fun _ => 0) 0x2000)) ∧
    (line.memcpyAligned (fun _ => 0) = line.memcpy (fun _ => 0) ↔
      ¬(0x1000 % 16 = 0 ∧ 0x2000 % 16 = 0) ∨ 64 ≤ 80 ∧ 80 % 16 = 0) :=
  memcpyAligned_iff (c := line) ⟨by decide, by decide, by decide⟩ fun _ => 0

/-- Nothing at all, 8 bytes, and 66 bytes: a load behind the source. -/
theorem memcpyAligned_outside :
    memcpyAligned ⟨0x1000, 0x2000, 0⟩ (fun _ => 0) = .error (.outside 0x2000) ∧
    memcpyAligned ⟨0x1000, 0x2000, 8⟩ (fun _ => 0) = .error (.outside 0x2000) ∧
    memcpyAligned ⟨0x1000, 0x2000, 66⟩ (fun _ => 0) = .error (.outside 0x2040) :=
  ⟨rfl, rfl, rfl⟩

end Copy

end SupOS.Video
