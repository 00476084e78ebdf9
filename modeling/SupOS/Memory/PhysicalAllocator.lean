import SupOS.Memory.Bitset
import Mathlib.Data.List.Nodup

/-! The class `PhysicalMemoryAllocator` of `Memory/PhysicalMemoryAllocator.cpp`, and the runs of its
users. Bit `k` of the bitmap is set when the frame at `0x100000 + k * 0x1000` is free. -/

namespace SupOS

open Lib

/-- `OccupArea` of `KArgs.h`. -/
structure OccupArea where
  addr : UInt32
  nbPages : UInt32

structure PhysicalMemoryAllocator where
  bitset : Bitset

namespace PhysicalMemoryAllocator

/-- The bit of the frame at `addr`. -/
def index (addr : Nat) : Nat := u64 (addr + 2 ^ 64 - 0x100000) / 0x1000

/-- The frame of bit `k`. -/
def address (k : Nat) : Nat := u64 (0x100000 + k <<< 12)

def getPageSize (m : PhysicalMemoryAllocator) : Nat :=
  ((m.bitset.size + 7) / 8 + 0x1000 - 1) / 0x1000

def unset (m : PhysicalMemoryAllocator) (addr : Nat) : Except Fault PhysicalMemoryAllocator := do
  assert (addr % 0x1000 = 0)
  return { m with bitset := ← m.bitset.unset (index addr) }

/-- Page `i` of those from `addr` on. -/
def pageAt (addr i : Nat) : Nat := u64 (addr + i * 0x1000)

/-- Calls of `unset` for the `n` pages from `addr` on. -/
def unsetPages (m : PhysicalMemoryAllocator) (addr n : Nat) : Except Fault PhysicalMemoryAllocator :=
  (List.range n).foldlM (fun m i => m.unset (pageAt addr i)) m

/-- The allocator after `_bitset.init` and `_bitset.fill`, before any page is taken. -/
def blank (RAMSize : UInt64) (memory : Words) : PhysicalMemoryAllocator :=
  ⟨Bitset.fill ⟨memory, RAMSize.toNat / 0x1000⟩⟩

/-- `init`, where `memory` is what the words at `phyBitset` hold before. -/
def init (phyBitset RAMSize : UInt64) (occupArea : List OccupArea) (memory : Words) :
    Except Fault PhysicalMemoryAllocator := do
  assert (phyBitset.toNat % 0x1000 = 0)
  let m ← (blank RAMSize memory).unsetPages phyBitset.toNat (blank RAMSize memory).getPageSize
  occupArea.foldlM (fun m area => m.unsetPages area.addr.toNat area.nbPages.toNat) m

def alloc (m : PhysicalMemoryAllocator) : Except Fault (Nat × PhysicalMemoryAllocator) :=
  match m.bitset.bsf with
  | none => .error .outOfMemory
  | some bsf => do
    let bitset ← m.bitset.write false bsf
    return (address bsf, ⟨bitset⟩)

def free (m : PhysicalMemoryAllocator) (page : Nat) : Except Fault PhysicalMemoryAllocator := do
  assert (u64 (page + 2 ^ 64 - 0x100000) % 0x1000 = 0)
  if ← m.bitset.get (index page) then
    throw (.bsod "Trying to free physical page %p which is already free")
  return ⟨← m.bitset.write true (index page)⟩

def alloc2M (m : PhysicalMemoryAllocator) : Except Fault (Nat × PhysicalMemoryAllocator) :=
  match m.bitset.usr with
  | none => .error .outOfMemory
  | some usr => do
    let usr := alignup (usr + 1) 256
    let usr := if usr % 512 = 0 then usr + 256 else usr
    assert (usr + 512 ≤ m.bitset.size)
    let bitset ← m.bitset.unsetRange usr 512
    return (address usr, ⟨bitset⟩)

def free2M (m : PhysicalMemoryAllocator) (page : Nat) : Except Fault PhysicalMemoryAllocator := do
  assert (u64 (page + 2 ^ 64 - 0x100000) % 0x1000 = 0)
  return ⟨← m.bitset.setRange (index page) 512⟩

/-! ### Bits and frames -/

theorem address_eq (k : Nat) : address k = (0x100000 + k * 0x1000) % 2 ^ 64 := by
  rw [address, Nat.shiftLeft_eq]
  rfl

theorem index_eq (addr : Nat) : index addr = (addr + 2 ^ 64 - 0x100000) % 2 ^ 64 / 0x1000 := rfl

theorem index_address {k : Nat} (hk : k < 2 ^ 52) : index (address k) = k := by
  rw [index_eq, address_eq]
  omega

theorem address_index {addr : Nat} (ha : addr < 2 ^ 64) (hz : addr % 0x1000 = 0) :
    address (index addr) = addr := by
  rw [index_eq, address_eq]
  omega

theorem address_aligned (k : Nat) : address k % 0x1000 = 0 := by
  rw [address_eq]
  omega

theorem address_inj {j k : Nat} (hj : j < 2 ^ 52) (hk : k < 2 ^ 52) (h : address j = address k) :
    j = k := by
  rw [← index_address hj, h, index_address hk]

/-- The frame `p` is in the 2 MiB page `q`. -/
def Inside (p q : Nat) : Prop := q ≤ p ∧ p < q + 0x200000

/-- No address in a 2 MiB page wraps. -/
theorem address_of_lt {i k : Nat} (hi : i + 512 ≤ 2 ^ 52) (hmod : i % 512 = 256) (hk : k < 512) :
    address (i + k) = 0x100000 + (i + k) * 0x1000 := by
  rw [address_eq]
  exact Nat.mod_eq_of_lt (by omega)

theorem inside_iff {k i : Nat} (hk : k < 2 ^ 52) (hi : i + 512 ≤ 2 ^ 52) (hmod : i % 512 = 256) :
    Inside (address k) (address i) ↔ i ≤ k ∧ k < i + 512 := by
  have haddr := address_of_lt hi hmod (k := 0) (by omega)
  rw [Nat.add_zero] at haddr
  unfold Inside
  rw [haddr, address_eq]
  omega

theorem address_add {i k : Nat} (hi : i + 512 ≤ 2 ^ 52) (hmod : i % 512 = 256) (hk : k < 512) :
    address i + k * 0x1000 = address (i + k) := by
  have haddr := address_of_lt hi hmod (k := 0) (by omega)
  rw [Nat.add_zero] at haddr
  rw [haddr, address_of_lt hi hmod hk, Nat.add_mul, Nat.add_assoc]

/-- The bits of whole words. -/
def bits (m : PhysicalMemoryAllocator) : Nat := m.bitset.size / 64 * 64

/-- The frame at `p` is marked free. -/
def Available (m : PhysicalMemoryAllocator) (p : Nat) : Prop :=
  p = address (index p) ∧ index p < m.bits ∧ m.bitset.bit (index p) = true

theorem unset_spec {m m' : PhysicalMemoryAllocator} {addr : Nat} (h : m.unset addr = .ok m') :
    addr % 0x1000 = 0 ∧ Bitset.Wrote false (· = index addr) m.bitset m'.bitset := by
  obtain ⟨_, ha, h⟩ := bind_eq_ok.mp h
  obtain ⟨b, hb, h⟩ := bind_eq_ok.mp h
  obtain rfl := pure_eq_ok.mp h
  exact ⟨by simpa using assert_eq_ok.mp ha, (Bitset.write_spec hb).2⟩

/-- Some bits are cleared, those of the pages `l` at least. -/
structure Taken (l : Nat → Prop) (m m' : PhysicalMemoryAllocator) : Prop where
  size : m'.bitset.size = m.bitset.size
  kept : ∀ k, m'.bitset.bit k = true → m.bitset.bit k = true
  aligned : ∀ p, l p → p % 0x1000 = 0
  cleared : ∀ p, l p → m'.bitset.bit (index p) = false

theorem Taken.refl (m : PhysicalMemoryAllocator) : Taken (fun _ => False) m m where
  size := rfl
  kept _ h := h
  aligned _ h := h.elim
  cleared _ h := h.elim

theorem Taken.trans {l l' : Nat → Prop} {m m1 m' : PhysicalMemoryAllocator} (h : Taken l m m1)
    (h' : Taken l' m1 m') : Taken (fun p => l p ∨ l' p) m m' where
  size := h'.size.trans h.size
  kept k hk := h.kept k (h'.kept k hk)
  aligned p hp := hp.elim (h.aligned p) (h'.aligned p)
  cleared p hp := by
    rcases hp with hp | hp
    · by_contra hne
      have hset := h'.kept (index p) (by simpa using hne)
      rw [h.cleared p hp] at hset
      exact absurd hset Bool.false_ne_true
    · exact h'.cleared p hp

theorem Taken.mono {l l' : Nat → Prop} {m m' : PhysicalMemoryAllocator} (h : Taken l m m')
    (hl : ∀ p, l' p → l p) : Taken l' m m' where
  size := h.size
  kept := h.kept
  aligned p hp := h.aligned p (hl p hp)
  cleared p hp := h.cleared p (hl p hp)

theorem unset_taken {m m' : PhysicalMemoryAllocator} {addr : Nat} (h : m.unset addr = .ok m') :
    Taken (· = addr) m m' := by
  obtain ⟨ha, hw⟩ := unset_spec h
  refine ⟨hw.size, fun k hk => ?_, fun p hp => hp ▸ ha, fun p hp => hp ▸ hw.inside _ rfl⟩
  by_cases hka : k = index addr
  · rw [hw.inside k hka] at hk
    exact absurd hk Bool.false_ne_true
  · rwa [hw.outside k hka] at hk

/-- A loop over a list takes what its rounds take. -/
theorem foldlM_taken {α : Type} {f : PhysicalMemoryAllocator → α → Except Fault PhysicalMemoryAllocator}
    {l : α → Nat → Prop} (hf : ∀ m m' a, f m a = .ok m' → Taken (l a) m m') (as : List α) :
    ∀ {m m' : PhysicalMemoryAllocator}, as.foldlM f m = .ok m' →
      Taken (fun p => ∃ a ∈ as, l a p) m m' := by
  induction as with
  | nil =>
    intro m m' h
    cases h
    exact (Taken.refl m).mono fun p ⟨a, ha, _⟩ => absurd ha List.not_mem_nil
  | cons a as ih =>
    intro m m' h
    rw [List.foldlM_cons] at h
    cases ha : f m a with
    | ok m1 =>
      rw [ha, ok_bind] at h
      exact ((hf m m1 a ha).trans (ih h)).mono fun p hp => by simpa using hp
    | error e =>
      rw [ha, error_bind] at h
      exact nomatch h

theorem unsetPages_taken {m m' : PhysicalMemoryAllocator} {addr n : Nat}
    (h : m.unsetPages addr n = .ok m') : Taken (fun p => ∃ i < n, p = pageAt addr i) m m' :=
  (foldlM_taken (l := fun i p => p = pageAt addr i) (fun _ _ _ => unset_taken) _ h).mono
    fun p hp => by simpa using hp

theorem init_taken {phyBitset RAMSize : UInt64} {occupArea : List OccupArea} {memory : Words}
    {m : PhysicalMemoryAllocator} (h : init phyBitset RAMSize occupArea memory = .ok m) :
    Taken (fun p => (∃ i < (blank RAMSize memory).getPageSize, p = pageAt phyBitset.toNat i) ∨
      ∃ area ∈ occupArea, ∃ j < area.nbPages.toNat, p = pageAt area.addr.toNat j)
      (blank RAMSize memory) m := by
  unfold init at h
  obtain ⟨_, -, h⟩ := bind_eq_ok.mp h
  obtain ⟨m1, hself, h⟩ := bind_eq_ok.mp h
  have hareas := foldlM_taken (l := fun area p => ∃ j < area.nbPages.toNat,
    p = pageAt area.addr.toNat j) (fun _ _ _ harea => unsetPages_taken harea) occupArea h
  exact (unsetPages_taken hself).trans hareas

/-! ### The four operations -/

theorem alloc_spec {m m' : PhysicalMemoryAllocator} {p : Nat} (h : m.alloc = .ok (p, m')) :
    ∃ k < m.bits, p = address k ∧ m.bitset.bit k = true ∧ (∀ j < k, m.bitset.bit j = false) ∧
      Bitset.Wrote false (· = k) m.bitset m'.bitset := by
  unfold alloc at h
  cases hk : m.bitset.bsf with
  | none =>
    rw [hk] at h
    exact nomatch h
  | some k =>
    rw [hk] at h
    obtain ⟨b, hb, h⟩ := bind_eq_ok.mp h
    obtain ⟨rfl, rfl⟩ := Prod.mk.inj (pure_eq_ok.mp h)
    obtain ⟨hlt, hbit, hlow⟩ := Words.firstOne_some hk
    exact ⟨k, by unfold bits; omega, rfl, hbit, hlow, (Bitset.write_spec hb).2⟩

theorem free_spec {m m' : PhysicalMemoryAllocator} {p : Nat} (h : m.free p = .ok m') :
    Bitset.Wrote true (· = index p) m.bitset m'.bitset := by
  obtain ⟨_, -, h⟩ := bind_eq_ok.mp h
  obtain ⟨used, -, h⟩ := bind_eq_ok.mp h
  cases used with
  | true => exact nomatch h
  | false =>
    obtain ⟨b, hb, h⟩ := bind_eq_ok.mp h
    obtain rfl := pure_eq_ok.mp h
    exact (Bitset.write_spec hb).2

/-- A 2 MiB page starts above every clear bit, and its last 64 bits stay set. -/
theorem alloc2M_spec {m m' : PhysicalMemoryAllocator} {p : Nat} (hsize : m.bitset.size < 2 ^ 52)
    (h : m.alloc2M = .ok (p, m')) :
    ∃ i, p = address i ∧ i % 512 = 256 ∧ i + 512 ≤ m.bits ∧
      (∀ k, i ≤ k → k < m.bits → m.bitset.bit k = true) ∧
      Bitset.Wrote false (fun k => i ≤ k ∧ k < i + 448) m.bitset m'.bitset := by
  unfold alloc2M at h
  cases hu : m.bitset.usr with
  | none =>
    rw [hu] at h
    exact nomatch h
  | some u =>
    rw [hu] at h
    obtain ⟨hlt, -, hhigh⟩ := Words.lastZero_some hu
    obtain ⟨_, hle, h⟩ := bind_eq_ok.mp h
    obtain ⟨b, hb, h⟩ := bind_eq_ok.mp h
    obtain ⟨rfl, rfl⟩ := Prod.mk.inj (pure_eq_ok.mp h)
    have hle := of_decide_eq_true (assert_eq_ok.mp hle)
    generalize hi : (if alignup (u + 1) 256 % 512 = 0 then alignup (u + 1) 256 + 256
      else alignup (u + 1) 256) = i at hle hb ⊢
    have halign : alignup (u + 1) 256 % 256 = 0 := Nat.mul_mod_left _ _
    have hge : u + 1 ≤ alignup (u + 1) 256 := by
      unfold alignup
      omega
    have hmod : i % 512 = 256 ∧ u < i := by
      split at hi <;> omega
    obtain ⟨b', hb', hw⟩ := Bitset.writeRange_of_aligned (v := false) (i := i) (by omega)
      (show 64 ≤ 512 by omega) hle (by omega)
    obtain rfl := Except.ok.inj (hb.symm.trans hb')
    refine ⟨i, rfl, hmod.1, by unfold bits; omega, fun k hk hkn => hhigh k (by omega) ?_, hw⟩
    rw [bits] at hkn
    omega

/-- The last 64 bits of a 2 MiB page are not written. -/
theorem free2M_spec {m m' : PhysicalMemoryAllocator} {i : Nat} (hsize : m.bitset.size < 2 ^ 52)
    (hmod : i % 512 = 256) (hle : i + 512 ≤ m.bitset.size) (h : m.free2M (address i) = .ok m') :
    Bitset.Wrote true (fun k => i ≤ k ∧ k < i + 448) m.bitset m'.bitset := by
  obtain ⟨_, -, h⟩ := bind_eq_ok.mp h
  obtain ⟨b, hb, h⟩ := bind_eq_ok.mp h
  obtain rfl := pure_eq_ok.mp h
  rw [index_address (by omega)] at hb
  obtain ⟨b', hb', hw⟩ := Bitset.writeRange_of_aligned (v := true) (i := i) (by omega)
    (show 64 ≤ 512 by omega) hle (by omega)
  obtain rfl := Except.ok.inj (hb.symm.trans hb')
  exact hw

end PhysicalMemoryAllocator

end SupOS
