import SupOS.Memory.Spaces
import SupOS.Errno

/-! The pointers that system calls take from a process: `UserMemory::in`, and the check of `nbread` and
`swrite` on the two ends of a buffer. -/

namespace SupOS

open Lib Entry

namespace Machine

variable (s : Machine) (PDP : Nat)

/-- The entries of the tables of `PDP` for an address. -/
def inPD (addr : Nat) : Entry := s.mem PDP (getPDPindex addr)

def inPT (addr : Nat) : Entry := s.mem (s.inPD PDP addr).getAddr (getPDindex addr)

def inPage (addr : Nat) : Entry := s.mem (s.inPT PDP addr).getAddr (getPTindex addr)

/-- `UserMemory::in` -/
def userIn (addr : Nat) : Bool :=
  if getPML4index addr ≠ 0 then false
  else if !(s.inPD PDP addr).present then false
  else if !(s.inPT PDP addr).present then false
  else if !(s.inPage PDP addr).present then false
  else true

/-- How `nbread` and `swrite` begin: the value that they return at once, if any. -/
def checkBuffer (buf count : Nat) : Option Nat :=
  if !s.userIn PDP buf then some (2 ^ 64 - EFAULT)
  -- TODO first and last bytes in does not mean all.
  else if !s.userIn PDP (u64 (buf + count)) then some (2 ^ 64 - EFAULT)
  else none

/-- The process may read the byte at `a`: its tables, which hold no pages above 4 KiB, map it for the
user at each level, and it is outside of the first 2 MiB. -/
structure Accessible (a : Nat) : Prop where
  addr : UserAddr a
  pd : (s.inPD PDP a).present = true ∧ (s.inPD PDP a).user = true
  pt : (s.inPT PDP a).present = true ∧ (s.inPT PDP a).user = true
  page : (s.inPage PDP a).present = true ∧ (s.inPage PDP a).user = true

/-- The first byte of the buffer in each of its pages. -/
def FirstInPage (buf count a : Nat) : Prop :=
  buf ≤ a ∧ a < buf + count ∧ (a = buf ∨ a % 0x1000 = 0)

variable {s PDP}

theorem userIn_iff {a : Nat} : s.userIn PDP a = true ↔ getPML4index a = 0 ∧
    (s.inPD PDP a).present = true ∧ (s.inPT PDP a).present = true ∧
    (s.inPage PDP a).present = true := by
  unfold userIn
  cases (s.inPD PDP a).present <;> cases (s.inPT PDP a).present <;>
    cases (s.inPage PDP a).present <;> simp

theorem checkBuffer_iff {buf count : Nat} : s.checkBuffer PDP buf count = some (2 ^ 64 - EFAULT) ↔
    ¬(s.userIn PDP buf = true ∧ s.userIn PDP (u64 (buf + count)) = true) := by
  unfold checkBuffer
  cases s.userIn PDP buf <;> cases s.userIn PDP (u64 (buf + count)) <;> simp

theorem Accessible.userIn {a : Nat} (h : s.Accessible PDP a) : s.userIn PDP a = true := by
  refine userIn_iff.mpr ⟨?_, h.pd.1, h.pt.1, h.page.1⟩
  have hlt := h.addr.2
  rw [getPML4index, Nat.shiftRight_eq_div_pow]
  omega

/-- Addresses of one page have the same entries. -/
theorem entries_congr (s : Machine) (PDP : Nat) {a b : Nat} (h : a / 0x1000 = b / 0x1000) :
    s.inPD PDP a = s.inPD PDP b ∧ s.inPT PDP a = s.inPT PDP b ∧
      s.inPage PDP a = s.inPage PDP b := by
  have hPDP : getPDPindex a = getPDPindex b := by
    rw [getPDPindex, getPDPindex, Nat.shiftRight_eq_div_pow, Nat.shiftRight_eq_div_pow]
    omega
  have hPD : getPDindex a = getPDindex b := by
    rw [getPDindex, getPDindex, Nat.shiftRight_eq_div_pow, Nat.shiftRight_eq_div_pow]
    omega
  have hPT : getPTindex a = getPTindex b := by
    rw [getPTindex, getPTindex, Nat.shiftRight_eq_div_pow, Nat.shiftRight_eq_div_pow]
    omega
  have hpd : s.inPD PDP a = s.inPD PDP b := by rw [inPD, inPD, hPDP]
  have hpt : s.inPT PDP a = s.inPT PDP b := by rw [inPT, inPT, hpd, hPD]
  exact ⟨hpd, hpt, by rw [inPage, inPage, hpt, hPT]⟩

theorem Accessible.congr {a b : Nat} (h : s.Accessible PDP a) (hab : a / 0x1000 = b / 0x1000) :
    s.Accessible PDP b := by
  obtain ⟨hpd, hpt, hpage⟩ := entries_congr s PDP hab
  obtain ⟨hge, hlt⟩ := h.addr
  refine ⟨⟨by omega, by omega⟩, ?_, ?_, ?_⟩
  · rw [← hpd]
    exact h.pd
  · rw [← hpt]
    exact h.pt
  · rw [← hpage]
    exact h.page

/-- A buffer is accessible when the first byte of each of its pages is. -/
theorem accessible_of_first {buf count : Nat}
    (h : ∀ a, FirstInPage buf count a → s.Accessible PDP a) {a : Nat} (hge : buf ≤ a)
    (hlt : a < buf + count) : s.Accessible PDP a := by
  by_cases hpage : a / 0x1000 = buf / 0x1000
  · exact (h buf ⟨le_rfl, by omega, .inl rfl⟩).congr hpage.symm
  · exact (h (a / 0x1000 * 0x1000) ⟨by omega, by omega, .inr (by omega)⟩).congr (by omega)

/-- The check does what is asked of it: it fails exactly for a buffer with a byte that the process may
not access. -/
def ChecksBuffer (s : Machine) (PDP buf count : Nat) : Prop :=
  s.checkBuffer PDP buf count = some (2 ^ 64 - EFAULT) ↔
    ∃ a, buf ≤ a ∧ a < buf + count ∧ ¬s.Accessible PDP a

/-- The two addresses that are looked at speak for the pages of the buffer. -/
structure EndsSpeak (s : Machine) (PDP buf count : Nat) : Prop where
  /-- A buffer at an address that is not mapped is not empty. -/
  start : s.userIn PDP buf = false → 0 < count
  /-- A buffer that ends with the page before one that is not mapped has another page that cannot be
  accessed. -/
  finish : s.userIn PDP buf = true → s.userIn PDP (u64 (buf + count)) = false →
    (buf + count) % 0x1000 = 0 → ∃ a, FirstInPage buf count a ∧ ¬s.Accessible PDP a
  /-- Between addresses that are mapped, every page can be accessed. -/
  inside : s.userIn PDP buf = true → s.userIn PDP (u64 (buf + count)) = true →
    ∀ a, FirstInPage buf count a → s.Accessible PDP a

/-- A process with the identity map of the first 2 MiB and two pages of its own after it. -/
def twoPages : Machine where
  mem f i :=
    if f = 0x1000 ∧ i = 0 then Entry.blank.active 0x2000
    else if f = 0x2000 ∧ i = 0 then Entry.blank.active 0x3000
    else if f = 0x2000 ∧ i = 1 then Entry.blank.active 0x4000
    else if f = 0x3000 then { Entry.blank.active (i * 0x1000) with user := false }
    else if f = 0x4000 ∧ i < 2 then Entry.blank.active (0x300000 + i * 0x1000)
    else Entry.blank
  pml4 := 0x5000
  pagePT := 0x6000
  used := {0x1000, 0x2000, 0x3000, 0x4000, 0x5000, 0x6000, 0x300000, 0x301000}

theorem twoPages_accessible {a : Nat} (hge : 0x200000 ≤ a) (hlt : a < 0x202000) :
    twoPages.Accessible 0x1000 a := by
  have h0 : twoPages.Accessible 0x1000 0x200000 :=
    ⟨⟨by decide, by decide⟩, by decide, by decide, by decide⟩
  have h1 : twoPages.Accessible 0x1000 0x201000 :=
    ⟨⟨by decide, by decide⟩, by decide, by decide, by decide⟩
  by_cases hfirst : a < 0x201000
  · exact h0.congr (by omega)
  · exact h1.congr (by omega)

end Machine

end SupOS
