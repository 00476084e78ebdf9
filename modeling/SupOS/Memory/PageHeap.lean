import SupOS.Memory.Alike
import SupOS.Memory.Bitset
import SupOS.Lib.Machine
import Mathlib.Order.Interval.Set.Basic

/-! The class `PageHeap`: pages of virtual memory for physical ranges. Page `k` is the `k`-th one
below `base`, and bit `k` of the bitset is set when it is free. -/

namespace SupOS

open Lib Entry Machine

/-- The bitset of a `PageHeap`, and the memory. -/
structure PageHeap where
  bitset : Bitset
  memory : Machine

namespace PageHeap

def phBitset : Nat := 2 ^ 64 - 0xB0000000 - 0x2000

def base : Nat := 2 ^ 64 - 0xC0000000 - 0x1000

variable (A : FrameAllocator) (h : PageHeap)

/-- `init()`, where the page at `phBitset` holds `data`. -/
def init (data : Words) (s : Machine) : Except Fault PageHeap := do
  let (phy, s) ← s.alloc A
  let s ← s.createMapping1 A phy phBitset false
  let bitset ← (Bitset.fill ⟨data, 0x1000⟩).write false 0
  return ⟨bitset, s⟩

/-- `ialloc(phy)`, with its result. -/
def ialloc (phy : Nat) : Except Fault (Nat × PageHeap) := do
  let i := i32 (h.bitset.bsf.getD (2 ^ 64 - 1))
  let bitset ← h.bitset.unset i
  assert (i ≠ 2 ^ 64 - 1)
  let addr := u64 (base + (2 ^ 64 - i32 (i * 0x1000)))
  let memory ← h.memory.createMapping1 A phy addr false
  return (addr, ⟨bitset, memory⟩)

/-- `ialloc(phy, nb)`, with its result. -/
def iallocRange (phy nb : Nat) : Except Fault (Nat × PageHeap) := do
  let found ← h.bitset.largeBsf (i32 nb)
  let i := i32 (found.getD (2 ^ 64 - 1))
  assert (i ≠ 2 ^ 64 - 1)
  let bitset ← (List.range nb).foldlM (fun b j => b.unset (u32 (i + j))) h.bitset
  let addr := u64 (base + (2 ^ 64 - i32 (i * 0x1000)))
  let memory ← h.memory.createMapping A phy addr nb false
  return (addr, ⟨bitset, memory⟩)

/-- The bit of an address. -/
def pos (virt : Nat) : Nat := u64 (base + (2 ^ 64 - virt)) / 0x1000

/-- `free(virt)`. -/
def free (virt : Nat) : Except Fault PageHeap := do
  assert (pos virt < 0x1000)
  let memory ← h.memory.freeMapping A virt 1
  let bitset ← h.bitset.set (pos virt)
  return ⟨bitset, memory⟩

/-- `free(virt, nb)`. -/
def freeRange (virt nb : Nat) : Except Fault PageHeap := do
  assert (pos virt < 0x1000)
  let memory ← h.memory.freeMapping A virt (Heap.count nb)
  let bitset ← (List.range nb).foldlM (fun b j => b.set (u64 (pos virt + j))) h.bitset
  return ⟨bitset, memory⟩

end PageHeap

/-- The result of an allocation, and what it was asked for. -/
structure Allocation where
  addr : Nat
  phy : Nat
  nb : Nat
  deriving DecidableEq

/-- The addresses of an allocation. -/
def Allocation.range (a : Allocation) : Set Nat := Set.Ico a.addr (a.addr + a.nb * 0x1000)

/-- A `PageHeap` and the allocations that have not been freed. -/
structure PageHeapState where
  heap : PageHeap
  live : List Allocation

namespace PageHeapState

open PageHeap

/-- The calls. An allocation is freed with the address and the size that it was made with. -/
inductive Op
  | alloc (phy : Nat)
  | allocRange (phy nb : Nat)
  | free (a : Allocation)
  | freeRange (a : Allocation)

variable (A : FrameAllocator) (b b' : PageHeapState)

def apply : Op → Except Fault PageHeapState
  | .alloc phy => do
    let (addr, heap) ← b.heap.ialloc A phy
    return ⟨heap, ⟨addr, phy, 1⟩ :: b.live⟩
  | .allocRange phy nb => do
    let (addr, heap) ← b.heap.iallocRange A phy nb
    return ⟨heap, ⟨addr, phy, nb⟩ :: b.live⟩
  | .free a => do
    let heap ← b.heap.free A a.addr
    return ⟨heap, b.live.erase a⟩
  | .freeRange a => do
    let heap ← b.heap.freeRange A a.addr a.nb
    return ⟨heap, b.live.erase a⟩

/-- The callers map physical pages, and free what they have allocated. -/
def Admits : Op → Prop
  | .alloc phy => IsFrame phy
  | .allocRange phy nb => phy % 0x1000 = 0 ∧ phy + nb * 0x1000 ≤ 2 ^ 52 ∧ nb < 2 ^ 32
  | .free a => a ∈ b.live ∧ a.nb = 1
  | .freeRange a => a ∈ b.live

/-- No call asks for more than one page. -/
def Careful (_ : PageHeapState) : Op → Prop
  | .allocRange _ nb => nb ≤ 1
  | _ => True

/-- Bit `k` of the bitset. -/
def bit (k : Nat) : Bool := b.heap.bitset.bit k

def translate (v : Nat) : Option Nat := b.heap.memory.translate v

/-- The address of page `k`. -/
def page (k : Nat) : Nat := base - k * 0x1000

/-- The page heap after `init` on a memory in which none of the 4096 pages is mapped. -/
def Fresh : Prop := ∃ data s, s.WellFormed ∧
  (∀ k < 0x1000, s.Suitable (page k) ∧ s.Small (page k) ∧ s.translate (page k) = none) ∧
  s.Suitable phBitset ∧ s.Small phBitset ∧ s.translate phBitset = none ∧
  PageHeap.init A data s = .ok b.heap ∧ b.live = []

/-- The live allocations and the memory. Page 0 is reserved. -/
structure Law : Prop where
  disjoint : b.live.Pairwise fun a a' => ∀ w ∈ a.range, w ∉ a'.range
  inside : ∀ a ∈ b.live, a.range ⊆ Set.Ico (page 0xfff) (page 0)
  mapped : ∀ a ∈ b.live, ∀ i < a.nb, b.translate (a.addr + i * 0x1000) = some (a.phy + i * 0x1000)
  clear : ∀ k < 0x1000, b.bit k = false ↔ k = 0 ∨ ∃ a ∈ b.live, page k ∈ a.range
  unmapped : ∀ k < 0x1000, b.bit k = true → b.translate (page k) = none

/-- Neither the pages nor the bits outside of an allocation have changed. -/
structure Outside (a : Allocation) : Prop where
  translate : ∀ w, Canonical w → w % 0x1000 = 0 → w ∉ a.range → b'.translate w = b.translate w
  bits : ∀ k < 0x1000, page k ∉ a.range → b'.bit k = b.bit k

/-- What a call does. -/
def Moved : Op → Prop
  | .alloc phy => ∃ addr, b'.live = ⟨addr, phy, 1⟩ :: b.live ∧ b.Outside b' ⟨addr, phy, 1⟩
  | .allocRange phy nb => ∃ addr, b'.live = ⟨addr, phy, nb⟩ :: b.live ∧
      b.Outside b' ⟨addr, phy, nb⟩
  | .free a | .freeRange a => b'.live = b.live.erase a ∧ b.Outside b' a

/-- How a call may stop: an allocation does where memory is short or no page is left. -/
def Stops : Op → Fault → Prop
  | .alloc _, e | .allocRange _ _, e =>
    e = .outOfMemory ∨ e = .assertion ∧ ∀ k < 0x1000, b.bit k = false
  | _, _ => False

/-! ### Pages -/

theorem page_add {k : Nat} (hk : k < 0x1000) : page k + k * 0x1000 = base := by
  unfold page base
  omega

theorem page_inj {j k : Nat} (hj : j < 0x1000) (hk : k < 0x1000) (h : page j = page k) : j = k := by
  have := page_add hj
  have := page_add hk
  omega

/-- The address that an allocation computes from a bit. -/
theorem addr_eq {k : Nat} (hk : k < 0x1000) :
    u64 (base + (2 ^ 64 - i32 (i32 k * 0x1000))) = page k := by
  have hi : i32 k = k := i32_of_lt (by omega)
  rw [hi, i32_of_lt (by omega)]
  unfold u64 page base
  omega

/-- An allocation where no bit is set. -/
theorem unset_none {b : Bitset} (hsize : b.size = 0x1000) :
    i32 (Option.getD none (2 ^ 64 - 1)) = 2 ^ 64 - 1 ∧ b.unset (2 ^ 64 - 1) = .error .assertion := by
  refine ⟨by decide, ?_⟩
  unfold Bitset.unset Bitset.write
  rw [hsize]
  rfl

/-- An allocation where bit `k` is the lowest one set. -/
theorem unset_some {b : Bitset} (hsize : b.size = 0x1000) {k : Nat} (hk : k < 0x1000) :
    i32 k = k ∧ k ≠ 2 ^ 64 - 1 ∧ u64 (base + (2 ^ 64 - i32 (k * 0x1000))) = page k ∧
      ∃ b', b.unset k = .ok b' ∧ Bitset.Wrote false (· = k) b b' := by
  have hi : i32 k = k := i32_of_lt (by omega)
  obtain ⟨b', hwrite⟩ := Bitset.write_of_lt (v := false) (b := b) (i := k) (by omega)
  exact ⟨hi, by omega, by simpa only [hi] using addr_eq hk, b', hwrite, (Bitset.write_spec hwrite).2⟩

/-- The bit that a call of `free` computes from an address. -/
theorem pos_page {k : Nat} (hk : k < 0x1000) : pos (page k) = k := by
  unfold pos u64 page base
  omega

/-- One page. -/
theorem mem_range_one {a : Allocation} {w : Nat} (hone : a.nb = 1) (hw : w % 0x1000 = 0)
    (ha : a.addr % 0x1000 = 0) : w ∈ a.range ↔ w = a.addr := by
  rw [Allocation.range, hone, Set.mem_Ico]
  omega

theorem range_zero {a : Allocation} (hzero : a.nb = 0) : a.range = ∅ := by
  rw [Allocation.range, hzero, Nat.zero_mul, Nat.add_zero, Set.Ico_self]

/-! ### The invariant -/

variable {A b b'} {a : Allocation} {i k : Nat} {s' : Machine} {bitset : Bitset}

structure Inv (b : PageHeapState) : Prop where
  wf : b.heap.memory.WellFormed
  size : b.heap.bitset.size = 0x1000
  pages : ∀ k < 0x1000, b.heap.memory.Suitable (page k) ∧ b.heap.memory.Small (page k)
  reserved : b.bit 0 = false
  unmapped : ∀ k < 0x1000, b.bit k = true ∨ k = 0 → b.translate (page k) = none
  live : ∀ a ∈ b.live, a.nb ≤ 1 ∧ ∃ k < 0x1000, k ≠ 0 ∧ a.addr = page k ∧
    (a.nb = 1 → b.bit k = false ∧ b.translate (page k) = some a.phy)
  clear : ∀ k < 0x1000, b.bit k = false → k = 0 ∨ ∃ a ∈ b.live, a.nb = 1 ∧ a.addr = page k
  distinct : b.live.Pairwise fun a a' => a.nb = 1 → a'.nb = 1 → a.addr ≠ a'.addr

namespace Inv

theorem aligned (h : b.Inv) (hk : k < 0x1000) : page k % 0x1000 = 0 := (h.pages k hk).1.aligned

theorem law (h : b.Inv) : b.Law where
  disjoint := by
    refine h.distinct.imp_of_mem fun {a a'} ha ha' hne w hw hw' => ?_
    obtain ⟨hnb, k, hk, -, hak, -⟩ := h.live a ha
    obtain ⟨hnb', k', hk', -, hak', -⟩ := h.live a' ha'
    have haligned := h.aligned hk
    have haligned' := h.aligned hk'
    rw [← hak] at haligned
    rw [← hak'] at haligned'
    by_cases hzero : a.nb = 0
    · rw [range_zero hzero] at hw
      exact hw
    by_cases hzero' : a'.nb = 0
    · rw [range_zero hzero'] at hw'
      exact hw'
    have hne := hne (by omega) (by omega)
    rw [Allocation.range, Set.mem_Ico] at hw hw'
    have : a.nb = 1 := by omega
    have : a'.nb = 1 := by omega
    simp only [*] at hw hw'
    omega
  inside a ha w hw := by
    obtain ⟨hnb, k, hk, hpos, hak, -⟩ := h.live a ha
    rw [Allocation.range, Set.mem_Ico] at hw
    rw [Set.mem_Ico]
    have := page_add hk
    unfold page base at *
    omega
  mapped a ha i hi := by
    obtain ⟨hnb, k, hk, -, hak, hone⟩ := h.live a ha
    obtain rfl : i = 0 := by omega
    rw [Nat.zero_mul, Nat.add_zero, Nat.add_zero, hak]
    exact (hone (by omega)).2
  clear k hk := by
    constructor
    · intro hbit
      refine (h.clear k hk hbit).imp_right ?_
      rintro ⟨a, ha, hone, hak⟩
      refine ⟨a, ha, ?_⟩
      rw [Allocation.range, Set.mem_Ico, hone, hak]
      omega
    · rintro (rfl | ⟨a, ha, hka⟩)
      · exact h.reserved
      · obtain ⟨hnb, k', hk', -, hak, hone⟩ := h.live a ha
        have hnb1 : a.nb = 1 := by
          rcases Nat.le_one_iff_eq_zero_or_eq_one.mp hnb with hzero | hone
          · rw [range_zero hzero] at hka
            exact hka.elim
          · exact hone
        have haligned := h.aligned hk'
        rw [← hak] at haligned
        rw [mem_range_one hnb1 (h.aligned hk) haligned, hak] at hka
        rw [page_inj hk hk' hka]
        exact (hone hnb1).1
  unmapped k hk hbit := h.unmapped k hk (.inl hbit)

/-- One page has been allocated. -/
theorem alloc (h : b.Inv) {phy : Nat} (hi : i < 0x1000) (hbit : b.bit i = true)
    (hr : Remapped b.heap.memory s' (page i) (some phy))
    (hw : Bitset.Wrote false (· = i) b.heap.bitset bitset) :
    Inv ⟨⟨bitset, s'⟩, ⟨page i, phy, 1⟩ :: b.live⟩ ∧
      b.Outside ⟨⟨bitset, s'⟩, ⟨page i, phy, 1⟩ :: b.live⟩ ⟨page i, phy, 1⟩ := by
  have hpos : i ≠ 0 := by
    rintro rfl
    exact Bool.false_ne_true (h.reserved.symm.trans hbit)
  have hother : ∀ k < 0x1000, k ≠ i → s'.translate (page k) = b.translate (page k) := by
    intro k hk hne
    exact hr.others _ (h.pages k hk).1.canonical (h.aligned hk) fun heq => hne (page_inj hk hi heq)
  refine ⟨⟨hr.wf, hw.size.trans h.size, fun k hk => ?_, ?_, fun k hk hfree => ?_, ?_,
    fun k hk hclear => ?_, ?_⟩, ⟨fun w hwc hwa hout => ?_, fun k hk hout => ?_⟩⟩
  · obtain ⟨hs, hsmall⟩ := h.pages k hk
    exact hr.suitable _ hs hsmall
  · exact (hw.outside 0 hpos.symm).trans h.reserved
  · have hne : k ≠ i := by
      rintro rfl
      exact hfree.elim (fun hk' => Bool.false_ne_true ((hw.inside k rfl).symm.trans hk')) hpos
    exact (hother k hk hne).trans (h.unmapped k hk (hfree.imp_left fun hk' =>
      (hw.outside k hne).symm.trans hk'))
  · intro a ha
    rcases List.mem_cons.mp ha with rfl | ha
    · exact ⟨le_rfl, i, hi, hpos, rfl, fun _ => ⟨hw.inside i rfl, hr.page⟩⟩
    · obtain ⟨hnb, k, hk, hk0, hak, hone⟩ := h.live a ha
      refine ⟨hnb, k, hk, hk0, hak, fun hnb1 => ?_⟩
      obtain ⟨hclear, htranslate⟩ := hone hnb1
      have hne : k ≠ i := by
        rintro rfl
        exact Bool.false_ne_true (hclear.symm.trans hbit)
      exact ⟨(hw.outside k hne).trans hclear, (hother k hk hne).trans htranslate⟩
  · by_cases hki : k = i
    · subst hki
      exact .inr ⟨_, List.mem_cons_self .., rfl, rfl⟩
    · refine (h.clear k hk ((hw.outside k hki).symm.trans hclear)).imp_right ?_
      rintro ⟨a, ha, hone⟩
      exact ⟨a, List.mem_cons_of_mem _ ha, hone⟩
  · refine List.pairwise_cons.mpr ⟨fun a ha _ hone heq => ?_, h.distinct⟩
    obtain ⟨-, k, hk, -, hak, hlive⟩ := h.live a ha
    have hki : i = k := page_inj hi hk (heq.trans hak)
    subst hki
    exact Bool.false_ne_true ((hlive hone).1.symm.trans hbit)
  · refine hr.others w hwc hwa fun heq => hout ?_
    rw [mem_range_one rfl hwa (h.aligned hi)]
    exact heq
  · refine hw.outside k fun heq => hout ?_
    rw [mem_range_one rfl (h.aligned hk) (h.aligned hi), heq]

/-- One page has been freed. -/
theorem free (h : b.Inv) (ha : a ∈ b.live) (hone : a.nb = 1) (hi : i < 0x1000)
    (hai : a.addr = page i) (hr : Remapped b.heap.memory s' (page i) none)
    (hw : Bitset.Wrote true (· = i) b.heap.bitset bitset) :
    Inv ⟨⟨bitset, s'⟩, b.live.erase a⟩ ∧ b.Outside ⟨⟨bitset, s'⟩, b.live.erase a⟩ a := by
  obtain ⟨-, j, hj, hpos, haj, hlive⟩ := h.live a ha
  have hij : i = j := page_inj hi hj (hai.symm.trans haj)
  subst hij
  have hother : ∀ k < 0x1000, k ≠ i → s'.translate (page k) = b.translate (page k) := by
    intro k hk hne
    exact hr.others _ (h.pages k hk).1.canonical (h.aligned hk) fun heq => hne (page_inj hk hi heq)
  have hperm := List.perm_cons_erase ha
  have hpairs := (hperm.pairwise_iff fun {_ _} hne h1 h2 => (hne h2 h1).symm).mp h.distinct
  rw [List.pairwise_cons] at hpairs
  refine ⟨⟨hr.wf, hw.size.trans h.size, fun k hk => ?_, ?_, fun k hk hfree => ?_, ?_,
    fun k hk hclear => ?_, hpairs.2⟩, ⟨fun w hwc hwa hout => ?_, fun k hk hout => ?_⟩⟩
  · obtain ⟨hs, hsmall⟩ := h.pages k hk
    exact hr.suitable _ hs hsmall
  · exact (hw.outside 0 hpos.symm).trans h.reserved
  · by_cases hne : k = i
    · subst hne
      exact hr.page
    · exact (hother k hk hne).trans (h.unmapped k hk (hfree.imp_left fun hk' =>
        (hw.outside k hne).symm.trans hk'))
  · intro a' ha'
    obtain ⟨hnb, k, hk, hk0, hak, hlive'⟩ := h.live a' (List.mem_of_mem_erase ha')
    refine ⟨hnb, k, hk, hk0, hak, fun hnb1 => ?_⟩
    have hne : k ≠ i := by
      rintro rfl
      exact hpairs.1 a' ha' hone hnb1 (hai.trans hak.symm)
    obtain ⟨hclear, htranslate⟩ := hlive' hnb1
    exact ⟨(hw.outside k hne).trans hclear, (hother k hk hne).trans htranslate⟩
  · have hne : k ≠ i := by
      rintro rfl
      exact Bool.false_ne_true (hclear.symm.trans (hw.inside k rfl))
    refine (h.clear k hk ((hw.outside k hne).symm.trans hclear)).imp_right ?_
    rintro ⟨a', ha', hone', hak⟩
    refine ⟨a', (List.mem_erase_of_ne ?_).mpr ha', hone', hak⟩
    rintro rfl
    exact hne (page_inj hk hi (hak.symm.trans hai))
  · refine hr.others w hwc hwa fun heq => hout ?_
    rw [mem_range_one hone hwa (hai ▸ h.aligned hi), heq, hai]
  · refine hw.outside k fun heq => hout ?_
    rw [mem_range_one hone (h.aligned hk) (hai ▸ h.aligned hi), heq, hai]

end Inv

end PageHeapState

/-! ### Calls for one page or none -/

namespace PageHeap

open PageHeapState

variable {A : FrameAllocator} {h : PageHeap} {phy virt : Nat}

/-- A request for one page with its size is one without. -/
theorem iallocRange_one (hsize : h.bitset.size = 0x1000) (hphy : phy < 2 ^ 64) :
    h.iallocRange A phy 1 = h.ialloc A phy := by
  have hfind : h.bitset.largeBsf (i32 1) = .ok h.bitset.bsf :=
    Bitset.largeBsf_one (by omega) (by omega)
  unfold iallocRange ialloc
  rw [hfind, ok_bind]
  cases hbsf : h.bitset.bsf with
  | none =>
    obtain ⟨hnone, hunset⟩ := unset_none hsize
    simp only [hnone, hunset, ne_eq, not_true, decide_false, assert_false, error_bind]
  | some k =>
    obtain ⟨hk, -, -⟩ := Words.firstOne_some hbsf
    have hk : k < 0x1000 := by omega
    obtain ⟨hi, hne, haddr, bitset, hwrite, -⟩ := unset_some hsize hk
    have hmap : ∀ s : Machine, s.createMapping A phy (page k) 1 false =
        s.createMapping1 A phy (page k) false := by
      intro s
      have hpage : page k + 0 < 2 ^ 64 := by
        unfold page base
        omega
      have hzero : u32 (0 * 0x1000) = 0 := rfl
      rw [createMapping, List.range_one, List.foldlM_cons, hzero, u64_of_lt hpage,
        u64_of_lt (n := phy + 0) hphy, Nat.add_zero, Nat.add_zero]
      exact bind_pure _
    have hunset : (List.range 1).foldlM (fun b j => b.unset (u32 (k + j))) h.bitset =
        h.bitset.unset k := by
      rw [List.range_one, List.foldlM_cons, Nat.add_zero, u32_of_lt (by omega)]
      exact bind_pure _
    simp only [Option.getD_some, hi, hunset, hwrite, hmap, haddr, ne_eq, hne, not_false_iff,
      decide_true, assert_true, ok_bind]

theorem iallocRange_zero (hsize : h.bitset.size = 0x1000) :
    h.iallocRange A phy 0 = .ok (page 1, h) := by
  have hfind : h.bitset.largeBsf (i32 0) = .ok (some 1) :=
    Bitset.largeBsf_zero (by omega) (by omega)
  unfold iallocRange
  rw [hfind]
  rfl

theorem freeRange_one (hpos : pos virt < 0x1000) : h.freeRange A virt 1 = h.free A virt := by
  have hset : (List.range 1).foldlM (fun b j => b.set (u64 (pos virt + j))) h.bitset =
      h.bitset.set (pos virt) := by
    rw [List.range_one, List.foldlM_cons, Nat.add_zero, u64_of_lt (by omega)]
    exact bind_pure _
  unfold freeRange free
  rw [hset]
  rfl

theorem freeRange_zero (hpos : pos virt < 0x1000) : h.freeRange A virt 0 = .ok h := by
  unfold freeRange
  rw [decide_eq_true hpos]
  rfl

end PageHeap

namespace PageHeapState

open PageHeap

variable {A : FrameAllocator} {b b' : PageHeapState} {a : Allocation} {op : Op}

namespace Inv

theorem ialloc (h : b.Inv) {phy : Nat} (hphy : IsFrame phy) : Ensures (b.heap.ialloc A phy)
    (b.Stops (.alloc phy)) fun r => Inv ⟨r.2, ⟨r.1, phy, 1⟩ :: b.live⟩ ∧
      b.Outside ⟨r.2, ⟨r.1, phy, 1⟩ :: b.live⟩ ⟨r.1, phy, 1⟩ := by
  have hsize := h.size
  unfold PageHeap.ialloc
  cases hbsf : b.heap.bitset.bsf with
  | none =>
    obtain ⟨hnone, hunset⟩ := unset_none hsize
    simp only [hnone, hunset]
    exact .inr ⟨rfl, fun k hk => Words.firstOne_none hbsf k (by omega)⟩
  | some k =>
    obtain ⟨hk, hbit, -⟩ := Words.firstOne_some hbsf
    have hk : k < 0x1000 := by omega
    obtain ⟨hi, hne, haddr, bitset, hwrite, hwrote⟩ := unset_some hsize hk
    simp only [Option.getD_some, hi, hwrite, haddr, ne_eq, hne, not_false_iff, decide_true,
      assert_true, ok_bind]
    obtain ⟨hs, hsmall⟩ := h.pages k hk
    have hfree := h.unmapped k hk (.inl hbit)
    exact ((createMapping1_changed h.wf hs hsmall hfree hphy).mono (fun _ he => .inl he)
      fun _ hc => h.alloc hk hbit hc.toRemapped hwrote).bind fun _ hr => hr

theorem ifree (h : b.Inv) (ha : a ∈ b.live) (hone : a.nb = 1) : Ensures (b.heap.free A a.addr)
    (fun _ => False) fun heap => Inv ⟨heap, b.live.erase a⟩ ∧
      b.Outside ⟨heap, b.live.erase a⟩ a := by
  obtain ⟨-, k, hk, -, hak, hlive⟩ := h.live a ha
  have hs := (h.pages k hk).1
  have hmapped : b.heap.memory.translate (page k) ≠ none := by
    have hpage : b.heap.memory.translate (page k) = some a.phy := (hlive hone).2
    rw [hpage]
    exact Option.some_ne_none _
  obtain ⟨s', heq, hr⟩ := freeMapping1_remapped (A := A) h.wf hs hmapped
  have hunmap : b.heap.memory.freeMapping A (page k) 1 = .ok s' := by
    have hpage : u64 (page k + 0 * 0x1000) = page k := u64_of_lt hs.lt
    rw [freeMapping, List.range_one, List.foldlM_cons, hpage, heq]
    rfl
  obtain ⟨bitset, hwrite⟩ :=
    Bitset.write_of_lt (v := true) (b := b.heap.bitset) (i := k) (by rw [h.size]; exact hk)
  have hwrote := (Bitset.write_spec hwrite).2
  have hwrite : b.heap.bitset.set k = .ok bitset := hwrite
  unfold PageHeap.free
  rw [hak, pos_page hk, decide_eq_true hk, hunmap, hwrite]
  exact h.free ha hone hk hak hr hwrote

/-- An allocation of no page changes nothing. -/
theorem live_cons (h : b.Inv) {phy : Nat} : Inv ⟨b.heap, ⟨page 1, phy, 0⟩ :: b.live⟩ where
  __ := h
  live a ha := by
    rcases List.mem_cons.mp ha with rfl | ha
    · exact ⟨Nat.zero_le 1, 1, by decide, by decide, rfl, nofun⟩
    · exact h.live a ha
  clear k hk hclear := (h.clear k hk hclear).imp_right fun ⟨a, ha, hone⟩ =>
    ⟨a, List.mem_cons_of_mem _ ha, hone⟩
  distinct := List.pairwise_cons.mpr ⟨fun _ _ hone => absurd hone Nat.zero_ne_one, h.distinct⟩

theorem live_erase (h : b.Inv) (hzero : a.nb = 0) : Inv ⟨b.heap, b.live.erase a⟩ where
  __ := h
  live a' ha' := h.live a' (List.mem_of_mem_erase ha')
  clear k hk hclear := (h.clear k hk hclear).imp_right fun ⟨a', ha', hone, hak⟩ => by
    refine ⟨a', (List.mem_erase_of_ne ?_).mpr ha', hone, hak⟩
    rintro rfl
    rw [hzero] at hone
    cases hone
  distinct := h.distinct.sublist List.erase_sublist

theorem step (h : b.Inv) (ha : b.Admits op) (hC : b.Careful op) :
    Ensures (b.apply A op) (b.Stops op) fun b' => b'.Inv ∧ b.Moved b' op := by
  cases op with
  | alloc phy =>
    exact (h.ialloc ha).bind fun r hr => ⟨hr.1, r.1, rfl, hr.2⟩
  | allocRange phy nb =>
    obtain ⟨haligned, hmax, -⟩ := ha
    rcases Nat.le_one_iff_eq_zero_or_eq_one.mp hC with rfl | rfl
    · simp only [apply, iallocRange_zero h.size, ok_bind]
      exact ⟨h.live_cons, page 1, rfl, fun _ _ _ _ => rfl, fun _ _ _ => rfl⟩
    · have hphy : IsFrame phy := by
        refine ⟨haligned, ?_⟩
        rw [Nat.shiftRight_eq_div_pow]
        omega
      simp only [apply, iallocRange_one h.size (show phy < 2 ^ 64 by omega)]
      exact (h.ialloc hphy).bind fun r hr => ⟨hr.1, r.1, rfl, hr.2⟩
  | free a =>
    exact (h.ifree ha.1 ha.2).bind fun heap hr => ⟨hr.1, rfl, hr.2⟩
  | freeRange a =>
    obtain ⟨hnb, k, hk, -, hak, -⟩ := h.live a ha
    have hpos : pos a.addr < 0x1000 := by
      rw [hak, pos_page hk]
      exact hk
    rcases Nat.le_one_iff_eq_zero_or_eq_one.mp hnb with hzero | hone
    · simp only [apply, hzero, freeRange_zero hpos, ok_bind]
      exact ⟨h.live_erase hzero, rfl, fun _ _ _ _ => rfl, fun _ _ _ => rfl⟩
    · simp only [apply, hone, freeRange_one hpos]
      exact (h.ifree ha hone).bind fun heap hr => ⟨hr.1, rfl, hr.2⟩

end Inv

/-! ### Runs -/

theorem Fresh.inv (h : b.Fresh A) : b.Inv := by
  obtain ⟨data, s, hwf, hpages, hs, hsmall, hfree, hinit, hlive⟩ := h
  unfold PageHeap.init at hinit
  obtain ⟨⟨f, s1⟩, halloc, hinit⟩ := bind_eq_ok.mp hinit
  obtain ⟨s2, hcreate, hinit⟩ := bind_eq_ok.mp hinit
  obtain ⟨bitset, hwrite, hinit⟩ := bind_eq_ok.mp hinit
  have hheap : b.heap = ⟨bitset, s2⟩ := (Except.ok.inj hinit).symm
  obtain ⟨hf, hframe, ha⟩ : A.pick s.used = some f ∧ IsFrame f ∧ Alike s s1 := by
    cases hpick : A.pick s.used with
    | none => simp [alloc_none hpick] at halloc
    | some g =>
      rw [alloc_some hpick] at halloc
      obtain ⟨rfl, rfl⟩ := Prod.mk.inj (Except.ok.inj halloc)
      exact ⟨rfl, (A.fresh _ _ hpick).2.2, hwf.insert g⟩
  have hc := (createMapping1_changed (A := A) ha.wf (ha.suitable _ hs)
    (ha.small _ hsmall) ((ha.translate _).trans hfree) hframe).of_ok hcreate
  obtain ⟨-, hw⟩ := Bitset.write_spec hwrite
  have hne : ∀ k, page k ≠ phBitset := by
    intro k
    unfold page base phBitset
    omega
  have hbit : ∀ k < 0x1000, b.bit k = false → k = 0 := by
    intro k hk hclear
    by_contra hk0
    have hfill : Bitset.bit (Bitset.fill ⟨data, 0x1000⟩) k = true :=
      Bitset.bit_fill _ (by simpa using hk)
    rw [bit, hheap, hw.outside k hk0, hfill] at hclear
    cases hclear
  refine ⟨?_, ?_, fun k hk => ?_, ?_, fun k hk _ => ?_, ?_, fun k hk hclear => .inl (hbit k hk hclear),
    ?_⟩
  · rw [hheap]
    exact hc.wf
  · rw [hheap]
    exact hw.size
  · obtain ⟨hs, hsmall, -⟩ := hpages k hk
    rw [hheap]
    exact hc.suitable _ (ha.suitable _ hs) (ha.small _ hsmall)
  · rw [bit, hheap]
    exact hw.inside 0 rfl
  · obtain ⟨hs, -, hnone⟩ := hpages k hk
    rw [translate, hheap]
    exact ((hc.others _ hs.canonical hs.aligned (hne k)).trans (ha.translate _)).trans hnone
  · intro a ha
    rw [hlive] at ha
    cases ha
  · rw [hlive]
    exact .nil

/-- Allocations and frees. -/
def machine (A : FrameAllocator) : Lib.Machine PageHeapState Op Fault where
  start := Fresh A
  admits := Admits
  apply := PageHeapState.apply A

theorem run_inv (hr : (machine A).Run Careful b) : b.Inv :=
  hr.invariant (fun _ hs => hs.inv) fun _ _ _ hI ha hC hs => ((hI.step ha hC).of_ok hs).1

/-- The live allocations determine the bits. -/
theorem Law.bit_eq (h : b.Law) (h' : b'.Law) (hlive : b'.live = b.live) {k : Nat} (hk : k < 0x1000) :
    b'.bit k = b.bit k := by
  have hiff := h'.clear k hk
  rw [hlive, ← h.clear k hk] at hiff
  exact Bool.eq_iff_iff.mpr (not_iff_not.mp (by simpa only [Bool.not_eq_true] using hiff))

/-- `free` undoes an allocation. -/
theorem Law.undo {b1 b2 : PageHeapState} (h : b.Law) (h1 : b1.Law) (h2 : b2.Law)
    (ho1 : b.Outside b1 a) (ho2 : b1.Outside b2 a) (hlive1 : b1.live = a :: b.live)
    (hlive2 : b2.live = b.live) :
    (∀ k < 0x1000, b2.bit k = b.bit k) ∧
      ∀ w, Canonical w → w % 0x1000 = 0 → b2.translate w = b.translate w := by
  refine ⟨fun k hk => h.bit_eq h2 hlive2 hk, fun w hw hwa => ?_⟩
  by_cases hin : w ∈ a.range
  · -- A page of the allocation was free before.
    obtain ⟨hlow, hhigh⟩ := h1.inside a (hlive1 ▸ List.mem_cons_self ..) hin
    obtain ⟨k, hk, hpos, rfl⟩ : ∃ k < 0x1000, k ≠ 0 ∧ w = page k := by
      refine ⟨(base - w) / 0x1000, ?_⟩
      unfold page base at *
      omega
    have hdisjoint := h1.disjoint
    rw [hlive1, List.pairwise_cons] at hdisjoint
    have hbit : b.bit k = true := by
      by_contra hclear
      rcases (h.clear k hk).mp (Bool.not_eq_true _ ▸ hclear) with hk0 | ⟨a', ha', hin'⟩
      · exact hpos hk0
      · exact hdisjoint.1 a' ha' _ hin hin'
    rw [h.unmapped k hk hbit, h2.unmapped k hk ((h.bit_eq h2 hlive2 hk).trans hbit)]
  · exact (ho2.translate w hw hwa hin).trans (ho1.translate w hw hwa hin)

/-- In every run of requests for single pages the live allocations, the bitset and the memory agree;
the next call stops only where memory is short or no page is left; and `free` undoes an allocation. -/
theorem run_pages (hr : (machine A).Run Careful b) : b.Law ∧
    (∀ op, b.Admits op → b.Careful op → Ensures (b.apply A op) (b.Stops op) fun b' => b.Moved b' op) ∧
    ∀ op a b1 b2, b.Admits op → b.Careful op → b.apply A op = .ok b1 → b1.live = a :: b.live →
      b1.apply A (.freeRange a) = .ok b2 → b2.live = b.live ∧ (∀ k < 0x1000, b2.bit k = b.bit k) ∧
        ∀ w, Canonical w → w % 0x1000 = 0 → b2.translate w = b.translate w := by
  have hinv := run_inv hr
  refine ⟨hinv.law, fun op ha hC => (hinv.step ha hC).mono (fun _ he => he) fun _ hb => hb.2,
    fun op a b1 b2 ha hC h1 hlive h2 => ?_⟩
  obtain ⟨hinv1, hmoved1⟩ := (hinv.step ha hC).of_ok h1
  have ha1 : b1.Admits (.freeRange a) := by
    change a ∈ b1.live
    rw [hlive]
    exact List.mem_cons_self ..
  obtain ⟨hinv2, hlive2, ho2⟩ := (hinv1.step ha1 trivial).of_ok h2
  rw [hlive, List.erase_cons_head] at hlive2
  have ho1 : b.Outside b1 a := by
    cases op with
    | alloc phy =>
      obtain ⟨addr, heq, ho⟩ := hmoved1
      rw [hlive] at heq
      rwa [(List.cons.inj heq).1]
    | allocRange phy nb =>
      obtain ⟨addr, heq, ho⟩ := hmoved1
      rw [hlive] at heq
      rwa [(List.cons.inj heq).1]
    | free a' =>
      have hlen := congrArg List.length (hlive.symm.trans hmoved1.1)
      have := List.length_erase_le (a := a') (l := b.live)
      simp only [List.length_cons] at hlen
      omega
    | freeRange a' =>
      have hlen := congrArg List.length (hlive.symm.trans hmoved1.1)
      have := List.length_erase_le (a := a') (l := b.live)
      simp only [List.length_cons] at hlen
      omega
  exact ⟨hlive2, hinv.law.undo hinv1.law hinv2.law ho1 ho2 hlive hlive2⟩

/-! ### A page heap on the tables of `stale` -/

/-- A page of the kernel half that is in no page table of `stale`. -/
theorem stale_kernel {v : Nat} (hc : Canonical v) (haligned : v % 0x1000 = 0)
    (hslot : getPML4index v = 511) (hlow : v < virtTables ∨ virtTables + 13 * 0x1000 ≤ v)
    (habsent : ¬stale.Present v) :
    stale.Suitable v ∧ stale.Small v ∧ stale.translate v = none := by
  have hs : stale.Suitable v := by
    refine ⟨hc, haligned, ?_, fun PD _ hpres => ?_, by omega⟩
    · rw [hslot]
      decide
    · simp only [stale] at hpres ⊢
      split_ifs at hpres ⊢ <;> first | rfl | exact absurd hpres (by decide)
  refine ⟨hs, .of_clean stale_wellFormed hs (stale_clean_of fun hpre => ?_), ?_⟩
  · rw [pathPT, hslot] at hpre
    exact absurd (List.cons_prefix_cons.mp hpre).1 (by decide)
  · by_contra hne
    exact habsent ((hs.translate_ne_none stale_wellFormed).mp hne)

theorem stale_page {k : Nat} (hk : k < 0x1000) :
    stale.Suitable (page k) ∧ stale.Small (page k) ∧ stale.translate (page k) = none := by
  have hbase := page_add hk
  have hslot : getPML4index (page k) = 511 := by
    unfold getPML4index base at *
    rw [Nat.shiftRight_eq_div_pow]
    omega
  have hentry : getPDPindex (page k) = 508 := by
    unfold getPDPindex base at *
    rw [Nat.shiftRight_eq_div_pow]
    omega
  have hrange : 2 ^ 64 - 0xC1000000 ≤ page k ∧ page k < virtTables ∧ page k % 0x1000 = 0 := by
    unfold base virtTables at *
    omega
  refine stale_kernel (.inr ?_) hrange.2.2 hslot (.inl hrange.2.1) fun hp => ?_
  · unfold virtTables at hrange
    omega
  · have hpd := hp.1
    rw [entryPD, hentry, pdp, hslot] at hpd
    exact absurd hpd (by decide)

/-- The page heap after `init`. -/
def small : PageHeapState :=
  ⟨(PageHeap.init lowest (fun _ => 0#64) stale).toOption.getD ⟨⟨fun _ => 0#64, 0⟩, stale⟩, []⟩

theorem small_fresh : small.Fresh lowest := by
  have hok : (PageHeap.init lowest (fun _ => 0#64) stale).toOption.isSome = true := by
    decide +kernel
  obtain ⟨heap, hheap⟩ := Option.isSome_iff_exists.mp hok
  have hinit : PageHeap.init lowest (fun _ => 0#64) stale = .ok small.heap := by
    rw [toOption_eq_some.mp hheap, small, hheap]
    rfl
  obtain ⟨hs, hsmall, hfree⟩ := stale_kernel (v := phBitset) (.inr (by decide)) (by decide)
    (by decide) (by decide) (by decide)
  exact ⟨_, _, stale_wellFormed, fun k hk => stale_page hk, hs, hsmall, hfree, hinit, rfl⟩

instance (b : PageHeapState) (op : Op) : Decidable (b.Admits op) := by
  cases op <;> unfold Admits <;> infer_instance

instance (b : PageHeapState) (op : Op) : Decidable (b.Careful op) := by
  cases op <;> unfold Careful <;> infer_instance

/-- Three pages are allocated, and one is freed and allocated again. -/
theorem run_pages_small : ∃ b, (machine lowest).Run Careful b ∧
    decide (b.live = [⟨page 1, 0xA000, 1⟩, ⟨page 3, 0x9000, 1⟩, ⟨page 2, 0x8000, 1⟩]) = true ∧
    b.Law := by
  have hcheck (b : PageHeapState) (op : Op) (hc : decide (b.Admits op ∧ b.Careful op) = true) :
      (machine lowest).admits b op ∧ b.Careful op := by
    have h := of_decide_eq_true hc
    exact h
  obtain ⟨b, hb, hP⟩ := Lib.Machine.exists_run (M := machine lowest) hcheck small_fresh
    [.alloc 0x7000, .allocRange 0x8000 1, .alloc 0x9000, .free ⟨page 1, 0x7000, 1⟩,
      .allocRange 0xA000 1]
    (P := fun b => decide
      (b.live = [⟨page 1, 0xA000, 1⟩, ⟨page 3, 0x9000, 1⟩, ⟨page 2, 0x8000, 1⟩]))
    (by decide +kernel)
  exact ⟨b, hb, hP, (run_pages hb).1⟩

/-- The two pages of an allocation are those of bits 1 and 0, and the bits cleared are 1 and 2; after
an allocation of one page the next one of two meets a page that is mapped. -/
theorem not_pages : (¬∀ (A : FrameAllocator) (b : PageHeapState),
      (machine A).Run (fun _ _ => True) b → b.Law) ∧
    ¬∀ (A : FrameAllocator) (b : PageHeapState), (machine A).Run (fun _ _ => True) b →
      ∀ op, b.Admits op → Ensures (b.apply A op) (b.Stops op) fun _ => True := by
  have hcheck (b : PageHeapState) (op : Op) (hc : decide (b.Admits op) = true) :
      (machine lowest).admits b op ∧ True := by
    have h := of_decide_eq_true hc
    exact ⟨h, trivial⟩
  constructor
  · intro hall
    obtain ⟨b, hb, hP⟩ := Lib.Machine.exists_run (M := machine lowest) (C := fun _ _ => True)
      hcheck small_fresh [.allocRange 0x7000 2]
      (P := fun b => decide (b.live = [⟨page 1, 0x7000, 2⟩] ∧ b.bit 2 = false)) (by decide +kernel)
    obtain ⟨hlive, hbit⟩ : b.live = [⟨page 1, 0x7000, 2⟩] ∧ b.bit 2 = false := of_decide_eq_true hP
    rcases ((hall lowest b hb).clear 2 (by decide)).mp hbit with h | ⟨a, ha, hin⟩
    · cases h
    · rw [hlive, List.mem_singleton] at ha
      subst ha
      exact absurd hin.1 (by decide)
  · intro hall
    obtain ⟨b, hb, hP⟩ := Lib.Machine.exists_run (M := machine lowest) (C := fun _ _ => True)
      hcheck small_fresh [.alloc 0x7000]
      (P := fun b => match b.apply lowest (.allocRange 0x8000 2) with
        | .error (.bsod _) => true
        | _ => false) (by decide +kernel)
    have ha : b.Admits (.allocRange 0x8000 2) := ⟨by decide, by decide, by decide⟩
    have hstop := hall lowest b hb _ ha
    cases heq : b.apply lowest (.allocRange 0x8000 2) with
    | ok b' =>
      rw [heq] at hP
      cases hP
    | error e =>
      rw [heq] at hstop hP
      rcases hstop with rfl | ⟨rfl, -⟩
      · cases hP
      · cases hP

end PageHeapState

end SupOS
