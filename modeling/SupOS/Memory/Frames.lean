import SupOS.Memory.PhysicalAllocator
import Mathlib.Logic.Relation

/-! The runs of the users of the physical memory allocator: which frames are handed out while the
pages handed out earlier are not yet freed. -/

namespace SupOS

open Lib PhysicalMemoryAllocator

/-- The arguments of `PhysicalMemoryAllocator::init`, and the words at `phyBitset` before. -/
structure Boot where
  phyBitset : UInt64
  RAMSize : UInt64
  occupArea : List OccupArea
  memory : Words

namespace Boot

def init (boot : Boot) : Except Fault PhysicalMemoryAllocator :=
  PhysicalMemoryAllocator.init boot.phyBitset boot.RAMSize boot.occupArea boot.memory

/-- The pages of the bitmap and of the occupied areas. -/
def Reserved (boot : Boot) (m : PhysicalMemoryAllocator) (p : Nat) : Prop :=
  (∃ i < m.getPageSize, p = pageAt boot.phyBitset.toNat i) ∨
    ∃ area ∈ boot.occupArea, ∃ j < area.nbPages.toNat, p = pageAt area.addr.toNat j

theorem init_spec {boot : Boot} {m : PhysicalMemoryAllocator} (h : boot.init = .ok m) :
    m.bitset.size = boot.RAMSize.toNat / 0x1000 ∧
      (∀ p, boot.Reserved m p → p % 0x1000 = 0 ∧ m.bitset.bit (index p) = false) := by
  have htaken := init_taken h
  have hpages : m.getPageSize = (blank boot.RAMSize boot.memory).getPageSize := by
    rw [getPageSize, htaken.size, getPageSize]
  refine ⟨htaken.size, fun p hp => ?_⟩
  rw [Reserved, hpages] at hp
  exact ⟨htaken.aligned p hp, htaken.cleared p hp⟩

end Boot

/-- The allocator, and the pages handed out and not yet freed. -/
structure Frames where
  m : PhysicalMemoryAllocator
  pages : List Nat
  pages2M : List Nat

namespace Frames

variable {boot : Boot} {s s' : Frames} {p q : Nat}

inductive Call
  | alloc
  | free (page : Nat)
  | alloc2M
  | free2M (page : Nat)

/-- A call that returns. Only outstanding pages are freed. -/
inductive Step : Frames → Call → Frames → Prop
  | alloc {s : Frames} {p : Nat} {m : PhysicalMemoryAllocator} (h : s.m.alloc = .ok (p, m)) :
      Step s .alloc ⟨m, p :: s.pages, s.pages2M⟩
  | free {s : Frames} {p : Nat} {m : PhysicalMemoryAllocator} (hp : p ∈ s.pages)
      (h : s.m.free p = .ok m) : Step s (.free p) ⟨m, s.pages.erase p, s.pages2M⟩
  | alloc2M {s : Frames} {p : Nat} {m : PhysicalMemoryAllocator} (h : s.m.alloc2M = .ok (p, m)) :
      Step s .alloc2M ⟨m, s.pages, p :: s.pages2M⟩
  | free2M {s : Frames} {p : Nat} {m : PhysicalMemoryAllocator} (hp : p ∈ s.pages2M)
      (h : s.m.free2M p = .ok m) : Step s (.free2M p) ⟨m, s.pages, s.pages2M.erase p⟩

/-- The states of all runs. -/
inductive Reachable (boot : Boot) : Frames → Prop
  | init {m : PhysicalMemoryAllocator} (h : boot.init = .ok m) : Reachable boot ⟨m, [], []⟩
  | step {s s' : Frames} {call : Call} (hs : Reachable boot s) (h : Step s call s') :
      Reachable boot s'

/-- Below every outstanding 2 MiB page some frame is marked free. -/
def Room (s : Frames) : Prop := ∀ q ∈ s.pages2M, ∃ k < index q, s.m.bitset.bit k = true

/-- The states of the runs that allocate single frames only where there is room below the
outstanding 2 MiB pages. -/
inductive Careful (boot : Boot) : Frames → Prop
  | init {m : PhysicalMemoryAllocator} (h : boot.init = .ok m) : Careful boot ⟨m, [], []⟩
  | step {s s' : Frames} {call : Call} (hs : Careful boot s) (hroom : call = .alloc → s.Room)
      (h : Step s call s') : Careful boot s'

/-- The frame `p` is handed out, on its own or inside a 2 MiB page. -/
def Outstanding (s : Frames) (p : Nat) : Prop := p ∈ s.pages ∨ ∃ q ∈ s.pages2M, Inside p q

/-- What is asked of the allocator in a state. -/
structure Safe (boot : Boot) (s : Frames) : Prop where
  alloc : ∀ p m, s.m.alloc = .ok (p, m) → ¬boot.Reserved s.m p ∧ (¬s.Outstanding p ↔ s.Room)
  alloc2M : ∀ q m, s.m.alloc2M = .ok (q, m) →
    q % 0x200000 = 0 ∧ ∀ k < 512, s.m.Available (q + k * 0x1000) ∧
      ¬s.Outstanding (q + k * 0x1000) ∧ ¬boot.Reserved s.m (q + k * 0x1000)
  free : ∀ p ∈ s.pages, ∃ m, s.m.free p = .ok m ∧ ∀ r, m.Available r ↔ s.m.Available r ∨ r = p
  free2M : ∀ q ∈ s.pages2M, ∃ m, s.m.free2M q = .ok m ∧
    ∀ r, m.Available r ↔ s.m.Available r ∨ ∃ k < 512, r = q + k * 0x1000

/-- What the bits say of the pages, in runs that are careful. -/
structure Sound (boot : Boot) (s : Frames) : Prop where
  size : s.m.bitset.size = boot.RAMSize.toNat / 0x1000
  reserved : ∀ p, boot.Reserved s.m p → p % 0x1000 = 0 ∧ s.m.bitset.bit (index p) = false
  nodup : s.pages.Nodup
  page : ∀ p ∈ s.pages, ∃ k < s.m.bits, p = address k ∧ s.m.bitset.bit k = false
  free : ∀ p ∈ s.pages, ¬boot.Reserved s.m p
  nodup2M : s.pages2M.Nodup
  page2M : ∀ q ∈ s.pages2M, ∃ i, q = address i ∧ i % 512 = 256 ∧ i + 512 ≤ s.m.bits ∧
    ∀ k, i ≤ k → k < i + 512 → s.m.bitset.bit k = decide (i + 448 ≤ k) ∧
      address k ∉ s.pages ∧ ¬boot.Reserved s.m (address k)

theorem bits_le (m : PhysicalMemoryAllocator) : m.bits ≤ m.bitset.size := Nat.div_mul_le_self _ _

theorem bits_congr {m m' : PhysicalMemoryAllocator} (h : m'.bitset.size = m.bitset.size) :
    m'.bits = m.bits := by
  rw [bits, bits, h]

theorem reserved_congr {m m' : PhysicalMemoryAllocator} (h : m'.bitset.size = m.bitset.size) :
    boot.Reserved m' p ↔ boot.Reserved m p := by
  rw [Boot.Reserved, Boot.Reserved, getPageSize, getPageSize, h]

namespace Sound

theorem size_lt (h : s.Sound boot) : s.m.bitset.size < 2 ^ 52 := by
  have := boot.RAMSize.toNat_lt
  rw [h.size]
  omega

theorem lt_of_lt_bits (h : s.Sound boot) {k : Nat} (hk : k < s.m.bits) : k < 2 ^ 52 :=
  (hk.trans_le (bits_le _)).trans h.size_lt

theorem not_reserved (h : s.Sound boot) {k : Nat} (hk : k < 2 ^ 52)
    (hbit : s.m.bitset.bit k = true) : ¬boot.Reserved s.m (address k) := by
  intro hres
  have := (h.reserved _ hres).2
  rw [index_address hk, hbit] at this
  exact Bool.false_ne_true this.symm

/-- A frame whose bit is set is outstanding only as one of the last 64 of a 2 MiB page. -/
theorem not_outstanding (h : s.Sound boot) {k : Nat} (hk : k < s.m.bits)
    (hbit : s.m.bitset.bit k = true)
    (htail : ∀ q ∈ s.pages2M, ¬(index q ≤ k ∧ k < index q + 512)) : ¬s.Outstanding (address k) := by
  rintro (hp | ⟨q, hq, hin⟩)
  · obtain ⟨j, hj, heq, hclear⟩ := h.page _ hp
    rw [← address_inj (h.lt_of_lt_bits hk) (h.lt_of_lt_bits hj) heq, hbit] at hclear
    exact Bool.false_ne_true hclear.symm
  · obtain ⟨i, rfl, hmod, hle, -⟩ := h.page2M q hq
    have := bits_le s.m
    have := h.size_lt
    have hidx := htail _ hq
    rw [index_address (by omega)] at hidx
    exact hidx ((inside_iff (by omega) (by omega) hmod).mp hin)

theorem alloc_not_reserved (h : s.Sound boot) {m : PhysicalMemoryAllocator}
    (ha : s.m.alloc = .ok (p, m)) : ¬boot.Reserved s.m p := by
  obtain ⟨k, hk, rfl, hbit, -, -⟩ := alloc_spec ha
  exact h.not_reserved (h.lt_of_lt_bits hk) hbit

/-- The lowest free frame is in an outstanding 2 MiB page exactly when none is free below it. -/
theorem alloc_not_outstanding (h : s.Sound boot) {m : PhysicalMemoryAllocator}
    (ha : s.m.alloc = .ok (p, m)) : ¬s.Outstanding p ↔ s.Room := by
  obtain ⟨k, hk, rfl, hbit, hlow, -⟩ := alloc_spec ha
  constructor
  · intro hout q hq
    obtain ⟨i, rfl, hmod, hle, hbits⟩ := h.page2M q hq
    have := bits_le s.m
    have := h.size_lt
    rw [index_address (by omega)]
    by_contra hnone
    have hki : i ≤ k := by
      by_contra hki
      exact hnone ⟨k, by omega, hbit⟩
    have hik : k ≤ i + 448 := by
      by_contra hik
      have htail := (hbits (i + 448) (by omega) (by omega)).1
      rw [hlow (i + 448) (by omega), decide_eq_true le_rfl] at htail
      exact Bool.false_ne_true htail
    exact hout (.inr ⟨_, hq, (inside_iff (by omega) (by omega) hmod).mpr ⟨hki, by omega⟩⟩)
  · intro hroom
    refine h.not_outstanding hk hbit fun q hq hkq => ?_
    obtain ⟨j, hj, hset⟩ := hroom q hq
    rw [hlow j (by omega)] at hset
    exact Bool.false_ne_true hset

/-- A page that starts above every clear bit starts at or above the end of the outstanding ones. -/
theorem above (h : s.Sound boot) {i : Nat} (hmod : i % 512 = 256)
    (hset : ∀ k, i ≤ k → k < s.m.bits → s.m.bitset.bit k = true) (hq : q ∈ s.pages2M) :
    index q + 512 ≤ i := by
  obtain ⟨j, rfl, hj, hle, hbits⟩ := h.page2M q hq
  have := bits_le s.m
  have := h.size_lt
  rw [index_address (by omega)]
  by_contra hlt
  have hclear := (hbits (j + 447) (by omega) (by omega)).1
  have hnot : ¬j + 448 ≤ j + 447 := by omega
  rw [hset (j + 447) (by omega) (by omega), decide_eq_false hnot] at hclear
  exact Bool.false_ne_true hclear.symm

theorem alloc2M_free (h : s.Sound boot) {i : Nat} (hmod : i % 512 = 256) (hle : i + 512 ≤ s.m.bits)
    (hset : ∀ k, i ≤ k → k < s.m.bits → s.m.bitset.bit k = true) {k : Nat} (hik : i ≤ k)
    (hki : k < i + 512) : ¬s.Outstanding (address k) ∧ ¬boot.Reserved s.m (address k) := by
  have hk : k < s.m.bits := by omega
  refine ⟨h.not_outstanding hk (hset k hik hk) fun q hq hkq => ?_,
    h.not_reserved (h.lt_of_lt_bits hk) (hset k hik hk)⟩
  have := h.above hmod hset hq
  omega

theorem init {m : PhysicalMemoryAllocator} (h : boot.init = .ok m) :
    Sound boot ⟨m, [], []⟩ where
  size := (Boot.init_spec h).1
  reserved := (Boot.init_spec h).2
  nodup := List.nodup_nil
  page _ hp := absurd hp List.not_mem_nil
  free _ hp := absurd hp List.not_mem_nil
  nodup2M := List.nodup_nil
  page2M _ hq := absurd hq List.not_mem_nil

/-- Cleared bits stay clear in the reserved pages. -/
theorem reserved_of_cleared (h : s.Sound boot) {m : PhysicalMemoryAllocator} {r : Nat → Prop}
    (hw : Bitset.Wrote false r s.m.bitset m.bitset) (hp : boot.Reserved m p) :
    p % 0x1000 = 0 ∧ m.bitset.bit (index p) = false := by
  obtain ⟨hz, hclear⟩ := h.reserved p ((reserved_congr hw.size).mp hp)
  refine ⟨hz, ?_⟩
  by_cases hr : r (index p)
  · exact hw.inside _ hr
  · rw [hw.outside _ hr, hclear]

theorem alloc (h : s.Sound boot) (hroom : s.Room) {m : PhysicalMemoryAllocator}
    (ha : s.m.alloc = .ok (p, m)) : Sound boot ⟨m, p :: s.pages, s.pages2M⟩ := by
  have hout := (h.alloc_not_outstanding ha).mpr hroom
  have hres := h.alloc_not_reserved ha
  obtain ⟨k, hk, rfl, hbit, hlow, hw⟩ := alloc_spec ha
  refine ⟨hw.size.trans h.size, fun p hp => h.reserved_of_cleared hw hp,
    List.nodup_cons.mpr ⟨fun hp => hout (.inl hp), h.nodup⟩, fun p hp => ?_, fun p hp => ?_,
    h.nodup2M, fun q hq => ?_⟩
  · rw [bits_congr hw.size]
    rcases List.mem_cons.mp hp with rfl | hp
    · exact ⟨k, hk, rfl, hw.inside k rfl⟩
    · obtain ⟨j, hj, heq, hclear⟩ := h.page p hp
      have hjk : j ≠ k := fun hjk => Bool.false_ne_true ((hjk ▸ hclear).symm.trans hbit)
      exact ⟨j, hj, heq, (hw.outside j hjk).trans hclear⟩
  · rw [reserved_congr hw.size]
    rcases List.mem_cons.mp hp with rfl | hp
    · exact hres
    · exact h.free p hp
  · obtain ⟨i, rfl, hmod, hle, hbits⟩ := h.page2M q hq
    have := bits_le s.m
    have := h.size_lt
    obtain ⟨j, hj, hset⟩ := hroom _ hq
    rw [index_address (by omega)] at hj
    have hki : k < i := by
      by_contra hki
      rw [hlow j (by omega)] at hset
      exact Bool.false_ne_true hset
    rw [bits_congr hw.size]
    refine ⟨i, rfl, hmod, hle, fun l hil hli => ?_⟩
    obtain ⟨hl, hnot, hfree⟩ := hbits l hil hli
    refine ⟨(hw.outside l (by omega)).trans hl, fun hmem => ?_, fun hr =>
      hfree ((reserved_congr hw.size).mp hr)⟩
    rcases List.mem_cons.mp hmem with heq | hmem
    · have := address_inj (h.lt_of_lt_bits (by omega)) (h.lt_of_lt_bits hk) heq
      omega
    · exact hnot hmem

theorem dealloc (h : s.Sound boot) {m : PhysicalMemoryAllocator} (hp : p ∈ s.pages)
    (hf : s.m.free p = .ok m) : Sound boot ⟨m, s.pages.erase p, s.pages2M⟩ := by
  have hw := free_spec hf
  obtain ⟨k, hk, rfl, hclear⟩ := h.page p hp
  rw [index_address (h.lt_of_lt_bits hk)] at hw
  refine ⟨hw.size.trans h.size, fun r hr => ?_, h.nodup.erase _, fun r hr => ?_, fun r hr => ?_,
    h.nodup2M, fun q hq => ?_⟩
  · have hr := (reserved_congr hw.size).mp hr
    obtain ⟨hz, hclear'⟩ := h.reserved r hr
    refine ⟨hz, (hw.outside _ fun heq => ?_).trans hclear'⟩
    refine h.free _ hp ?_
    have hlt : r < 2 ^ 64 := by
      rcases hr with ⟨i, -, rfl⟩ | ⟨_, -, i, -, rfl⟩ <;> exact Nat.mod_lt _ (Nat.two_pow_pos 64)
    rwa [← heq, address_index hlt hz]
  · obtain ⟨hne, hr⟩ := (h.nodup.mem_erase_iff).mp hr
    obtain ⟨j, hj, rfl, hj'⟩ := h.page r hr
    rw [bits_congr hw.size]
    exact ⟨j, hj, rfl, (hw.outside j fun hjk => hne (hjk ▸ rfl)).trans hj'⟩
  · rw [reserved_congr hw.size]
    exact h.free r (List.mem_of_mem_erase hr)
  · obtain ⟨i, rfl, hmod, hle, hbits⟩ := h.page2M q hq
    rw [bits_congr hw.size]
    refine ⟨i, rfl, hmod, hle, fun l hil hli => ?_⟩
    obtain ⟨hl, hnot, hfree⟩ := hbits l hil hli
    exact ⟨(hw.outside l fun hlk => hnot (hlk ▸ hp)).trans hl,
      fun hmem => hnot (List.mem_of_mem_erase hmem),
      fun hr => hfree ((reserved_congr hw.size).mp hr)⟩

theorem alloc2M (h : s.Sound boot) {m : PhysicalMemoryAllocator}
    (ha : s.m.alloc2M = .ok (q, m)) : Sound boot ⟨m, s.pages, q :: s.pages2M⟩ := by
  obtain ⟨i, rfl, hmod, hle, hset, hw⟩ := alloc2M_spec h.size_lt ha
  have := bits_le s.m
  have := h.size_lt
  refine ⟨hw.size.trans h.size, fun p hp => h.reserved_of_cleared hw hp, h.nodup, fun p hp => ?_,
    fun p hp hr => h.free p hp ((reserved_congr hw.size).mp hr),
    List.nodup_cons.mpr ⟨fun hq => ?_, h.nodup2M⟩, fun q hq => ?_⟩
  · obtain ⟨j, hj, rfl, hclear⟩ := h.page p hp
    rw [bits_congr hw.size]
    refine ⟨j, hj, rfl, ?_⟩
    by_cases hji : i ≤ j ∧ j < i + 448
    · exact hw.inside j hji
    · exact (hw.outside j hji).trans hclear
  · have := h.above hmod hset hq
    rw [index_address (by omega)] at this
    omega
  · rw [bits_congr hw.size]
    rcases List.mem_cons.mp hq with rfl | hq
    · refine ⟨i, rfl, hmod, hle, fun k hik hki => ?_⟩
      obtain ⟨hout, hres⟩ := h.alloc2M_free hmod hle hset hik hki
      refine ⟨?_, fun hp => hout (.inl hp), fun hr => hres ((reserved_congr hw.size).mp hr)⟩
      by_cases hk : k < i + 448
      · rw [hw.inside k ⟨hik, hk⟩, decide_eq_false (by omega)]
      · rw [hw.outside k (by omega), hset k hik (by omega), decide_eq_true (by omega)]
    · have habove := h.above hmod hset hq
      obtain ⟨j, rfl, hj, hjle, hbits⟩ := h.page2M q hq
      rw [index_address (by omega)] at habove
      refine ⟨j, rfl, hj, hjle, fun k hjk hkj => ?_⟩
      obtain ⟨hk, hnot, hfree⟩ := hbits k hjk hkj
      exact ⟨(hw.outside k (by omega)).trans hk, hnot,
        fun hr => hfree ((reserved_congr hw.size).mp hr)⟩

theorem dealloc2M (h : s.Sound boot) {m : PhysicalMemoryAllocator} (hq : q ∈ s.pages2M)
    (hf : s.m.free2M q = .ok m) : Sound boot ⟨m, s.pages, s.pages2M.erase q⟩ := by
  obtain ⟨i, rfl, hmod, hle, hbits⟩ := h.page2M q hq
  have := bits_le s.m
  have := h.size_lt
  have hw := free2M_spec h.size_lt hmod (by omega) hf
  refine ⟨hw.size.trans h.size, fun r hr => ?_, h.nodup, fun r hr => ?_,
    fun r hr hres => h.free r hr ((reserved_congr hw.size).mp hres), h.nodup2M.erase _,
    fun r hr => ?_⟩
  · have hr := (reserved_congr hw.size).mp hr
    obtain ⟨hz, hclear⟩ := h.reserved r hr
    refine ⟨hz, (hw.outside _ fun hin => ?_).trans hclear⟩
    have hlt : r < 2 ^ 64 := by
      rcases hr with ⟨j, -, rfl⟩ | ⟨_, -, j, -, rfl⟩ <;> exact Nat.mod_lt _ (Nat.two_pow_pos 64)
    refine (hbits (index r) hin.1 (by omega)).2.2 ?_
    rwa [address_index hlt hz]
  · obtain ⟨j, hj, rfl, hclear⟩ := h.page r hr
    rw [bits_congr hw.size]
    refine ⟨j, hj, rfl, (hw.outside j fun hin => ?_).trans hclear⟩
    exact (hbits j hin.1 (by omega)).2.1 hr
  · obtain ⟨hne, hr⟩ := (h.nodup2M.mem_erase_iff).mp hr
    obtain ⟨j, rfl, hj, hjle, hjbits⟩ := h.page2M r hr
    have hij : i ≠ j := fun hij => hne (hij ▸ rfl)
    rw [bits_congr hw.size]
    refine ⟨j, rfl, hj, hjle, fun k hjk hkj => ?_⟩
    obtain ⟨hk, hnot, hfree⟩ := hjbits k hjk hkj
    exact ⟨(hw.outside k (by omega)).trans hk, hnot,
      fun hr => hfree ((reserved_congr hw.size).mp hr)⟩

theorem step (h : s.Sound boot) {call : Call} (hroom : call = .alloc → s.Room)
    (hs : Step s call s') : s'.Sound boot := by
  cases hs with
  | alloc ha => exact h.alloc (hroom rfl) ha
  | free hp hf => exact h.dealloc hp hf
  | alloc2M ha => exact h.alloc2M ha
  | free2M hq hf => exact h.dealloc2M hq hf

theorem free_available (h : s.Sound boot) (hp : p ∈ s.pages) :
    ∃ m, s.m.free p = .ok m ∧ ∀ r, m.Available r ↔ s.m.Available r ∨ r = p := by
  obtain ⟨k, hk, rfl, hclear⟩ := h.page p hp
  have hidx := index_address (h.lt_of_lt_bits hk)
  have hlt : k < s.m.bitset.size := hk.trans_le (bits_le _)
  obtain ⟨b, hb⟩ := Bitset.write_of_lt (v := true) hlt
  have haligned : u64 (address k + 2 ^ 64 - 0x100000) % 0x1000 = 0 := by
    have := address_aligned k
    unfold u64
    omega
  have hfree : s.m.free (address k) = .ok ⟨b⟩ := by
    rw [PhysicalMemoryAllocator.free, hidx, Bitset.get, hb, haligned, hclear, decide_eq_true hlt]
    rfl
  refine ⟨⟨b⟩, hfree, fun r => ?_⟩
  have hw := (Bitset.write_spec hb).2
  have hsame : PhysicalMemoryAllocator.bits ⟨b⟩ = s.m.bits := bits_congr hw.size
  rw [Available, Available, hsame]
  constructor
  · rintro ⟨hr, hrlt, hset⟩
    by_cases hrk : index r = k
    · exact .inr (hr.trans (congrArg address hrk))
    · exact .inl ⟨hr, hrlt, (hw.outside _ hrk).symm.trans hset⟩
  · rintro (⟨hr, hrlt, hset⟩ | rfl)
    · refine ⟨hr, hrlt, ?_⟩
      by_cases hrk : index r = k
      · exact hw.inside _ hrk
      · exact (hw.outside _ hrk).trans hset
    · rw [hidx]
      exact ⟨rfl, hk, hw.inside k rfl⟩

theorem free2M_available (h : s.Sound boot) (hq : q ∈ s.pages2M) :
    ∃ m, s.m.free2M q = .ok m ∧
      ∀ r, m.Available r ↔ s.m.Available r ∨ ∃ k < 512, r = q + k * 0x1000 := by
  obtain ⟨i, rfl, hmod, hle, hbits⟩ := h.page2M q hq
  have := bits_le s.m
  have := h.size_lt
  have hidx := index_address (k := i) (by omega)
  obtain ⟨b, hb, hw⟩ := Bitset.writeRange_of_aligned (b := s.m.bitset) (v := true) (i := i)
    (by omega) (show 64 ≤ 512 by omega) (by omega) (by omega)
  have haligned : u64 (address i + 2 ^ 64 - 0x100000) % 0x1000 = 0 := by
    have := address_aligned i
    unfold u64
    omega
  have hfree : s.m.free2M (address i) = .ok ⟨b⟩ := by
    rw [PhysicalMemoryAllocator.free2M, hidx, Bitset.setRange, hb, haligned]
    rfl
  refine ⟨⟨b⟩, hfree, fun r => ?_⟩
  have hsame : PhysicalMemoryAllocator.bits ⟨b⟩ = s.m.bits := bits_congr hw.size
  rw [Available, Available, hsame]
  constructor
  · rintro ⟨hr, hrlt, hset⟩
    by_cases hin : i ≤ index r ∧ index r < i + 448
    · refine .inr ⟨index r - i, by omega, ?_⟩
      rw [address_add (by omega) hmod (by omega), show i + (index r - i) = index r by omega]
      exact hr
    · exact .inl ⟨hr, hrlt, (hw.outside _ hin).symm.trans hset⟩
  · rintro (⟨hr, hrlt, hset⟩ | ⟨k, hk, rfl⟩)
    · refine ⟨hr, hrlt, ?_⟩
      by_cases hin : i ≤ index r ∧ index r < i + 448
      · exact hw.inside _ hin
      · exact (hw.outside _ hin).trans hset
    · rw [address_add (by omega) hmod hk, index_address (by omega)]
      refine ⟨rfl, by omega, ?_⟩
      by_cases hin : i + k < i + 448
      · exact hw.inside _ ⟨by omega, hin⟩
      · rw [hw.outside _ (fun h => hin h.2), (hbits (i + k) (by omega) (by omega)).1]
        exact decide_eq_true (by omega)

theorem safe (h : s.Sound boot) : s.Safe boot where
  alloc _ _ ha := ⟨h.alloc_not_reserved ha, h.alloc_not_outstanding ha⟩
  alloc2M q m ha := by
    obtain ⟨i, rfl, hmod, hle, hset, -⟩ := alloc2M_spec h.size_lt ha
    have := bits_le s.m
    have := h.size_lt
    have haddr := address_of_lt (i := i) (k := 0) (by omega) hmod (by omega)
    refine ⟨by rw [Nat.add_zero] at haddr; omega, fun k hk => ?_⟩
    rw [address_add (by omega) hmod hk]
    refine ⟨⟨?_, ?_, ?_⟩, h.alloc2M_free hmod hle hset (by omega) (by omega)⟩
    all_goals rw [index_address (by omega)]
    · omega
    · exact hset _ (by omega) (by omega)
  free _ hp := h.free_available hp
  free2M _ hq := h.free2M_available hq

end Sound

theorem Careful.sound (h : Careful boot s) : s.Sound boot := by
  induction h with
  | init h => exact Sound.init h
  | step _ hroom hs ih => exact ih.step hroom hs

/-- In runs that keep room below the outstanding 2 MiB pages, no frame is handed out twice. -/
theorem careful_safe (h : Careful boot s) : s.Safe boot := h.sound.safe

/-- 3 MiB of memory whose lowest 256 frames hold the bitmap and an occupied area. -/
def small : Boot := ⟨0x100000, 0x300000, [⟨0x101000, 255⟩], fun _ => 0#64⟩

theorem small_run : (do
    let m ← small.init
    let (q, m) ← m.alloc2M
    let (p, _) ← m.alloc
    return (q, p)) = .ok (0x200000, 0x3c0000) := by
  decide +kernel

theorem careful_safe_small : ∃ s : Frames, s.pages2M = [0x200000] ∧ s.Safe small := by
  obtain ⟨m, h0, h⟩ := bind_eq_ok.mp small_run
  obtain ⟨⟨q, m1⟩, h1, h⟩ := bind_eq_ok.mp h
  obtain ⟨⟨p, m2⟩, h2, h⟩ := bind_eq_ok.mp h
  obtain ⟨rfl, rfl⟩ := Prod.mk.inj (pure_eq_ok.mp h)
  have hstep : Step ⟨m, [], []⟩ .alloc2M ⟨m1, [], [0x200000]⟩ := .alloc2M h1
  exact ⟨_, rfl, careful_safe ((Careful.init h0).step (by simp) hstep)⟩

/-- A frame of an outstanding 2 MiB page is handed out. -/
theorem small_alloc_outstanding : ∃ s : Frames, ∃ p m, Reachable small s ∧
    s.m.alloc = .ok (p, m) ∧ s.Outstanding p := by
  obtain ⟨m, h0, h⟩ := bind_eq_ok.mp small_run
  obtain ⟨⟨q, m1⟩, h1, h⟩ := bind_eq_ok.mp h
  obtain ⟨⟨p, m2⟩, h2, h⟩ := bind_eq_ok.mp h
  obtain ⟨rfl, rfl⟩ := Prod.mk.inj (pure_eq_ok.mp h)
  have hstep : Step ⟨m, [], []⟩ .alloc2M ⟨m1, [], [0x200000]⟩ := .alloc2M h1
  have hin : Inside 0x3c0000 0x200000 := by
    unfold Inside
    omega
  exact ⟨_, _, _, (Reachable.init h0).step hstep, h2, .inr ⟨_, List.mem_singleton_self _, hin⟩⟩

end Frames

end SupOS
