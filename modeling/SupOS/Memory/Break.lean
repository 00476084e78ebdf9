import SupOS.Memory.Alike
import SupOS.Lib.Machine
import Mathlib.Tactic.IntervalCases

/-! Which pages of a heap are mapped, and to which frames, after calls of `brk`. -/

namespace SupOS

open Lib Entry Machine

namespace Heap

variable {A : FrameAllocator} {h : Heap} {s s1 s' : Machine} {N n : Nat}

/-- The virtual address of page `i` of a heap. -/
def page (h : Heap) (i : Nat) : Nat := h.start + i * 0x1000

/-- The `N` pages from the start of a heap on can be mapped, and nothing else is there. -/
structure Area (h : Heap) (s : Machine) (N : Nat) : Prop where
  wf : s.WellFormed
  pos : 0 < h.start
  pages : ∀ i < N, s.Suitable (h.page i) ∧ s.Small (h.page i)

/-- The first `n` of the `N` pages of a heap are mapped, each to a frame of its own, which is in use
and is no table. -/
structure Held (h : Heap) (s : Machine) (N n : Nat) : Prop extends Area h s N where
  size : h.size = n * 0x1000
  le : n ≤ N
  mapped : ∀ i < n, ∃ f ∈ s.used, ¬s.IsTable f ∧ s.translate (h.page i) = some f
  free : ∀ i < N, n ≤ i → s.translate (h.page i) = none
  distinct : ∀ i < n, ∀ j < n, s.translate (h.page i) = s.translate (h.page j) → i = j

/-- Growth rounds up. -/
theorem round_up {size dist k : Nat} (hsize : size = n * 0x1000) (hlt : size < dist)
    (hk : (dist - size + 0xfff) / 0x1000 = k) :
    dist ≤ (n + k) * 0x1000 ∧ (n + k) * 0x1000 < dist + 0x1000 := by
  omega

theorem bytes_lt {k : Nat} (hk : k < 2 ^ 19) : k * 0x1000 < 2 ^ 31 := by
  omega

/-- Shrinking rounds down. -/
theorem round_down {size dist k : Nat} (hsize : size = n * 0x1000) (hlt : dist + 0x1000 < size)
    (hk : (size - dist) / 0x1000 = k) :
    k ≤ n ∧ 0 < k ∧ dist ≤ (n - k) * 0x1000 ∧ (n - k) * 0x1000 < dist + 0x1000 := by
  omega

theorem page_inj {i j : Nat} (hij : h.page i = h.page j) : i = j := by
  unfold page at hij
  omega

namespace Held

/-- The page above the last one is mapped to a new frame. -/
theorem newPage (hh : Held h s N n) (hn : n < N) : Ensures (newPage A s (h.page n))
    (· = .outOfMemory) fun s' => Held { h with size := (n + 1) * 0x1000 } s' N (n + 1) ∧
      (∀ i < n, s'.translate (h.page i) = s.translate (h.page i)) ∧ s.used ⊆ s'.used := by
  unfold Heap.newPage
  cases hpick : A.pick s.used with
  | none =>
    rw [alloc_none hpick]
    exact rfl
  | some f =>
    obtain ⟨hfresh, hz, hframe⟩ := A.fresh _ _ hpick
    rw [alloc_some hpick, ok_bind]
    have ha := hh.wf.insert f
    obtain ⟨hs, hsmall⟩ := hh.pages n hn
    have hfree := (ha.translate _).trans (hh.free n hn le_rfl)
    refine (createMapping1_changed ha.wf (ha.suitable _ hs) (ha.small _ hsmall) hfree hframe).mono
      (fun _ he => he) fun s' hc => ?_
    have hkeep : ∀ i < N, i ≠ n → s'.translate (h.page i) = s.translate (h.page i) := by
      intro i hi hne
      have hi' := (hh.pages i hi).1
      rw [hc.others _ hi'.canonical hi'.aligned fun heq => hne (page_inj heq), ha.translate]
    have hused : s.used ⊆ s'.used := (Finset.subset_insert f s.used).trans hc.used
    have htable : ∀ x ∈ insert f s.used, ¬s.IsTable x → ¬s'.IsTable x := by
      intro x hx hnot ht
      rcases hc.isTable x ht with ht | hu
      · exact hnot (ha.isTable.mp ht)
      · exact hu hx
    have hold : ∀ i < n, s.translate (h.page i) ≠ some f := by
      intro i hi hif
      obtain ⟨g, hg, -, hgi⟩ := hh.mapped i hi
      exact hfresh (Option.some.inj (hif.symm.trans hgi) ▸ hg)
    refine ⟨⟨⟨hc.wf, hh.pos, fun i hi => ?_⟩, rfl, hn, fun i hi => ?_, fun i hi hni => ?_,
      fun i hi j hj hij => ?_⟩, fun i hi => hkeep i (by omega) (by omega), hused⟩
    · obtain ⟨hs, hsmall⟩ := hh.pages i hi
      exact hc.suitable _ (ha.suitable _ hs) (ha.small _ hsmall)
    · rcases Nat.lt_succ_iff_lt_or_eq.mp hi with hi | rfl
      · obtain ⟨g, hg, hgt, hgi⟩ := hh.mapped i hi
        exact ⟨g, hused hg, htable g (Finset.mem_insert_of_mem hg) hgt,
          (hkeep i (by omega) (by omega)).trans hgi⟩
      · refine ⟨f, hc.used (Finset.mem_insert_self f _), htable f (Finset.mem_insert_self f _) ?_,
          hc.page⟩
        rintro ⟨p, hp, hpf⟩
        exact hfresh (hh.wf.used p f hp hpf).1
    · exact (hkeep i hi (by omega)).trans (hh.free i hi (by omega))
    · change s'.translate (h.page i) = s'.translate (h.page j) at hij
      rcases Nat.lt_succ_iff_lt_or_eq.mp hi with hi | rfl
      · rcases Nat.lt_succ_iff_lt_or_eq.mp hj with hj | rfl
        · rw [hkeep i (by omega) (by omega), hkeep j (by omega) (by omega)] at hij
          exact hh.distinct i hi j hj hij
        · rw [hkeep i (by omega) (by omega), hc.page] at hij
          exact absurd hij (hold i hi)
      · rcases Nat.lt_succ_iff_lt_or_eq.mp hj with hj | rfl
        · rw [hkeep j (by omega) (by omega), hc.page] at hij
          exact absurd hij.symm (hold j hj)
        · rfl

theorem lt_two_pow (hh : Area h s N) {i : Nat} (hi : i < N) : h.page i + 0x1000 ≤ 2 ^ 64 := by
  have hs := (hh.pages i hi).1
  have hlt := hs.lt
  have haligned := hs.aligned
  omega

/-- The pages that `brk` adds. -/
theorem grow (hh : Held h s N n) {dist : Nat} (hlt : h.size < dist) (hN : dist ≤ N * 0x1000)
    (hfew : (dist - h.size + 0xfff) / 0x1000 < 2 ^ 19) :
    Ensures (h.grow A s dist) (· = .outOfMemory) fun r => ∃ m, n ≤ m ∧
      r.1 = { h with size := m * 0x1000 } ∧ dist ≤ r.1.size ∧ r.1.size < dist + 0x1000 ∧
      Held r.1 r.2 N m ∧ (∀ i < n, r.2.translate (h.page i) = s.translate (h.page i)) ∧
      s.used ⊆ r.2.used := by
  have hsize := hh.size
  have hle := hh.le
  unfold Heap.grow
  rw [show dist - h.size + 0x1000 - 1 = dist - h.size + 0xfff by omega]
  generalize hk : (dist - h.size + 0xfff) / 0x1000 = k at hfew
  have hbounds := round_up hsize hlt hk
  have hkN : n + k ≤ N := by omega
  have hcount : count k = k := by
    unfold count
    rw [u32_of_lt (by omega), if_pos (by omega)]
  have hstart : u64 (h.start + h.size) = h.page n := by
    rw [hsize]
    exact u64_of_lt (by have := lt_two_pow hh.toArea (i := n) (by omega); unfold page at this; omega)
  simp only [hcount, hstart]
  refine Ensures.bind (Q := fun s' => Held { h with size := (n + k) * 0x1000 } s' N (n + k) ∧
    (∀ i < n, s'.translate (h.page i) = s.translate (h.page i)) ∧ s.used ⊆ s'.used) ?_ ?_
  · refine Ensures.foldlM_range (P := fun i s' =>
      Held { h with size := (n + i) * 0x1000 } s' N (n + i) ∧
      (∀ j < n, s'.translate (h.page j) = s.translate (h.page j)) ∧ s.used ⊆ s'.used) ?_ ?_
    · refine ⟨?_, fun _ _ => rfl, Finset.Subset.refl _⟩
      rw [Nat.add_zero, ← hsize]
      exact hh
    · rintro i hi s1 ⟨hh1, hkeep, hused⟩
      have haddr : u64 (h.page n + i32 (i * 0x1000)) = h.page (n + i) := by
        have := lt_two_pow hh.toArea (i := n + i) (by omega)
        rw [i32_of_lt (by omega)]
        unfold page at this ⊢
        rw [u64_of_lt (by omega)]
        omega
      rw [haddr]
      refine (hh1.newPage (A := A) (by omega)).mono (fun _ he => he) ?_
      rintro s' ⟨hh', hkeep', hused'⟩
      exact ⟨hh', fun j hj => (hkeep' j (by omega)).trans (hkeep j hj), hused.trans hused'⟩
  · rintro s' ⟨hh', hkeep, hused⟩
    have hnew : u64 (h.size + i32 (k * 0x1000)) = (n + k) * 0x1000 := by
      have := lt_two_pow hh.toArea (i := n + k - 1) (by omega)
      have hpos := hh.pos
      rw [i32_of_lt (by omega), hsize]
      unfold page at this
      rw [u64_of_lt (by omega)]
      omega
    simp only [hnew]
    exact ⟨n + k, by omega, rfl, hbounds.1, hbounds.2, hh', hkeep, hused⟩

end Held

/-! ### Shrinking -/

/-- The frames of the pages from `m` on, `i` of them, have been given back. -/
structure Returned (h : Heap) (s s' : Machine) (m i : Nat) : Prop extends Alike s s' where
  used : ∀ x, x ∈ s'.used ↔ x ∈ s.used ∧ ∀ j < i, s.translate (h.page (m + j)) ≠ some x

theorem Held.returned (hh : Held h s N n) {m k : Nat} (hmk : m + k = n) {a : Nat → Nat}
    (ha : ∀ i < k, a i = h.page (m + i)) :
    Ensures ((List.range k).foldlM (fun s i => s.freePhy1 (a i)) s) (fun _ => False)
      fun s' => Returned h s s' m k := by
  have hle := hh.le
  refine Ensures.foldlM_range (P := fun i s' => Returned h s s' m i)
    ⟨.refl hh.wf, fun x => by simp⟩ fun i hi s1 h1 => ?_
  rw [ha i hi]
  obtain ⟨f, hf, hft, hpage⟩ := hh.mapped (m + i) (by omega)
  have hs := (hh.pages (m + i) (by omega)).1
  obtain ⟨s2, heq, hused, halike⟩ := getphyu_alike h1.wf (h1.suitable _ hs)
    ((h1.translate _).trans hpage)
  have ha2 := h1.toAlike.trans halike
  have hin : f ∈ s2.used := by
    rw [hused, h1.used]
    refine ⟨hf, fun j hj hjf => ?_⟩
    have := hh.distinct (m + j) (by omega) (m + i) (by omega) (hjf.trans hpage.symm)
    omega
  have hfree : s2.free f = .ok { s2 with used := s2.used.erase f } := if_pos hin
  unfold freePhy1
  rw [heq, ok_bind]
  simp only [hfree]
  refine ⟨ha2.trans (ha2.wf.erase fun ht => hft (ha2.isTable.mp ht)), fun x => ?_⟩
  change x ∈ s2.used.erase f ↔ _
  rw [Finset.mem_erase, hused, h1.used]
  constructor
  · rintro ⟨hne, hx, hnot⟩
    refine ⟨hx, fun j hj hjx => ?_⟩
    rcases Nat.lt_succ_iff_lt_or_eq.mp hj with hj | rfl
    · exact hnot j hj hjx
    · exact hne (Option.some.inj (hjx.symm.trans hpage))
  · rintro ⟨hx, hnot⟩
    refine ⟨?_, hx, fun j hj => hnot j (by omega)⟩
    rintro rfl
    exact hnot i (Nat.lt_succ_self i) hpage

/-- The pages from `m` on, `i` of them, have been unmapped. -/
structure Cut (h : Heap) (s s' : Machine) (N m i : Nat) : Prop where
  wf : s'.WellFormed
  gone : ∀ j < i, s'.translate (h.page (m + j)) = none
  kept : ∀ k < N, (k < m ∨ m + i ≤ k) → s'.translate (h.page k) = s.translate (h.page k)
  pages : ∀ k < N, s'.Suitable (h.page k) ∧ s'.Small (h.page k)
  used : s'.used = s.used
  isTable : ∀ x, s'.IsTable x → s.IsTable x ∨ x ∉ s.used

theorem Area.cut (hh : Area h s N) {m k : Nat} (hmk : m + k ≤ N) {a : Nat → Nat}
    (ha : ∀ i < k, a i = h.page (m + i)) (hmapped : ∀ i < k, s.translate (h.page (m + i)) ≠ none) :
    Ensures ((List.range k).foldlM (fun s i => s.freeMapping1 A (a i)) s)
      (fun _ => False) fun s' => Cut h s s' N m k := by
  refine Ensures.foldlM_range (P := fun i s' => Cut h s s' N m i)
    ⟨hh.wf, fun _ hj => absurd hj (Nat.not_lt_zero _), fun _ _ _ => rfl, hh.pages, rfl,
      fun _ hx => .inl hx⟩ fun i hi s1 h1 => ?_
  rw [ha i hi]
  obtain ⟨hs1, hsmall1⟩ := h1.pages (m + i) (by omega)
  obtain ⟨s', heq, hc, hused⟩ := freeMapping1_changed (A := A) h1.wf hs1
    (by rw [h1.kept _ (by omega) (.inr le_rfl)]; exact hmapped i hi)
  rw [heq]
  have hother : ∀ j < N, j ≠ m + i → s'.translate (h.page j) = s1.translate (h.page j) := by
    intro j hj hne
    have hj' := (h1.pages j hj).1
    exact hc.others _ hj'.canonical hj'.aligned fun heq => hne (page_inj heq)
  refine ⟨hc.wf, fun j hj => ?_, fun j hj hout => ?_, fun j hj => ?_, hused.trans h1.used,
    fun x hx => ?_⟩
  · rcases Nat.lt_succ_iff_lt_or_eq.mp hj with hj | rfl
    · rw [hother _ (by omega) (by omega)]
      exact h1.gone j hj
    · exact hc.page
  · rw [hother j hj (by omega)]
    exact h1.kept j hj (by omega)
  · obtain ⟨hs, hsmall⟩ := h1.pages j hj
    exact hc.suitable _ hs hsmall
  · rcases hc.isTable x hx with hx | hx
    · exact h1.isTable x hx
    · exact .inr (h1.used ▸ hx)

/-- The pages that `brk` removes. -/
theorem Held.shrink (hh : Held h s N n) {dist : Nat} (hlt : dist + 0x1000 < h.size)
    (hfew : (h.size - dist) / 0x1000 < 2 ^ 19) : Ensures (h.shrink A s dist) (fun _ => False)
      fun r => ∃ m, m ≤ n ∧ r.1 = { h with size := m * 0x1000 } ∧ dist ≤ r.1.size ∧
        r.1.size < dist + 0x1000 ∧ Held r.1 r.2 N m ∧
        (∀ i < m, r.2.translate (h.page i) = s.translate (h.page i)) ∧
        ∀ x, x ∈ r.2.used ↔ x ∈ s.used ∧ ∀ i, m ≤ i → i < n → s.translate (h.page i) ≠ some x := by
  have hsize := hh.size
  have hle := hh.le
  unfold Heap.shrink freeMappingAndPhy
  generalize hk : (h.size - dist) / 0x1000 = k at hfew
  obtain ⟨hkn, hkpos, hlow, hhigh⟩ := round_down hsize hlt hk
  obtain ⟨m, rfl⟩ : ∃ m, n = m + k := ⟨n - k, (Nat.sub_add_cancel hkn).symm⟩
  rw [Nat.add_sub_cancel] at hlow hhigh
  have hcount : count k = k := by
    unfold count
    rw [u32_of_lt (by omega), if_pos (by omega)]
  have hpage : ∀ i < k, h.page (m + i) + 0x1000 ≤ 2 ^ 64 := fun i hi =>
    lt_two_pow hh.toArea (by omega)
  have hbytes : i32 (k * 0x1000) = k * 0x1000 := i32_of_lt (bytes_lt hfew)
  have hfirst : u64 (h.start + h.size + (2 ^ 64 - i32 (k * 0x1000))) = h.page m := by
    have := hpage 0 hkpos
    rw [hbytes, hsize]
    unfold page at this ⊢
    unfold u64
    clear hk hlow hhigh
    omega
  have hlast : u64 (h.size + (2 ^ 64 - i32 (k * 0x1000))) = m * 0x1000 := by
    have := hpage 0 hkpos
    have hpos := hh.pos
    rw [hbytes, hsize]
    unfold page at this
    unfold u64
    clear hk hlow hhigh
    omega
  simp only [hcount, hfirst, hlast]
  refine Ensures.bind (Q := fun s' => Held { h with size := m * 0x1000 } s' N m ∧
    (∀ i < m, s'.translate (h.page i) = s.translate (h.page i)) ∧
    ∀ x, x ∈ s'.used ↔ x ∈ s.used ∧ ∀ j < k, s.translate (h.page (m + j)) ≠ some x) ?_ ?_
  · refine (hh.returned rfl fun i hi => ?_).bind fun s1 h1 => ?_
    · have := hpage i hi
      rw [i32_of_lt (bytes_lt (hi.trans hfew))]
      unfold page at this ⊢
      rw [u64_of_lt (by omega)]
      omega
    have harea : Area h s1 N := ⟨h1.wf, hh.pos, fun i hi =>
      ⟨h1.suitable _ (hh.pages i hi).1, h1.small _ (hh.pages i hi).2⟩⟩
    refine (harea.cut hle (a := fun i => u64 (h.page m + i * 0x1000)) (fun i hi => ?_)
      fun i hi => ?_).mono (fun _ he => he) fun s' h' => ?_
    · have := hpage i hi
      unfold page at this ⊢
      rw [u64_of_lt (by omega)]
      omega
    · obtain ⟨f, -, -, hf⟩ := hh.mapped (m + i) (by omega)
      rw [h1.translate, hf]
      exact Option.some_ne_none f
    · have hkeep : ∀ i < N, (i < m ∨ m + k ≤ i) →
          s'.translate (h.page i) = s.translate (h.page i) := fun i hi hout =>
        (h'.kept i hi hout).trans (h1.translate _)
      have hin : ∀ i < m, ∃ f ∈ s'.used, ¬s'.IsTable f ∧ s.translate (h.page i) = some f := by
        intro i hi
        obtain ⟨f, hf, hft, hpage⟩ := hh.mapped i (by omega)
        have hf1 : f ∈ s1.used := by
          rw [h1.used]
          refine ⟨hf, fun j hj hjf => ?_⟩
          have := hh.distinct (m + j) (by omega) i (by omega) (hjf.trans hpage.symm)
          omega
        refine ⟨f, h'.used ▸ hf1, fun ht => ?_, hpage⟩
        rcases h'.isTable f ht with ht | hu
        · exact hft (h1.isTable.mp ht)
        · exact hu hf1
      refine ⟨⟨⟨h'.wf, hh.pos, h'.pages⟩, rfl, by omega, fun i hi => ?_, fun i hi hmi => ?_,
        fun i hi j hj hij => ?_⟩, fun i hi => hkeep i (by omega) (.inl hi), fun x => ?_⟩
      · obtain ⟨f, hf, hft, hpage⟩ := hin i hi
        exact ⟨f, hf, hft, (hkeep i (by omega) (.inl hi)).trans hpage⟩
      · by_cases hik : m + k ≤ i
        · exact (hkeep i hi (.inr hik)).trans (hh.free i hi hik)
        · obtain ⟨j, rfl⟩ := Nat.exists_eq_add_of_le hmi
          exact h'.gone j (by omega)
      · change s'.translate (h.page i) = s'.translate (h.page j) at hij
        rw [hkeep i (by omega) (.inl hi), hkeep j (by omega) (.inl hj)] at hij
        exact hh.distinct i (by omega) j (by omega) hij
      · rw [h'.used]
        exact h1.used x
  · rintro s' ⟨hh', hkeep, hused⟩
    refine ⟨m, Nat.le_add_right m k, rfl, hlow, hhigh, hh', hkeep, fun x => ?_⟩
    rw [hused]
    refine and_congr_right fun _ => ⟨fun hnot i hmi hin => ?_, fun hnot j hj => hnot _ (by omega)
      (by omega)⟩
    obtain ⟨j, rfl⟩ := Nat.exists_eq_add_of_le hmi
    exact hnot j (by omega)

/-! ### One call -/

/-- An area of canonical addresses. -/
theorem Area.size_le (hh : Area h s N) : N * 0x1000 ≤ 2 ^ 47 := by
  by_contra hbig
  obtain ⟨hs, -⟩ := hh.pages 0 (by omega)
  have haligned : h.start % 0x1000 = 0 := by simpa [page] using hs.aligned
  rcases hs.canonical with hlow | ⟨hhigh, -⟩
  · -- The page at the end of the lower half.
    obtain ⟨hs', -⟩ := hh.pages ((2 ^ 47 - h.start) / 0x1000) (by omega)
    have hc := hs'.canonical
    unfold Canonical page at *
    omega
  · have := Held.lt_two_pow hh (i := N - 1) (by omega)
    unfold page at *
    omega

end Heap

/-- A heap and the memory, with the distance that the last call of `brk` has asked for. -/
structure Break where
  heap : Heap
  memory : Machine
  dist : Nat

namespace Break

open Heap

variable {A : FrameAllocator} {N : Nat} {b b' : Break} {addr : Nat}

def apply (A : FrameAllocator) (b : Break) (addr : Nat) : Except Fault Break := do
  let (_, heap, memory) ← b.heap.brk A b.memory addr
  return ⟨heap, memory, addr - b.heap.start⟩

/-- The state after `init`, where none of the `N` pages is mapped. -/
structure Fresh (N : Nat) (b : Break) : Prop where
  init : ∃ startAddr, b.heap = Heap.init startAddr
  dist : b.dist = 0
  area : Area b.heap b.memory N
  free : ∀ i < N, b.memory.translate (b.heap.page i) = none

/-- The pages that are mapped, and the size that is kept. -/
structure Law (N : Nat) (b : Break) : Prop where
  mapped : ∀ i < N, b.memory.translate (b.heap.page i) ≠ none ↔ i * 0x1000 < b.heap.size
  multiple : b.heap.size % 0x1000 = 0
  covered : b.dist ≤ b.heap.size
  tight : b.heap.size ≤ b.dist + 0x1000

/-- A page was in the heap and is no more. -/
def Removed (b b' : Break) (i : Nat) : Prop :=
  b'.heap.size ≤ i * 0x1000 ∧ i * 0x1000 < b.heap.size

/-- What a call does: the pages that stay keep their frames, each page that goes gives a frame of its
own back, and no other frame is given back. -/
structure Moved (b b' : Break) : Prop where
  kept : ∀ i, i * 0x1000 < b.heap.size → i * 0x1000 < b'.heap.size →
    b'.memory.translate (b'.heap.page i) = b.memory.translate (b.heap.page i)
  given : ∀ i, b.Removed b' i → ∃ f ∈ b.memory.used,
    b.memory.translate (b.heap.page i) = some f ∧ f ∉ b'.memory.used
  once : ∀ i j, b.Removed b' i → b.Removed b' j →
    b.memory.translate (b.heap.page i) = b.memory.translate (b.heap.page j) → i = j
  only : ∀ x ∈ b.memory.used, x ∉ b'.memory.used → ∃ i, b.Removed b' i ∧
    b.memory.translate (b.heap.page i) = some x

/-- The address is in the area of the heap, and fewer than `2 ^ 19` pages are added or removed. -/
def Careful (N : Nat) (b : Break) (addr : Nat) : Prop :=
  addr ≤ b.heap.start + N * 0x1000 ∧
    (addr - b.heap.start - b.heap.size + 0xfff) / 0x1000 < 2 ^ 19 ∧
    (b.heap.size - (addr - b.heap.start)) / 0x1000 < 2 ^ 19

/-- Calls of `brk` with addresses from the start of the heap on. -/
def machine (A : FrameAllocator) (N : Nat) : Lib.Machine Break Nat Fault where
  start := Fresh N
  admits b addr := b.heap.start ≤ addr ∧ addr < 2 ^ 64
  apply := Break.apply A

/-- The invariant. -/
def Inv (N : Nat) (b : Break) : Prop :=
  (∃ n, Held b.heap b.memory N n) ∧ b.dist ≤ b.heap.size ∧ b.heap.size ≤ b.dist + 0x1000

theorem Fresh.inv (h : b.Fresh N) : b.Inv N := by
  obtain ⟨startAddr, hinit⟩ := h.init
  have hsize : b.heap.size = 0 := by rw [hinit]; rfl
  refine ⟨⟨0, ⟨h.area, by rw [hsize, Nat.zero_mul], Nat.zero_le N,
    fun i hi => absurd hi (Nat.not_lt_zero i), fun i hi _ => h.free i hi,
    fun i hi => absurd hi (Nat.not_lt_zero i)⟩⟩, ?_, ?_⟩
  · rw [h.dist]
    exact Nat.zero_le _
  · rw [hsize]
    exact Nat.zero_le _

theorem Inv.law (h : b.Inv N) : b.Law N := by
  obtain ⟨⟨n, hh⟩, hcovered, htight⟩ := h
  refine ⟨fun i hi => ?_, by rw [hh.size]; exact Nat.mul_mod_left n 0x1000, hcovered, htight⟩
  rw [hh.size, Nat.mul_lt_mul_right (by decide)]
  constructor
  · intro hmapped
    by_contra hge
    exact hmapped (hh.free i hi (by omega))
  · intro hin
    obtain ⟨f, -, -, hf⟩ := hh.mapped i hin
    rw [hf]
    exact Option.some_ne_none f

theorem Inv.step (h : b.Inv N) (hstart : b.heap.start ≤ addr) (hc : b.Careful N addr) :
    Ensures (b.apply A addr) (· = .outOfMemory) fun b' => b'.Inv N ∧ b.Moved b' := by
  obtain ⟨⟨n, hh⟩, hcovered, htight⟩ := h
  obtain ⟨harea, hgrow, hshrink⟩ := hc
  have hsize := hh.size
  have hle := hh.le
  have hN := hh.size_le
  have hpos := hh.pos
  have hdist : addr - b.heap.start ≤ N * 0x1000 := by omega
  have hmapped : ∀ i, i * 0x1000 < b.heap.size → i < n := fun i hi =>
    Nat.lt_of_mul_lt_mul_right (hsize ▸ hi)
  unfold apply brk
  rw [if_neg (by omega), decide_eq_true hstart, assert_true]
  generalize addr - b.heap.start = dist at hgrow hshrink hdist
  simp only [ok_bind]
  by_cases hlt : b.heap.size < dist
  · rw [if_pos hlt]
    rw [bind_assoc]
    refine (hh.grow hlt hdist hgrow).bind ?_
    rintro ⟨heap, memory⟩ ⟨m, hnm, rfl, hlow, hhigh, hh', hkeep, hused⟩
    have hnone : ∀ i, ¬b.Removed ⟨{ b.heap with size := m * 0x1000 }, memory, dist⟩ i := by
      rintro i ⟨hout, hin⟩
      have hmn : m * 0x1000 ≤ i * 0x1000 := hout
      have := hmapped i hin
      omega
    exact ⟨⟨⟨m, hh'⟩, hlow, hhigh.le⟩, fun i hi _ => hkeep i (hmapped i hi),
      fun i hi => absurd hi (hnone i), fun i j hi => absurd hi (hnone i),
      fun x hx hnot => absurd (hused hx) hnot⟩
  · rw [if_neg hlt]
    by_cases hcut : dist + 0x1000 < b.heap.size
    · rw [if_pos (by rw [u64_of_lt (by omega)]; exact hcut)]
      rw [bind_assoc]
      refine ((hh.shrink hcut hshrink).mono (fun _ he => he.elim) fun _ hr => hr).bind ?_
      rintro ⟨heap, memory⟩ ⟨m, hmn, rfl, hlow, hhigh, hh', hkeep, hused⟩
      have hremoved : ∀ i, b.Removed ⟨{ b.heap with size := m * 0x1000 }, memory, dist⟩ i →
          m ≤ i ∧ i < n := fun i hi =>
        ⟨Nat.le_of_mul_le_mul_right hi.1 (by decide), hmapped i hi.2⟩
      refine ⟨⟨⟨m, hh'⟩, hlow, hhigh.le⟩, fun i _ hi => hkeep i ?_, fun i hi => ?_,
        fun i j hi hj hij => ?_, fun x hx hnot => ?_⟩
      · exact Nat.lt_of_mul_lt_mul_right hi
      · obtain ⟨hmi, hin⟩ := hremoved i hi
        obtain ⟨f, hf, -, hpage⟩ := hh.mapped i hin
        exact ⟨f, hf, hpage, fun hf' => ((hused f).mp hf').2 i hmi hin hpage⟩
      · exact hh.distinct i (hremoved i hi).2 j (hremoved j hj).2 hij
      · by_contra hnone
        refine hnot ((hused x).mpr ⟨hx, fun i hmi hin hpage => hnone ⟨i, ⟨?_, ?_⟩, hpage⟩⟩)
        · exact Nat.mul_le_mul_right 0x1000 hmi
        · rw [hsize]
          exact Nat.mul_lt_mul_of_pos_right hin (by decide)
    · rw [if_neg (by rw [u64_of_lt (by omega)]; exact hcut)]
      have hnone : ∀ i, ¬b.Removed ⟨b.heap, b.memory, dist⟩ i := fun i hi =>
        absurd hi.2 (Nat.not_lt.mpr hi.1)
      exact ⟨⟨⟨n, hh⟩, Nat.not_lt.mp hlt, Nat.not_lt.mp hcut⟩, fun _ _ _ => rfl,
        fun i hi => absurd hi (hnone i), fun i j hi => absurd hi (hnone i),
        fun x hx hnot => absurd hx hnot⟩

/-- In every run of careful calls the pages of the heap are as they should be, and a careful call
fails only where memory is short. -/
theorem run_law (hr : (machine A N).Run (Careful N) b) : b.Law N ∧
    ∀ addr, b.heap.start ≤ addr → b.Careful N addr →
      Ensures (b.apply A addr) (· = .outOfMemory) b.Moved := by
  have hinv : b.Inv N := hr.invariant (fun _ hs => Fresh.inv hs) fun b b' addr hI ha hC hs =>
    ((hI.step ha.1 hC).of_ok hs).1
  exact ⟨hinv.law, fun addr ha hC => (hinv.step ha hC).mono (fun _ he => he) fun _ hb => hb.2⟩

/-! ### A heap of four pages -/

instance (N : Nat) (b : Break) (addr : Nat) : Decidable (b.Careful N addr) := by
  unfold Careful
  infer_instance

/-- The state after `init(0x3ff123)` on the tables of `stale`. -/
def small : Break := ⟨Heap.init 0x3ff123, stale, 0⟩

theorem small_page {i : Nat} (hi : i < 4) : pathPT (small.heap.page i) = [0, 0, 2] := by
  interval_cases i <;> decide

theorem small_fresh : small.Fresh 4 := by
  have hnone : ∀ i < 4, stale.translate (small.heap.page i) = none := by
    intro i hi
    interval_cases i <;> decide
  have hpage : ∀ i < 4, stale.Suitable (small.heap.page i) ∧ stale.Clean (small.heap.page i) := by
    intro i hi
    have hpath := small_page hi
    simp only [pathPT, List.cons.injEq] at hpath
    obtain ⟨h4, h3, h2, -⟩ := hpath
    have habsent : (stale.mem 0x6000 2).present = false := by decide
    have hPD : stale.tableAt (pathPD (small.heap.page i)) = some 0x6000 := by
      rw [pathPD, h4, h3]
      decide
    refine ⟨⟨.inl ?_, ?_, ?_, fun PD hPD' hpres => ?_, ?_⟩, stale_clean_of ?_⟩
    · interval_cases i <;> decide
    · interval_cases i <;> decide
    · rw [h4]
      decide
    · rw [hPD, Option.some.injEq] at hPD'
      rw [← hPD', h2, habsent] at hpres
      exact absurd hpres Bool.false_ne_true
    · interval_cases i <;> decide
    · rw [small_page hi]
      decide
  exact ⟨⟨_, rfl⟩, rfl, ⟨stale_wellFormed, by decide, fun i hi =>
    ⟨(hpage i hi).1, .of_clean stale_wellFormed (hpage i hi).1 (hpage i hi).2⟩⟩, hnone⟩

/-- Two pages are added, then a third one, and then two are removed. -/
theorem run_law_small : ∃ b, (machine lowest 4).Run (Careful 4) b ∧
    decide (b.heap.size = 0x1000 ∧ b.dist = 1) = true ∧ b.Law 4 := by
  have hcheck (b : Break) (addr : Nat) (hc : decide ((b.heap.start ≤ addr ∧ addr < 2 ^ 64) ∧
      b.Careful 4 addr) = true) : (machine lowest 4).admits b addr ∧ b.Careful 4 addr := by
    have h := of_decide_eq_true hc
    exact h
  obtain ⟨b, hb, hP⟩ := Lib.Machine.exists_run (M := machine lowest 4) hcheck small_fresh
    [0x401234, 0x403000, 0x400001]
    (P := fun b : Break => decide (b.heap.size = 0x1000 ∧ b.dist = 1)) (by decide +kernel)
  exact ⟨b, hb, hP, (run_law hb).1⟩

/-- A call for 16 TiB returns 0 and maps nothing, since the number of pages does not fit an `int`. -/
theorem not_law : ¬∀ (A : FrameAllocator) (N : Nat) (b : Break),
    (machine A N).Run (fun _ _ => True) b → b.Law N := by
  intro hall
  have hcheck (b : Break) (addr : Nat)
      (hc : decide (b.heap.start ≤ addr ∧ addr < 2 ^ 64) = true) :
      (machine lowest 4).admits b addr ∧ True := by
    have h := of_decide_eq_true hc
    exact ⟨h, trivial⟩
  obtain ⟨b, hb, hP⟩ := Lib.Machine.exists_run (M := machine lowest 4) (C := fun _ _ => True)
    hcheck small_fresh [0x400000 + 2 ^ 44]
    (P := fun b : Break => decide (b.heap.size < b.dist)) (by decide +kernel)
  exact absurd (hall lowest 4 b hb).covered (Nat.not_le.mpr (of_decide_eq_true hP))

end Break

end SupOS
