import SupOS.Memory.Release

/-! User memories among the frames of the kernel: which frames each of them owns, and what `clear`
leaves of one. -/

namespace SupOS

open Lib Entry

namespace Machine

variable {s t s' : Machine} {P Q PD shared : Nat}

/-- The paths to the frames of a user memory: its PDP, its first directory, what is below that, and
what is below the other entries of the PDP. -/
theorem Own.view {p : List Nat} (h : Own p) :
    p = [] ∨ p = [0] ∨ (∃ j q, p = 0 :: j :: q ∧ 1 ≤ j ∧ j < 512 ∧ From 0 1 q) ∨
      ∃ i q, p = i :: q ∧ 1 ≤ i ∧ i < 512 ∧ From 0 2 q := by
  rcases h.cases with hp | ⟨q, rfl, hq⟩
  · cases p with
    | nil => exact .inl rfl
    | cons i q =>
      obtain ⟨hq, hi, hlt⟩ := hp.tail
      exact .inr (.inr (.inr ⟨i, q, rfl, hi, hlt, hq⟩))
  · cases q with
    | nil => exact .inr (.inl rfl)
    | cons j q =>
      obtain ⟨hq', hj, hlt⟩ := hq.tail
      exact .inr (.inr (.inl ⟨j, q, rfl, hj, hlt, hq'⟩))

/-- The paths to the frames that a copy or a clear replaces. -/
def Below (p : List Nat) : Prop := Own p ∧ p ≠ [] ∧ p ≠ [0]

/-- The user addresses outside of the first 2 MiB, which all memories share. -/
def UserAddr (v : Nat) : Prop := 2 ^ 21 ≤ v ∧ v < 2 ^ 39

theorem own_page {v : Nat} (hv : UserAddr v) :
    Own ([getPDPindex v] ++ [getPDindex v] ++ [getPTindex v]) := by
  have hlt : ∀ i ∈ [getPDPindex v, getPDindex v, getPTindex v], i < 512 := by
    simp only [List.mem_cons, List.not_mem_nil, or_false]
    rintro i (rfl | rfl | rfl) <;> exact Nat.mod_lt _ (by decide)
  refine ⟨⟨le_rfl, hlt, fun _ _ _ => Nat.zero_le _⟩, fun hpre => ?_⟩
  obtain ⟨h0, hpre⟩ := List.cons_prefix_cons.mp hpre
  obtain ⟨h1, -⟩ := List.cons_prefix_cons.mp hpre
  obtain ⟨hge, hv⟩ := hv
  rw [getPDPindex, Nat.shiftRight_eq_div_pow] at h0
  rw [getPDindex, Nat.shiftRight_eq_div_pow] at h1
  omega

theorem own_table {v : Nat} (hv : UserAddr v) : Own [getPDPindex v, getPDindex v] :=
  Own.closed [getPDPindex v, getPDindex v] [getPTindex v] (own_page hv)

/-! ### The kernel's frames -/

/-- The frames of the kernel that user memories refer to, and a set of frames that holds these and
Paging's tables. -/
structure KernelFrames where
  firstPD : Nat
  shared : Nat
  default : Nat
  base : Finset Nat

/-- Paging's windows show the PML4 and the first page directory, and the temporary windows are
closed. -/
structure Kernel (K : KernelFrames) (s : Machine) : Prop where
  closed : Closed TMPPDPOFF s
  view : s.window winPML4 = .ok s.pml4
  firstPD : s.window winFirstPD = .ok K.firstPD
  shared : (s.mem K.firstPD 0).getAddr = K.shared
  shared_ne : K.shared ≠ 0
  default : (s.mem s.pagePT winUserPDP).getAddr = K.default
  base : s.pml4 ∈ K.base ∧ s.pagePT ∈ K.base ∧ K.firstPD ∈ K.base ∧ K.default ∈ K.base
  base_shared : K.shared ∈ K.base
  apart : s.pml4 ≠ s.pagePT ∧ s.pml4 ≠ K.firstPD
  used : K.base ⊆ s.used

/-- A user memory without frames of the kernel. -/
structure Live (K : KernelFrames) (s : Machine) (P : Nat) : Prop extends Space s P K.shared where
  base : ∀ x, Owned s P x → x ∉ K.base

/-- The words that any function of `UserMemory` may write: those of the temporary windows, and the
first of the PML4. -/
def Common (s : Machine) (g j : Nat) : Prop :=
  (g = s.pagePT ∧ TMPPDPOFF ≤ j ∧ j ≤ TMPPTOFF) ∨ (g = s.pml4 ∧ j = 0)

variable {K : KernelFrames}

theorem Owned.used (h : Space s P shared) {x : Nat} (hx : Owned s P x) : x ∈ s.used := by
  obtain ⟨p, hp, hx⟩ := hx
  by_cases hne : p = []
  · subst hne
    rw [← Option.some.inj hx]
    exact h.used
  · exact (h.live p x hp hne hx).1

/-- A word of a user memory is none of the common ones. -/
theorem Live.not_common (h : Live K s P) (hk : Kernel K s) {x j : Nat} (hx : Owned s P x) :
    ¬Common s x j := by
  rintro (⟨rfl, -⟩ | ⟨rfl, -⟩)
  · exact h.base _ hx hk.base.2.1
  · exact h.base _ hx hk.base.1

/-- A user memory whose frames keep their words stays as it is. -/
theorem Space.congr (h : Space s Q shared) (hpt : t.pagePT = s.pagePT)
    (hmem : ∀ x, Owned s Q x → ∀ j, t.mem x j = s.mem x j) (hused : ∀ x, Owned s Q x → x ∈ t.used) :
    (∀ p, Own p → t.linkAt Q p = s.linkAt Q p) ∧ Space t Q shared := by
  have hsame : ∀ p, Own p → t.linkAt Q p = s.linkAt Q p := by
    intro p hp
    refine Store.descend_congr fun q j y hq hy => congrArg link (hmem y ⟨q, ?_, hy⟩ j)
    exact Own.closed.of_initial (List.IsPrefix.trans ⟨[j], rfl⟩ hq) hp
  obtain ⟨PD, hPD, hfirst⟩ := h.first
  refine ⟨hsame, h.frame, hused Q ⟨[], .nil, rfl⟩, h.ne_zero, hpt ▸ h.ne_pagePT,
    fun p q x hp hq hpx hqx => ?_, fun p x hp hne hx => ?_, PD, (hsame [0] .zero).trans hPD, ?_⟩
  · exact h.tree p q x hp hq ((hsame p hp).symm.trans hpx) ((hsame q hq).symm.trans hqx)
  · have hx' := (hsame p hp).symm.trans hx
    obtain ⟨-, hz, hpage⟩ := h.live p x hp hne hx'
    exact ⟨hused x ⟨p, hp, hx'⟩, hz, hpt ▸ hpage⟩
  · rw [hmem PD ⟨[0], .zero, hPD⟩, hfirst]

theorem owned_congr (h : ∀ p, Own p → t.linkAt Q p = s.linkAt Q p) (x : Nat) :
    Owned t Q x ↔ Owned s Q x :=
  exists_congr fun p => and_congr_right fun hp => by rw [h p hp]

theorem Live.congr (h : Live K s Q) (hpt : t.pagePT = s.pagePT)
    (hmem : ∀ x, Owned s Q x → ∀ j, t.mem x j = s.mem x j) (hused : ∀ x, Owned s Q x → x ∈ t.used) :
    (∀ p, Own p → t.linkAt Q p = s.linkAt Q p) ∧ Live K t Q := by
  obtain ⟨hsame, hspace⟩ := h.toSpace.congr hpt hmem hused
  exact ⟨hsame, hspace, fun x hx => h.base x ((owned_congr hsame x).mp hx)⟩

/-- The kernel's frames are as before when only frames outside of the base and the common words have
changed. -/
theorem Kernel.congr (h : Kernel K s) (hpml4 : t.pml4 = s.pml4) (hpt : t.pagePT = s.pagePT)
    (hmem : ∀ x ∈ K.base, ∀ j, ¬Common s x j → t.mem x j = s.mem x j) (hc : Closed TMPPDPOFF t)
    (hused : K.base ⊆ t.used) : Kernel K t := by
  obtain ⟨hb1, hb2, hb3, hb4⟩ := h.base
  have hwin : ∀ k, k < TMPPDPOFF → t.mem t.pagePT k = s.mem s.pagePT k := by
    intro k hk
    rw [hpt]
    refine hmem _ hb2 k ?_
    rintro (hw | hw)
    · omega
    · exact h.apart.1 hw.1.symm
  refine ⟨hc, ?_, ?_, ?_, h.shared_ne, ?_, ⟨hpml4 ▸ hb1, hpt ▸ hb2, hb3, hb4⟩,
    h.base_shared, ?_, hused⟩
  · rw [Machine.window, hwin _ (by decide), hpml4]
    exact h.view
  · rw [Machine.window, hwin _ (by decide)]
    exact h.firstPD
  · rw [hmem _ hb3, h.shared]
    rintro (hw | hw)
    · exact absurd hw.2.1 (by decide)
    · exact h.apart.2 hw.1.symm
  · rw [hwin _ (by decide), h.default]
  · rw [hpml4, hpt]
    exact h.apart

/-! ### Memories without pages -/

/-- A user memory of which there are only the PDP and the first directory. -/
structure Bare (s : Machine) (P PD shared : Nat) : Prop where
  first : (s.mem P 0).link = some PD
  shared : (s.mem PD 0).link = some shared
  absent : ∀ j, 1 ≤ j → j < 512 → (s.mem P j).present = false ∧ (s.mem PD j).present = false

theorem Bare.links (h : Bare s P PD shared) {p : List Nat} {x : Nat} (hp : Own p)
    (hx : s.linkAt P p = some x) : (p = [] ∧ x = P) ∨ (p = [0] ∧ x = PD) := by
  rcases hp.view with rfl | rfl | ⟨j, q, rfl, hj, hlt, hq⟩ | ⟨i, q, rfl, hi, hlt, hq⟩
  · exact .inl ⟨rfl, (Option.some.inj hx).symm⟩
  · exact .inr ⟨rfl, Option.some.inj (hx.symm.trans (linkAt_one.trans h.first))⟩
  · rw [linkAt_cons _ h.first] at hx
    have hnone := Store.descend_cons_none (m := s.mem) q
      (link_of_not_present (h.absent j hj hlt).2)
    exact absurd (hx.symm.trans hnone) (Option.some_ne_none x)
  · have hnone := Store.descend_cons_none (m := s.mem) q
      (link_of_not_present (h.absent i hi hlt).1)
    exact absurd (hx.symm.trans hnone) (Option.some_ne_none x)

theorem Bare.owned (h : Bare s P PD shared) {x : Nat} : Owned s P x ↔ x = P ∨ x = PD := by
  constructor
  · rintro ⟨p, hp, hx⟩
    rcases h.links hp hx with ⟨-, rfl⟩ | ⟨-, rfl⟩
    · exact .inl rfl
    · exact .inr rfl
  · rintro (rfl | rfl)
    · exact ⟨[], .nil, rfl⟩
    · exact ⟨[0], .zero, linkAt_one.trans h.first⟩

theorem Bare.live (h : Bare s P PD K.shared) (hne : P ≠ PD) (hframe : IsFrame P)
    (hx : ∀ x, x = P ∨ x = PD → x ∈ s.used ∧ x ≠ 0 ∧ x ≠ s.pagePT ∧ x ∉ K.base) : Live K s P where
  frame := hframe
  used := (hx P (.inl rfl)).1
  ne_zero := (hx P (.inl rfl)).2.1
  ne_pagePT := (hx P (.inl rfl)).2.2.1
  tree p q x hp hq hpx hqx := by
    rcases h.links hp hpx with ⟨rfl, rfl⟩ | ⟨rfl, rfl⟩ <;>
    rcases h.links hq hqx with ⟨rfl, heq⟩ | ⟨rfl, heq⟩
    · rfl
    · exact absurd heq hne
    · exact absurd heq.symm hne
    · rfl
  live p x hp _ hpx := by
    obtain ⟨hused, hz, hpage, -⟩ := hx x (h.owned.mp ⟨p, hp, hpx⟩)
    exact ⟨hused, hz, hpage⟩
  first := ⟨PD, linkAt_one.trans h.first, h.shared⟩
  base x hxo := (hx x (h.owned.mp hxo)).2.2.2

/-! ### Clear -/

/-- What `clear` leaves of the memory at `P`, whose first directory is `PD`. -/
structure Cleared (s s' : Machine) (P PD : Nat) : Prop where
  pml4 : s'.pml4 = s.pml4
  pagePT : s'.pagePT = s.pagePT
  mem : ∀ g j, ¬(1 ≤ j ∧ (g = P ∨ g = PD)) → ¬Common s g j → s'.mem g j = s.mem g j
  closed : Closed TMPPDPOFF s'
  used : ∀ x, x ∈ s'.used ↔ x ∈ s.used ∧ ¬∃ p, Below p ∧ s.linkAt P p = some x
  absent : ∀ j, 1 ≤ j → j < 512 → (s'.mem P j).present = false ∧ (s'.mem PD j).present = false
  inactive : (s'.mem s.pml4 0).getAddr ≠ P

theorem clear_cleared (hk : Kernel K s) (hP : Live K s P) (hPD : s.linkAt P [0] = some PD) :
    ∃ s', s.clear P = .ok s' ∧ Cleared s s' P PD := by
  have hPbase : P ∉ K.base := hP.base P ⟨[], .nil, rfl⟩
  have hPDbase : PD ∉ K.base := hP.base PD ⟨[0], .zero, hPD⟩
  have hdefault : K.default ≠ P := fun h => hPbase (h ▸ hk.base.2.2.2)
  -- The state after the switch to the default PDP.
  have hswitch : ∃ t : Machine, s.clear P = t.freePDs P ∧ t.pml4 = s.pml4 ∧ t.pagePT = s.pagePT ∧
      t.used = s.used ∧ (∀ g j, ¬(g = s.pml4 ∧ j = 0) → t.mem g j = s.mem g j) ∧
      (t.mem s.pml4 0).getAddr ≠ P := by
    unfold clear
    dsimp only
    rw [hk.default, decide_eq_true hdefault.symm, assert_true, ok_bind, readAt_eq hk.view, ok_bind]
    by_cases hact : P = (s.mem s.pml4 0).getAddr
    · have hframe : IsFrame K.default := hk.default ▸ isFrame_getAddr _
      have hne : K.default ≠ (s.mem s.pml4 0).getAddr := hact ▸ hdefault
      refine ⟨s.write s.pml4 0 ((s.mem s.pml4 0).active K.default), ?_, rfl, rfl, rfl,
        fun g j hg => ?_, ?_⟩
      · rw [if_pos hact, switchUser, readAt_eq hk.view, ok_bind, if_neg hne,
          activeAddr_eq _ hframe, ok_bind, writeAt_eq hk.view, ok_bind]
      · rw [write_mem, if_neg hg]
      · rw [write_mem, if_pos ⟨rfl, rfl⟩, getAddr_active _ hframe]
        exact hdefault
    · refine ⟨s, ?_, rfl, rfl, rfl, fun _ _ _ => rfl, Ne.symm hact⟩
      rw [if_neg hact]
      rfl
  obtain ⟨t, ht, hpml4, hpt, hused, hmem, hinactive⟩ := hswitch
  have hmemP : ∀ x, Owned s P x → ∀ j, t.mem x j = s.mem x j := fun x hx j =>
    hmem x j fun h => hP.base x hx (h.1 ▸ hk.base.1)
  obtain ⟨hsame, hspace⟩ := hP.toSpace.congr hpt hmemP fun x hx => hused ▸ hx.used hP.toSpace
  have hclosed : Closed TMPPDPOFF t := by
    intro k hk1 hk2
    rw [hpt, hmem _ _ fun h => hk.apart.1 h.1.symm]
    exact hk.closed k hk1 hk2
  obtain ⟨s', heq, he⟩ := freePDs_spec hspace hclosed ((hsame [0] .zero).trans hPD)
  refine ⟨s', ?_, he.touched.pml4.trans hpml4, he.touched.pagePT.trans hpt, fun g j hd hw => ?_,
    he.touched.closed, fun x => ?_, he.absent, ?_⟩
  · rw [ht, heq]
  · rw [he.touched.mem g j hd (by rw [hpt]; exact fun h => hw (.inl h)),
      hmem g j fun h => hw (.inr h)]
  · rw [he.used x, hused]
    refine and_congr_right fun _ => not_congr (exists_congr fun p => ?_)
    unfold Below
    constructor
    · rintro ⟨hp, hne, hne0, hx⟩
      exact ⟨⟨hp, hne, hne0⟩, (hsame p hp).symm.trans hx⟩
    · rintro ⟨⟨hp, hne, hne0⟩, hx⟩
      exact ⟨hp, hne, hne0, (hsame p hp).trans hx⟩
  · rw [he.touched.mem]
    · exact hinactive
    · exact fun h => absurd h.1 (by decide)
    · rw [hpt]
      exact fun h => hk.apart.1 h.1

namespace Cleared

/-- What stays in use is what is not below the two tables. -/
theorem kept (h : Cleared s s' P PD) {x : Nat} (hx : x ∈ s.used)
    (hb : ∀ p, Below p → s.linkAt P p ≠ some x) : x ∈ s'.used :=
  (h.used x).mpr ⟨hx, fun ⟨p, hp, hpx⟩ => hb p hp hpx⟩

variable (h : Cleared s s' P PD) (hk : Kernel K s) (hP : Live K s P) (hPD : s.linkAt P [0] = some PD)
include h hk hP hPD

theorem zero : s'.mem P 0 = s.mem P 0 ∧ s'.mem PD 0 = s.mem PD 0 :=
  ⟨h.mem P 0 (fun hd => absurd hd.1 (by decide)) (hP.not_common hk ⟨[], .nil, rfl⟩),
    h.mem PD 0 (fun hd => absurd hd.1 (by decide)) (hP.not_common hk ⟨[0], .zero, hPD⟩)⟩

/-- Only the PDP and the first directory are left. -/
theorem bare : Bare s' P PD K.shared := by
  obtain ⟨PD', hPD', hfirst⟩ := hP.first
  obtain rfl := Option.some.inj (hPD.symm.trans hPD')
  obtain ⟨h0, hPD0⟩ := h.zero hk hP hPD
  exact ⟨by rw [h0]; exact linkAt_one.symm.trans hPD, by rw [hPD0, hfirst], h.absent⟩

theorem live : Live K s' P := by
  have hne : P ≠ PD := fun heq =>
    List.cons_ne_nil _ _ (hP.tree [0] [] P .zero .nil (heq ▸ hPD) rfl)
  refine (h.bare hk hP hPD).live hne hP.frame ?_
  rintro x (rfl | rfl)
  · refine ⟨h.kept hP.used fun p hp hx => hp.2.1 (hP.tree p [] x hp.1 .nil hx rfl), hP.ne_zero,
      h.pagePT ▸ hP.ne_pagePT, hP.base x ⟨[], .nil, rfl⟩⟩
  · obtain ⟨hused, hz, hpage⟩ := hP.live [0] x .zero (List.cons_ne_nil _ _) hPD
    exact ⟨h.kept hused fun p hp hx => hp.2.2 (hP.tree p [0] x hp.1 .zero hx hPD), hz,
      h.pagePT ▸ hpage, hP.base x ⟨[0], .zero, hPD⟩⟩

theorem kernel : Kernel K s' := by
  refine hk.congr h.pml4 h.pagePT (fun x hx j hw => h.mem x j ?_ hw) h.closed fun x hx => ?_
  · rintro ⟨-, rfl | rfl⟩
    · exact hP.base x ⟨[], .nil, rfl⟩ hx
    · exact hP.base x ⟨[0], .zero, hPD⟩ hx
  · exact h.kept (hk.used hx) fun p hp hpx => hP.base x ⟨p, hp.1, hpx⟩ hx

/-- The other user memories stay as they are. -/
theorem other (hQ : Live K s Q) (hdis : ∀ x, Owned s P x → ¬Owned s Q x) :
    (∀ x, Owned s Q x → ∀ j, s'.mem x j = s.mem x j) ∧
      (∀ p, Own p → s'.linkAt Q p = s.linkAt Q p) ∧ Live K s' Q := by
  have hmem : ∀ x, Owned s Q x → ∀ j, s'.mem x j = s.mem x j := by
    refine fun x hx j => h.mem x j ?_ (hQ.not_common hk hx)
    rintro ⟨-, rfl | rfl⟩
    · exact hdis x ⟨[], .nil, rfl⟩ hx
    · exact hdis x ⟨[0], .zero, hPD⟩ hx
  refine ⟨hmem, hQ.congr h.pagePT hmem fun x hx => ?_⟩
  exact h.kept (hx.used hQ.toSpace) fun p hp hpx => hdis x ⟨p, hp.1, hpx⟩ hx

end Cleared

end Machine

end SupOS
