import SupOS.Memory.Fork
import SupOS.Memory.Growth

/-! The construction and the destruction of user memories, and what each operation leaves alone. -/

namespace SupOS

open Lib Entry

namespace Machine

variable {A : FrameAllocator} {K : KernelFrames} {s t s' : Machine} {P PD Q : Nat}

/-! ### Construction -/

/-- What the constructor leaves: a PDP and a first directory, both new, with one entry each. -/
structure Constructed (K : KernelFrames) (s s' : Machine) (P PD : Nat) : Prop where
  pml4 : s'.pml4 = s.pml4
  pagePT : s'.pagePT = s.pagePT
  frames : IsFrame P ∧ IsFrame PD
  ne_zero : P ≠ 0 ∧ PD ≠ 0
  fresh : P ∉ s.used ∧ PD ∉ s.used ∧ P ≠ PD
  used : ∀ y, y ∈ s'.used ↔ y ∈ s.used ∨ y = P ∨ y = PD
  pdp : ∀ j, s'.mem P j = if j = 0 then Entry.blank.active PD else Entry.blank
  dir : ∀ j, s'.mem PD j = if j = 0 then Entry.blank.active K.shared else Entry.blank
  others : ∀ y j, y ≠ P → y ≠ PD → ¬(y = s.pagePT ∧ IsWindow j) → s'.mem y j = s.mem y j
  closed : Closed TMPPDPOFF s'

/-- The last steps of the constructor: the entry for the shared table, and the windows. -/
theorem Constructed.of_tables (hpml4 : t.pml4 = s.pml4) (hpt : t.pagePT = s.pagePT)
    (hframes : IsFrame P ∧ IsFrame PD) (hz : P ≠ 0 ∧ PD ≠ 0)
    (hfresh : P ∉ s.used ∧ PD ∉ s.used ∧ P ≠ PD) (hpage : s.pagePT ∈ s.used)
    (hused : ∀ y, y ∈ t.used ↔ y ∈ s.used ∨ y = P ∨ y = PD)
    (hpdp : ∀ j, t.mem P j = if j = 0 then Entry.blank.active PD else Entry.blank)
    (hdir : ∀ j, t.mem PD j = Entry.blank)
    (hold : ∀ y j, y ≠ P → y ≠ PD → ¬(y = s.pagePT ∧ IsWindow j) → t.mem y j = s.mem y j)
    (hclosed : (t.mem s.pagePT TMPPTOFF).present = false) :
    Constructed K s (((t.write PD 0 (Entry.blank.active K.shared)).freeTmp TMPPDOFF).freeTmp
      TMPPDPOFF) P PD := by
  have hPp : P ≠ s.pagePT := fun h => hfresh.1 (h ▸ hpage)
  have hPDp : PD ≠ s.pagePT := fun h => hfresh.2.1 (h ▸ hpage)
  have hfinal : ∀ y j, ¬(y = s.pagePT ∧ IsWindow j) →
      (((t.write PD 0 (Entry.blank.active K.shared)).freeTmp TMPPDOFF).freeTmp TMPPDPOFF).mem y j =
        if y = PD ∧ j = 0 then Entry.blank.active K.shared else t.mem y j := by
    intro y j hw
    rw [freeTmp_mem, freeTmp_pagePT, write_pagePT, hpt, if_neg fun h => hw ⟨h.1, .inl h.2⟩,
      freeTmp_mem, write_pagePT, hpt, if_neg fun h => hw ⟨h.1, .inr (.inl h.2)⟩, write_mem]
  refine ⟨hpml4, hpt, hframes, hz, hfresh, hused, fun j => ?_, fun j => ?_,
    fun y j hyP hyPD hw => ?_, fun k h1 h2 => ?_⟩
  · rw [hfinal P j fun h => hPp h.1, if_neg fun h => hfresh.2.2 h.1, hpdp]
  · rw [hfinal PD j fun h => hPDp h.1, hdir]
    simp only [true_and]
  · rw [hfinal y j hw, if_neg fun h => hyPD h.1, hold y j hyP hyPD hw]
  · rw [freeTmp_pagePT, freeTmp_pagePT, write_pagePT, hpt, freeTmp_mem, freeTmp_pagePT,
      write_pagePT, hpt]
    rcases isWindow_iff.mpr ⟨h1, h2⟩ with rfl | rfl | rfl
    · rw [if_pos ⟨rfl, rfl⟩]
    · rw [if_neg fun h => absurd h.2 (by decide), freeTmp_mem, write_pagePT, hpt, if_pos ⟨rfl, rfl⟩]
    · rw [if_neg fun h => absurd h.2 (by decide), freeTmp_mem, write_pagePT, hpt,
        if_neg fun h => absurd h.2 (by decide), write_mem, if_neg fun h => hPDp h.1.symm, hclosed]

theorem construct_constructed (hk : Kernel K s) :
    Ensures (s.construct A) (· = .outOfMemory) fun r => ∃ PD, Constructed K s r.2 r.1 PD := by
  have hpage : s.pagePT ∈ s.used := hk.used hk.base.2.1
  have hfirst : K.firstPD ∈ s.used := hk.used hk.base.2.2.1
  have hwindow := hk.firstPD
  unfold construct
  cases hpick : A.pick s.used with
  | none => rw [alloc_none hpick]; rfl
  | some P =>
    obtain ⟨hP, hPz, hPf⟩ := A.fresh _ _ hpick
    have hPp : P ≠ s.pagePT := fun h => hP (h ▸ hpage)
    have hPfirst : K.firstPD ≠ P := fun h => hP (h ▸ hfirst)
    rw [alloc_some hpick, ok_bind]
    dsimp only
    generalize hs1 : ({ s with used := insert P s.used } : Machine) = s1
    have hp1 : s1.pagePT = s.pagePT := by rw [← hs1]
    have hm1 : s1.mem = s.mem := by rw [← hs1]
    have hu1 : s1.used = insert P s.used := by rw [← hs1]
    rw [actTmp_eq (by rw [hp1, hm1]; exact hk.closed _ le_rfl (by decide)) hPf, ok_bind]
    generalize hs2 : s1.write s1.pagePT TMPPDPOFF ((s1.mem s1.pagePT TMPPDPOFF).active P) = s2
    have hp2 : s2.pagePT = s.pagePT := by rw [← hs2, ← hp1]; rfl
    have hu2 : s2.used = insert P s.used := by rw [← hs2, ← hu1]; rfl
    have hm2 : ∀ y j, s2.mem y j = if y = s.pagePT ∧ j = TMPPDPOFF then
        (s1.mem s1.pagePT TMPPDPOFF).active P else s.mem y j := by
      intro y j
      rw [← hs2, ← hp1, ← hm1]
      exact write_mem ..
    have hw2 : s2.window TMPPDPOFF = .ok P :=
      window_active (s := s1) hPf (by rw [hp2, hm2, if_pos ⟨rfl, rfl⟩])
    rw [blankAt_eq hw2, ok_bind]
    generalize hs3 : ({ s2 with mem := fun y j => if y = P then Entry.blank else s2.mem y j } :
      Machine) = s3
    have hp3 : s3.pagePT = s.pagePT := by rw [← hs3, ← hp2]
    have hu3 : s3.used = insert P s.used := by rw [← hs3, ← hu2]
    have hm3 : ∀ y j, s3.mem y j = if y = P then Entry.blank else s2.mem y j := by
      intro y j
      rw [← hs3]
    cases hpick' : A.pick s3.used with
    | none => rw [alloc_none hpick']; rfl
    | some PD =>
      obtain ⟨hPD, hPDz, hPDf⟩ := A.fresh _ _ hpick'
      rw [hu3] at hPD
      have hPDs : PD ∉ s.used := fun h => hPD (Finset.mem_insert_of_mem h)
      have hne : P ≠ PD := fun h => hPD (h ▸ Finset.mem_insert_self _ _)
      have hPDp : PD ≠ s.pagePT := fun h => hPDs (h ▸ hpage)
      have hPDfirst : K.firstPD ≠ PD := fun h => hPDs (h ▸ hfirst)
      rw [alloc_some hpick', ok_bind]
      dsimp only
      generalize hs4 : ({ s3 with used := insert PD s3.used } : Machine) = s4
      have hp4 : s4.pagePT = s.pagePT := by rw [← hs4, ← hp3]
      have hm4 : s4.mem = s3.mem := by rw [← hs4]
      have hclosed4 : (s4.mem s4.pagePT TMPPDOFF).present = false := by
        rw [hp4, hm4, hm3, if_neg hPp.symm, hm2, if_neg fun h => absurd h.2 (by decide)]
        exact hk.closed _ (by decide) (by decide)
      rw [actTmp_eq hclosed4 hPDf, ok_bind]
      generalize hs5 : s4.write s4.pagePT TMPPDOFF ((s4.mem s4.pagePT TMPPDOFF).active PD) = s5
      have hp5 : s5.pagePT = s.pagePT := by rw [← hs5, ← hp4]; rfl
      have hm5 : ∀ y j, s5.mem y j = if y = s.pagePT ∧ j = TMPPDOFF then
          (s4.mem s4.pagePT TMPPDOFF).active PD else s3.mem y j := by
        intro y j
        rw [← hs5, ← hp4, ← hm4]
        exact write_mem ..
      have hw5 : s5.window TMPPDOFF = .ok PD :=
        window_active (s := s4) hPDf (by rw [hp5, hm5, if_pos ⟨rfl, rfl⟩])
      rw [blankAt_eq hw5, ok_bind]
      generalize hs6 : ({ s5 with mem := fun y j => if y = PD then Entry.blank else s5.mem y j } :
        Machine) = s6
      have hp6 : s6.pagePT = s.pagePT := by rw [← hs6, ← hp5]
      have hm6 : ∀ y j, s6.mem y j = if y = PD then Entry.blank else s5.mem y j := by
        intro y j
        rw [← hs6]
      have hw6 : s6.window TMPPDPOFF = .ok P := by
        refine window_active (s := s1) hPf ?_
        rw [hp6, hm6, if_neg hPDp.symm, hm5, if_neg fun h => absurd h.2 (by decide), hm3,
          if_neg hPp.symm, hm2, if_pos ⟨rfl, rfl⟩]
      have hP0 : s6.mem P 0 = Entry.blank := by
        rw [hm6, if_neg hne, hm5, if_neg fun h => hPp h.1, hm3, if_pos rfl]
      rw [readAt_eq hw6, hP0, ok_bind, activeAddr_eq _ hPDf, ok_bind, writeAt_eq hw6, ok_bind]
      generalize hs7 : s6.write P 0 (Entry.blank.active PD) = s7
      have hp7 : s7.pagePT = s.pagePT := by rw [← hs7, ← hp6]; rfl
      have hm7 : ∀ y j, s7.mem y j = if y = P ∧ j = 0 then Entry.blank.active PD else s6.mem y j := by
        intro y j
        rw [← hs7]
        exact write_mem ..
      -- The words that are neither the windows' nor the new tables' are as before.
      have hold7 : ∀ y j, y ≠ P → y ≠ PD → ¬(y = s.pagePT ∧ IsWindow j) →
          s7.mem y j = s.mem y j := by
        intro y j hyP hyPD hw
        rw [hm7, if_neg fun h => hyP h.1, hm6, if_neg hyPD, hm5,
          if_neg fun h => hw ⟨h.1, .inr (.inl h.2)⟩, hm3, if_neg hyP, hm2,
          if_neg fun h => hw ⟨h.1, .inl h.2⟩]
      have hw7 : s7.window winFirstPD = .ok K.firstPD := by
        rw [Machine.window, hp7, hold7 _ _ hPp.symm hPDp.symm fun h => absurd h.2 (by
          unfold IsWindow
          decide)]
        exact hwindow
      have hshared : (s7.mem K.firstPD 0).getAddr = K.shared := by
        rw [hold7 _ _ hPfirst hPDfirst fun h => absurd h.2 (by
          unfold IsWindow
          decide)]
        exact hk.shared
      have hsharedf : IsFrame K.shared := hk.shared ▸ isFrame_getAddr _
      have hw7' : s7.window TMPPDOFF = .ok PD := by
        refine window_active (s := s4) hPDf ?_
        rw [hp7, hm7, if_neg fun h => hPp h.1.symm, hm6, if_neg hPDp.symm, hm5, if_pos ⟨rfl, rfl⟩]
      have hPD0 : s7.mem PD 0 = Entry.blank := by
        rw [hm7, if_neg fun h => hne h.1.symm, hm6, if_pos rfl]
      rw [readAt_eq hw7, ok_bind, hshared, decide_eq_true hk.shared_ne, assert_true, ok_bind,
        readAt_eq hw7', hPD0, ok_bind, activeAddr_eq _ hsharedf, ok_bind, writeAt_eq hw7', ok_bind]
      refine ⟨PD, Constructed.of_tables (P := P) ?_ hp7 ⟨hPf, hPDf⟩ ⟨hPz, hPDz⟩ ⟨hP, hPDs, hne⟩ hpage (fun y => ?_)
        (fun j => ?_) (fun j => ?_) hold7 ?_⟩
      · rw [← hs7, ← hs6, ← hs5, ← hs4, ← hs3, ← hs2, ← hs1]
        rfl
      · have hu7 : s7.used = insert PD (insert P s.used) := by
          rw [← hu3, ← hs7, ← hs6, ← hs5, ← hs4]
          rfl
        rw [hu7, Finset.mem_insert, Finset.mem_insert]
        constructor
        · rintro (h | h | h)
          exacts [.inr (.inr h), .inr (.inl h), .inl h]
        · rintro (h | h | h)
          exacts [.inr (.inr h), .inr (.inl h), .inl h]
      · by_cases hj : j = 0
        · rw [hm7, if_pos ⟨rfl, hj⟩, if_pos hj]
        · rw [hm7, if_neg fun h => hj h.2, if_neg hj, hm6, if_neg hne, hm5,
            if_neg fun h => hPp h.1, hm3, if_pos rfl]
      · rw [hm7, if_neg fun h => hne h.1.symm, hm6, if_pos rfl]
      · rw [hm7, if_neg fun h => hPp h.1.symm, hm6, if_neg hPDp.symm, hm5,
          if_neg fun h => absurd h.2 (by decide), hm3, if_neg hPp.symm, hm2,
          if_neg fun h => absurd h.2 (by decide)]
        exact hk.closed _ (by decide) le_rfl

namespace Constructed

variable (h : Constructed K s s' P PD) (hk : Kernel K s)
include h hk

theorem bare : Bare s' P PD K.shared := by
  have hframe : IsFrame K.shared := hk.shared ▸ isFrame_getAddr _
  refine ⟨?_, ?_, fun j hj _ => ?_⟩
  · rw [h.pdp, if_pos rfl, link_of_present (present_active _ _), getAddr_active _ h.frames.2]
  · rw [h.dir, if_pos rfl, link_of_present (present_active _ _), getAddr_active _ hframe]
  · have hj0 : ¬j = 0 := by omega
    rw [h.pdp, h.dir, if_neg hj0, if_neg hj0]
    exact ⟨rfl, rfl⟩

theorem live : Live K s' P := by
  have hpage : s.pagePT ∈ s.used := hk.used hk.base.2.1
  refine (h.bare hk).live h.fresh.2.2 h.frames.1 ?_
  rw [h.pagePT]
  rintro x (rfl | rfl)
  · exact ⟨(h.used x).mpr (.inr (.inl rfl)), h.ne_zero.1, fun hp => h.fresh.1 (hp ▸ hpage),
      fun hb => h.fresh.1 (hk.used hb)⟩
  · exact ⟨(h.used x).mpr (.inr (.inr rfl)), h.ne_zero.2, fun hp => h.fresh.2.1 (hp ▸ hpage),
      fun hb => h.fresh.2.1 (hk.used hb)⟩

end Constructed

/-! ### What an operation leaves alone -/

/-- Only the frames in `D`, frames that were free, and the common words have changed. -/
structure Local (K : KernelFrames) (s s' : Machine) (D : Nat → Prop) : Prop where
  kernel : Kernel K s'
  pagePT : s'.pagePT = s.pagePT
  mem : ∀ y ∈ s.used, ¬D y → ∀ j, ¬Common s y j → s'.mem y j = s.mem y j
  used : ∀ y ∈ s.used, ¬D y → y ∈ s'.used

/-- A user memory apart from `D` stays as it is. -/
theorem Local.other {D : Nat → Prop} (h : Local K s s' D) (hk : Kernel K s) (hQ : Live K s Q)
    (hD : ∀ y, Owned s Q y → ¬D y) :
    (∀ p, Own p → s'.linkAt Q p = s.linkAt Q p) ∧ Live K s' Q :=
  hQ.congr h.pagePT
    (fun y hy j => h.mem y (hy.used hQ.toSpace) (hD y hy) j (hQ.not_common hk hy))
    fun y hy => h.used y (hy.used hQ.toSpace) (hD y hy)

theorem not_common_of_window {y j : Nat} (h : ¬Common s y j) : ¬(y = s.pagePT ∧ IsWindow j) :=
  fun hw => h (.inl ⟨hw.1, isWindow_iff.mp hw.2⟩)

theorem Constructed.here (h : Constructed K s s' P PD) (hk : Kernel K s) :
    Local K s s' fun _ => False := by
  have hmem : ∀ y ∈ s.used, ∀ j, ¬Common s y j → s'.mem y j = s.mem y j := fun y hy j hw =>
    h.others y j (fun heq => h.fresh.1 (heq ▸ hy)) (fun heq => h.fresh.2.1 (heq ▸ hy))
      (not_common_of_window hw)
  have hused : ∀ y ∈ s.used, y ∈ s'.used := fun y hy => (h.used y).mpr (.inl hy)
  exact ⟨hk.congr h.pml4 h.pagePT (fun y hy => hmem y (hk.used hy)) h.closed
    fun y hy => hused y (hk.used hy), h.pagePT, fun y hy _ => hmem y hy, fun y hy _ => hused y hy⟩

theorem Cleared.here (h : Cleared s s' P PD) (hk : Kernel K s) (hP : Live K s P)
    (hPD : s.linkAt P [0] = some PD) : Local K s s' (Owned s P) where
  kernel := h.kernel hk hP hPD
  pagePT := h.pagePT
  mem y _ hno j hw := by
    refine h.mem y j ?_ hw
    rintro ⟨-, rfl | rfl⟩
    · exact hno ⟨[], .nil, rfl⟩
    · exact hno ⟨[0], .zero, hPD⟩
  used y hy hno := h.kept hy fun p hp hx => hno ⟨p, hp.1, hx⟩

theorem Filled.here {C CD : Nat} (h : Filled s s' C CD P PD) (hk : Kernel K s) (hC : Live K s C)
    (hCD : s.linkAt C [0] = some CD) : Local K s s' (Owned s C) where
  kernel := h.kernel hk hC hCD
  pagePT := h.pagePT
  mem _ hy hno j _ := h.kept hCD hy hno j
  used y hy _ := (h.used y).mpr (.inl hy)

theorem Grown.here {N : Nat → Prop} (h : Grown K s s' P N) : Local K s s' (Owned s' P) where
  kernel := h.kernel
  pagePT := h.pagePT
  mem y hy hno j hw := h.others y hy hno j (not_common_of_window hw)
  used y hy _ := (h.used y).mpr (.inl hy)

/-- `switchUser` writes only the first word of the PML4. -/
theorem switchUser_here (hk : Kernel K s) (hframe : IsFrame P) :
    ∃ s', s.switchUser P = .ok s' ∧ Local K s s' (fun _ => False) ∧ s'.used = s.used := by
  unfold switchUser
  rw [readAt_eq hk.view, ok_bind]
  by_cases hact : P = (s.mem s.pml4 0).getAddr
  · rw [if_pos hact]
    exact ⟨s, rfl, ⟨hk, rfl, fun _ _ _ _ _ => rfl, fun _ hy _ => hy⟩, rfl⟩
  · rw [if_neg hact, activeAddr_eq _ hframe, ok_bind, writeAt_eq hk.view]
    have hmem : ∀ y j, ¬Common s y j →
        (s.write s.pml4 0 ((s.mem s.pml4 0).active P)).mem y j = s.mem y j := fun y j hw => by
      rw [write_mem, if_neg fun h => hw (.inr h)]
    refine ⟨_, rfl, ⟨hk.congr rfl rfl (fun y _ => hmem y) (fun k h1 h2 => ?_) hk.used, rfl,
      fun y _ _ => hmem y, fun _ hy _ => hy⟩, rfl⟩
    rw [write_pagePT, write_mem, if_neg fun h => hk.apart.1 h.1.symm]
    exact hk.closed k h1 h2

/-! ### Destruction -/

/-- What the destructor leaves. -/
structure Destroyed (K : KernelFrames) (s s' : Machine) (P : Nat) : Prop where
  here : Local K s s' (Owned s P)
  used : ∀ x, x ∈ s'.used ↔ x ∈ s.used ∧ ¬Owned s P x

theorem destroy_destroyed (hk : Kernel K s) (hP : Live K s P) :
    ∃ s', s.destroy P = .ok s' ∧ Destroyed K s s' P := by
  obtain ⟨PD, hPD, -⟩ := hP.first
  obtain ⟨t, ht, hclr⟩ := clear_cleared hk hP hPD
  have hlive := hclr.live hk hP hPD
  have hkt := hclr.kernel hk hP hPD
  have hhere := hclr.here hk hP hPD
  have hbare := hclr.bare hk hP hPD
  have hPDt : t.linkAt P [0] = some PD := linkAt_one.trans hbare.first
  have hne : P ≠ PD := fun heq =>
    List.cons_ne_nil _ _ (hlive.tree [0] [] P .zero .nil (heq ▸ hPDt) rfl)
  obtain ⟨hPDu, -, -⟩ := hlive.live [0] PD .zero (List.cons_ne_nil _ _) hPDt
  have hP0 : (t.mem P 0).getAddr = PD := (link_eq_some.mp hbare.first).2
  -- The window of the PDP is opened.
  have hact := actTmp_eq (hkt.closed TMPPDPOFF le_rfl (by decide)) hP.frame
  generalize hu : t.write t.pagePT TMPPDPOFF ((t.mem t.pagePT TMPPDPOFF).active P) = u at hact
  have hpu : u.pagePT = t.pagePT := by rw [← hu]; rfl
  have hmu : ∀ y j, ¬(y = t.pagePT ∧ j = TMPPDPOFF) → u.mem y j = t.mem y j := fun y j hw => by
    rw [← hu, write_mem, if_neg hw]
  have huu : u.used = t.used := by rw [← hu]; rfl
  have hwu : u.window TMPPDPOFF = .ok P :=
    window_active (s := t) hP.frame (by rw [hpu, ← hu, write_mem, if_pos ⟨rfl, rfl⟩])
  have hfree : u.free PD = .ok { u with used := u.used.erase PD } := if_pos (huu ▸ hPDu)
  have hPu : P ∈ u.used.erase PD := Finset.mem_erase.mpr ⟨hne, huu ▸ hlive.used⟩
  have hrun : s.destroy P = .ok { ({ u with used := u.used.erase PD } : Machine).freeTmp TMPPDPOFF
      with used := (u.used.erase PD).erase P } := by
    unfold destroy
    rw [ht, ok_bind, hact, ok_bind, readAt_eq hwu, hmu P 0 fun h => hlive.ne_pagePT h.1, ok_bind,
      hP0, hfree, ok_bind]
    exact if_pos hPu
  have hmem : ∀ y j, ¬(y = t.pagePT ∧ j = TMPPDPOFF) →
      (({ u with used := u.used.erase PD } : Machine).freeTmp TMPPDPOFF).mem y j = t.mem y j := by
    intro y j hw
    rw [freeTmp_mem]
    exact (if_neg (by rwa [hpu])).trans (hmu y j hw)
  have hused : ∀ x, x ∈ (u.used.erase PD).erase P ↔ x ∈ s.used ∧ ¬Owned s P x := by
    intro x
    rw [Finset.mem_erase, Finset.mem_erase, huu, hclr.used x]
    constructor
    · rintro ⟨hxP, hxPD, hxs, hbelow⟩
      refine ⟨hxs, ?_⟩
      rintro ⟨p, hp, hx⟩
      by_cases hnil : p = []
      · subst hnil
        exact hxP (Option.some.inj hx).symm
      · by_cases hzero : p = [0]
        · subst hzero
          exact hxPD (Option.some.inj (hx.symm.trans hPD))
        · exact hbelow ⟨p, ⟨hp, hnil, hzero⟩, hx⟩
    · rintro ⟨hxs, hno⟩
      exact ⟨fun h => hno (h ▸ ⟨[], .nil, rfl⟩), fun h => hno (h ▸ ⟨[0], .zero, hPD⟩), hxs,
        fun ⟨p, hp, hx⟩ => hno ⟨p, hp.1, hx⟩⟩
  have hmems : ∀ y ∈ s.used, ¬Owned s P y → ∀ j, ¬Common s y j →
      (({ u with used := u.used.erase PD } : Machine).freeTmp TMPPDPOFF).mem y j = s.mem y j := by
    intro y hy hno j hw
    refine (hmem y j fun h => hw (.inl ⟨h.1.trans hclr.pagePT, h.2.ge, ?_⟩)).trans
      (hhere.mem y hy hno j hw)
    rw [h.2]
    decide
  refine ⟨_, hrun, ⟨?_, hpu.trans hclr.pagePT, hmems, fun y hy hno => (hused y).mpr ⟨hy, hno⟩⟩,
    hused⟩
  refine hk.congr ?_ (hpu.trans hclr.pagePT) (fun y hy => hmems y (hk.used hy) fun ho =>
    hP.base y ho hy) (fun k h1 h2 => ?_) fun y hy => (hused y).mpr ⟨hk.used hy, fun ho =>
      hP.base y ho hy⟩
  · refine Eq.trans ?_ hclr.pml4
    rw [← hu]
    rfl
  · by_cases hk1 : k = TMPPDPOFF
    · subst hk1
      change ((({ u with used := u.used.erase PD } : Machine).freeTmp TMPPDPOFF).mem u.pagePT
        TMPPDPOFF).present = false
      rw [freeTmp_mem]
      exact congrArg Entry.present (if_pos ⟨rfl, rfl⟩)
    · change ((({ u with used := u.used.erase PD } : Machine).freeTmp TMPPDPOFF).mem u.pagePT
        k).present = false
      rw [hmem _ _ fun h => hk1 h.2, hpu]
      exact hkt.closed k h1 h2

end Machine

end SupOS
