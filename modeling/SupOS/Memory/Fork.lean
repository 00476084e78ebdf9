import SupOS.Memory.Copy
import SupOS.Memory.Mapping
import SupOS.Memory.Spaces

/-! The copy of one user memory to another: the pages of the copy are new frames with the same words,
and nothing else has changed. -/

namespace SupOS

open Lib Entry

namespace Machine

variable {A : FrameAllocator} {s t u s' : Machine} {C P Q CD PD shared : Nat}
  {K : KernelFrames}

/-- What `copyPDs` leaves, where `CD` and `PD` are the first directories. -/
structure Filled (s s' : Machine) (C CD P PD : Nat) : Prop where
  pml4 : s'.pml4 = s.pml4
  pagePT : s'.pagePT = s.pagePT
  others : ∀ y ∈ s.used, y ≠ C → y ≠ CD → ∀ j, s'.mem y j = s.mem y j
  zero : s'.mem C 0 = s.mem C 0 ∧ s'.mem CD 0 = s.mem CD 0
  first : ∀ j, 1 ≤ j → j < 512 → EntryCopied (Copied s s' 1) (s.mem PD j) (s'.mem CD j)
  rest : ∀ j, 1 ≤ j → j < 512 → EntryCopied (Copied s s' 2) (s.mem P j) (s'.mem C j)
  fresh : ∀ p x, Below p → s'.linkAt C p = some x → x ∉ s.used ∧ x ≠ 0
  tree : Store.Tree link s'.mem C Own
  used : ∀ x, x ∈ s'.used ↔ x ∈ s.used ∨ ∃ p, Below p ∧ s'.linkAt C p = some x

/-- The frames below the first directory are as `copyPTs` has left them, and the rest of the PDP is
copied after that. -/
theorem Filled.of_copying (hP : Space s P shared) (hPD : s.linkAt P [0] = some PD)
    (hCD : (s.mem C 0).link = some CD) (hCs : C ∈ s.used) (hCDs : CD ∈ s.used) (hCC : C ≠ CD)
    (hCP : ¬Owned s P C) (hCDP : ¬Owned s P CD) (h1 : Copying s t CD PD 1 1 512)
    (h2 : Copying t u C P 1 2 512) : Filled s u C CD P PD := by
  have hst : ∀ y ∈ s.used, y ∈ t.used := fun y hy => (h1.used y).mpr (.inl hy)
  have hlink0 : (s.mem P 0).link = some PD := linkAt_one.symm.trans hPD
  -- The frames of the parent keep their words.
  have hparent : ∀ p y, Own p → s.linkAt P p = some y → y ∈ s.used ∧ y ≠ C ∧ y ≠ CD := by
    intro p y hp hy
    refine ⟨?_, fun h => hCP ⟨p, hp, h ▸ hy⟩, fun h => hCDP ⟨p, hp, h ▸ hy⟩⟩
    by_cases hne : p = []
    · subst hne
      rw [← Option.some.inj hy]
      exact hP.used
    · exact (hP.live p y hp hne hy).1
  have hPt : ∀ j, t.mem P j = s.mem P j := fun j => by
    obtain ⟨hy, -, hyCD⟩ := hparent [] P .nil rfl
    exact h1.others P hy hyCD j
  -- The frames below the first directory keep theirs in the second part.
  have hbelow : ∀ j p y, 1 ≤ j → j < 512 → From 0 1 p → t.linkAt CD (j :: p) = some y →
      y ∈ t.used ∧ y ∉ s.used := fun j p y hj hlt hp hy =>
    ⟨(h1.used y).mpr (.inr ⟨j, p, hj, hlt, hp, hy⟩), (h1.fresh j p y hj hlt hp hy).1⟩
  have hCDu : ∀ j, u.mem CD j = t.mem CD j := h2.others CD (hst CD hCDs) hCC.symm
  have hlinks : ∀ p, From 1 2 p → u.linkAt CD p = t.linkAt CD p := by
    intro p hp
    refine Store.descend_congr fun q k y hq hy => congrArg link ?_
    cases q with
    | nil =>
      obtain rfl := Option.some.inj hy
      exact hCDu k
    | cons j q =>
      have hjq : From 1 2 (j :: q) :=
        (From.closed 1 2).of_initial (List.IsPrefix.trans ⟨[k], rfl⟩ hq) hp
      obtain ⟨hq', hj, hlt⟩ := hjq.tail
      obtain ⟨hyt, hys⟩ := hbelow j q y hj hlt hq' hy
      exact h2.others y hyt (fun hyC => hys (hyC ▸ hCs)) k
  have hC0 : u.mem C 0 = s.mem C 0 := by
    rw [h2.rest 0 (by omega), h1.others C hCs hCC]
  have hClink : (u.mem C 0).link = some CD := by rw [hC0, hCD]
  have hfirst : ∀ j q, 1 ≤ j → j < 512 → From 0 1 q →
      u.linkAt C (0 :: j :: q) = t.linkAt CD (j :: q) := fun j q hj hlt hq => by
    rw [linkAt_cons _ hClink]
    exact hlinks _ (hq.cons hj hlt)
  -- Where the frame at the end of each path is.
  have hplace : ∀ p x, Own p → u.linkAt C p = some x → (p = [] ∧ x = C) ∨ (p = [0] ∧ x = CD) ∨
      (∃ j q, p = 0 :: j :: q ∧ 1 ≤ j ∧ j < 512 ∧ From 0 1 q ∧ t.linkAt CD (j :: q) = some x ∧
        x ∈ t.used ∧ x ∉ s.used) ∨
      ∃ i q, p = i :: q ∧ 1 ≤ i ∧ i < 512 ∧ From 0 2 q ∧ x ∉ t.used := by
    intro p x hp hx
    rcases hp.view with rfl | rfl | ⟨j, q, rfl, hj, hlt, hq⟩ | ⟨i, q, rfl, hi, hlt, hq⟩
    · exact .inl ⟨rfl, (Option.some.inj hx).symm⟩
    · exact .inr (.inl ⟨rfl, Option.some.inj (hx.symm.trans (linkAt_one.trans hClink))⟩)
    · have hx' := (hfirst j q hj hlt hq).symm.trans hx
      exact .inr (.inr (.inl ⟨j, q, rfl, hj, hlt, hq, hx', hbelow j q x hj hlt hq hx'⟩))
    · exact .inr (.inr (.inr ⟨i, q, rfl, hi, hlt, hq, (h2.fresh i q x hi hlt hq hx).1⟩))
  refine ⟨h2.pml4.trans h1.pml4, h2.pagePT.trans h1.pagePT, fun y hy hyC hyCD j => ?_,
    ⟨hC0, ?_⟩, fun j hj hlt => ?_, fun j hj hlt => ?_, fun p x hp hx => ?_,
    fun p q x hp hq hpx hqx => ?_, fun x => ?_⟩
  · rw [h2.others y (hst y hy) hyC, h1.others y hy hyCD]
  · rw [hCDu, h1.rest 0 (by omega)]
  · rw [hCDu]
    rcases h1.copied j hj hlt with hnone | ⟨hp, x, hx, he, hcopy⟩
    · exact .inl hnone
    · refine .inr ⟨hp, x, hx, he, hcopy.kept fun p y hyp hy k => ?_⟩
      have hlink : (t.mem CD j).link = some x := he ▸ link_withAddr hp hx
      obtain ⟨hyt, hys⟩ := hbelow j p y hj hlt hyp ((linkAt_cons p hlink).trans hy)
      exact h2.others y hyt (fun hyC => hys (hyC ▸ hCs)) k
  · have hcopied := h2.copied j hj hlt
    rw [hPt] at hcopied
    rcases hcopied with hnone | ⟨hp, x, hx, he, hcopy⟩
    · exact .inl hnone
    · refine .inr ⟨hp, x, hx, he, hcopy.source fun p y hyp hy k => ?_⟩
      obtain ⟨hys, -, hyCD⟩ := hparent (j :: p) y (.of_from (hyp.cons hj hlt))
        ((linkAt_cons p (link_of_present hp)).trans hy)
      exact h1.others y hys hyCD k
  · obtain ⟨hp, hne, hne0⟩ := hp
    rcases hp.view with rfl | rfl | ⟨j, q, rfl, hj, hlt, hq⟩ | ⟨i, q, rfl, hi, hlt, hq⟩
    · exact absurd rfl hne
    · exact absurd rfl hne0
    · exact h1.fresh j q x hj hlt hq ((hfirst j q hj hlt hq).symm.trans hx)
    · obtain ⟨hxt, hxz⟩ := h2.fresh i q x hi hlt hq hx
      exact ⟨fun hxs => hxt (hst x hxs), hxz⟩
  · rcases hplace p x hp hpx with ⟨rfl, rfl⟩ | ⟨rfl, rfl⟩ | ⟨j, r, rfl, hj, hlt, hr, hpx', hxt, hxs⟩ |
      ⟨i, r, rfl, hi, hlt, hr, hxt⟩ <;>
    rcases hplace q _ hq hqx with ⟨rfl, hxC⟩ | ⟨rfl, hxCD⟩ |
      ⟨j', r', rfl, hj', hlt', hr', hqx', hxt', hxs'⟩ | ⟨i', r', rfl, hi', hlt', hr', hxt'⟩
    · rfl
    · exact absurd hxCD hCC
    · exact absurd hCs hxs'
    · exact absurd (hst _ hCs) hxt'
    · exact absurd hxC.symm hCC
    · rfl
    · exact absurd hCDs hxs'
    · exact absurd (hst _ hCDs) hxt'
    · exact absurd (hxC ▸ hCs) hxs
    · exact absurd (hxCD ▸ hCDs) hxs
    · rw [h1.tree j r j' r' x hj hlt hr hj' hlt' hr' hpx' hqx']
    · exact absurd hxt hxt'
    · exact absurd (hst _ (hxC ▸ hCs)) hxt
    · exact absurd (hst _ (hxCD ▸ hCDs)) hxt
    · exact absurd hxt' hxt
    · exact h2.tree i r i' r' x hi hlt hr hi' hlt' hr' hpx hqx
  · rw [h2.used x, h1.used x, or_assoc]
    refine or_congr_right ⟨?_, ?_⟩
    · rintro (⟨j, p, hj, hlt, hp, hx⟩ | ⟨i, p, hi, hlt, hp, hx⟩)
      · exact ⟨0 :: j :: p, ⟨.cons_zero (hp.cons hj hlt), List.cons_ne_nil _ _, by simp⟩,
          (hfirst j p hj hlt hp).trans hx⟩
      · exact ⟨i :: p, ⟨.of_from (hp.cons hi hlt), List.cons_ne_nil _ _,
          fun heq => absurd (List.cons.inj heq).1 (by omega)⟩, hx⟩
    · rintro ⟨p, ⟨hp, hne, hne0⟩, hx⟩
      rcases hp.view with rfl | rfl | ⟨j, q, rfl, hj, hlt, hq⟩ | ⟨i, q, rfl, hi, hlt, hq⟩
      · exact absurd rfl hne
      · exact absurd rfl hne0
      · exact .inl ⟨j, q, hj, hlt, hq, (hfirst j q hj hlt hq).symm.trans hx⟩
      · exact .inr ⟨i, q, hi, hlt, hq, hx⟩

theorem copyPDs_filled (hP : Space s P shared) (hC : Space s C shared)
    (hPD : s.linkAt P [0] = some PD) (hCD : s.linkAt C [0] = some CD)
    (hdis : ∀ x, Owned s C x → ¬Owned s P x) :
    Ensures (s.copyPDs A C P) (· = .outOfMemory) fun s' => Filled s s' C CD P PD := by
  have hP0 : (s.mem P 0).link = some PD := linkAt_one.symm.trans hPD
  have hC0 : (s.mem C 0).link = some CD := linkAt_one.symm.trans hCD
  obtain ⟨hPpres, hPaddr⟩ := link_eq_some.mp hP0
  obtain ⟨hCpres, hCaddr⟩ := link_eq_some.mp hC0
  obtain ⟨hCDs, hCDz, -⟩ := hC.live [0] CD .zero (List.cons_ne_nil _ _) hCD
  have hCP : ¬Owned s P C := hdis C ⟨[], .nil, rfl⟩
  have hCDP : ¬Owned s P CD := hdis CD ⟨[0], .zero, hCD⟩
  have hCC : C ≠ CD := fun heq =>
    List.cons_ne_nil _ _ (hC.tree [0] [] C .zero .nil (heq ▸ hCD) rfl)
  have hlive : ∀ p y, Own p → s.linkAt P p = some y → y ∈ s.used ∧ y ≠ 0 := by
    intro p y hp hy
    by_cases hne : p = []
    · subst hne
      rw [← Option.some.inj hy]
      exact ⟨hP.used, hP.ne_zero⟩
    · obtain ⟨hys, hyz, -⟩ := hP.live p y hp hne hy
      exact ⟨hys, hyz⟩
  -- The first directory.
  have hsrc1 : Source s CD PD 1 2 := by
    refine ⟨fun p y hp hy => ?_, hCDs, hCDz⟩
    have hy' : s.linkAt P (0 :: p) = some y := (linkAt_cons p hP0).trans hy
    obtain ⟨hys, hyz⟩ := hlive _ y (.cons_zero hp) hy'
    exact ⟨hys, hyz, fun heq => hCDP ⟨_, .cons_zero hp, heq ▸ hy'⟩⟩
  have hfirst : s.copyPD A C P 0 = s.copyPTs A CD PD 1 := by
    unfold copyPD
    rw [if_pos hPpres, if_pos rfl, hPaddr]
    dsimp only
    rw [hCaddr, decide_eq_true hCDz, assert_true, ok_bind]
  have hround : CopyRound A (fun s g f => s.copyPTs A g f 0) C P 1
      (fun s i => s.copyPD A C P i) := by
    refine ⟨fun u i hp => ?_, fun u i hi hp hgf _ _ => ?_⟩
    · rw [copyPD, hp, if_neg Bool.false_ne_true]
      rfl
    · rw [copyPD, if_pos hp, if_neg (by omega)]
      refine (entry_first (k := fun s x y => do
        assert (x ≠ 0)
        s.copyPTs A x y 0) hgf).trans ?_
      cases hpick : A.pick u.used with
      | none => rw [alloc_none hpick]; rfl
      | some x =>
        obtain ⟨-, hxz, -⟩ := A.fresh _ _ hpick
        rw [alloc_some hpick, ok_bind, ok_bind]
        dsimp only
        rw [decide_eq_true hxz, assert_true, ok_bind]
  have hnz : (C ≠ 0 && P ≠ 0) = true := by simp [hC.ne_zero, hP.ne_zero]
  have hlist : List.range 512 = 0 :: List.range' 1 (512 - 1) := by
    rw [List.range_eq_range']
    exact List.range'_succ
  unfold copyPDs
  rw [hnz, assert_true, ok_bind, hlist, List.foldlM_cons, hfirst]
  refine (copyPTs_copying le_rfl hsrc1).bind fun t h1 => ?_
  have hPt : ∀ p y, Own p → s.linkAt P p = some y → ∀ j, t.mem y j = s.mem y j :=
    fun p y hp hy => h1.others y (hlive p y hp hy).1 fun heq => hCDP ⟨p, hp, heq ▸ hy⟩
  have hsrc2 : Source t C P 1 3 := by
    refine ⟨fun p y hp hy => ?_, (h1.used C).mpr (.inl hC.used), hC.ne_zero⟩
    have hsame : t.linkAt P p = s.linkAt P p := by
      refine Store.descend_congr fun q k z hq hz => congrArg link (hPt q z ?_ hz k)
      exact .of_from ((From.closed 1 3).of_initial (List.IsPrefix.trans ⟨[k], rfl⟩ hq) hp)
    have hy' := hsame.symm.trans hy
    obtain ⟨hys, hyz⟩ := hlive p y (.of_from hp) hy'
    exact ⟨(h1.used y).mpr (.inl hys), hyz, fun heq => hCP ⟨p, .of_from hp, heq ▸ hy'⟩⟩
  exact (hround.loop copyPTs_copies hsrc2 (by decide)).mono (fun _ he => he) fun u h2 =>
    .of_copying hP hPD hC0 hC.used hCDs hCC hCP hCDP h1 h2

/-- The frames of the copy: its two tables, and new ones. -/
theorem Filled.owned (h : Filled s s' C CD P PD) (hCD : s.linkAt C [0] = some CD)
    {x : Nat} : Owned s' C x ↔ x = C ∨ x = CD ∨ ∃ p, Below p ∧ s'.linkAt C p = some x := by
  have h0 : s'.linkAt C [0] = some CD := by
    rw [linkAt_one, h.zero.1]
    exact linkAt_one.symm.trans hCD
  constructor
  · rintro ⟨p, hp, hx⟩
    by_cases hne : p = []
    · subst hne
      exact .inl (Option.some.inj hx).symm
    · by_cases hne0 : p = [0]
      · subst hne0
        exact .inr (.inl (Option.some.inj (hx.symm.trans h0)))
      · exact .inr (.inr ⟨p, ⟨hp, hne, hne0⟩, hx⟩)
  · rintro (rfl | rfl | ⟨p, hp, hx⟩)
    · exact ⟨[], .nil, rfl⟩
    · exact ⟨[0], .zero, h0⟩
    · exact ⟨p, hp.1, hx⟩

/-- A frame in use before is not new in the copy. -/
theorem Filled.old (h : Filled s s' C CD P PD) (hCD : s.linkAt C [0] = some CD)
    {x : Nat} (hx : Owned s' C x) (hs : x ∈ s.used) : x = C ∨ x = CD := by
  rcases (h.owned hCD).mp hx with rfl | rfl | ⟨p, hp, hpx⟩
  · exact .inl rfl
  · exact .inr rfl
  · exact absurd hs (h.fresh p x hp hpx).1

theorem Filled.live (h : Filled s s' C CD P PD) (hk : Kernel K s) (hC : Live K s C)
    (hCD : s.linkAt C [0] = some CD) : Live K s' C where
  frame := hC.frame
  used := (h.used C).mpr (.inl hC.used)
  ne_zero := hC.ne_zero
  ne_pagePT := h.pagePT ▸ hC.ne_pagePT
  tree := h.tree
  live p x hp hne hx := by
    have hown : Owned s' C x := ⟨p, hp, hx⟩
    rw [h.pagePT]
    rcases (h.owned hCD).mp hown with rfl | rfl | ⟨q, hq, hqx⟩
    · exact ⟨(h.used x).mpr (.inl hC.used), hC.ne_zero, hC.ne_pagePT⟩
    · obtain ⟨hused, hz, hpage⟩ := hC.live [0] x .zero (List.cons_ne_nil _ _) hCD
      exact ⟨(h.used x).mpr (.inl hused), hz, hpage⟩
    · obtain ⟨hxs, hz⟩ := h.fresh q x hq hqx
      exact ⟨(h.used x).mpr (.inr ⟨q, hq, hqx⟩), hz, fun hpage => hxs
        (hpage ▸ hk.used hk.base.2.1)⟩
  first := by
    obtain ⟨CD', hCD', hfirst⟩ := hC.first
    obtain rfl := Option.some.inj (hCD.symm.trans hCD')
    refine ⟨CD, linkAt_one.trans ?_, by rw [h.zero.2, hfirst]⟩
    rw [h.zero.1]
    exact linkAt_one.symm.trans hCD
  base x hx hb := by
    rcases h.old hCD hx (hk.used hb) with rfl | rfl
    · exact hC.base x ⟨[], .nil, rfl⟩ hb
    · exact hC.base x ⟨[0], .zero, hCD⟩ hb

/-- The frames of the other user memories, and of the kernel, keep their words. -/
theorem Filled.kept (h : Filled s s' C CD P PD) (hCD : s.linkAt C [0] = some CD)
    {x : Nat} (hx : x ∈ s.used) (hnot : ¬Owned s C x) (j : Nat) : s'.mem x j = s.mem x j :=
  h.others x hx (fun heq => hnot (heq ▸ ⟨[], .nil, rfl⟩)) (fun heq => hnot ⟨[0], .zero, heq ▸ hCD⟩) j

theorem Filled.other (h : Filled s s' C CD P PD) (hCD : s.linkAt C [0] = some CD)
    (hQ : Live K s Q) (hdis : ∀ x, Owned s C x → ¬Owned s Q x) :
    (∀ x, Owned s Q x → ∀ j, s'.mem x j = s.mem x j) ∧
      (∀ p, Own p → s'.linkAt Q p = s.linkAt Q p) ∧ Live K s' Q := by
  have hmem : ∀ x, Owned s Q x → ∀ j, s'.mem x j = s.mem x j := fun x hx =>
    h.kept hCD (hx.used hQ.toSpace) fun hx' => hdis x hx' hx
  exact ⟨hmem, hQ.congr h.pagePT hmem fun x hx => (h.used x).mpr (.inl (hx.used hQ.toSpace))⟩

theorem Filled.kernel (h : Filled s s' C CD P PD) (hk : Kernel K s) (hC : Live K s C)
    (hCD : s.linkAt C [0] = some CD) : Kernel K s' := by
  have hmem : ∀ x ∈ K.base, ∀ j, s'.mem x j = s.mem x j := fun x hx =>
    h.kept hCD (hk.used hx) fun hx' => hC.base x hx' hx
  refine hk.congr h.pml4 h.pagePT (fun x hx j _ => hmem x hx j) (fun k h1 h2 => ?_) fun x hx =>
    (h.used x).mpr (.inl (hk.used hx))
  rw [h.pagePT, hmem _ hk.base.2.1]
  exact hk.closed k h1 h2

/-- The page tables of the two memories at the same place: none, or one is a copy of the other. -/
theorem Filled.table (h : Filled s s' C CD P PD) (hPD : s.linkAt P [0] = some PD)
    (hCD : s.linkAt C [0] = some CD) {i j : Nat} (hij : Own [i, j]) :
    (s.linkAt P [i, j] = none ∧ s'.linkAt C [i, j] = none) ∨
      ∃ f g, s.linkAt P [i, j] = some f ∧ s'.linkAt C [i, j] = some g ∧ Copied s s' 1 g f := by
  have hentry : ∀ f g, EntryCopied (Copied s s' 1) (s.mem f j) (s'.mem g j) →
      (s.linkAt f [j] = none ∧ s'.linkAt g [j] = none) ∨
        ∃ y z, s.linkAt f [j] = some y ∧ s'.linkAt g [j] = some z ∧ Copied s s' 1 z y := by
    intro f g he
    rw [linkAt_one, linkAt_one]
    rcases he with ⟨hnone, hblank⟩ | ⟨hp, x, hx, he, hcopy⟩
    · exact .inl ⟨link_of_not_present hnone, by rw [hblank]; rfl⟩
    · exact .inr ⟨_, x, link_of_present hp, by rw [he, link_withAddr hp hx], hcopy⟩
  rcases hij.view with hnil | hone | ⟨j', q, heq, hj, hlt, hq⟩ | ⟨i', q, heq, hi, hlt, hq⟩
  · exact absurd hnil (List.cons_ne_nil _ _)
  · exact absurd hone (by simp)
  · injection heq with hi heq
    injection heq with hj'
    subst hi hj'
    have hC0 : (s'.mem C 0).link = some CD := by
      rw [h.zero.1]
      exact linkAt_one.symm.trans hCD
    rw [linkAt_cons _ (linkAt_one.symm.trans hPD), linkAt_cons _ hC0]
    exact hentry PD CD (h.first j hj hlt)
  · injection heq with hi' hq'
    subst hi' hq'
    rcases h.rest i hi hlt with ⟨hnone, hblank⟩ | ⟨hp, x, hx, he, hcopy⟩
    · refine .inl ⟨Store.descend_cons_none _ (link_of_not_present hnone),
        Store.descend_cons_none _ ?_⟩
      rw [hblank]
      rfl
    · have hlink : (s'.mem C i).link = some x := he ▸ link_withAddr hp hx
      rw [linkAt_cons [j] (link_of_present hp), linkAt_cons [j] hlink]
      exact hentry _ x (hcopy j hq.tail.2.2)

/-! ### Pages -/

/-- The entry of the page at `v` that the processor finds from a user PDP. -/
def userPage (s : Machine) (P v : Nat) : Option Entry :=
  (Store.descend Entry.child s.mem P [getPDPindex v, getPDindex v]).bind fun PT =>
    if (s.mem PT (getPTindex v)).present then some (s.mem PT (getPTindex v)) else none

/-- A user memory without large pages. -/
def Plain (s : Machine) (P : Nat) : Prop :=
  ∀ p f i, Own (p ++ [i]) → p.length ≤ 1 → s.linkAt P p = some f → (s.mem f i).present = true →
    (s.mem f i).isSizeMega = false

/-- The page of a copy: absent, or another frame with the same words and an entry that differs only
in the address. -/
def PageCopied (s s' : Machine) : Option Entry → Option Entry → Prop
  | none, none => True
  | some e, some e' => ∃ x, IsFrame x ∧ e' = e.withAddr x ∧ ∀ j, s'.mem x j = s.mem e.getAddr j
  | _, _ => False

theorem child_eq_link {e : Entry} (h : e.present = true → e.isSizeMega = false) :
    e.child = e.link := by
  cases hp : e.present with
  | false => rw [child_of_not_present hp, link_of_not_present hp]
  | true => rw [child_of_present hp (h hp), link_of_present hp]

/-- The processor finds the page tables that the kernel finds. -/
theorem Plain.table (h : Plain s P) {i j : Nat} (hij : Own [i, j]) :
    Store.descend Entry.child s.mem P [i, j] = s.linkAt P [i, j] := by
  have hi : (s.mem P i).child = (s.mem P i).link :=
    child_eq_link (h [] P i (Own.closed [i] [j] hij) (Nat.zero_le 1) rfl)
  cases hlink : (s.mem P i).link with
  | none =>
    rw [linkAt, Store.descend_cons_none _ hlink, Store.descend_cons_none _ (hi.trans hlink)]
  | some f =>
    have hj : (s.mem f j).child = (s.mem f j).link :=
      child_eq_link (h [i] f j hij le_rfl (linkAt_one.trans hlink))
    rw [linkAt_cons [j] hlink, linkAt_one, Store.descend_cons [j] (hi.trans hlink), ← hj]
    exact Store.descend_snoc (p := []) j rfl

/-- The frame of a page is one of the memory's own. -/
theorem Plain.page (h : Plain s P) {v : Nat} (hv : UserAddr v) {e : Entry}
    (he : s.userPage P v = some e) :
    s.linkAt P ([getPDPindex v] ++ [getPDindex v] ++ [getPTindex v]) = some e.getAddr := by
  rw [userPage, h.table (own_table hv)] at he
  obtain ⟨PT, hPT, he⟩ := Option.bind_eq_some_iff.mp he
  have hpres : (s.mem PT (getPTindex v)).present = true := by
    by_contra hnot
    rw [if_neg hnot] at he
    exact Option.some_ne_none e he.symm
  rw [if_pos hpres] at he
  rw [← Option.some.inj he]
  exact (Store.descend_snoc _ hPT).trans (link_of_present hpres)

/-- The pages stay as they are when the frames of the memory keep their words. -/
theorem userPage_congr (h : Live K s Q) (hpl : Plain s Q) (hpt : t.pagePT = s.pagePT)
    (hmem : ∀ x, Owned s Q x → ∀ j, t.mem x j = s.mem x j) (hused : ∀ x, Owned s Q x → x ∈ t.used) :
    Plain t Q ∧ ∀ v, UserAddr v → t.userPage Q v = s.userPage Q v := by
  obtain ⟨hsame, -⟩ := h.congr hpt hmem hused
  have hplain : Plain t Q := by
    intro p f i hp hlen hf hpres
    have hp' : Own p := Own.closed p [i] hp
    have hf' := (hsame p hp').symm.trans hf
    rw [hmem f ⟨p, hp', hf'⟩] at hpres ⊢
    exact hpl p f i hp hlen hf' hpres
  refine ⟨hplain, fun v hv => ?_⟩
  have htable := own_table hv
  rw [userPage, userPage, hplain.table htable, hpl.table htable, hsame _ htable]
  cases hPT : s.linkAt Q [getPDPindex v, getPDindex v] with
  | none => rfl
  | some PT =>
    rw [Option.bind_some, Option.bind_some, hmem PT ⟨_, htable, hPT⟩]

theorem Filled.plain (h : Filled s s' C CD P PD) (hPD : s.linkAt P [0] = some PD)
    (hCD : s.linkAt C [0] = some CD) (hP : Plain s P) (hC : Plain s C) : Plain s' C := by
  have hentry : ∀ {d} {e e' : Entry}, EntryCopied (Copied s s' d) e e' → e'.present = true →
      (e.present = true → e.isSizeMega = false) → e'.isSizeMega = false := by
    rintro d e e' (⟨-, rfl⟩ | ⟨hp, x, -, rfl, -⟩) hpres hm
    · exact absurd hpres Bool.false_ne_true
    · exact hm hp
  intro p f i hp hlen hf hpres
  cases p with
  | nil =>
    obtain rfl := Option.some.inj hf
    rcases Nat.eq_zero_or_pos i with rfl | hi
    · rw [h.zero.1] at hpres ⊢
      exact hC [] C 0 hp hlen rfl hpres
    · have hlt : i < 512 := hp.path.lt i List.mem_cons_self
      exact hentry (h.rest i hi hlt) hpres (hP [] P i hp hlen rfl)
  | cons k p =>
    obtain rfl : p = [] := List.length_eq_zero_iff.mp (Nat.le_zero.mp (Nat.le_of_succ_le_succ hlen))
    have hki : Own [k, i] := hp
    have hlt : i < 512 := hki.path.lt i (List.mem_cons_of_mem _ List.mem_cons_self)
    rw [linkAt_one] at hf
    rcases Nat.eq_zero_or_pos k with rfl | hk
    · have hCf : CD = f := by
        rw [h.zero.1, ← linkAt_one, hCD] at hf
        exact Option.some.inj hf
      subst hCf
      have hi : 1 ≤ i := by
        rcases Nat.eq_zero_or_pos i with rfl | hi
        · exact absurd List.prefix_rfl hki.apart
        · exact hi
      exact hentry (h.first i hi hlt) hpres (hP [0] PD i hp hlen hPD)
    · have hklt : k < 512 := hki.path.lt k List.mem_cons_self
      rcases h.rest k hk hklt with ⟨-, hblank⟩ | ⟨hpk, x, hx, he, hcopy⟩
      · rw [hblank] at hf
        exact absurd hf (Option.some_ne_none f).symm
      · rw [he, link_withAddr hpk hx] at hf
        obtain rfl := Option.some.inj hf
        exact hentry (hcopy i hlt) hpres
          (hP [k] _ i hp hlen (linkAt_one.trans (link_of_present hpk)))

theorem Filled.pages (h : Filled s s' C CD P PD) (hPD : s.linkAt P [0] = some PD)
    (hCD : s.linkAt C [0] = some CD) (hP : Plain s P) (hC : Plain s C) {v : Nat} (hv : UserAddr v) :
    PageCopied s s' (s.userPage P v) (s'.userPage C v) := by
  have htable := own_table hv
  rw [userPage, userPage, hP.table htable, (h.plain hPD hCD hP hC).table htable]
  rcases h.table hPD hCD htable with ⟨hf, hg⟩ | ⟨f, g, hf, hg, hcopy⟩
  · rw [hf, hg]
    exact trivial
  · rw [hf, hg, Option.bind_some, Option.bind_some]
    rcases hcopy (getPTindex v) (Nat.mod_lt _ (by decide)) with ⟨hnone, hblank⟩ | ⟨hp, x, hx, he, hw⟩
    · rw [hnone, hblank]
      exact trivial
    · have hp' : (s'.mem g (getPTindex v)).present = true := by rw [he]; exact hp
      rw [if_pos hp, if_pos hp']
      exact ⟨x, hx, he, hw⟩

/-! ### Assignment -/

/-- What the assignment of the user memory at `P` to the one at `C` leaves. -/
structure Forked (K : KernelFrames) (s s' : Machine) (C P : Nat) : Prop where
  pages : ∀ v, UserAddr v → PageCopied s s' (s.userPage P v) (s'.userPage C v)
  /-- A frame of the copy was free, at the latest after the copy's old frames were freed. -/
  fresh : ∀ x, Owned s' C x → x ∈ s.used → Owned s C x
  distinct : ∀ v w e e', UserAddr v → UserAddr w → s'.userPage C v = some e →
    s'.userPage C w = some e' → e.getAddr = e'.getAddr → v / 0x1000 = w / 0x1000
  tree : Store.Tree link s'.mem C Own
  /-- No frame of the copy is in another user memory. -/
  apart : ∀ Q, Live K s Q → (∀ x, Owned s C x → ¬Owned s Q x) → ∀ x, Owned s' C x → ¬Owned s' Q x
  common : ∃ CD PD, s'.linkAt C [0] = some CD ∧ s'.linkAt P [0] = some PD ∧
    (s'.mem CD 0).link = some K.shared ∧ (s'.mem PD 0).link = some K.shared
  parent : ∀ x, Owned s P x → ∀ j, s'.mem x j = s.mem x j
  parentPages : ∀ v, UserAddr v → s'.userPage P v = s.userPage P v
  others : ∀ x ∈ s.used, ¬Owned s C x → ∀ j, ¬Common s x j → s'.mem x j = s.mem x j
  wellFormed : Kernel K s' ∧ (Live K s' C ∧ Plain s' C) ∧ Live K s' P ∧ Plain s' P

theorem PageCopied.source {a b : Option Entry} (h : PageCopied t s' a b)
    (hmem : ∀ e, a = some e → ∀ j, t.mem e.getAddr j = s.mem e.getAddr j) : PageCopied s s' a b := by
  cases a with
  | none =>
    cases b with
    | none => exact trivial
    | some e' => exact h
  | some e =>
    cases b with
    | none => exact h
    | some e' =>
      obtain ⟨x, hx, he, hw⟩ := h
      exact ⟨x, hx, he, fun j => (hw j).trans (hmem e rfl j)⟩

/-- Pages at different addresses are at the ends of different paths. -/
theorem Plain.page_inj (h : Plain s C) (ht : Store.Tree link s.mem C Own) {v w : Nat} {e e' : Entry}
    (hv : UserAddr v) (hw : UserAddr w) (he : s.userPage C v = some e)
    (he' : s.userPage C w = some e') (haddr : e.getAddr = e'.getAddr) : v / 0x1000 = w / 0x1000 := by
  have hpath := ht _ _ _ (own_page hv) (own_page hw) (h.page hv he) (haddr ▸ h.page hw he')
  obtain ⟨h3, hpath⟩ := List.cons.inj hpath
  obtain ⟨h2, hpath⟩ := List.cons.inj hpath
  obtain ⟨h1, -⟩ := List.cons.inj hpath
  obtain ⟨-, hv⟩ := hv
  obtain ⟨-, hw⟩ := hw
  simp only [getPDPindex, getPDindex, getPTindex, Nat.shiftRight_eq_div_pow] at h1 h2 h3
  omega

theorem Cleared.plain (h : Cleared s s' C CD) (hk : Kernel K s) (hC : Live K s C)
    (hCD : s.linkAt C [0] = some CD) (hpl : Plain s C) : Plain s' C := by
  intro p f i hp hlen hf hpres
  have hlt : i < 512 := hp.path.lt i (List.mem_append_right _ List.mem_cons_self)
  obtain ⟨hC0, hCD0⟩ := h.zero hk hC hCD
  rcases (h.bare hk hC hCD).links (Own.closed p [i] hp) hf with ⟨rfl, rfl⟩ | ⟨rfl, rfl⟩
  · rcases Nat.eq_zero_or_pos i with rfl | hi
    · rw [hC0] at hpres ⊢
      exact hpl [] f 0 hp hlen rfl hpres
    · rw [(h.absent i hi hlt).1] at hpres
      exact absurd hpres Bool.false_ne_true
  · rcases Nat.eq_zero_or_pos i with rfl | hi
    · exact absurd List.prefix_rfl hp.apart
    · rw [(h.absent i hi hlt).2] at hpres
      exact absurd hpres Bool.false_ne_true

/-- A frame that a cleared memory still owns was its own before. -/
theorem Cleared.owned (h : Cleared s s' C CD) (hk : Kernel K s) (hC : Live K s C)
    (hCD : s.linkAt C [0] = some CD) {x : Nat} (hx : Owned s' C x) : Owned s C x := by
  rcases (h.bare hk hC hCD).owned.mp hx with rfl | rfl
  · exact ⟨[], .nil, rfl⟩
  · exact ⟨[0], .zero, hCD⟩

/-- After the assignment of a user memory to another, the copy maps the same pages to new frames with
the same words, shares no table or frame with any other memory but the first page table, and the
memory copied is unchanged. -/
theorem assign_forked (hk : Kernel K s) (hC : Live K s C) (hP : Live K s P) (hCpl : Plain s C)
    (hPpl : Plain s P) (hdis : ∀ x, Owned s C x → ¬Owned s P x) :
    Ensures (s.assign A C P) (· = .outOfMemory) fun s' => Forked K s s' C P := by
  obtain ⟨CD, hCD, -⟩ := hC.first
  obtain ⟨PD, hPD, -⟩ := hP.first
  obtain ⟨t, ht, hclr⟩ := clear_cleared hk hC hCD
  obtain ⟨hPmem, hPsame, hPt⟩ := hclr.other hk hC hCD hP hdis
  have hkt := hclr.kernel hk hC hCD
  have hCt := hclr.live hk hC hCD
  obtain ⟨hPplt, hPpages⟩ := userPage_congr hP hPpl hclr.pagePT hPmem fun x hx =>
    (((owned_congr hPsame x).mpr hx).used hPt.toSpace)
  have hCplt := hclr.plain hk hC hCD hCpl
  have hCDt : t.linkAt C [0] = some CD := by
    rw [linkAt_one, (hclr.zero hk hC hCD).1]
    exact linkAt_one.symm.trans hCD
  have hPDt : t.linkAt P [0] = some PD := (hPsame [0] .zero).trans hPD
  have hdist : ∀ x, Owned t C x → ¬Owned t P x := fun x hx hx' =>
    hdis x (hclr.owned hk hC hCD hx) ((owned_congr hPsame x).mp hx')
  unfold assign
  rw [ht, ok_bind]
  refine (copyPDs_filled hPt.toSpace hCt.toSpace hPDt hCDt hdist).mono (fun _ he => he)
    fun s' hf => ?_
  obtain ⟨hPmem', hPsame', hPlive'⟩ := hf.other hCDt hPt hdist
  obtain ⟨hPpl', hPpages'⟩ := userPage_congr hPt hPplt hf.pagePT hPmem' fun x hx =>
    (((owned_congr hPsame' x).mpr hx).used hPlive'.toSpace)
  have hClive' := hf.live hkt hCt hCDt
  have hCpl' := hf.plain hPDt hCDt hPplt hCplt
  have hparent : ∀ x, Owned s P x → ∀ j, s'.mem x j = s.mem x j := fun x hx j =>
    (hPmem' x ((owned_congr hPsame x).mpr hx) j).trans (hPmem x hx j)
  have hfresh : ∀ x, Owned s' C x → x ∈ s.used → Owned s C x := by
    intro x hx hxs
    by_contra hnot
    have hxt : x ∈ t.used := hclr.kept hxs fun p hp hpx => hnot ⟨p, hp.1, hpx⟩
    rcases hf.old hCDt hx hxt with rfl | rfl
    · exact hnot ⟨[], .nil, rfl⟩
    · exact hnot ⟨[0], .zero, hCD⟩
  refine ⟨fun v hv => ?_, hfresh, fun v w e e' hv hw he he' => hCpl'.page_inj hf.tree hv hw he he',
    hf.tree, fun Q hQ hdisQ x hx hxQ => ?_, ?_, hparent, fun v hv => ?_, fun x hx hnot j hw => ?_,
    hf.kernel hkt hCt hCDt, ⟨hClive', hCpl'⟩, hPlive', hPpl'⟩
  · have hpage := hf.pages hPDt hCDt hPplt hCplt hv
    rw [hPpages v hv] at hpage
    exact hpage.source fun e he => hPmem _ ⟨_, own_page hv, hPpl.page hv he⟩
  · obtain ⟨hQmem, hQsame, hQt⟩ := hclr.other hk hC hCD hQ hdisQ
    have hdisQt : ∀ y, Owned t C y → ¬Owned t Q y := fun y hy hy' =>
      hdisQ y (hclr.owned hk hC hCD hy) ((owned_congr hQsame y).mp hy')
    obtain ⟨-, hQsame', -⟩ := hf.other hCDt hQt hdisQt
    have hxQs : Owned s Q x := (owned_congr hQsame x).mp ((owned_congr hQsame' x).mp hxQ)
    exact hdisQ x (hfresh x hx (hxQs.used hQ.toSpace)) hxQs
  · obtain ⟨CD', hCD', hCfirst⟩ := hClive'.first
    obtain ⟨PD', hPD', hPfirst⟩ := hPlive'.first
    exact ⟨CD', PD', hCD', hPD', hCfirst, hPfirst⟩
  · rw [hPpages' v hv, hPpages v hv]
  · have hxt : x ∈ t.used := hclr.kept hx fun p hp hpx => hnot ⟨p, hp.1, hpx⟩
    rw [hf.kept hCDt hxt fun hx' => hnot (hclr.owned hk hC hCD hx')]
    refine hclr.mem x j ?_ hw
    rintro ⟨-, rfl | rfl⟩
    · exact hnot ⟨[], .nil, rfl⟩
    · exact hnot ⟨[0], .zero, hCD⟩

/-! ### Two memories -/

/-- The present entries of `pair`, by their tables and numbers: the kernel's tables, a user memory at
`0x8000` with one page, at `0x200000`, and an empty one at `0xC000`; the first is active. -/
def pairEntries : List ((Nat × Nat) × Nat) :=
  [((0x1000, 0), 0x8000), ((0x4000, 0), 0x1000), ((0x4000, 6), 0x5000), ((0x4000, 7), 0x6000),
    ((0x6000, 0), 0x7000), ((0x8000, 0), 0x9000), ((0x9000, 0), 0x7000), ((0x9000, 1), 0xA000),
    ((0xA000, 0), 0xB000), ((0xC000, 0), 0xD000), ((0xD000, 0), 0x7000)]

/-- The tables with the given present entries. -/
def tablesOf (entries : List ((Nat × Nat) × Nat)) (f i : Nat) : Entry :=
  match entries.lookup (f, i) with
  | some g => Entry.blank.active g
  | none => Entry.blank

def pair : Machine where
  mem := tablesOf pairEntries
  pml4 := 0x1000
  pagePT := 0x4000
  used := {0x1000, 0x4000, 0x5000, 0x6000, 0x7000, 0x8000, 0x9000, 0xA000, 0xB000, 0xC000, 0xD000}

def pairKernel : KernelFrames where
  firstPD := 0x6000
  shared := 0x7000
  default := 0x5000
  base := {0x1000, 0x4000, 0x5000, 0x6000, 0x7000}

/-- The memory and the path of a frame of `pair`. -/
def pairPath (x : Nat) : Nat × List Nat :=
  if x = 0x9000 then (0x8000, [0]) else if x = 0xA000 then (0x8000, [0, 1])
  else if x = 0xB000 then (0x8000, [0, 1, 0]) else if x = 0xD000 then (0xC000, [0]) else (x, [])

theorem pair_mem {f i g : Nat} (h : pairEntries.lookup (f, i) = some g) :
    pair.mem f i = Entry.blank.active g := by
  simp only [pair, tablesOf, h]

theorem pair_link {f i g : Nat} (h : (pair.mem f i).link = some g) :
    ((f, i), g) ∈ pairEntries := by
  have hframe : ∀ e ∈ pairEntries, IsFrame e.2 := by decide
  cases hl : pairEntries.lookup (f, i) with
  | none =>
    simp only [pair, tablesOf, hl] at h
    exact absurd h (Option.some_ne_none g).symm
  | some a =>
    obtain ⟨l₁, l₂, heq, -⟩ := List.lookup_eq_some_iff.mp hl
    have hmem : ((f, i), a) ∈ pairEntries := heq ▸ List.mem_append_right l₁ List.mem_cons_self
    rw [pair_mem hl, link_of_present (present_active _ _), getAddr_active _ (hframe _ hmem)] at h
    exact Option.some.inj h ▸ hmem

theorem pair_linkAt {r : Nat} (hr : r = 0x8000 ∨ r = 0xC000) {p : List Nat} {x : Nat} (hp : Own p)
    (hx : pair.linkAt r p = some x) :
    pairPath x = (r, p) ∧ x ∈ pair.used \ pairKernel.base := by
  induction p using List.reverseRecOn generalizing x with
  | nil =>
    obtain rfl := Option.some.inj hx
    rcases hr with rfl | rfl <;> decide
  | append_singleton p i ih =>
    obtain ⟨f, hf, hlink⟩ := Store.descend_prefix hx
    obtain ⟨hpath, hmem⟩ := ih (Own.closed _ _ hp) hf
    -- The paths of the entries of the frames outside of the base.
    have hstep : ∀ e ∈ pairEntries, e.1.1 ∈ pair.used \ pairKernel.base →
        ((pairPath e.1.1).2 = [0] ∧ e.1.2 = 0) ∨ (e.2 ∈ pair.used \ pairKernel.base ∧
          pairPath e.2 = ((pairPath e.1.1).1, (pairPath e.1.1).2 ++ [e.1.2])) := by decide
    rcases hstep _ (pair_link (linkAt_one.symm.trans hlink)) hmem with ⟨hzero, rfl⟩ | ⟨hused, heq⟩
    · rw [hpath] at hzero
      obtain rfl : p = [0] := hzero
      exact absurd List.prefix_rfl hp.apart
    · rw [hpath] at heq
      exact ⟨heq, hused⟩

theorem pair_live {r : Nat} (hr : r = 0x8000 ∨ r = 0xC000) : Live pairKernel pair r where
  frame := by rcases hr with rfl | rfl <;> decide
  used := by rcases hr with rfl | rfl <;> decide
  ne_zero := by rcases hr with rfl | rfl <;> decide
  ne_pagePT := by rcases hr with rfl | rfl <;> decide
  tree p q x hp hq hpx hqx :=
    congrArg Prod.snd ((pair_linkAt hr hp hpx).1.symm.trans (pair_linkAt hr hq hqx).1)
  live p x hp _ hx := by
    obtain ⟨hused, hbase⟩ := Finset.mem_sdiff.mp (pair_linkAt hr hp hx).2
    refine ⟨hused, ?_, ?_⟩
    · rintro rfl
      exact absurd hused (by decide)
    · rintro rfl
      exact absurd (by decide) hbase
  first := by
    rcases hr with rfl | rfl
    · exact ⟨0x9000, by decide, by decide⟩
    · exact ⟨0xD000, by decide, by decide⟩
  base x := by
    rintro ⟨p, hp, hx⟩
    exact (Finset.mem_sdiff.mp (pair_linkAt hr hp hx).2).2

theorem pair_plain (r : Nat) : Plain pair r := by
  intro p f i _ _ _ _
  simp only [pair, tablesOf]
  split <;> rfl

theorem pair_kernel : Kernel pairKernel pair where
  closed k h1 h2 := by
    unfold TMPPDPOFF at h1
    unfold TMPPTOFF at h2
    obtain rfl | rfl | rfl : k = 0xA ∨ k = 0xB ∨ k = 0xC := by omega
    all_goals decide
  view := by decide
  firstPD := by decide
  shared := by decide
  shared_ne := by decide
  default := by decide
  base := by decide
  base_shared := by decide
  apart := by decide
  used := by decide

theorem pair_apart (x : Nat) : Owned pair 0xC000 x → ¬Owned pair 0x8000 x := by
  rintro ⟨p, hp, hx⟩ ⟨q, hq, hx'⟩
  have hroot := (pair_linkAt (.inr rfl) hp hx).1.symm.trans (pair_linkAt (.inl rfl) hq hx').1
  exact absurd (Prod.mk.inj hroot).1 (by decide)

theorem assign_forked_pair : pair.assign lowest 0xC000 0x8000 = .error .outOfMemory ∨
    ∃ s', pair.assign lowest 0xC000 0x8000 = .ok s' ∧ Forked pairKernel pair s' 0xC000 0x8000 := by
  have hk := pair_kernel
  have hC := pair_live (.inr rfl)
  have hP := pair_live (.inl rfl)
  have hpl := pair_plain
  have hdis := pair_apart
  -- The machine is not to be evaluated.
  generalize pair = s at *
  exact (assign_forked hk hC hP (hpl _) (hpl _) hdis).ok_or

end Machine

end SupOS
