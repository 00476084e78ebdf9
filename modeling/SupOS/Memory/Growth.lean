import SupOS.Memory.Spaces

/-! What the mapping of a page adds to the active user memory: the page, and the tables that were
missing. -/

namespace SupOS

open Lib Entry

namespace Machine

variable {A : FrameAllocator} {K : KernelFrames} {s t u s' : Machine} {P x g i : Nat} {p : List Nat}
  {N N' : Nat → Prop}

/-- An absent entry of a table gets to refer to a new frame. -/
theorem Live.attach (h : Live K s P) (hpt : s'.pagePT = s.pagePT) (hpi : Own (p ++ [i]))
    (hx : s.linkAt P p = some x) (hnone : (s.mem x i).link = none)
    (hsome : (s'.mem x i).link = some g) (hblank : ∀ j, Own (p ++ [i, j]) → (s'.mem g j).link = none)
    (hmem : ∀ y, Owned s P y → ∀ j, ¬(y = x ∧ j = i) → s'.mem y j = s.mem y j)
    (hg : ¬Owned s P g) (hgz : g ≠ 0) (hgb : g ∉ K.base) (hgp : g ≠ s.pagePT)
    (hused : ∀ y, Owned s P y ∨ y = g → y ∈ s'.used) :
    Live K s' P ∧ s'.linkAt P (p ++ [i]) = some g ∧
      (∀ q y, Own q → s.linkAt P q = some y → s'.linkAt P q = some y) ∧
      ∀ y, Owned s' P y ↔ Owned s P y ∨ y = g := by
  have hp : Own p := Own.closed p [i] hpi
  have hlinks : ∀ q, Own q → s'.linkAt P q = if q = p ++ [i] then some g else s.linkAt P q :=
    fun q hq => Store.descend_attach Own.closed h.tree hp hx hnone hsome hblank
      (fun q j y hqj hy hne => congrArg link (hmem y ⟨q, Own.closed q [j] hqj, hy⟩ j hne)) hq
  have hlast : s.linkAt P (p ++ [i]) = none := (Store.descend_snoc i hx).trans hnone
  have hold : ∀ q y, s.linkAt P q = some y → q ≠ p ++ [i] := fun q y hy heq =>
    Option.some_ne_none y (hy.symm.trans (heq ▸ hlast))
  have hkeep : ∀ q y, Own q → s.linkAt P q = some y → s'.linkAt P q = some y := fun q y hq hy => by
    rw [hlinks q hq, if_neg (hold q y hy), hy]
  have hcases : ∀ q y, Own q → s'.linkAt P q = some y →
      (q = p ++ [i] ∧ y = g) ∨ s.linkAt P q = some y := by
    intro q y hq hy
    rw [hlinks q hq] at hy
    split at hy
    · exact .inl ⟨‹_›, (Option.some.inj hy).symm⟩
    · exact .inr hy
  have howned : ∀ y, Owned s' P y ↔ Owned s P y ∨ y = g := by
    intro y
    constructor
    · rintro ⟨q, hq, hy⟩
      rcases hcases q y hq hy with ⟨-, rfl⟩ | hy
      · exact .inr rfl
      · exact .inl ⟨q, hq, hy⟩
    · rintro (⟨q, hq, hy⟩ | rfl)
      · exact ⟨q, hq, hkeep q y hq hy⟩
      · exact ⟨p ++ [i], hpi, by rw [hlinks _ hpi, if_pos rfl]⟩
  obtain ⟨PD, hPD, hfirst⟩ := h.first
  refine ⟨⟨⟨h.frame, hused P (.inl ⟨[], .nil, rfl⟩), h.ne_zero, hpt ▸ h.ne_pagePT, ?_,
    fun q y hq hne hy => ?_, PD, ?_, ?_⟩, fun y hy => ?_⟩, by rw [hlinks _ hpi, if_pos rfl], hkeep, howned⟩
  · intro q r y hq hr hqy hry
    rcases hcases q y hq hqy with ⟨rfl, rfl⟩ | hqy <;>
    rcases hcases r _ hr hry with ⟨rfl, heq⟩ | hry
    · rfl
    · exact absurd ⟨r, hr, hry⟩ hg
    · exact absurd ⟨q, hq, heq ▸ hqy⟩ hg
    · exact h.tree q r y hq hr hqy hry
  · rcases hcases q y hq hy with ⟨-, rfl⟩ | hy
    · exact ⟨hused y (.inr rfl), hgz, hpt ▸ hgp⟩
    · obtain ⟨-, hz, hpage⟩ := h.live q y hq hne hy
      exact ⟨hused y (.inl ⟨q, hq, hy⟩), hz, hpt ▸ hpage⟩
  · exact hkeep [0] PD .zero hPD
  · rw [hmem PD ⟨[0], .zero, hPD⟩ 0 ?_, hfirst]
    rintro ⟨rfl, rfl⟩
    obtain rfl := h.tree p [0] PD hp .zero hx hPD
    exact hpi.apart List.prefix_rfl
  · rcases (howned y).mp hy with hy | rfl
    · exact h.base y hy
    · exact hgb

/-- The memory at `P` has got the frames in `N`, and the other frames keep their words. -/
structure Grown (K : KernelFrames) (s s' : Machine) (P : Nat) (N : Nat → Prop) : Prop where
  kernel : Kernel K s'
  live : Live K s' P
  pml4 : s'.pml4 = s.pml4
  pagePT : s'.pagePT = s.pagePT
  others : ∀ y ∈ s.used, ¬Owned s' P y → ∀ j, ¬(y = s.pagePT ∧ IsWindow j) → s'.mem y j = s.mem y j
  links : ∀ q y, Own q → s.linkAt P q = some y → s'.linkAt P q = some y
  owned : ∀ y, Owned s' P y ↔ Owned s P y ∨ N y
  used : ∀ y, y ∈ s'.used ↔ y ∈ s.used ∨ N y

theorem Grown.trans (h : Grown K s t P N) (h' : Grown K t s' P N') :
    Grown K s s' P fun y => N y ∨ N' y where
  kernel := h'.kernel
  live := h'.live
  pml4 := h'.pml4.trans h.pml4
  pagePT := h'.pagePT.trans h.pagePT
  others y hy hnot j hw := by
    have hnot' : ¬Owned t P y := fun ho => hnot ((h'.owned y).mpr (.inl ho))
    rw [h'.others y ((h.used y).mpr (.inl hy)) hnot j (by rwa [h.pagePT]), h.others y hy hnot' j hw]
  links q y hq hy := h'.links q y hq (h.links q y hq hy)
  owned y := by rw [h'.owned y, h.owned y, or_assoc]
  used y := by rw [h'.used y, h.used y, or_assoc]

theorem isWindow_iff {k : Nat} : IsWindow k ↔ TMPPDPOFF ≤ k ∧ k ≤ TMPPTOFF := by
  unfold IsWindow TMPPDPOFF TMPPDOFF TMPPTOFF
  omega

theorem Kernel.quiet (h : Kernel K s) : s.Quiet where
  closed k hk := h.closed k (isWindow_iff.mp hk).1 (isWindow_iff.mp hk).2
  used := h.used h.base.2.1

/-- The kernel's frames after a change that spares them. -/
theorem Kernel.changed {D : Nat → Nat → Prop} (h : Kernel K s) (hc : s.Changed s' D)
    (hD : ∀ y j, D y j → y ∉ K.base) (hused : s.used ⊆ s'.used) : Kernel K s' := by
  refine h.congr hc.pml4 hc.pagePT (fun y hy j hw => hc.mem y j (fun hd => hD y j hd hy) ?_)
    (fun k h1 h2 => ?_) (h.used.trans hused)
  · exact fun hp => hw (.inl ⟨hp.1, isWindow_iff.mp hp.2⟩)
  · rw [hc.pagePT]
    exact hc.closed k (isWindow_iff.mpr ⟨h1, h2⟩)

theorem Live.not_window (h : Live K s P) (hk : Kernel K s) {y j : Nat} (hy : Owned s P y) :
    ¬(y = s.pagePT ∧ IsWindow j) := fun hw => h.base y hy (hw.1 ▸ hk.base.2.1)

/-- A table that was found or made is in its place. -/
theorem Got.grown (hk : Kernel K s) (h : Live K s P) (hpi : Own (p ++ [i]))
    (hx : s.linkAt P p = some x) (hg : Got s x i (g, s')) :
    ∃ N, Grown K s s' P N ∧ (∀ y, N y → y ∉ s.used) ∧ s'.linkAt P (p ++ [i]) = some g := by
  have hxo : Owned s P x := ⟨p, Own.closed p [i] hpi, hx⟩
  cases hg with
  | present hp used changed =>
    have hmem : ∀ y, Owned s P y → ∀ j, s'.mem y j = s.mem y j := fun y hy j =>
      changed.mem y j (fun hd => hd) (h.not_window hk hy)
    obtain ⟨hsame, hlive⟩ := h.congr changed.pagePT hmem fun y hy => used ▸ hy.used h.toSpace
    refine ⟨fun _ => False, ⟨hk.changed changed (fun _ _ hd => hd.elim) used.ge, hlive, changed.pml4,
      changed.pagePT, fun y _ _ j hw => changed.mem y j (fun hd => hd) hw,
      fun q y hq hy => (hsame q hq).trans hy, fun y => ?_, fun y => ?_⟩, fun _ hn => hn.elim, ?_⟩
    · rw [owned_congr hsame y, or_false]
    · rw [used, or_false]
    · rw [hsame _ hpi]
      exact (Store.descend_snoc i hx).trans (link_of_present hp)
  | fresh hp ht hz hf used blank entry changed =>
    have hgo : ¬Owned s P g := fun ho => ht (ho.used h.toSpace)
    have hmem : ∀ y, Owned s P y → ∀ j, ¬(y = x ∧ j = i) → s'.mem y j = s.mem y j := by
      refine fun y hy j hne => changed.mem y j ?_ (h.not_window hk hy)
      rintro (rfl | hd)
      · exact hgo hy
      · exact hne hd
    have hused : ∀ y, y ∈ s'.used ↔ y ∈ s.used ∨ y = g := fun y => by
      rw [used, Finset.mem_insert, or_comm]
    obtain ⟨hlive, hlink, hkeep, howned⟩ := h.attach changed.pagePT hpi hx (link_of_not_present hp)
      (by rw [entry, link_of_present (present_active _ _), getAddr_active _ hf])
      (fun j _ => by rw [blank]; rfl) hmem hgo hz (fun hb => ht (hk.used hb))
      (fun hp => ht (hp ▸ hk.used hk.base.2.1))
      fun y hy => (hused y).mpr (hy.imp_left fun ho => ho.used h.toSpace)
    refine ⟨(· = g), ⟨hk.changed changed ?_ (used ▸ Finset.subset_insert _ _), hlive, changed.pml4,
      changed.pagePT, fun y hy hnot j hw => changed.mem y j ?_ hw, hkeep, howned, hused⟩,
      fun y hy => hy ▸ ht, hlink⟩
    · rintro y j (rfl | ⟨rfl, -⟩) hb
      · exact ht (hk.used hb)
      · exact h.base y hxo hb
    · rintro (rfl | ⟨rfl, -⟩)
      · exact ht hy
      · exact hnot ((howned y).mpr (.inl hxo))

/-- The user address of a page, with the tables on the way to it. -/
theorem Live.ready {v : Nat} (h : Live K s P) (hk : Kernel K s)
    (hact : (s.mem s.pml4 0).getAddr = P) (hv : UserAddr v) : s.Ready v ∧ s.pdp v = P := by
  have h4 : getPML4index v = 0 := by
    obtain ⟨-, hlt⟩ := hv
    rw [getPML4index, Nat.shiftRight_eq_div_pow]
    omega
  have hpdp : s.pdp v = P := by rw [pdp, h4, hact]
  have htable := own_table hv
  have hPD : (s.entryPD v).present = true →
      s.linkAt P [getPDPindex v] = some (s.entryPD v).getAddr := fun hp => by
    rw [linkAt_one, ← hpdp]
    exact link_of_present hp
  refine ⟨⟨hk.quiet, hk.view, by rw [hpdp]; exact ⟨h.ne_zero, h.used, h.ne_pagePT⟩, fun hp => ?_,
    fun hp hp' => ?_⟩, hpdp⟩
  · obtain ⟨hused, hz, hpage⟩ := h.live [getPDPindex v] _ (Own.closed _ [getPDindex v] htable)
      (List.cons_ne_nil _ _) (hPD hp)
    exact ⟨hz, hused, hpage⟩
  · obtain ⟨hused, hz, hpage⟩ := h.live _ _ htable (List.cons_ne_nil _ _)
      ((Store.descend_snoc (p := [getPDPindex v]) _ (hPD hp)).trans (link_of_present hp'))
    exact ⟨hz, hused, fun hw => hpage hw.1⟩

/-- A frame that may become a page of the memory at `P`. -/
structure Spare (K : KernelFrames) (s : Machine) (P phy : Nat) : Prop where
  frame : IsFrame phy
  ne_zero : phy ≠ 0
  used : phy ∈ s.used
  base : phy ∉ K.base
  owned : ¬Owned s P phy

/-- The path to the page at a user address. -/
def pagePath (v : Nat) : List Nat := [getPDPindex v] ++ [getPDindex v] ++ [getPTindex v]

/-- A page at the end of its path is mapped. -/
theorem Live.present {v : Nat} (h : Live K s P) (hk : Kernel K s)
    (hact : (s.mem s.pml4 0).getAddr = P) (hv : UserAddr v) (hx : s.linkAt P (pagePath v) = some x) :
    s.Present v := by
  obtain ⟨-, hpdp⟩ := h.ready hk hact hv
  obtain ⟨PT, hPT, hx⟩ := Store.descend_prefix (p := [getPDPindex v] ++ [getPDindex v]) hx
  obtain ⟨PD, hPD, hPT⟩ := Store.descend_prefix (p := [getPDPindex v]) hPT
  obtain ⟨hp1, ha1⟩ := link_eq_some.mp (linkAt_one.symm.trans hPD)
  obtain ⟨hp2, ha2⟩ := link_eq_some.mp (linkAt_one.symm.trans hPT)
  obtain ⟨hp3, -⟩ := link_eq_some.mp (linkAt_one.symm.trans hx)
  have hPDe : (s.entryPD v).getAddr = PD := by rw [entryPD, hpdp, ha1]
  have hPTe : (s.entryPT v).getAddr = PT := by rw [entryPT, hPDe, ha2]
  exact ⟨by rw [entryPD, hpdp, hp1], by rw [entryPT, hPDe, hp2], by rw [entryPage, hPTe, hp3]⟩

theorem createMapping1_grown {v phy : Nat} {wt : Bool} (hk : Kernel K s) (h : Live K s P)
    (hact : (s.mem s.pml4 0).getAddr = P) (hv : UserAddr v) (hframe : IsFrame phy)
    (hphy : ¬s.Present v → Spare K s P phy) :
    Ensures (s.createMapping1 A phy v wt) (fun _ => True) fun s' =>
      s'.linkAt P (pagePath v) = some phy ∧
      ∃ N : Nat → Prop, Grown K s s' P (fun y => N y ∨ y = phy) ∧ ∀ y, N y → y ∉ s.used := by
  obtain ⟨hready, hpdp⟩ := h.ready hk hact hv
  by_cases hva : v % 0x1000 = 0
  swap
  · rw [createMapping1, if_neg (not_not.mpr hframe.1), if_pos hva]
    exact trivial
  refine (createMapping1_entered hready hva hframe).mono (fun _ _ => trivial) ?_
  rintro s' ⟨hnot, PD, PT, s1, s2, he⟩
  have hphy := hphy hnot
  have hpage := own_page hv
  have hpt := he.pd.usable_pt hready he.pt
  have hpd := he.pd
  rw [hpdp] at hpd
  obtain ⟨N1, hg1, hN1, hPD⟩ := hpd.grown (p := []) hk h (Own.closed _ [getPDindex v] (own_table hv)) rfl
  obtain ⟨N2, hg2, hN2, hPT⟩ := he.pt.grown hg1.kernel hg1.live (own_table hv) hPD
  have hg := hg1.trans hg2
  have hN : ∀ y, N1 y ∨ N2 y → y ∉ s.used := by
    rintro y (hn | hn) hy
    · exact hN1 y hn hy
    · exact hN2 y hn ((hg1.used y).mpr (.inl hy))
  have hspare : ¬Owned s2 P phy := fun ho => by
    rcases (hg.owned phy).mp ho with ho | hn
    · exact hphy.owned ho
    · exact hN phy hn hphy.used
  have habsent : (s2.mem PT (getPTindex v)).present = false := by
    rw [hpt.entry]
    split
    · rename_i htables
      rw [← Bool.not_eq_true]
      exact fun hp => hnot ⟨htables.1, htables.2, hp⟩
    · rfl
  have hmapped : (s'.mem PT (getPTindex v)).link = some phy := by
    rw [he.entry]
    have hactive : ∀ e : Entry, (e.mapped phy v wt).present = true ∧
        (e.mapped phy v wt).getAddr = phy := by
      intro e
      unfold Entry.mapped
      dsimp only
      split <;> exact ⟨rfl, getAddr_active e hphy.frame⟩
    rw [link_of_present (hactive _).1, (hactive _).2]
  have hPTo : Owned s2 P PT := ⟨_, own_table hv, hPT⟩
  have hused : ∀ y, y ∈ s'.used ↔ y ∈ s2.used := fun y => by rw [he.used]
  obtain ⟨hlive, hlink, hkeep, howned⟩ := hg.live.attach he.changed.pagePT hpage hPT (link_of_not_present habsent)
    hmapped (fun j hj => absurd hj.path.length (by simp)) (fun y hy j hne => he.changed.mem y j
      (fun hd => hne hd) (hg.live.not_window hg.kernel hy)) hspare hphy.ne_zero hphy.base
    (fun hp => hphy.base (hp ▸ hg.kernel.base.2.1)) fun y hy => by
      rw [hused y]
      rcases hy with hy | rfl
      · exact hy.used hg.live.toSpace
      · exact (hg.used y).mpr (.inl hphy.used)
  refine ⟨hlink, fun y => N1 y ∨ N2 y, hg.trans ⟨hg.kernel.changed he.changed ?_ he.used.ge, hlive,
    he.changed.pml4, he.changed.pagePT, fun y hy hno j hw => he.changed.mem y j ?_ hw, hkeep, howned,
    fun y => ?_⟩, hN⟩
  · rintro y j ⟨rfl, -⟩
    exact hg.live.base y hPTo
  · rintro ⟨rfl, -⟩
    exact hno ((howned y).mpr (.inl hPTo))
  · rw [hused y]
    refine (or_iff_left_of_imp ?_).symm
    rintro rfl
    exact (hg.used y).mpr (.inl hphy.used)

/-- The address of page `i` of a range, as `createMapping` computes it. -/
def pageOf (start i : Nat) : Nat := u64 (start + u32 (i * 0x1000))

theorem pageOf_inj {a b i j : Nat} (h : pageOf a i = pageOf a j) : pageOf b i = pageOf b j := by
  have hoff : u32 (i * 0x1000) = u32 (j * 0x1000) := by
    simp only [pageOf, u64, u32] at h ⊢
    omega
  rw [pageOf, pageOf, hoff]

/-- After the first `i` pages of a range are mapped. -/
structure Ranged (K : KernelFrames) (s t : Machine) (P phy virt i : Nat) (N : Nat → Prop) : Prop where
  grown : Grown K s t P N
  new : ∀ y, N y → y ∉ s.used ∨ ∃ j < i, y = pageOf phy j
  mapped : ∀ j < i, N (pageOf phy j) ∧ t.linkAt P (pagePath (pageOf virt j)) = some (pageOf phy j)

theorem Grown.active (h : Grown K s t P N) (hk : Kernel K s) : t.mem t.pml4 0 = s.mem s.pml4 0 := by
  rw [h.pml4]
  refine h.others _ (hk.used hk.base.1) (fun ho => h.live.base _ ho hk.base.1) 0 ?_
  exact fun hw => hk.apart.1 hw.1

theorem createMapping_ranged {phy virt n : Nat} {wt : Bool} (hk : Kernel K s) (h : Live K s P)
    (hact : (s.mem s.pml4 0).getAddr = P) (hphy : ∀ i < n, Spare K s P (pageOf phy i))
    (hvirt : ∀ i < n, UserAddr (pageOf virt i)) :
    Ensures (s.createMapping A phy virt n wt) (fun _ => True) fun s' =>
      ∃ N, Ranged K s s' P phy virt n N := by
  refine Ensures.foldlM_range (P := fun i t => ∃ N, Ranged K s t P phy virt i N) ?_ ?_
  · refine ⟨fun _ => False, ⟨hk, h, rfl, rfl, fun _ _ _ _ _ => rfl, fun _ _ _ hy => hy,
      fun y => (or_false _).symm.to_iff, fun y => (or_false _).symm.to_iff⟩, fun _ hn => hn.elim,
      fun j hj => absurd hj (Nat.not_lt_zero j)⟩
  · rintro i hi t ⟨N, hr⟩
    have hg := hr.grown
    have hactt : (t.mem t.pml4 0).getAddr = P := by rw [hg.active hk, hact]
    have hspare := hphy i hi
    refine (createMapping1_grown hg.kernel hg.live hactt (hvirt i hi) hspare.frame fun hnot => ?_).mono
      (fun _ _ => trivial) ?_
    · refine ⟨hspare.frame, hspare.ne_zero, (hg.used _).mpr (.inl hspare.used), hspare.base,
        fun ho => ?_⟩
      rcases (hg.owned _).mp ho with ho | hn
      · exact hspare.owned ho
      · rcases hr.new _ hn with hu | ⟨j, hj, heq⟩
        · exact hu hspare.used
        · refine hnot (hg.live.present hg.kernel hactt (hvirt i hi) (x := pageOf phy j) ?_)
          rw [pageOf_inj heq]
          exact (hr.mapped j hj).2
    · rintro t' ⟨hlink, N', hg', hN'⟩
      refine ⟨_, hg.trans hg', ?_, fun j hj => ?_⟩
      · rintro y (hn | hn | rfl)
        · exact (hr.new y hn).imp_right fun ⟨j, hj, heq⟩ => ⟨j, Nat.lt_succ_of_lt hj, heq⟩
        · exact .inl fun hy => hN' y hn ((hg.used y).mpr (.inl hy))
        · exact .inr ⟨i, Nat.lt_succ_self i, rfl⟩
      · rcases Nat.lt_succ_iff_lt_or_eq.mp hj with hj | rfl
        · obtain ⟨hn, hold⟩ := hr.mapped j hj
          exact ⟨.inl hn, hg'.links _ _ (own_page (hvirt j (by omega))) hold⟩
        · exact ⟨.inr (.inr rfl), hlink⟩

end Machine

end SupOS
