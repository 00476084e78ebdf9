import SupOS.Memory.Heap

/-! Machines with the same tables and the same translation, and what the functions that map and unmap
one page leave of the frames in use. -/

namespace SupOS

open Lib Entry

namespace Machine

variable {A : FrameAllocator} {s s1 s' : Machine} {v w x : Nat}

/-- A frame is one of the tables. -/
def IsTable (s : Machine) (x : Nat) : Prop := ∃ p, Path p ∧ s.tableAt p = some x

/-- What a step leaves that changes neither the tables nor the translation. -/
structure Alike (s s' : Machine) : Prop where
  wf : s'.WellFormed
  tables : ∀ q, Path q → s'.tableAt q = s.tableAt q
  translate : ∀ w, s'.translate w = s.translate w
  suitable : ∀ w, s.Suitable w → s'.Suitable w
  small : ∀ w, s.Small w → s'.Small w

namespace Alike

theorem refl (h : s.WellFormed) : Alike s s :=
  ⟨h, fun _ _ => rfl, fun _ => rfl, fun _ hw => hw, fun _ hw => hw⟩

theorem trans (h : Alike s s1) (h' : Alike s1 s') : Alike s s' where
  wf := h'.wf
  tables q hq := (h'.tables q hq).trans (h.tables q hq)
  translate w := (h'.translate w).trans (h.translate w)
  suitable w hw := h'.suitable w (h.suitable w hw)
  small w hw := h'.small w (h.small w hw)

theorem isTable (h : Alike s s') : s'.IsTable x ↔ s.IsTable x :=
  exists_congr fun q => and_congr_right fun hq => by rw [h.tables q hq]

end Alike

/-- Only the windows have been used. -/
theorem WellFormed.alike (h : s.WellFormed) (hc : Changed s s' fun _ _ => False)
    (hused : s'.used = s.used) : Alike s s' := by
  have htables : ∀ q, Path q → s'.tableAt q = s.tableAt q := fun q hq =>
    h.tableAt_changed hc (fun _ _ _ _ _ hd => hd) hq
  have hmem : ∀ q j y, Path (q ++ [j]) → s.tableAt q = some y → s'.mem y j = s.mem y j :=
    fun q j y hqj hy => hc.mem y j (fun hd => hd) fun hw => h.ne_pagePT hqj hy hw.1
  refine ⟨⟨hc.quiet h.quiet hused.ge, h.window_kept hc fun hd => hd, ?_, ?_, ?_, ?_⟩, htables,
    fun w => h.translate_changed hc (htables _ (path_pathPD w)) (fun _ _ hd => hd) fun _ _ hd => hd,
    fun w hw => ⟨hw.canonical, hw.aligned, ?_, ?_, hw.apart⟩, fun w hw => ?_⟩
  · intro q r x hq hr hqx hrx
    exact h.tree q r x hq hr ((htables q hq).symm.trans hqx) ((htables r hr).symm.trans hrx)
  · intro q x hq hx
    rw [hused]
    exact h.used q x hq ((htables q hq).symm.trans hx)
  · rw [htables _ WellFormed.path_pagePT, hc.pagePT]
    exact h.pagePT
  · intro q x hlen hq hx j hj
    have hx := (htables q hq).symm.trans hx
    rw [hmem q j x (hq.snoc (by omega) hj) hx]
    exact h.large q x hlen hq hx j hj
  · rw [hc.pml4, hmem [] _ _ (path_pathPDP w) rfl]
    exact hw.slot
  · intro PD hPD hp
    have hPD := (htables _ (path_pathPD w)).symm.trans hPD
    rw [hmem _ _ _ (path_pathPT w) hPD] at hp ⊢
    exact hw.small PD hPD hp
  · intro p i y hp hpre hy
    have hpi : Path (p ++ [i]) := Path.closed.of_initial hpre (path_pathPT w)
    have hy := (htables p (Path.closed _ _ hpi)).symm.trans hy
    rw [hmem p i y hpi hy]
    exact hw p i y hp hpre hy

/-- A frame that is no table is given back. -/
theorem WellFormed.erase (h : s.WellFormed) (hx : ¬s.IsTable x) :
    Alike s { s with used := s.used.erase x } := by
  have hne : ∀ q y, Path q → s.tableAt q = some y → y ≠ x := by
    rintro q y hq hy rfl
    exact hx ⟨q, hq, hy⟩
  refine ⟨⟨⟨h.quiet.closed, ?_⟩, h.view, h.tree, fun q y hq hy => ?_, h.pagePT, h.large⟩,
    fun _ _ => rfl, fun _ => rfl,
    fun _ hw => ⟨hw.canonical, hw.aligned, hw.slot, hw.small, hw.apart⟩, fun _ hw => hw⟩
  · exact Finset.mem_erase_of_ne_of_mem (hne _ _ WellFormed.path_pagePT h.pagePT) h.quiet.used
  · obtain ⟨hused, hz⟩ := h.used q y hq hy
    exact ⟨Finset.mem_erase_of_ne_of_mem (hne q y hq hy) hused, hz⟩

/-- A frame is taken. -/
theorem WellFormed.insert (h : s.WellFormed) (x : Nat) :
    Alike s { s with used := Insert.insert x s.used } := by
  refine ⟨⟨⟨h.quiet.closed, Finset.mem_insert_of_mem h.quiet.used⟩, h.view, h.tree,
    fun q y hq hy => ?_, h.pagePT, h.large⟩, fun _ _ => rfl, fun _ => rfl,
    fun _ hw => ⟨hw.canonical, hw.aligned, hw.slot, hw.small, hw.apart⟩, fun _ hw => hw⟩
  obtain ⟨hused, hz⟩ := h.used q y hq hy
  exact ⟨Finset.mem_insert_of_mem hused, hz⟩

/-! ### The unsafe walk -/

theorem getTableu_eq (hq : s.Quiet) (win parent i : Nat) (hwin : IsWindow win)
    (hparent : IsFrame parent) (hi : ¬(parent = s.pagePT ∧ i = win)) :
    ∃ s', s.getTableu win parent i = .ok ((s.mem parent i).getAddr, s') ∧ s'.used = s.used ∧
      Changed s s' fun _ _ => False := by
  refine ⟨(s.write s.pagePT win ((s.mem s.pagePT win).active parent)).freeTmp win, ?_, rfl, rfl, rfl,
    fun f j _ hw => ?_, fun k hk => ?_⟩
  · unfold getTableu
    rw [actTmp_eq (hq.closed win hwin) hparent, ok_bind,
      readAt_eq (window_active (s := s) hparent (by simp)), ok_bind, write_mem, if_neg hi]
    rfl
  · have hw' : ¬(f = s.pagePT ∧ j = win) := fun h => hw ⟨h.1, h.2 ▸ hwin⟩
    simp [hw']
  · by_cases hkw : k = win
    · simp [hkw]
    · simpa [hkw] using hq.closed k hk

/-- `getphyu` of a mapped page is its frame. -/
theorem getphyu_alike (h : s.WellFormed) (hs : s.Suitable v) {f : Nat}
    (hf : s.translate v = some f) :
    ∃ s', s.getphyu v = .ok (f, s') ∧ s'.used = s.used ∧ Alike s s' := by
  have hp := (hs.translate_ne_none h).mp (by rw [hf]; exact Option.some_ne_none f)
  have hpdp := hs.pdp_at h
  have hpd := hs.pd_at h hp.1
  have hpt := hs.pt_at h hp.1 hp.2.1
  have hpage : ¬((s.entryPT v).getAddr = s.pagePT ∧ IsWindow (getPTindex v)) := fun hw =>
    hs.not_window h hpt (by rcases hw.2 with hk | hk | hk <;> rw [hk] <;> decide) ⟨hw.1, rfl⟩
  have hpd' : (s.entryPD v).getAddr ≠ s.pagePT := h.ne_pagePT (path_pathPT v) hpd
  have hpdp' : s.pdp v ≠ s.pagePT := h.ne_pagePT (path_pathPD v) hpdp
  -- The three reads, each through its window.
  obtain ⟨s1, h1, hu1, hc1⟩ := getTableu_eq h.quiet TMPPDPOFF (s.pdp v) (getPDPindex v)
    (.inl rfl) (isFrame_getAddr _) fun hw => hpdp' hw.1
  have ha1 := h.alike hc1 hu1
  obtain ⟨s2, h2, hu2, hc2⟩ := getTableu_eq ha1.wf.quiet TMPPDOFF (s.entryPD v).getAddr
    (getPDindex v) (.inr (.inl rfl)) (isFrame_getAddr _) fun hw => hpd' (hw.1.trans hc1.pagePT)
  have ha2 := ha1.wf.alike hc2 hu2
  have hp2 : s2.pagePT = s.pagePT := hc2.pagePT.trans hc1.pagePT
  obtain ⟨s3, h3, hu3, hc3⟩ := getTableu_eq ha2.wf.quiet TMPPTOFF (s.entryPT v).getAddr
    (getPTindex v) (.inr (.inr rfl)) (isFrame_getAddr _) fun hw =>
      hpage ⟨hw.1.trans hp2, hw.2 ▸ .inr (.inr rfl)⟩
  have e1 : s1.mem (s.entryPD v).getAddr (getPDindex v) = s.entryPT v :=
    hc1.mem _ _ (fun hd => hd) fun hw => hpd' hw.1
  have e2 : s2.mem (s.entryPT v).getAddr (getPTindex v) = s.entryPage v :=
    (hc2.mem _ _ (fun hd => hd) fun hw => hpage ⟨hw.1.trans hc1.pagePT, hw.2⟩).trans
      (hc1.mem _ _ (fun hd => hd) hpage)
  have hpage : (s.entryPage v).getAddr = f := by
    rw [translate_of_table hpt] at hf
    exact Option.some.inj ((if_pos hp.2.2).symm.trans hf)
  refine ⟨s3, ?_, hu3.trans (hu2.trans hu1), (ha1.trans ha2).trans (ha2.wf.alike hc3 hu3)⟩
  have hPDP : s.getPDPphyu v = .ok (s.pdp v) := by
    rw [getPDPphyu, readAt_eq h.view]
    rfl
  have hPD : s.getPDphyu v = .ok ((s.entryPD v).getAddr, s1) := by
    rw [getPDphyu, hPDP]
    exact h1
  have hPT : s.getPTphyu v = .ok ((s.entryPT v).getAddr, s2) := by
    rw [getPTphyu, hPD, ← e1]
    exact h2
  rw [getphyu, hPT, ← hpage, ← e2]
  exact h3

/-! ### The frames of one page -/

theorem Got.isTable {parent i t : Nat} {p : List Nat} (h : s.WellFormed) (hpi : Path (p ++ [i]))
    (hparent : s.tableAt p = some parent) (hclean : (s.mem parent i).isSizeMega = false)
    (hg : Got s parent i (t, s1)) (hx : s1.IsTable x) : s.IsTable x ∨ x ∉ s.used := by
  obtain ⟨q, hq, hqx⟩ := hx
  cases hg with
  | present hp used changed =>
    exact .inl ⟨q, hq, ((h.alike changed used).tables q hq).symm.trans hqx⟩
  | fresh hp ht hz hf used blank entry changed =>
    rw [h.attached hpi hparent hclean hp ht hf blank entry changed hq] at hqx
    split at hqx
    · obtain rfl := Option.some.inj hqx
      exact .inr ht
    · exact .inl ⟨q, hq, hqx⟩

/-- A new table is a frame that was not in use. -/
theorem Entered.isTable {g : Entry → Entry} {PD PT : Nat} {s2 : Machine} (h : s.WellFormed)
    (hs : s.Suitable v) (hsmall : s.Small v) (he : Entered s s' v g PD PT s1 s2)
    (hx : s'.IsTable x) : s.IsTable x ∨ x ∉ s.used := by
  have hpdp := hs.pdp_at h
  have hclean := hsmall [getPML4index v] _ _ le_rfl ⟨[getPDindex v], rfl⟩ hpdp
  obtain ⟨hk1, hPD⟩ := he.pd.kept h (path_pathPD v) le_rfl hpdp hclean
  have hsmall1 := he.pd.small h (path_pathPD v) hpdp hclean hsmall
  have hclean1 := hsmall1 (pathPD v) _ _ (by simp [pathPD]) (List.prefix_refl _) hPD
  obtain ⟨hk2, hPT⟩ := he.pt.kept hk1.wf (path_pathPT v) (by simp) hPD hclean1
  obtain ⟨q, hq, hqx⟩ := hx
  rw [hk2.wf.tableAt_changed he.changed ?_ hq] at hqx
  · rcases he.pt.isTable hk1.wf (path_pathPT v) hPD hclean1 ⟨q, hq, hqx⟩ with hx | hx
    · exact he.pd.isTable h (path_pathPD v) hpdp hclean hx
    · exact .inr fun hu => hx (he.pd.used hu)
  · rintro r j y hrj hy ⟨rfl, -⟩
    have := hk2.wf.tree _ _ _ (Path.closed _ _ hrj) (path_pathPT v) hy hPT
    have hlen := hrj.1
    rw [this] at hlen
    exact absurd hlen (by simp [pathPT])

/-- A mapped page has its tables. -/
theorem Entered.used_eq {g : Entry → Entry} {PD PT : Nat} {s2 : Machine} (h : s.Ready v)
    (hp : s.Present v) (he : Entered s s' v g PD PT s1 s2) : s'.used = s.used := by
  rw [he.used]
  have hpd := (he.pd.usable_pd h).entry
  rw [if_pos hp.1] at hpd
  have h1 : s1.used = s.used := by
    cases he.pd with
    | present hpres used changed => exact used
    | fresh hpres => exact absurd (hp.1.symm.trans hpres) (by simp)
  cases he.pt with
  | present hpres used changed => exact used.trans h1
  | fresh hpres =>
    rw [hpd, hp.2.1] at hpres
    cases hpres

/-- What a change of the entry of one page leaves, the frames in use with it. -/
structure Changed1 (s s' : Machine) (v : Nat) (target : Option Nat) : Prop
    extends Remapped s s' v target where
  used : s.used ⊆ s'.used
  isTable : ∀ x, s'.IsTable x → s.IsTable x ∨ x ∉ s.used

theorem createMapping1_changed (h : s.WellFormed) (hs : s.Suitable v) (hsmall : s.Small v)
    (hfree : s.translate v = none) {phy : Nat} {wt : Bool} (hphy : IsFrame phy) :
    Ensures (s.createMapping1 A phy v wt) (· = .outOfMemory)
      fun s' => Changed1 s s' v (some phy) := by
  have hnot : ¬s.Present v := fun hp => (hs.translate_ne_none h).mpr hp hfree
  refine (createMapping1_entered (hs.ready h) hs.aligned hphy).mono
    (fun e he => he.resolve_right hnot) fun s' hs' => ?_
  obtain ⟨-, PD, PT, s1, s2, he⟩ := hs'
  refine ⟨he.remapped h hs hsmall fun e => ?_, ?_, fun x hx => he.isTable h hs hsmall hx⟩
  · unfold Entry.mapped
    split <;> exact (if_pos rfl).trans (congrArg some (Entry.getAddr_active e hphy))
  · exact fun x hx => he.used ▸ he.pt.used (he.pd.used hx)

theorem freeMapping1_changed (h : s.WellFormed) (hs : s.Suitable v)
    (hmapped : s.translate v ≠ none) :
    ∃ s', s.freeMapping1 A v = .ok s' ∧ Changed1 s s' v none ∧ s'.used = s.used := by
  have hp := (hs.translate_ne_none h).mp hmapped
  have hsmall := hs.small_of_present h hp
  obtain ⟨s', heq, PD, PT, s1, s2, he⟩ := freeMapping1_entered (A := A) (hs.ready h) hp
  exact ⟨s', heq, ⟨he.remapped h hs hsmall fun e => if_neg Bool.false_ne_true,
    (he.used_eq (hs.ready h) hp).ge, fun x hx => he.isTable h hs hsmall hx⟩,
    he.used_eq (hs.ready h) hp⟩

end Machine

end SupOS
