import SupOS.Memory.Paging

/-! What the functions of Paging change: the temporary windows are closed again, and a table that is
missing is entered in its parent, new and without entries. -/

namespace SupOS

open Lib Entry

namespace Machine

variable {A : FrameAllocator} {s s1 s' : Machine} {D D' : Nat → Nat → Prop} {k f i : Nat}

/-- The entries of `pagePT` for the temporary windows. -/
def IsWindow (k : Nat) : Prop := k = TMPPDPOFF ∨ k = TMPPDOFF ∨ k = TMPPTOFF

theorem isWindow_PD : IsWindow TMPPDOFF := .inr (.inl rfl)

theorem isWindow_PT : IsWindow TMPPTOFF := .inr (.inr rfl)

/-- The temporary windows are closed. -/
structure Quiet (s : Machine) : Prop where
  closed : ∀ k, IsWindow k → (s.mem s.pagePT k).present = false
  used : s.pagePT ∈ s.used

/-- Only the entries in `D` and the temporary windows, closed again, have changed. -/
structure Changed (s s' : Machine) (D : Nat → Nat → Prop) : Prop where
  pml4 : s'.pml4 = s.pml4
  pagePT : s'.pagePT = s.pagePT
  mem : ∀ f i, ¬D f i → ¬(f = s.pagePT ∧ IsWindow i) → s'.mem f i = s.mem f i
  closed : ∀ k, IsWindow k → (s'.mem s.pagePT k).present = false

theorem Changed.mono (h : Changed s s' D) (hD : ∀ f i, D f i → D' f i) : Changed s s' D' where
  pml4 := h.pml4
  pagePT := h.pagePT
  mem f i hd hw := h.mem f i (fun hd' => hd (hD f i hd')) hw
  closed := h.closed

theorem Changed.trans (h : Changed s s1 D) (h' : Changed s1 s' D') :
    Changed s s' (fun f i => D f i ∨ D' f i) where
  pml4 := h'.pml4.trans h.pml4
  pagePT := h'.pagePT.trans h.pagePT
  mem f i hd hw := by
    rw [h'.mem f i (fun hd' => hd (.inr hd')) (by rwa [h.pagePT])]
    exact h.mem f i (fun hd' => hd (.inl hd')) hw
  closed k hk := by
    have := h'.closed k hk
    rwa [h.pagePT] at this

theorem Changed.quiet (h : Changed s s' D) (hs : s.Quiet) (hused : s.used ⊆ s'.used) : s'.Quiet where
  closed k hk := by
    rw [h.pagePT]
    exact h.closed k hk
  used := by
    rw [h.pagePT]
    exact hused hs.used

@[simp] theorem write_mem (f i : Nat) (e : Entry) (g j : Nat) :
    (s.write f i e).mem g j = if g = f ∧ j = i then e else s.mem g j := rfl

@[simp] theorem write_pagePT (f i : Nat) (e : Entry) : (s.write f i e).pagePT = s.pagePT := rfl

@[simp] theorem write_used (f i : Nat) (e : Entry) : (s.write f i e).used = s.used := rfl

@[simp] theorem freeTmp_mem (k g j : Nat) : (s.freeTmp k).mem g j =
    if g = s.pagePT ∧ j = k then { s.mem s.pagePT k with present := false } else s.mem g j := rfl

@[simp] theorem freeTmp_pagePT (k : Nat) : (s.freeTmp k).pagePT = s.pagePT := rfl

@[simp] theorem freeTmp_used (k : Nat) : (s.freeTmp k).used = s.used := rfl

theorem alloc_some {f : Nat} (h : A.pick s.used = some f) :
    s.alloc A = .ok (f, { s with used := insert f s.used }) := by
  rw [alloc, h]

theorem alloc_none (h : A.pick s.used = none) : s.alloc A = .error .outOfMemory := by
  rw [alloc, h]

/-! ### Windows -/

theorem actTmp_eq {phy : Nat} (hk : (s.mem s.pagePT k).present = false) (hphy : IsFrame phy) :
    s.actTmp k phy = .ok (s.write s.pagePT k ((s.mem s.pagePT k).active phy)) := by
  rw [actTmp, hk, activeAddr_eq _ hphy]
  rfl

theorem window_eq (hk : (s.mem s.pagePT k).present = true) (ha : (s.mem s.pagePT k).getAddr = f) :
    s.window k = .ok f := by
  rw [window, if_pos hk, ha]

theorem readAt_eq (h : s.window k = .ok f) : s.readAt k i = .ok (s.mem f i) := by
  rw [readAt, h]
  rfl

theorem writeAt_eq {e : Entry} (h : s.window k = .ok f) :
    s.writeAt k i e = .ok (s.write f i e) := by
  rw [writeAt, h]
  rfl

theorem blankAt_eq (h : s.window k = .ok f) : s.blankAt k =
    .ok { s with mem := fun g j => if g = f then Entry.blank else s.mem g j } := by
  rw [blankAt, h]
  rfl

/-- A window shows a frame after `actTmp`. -/
theorem window_active {phy : Nat} (hphy : IsFrame phy)
    (hk : s'.mem s'.pagePT k = (s.mem s.pagePT k).active phy) : s'.window k = .ok phy := by
  refine window_eq ?_ ?_
  · rw [hk, present_active]
  · rw [hk, getAddr_active _ hphy]

/-! ### Tables -/

/-- What `getTable` returns for entry `i` of the table `parent`. -/
inductive Got (s : Machine) (parent i : Nat) : Nat × Machine → Prop
  | present {s' : Machine} (hp : (s.mem parent i).present = true) (used : s'.used = s.used)
      (changed : Changed s s' fun _ _ => False) : Got s parent i ((s.mem parent i).getAddr, s')
  | fresh {t : Nat} {s' : Machine} (hp : (s.mem parent i).present = false) (ht : t ∉ s.used)
      (hz : t ≠ 0) (hf : IsFrame t) (used : s'.used = insert t s.used)
      (blank : ∀ j, s'.mem t j = Entry.blank)
      (entry : s'.mem parent i = (s.mem parent i).active t)
      (changed : Changed s s' fun f j => f = t ∨ (f = parent ∧ j = i)) : Got s parent i (t, s')

theorem getTable_got (hq : s.Quiet) {win sub parent : Nat} {check : Bool} (hwin : IsWindow win)
    (hsub : IsWindow sub) (hne : sub ≠ win) (hparent : IsFrame parent) (hused : parent ∈ s.used)
    (hi : ¬(parent = s.pagePT ∧ IsWindow i))
    (hzero : (s.mem parent i).present = true → (s.mem parent i).getAddr ≠ 0) :
    Ensures (s.getTable A win sub parent i check)
      (fun e => e = .outOfMemory ∧ (s.mem parent i).present = false) (Got s parent i) := by
  have hiw : ¬(parent = s.pagePT ∧ i = win) := fun h => hi ⟨h.1, h.2 ▸ hwin⟩
  have his : ¬(parent = s.pagePT ∧ i = sub) := fun h => hi ⟨h.1, h.2 ▸ hsub⟩
  unfold getTable
  rw [actTmp_eq (hq.closed win hwin) hparent, ok_bind]
  rw [readAt_eq (window_active (s := s) hparent (by simp)), ok_bind, write_mem, if_neg hiw]
  by_cases hp : (s.mem parent i).present = true
  · rw [if_pos hp, decide_eq_true (hzero hp), assert_true, ok_bind]
    refine Got.present hp rfl ⟨rfl, rfl, fun f j _ hw => ?_, fun k hk => ?_⟩
    · have hw' : ¬(f = s.pagePT ∧ j = win) := fun h => hw ⟨h.1, h.2 ▸ hwin⟩
      simp [hw']
    · by_cases hkw : k = win
      · simp [hkw]
      · simpa [hkw] using hq.closed k hk
  · rw [if_neg hp, alloc]
    cases hpick : A.pick s.used with
    | none =>
      rw [write_used, hpick]
      exact ⟨rfl, by simpa using hp⟩
    | some t =>
      obtain ⟨ht, hz, hf⟩ := A.fresh _ _ hpick
      have htp : t ≠ s.pagePT := fun h => ht (h ▸ hq.used)
      have htparent : t ≠ parent := fun h => ht (h ▸ hused)
      simp only [write_used, hpick, ok_bind]
      -- The states after `alloc`, the second `actTmp`, the new table, and the entry.
      generalize hs2 : ({ s.write s.pagePT win ((s.mem s.pagePT win).active parent) with
        used := insert t s.used } : Machine) = s2
      have hp2 : s2.pagePT = s.pagePT := by rw [← hs2]; rfl
      have hm2 : ∀ f j, s2.mem f j = if f = s.pagePT ∧ j = win then
          (s.mem s.pagePT win).active parent else s.mem f j := by
        intro f j
        rw [← hs2]
        exact write_mem ..
      have hclosed2 : (s2.mem s2.pagePT sub).present = false := by
        rw [hp2, hm2, if_neg (fun h => hne h.2)]
        exact hq.closed sub hsub
      rw [actTmp_eq hclosed2 hf, ok_bind]
      generalize hs3 : s2.write s2.pagePT sub ((s2.mem s2.pagePT sub).active t) = s3
      have hp3 : s3.pagePT = s.pagePT := by rw [← hs3, ← hp2]; rfl
      have hm3 : ∀ f j, s3.mem f j = if f = s.pagePT ∧ j = sub then
          (s2.mem s.pagePT sub).active t else s2.mem f j := by
        intro f j
        rw [← hs3, ← hp2]
        exact write_mem ..
      have hsub3 : s3.window sub = .ok t :=
        window_active (s := s2) hf (by rw [hp3, hm3, if_pos ⟨rfl, rfl⟩, hp2])
      rw [blankAt_eq hsub3, ok_bind]
      generalize hs4 : ({ s3 with mem := fun g j => if g = t then Entry.blank else s3.mem g j } :
        Machine) = s4
      have hp4 : s4.pagePT = s.pagePT := by rw [← hs4, ← hp3]
      have hm4 : ∀ f j, s4.mem f j = if f = t then Entry.blank else s3.mem f j := by
        intro f j
        rw [← hs4]
      have hsub4 : s4.window sub = .ok t :=
        window_active (s := s2) hf (by rw [hp4, hm4, if_neg htp.symm, hm3, if_pos ⟨rfl, rfl⟩, hp2])
      rw [readAt_eq hsub4, hm4, if_pos rfl, ok_bind]
      have hcheck : (!check || !Entry.blank.present) = true := by cases check <;> rfl
      rw [hcheck, assert_true, ok_bind]
      have hwin5 : (s4.freeTmp sub).window win = .ok parent := by
        refine window_active (s := s) hparent ?_
        rw [freeTmp_pagePT, hp4, freeTmp_mem, if_neg (fun h => hne h.2.symm), hm4, if_neg htp.symm,
          hm3, if_neg (fun h => hne h.2.symm), hm2, if_pos ⟨rfl, rfl⟩]
      have hentry : (s4.freeTmp sub).mem parent i = s.mem parent i := by
        rw [freeTmp_mem, hp4, if_neg his, hm4, if_neg htparent.symm, hm3, if_neg his, hm2,
          if_neg hiw]
      rw [readAt_eq hwin5, hentry, ok_bind, activeAddr_eq _ hf, ok_bind, writeAt_eq hwin5, ok_bind]
      have hm6 : ∀ f j, f ≠ t → ¬(f = s.pagePT ∧ IsWindow j) → ¬(f = parent ∧ j = i) →
          (((s4.freeTmp sub).write parent i ((s.mem parent i).active t)).freeTmp win).mem f j =
            s.mem f j := by
        intro f j hft hw hfp
        have hw' : ¬(f = s.pagePT ∧ j = win) := fun h => hw ⟨h.1, h.2 ▸ hwin⟩
        have hws : ¬(f = s.pagePT ∧ j = sub) := fun h => hw ⟨h.1, h.2 ▸ hsub⟩
        rw [freeTmp_mem, write_pagePT, freeTmp_pagePT, hp4, if_neg hw', write_mem, if_neg hfp,
          freeTmp_mem, hp4, if_neg hws, hm4, if_neg hft, hm3, if_neg hws, hm2, if_neg hw']
      refine Got.fresh (by simpa using hp) ht hz hf ?_ (fun j => ?_) ?_ ⟨?_, ?_, fun f j hd hw =>
        hm6 f j (fun h => hd (.inl h)) hw (fun h => hd (.inr h)), fun k hk => ?_⟩
      · rw [freeTmp_used, write_used, freeTmp_used, ← hs4, ← hs3, ← hs2]
        rfl
      · rw [freeTmp_mem, write_pagePT, freeTmp_pagePT, hp4, if_neg (fun h => htp h.1), write_mem,
          if_neg (fun h => htparent h.1), freeTmp_mem, hp4, if_neg (fun h => htp h.1), hm4,
          if_pos rfl]
      · rw [freeTmp_mem, write_pagePT, freeTmp_pagePT, hp4, if_neg hiw, write_mem,
          if_pos ⟨rfl, rfl⟩]
      · rw [← hs4, ← hs3, ← hs2]
        rfl
      · rw [freeTmp_pagePT, write_pagePT, freeTmp_pagePT, hp4]
      · rw [freeTmp_mem, write_pagePT, freeTmp_pagePT, hp4]
        have hki : ¬(s.pagePT = parent ∧ k = i) := fun h => hi ⟨h.1.symm, h.2 ▸ hk⟩
        by_cases hkw : k = win
        · rw [if_pos ⟨rfl, hkw⟩]
        · rw [if_neg (fun h => hkw h.2), write_mem, if_neg hki, freeTmp_mem, hp4]
          by_cases hks : k = sub
          · rw [if_pos ⟨rfl, hks⟩]
          · rw [if_neg (fun h => hks h.2), hm4, if_neg htp.symm, hm3, if_neg (fun h => hks h.2),
              hm2, if_neg (fun h => hkw h.2)]
            exact hq.closed k hk

theorem Got.quiet {parent : Nat} {r : Nat × Machine} (h : Got s parent i r) (hq : s.Quiet) :
    r.2.Quiet := by
  cases h with
  | present hp used changed => exact changed.quiet hq used.ge
  | fresh hp ht hz hf used blank entry changed =>
    exact changed.quiet hq (used ▸ Finset.subset_insert _ _)

theorem Got.used {parent : Nat} {r : Nat × Machine} (h : Got s parent i r) : s.used ⊆ r.2.used := by
  cases h with
  | present hp used changed => exact used.ge
  | fresh hp ht hz hf used blank entry changed => exact used ▸ Finset.subset_insert _ _

theorem Got.pml4 {parent : Nat} {r : Nat × Machine} (h : Got s parent i r) : r.2.pml4 = s.pml4 := by
  cases h with
  | present hp used changed => exact changed.pml4
  | fresh hp ht hz hf used blank entry changed => exact changed.pml4

theorem Got.pagePT {parent : Nat} {r : Nat × Machine} (h : Got s parent i r) :
    r.2.pagePT = s.pagePT := by
  cases h with
  | present hp used changed => exact changed.pagePT
  | fresh hp ht hz hf used blank entry changed => exact changed.pagePT

/-- Frames in use other than the parent and `pagePT` keep their words. -/
theorem Got.mem {parent : Nat} {r : Nat × Machine} (h : Got s parent i r) {f j : Nat}
    (hf : f ∈ s.used) (hfp : ¬(f = parent ∧ j = i)) (hw : ¬(f = s.pagePT ∧ IsWindow j)) :
    r.2.mem f j = s.mem f j := by
  cases h with
  | present hp used changed => exact changed.mem f j (fun h => h) hw
  | fresh hp ht hz hf' used blank entry changed =>
    refine changed.mem f j ?_ hw
    rintro (rfl | h)
    · exact ht hf
    · exact hfp h

/-! ### The walk of a virtual address -/

/-- The user or kernel PDP of an address. -/
def pdp (s : Machine) (v : Nat) : Nat := (s.mem s.pml4 (getPML4index v)).getAddr

/-- The entry for the page directory. -/
def entryPD (s : Machine) (v : Nat) : Entry := s.mem (s.pdp v) (getPDPindex v)

/-- The entry for the page table. -/
def entryPT (s : Machine) (v : Nat) : Entry := s.mem (s.entryPD v).getAddr (getPDindex v)

/-- The entry for the page. -/
def entryPage (s : Machine) (v : Nat) : Entry := s.mem (s.entryPT v).getAddr (getPTindex v)

/-- The page is mapped, as the kernel sees it. -/
def Present (s : Machine) (v : Nat) : Prop :=
  (s.entryPD v).present = true ∧ (s.entryPT v).present = true ∧ (s.entryPage v).present = true

instance (s : Machine) (v : Nat) : Decidable (s.Present v) := inferInstanceAs (Decidable (_ ∧ _))

/-- The tables on the way to a page are frames in use, and the page is none of the windows. -/
structure Ready (s : Machine) (v : Nat) : Prop where
  quiet : s.Quiet
  view : s.window winPML4 = .ok s.pml4
  pdp : s.pdp v ≠ 0 ∧ s.pdp v ∈ s.used ∧ s.pdp v ≠ s.pagePT
  pd : (s.entryPD v).present = true → (s.entryPD v).getAddr ≠ 0 ∧
    (s.entryPD v).getAddr ∈ s.used ∧ (s.entryPD v).getAddr ≠ s.pagePT
  pt : (s.entryPD v).present = true → (s.entryPT v).present = true →
    (s.entryPT v).getAddr ≠ 0 ∧ (s.entryPT v).getAddr ∈ s.used ∧
      ¬((s.entryPT v).getAddr = s.pagePT ∧ IsWindow (getPTindex v))

/-- What a change of the entry of a page by `g` leaves, where missing tables are made first. -/
structure Entered (s s' : Machine) (v : Nat) (g : Entry → Entry) (PD PT : Nat) (s1 s2 : Machine) :
    Prop where
  pd : Got s (s.pdp v) (getPDPindex v) (PD, s1)
  pt : Got s1 PD (getPDindex v) (PT, s2)
  used : s'.used = s2.used
  entry : s'.mem PT (getPTindex v) = g (s2.mem PT (getPTindex v))
  changed : Changed s2 s' fun f j => f = PT ∧ j = getPTindex v

theorem getPDPphy_eq {v : Nat} (hview : s.window winPML4 = .ok s.pml4) (hz : s.pdp v ≠ 0) :
    s.getPDPphy v = .ok (s.pdp v) := by
  rw [getPDPphy, readAt_eq hview, ok_bind]
  exact if_pos hz

/-- A table that was found or made can be used as a parent. -/
structure Usable (s : Machine) (t i : Nat) (e : Entry) : Prop where
  frame : IsFrame t
  used : t ∈ s.used
  apart : ¬(t = s.pagePT ∧ IsWindow i)
  entry : s.mem t i = e

/-- The entry for the page table, blank where the directory is new. -/
theorem Got.usable_pd {v PD : Nat} (h : s.Ready v)
    (hg : Got s (s.pdp v) (getPDPindex v) (PD, s1)) :
    Usable s1 PD (getPDindex v)
      (if (s.entryPD v).present = true then s.entryPT v else Entry.blank) := by
  cases hg with
  | present hp used changed =>
    have hp : (s.entryPD v).present = true := hp
    obtain ⟨-, hused, hpage⟩ := h.pd hp
    refine ⟨isFrame_getAddr _, used ▸ hused, fun hw => hpage (hw.1.trans changed.pagePT), ?_⟩
    rw [if_pos hp]
    exact changed.mem _ _ (fun h => h) (fun hw => hpage hw.1)
  | fresh hp ht hz hf used blank entry changed =>
    refine ⟨hf, used ▸ Finset.mem_insert_self _ _, fun hw => ht ?_, ?_⟩
    · rw [hw.1, changed.pagePT]
      exact h.quiet.used
    · have hp : (s.entryPD v).present = false := hp
      rw [hp, if_neg Bool.false_ne_true]
      exact blank _

/-- The entry for the page, blank where the table is new. -/
theorem Got.usable_pt {v PD PT : Nat} {s2 : Machine} (h : s.Ready v)
    (hg : Got s (s.pdp v) (getPDPindex v) (PD, s1)) (hg' : Got s1 PD (getPDindex v) (PT, s2)) :
    Usable s2 PT (getPTindex v) (if (s.entryPD v).present = true ∧ (s.entryPT v).present = true
      then s.entryPage v else Entry.blank) := by
  have hpd := hg.usable_pd h
  cases hg' with
  | present hp used changed =>
    rw [hpd.entry] at hp
    by_cases hp1 : (s.entryPD v).present = true
    · rw [if_pos hp1] at hp
      have hentry := hpd.entry
      rw [if_pos hp1] at hentry
      obtain ⟨-, hused, hpage⟩ := h.pt hp1 hp
      rw [hentry, if_pos ⟨hp1, hp⟩]
      refine ⟨isFrame_getAddr _, used ▸ hg.used hused, fun hw => hpage ⟨hw.1.trans ?_, hw.2⟩, ?_⟩
      · exact changed.pagePT.trans hg.pagePT
      · refine (changed.mem _ _ (fun h => h) fun hw => hpage ⟨hw.1.trans hg.pagePT, hw.2⟩).trans ?_
        cases hg with
        | present hp' used' changed' => exact changed'.mem _ _ (fun h => h) hpage
        | fresh hp' ht' => exact absurd (hp'.symm.trans hp1) Bool.false_ne_true
    · rw [if_neg hp1] at hp
      exact absurd hp Bool.false_ne_true
  | fresh hp ht hz hf used blank entry changed =>
    refine ⟨hf, used ▸ Finset.mem_insert_self _ _, fun hw => ht ?_, ?_⟩
    · rw [hw.1, changed.pagePT]
      exact (hg.quiet h.quiet).used
    · rw [if_neg]
      · exact blank _
      · rintro ⟨hp1, hp2⟩
        rw [hpd.entry, if_pos hp1, hp2] at hp
        exact Bool.false_ne_true hp.symm

theorem getPTphy_got {v : Nat} (h : s.Ready v) :
    Ensures (s.getPTphy A v) (fun e => e = .outOfMemory ∧
        ¬((s.entryPD v).present = true ∧ (s.entryPT v).present = true))
      fun r => ∃ PD s1, Got s (s.pdp v) (getPDPindex v) (PD, s1) ∧
        Got s1 PD (getPDindex v) r := by
  unfold getPTphy getPDphy
  rw [getPDPphy_eq h.view h.pdp.1, ok_bind]
  have hfirst : Ensures (s.getTable A _ _ _ _ true) _ _ := getTable_got h.quiet (.inl rfl) (.inr (.inl rfl))
    (by decide) (isFrame_getAddr _) h.pdp.2.1 (fun hw => h.pdp.2.2 hw.1) (fun hp => (h.pd hp).1)
  refine Ensures.bind (hfirst.mono (fun e he => ⟨he.1, fun hp =>
    Bool.false_ne_true (he.2.symm.trans hp.1)⟩) fun _ h => h) ?_
  · rintro ⟨PD, s1⟩ hg
    have hpd := hg.usable_pd h
    have hsecond : Ensures (s1.getTable A _ _ _ _ false) _ _ := getTable_got (hg.quiet h.quiet) (.inr (.inl rfl))
      (.inr (.inr rfl)) (by decide) hpd.frame hpd.used hpd.apart (fun hp => ?_)
    · refine hsecond.mono (fun e he => ⟨he.1, fun hp => ?_⟩) fun r hr => ⟨PD, s1, hg, hr⟩
      have hnot := he.2
      rw [hpd.entry, if_pos hp.1, hp.2] at hnot
      exact Bool.false_ne_true hnot.symm
    · rw [hpd.entry] at hp ⊢
      by_cases hp1 : (s.entryPD v).present = true
      · rw [if_pos hp1] at hp ⊢
        exact (h.pt hp1 hp).1
      · rw [if_neg hp1] at hp
        exact absurd hp Bool.false_ne_true

/-- An entry of a table changed through a temporary window. -/
theorem edit_changed {t win : Nat} {e0 e : Entry} (hw : IsWindow win) (hq : s.Quiet)
    (ht : Usable s t i e0) :
    ∃ s3 s4, s.actTmp win t = .ok s3 ∧ s3.readAt win i = .ok e0 ∧
      s3.writeAt win i e = .ok s4 ∧ (s4.freeTmp win).used = s.used ∧
      (s4.freeTmp win).mem t i = e ∧
      Changed s (s4.freeTmp win) fun f j => f = t ∧ j = i := by
  have hti : ¬(t = s.pagePT ∧ i = win) := fun h => ht.apart ⟨h.1, h.2 ▸ hw⟩
  refine ⟨_, _, actTmp_eq (hq.closed _ hw) ht.frame, ?_,
    writeAt_eq (window_active (s := s) ht.frame ?_), rfl, ?_, rfl, rfl, fun f j hd hfw => ?_,
    fun k hk => ?_⟩
  · rw [readAt_eq (window_active (s := s) ht.frame (by simp)), write_mem, if_neg hti, ht.entry]
  · rw [write_pagePT, write_mem, if_pos ⟨rfl, rfl⟩]
  · rw [freeTmp_mem, write_pagePT, write_pagePT, if_neg hti, write_mem, if_pos ⟨rfl, rfl⟩]
  · have hfk : ¬(f = s.pagePT ∧ j = win) := fun h => hfw ⟨h.1, h.2 ▸ hw⟩
    rw [freeTmp_mem, write_pagePT, write_pagePT, if_neg hfk, write_mem, if_neg hd, write_mem,
      if_neg hfk]
  · have hki : ¬(s.pagePT = t ∧ k = i) := fun h => ht.apart ⟨h.1.symm, h.2 ▸ hk⟩
    rw [freeTmp_mem, write_pagePT, write_pagePT]
    by_cases hkt : k = win
    · rw [if_pos ⟨rfl, hkt⟩]
    · rw [if_neg (fun h => hkt h.2), write_mem, if_neg hki, write_mem, if_neg (fun h => hkt h.2)]
      exact hq.closed k hk

theorem createMapping1_entered {v phy : Nat} {wt : Bool} (h : s.Ready v) (hv : v % 0x1000 = 0)
    (hphy : IsFrame phy) :
    Ensures (s.createMapping1 A phy v wt) (fun e => e = .outOfMemory ∨ s.Present v)
      fun s' => ¬s.Present v ∧ ∃ PD PT s1 s2, Entered s s' v (·.mapped phy v wt) PD PT s1 s2 := by
  unfold createMapping1
  rw [if_neg (not_not.mpr hphy.1), if_neg (not_not.mpr hv), if_neg (not_not.mpr hphy.2)]
  refine ((getPTphy_got h).mono (fun e he => .inl he.1) fun _ h => h).bind ?_
  rintro ⟨PT, s2⟩ ⟨PD, s1, hg, hg'⟩
  have hpt := hg.usable_pt h hg'
  have hq2 := hg'.quiet (hg.quiet h.quiet)
  by_cases hp : s.Present v
  · obtain ⟨s3, s4, hact, hread, -⟩ := edit_changed (e := Entry.blank) isWindow_PT hq2 hpt
    have hpage : (if (s.entryPD v).present = true ∧ (s.entryPT v).present = true
        then s.entryPage v else Entry.blank).present = true := by
      rw [if_pos ⟨hp.1, hp.2.1⟩]
      exact hp.2.2
    simp only [hact, ok_bind, hread]
    rw [if_pos hpage]
    exact .inr hp
  · obtain ⟨s3, s4, hact, hread, hwrite, hused, hentry, hchanged⟩ := edit_changed
      (e := Entry.mapped (if (s.entryPD v).present = true ∧ (s.entryPT v).present = true
        then s.entryPage v else Entry.blank) phy v wt) isWindow_PT hq2 hpt
    have hnot : (if (s.entryPD v).present = true ∧ (s.entryPT v).present = true
        then s.entryPage v else Entry.blank).present ≠ true := by
      intro hpage
      by_cases htables : (s.entryPD v).present = true ∧ (s.entryPT v).present = true
      · rw [if_pos htables] at hpage
        exact hp ⟨htables.1, htables.2, hpage⟩
      · rw [if_neg htables] at hpage
        exact Bool.false_ne_true hpage
    simp only [hact, ok_bind, hread]
    rw [if_neg hnot, activeAddr_eq _ hphy, ok_bind]
    change Ensures (s3.writeAt _ _ (Entry.mapped _ _ _ _) >>= _) _ _
    rw [hwrite, ok_bind]
    refine ⟨hp, PD, PT, s1, s2, hg, hg', hused, ?_, hchanged⟩
    rw [hentry, hpt.entry]

theorem freeMapping1_entered {v : Nat} (h : s.Ready v) (hp : s.Present v) :
    ∃ s', s.freeMapping1 A v = .ok s' ∧
      ∃ PD PT s1 s2, Entered s s' v (fun e => { e with present := false }) PD PT s1 s2 := by
  have hgot : Ensures (s.getPTphy A v) (fun _ => False) _ := (getPTphy_got h).mono
    (fun e he => he.2 ⟨hp.1, hp.2.1⟩) fun _ h => h
  obtain ⟨⟨PT, s2⟩, heq, PD, s1, hg, hg'⟩ := hgot.returns fun _ h => h
  have hpt := hg.usable_pt h hg'
  rw [if_pos ⟨hp.1, hp.2.1⟩] at hpt
  obtain ⟨s3, s4, hact, hread, hwrite, hused, hentry, hchanged⟩ := edit_changed
    (e := { s.entryPage v with present := false }) isWindow_PT (hg'.quiet (hg.quiet h.quiet)) hpt
  refine ⟨s4.freeTmp TMPPTOFF, ?_, PD, PT, s1, s2, hg, hg', hused, ?_, hchanged⟩
  · unfold freeMapping1
    rw [heq, ok_bind]
    simp only [hact, ok_bind, hread]
    rw [hp.2.2, assert_true, ok_bind, hwrite]
    rfl
  · rw [hentry, hpt.entry]

end Machine

end SupOS
