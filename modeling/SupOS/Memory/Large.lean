import SupOS.Memory.Mapping

/-! Pages of 2 MiB: `createMapping2M` and `freeMapping2M` of `Memory/Paging.cpp`, and what one call
for one page does to the translation. -/

namespace SupOS

open Lib Entry

/-- The entry that `createMapping2M` stores. -/
def Entry.large (e : Entry) (phy : Nat) (wt : Bool) : Entry :=
  { e.active phy with writeThrough := wt, isSizeMega := true }

namespace Machine

section

variable (A : FrameAllocator) (s : Machine)

/-- `createMapping2M(phy, virt, wt)`. -/
def createMapping2M1 (phy virt : Nat) (wt : Bool) : Except Fault Machine := do
  if phy % 2 ^ 20 ≠ 0 then
    throw (.bsod "Create mapping 2M : physical address is not 2M-page-aligned : %p")
  if virt % 2 ^ 20 ≠ 0 then
    throw (.bsod "Create mapping : virtual address is not 2M-page-aligned : %p")
  if phy >>> 52 ≠ 0 then
    throw (.bsod "Create mapping : physical address is too large (more than 52 bits)")
  let (PD, s) ← s.getPDphy A virt
  let s ← s.actTmp TMPPDOFF PD
  let e ← s.readAt TMPPDOFF (getPDindex virt)
  if e.present then
    throw (.bsod "The virtual 2M page %p was already mapped to something")
  let e ← e.activeAddr phy
  let s ← s.writeAt TMPPDOFF (getPDindex virt) { e with writeThrough := wt, isSizeMega := true }
  return s.freeTmp TMPPDOFF

/-- `createMapping2M(phy, virt, numPg, wt)`. -/
def createMapping2M (phy virt numPg : Nat) (wt : Bool) : Except Fault Machine :=
  (List.range numPg).foldlM (fun s i => s.createMapping2M1 A (u64 (phy + u32 (i * 0x200000)))
    (u64 (virt + u32 (i * 0x200000))) wt) s

/-- The round of `freeMapping2M` for the page at `addr`, which clears the entry of `cleared`. -/
def freeMapping2M1 (addr cleared : Nat) : Except Fault Machine := do
  let (PD, s) ← s.getPDphy A addr
  let s ← s.actTmp TMPPDOFF PD
  let e ← s.readAt TMPPDOFF (getPDindex addr)
  assert e.present
  assert e.isSizeMega
  let e ← s.readAt TMPPDOFF (getPDindex cleared)
  let s ← s.writeAt TMPPDOFF (getPDindex cleared) { e with present := false, isSizeMega := false }
  return s.freeTmp TMPPDOFF

/-- `freeMapping2M(virt, nbPages)`. The page's directory is found with `i * 0x200000`, the entry that
is cleared with `i * 0x1000`. -/
def freeMapping2M (virt nbPages : Nat) : Except Fault Machine :=
  (List.range nbPages).foldlM (fun s i => s.freeMapping2M1 A (u64 (virt + i32 (i * 0x200000)))
    (u64 (virt + i32 (i * 0x1000)))) s

end

variable {A : FrameAllocator} {s s1 s' : Machine} {v w PD i : Nat}

/-- Well-formed tables without pages of 1 GiB, which the header calls unused. -/
structure Regular (s : Machine) : Prop where
  wf : s.WellFormed
  noGiga : ∀ a f i, a < 512 → i < 512 → s.tableAt [a] = some f → (s.mem f i).isSizeMega = false

/-- The slot of the PML4 for an address is present. -/
def HasPDP (s : Machine) (v : Nat) : Prop := (s.mem s.pml4 (getPML4index v)).present = true

/-- The directory has an entry for the 2 MiB around an address. -/
def Occupied (s : Machine) (v : Nat) : Prop :=
  (s.entryPD v).present = true ∧ (s.entryPT v).present = true

/-- The directory's entry for an address is a page of 2 MiB. -/
def Large (s : Machine) (v : Nat) : Prop :=
  ∃ PD, s.tableAt (pathPD v) = some PD ∧ (s.mem PD (getPDindex v)).present = true ∧
    (s.mem PD (getPDindex v)).isSizeMega = true

/-- What a change of the directory entry at the end of the path `p` leaves: the pages of the entry are
translated by `target` and the others as before. -/
structure Relaid (s s' : Machine) (p : List Nat) (target : Nat → Option Nat) : Prop where
  regular : s'.Regular
  slots : ∀ v, s.HasPDP v → s'.HasPDP v
  dirs : ∀ v PD, s.tableAt (pathPD v) = some PD → s'.tableAt (pathPD v) = some PD
  inside : ∀ w, pathPT w = p → s'.translate w = target w
  outside : ∀ w, pathPT w ≠ p → s'.translate w = s.translate w

/-- Entry `i` of the table at `PD` has become `e`. -/
structure Edited (s s' : Machine) (PD i : Nat) (e : Entry) : Prop where
  used : s'.used = s.used
  entry : s'.mem PD i = e
  changed : Changed s s' fun f j => f = PD ∧ j = i

theorem path_root (v : Nat) : Path ([] ++ [getPML4index v]) := path_pathPDP v

/-! ### The page directory -/

theorem getPDphy_got (h : s.WellFormed) (hslot : s.HasPDP v) :
    Ensures (s.getPDphy A v) (fun e => e = .outOfMemory ∧ (s.entryPD v).present = false)
      (Got s (s.pdp v) (getPDPindex v)) := by
  have hpdp := h.pdp_at hslot
  obtain ⟨hused, hz⟩ := h.used _ _ (path_pathPDP v) hpdp
  unfold getPDphy
  rw [getPDPphy_eq h.view hz, ok_bind]
  refine getTable_got h.quiet (.inl rfl) isWindow_PD (by decide) (isFrame_getAddr _) hused
    (fun hw => h.ne_pagePT (path_pathPD v) hpdp hw.1) fun hp => ?_
  exact (h.used _ _ (path_pathPD v) (h.pd_at hslot hp)).2

/-- The directory that is found or made brings no page of 1 GiB. -/
theorem Got.regular (h : s.Regular) (hslot : s.HasPDP v)
    (hg : Got s (s.pdp v) (getPDPindex v) (PD, s1)) :
    Kept s s1 ∧ s1.tableAt (pathPD v) = some PD ∧ s1.Regular := by
  have hpdp := h.wf.pdp_at hslot
  have hclean := h.noGiga _ _ _ (getPML4index_lt v) (getPDPindex_lt v) hpdp
  obtain ⟨hk, hPD⟩ := hg.kept h.wf (path_pathPD v) le_rfl hpdp hclean
  refine ⟨hk, hPD, hk.wf, fun a f j ha hj hf => ?_⟩
  have hpath : Path ([a] ++ [j]) := ⟨by simp, by simp [ha, hj]⟩
  cases hg with
  | present hpres used changed =>
    have hf : s.tableAt [a] = some f :=
      (h.wf.tableAt_changed changed (fun _ _ _ _ _ hd => hd) (Path.closed _ _ hpath)).symm.trans hf
    rw [changed.mem f j (fun hd => hd) fun hw => h.wf.ne_pagePT hpath hf hw.1]
    exact h.noGiga a f j ha hj hf
  | fresh hpres ht hz hframe used blank entry changed =>
    have hat : s1.tableAt [a] = if [a] = [getPML4index v] ++ [getPDPindex v] then some PD
        else s.tableAt [a] :=
      h.wf.attached (path_pathPD v) hpdp hclean hpres ht hframe blank entry changed
        (Path.closed _ _ hpath)
    rw [if_neg (by simp)] at hat
    rw [hat] at hf
    by_cases hfj : f = s.pdp v ∧ j = getPDPindex v
    · rw [hfj.1, hfj.2, entry, isSizeMega_active]
      exact hclean
    · have hft : f ≠ PD := fun hft => ht (hft ▸ (h.wf.used _ _ (Path.closed _ _ hpath) hf).1)
      rw [changed.mem f j (fun hd => hd.elim hft hfj) fun hw => h.wf.ne_pagePT hpath hf hw.1]
      exact h.noGiga a f j ha hj hf

/-- The entry for an address in a directory that was found or made. -/
theorem Got.entry_eq (h : s.WellFormed) (hslot : s.HasPDP v)
    (hg : Got s (s.pdp v) (getPDPindex v) (PD, s1)) : s1.mem PD (getPDindex v) =
      if (s.entryPD v).present = true then s.entryPT v else Entry.blank := by
  cases hg with
  | present hp used changed =>
    have hp : (s.entryPD v).present = true := hp
    rw [if_pos hp]
    exact changed.mem _ _ (fun hd => hd) fun hw =>
      h.ne_pagePT (path_pathPT v) (h.pd_at hslot hp) hw.1
  | fresh hp ht hz hf used blank entry changed =>
    have hp : (s.entryPD v).present = false := hp
    rw [hp, if_neg Bool.false_ne_true]
    exact blank _

theorem Got.hasPDP (h : s.WellFormed) (hg : Got s (s.pdp v) (getPDPindex v) (PD, s1))
    (hslot : s.HasPDP v) (hw : s.HasPDP w) : s1.HasPDP w := by
  have hroot : s.tableAt [] = some s.pml4 := rfl
  rw [HasPDP, hg.pml4, hg.mem (h.used [] _ ⟨by simp, by simp⟩ hroot).1 (fun hd => ?_) fun hwin =>
    h.ne_pagePT (path_root w) hroot hwin.1]
  · exact hw
  · have := h.tree [] [getPML4index v] _ ⟨by simp, by simp⟩ (path_pathPDP v) hroot
      ((h.pdp_at hslot).trans (congrArg some hd.1.symm))
    exact absurd this (by simp)

/-- The directory can be changed through the window for directories. -/
theorem WellFormed.usable (h : s.WellFormed) (hPD : s.tableAt (pathPD v) = some PD)
    (hframe : IsFrame PD) (i : Nat) : Usable s PD i (s.mem PD i) where
  frame := hframe
  used := (h.used _ _ (path_pathPD v) hPD).1
  apart hw := h.ne_pagePT (path_pathPT v) hPD hw.1
  entry := rfl

theorem Got.frame {parent t : Nat} (hg : Got s parent i (t, s1)) : IsFrame t := by
  cases hg with
  | present => exact isFrame_getAddr _
  | fresh _ _ _ hf => exact hf

/-! ### A change of an entry -/

theorem path_entry (v : Nat) (hi : i < 512) : Path (pathPD v ++ [i]) :=
  (path_pathPD v).snoc (by simp [pathPD]) hi

/-- A path through an entry of a directory ends there. -/
theorem eq_of_prefix_entry {q : List Nat} (hq : Path q) (hpre : pathPD v ++ [i] <+: q) :
    q = pathPD v ++ [i] := by
  refine (hpre.eq_of_length_le ?_).symm
  simpa [pathPD] using hq.1

/-- An entry that is no page table ends its path; the other tables are where they were. -/
theorem Edited.tableAt {e : Entry} (h : s.WellFormed) (hPD : s.tableAt (pathPD v) = some PD)
    (hchild : e.child = none) (he : Edited s s' PD i e) {q : List Nat} (hq : Path q) :
    s'.tableAt q = if q = pathPD v ++ [i] then none else s.tableAt q := by
  have hdetach := Store.descend_detach Path.closed h.tree (path_pathPD v) hPD
    (show Entry.child (s'.mem PD i) = none by rw [he.entry, hchild]) (fun r j y hrj hy hne => congrArg Entry.child
      (he.changed.mem y j hne fun hw => h.ne_pagePT hrj hy hw.1)) hq
  rw [Machine.tableAt, he.changed.pml4, hdetach]
  by_cases hpre : pathPD v ++ [i] <+: q
  · rw [if_pos hpre, if_pos (eq_of_prefix_entry hq hpre)]
  · rw [if_neg hpre, if_neg fun heq : q = _ => hpre (heq ▸ List.prefix_refl _)]
    rfl

/-- A change of an entry that is no page table, neither before Paging's own nor after. -/
theorem Edited.relaid {e : Entry} (h : s.Regular) (hPD : s.tableAt (pathPD v) = some PD)
    (hpage : pathPD v ++ [i] ≠ [511, 509, 0]) (hchild : e.child = none)
    (he : Edited s s' PD i e) : Relaid s s' (pathPD v ++ [i]) fun w =>
      if e.present then some (e.getAddr + getPTindex w * 0x1000) else none := by
  have hat : ∀ q, Path q → s'.tableAt q = if q = pathPD v ++ [i] then none else s.tableAt q :=
    fun q hq => he.tableAt h.wf hPD hchild hq
  have hsome : ∀ q x, Path q → s'.tableAt q = some x → s.tableAt q = some x := by
    intro q x hq hx
    rw [hat q hq] at hx
    split_ifs at hx
    exact hx
  -- The directory is at the end of one path.
  have hdir : ∀ q y, Path q → s.tableAt q = some y → q ≠ pathPD v → y ≠ PD :=
    fun q y hq hy hne hyPD => hne (h.wf.tree q _ y hq (path_pathPD v) hy (hyPD ▸ hPD))
  have hmem : ∀ q j y, Path (q ++ [j]) → s.tableAt q = some y → q ≠ pathPD v →
      s'.mem y j = s.mem y j := fun q j y hqj hy hne =>
    he.changed.mem y j (fun hd => hdir q y (Path.closed _ _ hqj) hy hne hd.1)
      fun hw => h.wf.ne_pagePT hqj hy hw.1
  have hshort : ∀ q, q.length ≤ 2 → q ≠ pathPD v ++ [i] := by
    rintro q hlen rfl
    simp [pathPD] at hlen
  have hpt : s'.tableAt [511, 509, 0] = some s'.pagePT := by
    rw [hat _ WellFormed.path_pagePT, if_neg hpage.symm, he.changed.pagePT]
    exact h.wf.pagePT
  have hwf : s'.WellFormed := by
    refine ⟨he.changed.quiet h.wf.quiet he.used.ge, h.wf.window_kept he.changed ?_, ?_, ?_, hpt, ?_⟩
    · rintro ⟨heq, -⟩
      exact h.wf.ne_pagePT (path_pathPT v) hPD heq.symm
    · intro q r x hq hr hqx hrx
      exact h.wf.tree q r x hq hr (hsome q x hq hqx) (hsome r x hr hrx)
    · intro q x hq hx
      rw [he.used]
      exact h.wf.used q x hq (hsome q x hq hx)
    · intro q x hlen hq hx j hj
      have hx := hsome q x hq hx
      rw [hmem q j x (hq.snoc (by omega) hj) hx (by rintro rfl; simp [pathPD] at hlen)]
      exact h.wf.large q x hlen hq hx j hj
  have hdirs : ∀ w, s'.tableAt (pathPD w) = s.tableAt (pathPD w) := fun w => by
    rw [hat _ (path_pathPD w), if_neg (hshort _ le_rfl)]
  refine ⟨⟨hwf, fun a f j ha hj hf => ?_⟩, fun w hw => ?_, fun w x hx => (hdirs w).trans hx,
    fun w hw => ?_, fun w hw => ?_⟩
  · have hpath : Path ([a] ++ [j]) := ⟨by simp, by simp [ha, hj]⟩
    have hf := hsome _ _ (Path.closed _ _ hpath) hf
    rw [hmem [a] j f hpath hf (by simp [pathPD])]
    exact h.noGiga a f j ha hj hf
  · rw [HasPDP, he.changed.pml4, hmem [] _ _ (path_root w) rfl (by simp [pathPD])]
    exact hw
  · obtain ⟨hwv, hwi⟩ : pathPD w = pathPD v ∧ [getPDindex w] = [i] := List.append_inj' hw rfl
    rw [translate_of_directory ((hdirs w).trans (hwv ▸ hPD)), List.singleton_inj.mp hwi, he.entry]
    cases hp : e.present with
    | false => rfl
    | true =>
      have hmega : e.isSizeMega = true := by
        by_contra hnot
        rw [Entry.child_of_present hp (by simpa using hnot)] at hchild
        cases hchild
      rw [hmega]
      rfl
  · refine h.wf.translate_changed he.changed (hdirs w) (fun PD' hPD' hd => hw ?_) fun PT hPT hd => ?_
    · have hwv := h.wf.tree _ _ _ (path_pathPD w) (path_pathPD v) hPD' (hd.1 ▸ hPD)
      rw [← hwv, ← hd.2]
      rfl
    · have hwv := h.wf.tree _ _ _ (path_pathPT w) (path_pathPD v) hPT (hd.1 ▸ hPD)
      exact absurd (congrArg List.length hwv) (by simp [pathPT, pathPD])

theorem Relaid.mono {p : List Nat} {target target' : Nat → Option Nat} (h : Relaid s s' p target)
    (ht : ∀ w, target w = target' w) : Relaid s s' p target' :=
  ⟨h.regular, h.slots, h.dirs, fun w hw => (h.inside w hw).trans (ht w), h.outside⟩

theorem Relaid.after {p : List Nat} {target : Nat → Option Nat} (hk : Kept s s1)
    (hslots : ∀ v, s.HasPDP v → s1.HasPDP v) (h : Relaid s1 s' p target) : Relaid s s' p target where
  regular := h.regular
  slots v hv := h.slots v (hslots v hv)
  dirs v x hx := h.dirs v x (hk.tables _ x (path_pathPD v) hx)
  inside := h.inside
  outside w hw := (h.outside w hw).trans (hk.translate w)

/-! ### One page of 2 MiB -/

/-- Paging's own table is in its place, so that the entry for it is present. -/
theorem WellFormed.present_of_pagePT (h : s.WellFormed) (hPD : s.tableAt (pathPD v) = some PD)
    (hpage : pathPD v ++ [i] = [511, 509, 0]) : (s.mem PD i).child = some s.pagePT :=
  (Store.descend_snoc i hPD).symm.trans ((congrArg s.tableAt hpage).trans h.pagePT)

theorem createMapping2M1_relaid (h : s.Regular) (hslot : s.HasPDP v) {phy : Nat} {wt : Bool}
    (hv : v % 2 ^ 20 = 0) (hphy : phy % 2 ^ 20 = 0) (hmax : phy < 2 ^ 52) :
    Ensures (s.createMapping2M1 A phy v wt) (fun e => e = .outOfMemory ∨ s.Occupied v) fun s' =>
      s'.Large v ∧ Relaid s s' (pathPT v) fun w => some (phy + getPTindex w * 0x1000) := by
  have hframe : IsFrame phy := by
    refine ⟨by omega, ?_⟩
    rw [Nat.shiftRight_eq_div_pow]
    omega
  unfold createMapping2M1
  rw [if_neg (not_not.mpr hphy), if_neg (not_not.mpr hv), if_neg (not_not.mpr hframe.2)]
  refine ((getPDphy_got h.wf hslot).mono (fun e he => .inl he.1) fun _ h => h).bind ?_
  rintro ⟨PD, s1⟩ hg
  obtain ⟨hk, hPD, hreg⟩ := hg.regular h hslot
  have hentry0 := hg.entry_eq h.wf hslot
  generalize he0 : s1.mem PD (getPDindex v) = e0 at hentry0
  have husable := hreg.wf.usable hPD hg.frame (getPDindex v)
  rw [he0] at husable
  obtain ⟨s3, s4, hact, hread, hwrite, hused, hentry, hchanged⟩ := edit_changed
    (e := e0.large phy wt) isWindow_PD hreg.wf.quiet husable
  simp only [hact, ok_bind, hread]
  by_cases hp : e0.present = true
  · rw [if_pos hp]
    refine .inr ?_
    by_cases hp1 : (s.entryPD v).present = true
    · rw [if_pos hp1] at hentry0
      exact ⟨hp1, hentry0 ▸ hp⟩
    · rw [if_neg hp1] at hentry0
      rw [hentry0] at hp
      exact absurd hp Bool.false_ne_true
  · rw [if_neg hp, activeAddr_eq _ hframe, ok_bind]
    change Ensures (s3.writeAt _ _ (e0.large phy wt) >>= _) _ _
    rw [hwrite, ok_bind]
    have hedit : Edited s1 (s4.freeTmp TMPPDOFF) PD (getPDindex v) (e0.large phy wt) :=
      ⟨hused, hentry, hchanged⟩
    have hpage : pathPD v ++ [getPDindex v] ≠ [511, 509, 0] := by
      intro hpage
      have hchild := hreg.wf.present_of_pagePT hPD hpage
      rw [he0] at hchild
      exact hp (Entry.child_eq_some.mp hchild).1
    have hrel := hedit.relaid hreg hPD hpage rfl
    refine ⟨⟨PD, hrel.dirs v PD hPD, ?_, ?_⟩, ?_⟩
    · rw [hentry]
      rfl
    · rw [hentry]
      rfl
    · have haddr : (e0.large phy wt).getAddr = phy := Entry.getAddr_active e0 hframe
      refine (hrel.mono fun w => ?_).after hk fun w hw => hg.hasPDP h.wf hslot hw
      rw [haddr]
      exact if_pos rfl

/-- What a directory on the way to an address says of the entries before it. -/
theorem of_directory (hPD : s.tableAt (pathPD v) = some PD) :
    s.HasPDP v ∧ (s.entryPD v).present = true ∧ (s.entryPD v).getAddr = PD := by
  obtain ⟨g, hg, hrest⟩ := Store.descend_prefix (p := [getPML4index v]) (q := [getPDPindex v]) hPD
  have hslot : (s.mem s.pml4 (getPML4index v)).child = some g :=
    (Store.descend_snoc (p := []) _ rfl).symm.trans hg
  obtain ⟨hp, -, rfl⟩ := Entry.child_eq_some.mp hslot
  have hentry : (s.entryPD v).child = some PD :=
    (Store.descend_snoc (p := []) _ rfl).symm.trans hrest
  obtain ⟨hp', -, haddr⟩ := Entry.child_eq_some.mp hentry
  exact ⟨hp, hp', haddr⟩

/-- A round of `freeMapping2M` for a page with a directory: it stops unless the page is one of 2 MiB, and
unmaps what the entry it clears maps. -/
theorem freeMapping2M1_relaid (h : s.Regular) {addr cleared : Nat}
    (hPD : s.tableAt (pathPD addr) = some PD)
    (hpage : pathPD addr ++ [getPDindex cleared] ≠ [511, 509, 0]) :
    Ensures (s.freeMapping2M1 A addr cleared) (fun _ => ¬s.Large addr) fun s' =>
      s.Large addr ∧ Relaid s s' (pathPD addr ++ [getPDindex cleared]) fun _ => none := by
  obtain ⟨hslot, hpres, haddr⟩ := of_directory hPD
  unfold freeMapping2M1
  refine ((getPDphy_got h.wf hslot).mono (fun e he => ?_) fun _ h => h).bind ?_
  · exact absurd (he.2.symm.trans hpres) Bool.false_ne_true
  rintro ⟨PD', s1⟩ hg
  obtain ⟨hk, hPD', hreg⟩ := hg.regular h hslot
  obtain rfl : PD' = PD := Option.some.inj (hPD'.symm.trans (hk.tables _ _ (path_pathPD addr) hPD))
  have hsame : s1.mem PD' (getPDindex addr) = s.mem PD' (getPDindex addr) := by
    rw [hg.entry_eq h.wf hslot, if_pos hpres, entryPT, haddr]
  obtain ⟨s3, s4, hact, hread, -⟩ := edit_changed (e := Entry.blank) isWindow_PD hreg.wf.quiet
    (hreg.wf.usable hPD' hg.frame (getPDindex addr))
  obtain ⟨s3', s5, hact', hread', hwrite, hused, hentry, hchanged⟩ := edit_changed
    (e := { s1.mem PD' (getPDindex cleared) with present := false, isSizeMega := false }) isWindow_PD
    hreg.wf.quiet (hreg.wf.usable hPD' hg.frame (getPDindex cleared))
  obtain rfl : s3 = s3' := Except.ok.inj (hact.symm.trans hact')
  simp only [hact, ok_bind, hread]
  have hlarge : s.Large addr ↔ (s.mem PD' (getPDindex addr)).present = true ∧
      (s.mem PD' (getPDindex addr)).isSizeMega = true := by
    refine ⟨?_, fun hl => ⟨PD', hPD, hl⟩⟩
    rintro ⟨PD, hPD2, hl⟩
    obtain rfl := Option.some.inj (hPD.symm.trans hPD2)
    exact hl
  rw [hsame]
  cases hp : (s.mem PD' (getPDindex addr)).present with
  | false => exact fun hl => Bool.false_ne_true (hp.symm.trans (hlarge.mp hl).1)
  | true =>
    cases hm : (s.mem PD' (getPDindex addr)).isSizeMega with
    | false => exact fun hl => Bool.false_ne_true (hm.symm.trans (hlarge.mp hl).2)
    | true =>
      rw [assert_true, ok_bind, ok_bind, hread', ok_bind, hwrite, ok_bind]
      have hedit : Edited s1 (s5.freeTmp TMPPDOFF) PD' (getPDindex cleared) _ :=
        ⟨hused, hentry, hchanged⟩
      exact ⟨hlarge.mpr ⟨hp, hm⟩, (hedit.relaid hreg hPD' hpage rfl).after hk fun w hw =>
        hg.hasPDP h.wf hslot hw⟩

/-- The page of a page of 2 MiB is mapped. -/
theorem Large.translate_ne_none (h : s.Large v) : s.translate v ≠ none := by
  obtain ⟨PD, hPD, hp, hm⟩ := h
  rw [translate_of_directory hPD, if_pos hp, if_pos hm]
  exact Option.some_ne_none _

end Machine

end SupOS
