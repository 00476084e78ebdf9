import SupOS.Memory.Large

/-! Ranges of pages of 2 MiB: when `freeMapping2M` undoes what `createMapping2M` has done, and when an
address that is not aligned is refused. -/

namespace SupOS

open Lib Entry

namespace Machine

variable {A : FrameAllocator} {s s1 s' : Machine} {phy virt v w n i : Nat} {wt : Bool}

/-- Both addresses are multiples of 2 MiB. -/
def Aligned2M (phy virt : Nat) : Prop := phy % 0x200000 = 0 ∧ virt % 0x200000 = 0

/-- Both addresses are multiples of 1 MiB, which is what `createMapping2M` checks. -/
def Aligned1M (phy virt : Nat) : Prop := phy % 2 ^ 20 = 0 ∧ virt % 2 ^ 20 = 0

/-- The errors of `createMapping2M` for addresses that are not aligned. -/
def Unaligned (e : Fault) : Prop :=
  e = .bsod "Create mapping 2M : physical address is not 2M-page-aligned : %p" ∨
    e = .bsod "Create mapping : virtual address is not 2M-page-aligned : %p"

/-- The pages of the range are translated to the frames from `phy` on, the others as in `s`. -/
structure Laid (s s' : Machine) (phy virt n : Nat) : Prop where
  inside : ∀ j < n * 512, s'.translate (virt + j * 0x1000) = some (phy + j * 0x1000)
  outside : ∀ w, Canonical w → w % 0x1000 = 0 → (∀ j < n * 512, w ≠ virt + j * 0x1000) →
    s'.translate w = s.translate w

/-- `createMapping2M` maps the range and `freeMapping2M` leaves every page's translation as it was. -/
def Undone (A : FrameAllocator) (s : Machine) (phy virt n : Nat) (wt : Bool) : Prop :=
  ∃ s1, s.createMapping2M A phy virt n wt = .ok s1 ∧ Laid s s1 phy virt n ∧
    ∃ s2, s1.freeMapping2M A virt n = .ok s2 ∧
      ∀ w, Canonical w → w % 0x1000 = 0 → s2.translate w = s.translate w

/-- What the two functions should do: a range of aligned addresses is mapped and unmapped again, and an
address that is not aligned is refused. -/
def Meets (A : FrameAllocator) (s : Machine) (phy virt n : Nat) (wt : Bool) : Prop :=
  (Aligned2M phy virt → Undone A s phy virt n wt) ∧
    (¬Aligned2M phy virt → n ≠ 0 → ∃ e, s.createMapping2M A phy virt n wt = .error e ∧ Unaligned e)

/-- The arguments of a call for a range of unmapped pages, with memory for the tables it needs. -/
structure Vacant (A : FrameAllocator) (s : Machine) (phy virt n : Nat) (wt : Bool) : Prop where
  frames : phy + n * 0x200000 ≤ 2 ^ 52
  canonical : ∀ i < n, Canonical (virt + i * 0x200000)
  slots : ∀ i < n, s.HasPDP (virt + i * 0x200000)
  unmapped : ∀ i < n, ¬s.Occupied (virt + i * 0x200000)
  memory : s.createMapping2M A phy virt n wt ≠ .error .outOfMemory

/-! ### Addresses -/

theorem Canonical.lt (h : Canonical v) : v < 2 ^ 64 := by
  rcases h with h | h <;> omega

/-- Two addresses in the same 2 MiB. -/
theorem pathPT_eq_iff (hv : Canonical v) (hw : Canonical w) :
    pathPT w = pathPT v ↔ w / 0x200000 = v / 0x200000 := by
  simp only [pathPT, List.cons.injEq, getPML4index, getPDPindex, getPDindex, and_true,
    Nat.shiftRight_eq_div_pow]
  unfold Canonical at hv hw
  omega

theorem pathPT_page (hv : v % 0x200000 = 0) {j : Nat} (hj : j < 512) :
    pathPT (v + j * 0x1000) = pathPT v ∧ getPTindex (v + j * 0x1000) = j := by
  simp only [pathPT, List.cons.injEq, getPML4index, getPDPindex, getPDindex, getPTindex, and_true,
    Nat.shiftRight_eq_div_pow]
  omega

theorem canonical_page (h : Canonical v) (hv : v % 0x200000 = 0) {j : Nat} (hj : j < 512) :
    Canonical (v + j * 0x1000) := by
  unfold Canonical at *
  omega

/-- The part of `u32` arithmetic that stays in the range. -/
theorem u32_page (i : Nat) : u32 (i * 0x200000) = i % 2048 * 0x200000 := by
  unfold u32
  omega

/-- A page that is not occupied is not mapped. -/
theorem translate_of_unoccupied (h : ¬s.Occupied v) : s.translate v = none := by
  cases hPD : s.tableAt (pathPD v) with
  | none => exact translate_of_no_directory hPD
  | some PD =>
    obtain ⟨-, hp, haddr⟩ := of_directory hPD
    rw [translate_of_directory hPD, if_neg]
    rw [← haddr]
    exact fun hentry => h ⟨hp, hentry⟩

theorem unoccupied_of_path (h : ¬s.Occupied v) (hw : pathPT w = pathPT v) : ¬s.Occupied w := by
  simp only [pathPT, List.cons.injEq, and_true] at hw
  obtain ⟨h4, h3, h2⟩ := hw
  rw [Occupied, entryPT, entryPD, pdp, h4, h3, h2]
  exact h

/-! ### Mapping a range -/

/-- Whatever the number of pages, the tables stay well formed. -/
theorem createMapping2M_regular (h : s.Regular) (hal : Aligned2M phy virt)
    (hv : Vacant A s phy virt n wt) :
    Ensures (s.createMapping2M A phy virt n wt) (fun _ => True) fun s' => s'.Regular := by
  refine (Ensures.foldlM_range (P := fun _ s' => s'.Regular ∧ ∀ v, s.HasPDP v → s'.HasPDP v)
    ⟨h, fun _ hw => hw⟩ fun i hi s' hs' => ?_).mono (fun _ he => he) fun _ hs => hs.1
  obtain ⟨hphy, hvirt⟩ := hal
  have hframes := hv.frames
  have hi' : i % 2048 < n := Nat.lt_of_le_of_lt (Nat.mod_le ..) hi
  have hpage := hv.canonical _ hi'
  rw [u32_page, u64_of_lt hpage.lt, u64_of_lt (by omega)]
  refine (createMapping2M1_relaid hs'.1 (hs'.2 _ (hv.slots _ hi')) ?_ ?_ ?_).mono
    (fun _ _ => trivial) fun s2 hs2 => ⟨hs2.2.regular, fun w hw => hs2.2.slots w (hs'.2 w hw)⟩
  · omega
  · omega
  · omega

/-- The call for one page. -/
theorem createMapping2M_one (h : s.Regular) (hal : Aligned2M phy virt)
    (hv : Vacant A s phy virt 1 wt) : ∃ s', s.createMapping2M A phy virt 1 wt = .ok s' ∧
      s'.Large virt ∧ Relaid s s' (pathPT virt) fun w => some (phy + getPTindex w * 0x1000) := by
  obtain ⟨hphy, hvirt⟩ := hal
  have hframes := hv.frames
  have hcanon := hv.canonical 0 Nat.one_pos
  have hslot := hv.slots 0 Nat.one_pos
  have hfree := hv.unmapped 0 Nat.one_pos
  have hmem := hv.memory
  have hone : s.createMapping2M A phy virt 1 wt = s.createMapping2M1 A phy virt wt := by
    have hvirt : u64 (virt + u32 (0 * 0x200000)) = virt := u64_of_lt hcanon.lt
    have hphy : u64 (phy + u32 (0 * 0x200000)) = phy := u64_of_lt (by show phy + 0 < _; omega)
    rw [createMapping2M, List.range_one, List.foldlM_cons, hvirt, hphy]
    cases s.createMapping2M1 A phy virt wt <;> rfl
  rw [hone] at hmem ⊢
  refine Ensures.returns (E := fun _ => False) ?_ fun _ he => he
  have hcall : Ensures (s.createMapping2M1 A phy virt wt) _ _ :=
    createMapping2M1_relaid h hslot (by omega) (by omega) (by omega)
  cases hres : s.createMapping2M1 A phy virt wt with
  | ok s' => exact hcall.of_ok hres
  | error e =>
    rcases hcall.of_error hres with rfl | hocc
    · exact hmem hres
    · exact hfree hocc

/-- One page of 2 MiB in the place of an unoccupied one. -/
theorem Relaid.laid (hal : Aligned2M phy virt) (hcanon : Canonical virt)
    (h : Relaid s s' (pathPT virt) fun w => some (phy + getPTindex w * 0x1000)) :
    Laid s s' phy virt 1 where
  inside j hj := by
    obtain ⟨hpath, hslot⟩ := pathPT_page hal.2 (j := j) (by omega)
    rw [h.inside _ hpath, hslot]
  outside w hw hwa hne := by
    refine h.outside w fun hpath => ?_
    have hsame := (pathPT_eq_iff hcanon hw).mp hpath
    refine hne ((w - virt) / 0x1000) ?_ ?_
    · have := hal.2
      omega
    · have := hal.2
      omega

/-- A range of one page is mapped and unmapped again. -/
theorem undone_one (h : s.Regular) (hal : Aligned2M phy virt) (hv : Vacant A s phy virt 1 wt) :
    Undone A s phy virt 1 wt := by
  obtain ⟨s1, hcreate, hlarge, hrel⟩ := createMapping2M_one h hal hv
  have hcanon := hv.canonical 0 Nat.one_pos
  refine ⟨s1, hcreate, hrel.laid hal hcanon, ?_⟩
  have hone : s1.freeMapping2M A virt 1 = s1.freeMapping2M1 A virt virt := by
    have hvirt : u64 (virt + i32 (0 * 0x200000)) = virt := u64_of_lt hcanon.lt
    rw [freeMapping2M, List.range_one, List.foldlM_cons, hvirt]
    cases s1.freeMapping2M1 A virt virt <;> rfl
  have hnot : ¬s.Occupied virt := hv.unmapped 0 Nat.one_pos
  obtain ⟨PD, hPD, hp, hm⟩ := id hlarge
  have hpage : pathPD virt ++ [getPDindex virt] ≠ [511, 509, 0] := by
    intro hpage
    have hchild := hrel.regular.wf.present_of_pagePT hPD hpage
    exact Bool.false_ne_true ((Entry.child_eq_some.mp hchild).2.1.symm.trans hm)
  rw [hone]
  obtain ⟨s2, hs2, -, hrel2⟩ := (freeMapping2M1_relaid (A := A) hrel.regular hPD hpage).mono
    (fun _ he => he hlarge) (fun _ hs => hs) |>.returns fun _ he => he
  refine ⟨s2, hs2, fun w hw hwa => ?_⟩
  by_cases hpath : pathPT w = pathPT virt
  · rw [hrel2.inside w hpath, translate_of_unoccupied (unoccupied_of_path hnot hpath)]
  · rw [hrel2.outside w hpath, hrel.outside w hpath]

/-! ### Unmapping a range -/

/-- The path to the entry that round `r` of `freeMapping2M` clears. -/
def clearedPath (virt r : Nat) : List Nat :=
  pathPD (virt + r * 0x200000) ++ [getPDindex (virt + r * 0x1000)]

/-- The state after the first `m` rounds of `freeMapping2M`: what they clear is not mapped, the rest as
before, and no round has met a page that an earlier one cleared. -/
structure Freed (s s' : Machine) (virt m : Nat) : Prop where
  regular : s'.Regular
  dirs : ∀ v PD, s.tableAt (pathPD v) = some PD → s'.tableAt (pathPD v) = some PD
  cleared : ∀ w, (∃ r < m, pathPT w = clearedPath virt r) → s'.translate w = none
  spared : ∀ w, (∀ r < m, pathPT w ≠ clearedPath virt r) → s'.translate w = s.translate w
  met : ∀ r < m, ∀ k < r, pathPT (virt + r * 0x200000) ≠ clearedPath virt k

theorem Freed.next {m : Nat} (h : Freed s s1 virt m) (hlarge : s1.Large (virt + m * 0x200000))
    (hr : Relaid s1 s' (clearedPath virt m) fun _ => none) : Freed s s' virt (m + 1) where
  regular := hr.regular
  dirs v PD hPD := hr.dirs v PD (h.dirs v PD hPD)
  cleared w hw := by
    by_cases hm : pathPT w = clearedPath virt m
    · exact hr.inside w hm
    · obtain ⟨r, hlt, hpath⟩ := hw
      rw [hr.outside w hm]
      refine h.cleared w ⟨r, Nat.lt_of_le_of_ne (Nat.le_of_lt_succ hlt) ?_, hpath⟩
      rintro rfl
      exact hm hpath
  spared w hw := by
    rw [hr.outside w (hw m (Nat.lt_succ_self m))]
    exact h.spared w fun r hlt => hw r (Nat.lt_succ_of_lt hlt)
  met r hlt k hk := by
    rcases Nat.lt_succ_iff_lt_or_eq.mp hlt with hlt | rfl
    · exact h.met r hlt k hk
    · exact fun hpath => hlarge.translate_ne_none (h.cleared _ ⟨k, hk, hpath⟩)

theorem pathPT_nth (hal : virt % 0x200000 = 0) (r : Nat) : pathPT (virt + r * 0x200000) =
    [(virt / 0x200000 + r) / 262144 % 512, (virt / 0x200000 + r) / 512 % 512,
      (virt / 0x200000 + r) % 512] := by
  simp only [pathPT, getPML4index, getPDPindex, getPDindex, Nat.shiftRight_eq_div_pow,
    List.cons.injEq, and_true]
  omega

theorem clearedPath_eq (hal : virt % 0x200000 = 0) (r : Nat) : clearedPath virt r =
    [(virt / 0x200000 + r) / 262144 % 512, (virt / 0x200000 + r) / 512 % 512,
      (virt / 0x200000 + r / 512) % 512] := by
  simp only [clearedPath, pathPD, getPML4index, getPDPindex, getPDindex, Nat.shiftRight_eq_div_pow,
    List.cons_append, List.nil_append, List.cons.injEq, and_true]
  omega

/-- A range that leaves out Paging's own page table: no round clears the entry for it. -/
theorem clearedPath_ne {m r : Nat} (hal : virt % 0x200000 = 0) (hr : r < m) (hr' : r < 1024)
    (hrange : ∀ i < m, pathPT (virt + i * 0x200000) ≠ [511, 509, 0]) :
    clearedPath virt r ≠ [511, 509, 0] := by
  rw [clearedPath_eq hal]
  generalize hV : virt / 0x200000 = V
  simp only [pathPT_nth hal, hV, List.cons.injEq, and_true, ne_eq] at hrange ⊢
  rintro ⟨h4, h3, h2⟩
  by_cases hback : (V + r) % 512 ≤ r
  · -- The range holds the first page of the directory.
    have hfirst : V + (r - (V + r) % 512) = (V + r) / 512 * 512 := by omega
    refine hrange (r - (V + r) % 512) (by omega) ⟨?_, ?_, ?_⟩
    all_goals rw [hfirst]; omega
  · have hzero : r / 512 = 0 := by omega
    rw [hzero] at h2
    omega

/-- The first rounds of `freeMapping2M` that return, for pages with a directory. -/
theorem freeMapping2M_freed (h : s.Regular) (hal : virt % 0x200000 = 0)
    (hcanon : ∀ i < n, Canonical (virt + i * 0x200000))
    (hdirs : ∀ i < n, s.tableAt (pathPD (virt + i * 0x200000)) ≠ none)
    (hrange : ∀ i < n, pathPT (virt + i * 0x200000) ≠ [511, 509, 0]) (hn : n ≤ 1024) :
    Ensures (s.freeMapping2M A virt n) (fun _ => True) fun s' => Freed s s' virt n := by
  refine Ensures.foldlM_range (P := fun m s' => Freed s s' virt m) ?_ fun r hr s1 h1 => ?_
  · exact ⟨h, fun _ _ hPD => hPD, fun _ ⟨_, hlt, _⟩ => absurd hlt (Nat.not_lt_zero _), fun _ _ => rfl,
      fun _ hlt => absurd hlt (Nat.not_lt_zero _)⟩
  have hlt := (hcanon r hr).lt
  have hr1024 : r < 1024 := Nat.lt_of_lt_of_le hr hn
  have hle : r * 0x1000 ≤ r * 0x200000 := Nat.mul_le_mul_left r (by decide)
  have h31 : r * 0x200000 < 2 ^ 31 := by omega
  have hpage : u64 (virt + i32 (r * 0x200000)) = virt + r * 0x200000 := by
    rw [i32_of_lt h31, u64_of_lt hlt]
  have hcleared : u64 (virt + i32 (r * 0x1000)) = virt + r * 0x1000 := by
    rw [i32_of_lt (hle.trans_lt h31), u64_of_lt ((Nat.add_le_add_left hle virt).trans_lt hlt)]
  obtain ⟨PD, hPD⟩ := Option.ne_none_iff_exists'.mp (hdirs r hr)
  rw [hpage, hcleared]
  refine (freeMapping2M1_relaid h1.regular (h1.dirs _ _ hPD)
    (clearedPath_ne hal hr hr1024 hrange)).mono (fun _ _ => trivial) fun s2 hs2 => ?_
  exact h1.next hs2.1 hs2.2

/-- The entry for Paging's own page table is occupied. -/
theorem WellFormed.occupied (h : s.WellFormed) (hpath : pathPT v = [511, 509, 0]) : s.Occupied v := by
  have hat : s.tableAt (pathPD v ++ [getPDindex v]) = some s.pagePT :=
    (congrArg s.tableAt hpath).trans h.pagePT
  obtain ⟨PD, hPD, -⟩ := Store.descend_prefix hat
  obtain ⟨-, hp, haddr⟩ := of_directory hPD
  refine ⟨hp, ?_⟩
  rw [entryPT, haddr]
  exact (Entry.child_eq_some.mp (h.present_of_pagePT hPD hpath)).1

/-- The second or third page of a range is in no entry that `freeMapping2M` clears. -/
theorem clearedPath_spared {k r : Nat} (hal : virt % 0x200000 = 0) (hk : 1 ≤ k) (hk' : k ≤ 2)
    (hr : r < 512 * k) : pathPT (virt + k * 0x200000) ≠ clearedPath virt r := by
  rw [clearedPath_eq hal, pathPT_nth hal]
  simp only [List.cons.injEq, and_true, ne_eq]
  rintro ⟨-, -, h2⟩
  have hround : r / 512 < k := Nat.div_lt_of_lt_mul hr
  omega

/-- A round that meets a page that an earlier one cleared, in a range of 514 pages or more. -/
theorem clearedPath_met (hal : virt % 0x200000 = 0) :
    ∃ r k, r < 514 ∧ k < r ∧ pathPT (virt + r * 0x200000) = clearedPath virt k := by
  by_cases hfirst : virt / 0x200000 % 512 = 0
  · refine ⟨513, 512, by decide, by decide, ?_⟩
    rw [clearedPath_eq hal, pathPT_nth hal]
    simp only [List.cons.injEq, and_true]
    omega
  · refine ⟨512, 512 - virt / 0x200000 % 512, by decide, by omega, ?_⟩
    rw [clearedPath_eq hal, pathPT_nth hal]
    have hzero : (512 - virt / 0x200000 % 512) / 512 = 0 := by omega
    rw [hzero]
    simp only [List.cons.injEq, and_true]
    omega

/-- Of two pages or more, one stays mapped, or the assertion of `freeMapping2M` fails. -/
theorem le_one_of_undone (h : s.Regular) (hal : Aligned2M phy virt) (hv : Vacant A s phy virt n wt)
    (hu : Undone A s phy virt n wt) : n ≤ 1 := by
  obtain ⟨s1, hcreate, hlaid, s2, hfree, hsame⟩ := hu
  have hreg : s1.Regular := (createMapping2M_regular h hal hv).of_ok hcreate
  have hmapped : ∀ i < n, s1.translate (virt + i * 0x200000) = some (phy + i * 0x200000) := by
    intro i hi
    have hpage := hlaid.inside (i * 512) (by omega)
    rwa [Nat.mul_assoc] at hpage
  have hdirs : ∀ i < n, s1.tableAt (pathPD (virt + i * 0x200000)) ≠ none := by
    intro i hi hnone
    have := hmapped i hi
    rw [translate_of_no_directory hnone] at this
    exact nomatch this
  have hrange : ∀ i < n, pathPT (virt + i * 0x200000) ≠ [511, 509, 0] := fun i hi hpath =>
    hv.unmapped i hi (h.wf.occupied hpath)
  by_contra hn
  by_cases hmany : n ≤ 1024
  · have hfreed := (freeMapping2M_freed hreg hal.2 hv.canonical hdirs hrange hmany).of_ok hfree
    obtain ⟨k, hk, hk', hkn, hspare⟩ : ∃ k, 1 ≤ k ∧ k ≤ 2 ∧ k < n ∧ n ≤ 512 * k := by
      by_cases htwo : n = 2
      · exact ⟨1, by omega⟩
      · exact ⟨2, by omega⟩
    have hcanon := hv.canonical k hkn
    have hpage := hfreed.spared _ fun r hr => clearedPath_spared hal.2 hk hk' (hr.trans_le hspare)
    rw [hsame _ hcanon (by have := hal.2; omega), hmapped k hkn,
      translate_of_unoccupied (hv.unmapped k hkn)] at hpage
    exact nomatch hpage
  · obtain ⟨b, m, hb, rfl⟩ : ∃ b m, b = 1024 ∧ n = b + m := ⟨1024, n - 1024, rfl, by omega⟩
    rw [freeMapping2M, List.range_add, List.foldlM_append, bind_eq_ok] at hfree
    obtain ⟨s3, hfirst, -⟩ := hfree
    have hlt : ∀ i < b, i < b + m := fun i hi => Nat.lt_add_right m hi
    have hfreed := (freeMapping2M_freed hreg hal.2 (fun i hi => hv.canonical i (hlt i hi))
      (fun i hi => hdirs i (hlt i hi)) (fun i hi => hrange i (hlt i hi)) hb.le).of_ok hfirst
    obtain ⟨r, k, hr, hk, hpath⟩ := clearedPath_met hal.2
    exact hfreed.met r (by omega) k hk hpath

theorem undone_iff (h : s.Regular) (hal : Aligned2M phy virt) (hv : Vacant A s phy virt n wt) :
    Undone A s phy virt n wt ↔ n ≤ 1 := by
  refine ⟨le_one_of_undone h hal hv, fun hn => ?_⟩
  rcases Nat.le_one_iff_eq_zero_or_eq_one.mp hn with rfl | rfl
  · exact ⟨s, rfl, ⟨fun j hj => absurd hj (by omega), fun _ _ _ _ => rfl⟩, s, rfl,
      fun _ _ _ => rfl⟩
  · exact undone_one h hal hv

/-! ### Addresses that are not aligned -/

/-- What stops a call other than an address that is not aligned. -/
def Other (e : Fault) : Prop := ¬Unaligned e

theorem other_assertion : Other .assertion := by rintro (h | h) <;> cases h

theorem other_pageFault : Other .pageFault := by rintro (h | h) <;> cases h

theorem assert_other (b : Bool) : Ensures (assert b) Other fun _ => True := by
  cases b
  · exact other_assertion
  · trivial

theorem window_other (s : Machine) (k : Nat) : Ensures (s.window k) Other fun _ => True := by
  unfold window
  split
  · trivial
  · exact other_pageFault

theorem activeAddr_other (e : Entry) (a : Nat) : Ensures (e.activeAddr a) Other fun _ => True :=
  (assert_other _).bind fun _ _ => trivial

theorem actTmp_other (s : Machine) (k phy : Nat) : Ensures (s.actTmp k phy) Other fun _ => True :=
  (assert_other _).bind fun _ _ => (activeAddr_other _ _).bind fun _ _ => trivial

theorem readAt_other (s : Machine) (k i : Nat) : Ensures (s.readAt k i) Other fun _ => True :=
  (window_other s k).bind fun _ _ => trivial

theorem writeAt_other (s : Machine) (k i : Nat) (e : Entry) :
    Ensures (s.writeAt k i e) Other fun _ => True :=
  (window_other s k).bind fun _ _ => trivial

theorem alloc_other (s : Machine) : Ensures (s.alloc A) Other fun _ => True := by
  unfold alloc
  split
  · rintro (h | h) <;> cases h
  · trivial

theorem getTable_other (s : Machine) (win sub parent i : Nat) (check : Bool) :
    Ensures (s.getTable A win sub parent i check) Other fun _ => True := by
  unfold getTable
  refine (actTmp_other ..).bind fun s1 _ => (readAt_other ..).bind fun e _ => ?_
  split
  · exact (assert_other _).bind fun _ _ => trivial
  · refine (alloc_other _).bind fun r _ => (actTmp_other ..).bind fun s2 _ => ?_
    refine Ensures.bind ((window_other ..).bind (R := fun _ => True) fun _ _ => trivial) fun s3 _ => ?_
    refine (readAt_other ..).bind fun e2 _ => (assert_other _).bind fun _ _ => ?_
    refine (readAt_other ..).bind fun e3 _ => (activeAddr_other ..).bind fun e4 _ => ?_
    exact (writeAt_other ..).bind fun _ _ => trivial

theorem getPDphy_other (s : Machine) (v : Nat) : Ensures (s.getPDphy A v) Other fun _ => True := by
  unfold getPDphy getPDPphy
  refine Ensures.bind ((readAt_other ..).bind (R := fun _ => True) fun e _ => ?_) fun PDP _ =>
    getTable_other ..
  dsimp only
  split
  · trivial
  · rintro (h | h) <;> exact absurd (Fault.bsod.inj h) (by decide)

theorem createMapping2M1_other (s : Machine) (h : Aligned1M phy virt) :
    Ensures (s.createMapping2M1 A phy virt wt) Other fun _ => True := by
  unfold createMapping2M1
  rw [if_neg (not_not.mpr h.1), if_neg (not_not.mpr h.2)]
  refine Ensures.ite (fun _ => ?_) fun _ => ?_
  · rintro (h | h) <;> exact absurd (Fault.bsod.inj h) (by decide)
  refine (getPDphy_other ..).bind fun r _ => (actTmp_other ..).bind fun s1 _ => ?_
  refine (readAt_other ..).bind fun e _ => Ensures.ite (fun _ => ?_) fun _ => ?_
  · rintro (h | h) <;> exact absurd (Fault.bsod.inj h) (by decide)
  · exact (activeAddr_other ..).bind fun _ _ => (writeAt_other ..).bind fun _ _ => trivial

theorem createMapping2M1_unaligned (s : Machine) (h : ¬Aligned1M phy virt) :
    ∃ e, s.createMapping2M1 A phy virt wt = .error e ∧ Unaligned e := by
  unfold createMapping2M1
  by_cases hphy : phy % 2 ^ 20 = 0
  · rw [if_neg (not_not.mpr hphy), if_pos fun hvirt => h ⟨hphy, hvirt⟩]
    exact ⟨_, rfl, .inr rfl⟩
  · rw [if_pos hphy]
    exact ⟨_, rfl, .inl rfl⟩

/-- A call for at least one page is refused exactly when an address is no multiple of 1 MiB. -/
theorem refused_iff (s : Machine) (hn : n ≠ 0) :
    (∃ e, s.createMapping2M A phy virt n wt = .error e ∧ Unaligned e) ↔ ¬Aligned1M phy virt := by
  constructor
  · rintro ⟨e, he, hun⟩ hal
    have hother : Ensures (s.createMapping2M A phy virt n wt) Other fun _ => True := by
      refine Ensures.foldlM_range (P := fun _ _ => True) trivial fun i _ s1 _ => ?_
      refine createMapping2M1_other s1 ?_
      obtain ⟨hphy, hvirt⟩ := hal
      rw [u32_page]
      unfold Aligned1M u64
      omega
    exact hother.of_error he hun
  · intro hal
    obtain ⟨m, rfl⟩ := Nat.exists_eq_succ_of_ne_zero hn
    have hzero : ¬Aligned1M (u64 (phy + u32 (0 * 0x200000))) (u64 (virt + u32 (0 * 0x200000))) := by
      rw [u32_page]
      unfold Aligned1M u64 at *
      omega
    obtain ⟨e, he, hun⟩ : ∃ e, s.createMapping2M1 A (u64 (phy + u32 (0 * 0x200000)))
        (u64 (virt + u32 (0 * 0x200000))) wt = .error e ∧ Unaligned e :=
      createMapping2M1_unaligned s hzero
    refine ⟨e, ?_, hun⟩
    rw [createMapping2M, List.range_succ_eq_map, List.foldlM_cons, he]
    rfl

/-- The two functions do what they should for ranges of at most one aligned page, and refuse the
addresses that are no multiples of 1 MiB. -/
theorem meets_iff (h : s.Regular) (hv : Aligned2M phy virt → Vacant A s phy virt n wt) :
    Meets A s phy virt n wt ↔
      n = 0 ∨ (n = 1 ∧ Aligned2M phy virt) ∨ ¬Aligned1M phy virt := by
  by_cases hal : Aligned2M phy virt
  · have hmega : Aligned1M phy virt := by
      obtain ⟨hphy, hvirt⟩ := hal
      unfold Aligned1M
      omega
    have hmeets : Meets A s phy virt n wt ↔ n ≤ 1 := by
      rw [← undone_iff h hal (hv hal)]
      exact ⟨fun hm => hm.1 hal, fun hu => ⟨fun _ => hu, fun hnot => absurd hal hnot⟩⟩
    rw [hmeets, Nat.le_one_iff_eq_zero_or_eq_one]
    constructor
    · exact Or.imp_right fun hone => .inl ⟨hone, hal⟩
    · rintro (hzero | ⟨hone, -⟩ | hnot)
      · exact .inl hzero
      · exact .inr hone
      · exact absurd hmega hnot
  · constructor
    · intro hm
      by_cases hn : n = 0
      · exact .inl hn
      · exact .inr (.inr ((refused_iff s hn).mp (hm.2 hal hn)))
    · intro hcases
      refine ⟨fun hal' => absurd hal' hal, fun _ hn => (refused_iff s hn).mpr ?_⟩
      exact (hcases.resolve_left hn).resolve_left fun hone => hal hone.2

theorem stale_regular : stale.Regular where
  wf := stale_wellFormed
  noGiga a f i ha hi hf := by
    have hpath := (stale_tableAt (Path.closed [a] [] ⟨by simp, by simpa using ha⟩) hf).1
    by_contra hmega
    have hat : f = 0x6000 := by
      simp only [stale] at hmega
      split_ifs at hmega with h1 h2 h3 h4 h5 h6 h7
      all_goals first | exact h7.1 | exact absurd rfl hmega
    rw [hat] at hpath
    exact absurd hpath (by simp [stalePath])

/-- A page of 2 MiB on the tables of `stale`. -/
theorem meets_third : Meets lowest stale 0x200000 (2 * 0x200000) 1 false := by
  refine (meets_iff stale_regular fun _ => ⟨by decide, ?_, ?_, ?_, ?_⟩).mpr
    (.inr (.inl ⟨rfl, rfl, rfl⟩))
  · intro i hi
    obtain rfl := Nat.lt_one_iff.mp hi
    exact .inl (by decide)
  · intro i hi
    obtain rfl := Nat.lt_one_iff.mp hi
    rfl
  · intro i hi
    obtain rfl := Nat.lt_one_iff.mp hi
    exact fun hocc => absurd hocc.2 (by decide)
  · have hok : (stale.createMapping2M lowest 0x200000 (2 * 0x200000) 1 false).toOption.isSome := by
      decide +kernel
    intro herr
    rw [herr] at hok
    exact Bool.false_ne_true hok

/-- Of two pages the second stays mapped, and a frame that is a multiple of 1 MiB only is mapped. -/
theorem meets_fails : ¬Meets lowest stale 0x200000 (2 * 0x200000) 2 false ∧
    ¬Meets lowest stale 0x100000 (2 * 0x200000) 1 false := by
  constructor
  · rintro ⟨hundone, -⟩
    obtain ⟨s1, hcreate, -, s2, hfree, hsame⟩ := hundone ⟨rfl, rfl⟩
    have heval : (stale.createMapping2M lowest 0x200000 (2 * 0x200000) 2 false >>= fun s1 =>
        s1.freeMapping2M lowest (2 * 0x200000) 2).toOption.map
          (fun s2 => s2.translate (3 * 0x200000)) = some (some 0x400000) := by
      decide +kernel
    rw [hcreate, ok_bind, hfree] at heval
    have hbefore : stale.translate (3 * 0x200000) = none := by decide +kernel
    have hpage := hsame (3 * 0x200000) (.inl (by decide)) (by decide)
    rw [hbefore] at hpage
    have hafter : s2.translate (3 * 0x200000) = some 0x400000 := Option.some.inj heval
    exact absurd (hpage.symm.trans hafter) (Option.some_ne_none _).symm
  · rintro ⟨-, hrefused⟩
    obtain ⟨e, herr, -⟩ := hrefused (fun hal => absurd hal.1 (by decide)) (by decide)
    have hok : (stale.createMapping2M lowest 0x100000 (2 * 0x200000) 1 false).toOption.isSome := by
      decide +kernel
    rw [herr] at hok
    exact Bool.false_ne_true hok

end Machine

end SupOS
