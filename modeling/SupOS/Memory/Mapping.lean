import SupOS.Memory.Tables
import Mathlib.Data.Finset.Card
import Mathlib.Tactic.SplitIfs

/-! The translation of virtual pages by a page table of four levels, and what calls of `createMapping`
and `freeMapping` on ranges of pages do to it. -/

namespace SupOS

open Lib Entry

namespace Machine

variable {A : FrameAllocator} {s s1 s' : Machine} {D : Nat → Nat → Prop} {v w : Nat}

/-- The page that the processor finds for the virtual page at `v`. -/
def translate (s : Machine) (v : Nat) : Option Nat :=
  (Store.descend Entry.child s.mem s.pml4 [getPML4index v, getPDPindex v]).bind fun PD =>
    let e := s.mem PD (getPDindex v)
    if e.present then
      if e.isSizeMega then some (e.getAddr + getPTindex v * 0x1000)
      else
        let p := s.mem e.getAddr (getPTindex v)
        if p.present then some p.getAddr else none
    else none

/-- The paths from the PML4 to the tables. -/
def Path (p : List Nat) : Prop := p.length ≤ 3 ∧ ∀ i ∈ p, i < 512

/-- The table at the end of a path from the PML4. -/
def tableAt (s : Machine) (p : List Nat) : Option Nat := Store.descend Entry.child s.mem s.pml4 p

theorem Path.closed : Store.Closed Path := by
  rintro p q ⟨hlen, hlt⟩
  rw [List.length_append] at hlen
  exact ⟨by omega, fun i hi => hlt i (List.mem_append_left _ hi)⟩

/-- A page table whose tables are distinct frames in use, with Paging's own table in its place and
large pages only in page directories. -/
structure WellFormed (s : Machine) : Prop where
  quiet : s.Quiet
  view : s.window winPML4 = .ok s.pml4
  tree : Store.Tree Entry.child s.mem s.pml4 Path
  used : ∀ p f, Path p → s.tableAt p = some f → f ∈ s.used ∧ f ≠ 0
  pagePT : s.tableAt [511, 509, 0] = some s.pagePT
  large : ∀ p f, p.length ≤ 1 → Path p → s.tableAt p = some f → ∀ i < 512,
    (s.mem f i).present = true → (s.mem f i).isSizeMega = false

namespace WellFormed

theorem path_pagePT : Path [511, 509, 0] := ⟨le_rfl, by simp⟩

/-- Paging's own table is no directory. -/
theorem ne_pagePT (h : s.WellFormed) {p : List Nat} {f j : Nat} (hp : Path (p ++ [j]))
    (hf : s.tableAt p = some f) : f ≠ s.pagePT := by
  rintro rfl
  have := h.tree p _ _ (Path.closed _ _ hp) path_pagePT hf h.pagePT
  subst this
  exact absurd hp.1 (by simp)

/-- A change that spares the directories spares the paths. -/
theorem tableAt_changed (h : s.WellFormed) (hc : s.Changed s' D)
    (hD : ∀ q j y, Path (q ++ [j]) → s.tableAt q = some y → ¬D y j) {q : List Nat} (hq : Path q) :
    s'.tableAt q = s.tableAt q := by
  rw [tableAt, hc.pml4]
  refine Store.descend_congr fun r j y hr hy => ?_
  have hrj : Path (r ++ [j]) := Path.closed.of_initial hr hq
  exact congrArg Entry.child (hc.mem y j (hD r j y hrj hy) fun hw => h.ne_pagePT hrj hy hw.1)

end WellFormed

theorem Path.snoc {q : List Nat} {j : Nat} (hq : Path q) (hlen : q.length ≤ 2) (hj : j < 512) :
    Path (q ++ [j]) := by
  refine ⟨by rw [List.length_append, List.length_singleton]; omega, fun i hi => ?_⟩
  rcases List.mem_append.mp hi with hi | hi
  · exact hq.2 i hi
  · rwa [List.mem_singleton.mp hi]

theorem getPML4index_lt (v : Nat) : getPML4index v < 512 := Nat.mod_lt _ (by decide)

theorem getPDPindex_lt (v : Nat) : getPDPindex v < 512 := Nat.mod_lt _ (by decide)

theorem getPDindex_lt (v : Nat) : getPDindex v < 512 := Nat.mod_lt _ (by decide)

/-- The path to the page directory of a page, and to its page table. -/
def pathPD (v : Nat) : List Nat := [getPML4index v, getPDPindex v]

def pathPT (v : Nat) : List Nat := [getPML4index v, getPDPindex v, getPDindex v]

theorem path_pathPT (v : Nat) : Path (pathPT v) := by
  refine ⟨le_rfl, ?_⟩
  simp [pathPT, getPML4index_lt, getPDPindex_lt, getPDindex_lt]

theorem path_pathPD (v : Nat) : Path (pathPD v) := Path.closed _ [getPDindex v] (path_pathPT v)

theorem path_pathPDP (v : Nat) : Path [getPML4index v] := Path.closed _ [getPDPindex v] (path_pathPD v)

/-- A page without a page directory, or whose directory has no entry, is not mapped. -/
theorem translate_of_no_directory (h : s.tableAt (pathPD v) = none) : s.translate v = none := by
  rw [translate, show Store.descend _ _ _ [_, _] = s.tableAt (pathPD v) from rfl, h]
  rfl

theorem translate_of_directory {PD : Nat} (h : s.tableAt (pathPD v) = some PD) :
    s.translate v = if (s.mem PD (getPDindex v)).present then
      if (s.mem PD (getPDindex v)).isSizeMega then
        some ((s.mem PD (getPDindex v)).getAddr + getPTindex v * 0x1000)
      else if (s.mem (s.mem PD (getPDindex v)).getAddr (getPTindex v)).present then
        some (s.mem (s.mem PD (getPDindex v)).getAddr (getPTindex v)).getAddr else none
    else none := by
  rw [translate, show Store.descend _ _ _ [_, _] = s.tableAt (pathPD v) from rfl, h]
  rfl

/-- The translation through a page table. -/
theorem translate_of_table {PT : Nat} (h : s.tableAt (pathPT v) = some PT) :
    s.translate v = if (s.mem PT (getPTindex v)).present then
      some (s.mem PT (getPTindex v)).getAddr else none := by
  obtain ⟨PD, hPD, hPT⟩ := Store.descend_prefix (p := pathPD v) (q := [getPDindex v]) h
  rw [Store.descend] at hPT
  obtain ⟨f, hf, hPT⟩ := Option.bind_eq_some_iff.mp hPT
  obtain rfl := Option.some.inj hPT
  obtain ⟨hp, hm, rfl⟩ := Entry.child_eq_some.mp hf
  rw [translate_of_directory hPD, if_pos hp, hm, if_neg Bool.false_ne_true]

/-- What a step that makes or finds a table leaves: the same translation, and the table in the
place of its path. -/
structure Kept (s s' : Machine) : Prop where
  wf : s'.WellFormed
  tables : ∀ q x, Path q → s.tableAt q = some x → s'.tableAt q = some x
  translate : ∀ w, s'.translate w = s.translate w

theorem WellFormed.window_kept (h : s.WellFormed) (hc : s.Changed s' D)
    (hD : ¬D s.pagePT winPML4) : s'.window winPML4 = .ok s'.pml4 := by
  have hview := h.view
  rw [window] at hview ⊢
  rw [hc.pagePT, hc.pml4, hc.mem _ _ hD (by rintro ⟨-, h | h | h⟩ <;> exact absurd h (by decide))]
  exact hview

/-- A page table's entry is the same when neither the change nor the windows concern it. -/
theorem WellFormed.translate_changed (h : s.WellFormed) (hc : s.Changed s' D)
    (hsame : s'.tableAt (pathPD w) = s.tableAt (pathPD w))
    (hdir : ∀ PD, s.tableAt (pathPD w) = some PD → ¬D PD (getPDindex w))
    (hpage : ∀ PT, s.tableAt (pathPT w) = some PT → ¬D PT (getPTindex w)) :
    s'.translate w = s.translate w := by
  cases hPD : s.tableAt (pathPD w) with
  | none =>
    rw [translate_of_no_directory hPD, translate_of_no_directory (hsame.trans hPD)]
  | some PD =>
    have hentry : s'.mem PD (getPDindex w) = s.mem PD (getPDindex w) :=
      hc.mem _ _ (hdir PD hPD) fun hw => h.ne_pagePT (path_pathPT w) hPD hw.1
    rw [translate_of_directory hPD, translate_of_directory (hsame.trans hPD), hentry]
    by_cases hp : (s.mem PD (getPDindex w)).present = true
    · by_cases hm : (s.mem PD (getPDindex w)).isSizeMega = true
      · rw [if_pos hp, if_pos hp, if_pos hm, if_pos hm]
      · rw [if_pos hp, if_pos hp, if_neg hm, if_neg hm]
        have hPT : s.tableAt (pathPT w) = some (s.mem PD (getPDindex w)).getAddr :=
          (Store.descend_snoc _ hPD).trans (Entry.child_of_present hp (by simpa using hm))
        by_cases hw : (s.mem PD (getPDindex w)).getAddr = s.pagePT ∧ IsWindow (getPTindex w)
        · rw [hw.1, if_neg, if_neg]
          · rw [h.quiet.closed _ hw.2]
            exact Bool.false_ne_true
          · rw [hc.closed _ hw.2]
            exact Bool.false_ne_true
        · rw [hc.mem _ _ (hpage _ hPT) hw]
    · rw [if_neg hp, if_neg hp]

/-- Where the tables are once a new one is entered in its parent. -/
theorem WellFormed.attached {parent i t : Nat} {p : List Nat} (h : s.WellFormed)
    (hpi : Path (p ++ [i])) (hparent : s.tableAt p = some parent)
    (hclean : (s.mem parent i).isSizeMega = false) (hpres : (s.mem parent i).present = false)
    (ht : t ∉ s.used) (hf : IsFrame t) (hblank : ∀ j, s1.mem t j = Entry.blank)
    (hentry : s1.mem parent i = (s.mem parent i).active t)
    (hchanged : Changed s s1 fun f j => f = t ∨ (f = parent ∧ j = i)) {q : List Nat}
    (hq : Path q) : s1.tableAt q = if q = p ++ [i] then some t else s.tableAt q := by
  rw [tableAt, hchanged.pml4]
  refine Store.descend_attach Path.closed h.tree (Path.closed _ _ hpi) hparent
    (Entry.child_of_not_present hpres) ?_ (fun j _ => by rw [hblank j, Entry.child_blank])
    (fun r k x hrk hx hne => ?_) hq
  · rw [hentry, Entry.child_of_present (present_active _ _) ((isSizeMega_active _ _).trans hclean),
      getAddr_active _ hf]
  · refine congrArg Entry.child (hchanged.mem x k ?_ fun hw => h.ne_pagePT hrk hx hw.1)
    rintro (rfl | hd)
    · exact ht (h.used r x (Path.closed _ _ hrk) hx).1
    · exact hne hd

theorem Got.kept {parent i t : Nat} {p : List Nat} (h : s.WellFormed) (hpi : Path (p ++ [i]))
    (hlen : 1 ≤ p.length) (hparent : s.tableAt p = some parent)
    (hclean : (s.mem parent i).isSizeMega = false) (hg : Got s parent i (t, s1)) :
    Kept s s1 ∧ s1.tableAt (p ++ [i]) = some t := by
  have hp : Path p := Path.closed _ _ hpi
  cases hg with
  | present hpres used changed =>
    have hsame : ∀ q, Path q → s1.tableAt q = s.tableAt q := fun q hq =>
      h.tableAt_changed changed (fun _ _ _ _ _ hd => hd) hq
    refine ⟨⟨⟨changed.quiet h.quiet used.ge, h.window_kept changed fun hd => hd, ?_, ?_, ?_, ?_⟩,
      fun q x hq hx => (hsame q hq).trans hx, fun w =>
        h.translate_changed changed (hsame _ (path_pathPD w)) (fun _ _ hd => hd)
          fun _ _ hd => hd⟩, ?_⟩
    · intro q r x hq hr hqx hrx
      exact h.tree q r x hq hr ((hsame q hq).symm.trans hqx) ((hsame r hr).symm.trans hrx)
    · intro q x hq hx
      rw [used]
      exact h.used q x hq ((hsame q hq).symm.trans hx)
    · rw [hsame _ WellFormed.path_pagePT, changed.pagePT]
      exact h.pagePT
    · intro q x hqlen hq hx j hj
      have hx := (hsame q hq).symm.trans hx
      rw [changed.mem x j (fun hd => hd) fun hw => h.ne_pagePT (hq.snoc (by omega) hj) hx hw.1]
      exact h.large q x hqlen hq hx j hj
    · rw [hsame _ hpi]
      exact (Store.descend_snoc i hparent).trans (Entry.child_of_present hpres hclean)
  | fresh hpres ht hz hf used blank entry changed =>
    have htnot : ∀ q, Path q → s.tableAt q ≠ some t := fun q hq hqt => ht (h.used q t hq hqt).1
    have hnone : (s.mem parent i).child = none := Entry.child_of_not_present hpres
    have hsome : (s1.mem parent i).child = some t := by
      rw [entry, Entry.child_of_present (present_active _ _) ((isSizeMega_active _ _).trans hclean),
        getAddr_active _ hf]
    have hmem : ∀ q j y, Path (q ++ [j]) → s.tableAt q = some y → ¬(y = parent ∧ j = i) →
        s1.mem y j = s.mem y j := by
      intro q j y hqj hy hne
      refine changed.mem y j ?_ fun hw => h.ne_pagePT hqj hy hw.1
      rintro (rfl | hd)
      · exact htnot q (Path.closed _ _ hqj) hy
      · exact hne hd
    have hat : ∀ q, Path q → s1.tableAt q = if q = p ++ [i] then some t else s.tableAt q :=
      fun q hq => h.attached hpi hparent hclean hpres ht hf blank entry changed hq
    have hpage : s.pagePT ≠ t := fun hpt => htnot _ WellFormed.path_pagePT (hpt ▸ h.pagePT)
    have hpar : s.pagePT ≠ parent := fun hpt => h.ne_pagePT hpi hparent hpt.symm
    have hview : ¬(s.pagePT = t ∨ s.pagePT = parent ∧ winPML4 = i) := fun hd =>
      hd.elim hpage fun hd => hpar hd.1
    have htables : ∀ q x, Path q → s.tableAt q = some x → s1.tableAt q = some x := by
      intro q x hq hx
      rw [hat q hq, if_neg, hx]
      rintro rfl
      rw [tableAt, Store.descend_snoc i hparent, hnone] at hx
      exact nomatch hx
    have hlen' : p.length ≤ 2 := by
      have := hpi.1
      rw [List.length_append, List.length_singleton] at this
      omega
    refine ⟨⟨⟨changed.quiet h.quiet (used ▸ Finset.subset_insert _ _),
      h.window_kept changed hview, ?_, ?_, ?_, ?_⟩, htables, fun w => ?_⟩, ?_⟩
    · rw [changed.pml4]
      exact h.tree.attach Path.closed hp hparent hnone hsome
        (fun j _ => by rw [blank j, Entry.child_blank])
        (fun q j y hqj hy hne => congrArg Entry.child (hmem q j y hqj hy hne))
        fun ⟨q, hq, hqt⟩ => htnot q hq hqt
    · intro q x hq hx
      rw [hat q hq] at hx
      rw [used]
      by_cases hqp : q = p ++ [i]
      · rw [if_pos hqp, Option.some.injEq] at hx
        exact hx ▸ ⟨Finset.mem_insert_self _ _, hz⟩
      · rw [if_neg hqp] at hx
        exact ⟨Finset.mem_insert_of_mem (h.used q x hq hx).1, (h.used q x hq hx).2⟩
    · rw [changed.pagePT]
      exact htables _ _ WellFormed.path_pagePT h.pagePT
    · intro q x hqlen hq hx j hj hjp
      rw [hat q hq, if_neg] at hx
      · by_cases hxj : x = parent ∧ j = i
        · rw [hxj.1, hxj.2, entry, isSizeMega_active]
          exact hclean
        · have hqj := hq.snoc (by omega) hj
          rw [hmem q j x hqj hx hxj] at hjp ⊢
          exact h.large q x hqlen hq hx j hj hjp
      · rintro rfl
        rw [List.length_append, List.length_singleton] at hqlen
        omega
    · by_cases hpd : pathPD w = p ++ [i]
      · rw [translate_of_no_directory (s := s)
          (by rw [hpd, tableAt, Store.descend_snoc i hparent, hnone]),
          translate_of_directory ((hat _ (path_pathPD w)).trans (if_pos hpd)), blank]
        rfl
      · have hsame := (hat _ (path_pathPD w)).trans (if_neg hpd)
        by_cases hpt : pathPT w = p ++ [i]
        · -- The new table is empty, and there was none before.
          obtain ⟨hpw, hiw⟩ : pathPD w = p ∧ [getPDindex w] = [i] := List.append_inj' hpt rfl
          have hPD : s.tableAt (pathPD w) = some parent := hpw ▸ hparent
          have hold : s.translate w = none := by
            rw [translate_of_directory hPD, List.singleton_inj.mp hiw, hpres]
            rfl
          rw [hold, translate_of_table ((hat _ (path_pathPT w)).trans (if_pos hpt)), blank]
          rfl
        · refine h.translate_changed changed hsame (fun PD hPD hd => ?_) fun PT hPT hd => ?_
          · rcases hd with rfl | ⟨rfl, hiw⟩
            · exact htnot _ (path_pathPD w) hPD
            · exact hpt (h.tree _ _ _ (path_pathPD w) hp hPD hparent ▸ hiw ▸ rfl)
          · rcases hd with rfl | ⟨rfl, -⟩
            · exact htnot _ (path_pathPT w) hPT
            · have := h.tree _ _ _ (path_pathPT w) hp hPT hparent
              rw [← this] at hlen'
              exact absurd hlen' (by simp [pathPT])
    · exact (hat _ hpi).trans (if_pos rfl)

/-! ### One page -/

/-- The virtual addresses that the processor accepts. -/
def Canonical (v : Nat) : Prop := v < 2 ^ 47 ∨ 2 ^ 64 - 2 ^ 47 ≤ v ∧ v < 2 ^ 64

/-- Where Paging's windows start. -/
def virtTables : Nat := 2 ^ 64 - 0xC0000000

/-- A page that may be mapped or unmapped: its slot of the PML4 is present, it is in no large page,
and it is none of Paging's thirteen windows. -/
structure Suitable (s : Machine) (v : Nat) : Prop where
  canonical : Canonical v
  aligned : v % 0x1000 = 0
  slot : (s.mem s.pml4 (getPML4index v)).present = true
  small : ∀ PD, s.tableAt (pathPD v) = some PD → (s.mem PD (getPDindex v)).present = true →
    (s.mem PD (getPDindex v)).isSizeMega = false
  apart : ¬(virtTables ≤ v ∧ v < virtTables + 13 * 0x1000)

/-- No absent entry on the way to a page has `isSizeMega` set. -/
def Clean (s : Machine) (v : Nat) : Prop :=
  ∀ p i y, 1 ≤ p.length → p ++ [i] <+: pathPT v → s.tableAt p = some y →
    (s.mem y i).present = false → (s.mem y i).isSizeMega = false

/-- No entry on the way to a page has `isSizeMega` set. -/
def Small (s : Machine) (v : Nat) : Prop :=
  ∀ p i y, 1 ≤ p.length → p ++ [i] <+: pathPT v → s.tableAt p = some y →
    (s.mem y i).isSizeMega = false

theorem index_inj {v w : Nat} (hv : Canonical v) (hw : Canonical w) (hva : v % 0x1000 = 0)
    (hwa : w % 0x1000 = 0) (hpath : pathPT w = pathPT v) (hslot : getPTindex w = getPTindex v) :
    w = v := by
  simp only [pathPT, List.cons.injEq, getPML4index, getPDPindex, getPDindex, and_true] at hpath
  simp only [getPTindex] at hslot
  obtain ⟨h4, h3, h2⟩ := hpath
  simp only [Nat.shiftRight_eq_div_pow] at h4 h3 h2 hslot
  unfold Canonical at hv hw
  omega

/-- The page of a window. -/
theorem eq_window {v : Nat} (hv : Canonical v) (hva : v % 0x1000 = 0)
    (hpath : pathPT v = [511, 509, 0]) : v = virtTables + getPTindex v * 0x1000 := by
  simp only [pathPT, List.cons.injEq, getPML4index, getPDPindex, getPDindex, and_true] at hpath
  obtain ⟨h4, h3, h2⟩ := hpath
  simp only [Nat.shiftRight_eq_div_pow, getPTindex] at h4 h3 h2 ⊢
  unfold Canonical at hv
  unfold virtTables
  omega

/-- The entry at the end of a beginning of `pathPT v`. -/
theorem Small.of_clean (h : s.WellFormed) (hs : s.Suitable v) (hc : s.Clean v) : s.Small v := by
  intro p i y hp hpre hy
  cases hpres : (s.mem y i).present with
  | false => exact hc p i y hp hpre hy hpres
  | true =>
    have hpi : Path (p ++ [i]) := Path.closed.of_initial hpre (path_pathPT v)
    by_cases hlen : p.length ≤ 1
    · exact h.large p y hlen (Path.closed _ _ hpi) hy i (hpi.2 i (by simp)) hpres
    · have heq : p ++ [i] = pathPT v := hpre.eq_of_length (by
        have := hpi.1
        rw [List.length_append, List.length_singleton] at this ⊢
        simp only [pathPT, List.length_cons, List.length_nil]
        omega)
      obtain ⟨rfl, hi⟩ : p = pathPD v ∧ [i] = [getPDindex v] := List.append_inj' heq rfl
      rw [List.singleton_inj.mp hi] at hpres ⊢
      exact hs.small y hy hpres

/-- The tables made for one page do not bring large pages to another. -/
theorem Got.small {parent i t : Nat} {p : List Nat} (h : s.WellFormed) (hpi : Path (p ++ [i]))
    (hparent : s.tableAt p = some parent)
    (hclean : (s.mem parent i).isSizeMega = false) (hg : Got s parent i (t, s1))
    (hw : s.Small w) : s1.Small w := by
  intro q j y hq hpre hy
  have hqj : Path (q ++ [j]) := Path.closed.of_initial hpre (path_pathPT w)
  have hqP : Path q := Path.closed _ _ hqj
  cases hg with
  | present hpres used changed =>
    have hy : s.tableAt q = some y :=
      (h.tableAt_changed changed (fun _ _ _ _ _ hd => hd) hqP).symm.trans hy
    rw [changed.mem y j (fun hd => hd) fun hw => h.ne_pagePT hqj hy hw.1]
    exact hw q j y hq hpre hy
  | fresh hpres ht hz hf used blank entry changed =>
    by_cases hyt : y = t
    · rw [hyt, blank]
      rfl
    · have hat : s1.tableAt q = if q = p ++ [i] then some t else s.tableAt q :=
        h.attached hpi hparent hclean hpres ht hf blank entry changed hqP
      rw [hat] at hy
      by_cases hqp : q = p ++ [i]
      · rw [if_pos hqp, Option.some.injEq] at hy
        exact absurd hy.symm hyt
      · rw [if_neg hqp] at hy
        by_cases hyj : y = parent ∧ j = i
        · rw [hyj.1, hyj.2, entry, isSizeMega_active]
          exact hclean
        · rw [changed.mem y j (fun hd => hd.elim hyt hyj) fun hw => h.ne_pagePT hqj hy hw.1]
          exact hw q j y hq hpre hy

theorem WellFormed.pdp_at (h : s.WellFormed) (hslot : (s.mem s.pml4 (getPML4index v)).present = true) :
    s.tableAt [getPML4index v] = some (s.pdp v) := by
  have hroot : s.tableAt [] = some s.pml4 := rfl
  have hmega := h.large [] s.pml4 (by simp) (Path.closed [] _ (path_pathPT v)) hroot _
    (getPML4index_lt v) hslot
  exact (Store.descend_snoc (p := []) _ hroot).trans (Entry.child_of_present hslot hmega)

theorem WellFormed.pd_at (h : s.WellFormed) (hslot : (s.mem s.pml4 (getPML4index v)).present = true)
    (hp : (s.entryPD v).present = true) : s.tableAt (pathPD v) = some (s.entryPD v).getAddr := by
  have hpdp := h.pdp_at hslot
  have hmega := h.large [getPML4index v] _ le_rfl (path_pathPDP v) hpdp _ (getPDPindex_lt v) hp
  exact (Store.descend_snoc _ hpdp).trans (Entry.child_of_present hp hmega)

theorem Suitable.pdp_at (h : s.WellFormed) (hs : s.Suitable v) :
    s.tableAt [getPML4index v] = some (s.pdp v) := h.pdp_at hs.slot

theorem Suitable.pd_at (h : s.WellFormed) (hs : s.Suitable v)
    (hp : (s.entryPD v).present = true) : s.tableAt (pathPD v) = some (s.entryPD v).getAddr :=
  h.pd_at hs.slot hp

theorem Suitable.pt_at (h : s.WellFormed) (hs : s.Suitable v)
    (hp : (s.entryPD v).present = true) (hp' : (s.entryPT v).present = true) :
    s.tableAt (pathPT v) = some (s.entryPT v).getAddr := by
  have hpd := hs.pd_at h hp
  exact (Store.descend_snoc _ hpd).trans (Entry.child_of_present hp' (hs.small _ hpd hp'))

theorem Suitable.not_window (h : s.WellFormed) (hs : s.Suitable v) {PT k : Nat}
    (hPT : s.tableAt (pathPT v) = some PT) (hk : k < 13) : ¬(PT = s.pagePT ∧ getPTindex v = k) := by
  rintro ⟨rfl, hslot⟩
  have hpath := h.tree _ _ _ (path_pathPT v) WellFormed.path_pagePT hPT h.pagePT
  have hv := eq_window hs.canonical hs.aligned hpath
  refine hs.apart ?_
  rw [hslot] at hv
  omega

theorem Suitable.ready (h : s.WellFormed) (hs : s.Suitable v) : s.Ready v where
  quiet := h.quiet
  view := h.view
  pdp := by
    have hpdp := hs.pdp_at h
    obtain ⟨hused, hz⟩ := h.used _ _ (path_pathPDP v) hpdp
    exact ⟨hz, hused, h.ne_pagePT (path_pathPD v) hpdp⟩
  pd hp := by
    have hpd := hs.pd_at h hp
    obtain ⟨hused, hz⟩ := h.used _ _ (path_pathPD v) hpd
    exact ⟨hz, hused, h.ne_pagePT (path_pathPT v) hpd⟩
  pt hp hp' := by
    have hpt := hs.pt_at h hp hp'
    obtain ⟨hused, hz⟩ := h.used _ _ (path_pathPT v) hpt
    refine ⟨hz, hused, fun hw => ?_⟩
    rcases hw.2 with hk | hk | hk
    all_goals exact hs.not_window h hpt (by decide) ⟨hw.1, hk⟩

theorem Suitable.kept {parent i t : Nat} {p : List Nat} (h : s.WellFormed)
    (hpi : Path (p ++ [i])) (hlen : 1 ≤ p.length) (hparent : s.tableAt p = some parent)
    (hg : Got s parent i (t, s1)) (hs : s.Suitable w) (hw : s1.Small w) : s1.Suitable w where
  canonical := hs.canonical
  aligned := hs.aligned
  slot := by
    have hroot : s.tableAt [] = some s.pml4 := rfl
    have hmem : s1.mem s.pml4 (getPML4index w) = s.mem s.pml4 (getPML4index w) := by
      refine hg.mem (h.used [] _ ⟨by simp, by simp⟩ hroot).1 (fun hd => ?_) fun hwin =>
        h.ne_pagePT (p := []) (path_pathPDP w) hroot hwin.1
      have := h.tree [] p parent ⟨by simp, by simp⟩ (Path.closed _ _ hpi)
        (hroot.trans (congrArg some hd.1)) hparent
      rw [← this] at hlen
      exact absurd hlen (by simp)
    rw [hg.pml4, hmem]
    exact hs.slot
  small PD hPD _ := hw (pathPD w) _ PD (by simp [pathPD]) (List.prefix_refl _) hPD
  apart := hs.apart

/-- What the change of the entry of one page leaves. -/
structure Remapped (s s' : Machine) (v : Nat) (target : Option Nat) : Prop where
  wf : s'.WellFormed
  page : s'.translate v = target
  others : ∀ w, Canonical w → w % 0x1000 = 0 → w ≠ v → s'.translate w = s.translate w
  suitable : ∀ w, s.Suitable w → s.Small w → s'.Suitable w ∧ s'.Small w

theorem Entered.remapped {g : Entry → Entry} {PD PT : Nat} {s2 : Machine} {target : Option Nat}
    (h : s.WellFormed) (hs : s.Suitable v) (hsmall : s.Small v)
    (he : Entered s s' v g PD PT s1 s2)
    (htarget : ∀ e, (if (g e).present then some (g e).getAddr else none) = target) :
    Remapped s s' v target := by
  have hpdp := hs.pdp_at h
  have hclean := hsmall [getPML4index v] _ _ le_rfl ⟨[getPDindex v], rfl⟩ hpdp
  obtain ⟨hk1, hPD⟩ := he.pd.kept h (path_pathPD v) le_rfl hpdp hclean
  have hsmall1 := he.pd.small h (path_pathPD v) hpdp hclean hsmall
  have hclean1 := hsmall1 (pathPD v) _ _ (by simp [pathPD]) (List.prefix_refl _) hPD
  obtain ⟨hk2, hPT⟩ := he.pt.kept hk1.wf (path_pathPT v) (by simp) hPD hclean1
  -- The last change is in a page table, where no path goes on.
  have hdir : ∀ q j y, Path (q ++ [j]) → s2.tableAt q = some y →
      ¬(y = PT ∧ j = getPTindex v) := by
    rintro q j y hqj hy ⟨rfl, -⟩
    have := hk2.wf.tree _ _ _ (Path.closed _ _ hqj) (path_pathPT v) hy hPT
    have hlen := hqj.1
    rw [this] at hlen
    exact absurd hlen (by simp [pathPT])
  have hsame : ∀ q, Path q → s'.tableAt q = s2.tableAt q := fun q hq =>
    hk2.wf.tableAt_changed he.changed hdir hq
  have hsuit : ∀ w, s.Suitable w → s.Small w → s2.Suitable w ∧ s2.Small w := by
    intro w hsw hw
    have hw1 := he.pd.small h (path_pathPD v) hpdp hclean hw
    have hs1 := hsw.kept h (path_pathPD v) le_rfl hpdp he.pd hw1
    have hw2 := he.pt.small hk1.wf (path_pathPT v) hPD hclean1 hw1
    exact ⟨hs1.kept hk1.wf (path_pathPT v) (by simp) hPD he.pt hw2, hw2⟩
  have hs2 := (hsuit v hs hsmall).1
  have hmem : ∀ q j y, Path (q ++ [j]) → s2.tableAt q = some y → s'.mem y j = s2.mem y j :=
    fun q j y hqj hy => he.changed.mem y j (hdir q j y hqj hy)
      fun hw => hk2.wf.ne_pagePT hqj hy hw.1
  have hwf : s'.WellFormed := by
    refine ⟨he.changed.quiet hk2.wf.quiet he.used.ge, hk2.wf.window_kept he.changed ?_, ?_, ?_, ?_,
      ?_⟩
    · rintro ⟨hpage, hslot⟩
      exact hs2.not_window hk2.wf hPT (k := winPML4) (by decide) ⟨hpage.symm, hslot.symm⟩
    · intro q r x hq hr hqx hrx
      exact hk2.wf.tree q r x hq hr ((hsame q hq).symm.trans hqx) ((hsame r hr).symm.trans hrx)
    · intro q x hq hx
      rw [he.used]
      exact hk2.wf.used q x hq ((hsame q hq).symm.trans hx)
    · rw [hsame _ WellFormed.path_pagePT, he.changed.pagePT]
      exact hk2.wf.pagePT
    · intro q x hlen hq hx j hj
      have hx := (hsame q hq).symm.trans hx
      rw [hmem q j x (hq.snoc (by omega) hj) hx]
      exact hk2.wf.large q x hlen hq hx j hj
  refine ⟨hwf, ?_, fun w hw hwa hne => ?_, fun w hsw hw => ?_⟩
  · rw [translate_of_table ((hsame _ (path_pathPT v)).trans hPT), he.entry]
    exact htarget _
  · rw [hk2.wf.translate_changed he.changed (hsame _ (path_pathPD w))
      (fun PD' hPD' => hdir _ _ _ (path_pathPT w) hPD') fun PT' hPT' => ?_, hk2.translate,
      hk1.translate]
    rintro ⟨rfl, hslot⟩
    have hpath := hk2.wf.tree _ _ _ (path_pathPT w) (path_pathPT v) hPT' hPT
    exact hne (index_inj hs.canonical hw hs.aligned hwa hpath hslot)
  · obtain ⟨hsw2, hw2⟩ := hsuit w hsw hw
    have hsmall' : s'.Small w := by
      intro q j y hq hpre hy
      have hqj : Path (q ++ [j]) := Path.closed.of_initial hpre (path_pathPT w)
      have hy := (hsame q (Path.closed _ _ hqj)).symm.trans hy
      rw [hmem q j y hqj hy]
      exact hw2 q j y hq hpre hy
    refine ⟨⟨hsw.canonical, hsw.aligned, ?_, fun PD' hPD' _ => ?_, hsw.apart⟩, hsmall'⟩
    · rw [he.changed.pml4, hmem [] _ _ (path_pathPDP w) rfl]
      exact hsw2.slot
    · exact hsmall' (pathPD w) _ PD' (by simp [pathPD]) (List.prefix_refl _) hPD'

/-- A page is mapped exactly when its three entries are present. -/
theorem Suitable.translate_ne_none (h : s.WellFormed) (hs : s.Suitable v) :
    s.translate v ≠ none ↔ s.Present v := by
  constructor
  · intro ht
    cases hPD : s.tableAt (pathPD v) with
    | none => exact absurd (translate_of_no_directory hPD) ht
    | some PD =>
      have hchild : (s.entryPD v).child = some PD :=
        (Store.descend_snoc _ (hs.pdp_at h)).symm.trans hPD
      obtain ⟨hp, -, rfl⟩ := Entry.child_eq_some.mp hchild
      have hp' : (s.entryPT v).present = true := by
        by_contra hnot
        exact ht ((translate_of_directory hPD).trans (if_neg hnot))
      refine ⟨hp, hp', ?_⟩
      by_contra hnot
      exact ht ((translate_of_table (hs.pt_at h hp hp')).trans (if_neg hnot))
  · rintro ⟨hp, hp', hpage⟩
    rw [translate_of_table (hs.pt_at h hp hp')]
    exact fun hnone => absurd ((if_pos hpage).symm.trans hnone) (by simp)

theorem createMapping1_remapped (h : s.WellFormed) (hs : s.Suitable v) (hsmall : s.Small v)
    (hfree : s.translate v = none) {phy : Nat} {wt : Bool} (hphy : IsFrame phy) :
    Ensures (s.createMapping1 A phy v wt) (· = .outOfMemory)
      fun s' => Remapped s s' v (some phy) := by
  have hnot : ¬s.Present v := fun hp => (hs.translate_ne_none h).mpr hp hfree
  refine (createMapping1_entered (hs.ready h) hs.aligned hphy).mono
    (fun e he => he.resolve_right hnot) fun s' hs' => ?_
  obtain ⟨-, PD, PT, s1, s2, he⟩ := hs'
  refine he.remapped h hs hsmall fun e => ?_
  unfold Entry.mapped
  split <;> exact (if_pos rfl).trans (congrArg some (Entry.getAddr_active e hphy))

/-- A mapped page is in no large page. -/
theorem Suitable.small_of_present (h : s.WellFormed) (hs : s.Suitable v) (hp : s.Present v) :
    s.Small v := by
  refine Small.of_clean h hs fun p i y hlen hpre hy hnot => ?_
  exfalso
  obtain ⟨r, hr⟩ := hpre
  match p, hlen with
  | [a], _ =>
    simp only [pathPT, List.cons_append, List.nil_append, List.cons.injEq] at hr
    obtain ⟨rfl, rfl, -⟩ := hr
    rw [hs.pdp_at h, Option.some.injEq] at hy
    subst hy
    exact Bool.false_ne_true (hnot.symm.trans hp.1)
  | [a, b], _ =>
    simp only [pathPT, List.cons_append, List.nil_append, List.cons.injEq] at hr
    obtain ⟨rfl, rfl, rfl, -⟩ := hr
    have hpd := hs.pd_at h hp.1
    rw [pathPD, hy, Option.some.injEq] at hpd
    subst hpd
    exact Bool.false_ne_true (hnot.symm.trans hp.2.1)
  | a :: b :: c :: p, _ => simp [pathPT] at hr

theorem freeMapping1_remapped (h : s.WellFormed) (hs : s.Suitable v)
    (hmapped : s.translate v ≠ none) :
    ∃ s', s.freeMapping1 A v = .ok s' ∧ Remapped s s' v none := by
  have hp := (hs.translate_ne_none h).mp hmapped
  obtain ⟨s', heq, PD, PT, s1, s2, he⟩ := freeMapping1_entered (A := A) (hs.ready h) hp
  exact ⟨s', heq, he.remapped h hs (hs.small_of_present h hp) fun e => if_neg Bool.false_ne_true⟩

/-! ### Ranges of pages -/

/-- The state after the first `i` pages of a range from `virt` on, `target j` being what page `j`
is mapped to. -/
structure Swept (s s' : Machine) (virt : Nat) (target : Nat → Option Nat) (i : Nat) : Prop where
  wf : s'.WellFormed
  inside : ∀ j < i, s'.translate (virt + j * 0x1000) = target j
  outside : ∀ w, Canonical w → w % 0x1000 = 0 → (∀ j < i, w ≠ virt + j * 0x1000) →
    s'.translate w = s.translate w
  suitable : ∀ w, s.Suitable w → s.Small w → s'.Suitable w ∧ s'.Small w

theorem Swept.zero (h : s.WellFormed) (virt : Nat) (target : Nat → Option Nat) :
    Swept s s virt target 0 where
  wf := h
  inside _ hj := absurd hj (Nat.not_lt_zero _)
  outside _ _ _ _ := rfl
  suitable _ hw hw' := ⟨hw, hw'⟩

theorem Swept.next {virt i : Nat} {target : Nat → Option Nat} (h : Swept s s1 virt target i)
    (hpage : ∀ j < i, s.Suitable (virt + j * 0x1000))
    (hr : Remapped s1 s' (virt + i * 0x1000) (target i)) : Swept s s' virt target (i + 1) where
  wf := hr.wf
  inside j hj := by
    rcases Nat.lt_succ_iff_lt_or_eq.mp hj with hj | rfl
    · have hs := hpage j hj
      rw [hr.others _ hs.canonical hs.aligned (by omega)]
      exact h.inside j hj
    · exact hr.page
  outside w hw hwa hne := by
    rw [hr.others w hw hwa (hne i (Nat.lt_succ_self i))]
    exact h.outside w hw hwa fun j hj => hne j (by omega)
  suitable w hw hw' := by
    obtain ⟨hw1, hw1'⟩ := h.suitable w hw hw'
    exact hr.suitable w hw1 hw1'

theorem Suitable.lt (hs : s.Suitable v) : v < 2 ^ 64 := by
  rcases hs.canonical with h | h <;> omega

/-- After `createMapping` the pages of the range are mapped to the frames from `phy` on. -/
theorem createMapping_swept (h : s.WellFormed) {phy virt n : Nat} {wt : Bool}
    (hn : n * 0x1000 < 2 ^ 31) (hphy : phy % 0x1000 = 0) (hmax : phy + n * 0x1000 ≤ 2 ^ 52)
    (hpages : ∀ i < n, s.Suitable (virt + i * 0x1000) ∧ s.Clean (virt + i * 0x1000) ∧
      s.translate (virt + i * 0x1000) = none) :
    Ensures (s.createMapping A phy virt n wt) (· = .outOfMemory) fun s' =>
      Swept s s' virt (fun i => some (phy + i * 0x1000)) n := by
  have hzero := Swept.zero h virt fun i => some (phy + i * 0x1000)
  refine Ensures.foldlM_range (P := fun i s' => Swept s s' virt (fun i => some (phy + i * 0x1000)) i)
    hzero fun i hi s1 h1 => ?_
  obtain ⟨hs, hclean, hfree⟩ := hpages i hi
  obtain ⟨hs1, hsmall1⟩ := h1.suitable _ hs (Small.of_clean h hs hclean)
  have hfree1 := (h1.outside _ hs.canonical hs.aligned fun j hj => by omega).trans hfree
  have h31 : i * 0x1000 < 2 ^ 31 := (Nat.mul_lt_mul_of_pos_right hi (by decide)).trans hn
  have h32 : u32 (i * 0x1000) = i * 0x1000 := u32_of_lt (h31.trans (by decide))
  have hv : u64 (virt + i * 0x1000) = virt + i * 0x1000 := u64_of_lt hs.lt
  have hf : u64 (phy + i * 0x1000) = phy + i * 0x1000 := u64_of_lt (by omega)
  have hframe : IsFrame (phy + i * 0x1000) := by
    refine ⟨by omega, ?_⟩
    rw [Nat.shiftRight_eq_div_pow]
    omega
  rw [h32, hv, hf]
  refine (createMapping1_remapped h1.wf hs1 hsmall1 hfree1 hframe).mono (fun _ he => he)
    fun s' hs' => h1.next (fun j hj => (hpages j (by omega)).1) hs'

/-- After `freeMapping` no page of the range is mapped. -/
theorem freeMapping_swept (h : s.WellFormed) {virt n : Nat}
    (hpages : ∀ i < n, s.Suitable (virt + i * 0x1000) ∧
      s.translate (virt + i * 0x1000) ≠ none) :
    Ensures (s.freeMapping A virt n) (fun _ => False) fun s' =>
      Swept s s' virt (fun _ => none) n := by
  refine Ensures.foldlM_range (P := fun i s' => Swept s s' virt (fun _ => none) i)
    (Swept.zero h virt _) fun i hi s1 h1 => ?_
  obtain ⟨hs, hmapped⟩ := hpages i hi
  have hsmall := hs.small_of_present h ((hs.translate_ne_none h).mp hmapped)
  obtain ⟨hs1, -⟩ := h1.suitable _ hs hsmall
  have hmapped1 : s1.translate (virt + i * 0x1000) ≠ none := by
    rw [h1.outside _ hs.canonical hs.aligned fun j hj => by omega]
    exact hmapped
  rw [u64_of_lt hs.lt]
  obtain ⟨s', heq, hr⟩ := freeMapping1_remapped (A := A) h1.wf hs1 hmapped1
  rw [heq]
  exact h1.next (fun j hj => (hpages j (by omega)).1) hr

/-! ### Runs -/

/-- The arguments of a call of `createMapping` on a range of pages that are not mapped. -/
structure Mappable (s : Machine) (phy virt n : Nat) : Prop where
  size : n * 0x1000 < 2 ^ 31
  aligned : phy % 0x1000 = 0
  frames : phy + n * 0x1000 ≤ 2 ^ 52
  pages : ∀ i < n, s.Suitable (virt + i * 0x1000) ∧ s.translate (virt + i * 0x1000) = none

/-- The arguments of a call of `freeMapping` on a range of pages that are mapped. -/
structure Unmappable (s : Machine) (virt n : Nat) : Prop where
  size : n * 0x1000 < 2 ^ 31
  pages : ∀ i < n, s.Suitable (virt + i * 0x1000) ∧ s.translate (virt + i * 0x1000) ≠ none

/-- The tables stay well formed, page `i` of the range is translated to `target i`, and the other
pages as before. -/
def Law (s s' : Machine) (virt n : Nat) (target : Nat → Option Nat) : Prop :=
  s'.WellFormed ∧ (∀ i < n, s'.translate (virt + i * 0x1000) = target i) ∧
    ∀ w, Canonical w → w % 0x1000 = 0 → (∀ i < n, w ≠ virt + i * 0x1000) →
      s'.translate w = s.translate w

/-- Both functions do what they should in this state. -/
structure Lawful (A : FrameAllocator) (s : Machine) : Prop where
  create : ∀ phy virt n wt, s.Mappable phy virt n → (∀ i < n, s.Clean (virt + i * 0x1000)) →
    Ensures (s.createMapping A phy virt n wt) (· = .outOfMemory) fun s' =>
      Law s s' virt n fun i => some (phy + i * 0x1000)
  free : ∀ virt n, s.Unmappable virt n →
    Ensures (s.freeMapping A virt n) (fun _ => False) fun s' => Law s s' virt n fun _ => none

/-- The states after calls of both functions, those of `createMapping` where no absent entry on the
way has `isSizeMega` set. -/
inductive Run (A : FrameAllocator) (s : Machine) : Machine → Prop
  | refl : Run A s s
  | create {s1 s' : Machine} {phy virt n : Nat} {wt : Bool} (hr : Run A s s1)
      (hm : s1.Mappable phy virt n) (hc : ∀ i < n, s1.Clean (virt + i * 0x1000))
      (h : s1.createMapping A phy virt n wt = .ok s') : Run A s s'
  | free {s1 s' : Machine} {virt n : Nat} (hr : Run A s s1) (hm : s1.Unmappable virt n)
      (h : s1.freeMapping A virt n = .ok s') : Run A s s'

theorem Swept.law {virt n : Nat} {target : Nat → Option Nat} (h : Swept s s' virt target n) :
    Law s s' virt n target := ⟨h.wf, h.inside, h.outside⟩

theorem WellFormed.lawful (h : s.WellFormed) : Lawful A s where
  create _ _ _ _ hm hc := (createMapping_swept h hm.size hm.aligned hm.frames fun i hi =>
    ⟨(hm.pages i hi).1, hc i hi, (hm.pages i hi).2⟩).mono (fun _ he => he) fun _ hs => hs.law
  free _ _ hm := (freeMapping_swept h hm.pages).mono (fun _ he => he) fun _ hs => hs.law

theorem Run.wellFormed (h : s.WellFormed) (hr : Run A s s') : s'.WellFormed := by
  induction hr with
  | refl => exact h
  | create _ hm hc heq ih => exact ((ih.lawful.create _ _ _ _ hm hc).of_ok heq).1
  | free _ hm heq ih => exact ((ih.lawful.free _ _ hm).of_ok heq).1

/-- In every run whose calls of `createMapping` find no stale `isSizeMega`, both functions do what
they should. -/
theorem run_lawful (h : s.WellFormed) (hr : Run A s s') : s'.WellFormed ∧ Lawful A s' :=
  ⟨hr.wellFormed h, (hr.wellFormed h).lawful⟩

/-! ### The tables after `removeIdent` -/

/-- The allocator that hands out the lowest frame above 1 MiB that is not in use. -/
def lowest : FrameAllocator where
  pick used := ((List.range (used.card + 1)).map fun k => 0x100000 + k * 0x1000).find?
    fun f => f ∉ used ∧ IsFrame f
  fresh used f h := by
    have hmem := List.mem_of_find?_eq_some h
    have hfree : f ∉ used ∧ IsFrame f := by simpa using List.find?_some h
    obtain ⟨k, -, rfl⟩ := List.mem_map.mp hmem
    exact ⟨hfree.1, by omega, hfree.2⟩

/-- Paging's tables and a user PDP whose first directory has an absent entry, at index 1, with
`isSizeMega` set, as `removeIdent` leaves it. -/
def stale : Machine where
  mem f i :=
    if f = 0x1000 ∧ i = 0 then Entry.blank.active 0x5000
    else if f = 0x1000 ∧ i = 511 then Entry.blank.active 0x2000
    else if f = 0x2000 ∧ i = 509 then Entry.blank.active 0x3000
    else if f = 0x3000 ∧ i = 0 then Entry.blank.active 0x4000
    else if f = 0x4000 ∧ i = 0 then Entry.blank.active 0x1000
    else if f = 0x5000 ∧ i = 0 then Entry.blank.active 0x6000
    else if f = 0x6000 ∧ i = 1 then { Entry.blank with isSizeMega := true }
    else Entry.blank
  pml4 := 0x1000
  pagePT := 0x4000
  used := {0x1000, 0x2000, 0x3000, 0x4000, 0x5000, 0x6000}

theorem stale_child {f i g : Nat} (h : (stale.mem f i).child = some g) :
    f = 0x1000 ∧ i = 0 ∧ g = 0x5000 ∨ f = 0x1000 ∧ i = 511 ∧ g = 0x2000 ∨
      f = 0x2000 ∧ i = 509 ∧ g = 0x3000 ∨ f = 0x3000 ∧ i = 0 ∧ g = 0x4000 ∨
      f = 0x4000 ∧ i = 0 ∧ g = 0x1000 ∨ f = 0x5000 ∧ i = 0 ∧ g = 0x6000 := by
  have hframe : ∀ a, IsFrame a → (Entry.blank.active a).child = some g → g = a := fun a ha hg =>
    (Option.some.inj (hg.symm.trans ((Entry.child_of_present rfl rfl).trans
      (congrArg some (Entry.getAddr_active _ ha)))))
  simp only [stale] at h
  split_ifs at h with h1 h2 h3 h4 h5 h6 h7
  · exact .inl ⟨h1.1, h1.2, hframe _ (by decide) h⟩
  · exact .inr (.inl ⟨h2.1, h2.2, hframe _ (by decide) h⟩)
  · exact .inr (.inr (.inl ⟨h3.1, h3.2, hframe _ (by decide) h⟩))
  · exact .inr (.inr (.inr (.inl ⟨h4.1, h4.2, hframe _ (by decide) h⟩)))
  · exact .inr (.inr (.inr (.inr (.inl ⟨h5.1, h5.2, hframe _ (by decide) h⟩))))
  · exact .inr (.inr (.inr (.inr (.inr ⟨h6.1, h6.2, hframe _ (by decide) h⟩))))
  · exact nomatch h
  · exact nomatch h

/-- The paths of the tables of `stale`. -/
def stalePath (x : Nat) : List Nat :=
  if x = 0x2000 then [511] else if x = 0x3000 then [511, 509] else if x = 0x4000 then [511, 509, 0]
  else if x = 0x5000 then [0] else if x = 0x6000 then [0, 0] else []

theorem stale_tableAt {p : List Nat} {x : Nat} (hp : Path p) (hx : stale.tableAt p = some x) :
    p = stalePath x ∧ x ∈ stale.used := by
  induction p using List.reverseRecOn generalizing x with
  | nil =>
    obtain rfl := Option.some.inj hx
    decide
  | append_singleton p i ih =>
    obtain ⟨f, hf, hchild⟩ := Store.descend_prefix hx
    rw [Store.descend] at hchild
    obtain ⟨g, hedge, hg⟩ := Option.bind_eq_some_iff.mp hchild
    obtain rfl := Option.some.inj hg
    obtain ⟨hpath, -⟩ := ih (Path.closed _ _ hp) hf
    have hlen := hp.1
    rcases stale_child hedge with ⟨rfl, rfl, rfl⟩ | ⟨rfl, rfl, rfl⟩ | ⟨rfl, rfl, rfl⟩ |
      ⟨rfl, rfl, rfl⟩ | ⟨rfl, rfl, rfl⟩ | ⟨rfl, rfl, rfl⟩
    all_goals rw [hpath] at hlen ⊢
    · decide
    · decide
    · decide
    · decide
    · exact absurd hlen (by decide)
    · decide

theorem stale_wellFormed : stale.WellFormed where
  quiet := ⟨by rintro k (rfl | rfl | rfl) <;> rfl, by decide⟩
  view := rfl
  tree p q x hp hq hpx hqx := (stale_tableAt hp hpx).1.trans (stale_tableAt hq hqx).1.symm
  used p f hp hf := by
    have hmem := (stale_tableAt hp hf).2
    refine ⟨hmem, ?_⟩
    rintro rfl
    exact absurd hmem (by decide)
  pagePT := rfl
  large p f _ _ _ i _ hpres := by
    simp only [stale] at hpres ⊢
    split_ifs at hpres ⊢ <;> first | rfl | exact absurd hpres (by decide)

/-- A page of the first GiB outside the first 2 MiB can be mapped. -/
theorem stale_mappable {phy d : Nat} (hphy : IsFrame phy) (hmax : phy + 0x1000 ≤ 2 ^ 52) (h1 : 1 ≤ d)
    (h2 : d < 512) : stale.Mappable phy (d * 0x200000) 1 where
  size := by decide
  aligned := hphy.1
  frames := by omega
  pages i hi := by
    obtain rfl : i = 0 := by omega
    have h4 : getPML4index (d * 0x200000 + 0 * 0x1000) = 0 := by
      rw [getPML4index, Nat.shiftRight_eq_div_pow]
      omega
    have h3 : getPDPindex (d * 0x200000 + 0 * 0x1000) = 0 := by
      rw [getPDPindex, Nat.shiftRight_eq_div_pow]
      omega
    have hd : getPDindex (d * 0x200000 + 0 * 0x1000) = d := by
      rw [getPDindex, Nat.shiftRight_eq_div_pow]
      omega
    have hPD : stale.tableAt (pathPD (d * 0x200000 + 0 * 0x1000)) = some 0x6000 := by
      rw [pathPD, h4, h3]
      rfl
    have habsent : (stale.mem 0x6000 d).present = false := by
      have hentry : stale.mem 0x6000 d = if d = 1 then { Entry.blank with isSizeMega := true }
          else Entry.blank := by simp [stale]
      rw [hentry]
      split <;> rfl
    refine ⟨⟨.inl (by omega), by omega, ?_, fun PD hPD' hpres => ?_, ?_⟩, ?_⟩
    · rw [h4]
      rfl
    · rw [hPD, Option.some.injEq] at hPD'
      rw [← hPD', hd, habsent] at hpres
      exact absurd hpres Bool.false_ne_true
    · unfold virtTables
      omega
    · rw [translate_of_directory hPD, hd, habsent]
      rfl

/-- The pages outside of the directory entry with `isSizeMega`. -/
theorem stale_clean_of {v : Nat} (hv : ¬[0, 0, 1] <+: pathPT v) : stale.Clean v := by
  intro p i y _ hpre hy _
  have hp : Path p := Path.closed _ _ (Path.closed.of_initial hpre (path_pathPT _))
  have hpath := (stale_tableAt hp hy).1
  by_contra hmega
  have hat : y = 0x6000 ∧ i = 1 := by
    simp only [stale] at hmega
    split_ifs at hmega with h1 h2 h3 h4 h5 h6 h7
    all_goals first | exact h7 | exact absurd rfl hmega
  rw [hpath, hat.1, hat.2] at hpre
  exact hv hpre

theorem stale_clean : stale.Clean (2 * 0x200000 + 0 * 0x1000) := stale_clean_of (by decide)

theorem run_lawful_small : ∃ s', Run lowest stale s' ∧ s'.translate (2 * 0x200000) = some 0x7000 ∧
    s'.WellFormed ∧ Lawful lowest s' := by
  have hm : stale.Mappable 0x7000 (2 * 0x200000) 1 :=
    stale_mappable (by decide) (by decide) (by decide) (by decide)
  have hok : ((stale.createMapping lowest 0x7000 (2 * 0x200000) 1 false).toOption.map
      fun s' => s'.translate (2 * 0x200000)) = some (some 0x7000) := by
    decide +kernel
  obtain ⟨s', hs', htranslate⟩ := Option.map_eq_some_iff.mp hok
  have heq := toOption_eq_some.mp hs'
  have hrun : Run lowest stale s' := .create .refl hm (fun i hi => by
    obtain rfl : i = 0 := by omega
    exact stale_clean) heq
  exact ⟨s', hrun, htranslate, run_lawful stale_wellFormed hrun⟩

/-- A page that `removeIdent` has unmapped is mapped to the wrong frame. -/
theorem stale_createMapping : stale.WellFormed ∧ stale.Mappable 0x7000 (1 * 0x200000) 1 ∧
    ((stale.createMapping lowest 0x7000 (1 * 0x200000) 1 false).toOption.map
      fun s' => s'.translate (1 * 0x200000)) = some (some 0x100000) :=
  ⟨stale_wellFormed, stale_mappable (by decide) (by decide) (by decide) (by decide), by
    decide +kernel⟩

end Machine

end SupOS
