import SupOS.Memory.Release

/-! What the functions of `UserMemory` that copy tables and pages leave: new frames below the table
copied to, with the entries and the words of the frames below the table copied from. -/

namespace SupOS

open Lib Entry

namespace Machine

variable {A : FrameAllocator} {s t u v w s' : Machine} {d a f g : Nat}

/-- An entry of a copy: absent, or the entry copied with another address, that of a copy. -/
def EntryCopied (R : Nat → Nat → Prop) (e e' : Entry) : Prop :=
  (e.present = false ∧ e' = Entry.blank) ∨
    (e.present = true ∧ ∃ x, IsFrame x ∧ e' = e.withAddr x ∧ R x e.getAddr)

/-- The frame `g` in `s'` is a copy of the frame `f` in `s`, with `d` levels of entries. -/
def Copied (s s' : Machine) : (d g f : Nat) → Prop
  | 0, g, f => ∀ j, s'.mem g j = s.mem f j
  | d + 1, g, f => ∀ i < 512, EntryCopied (Copied s s' d) (s.mem f i) (s'.mem g i)

/-- The state after the entries from `a` to `i - 1` of the table `f` are copied to the table `g`. -/
structure Copying (s u : Machine) (g f a d i : Nat) : Prop where
  pml4 : u.pml4 = s.pml4
  pagePT : u.pagePT = s.pagePT
  others : ∀ y ∈ s.used, y ≠ g → ∀ j, u.mem y j = s.mem y j
  rest : ∀ j, ¬(a ≤ j ∧ j < i) → u.mem g j = s.mem g j
  copied : ∀ j, a ≤ j → j < i → EntryCopied (Copied s u d) (s.mem f j) (u.mem g j)
  fresh : ∀ j p x, a ≤ j → j < i → From 0 d p → u.linkAt g (j :: p) = some x →
    x ∉ s.used ∧ x ≠ 0
  tree : ∀ j p k q x, a ≤ j → j < i → From 0 d p → a ≤ k → k < i → From 0 d q →
    u.linkAt g (j :: p) = some x → u.linkAt g (k :: q) = some x → j :: p = k :: q
  used : ∀ x, x ∈ u.used ↔ x ∈ s.used ∨
    ∃ j p, a ≤ j ∧ j < i ∧ From 0 d p ∧ u.linkAt g (j :: p) = some x

/-- The frames a copy reads are in use, and it does not write to them. -/
structure Source (s : Machine) (g f a d : Nat) : Prop where
  live : ∀ p x, From a d p → s.linkAt f p = some x → x ∈ s.used ∧ x ≠ 0 ∧ x ≠ g
  dest : g ∈ s.used ∧ g ≠ 0

/-- `inner` copies tables with `d` levels of entries. -/
def Copies (inner : Machine → Nat → Nat → Except Fault Machine) (d : Nat) : Prop :=
  ∀ s g f, Source s g f 0 d → Ensures (inner s g f) (· = .outOfMemory) fun s' =>
    Copied s s' d g f ∧ s'.pml4 = s.pml4 ∧ s'.pagePT = s.pagePT ∧
      (∀ y ∈ s.used, y ≠ g → ∀ j, s'.mem y j = s.mem y j) ∧
      (∀ p x, From 0 d p → p ≠ [] → s'.linkAt g p = some x → x ∉ s.used ∧ x ≠ 0) ∧
      Store.Tree link s'.mem g (From 0 d) ∧
      ∀ x, x ∈ s'.used ↔ x ∈ s.used ∨ ∃ p, From 0 d p ∧ p ≠ [] ∧ s'.linkAt g p = some x

/-- A round of the loops from entry `a` on: a new frame for the copy of the frame an entry refers
to. -/
structure CopyRound (A : FrameAllocator) (inner : Machine → Nat → Nat → Except Fault Machine)
    (g f a : Nat) (body : Machine → Nat → Except Fault Machine) : Prop where
  absent : ∀ u i, (u.mem f i).present = false → body u i = .ok (u.write g i Entry.blank)
  present : ∀ u i, a ≤ i → (u.mem f i).present = true → g ≠ f → g ≠ (u.mem f i).getAddr → g ∈ u.used →
    body u i = do
      let (t, u') ← u.alloc A
      inner (u'.write g i ((u.mem f i).withAddr t)) t (u.mem f i).getAddr

/-- A copy stays a copy when its frames are not written to. -/
theorem Copied.kept : ∀ {d g f : Nat}, Copied s u d g f →
    (∀ p y, From 0 d p → u.linkAt g p = some y → ∀ j, w.mem y j = u.mem y j) → Copied s w d g f
  | 0, g, f, h, hw => fun j => (hw [] g (From.nil 0 0) rfl j).trans (h j)
  | d + 1, g, f, h, hw => by
    intro i hi
    rw [hw [] g (From.nil 0 _) rfl i]
    rcases h i hi with hnone | ⟨hp, x, hx, he, hcopy⟩
    · exact .inl hnone
    · refine .inr ⟨hp, x, hx, he, hcopy.kept fun p y hy hpy => hw (i :: p) y ?_ ?_⟩
      · exact hy.cons (Nat.zero_le _) hi
      · have hlink : (u.mem g i).link = some x := he ▸ link_withAddr hp hx
        rw [linkAt_cons p hlink, hpy]

/-- It is a copy of the same frames in a state where these hold the same words. -/
theorem Copied.source : ∀ {d g f : Nat}, Copied v w d g f →
    (∀ p y, From 0 d p → s.linkAt f p = some y → ∀ j, v.mem y j = s.mem y j) → Copied s w d g f
  | 0, g, f, h, hv => fun j => (h j).trans (hv [] f (From.nil 0 0) rfl j)
  | d + 1, g, f, h, hv => by
    intro i hi
    have hentry := hv [] f (From.nil 0 _) rfl i
    rcases h i hi with hnone | ⟨hp, x, hx, he, hcopy⟩
    · rw [hentry] at hnone
      exact .inl hnone
    · rw [hentry] at hp he hcopy
      refine .inr ⟨hp, x, hx, he, hcopy.source fun p y hy hpy => hv (i :: p) y ?_ ?_⟩
      · exact hy.cons (Nat.zero_le _) hi
      · rw [linkAt_cons p (link_of_present hp), hpy]

/-- A path through an entry that is not written to, and on through tables that are not either. -/
theorem linkAt_kept {p : List Nat} {j : Nat} (hj : w.mem g j = u.mem g j)
    (hbelow : ∀ q y, q <+: p → q ≠ p → u.linkAt g (j :: q) = some y → ∀ k, w.mem y k = u.mem y k) :
    w.linkAt g (j :: p) = u.linkAt g (j :: p) := by
  refine Store.descend_congr fun q k y hq hy => congrArg link ?_
  cases q with
  | nil =>
    obtain rfl := Option.some.inj hy
    obtain ⟨rfl, -⟩ := List.cons_prefix_cons.mp hq
    exact hj
  | cons i q =>
    obtain ⟨rfl, hqp⟩ := List.cons_prefix_cons.mp hq
    refine hbelow q y (List.IsPrefix.trans ⟨[k], rfl⟩ hqp) (fun heq => ?_) hy k
    subst heq
    have := hqp.length_le
    simp only [List.append_eq, List.length_append, List.length_singleton] at this
    omega

/-- A frame written to by the rounds before is new. -/
theorem Copying.new {i : Nat} (h : Copying s u g f a d i) (hsrc : Source s g f a (d + 1)) {j : Nat}
    {p : List Nat} {y : Nat} (hj : a ≤ j) (hji : j < i) (hp : From 0 d p)
    (hy : u.linkAt g (j :: p) = some y) : y ∈ u.used ∧ y ∉ s.used ∧ y ≠ g := by
  have hnew := (h.fresh j p y hj hji hp hy).1
  exact ⟨(h.used y).mpr (.inr ⟨j, p, hj, hji, hp, hy⟩), hnew, fun hyg => hnew (hyg ▸ hsrc.dest.1)⟩

/-- A round that changes only entry `i` and frames that are new in it keeps the earlier copies. -/
theorem Copying.earlier {i : Nat} (h : Copying s u g f a d i) (hsrc : Source s g f a (d + 1))
    (hmem : ∀ y ∈ u.used, ∀ j, ¬(y = g ∧ j = i) → w.mem y j = u.mem y j) {j : Nat} (hj : a ≤ j)
    (hji : j < i) :
    (∀ p, From 0 d p → w.linkAt g (j :: p) = u.linkAt g (j :: p)) ∧ w.mem g j = u.mem g j ∧
      EntryCopied (Copied s w d) (s.mem f j) (w.mem g j) := by
  have hgu : g ∈ u.used := (h.used g).mpr (.inl hsrc.dest.1)
  have hentry : w.mem g j = u.mem g j := hmem g hgu j fun hg => by omega
  refine ⟨fun p hp => ?_, hentry, ?_⟩
  · refine linkAt_kept hentry fun q y hq _ hy k => ?_
    obtain ⟨hyu, -, hyg⟩ := h.new hsrc hj hji ((From.closed 0 d).of_initial hq hp) hy
    exact hmem y hyu k fun hg => hyg hg.1
  · rw [hentry]
    rcases h.copied j hj hji with hnone | ⟨hp, x, hx, he, hcopy⟩
    · exact .inl hnone
    · refine .inr ⟨hp, x, hx, he, hcopy.kept fun p y hyp hy k => ?_⟩
      have hlink : (u.mem g j).link = some x := he ▸ link_withAddr hp hx
      obtain ⟨hyu, -, hyg⟩ := h.new hsrc hj hji hyp ((linkAt_cons p hlink).trans hy)
      exact hmem y hyu k fun hg => hyg hg.1

/-- An absent entry is copied as a blank one. -/
theorem Copying.next_absent {i : Nat} (h : Copying s u g f a d i) (hsrc : Source s g f a (d + 1))
    (hi : a ≤ i) (hpres : (s.mem f i).present = false) :
    Copying s (u.write g i Entry.blank) g f a d (i + 1) := by
  have hmem : ∀ y ∈ u.used, ∀ j, ¬(y = g ∧ j = i) →
      (u.write g i Entry.blank).mem y j = u.mem y j := fun y _ j hy => by
    rw [write_mem, if_neg hy]
  have hnone : ∀ p, (u.write g i Entry.blank).linkAt g (i :: p) = none := fun p =>
    Store.descend_cons_none p (by rw [write_mem, if_pos ⟨rfl, rfl⟩]; rfl)
  have hold : ∀ j p, a ≤ j → j < i + 1 → From 0 d p → ∀ x,
      (u.write g i Entry.blank).linkAt g (j :: p) = some x →
      j < i ∧ u.linkAt g (j :: p) = some x := by
    intro j p hj hji hp x hx
    by_cases hjeq : j = i
    · subst hjeq
      rw [hnone] at hx
      exact nomatch hx
    · have hlt : j < i := by omega
      exact ⟨hlt, ((h.earlier hsrc hmem hj hlt).1 p hp).symm.trans hx⟩
  refine ⟨h.pml4, h.pagePT, fun y hy hyg j => ?_, fun j hj => ?_, fun j hj hji => ?_,
    fun j p x hj hji hp hx => ?_, fun j p k q x hj hji hp hk hki hq hpx hqx => ?_, fun x => ?_⟩
  · rw [write_mem, if_neg fun hg => hyg hg.1]
    exact h.others y hy hyg j
  · rw [write_mem, if_neg fun hg => hj (by omega)]
    exact h.rest j fun hj' => hj (by omega)
  · by_cases hjeq : j = i
    · subst hjeq
      refine .inl ⟨hpres, ?_⟩
      rw [write_mem, if_pos ⟨rfl, rfl⟩]
    · exact (h.earlier hsrc hmem hj (by omega)).2.2
  · obtain ⟨hlt, hx⟩ := hold j p hj hji hp x hx
    exact h.fresh j p x hj hlt hp hx
  · obtain ⟨hlt, hpx⟩ := hold j p hj hji hp x hpx
    obtain ⟨hlt', hqx⟩ := hold k q hk hki hq x hqx
    exact h.tree j p k q x hj hlt hp hk hlt' hq hpx hqx
  · rw [write_used, h.used x]
    refine or_congr_right ⟨?_, ?_⟩
    · rintro ⟨j, p, hj, hji, hp, hx⟩
      exact ⟨j, p, hj, by omega, hp, ((h.earlier hsrc hmem hj hji).1 p hp).trans hx⟩
    · rintro ⟨j, p, hj, hji, hp, hx⟩
      obtain ⟨hlt, hx⟩ := hold j p hj hji hp x hx
      exact ⟨j, p, hj, hlt, hp, hx⟩

/-- A present entry gets a new frame, filled by `inner`. -/
theorem Copying.next_present {i x : Nat} (h : Copying s u g f a d i)
    (hsrc : Source s g f a (d + 1)) (hi : a ≤ i) (hlt : i < 512)
    (hpres : (s.mem f i).present = true) (hx : x ∉ u.used) (hxz : x ≠ 0) (hxf : IsFrame x)
    (hv : v.pml4 = u.pml4 ∧ v.pagePT = u.pagePT ∧ v.used = insert x u.used)
    (hvm : ∀ y j, v.mem y j = if y = g ∧ j = i then (s.mem f i).withAddr x else u.mem y j)
    (hcopy : Copied v w d x (s.mem f i).getAddr) (hw : w.pml4 = v.pml4 ∧ w.pagePT = v.pagePT)
    (hwm : ∀ y ∈ v.used, y ≠ x → ∀ j, w.mem y j = v.mem y j)
    (hfresh : ∀ p y, From 0 d p → p ≠ [] → w.linkAt x p = some y → y ∉ v.used ∧ y ≠ 0)
    (htree : Store.Tree link w.mem x (From 0 d))
    (hused : ∀ y, y ∈ w.used ↔ y ∈ v.used ∨ ∃ p, From 0 d p ∧ p ≠ [] ∧ w.linkAt x p = some y) :
    Copying s w g f a d (i + 1) := by
  obtain ⟨hvpml4, hvpage, hvused⟩ := hv
  have hgu : g ∈ u.used := (h.used g).mpr (.inl hsrc.dest.1)
  have hgx : g ≠ x := fun hg => hx (hg ▸ hgu)
  have hsu : ∀ y ∈ s.used, y ∈ u.used := fun y hy => (h.used y).mpr (.inl hy)
  have huv : ∀ y ∈ u.used, y ∈ v.used := fun y hy => by
    rw [hvused]
    exact Finset.mem_insert_of_mem hy
  have hmem : ∀ y ∈ u.used, ∀ j, ¬(y = g ∧ j = i) → w.mem y j = u.mem y j := by
    intro y hy j hne
    rw [hwm y (huv y hy) (fun hyx => hx (hyx ▸ hy)), hvm, if_neg hne]
  have hentry : w.mem g i = (s.mem f i).withAddr x := by
    rw [hwm g (huv g hgu) hgx, hvm, if_pos ⟨rfl, rfl⟩]
  have hlink : (w.mem g i).link = some x := hentry ▸ link_withAddr hpres hxf
  -- The frames that entry `i` leads to are new.
  have hnew : ∀ p y, From 0 d p → w.linkAt g (i :: p) = some y → y ∉ u.used ∧ y ≠ 0 := by
    intro p y hp hy
    rw [linkAt_cons p hlink] at hy
    by_cases hne : p = []
    · subst hne
      rw [← Option.some.inj hy]
      exact ⟨hx, hxz⟩
    · obtain ⟨hyv, hyz⟩ := hfresh p y hp hne hy
      exact ⟨fun hyu => hyv (huv y hyu), hyz⟩
  have hold : ∀ j p, a ≤ j → j < i → From 0 d p → w.linkAt g (j :: p) = u.linkAt g (j :: p) :=
    fun j p hj hji hp => (h.earlier hsrc hmem hj hji).1 p hp
  refine ⟨hw.1.trans (hvpml4.trans h.pml4), hw.2.trans (hvpage.trans h.pagePT),
    fun y hy hyg j => ?_, fun j hj => ?_, fun j hj hji => ?_, fun j p y hj hji hp hy => ?_,
    fun j p k q y hj hji hp hk hki hq hpy hqy => ?_, fun y => ?_⟩
  · rw [hmem y (hsu y hy) j fun hg => hyg hg.1]
    exact h.others y hy hyg j
  · rw [hmem g hgu j fun hg => hj (by omega)]
    exact h.rest j fun hj' => hj (by omega)
  · by_cases hjeq : j = i
    · subst hjeq
      refine .inr ⟨hpres, x, hxf, hentry, hcopy.source fun p y hp hy k => ?_⟩
      have hy' : s.linkAt f (j :: p) = some y := (linkAt_cons p (link_of_present hpres)).trans hy
      obtain ⟨hys, -, hyg⟩ := hsrc.live (j :: p) y (hp.cons hi hlt) hy'
      rw [hvm, if_neg fun hg => hyg hg.1]
      exact h.others y hys hyg k
    · exact (h.earlier hsrc hmem hj (by omega)).2.2
  · by_cases hjeq : j = i
    · subst hjeq
      obtain ⟨hyu, hyz⟩ := hnew p y hp hy
      exact ⟨fun hys => hyu (hsu y hys), hyz⟩
    · have hlt : j < i := by omega
      exact h.fresh j p y hj hlt hp ((hold j p hj hlt hp).symm.trans hy)
  · by_cases hjeq : j = i
    · subst hjeq
      by_cases hkeq : k = j
      · subst hkeq
        rw [linkAt_cons p hlink] at hpy
        rw [linkAt_cons q hlink] at hqy
        rw [htree p q y hp hq hpy hqy]
      · have hklt : k < j := by omega
        obtain ⟨hyu, -, -⟩ := h.new hsrc hk hklt hq ((hold k q hk hklt hq).symm.trans hqy)
        exact absurd hyu (hnew p y hp hpy).1
    · have hjlt : j < i := by omega
      have hpy' := (hold j p hj hjlt hp).symm.trans hpy
      by_cases hkeq : k = i
      · subst hkeq
        exact absurd (h.new hsrc hj hjlt hp hpy').1 (hnew q y hq hqy).1
      · have hklt : k < i := by omega
        exact h.tree j p k q y hj hjlt hp hk hklt hq hpy' ((hold k q hk hklt hq).symm.trans hqy)
  · rw [hused y, hvused, Finset.mem_insert, h.used y]
    constructor
    · rintro ((rfl | hys | ⟨j, p, hj, hji, hp, hy⟩) | ⟨p, hp, -, hy⟩)
      · exact .inr ⟨i, [], hi, by omega, From.nil 0 d, linkAt_one.trans hlink⟩
      · exact .inl hys
      · exact .inr ⟨j, p, hj, by omega, hp, (hold j p hj hji hp).trans hy⟩
      · exact .inr ⟨i, p, hi, by omega, hp, (linkAt_cons p hlink).trans hy⟩
    · rintro (hys | ⟨j, p, hj, hji, hp, hy⟩)
      · exact .inl (.inr (.inl hys))
      · by_cases hjeq : j = i
        · subst hjeq
          rw [linkAt_cons p hlink] at hy
          by_cases hne : p = []
          · subst hne
            exact .inl (.inl (Option.some.inj hy).symm)
          · exact .inr ⟨p, hp, hne, hy⟩
        · have hjlt : j < i := by omega
          exact .inl (.inr (.inr ⟨j, p, hj, hjlt, hp, (hold j p hj hjlt hp).symm.trans hy⟩))

theorem Copying.start (a : Nat) : Copying s s g f a d a where
  pml4 := rfl
  pagePT := rfl
  others _ _ _ _ := rfl
  rest _ _ := rfl
  copied j hj hja := by omega
  fresh j p x hj hja := by omega
  tree j p k q x hj hja := by omega
  used x := by
    refine (or_iff_left ?_).symm
    rintro ⟨j, p, hj, hja, -⟩
    omega

theorem CopyRound.loop {inner : Machine → Nat → Nat → Except Fault Machine}
    {body : Machine → Nat → Except Fault Machine} (hr : CopyRound A inner g f a body)
    (hin : Copies inner d) (hsrc : Source s g f a (d + 1)) (ha : a ≤ 512) :
    Ensures ((List.range' a (512 - a)).foldlM body s) (· = .outOfMemory)
      fun s' => Copying s s' g f a d 512 := by
  have hf := hsrc.live [] f (From.nil a _) rfl
  have hloop := Ensures.foldlM_range' (E := (· = Fault.outOfMemory)) (f := body) (n := 512 - a)
    (P := fun i u => Copying s u g f a d i) (Copying.start a) fun i hi hlt u hu => by
      have hentry : u.mem f i = s.mem f i := hu.others f hf.1 hf.2.2 i
      cases hpres : (s.mem f i).present with
      | false =>
        rw [hr.absent u i (by rw [hentry, hpres])]
        exact hu.next_absent hsrc hi hpres
      | true =>
        have hlink : s.linkAt f [i] = some (s.mem f i).getAddr :=
          linkAt_one.trans (link_of_present hpres)
        have hold := hsrc.live [i] _ ((From.nil 0 d).cons hi (by omega)) hlink
        have hgu : g ∈ u.used := (hu.used g).mpr (.inl hsrc.dest.1)
        rw [hr.present u i hi (by rw [hentry, hpres]) hf.2.2.symm (hentry ▸ hold.2.2.symm) hgu, alloc,
          hentry]
        cases hpick : A.pick u.used with
        | none => exact rfl
        | some x =>
          obtain ⟨hx, hxz, hxf⟩ := A.fresh _ _ hpick
          simp only [ok_bind]
          generalize hv : ({ u with used := insert x u.used } : Machine).write g i
            ((s.mem f i).withAddr x) = v
          have hvm : ∀ y j, v.mem y j = if y = g ∧ j = i then (s.mem f i).withAddr x
              else u.mem y j := by
            intro y j
            rw [← hv]
            exact write_mem ..
          have hvused : v.used = insert x u.used := by rw [← hv]; rfl
          have hvs : ∀ y ∈ s.used, y ≠ g → ∀ j, v.mem y j = s.mem y j := fun y hy hyg j => by
            rw [hvm, if_neg fun hg => hyg hg.1, hu.others y hy hyg]
          have hsrcv : Source v x (s.mem f i).getAddr 0 d := by
            refine ⟨fun p y hp hy => ?_, by rw [hvused]; exact Finset.mem_insert_self _ _, hxz⟩
            have hsame : v.linkAt (s.mem f i).getAddr p = s.linkAt (s.mem f i).getAddr p := by
              refine Store.descend_congr fun q j z hq hz => congrArg link ?_
              have hqp := (From.closed 0 d).of_initial (List.IsPrefix.trans ⟨[j], rfl⟩ hq) hp
              obtain ⟨hzs, -, hzg⟩ := hsrc.live (i :: q) z (hqp.cons hi (by omega))
                ((linkAt_cons q (link_of_present hpres)).trans hz)
              exact hvs z hzs hzg j
            obtain ⟨hys, hyz, -⟩ := hsrc.live (i :: p) y (hp.cons hi (by omega))
              ((linkAt_cons p (link_of_present hpres)).trans (hsame.symm.trans hy))
            have hyu : y ∈ u.used := (hu.used y).mpr (.inl hys)
            refine ⟨?_, hyz, fun hyx => hx (hyx ▸ hyu)⟩
            rw [hvused]
            exact Finset.mem_insert_of_mem hyu
          refine (hin v x _ hsrcv).mono (fun _ he => he) fun w hw => ?_
          obtain ⟨hcopy, hpml4, hpage, hothers, hfresh, htree, hused⟩ := hw
          exact hu.next_present hsrc hi (by omega) hpres hx hxz hxf
            (by rw [← hv]; exact ⟨rfl, rfl, rfl⟩) hvm hcopy ⟨hpml4, hpage⟩ hothers hfresh htree hused
  rwa [show a + (512 - a) = 512 by omega] at hloop

/-- The copies of tables from those of their entries. -/
theorem Copying.copies (h : Copying s s' g f 0 d 512) (hsrc : Source s g f 0 (d + 1)) :
    Copied s s' (d + 1) g f ∧ s'.pml4 = s.pml4 ∧ s'.pagePT = s.pagePT ∧
      (∀ y ∈ s.used, y ≠ g → ∀ j, s'.mem y j = s.mem y j) ∧
      (∀ p x, From 0 (d + 1) p → p ≠ [] → s'.linkAt g p = some x → x ∉ s.used ∧ x ≠ 0) ∧
      Store.Tree link s'.mem g (From 0 (d + 1)) ∧
      ∀ x, x ∈ s'.used ↔ x ∈ s.used ∨
        ∃ p, From 0 (d + 1) p ∧ p ≠ [] ∧ s'.linkAt g p = some x := by
  have hfresh : ∀ p x, From 0 (d + 1) p → p ≠ [] → s'.linkAt g p = some x →
      x ∉ s.used ∧ x ≠ 0 := by
    intro p x hp hne hx
    cases p with
    | nil => exact absurd rfl hne
    | cons j p =>
      obtain ⟨hp', hj, hlt⟩ := hp.tail
      exact h.fresh j p x hj hlt hp' hx
  refine ⟨fun i hi => h.copied i (Nat.zero_le i) hi, h.pml4, h.pagePT, h.others, hfresh,
    fun p q x hp hq hpx hqx => ?_, fun x => ?_⟩
  · cases p with
    | nil =>
      cases q with
      | nil => rfl
      | cons k q =>
        refine absurd ?_ (hfresh _ x hq (List.cons_ne_nil _ _) hqx).1
        rw [← Option.some.inj hpx]
        exact hsrc.dest.1
    | cons j p =>
      obtain ⟨hp', hj, hlt⟩ := hp.tail
      cases q with
      | nil =>
        refine absurd ?_ (hfresh _ x hp (List.cons_ne_nil _ _) hpx).1
        rw [← Option.some.inj hqx]
        exact hsrc.dest.1
      | cons k q =>
        obtain ⟨hq', hk, hlt'⟩ := hq.tail
        exact h.tree j p k q x hj hlt hp' hk hlt' hq' hpx hqx
  · rw [h.used x]
    refine or_congr_right ⟨?_, ?_⟩
    · rintro ⟨j, p, hj, hlt, hp, hx⟩
      exact ⟨j :: p, hp.cons hj hlt, List.cons_ne_nil _ _, hx⟩
    · rintro ⟨p, hp, hne, hx⟩
      cases p with
      | nil => exact absurd rfl hne
      | cons j p =>
        obtain ⟨hp', hj, hlt⟩ := hp.tail
        exact ⟨j, p, hj, hlt, hp', hx⟩

/-! ### The functions -/

theorem write_write (i : Nat) (e e' : Entry) : (u.write g i e).write g i e' = u.write g i e' := by
  simp only [write, Machine.mk.injEq, and_true]
  funext y j
  by_cases h : y = g ∧ j = i
  · rw [if_pos h, if_pos h]
  · rw [if_neg h, if_neg h, if_neg h]

theorem copyFrame_copies : Copies (fun s g f => .ok (s.copyFrame g f)) 0 := by
  intro s g f hsrc
  have hnil : ∀ p, From 0 0 p → p = [] := fun p hp =>
    List.length_eq_zero_iff.mp (Nat.le_zero.mp hp.length)
  refine ⟨fun j => ?_, rfl, rfl, fun y _ hyg j => ?_, fun p x hp hne => absurd (hnil p hp) hne,
    fun p q x hp hq _ _ => (hnil p hp).trans (hnil q hq).symm, fun x => ?_⟩
  · exact congrFun (if_pos rfl) j
  · exact congrFun (if_neg hyg) j
  · refine (or_iff_left ?_).symm
    rintro ⟨p, hp, hne, -⟩
    exact hne (hnil p hp)

theorem copyPages_copies : Copies (fun s g f => s.copyPages A g f) 1 := by
  intro s g f hsrc
  have hround : CopyRound A (fun s g f => .ok (s.copyFrame g f)) g f 0
      (fun s i => s.copyPage A g f i) := by
    refine ⟨fun u i hp => ?_, fun u i _ hp hgf hgold hgu => ?_⟩
    · rw [copyPage, hp, if_neg Bool.false_ne_true]
      rfl
    · rw [copyPage, if_pos hp]
      dsimp only
      cases hpick : A.pick u.used with
      | none => rw [alloc_none hpick, alloc_none (s := u.write g i (u.mem f i)) hpick]; rfl
      | some x =>
        rw [alloc_some hpick, alloc_some (s := u.write g i (u.mem f i)) hpick]
        obtain ⟨hx, -, hxf⟩ := A.fresh _ _ hpick
        have hgx : g ≠ x := fun hg => hx (hg ▸ hgu)
        have hfi : ¬(f = g ∧ i = i) := fun h => hgf h.1.symm
        simp only [ok_bind]
        have hsrc : (u.write g i (u.mem f i)).mem f i = u.mem f i := by
          rw [write_mem, if_neg hfi]
        rw [hsrc]
        generalize hz : copyFrame _ x (u.mem f i).getAddr = z
        have hread : z.mem g i = u.mem f i := by
          rw [← hz]
          exact (congrFun (if_neg hgx) i).trans (by rw [write_mem, if_pos ⟨rfl, rfl⟩])
        rw [hread, setAddr_eq _ hxf, ok_bind, ← hz]
        refine congrArg Except.ok ?_
        simp only [copyFrame, write, Machine.mk.injEq, and_true]
        funext y j
        by_cases hyx : y = x
        · have hyg : ¬(y = g ∧ j = i) := fun h => hgx (h.1.symm.trans hyx)
          have hog : ¬((u.mem f i).getAddr = g ∧ j = i) := fun h => hgold h.1.symm
          simp only [hyx, if_true]
          rw [hyx] at hyg
          rw [if_neg hyg, if_neg hog, if_neg hog]
        · rw [if_neg hyx, if_neg hyx]
          by_cases hyg : y = g ∧ j = i
          · rw [if_pos hyg, if_pos hyg]
          · rw [if_neg hyg, if_neg hyg, if_neg hyg]
  have hdest : (g ≠ 0 && f ≠ 0) = true := by
    simp [hsrc.dest.2, (hsrc.live [] f (From.nil 0 1) rfl).2.1]
  have hloop := hround.loop copyFrame_copies hsrc (Nat.zero_le 512)
  rw [Nat.sub_zero] at hloop
  unfold copyPages
  dsimp only
  rw [hdest, assert_true, ok_bind, List.range_eq_range']
  exact hloop.mono (fun _ he => he) fun s' hs' => hs'.copies hsrc

/-- An entry copied and given the address of a new table before `k` runs on it. -/
theorem entry_first {k : Machine → Nat → Nat → Except Fault Machine} {i : Nat} (hgf : g ≠ f) :
    (do
      let s := u.write g i (u.mem f i)
      let (x, s) ← s.alloc A
      let e ← (s.mem g i).setAddr x
      let s := s.write g i e
      k s x (s.mem f i).getAddr) =
    (do
      let (x, s) ← u.alloc A
      k (s.write g i ((u.mem f i).withAddr x)) x (u.mem f i).getAddr) := by
  dsimp only
  cases hpick : A.pick u.used with
  | none => rw [alloc_none hpick, alloc_none (s := u.write g i (u.mem f i)) hpick]; rfl
  | some x =>
    rw [alloc_some hpick, alloc_some (s := u.write g i (u.mem f i)) hpick]
    obtain ⟨-, -, hxf⟩ := A.fresh _ _ hpick
    have hfi : ∀ e : Entry, (write { u with used := insert x u.used } g i e).mem f i = u.mem f i :=
      fun e => by rw [write_mem, if_neg fun h => hgf h.1.symm]
    simp only [ok_bind]
    generalize hz : ({ u.write g i (u.mem f i) with
      used := insert x (u.write g i (u.mem f i)).used } : Machine) = z
    have hzu : z = write { u with used := insert x u.used } g i (u.mem f i) := by rw [← hz]; rfl
    have hread : (u.write g i (u.mem f i)).mem g i = u.mem f i := by
      rw [write_mem, if_pos ⟨rfl, rfl⟩]
    rw [hread, setAddr_eq _ hxf, ok_bind, hzu, write_write, hfi]

/-- From entry `start` on. -/
theorem copyPTs_copying {start : Nat} (hstart : start ≤ 1) (hsrc : Source s g f start 2) :
    Ensures (s.copyPTs A g f start) (· = .outOfMemory) fun s' => Copying s s' g f start 1 512 := by
  have hround : CopyRound A (fun s g f => s.copyPages A g f) g f start
      (fun s i => s.copyPT A g f i) := by
    refine ⟨fun u i hp => ?_, fun u i _ hp hgf _ _ => ?_⟩
    · rw [copyPT, hp, if_neg Bool.false_ne_true]
      rfl
    · rw [copyPT, if_pos hp]
      exact entry_first hgf
  have hdest : (g ≠ 0 && f ≠ 0) = true := by
    simp [hsrc.dest.2, (hsrc.live [] f (From.nil _ _) rfl).2.1]
  unfold copyPTs
  rw [hdest, assert_true, ok_bind]
  exact hround.loop copyPages_copies hsrc (by omega)

theorem copyPTs_copies : Copies (fun s g f => s.copyPTs A g f 0) 2 := by
  intro s g f hsrc
  exact (copyPTs_copying (Nat.zero_le 1) hsrc).mono (fun _ he => he) fun _ hs => hs.copies hsrc

end Machine

end SupOS
