import SupOS.Memory.Alike
import SupOS.Memory.UserMemory
import SupOS.Lib.Machine

/-! The translation buffer of the processor. It may hold every translation that an access has found
since `invlpg` or the reload of CR3 has last removed it. -/

namespace SupOS

open Lib Entry

/-- A translation that is held, with the bit that a reload of CR3 spares. -/
structure Cached where
  page : Nat
  frame : Nat
  global : Bool
  deriving DecidableEq, Repr

namespace Machine

/-- The bit `global` of the entry that translates a page. -/
def isGlobal (s : Machine) (v : Nat) : Bool :=
  match s.tableAt (pathPD v) with
  | none => false
  | some PD =>
    let e := s.mem PD (getPDindex v)
    if e.isSizeMega then e.global else (s.mem e.getAddr (getPTindex v)).global

end Machine

namespace Heap

variable (h : Heap)

/-- Where `brk` maps a page, in the order of its loop. -/
def added (addr : Nat) : List Nat :=
  let dist := addr - h.start
  if h.size < dist then
    (List.range (count ((dist - h.size + 0x1000 - 1) / 0x1000))).map fun i =>
      u64 (u64 (h.start + h.size) + i32 (i * 0x1000))
  else []

/-- The arguments with which `brk` calls `freeMappingAndPhy`, if it does. -/
def removed (addr : Nat) : Option (Nat × Nat) :=
  let dist := addr - h.start
  if addr = 0 then none
  else if h.size < dist then none
  else if u64 (dist + 0x1000) < h.size then
    let nbPages := (h.size - dist) / 0x1000
    some (u64 (h.start + h.size + (2 ^ 64 - i32 (nbPages * 0x1000))), count nbPages)
  else none

end Heap

/-- The memory and what the processor holds of it. -/
structure Core where
  memory : Machine
  tlb : List Cached

namespace Core

open Machine (virtTables Canonical)

/-- The windows that a walk of the tables opens, each with `invlpg`, and closes again. -/
def windows : List Nat :=
  [virtTables + Machine.TMPPDPOFF * 0x1000, virtTables + Machine.TMPPDOFF * 0x1000,
    virtTables + Machine.TMPPTOFF * 0x1000]

/-- The calls, and accesses to a page. -/
inductive Op
  | createMapping (phy virt numPg : Nat) (wt : Bool)
  | freeMapping (virt nbPages : Nat)
  | freeMappingAndPhy (virt nbPages : Nat)
  | brk (h : Heap) (addr : Nat)
  | switchUser (usPDP : Nat)
  | access (v : Nat)

namespace Op

/-- The pages that a call maps. Each is followed by `invlpg`. -/
def maps : Op → List Nat
  | createMapping _ virt numPg _ => (List.range numPg).map fun i => u64 (virt + u32 (i * 0x1000))
  | brk h addr => h.added addr
  | _ => []

/-- The pages whose frames a call gives back. -/
def frees : Op → List Nat
  | freeMappingAndPhy virt nbPages =>
    (List.range nbPages).map fun i => u64 (virt + i32 (i * 0x1000))
  | brk h addr => (h.removed addr).elim [] fun r =>
    (List.range r.2).map fun i => u64 (r.1 + i32 (i * 0x1000))
  | _ => []

/-- The pages that a call unmaps. No `invlpg` follows. -/
def unmaps : Op → List Nat
  | freeMapping virt nbPages | freeMappingAndPhy virt nbPages =>
    (List.range nbPages).map fun i => u64 (virt + i * 0x1000)
  | brk h addr => (h.removed addr).elim [] fun r =>
    (List.range r.2).map fun i => u64 (r.1 + i * 0x1000)
  | _ => []

/-- What `invlpg` is called with: the windows in each walk, and the pages that are mapped. -/
def invalidates (op : Op) : List Nat :=
  op.maps ++ (op.maps ++ op.frees ++ op.unmaps).flatMap fun _ => windows

end Op

variable (A : FrameAllocator) (c : Core)

/-- What a call does to the memory. -/
def call : Op → Except Fault Machine
  | .createMapping phy virt numPg wt => c.memory.createMapping A phy virt numPg wt
  | .freeMapping virt nbPages => c.memory.freeMapping A virt nbPages
  | .freeMappingAndPhy virt nbPages => c.memory.freeMappingAndPhy A virt nbPages
  | .brk h addr => do
    let (_, _, memory) ← h.brk A c.memory addr
    return memory
  | .switchUser usPDP => c.memory.switchUser usPDP
  | .access v => if (c.memory.translate v).isSome then return c.memory else .error .pageFault

/-- `switchUser` reloads CR3, unless the memory is the active one already. -/
def flushes : Op → Bool
  | .switchUser usPDP => usPDP ≠ (c.memory.mem c.memory.pml4 0).getAddr
  | _ => false

/-- The translations that an access adds. -/
def found : Op → List Cached
  | .access v => (c.memory.translate v).elim [] fun f => [⟨v, f, c.memory.isGlobal v⟩]
  | _ => []

def apply (op : Op) : Except Fault Core := do
  let memory ← c.call A op
  let kept := c.tlb.filter fun e => e.page ∉ op.invalidates && (!c.flushes op || e.global)
  return ⟨memory, c.found op ++ kept⟩

/-- Every translation that is held is that of the tables. -/
def Coherent : Prop := ∀ e ∈ c.tlb, c.memory.translate e.page = some e.frame

/-- The memory after `switchUser`. -/
def switched (usPDP : Nat) : Machine :=
  c.memory.write c.memory.pml4 0 ((c.memory.mem c.memory.pml4 0).active usPDP)

/-- What the callers keep: pages to be mapped or unmapped are page aligned, in no large page and no
window of Paging; pages to be unmapped are mapped, and frames to be given back are no tables; a memory
to be activated has tables of its own, and the global pages of the active one (those of the first MiB)
in the same places. -/
def Admits : Op → Prop
  | .switchUser usPDP => (c.switched usPDP).WellFormed ∧ ∀ e ∈ c.tlb, e.global = true →
      getPML4index e.page = 0 → (c.switched usPDP).translate e.page = c.memory.translate e.page
  | .access v => Canonical v ∧ v % 0x1000 = 0
  | op => (∀ v ∈ op.maps ++ op.frees ++ op.unmaps, c.memory.Suitable v) ∧
      (∀ v ∈ op.frees, ∃ f, c.memory.translate v = some f ∧ ¬c.memory.IsTable f) ∧
      ∀ v ∈ op.unmaps, c.memory.translate v ≠ none

/-- No page that the call unmaps is held, and no absent entry on the way to a page that it maps has
`isSizeMega` set. -/
def Careful (op : Op) : Prop :=
  (∀ v ∈ op.unmaps, ∀ e ∈ c.tlb, e.page ≠ v) ∧ ∀ v ∈ op.maps, c.memory.Clean v

end Core

/-! ### What a call leaves of the translation -/

namespace Machine

variable {A : FrameAllocator} {s s1 s' : Machine} {l l' : List Nat} {v w f : Nat}

/-- Only the translation of the pages in `l` has changed. -/
structure Framed (s s' : Machine) (l : List Nat) : Prop where
  wf : s'.WellFormed
  others : ∀ w, Canonical w → w % 0x1000 = 0 → w ∉ l → s'.translate w = s.translate w
  suitable : ∀ w, s.Suitable w → s.Small w → s'.Suitable w ∧ s'.Small w

namespace Framed

theorem refl (h : s.WellFormed) : Framed s s [] :=
  ⟨h, fun _ _ _ _ => rfl, fun _ hs hsmall => ⟨hs, hsmall⟩⟩

theorem trans (h : Framed s s1 l) (h' : Framed s1 s' l') : Framed s s' (l ++ l') where
  wf := h'.wf
  others w hw hwa hnot := by
    rw [List.mem_append, not_or] at hnot
    exact (h'.others w hw hwa hnot.2).trans (h.others w hw hwa hnot.1)
  suitable w hs hsmall := by
    obtain ⟨hs1, hsmall1⟩ := h.suitable w hs hsmall
    exact h'.suitable w hs1 hsmall1

theorem of_remapped {f : Option Nat} (h : Remapped s s' v f) : Framed s s' [v] :=
  ⟨h.wf, fun w hw hwa hnot => h.others w hw hwa (by simpa using hnot), h.suitable⟩

end Framed

theorem Alike.framed (h : Alike s s') : Framed s s' [] :=
  ⟨h.wf, fun w _ _ _ => h.translate w, fun w hs hsmall => ⟨h.suitable w hs, h.small w hsmall⟩⟩

/-- A loop over pages, each round of which changes the translation of its page alone. -/
theorem framed_loop {g : Machine → Nat → Except Fault Machine} {a : Nat → Nat} {n : Nat}
    (h : s.WellFormed) (hround : ∀ i < n, ∀ s1, Framed s s1 ((List.range i).map a) →
      Ensures (g s1 i) (fun _ => True) fun s2 => Framed s1 s2 [a i]) :
    Ensures ((List.range n).foldlM g s) (fun _ => True) fun s' =>
      Framed s s' ((List.range n).map a) := by
  refine Ensures.foldlM_range (P := fun i s' => Framed s s' ((List.range i).map a)) (.refl h)
    fun i hi s1 h1 => (hround i hi s1 h1).mono (fun _ he => he) fun s2 h2 => ?_
  rw [List.range_succ, List.map_append]
  exact h1.trans h2

theorem createMapping1_framed (h : s.WellFormed) (hs : s.Suitable v) (hsmall : s.Small v)
    {phy : Nat} {wt : Bool} :
    Ensures (s.createMapping1 A phy v wt) (fun _ => True) fun s' => Framed s s' [v] := by
  by_cases hphy : IsFrame phy
  · refine (createMapping1_entered (hs.ready h) hs.aligned hphy).mono (fun _ _ => trivial) ?_
    rintro s' ⟨-, PD, PT, s1, s2, he⟩
    refine .of_remapped (f := some phy) (he.remapped h hs hsmall fun e => ?_)
    unfold Entry.mapped
    split <;> exact (if_pos rfl).trans (congrArg some (Entry.getAddr_active e hphy))
  · -- The call stops at one of the checks of the physical address.
    unfold createMapping1
    by_cases halign : phy % 0x1000 = 0
    · rw [if_neg (not_not.mpr halign), if_neg (not_not.mpr hs.aligned),
        if_pos fun hmax => hphy ⟨halign, hmax⟩]
      trivial
    · rw [if_pos halign]
      trivial

theorem freeMapping1_framed (h : s.WellFormed) (hs : s.Suitable v) :
    Ensures (s.freeMapping1 A v) (fun _ => True) fun s' => Framed s s' [v] := by
  by_cases hmapped : s.translate v = none
  · -- The assertion of `freeMapping` fails.
    have hnot : ¬s.Present v := fun hp => (hs.translate_ne_none h).mpr hp hmapped
    unfold freeMapping1
    refine ((getPTphy_got (hs.ready h)).mono (fun _ _ => trivial) fun _ hr => hr).bind ?_
    rintro ⟨PT, s2⟩ ⟨PD, s1, hg, hg'⟩
    have hpt := hg.usable_pt (hs.ready h) hg'
    obtain ⟨s3, s4, hact, hread, -⟩ := edit_changed (e := Entry.blank)
      isWindow_PT (hg'.quiet (hg.quiet h.quiet)) hpt
    have habsent : (if (s.entryPD v).present = true ∧ (s.entryPT v).present = true
        then s.entryPage v else Entry.blank).present = false := by
      by_cases htables : (s.entryPD v).present = true ∧ (s.entryPT v).present = true
      · rw [if_pos htables]
        exact Bool.eq_false_iff.mpr fun hpage => hnot ⟨htables.1, htables.2, hpage⟩
      · rw [if_neg htables]
        rfl
    simp only [hact, ok_bind, hread]
    rw [habsent, assert_false]
    trivial
  · obtain ⟨s', heq, hc, -⟩ := freeMapping1_changed (A := A) h hs hmapped
    rw [heq]
    exact .of_remapped hc.toRemapped

theorem freePhy1_alike (h : s.WellFormed) (hs : s.Suitable v) (hf : s.translate v = some f)
    (ht : ¬s.IsTable f) : Ensures (s.freePhy1 v) (fun _ => True) (Alike s) := by
  obtain ⟨s1, heq, hused, ha⟩ := getphyu_alike h hs hf
  unfold freePhy1
  rw [heq, ok_bind]
  by_cases hin : f ∈ s1.used
  · have hfree : s1.free f = .ok { s1 with used := s1.used.erase f } := if_pos hin
    simp only [hfree]
    exact ha.trans (ha.wf.erase fun ht' => ht (ha.isTable.mp ht'))
  · have hfree : s1.free f = .error _ := if_neg hin
    simp only [hfree]
    trivial

theorem createMapping_framed (h : s.WellFormed) {phy virt n : Nat} {wt : Bool}
    (hpages : ∀ i < n, s.Suitable (u64 (virt + u32 (i * 0x1000))) ∧
      s.Small (u64 (virt + u32 (i * 0x1000)))) :
    Ensures (s.createMapping A phy virt n wt) (fun _ => True) fun s' =>
      Framed s s' ((List.range n).map fun i => u64 (virt + u32 (i * 0x1000))) :=
  framed_loop h fun i hi s1 h1 => by
    obtain ⟨hs, hsmall⟩ := hpages i hi
    obtain ⟨hs1, hsmall1⟩ := h1.suitable _ hs hsmall
    exact createMapping1_framed h1.wf hs1 hsmall1

theorem freeMapping_framed (h : s.WellFormed) {virt n : Nat}
    (hpages : ∀ i < n, s.Suitable (u64 (virt + i * 0x1000)) ∧
      s.translate (u64 (virt + i * 0x1000)) ≠ none) :
    Ensures (s.freeMapping A virt n) (fun _ => True) fun s' =>
      Framed s s' ((List.range n).map fun i => u64 (virt + i * 0x1000)) :=
  framed_loop h fun i hi s1 h1 => by
    obtain ⟨hs, hmapped⟩ := hpages i hi
    have hsmall := hs.small_of_present h ((hs.translate_ne_none h).mp hmapped)
    exact freeMapping1_framed h1.wf (h1.suitable _ hs hsmall).1

theorem freeMappingAndPhy_framed (h : s.WellFormed) {virt n : Nat}
    (hfrees : ∀ i < n, s.Suitable (u64 (virt + i32 (i * 0x1000))) ∧
      ∃ f, s.translate (u64 (virt + i32 (i * 0x1000))) = some f ∧ ¬s.IsTable f)
    (hpages : ∀ i < n, s.Suitable (u64 (virt + i * 0x1000)) ∧
      s.translate (u64 (virt + i * 0x1000)) ≠ none) :
    Ensures (s.freeMappingAndPhy A virt n) (fun _ => True) fun s' =>
      Framed s s' ((List.range n).map fun i => u64 (virt + i * 0x1000)) := by
  unfold freeMappingAndPhy
  refine Ensures.bind (Q := Alike s) ?_ fun s1 h1 => ?_
  · refine Ensures.foldlM_range (P := fun _ => Alike s) (.refl h) fun i hi s1 h1 => ?_
    obtain ⟨hs, f, hf, ht⟩ := hfrees i hi
    refine (freePhy1_alike h1.wf (h1.suitable _ hs) ((h1.translate _).trans hf)
      fun ht' => ht (h1.isTable.mp ht')).mono (fun _ he => he) fun s2 h2 => h1.trans h2
  · refine (freeMapping_framed (A := A) h1.wf fun i hi => ?_).mono (fun _ he => he) fun s' h' =>
      h1.framed.trans h'
    obtain ⟨hs, hmapped⟩ := hpages i hi
    exact ⟨h1.suitable _ hs, by rw [h1.translate]; exact hmapped⟩

/-- The rounds of `brk` that add pages. -/
theorem grow_framed (h : s.WellFormed) (heap : Heap) {dist : Nat} {a : Nat → Nat} {n : Nat}
    (hn : Heap.count ((dist - heap.size + 0x1000 - 1) / 0x1000) = n)
    (ha : ∀ i, u64 (u64 (heap.start + heap.size) + i32 (i * 0x1000)) = a i)
    (hpages : ∀ i < n, s.Suitable (a i) ∧ s.Small (a i)) :
    Ensures (heap.grow A s dist) (fun _ => True) fun r =>
      Framed s r.2 ((List.range n).map a) := by
  unfold Heap.grow
  simp only [hn, ha]
  refine Ensures.bind (framed_loop (a := a) h fun i hi s1 h1 => ?_) fun s' h' => h'
  obtain ⟨hs, hsmall⟩ := hpages i hi
  obtain ⟨hs1, hsmall1⟩ := h1.suitable _ hs hsmall
  unfold Heap.newPage
  cases hpick : A.pick s1.used with
  | none =>
    rw [alloc_none hpick]
    trivial
  | some f =>
    rw [alloc_some hpick, ok_bind]
    have hins := h1.wf.insert f
    exact (createMapping1_framed hins.wf (hins.suitable _ hs1) (hins.small _ hsmall1)).mono
      (fun _ he => he) fun s2 h2 => hins.framed.trans h2

/-- `brk` changes the translation of the pages that it adds or removes. -/
theorem brk_framed (h : s.WellFormed) (heap : Heap) (addr : Nat)
    (hadded : ∀ v ∈ heap.added addr, s.Suitable v ∧ s.Small v)
    (hremoved : ∀ r, heap.removed addr = some r →
      (∀ i < r.2, s.Suitable (u64 (r.1 + i32 (i * 0x1000))) ∧
        ∃ f, s.translate (u64 (r.1 + i32 (i * 0x1000))) = some f ∧ ¬s.IsTable f) ∧
      ∀ i < r.2, s.Suitable (u64 (r.1 + i * 0x1000)) ∧
        s.translate (u64 (r.1 + i * 0x1000)) ≠ none) :
    Ensures (heap.brk A s addr) (fun _ => True) fun r =>
      Framed s r.2.2 (heap.added addr ++ (heap.removed addr).elim [] fun r =>
        (List.range r.2).map fun i => u64 (r.1 + i * 0x1000)) := by
  unfold Heap.brk
  by_cases hzero : addr = 0
  · have hadd : heap.added addr = [] := by
      rw [Heap.added, hzero, Nat.zero_sub]
      exact if_neg (Nat.not_lt_zero _)
    rw [if_pos hzero, hadd, Heap.removed, if_pos hzero]
    exact .refl h
  rw [if_neg hzero]
  by_cases hstart : heap.start ≤ addr
  swap
  · rw [decide_eq_false hstart]
    trivial
  rw [decide_eq_true hstart, assert_true]
  simp only [ok_bind]
  unfold Heap.added Heap.removed at *
  simp only [if_neg hzero] at hremoved ⊢
  by_cases hlt : heap.size < addr - heap.start
  · simp only [if_pos hlt, Option.elim_none, List.append_nil] at hadded ⊢
    exact (grow_framed h heap rfl (fun _ => rfl) fun i hi =>
      hadded _ (List.mem_map.mpr ⟨i, List.mem_range.mpr hi, rfl⟩)).bind fun _ hr => hr
  · simp only [if_neg hlt, List.nil_append] at hremoved ⊢
    by_cases hcut : u64 (addr - heap.start + 0x1000) < heap.size
    · simp only [if_pos hcut, Option.elim_some] at hremoved ⊢
      obtain ⟨hfrees, hpages⟩ := hremoved _ rfl
      unfold Heap.shrink
      rw [bind_assoc]
      exact (freeMappingAndPhy_framed h hfrees hpages).bind fun _ hr => hr
    · simp only [if_neg hcut]
      exact .refl h

/-- The frames that are translated outside of the user half stay where they are. -/
theorem WellFormed.switched {P : Nat} (h : s.WellFormed) (hw : getPML4index w ≠ 0) :
    (s.write s.pml4 0 ((s.mem s.pml4 0).active P)).translate w = s.translate w := by
  have hroot : s.tableAt [] = some s.pml4 := rfl
  have hpage : s.pml4 ≠ s.pagePT := h.ne_pagePT (path_pathPDP w) hroot
  have hc : Changed s (s.write s.pml4 0 ((s.mem s.pml4 0).active P)) fun f j =>
      f = s.pml4 ∧ j = 0 := by
    refine ⟨rfl, rfl, fun f j hd _ => if_neg hd, fun k hk => ?_⟩
    rw [write_mem, if_neg fun heq => hpage heq.1.symm]
    exact h.quiet.closed k hk
  -- Only the root is written, in a slot that no path to the page goes through.
  have hne : ∀ q y, Path q → q ≠ [] → s.tableAt q = some y → y ≠ s.pml4 := by
    rintro q y hq hnil hy rfl
    exact hnil (h.tree q [] _ hq (Path.closed [] _ (path_pathPDP w)) hy hroot)
  refine h.translate_changed hc ?_ (fun PD hPD hd => ?_) fun PT hPT hd => ?_
  · refine Store.descend_congr fun r j y hrj hy => congrArg Entry.child (if_neg ?_)
    rintro ⟨rfl, rfl⟩
    have hr : r = [] := by
      by_contra hnil
      exact hne r _ (Path.closed _ _ (Path.closed.of_initial hrj (path_pathPD w))) hnil hy rfl
    subst hr
    obtain ⟨t, ht⟩ := hrj
    simp only [pathPD, List.nil_append, List.cons_append, List.cons.injEq] at ht
    exact hw ht.1.symm
  · exact hne _ PD (path_pathPD w) (by simp [pathPD]) hPD hd.1
  · exact hne _ PT (path_pathPT w) (by simp [pathPT]) hPT hd.1

end Machine

namespace Core

open Machine

variable {A : FrameAllocator} {c c' : Core} {op : Op}

/-- A call other than `switchUser` changes the translation of the pages that it maps or unmaps, and
of no other. -/
theorem call_framed (h : c.memory.WellFormed) (hop : ∀ P, op ≠ .switchUser P) (ha : c.Admits op)
    (hC : c.Careful op) : Ensures (c.call A op) (fun _ => True) fun s' =>
      Framed c.memory s' (op.maps ++ op.unmaps) := by
  have hmaps (hs : ∀ v ∈ op.maps ++ op.frees ++ op.unmaps, c.memory.Suitable v) :
      ∀ v ∈ op.maps, c.memory.Suitable v ∧ c.memory.Small v := by
    intro v hv
    have hv' := hs v (List.mem_append_left _ (List.mem_append_left _ hv))
    exact ⟨hv', .of_clean h hv' (hC.2 v hv)⟩
  have hfrees (hs : ∀ v ∈ op.maps ++ op.frees ++ op.unmaps, c.memory.Suitable v) :
      ∀ v ∈ op.frees, c.memory.Suitable v := fun v hv =>
    hs v (List.mem_append_left _ (List.mem_append_right _ hv))
  have hunmaps (hs : ∀ v ∈ op.maps ++ op.frees ++ op.unmaps, c.memory.Suitable v) :
      ∀ v ∈ op.unmaps, c.memory.Suitable v := fun v hv => hs v (List.mem_append_right _ hv)
  have hindex {n i : Nat} {a : Nat → Nat} (hi : i < n) : a i ∈ (List.range n).map a :=
    List.mem_map.mpr ⟨i, List.mem_range.mpr hi, rfl⟩
  cases op with
  | createMapping phy virt numPg wt =>
    have hnil : (Op.createMapping phy virt numPg wt).unmaps = [] := rfl
    rw [hnil, List.append_nil]
    exact createMapping_framed h fun i hi => hmaps ha.1 _ (hindex hi)
  | freeMapping virt nbPages =>
    exact freeMapping_framed h fun i hi => ⟨hunmaps ha.1 _ (hindex hi), ha.2.2 _ (hindex hi)⟩
  | freeMappingAndPhy virt nbPages =>
    exact freeMappingAndPhy_framed h
      (fun i hi => ⟨hfrees ha.1 _ (hindex hi), ha.2.1 _ (hindex hi)⟩)
      fun i hi => ⟨hunmaps ha.1 _ (hindex hi), ha.2.2 _ (hindex hi)⟩
  | brk heap addr =>
    refine (brk_framed h heap addr (hmaps ha.1) fun r hr => ?_).bind fun _ hr => hr
    have hlists : (Op.brk heap addr).frees = (List.range r.2).map (fun i =>
          u64 (r.1 + i32 (i * 0x1000))) ∧
        (Op.brk heap addr).unmaps = (List.range r.2).map fun i => u64 (r.1 + i * 0x1000) := by
      change (heap.removed addr).elim [] _ = _ ∧ (heap.removed addr).elim [] _ = _
      rw [hr]
      exact ⟨rfl, rfl⟩
    refine ⟨fun i hi => ?_, fun i hi => ?_⟩
    · have hmem : u64 (r.1 + i32 (i * 0x1000)) ∈ (Op.brk heap addr).frees := by
        rw [hlists.1]
        exact hindex hi
      exact ⟨hfrees ha.1 _ hmem, ha.2.1 _ hmem⟩
    · have hmem : u64 (r.1 + i * 0x1000) ∈ (Op.brk heap addr).unmaps := by
        rw [hlists.2]
        exact hindex hi
      exact ⟨hunmaps ha.1 _ hmem, ha.2.2 _ hmem⟩
  | switchUser P => exact absurd rfl (hop P)
  | access v =>
    change Ensures (if (c.memory.translate v).isSome then .ok c.memory else .error Fault.pageFault) _ _
    split
    · exact Framed.refl h
    · trivial

/-! ### Runs -/

/-- The pages held are canonical, and their translations those of the tables. -/
structure Inv (c : Core) : Prop where
  wf : c.memory.WellFormed
  pages : ∀ e ∈ c.tlb, Canonical e.page ∧ e.page % 0x1000 = 0
  coherent : c.Coherent

theorem Inv.switch {P : Nat} {s' : Machine} (h : c.Inv) (ha : c.Admits (.switchUser P))
    (hs : c.memory.switchUser P = .ok s') : s'.WellFormed ∧ ∀ e ∈ c.tlb,
      (!c.flushes (.switchUser P) || e.global) = true →
      s'.translate e.page = c.memory.translate e.page := by
  unfold Machine.switchUser at hs
  rw [readAt_eq h.wf.view, ok_bind] at hs
  by_cases hsame : P = (c.memory.mem c.memory.pml4 0).getAddr
  · rw [if_pos hsame] at hs
    obtain rfl := Except.ok.inj hs
    exact ⟨h.wf, fun _ _ _ => rfl⟩
  · rw [if_neg hsame] at hs
    obtain ⟨e, he, hs⟩ := bind_eq_ok.mp hs
    obtain ⟨hframe, he⟩ : IsFrame P ∧ e = (c.memory.mem c.memory.pml4 0).active P := by
      obtain ⟨_, hframe, he⟩ := bind_eq_ok.mp he
      exact ⟨of_decide_eq_true (assert_eq_ok.mp hframe), (Except.ok.inj he).symm⟩
    rw [writeAt_eq h.wf.view] at hs
    obtain rfl : c.switched P = s' := by
      rw [he] at hs
      exact Except.ok.inj hs
    refine ⟨ha.1, fun e he hglobal => ?_⟩
    have hflush : c.flushes (.switchUser P) = true := decide_eq_true hsame
    by_cases hslot : getPML4index e.page = 0
    · exact ha.2 e he (by simpa [hflush] using hglobal) hslot
    · exact h.wf.switched hslot

theorem Inv.step (h : c.Inv) (ha : c.Admits op) (hC : c.Careful op) (hc : c.apply A op = .ok c') :
    c'.Inv := by
  obtain ⟨s', hcall, hc⟩ := bind_eq_ok.mp hc
  obtain rfl := Except.ok.inj hc
  -- What is still held is translated as before.
  have hkept : s'.WellFormed ∧ ∀ e ∈ c.tlb, e.page ∉ op.invalidates →
      (!c.flushes op || e.global) = true → s'.translate e.page = c.memory.translate e.page := by
    by_cases hop : ∃ P, op = .switchUser P
    · obtain ⟨P, rfl⟩ := hop
      obtain ⟨hwf, hkept⟩ := h.switch ha hcall
      exact ⟨hwf, fun e he _ hglobal => hkept e he hglobal⟩
    · have hframed := (call_framed (A := A) h.wf (fun P heq => hop ⟨P, heq⟩) ha hC).of_ok hcall
      refine ⟨hframed.wf, fun e he hout _ => ?_⟩
      obtain ⟨hcanonical, haligned⟩ := h.pages e he
      refine hframed.others _ hcanonical haligned fun hin => ?_
      rcases List.mem_append.mp hin with hin | hin
      · exact hout (List.mem_append_left _ hin)
      · exact hC.1 _ hin e he rfl
  have hnew : ∀ e ∈ c.found op, (Canonical e.page ∧ e.page % 0x1000 = 0) ∧
      s'.translate e.page = some e.frame := by
    intro e he
    cases op with
    | access v =>
      cases hv : c.memory.translate v with
      | none => simp [found, hv] at he
      | some f =>
        simp only [found, hv, Option.elim_some, List.mem_singleton] at he
        simp only [call, hv, Option.isSome_some, if_true] at hcall
        obtain rfl := Except.ok.inj hcall
        subst he
        exact ⟨ha, hv⟩
    | createMapping _ _ _ _ => cases he
    | freeMapping _ _ => cases he
    | freeMappingAndPhy _ _ => cases he
    | brk _ _ => cases he
    | switchUser _ => cases he
  refine ⟨hkept.1, fun e he => ?_, fun e he => ?_⟩
  all_goals rcases List.mem_append.mp he with he | he
  · exact (hnew e he).1
  · exact h.pages e (List.mem_filter.mp he).1
  · exact (hnew e he).2
  · obtain ⟨he, hout⟩ := List.mem_filter.mp he
    obtain ⟨hout, hglobal⟩ := Bool.and_eq_true_iff.mp hout
    rw [hkept.2 e he (of_decide_eq_true hout) hglobal]
    exact h.coherent e he

/-- Calls and accesses, from tables that are well formed and nothing held. -/
def machine (A : FrameAllocator) : Lib.Machine Core Op Fault where
  start c := c.memory.WellFormed ∧ c.tlb = []
  admits := Admits
  apply := Core.apply A

theorem run_inv (hr : (machine A).Run Careful c) : c.Inv := by
  refine hr.invariant (fun c hs => ?_) fun c c' op hI ha hC hs => hI.step ha hC hs
  refine ⟨hs.1, fun e he => ?_, fun e he => ?_⟩
  all_goals rw [hs.2] at he; cases he

/-- In every run of careful calls the translations held are those of the tables; a frame that no page
is mapped to is not reached. -/
theorem run_coherent (hr : (machine A).Run Careful c) : c.Coherent ∧
    ∀ f, (∀ v, Canonical v → v % 0x1000 = 0 → c.memory.translate v ≠ some f) →
      ∀ e ∈ c.tlb, e.frame ≠ f := by
  have hinv := run_inv hr
  refine ⟨hinv.coherent, fun f hf e he heq => ?_⟩
  obtain ⟨hcanonical, haligned⟩ := hinv.pages e he
  exact hf e.page hcanonical haligned (heq ▸ hinv.coherent e he)

/-- A page of the tables of `stale` that is mapped and then accessed is held. -/
theorem exists_cached : ∃ c e, (machine lowest).Run Careful c ∧ c.tlb = [e] ∧ e.page = 0x400000 ∧
    c.memory.Suitable 0x400000 ∧ c.memory.translate 0x400000 = some e.frame := by
  have hm : stale.Mappable 0x7000 (2 * 0x200000) 1 :=
    stale_mappable (by decide) (by decide) (by decide) (by decide)
  obtain ⟨hs, hfree⟩ := hm.pages 0 Nat.one_pos
  let op : Op := .createMapping 0x7000 0x400000 1 false
  have hmaps : op.maps = [2 * 0x200000 + 0 * 0x1000] := by
    decide
  have hpages : op.maps ++ op.frees ++ op.unmaps = op.maps := by
    decide
  have hcreate : ((stale.createMapping lowest 0x7000 0x400000 1 false).toOption.bind
      fun s' => s'.translate 0x400000) = some 0x7000 := by
    decide +kernel
  obtain ⟨s', hs', htranslate⟩ := Option.bind_eq_some_iff.mp hcreate
  have heq := toOption_eq_some.mp hs'
  have hstart : (machine lowest).Run Careful ⟨stale, []⟩ := .start ⟨stale_wellFormed, rfl⟩
  have ha : (⟨stale, []⟩ : Core).Admits op := by
    refine ⟨fun v hv => ?_, fun v hv => (List.not_mem_nil hv).elim,
      fun v hv => (List.not_mem_nil hv).elim⟩
    rw [hpages, hmaps, List.mem_singleton] at hv
    rw [hv]
    exact hs
  have hC : (⟨stale, []⟩ : Core).Careful op := by
    refine ⟨fun v hv => (List.not_mem_nil hv).elim, fun v hv => ?_⟩
    rw [hmaps, List.mem_singleton] at hv
    rw [hv]
    exact stale_clean
  have hstep : Core.apply lowest ⟨stale, []⟩ op = .ok ⟨s', []⟩ := by
    simp only [Core.apply, op, call, heq]
    rfl
  have hrun := hstart.step (c := op) ha hC hstep
  have haccess : Core.apply lowest ⟨s', []⟩ (.access 0x400000) =
      .ok ⟨s', [⟨0x400000, 0x7000, s'.isGlobal 0x400000⟩]⟩ := by
    simp only [Core.apply, call, found, htranslate]
    rfl
  have hcanonical : (machine lowest).admits ⟨s', []⟩ (.access 0x400000) :=
    ⟨.inl (by decide), by decide⟩
  refine ⟨_, _, hrun.step hcanonical ?_ haccess, rfl, rfl, ?_, htranslate⟩
  · exact ⟨fun v hv => (List.not_mem_nil hv).elim, fun v hv => (List.not_mem_nil hv).elim⟩
  · have hswitch : ∀ P, op ≠ .switchUser P := fun _ h => Op.noConfusion h
    have hframed := (call_framed (A := lowest) stale_wellFormed hswitch ha hC).of_ok heq
    exact (hframed.suitable _ hs (.of_clean stale_wellFormed hs stale_clean)).1

theorem run_coherent_small : ∃ c e, (machine lowest).Run Careful c ∧ c.tlb = [e] ∧ c.Coherent := by
  obtain ⟨c, e, hr, htlb, -⟩ := exists_cached
  exact ⟨c, e, hr, htlb, (run_coherent hr).1⟩

/-- A page that is unmapped after an access is still held. -/
theorem not_coherent : ¬∀ (A : FrameAllocator) (c : Core),
    (machine A).Run (fun _ _ => True) c → c.Coherent := by
  intro hall
  obtain ⟨c, e, hr, htlb, hpage, hs, htranslate⟩ := exists_cached
  have hinv := run_inv hr
  have hmapped : c.memory.translate 0x400000 ≠ none := by
    rw [htranslate]
    exact Option.some_ne_none _
  obtain ⟨s', heq, hr'⟩ := freeMapping1_remapped (A := lowest) hinv.wf hs hmapped
  have hstep : Core.apply lowest c (.freeMapping 0x400000 1) = .ok ⟨s', [e]⟩ := by
    have hcall : c.call lowest (.freeMapping 0x400000 1) = .ok s' := by
      change c.memory.freeMapping lowest 0x400000 1 = .ok s'
      have hpage : u64 (0x400000 + 0 * 0x1000) = 0x400000 := by decide
      rw [freeMapping, List.range_one, List.foldlM_cons, hpage, heq]
      rfl
    rw [Core.apply, hcall, htlb]
    have hkeep : e.page ∉ (Op.freeMapping 0x400000 1).invalidates := by
      rw [hpage]
      decide
    simp [found, flushes, hkeep]
  have ha : (machine lowest).admits c (.freeMapping 0x400000 1) := by
    have hunmaps : (Op.freeMapping 0x400000 1).unmaps = [0x400000] := by decide
    refine ⟨fun v hv => ?_, fun v hv => (List.not_mem_nil hv).elim, fun v hv => ?_⟩
    · have hv : v ∈ (Op.freeMapping 0x400000 1).unmaps := hv
      rw [hunmaps, List.mem_singleton] at hv
      rwa [hv]
    · rw [hunmaps, List.mem_singleton] at hv
      rwa [hv]
  have hheld := hall lowest _ ((hr.mono fun _ _ _ => trivial).step ha trivial hstep) e
    (List.mem_singleton_self e)
  rw [hpage, hr'.page] at hheld
  cases hheld

end Core

end SupOS
