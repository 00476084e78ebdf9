import SupOS.Libc.FreeSteps
import SupOS.Lib.Machine
import Mathlib.Logic.Function.Basic

/-! The heap as its callers see it: the bytes at each pointer that they hold, whatever is allocated, moved,
freed and written, in any order. -/

namespace SupOS.Libc.Malloc

open Lib Blocks

variable {B : Bounds} {s : State} {m m' : Bytes} {a i k n p q x : Nat} {pf : Bool}
  {l l₁ l₂ : List (Block Nat)}

/-! ### Memory in use -/

/-- Two pointers in use are of regions apart. -/
theorem Row.apart (h : Row m a pf l) (hp : find 8 a l p = some n) (hq : find 8 a l q = some k)
    (hne : p ≠ q) : p + n ≤ q ∨ q + k ≤ p := by
  obtain ⟨l₁, b, l₂, rfl, rfl, hb⟩ := exists_of_find hp
  obtain ⟨hrow, hs, hrest⟩ := row_append.mp h
  have hle := hs.le n hb
  rw [find_append (by decide), Option.or_eq_some_iff] at hq
  rcases hq with hq | ⟨-, hq⟩
  · have hbounds := hrow.find_bounds hq
    omega
  · rw [find, if_neg (Ne.symm hne)] at hq
    have hbounds := hrest.find_bounds hq
    omega

/-- The places of the headers, the one in front of the break among them. -/
def heads (a : Nat) : List (Block Nat) → List Nat
  | [] => [a]
  | b :: l => a :: heads (a + 8 + b.size) l

theorem mem_heads {y : Nat} (hy : y ∈ heads a l) :
    ∃ l₁ l₂, l = l₁ ++ l₂ ∧ y = a + span 8 l₁ := by
  induction l generalizing a with
  | nil => exact ⟨[], [], rfl, List.mem_singleton.mp hy⟩
  | cons b l ih =>
    rcases List.mem_cons.mp hy with rfl | hy
    · exact ⟨[], b :: l, rfl, rfl⟩
    · obtain ⟨l₁, l₂, rfl, rfl⟩ := ih hy
      refine ⟨b :: l₁, l₂, rfl, ?_⟩
      rw [span_cons]
      omega

/-- Memory in use holds no header. -/
theorem Row.apart_heads (h : Row m a pf l) (hp : find 8 a l p = some n) {y : Nat} (hy : y ∈ heads a l) :
    y + 8 ≤ p ∨ p + n ≤ y := by
  obtain ⟨l₁, l₂, rfl, rfl⟩ := mem_heads hy
  obtain ⟨hrow, hrest⟩ := row_append.mp h
  rw [find_append (by decide), Option.or_eq_some_iff] at hp
  rcases hp with hp | ⟨-, hp⟩
  · exact .inr (hrow.find_bounds hp).2
  · exact .inl (hrest.find_bounds hp).1

theorem Row.aligned (h : Row m a pf l) (ha : a % 8 = 0) (hp : find 8 a l p = some n) : p % 8 = 0 := by
  induction l generalizing a pf with
  | nil => cases hp
  | cons b l ih =>
    have hsize := h.1.aligned
    rw [find] at hp
    split at hp
    · omega
    · exact ih h.2 (by omega) hp

/-- Memory in use may be written. -/
theorem Holds.write (h : Holds B s l) (hp : find 8 B.start l p = some n)
    (hm : ∀ y, y < p ∨ p + n ≤ y → m' y = s.mem y) : Holds B { s with mem := m' } l := by
  refine ⟨h.first, ?_, h.coalesced, h.brk, h.limit⟩
  obtain ⟨l₁, b, l₂, rfl, rfl, hb⟩ := exists_of_find hp
  obtain ⟨hrow, hrest⟩ := chain_append.mp h.chain
  obtain ⟨hs, hbehind⟩ := chain_cons.mp hrest
  have hle := hs.le n hb
  refine chain_append.mpr ⟨hrow.congr fun y _ hy => hm y (by omega), chain_cons.mpr
    ⟨⟨hs.pos, hs.aligned, hs.le, ?_, fun hfree => ?_⟩, hbehind.congr fun y hy => hm y (by omega)⟩⟩
  · rw [load_congr fun y hy hlt => hm y (by omega)]
    exact hs.header
  · rw [Block.used_of_free hfree] at hb
    cases hb

/-! ### The system -/

/-- The heap, and how many bytes were asked for at each pointer in use. -/
structure System where
  heap : State
  live : Nat → Option Nat

/-- What the program does with the heap. -/
inductive Call
  | malloc (n : Nat)
  | realloc (p n : Nat)
  | free (p : Nat)
  | write (p i : Nat) (x : UInt8)

/-- A call, and what it returns. -/
def call (B : Bounds) (σ : System) : Call → Except Fault (System × Nat)
  | .malloc n => do
    let (s, p) ← malloc B σ.heap n
    return (⟨s, Function.update σ.live p (some n)⟩, p)
  | .realloc p n => do
    let (s, q) ← realloc B σ.heap p n
    let live := Function.update σ.live p none
    return (⟨s, if n = 0 then live else Function.update live q (some n)⟩, q)
  | .free p => do return (⟨← free B σ.heap p, Function.update σ.live p none⟩, 0)
  | .write p i x => return (⟨{ σ.heap with mem := Function.update σ.heap.mem (p + i) x }, σ.live⟩, 0)

/-- Sizes are of `size_t`, and pointers are null or in use. -/
def Admits (σ : System) : Call → Prop
  | .malloc n => n < 2 ^ 64
  | .realloc p n => (p = 0 ∨ σ.live p ≠ none) ∧ n < 2 ^ 64
  | .free p => p = 0 ∨ σ.live p ≠ none
  | .write p i _ => ∃ n ∈ σ.live p, i < n

instance (σ : System) (c : Call) : Decidable (Admits σ c) :=
  match c with
  | .malloc n => inferInstanceAs (Decidable (n < 2 ^ 64))
  | .realloc p n => inferInstanceAs (Decidable ((p = 0 ∨ σ.live p ≠ none) ∧ n < 2 ^ 64))
  | .free p => inferInstanceAs (Decidable (p = 0 ∨ σ.live p ≠ none))
  | .write p i _ => inferInstanceAs (Decidable (∃ n ∈ σ.live p, i < n))

def machine (B : Bounds) : Lib.Machine System Call Fault where
  start σ := (∃ m, initmalloc B m = .ok σ.heap) ∧ σ.live = fun _ => none
  admits := Admits
  apply σ c := (call B σ c).map Prod.fst

/-- A size that is not 0, and so small that the break does not come back into the heap when it grows by that
much. -/
def Fits (B : Bounds) (s : State) (n : Nat) : Prop :=
  0 < n ∧ s.Brk - B.start + (8 + alignup n 8) < 2 ^ 64

def Careful (B : Bounds) (σ : System) : Call → Prop
  | .malloc n => Fits B σ.heap n
  | .realloc _ n => n = 0 ∨ Fits B σ.heap n
  | _ => True

instance (B : Bounds) (σ : System) (c : Call) : Decidable (Careful B σ c) :=
  match c with
  | .malloc n => inferInstanceAs (Decidable (0 < n ∧ σ.heap.Brk - B.start + (8 + alignup n 8) < 2 ^ 64))
  | .realloc _ n =>
    inferInstanceAs (Decidable (n = 0 ∨ 0 < n ∧ σ.heap.Brk - B.start + (8 + alignup n 8) < 2 ^ 64))
  | .free _ => inferInstanceAs (Decidable True)
  | .write _ _ _ => inferInstanceAs (Decidable True)

/-- What the program sees: the bytes at each pointer in use. -/
abbrev Regions := Nat → Option (List UInt8)

def System.regions (σ : System) : Regions := fun p => (σ.live p).map (σ.heap.mem.list p)

/-- What a call that returns `q` does to the regions. -/
def Serves (r : Regions) : Call → Nat → Regions → Prop
  | .malloc n, q, r' => r q = none ∧ ∃ bs, bs.length = n ∧ r' = Function.update r q (some bs)
  | .realloc p n, q, r' =>
    if n = 0 then r' = Function.update r p none
    else r q = none ∧ ∃ bs, bs.length = n ∧ (∀ old ∈ r p, bs.take old.length = old.take n) ∧
      r' = Function.update (Function.update r p none) q (some bs)
  | .free p, _, r' => r' = Function.update r p none
  | .write p i x, _, r' => ∃ bs ∈ r p, r' = Function.update r p (some (bs.set i x))

/-! ### The calls -/

/-- The row of the blocks, and the pointers in use to them. -/
structure Refines (B : Bounds) (σ : System) (l : List (Block Nat)) : Prop where
  holds : Holds B σ.heap l
  live : ∀ p, σ.live p = find 8 B.start l p

variable {σ : System}

theorem list_congr (h : ∀ i < n, m' (q + i) = m (p + i)) : m'.list q n = m.list p n :=
  List.map_congr_left fun i hi => h i (List.mem_range.mp hi)

theorem list_update {x : UInt8} :
    Bytes.list (Function.update m (p + i) x) p n = (m.list p n).set i x := by
  refine List.ext_getElem (by simp) fun j hj hj' => ?_
  rw [List.getElem_set, Bytes.getElem_list]
  split
  · rename_i heq
    rw [heq, Function.update_self]
  · rw [Bytes.getElem_list, Function.update_of_ne (by omega)]

theorem take_list : (m.list p n).take k = m.list p (min k n) := by
  rw [Bytes.list, Bytes.list, ← List.map_take, List.take_range]

/-- One region changes at most. -/
theorem regions_update (h : ∀ p n, p ≠ q → σ.live p = some n → ∀ i < n, s.mem (p + i) = σ.heap.mem (p + i))
    (o : Option Nat) : System.regions ⟨s, Function.update σ.live q o⟩ =
      Function.update σ.regions q (o.map (s.mem.list q)) := by
  funext p
  by_cases hp : p = q
  · subst hp
    rw [System.regions]
    dsimp only
    rw [Function.update_self, Function.update_self]
  · rw [System.regions]
    dsimp only
    rw [Function.update_of_ne hp, Function.update_of_ne hp, System.regions]
    cases hlive : σ.live p with
    | none => rfl
    | some n => exact congrArg some (list_congr (h p n hp hlive))

theorem realloc_zero : Malloc.realloc B s p 0 = Malloc.free B s p >>= fun s => .ok (s, 0) := by
  unfold Malloc.realloc
  by_cases h0 : p = 0
  · subst h0
    rfl
  · rw [if_neg fun hzero => h0 hzero.1, if_pos rfl]
    rfl

theorem realloc_null (h0 : n ≠ 0) : Malloc.realloc B s 0 n = Malloc.malloc B s n := by
  unfold Malloc.realloc
  rw [if_neg fun hzero => h0 hzero.2, if_neg h0]
  exact bind_pure _

namespace Refines

variable (h : Refines B σ l)

include h

theorem live_zero : σ.live 0 = none := by
  have hpos := B.pos
  rw [h.live, find_of_lt (by omega)]

theorem update_zero : Function.update σ.live 0 none = σ.live :=
  Function.update_eq_self_iff.mpr h.live_zero.symm

theorem malloc (hf : Fits B σ.heap n) : Ensures (malloc B σ.heap n) (· = .outOfMemory) fun r =>
    σ.live r.2 = none ∧ (∃ l', Refines B ⟨r.1, Function.update σ.live r.2 (some n)⟩ l') ∧
      ∀ p k, σ.live p = some k → ∀ i < k, r.1.mem (p + i) = σ.heap.mem (p + i) := by
  refine (malloc_spec h.holds hf.1 hf.2).mono (fun _ he => he) fun r hr => ?_
  obtain ⟨hptr, hholds, hkept⟩ := hr
  refine ⟨?_, ⟨_, hholds, fun p => ?_⟩, fun p k hp => hkept p k ((h.live p).symm.trans hp)⟩
  · rw [h.live, hptr, find_spot (by decide)]
  · rw [find_place (by decide) (by decide), ← hptr, ← h.live]
    exact Function.update_apply ..

theorem free (hp : p = 0 ∨ σ.live p ≠ none) : ∃ s l', free B σ.heap p = .ok s ∧
    Refines B ⟨s, Function.update σ.live p none⟩ l' ∧
      ∀ q n, q ≠ p → σ.live q = some n → ∀ i < n, s.mem (q + i) = σ.heap.mem (q + i) := by
  by_cases h0 : p = 0
  · subst h0
    refine ⟨σ.heap, l, if_pos rfl, ⟨h.holds, fun q => ?_⟩, fun _ _ _ _ _ _ => rfl⟩
    rw [h.update_zero]
    exact h.live q
  obtain ⟨k, hp⟩ := Option.ne_none_iff_exists'.mp (hp.resolve_left h0)
  obtain ⟨hholds, hlive⟩ := h
  obtain ⟨l₁, b, l₂, rfl, rfl, hb⟩ := exists_of_find ((hlive p).symm.trans hp)
  obtain ⟨s, hfree, hs, hkept⟩ := free_spec hholds (by rw [Block.free, hb]; rfl)
  have hrelease : release 8 B.start (B.start + span 8 l₁ + 8) (l₁ ++ b :: l₂) =
      l₁ ++ ⟨b.size, none⟩ :: l₂ := release_append (by decide) rfl
  refine ⟨s, _, hfree, ⟨hs, fun q => ?_⟩, fun q n hq hn => hkept q n ?_⟩
  · rw [find_coalesce (by decide), ← hrelease, find_release, ← hlive]
    exact Function.update_apply ..
  · rw [← hrelease, find_release, if_neg hq, ← hlive, hn]

theorem write (hp : σ.live p = some n) (hm : ∀ y, y < p ∨ p + n ≤ y → m y = σ.heap.mem y) :
    Refines B ⟨{ σ.heap with mem := m }, σ.live⟩ l ∧
      ∀ q k, q ≠ p → σ.live q = some k → ∀ i < k, m (q + i) = σ.heap.mem (q + i) := by
  have hfind := (h.live p).symm.trans hp
  refine ⟨⟨h.holds.write hfind hm, h.live⟩, fun q k hq hk i hi => hm _ ?_⟩
  have hapart := h.holds.chain.1.apart hfind ((h.live q).symm.trans hk) (Ne.symm hq)
  omega

theorem header (hp : σ.live p = some k) :
    ∃ a, ptrToHeader σ.heap.mem p = .ok a ∧ k ≤ (load σ.heap.mem a).getSize := by
  obtain ⟨hholds, hlive⟩ := h
  obtain ⟨l₁, b, l₂, rfl, rfl, hb⟩ := exists_of_find ((hlive p).symm.trans hp)
  have hs := (chain_append.mp hholds.chain).2.1.1
  have hlimit := hholds.limit
  have hlt := B.limit_lt
  have hbrk := hholds.brk
  rw [span_append, span_cons] at hbrk
  refine ⟨_, ptrToHeader_eq (by omega) (by rw [hs.header, headerOf_seemsValid]), ?_⟩
  rw [hs.header, headerOf_getSize hs.aligned (by omega)]
  exact hs.le k hb

/-- `realloc` moves what fits from one region to another. -/
theorem realloc (hp : p = 0 ∨ σ.live p ≠ none) (hf : Fits B σ.heap n) :
    Ensures (realloc B σ.heap p n) (· = .outOfMemory) fun r => σ.live r.2 = none ∧
      (∃ l', Refines B ⟨r.1, Function.update (Function.update σ.live p none) r.2 (some n)⟩ l') ∧
      (∀ q j, q ≠ p → σ.live q = some j → ∀ i < j, r.1.mem (q + i) = σ.heap.mem (q + i)) ∧
      ∀ k, σ.live p = some k → ∀ i < min k n, r.1.mem (r.2 + i) = σ.heap.mem (p + i) := by
  by_cases h0 : p = 0
  · subst h0
    rw [realloc_null (Nat.ne_of_gt hf.1)]
    refine (h.malloc hf).mono (fun _ he => he) fun r hr => ?_
    obtain ⟨hfresh, hrow, hkept⟩ := hr
    refine ⟨hfresh, ?_, fun q j _ hj => hkept q j hj, fun k hk => ?_⟩
    · rw [h.update_zero]
      exact hrow
    · rw [h.live_zero] at hk
      cases hk
  obtain ⟨k, hp⟩ := Option.ne_none_iff_exists'.mp (hp.resolve_left h0)
  unfold Malloc.realloc
  rw [if_neg fun hzero => h0 hzero.1, if_neg (Nat.ne_of_gt hf.1)]
  refine (h.malloc hf).bind fun r hr => ?_
  obtain ⟨s₁, q⟩ := r
  obtain ⟨hfresh, ⟨l₁, h₁⟩, hkept₁⟩ := hr
  dsimp only at hfresh h₁ hkept₁ ⊢
  have hne : p ≠ q := by
    rintro rfl
    rw [hfresh] at hp
    cases hp
  have hp₁ : Function.update σ.live q (some n) p = some k := (Function.update_of_ne hne _ _).trans hp
  obtain ⟨a, hhead, hle⟩ := h₁.header hp₁
  dsimp only at hhead hle
  rw [if_pos h0, hhead, ok_bind]
  generalize hcopy : (if n > (load s₁.mem a).getSize then (load s₁.mem a).getSize else n) = toCopy
  have hcopied : toCopy ≤ n ∧ min k n ≤ toCopy := by
    rw [← hcopy]
    split <;> omega
  -- the copy goes into the new region, and leaves the others as they are
  obtain ⟨h₂, hkept₂⟩ := h₁.write (m := memcpy s₁.mem q p toCopy) (Function.update_self ..)
    fun y hy => Bytes.blit_outside (by omega)
  obtain ⟨s, l', hfree, h₃, hkept₃⟩ := h₂.free (.inr (Option.ne_none_iff_exists'.mpr ⟨k, hp₁⟩))
  dsimp only at hkept₂ hfree h₃ hkept₃
  rw [hfree, ok_bind]
  refine ⟨hfresh, ⟨l', ?_⟩, fun q' j hq hj i hi => ?_, fun k' hk i hi => ?_⟩
  · dsimp only
    rw [Function.update_comm hne]
    exact h₃
  · have hne' : q' ≠ q := by
      rintro rfl
      rw [hfresh] at hj
      cases hj
    have hj₁ : Function.update σ.live q (some n) q' = some j :=
      (Function.update_of_ne hne' _ _).trans hj
    exact (hkept₃ q' j hq hj₁ i hi).trans ((hkept₂ q' j hne' hj₁ i hi).trans (hkept₁ q' j hj i hi))
  · obtain rfl : k = k' := Option.some.inj (hp.symm.trans hk)
    have hmoved := hkept₃ q n hne.symm (Function.update_self ..) i (by omega)
    have hsame := hkept₁ p k hp i (by omega)
    refine hmoved.trans (Eq.trans ?_ hsame)
    exact Bytes.blit_offset (by omega)

/-- A call serves the program, and the blocks are again in a row. -/
theorem call {c : Call} (ha : Admits σ c) (hc : Careful B σ c) :
    Ensures (call B σ c) (· = .outOfMemory) fun r =>
      (∃ l', Refines B r.1 l') ∧ Serves σ.regions c r.2 r.1.regions := by
  have hnone {q : Nat} (hq : σ.live q = none) : σ.regions q = none := by
    rw [System.regions, hq]
    rfl
  cases c with
  | malloc n =>
    rw [Malloc.call]
    refine (h.malloc hc).bind fun r hr => ?_
    obtain ⟨hfresh, hrow, hkept⟩ := hr
    exact ⟨hrow, hnone hfresh, _, Bytes.length_list _ _ _, regions_update (fun p k _ => hkept p k) _⟩
  | free p =>
    obtain ⟨s, l', hfree, hs, hkept⟩ := h.free ha
    rw [Malloc.call, hfree, ok_bind]
    exact ⟨⟨l', hs⟩, regions_update hkept none⟩
  | write p i x =>
    obtain ⟨n, hlive, hi⟩ := ha
    obtain ⟨hs, hkept⟩ := h.write (m := Function.update σ.heap.mem (p + i) x) hlive
      fun y hy => Function.update_of_ne (by omega) _ _
    have hregions := regions_update (s := { σ.heap with mem := Function.update σ.heap.mem (p + i) x })
      hkept (some n)
    have hsame : Function.update σ.live p (some n) = σ.live := Function.update_eq_self_iff.mpr hlive.symm
    rw [hsame, Option.map_some] at hregions
    refine ⟨⟨l, hs⟩, σ.heap.mem.list p n, ?_, hregions.trans ?_⟩
    · rw [System.regions, hlive]
      rfl
    · dsimp only
      rw [list_update]
  | realloc p n =>
    obtain ⟨hp, -⟩ := ha
    rw [Malloc.call]
    by_cases hn : n = 0
    · subst hn
      obtain ⟨s, l', hfree, hs, hkept⟩ := h.free hp
      rw [realloc_zero, hfree, ok_bind, ok_bind]
      dsimp only
      rw [if_pos rfl]
      refine ⟨⟨l', hs⟩, ?_⟩
      rw [Serves, if_pos rfl]
      exact regions_update hkept none
    · refine (h.realloc hp (hc.resolve_left hn)).bind fun r hr => ?_
      obtain ⟨s, q⟩ := r
      obtain ⟨hfresh, hrow, hkept, hmoved⟩ := hr
      dsimp only at hfresh hrow hkept hmoved ⊢
      rw [if_neg hn]
      refine ⟨hrow, ?_⟩
      rw [Serves, if_neg hn]
      -- the old region goes, and then the new one comes
      have hgone := regions_update (σ := σ) (s := σ.heap) (q := p) (fun _ _ _ _ _ _ => rfl) none
      have hnew := regions_update (σ := ⟨σ.heap, Function.update σ.live p none⟩) (s := s) (q := q)
        (fun p' j _ hj => ?_) (some n)
      · rw [hgone] at hnew
        refine ⟨hnone hfresh, s.mem.list q n, Bytes.length_list _ _ _, fun old hold => ?_, hnew⟩
        obtain ⟨k, hk, rfl⟩ := Option.map_eq_some_iff.mp hold
        rw [Bytes.length_list, take_list, take_list, Nat.min_comm n k]
        exact list_congr (hmoved k hk)
      · dsimp only at hj
        rw [Function.update_apply] at hj
        split at hj
        · cases hj
        · exact hkept p' j ‹_› hj

/-- Blocks are freed one after another. -/
theorem freeAll {ps : List Nat} (hps : ps.Nodup) (hlive : ∀ p ∈ ps, σ.live p ≠ none) :
    ∃ s l', ps.foldlM (Malloc.free B) σ.heap = .ok s ∧
      Refines B ⟨s, fun q => if q ∈ ps then none else σ.live q⟩ l' := by
  induction ps generalizing σ l with
  | nil => exact ⟨σ.heap, l, rfl, by simpa using h⟩
  | cons p ps ih =>
    obtain ⟨hp, hps⟩ := List.nodup_cons.mp hps
    obtain ⟨s, l₁, hfree, h₁, -⟩ := h.free (.inr (hlive p (List.mem_cons_self ..)))
    have hlive₁ : ∀ q ∈ ps, Function.update σ.live p none q ≠ none := by
      intro q hq
      rw [Function.update_of_ne (by rintro rfl; exact hp hq)]
      exact hlive q (List.mem_cons_of_mem _ hq)
    obtain ⟨s', l', hall, h'⟩ := ih h₁ hps hlive₁
    refine ⟨s', l', ?_, ?_⟩
    · rw [List.foldlM_cons, hfree, ok_bind]
      exact hall
    · refine ⟨h'.holds, fun q => ?_⟩
      rw [← h'.live]
      by_cases hq : q = p <;> simp [hq]

end Refines

/-! ### Runs -/

theorem initmalloc_spec (h : initmalloc B m = .ok s) : Holds B s [] := by
  have hpos := B.pos
  have hlt := B.limit_lt
  unfold initmalloc sbrk brk at h
  rw [if_pos rfl] at h
  dsimp only at h
  rw [decide_eq_true (Nat.ne_of_gt hpos), assert_true, ok_bind] at h
  split at h
  · rename_i hin
    have hnext : u64 (B.start + 8) = B.start + 8 := by
      refine u64_of_lt ?_
      unfold u64 at hin
      omega
    rw [hnext] at h hin
    obtain rfl := Except.ok.inj h
    exact ⟨rfl, chain_nil.mpr load_store, trivial, rfl, hin.2⟩
  · cases h

variable {C : System → Call → Prop}

/-- What a run reaches is a row of blocks, as long as the calls are careful. -/
theorem run_refines (hC : ∀ σ l c, Refines B σ l → C σ c → Careful B σ c)
    (hr : (machine B).Run C σ) : ∃ l, Refines B σ l := by
  refine hr.invariant (I := fun σ => ∃ l, Refines B σ l) (fun σ hs => ?_)
    fun σ σ' c h ha hc happly => ?_
  · obtain ⟨⟨m, hm⟩, hlive⟩ := hs
    exact ⟨[], initmalloc_spec hm, fun p => by rw [hlive]; rfl⟩
  · obtain ⟨l, h⟩ := h
    have hcall := h.call ha (hC σ l c h hc)
    cases hresult : Malloc.call B σ c with
    | ok r =>
      obtain rfl : r.1 = σ' := by
        have happly : (Malloc.call B σ c).map Prod.fst = .ok σ' := happly
        rw [hresult] at happly
        exact Except.ok.inj happly
      exact (hcall.of_ok hresult).1
    | error e =>
      have happly : (Malloc.call B σ c).map Prod.fst = .ok σ' := happly
      rw [hresult] at happly
      cases happly

/-- The blocks stand in a row up to the break; the regions in use are apart from each other and from the
headers. -/
structure Sound (B : Bounds) (σ : System) : Prop where
  row : ∃ l, Refines B σ l ∧
    ∀ p n, σ.live p = some n → ∀ y ∈ heads B.start l, y + 8 ≤ p ∨ p + n ≤ y
  aligned : ∀ p n, σ.live p = some n → p % 8 = 0
  inside : ∀ p n, σ.live p = some n → B.start < p ∧ p + n < σ.heap.Brk
  apart : ∀ p q n k, p ≠ q → σ.live p = some n → σ.live q = some k → p + n ≤ q ∨ q + k ≤ p

theorem Refines.sound (h : Refines B σ l) : Sound B σ := by
  have hrow := h.holds.chain.1
  have hbrk := h.holds.brk
  refine ⟨⟨l, h, fun p n hp y hy => ?_⟩, fun p n hp => ?_, fun p n hp => ?_, fun p q n k hne hp hq => ?_⟩
  · rw [h.live] at hp
    exact hrow.apart_heads hp hy
  · rw [h.live] at hp
    exact hrow.aligned B.aligned hp
  · rw [h.live] at hp
    have hbounds := hrow.find_bounds hp
    omega
  · rw [h.live] at hp hq
    exact hrow.apart hp hq hne

/-- As long as no size is 0 or carries the break around, the heap is sound, and each call serves the program
unless the memory is used up. -/
theorem run_allocations (hr : (machine B).Run (Careful B) σ) : Sound B σ ∧
    ∀ c, Admits σ c → Careful B σ c → Ensures (call B σ c) (· = .outOfMemory) fun r =>
      Serves σ.regions c r.2 r.1.regions := by
  obtain ⟨l, h⟩ := run_refines (fun _ _ _ _ hc => hc) hr
  exact ⟨h.sound, fun c ha hc => (h.call ha hc).mono (fun _ he => he) fun r hr => hr.2⟩

/-- A heap of less than a megabyte. -/
def smallBounds : Bounds where
  start := 0x1000
  limit := 0x100000
  pos := by decide
  aligned := by decide
  limit_lt := by decide
  half := by decide

/-- The heap that `__initmalloc` leaves in a memory of zeros. -/
def emptyHeap : System where
  heap := { mem := store (fun _ => 0) 0x1000 endHeader, Brk := 0x1008, firstHeader := 0x1000 }
  live _ := none

theorem start_emptyHeap : (machine smallBounds).start emptyHeap := ⟨⟨fun _ => 0, rfl⟩, rfl⟩

/-- A region is moved to the end of the heap, and a byte of it with it. -/
theorem run_allocations_moved : ∃ σ, (machine smallBounds).Run (Careful smallBounds) σ ∧
    (σ.live 0x1070 = some 100 ∧ σ.live 0x1008 = none ∧ σ.heap.mem 0x1072 = 7) ∧ Sound smallBounds σ := by
  have hcheck (σ : System) (c : Call) (hc : decide (Admits σ c ∧ Careful smallBounds σ c) = true) :
      Admits σ c ∧ Careful smallBounds σ c := of_decide_eq_true hc
  obtain ⟨σ, hr, hP⟩ := Machine.exists_run (M := machine smallBounds) hcheck start_emptyHeap
    [.malloc 42, .malloc 33, .write 0x1008 2 7, .realloc 0x1008 100]
    (P := fun σ => decide (σ.live 0x1070 = some 100 ∧ σ.live 0x1008 = none ∧ σ.heap.mem 0x1072 = 7))
    (by decide +kernel)
  exact ⟨σ, hr, of_decide_eq_true hP, (run_allocations hr).1⟩

/-- Behind a block of size 0 the next one is looked for at a wrong place. -/
theorem malloc_of_zero : ∃ σ, (machine smallBounds).Run (fun _ _ => True) σ ∧ Admits σ (.malloc 1) ∧
    call smallBounds σ (.malloc 1) = .error .assertion := by
  have hstep : (machine smallBounds).apply emptyHeap (.malloc 0) = .ok _ := rfl
  exact ⟨_, (Machine.Run.start start_emptyHeap).step (c := .malloc 0)
    (show Admits emptyHeap (.malloc 0) by decide) trivial hstep, by decide, rfl⟩

/-- Sizes are positive and below 2 ^ 48. -/
def Moderate (_ : System) : Call → Prop
  | .malloc n => 0 < n ∧ n < 2 ^ 48
  | .realloc _ n => 0 < n ∧ n < 2 ^ 48
  | _ => True

theorem Refines.fits (h : Refines B σ l) (h0 : 0 < n) (hn : n < 2 ^ 48) : Fits B σ.heap n := by
  have hlimit := h.holds.limit
  have hhalf := B.half
  refine ⟨h0, ?_⟩
  unfold alignup
  omega

theorem Refines.careful (h : Refines B σ l) {c : Call} (hc : Moderate σ c) : Careful B σ c := by
  cases c with
  | malloc n => exact h.fits hc.1 hc.2
  | realloc p n => exact .inr (h.fits hc.1 hc.2)
  | free p => trivial
  | write p i x => trivial

end SupOS.Libc.Malloc
