import SupOS.Memory.Lifetime
import Mathlib.Data.Finset.Image

/-! Runs of the operations on user memories: a frame in use is one of the kernel's, one that waits to
be mapped, or one of exactly one user memory. -/

namespace SupOS

open Lib Entry Machine

/-- The machine, the PDPs of the user memories, and the frames that were allocated for pages and wait
to be mapped. -/
structure System where
  machine : Machine
  live : Finset Nat
  held : Finset Nat

namespace System

/-- The operations on user memories. -/
inductive Step (A : FrameAllocator) : System → System → Prop
  | construct {s s' : Machine} {P : Nat} {live held : Finset Nat}
    (h : s.construct A = .ok (P, s')) : Step A ⟨s, live, held⟩ ⟨s', insert P live, held⟩
  | copyConstruct {s s' : Machine} {P Q : Nat} {live held : Finset Nat} (hQ : Q ∈ live)
    (h : s.copyConstruct A Q = .ok (P, s')) : Step A ⟨s, live, held⟩ ⟨s', insert P live, held⟩
  | activate {s s' : Machine} {P : Nat} {live held : Finset Nat} (hP : P ∈ live)
    (h : s.switchUser P = .ok s') : Step A ⟨s, live, held⟩ ⟨s', live, held⟩
  | alloc {s s' : Machine} {x : Nat} {live held : Finset Nat} (h : s.alloc A = .ok (x, s')) :
    Step A ⟨s, live, held⟩ ⟨s', live, insert x held⟩
  /-- Waiting frames are mapped outside of the first 2 MiB of the active memory. -/
  | map {s s' : Machine} {live held : Finset Nat} {phy virt n : Nat} {wt : Bool}
    (hact : (s.mem s.pml4 0).getAddr ∈ live) (hphy : ∀ i < n, pageOf phy i ∈ held)
    (hvirt : ∀ i < n, UserAddr (pageOf virt i)) (h : s.createMapping A phy virt n wt = .ok s') :
    Step A ⟨s, live, held⟩ ⟨s', live, held \ (Finset.range n).image (pageOf phy)⟩
  | assign {s s' : Machine} {P Q : Nat} {live held : Finset Nat} (hP : P ∈ live) (hQ : Q ∈ live)
    (hne : P ≠ Q) (h : s.assign A P Q = .ok s') : Step A ⟨s, live, held⟩ ⟨s', live, held⟩
  | clear {s s' : Machine} {P : Nat} {live held : Finset Nat} (hP : P ∈ live)
    (h : s.clear P = .ok s') : Step A ⟨s, live, held⟩ ⟨s', live, held⟩
  | destroy {s s' : Machine} {P : Nat} {live held : Finset Nat} (hP : P ∈ live)
    (h : s.destroy P = .ok s') : Step A ⟨s, live, held⟩ ⟨s', live.erase P, held⟩

/-- The systems reached from the one after boot, without user memories. -/
inductive Run (A : FrameAllocator) (s : Machine) : System → Prop
  | start : Run A s ⟨s, ∅, ∅⟩
  | step {σ σ' : System} (hr : Run A s σ) (h : Step A σ σ') : Run A s σ'

variable {A : FrameAllocator} {K : KernelFrames} {s s' : Machine} {σ σ' : System} {P Q : Nat}
  {live live' held held' : Finset Nat} {D : Nat → Prop}

/-- Every frame in use is one of the base, one that waits, or one of exactly one user memory. -/
structure Inv (K : KernelFrames) (s : Machine) (live held : Finset Nat) : Prop where
  kernel : Kernel K s
  spaces : ∀ P ∈ live, Live K s P
  apart : ∀ P ∈ live, ∀ Q ∈ live, P ≠ Q → ∀ x, Owned s P x → ¬Owned s Q x
  waiting : ∀ x ∈ held, IsFrame x ∧ x ≠ 0 ∧ x ∉ K.base ∧ ∀ P ∈ live, ¬Owned s P x
  used : ∀ x, x ∈ s.used ↔ x ∈ K.base ∨ x ∈ held ∨ ∃ P ∈ live, Owned s P x

/-- An operation on the memory at `P` that concerns no other one. -/
theorem Inv.update (h : Inv K s live held) (hl : Local K s s' D)
    (hothers : ∀ Q, Q ≠ P → (Q ∈ live' ↔ Q ∈ live))
    (hD : ∀ Q ∈ live, Q ≠ P → ∀ y, Owned s Q y → ¬D y) (hP : P ∈ live' → Live K s' P)
    (hnew : P ∈ live' → ∀ y, Owned s' P y → y ∉ held' ∧ ∀ Q ∈ live, Q ≠ P → ¬Owned s Q y)
    (hheld : ∀ x ∈ held', IsFrame x ∧ x ≠ 0 ∧ x ∉ K.base ∧ ∀ Q ∈ live, Q ≠ P → ¬Owned s Q x)
    (hused : ∀ x, x ∈ s'.used ↔ x ∈ K.base ∨ x ∈ held' ∨ (P ∈ live' ∧ Owned s' P x) ∨
      ∃ Q ∈ live, Q ≠ P ∧ Owned s Q x) : Inv K s' live' held' := by
  have hother : ∀ Q ∈ live', Q ≠ P → Q ∈ live ∧ Live K s' Q ∧
      ∀ y, Owned s' Q y ↔ Owned s Q y := by
    intro Q hQ hne
    have hQl := (hothers Q hne).mp hQ
    obtain ⟨hsame, hlive⟩ := hl.other h.kernel (h.spaces Q hQl) (hD Q hQl hne)
    exact ⟨hQl, hlive, owned_congr hsame⟩
  refine ⟨hl.kernel, fun Q hQ => ?_, fun Q hQ R hR hne x hxQ hxR => ?_, fun x hx => ?_, fun x => ?_⟩
  · by_cases hQP : Q = P
    · subst hQP
      exact hP hQ
    · exact (hother Q hQ hQP).2.1
  · by_cases hQP : Q = P
    · subst hQP
      obtain ⟨hRl, -, hR'⟩ := hother R hR hne.symm
      exact (hnew hQ x hxQ).2 R hRl hne.symm ((hR' x).mp hxR)
    · obtain ⟨hQl, -, hQ'⟩ := hother Q hQ hQP
      by_cases hRP : R = P
      · subst hRP
        exact (hnew hR x hxR).2 Q hQl hQP ((hQ' x).mp hxQ)
      · obtain ⟨hRl, -, hR'⟩ := hother R hR hRP
        exact h.apart Q hQl R hRl hne x ((hQ' x).mp hxQ) ((hR' x).mp hxR)
  · obtain ⟨hf, hz, hb, ho⟩ := hheld x hx
    refine ⟨hf, hz, hb, fun Q hQ hxQ => ?_⟩
    by_cases hQP : Q = P
    · subst hQP
      exact (hnew hQ x hxQ).1 hx
    · obtain ⟨hQl, -, hQ'⟩ := hother Q hQ hQP
      exact ho Q hQl hQP ((hQ' x).mp hxQ)
  · rw [hused x]
    refine or_congr_right (or_congr_right ⟨?_, ?_⟩)
    · rintro (⟨hPl, hx⟩ | ⟨Q, hQ, hne, hx⟩)
      · exact ⟨P, hPl, hx⟩
      · have hQ' := (hothers Q hne).mpr hQ
        exact ⟨Q, hQ', ((hother Q hQ' hne).2.2 x).mpr hx⟩
    · rintro ⟨Q, hQ, hx⟩
      by_cases hQP : Q = P
      · subst hQP
        exact .inl ⟨hQ, hx⟩
      · obtain ⟨hQl, -, hQ'⟩ := hother Q hQ hQP
        exact .inr ⟨Q, hQl, hQP, (hQ' x).mp hx⟩

/-- A frame that is not in use belongs to nothing. -/
theorem Inv.unused (h : Inv K s live held) {x : Nat} (hx : x ∉ s.used) :
    x ∉ K.base ∧ x ∉ held ∧ x ∉ live ∧ ∀ Q ∈ live, ¬Owned s Q x := by
  have hno : ∀ Q ∈ live, ¬Owned s Q x := fun Q hQ ho => hx (ho.used (h.spaces Q hQ).toSpace)
  exact ⟨fun hb => hx (h.kernel.used hb), fun hh => hx ((h.used x).mpr (.inr (.inl hh))),
    fun hl => hno x hl ⟨[], .nil, rfl⟩, hno⟩

theorem Inv.others (h : Inv K s live held) (hP : P ∈ live) {x : Nat} (hx : Owned s P x) :
    x ∉ held ∧ ∀ Q ∈ live, Q ≠ P → ¬Owned s Q x :=
  ⟨fun hh => (h.waiting x hh).2.2.2 P hP hx, fun Q hQ hne ho => h.apart Q hQ P hP hne x ho hx⟩

/-- The frames in use, with those of one memory set apart. -/
theorem Inv.used_split (h : Inv K s live held) (P : Nat) (x : Nat) :
    x ∈ s.used ↔ x ∈ K.base ∨ x ∈ held ∨ (P ∈ live ∧ Owned s P x) ∨
      ∃ Q ∈ live, Q ≠ P ∧ Owned s Q x := by
  rw [h.used x]
  refine or_congr_right (or_congr_right ⟨?_, ?_⟩)
  · rintro ⟨Q, hQ, hx⟩
    by_cases hQP : Q = P
    · subst hQP
      exact .inl ⟨hQ, hx⟩
    · exact .inr ⟨Q, hQ, hQP, hx⟩
  · rintro (⟨hP, hx⟩ | ⟨Q, hQ, -, hx⟩)
    · exact ⟨P, hP, hx⟩
    · exact ⟨Q, hQ, hx⟩

theorem Inv.construct {PD : Nat} (h : Inv K s live held) (hc : Constructed K s s' P PD) :
    Inv K s' (insert P live) held := by
  have hk := h.kernel
  have howned : ∀ y, Owned s' P y ↔ y = P ∨ y = PD := fun _ => (hc.bare hk).owned
  obtain ⟨-, -, hPl, -⟩ := h.unused hc.fresh.1
  have hnew : ∀ y, Owned s' P y → y ∉ s.used := by
    intro y hy
    rcases (howned y).mp hy with rfl | rfl
    · exact hc.fresh.1
    · exact hc.fresh.2.1
  refine h.update (hc.here hk) (fun Q hne => ?_) (fun _ _ _ _ _ hD => hD) (fun _ => hc.live hk)
    (fun _ y hy => ?_) (fun x hx => ?_) fun x => ?_
  · rw [Finset.mem_insert, or_iff_right hne]
  · obtain ⟨-, hheld, -, hno⟩ := h.unused (hnew y hy)
    exact ⟨hheld, fun Q hQ _ => hno Q hQ⟩
  · obtain ⟨hf, hz, hb, ho⟩ := h.waiting x hx
    exact ⟨hf, hz, hb, fun Q hQ _ => ho Q hQ⟩
  · rw [hc.used x, ← howned, h.used_split P x]
    simp only [Finset.mem_insert_self, true_and, hPl, false_and, false_or]
    rw [or_assoc, or_assoc, or_comm (a := ∃ Q ∈ live, _)]

/-- The frames of a memory are its two tables and those below. -/
theorem owned_iff_below {PD : Nat} (hPD : s.linkAt P [0] = some PD) {x : Nat} :
    Owned s P x ↔ (x = P ∨ x = PD) ∨ ∃ p, Below p ∧ s.linkAt P p = some x := by
  constructor
  · rintro ⟨p, hp, hx⟩
    by_cases hnil : p = []
    · subst hnil
      exact .inl (.inl (Option.some.inj hx).symm)
    · by_cases hzero : p = [0]
      · subst hzero
        exact .inl (.inr (Option.some.inj (hx.symm.trans hPD)))
      · exact .inr ⟨p, ⟨hp, hnil, hzero⟩, hx⟩
  · rintro ((rfl | rfl) | ⟨p, hp, hx⟩)
    · exact ⟨[], .nil, rfl⟩
    · exact ⟨[0], .zero, hPD⟩
    · exact ⟨p, hp.1, hx⟩

/-- What is below the two tables is neither of them. -/
theorem not_below {PD : Nat} (hP : Live K s P) (hPD : s.linkAt P [0] = some PD) {x : Nat}
    (hx : x = P ∨ x = PD) : ¬∃ p, Below p ∧ s.linkAt P p = some x := by
  rintro ⟨p, ⟨hp, hnil, hzero⟩, hpx⟩
  rcases hx with rfl | rfl
  · exact hnil (hP.tree p [] x hp .nil hpx rfl)
  · exact hzero (hP.tree p [0] x hp .zero hpx hPD)

theorem Inv.clear {PD : Nat} (h : Inv K s live held) (hP : P ∈ live)
    (hPD : s.linkAt P [0] = some PD) (hc : Cleared s s' P PD) : Inv K s' live held := by
  have hk := h.kernel
  have hlive := h.spaces P hP
  have howned : ∀ y, Owned s' P y ↔ y = P ∨ y = PD := fun _ => (hc.bare hk hlive hPD).owned
  have hold : ∀ y, Owned s' P y → Owned s P y := fun y hy =>
    (owned_iff_below hPD).mpr (.inl ((howned y).mp hy))
  refine h.update (hc.here hk hlive hPD) (fun _ _ => Iff.rfl)
    (fun Q hQ hne y hy hy' => h.apart Q hQ P hP hne y hy hy') (fun _ => hc.live hk hlive hPD)
    (fun _ y hy => h.others hP (hold y hy)) (fun x hx => ?_) fun x => ?_
  · obtain ⟨hf, hz, hb, ho⟩ := h.waiting x hx
    exact ⟨hf, hz, hb, fun Q hQ _ => ho Q hQ⟩
  · rw [hc.used x, h.used_split P x, howned, owned_iff_below hPD]
    have hfree : ∀ y, (y ∈ K.base ∨ y ∈ held ∨ ∃ Q ∈ live, Q ≠ P ∧ Owned s Q y) →
        ¬∃ p, Below p ∧ s.linkAt P p = some y := by
      rintro y hy ⟨p, hp, hpy⟩
      have hyo : Owned s P y := ⟨p, hp.1, hpy⟩
      rcases hy with hb | hh | ⟨Q, hQ, hne, ho⟩
      · exact hlive.base y hyo hb
      · exact (h.others hP hyo).1 hh
      · exact (h.others hP hyo).2 Q hQ hne ho
    constructor
    · rintro ⟨hb | hh | ⟨-, htwo | hbelow⟩ | ho, hnot⟩
      · exact .inl hb
      · exact .inr (.inl hh)
      · exact .inr (.inr (.inl ⟨hP, htwo⟩))
      · exact absurd hbelow hnot
      · exact .inr (.inr (.inr ho))
    · rintro (hb | hh | ⟨-, htwo⟩ | ho)
      · exact ⟨.inl hb, hfree x (.inl hb)⟩
      · exact ⟨.inr (.inl hh), hfree x (.inr (.inl hh))⟩
      · exact ⟨.inr (.inr (.inl ⟨hP, .inl htwo⟩)), not_below hlive hPD htwo⟩
      · exact ⟨.inr (.inr (.inr ho)), hfree x (.inr (.inr ho))⟩

/-- `copyPDs` to a memory without pages. -/
theorem Inv.fill {PD QD : Nat} (h : Inv K s live held) (hP : P ∈ live) (hb : Bare s P PD K.shared)
    (hf : Filled s s' P PD Q QD) : Inv K s' live held := by
  have hk := h.kernel
  have hlive := h.spaces P hP
  have hPD : s.linkAt P [0] = some PD := linkAt_one.trans hb.first
  have howned := fun x => hf.owned hPD (x := x)
  refine h.update (hf.here hk hlive hPD) (fun _ _ => Iff.rfl)
    (fun R hR hne y hy hy' => h.apart R hR P hP hne y hy hy') (fun _ => hf.live hk hlive hPD)
    (fun _ y hy => ?_) (fun x hx => ?_) fun x => ?_
  · rcases (howned y).mp hy with rfl | rfl | ⟨p, hp, hy⟩
    · exact h.others hP ⟨[], .nil, rfl⟩
    · exact h.others hP ⟨[0], .zero, hPD⟩
    · obtain ⟨-, hheld, -, hno⟩ := h.unused (hf.fresh p y hp hy).1
      exact ⟨hheld, fun R hR _ => hno R hR⟩
  · obtain ⟨hfr, hz, hbase, ho⟩ := h.waiting x hx
    exact ⟨hfr, hz, hbase, fun R hR _ => ho R hR⟩
  · rw [hf.used x, h.used_split P x, howned x, hb.owned]
    constructor
    · rintro ((hb | hh | ⟨-, htwo⟩ | ho) | hbelow)
      · exact .inl hb
      · exact .inr (.inl hh)
      · exact .inr (.inr (.inl ⟨hP, or_assoc.mp (.inl htwo)⟩))
      · exact .inr (.inr (.inr ho))
      · exact .inr (.inr (.inl ⟨hP, or_assoc.mp (.inr hbelow)⟩))
    · rintro (hb | hh | ⟨-, hown⟩ | ho)
      · exact .inl (.inl hb)
      · exact .inl (.inr (.inl hh))
      · rcases or_assoc.mpr hown with htwo | hbelow
        · exact .inl (.inr (.inr (.inl ⟨hP, htwo⟩)))
        · exact .inr hbelow
      · exact .inl (.inr (.inr (.inr ho)))

theorem Inv.map {phy virt n : Nat} {N : Nat → Prop} (h : Inv K s live held) (hP : P ∈ live)
    (hphy : ∀ i < n, pageOf phy i ∈ held) (hr : Ranged K s s' P phy virt n N) :
    Inv K s' live (held \ (Finset.range n).image (pageOf phy)) := by
  have hg := hr.grown
  have hnew : ∀ y, N y → (y ∉ s.used ∨ y ∈ held ∧ ∃ i < n, y = pageOf phy i) := by
    intro y hy
    refine (hr.new y hy).imp_right ?_
    rintro ⟨i, hi, rfl⟩
    exact ⟨hphy i hi, i, hi, rfl⟩
  have hnone : ∀ y, N y → ∀ Q ∈ live, ¬Owned s Q y := by
    intro y hy
    rcases hnew y hy with hu | ⟨hh, -⟩
    · exact (h.unused hu).2.2.2
    · exact (h.waiting y hh).2.2.2
  refine h.update hg.here (fun _ _ => Iff.rfl) (fun Q hQ hne y hy hy' => ?_) (fun _ => hg.live)
    (fun _ y hy => ?_) (fun x hx => ?_) fun x => ?_
  · rcases (hg.owned y).mp hy' with ho | hn
    · exact h.apart Q hQ P hP hne y hy ho
    · exact hnone y hn Q hQ hy
  · rcases (hg.owned y).mp hy with ho | hn
    · obtain ⟨hheld, hno⟩ := h.others hP ho
      exact ⟨fun hy' => hheld (Finset.mem_sdiff.mp hy').1, hno⟩
    · refine ⟨fun hy' => ?_, fun Q hQ _ => hnone y hn Q hQ⟩
      obtain ⟨hheld, hnot⟩ := Finset.mem_sdiff.mp hy'
      rcases hnew y hn with hu | ⟨-, i, hi, rfl⟩
      · exact (h.unused hu).2.1 hheld
      · exact hnot (Finset.mem_image_of_mem _ (Finset.mem_range.mpr hi))
  · obtain ⟨hf, hz, hb, ho⟩ := h.waiting x (Finset.mem_sdiff.mp hx).1
    exact ⟨hf, hz, hb, fun Q hQ _ => ho Q hQ⟩
  · rw [hg.used x, h.used_split P x, hg.owned x, Finset.mem_sdiff]
    constructor
    · rintro ((hb | hh | ⟨-, ho⟩ | ho) | hn)
      · exact .inl hb
      · by_cases him : x ∈ (Finset.range n).image (pageOf phy)
        · obtain ⟨i, hi, rfl⟩ := Finset.mem_image.mp him
          exact .inr (.inr (.inl ⟨hP, .inr (hr.mapped i (Finset.mem_range.mp hi)).1⟩))
        · exact .inr (.inl ⟨hh, him⟩)
      · exact .inr (.inr (.inl ⟨hP, .inl ho⟩))
      · exact .inr (.inr (.inr ho))
      · exact .inr (.inr (.inl ⟨hP, .inr hn⟩))
    · rintro (hb | ⟨hh, -⟩ | ⟨-, ho | hn⟩ | ho)
      · exact .inl (.inl hb)
      · exact .inl (.inr (.inl hh))
      · exact .inl (.inr (.inr (.inl ⟨hP, ho⟩)))
      · exact .inr hn
      · exact .inl (.inr (.inr (.inr ho)))

theorem Inv.destroy (h : Inv K s live held) (hP : P ∈ live) (hd : Destroyed K s s' P) :
    Inv K s' (live.erase P) held := by
  refine h.update hd.here (fun Q hne => ?_)
    (fun Q hQ hne y hy hy' => h.apart Q hQ P hP hne y hy hy')
    (fun hPl => absurd hPl (Finset.notMem_erase P live))
    (fun hPl => absurd hPl (Finset.notMem_erase P live)) (fun x hx => ?_) fun x => ?_
  · rw [Finset.mem_erase, and_iff_right hne]
  · obtain ⟨hf, hz, hb, ho⟩ := h.waiting x hx
    exact ⟨hf, hz, hb, fun Q hQ _ => ho Q hQ⟩
  · rw [hd.used x, h.used_split P x]
    constructor
    · rintro ⟨hb | hh | ⟨-, ho⟩ | ho, hnot⟩
      · exact .inl hb
      · exact .inr (.inl hh)
      · exact absurd ho hnot
      · exact .inr (.inr (.inr ho))
    · rintro (hb | hh | ⟨hPl, -⟩ | ⟨Q, hQ, hne, ho⟩)
      · exact ⟨.inl hb, fun ho => (h.spaces P hP).base x ho hb⟩
      · exact ⟨.inr (.inl hh), (h.waiting x hh).2.2.2 P hP⟩
      · exact absurd hPl (Finset.notMem_erase P live)
      · exact ⟨.inr (.inr (.inr ⟨Q, hQ, hne, ho⟩)), h.apart Q hQ P hP hne x ho⟩

/-- A step that leaves the frames of all memories alone, after which `held'` waits. -/
theorem Inv.idle (h : Inv K s live held) (hl : Local K s s' fun _ => False)
    (hheld : ∀ x ∈ held', x ∈ held ∨ IsFrame x ∧ x ≠ 0 ∧ x ∉ s.used)
    (hused : ∀ x, x ∈ s'.used ↔ x ∈ s.used ∨ x ∈ held') (hsub : held ⊆ held') :
    Inv K s' live held' := by
  have hother : ∀ Q ∈ live, Live K s' Q ∧ ∀ y, Owned s' Q y ↔ Owned s Q y := by
    intro Q hQ
    obtain ⟨hsame, hlive⟩ := hl.other h.kernel (h.spaces Q hQ) fun _ _ hD => hD
    exact ⟨hlive, owned_congr hsame⟩
  refine ⟨hl.kernel, fun Q hQ => (hother Q hQ).1, fun Q hQ R hR hne x hxQ hxR => ?_, fun x hx => ?_,
    fun x => ?_⟩
  · exact h.apart Q hQ R hR hne x (((hother Q hQ).2 x).mp hxQ) (((hother R hR).2 x).mp hxR)
  · rcases hheld x hx with hx | ⟨hf, hz, hu⟩
    · obtain ⟨hf, hz, hb, ho⟩ := h.waiting x hx
      exact ⟨hf, hz, hb, fun Q hQ hxQ => ho Q hQ (((hother Q hQ).2 x).mp hxQ)⟩
    · obtain ⟨hb, -, -, ho⟩ := h.unused hu
      exact ⟨hf, hz, hb, fun Q hQ hxQ => ho Q hQ (((hother Q hQ).2 x).mp hxQ)⟩
  · have hex : (∃ Q ∈ live, Owned s' Q x) ↔ ∃ Q ∈ live, Owned s Q x :=
      exists_congr fun Q => and_congr_right fun hQ => (hother Q hQ).2 x
    rw [hused x, h.used x, hex]
    constructor
    · rintro ((hb | hh | ho) | hh)
      · exact .inl hb
      · exact .inr (.inl (hsub hh))
      · exact .inr (.inr ho)
      · exact .inr (.inl hh)
    · rintro (hb | hh | ho)
      · exact .inl (.inl hb)
      · exact .inr hh
      · exact .inl (.inr (.inr ho))

/-- `copyPDs` between two memories, the first without pages. -/
theorem Inv.copyPDs {PD : Nat} (h : Inv K s live held) (hP : P ∈ live) (hQ : Q ∈ live) (hne : P ≠ Q)
    (hb : Bare s P PD K.shared) :
    Ensures (s.copyPDs A P Q) (· = .outOfMemory) fun s' => Inv K s' live held ∧
      ∀ x, (Owned s' P x → Owned s P x ∨ x ∉ s.used) ∧ (Owned s P x → Owned s' P x) ∧
        (x ∈ s'.used ↔ x ∈ s.used ∨ Owned s' P x) := by
  have hPs := h.spaces P hP
  have hQs := h.spaces Q hQ
  have hPD : s.linkAt P [0] = some PD := linkAt_one.trans hb.first
  obtain ⟨QD, hQD, -⟩ := hQs.first
  refine (copyPDs_filled hQs.toSpace hPs.toSpace hQD hPD (h.apart P hP Q hQ hne)).mono
    (fun _ he => he) fun s' hf => ⟨h.fill hP hb hf, fun x => ⟨fun hx => ?_, fun hx => ?_, ?_⟩⟩
  · rcases (hf.owned hPD).mp hx with rfl | rfl | ⟨p, hp, hx⟩
    · exact .inl ⟨[], .nil, rfl⟩
    · exact .inl ⟨[0], .zero, hPD⟩
    · exact .inr (hf.fresh p x hp hx).1
  · exact (hf.owned hPD).mpr (or_assoc.mp (.inl (hb.owned.mp hx)))
  · rw [hf.used x, hf.owned hPD]
    constructor
    · exact Or.imp_right fun hx => .inr (.inr hx)
    · rintro (hx | rfl | rfl | hx)
      · exact .inl hx
      · exact .inl hPs.used
      · exact .inl (hPs.live [0] x .zero (List.cons_ne_nil _ _) hPD).1
      · exact .inr hx

/-- The constructors return a memory whose frames were not in use. -/
def New (s : Machine) (r : Nat × Machine) : Prop :=
  ∀ x, (Owned r.2 r.1 x → x ∉ s.used) ∧ (x ∈ r.2.used ↔ x ∈ s.used ∨ Owned r.2 r.1 x)

theorem Inv.construct_new (h : Inv K s live held) :
    Ensures (s.construct A) (· = .outOfMemory) fun r => Inv K r.2 (insert r.1 live) held ∧
      New s r ∧ r.1 ∉ live ∧ ∃ PD, Bare r.2 r.1 PD K.shared := by
  refine (construct_constructed h.kernel).mono (fun _ he => he) ?_
  rintro ⟨P, s'⟩ ⟨PD, hc⟩
  have hb := hc.bare h.kernel
  refine ⟨h.construct hc, fun x => ⟨fun hx => ?_, by rw [hc.used x, hb.owned]⟩,
    (h.unused hc.fresh.1).2.2.1, PD, hb⟩
  rcases hb.owned.mp hx with rfl | rfl
  · exact hc.fresh.1
  · exact hc.fresh.2.1

theorem Inv.copyConstruct_new (h : Inv K s live held) (hQ : Q ∈ live) :
    Ensures (s.copyConstruct A Q) (· = .outOfMemory) fun r => Inv K r.2 (insert r.1 live) held ∧
      New s r := by
  unfold copyConstruct
  refine h.construct_new.bind ?_
  rintro ⟨P, t⟩ ⟨ht, hnew, hPl, PD, hb⟩
  have hne : P ≠ Q := fun heq => hPl (heq ▸ hQ)
  refine Ensures.bind (ht.copyPDs (Finset.mem_insert_self P live)
    (Finset.mem_insert_of_mem hQ) hne hb) ?_
  rintro s' ⟨hs', hown⟩
  refine ⟨hs', fun x => ⟨fun hx hu => ?_, ?_⟩⟩
  · rcases (hown x).1 hx with ho | hn
    · exact (hnew x).1 ho hu
    · exact hn ((hnew x).2.mpr (.inl hu))
  · change x ∈ s'.used ↔ _
    rw [(hown x).2.2, (hnew x).2]
    refine ⟨?_, fun hx => hx.imp_left .inl⟩
    rintro ((hx | hx) | hx)
    · exact .inl hx
    · exact .inr ((hown x).2.1 hx)
    · exact .inr hx

theorem Inv.clear_bare (h : Inv K s live held) (hP : P ∈ live) :
    ∃ s' PD, s.clear P = .ok s' ∧ Inv K s' live held ∧ Bare s' P PD K.shared ∧
      s.linkAt P [0] = some PD ∧
      ∀ x, x ∈ s'.used ↔ x ∈ s.used ∧ (Owned s P x → x = P ∨ x = PD) := by
  have hlive := h.spaces P hP
  obtain ⟨PD, hPD, -⟩ := hlive.first
  obtain ⟨s', hs', hc⟩ := clear_cleared h.kernel hlive hPD
  refine ⟨s', PD, hs', h.clear hP hPD hc, hc.bare h.kernel hlive hPD, hPD, fun x => ?_⟩
  rw [hc.used x, owned_iff_below hPD]
  refine and_congr_right fun _ => ⟨fun hnot hx => hx.resolve_right hnot, fun htwo hbelow => ?_⟩
  exact not_below hlive hPD (htwo (.inr hbelow)) hbelow

theorem Inv.assign (h : Inv K s live held) (hP : P ∈ live) (hQ : Q ∈ live) (hne : P ≠ Q) :
    Ensures (s.assign A P Q) (· = .outOfMemory) fun s' => Inv K s' live held ∧
      ∀ x, x ∈ s'.used ↔ (x ∈ s.used ∧ ¬Owned s P x) ∨ Owned s' P x := by
  obtain ⟨t, PD, ht, hinv, hb, hPD, hused⟩ := h.clear_bare hP
  unfold Machine.assign
  rw [ht, ok_bind]
  refine (hinv.copyPDs hP hQ hne hb).mono (fun _ he => he) ?_
  rintro s' ⟨hs', hown⟩
  refine ⟨hs', fun x => ?_⟩
  rw [(hown x).2.2, hused x]
  constructor
  · rintro (⟨hx, htwo⟩ | hx)
    · by_cases ho : Owned s P x
      · exact .inr ((hown x).2.1 (hb.owned.mpr (htwo ho)))
      · exact .inl ⟨hx, ho⟩
    · exact .inr hx
  · rintro (⟨hx, ho⟩ | hx)
    · exact .inl ⟨hx, fun ho' => absurd ho' ho⟩
    · exact .inr hx

theorem Inv.alloc {x : Nat} (h : Inv K s live held) (hx : s.alloc A = .ok (x, s')) :
    Inv K s' live (insert x held) := by
  cases hpick : A.pick s.used with
  | none =>
    rw [alloc_none hpick] at hx
    exact absurd hx (by simp)
  | some y =>
    obtain ⟨hy, hyz, hyf⟩ := A.fresh _ _ hpick
    rw [alloc_some hpick] at hx
    obtain ⟨rfl, rfl⟩ := Prod.mk.inj (Except.ok.inj hx)
    have hk := h.kernel
    refine h.idle ⟨hk.congr rfl rfl (fun _ _ _ _ => rfl) hk.closed fun z hz => ?_, rfl,
      fun _ _ _ _ _ => rfl, fun z hz _ => Finset.mem_insert_of_mem hz⟩ (fun z hz => ?_) (fun z => ?_)
      (Finset.subset_insert _ _)
    · exact Finset.mem_insert_of_mem (hk.used hz)
    · rcases Finset.mem_insert.mp hz with rfl | hz
      · exact .inr ⟨hyf, hyz, hy⟩
      · exact .inl hz
    · rw [Finset.mem_insert, Finset.mem_insert]
      constructor
      · rintro (rfl | hz)
        · exact .inr (.inl rfl)
        · exact .inl hz
      · rintro (hz | rfl | hz)
        · exact .inr hz
        · exact .inl rfl
        · exact .inr ((h.used z).mpr (.inr (.inl hz)))

theorem Step.inv (h : Step A σ σ') (hi : Inv K σ.machine σ.live σ.held) :
    Inv K σ'.machine σ'.live σ'.held := by
  cases h with
  | construct h => exact (hi.construct_new.of_ok h).1
  | copyConstruct hQ h => exact ((hi.copyConstruct_new hQ).of_ok h).1
  | activate hP h =>
    obtain ⟨t, ht, hl, hused⟩ := switchUser_here hi.kernel (hi.spaces _ hP).frame
    obtain rfl := Except.ok.inj (ht.symm.trans h)
    refine hi.idle hl (fun _ hx => .inl hx) (fun x => ?_) (Finset.Subset.refl _)
    rw [hused]
    exact (or_iff_left_of_imp fun hx => (hi.used x).mpr (.inr (.inl hx))).symm
  | alloc h => exact hi.alloc h
  | map hact hphy hvirt h =>
    have hspare : ∀ i < _, Spare K _ _ (pageOf _ i) := fun i hn => by
      obtain ⟨hf, hz, hb, ho⟩ := hi.waiting _ (hphy i hn)
      exact ⟨hf, hz, (hi.used _).mpr (.inr (.inl (hphy i hn))), hb, ho _ hact⟩
    obtain ⟨N, hr⟩ := (createMapping_ranged hi.kernel (hi.spaces _ hact) rfl hspare hvirt).of_ok h
    exact hi.map hact hphy hr
  | assign hP hQ hne h => exact ((hi.assign hP hQ hne).of_ok h).1
  | clear hP h =>
    obtain ⟨t, PD, ht, hinv, -⟩ := hi.clear_bare hP
    obtain rfl := Except.ok.inj (ht.symm.trans h)
    exact hinv
  | destroy hP h =>
    obtain ⟨t, ht, hd⟩ := destroy_destroyed hi.kernel (hi.spaces _ hP)
    obtain rfl := Except.ok.inj (ht.symm.trans h)
    exact hi.destroy hP hd

theorem Run.inv (hk : Kernel K s) (hbase : s.used = K.base) (hr : Run A s σ) :
    Inv K σ.machine σ.live σ.held := by
  induction hr with
  | start =>
    refine ⟨hk, fun P hP => absurd hP (Finset.notMem_empty P),
      fun P hP => absurd hP (Finset.notMem_empty P), fun x hx => absurd hx (Finset.notMem_empty x),
      fun x => ?_⟩
    rw [hbase]
    refine (or_iff_left ?_).symm
    rintro (hx | ⟨P, hP, -⟩)
    · exact Finset.notMem_empty x hx
    · exact Finset.notMem_empty P hP
  | step _ h ih => exact h.inv ih

/-- No frame is lost or freed twice: an operation stops only for want of memory, frames leave the set
of those in use as they leave the memories, and what a memory refers to is in use. -/
structure Sound (A : FrameAllocator) (K : KernelFrames) (s : Machine) (live held : Finset Nat) :
    Prop where
  inv : Inv K s live held
  construct : Ensures (s.construct A) (· = .outOfMemory) (New s)
  copyConstruct : ∀ Q ∈ live, Ensures (s.copyConstruct A Q) (· = .outOfMemory) (New s)
  assign : ∀ P ∈ live, ∀ Q ∈ live, P ≠ Q → Ensures (s.assign A P Q) (· = .outOfMemory)
    fun s' => ∀ x, x ∈ s'.used ↔ (x ∈ s.used ∧ ¬Owned s P x) ∨ Owned s' P x
  clear : ∀ P ∈ live, ∃ s' PD, s.clear P = .ok s' ∧ s.linkAt P [0] = some PD ∧
    Bare s' P PD K.shared ∧ ∀ x, x ∈ s'.used ↔ x ∈ s.used ∧ (Owned s P x → x = P ∨ x = PD)
  destroy : ∀ P ∈ live, ∃ s', s.destroy P = .ok s' ∧
    ∀ x, x ∈ s'.used ↔ x ∈ s.used ∧ ¬Owned s P x
  referenced : ∀ P ∈ live, ∀ p x, Own p → s.linkAt P p = some x → x ∈ s.used
  shared : ∀ P ∈ live, ∃ PD, s.linkAt P [0] = some PD ∧ (s.mem PD 0).link = some K.shared ∧
    K.shared ∈ s.used
  empty : live = ∅ → held = ∅ → s.used = K.base

theorem Inv.sound (h : Inv K s live held) : Sound A K s live held where
  inv := h
  construct := h.construct_new.mono (fun _ he => he) fun _ hr => hr.2.1
  copyConstruct Q hQ := (h.copyConstruct_new hQ).mono (fun _ he => he) fun _ hr => hr.2
  assign P hP Q hQ hne := (h.assign hP hQ hne).mono (fun _ he => he) fun _ hs => hs.2
  clear P hP := by
    obtain ⟨s', PD, hs', -, hb, hPD, hused⟩ := h.clear_bare hP
    exact ⟨s', PD, hs', hPD, hb, hused⟩
  destroy P hP := by
    obtain ⟨s', hs', hd⟩ := destroy_destroyed h.kernel (h.spaces P hP)
    exact ⟨s', hs', hd.used⟩
  referenced P hP p x hp hx := Owned.used (h.spaces P hP).toSpace ⟨p, hp, hx⟩
  shared P hP := by
    obtain ⟨PD, hPD, hfirst⟩ := (h.spaces P hP).first
    exact ⟨PD, hPD, hfirst, h.kernel.used h.kernel.base_shared⟩
  empty hl hh := by
    ext x
    rw [h.used x, hl, hh]
    refine or_iff_left ?_
    rintro (hx | ⟨P, hP, -⟩)
    · exact Finset.notMem_empty x hx
    · exact Finset.notMem_empty P hP

/-- In every run of the operations from boot on, no frame is lost or freed twice. -/
theorem run_sound (hk : Kernel K s) (hbase : s.used = K.base) (hr : Run A s σ) :
    Sound A K σ.machine σ.live σ.held :=
  (hr.inv hk hbase).sound

/-! ### Boot -/

/-- The kernel's tables. -/
def boot : Machine where
  mem := tablesOf [((0x1000, 0), 0x5000), ((0x4000, 0), 0x1000), ((0x4000, 6), 0x5000),
    ((0x4000, 7), 0x6000), ((0x6000, 0), 0x7000)]
  pml4 := 0x1000
  pagePT := 0x4000
  used := pairKernel.base

theorem boot_kernel : Kernel pairKernel boot where
  closed k h1 h2 := by
    unfold TMPPDPOFF at h1
    unfold TMPPTOFF at h2
    obtain rfl | rfl | rfl : k = 0xA ∨ k = 0xB ∨ k = 0xC := by omega
    all_goals decide
  view := by decide
  firstPD := by decide
  shared := by decide
  shared_ne := by decide
  default := by decide
  base := by decide
  base_shared := by decide
  apart := by decide
  used := Finset.Subset.refl _

/-- A memory is constructed after boot. -/
theorem run_sound_boot : ∃ P s', boot.construct lowest = .ok (P, s') ∧
    Run lowest boot ⟨s', {P}, ∅⟩ ∧ Sound lowest pairKernel s' {P} ∅ := by
  have hok : (boot.construct lowest).toOption.isSome = true := by decide +kernel
  cases h : boot.construct lowest with
  | error e =>
    rw [h] at hok
    exact absurd hok Bool.false_ne_true
  | ok r =>
    have hrun : Run lowest boot ⟨r.2, {r.1}, ∅⟩ := .step .start (.construct h)
    exact ⟨r.1, r.2, rfl, hrun, run_sound boot_kernel rfl hrun⟩

end System

end SupOS
