import SupOS.Fault
import SupOS.Lib.Outcome
import Mathlib.Data.Finset.Insert
import Mathlib.Data.Finset.Erase

/-! The classes `Waitable` and `Waiting` of `Processes/Waiting.h`: a registration is kept on both
sides, and each function removes it from one of them. -/

namespace SupOS

open Lib

variable {T W : Type} [DecidableEq T] [DecidableEq W]

/-- The fields of all objects of both classes; `T` names those of `Waiting` and `W` those of
`Waitable`. -/
structure Waits (T W : Type) where
  waiting : T → Finset W
  waited : T → Option W
  waitings : W → Finset T

namespace Waits

variable (s : Waits T W) (t : T) (w : W) (S : Finset W)

/-- Nothing waits. -/
def idle : Waits T W := ⟨fun _ => ∅, fun _ => none, fun _ => ∅⟩

/-- The loop of `wait` and of `refuse`. -/
def register : Waits T W :=
  { s with waitings := fun v => if v ∈ S then insert t (s.waitings v) else s.waitings v }

/-- The assertion of `wait` and of the destructor of `Waiting`. -/
def isIdle : Bool := (s.waited t).isNone && decide (s.waiting t = ∅)

def wait : Except Fault (Waits T W) := do
  assert (s.isIdle t)
  return { s with waiting := fun u => if u = t then S else s.waiting u }.register t S

/-- `Waitable::free`. -/
def free : Waits T W :=
  { s with
    waited := fun u => if u ∈ s.waitings w then some w else s.waited u
    waitings := fun v => if v = w then ∅ else s.waitings v }

/-- The fields as the checker finds them. -/
def clearWaited : Waits T W := { s with waited := fun u => if u = t then none else s.waited u }

def accept : Waits T W := { s with waiting := fun u => if u = t then ∅ else s.waiting u }

def refuse : Waits T W := s.register t (s.waiting t)

/-- `OK`, where `accepts` is what the checker decides. -/
def OK (accepts : Bool) : Bool × Waits T W :=
  match s.waited t with
  | none => (decide (s.waiting t = ∅), s)
  | some _ =>
    let s := if accepts then (s.clearWaited t).accept t else (s.clearWaited t).refuse t
    (decide (s.waiting t = ∅), s)

/-- The destructor of `Waiting`. -/
def delete : Except Fault Unit := assert (s.isIdle t)

end Waits

/-- The registrations, and the objects of `Waiting` that exist. -/
structure Protocol (T W : Type) where
  waits : Waits T W
  alive : T → Bool

namespace Protocol

open Waits

variable {p p' q : Protocol T W} {t : T}

/-- The state before the first object is built. -/
def start : Protocol T W := ⟨idle, fun _ => false⟩

/-- A new object has the fields of one that waits for nothing. -/
def build (p : Protocol T W) (t : T) : Protocol T W where
  waits := { p.waits with
    waiting := fun u => if u = t then ∅ else p.waits.waiting u
    waited := fun u => if u = t then none else p.waits.waited u }
  alive := fun u => decide (u = t) || p.alive u

/-- An object is gone after its destructor. -/
def remove (p : Protocol T W) (t : T) : Protocol T W :=
  { p with alive := fun u => decide (u ≠ t) && p.alive u }

/-- The steps; those of `OK` where the checker accepts only where `C` holds. -/
inductive Step (C : Waits T W → T → Prop) : Protocol T W → Protocol T W → Prop
  | build {p : Protocol T W} {t : T} (ht : p.alive t = false) :
    Step C p (p.build t)
  | wait {p : Protocol T W} {t : T} {S : Finset W} {s' : Waits T W} (ht : p.alive t = true)
    (hS : S.Nonempty) (h : p.waits.wait t S = .ok s') : Step C p { p with waits := s' }
  | free {p : Protocol T W} {w : W} : Step C p { p with waits := p.waits.free w }
  | ok {p : Protocol T W} {t : T} {accepts : Bool} (ht : p.alive t = true)
    (hC : accepts = true → p.waits.waited t ≠ none → C p.waits t) :
    Step C p { p with waits := (p.waits.OK t accepts).2 }
  | delete {p : Protocol T W} {t : T} {u : Unit} (ht : p.alive t = true)
    (h : p.waits.delete t = .ok u) : Step C p (p.remove t)

/-- The states after steps. -/
inductive Run (C : Waits T W → T → Prop) : Protocol T W → Prop
  | start : Run C start
  | step {p p' : Protocol T W} (hr : Run C p) (h : Step C p p') : Run C p'

/-- Every waitable of the wait has been freed since `t` was registered with it. -/
def AllFreed (s : Waits T W) (t : T) : Prop := ∀ w ∈ s.waiting t, t ∉ s.waitings w

instance (s : Waits T W) (t : T) : Decidable (AllFreed s t) :=
  inferInstanceAs (Decidable (∀ w ∈ s.waiting t, t ∉ s.waitings w))

/-- What the two sides know of each other. -/
structure Inv (p : Protocol T W) : Prop where
  registered : ∀ t w, t ∈ p.waits.waitings w → p.alive t = true ∧ w ∈ p.waits.waiting t
  pending : ∀ t w, w ∈ p.waits.waiting t → t ∉ p.waits.waitings w → p.waits.waited t ≠ none
  waited : ∀ t w, p.waits.waited t = some w → t ∉ p.waits.waitings w ∧ w ∈ p.waits.waiting t

omit [DecidableEq T] [DecidableEq W] in
theorem Inv.start : Inv (start : Protocol T W) where
  registered t w h := absurd h (Finset.notMem_empty t)
  pending t w h := absurd h (Finset.notMem_empty w)
  waited t w h := absurd h (by simp [Protocol.start, idle])

omit [DecidableEq W] in
theorem Inv.build (h : Inv p) (ht : p.alive t = false) : Inv (p.build t) := by
  have hne : ∀ u w, u ∈ p.waits.waitings w → u ≠ t := by
    rintro u w hu rfl
    exact absurd ((h.registered u w hu).1.symm.trans ht) (by decide)
  refine ⟨fun u w hu => ?_, fun u w hw hu => ?_, fun u w hw => ?_⟩
  · obtain ⟨hal, hw⟩ := h.registered u w hu
    refine ⟨by simp [Protocol.build, hal], ?_⟩
    simpa [Protocol.build, hne u w hu] using hw
  · by_cases hut : u = t
    · simp [Protocol.build, hut] at hw
    · simp only [Protocol.build, if_neg hut] at hw ⊢
      exact h.pending u w hw hu
  · by_cases hut : u = t
    · simp [Protocol.build, hut] at hw
    · simp only [Protocol.build, if_neg hut] at hw ⊢
      exact h.waited u w hw

theorem mem_register {s : Waits T W} {S : Finset W} {u : T} {w : W} :
    u ∈ (s.register t S).waitings w ↔ (w ∈ S ∧ u = t) ∨ u ∈ s.waitings w := by
  by_cases hw : w ∈ S <;> simp [register, hw]

omit [DecidableEq T] in
theorem isIdle_eq_true {s : Waits T W} :
    s.isIdle t = true ↔ s.waited t = none ∧ s.waiting t = ∅ := by
  simp [isIdle]

theorem wait_eq_ok {s s' : Waits T W} {S : Finset W} (h : s.wait t S = .ok s') :
    s.waited t = none ∧ s.waiting t = ∅ ∧
      s' = { s with waiting := fun u => if u = t then S else s.waiting u }.register t S := by
  unfold Waits.wait at h
  obtain ⟨u, hassert, hs'⟩ := bind_eq_ok.mp h
  obtain ⟨hwaited, hempty⟩ := isIdle_eq_true.mp (assert_eq_ok.mp hassert)
  exact ⟨hwaited, hempty, (pure_eq_ok.mp hs').symm⟩

theorem Inv.wait {S : Finset W} {s' : Waits T W} (h : Inv p) (ht : p.alive t = true)
    (hs : p.waits.wait t S = .ok s') : Inv { p with waits := s' } := by
  obtain ⟨hwaited, hempty, rfl⟩ := wait_eq_ok hs
  refine ⟨fun u w hu => ?_, fun u w hw hu => ?_, fun u w hw => ?_⟩
  · rcases mem_register.mp hu with ⟨hwS, rfl⟩ | hu
    · exact ⟨ht, by simpa [register] using hwS⟩
    · obtain ⟨hal, hw⟩ := h.registered u w hu
      have hne : u ≠ t := by
        rintro rfl
        rw [hempty] at hw
        exact Finset.notMem_empty w hw
      exact ⟨hal, by simpa [register, hne] using hw⟩
  · by_cases hut : u = t
    · subst hut
      have hwS : w ∈ S := by simpa [register] using hw
      exact absurd (mem_register.mpr (.inl ⟨hwS, rfl⟩)) hu
    · have hw' : w ∈ p.waits.waiting u := by simpa [register, hut] using hw
      exact h.pending u w hw' fun hu' => hu (mem_register.mpr (.inr hu'))
  · obtain ⟨hno, hw'⟩ := h.waited u w hw
    have hne : u ≠ t := by
      rintro rfl
      rw [hempty] at hw'
      exact Finset.notMem_empty w hw'
    refine ⟨fun hu => ?_, by simpa [register, hne] using hw'⟩
    rcases mem_register.mp hu with ⟨-, rfl⟩ | hu
    · exact hne rfl
    · exact hno hu

theorem Inv.free (h : Inv p) (w : W) : Inv { p with waits := p.waits.free w } := by
  refine ⟨fun u v hu => ?_, fun u v hv hu => ?_, fun u v hv => ?_⟩
  · by_cases hvw : v = w
    · simp [Waits.free, hvw] at hu
    · simp only [Waits.free, if_neg hvw] at hu
      exact h.registered u v hu
  · by_cases huw : u ∈ p.waits.waitings w
    · simp [Waits.free, huw]
    · by_cases hvw : v = w
      · subst hvw
        simp only [Waits.free, if_neg huw]
        exact h.pending u v hv huw
      · simp only [Waits.free, if_neg hvw] at hu
        simp only [Waits.free, if_neg huw]
        exact h.pending u v hv hu
  · by_cases huw : u ∈ p.waits.waitings w
    · simp only [Waits.free, if_pos huw, Option.some.injEq] at hv
      subst hv
      exact ⟨by simp [Waits.free], (h.registered u w huw).2⟩
    · simp only [Waits.free, if_neg huw] at hv ⊢
      obtain ⟨hno, hmem⟩ := h.waited u v hv
      refine ⟨?_, hmem⟩
      split
      · exact Finset.notMem_empty u
      · exact hno

omit [DecidableEq W] in
theorem Inv.accept (h : Inv p) (hC : AllFreed p.waits t) :
    Inv { p with waits := (p.waits.clearWaited t).accept t } := by
  have hne : ∀ u w, u ∈ p.waits.waitings w → u ≠ t := by
    rintro u w hu rfl
    exact hC w (h.registered u w hu).2 hu
  refine ⟨fun u w hu => ?_, fun u w hw hu => ?_, fun u w hw => ?_⟩
  · obtain ⟨hal, hw⟩ := h.registered u w hu
    exact ⟨hal, by simpa [Waits.accept, clearWaited, hne u w hu] using hw⟩
  · by_cases hut : u = t
    · simp [Waits.accept, hut] at hw
    · simp only [Waits.accept, clearWaited, if_neg hut] at hw ⊢
      exact h.pending u w hw hu
  · by_cases hut : u = t
    · simp [Waits.accept, clearWaited, hut] at hw
    · simp only [Waits.accept, clearWaited, if_neg hut] at hw ⊢
      exact h.waited u w hw

theorem Inv.refuse (h : Inv p) (ht : p.alive t = true) :
    Inv { p with waits := (p.waits.clearWaited t).refuse t } := by
  refine ⟨fun u w hu => ?_, fun u w hw hu => ?_, fun u w hw => ?_⟩
  · rcases mem_register.mp hu with ⟨hw, rfl⟩ | hu
    · exact ⟨ht, hw⟩
    · exact h.registered u w hu
  · have hw' : w ∈ p.waits.waiting u := hw
    have hne : u ≠ t := by
      rintro rfl
      exact hu (mem_register.mpr (.inl ⟨hw', rfl⟩))
    simp only [Waits.refuse, register, clearWaited, if_neg hne]
    exact h.pending u w hw' fun hu' => hu (mem_register.mpr (.inr hu'))
  · by_cases hut : u = t
    · simp [Waits.refuse, register, clearWaited, hut] at hw
    · simp only [Waits.refuse, register, clearWaited, if_neg hut] at hw
      obtain ⟨hno, hmem⟩ := h.waited u w hw
      refine ⟨fun hu => ?_, hmem⟩
      rcases mem_register.mp hu with ⟨-, rfl⟩ | hu
      · exact hut rfl
      · exact hno hu

theorem Inv.delete (h : Inv p) (hidle : p.waits.isIdle t = true) :
    Inv (p.remove t) := by
  refine ⟨fun u w hu => ?_, h.pending, h.waited⟩
  obtain ⟨hal, hw⟩ := h.registered u w hu
  have hne : u ≠ t := by
    rintro rfl
    rw [(isIdle_eq_true.mp hidle).2] at hw
    exact Finset.notMem_empty w hw
  exact ⟨by simp [Protocol.remove, hne, hal], hw⟩

omit [DecidableEq T] [DecidableEq W] in
/-- Only the objects that are registered need to exist. -/
theorem Inv.survivors {s : Waits T W} {alive alive' : T → Bool} (h : Inv ⟨s, alive⟩)
    (hle : ∀ t w, t ∈ s.waitings w → alive' t = true) : Inv ⟨s, alive'⟩ :=
  ⟨fun u w hu => ⟨hle u w hu, (h.registered u w hu).2⟩, h.pending, h.waited⟩

omit [DecidableEq T] [DecidableEq W] in
theorem Inv.mono {s : Waits T W} {alive alive' : T → Bool} (h : Inv ⟨s, alive⟩)
    (hle : ∀ t, alive t = true → alive' t = true) : Inv ⟨s, alive'⟩ :=
  ⟨fun u w hu => ⟨hle u (h.registered u w hu).1, (h.registered u w hu).2⟩, h.pending, h.waited⟩

omit [DecidableEq T] in
/-- A new waitable has an empty list. -/
theorem Inv.fresh {w : W} (h : Inv p) (hw : ∀ t, w ∉ p.waits.waiting t) :
    Inv { p with waits := { p.waits with
      waitings := fun v => if v = w then ∅ else p.waits.waitings v } } := by
  have hold : ∀ u v, u ∈ p.waits.waitings v → v ≠ w := by
    rintro u v hu rfl
    exact hw u (h.registered u v hu).2
  refine ⟨fun u v hu => ?_, fun u v hv hu => ?_, fun u v hv => ?_⟩
  · by_cases hvw : v = w
    · simp [hvw] at hu
    · simp only [if_neg hvw] at hu
      exact h.registered u v hu
  · by_cases hvw : v = w
    · exact absurd (hvw ▸ hv) (hw u)
    · simp only [if_neg hvw] at hu
      exact h.pending u v hv hu
  · obtain ⟨hno, hmem⟩ := h.waited u v hv
    have hvw : v ≠ w := by
      rintro rfl
      exact hw u hmem
    exact ⟨by simpa [hvw] using hno, hmem⟩

theorem Step.inv (h : Step AllFreed p p') (hi : Inv p) : Inv p' := by
  cases h with
  | build ht => exact hi.build ht
  | wait ht _ h => exact hi.wait ht h
  | free => exact hi.free _
  | @ok t accepts ht hC =>
    unfold OK
    cases hw : p.waits.waited t with
    | none => exact hi
    | some w =>
      cases accepts with
      | true => exact hi.accept (hC rfl (by simp [hw]))
      | false => exact hi.refuse ht
  | delete ht h => exact hi.delete (assert_eq_ok.mp h)

/-- The wait protocol: registrations agree on both sides up to wake-ups that are pending, and an
object that waits for nothing, as after an accept, is in no list, is not woken, and may wait again or
be deleted. -/
structure Sound (p : Protocol T W) : Prop where
  registered : ∀ t w, t ∈ p.waits.waitings w → p.alive t = true ∧ w ∈ p.waits.waiting t
  pending : ∀ t w, w ∈ p.waits.waiting t → t ∉ p.waits.waitings w → p.waits.waited t ≠ none
  released : ∀ t, p.waits.waiting t = ∅ → (∀ w, t ∉ p.waits.waitings w) ∧
    p.waits.waited t = none ∧ (∀ S, ∃ s', p.waits.wait t S = .ok s') ∧ p.waits.delete t = .ok ()

theorem Inv.sound (h : Inv p) : Sound p where
  registered := h.registered
  pending := h.pending
  released t hempty := by
    have hnone : p.waits.waited t = none := by
      cases hw : p.waits.waited t with
      | none => rfl
      | some w =>
        have := (h.waited t w hw).2
        rw [hempty] at this
        exact absurd this (Finset.notMem_empty w)
    have hidle : p.waits.isIdle t = true := isIdle_eq_true.mpr ⟨hnone, hempty⟩
    refine ⟨fun w hw => ?_, hnone, fun S => ?_, ?_⟩
    · have := (h.registered t w hw).2
      rw [hempty] at this
      exact Finset.notMem_empty w this
    · unfold Waits.wait
      rw [hidle]
      exact ⟨_, rfl⟩
    · unfold Waits.delete
      rw [hidle]
      rfl

theorem Run.inv (h : Run AllFreed p) : Inv p := by
  induction h with
  | start => exact .start
  | step _ h ih => exact h.inv ih

/-- In every run whose checkers accept only when every waitable of the wait has been freed, the wait
protocol holds. -/
theorem run_protocol (h : Run AllFreed p) : Sound p := h.inv.sound

/-- One object that waits on two waitables, of which `true` is freed. -/
def woken : Protocol Unit Bool where
  waits := (({ idle with waiting := fun _ => {true, false} } : Waits Unit Bool).register ()
    {true, false}).free true
  alive := fun _ => true

theorem woken_run (C : Waits Unit Bool → Unit → Prop) : Run C woken := by
  have hbuild : Run C ((start : Protocol Unit Bool).build ()) :=
    .step .start (.build rfl)
  exact .step (.step hbuild (.wait (t := ()) (S := {true, false}) (by decide) (by decide) rfl)) .free

/-- After an accept at the first wake-up the object is still in the list of the other waitable,
where it also is after it is deleted. -/
theorem hasty_accept : ∃ p p' : Protocol Unit Bool, Run (fun _ _ => True) p ∧
    Run (fun _ _ => True) p' ∧ p.waits.waiting () = ∅ ∧ () ∈ p.waits.waitings false ∧
    ¬ Sound p ∧ p'.alive () = false ∧ () ∈ p'.waits.waitings false := by
  have hrun : Run (fun _ _ => True) { woken with waits := (woken.waits.OK () true).2 } :=
    .step (woken_run _) (.ok (by decide) fun _ _ => trivial)
  refine ⟨_, _, hrun, .step hrun (.delete (t := ()) (by decide) rfl), by decide, by decide,
    fun h => ?_, by decide, by decide⟩
  exact absurd (h.registered () false (by decide)).2 (by decide)

/-- The same object after `false` is freed too. -/
theorem run_protocol_woken : Run AllFreed { woken with waits := woken.waits.free false } ∧
    Sound { woken with waits := woken.waits.free false } ∧
    Sound { woken with waits := ((woken.waits.free false).OK () true).2 } := by
  have hrun : Run AllFreed { woken with waits := woken.waits.free false } :=
    .step (woken_run _) .free
  exact ⟨hrun, run_protocol hrun, run_protocol (.step hrun (.ok (by decide) (by decide)))⟩

/-- An accept leaves the protocol as it should exactly when every waitable of the wait has been
freed. -/
theorem Inv.accept_iff (h : Inv p) :
    Sound { p with waits := (p.waits.clearWaited t).accept t } ↔ AllFreed p.waits t := by
  refine ⟨fun hs w hw hmem => ?_, fun hC => (h.accept hC).sound⟩
  exact (hs.released t (by simp [Waits.accept])).1 w hmem

omit [DecidableEq T] [DecidableEq W] in
/-- A wait on one waitable, the only kind that the kernel makes, meets the condition whenever the
checker runs. -/
theorem Inv.allFreed_of_singleton {w : W} (h : Inv p) (hw : p.waits.waiting t = {w})
    (hne : p.waits.waited t ≠ none) : AllFreed p.waits t := by
  obtain ⟨v, hv⟩ := Option.ne_none_iff_exists'.mp hne
  obtain ⟨hno, hmem⟩ := h.waited t v hv
  rw [hw, Finset.mem_singleton] at hmem
  intro u hu
  rw [hw, Finset.mem_singleton] at hu
  rwa [hu, ← hmem]

end Protocol

end SupOS
