import SupOS.IO.Keyboard

/-! Scan codes that arrive between the polls of the keyboard and in the middle of them: what a poll takes
from the queue, and the key codes of a whole run. -/

namespace SupOS.Input.Keyboard

open Lib

variable {kbd kbd' : Keyboard} {as l scs : List UInt8} {k : Nat} {x : UInt8}

/-! ### One poll -/

/-- From `kbd` on, the bytes `as` have arrived and nothing but the queue has changed, which holds `l`. -/
structure Reached (kbd kbd' : Keyboard) (as l : List UInt8) (k : Nat) : Prop where
  holds : kbd'.deque.Holds l k
  arrived : kbd'.arrived = kbd.arrived ++ as
  state : kbd'.state = kbd.state
  keymap : kbd'.keymap = kbd.keymap
  sent : kbd'.sent = kbd.sent

/-- The queue overflows by `n` more bytes. -/
def Overflow (n : Nat) (e : Fault) : Prop := e = .assertion ∧ 1024 < n

theorem Overflow.mono {m n : Nat} (h : m ≤ n) (e : Fault) (he : Overflow m e) : Overflow n e :=
  ⟨he.1, Nat.lt_of_lt_of_le he.2 h⟩

namespace Reached

theorem start (h : kbd.deque.Holds l 0) : Reached kbd kbd [] l 0 :=
  ⟨h, (List.append_nil _).symm, rfl, rfl, rfl⟩

theorem handleScanCode (h : Reached kbd kbd' as l k) (sc : UInt8) :
    Ensures (kbd'.handleScanCode sc) (Overflow (l.length + k + 1))
      fun kbd₁ => Reached kbd kbd₁ (as ++ [sc]) (l ++ [sc]) k := by
  refine ((h.holds.pushBack sc).mono (fun e he => ⟨he.1, ?_⟩) fun _ h => h).bind fun d hd => ?_
  · have harrived : kbd'.arrived ++ [sc] = kbd.arrived ++ (as ++ [sc]) := by
      rw [h.arrived, List.append_assoc]
    exact ⟨hd.1, harrived, h.state, h.keymap, h.sent⟩
  · have hsize := h.holds.size_eq
    have hfull := he.2
    omega

theorem interrupts (h : Reached kbd kbd' as l k) (scs : List UInt8) :
    Ensures (kbd'.interrupts scs) (Overflow (l.length + k + scs.length))
      fun kbd₁ => Reached kbd kbd₁ (as ++ scs) (l ++ scs) k := by
  induction scs generalizing kbd' as l with
  | nil =>
    show Reached kbd kbd' (as ++ []) (l ++ []) k
    rwa [List.append_nil, List.append_nil]
  | cons sc scs ih =>
    unfold Keyboard.interrupts
    rw [List.foldlM_cons, List.length_cons]
    refine ((h.handleScanCode sc).mono (Overflow.mono (by omega)) fun _ h => h).bind fun kbd₁ h₁ => ?_
    have hstep := ih h₁
    rw [List.append_assoc, List.append_assoc] at hstep
    refine hstep.mono (Overflow.mono ?_) fun _ h => h
    rw [List.length_append, List.length_singleton]
    omega

theorem popFront (h : Reached kbd kbd' as (x :: l) 0) (before within : List UInt8) :
    Ensures (kbd'.popFront before within) (Overflow (l.length + 1 + before.length + within.length))
      fun kbd₁ => Reached kbd kbd₁ (as ++ before ++ within) (l ++ before ++ within) 0 := by
  refine ((h.interrupts before).mono (Overflow.mono ?_) fun _ h => h).bind fun kbd₁ h₁ => ?_
  · rw [List.length_cons]
    omega
  obtain ⟨d, hd, hholds, _⟩ := h₁.holds.advance
  rw [hd, ok_bind]
  have h₂ : Reached kbd { kbd₁ with deque := d } (as ++ before) (l ++ before) 1 :=
    ⟨hholds, h₁.arrived, h₁.state, h₁.keymap, h₁.sent⟩
  refine ((h₂.interrupts within).mono (Overflow.mono ?_) fun _ h => h).bind fun kbd₂ h₃ => ?_
  · rw [List.length_append]
    omega
  · exact ⟨h₃.holds.shrink.1, h₃.arrived, h₃.state, h₃.keymap, h₃.sent⟩

end Reached

/-- The number of interrupts. -/
def total (during : Fin 7 → List UInt8) : Nat := (List.ofFn fun i => (during i).length).sum

/-- What `pollSC` returns is the first scan code of the queue, whose bytes it takes away, or none where
the queue has no scan code. -/
inductive Polled (l l' as : List UInt8) : EScanCode → Prop
  | none (hl : scanCodes l = []) (hl' : l' = l ++ as) : Polled l l' as EScanCode.eof
  | taken {sc : EScanCode} {bytes : List UInt8} (hvalid : sc.valid = true) (hl' : l ++ as = bytes ++ l')
    (hsc : ∀ scs, scanCodes (bytes ++ scs) = sc :: scanCodes scs) : Polled l l' as sc

theorem pollSC_spec (h : kbd.deque.Holds l 0) (during : Fin 7 → List UInt8) :
    Ensures (kbd.pollSC during) (Overflow (l.length + total during)) fun r =>
      ∃ as l', Reached kbd r.1 as l' 0 ∧ Polled l l' as r.2 := by
  have htotal : total during = (during 0).length + ((during 1).length + ((during 2).length +
      ((during 3).length + ((during 4).length + ((during 5).length + (during 6).length))))) := rfl
  have hstart := Reached.start h
  unfold pollSC
  rw [h.empty]
  cases l with
  | nil => exact ⟨[], [], hstart, .none rfl rfl⟩
  | cons b t =>
    rw [List.isEmpty_cons, if_neg Bool.false_ne_true]
    rw [List.length_cons]
    refine ((hstart.interrupts (during 0)).mono (Overflow.mono ?_) fun _ h => h).bind fun kbd₁ h₁ => ?_
    · rw [List.length_cons]
      omega
    dsimp only
    rw [h₁.holds.front]
    refine ((h₁.interrupts (during 1)).mono (Overflow.mono ?_) fun _ h => h).bind fun kbd₂ h₂ => ?_
    · rw [List.length_append, List.length_cons]
      omega
    refine .ite (fun hb => ?_) fun hb => ?_
    · subst hb
      rw [List.nil_append, List.cons_append, List.cons_append] at h₂
      have hsize := h₂.holds.size_eq
      rw [List.length_cons] at hsize
      refine .ite (fun hone => ?_) fun hone => ?_
      · have hrest : t ++ during 0 ++ during 1 = [] := List.length_eq_zero_iff.mp (by omega)
        obtain ⟨hrest, h1⟩ := List.append_eq_nil_iff.mp hrest
        obtain ⟨rfl, h0⟩ := List.append_eq_nil_iff.mp hrest
        exact ⟨_, _, h₂, .none rfl (by simp [h0, h1])⟩
      · obtain ⟨c, t', hrest⟩ := List.exists_cons_of_length_pos (l := t ++ during 0 ++ during 1) (by omega)
        have hlen := congrArg List.length hrest
        rw [List.length_append, List.length_append, List.length_cons] at hlen
        rw [hrest] at h₂
        refine ((h₂.interrupts (during 2)).mono (Overflow.mono ?_) fun _ h => h).bind fun kbd₃ h₃ => ?_
        · rw [List.length_cons, List.length_cons]
          omega
        rw [List.cons_append, List.cons_append] at h₃
        rw [h₃.holds.get (by decide) (i := 1) (by simp)]
        refine ((h₃.popFront (during 3) (during 4)).mono (Overflow.mono ?_) fun _ h => h).bind
          fun kbd₄ h₄ => ?_
        · rw [List.length_cons, List.length_append]
          omega
        rw [List.cons_append, List.cons_append] at h₄
        refine ((h₄.popFront (during 5) (during 6)).mono (Overflow.mono ?_) fun _ h => h).bind
          fun kbd₅ h₅ => ?_
        · rw [List.length_append, List.length_append, List.length_append]
          omega
        have hsc (scs : List UInt8) : scanCodes ([0xe0, c] ++ scs) = _ := scanCodes_extended c scs
        refine ⟨_, _, h₅, .taken rfl ?_ hsc⟩
        have happ : 0xe0 :: t ++ (during 0 ++ during 1) = 0xe0 :: c :: t' := by
          rw [List.cons_append, ← List.append_assoc, hrest]
        simp only [← List.append_assoc] at happ ⊢
        rw [happ]
        rfl
    · rw [List.nil_append, List.cons_append, List.cons_append] at h₂
      refine ((h₂.popFront (during 2) (during 3)).mono (Overflow.mono ?_) fun _ h => h).bind
        fun kbd₃ h₃ => ?_
      · rw [List.length_append, List.length_append]
        omega
      · have hsc (scs : List UInt8) : scanCodes ([b] ++ scs) = _ := scanCodes_cons hb scs
        exact ⟨_, _, h₃, .taken rfl (by simp) hsc⟩

/-! ### Runs -/

/-- The keyboard, and the key codes that the polls have produced so far. -/
structure System where
  kbd : Keyboard
  events : List KeyCode

inductive Command
  | interrupt (sc : UInt8)
  | poll (during : Fin 7 → List UInt8)

/-- The bytes that arrive. -/
def Command.arrivals : Command → Nat
  | .interrupt _ => 1
  | .poll during => total during

/-- A poll without a scan code produces no key code. Whoever handles the key codes may set the keymap,
to that which `layout` finds for those so far. -/
def System.apply (layout : List KeyCode → Keymap) (s : System) : Command → Except Fault System
  | .interrupt sc => return { s with kbd := ← s.kbd.handleScanCode sc }
  | .poll during => do
    let (kbd, kc) ← s.kbd.poll during
    if kc.scanCode.valid then
      let events := s.events ++ [kc]
      return ⟨kbd.setKeymap (layout events), events⟩
    else return ⟨kbd, s.events⟩

/-- The runs of the handler and of the polls from the modifiers `st` on. -/
def machine (layout : List KeyCode → Keymap) (st : State) : Machine System Command Fault where
  start s := ∃ array, s = ⟨⟨Deque.new 1024 array, st, layout [], [], []⟩, []⟩
  admits _ _ := True
  apply := System.apply layout

namespace System

def typed (s : System) : Typed := ⟨s.kbd.state, s.kbd.sent, s.events⟩

/-- A poll now finds no scan code. -/
def Drained (s : System) : Prop :=
  ∃ kbd kc, s.kbd.poll (fun _ => []) = .ok (kbd, kc) ∧ kc.scanCode.valid = false

/-- The polls have taken the scan codes `codes`, and the queue has the rest of the bytes: whatever is to
come, the scan codes of all the bytes are those and the ones of the rest. -/
structure Decoded (layout : List KeyCode → Keymap) (st : State) (codes : List EScanCode) (l : List UInt8)
    (s : System) : Prop where
  holds : s.kbd.deque.Holds l 0
  arrived : ∀ scs, scanCodes (s.kbd.arrived ++ scs) = codes ++ scanCodes (l ++ scs)
  typed : s.typed = codes.foldl (Typed.press layout) ⟨st, [], []⟩
  keymap : s.kbd.keymap = layout s.events

variable {layout : List KeyCode → Keymap} {st : State} {codes : List EScanCode} {s s' : System}

namespace Decoded

theorem start (h : (machine layout st).start s) : Decoded layout st [] [] s := by
  obtain ⟨array, rfl⟩ := h
  exact ⟨.new (by decide) array, fun _ => rfl, rfl, rfl⟩

/-- Bytes that are only queued. -/
theorem queued (h : Decoded layout st codes l s) (hr : Reached s.kbd kbd as (l ++ as) 0) :
    Decoded layout st codes (l ++ as) ⟨kbd, s.events⟩ := by
  refine ⟨hr.holds, fun scs => ?_, ?_, hr.keymap.trans h.keymap⟩
  · rw [hr.arrived, List.append_assoc, List.append_assoc]
    exact h.arrived (as ++ scs)
  · rw [← h.typed, System.typed, System.typed, hr.state, hr.sent]

/-- A scan code that is taken. -/
theorem taken (h : Decoded layout st codes l s) {l' bytes : List UInt8} {sc : EScanCode}
    (hr : Reached s.kbd kbd as l' 0) (hl' : l ++ as = bytes ++ l')
    (hsc : ∀ scs, scanCodes (bytes ++ scs) = sc :: scanCodes scs) :
    let t := s.typed.press layout sc
    Decoded layout st (codes ++ [sc]) l'
      ⟨{ kbd with state := t.state, sent := t.sent, keymap := layout t.events }, t.events⟩ := by
  refine ⟨hr.holds, fun scs => ?_, ?_, rfl⟩
  · have hbytes : l ++ (as ++ scs) = bytes ++ (l' ++ scs) := by
      rw [← List.append_assoc, hl', List.append_assoc]
    dsimp only
    rw [hr.arrived, List.append_assoc, h.arrived, hbytes, hsc, List.append_assoc]
    rfl
  · rw [List.foldl_append, ← h.typed]
    rfl

theorem interrupt (h : Decoded layout st codes l s) (sc : UInt8) :
    Ensures (s.apply layout (.interrupt sc)) (Overflow (l.length + 1))
      (Decoded layout st codes (l ++ [sc])) :=
  ((Reached.start h.holds).handleScanCode sc).bind fun _ hkbd => h.queued hkbd

theorem poll (h : Decoded layout st codes l s) (during : Fin 7 → List UInt8) :
    Ensures (s.apply layout (.poll during)) (Overflow (l.length + total during))
      fun s' => ∃ codes' l', Decoded layout st codes' l' s' := by
  change Ensures ((s.kbd.pollSC during >>= _) >>= _) _ _
  rw [bind_assoc]
  refine (pollSC_spec h.holds during).bind fun r hr => ?_
  obtain ⟨kbd, sc⟩ := r
  obtain ⟨as, l', hr, hpolled⟩ := hr
  dsimp only at hr hpolled ⊢
  cases hpolled with
  | none hl hl' =>
    subst hl'
    exact ⟨codes, l ++ as, h.queued hr⟩
  | taken hvalid hl' hsc =>
    have htaken := h.taken hr hl' hsc
    simp only [hvalid, Bool.not_true, Bool.false_eq_true, if_false, pure_bind, if_true]
    refine ⟨codes ++ [sc], l', ?_⟩
    rw [hr.state, hr.sent, hr.keymap, h.keymap]
    exact htaken

theorem step (h : Decoded layout st codes l s) (c : Command) :
    Ensures (s.apply layout c) (Overflow (s.kbd.deque.size + c.arrivals))
      fun s' => ∃ codes' l', Decoded layout st codes' l' s' := by
  rw [h.holds.size_eq]
  cases c with
  | interrupt sc => exact (h.interrupt sc).mono (fun _ he => he) fun _ h => ⟨codes, l ++ [sc], h⟩
  | poll during => exact h.poll during

/-- The scan codes that are still in the queue make up the rest. -/
theorem codes_eq (h : Decoded layout st codes l s) : scanCodes s.kbd.arrived = codes ++ scanCodes l := by
  have harrived := h.arrived []
  rwa [List.append_nil, List.append_nil] at harrived

theorem length_events (h : Decoded layout st codes l s) : s.events.length = codes.length := by
  have hlen : s.typed.events.length = 0 + codes.length := by
    rw [h.typed, Typed.length_events_foldl_press]
    rfl
  rwa [Nat.zero_add] at hlen

theorem scanCodes_of_drained (h : Decoded layout st codes l s) (hs : s.Drained) : scanCodes l = [] := by
  obtain ⟨kbd, kc, hpoll, hkc⟩ := hs
  obtain ⟨⟨kbd₁, sc⟩, hsc, hrest⟩ := bind_eq_ok.mp hpoll
  obtain ⟨as, l', -, hpolled⟩ := (pollSC_spec h.holds _).of_ok hsc
  cases hpolled with
  | none hl hl' => exact hl
  | taken hvalid hl' hsc' =>
    dsimp only at hvalid hrest
    rw [hvalid] at hrest
    obtain ⟨-, rfl⟩ := Prod.mk.inj (Except.ok.inj hrest)
    exact absurd (hvalid.symm.trans hkc) (by decide)

end Decoded

/-- Whenever the keyboard is polled, the key codes are those of the bytes that have arrived. -/
theorem decoded_of_run (hr : (machine layout st).Run (fun _ _ => True) s) :
    ∃ codes l, Decoded layout st codes l s :=
  hr.invariant (I := fun s => ∃ codes l, Decoded layout st codes l s) (fun _ hs => ⟨[], [], .start hs⟩)
    fun _ _ c ⟨_, _, h⟩ _ _ happly => (h.step c).of_ok happly

end System

end SupOS.Input.Keyboard
