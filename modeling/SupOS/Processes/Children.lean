import SupOS.Processes.Runs

/-! The waits of parents for their children: which runs lose a child that has terminated. -/

namespace SupOS

open Lib

namespace Tasks

variable {s s' : Tasks} {C : Tasks → Command → Prop} {trace : List Event} {c : Command} {q : Nat}

/-- No thread sleeps in a wait for any child while a child of its process is terminated. -/
def NoLost (s : Tasks) : Prop := ∀ t p q, Asleep s t p → ¬Zombie s q p

/-- Between two waits that return a child at the same address a new process is built there. -/
def ReturnedOnce (trace : List Event) : Prop :=
  ∀ q l₁ l₂ l₃, trace = (l₁ ++ .returned q :: l₂) ++ .returned q :: l₃ → .born q ∈ l₂

/-- A child that is reaped has no terminated child, or no thread of init sleeps in a wait for any
child. -/
def Careful (s : Tasks) (c : Command) : Prop :=
  ∀ q, s.reaps c = some q → (∀ x, ¬Zombie s x q) ∨
    ∀ i, s.processes 1 = some i → ∀ t, ¬Asleep s t i

theorem NoLost.step (h : NoLost s) (hd : Done c s s') (hc : Careful s c) : NoLost s' := by
  intro t p x ht hx
  cases hd.effect with
  | calm _ he => exact h t p x (he.asleep t p ht) (he.zombie x p hx)
  | @ends q _ he =>
    obtain ⟨ht, hne⟩ := he.asleep t p ht
    rcases he.zombie x p hx with hx | rfl
    · exact h t p x ht hx
    · exact hne rfl
  | sleeps _ he =>
    have hx := he.zombie x p hx
    rcases he.asleep t p ht with ht | rfl
    · exact h t p x ht hx
    · exact he.childless x hx
  | @reaps q hq he =>
    have ht := he.asleep t p ht
    rcases he.zombie x p hx with hx | ⟨hinit, hx⟩
    · exact h t p x ht hx
    · rcases hc q hq with hno | hno
      · exact hno x hx
      · exact hno p hinit t ht

theorem NoLost.boot {p t : Nat} {d : Words} (h : boot p t d = .ok s) : NoLost s := by
  have hinv := boot_inv h
  rintro u x q ⟨th, hth, -, hc, hne, -⟩
  obtain ⟨th', c, hth', -, hc'⟩ := hinv.sane.watch.own u hne
  unfold Tasks.boot at h
  simp only [newProcess, newThread, addP, addT, addThread, getG, process, setProcess, init, thread,
    empty, put_self, put_put, ok_bind, pure, Except.pure, decide_true, assert_true] at h
  obtain ⟨tids₀, -, h⟩ := bind_eq_ok.mp h
  obtain ⟨tids₁, -, h⟩ := bind_eq_ok.mp h
  obtain rfl := Except.ok.inj h
  simp [Waits.idle] at hne

/-- A process that was returned exists only if it has been built again. -/
def Reborn (trace : List Event) (s : Tasks) : Prop :=
  ∀ q l₁ l₂, trace = l₁ ++ .returned q :: l₂ → s.processAt q ≠ none → .born q ∈ l₂

theorem eq_of_snoc {l l₁ l₂ : List Event} {e e' : Event} (h : l ++ [e] = l₁ ++ e' :: l₂) :
    (l₂ = [] ∧ e = e' ∧ l = l₁) ∨ ∃ l₂', l₂ = l₂' ++ [e] ∧ l = l₁ ++ e' :: l₂' := by
  rcases List.eq_nil_or_concat l₂ with rfl | ⟨l₂', e'', rfl⟩
  · obtain ⟨rfl, heq⟩ := List.append_inj' h rfl
    exact .inl ⟨rfl, List.singleton_inj.mp heq, rfl⟩
  · rw [List.concat_eq_append] at h ⊢
    rw [← List.cons_append, ← List.append_assoc] at h
    obtain ⟨rfl, heq⟩ := List.append_inj' h rfl
    obtain rfl := List.singleton_inj.mp heq
    exact .inr ⟨l₂', rfl, rfl⟩

theorem Reborn.born (h : Reborn trace s) {p : Nat}
    (hlived : ∀ x, s'.processAt x ≠ none → s.processAt x ≠ none ∨ p = x) :
    Reborn (trace ++ [.born p]) s' := by
  intro q l₁ l₂ heq hq
  rcases eq_of_snoc heq with ⟨-, habs, -⟩ | ⟨l₂', rfl, rfl⟩
  · cases habs
  · rcases hlived q hq with hq | rfl
    · exact List.mem_append_left _ (h q l₁ l₂' rfl hq)
    · exact List.mem_append_right _ List.mem_cons_self

theorem Reborn.returned (h : Reborn trace s) (hgone : s'.processAt q = none)
    (hlived : ∀ x, s'.processAt x ≠ none → s.processAt x ≠ none) :
    Reborn (trace ++ [.returned q]) s' := by
  intro x l₁ l₂ heq hx
  rcases eq_of_snoc heq with ⟨-, hxq, -⟩ | ⟨l₂', rfl, rfl⟩
  · obtain rfl := Event.returned.inj hxq
    exact absurd hgone hx
  · exact List.mem_append_left _ (h x l₁ l₂' rfl (hlived x hx))

theorem ReturnedOnce.returned (h : ReturnedOnce trace) (hr : Reborn trace s)
    (hq : s.processAt q ≠ none) : ReturnedOnce (trace ++ [.returned q]) := by
  intro x l₁ l₂ l₃ heq
  rcases eq_of_snoc heq with ⟨-, hxq, rfl⟩ | ⟨l₃', -, rfl⟩
  · obtain rfl := Event.returned.inj hxq
    exact hr q l₁ l₂ rfl hq
  · exact h x l₁ l₂ l₃' rfl

theorem ReturnedOnce.born (h : ReturnedOnce trace) (p : Nat) : ReturnedOnce (trace ++ [.born p]) := by
  intro x l₁ l₂ l₃ heq
  rcases eq_of_snoc heq with ⟨-, hxq, -⟩ | ⟨l₃', -, rfl⟩
  · cases hxq
  · exact h x l₁ l₂ l₃' rfl

theorem Run.once (h : Run C trace s) : Reborn trace s ∧ ReturnedOnce trace := by
  induction h with
  | boot h =>
    refine ⟨fun q l₁ l₂ heq _ => ?_, fun q l₁ l₂ l₃ heq => ?_⟩
    · rcases eq_of_snoc (l := []) heq with ⟨-, habs, -⟩ | ⟨l₂', -, habs⟩
      · cases habs
      · simp at habs
    · rcases eq_of_snoc (l := []) heq with ⟨-, habs, -⟩ | ⟨l₂', -, habs⟩
      · cases habs
      · simp at habs
  | @step trace s s' c hr hf _ h ih =>
    obtain ⟨hreborn, honce⟩ := ih
    have hd := (apply_spec hr.inv hf).of_ok h
    have hborn := hd.born
    cases hreaps : s.reaps c with
    | none =>
      cases hb : builds c with
      | none =>
        rw [hb] at hborn
        simp only [events, hreaps, hb, Option.toList_none, List.map_nil, List.append_nil]
        exact ⟨fun q l₁ l₂ heq hq => hreborn q l₁ l₂ heq ((hborn q hq).resolve_right (by simp)), honce⟩
      | some p =>
        rw [hb] at hborn
        simp only [events, hreaps, hb, Option.toList_none, Option.toList_some, List.map_nil,
          List.map_cons, List.append_nil]
        exact ⟨hreborn.born fun x hx => (hborn x hx).imp_right Option.some.inj, honce.born p⟩
    | some q =>
      have hb : builds c = none := by
        cases c <;> first | rfl | cases hreaps
      rw [hb] at hborn
      simp only [events, hreaps, hb, Option.toList_none, Option.toList_some, List.map_nil,
        List.map_cons, List.nil_append]
      have heff : Reaps q s s' := by
        cases hd.effect with
        | calm hn _ => exact absurd (hreaps.symm.trans hn) (by simp)
        | ends hn _ => exact absurd (hreaps.symm.trans hn) (by simp)
        | sleeps hn _ => exact absurd (hreaps.symm.trans hn) (by simp)
        | reaps hq he => exact Option.some.inj (hreaps.symm.trans hq) ▸ he
      exact ⟨hreborn.returned heff.gone fun x hx => (hborn x hx).resolve_right (by simp),
        honce.returned hreborn heff.lived⟩

/-- In every run in which each reaping is careful no child is lost, and each is returned once. -/
theorem run_noLost (h : Run Careful trace s) : NoLost s ∧ ReturnedOnce trace := by
  refine ⟨?_, h.once.2⟩
  induction h with
  | boot h => exact .boot h
  | step hr hf hC h ih => exact ih.step ((apply_spec hr.inv hf).of_ok h) hC

/-- A process whose only zombie has no children is reaped carefully. -/
theorem Careful.of_no_sons (h : Inv s)
    (hc : (s.reaps c).all (fun q => (s.processAt q).any fun pro => pro.sons.isEmpty) = true) :
    Careful s c := by
  intro q hq
  rw [hq, Option.all_some] at hc
  refine .inl fun x hx => ?_
  obtain ⟨pro, hpro, hempty⟩ := (Option.any_eq_true _ _).mp hc
  obtain ⟨son, hson, hpar, -⟩ := hx
  exact OrderedSet.isEmpty_iff.mp hempty x
    ((h.sane.family.sons q _ (kinAt_eq hpro) x).mpr ⟨son.kin, kinAt_eq hson, hpar⟩)

set_option maxRecDepth 10000 in
/-- Init sleeps in a wait for any child, is woken by the end of one and reaps it. -/
theorem run_noLost_small : ∃ trace s, Run Careful trace s ∧ NoLost s ∧ ReturnedOnce trace ∧
    .returned 20 ∈ trace := by
  obtain ⟨trace, s, hrun, hP⟩ := exists_run
    (fun s c => (s.reaps c).all fun q => (s.processAt q).any fun pro => pro.sons.isEmpty) 10 10
    (fun _ => 0#64) [.run, .fork 20 20, .wait 0, .run, .exit 7, .run]
    (fun r => decide (.returned 20 ∈ r.1)) (fun _ _ => Careful.of_no_sons) (by decide +kernel)
  have hmem := List.mem_of_mem_tail (of_decide_eq_true hP)
  exact ⟨trace, s, hrun, (run_noLost hrun).1, (run_noLost hrun).2, hmem⟩

/-- Init has a child, which has a child, which has a child. Init waits for any child, the last two
end, and the child of init reaps its own. -/
def losing : List Command :=
  [.run, .fork 20 20, .preempt, .run, .fork 30 30, .preempt, .run, .wait 0, .run, .fork 40 40,
    .preempt, .run, .preempt, .run, .run, .exit 7, .run, .exit 8, .run, .wait 0]

set_option maxRecDepth 10000 in
theorem lost_child : ∃ trace s, Run (fun _ _ => True) trace s ∧ s.processes 1 = some 10 ∧
    Asleep s 10 10 ∧ Zombie s 40 10 := by
  obtain ⟨trace, s, hrun, hP⟩ := exists_run (C := fun _ _ => True) (fun _ _ => true) 10 10
    (fun _ => 0#64) losing
    (fun r => decide (r.2.processes 1 = some 10) &&
      ((r.2.threadAt 10).any fun th => th.process = 10 && th.checker = some .any) &&
      decide (r.2.waits.waiting 10 ≠ ∅ ∧ r.2.waits.waited 10 = none) &&
      ((r.2.processAt 40).any fun pro => pro.parent = some 10 && pro.terminated))
    (fun _ _ _ _ => trivial) (by decide +kernel)
  simp only [Bool.and_eq_true, Option.any_eq_true, decide_eq_true_eq] at hP
  obtain ⟨⟨⟨hinit, th, hth, hproc, hc⟩, hwait⟩, pro, hpro, hpar, hterm⟩ := hP
  exact ⟨trace, s, hrun, hinit, ⟨th, hth, hproc, hc, hwait⟩, pro, hpro, hpar, hterm⟩

end Tasks

end SupOS
