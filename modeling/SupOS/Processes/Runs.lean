import SupOS.Processes.Tree

/-! Runs of the system from the boot on: the tree of processes stays consistent, and the numbers that
are marked free are those that nothing has. -/

namespace SupOS

open Lib

namespace Tasks

variable {s s' : Tasks} {p q t tid pid : Nat} {pro : Process} {th : Thread}

/-- What a run tells of the processes, by their addresses. -/
inductive Event
  | born (p : Nat)
  | returned (q : Nat)
  deriving DecidableEq, Repr

/-- The process that a command builds, and the child that it returns to a parent. -/
def events (s : Tasks) (c : Command) : List Event :=
  (builds c).toList.map .born ++ (s.reaps c).toList.map .returned

/-- The events and the state after commands that each meet the condition. -/
inductive Run (C : Tasks → Command → Prop) : List Event → Tasks → Prop
  | boot {p t : Nat} {d : Words} {s : Tasks} (h : boot p t d = .ok s) : Run C [.born p] s
  | step {trace : List Event} {s s' : Tasks} {c : Command} (hr : Run C trace s) (hf : s.Fresh c)
    (hC : C s c) (h : s.apply c = .ok s') : Run C (trace ++ s.events c) s'

theorem unused_boot {b tids tids' : Bitset} {threads processes : Nat → Option Nat}
    {groups : Nat → Option Pointers} (hb : b.size = 0x1000 * 8)
    (h0 : b.fill.unset 0 = .ok tids) (h1 : tids.unset 1 = .ok tids')
    (hmaps : ∀ k, k ≠ 1 → threads k = none ∧ processes k = none ∧ groups k = none)
    (hthread : threads 1 ≠ none) : Unused tids' threads processes groups := by
  obtain ⟨-, hw0⟩ := Bitset.write_spec h0
  obtain ⟨-, hw1⟩ := Bitset.write_spec h1
  have hsize : tids'.size = 0x1000 * 8 := by
    rw [hw1.size, hw0.size, Bitset.size_fill, hb]
  refine ⟨hsize, ?_, fun k hk hlt => ?_, fun k hk => hmaps k (by omega)⟩
  · rw [hw1.outside 0 (by decide)]
    exact hw0.inside 0 rfl
  · by_cases hk1 : k = 1
    · subst hk1
      rw [hw1.inside 1 rfl]
      simp [hthread]
    · rw [hw1.outside k hk1, hw0.outside k hk, Bitset.bit_fill _ (by omega)]
      simp [hmaps k hk1]

theorem boot_inv {d : Words} (h : boot p t d = .ok s) : Inv s := by
  unfold boot at h
  simp only [newProcess, newThread, addP, addT, addThread, getG, process, setProcess, init, thread,
    empty, put_self, put_put, ok_bind, pure, Except.pure, decide_true, assert_true] at h
  obtain ⟨tids₀, h0, h⟩ := bind_eq_ok.mp h
  obtain ⟨tids₁, h1, h⟩ := bind_eq_ok.mp h
  obtain rfl := Except.ok.inj h
  have hsingle : ∀ {α : Type} {i j : Nat} {v : α}, j ≠ i → put (fun _ => none) i (some v) j = none :=
    fun hji => put_of_ne _ _ hji
  have hone : ∀ {α : Type} {i j : Nat} {v w : α}, put (fun _ => none) i (some v) j = some w →
      j = i ∧ v = w := by
    intro α i j v w hj
    by_cases hji : j = i
    · exact ⟨hji, by simpa [hji] using hj⟩
    · rw [hsingle hji] at hj
      cases hj
  set pro : Process := ⟨1, 1, OrderedSet.empty.insert t, none, .empty, false, false, 0⟩ with hpro
  have hkin : ∀ x k, Option.map Process.kin (put (fun _ => none) p (some pro) x) = some k →
      x = p ∧ k = pro.kin := by
    intro x k hk
    obtain ⟨pro', hpro', rfl⟩ := Option.map_eq_some_iff.mp hk
    obtain ⟨hx, rfl⟩ := hone hpro'
    exact ⟨hx, rfl⟩
  have hself : Option.map Process.kin (put (fun _ => none) p (some pro) p) = some pro.kin := by
    rw [put_self, Option.map_some]
  refine ⟨⟨⟨fun u th hu => ?_, fun x u hu => ?_, fun tid u => ?_, fun u th x k hu hk _ => ?_⟩,
    ⟨fun pid x => ?_, fun x k hk y => ?_, ?_, fun i x k hi hk => ?_, fun x k hk => ?_, ?_⟩,
    ⟨⟨fun u w hu => ?_, fun u w hu => ?_, fun u w hu => ?_⟩, fun u hu => ?_⟩, ?_,
    fun u hu => by cases hu⟩, fun x prox hx hterm => ?_⟩
  · obtain ⟨rfl, rfl⟩ := hone hu
    exact ⟨⟨pro, by simp, OrderedSet.mem_insert.mpr (.inl rfl)⟩, by simp [kinAt]⟩
  · obtain ⟨prox, hprox, hmem⟩ := hu
    obtain ⟨rfl, rfl⟩ := hone hprox
    rcases OrderedSet.mem_insert.mp hmem with rfl | hmem
    · exact ⟨⟨1, _, none⟩, by simp, rfl⟩
    · exact absurd hmem (OrderedSet.notMem_empty u)
  · constructor
    · intro hu
      obtain ⟨rfl, rfl⟩ := hone hu
      exact ⟨⟨1, p, none⟩, by simp, rfl⟩
    · rintro ⟨th, hth, rfl⟩
      obtain ⟨rfl, rfl⟩ := hone hth
      simp
  · obtain ⟨rfl, rfl⟩ := hone hu
    exact (hkin x k hk).1.symm
  · constructor
    · intro hx
      obtain ⟨rfl, rfl⟩ := hone hx
      exact ⟨pro.kin, hself, rfl⟩
    · rintro ⟨k, hk, rfl⟩
      obtain ⟨rfl, rfl⟩ := hkin x k hk
      simp [hpro, Process.kin]
  · obtain ⟨rfl, rfl⟩ := hkin x k hk
    refine ⟨fun hy => absurd hy (OrderedSet.notMem_empty y), ?_⟩
    rintro ⟨son, hson, hpar⟩
    obtain ⟨rfl, rfl⟩ := hkin y son hson
    cases hpar
  · exact ⟨p, pro.kin, by simp, hself, rfl⟩
  · have hip : p = i := by simpa using hi
    obtain ⟨rfl, rfl⟩ := hkin x k hk
    subst hip
    exact .root
  · obtain ⟨rfl, rfl⟩ := hkin x k hk
    rfl
  · refine ⟨OrderedSet.empty.insert p, by simp, fun x k hk => ?_⟩
    exact OrderedSet.mem_insert.mpr (.inl (hkin x k hk).1)
  · simp [Waits.idle] at hu
  · simp [Waits.idle] at hu
  · simp [Waits.idle] at hu
  · simp [Waits.idle] at hu
  · refine unused_boot rfl h0 h1 (fun k hk => ⟨hsingle hk, hsingle hk, hsingle hk⟩) ?_
    simp
  · obtain ⟨-, rfl⟩ := hone hx
    cases hterm

variable {C : Tasks → Command → Prop} {trace : List Event}

theorem Run.inv (h : Run C trace s) : Inv s := by
  induction h with
  | boot h => exact boot_inv h
  | step _ hf _ h ih => exact ((apply_spec ih hf).of_ok h).inv

/-- The state after the commands and their events, as long as each can be and is allowed by
`check`. -/
def follow (check : Tasks → Command → Bool) (s : Tasks) : List Command → Option (List Event × Tasks)
  | [] => some ([], s)
  | c :: cs =>
    if s.Fresh c ∧ check s c = true then
      match s.apply c with
      | .ok s' => (follow check s' cs).map fun r => (s.events c ++ r.1, r.2)
      | .error _ => none
    else none

theorem Run.follow {check : Tasks → Command → Bool}
    (hcheck : ∀ s c, Inv s → check s c = true → C s c) (h : Run C trace s) {cs : List Command}
    {r : List Event × Tasks} (hr : follow check s cs = some r) : Run C (trace ++ r.1) r.2 := by
  induction cs generalizing trace s r with
  | nil =>
    obtain rfl := Option.some.inj hr
    rwa [List.append_nil]
  | cons c cs ih =>
    unfold Tasks.follow at hr
    split at hr
    · rename_i hc
      split at hr
      · rename_i s' hs'
        obtain ⟨r', hr', rfl⟩ := Option.map_eq_some_iff.mp hr
        rw [← List.append_assoc]
        exact ih (h.step hc.1 (hcheck s c h.inv hc.2) hs') hr'
      · cases hr
    · cases hr

/-- A run whose last state and events meet `P`. -/
theorem exists_run (check : Tasks → Command → Bool) (p t : Nat) (d : Words) (cs : List Command)
    (P : List Event × Tasks → Bool) (hcheck : ∀ s c, Inv s → check s c = true → C s c)
    (h : ((boot p t d).toOption.bind fun s => follow check s cs).any P = true) :
    ∃ trace s, Run C trace s ∧ P (trace.tail, s) = true := by
  cases hb : boot p t d with
  | error e =>
    rw [hb] at h
    cases h
  | ok s =>
    rw [hb] at h
    obtain ⟨r, hr, hP⟩ := (Option.any_eq_true _ _).mp h
    exact ⟨_, _, (Run.boot hb).follow hcheck hr, hP⟩

/-- The parents of the processes. -/
def parentAt (s : Tasks) : Nat → Option Nat := parentOf s.kinAt

/-- The tree of processes and their threads between two commands. -/
structure Consistent (s : Tasks) : Prop where
  sons : ∀ p q par, s.processAt q = some par →
    (p ∈ par.sons ↔ ∃ pro, s.processAt p = some pro ∧ pro.parent = some q)
  mapped : ∀ pid p, s.processes pid = some p ↔ ∃ pro, s.processAt p = some pro ∧ pro.pid = pid
  parent : ∀ p pro, s.processAt p = some pro → pro.pid ≠ 1 → ∃ q par,
    pro.parent = some q ∧ s.processAt q = some par ∧ s.processes par.pid = some q
  rooted : ∃ i, s.processes 1 = some i ∧
    ∀ p pro, s.processAt p = some pro → Rooted s.parentAt i p
  acyclic : ∀ p, ¬Relation.TransGen (ChildOf s.parentAt) p p
  terminated : ∀ p pro, s.processAt p = some pro → pro.terminated = true →
    (∀ t, t ∉ pro.threads) ∧ ∀ t th, s.threadAt t = some th → th.process ≠ p
  threads : ∀ p pro t, s.processAt p = some pro → (t ∈ pro.threads ↔
    ∃ th, s.threadAt t = some th ∧ th.process = p ∧ s.threads th.tid = some t)

theorem Inv.consistent (h : Inv s) : Consistent s := by
  have hparent : ∀ p q, (∃ pro, s.processAt p = some pro ∧ pro.parent = some q) ↔
      ∃ k, s.kinAt p = some k ∧ k.parent = some q := by
    intro p q
    constructor
    · rintro ⟨pro, hpro, hpar⟩
      exact ⟨pro.kin, kinAt_eq hpro, hpar⟩
    · rintro ⟨k, hk, hpar⟩
      obtain ⟨pro, hpro, rfl⟩ := kinAt_eq_some.mp hk
      exact ⟨pro, hpro, hpar⟩
  have hmapped : ∀ pid p, s.processes pid = some p ↔
      ∃ pro, s.processAt p = some pro ∧ pro.pid = pid := by
    intro pid p
    rw [h.sane.family.mapped]
    constructor
    · rintro ⟨k, hk, hpid⟩
      obtain ⟨pro, hpro, rfl⟩ := kinAt_eq_some.mp hk
      exact ⟨pro, hpro, hpid⟩
    · rintro ⟨pro, hpro, hpid⟩
      exact ⟨pro.kin, kinAt_eq hpro, hpid⟩
  refine ⟨fun p q par hq => ?_, hmapped, fun p pro hp hpid => ?_, ?_, h.sane.family.acyclic,
    fun p pro hp hterm => ⟨h.quiet p pro hp hterm, ?_⟩, fun p pro t hp => ?_⟩
  · rw [hparent]
    exact h.sane.family.sons q _ (kinAt_eq hq) p
  · obtain ⟨q, par, hpar, hq⟩ := h.sane.parent hp hpid
    exact ⟨q, par, hpar, hq, (hmapped par.pid q).mpr ⟨par, hq, rfl⟩⟩
  · obtain ⟨i, ki, hi, -⟩ := h.sane.family.init
    exact ⟨i, hi, fun p pro hp => h.sane.family.rooted i p _ hi (kinAt_eq hp)⟩
  · rintro t th hth rfl
    obtain ⟨⟨pro', hpro', hmem⟩, -⟩ := h.sane.owner hth
    obtain rfl : pro = pro' := Option.some.inj (hp.symm.trans hpro')
    exact h.quiet _ pro hp hterm t hmem
  · constructor
    · intro hmem
      obtain ⟨th, hth, hproc⟩ := h.sane.crew.listed p t ⟨pro, hp, hmem⟩
      exact ⟨th, hth, hproc, (h.sane.crew.mapped th.tid t).mpr ⟨th, hth, rfl⟩⟩
    · rintro ⟨th, hth, rfl, -⟩
      obtain ⟨⟨pro', hpro', hmem⟩, -⟩ := h.sane.owner hth
      obtain rfl : pro = pro' := Option.some.inj (hp.symm.trans hpro')
      exact hmem

/-- The tree of processes is consistent in every run. -/
theorem run_consistent (h : Run C trace s) : Consistent s := h.inv.consistent

/-- Init has a child, which has a child that ends before it does; init then reaps the first one. -/
def orphaning : List Command :=
  [.run, .fork 20 20, .preempt, .run, .fork 30 30, .preempt, .run, .preempt, .run, .clone 31,
    .texit 5, .run, .preempt, .run, .preempt, .run, .exit 6, .run, .exit 7, .run, .wait 0]

set_option maxRecDepth 10000 in
theorem run_consistent_orphaning : ∃ trace s, Run (fun _ _ => True) trace s ∧ Consistent s ∧
    s.processAt 20 = none ∧ (s.processAt 30).isSome = true := by
  obtain ⟨trace, s, hrun, hP⟩ := exists_run (C := fun _ _ => True) (fun _ _ => true) 10 10
    (fun _ => 0#64) orphaning
    (fun r => (r.2.processAt 20).isNone && (r.2.processAt 30).isSome)
    (fun _ _ _ _ => trivial) (by decide +kernel)
  rw [Bool.and_eq_true, Option.isNone_iff_eq_none] at hP
  exact ⟨trace, s, hrun, run_consistent hrun, hP⟩

/-- Which numbers are free, and that a fresh number is a free one. -/
structure Numbered (s : Tasks) : Prop where
  free : ∀ k, k < 0x1000 * 8 → (s.tids.bit k = true ↔
    k ≠ 0 ∧ s.threads k = none ∧ s.processes k = none ∧ s.groups k = none)
  bounds : ∀ k, 0x1000 * 8 ≤ k → s.threads k = none ∧ s.processes k = none ∧ s.groups k = none
  fresh : ∀ k s', s.getFreshTid = .ok (k, s') →
    (∀ t th, s.threadAt t = some th → th.tid ≠ k) ∧
    (∀ p pro, s.processAt p = some pro → pro.pid ≠ k) ∧ s.groups k = none
  available : (∃ k, k < 0x1000 * 8 ∧ k ≠ 0 ∧ s.threads k = none ∧ s.processes k = none ∧
    s.groups k = none) → ∃ r, s.getFreshTid = .ok r

theorem Inv.numbered (h : Inv s) : Numbered s := by
  have hfree : ∀ k, k < 0x1000 * 8 → (s.tids.bit k = true ↔
      k ≠ 0 ∧ s.threads k = none ∧ s.processes k = none ∧ s.groups k = none) := by
    intro k hk
    by_cases h0 : k = 0
    · subst h0
      simp [h.sane.unused.bit_zero]
    · rw [h.sane.unused.free k h0 hk]
      simp [h0]
  refine ⟨hfree, fun k hk => h.sane.unused.none k (.inr hk), fun k s' hk => ?_, fun hex => ?_⟩
  · obtain ⟨b, -, hbounds, ⟨-, hbit⟩, -⟩ := (getFreshTid_spec h.sane.unused).of_ok hk
    obtain ⟨-, hthreads, hprocesses, hgroups⟩ := (hfree k hbounds.2).mp hbit
    refine ⟨fun t th hth htid => ?_, fun p pro hp hpid => ?_, hgroups⟩
    · have := (h.sane.crew.mapped k t).mpr ⟨th, hth, htid⟩
      rw [hthreads] at this
      cases this
    · have := (h.sane.family.mapped k p).mpr ⟨_, kinAt_eq hp, hpid⟩
      rw [hprocesses] at this
      cases this
  · obtain ⟨k, hk, hnone⟩ := hex
    have hbit := (hfree k hk).mpr hnone
    have hsize := h.sane.unused.size
    unfold getFreshTid
    cases hbsf : s.tids.bsf with
    | none =>
      have hclear : s.tids.bit k = false := Words.firstOne_none hbsf k (by omega)
      exact absurd (hbit.symm.trans hclear) (by simp)
    | some j =>
      obtain ⟨hj, -⟩ : j < 64 * (s.tids.size / 64) ∧ s.tids.bit j = true ∧ _ :=
        Words.firstOne_some hbsf
      have hmod : j % 2 ^ 16 = j := Nat.mod_eq_of_lt (by omega)
      obtain ⟨b, hb⟩ : ∃ b, s.tids.unset j = .ok b := Bitset.write_of_lt (by omega)
      simp only [Option.getD_some, hmod, hb, ok_bind]
      exact ⟨_, rfl⟩

/-- In every run the free numbers are those that nothing has. -/
theorem run_numbered (h : Run C trace s) : Numbered s := h.inv.numbered

set_option maxRecDepth 10000 in
/-- Number 2 is free again when its process has been reaped, and number 4 when its thread has
ended. -/
theorem run_numbered_orphaning : ∃ trace s, Run (fun _ _ => True) trace s ∧ Numbered s ∧
    s.tids.bit 2 = true ∧ s.tids.bit 3 = false ∧ s.tids.bit 4 = true := by
  obtain ⟨trace, s, hrun, hP⟩ := exists_run (C := fun _ _ => True) (fun _ _ => true) 10 10
    (fun _ => 0#64) orphaning
    (fun r => r.2.tids.bit 2 && !r.2.tids.bit 3 && r.2.tids.bit 4)
    (fun _ _ _ _ => trivial) (by decide +kernel)
  simp only [Bool.and_eq_true, Bool.not_eq_true'] at hP
  exact ⟨trace, s, hrun, run_numbered hrun, hP.1.1, hP.1.2, hP.2⟩

end Tasks

end SupOS
