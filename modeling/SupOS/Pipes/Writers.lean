import SupOS.Pipes.Readers

/-! Threads that are blocked on pipes in the runs that keep a writer for them. -/

namespace SupOS

open Lib

theorem Kernel.Holds.leaves {s : Kernel} {o : Nat} {c : Kernel.Call} (h : s.Holds o)
    (hkilled : s.killed c = none) (htaken : ∀ p v, s.taken p v c = []) : s.Leaves c o := by
  obtain ⟨p, v, hlive, hv, hpos⟩ := h
  refine ⟨p, v, hlive, hv, by simp [hkilled], ?_⟩
  rw [htaken]
  exact hpos

/-- What a process has a descriptor of exists. -/
theorem Kernel.Holds.kept {s : Kernel} {o : Nat} (h : s.Holds o) (hi : s.Inv) :
    o ∉ s.fds.owners.deleted := by
  obtain ⟨p, v, -, hv, hpos⟩ := h
  obtain ⟨desc, hdesc, ho⟩ := sharing_pos.mp hpos
  have hlive := hi.slot hv hdesc ho
  obtain ⟨L, hB⟩ := hi.books
  intro hdeleted
  rw [hB.balanced.count, ((hB.balanced.deleted o).mp hdeleted).2] at hlive
  exact hlive rfl

namespace Pipes

variable {s s' : Pipes} {c : Command} {t q o : Nat}

/-- A process that has not terminated has a descriptor of the writing end. -/
def HasWriter (s : Pipes) (q : Nat) : Prop := ∃ o, s.ends o = some (.inp, q) ∧ s.kernel.Holds o

/-- The command leaves such a descriptor. -/
def LeavesWriter (s : Pipes) (c : Command) (q : Nat) : Prop :=
  ∃ o, s.ends o = some (.inp, q) ∧ s.kernel.Leaves c.call.toKernel o

/-- A read of the pipe that would block has somebody to wait for. -/
def Served (s : Pipes) (q count : Nat) : Prop :=
  ∀ ps, s.pipes q = some ps → ps.deque = [] ∨ count = 0 → ps.eof = false → s.HasWriter q

/-- No thread goes to sleep on a pipe that no live process can write to, and no command takes the last
such process from a thread that is blocked. -/
structure Attended (s : Pipes) (c : Command) : Prop where
  steady : s.Steady c
  read : ∀ fd count, c.call = .read fd count → ∀ t th, s.kernel.tasks.current = some t →
    s.kernel.tasks.threadAt t = some th → ∀ q, s.endOf th.process fd = some (.out, q) →
      s.Served q count
  retry : c.call = .task .run → ∀ t p fd, s.kernel.retried = some (t, p, fd) →
    ∀ q, s.endOf p fd = some (.out, q) → s.Served q (s.counts t)
  leaves : ∀ t q, s.Blocked t q → s.HasWriter q → s.LeavesWriter c q

/-- Someone can still write for each thread that is blocked. -/
def Manned (s : Pipes) : Prop := ∀ t q, s.Blocked t q → s.HasWriter q

theorem HasWriter.of_same (h : s.HasWriter q) (hends : s'.ends = s.ends)
    (htasks : s'.kernel.tasks = s.kernel.tasks) (hfds : s'.kernel.fds = s.kernel.fds) :
    s'.HasWriter q := by
  obtain ⟨o, ho, hholds⟩ := h
  refine ⟨o, hends ▸ ho, ?_⟩
  unfold Kernel.Holds
  rw [htasks, hfds]
  exact hholds

/-- A thread falls asleep on a pipe that was there before. -/
theorem Sound.ends_before (h : Sound s) (h' : Sound s') (hp : Carried s s')
    (hcount : s.kernel.fds.owners.count o ≠ none) (ho : s'.ends o = some (.out, q)) :
    s.ends o = some (.out, q) := by
  rcases hp.ends o _ ho with hbefore | ⟨hmade, -⟩
  · exact hbefore
  · have hplace : o = q := h'.pipes.place o _ ho
    obtain ⟨L, hB⟩ := h.kernel.books
    have hlt : o < s.kernel.fds.owners.made := by
      refine hB.balanced.made o (Nat.pos_of_ne_zero fun hzero => ?_)
      rw [hB.balanced.count, hzero] at hcount
      exact hcount rfl
    simp only at hmade
    omega

theorem Manned.step (hm : Manned s) (h : Sound s) (ha : s.Admits c) (hc : s.Attended c)
    (hs : s.apply c = .ok s') : Manned s' := by
  have h' := h.step ha hs
  have hadmits := ha.1
  -- A writer that the kernel's part leaves is still there.
  have hkept : ∀ {kc : Kernel.Command} {q : Nat}, s.kernel.apply kc = .ok s'.kernel →
      s.kernel.Admits kc → (∀ o ∉ s'.kernel.fds.owners.deleted, o < s.kernel.fds.owners.made →
        s'.ends o = s.ends o) →
      (∃ o, s.ends o = some (.inp, q) ∧ s.kernel.Leaves kc.call o) → s'.HasWriter q := by
    intro kc q hk ha hends ⟨o, ho, hleaves⟩
    have hholds := Kernel.apply_leaves h.kernel ha hleaves hk
    have hlt : o < s.kernel.fds.owners.made := by
      by_contra hge
      rw [h.pipes.bound o (Nat.not_lt.mp hge)] at ho
      cases ho
    exact ⟨o, (hends o (hholds.kept h'.kernel) hlt).trans ho, hholds⟩
  have hcalm : ∀ {k : Kernel.Command} {q : Nat}, s.kernel.apply k = .ok s'.kernel →
      s.kernel.Admits k → s'.ends = s.ends → s.kernel.killed k.call = none →
      (∀ p v, s.kernel.taken p v k.call = []) → s.HasWriter q → s'.HasWriter q := by
    intro kc q hk ha hends hkilled htaken ⟨o, ho, hholds⟩
    exact hkept hk ha (fun _ _ _ => by rw [hends]) ⟨o, ho, hholds.leaves hkilled htaken⟩
  rintro u q ⟨x, hu, hend⟩
  cases apply_does hs with
  | @read fd count t th a hcall hcurrent hth hanswer hk hp hends =>
    rw [hcall] at hadmits
    rw [hends] at hend
    refine hcalm hk (k := ⟨c.room, a, .read fd⟩) hadmits hends rfl (fun _ _ => rfl) ?_
    cases Kernel.apply_sleeps (c := ⟨c.room, a, .read fd⟩) h.kernel hadmits hk hu with
    | before hold => exact hm u q ⟨x, hold, hend⟩
    | read hfd hcurrent' hth' hblocks hv hdesc ho =>
      obtain rfl := Kernel.Call.read.inj hfd
      obtain rfl := Option.some.inj (hcurrent.symm.trans hcurrent')
      obtain rfl := Option.some.inj (hth.symm.trans hth')
      have hof : s.endOf th.process fd = some (.out, q) := by
        rw [endOf_object]
        simp [object, descriptor, hv, h.kernel.index hv hdesc, hdesc, ho, hend]
      obtain ⟨ps, hps, hnothing, heof⟩ := h.answer_blocks hof hanswer hblocks
      exact hc.read fd count hcall t th hcurrent hth q hof ps hps hnothing heof
    | again hrun => cases hrun
  | @retry t p fd a hcall hretried hanswer hk hp hends =>
    rw [hcall] at hadmits
    rw [hends] at hend
    refine hcalm hk (k := ⟨c.room, a, .task .run⟩) hadmits hends rfl (fun _ _ => rfl) ?_
    cases Kernel.apply_sleeps (c := ⟨c.room, a, .task .run⟩) h.kernel hadmits hk hu with
    | before hold => exact hm u q ⟨x, hold, hend⟩
    | read hfd => cases hfd
    | again _ hretried' hblocks ho =>
      obtain ⟨rfl, rfl, rfl⟩ : _ ∧ _ ∧ _ := by simpa using hretried.symm.trans hretried'
      have hobject := hc.steady hcall (t, p, fd) hretried x
        (by rw [ho]; exact Finset.mem_singleton_self x)
      have hof : s.endOf p fd = some (.out, q) := by
        rw [endOf_object, hobject]
        exact hend
      obtain ⟨ps, hps, hnothing, heof⟩ := h.answer_blocks hof hanswer hblocks
      exact hc.retry hcall t p fd hretried q hof ps hps hnothing heof
  | write _ hw =>
    obtain ⟨hold, -⟩ := hw.asleep h hu
    obtain ⟨ps, -, -, -, -, hkernel⟩ := hw.pipes
    have hsame : s'.kernel.tasks = s.kernel.tasks ∧ s'.kernel.fds = s.kernel.fds := by
      rw [hkernel]
      cases ps.out <;> exact ⟨rfl, rfl⟩
    exact (hm u q ⟨x, hold, hw.ends ▸ hend⟩).of_same hw.ends hsame.1 hsame.2
  | refused _ hsame =>
    subst hsame
    exact hm u q ⟨x, hu, hend⟩
  | other hread hwrite hrun hk hp hends =>
    have hold := h.asleep_before hread hwrite hrun hadmits hk hu
    have hend₀ := h.ends_before h' hp (h.kernel.streams u x (h.kernel.enlisted hold)) hend
    have hblocked : s.Blocked u q := ⟨x, hold, hend₀⟩
    exact hkept hk hadmits hends (hc.leaves u q hblocked (hm u q hblocked))

/-- The command leaves a descriptor of the object 3 to the process `p`. -/
def keepsAt (s : Pipes) (c : Command) (p : Nat) : Bool :=
  match s.kernel.tasks.processAt p, s.kernel.fds.tables.lookup p with
  | some pro, some v => !pro.terminated && decide (s.kernel.killed c.call.toKernel ≠ some p) &&
    decide (sharing (s.kernel.taken p v c.call.toKernel) 3 < sharing v.data 3)
  | _, _ => false

theorem keepsAt_leaves {p : Nat} (h : s.keepsAt c p = true) : s.kernel.Leaves c.call.toKernel 3 := by
  unfold keepsAt at h
  split at h
  · rename_i pro v hpro hv
    simp only [Bool.and_eq_true, decide_eq_true_eq, Bool.not_eq_true'] at h
    exact ⟨p, v, ⟨pro, hpro, h.1.1⟩, hv, h.1.2, h.2⟩
  · cases h

/-- The pipe 2, with its ends 2 and 3, is the only one, and one of two processes can write to it, or
else nobody reads. -/
def attends (s : Pipes) (c : Command) : Bool :=
  decide (s.Steady c) &&
  decide (∀ q < s.kernel.fds.owners.made, s.ends q = some (.out, q) → q = 2) &&
  ([10, 30].any (s.keepsAt c) && decide (s.ends 3 = some (.inp, 2)) ||
    decide (s.kernel.reads.waitings 2 = ∅) && decide (s.kernel.retried = none) &&
      (match c.call with
      | .read .. => false
      | _ => true))

theorem attended_of_attends (h : Sound s) (hc : s.attends c = true) : s.Attended c := by
  simp only [attends, Bool.and_eq_true, Bool.or_eq_true, decide_eq_true_eq] at hc
  obtain ⟨⟨hsteady, honly⟩, hcase⟩ := hc
  have htwo : ∀ {q o : Nat}, s.ends o = some (.out, q) → q = 2 ∧ o = 2 := by
    intro q o ho
    obtain rfl : o = q := h.pipes.place o _ ho
    have hq := honly o (h.pipes.pipe_lt ho) ho
    exact ⟨hq, hq⟩
  have hof : ∀ {p fd q : Nat}, s.endOf p fd = some (.out, q) → q = 2 := by
    intro p fd q hend
    rw [endOf_object] at hend
    obtain ⟨o, -, ho⟩ := Option.bind_eq_some_iff.mp hend
    exact (htwo ho).1
  rcases hcase with ⟨hkeeps, hend⟩ | ⟨⟨hnobody, hretried⟩, hread⟩
  · obtain ⟨p, -, hp⟩ := List.any_eq_true.mp hkeeps
    have hleaves := keepsAt_leaves hp
    have hwriter : s.HasWriter 2 := by
      obtain ⟨p, v, hlive, hv, -, hlt⟩ := hleaves
      exact ⟨3, hend, p, v, hlive, hv, by omega⟩
    refine ⟨hsteady, fun _ _ _ _ _ _ _ q hq => ?_, fun _ _ _ _ _ q hq => ?_, fun t q hb _ => ?_⟩
    · obtain rfl := hof hq
      exact fun _ _ _ _ => hwriter
    · obtain rfl := hof hq
      exact fun _ _ _ _ => hwriter
    · obtain ⟨o, -, ho⟩ := hb
      obtain ⟨rfl, -⟩ := htwo ho
      exact ⟨3, hend, hleaves⟩
  · refine ⟨hsteady, fun fd count hcall => ?_, fun _ t p fd hr => ?_, fun t q hb _ => ?_⟩
    · rw [hcall] at hread
      cases hread
    · rw [hretried] at hr
      cases hr
    · obtain ⟨o, hasleep, ho⟩ := hb
      obtain ⟨-, rfl⟩ := htwo ho
      have hmem := h.kernel.enlisted hasleep
      rw [hnobody] at hmem
      exact absurd hmem (Finset.notMem_empty t)

end Pipes

end SupOS
