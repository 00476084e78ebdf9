import SupOS.Pipes.Steps

/-! A thread that is blocked on a pipe: no bytes wait for it, and the end of the last writer does not
wake it. -/

namespace SupOS

open Lib

namespace Pipes

open Tasks (put put_self put_of_ne)

variable {s s' s'' : Pipes} {c : Command} {t p q fd count u x o : Nat} {a : Answer}
  {side : PipeEnd}

/-- The thread is blocked in a read of the pipe, and no wake-up is pending. -/
def Blocked (s : Pipes) (t q : Nat) : Prop := ∃ o, s.kernel.Asleep t o ∧ s.ends o = some (.out, q)

/-! ### Bytes -/

/-- A thread that is woken finds its descriptor on the stream that it has waited for. -/
def Steady (s : Pipes) (c : Command) : Prop :=
  c.call = .task .run → ∀ r ∈ s.kernel.retried, ∀ o ∈ s.kernel.reads.waiting r.1,
    s.object r.2.1 r.2.2 = some o

instance (s : Pipes) (c : Command) : Decidable (s.Steady c) :=
  inferInstanceAs (Decidable (c.call = .task .run → ∀ r ∈ s.kernel.retried,
    ∀ o ∈ s.kernel.reads.waiting r.1, s.object r.2.1 r.2.2 = some o))

/-- No bytes wait for a thread that is asleep. -/
def Drained (s : Pipes) : Prop :=
  ∀ t q, s.Blocked t q → ∀ ps, s.pipes q = some ps → ps.deque = [] ∨ s.counts t = 0

/-- Where the kernel puts nobody else to sleep, pipes that get no bytes stay empty. -/
theorem Drained.carried (h : Drained s) (hp : Carried s s')
    (hb : ∀ t o, s'.kernel.Asleep t o → s.kernel.Asleep t o ∧ s'.counts t = s.counts t ∨
      ∀ q, s'.ends o = some (.out, q) → ∀ ps, s'.pipes q = some ps → ps.deque = [] ∨ s'.counts t = 0) :
    Drained s' := by
  rintro t q ⟨o, hasleep, ho⟩ ps' hps'
  rcases hb t o hasleep with ⟨hold, hcount⟩ | hnew
  · rcases hp.ends o _ ho with hbefore | ⟨-, hempty⟩
    · rcases hp.pipes q ps' hps' with ⟨hnil, -⟩ | ⟨ps, hps, hsuffix, -⟩
      · exact .inl hnil
      · rcases h t q ⟨o, hold, hbefore⟩ ps hps with hnil | hzero
        · rw [hnil] at hsuffix
          exact .inl (List.suffix_nil.mp hsuffix)
        · exact .inr (hcount.trans hzero)
    · exact .inl (hempty ps' hps')
  · exact hnew q ho ps' hps'

/-- A write wakes whoever is asleep on its pipe. -/
theorem Written.asleep (hw : Written s q s') (h : Sound s) (hu : s'.kernel.Asleep u x) :
    s.kernel.Asleep u x ∧ s.ends x ≠ some (.out, q) := by
  obtain ⟨ps, buf, hps, -, -, hkernel⟩ := hw.pipes
  cases hout : ps.out with
  | none =>
    rw [hout] at hkernel
    change s'.kernel = s.kernel at hkernel
    refine ⟨hkernel ▸ hu, fun hend => ?_⟩
    obtain rfl : x = q := h.pipes.place x _ hend
    exact absurd ((h.pipes.fifo x ps hend hps).1.symm.trans hout) (by simp)
  | some o =>
    rw [hout] at hkernel
    obtain ⟨hwaiting, hwaited⟩ := hu
    simp only [hkernel, Option.elim_some, Waits.free] at hwaiting hwaited
    split at hwaited
    · cases hwaited
    · rename_i hnot
      refine ⟨⟨hwaiting, hwaited⟩, fun hend => hnot ?_⟩
      obtain rfl : x = q := h.pipes.place x _ hend
      obtain rfl := h.linked x ps hps o hout
      exact h.kernel.enlisted ⟨hwaiting, hwaited⟩

/-- A thread that falls asleep in a read finds nothing that it asks for. -/
theorem Sound.slept (h : Sound s) (hp : Carried s s') {a' : Answer} {ps : PipeStream}
    (hobject : s.object p fd = some x) (ha : s.answer p fd count a = .ok a')
    (hb : s.kernel.nbread p fd a' = .ok (errno EBLOCK)) (hend : s'.ends x = some (.out, q))
    (hps : s'.pipes q = some ps) : ps.deque = [] ∨ count = 0 := by
  rcases hp.ends x _ hend with hbefore | ⟨-, hempty⟩
  · have hof : s.endOf p fd = some (.out, q) := by rw [endOf_object, hobject]; exact hbefore
    obtain ⟨ps₀, hps₀, hnothing, -⟩ := h.answer_blocks hof ha hb
    refine hnothing.imp_left fun hnil => ?_
    rcases hp.pipes q ps hps with ⟨hnil', -⟩ | ⟨ps₁, hps₁, hsuffix, -⟩
    · exact hnil'
    · obtain rfl := Option.some.inj (hps₀.symm.trans hps₁)
      rw [hnil] at hsuffix
      exact List.suffix_nil.mp hsuffix
  · exact .inl (hempty ps hps)

/-- Only reads and their checks put threads to sleep. -/
theorem Sound.asleep_before (h : Sound s) (hread : ∀ fd count, c.call ≠ .read fd count)
    (hwrite : ∀ fd buf, c.call ≠ .write fd buf) (hrun : c.call = .task .run → s.kernel.retried = none)
    (ha : s.kernel.Admits ⟨c.room, c.answer, c.call.toKernel⟩)
    (hk : s.kernel.apply ⟨c.room, c.answer, c.call.toKernel⟩ = .ok s'.kernel)
    (hu : s'.kernel.Asleep u x) : s.kernel.Asleep u x := by
  cases Kernel.apply_sleeps h.kernel ha hk hu with
  | before hold => exact hold
  | @read fd _ _ _ hfd =>
    obtain ⟨room, answer, mapped, call⟩ := c
    cases call with
    | read fd count => exact absurd rfl (hread fd count)
    | write fd buf => exact absurd rfl (hwrite fd buf)
    | task | table | free => cases hfd
  | again hrun' hretried =>
    obtain ⟨room, answer, mapped, call⟩ := c
    cases call with
    | task task =>
      obtain rfl := Kernel.Call.task.inj hrun'
      exact absurd ((hrun rfl).symm.trans hretried) (by simp)
    | read | write | table | free => cases hrun'

theorem Drained.step (hd : Drained s) (h : Sound s) (ha : s.Admits c) (hc : s.Steady c)
    (hs : s.apply c = .ok s') : Drained s' := by
  have hadmits := ha.1
  cases apply_does hs with
  | @read fd count t th a hcall hcurrent hth hanswer hk hp _ hcounts =>
    rw [hcall] at hadmits
    refine hd.carried hp fun u x hu => ?_
    cases Kernel.apply_sleeps (c := ⟨c.room, a, .read fd⟩) h.kernel hadmits hk hu with
    | before hold =>
      refine .inl ⟨hold, ?_⟩
      have hut : u ≠ t := by
        rintro rfl
        have hnone := (h.kernel.running u hcurrent).2
        rw [hold.1] at hnone
        exact Finset.singleton_ne_empty x hnone
      rw [hcounts]
      exact if_neg hut
    | read hfd hcurrent' hth' hblocks hv hdesc ho =>
      obtain rfl := (Kernel.Call.read.inj hfd)
      obtain rfl := Option.some.inj (hcurrent.symm.trans hcurrent')
      obtain rfl := Option.some.inj (hth.symm.trans hth')
      refine .inr fun q hend ps hps => ?_
      have hobject : s.object th.process fd = some x := by
        simp [object, descriptor, hv, h.kernel.index hv hdesc, hdesc, ho]
      refine (h.slept hp hobject hanswer hblocks hend hps).imp_right fun hzero => ?_
      rw [hcounts]
      exact (if_pos rfl).trans hzero
    | again hrun => cases hrun
  | @retry t p fd a hcall hretried hanswer hk hp _ hcounts =>
    rw [hcall] at hadmits
    refine hd.carried hp fun u x hu => ?_
    cases Kernel.apply_sleeps (c := ⟨c.room, a, .task .run⟩) h.kernel hadmits hk hu with
    | before hold => exact .inl ⟨hold, by rw [hcounts]⟩
    | read hfd => cases hfd
    | again _ hretried' hblocks ho =>
      obtain ⟨rfl, rfl, rfl⟩ : _ ∧ _ ∧ _ := by simpa using hretried.symm.trans hretried'
      refine .inr fun q hend ps hps => ?_
      have hobject := hc hcall (t, p, fd) hretried x (by rw [ho]; exact Finset.mem_singleton_self x)
      rw [hcounts]
      exact h.slept hp hobject hanswer hblocks hend hps
  | @write _ q _ _ hw =>
    rintro u q' ⟨x, hu, hend⟩ ps' hps'
    obtain ⟨hold, hne⟩ := hw.asleep h hu
    rw [hw.ends] at hend
    obtain ⟨ps, buf, -, -, hput, -⟩ := hw.pipes
    have hq : q' ≠ q := by
      rintro rfl
      exact hne hend
    rw [hput, put_of_ne _ _ hq] at hps'
    rw [hw.counts]
    exact hd u q' ⟨x, hold, hend⟩ ps' hps'
  | refused _ hsame => exact hsame ▸ hd
  | other hread hwrite hrun hk hp _ hcounts =>
    refine hd.carried hp fun u x hu => .inl ⟨?_, by rw [hcounts]⟩
    exact h.asleep_before hread hwrite hrun hadmits hk hu

theorem start_sound (h : machine.start s) : Sound s ∧ Drained s := by
  obtain ⟨⟨_, _, _, _, _, hboot⟩, hpipes, hends, hevents⟩ := h
  have hnone : ∀ q ps, s.pipes q ≠ some ps := fun q ps hps => by
    rw [hpipes] at hps
    cases hps
  refine ⟨⟨Kernel.boot_inv hboot, ?_, fun q ps hps => absurd hps (hnone q ps),
    fun q ps hps => absurd hps (hnone q ps)⟩, fun t q _ ps hps => absurd hps (hnone q ps)⟩
  refine ⟨fun o _ => hends o, fun o e ho => ?_, fun q ps hps => absurd hps (hnone q ps),
    fun q hq => ?_, fun e he => ?_, fun q ps _ hps => absurd hps (hnone q ps),
    fun q ps hps => absurd hps (hnone q ps), ?_⟩
  · rw [hends] at ho
    cases ho
  · simp [held, hends] at hq
  · rw [hevents] at he
    cases he
  · rw [hevents]
    trivial

theorem sound_of_run {C : Pipes → Command → Prop} (h : machine.Run C s) : Sound s :=
  h.invariant (fun _ hs => (start_sound hs).1) fun _ _ _ hi ha _ hs => hi.step ha hs

/-- The reading end of a pipe keeps the pipe. -/
theorem Sound.pipe (h : Sound s) (ho : s.ends o = some (.out, q)) : ∃ ps, s.pipes q = some ps := by
  obtain rfl : o = q := h.pipes.place o _ ho
  refine Option.ne_none_iff_exists'.mp (h.pipes.alive o ?_)
  unfold held
  rw [if_pos ho]
  omega

/-- No bytes wait behind a thread that is blocked: its pipe is empty, or it has asked for nothing. -/
theorem run_drained (h : machine.Run Steady s) (hb : s.Blocked t q) :
    ∃ ps, s.pipes q = some ps ∧ (ps.deque = [] ∨ s.counts t = 0) := by
  have hinv : Sound s ∧ Drained s := h.invariant (I := fun s => Sound s ∧ Drained s)
    (fun _ hs => start_sound hs) fun _ _ _ hi ha hc hs => ⟨hi.1.step ha hs, hi.2.step hi.1 ha hc hs⟩
  obtain ⟨o, -, ho⟩ := id hb
  obtain ⟨ps, hps⟩ := hinv.1.pipe ho
  exact ⟨ps, hps, hinv.2 t q hb ps hps⟩

/-- `Blocked` on the pipe 2, which has its reading end under its number. -/
def blockedThere (s : Pipes) (t : Nat) : Bool :=
  decide (s.kernel.reads.waiting t = {2} ∧ s.kernel.reads.waited t = none ∧
    s.ends 2 = some (.out, 2))

theorem blocked_there (h : s.blockedThere t = true) : s.Blocked t 2 := by
  obtain ⟨hwaiting, hwaited, hend⟩ := of_decide_eq_true h
  exact ⟨2, ⟨hwaiting, hwaited⟩, hend⟩

set_option maxRecDepth 10000 in
/-- A write of nothing wakes the reader, which goes back to sleep. -/
theorem run_drained_again : ∃ s, machine.Run Steady s ∧ s.Blocked 10 2 ∧
    ∃ ps, s.pipes 2 = some ps ∧ (ps.deque = [] ∨ s.counts 10 = 0) := by
  obtain ⟨s, hs, hP⟩ := exists_run (C := Steady) (fun s c => decide (s.Steady c))
    (fun _ _ h => of_decide_eq_true h)
    [plain (.task .run), plain (.table .syspipe), plain (.task (.clone 20)), plain (.read 3 2),
      plain (.task .run), plain (.write 4 []), plain (.task .preempt), plain (.task .run)]
    (fun s => s.blockedThere 10) (by decide +kernel)
  exact ⟨s, hs, blocked_there hP, run_drained hs (blocked_there hP)⟩

set_option maxRecDepth 10000 in
/-- The second thread puts an empty pipe under the descriptor that the first one is blocked on, and
writes to the pipe that it waits for: a byte waits behind it. -/
theorem redirected : ∃ s, machine.Run (fun _ _ => True) s ∧ s.Blocked 10 2 ∧ s.counts 10 = 2 ∧
    ∃ ps, s.pipes 2 = some ps ∧ ps.deque = [97] := by
  obtain ⟨s, hs, hP⟩ := exists_run (C := fun _ _ => True) (fun _ _ => true) (fun _ _ _ => trivial)
    [plain (.task .run), plain (.table .syspipe), plain (.table .syspipe),
      plain (.task (.clone 20)), plain (.read 3 2), plain (.task .run), plain (.table (.sysdup 3)),
      plain (.table (.sysdup2 5 3)), plain (.write 4 [97]), plain (.task .preempt),
      plain (.task .run)]
    (fun s => s.blockedThere 10 && decide (s.counts 10 = 2) &&
      decide ((s.pipes 2).map (·.deque) = some [97])) (by decide +kernel)
  simp only [Bool.and_eq_true, decide_eq_true_eq] at hP
  obtain ⟨⟨hblocked, hcount⟩, hpipe⟩ := hP
  obtain ⟨ps, hps, hdeque⟩ := Option.map_eq_some_iff.mp hpipe
  exact ⟨s, hs, blocked_there hblocked, hcount, ps, hps, hdeque⟩

/-! ### The end of the writers -/

/-- No object is the writing end of the pipe. -/
def Closed (s : Pipes) (q : Nat) : Prop := ∀ o, s.ends o ≠ some (.inp, q)

theorem Sound.blocked_step (h : Sound s) (ha : s.Admits c) (hs : s.apply c = .ok s')
    (hb : s.Blocked t q) (hq : s.Closed q) : s'.Blocked t q ∧ s'.Closed q := by
  obtain ⟨x, hx, hend⟩ := hb
  have hlt : q < s.kernel.fds.owners.made := h.pipes.pipe_lt hend
  have hxq : x = q := h.pipes.place x _ hend
  have hsound := h.step ha hs
  have hclosed : Carried s s' → s'.Closed q := by
    intro hp o ho
    rcases hp.ends o _ ho with hbefore | ⟨hmade, -⟩
    · exact hq o hbefore
    · exact absurd hmade (Nat.ne_of_lt hlt)
  have hadmits := ha.1
  cases apply_does hs with
  | @read fd count _ _ a hc _ _ _ hk hp hends =>
    rw [hc] at hadmits
    have hx' := Kernel.apply_asleep (c := ⟨c.room, a, .read fd⟩) h.kernel hadmits hk hx (by simp)
    exact ⟨⟨x, hx', hends ▸ hend⟩, hclosed hp⟩
  | @retry _ _ _ a hc _ _ hk hp hends =>
    rw [hc] at hadmits
    have hx' := Kernel.apply_asleep (c := ⟨c.room, a, .task .run⟩) h.kernel hadmits hk hx (by simp)
    exact ⟨⟨x, hx', hends ▸ hend⟩, hclosed hp⟩
  | write _ hw =>
    obtain ⟨o', ho'⟩ := hw.writer
    obtain ⟨ps, buf, hps, -, -, hkernel⟩ := hw.pipes
    refine ⟨⟨x, ?_, hw.ends ▸ hend⟩, fun o ho => hq o (hw.ends ▸ ho)⟩
    cases hout : ps.out with
    | none =>
      rw [hout] at hkernel
      change s'.kernel = s.kernel at hkernel
      exact hkernel ▸ hx
    | some o =>
      rw [hout] at hkernel
      change s'.kernel = _ at hkernel
      rw [hkernel]
      obtain rfl := h.linked _ ps hps o hout
      refine h.kernel.free_asleep hx ?_
      rintro rfl
      exact hq o' (hxq ▸ ho')
  | refused _ hsame =>
    subst hsame
    exact ⟨⟨x, hx, hend⟩, hq⟩
  | other _ _ _ hk hp hends =>
    have hfree : c.call.toKernel ≠ .free x := by
      intro hc
      obtain ⟨room, answer, mapped, call⟩ := c
      cases call with
      | free o =>
        obtain rfl := Kernel.Call.free.inj hc
        exact absurd ((ha.2 o rfl).symm.trans hend) (by simp)
      | task | read | write | table => cases hc
    have hx' := Kernel.apply_asleep h.kernel hadmits hk hx hfree
    -- The reading end is not deleted under the thread.
    have hlive := hsound.kernel.streams t x (hsound.kernel.enlisted hx')
    obtain ⟨L, hB⟩ := hsound.kernel.books
    have hkept : x ∉ s'.kernel.fds.owners.deleted := by
      intro hdeleted
      have hzero := ((hB.balanced.deleted x).mp hdeleted).2
      rw [hB.balanced.count, hzero] at hlive
      exact hlive rfl
    exact ⟨⟨x, hx', (hends x hkept (hxq ▸ hlt)).trans hend⟩, hclosed hp⟩

/-- A pipe is not at its end before its writing end is gone. -/
def Open (s : Pipes) : Prop :=
  ∀ q ps, s.pipes q = some ps → ps.eof = false → s.ends (q + 1) = some (.inp, q)

theorem Open.update (h : Open s) {ps : PipeStream} (p : PipeStream) (hps : s.pipes q = some ps)
    (heof : p.eof = ps.eof) : Open { s with pipes := put s.pipes q (some p) } := by
  intro q' ps₁ hps₁ heof₁
  by_cases hq : q' = q
  · subst hq
    obtain rfl := Option.some.inj ((put_self _ _ _).symm.trans hps₁)
    exact h q' ps hps (heof.symm.trans heof₁)
  · exact h q' ps₁ ((put_of_ne _ _ hq).symm.trans hps₁) heof₁

theorem Open.consume (h : Open s) {mapped : Nat} (hs : s.consume mapped t p fd count a = .ok s') :
    Open s' := by
  unfold Pipes.consume at hs
  split at hs
  · exact Except.ok.inj hs ▸ h
  · obtain ⟨ps, hpipe, hs⟩ := bind_eq_ok.mp hs
    dsimp only at hs
    split at hs
    · exact Except.ok.inj hs ▸ h
    split at hs
    · cases hs
    obtain rfl := pure_eq_ok.mp hs
    exact h.update (ps.read count).2 (Inv.pipe_eq hpipe) rfl

theorem Open.destroy (h : Open s) (hi : s.Inv) (o : Nat) : Open (s.destroy o) := by
  unfold Pipes.destroy
  cases ho : s.ends o with
  | none => exact h
  | some e =>
    obtain ⟨side, q⟩ := e
    have hplace := hi.place o _ ho
    intro q' ps' hps' heof
    change put s.ends o none (q' + 1) = some (.inp, q')
    by_cases hq : q' = q
    · subst hq
      obtain ⟨ps, hps, hdrop⟩ := Option.bind_eq_some_iff.mp ((put_self _ _ _).symm.trans hps')
      cases side with
      | inp =>
        -- `sendEof` comes before `decrRef`.
        unfold PipeStream.dropEnd PipeStream.decrRef at hdrop
        dsimp only at hdrop
        split at hdrop
        · cases hdrop
        · obtain rfl := Option.some.inj hdrop
          cases heof
      | out =>
        have hne : q' + 1 ≠ o := by
          rw [hplace]
          exact Nat.succ_ne_self q'
        rw [put_of_ne _ _ hne]
        obtain ⟨ps₁, hdecr, rfl⟩ := Option.map_eq_some_iff.mp hdrop
        unfold PipeStream.decrRef at hdecr
        dsimp only at hdecr
        split at hdecr
        · cases hdecr
        · obtain rfl := Option.some.inj hdecr
          exact h q' ps hps heof
    · have hopen := h q' ps' ((put_of_ne _ _ hq).symm.trans hps') heof
      have hne : q' + 1 ≠ o := by
        rintro rfl
        exact hq (Prod.mk.inj (Option.some.inj (hopen.symm.trans ho))).2
      exact (put_of_ne _ _ hne).trans hopen

theorem Open.settle {k : Kernel} (h : Open { s with kernel := k }) (hi : Inv { s with kernel := k }) :
    Open (s.settle k) := by
  unfold Pipes.settle
  generalize { s with kernel := k } = s at h hi
  generalize k.fds.owners.deleted.reverse = l
  induction l generalizing s with
  | nil => exact h
  | cons o l ih => exact ih _ (h.destroy hi o) (hi.destroy o)

theorem Open.addPipe (h : Open s) (hi : s.Inv) : Open s.addPipe := by
  intro q ps hps heof
  change put (put s.ends _ _) _ _ (q + 1) = _
  by_cases hq : q = s.kernel.fds.owners.made
  · rw [hq]
    exact put_self _ _ _
  · have hopen := h q ps ((put_of_ne _ _ hq).symm.trans hps) heof
    have hne : q + 1 ≠ s.kernel.fds.owners.made := by
      intro heq
      have hnone := hi.bound (q + 1) heq.ge
      rw [hopen] at hnone
      cases hnone
    rw [put_of_ne _ _ (by omega), put_of_ne _ _ hne]
    exact hopen

theorem Open.step (h : Open s) (hi : s.Inv) (hs : s.apply c = .ok s') : Open s' := by
  obtain ⟨room, answer, mapped, call⟩ := c
  have hsettle : ∀ {kc : Kernel.Command},
      (do let kernel ← s.kernel.apply kc; return s.settle kernel) = .ok s' → kc.call.makes = 0 →
        Open s' := by
    intro kc hs hmakes
    obtain ⟨kernel, hk, hs⟩ := bind_eq_ok.mp hs
    obtain rfl := pure_eq_ok.mp hs
    have hmade := (Kernel.apply_made kc).of_ok hk
    exact Open.settle h (hi.kernel (by omega))
  cases call with
  | read fd count =>
    obtain ⟨t, -, hs⟩ := bind_eq_ok.mp hs
    obtain ⟨th, -, hs⟩ := bind_eq_ok.mp hs
    obtain ⟨a, -, hs⟩ := bind_eq_ok.mp hs
    obtain ⟨s₁, hconsume, hs⟩ := bind_eq_ok.mp hs
    obtain ⟨kernel, -, hs⟩ := bind_eq_ok.mp hs
    obtain rfl := pure_eq_ok.mp hs
    have hopen : Open s₁ := h.consume hconsume
    exact hopen
  | write fd buf =>
    rcases syswrite_written hs with rfl | ⟨q, hw⟩
    · exact h
    · obtain ⟨ps, buf, hps, -, hput, -⟩ := hw.pipes
      have hopen := h.update { ps with deque := ps.deque ++ buf } hps rfl
      unfold Open
      rw [hput, hw.ends]
      exact hopen
  | free o =>
    obtain ⟨kernel, -, hs⟩ := bind_eq_ok.mp hs
    obtain rfl := pure_eq_ok.mp hs
    exact h
  | table call =>
    obtain ⟨kernel, hk, hs⟩ := bind_eq_ok.mp hs
    obtain rfl := pure_eq_ok.mp hs
    have hmade := (Kernel.apply_made _).of_ok hk
    by_cases hpipe : call = .syspipe
    · subst hpipe
      rw [if_pos rfl]
      exact Open.settle (h.addPipe hi) (hi.addPipe hmade)
    · rw [if_neg hpipe]
      exact Open.settle h (hi.kernel (by omega))
  | task task =>
    cases task with
    | run =>
      unfold Pipes.apply at hs
      dsimp only at hs
      split at hs
      · exact hsettle hs rfl
      · obtain ⟨a, -, hs⟩ := bind_eq_ok.mp hs
        obtain ⟨s₁, hconsume, hs⟩ := bind_eq_ok.mp hs
        obtain ⟨kernel, -, hs⟩ := bind_eq_ok.mp hs
        obtain rfl := pure_eq_ok.mp hs
        have hopen : Open s₁ := h.consume hconsume
        exact hopen
    | _ => exact hsettle hs rfl

theorem run_open {C : Pipes → Command → Prop} (h : machine.Run C s) : Open s := by
  have hinv : s.Inv ∧ Open s := h.invariant (I := fun s => s.Inv ∧ Open s) (fun s hs => ?_)
    fun _ _ _ hi _ _ hs => ⟨hi.1.step.of_ok hs, hi.2.step hi.1 hs⟩
  · exact hinv.2
  · refine ⟨(start_sound hs).1.pipes, fun q ps hps => ?_⟩
    rw [hs.2.1] at hps
    cases hps

/-- When the writing end of a pipe goes away under a thread that is blocked on it, the thread stays
blocked in all that follows, though it exists and a read of the pipe would return at once. -/
theorem run_stuck {C C' : Pipes → Command → Prop} (h : machine.Run C s) (hb : s.Blocked t q)
    (hq : s.Closed q) (h' : (machine.resumed s).Run C' s') :
    s'.Blocked t q ∧ s'.kernel.tasks.current ≠ some t ∧ s'.kernel.tasks.threadAt t ≠ none ∧
      ∃ ps, s'.pipes q = some ps ∧ ps.eof = true := by
  obtain ⟨⟨hsound, hopen⟩, hblocked, hclosed⟩ := h'.resume
    (I := fun s => (Sound s ∧ Open s) ∧ s.Blocked t q ∧ s.Closed q)
    ⟨⟨sound_of_run h, run_open h⟩, hb, hq⟩ fun s s' c hi ha _ hs =>
      ⟨⟨hi.1.1.step ha hs, hi.1.2.step hi.1.1.pipes hs⟩, hi.1.1.blocked_step ha hs hi.2.1 hi.2.2⟩
  refine ⟨hblocked, fun hcurrent => ?_, ?_, ?_⟩
  all_goals obtain ⟨o, ho, hend⟩ := hblocked
  · have hnone := (hsound.kernel.running t hcurrent).2
    rw [ho.1] at hnone
    exact Finset.singleton_ne_empty o hnone
  · exact Option.isSome_iff_ne_none.mp (hsound.kernel.reads.registered t o (hsound.kernel.enlisted ho)).1
  · obtain ⟨ps, hps⟩ := hsound.pipe hend
    refine ⟨ps, hps, Bool.eq_true_of_not_eq_false fun heof => ?_⟩
    exact hclosed (q + 1) (hopen q ps hps heof)

/-- The running thread gives way, and the scheduler looks at the next two. -/
def turns (s : Pipes) : Option Pipes :=
  (machine.resumed s).follow (fun s c => decide (s.Admits c)) s
    [plain (.task .preempt), plain (.task .run), plain (.task .run)]

set_option maxRecDepth 10000 in
/-- The second thread closes the writing end, and the scheduler passes over the reader. -/
theorem run_stuck_closed : ∃ s s', machine.Run (fun _ _ => True) s ∧
    (machine.resumed s).Run (fun _ _ => True) s' ∧ s'.kernel.tasks.current = some 20 ∧
    s'.Blocked 10 2 ∧ ∃ ps, s'.pipes 2 = some ps ∧ ps.eof = true := by
  obtain ⟨s, hs, hP⟩ := exists_run (C := fun _ _ => True) (fun _ _ => true) (fun _ _ _ => trivial)
    [plain (.task .run), plain (.table .syspipe), plain (.task (.clone 20)), plain (.read 3 2),
      plain (.task .run), plain (.table (.sysclose 4))]
    (fun s => s.blockedThere 10 && decide (s.ends 3 = none) &&
      s.turns.any fun (s' : Pipes) => decide (s'.kernel.tasks.current = some 20)) (by decide +kernel)
  simp only [Bool.and_eq_true, decide_eq_true_eq] at hP
  obtain ⟨⟨hblocked, hend⟩, hlater⟩ := hP
  obtain ⟨s', hs', hcurrent⟩ := Lib.Machine.exists_run (M := machine.resumed s)
    (C := fun _ _ => True)
    (show ∀ (s' : Pipes) c, decide (s'.Admits c) = true → s'.Admits c ∧ True from
      fun _ _ h => ⟨of_decide_eq_true h, trivial⟩) rfl _ hlater
  have hclosed : s.Closed 2 := by
    intro o ho
    obtain rfl : o = 3 := (sound_of_run hs).pipes.place o _ ho
    rw [hend] at ho
    cases ho
  obtain ⟨hstill, -, -, hpipe⟩ := run_stuck hs (blocked_there hblocked) hclosed hs'
  exact ⟨s, s', hs, hs', of_decide_eq_true hcurrent, hstill, hpipe⟩

end Pipes

end SupOS
