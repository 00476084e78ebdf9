import SupOS.Processes.Turns

/-! Which processes a command terminates. -/

namespace SupOS

open Lib

namespace Tasks

variable {s s' : Tasks} {p q t tid pid : Nat} {pro : Process} {th : Thread}

/-- The process exists and has not terminated. -/
def Live (s : Tasks) (p : Nat) : Prop := ∃ pro, s.processAt p = some pro ∧ pro.terminated = false

/-- The process that a command terminates: that of the running thread when it calls `exit`, and also when
it is the last thread and calls `texit`. -/
def killed (s : Tasks) : Command → Option Nat
  | .exit _ => do
    let th ← s.threadAt (← s.current)
    return th.process
  | .texit _ => do
    let t ← s.current
    let th ← s.threadAt t
    let pro ← s.processAt th.process
    if (pro.threads.erase t).isEmpty then some th.process else none
  | _ => none

/-- No live process ends but for `k`. -/
def Spared (k : Option Nat) (s s' : Tasks) : Prop := ∀ p, s.Live p → k ≠ some p → s'.Live p

/-- What is written to the record of a process leaves the others alive, and that one if it does not
terminate it. -/
theorem Live.put (h : s.Live p) {k : Option Nat} {pro' : Process}
    (hf : s'.processAt = Tasks.put s.processAt q (some pro'))
    (hq : s.processAt q = some pro) (hterm : k ≠ some q → pro.terminated = false → pro'.terminated = false)
    (hk : k ≠ some p) : s'.Live p := by
  obtain ⟨prop, hp, hlive⟩ := h
  by_cases hpq : p = q
  · subst hpq
    obtain rfl : pro = prop := Option.some.inj (hq.symm.trans hp)
    exact ⟨pro', by rw [hf, put_self], hterm hk hlive⟩
  · exact ⟨prop, by rw [hf, put_of_ne _ _ hpq, hp], hlive⟩

theorem exit_spares (h : Inv s) {returnCode : Nat} :
    Ensures (s.exit returnCode) NoStray (Spared (s.killed (.exit returnCode)) s) := by
  unfold exit
  refine enterSys_spec.bind fun t hc => ?_
  obtain ⟨th, pro, hth, hpro, -, -⟩ := h.running hc
  simp only [thread_eq hth, ok_bind]
  have hM : ∀ u, u ∈ pro.threads → ∃ q, s.Listed q u := fun u hu => ⟨_, pro, hpro, hu⟩
  refine (terminate_spec h.sane.quit hpro hM).mono (fun _ he => he) fun s' ⟨_, hend⟩ x hx hk => ?_
  have hkilled : s.killed (.exit returnCode) = some th.process := by simp [killed, hc, hth]
  exact hx.put (k := some th.process) hend.processAt hpro (fun hne => absurd rfl hne) (hkilled ▸ hk)

theorem texit_spares (h : Inv s) {returnCode : Nat} :
    Ensures (s.texit returnCode) NoStray (Spared (s.killed (.texit returnCode)) s) := by
  unfold texit
  refine enterSys_spec.bind fun t hc => ?_
  obtain ⟨th, pro, hth, hpro, -, -⟩ := h.running hc
  have hth₁ : s.quit.threadAt t = some th := hth
  have hpro₁ : s.quit.processAt th.process = some pro := hpro
  refine (terminateThread_spec h.sane.quit hth₁ hpro₁).bind fun s₂ ⟨hs₂, pro', hleft⟩ => ?_
  have hth₂ : s₂.threadAt t = some th := by rw [hleft.threadAt, hth₁]
  refine (deleteThread_spec hs₂ hth₂).mono (fun _ he => he) fun s' ⟨_, hdel⟩ x hx hk => ?_
  refine hx.put (hdel.processAt.trans hleft.processAt) hpro (fun hne hlive => ?_) hk
  -- Another thread of the process is left.
  have hmore : ¬∀ u, u ∉ pro.threads.erase t := by
    intro hnone
    apply hne
    simp [killed, hc, hth, hpro, OrderedSet.isEmpty_iff.mpr hnone]
  by_contra hterm
  rcases hleft.terminated (Bool.not_eq_false _ ▸ hterm) with hdead | hnone
  · exact absurd (hdead.symm.trans hlive) (by simp)
  · refine hmore fun u hu => hnone u ?_
    rw [hleft.threads]
    exact OrderedSet.mem_erase.mp hu

/-- A new thread changes only the threads of its process. -/
theorem newThread_spares (hp : s.processAt p = some pro) :
    Ensures (s.newThread t tid p) NoStray (Spared none s) := by
  unfold newThread addThread
  simp only [addT, process, hp, ok_bind]
  exact fun x hx hk => hx.put (k := none) rfl hp (fun _ hlive => hlive) hk

theorem exec_spares (h : Inv s) : Ensures (s.exec t) NoStray (Spared none s) := by
  unfold exec
  refine enterSys_spec.bind fun old hc => ?_
  obtain ⟨th, pro, hth, hpro, -, -⟩ := h.running hc
  have hquit := h.sane.quit
  set s₁ : Tasks := { s.quit with fifo := s.fifo ++ [th.tid] } with hs₁def
  have hs₁ : Sane s.Listed s₁ :=
    ⟨hquit.crew, hquit.family, hquit.watch, hquit.unused, hquit.current⟩
  have hpro₁ : s₁.processAt th.process = some pro := hpro
  simp only [thread_eq hth, stopCurent_eq hc hth, ok_bind, ← hs₁def]
  refine (clear_spec hs₁ hpro₁ fun u hu => ⟨_, pro, hpro, hu⟩).bind fun s₂ ⟨_, hclear⟩ => ?_
  have hpro₂ : s₂.processAt th.process = some { pro with threads := .empty } := by
    rw [hclear.processAt, put_self]
  simp only [process_eq hpro₂, ok_bind]
  refine (newThread_spares hpro₂).mono (fun _ he => he) fun s' hspared x hx hk => ?_
  have hx₁ : s₁.Live x := hx
  exact hspared x (hx₁.put hclear.processAt hpro₁ (fun _ hlive => hlive) hk) hk

theorem clone_spares (h : Inv s) : Ensures (s.clone t) NoStray (Spared none s) := by
  unfold clone
  refine enterSys_spec.bind fun old hc => ?_
  obtain ⟨th, pro, hth, hpro, -, -⟩ := h.running hc
  simp only [thread_eq hth, ok_bind]
  refine (getFreshTid_spec h.sane.unused).bind fun r ⟨b, hr, _⟩ => ?_
  obtain ⟨newTid, s₁⟩ := r
  simp only at hr
  subst hr
  exact newThread_spares (s := { s with tids := b }) hpro

theorem fork_spares (h : Inv s) (hp : s.processAt p = none) :
    Ensures (s.fork p t) NoStray (Spared none s) := by
  unfold fork
  refine enterSys_spec.bind fun old hc => ?_
  obtain ⟨th, pro, hth, hpro, -, -⟩ := h.running hc
  simp only [thread_eq hth, ok_bind]
  refine (getFreshTid_spec h.sane.unused).bind fun r ⟨b, hr, _⟩ => ?_
  obtain ⟨newTid, s₁⟩ := r
  simp only at hr
  subst hr
  have hne : th.process ≠ p := by
    intro heq
    rw [heq, hp] at hpro
    cases hpro
  have hgid : pro.gid = 1 := h.sane.family.gid _ _ (kinAt_eq hpro)
  obtain ⟨pros, hg, -⟩ := h.sane.family.members
  have hg' : s.groups pro.gid = some pros := by rw [hgid, hg]
  simp only [newProcess, newThread, addP, addT, addThread, addChild, getG, process, setProcess,
    put_self, put_put, put_of_ne _ _ hne, hpro, hg', ok_bind, pure, Except.pure, Ensures.ok]
  rintro x ⟨prox, hx, hlive⟩ -
  have hxp : x ≠ p := by
    rintro rfl
    exact absurd (hp.symm.trans hx) (by simp)
  by_cases hxq : x = th.process
  · subst hxq
    obtain rfl : pro = prox := Option.some.inj (hpro.symm.trans hx)
    exact ⟨_, put_self _ _ _, hlive⟩
  · exact ⟨prox, by simp only [put_of_ne _ _ hxq, put_of_ne _ _ hxp, hx], hlive⟩

/-- Only a zombie is reaped. -/
theorem nbwaitp_spares (h : Core s.Listed s) (hp : s.processAt p = some pro)
    (hquiet : ∀ p pro, s.processAt p = some pro → pro.terminated = true → ∀ t, t ∉ pro.threads)
    (c : Checker) : Ensures (s.nbwaitp p c) NoStray fun r => Spared none s r.2 := by
  refine (nbwaitp_spec h hp hquiet c).mono (fun _ he => he) fun r ⟨_, hwaited⟩ => ?_
  cases hq : s.reaped p c with
  | none =>
    rw [(hwaited.stays hq).1]
    exact fun _ hx _ => hx
  | some q =>
    obtain ⟨-, ⟨son, hson, -, hdead⟩, i, -, hreap⟩ := hwaited.reaps q hq
    rintro x ⟨prox, hx, hlive⟩ -
    have hxq : x ≠ q := by
      rintro rfl
      obtain rfl : son = prox := Option.some.inj (hson.symm.trans hx)
      exact absurd (hdead.symm.trans hlive) (by simp)
    obtain ⟨pro', hx'⟩ := Option.ne_none_iff_exists'.mp (hreap.stays x hxq (by simp [hx]))
    obtain ⟨pro₀, hx₀, -, hterm, -⟩ := hreap.old x pro' hx'
    obtain rfl : prox = pro₀ := Option.some.inj (hx.symm.trans hx₀)
    exact ⟨pro', hx', hterm.trans hlive⟩

theorem waitp_spares (h : Inv s) (hc : s.current = some t) (hth : s.threadAt t = some th)
    (hp : s.processAt th.process = some pro) (c : Checker) :
    Ensures (s.waitp t c) NoStray fun r => Spared none s r.2 := by
  unfold waitp
  simp only [thread_eq hth, ok_bind]
  refine ((nbwaitp_spares h.sane.core hp h.quiet c).and (nbwaitp_turn h.sane.core hp h.quiet c)).bind
    fun r ⟨hspared, _, _, hcur⟩ => ?_
  obtain ⟨res, s₁⟩ := r
  simp only at hspared hcur
  by_cases hres : res = .EBLOCK
  · rw [if_pos hres]
    refine ensures_wait.bind fun waits' hw => ?_
    set s₂ : Tasks := { s₁ with
      threadAt := put s₁.threadAt t (some { th with checker := some c }), waits := waits' } with hs₂
    have hth₂ : s₂.threadAt t = some { th with checker := some c } := put_self _ _ _
    simp only [stopCurent_eq (show s₂.current = some t from hcur.trans hc) hth₂, ok_bind]
    exact hspared
  · rw [if_neg hres]
    exact hspared

theorem wait_spares (h : Inv s) : Ensures (s.apply (.wait pid)) NoStray (Spared none s) := by
  unfold apply syswait
  refine Ensures.bind (Q := fun r => Spared none s r.2) ?_ fun _ hr => Ensures.ok.mpr hr
  refine enterSys_spec.bind fun t hc => ?_
  obtain ⟨th, pro, hth, hpro, -⟩ := h.running hc
  split
  · exact waitp_spares h hc hth hpro .any
  · unfold getP
    cases s.processes pid with
    | none => exact ⟨by simp, by simp⟩
    | some q => exact waitp_spares h hc hth hpro (.child q)

theorem OK_spares (h : Inv s) (hth : s.threadAt t = some th) :
    Ensures (s.OK t) NoStray fun r => Spared none s r.2 := by
  unfold OK
  cases hw : s.waits.waited t with
  | none => exact fun _ hx _ => hx
  | some w =>
    have hne : s.waits.waiting t ≠ ∅ := Finset.ne_empty_of_mem (h.sane.watch.inv.waited t w hw).2
    obtain ⟨th', c, hth', -, hc⟩ := h.sane.watch.own t hne
    obtain rfl : th' = th := Option.some.inj (hth'.symm.trans hth)
    obtain ⟨-, pro, hpro⟩ := h.sane.owner hth
    have hth₁ : thread { s with waits := s.waits.clearWaited t } t = .ok th' := thread_eq hth
    simp only [hth₁, hc, ok_bind]
    set s₁ : Tasks := { s with waits := s.waits.clearWaited t }
    have hcore : Core s₁.Listed s₁ := ⟨h.sane.crew, h.sane.family, h.sane.unused, h.sane.current⟩
    exact (nbwaitp_spares hcore hpro h.quiet c).bind fun r hr => hr

theorem run_spares (h : Inv s) : Ensures (s.apply .run) NoStray (Spared none s) := by
  unfold apply run
  refine ensures_bind_assert fun _ => ?_
  cases hfifo : s.fifo with
  | nil => exact ⟨by simp, by simp⟩
  | cons nextTid fifo =>
    cases ht : s.threads nextTid with
    | none =>
      simp only [ht]
      exact fun _ hx _ => hx
    | some t =>
      obtain ⟨th, hth, -⟩ := (h.sane.crew.mapped nextTid t).mp ht
      have hpopped : Inv { s with fifo := fifo } :=
        ⟨⟨h.sane.crew, h.sane.family, h.sane.watch, h.sane.unused, h.sane.current⟩, h.quiet⟩
      simp only [ht]
      refine (OK_spares hpopped hth).bind fun r hspared => ?_
      obtain ⟨ok, s'⟩ := r
      cases ok with
      | false => exact hspared
      | true => exact hspared

theorem apply_spares (h : Inv s) {c : Command} (hf : s.Fresh c) :
    Ensures (s.apply c) NoStray (Spared (s.killed c) s) := by
  cases c with
  | fork p t => exact fork_spares h hf.1
  | clone t => exact clone_spares h
  | exec t => exact exec_spares h
  | exit returnCode => exact exit_spares h
  | texit returnCode => exact texit_spares h
  | wait pid => exact wait_spares h
  | run => exact run_spares h
  | preempt =>
    unfold apply timerHandler
    cases hc : s.current with
    | none => exact fun _ hx _ => hx
    | some t =>
      obtain ⟨th, hth⟩ := h.sane.current_thread hc
      simp only [stopCurent_eq hc hth]
      exact fun _ hx _ => hx

end Tasks

end SupOS
