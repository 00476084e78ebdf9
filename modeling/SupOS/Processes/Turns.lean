import SupOS.Processes.Assertions
import SupOS.Processes.Blocking

/-! What a command does to the threads that exist, to those that wait for a child and to the one that
runs. -/

namespace SupOS

open Lib

namespace Tasks

variable {s s' : Tasks} {M : Nat → Nat → Prop} {p q t tid pid : Nat} {pro : Process} {th : Thread}

/-- The thread whose number is at the front of the queue. -/
def next (s : Tasks) : Option Nat := s.fifo.head?.bind s.threads

/-- Only the running thread begins to wait, and gives way then; a thread that begins to run waits for
nothing. -/
structure Turn (c : Command) (s s' : Tasks) : Prop where
  stays : ∀ u, s.threadAt u ≠ none → u ∉ s.ends c → s'.threadAt u ≠ none
  waiting : ∀ u, s'.waits.waiting u ≠ ∅ →
    s.waits.waiting u ≠ ∅ ∨ s.current = some u ∧ s'.current = none
  current : ∀ u, s'.current = some u →
    s.current = some u ∨ c = .run ∧ s.next = some u ∧ s'.waits.waiting u = ∅

theorem caller_eq (hc : s.current = some t) (hth : s.threadAt t = some th)
    (hpro : s.processAt th.process = some pro) : s.caller = some pro := by
  simp [caller, hc, hth, hpro]

theorem preempt_turn (h : Inv s) : Ensures (s.apply .preempt) NoStray (Turn .preempt s) := by
  unfold apply timerHandler
  cases hc : s.current with
  | none => exact ⟨fun _ hu _ => hu, fun _ hu => .inl hu, fun _ hu => .inl hu⟩
  | some t =>
    obtain ⟨th, hth⟩ := h.sane.current_thread hc
    simp only [stopCurent_eq hc hth]
    exact ⟨fun _ hu _ => hu, fun _ hu => .inl hu, fun _ hu => by cases hu⟩

theorem exit_turn (h : Inv s) {returnCode : Nat} :
    Ensures (s.exit returnCode) NoStray (Turn (.exit returnCode) s) := by
  unfold exit
  refine enterSys_spec.bind fun t hc => ?_
  obtain ⟨th, pro, hth, hpro, -, -⟩ := h.running hc
  simp only [thread_eq hth, ok_bind]
  have hs₁ : Sane s.Listed s.quit := h.sane.quit
  have hM : ∀ u, u ∈ pro.threads → ∃ q, s.Listed q u := fun u hu => ⟨_, pro, hpro, hu⟩
  refine ((terminate_spec hs₁ hpro hM).and (terminate_waits hs₁ hpro hM)).mono (fun _ he => he)
    fun s' ⟨⟨_, hend⟩, q, hfree⟩ => ⟨fun u hu hno => ?_, fun u hu => ?_, fun u hu => ?_⟩
  · rw [hend.threadAt]
    rw [ends, caller_eq hc hth hpro] at hno
    have hnot : u ∉ pro.threads := hno
    rw [if_neg hnot]
    exact hu
  · rw [hfree] at hu
    exact .inl hu
  · rw [hend.still.current] at hu
    cases hu

theorem texit_turn (h : Inv s) {returnCode : Nat} :
    Ensures (s.texit returnCode) NoStray (Turn (.texit returnCode) s) := by
  unfold texit
  refine enterSys_spec.bind fun t hc => ?_
  obtain ⟨th, pro, hth, hpro, -, -⟩ := h.running hc
  have hs₁ : Sane s.Listed s.quit := h.sane.quit
  have hth₁ : s.quit.threadAt t = some th := hth
  have hpro₁ : s.quit.processAt th.process = some pro := hpro
  refine ((terminateThread_spec hs₁ hth₁ hpro₁).and (terminateThread_waits hs₁ hth₁ hpro₁)).bind
    fun s₂ ⟨⟨hs₂, _, hleft⟩, hwaits⟩ => ?_
  have hth₂ : s₂.threadAt t = some th := by rw [hleft.threadAt, hth₁]
  refine (deleteThread_spec hs₂ hth₂).mono (fun _ he => he) fun s' ⟨_, hdel⟩ =>
    ⟨fun u hu hno => ?_, fun u hu => ?_, fun u hu => ?_⟩
  · have hut : u ∉ [t] := by simpa [ends, hc, eq_comm] using hno
    rw [hdel.threadAt, if_neg hut, hleft.threadAt]
    exact hu
  · rw [hdel.waits] at hu
    rcases hwaits with hsame | ⟨q, hfree⟩
    · rw [hsame] at hu
      exact .inl hu
    · rw [hfree] at hu
      exact .inl hu
  · rw [hdel.still.current, hleft.still.current] at hu
    cases hu

/-- A new thread waits for nothing. -/
theorem newThread_turn (hp : s.processAt p = some pro) :
    Ensures (s.newThread t tid p) NoStray fun s' =>
      s'.threadAt = put s.threadAt t (some ⟨tid, p, none⟩) ∧ s'.current = s.current ∧
        ∀ u, s'.waits.waiting u ≠ ∅ → s.waits.waiting u ≠ ∅ := by
  unfold newThread addThread
  simp only [addT, process, hp, ok_bind]
  refine ⟨rfl, rfl, fun u hu => ?_⟩
  simp only [setProcess] at hu
  split at hu
  · exact absurd rfl hu
  · exact hu

theorem exec_turn (h : Inv s) : Ensures (s.exec t) NoStray (Turn (.exec t) s) := by
  unfold exec
  refine enterSys_spec.bind fun old hc => ?_
  obtain ⟨th, pro, hth, hpro, -, -⟩ := h.running hc
  have hquit := h.sane.quit
  set s₁ : Tasks := { s.quit with fifo := s.fifo ++ [th.tid] } with hs₁def
  have hs₁ : Sane s.Listed s₁ :=
    ⟨hquit.crew, hquit.family, hquit.watch, hquit.unused, hquit.current⟩
  have hpro₁ : s₁.processAt th.process = some pro := hpro
  simp only [thread_eq hth, stopCurent_eq hc hth, ok_bind, ← hs₁def]
  refine (clear_spec hs₁ hpro₁ fun u hu => ⟨_, pro, hpro, hu⟩).bind fun s₂ ⟨_, hclear⟩ => ?_
  have hpro₂ : s₂.processAt th.process = some { pro with threads := .empty } := by
    rw [hclear.processAt, put_self]
  simp only [process_eq hpro₂, ok_bind]
  refine (newThread_turn hpro₂).mono (fun _ he => he) fun s' ⟨hthread, hcur, hwaiting⟩ =>
    ⟨fun u hu hno => ?_, fun u hu => ?_, fun u hu => ?_⟩
  · rw [ends, caller_eq hc hth hpro] at hno
    have hnot : u ∉ pro.threads := hno
    rw [hthread]
    by_cases hut : u = t
    · simp [hut]
    · rw [put_of_ne _ _ hut, hclear.threadAt, if_neg hnot]
      exact hu
  · have hold := hwaiting u hu
    rw [hclear.waits] at hold
    exact .inl hold
  · rw [hcur, hclear.still.current] at hu
    cases hu

theorem clone_turn (h : Inv s) : Ensures (s.clone t) NoStray (Turn (.clone t) s) := by
  unfold clone
  refine enterSys_spec.bind fun old hc => ?_
  obtain ⟨th, pro, hth, hpro, -, -⟩ := h.running hc
  simp only [thread_eq hth, ok_bind]
  refine (getFreshTid_spec h.sane.unused).bind fun r ⟨b, hr, _⟩ => ?_
  obtain ⟨newTid, s₁⟩ := r
  simp only at hr
  subst hr
  refine (newThread_turn (s := { s with tids := b }) hpro).mono (fun _ he => he)
    fun s' ⟨hthread, hcur, hwaiting⟩ => ⟨fun u hu _ => ?_, fun u hu => ?_, fun u hu => ?_⟩
  · rw [hthread]
    by_cases hut : u = t
    · simp [hut]
    · rw [put_of_ne _ _ hut]
      exact hu
  · exact .inl (hwaiting u hu)
  · rw [hcur] at hu
    exact .inl hu

theorem fork_turn (h : Inv s) (hp : s.processAt p = none) :
    Ensures (s.fork p t) NoStray (Turn (.fork p t) s) := by
  unfold fork
  refine enterSys_spec.bind fun old hc => ?_
  obtain ⟨th, pro, hth, hpro, -, -⟩ := h.running hc
  simp only [thread_eq hth, ok_bind]
  refine (getFreshTid_spec h.sane.unused).bind fun r ⟨b, hr, _⟩ => ?_
  obtain ⟨newTid, s₁⟩ := r
  simp only at hr
  subst hr
  have hne : th.process ≠ p := by
    intro heq
    rw [heq, hp] at hpro
    cases hpro
  have hgid : pro.gid = 1 := h.sane.family.gid _ _ (kinAt_eq hpro)
  obtain ⟨pros, hg, -⟩ := h.sane.family.members
  have hg' : s.groups pro.gid = some pros := by rw [hgid, hg]
  simp only [newProcess, newThread, addP, addT, addThread, addChild, getG, process, setProcess,
    put_self, put_put, put_of_ne _ _ hne, hpro, hg', ok_bind, pure, Except.pure, Ensures.ok]
  refine ⟨fun u hu _ => ?_, fun u hu => ?_, fun u hu => .inl hu⟩
  · by_cases hut : u = t
    · simp [hut]
    · exact fun hnone => hu ((put_of_ne _ _ hut).symm.trans hnone)
  · simp only at hu
    split at hu
    · exact absurd rfl hu
    · exact .inl hu

/-- A look for a child changes no thread and no wait. -/
theorem nbwaitp_turn (h : Core s.Listed s) (hp : s.processAt p = some pro)
    (hquiet : ∀ p pro, s.processAt p = some pro → pro.terminated = true → ∀ t, t ∉ pro.threads)
    (c : Checker) : Ensures (s.nbwaitp p c) NoStray fun r =>
      r.2.threadAt = s.threadAt ∧ r.2.waits = s.waits ∧ r.2.current = s.current := by
  refine (nbwaitp_spec h hp hquiet c).mono (fun _ he => he) fun r ⟨_, hwaited⟩ => ?_
  cases hq : s.reaped p c with
  | none =>
    rw [(hwaited.stays hq).1]
    exact ⟨rfl, rfl, rfl⟩
  | some q =>
    obtain ⟨-, -, i, -, hreap⟩ := hwaited.reaps q hq
    exact ⟨hreap.threadAt, hreap.waits, hreap.still.current⟩

theorem waitp_turn (h : Inv s) (hc : s.current = some t) (hth : s.threadAt t = some th)
    (hp : s.processAt th.process = some pro) (c : Checker) :
    Ensures (s.waitp t c) NoStray fun r => Turn (.wait pid) s r.2 := by
  unfold waitp
  simp only [thread_eq hth, ok_bind]
  refine (nbwaitp_turn h.sane.core hp h.quiet c).bind fun r ⟨hthread, hwaits, hcur⟩ => ?_
  obtain ⟨res, s₁⟩ := r
  simp only at hthread hwaits hcur
  by_cases hres : res = .EBLOCK
  · rw [if_pos hres]
    refine ensures_wait.bind fun waits' hw => ?_
    obtain ⟨-, -, hwaits'⟩ := Protocol.wait_eq_ok hw
    set s₂ : Tasks := { s₁ with
      threadAt := put s₁.threadAt t (some { th with checker := some c }), waits := waits' } with hs₂
    have hth₂ : s₂.threadAt t = some { th with checker := some c } := put_self _ _ _
    simp only [stopCurent_eq (show s₂.current = some t from hcur.trans hc) hth₂, ok_bind]
    refine ⟨fun u hu _ => ?_, fun u hu => ?_, fun u hu => by cases hu⟩
    · change put s₁.threadAt t _ u ≠ none
      by_cases hut : u = t
      · simp [hut]
      · rw [put_of_ne _ _ hut, hthread]
        exact hu
    · change waits'.waiting u ≠ ∅ at hu
      by_cases hut : u = t
      · exact .inr ⟨hut ▸ hc, rfl⟩
      · rw [hwaits', hwaits] at hu
        exact .inl (by simpa [Waits.register, hut] using hu)
  · rw [if_neg hres]
    refine ⟨fun u hu _ => ?_, fun u hu => ?_, fun u hu => ?_⟩
    · rw [hthread]
      exact hu
    · rw [hwaits] at hu
      exact .inl hu
    · rw [hcur] at hu
      exact .inl hu

theorem wait_turn (h : Inv s) : Ensures (s.apply (.wait pid)) NoStray (Turn (.wait pid) s) := by
  unfold apply syswait
  refine Ensures.bind (Q := fun r => Turn (.wait pid) s r.2) ?_ fun _ hr => Ensures.ok.mpr hr
  refine enterSys_spec.bind fun t hc => ?_
  obtain ⟨th, pro, hth, hpro, -⟩ := h.running hc
  split
  · exact waitp_turn h hc hth hpro .any
  · unfold getP
    cases s.processes pid with
    | none => exact ⟨by simp, by simp⟩
    | some q => exact waitp_turn h hc hth hpro (.child q)

/-- A check of the thread `t` ends at most its own wait. -/
theorem OK_turn (h : Inv s) (hth : s.threadAt t = some th) :
    Ensures (s.OK t) NoStray fun r => r.2.threadAt = s.threadAt ∧ r.2.current = s.current ∧
      (∀ u, r.2.waits.waiting u ≠ ∅ → s.waits.waiting u ≠ ∅) ∧
      (r.1 = true → r.2.waits.waiting t = ∅) := by
  unfold OK
  cases hw : s.waits.waited t with
  | none => exact ⟨rfl, rfl, fun _ hu => hu, fun hempty => of_decide_eq_true hempty⟩
  | some w =>
    have hne : s.waits.waiting t ≠ ∅ := Finset.ne_empty_of_mem (h.sane.watch.inv.waited t w hw).2
    obtain ⟨th', c, hth', -, hc⟩ := h.sane.watch.own t hne
    obtain rfl : th' = th := Option.some.inj (hth'.symm.trans hth)
    obtain ⟨-, pro, hpro⟩ := h.sane.owner hth
    have hth₁ : thread { s with waits := s.waits.clearWaited t } t = .ok th' := thread_eq hth
    simp only [hth₁, hc, ok_bind]
    set s₁ : Tasks := { s with waits := s.waits.clearWaited t }
    have hcore : Core s₁.Listed s₁ := ⟨h.sane.crew, h.sane.family, h.sane.unused, h.sane.current⟩
    refine (nbwaitp_turn hcore hpro h.quiet c).bind fun r ⟨hthread, hwaits, hcur⟩ => ?_
    obtain ⟨res, s₂⟩ := r
    simp only at hthread hwaits hcur
    refine ⟨hthread, hcur, fun u hu => ?_, fun hok => of_decide_eq_true hok⟩
    simp only [hwaits] at hu
    split at hu
    · exact hu
    · by_cases hut : u = t
      · exact absurd (if_pos hut) hu
      · simp only [Waits.accept, if_neg hut] at hu
        exact hu

theorem run_turn (h : Inv s) : Ensures (s.apply .run) NoStray (Turn .run s) := by
  unfold apply run
  refine ensures_bind_assert fun hcur => ?_
  have hcur := Option.isNone_iff_eq_none.mp hcur
  cases hfifo : s.fifo with
  | nil => exact ⟨by simp, by simp⟩
  | cons nextTid fifo =>
    cases ht : s.threads nextTid with
    | none =>
      simp only [ht]
      exact ⟨fun _ hu _ => hu, fun _ hu => .inl hu, fun _ hu => .inl hu⟩
    | some t =>
      obtain ⟨th, hth, -⟩ := (h.sane.crew.mapped nextTid t).mp ht
      have hpopped : Inv { s with fifo := fifo } :=
        ⟨⟨h.sane.crew, h.sane.family, h.sane.watch, h.sane.unused, h.sane.current⟩, h.quiet⟩
      simp only [ht]
      refine (OK_turn hpopped hth).bind fun r ⟨hthread, hcur', hwaiting, hok⟩ => ?_
      obtain ⟨ok, s'⟩ := r
      simp only at hthread hcur' hwaiting hok
      cases ok with
      | false =>
        refine ⟨fun u hu _ => ?_, fun u hu => .inl (hwaiting u hu), fun u hu => ?_⟩
        · change s'.threadAt u ≠ none
          rw [hthread]
          exact hu
        · exact .inl (hcur'.symm.trans hu)
      | true =>
        refine ⟨fun u hu _ => ?_, fun u hu => .inl (hwaiting u hu), fun u hu => ?_⟩
        · change s'.threadAt u ≠ none
          rw [hthread]
          exact hu
        · obtain rfl : t = u := Option.some.inj hu
          exact .inr ⟨rfl, by simp [next, hfifo, ht], hok rfl⟩

theorem apply_turn (h : Inv s) {c : Command} (hf : s.Fresh c) :
    Ensures (s.apply c) NoStray (Turn c s) := by
  cases c with
  | fork p t => exact fork_turn h hf.1
  | clone t => exact clone_turn h
  | exec t => exact exec_turn h
  | exit returnCode => exact exit_turn h
  | texit returnCode => exact texit_turn h
  | wait pid => exact wait_turn h
  | run => exact run_turn h
  | preempt => exact preempt_turn h

end Tasks

end SupOS
