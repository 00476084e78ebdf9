import SupOS.Processes.Unawaited
import SupOS.Processes.Living
import SupOS.Pipes.System
import SupOS.Descriptors.Held

/-! The objects that live processes have descriptors of, and the threads that are blocked on a stream,
over one command. -/

namespace SupOS

open Lib Libcpp

theorem Tasks.thread_eq_ok {s : Tasks} {t : Nat} {th : Thread} (h : s.thread t = .ok th) :
    s.threadAt t = some th := by
  unfold Tasks.thread at h
  cases hth : s.threadAt t with
  | none =>
    rw [hth] at h
    cases h
  | some th' =>
    rw [hth] at h
    exact congrArg some (Except.ok.inj h)

namespace Kernel

variable {s s' : Kernel} {t p o room fd : Nat} {th : Thread} {a : Answer} {c : Command}

/-- A process that has not terminated has a descriptor of the object. -/
def Holds (s : Kernel) (o : Nat) : Prop :=
  ∃ p v, s.tasks.Live p ∧ s.fds.tables.lookup p = some v ∧ 0 < sharing v.data o

/-- The address of the process of the running thread. -/
def callerAt (s : Kernel) : Option Nat := do
  let th ← s.tasks.threadAt (← s.tasks.current)
  return th.process

/-- The descriptors that a call takes out of the table of `p`. -/
def taken (s : Kernel) (p : Nat) (v : Table) : Call → List FileDescriptor
  | .table call => if s.callerAt = some p then v.taken call else []
  | _ => []

/-- The process that a call terminates. -/
def killed (s : Kernel) : Call → Option Nat
  | .task task => s.tasks.killed task
  | _ => none

/-- A live process has more descriptors of the object than the call takes from it. -/
def Leaves (s : Kernel) (c : Call) (o : Nat) : Prop :=
  ∃ p v, s.tasks.Live p ∧ s.fds.tables.lookup p = some v ∧ s.killed c ≠ some p ∧
    sharing (s.taken p v c) o < sharing v.data o

/-- The thread is blocked on the object, and no wake-up is pending. -/
def Asleep (s : Kernel) (t o : Nat) : Prop := s.reads.waiting t = {o} ∧ s.reads.waited t = none

/-- The tables of live processes are as they were. -/
structure Undisturbed (k : Option Nat) (s s' : Kernel) : Prop where
  live : Tasks.Spared k s.tasks s'.tasks
  tables : ∀ p, s.tasks.Live p → k ≠ some p → s'.fds.tables.lookup p = s.fds.tables.lookup p

theorem Undisturbed.holds {k : Option Nat} (h : Undisturbed k s s') (hc : s.killed c.call = k)
    (hnone : ∀ p v, s.taken p v c.call = []) (hl : s.Leaves c.call o) : s'.Holds o := by
  obtain ⟨p, v, hlive, hv, hk, hlt⟩ := hl
  rw [hc] at hk
  rw [hnone] at hlt
  exact ⟨p, v, h.live p hlive hk, (h.tables p hlive hk).trans hv, hlt⟩

/-- The scheduler's part of a command, and what becomes of the tables. -/
theorem task_undisturbed {c : Tasks.Command} (h : Inv s) (hf : s.tasks.Fresh c)
    (hs : s.task room c = .ok s') : Undisturbed (s.tasks.killed c) s s' := by
  obtain ⟨_, -, hs⟩ := bind_eq_ok.mp hs
  obtain ⟨tasks, htasks, hs⟩ := bind_eq_ok.mp hs
  obtain ⟨_, -, hs⟩ := bind_eq_ok.mp hs
  have hspared := (Tasks.apply_spares h.tasks hf).of_ok htasks
  have heffect := ((Tasks.apply_spec h.tasks hf).of_ok htasks).effect
  by_cases hfork : ∃ p t, c = .fork p t
  · obtain ⟨p, t, rfl⟩ := hfork
    obtain ⟨cur, -, hs⟩ := bind_eq_ok.mp hs
    obtain ⟨th, -, hs⟩ := bind_eq_ok.mp hs
    obtain ⟨fds, hfork, hs⟩ := bind_eq_ok.mp hs
    obtain rfl := pure_eq_ok.mp hs
    refine ⟨hspared, fun x hx _ => Descriptors.fork_spares hfork ?_⟩
    rintro rfl
    obtain ⟨pro, hpro, -⟩ := hx
    exact absurd (hf.1.symm.trans hpro) (by simp)
  · rw [settle_eq fun p t hc => hfork ⟨p, t, hc⟩] at hs
    cases hr : s.tasks.reaps c with
    | none =>
      rw [hr] at hs
      obtain rfl := Except.ok.inj hs
      exact ⟨hspared, fun _ _ _ => rfl⟩
    | some q =>
      rw [hr] at hs
      obtain ⟨v, -, hs⟩ := bind_eq_ok.mp hs
      obtain ⟨_, -, hs⟩ := bind_eq_ok.mp hs
      obtain ⟨fds, hdestroy, hs⟩ := bind_eq_ok.mp hs
      obtain rfl := pure_eq_ok.mp hs
      refine ⟨hspared, fun x hx hk => Descriptors.destroy_spares hdestroy ?_⟩
      -- What is reaped is gone, and the live processes are still there.
      rintro rfl
      obtain ⟨pro, hpro, -⟩ := hspared x hx hk
      rw [hr] at heffect
      cases heffect with
      | reaps hq hreaps =>
        obtain rfl := Option.some.inj hq
        exact absurd (hreaps.gone.symm.trans hpro) (by simp)
      | calm hn _ | ends hn _ | sleeps hn _ => cases hn

theorem Undisturbed.of_same (htasks : s'.tasks.processAt = s.tasks.processAt)
    (hfds : s'.fds.tables = s.fds.tables) : Undisturbed none s s' := by
  refine ⟨fun p hp _ => ?_, fun p _ _ => by rw [hfds]⟩
  unfold Tasks.Live
  rw [htasks]
  exact hp

/-- What the running thread's read does: it is asleep afterwards if `nbread` blocks, and else nothing. -/
structure Slept (fd : Nat) (a : Answer) (s s' : Kernel) : Prop where
  undisturbed : Undisturbed none s s'
  fds : s'.fds = s.fds
  asleep : ∀ u x, s'.Asleep u x → s.Asleep u x ∨ ∃ th v desc, s.tasks.current = some u ∧
    s.tasks.threadAt u = some th ∧ s.nbread th.process fd a = .ok (errno EBLOCK) ∧
    s.fds.tables.lookup th.process = some v ∧ v.data[fd]? = some desc ∧ desc.owners = some x

theorem sysread_slept {r : Nat × Kernel} (hs : s.sysread fd a = .ok r) : Slept fd a s r.2 := by
  obtain ⟨t, henter, hs⟩ := bind_eq_ok.mp hs
  obtain ⟨th, hthread, hs⟩ := bind_eq_ok.mp hs
  obtain ⟨res, hres, hs⟩ := bind_eq_ok.mp hs
  have hc : s.tasks.current = some t := Tasks.enterSys_spec.of_ok henter
  have hth : s.tasks.threadAt t = some th := Tasks.thread_eq_ok hthread
  split at hs
  · rename_i hblocks
    subst hblocks
    obtain ⟨s', hblock, hs⟩ := bind_eq_ok.mp hs
    obtain rfl := pure_eq_ok.mp hs
    obtain ⟨v, htable, hs⟩ := bind_eq_ok.mp hblock
    cases hdesc : v.data[fd]? with
    | none =>
      simp only [hdesc] at hs
      cases hs
    | some desc =>
      simp only [hdesc] at hs
      cases howners : desc.owners with
      | none =>
        simp only [howners] at hs
        cases hs
      | some o =>
        simp only [howners] at hs
        obtain ⟨_, -, hs⟩ := bind_eq_ok.mp hs
        obtain ⟨reads, hwait, hs⟩ := bind_eq_ok.mp hs
        rw [Tasks.stopCurent_eq hc hth, ok_bind] at hs
        obtain rfl := pure_eq_ok.mp hs
        obtain ⟨-, -, hset⟩ := Protocol.wait_eq_ok hwait
        refine ⟨.of_same rfl rfl, rfl, fun u x hu => ?_⟩
        by_cases hut : u = t
        · subst hut
          refine .inr ⟨th, v, desc, hc, hth, hres, table_eq_ok htable, hdesc, ?_⟩
          have hwaiting : reads.waiting u = {o} := by
            rw [hset]
            exact if_pos rfl
          have hsame : ({o} : Finset Nat) = {x} := hwaiting.symm.trans hu.1
          rw [howners, Finset.singleton_injective hsame]
        · refine .inl ?_
          unfold Asleep at hu ⊢
          simp only [hset, Waits.register, if_neg hut] at hu
          exact hu
  · obtain rfl := pure_eq_ok.mp hs
    exact ⟨.of_same rfl rfl, rfl, fun _ _ hu => .inl hu⟩

/-- What a look at a thread that waits for a stream does: it is asleep again if `nbread` blocks, and else
it is not. -/
structure Rechecked (t : Nat) (a : Answer) (s s' : Kernel) : Prop where
  undisturbed : Undisturbed none s s'
  fds : s'.fds = s.fds
  asleep : ∀ u x, s'.Asleep u x → s.Asleep u x ∨ u = t ∧ ∃ th fd, s.reads.waited t ≠ none ∧
    s.tasks.threadAt t = some th ∧ s.reading t = some fd ∧
    s.nbread th.process fd a = .ok (errno EBLOCK) ∧ s.reads.waiting t = {x}

theorem OK_rechecked {r : Bool × Kernel} (hs : s.OK t a = .ok r) : Rechecked t a s r.2 := by
  unfold OK at hs
  cases hw : s.reads.waited t with
  | none =>
    rw [hw] at hs
    obtain rfl := Except.ok.inj hs
    exact ⟨.of_same rfl rfl, rfl, fun _ _ hu => .inl hu⟩
  | some w =>
    rw [hw] at hs
    obtain ⟨th, hthread, hs⟩ := bind_eq_ok.mp hs
    have hth : s.tasks.threadAt t = some th := Tasks.thread_eq_ok hthread
    cases hreading : s.reading t with
    | none =>
      simp only [hreading] at hs
      cases hs
    | some fd =>
      simp only [hreading] at hs
      obtain ⟨res, hres, hs⟩ := bind_eq_ok.mp hs
      split at hs
      · rename_i hblocks
        subst hblocks
        obtain ⟨s₁, hrefuse, hs⟩ := bind_eq_ok.mp hs
        obtain rfl := pure_eq_ok.mp hs
        unfold refuse at hrefuse
        split at hrefuse
        · obtain rfl := Except.ok.inj hrefuse
          refine ⟨.of_same rfl rfl, rfl, fun u x hu => ?_⟩
          by_cases hut : u = t
          · subst hut
            exact .inr ⟨rfl, th, fd, by simp [hw], hth, hreading, hres, hu.1⟩
          · refine .inl ⟨hu.1, ?_⟩
            have hwaited := hu.2
            simp only [Waits.refuse, Waits.register, Waits.clearWaited, if_neg hut] at hwaited
            exact hwaited
        · cases hrefuse
      · obtain rfl := pure_eq_ok.mp hs
        refine ⟨.of_same rfl rfl, rfl, fun u x hu => ?_⟩
        have hwaiting := hu.1
        have hwaited := hu.2
        simp only [Waits.accept, Waits.clearWaited] at hwaiting hwaited
        by_cases hut : u = t
        · rw [if_pos hut] at hwaiting
          exact absurd hwaiting.symm (Finset.singleton_ne_empty x)
        · rw [if_neg hut] at hwaiting hwaited
          exact .inl ⟨hwaiting, hwaited⟩

/-- A round of the scheduler that looks at a thread which waits for a stream. -/
theorem run_rechecked {nextTid : Nat} {fifo : List Nat} (hfifo : s.tasks.fifo = nextTid :: fifo)
    (ht : s.tasks.threads nextTid = some t) (hwaiting : s.reads.waiting t ≠ ∅)
    (hs : s.run room a = .ok s') : Rechecked t a s s' := by
  obtain ⟨_, -, hs⟩ := bind_eq_ok.mp hs
  simp only [hfifo, ht, if_neg hwaiting] at hs
  obtain ⟨⟨ok, s₁⟩, hOK, hs⟩ := bind_eq_ok.mp hs
  obtain rfl := pure_eq_ok.mp hs
  obtain ⟨hu, hfds, hasleep⟩ := OK_rechecked hOK
  have hrest : Undisturbed none s { s₁ with tasks :=
      if ok then { s₁.tasks with current := some t }
      else { s₁.tasks with fifo := s₁.tasks.fifo ++ [nextTid] } } := by
    refine ⟨fun p hp hk => ?_, hu.tables⟩
    have hlive : s₁.tasks.Live p := hu.live p hp hk
    cases ok with
    | false => exact hlive
    | true => exact hlive
  exact ⟨hrest, hfds, hasleep⟩

/-- Any other round is one of the scheduler alone. -/
theorem run_eq_task (hnext : ∀ t, s.tasks.next = some t → s.reads.waiting t = ∅)
    (hs : s.run room a = .ok s') : s.task room .run = .ok s' := by
  obtain ⟨_, -, hs⟩ := bind_eq_ok.mp hs
  cases hfifo : s.tasks.fifo with
  | nil =>
    rw [hfifo] at hs
    cases hs
  | cons nextTid fifo =>
    have hhead : s.tasks.next = s.tasks.threads nextTid := by simp [Tasks.next, hfifo]
    cases ht : s.tasks.threads nextTid with
    | none =>
      simp only [hfifo, ht] at hs
      exact hs
    | some t =>
      simp only [hfifo, ht, if_pos (hnext t (hhead.trans ht))] at hs
      exact hs

theorem settle_reads {old : Tasks} {c : Tasks.Command} (hs : s.settle room old c = .ok s') :
    s'.reads = s.reads := by
  by_cases hfork : ∃ p t, c = .fork p t
  · obtain ⟨p, t, rfl⟩ := hfork
    obtain ⟨cur, -, hs⟩ := bind_eq_ok.mp hs
    obtain ⟨th, -, hs⟩ := bind_eq_ok.mp hs
    obtain ⟨fds, -, hs⟩ := bind_eq_ok.mp hs
    obtain rfl := pure_eq_ok.mp hs
    rfl
  · rw [settle_eq fun p t hc => hfork ⟨p, t, hc⟩] at hs
    cases hr : old.reaps c with
    | none =>
      rw [hr] at hs
      obtain rfl := Except.ok.inj hs
      rfl
    | some q =>
      rw [hr] at hs
      obtain ⟨v, -, hs⟩ := bind_eq_ok.mp hs
      obtain ⟨_, -, hs⟩ := bind_eq_ok.mp hs
      obtain ⟨fds, -, hs⟩ := bind_eq_ok.mp hs
      obtain rfl := pure_eq_ok.mp hs
      rfl

/-- A command of the scheduler puts no thread to sleep on a stream. -/
theorem task_asleep {c : Tasks.Command} (hs : s.task room c = .ok s') {u x : Nat}
    (hu : s'.Asleep u x) : s.Asleep u x := by
  obtain ⟨_, -, hs⟩ := bind_eq_ok.mp hs
  obtain ⟨tasks, -, hs⟩ := bind_eq_ok.mp hs
  obtain ⟨_, -, hs⟩ := bind_eq_ok.mp hs
  unfold Asleep at hu ⊢
  rw [settle_reads hs] at hu
  cases hnew : Tasks.newcomer c with
  | none =>
    simp only [hnew, Option.elim_none] at hu
    exact hu
  | some t =>
    simp only [hnew, Option.elim_some, renew] at hu
    by_cases hut : u = t
    · rw [if_pos hut] at hu
      exact absurd hu.1.symm (Finset.singleton_ne_empty x)
    · rw [if_neg hut, if_neg hut] at hu
      exact hu

/-- A call on its table takes from a process what it drops. -/
theorem call_leaves {p : Nat} {call : Descriptors.Call} (h : Inv s) (hroom : room < kernelSpace)
    (hof : call.OfTable) (hm : call.Machine) (hcaller : s.callerAt = some p)
    (hl : s.Leaves (.table call) o) (hs : s.call room p call = .ok s') : s'.Holds o := by
  obtain ⟨v, htable, hs⟩ := bind_eq_ok.mp hs
  obtain ⟨_, -, hs⟩ := bind_eq_ok.mp hs
  obtain ⟨fds, hfds, hs⟩ := bind_eq_ok.mp hs
  obtain rfl := pure_eq_ok.mp hs
  have hv := table_eq_ok htable
  obtain ⟨L, hB⟩ := h.books
  have hfork : ∀ child, call ≠ .fork child := by
    rintro child rfl
    exact hof
  have hdestroy : call ≠ .destroy := by
    rintro rfl
    exact hof
  obtain ⟨⟨v', hv', hspares⟩, hothers⟩ := Descriptors.apply_spares hB
    ⟨hroom, ⟨v, hv⟩, fun child hchild => absurd hchild (hfork child), hm⟩ hv hfork hdestroy hfds
  obtain ⟨x, w, hlive, hw, -, hlt⟩ := hl
  by_cases hx : x = p
  · subst hx
    obtain rfl : v = w := Option.some.inj (hv.symm.trans hw)
    have hleft := hspares o
    simp only [taken, if_pos hcaller] at hlt
    exact ⟨x, v', hlive, hv', by omega⟩
  · exact ⟨x, w, hlive, (hothers x hx).trans hw, by omega⟩

/-- A command keeps an object that a live process has more descriptors of than it takes. -/
theorem apply_leaves (h : Inv s) (ha : Admits s c) (hl : s.Leaves c.call o)
    (hs : s.apply c = .ok s') : s'.Holds o := by
  obtain ⟨room, answer, call⟩ := c
  obtain ⟨hroom, hgiven⟩ := ha
  have htask : ∀ {task : Tasks.Command}, s.task room task = .ok s' → s.tasks.Fresh task →
      s.Leaves (.task task) o → s'.Holds o := fun hok hf hl =>
    (task_undisturbed h hf hok).holds (c := ⟨room, answer, .task _⟩) rfl (fun _ _ => rfl) hl
  cases call with
  | read fd =>
    obtain ⟨r, hread, rfl⟩ : ∃ r, s.sysread fd answer = .ok r ∧ r.2 = s' := by
      change (·.2) <$> s.sysread fd answer = .ok s' at hs
      cases hr : s.sysread fd answer with
      | error e =>
        rw [hr] at hs
        cases hs
      | ok r =>
        rw [hr] at hs
        exact ⟨r, rfl, Except.ok.inj hs⟩
    exact (sysread_slept hread).undisturbed.holds rfl (fun _ _ => rfl) hl
  | free o' =>
    obtain rfl := Except.ok.inj hs
    have hu : Undisturbed none s { s with reads := s.reads.free o' } := .of_same rfl rfl
    exact hu.holds (c := ⟨room, answer, .free o'⟩) rfl (fun _ _ => rfl) hl
  | table call =>
    obtain ⟨t, henter, hs⟩ := bind_eq_ok.mp hs
    obtain ⟨th, hthread, hs⟩ := bind_eq_ok.mp hs
    have hc : s.tasks.current = some t := Tasks.enterSys_spec.of_ok henter
    have hcaller : s.callerAt = some th.process := by
      simp [callerAt, hc, Tasks.thread_eq_ok hthread]
    exact call_leaves h hroom hgiven.2.1 hgiven.2.2 hcaller hl hs
  | task task =>
    cases task with
    | run =>
      by_cases hnext : ∀ t, s.tasks.next = some t → s.reads.waiting t = ∅
      · exact htask (run_eq_task hnext hs) trivial hl
      · obtain ⟨t, ht, hwaiting⟩ : ∃ t, s.tasks.next = some t ∧ s.reads.waiting t ≠ ∅ := by
          by_contra hnone
          exact hnext fun t ht => by_contra fun hne => hnone ⟨t, ht, hne⟩
        obtain ⟨nextTid, fifo, hfifo⟩ : ∃ nextTid fifo, s.tasks.fifo = nextTid :: fifo := by
          cases hfifo : s.tasks.fifo with
          | nil => simp [Tasks.next, hfifo] at ht
          | cons nextTid fifo => exact ⟨nextTid, fifo, rfl⟩
        have ht' : s.tasks.threads nextTid = some t := by simpa [Tasks.next, hfifo] using ht
        exact (run_rechecked hfifo ht' hwaiting hs).undisturbed.holds
          (c := ⟨room, answer, .task .run⟩) rfl (fun _ _ => rfl) hl
    | preempt => exact htask hs trivial hl
    | fork | clone | exec | exit | texit | wait => exact htask hs hgiven.2 hl

end Kernel

end SupOS
