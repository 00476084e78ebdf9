import SupOS.Processes.Turns
import SupOS.Descriptors.Loss

/-! The threads that are registered with streams over every command: they exist, and so do the
streams. -/

namespace SupOS

open Lib Libcpp

namespace Tasks

variable {s : Tasks} {t : Nat} {th : Thread}

/-- The running thread has given way. -/
theorem Inv.stop (h : Inv s) : Inv { s.quit with fifo := s.fifo ++ [th.tid] } :=
  ⟨⟨h.sane.quit.crew, h.sane.quit.family, h.sane.quit.watch, h.sane.quit.unused,
    h.sane.quit.current⟩, h.quiet⟩

theorem Inv.requeue (h : Inv s) (fifo : List Nat) : Inv { s with fifo := fifo } :=
  ⟨⟨h.sane.crew, h.sane.family, h.sane.watch, h.sane.unused, h.sane.current⟩, h.quiet⟩

theorem Inv.launch (h : Inv s) (hth : s.threadAt t = some th) : Inv { s with current := some t } := by
  refine ⟨⟨h.sane.crew, h.sane.family, h.sane.watch, h.sane.unused, fun u hu hnone => ?_⟩, h.quiet⟩
  obtain rfl : t = u := Option.some.inj hu
  exact absurd (hth.symm.trans hnone) (by simp)

end Tasks

namespace Kernel

open Descriptors (lost discards)

variable {s s' : Kernel} {t p o room fd : Nat} {th : Thread} {a : Answer}

/-- What holds between the commands. -/
structure Inv (s : Kernel) : Prop where
  tasks : s.tasks.Inv
  books : ∃ L, Descriptors.Books L s.fds
  reads : Protocol.Inv ⟨s.reads, fun t => (s.tasks.threadAt t).isSome⟩
  streams : ∀ t o, t ∈ s.reads.waitings o → s.fds.owners.count o ≠ none
  single : ∀ t, s.reads.waiting t ≠ ∅ → ∃ o, s.reads.waiting t = {o}
  running : ∀ t, s.tasks.current = some t →
    s.tasks.waits.waiting t = ∅ ∧ s.reads.waiting t = ∅
  exclusive : ∀ t, s.reads.waiting t ≠ ∅ → s.tasks.waits.waiting t = ∅

/-- A thread that waits for no stream is idle as far as streams are concerned. -/
theorem Inv.readsIdle (h : Inv s) (ht : s.reads.waiting t = ∅) : s.reads.isIdle t = true :=
  Protocol.isIdle_eq_true.mpr ⟨(h.reads.sound.released t ht).2.1, ht⟩

theorem Inv.waitsIdle (h : Inv s) (ht : s.tasks.waits.waiting t = ∅) :
    s.tasks.waits.isIdle t = true :=
  Protocol.isIdle_eq_true.mpr ⟨(h.tasks.sane.watch.inv.sound.released t ht).2.1, ht⟩

/-- A slot of a table shares an object that exists. -/
theorem Inv.slot (h : Inv s) {v : Table} {desc : FileDescriptor} (hv : s.fds.tables.lookup p = some v)
    (hdesc : desc ∈ v.data) (ho : desc.owners = some o) : s.fds.owners.count o ≠ none := by
  obtain ⟨L, hB⟩ := h.books
  obtain ⟨l₁, l₂, htables, -, -⟩ := Descriptors.split_table hv
  have hmem : desc ∈ s.fds.slots ++ L :=
    List.mem_append_left _ (List.mem_flatMap.mpr ⟨(p, v), by simp [htables], hdesc⟩)
  have hpos := sharing_pos.mpr ⟨desc, hmem, ho⟩
  rw [hB.balanced.count, countOf, if_neg (by omega)]
  exact Option.some_ne_none _

theorem table_eq_ok {v : Table} (hv : s.fds.table p = .ok v) : s.fds.tables.lookup p = some v := by
  unfold Descriptors.table at hv
  cases hl : s.fds.tables.lookup p with
  | none =>
    rw [hl] at hv
    cases hv
  | some w =>
    rw [hl] at hv
    exact congrArg some (Except.ok.inj hv)

/-- What a call on a table changes. -/
structure Called (p : Nat) (c : Descriptors.Call) (s s' : Kernel) : Prop where
  tasks : s'.tasks = s.tasks
  reads : s'.reads = s.reads
  reading : s'.reading = s.reading
  streams : ∀ v, s.fds.tables.lookup p = some v → ∀ o, s.fds.owners.count o ≠ none →
    o ∉ lost s.fds.owners (discards v c) → s'.fds.owners.count o ≠ none

theorem call_inv {c : Descriptors.Call} (h : Inv s) (hroom : room < kernelSpace)
    (hc : ∀ child, c ≠ .fork child) (hm : c.Machine) (hs : s.call room p c = .ok s') :
    Inv s' ∧ Called p c s s' := by
  obtain ⟨v, htable, hs⟩ := bind_eq_ok.mp hs
  obtain ⟨_, hassert, hs⟩ := bind_eq_ok.mp hs
  obtain ⟨fds, hfds, hs⟩ := bind_eq_ok.mp hs
  obtain rfl := pure_eq_ok.mp hs
  have hv := table_eq_ok htable
  obtain ⟨L, hB⟩ := h.books
  obtain ⟨hbooks, hkeeps⟩ := Descriptors.apply_keeps hB
    ⟨hroom, ⟨v, hv⟩, fun child hchild => absurd hchild (hc child), hm⟩ hv hc hfds
  have hnone : ∀ o ∈ lost s.fds.owners (discards v c), s.reads.waitings o = ∅ := by
    intro o ho
    have hall := List.all_eq_true.mp (assert_eq_ok.mp hassert) o ho
    exact of_decide_eq_true hall
  refine ⟨⟨h.tasks, hbooks, h.reads, fun t o ht => ?_, h.single, h.running, h.exclusive⟩,
    rfl, rfl, rfl, fun w hw o ho hlost => ?_⟩
  · refine hkeeps o (h.streams t o ht) fun hlost => ?_
    rw [hnone o hlost] at ht
    exact Finset.notMem_empty t ht
  · obtain rfl : v = w := Option.some.inj (hv.symm.trans hw)
    exact hkeeps o ho hlost

/-- The scheduler's part of a command, with the fields of a new thread. -/
theorem Inv.turn {tasks : Tasks} {c : Tasks.Command} (h : Inv s) (hf : s.tasks.Fresh c)
    (hends : ∀ u ∈ s.tasks.ends c, s.reads.waiting u = ∅)
    (hnext : c = .run → ∀ u, s.tasks.next = some u → s.reads.waiting u = ∅)
    (hs : s.tasks.apply c = .ok tasks) :
    Inv { s with tasks, reads := (Tasks.newcomer c).elim s.reads s.renew } := by
  have hturn := (Tasks.apply_turn h.tasks hf).of_ok hs
  set reads := (Tasks.newcomer c).elim s.reads s.renew with hreads
  have hlists : reads.waitings = s.reads.waitings := by
    rw [hreads]
    cases Tasks.newcomer c <;> rfl
  have hless : ∀ u, reads.waiting u = ∅ ∨ reads.waiting u = s.reads.waiting u := by
    intro u
    rw [hreads]
    cases Tasks.newcomer c with
    | none => exact .inr rfl
    | some t =>
      simp only [Option.elim_some, renew]
      by_cases hut : u = t
      · exact .inl (if_pos hut)
      · exact .inr (if_neg hut)
  have hfresh : ∀ t, Tasks.newcomer c = some t → s.tasks.threadAt t = none := by
    intro t ht
    cases c with
    | fork p u =>
      obtain rfl := Option.some.inj ht
      exact hf.2
    | clone u =>
      obtain rfl := Option.some.inj ht
      exact hf
    | exec u =>
      obtain rfl := Option.some.inj ht
      exact hf
    | exit | texit | wait | run | preempt => cases ht
  have hsurvive : ∀ u o, u ∈ s.reads.waitings o → (tasks.threadAt u).isSome = true := by
    intro u o hu
    obtain ⟨halive, hmem⟩ := h.reads.registered u o hu
    refine Option.isSome_iff_ne_none.mpr (hturn.stays u ?_ fun hend => ?_)
    · exact Option.isSome_iff_ne_none.mp halive
    · rw [hends u hend] at hmem
      exact Finset.notMem_empty o hmem
  refine ⟨((Tasks.apply_spec h.tasks hf).of_ok hs).inv, h.books, ?_, ?_, ?_, ?_, ?_⟩
  · rw [hreads]
    cases hnew : Tasks.newcomer c with
    | none => exact h.reads.survivors hsurvive
    | some t =>
      have hdead : (s.tasks.threadAt t).isSome = false := by simp [hfresh t hnew]
      exact (h.reads.build (t := t) hdead).survivors hsurvive
  · intro t o ht
    rw [hlists] at ht
    exact h.streams t o ht
  · intro t ht
    rcases hless t with hempty | hsame
    · exact absurd hempty ht
    · rw [hsame] at ht ⊢
      exact h.single t ht
  · intro u hu
    change tasks.current = some u at hu
    change tasks.waits.waiting u = ∅ ∧ reads.waiting u = ∅
    rcases hturn.current u hu with hold | ⟨hrun, hnextu, hempty⟩
    · obtain ⟨hwaits, hidle⟩ := h.running u hold
      constructor
      · by_contra hne
        rcases hturn.waiting u hne with hne' | ⟨-, hnone⟩
        · exact hne' hwaits
        · rw [hu] at hnone
          cases hnone
      · rcases hless u with hempty | hsame
        · exact hempty
        · rw [hsame, hidle]
    · refine ⟨hempty, ?_⟩
      rcases hless u with hempty' | hsame
      · exact hempty'
      · rw [hsame]
        exact hnext hrun u hnextu
  · intro u hu
    change tasks.waits.waiting u = ∅
    have hold : s.reads.waiting u ≠ ∅ := by
      rcases hless u with hempty | hsame
      · exact absurd hempty hu
      · exact hsame ▸ hu
    by_contra hne
    rcases hturn.waiting u hne with hne' | ⟨hcur, -⟩
    · exact hne' (h.exclusive u hold)
    · exact hold (h.running u hcur).2

/-- The threads and the streams that exist still do. -/
structure Keeps (s s' : Kernel) : Prop where
  threads : ∀ t, s.tasks.threadAt t ≠ none → s'.tasks.threadAt t ≠ none
  streams : ∀ o, s.fds.owners.count o ≠ none → s'.fds.owners.count o ≠ none

theorem settle_eq {old : Tasks} {c : Tasks.Command} (hfork : ∀ p t, c ≠ .fork p t) :
    s.settle room old c = (old.reaps c).elim (.ok s) (s.call room · .destroy) := by
  unfold settle
  cases c with
  | fork p t => exact absurd rfl (hfork p t)
  | clone | exec | exit | texit | wait | run | preempt =>
    simp only
    split <;> rename_i hr <;> rw [hr] <;> rfl

theorem settle_inv {old : Tasks} {c : Tasks.Command} (h : Inv s) (hroom : room < kernelSpace)
    (hs : s.settle room old c = .ok s') : Inv s' ∧ s'.tasks = s.tasks ∧ s'.reads = s.reads ∧
      (old.reaps c = none → ∀ o, s.fds.owners.count o ≠ none → s'.fds.owners.count o ≠ none) := by
  by_cases hfork : ∃ p t, c = .fork p t
  · obtain ⟨p, t, rfl⟩ := hfork
    obtain ⟨cur, -, hs⟩ := bind_eq_ok.mp hs
    obtain ⟨th, -, hs⟩ := bind_eq_ok.mp hs
    obtain ⟨fds, hfork, hs⟩ := bind_eq_ok.mp hs
    obtain rfl := pure_eq_ok.mp hs
    obtain ⟨v, hv⟩ : ∃ v, s.fds.tables.lookup th.process = some v := by
      obtain ⟨v, htable, -⟩ := bind_eq_ok.mp hfork
      exact ⟨v, table_eq_ok htable⟩
    obtain ⟨L, hB⟩ := h.books
    have hkeeps := fun o => Descriptors.fork_keeps (o := o) hB hv hroom hfork
    exact ⟨⟨h.tasks, ⟨L, (hkeeps 0).1⟩, h.reads, fun t o ht => (hkeeps o).2 (h.streams t o ht),
      h.single, h.running, h.exclusive⟩, rfl, rfl, fun _ o ho => (hkeeps o).2 ho⟩
  · rw [settle_eq fun p t hc => hfork ⟨p, t, hc⟩] at hs
    cases hr : old.reaps c with
    | none =>
      rw [hr] at hs
      obtain rfl := Except.ok.inj hs
      exact ⟨h, rfl, rfl, fun _ _ ho => ho⟩
    | some q =>
      rw [hr] at hs
      obtain ⟨hinv, hcalled⟩ := call_inv h hroom (fun _ he => by cases he)
        (show Descriptors.Call.Machine .destroy from trivial) hs
      exact ⟨hinv, hcalled.tasks, hcalled.reads, fun hnone => by cases hnone⟩

theorem task_inv {c : Tasks.Command} (h : Inv s) (hroom : room < kernelSpace)
    (hf : s.tasks.Fresh c)
    (hnext : c = .run → ∀ u, s.tasks.next = some u → s.reads.waiting u = ∅)
    (hs : s.task room c = .ok s') : Inv s' ∧
      (s.tasks.ends c = [] → s.tasks.reaps c = none → Keeps s s') := by
  obtain ⟨_, hassert, hs⟩ := bind_eq_ok.mp hs
  obtain ⟨tasks, htasks, hs⟩ := bind_eq_ok.mp hs
  obtain ⟨_, -, hs⟩ := bind_eq_ok.mp hs
  have hends : ∀ u ∈ s.tasks.ends c, s.reads.waiting u = ∅ := fun u hu =>
    (Protocol.isIdle_eq_true.mp (List.all_eq_true.mp (assert_eq_ok.mp hassert) u hu)).2
  obtain ⟨hinv, hsame, -, hstreams⟩ := settle_inv (h.turn hf hends hnext htasks) hroom hs
  refine ⟨hinv, fun hnone hreaps => ⟨fun t ht => ?_, hstreams hreaps⟩⟩
  rw [hsame]
  apply ((Tasks.apply_turn h.tasks hf).of_ok htasks).stays t ht
  rw [hnone]
  exact List.not_mem_nil

theorem block_inv (h : Inv s) (hc : s.tasks.current = some t) (hth : s.tasks.threadAt t = some th)
    (hs : s.block t p fd = .ok s') : Inv s' ∧ Keeps s s' := by
  obtain ⟨v, htable, hs⟩ := bind_eq_ok.mp hs
  have hv := table_eq_ok htable
  cases hdesc : v.data[fd]? with
  | none =>
    simp only [hdesc] at hs
    cases hs
  | some desc =>
    simp only [hdesc] at hs
    cases howners : desc.owners with
    | none =>
      simp only [howners] at hs
      cases hs
    | some o =>
      simp only [howners] at hs
      obtain ⟨_, hassert, hs⟩ := bind_eq_ok.mp hs
      obtain ⟨reads, hwait, hs⟩ := bind_eq_ok.mp hs
      rw [Tasks.stopCurent_eq hc hth, ok_bind] at hs
      obtain rfl := pure_eq_ok.mp hs
      have hidle := (Protocol.isIdle_eq_true.mp (assert_eq_ok.mp hassert)).2
      have hlive : s.fds.owners.count o ≠ none :=
        h.slot hv (List.mem_of_getElem? hdesc) howners
      have halive : (s.tasks.threadAt t).isSome = true := by simp [hth]
      have hreads := h.reads.wait (S := {o}) halive hwait
      obtain ⟨-, -, hset⟩ := Protocol.wait_eq_ok hwait
      have hwaiting : ∀ u, reads.waiting u = if u = t then {o} else s.reads.waiting u := by
        intro u
        rw [hset]
        rfl
      refine ⟨⟨h.tasks.stop, h.books, hreads, fun u o' hu => ?_, fun u hu => ?_,
        (fun u hu => by cases hu), fun u hu => ?_⟩, fun _ hu => hu, fun _ ho => ho⟩
      · rw [hset, Protocol.mem_register, Finset.mem_singleton] at hu
        rcases hu with ⟨rfl, -⟩ | hu
        · exact hlive
        · exact h.streams u o' hu
      · change reads.waiting u ≠ ∅ at hu
        change ∃ o, reads.waiting u = {o}
        rw [hwaiting] at hu ⊢
        by_cases hut : u = t
        · exact ⟨o, if_pos hut⟩
        · rw [if_neg hut] at hu ⊢
          exact h.single u hu
      · change reads.waiting u ≠ ∅ at hu
        change s.tasks.waits.waiting u = ∅
        by_cases hut : u = t
        · rw [hut]
          exact hidle
        · rw [hwaiting, if_neg hut] at hu
          exact h.exclusive u hu

theorem sysread_inv {r : Nat × Kernel} (h : Inv s) (hs : s.sysread fd a = .ok r) :
    Inv r.2 ∧ Keeps s r.2 := by
  obtain ⟨t, henter, hs⟩ := bind_eq_ok.mp hs
  obtain ⟨th, hthread, hs⟩ := bind_eq_ok.mp hs
  obtain ⟨res, -, hs⟩ := bind_eq_ok.mp hs
  have hc : s.tasks.current = some t := Tasks.enterSys_spec.of_ok henter
  obtain ⟨th', hth'⟩ := h.tasks.sane.current_thread hc
  split at hs
  · obtain ⟨s', hblock, hs⟩ := bind_eq_ok.mp hs
    obtain rfl := pure_eq_ok.mp hs
    exact block_inv h hc hth' hblock
  · obtain rfl := pure_eq_ok.mp hs
    exact ⟨h, fun _ ht => ht, fun _ ho => ho⟩

/-- What a check of a thread that waits for a stream leaves. -/
structure Checked (t : Nat) (s : Kernel) (r : Bool × Kernel) : Prop where
  inv : Inv r.2
  tasks : r.2.tasks = s.tasks
  fds : r.2.fds = s.fds
  ready : r.1 = true → r.2.reads.waiting t = ∅

theorem OK_inv {r : Bool × Kernel} (h : Inv s) (hc : s.tasks.current = none)
    (hth : s.tasks.threadAt t = some th) (hs : s.OK t a = .ok r) : Checked t s r := by
  unfold OK at hs
  cases hw : s.reads.waited t with
  | none =>
    rw [hw] at hs
    obtain rfl := Except.ok.inj hs
    exact ⟨h, rfl, rfl, of_decide_eq_true⟩
  | some w =>
    rw [hw] at hs
    have hwaited : s.reads.waited t ≠ none := by simp [hw]
    have halive : (s.tasks.threadAt t).isSome = true := by simp [hth]
    obtain ⟨th', -, hs⟩ := bind_eq_ok.mp hs
    cases hreading : s.reading t with
    | none =>
      simp only [hreading] at hs
      cases hs
    | some fd =>
      simp only [hreading] at hs
      obtain ⟨res, -, hs⟩ := bind_eq_ok.mp hs
      split at hs
      · obtain ⟨s₁, hrefuse, hs⟩ := bind_eq_ok.mp hs
        obtain rfl := pure_eq_ok.mp hs
        unfold refuse at hrefuse
        split at hrefuse
        · rename_i hlive
          obtain rfl := Except.ok.inj hrefuse
          refine ⟨⟨h.tasks, h.books, h.reads.refuse halive, fun u o hu => ?_, h.single,
            h.running, h.exclusive⟩, rfl, rfl, fun he => by cases he⟩
          rcases Protocol.mem_register.mp hu with ⟨ho, -⟩ | hu
          · exact hlive o ho
          · exact h.streams u o hu
        · cases hrefuse
      · obtain rfl := pure_eq_ok.mp hs
        have hne : s.reads.waiting t ≠ ∅ :=
          Finset.ne_empty_of_mem (h.reads.waited t w hw).2
        obtain ⟨o, ho⟩ := h.single t hne
        have haccept := h.reads.accept (h.reads.allFreed_of_singleton ho hwaited)
        have hwaiting : ∀ u, ((s.reads.clearWaited t).accept t).waiting u ≠ ∅ →
            ((s.reads.clearWaited t).accept t).waiting u = s.reads.waiting u := by
          intro u hu
          by_cases hut : u = t
          · exact absurd (if_pos hut) hu
          · exact if_neg hut
        refine ⟨⟨h.tasks, h.books, haccept, h.streams, fun u hu => ?_,
          fun u hu => absurd (hc.symm.trans hu) (by simp), fun u hu => ?_⟩, rfl, rfl,
          fun _ => if_pos rfl⟩
        · have hsame := hwaiting u hu
          exact hsame ▸ h.single u (hsame ▸ hu)
        · exact h.exclusive u (hwaiting u hu ▸ hu)

theorem Inv.retask {tasks : Tasks} (h : Inv s) (ht : tasks.Inv)
    (hthreads : tasks.threadAt = s.tasks.threadAt) (hwaits : tasks.waits = s.tasks.waits)
    (hrunning : ∀ t, tasks.current = some t →
      s.tasks.waits.waiting t = ∅ ∧ s.reads.waiting t = ∅) : Inv { s with tasks } := by
  refine ⟨ht, h.books, ?_, h.streams, h.single, fun t hc => ?_, fun t hne => ?_⟩
  · rw [hthreads]
    exact h.reads
  · rw [hwaits]
    exact hrunning t hc
  · rw [hwaits]
    exact h.exclusive t hne

theorem run_inv (h : Inv s) (hroom : room < kernelSpace) (hs : s.run room a = .ok s') :
    Inv s' ∧ ((∃ t, s.tasks.next = some t ∧ s.reads.waiting t ≠ ∅) → Keeps s s') := by
  obtain ⟨_, hassert, hs⟩ := bind_eq_ok.mp hs
  have hc : s.tasks.current = none := Option.isNone_iff_eq_none.mp (assert_eq_ok.mp hassert)
  cases hfifo : s.tasks.fifo with
  | nil =>
    rw [hfifo] at hs
    cases hs
  | cons nextTid fifo =>
    simp only [hfifo] at hs
    have hnext : s.tasks.next = s.tasks.threads nextTid := by simp [Tasks.next, hfifo]
    cases ht : s.tasks.threads nextTid with
    | none =>
      simp only [ht] at hs
      refine ⟨(task_inv h hroom (show s.tasks.Fresh .run from trivial) (fun _ u hu => ?_) hs).1, fun hu => ?_⟩
      · rw [hnext, ht] at hu
        cases hu
      · obtain ⟨u, hu, -⟩ := hu
        rw [hnext, ht] at hu
        cases hu
    | some t =>
      simp only [ht] at hs
      split at hs
      · rename_i hempty
        refine ⟨(task_inv h hroom (show s.tasks.Fresh .run from trivial) (fun _ u hu => ?_) hs).1, fun hu => ?_⟩
        · obtain rfl : t = u := Option.some.inj (ht.symm.trans (hnext.symm.trans hu))
          exact hempty
        · obtain ⟨u, hu, hne⟩ := hu
          obtain rfl : t = u := Option.some.inj (ht.symm.trans (hnext.symm.trans hu))
          exact absurd hempty hne
      · rename_i hne
        obtain ⟨th, hth, -⟩ := (h.tasks.sane.crew.mapped nextTid t).mp ht
        have hpopped : Inv { s with tasks := { s.tasks with fifo := fifo } } :=
          h.retask (h.tasks.requeue fifo) rfl rfl h.running
        obtain ⟨⟨ok, s₁⟩, hOK, hs⟩ := bind_eq_ok.mp hs
        obtain rfl := pure_eq_ok.mp hs
        obtain ⟨hinv, htasks, hfds, hready⟩ := OK_inv hpopped hc hth hOK
        simp only at htasks hfds hready
        have hcurrent : s₁.tasks.current = none := by
          rw [htasks]
          exact hc
        have hthreads : s₁.tasks.threadAt = s.tasks.threadAt := by rw [htasks]
        refine ⟨?_, fun _ => ⟨fun u hu => ?_, fun o ho => ?_⟩⟩
        · cases ok with
          | false =>
            refine hinv.retask (hinv.tasks.requeue _) rfl rfl fun u hu => ?_
            exact absurd (hcurrent.symm.trans hu) (by simp)
          | true =>
            have hth₁ : s₁.tasks.threadAt t = some th := by rw [hthreads, hth]
            refine hinv.retask (hinv.tasks.launch hth₁) rfl rfl fun u hu => ?_
            obtain rfl : t = u := Option.some.inj hu
            refine ⟨?_, hready rfl⟩
            rw [htasks]
            exact h.exclusive t hne
        · cases ok with
          | false => exact fun hnone => hu (hthreads ▸ hnone)
          | true => exact fun hnone => hu (hthreads ▸ hnone)
        · change s₁.fds.owners.count o ≠ none
          rw [hfds]
          exact ho

theorem free_inv (h : Inv s) (o : Nat) : Inv { s with reads := s.reads.free o } := by
  refine ⟨h.tasks, h.books, h.reads.free o, fun t w ht => ?_, h.single, h.running, h.exclusive⟩
  simp only [Waits.free] at ht
  split at ht
  · exact absurd ht (Finset.notMem_empty t)
  · exact h.streams t w ht

end Kernel

end SupOS
