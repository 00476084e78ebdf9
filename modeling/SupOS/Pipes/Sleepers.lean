import SupOS.Pipes.Holders

/-! Why a thread is blocked on a stream after a command, and what wakes it. -/

namespace SupOS

open Lib

namespace Kernel

variable {s s' : Kernel} {t p o u x fd : Nat} {a : Answer} {c : Command}

/-- A read that blocks has found no bytes and no end. -/
theorem nbread_blocks (hs : s.nbread p fd a = .ok (errno EBLOCK)) (ha : a.bytes < kernelSpace) :
    a.bytes = 0 ∧ a.eof = false := by
  unfold nbread at hs
  split at hs
  · cases hs
  obtain ⟨v, -, hs⟩ := bind_eq_ok.mp hs
  split at hs
  · cases hs
  split at hs
  · cases hs
  split at hs
  · cases hs
  split at hs
  · cases hs
  split at hs
  · cases hs
  split at hs
  · have hbytes := Except.ok.inj hs
    unfold errno EBLOCK at hbytes
    unfold kernelSpace at ha
    omega
  · rename_i hbytes
    split at hs
    · cases hs
    · rename_i heof
      exact ⟨not_not.mp hbytes, Bool.eq_false_iff.mpr heof⟩

/-- The sizes of tables leave room for their indices. -/
theorem Inv.index {v : Table} {desc : FileDescriptor} (h : Inv s)
    (hv : s.fds.tables.lookup p = some v) (hdesc : v.data[fd]? = some desc) : u32 fd = fd := by
  obtain ⟨L, hB⟩ := h.books
  obtain ⟨l₁, l₂, htables, -, -⟩ := Descriptors.split_table hv
  have hstored := hB.stored (p, v) (by simp [htables])
  have hsize : v.data.length ≤ v.capacity := hstored.size
  have hcapacity : v.capacity ≤ 2 ^ 30 := hstored.capacity
  obtain ⟨hlt, -⟩ := List.getElem?_eq_some_iff.mp hdesc
  exact u32_of_lt (by omega)

/-- Why a thread is asleep on a stream after a command. -/
inductive Sleeps (s : Kernel) (c : Command) (u x : Nat) : Prop
  | before (h : s.Asleep u x)
  | read {fd : Nat} {th : Thread} {v : Table} {desc : FileDescriptor} (hc : c.call = .read fd)
    (hcurrent : s.tasks.current = some u) (hth : s.tasks.threadAt u = some th)
    (hblocks : s.nbread th.process fd c.answer = .ok (errno EBLOCK))
    (hv : s.fds.tables.lookup th.process = some v) (hdesc : v.data[fd]? = some desc)
    (ho : desc.owners = some x)
  | again {p fd : Nat} (hc : c.call = .task .run) (hretried : s.retried = some (u, p, fd))
    (hblocks : s.nbread p fd c.answer = .ok (errno EBLOCK)) (ho : s.reads.waiting u = {x})

theorem apply_sleeps (h : Inv s) (ha : Admits s c) (hs : s.apply c = .ok s')
    (hu : s'.Asleep u x) : s.Sleeps c u x := by
  obtain ⟨room, answer, call⟩ := c
  obtain ⟨hroom, hgiven⟩ := ha
  cases call with
  | read fd =>
    obtain ⟨r, hread, rfl⟩ : ∃ r, s.sysread fd answer = .ok r ∧ r.2 = s' := by
      change (·.2) <$> s.sysread fd answer = .ok s' at hs
      cases hr : s.sysread fd answer with
      | error e =>
        rw [hr] at hs
        cases hs
      | ok r =>
        rw [hr] at hs
        exact ⟨r, rfl, Except.ok.inj hs⟩
    rcases (sysread_slept hread).asleep u x hu with hold | ⟨th, v, desc, hc, hth, hb, hv, hd, ho⟩
    · exact .before hold
    · exact .read rfl hc hth hb hv hd ho
  | free o =>
    obtain rfl := Except.ok.inj hs
    obtain ⟨hwaiting, hwaited⟩ := hu
    refine .before ⟨hwaiting, ?_⟩
    simp only [Waits.free] at hwaited
    split at hwaited
    · cases hwaited
    · exact hwaited
  | table call =>
    obtain ⟨t, -, hs⟩ := bind_eq_ok.mp hs
    obtain ⟨th, -, hs⟩ := bind_eq_ok.mp hs
    obtain ⟨-, hof, hm⟩ := hgiven
    have hfork : ∀ child, call ≠ .fork child := by
      rintro child rfl
      exact hof
    have hreads := (call_inv h hroom hfork hm hs).2.reads
    refine .before ?_
    unfold Asleep at hu ⊢
    rwa [hreads] at hu
  | task task =>
    cases task with
    | run =>
      by_cases hnext : ∀ t, s.tasks.next = some t → s.reads.waiting t = ∅
      · exact .before (task_asleep (run_eq_task hnext hs) hu)
      · obtain ⟨t, ht, hwaiting⟩ : ∃ t, s.tasks.next = some t ∧ s.reads.waiting t ≠ ∅ := by
          by_contra hnone
          exact hnext fun t ht => by_contra fun hne => hnone ⟨t, ht, hne⟩
        obtain ⟨nextTid, fifo, hfifo⟩ : ∃ nextTid fifo, s.tasks.fifo = nextTid :: fifo := by
          cases hfifo : s.tasks.fifo with
          | nil => simp [Tasks.next, hfifo] at ht
          | cons nextTid fifo => exact ⟨nextTid, fifo, rfl⟩
        have ht' : s.tasks.threads nextTid = some t := by simpa [Tasks.next, hfifo] using ht
        rcases (run_rechecked hfifo ht' hwaiting hs).asleep u x hu with
          hold | ⟨rfl, th, fd, hwaited, hth, hreading, hblocks, hset⟩
        · exact .before hold
        · obtain ⟨w, hw⟩ := Option.ne_none_iff_exists'.mp hwaited
          have hretried : s.retried = some (u, th.process, fd) := by
            simp [retried, hfifo, ht', hw, hth, hreading, hwaiting]
          exact .again rfl hretried hblocks hset
    | _ => exact .before (task_asleep hs hu)

/-- A thread that is asleep is registered with what it waits for. -/
theorem Inv.enlisted (h : Inv s) (hu : s.Asleep u x) : u ∈ s.reads.waitings x := by
  by_contra hnot
  exact h.reads.pending u x (by rw [hu.1]; exact Finset.mem_singleton_self x) hnot hu.2

theorem Inv.free_asleep (h : Inv s) (hu : s.Asleep u x) (hne : o ≠ x) :
    Asleep { s with reads := s.reads.free o } u x := by
  have hout : u ∉ s.reads.waitings o := by
    intro hin
    have hmem := (h.reads.registered u o hin).2
    rw [hu.1, Finset.mem_singleton] at hmem
    exact hne hmem
  exact ⟨hu.1, (if_neg hout).trans hu.2⟩

/-- Only a call of `free` wakes a thread. -/
theorem apply_asleep (h : Inv s) (ha : Admits s c) (hs : s.apply c = .ok s') (hu : s.Asleep u x)
    (hc : c.call ≠ .free x) : s'.Asleep u x := by
  obtain ⟨room, answer, call⟩ := c
  obtain ⟨hroom, hgiven⟩ := ha
  have hne : s.reads.waiting u ≠ ∅ := by simp [hu.1]
  have htask : ∀ {task : Tasks.Command}, s.task room task = .ok s' → s.tasks.Fresh task →
      s'.Asleep u x := by
    intro task hs hf
    obtain ⟨_, -, hs⟩ := bind_eq_ok.mp hs
    obtain ⟨tasks, -, hs⟩ := bind_eq_ok.mp hs
    obtain ⟨_, -, hs⟩ := bind_eq_ok.mp hs
    unfold Asleep
    rw [settle_reads hs]
    cases hnew : Tasks.newcomer task with
    | none => exact hu
    | some t =>
      have hfresh : s.tasks.threadAt t = none := by
        cases task with
        | fork p t' =>
          obtain rfl := Option.some.inj hnew
          exact hf.2
        | clone t' | exec t' =>
          obtain rfl := Option.some.inj hnew
          exact hf
        | exit | texit | wait | run | preempt => cases hnew
      have hut : u ≠ t := by
        rintro rfl
        have halive := (h.reads.registered u x (h.enlisted hu)).1
        simp [hfresh] at halive
      simpa [Asleep, renew, if_neg hut] using hu
  cases call with
  | read fd =>
    change (·.2) <$> s.sysread fd answer = .ok s' at hs
    cases hr : s.sysread fd answer with
    | error e =>
      rw [hr] at hs
      cases hs
    | ok r =>
      rw [hr] at hs
      obtain rfl := Except.ok.inj hs
      obtain ⟨t, henter, hr⟩ := bind_eq_ok.mp hr
      obtain ⟨th, hthread, hr⟩ := bind_eq_ok.mp hr
      obtain ⟨res, -, hr⟩ := bind_eq_ok.mp hr
      have hcurrent : s.tasks.current = some t := Tasks.enterSys_spec.of_ok henter
      have hth := Tasks.thread_eq_ok hthread
      have hut : u ≠ t := by
        rintro rfl
        exact hne (h.running u hcurrent).2
      split at hr
      · obtain ⟨s₁, hblock, hr⟩ := bind_eq_ok.mp hr
        obtain rfl := pure_eq_ok.mp hr
        obtain ⟨v, -, hblock⟩ := bind_eq_ok.mp hblock
        split at hblock
        · cases hblock
        split at hblock
        · cases hblock
        obtain ⟨_, -, hblock⟩ := bind_eq_ok.mp hblock
        obtain ⟨reads, hwait, hblock⟩ := bind_eq_ok.mp hblock
        rw [Tasks.stopCurent_eq hcurrent hth, ok_bind] at hblock
        obtain rfl := pure_eq_ok.mp hblock
        obtain ⟨-, -, rfl⟩ := Protocol.wait_eq_ok hwait
        simpa [Asleep, Waits.register, if_neg hut] using hu
      · obtain rfl := pure_eq_ok.mp hr
        exact hu
  | free o =>
    obtain rfl := Except.ok.inj hs
    exact h.free_asleep hu fun heq => hc (by rw [heq])
  | table call =>
    obtain ⟨t, -, hs⟩ := bind_eq_ok.mp hs
    obtain ⟨th, -, hs⟩ := bind_eq_ok.mp hs
    obtain ⟨-, hof, hm⟩ := hgiven
    have hfork : ∀ child, call ≠ .fork child := by
      rintro child rfl
      exact hof
    have hreads := (call_inv h hroom hfork hm hs).2.reads
    unfold Asleep
    rw [hreads]
    exact hu
  | task task =>
    cases task with
    | run =>
      by_cases hnext : ∀ t, s.tasks.next = some t → s.reads.waiting t = ∅
      · exact htask (run_eq_task hnext hs) trivial
      · obtain ⟨t, ht, hwaiting⟩ : ∃ t, s.tasks.next = some t ∧ s.reads.waiting t ≠ ∅ := by
          by_contra hnone
          exact hnext fun t ht => by_contra fun hne => hnone ⟨t, ht, hne⟩
        obtain ⟨nextTid, fifo, hfifo⟩ : ∃ nextTid fifo, s.tasks.fifo = nextTid :: fifo := by
          cases hfifo : s.tasks.fifo with
          | nil => simp [Tasks.next, hfifo] at ht
          | cons nextTid fifo => exact ⟨nextTid, fifo, rfl⟩
        have ht' : s.tasks.threads nextTid = some t := by simpa [Tasks.next, hfifo] using ht
        obtain ⟨_, -, hs⟩ := bind_eq_ok.mp hs
        simp only [hfifo, ht', if_neg hwaiting] at hs
        obtain ⟨⟨ok, s₁⟩, hOK, hs⟩ := bind_eq_ok.mp hs
        obtain rfl := pure_eq_ok.mp hs
        change s₁.Asleep u x
        unfold OK at hOK
        split at hOK
        · obtain rfl := (Prod.mk.inj (Except.ok.inj hOK)).2
          exact hu
        · rename_i w hw
          have hut : u ≠ t := by
            rintro rfl
            have hnone := hu.2
            simp only at hw
            rw [hnone] at hw
            cases hw
          obtain ⟨th, -, hOK⟩ := bind_eq_ok.mp hOK
          split at hOK
          · cases hOK
          obtain ⟨res, -, hOK⟩ := bind_eq_ok.mp hOK
          split at hOK
          · obtain ⟨s₂, hrefuse, hOK⟩ := bind_eq_ok.mp hOK
            obtain ⟨-, rfl⟩ := Prod.mk.inj (pure_eq_ok.mp hOK)
            unfold refuse at hrefuse
            split at hrefuse
            · obtain rfl := Except.ok.inj hrefuse
              simpa [Asleep, Waits.refuse, Waits.register, Waits.clearWaited, if_neg hut] using hu
            · cases hrefuse
          · obtain ⟨-, rfl⟩ := Prod.mk.inj (pure_eq_ok.mp hOK)
            simpa [Asleep, Waits.accept, Waits.clearWaited, if_neg hut] using hu
    | preempt => exact htask hs trivial
    | fork | clone | exec | exit | texit | wait => exact htask hs hgiven.2

end Kernel

end SupOS
