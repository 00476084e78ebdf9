import SupOS.Processes.Registered
import SupOS.Processes.Runs

/-! No thread is deleted while it waits and no stream while a thread waits for it, in the runs in which
no process ends or starts a program over the head of its blocked threads and no stream loses its last
descriptor while a thread is blocked on it. -/

namespace SupOS

open Lib Libcpp

namespace Descriptors.Call

/-- A call of a process on its own table. -/
def OfTable : Descriptors.Call → Prop
  | .fork _ | .exec | .destroy => False
  | _ => True

end Descriptors.Call

namespace Kernel

open Descriptors (lost discards)

variable {s s' : Kernel} {t p o room fd : Nat} {th : Thread} {a : Answer} {c : Command}

/-- The table of the running thread's process. -/
def table (s : Kernel) : Option Table := do
  let th ← s.tasks.threadAt (← s.tasks.current)
  s.fds.tables.lookup th.process

/-- System calls come from the running thread, the scheduler looks for a thread when none runs, and a
stream that calls `free` exists. -/
def Given (s : Kernel) : Call → Prop
  | .task .run => s.tasks.current = none
  | .task .preempt => True
  | .task task => s.tasks.current ≠ none ∧ s.tasks.Fresh task
  | .read fd => s.tasks.current ≠ none ∧ fd < 2 ^ 64
  | .table call => s.tasks.current ≠ none ∧ call.OfTable ∧ call.Machine
  | .free o => s.fds.owners.count o ≠ none

def Admits (s : Kernel) (c : Command) : Prop := c.room < kernelSpace ∧ s.Given c.call

/-- The call leaves a descriptor to each stream that a thread is blocked on. -/
def Spares (s : Kernel) (v : Table) (c : Descriptors.Call) : Prop :=
  ∀ o ∈ lost s.fds.owners (discards v c), s.reads.waitings o = ∅

/-- When a process ends or starts a program none of its other threads is blocked; and neither a call on
a table nor the end of a process takes the last descriptor of a stream from a blocked thread. -/
def Careful (s : Kernel) (c : Command) : Prop :=
  match c.call with
  | .task task =>
    (∀ t ∈ s.tasks.ends task, s.tasks.current ≠ some t →
      s.tasks.waits.waiting t = ∅ ∧ s.reads.waiting t = ∅) ∧
    ∀ q ∈ s.tasks.reaps task, ∀ v ∈ s.fds.tables.lookup q, s.Spares v .destroy
  | .table call => ∀ v ∈ s.table, s.Spares v call
  | .read _ | .free _ => True

/-- The call may delete a thread, a process or a stream. -/
def Deletes (s : Kernel) : Call → Prop
  | .task (.fork _ _) | .task (.clone _) | .read _ | .free _ => False
  | .task .run => ∀ t ∈ s.tasks.next, s.reads.waiting t = ∅
  | .task _ | .table (.sysclose _) => True
  | .table (.sysdup2 _ newfd) => ∀ v ∈ s.table, newfd < v.size ∨ u64 (newfd + 1) = 0
  | .table _ => False

/-- An assertion that is not about waits fails: in `run` that of a queue that is not empty, and in
`remThread` that of a main thread that has ended. -/
def Stalled (s : Kernel) : Call → Prop
  | .task .run => s.tasks.fifo = []
  | .task (.texit _) => ∃ t, s.tasks.current = some t ∧ ¬s.tasks.Dispensable t
  | _ => False

def machine : Lib.Machine Kernel Command Fault where
  start s := ∃ room p t d, room < kernelSpace ∧ boot room p t d = .ok s
  admits := Admits
  apply := apply

theorem call_meets {c : Descriptors.Call}
    (hspares : ∀ v, s.fds.tables.lookup p = some v → s.Spares v c)
    (happly : Ensures (s.fds.apply ⟨p, room, c⟩) NoAssertion fun _ => True) :
    Ensures (s.call room p c) NoAssertion fun _ => True := by
  unfold call Descriptors.table
  cases hv : s.fds.tables.lookup p with
  | none => exact fun he => by cases he
  | some v =>
    have hall : ((lost s.fds.owners (discards v c)).all fun o =>
        decide (s.reads.waitings o = ∅)) = true :=
      List.all_eq_true.mpr fun o ho => decide_eq_true (hspares v hv o ho)
    simp only [hall, ok_bind, assert_true]
    exact happly.bind fun _ _ => trivial

/-- The end of a process deletes its table. -/
theorem destroy_meets (hspares : ∀ v, s.fds.tables.lookup p = some v → s.Spares v .destroy) :
    Ensures (s.call room p .destroy) NoAssertion fun _ => True :=
  call_meets hspares Descriptors.destroy_meets

/-- A command of the scheduler that deletes no thread that waits. -/
theorem task_meets {c : Tasks.Command} (h : Inv s)
    (hends : ∀ t ∈ s.tasks.ends c, s.reads.waiting t = ∅)
    (hreaps : ∀ q, s.tasks.reaps c = some q → ∀ v, s.fds.tables.lookup q = some v →
      s.Spares v .destroy)
    (hfork : ∀ p t, c ≠ .fork p t)
    (happly : Ensures (s.tasks.apply c) NoAssertion fun _ => True) :
    Ensures (s.task room c) NoAssertion fun _ => True := by
  have hall : (s.tasks.ends c).all s.reads.isIdle = true :=
    List.all_eq_true.mpr fun t ht => h.readsIdle (hends t ht)
  have hwait : ∀ tasks, s.mayWait tasks c = true := by
    intro tasks
    unfold mayWait
    split
    · apply Bool.or_eq_true_iff.mpr
      right
      cases hc : s.tasks.current with
      | none => rfl
      | some t => exact h.readsIdle (h.running t hc).2
    · rfl
  unfold task
  simp only [hall, ok_bind, assert_true]
  refine happly.bind fun tasks _ => ?_
  simp only [hwait, ok_bind, assert_true]
  set s₁ : Kernel := { s with tasks, reads := (Tasks.newcomer c).elim s.reads s.renew }
  have hlists : s₁.reads.waitings = s.reads.waitings := by
    change ((Tasks.newcomer c).elim s.reads s.renew).waitings = s.reads.waitings
    cases Tasks.newcomer c <;> rfl
  rw [settle_eq hfork]
  cases hq : s.tasks.reaps c with
  | none => trivial
  | some q =>
    refine destroy_meets fun v hv o ho => ?_
    rw [hlists]
    exact hreaps q hq v hv o ho

/-- All threads of the caller are idle when its other threads wait for nothing. -/
theorem Inv.crew {pro : Process} {c : Tasks.Command} (h : Inv s)
    (hends : s.tasks.ends c = pro.threads.toList)
    (hcareful : ∀ u ∈ s.tasks.ends c, s.tasks.current ≠ some u →
      s.tasks.waits.waiting u = ∅ ∧ s.reads.waiting u = ∅) :
    (∀ u, u ∈ pro.threads → s.tasks.waits.isIdle u = true) ∧
      ∀ u ∈ s.tasks.ends c, s.reads.waiting u = ∅ := by
  have hall : ∀ u ∈ s.tasks.ends c, s.tasks.waits.waiting u = ∅ ∧ s.reads.waiting u = ∅ := by
    intro u hu
    by_cases hcur : s.tasks.current = some u
    · exact h.running u hcur
    · exact hcareful u hu hcur
  refine ⟨fun u hu => h.waitsIdle (hall u ?_).1, fun u hu => (hall u hu).2⟩
  rw [hends]
  exact hu

theorem run_meets (h : Inv s) (hc : s.tasks.current = none) (hfifo : s.tasks.fifo ≠ [])
    (hnext : ∀ t, s.tasks.next = some t → s.reads.waiting t = ∅)
    (hreaps : ∀ q, s.tasks.reaps .run = some q → ∀ v, s.fds.tables.lookup q = some v →
      s.Spares v .destroy) :
    Ensures (s.run room a) NoAssertion fun _ => True := by
  have htask : Ensures (s.task room .run) NoAssertion fun _ => True :=
    task_meets h (fun _ hu => absurd hu List.not_mem_nil) hreaps (fun _ _ he => by cases he)
      (Tasks.run_meets h.tasks hc hfifo)
  unfold run
  have hnone : s.tasks.current.isNone = true := by simp [hc]
  simp only [hnone, assert_true, ok_bind]
  cases hqueue : s.tasks.fifo with
  | nil => exact absurd hqueue hfifo
  | cons nextTid fifo =>
    have hhead : s.tasks.next = s.tasks.threads nextTid := by simp [Tasks.next, hqueue]
    cases ht : s.tasks.threads nextTid with
    | none =>
      simp only [ht]
      exact htask
    | some t =>
      simp only [ht, if_pos (hnext t (hhead.trans ht))]
      exact htask

/-- A careful command that deletes something meets its assertions. -/
theorem apply_meets (h : Inv s) (ha : Admits s c) (hcareful : Careful s c)
    (hdeletes : s.Deletes c.call) (hstalled : ¬s.Stalled c.call) :
    Ensures (s.apply c) NoAssertion fun _ => True := by
  obtain ⟨room, answer, call⟩ := c
  obtain ⟨hroom, hgiven⟩ := ha
  have hrunning : s.tasks.current ≠ none → ∃ t th pro, s.tasks.current = some t ∧
      s.tasks.threadAt t = some th ∧ s.tasks.processAt th.process = some pro ∧
      s.tasks.caller = some pro := by
    intro hne
    obtain ⟨t, hc⟩ := Option.ne_none_iff_exists'.mp hne
    obtain ⟨th, pro, hth, hpro, -⟩ := h.tasks.running hc
    exact ⟨t, th, pro, hc, hth, hpro, Tasks.caller_eq hc hth hpro⟩
  have htable : ∀ call, s.tasks.current ≠ none → (∀ v, s.table = some v → s.Spares v call) →
      (∀ p, (∀ v, s.fds.tables.lookup p = some v → s.table = some v) →
        Ensures (s.fds.apply ⟨p, room, call⟩) NoAssertion fun _ => True) →
      Ensures (s.apply ⟨room, answer, .table call⟩) NoAssertion fun _ => True := by
    intro call hne hspares hmeets
    obtain ⟨t, th, pro, hc, hth, -⟩ := hrunning hne
    have hown : ∀ v, s.fds.tables.lookup th.process = some v → s.table = some v := by
      intro v hv
      simp [table, hc, hth, hv]
    simp only [apply, Tasks.enterSys_meets hc, Tasks.thread_eq hth, ok_bind]
    exact call_meets (fun v hv => hspares v (hown v hv)) (hmeets th.process hown)
  cases call with
  | read fd => exact absurd hdeletes id
  | free o => exact absurd hdeletes id
  | table call =>
    cases call with
    | sysclose fd =>
      exact htable _ hgiven.1 hcareful fun p _ => Descriptors.call_meets fun _ _ =>
        Table.sysclose_meets
    | sysdup2 oldfd newfd =>
      exact htable _ hgiven.1 hcareful fun p hown => Descriptors.call_meets fun v hv =>
        Table.sysdup2_meets (hdeletes v (hown v hv))
    | sysopen | sysopend | sysdup | syspipe | fork | exec | destroy => exact absurd hdeletes id
  | task task =>
    cases task with
    | fork p t => exact absurd hdeletes id
    | clone t => exact absurd hdeletes id
    | exit returnCode =>
      obtain ⟨t, th, pro, hc, hth, hpro, hcaller⟩ := hrunning hgiven.1
      obtain ⟨hwaits, hreads⟩ := h.crew (by rw [Tasks.ends, hcaller]; rfl) hcareful.1
      exact task_meets h hreads hcareful.2 (fun _ _ he => by cases he)
        (Tasks.exit_meets h.tasks hc hth hpro hwaits)
    | exec u =>
      obtain ⟨t, th, pro, hc, hth, hpro, hcaller⟩ := hrunning hgiven.1
      obtain ⟨hwaits, hreads⟩ := h.crew (by rw [Tasks.ends, hcaller]; rfl) hcareful.1
      exact task_meets h hreads hcareful.2 (fun _ _ he => by cases he)
        (Tasks.exec_meets h.tasks hc hth hpro hwaits)
    | texit returnCode =>
      obtain ⟨t, th, pro, hc, hth, hpro, hcaller⟩ := hrunning hgiven.1
      obtain ⟨hwaits, hreads⟩ := h.running t hc
      have hmain : s.tasks.Dispensable t := by
        by_contra hno
        exact hstalled ⟨t, hc, hno⟩
      refine task_meets h (fun u hu => ?_) hcareful.2 (fun _ _ he => by cases he)
        (Tasks.texit_meets h.tasks hc (h.waitsIdle hwaits) hmain)
      rw [Tasks.ends, hc] at hu
      obtain rfl := List.mem_singleton.mp hu
      exact hreads
    | wait pid =>
      obtain ⟨t, th, pro, hc, hth, hpro, hcaller⟩ := hrunning hgiven.1
      have hmeets : Ensures (s.tasks.syswait pid) NoAssertion fun _ => True :=
        Tasks.syswait_meets h.tasks hc (h.waitsIdle (h.running t hc).1)
      exact task_meets h (fun _ hu => absurd hu List.not_mem_nil) hcareful.2
        (fun _ _ he => by cases he) (hmeets.bind fun _ _ => trivial)
    | run => exact run_meets h hgiven hstalled hdeletes hcareful.2
    | preempt =>
      exact task_meets h (fun _ hu => absurd hu List.not_mem_nil) hcareful.2
        (fun _ _ he => by cases he) Tasks.preempt_meets

theorem lost_nil (h : Owners) : lost h [] = [] := rfl

/-- A call that neither closes a slot nor writes to one drops nothing. -/
theorem discards_nil {v : Table} {call : Descriptors.Call} (hof : call.OfTable)
    (hm : call.Machine) (hv : s.table = some v) (hno : ¬s.Deletes (.table call)) :
    discards v call = [] := by
  cases call with
  | sysclose fd => exact absurd trivial hno
  | sysdup2 oldfd newfd =>
    have hslot : ¬(newfd < v.size ∨ u64 (newfd + 1) = 0) := by
      intro hslot
      apply hno
      intro w hw
      obtain rfl : v = w := Option.some.inj (hv.symm.trans hw)
      exact hslot
    have hlt : newfd < 2 ^ 64 := hm.2
    have hlen : v.data.length ≤ u64 (newfd + 1) := by
      change v.size ≤ u64 (newfd + 1)
      unfold u64 at hslot ⊢
      omega
    unfold discards
    simp only
    by_cases hold : v.size ≤ oldfd
    · rw [if_pos hold]
    · rw [if_neg hold, if_pos (by omega), List.drop_eq_nil_of_le hlen]
  | sysopen | sysopend | sysdup | syspipe => rfl
  | fork | exec | destroy => exact absurd hof id

/-- Every command keeps the invariant, and one that deletes nothing the threads and the streams. -/
theorem apply_inv (h : Inv s) (ha : Admits s c) (hs : s.apply c = .ok s') :
    Inv s' ∧ (¬s.Deletes c.call → Keeps s s') := by
  obtain ⟨room, answer, call⟩ := c
  obtain ⟨hroom, hgiven⟩ := ha
  have htask : ∀ {task : Tasks.Command}, s.task room task = .ok s' → s.tasks.Fresh task →
      task ≠ .run → Inv s' ∧
        (s.tasks.ends task = [] → s.tasks.reaps task = none → Keeps s s') :=
    fun hok hf hne => task_inv h hroom hf (fun hrun => absurd hrun hne) hok
  cases call with
  | read fd =>
    obtain ⟨r, hread, rfl⟩ : ∃ r, s.sysread fd answer = .ok r ∧ r.2 = s' := by
      change (·.2) <$> s.sysread fd answer = .ok s' at hs
      cases hr : s.sysread fd answer with
      | error e =>
        rw [hr] at hs
        cases hs
      | ok r =>
        rw [hr] at hs
        exact ⟨r, rfl, Except.ok.inj hs⟩
    obtain ⟨hinv, hkeeps⟩ := sysread_inv h hread
    exact ⟨hinv, fun _ => hkeeps⟩
  | free o =>
    obtain rfl := Except.ok.inj hs
    exact ⟨free_inv h o, fun _ => ⟨fun _ ht => ht, fun _ ho => ho⟩⟩
  | table call =>
    obtain ⟨t, henter, hs⟩ := bind_eq_ok.mp hs
    obtain ⟨th, hthread, hs⟩ := bind_eq_ok.mp hs
    obtain ⟨hne, hof, hm⟩ := hgiven
    have hfork : ∀ child, call ≠ .fork child := by
      intro child he
      subst he
      exact hof
    obtain ⟨hinv, hcalled⟩ := call_inv h hroom hfork hm hs
    refine ⟨hinv, fun hno => ⟨fun u hu => ?_, fun o ho => ?_⟩⟩
    · rw [hcalled.tasks]
      exact hu
    · obtain ⟨v, htable, -⟩ := bind_eq_ok.mp hs
      have hv := table_eq_ok htable
      have hc : s.tasks.current = some t := Tasks.enterSys_spec.of_ok henter
      obtain ⟨th', hth'⟩ := h.tasks.sane.current_thread hc
      rw [Tasks.thread_eq hth'] at hthread
      obtain rfl := Except.ok.inj hthread
      have hown : s.table = some v := by simp [table, hc, hth', hv]
      apply hcalled.streams v hv o ho
      rw [discards_nil hof hm hown hno]
      exact List.not_mem_nil
  | task task =>
    cases task with
    | run =>
      obtain ⟨hinv, hkeeps⟩ := run_inv h hroom hs
      refine ⟨hinv, fun hno => hkeeps ?_⟩
      by_contra hnone
      apply hno
      intro t ht
      by_contra hne
      exact hnone ⟨t, ht, hne⟩
    | fork p t =>
      obtain ⟨hinv, hkeeps⟩ := htask hs hgiven.2 (fun he => by cases he)
      exact ⟨hinv, fun _ => hkeeps rfl rfl⟩
    | clone t =>
      obtain ⟨hinv, hkeeps⟩ := htask hs hgiven.2 (fun he => by cases he)
      exact ⟨hinv, fun _ => hkeeps rfl rfl⟩
    | exec | exit | texit | wait =>
      exact ⟨(htask hs hgiven.2 (fun he => by cases he)).1, fun hno => absurd trivial hno⟩
    | preempt =>
      exact ⟨(htask hs trivial (fun he => by cases he)).1, fun hno => absurd trivial hno⟩

theorem boot_current {tasks : Tasks} {d : Words} (hs : Tasks.boot p t d = .ok tasks) :
    tasks.current = none := by
  simp only [Tasks.boot, Tasks.newProcess, Tasks.newThread, Tasks.addP, Tasks.addT, Tasks.addThread,
    Tasks.getG, Tasks.process, Tasks.setProcess, Tasks.init, Tasks.thread, Tasks.empty,
    Tasks.put_self, Tasks.put_put, ok_bind, pure, Except.pure, decide_true, assert_true] at hs
  obtain ⟨tids₀, -, hs⟩ := bind_eq_ok.mp hs
  obtain ⟨tids₁, -, hs⟩ := bind_eq_ok.mp hs
  obtain rfl := Except.ok.inj hs
  rfl

theorem boot_inv {d : Words} (hs : boot room p t d = .ok s) : Inv s := by
  obtain ⟨tasks, htasks, hs⟩ := bind_eq_ok.mp hs
  obtain ⟨fds, hfds, hs⟩ := bind_eq_ok.mp hs
  obtain rfl := pure_eq_ok.mp hs
  have hB := (Descriptors.boot_spec room).of_ok hfds
  have hslots : Descriptors.slots { fds with tables := fds.tables.map fun e => (p, e.2) } =
      fds.slots := by
    simp only [Descriptors.slots, List.flatMap_map]
  have hbooks : Descriptors.Books [] { fds with tables := fds.tables.map fun e => (p, e.2) } := by
    constructor
    · rw [hslots]
      exact hB.balanced
    · intro e he
      obtain ⟨e', he', rfl⟩ := List.mem_map.mp he
      exact hB.stored e' he'
  have hidle : Protocol.Inv (⟨.idle, fun u => (tasks.threadAt u).isSome⟩ : Protocol Nat Nat) :=
    Protocol.Inv.start.survivors fun u o hu => absurd hu (Finset.notMem_empty u)
  refine ⟨Tasks.boot_inv htasks, ⟨[], hbooks⟩, hidle, fun u o hu => ?_, fun u hu => absurd rfl hu,
    fun u hu => ?_, fun u hu => absurd rfl hu⟩
  · exact absurd hu (Finset.notMem_empty u)
  · exact absurd ((boot_current htasks).symm.trans hu) (by simp)

/-- What a thread is registered with exists, and so does the thread. -/
structure Safe (s : Kernel) : Prop where
  children : ∀ t p, t ∈ s.tasks.waits.waitings p →
    s.tasks.threadAt t ≠ none ∧ s.tasks.processAt p ≠ none
  streams : ∀ t o, t ∈ s.reads.waitings o →
    s.tasks.threadAt t ≠ none ∧ s.fds.owners.count o ≠ none

theorem Inv.safe (h : Inv s) : Safe s := by
  constructor
  · intro t p ht
    obtain ⟨halive, hmem⟩ := h.tasks.sane.watch.inv.registered t p ht
    obtain ⟨th, _, hth, hset, -⟩ := h.tasks.sane.watch.own t (Finset.ne_empty_of_mem hmem)
    obtain rfl : p = th.process := by
      rw [hset] at hmem
      exact Finset.mem_singleton.mp hmem
    obtain ⟨-, pro, hpro⟩ := h.tasks.sane.owner hth
    exact ⟨by simp [hth], by simp [hpro]⟩
  · intro t o ht
    exact ⟨Option.isSome_iff_ne_none.mp (h.reads.registered t o ht).1, h.streams t o ht⟩

/-- In the runs whose commands are all careful no deletion meets a registered thread: each command that
deletes something meets its assertions, and the others delete nothing. -/
theorem run_unawaited (h : machine.Run Careful s) : Safe s ∧ ∀ c, Admits s c → Careful s c →
    (s.Deletes c.call → ¬s.Stalled c.call → s.apply c ≠ .error .assertion) ∧
    (¬s.Deletes c.call → ∀ s', s.apply c = .ok s' → Keeps s s') := by
  have hinv : Inv s :=
    h.invariant (fun _ ⟨_, _, _, _, _, hboot⟩ => boot_inv hboot)
      fun _ _ _ hi ha _ hs => (apply_inv hi ha hs).1
  refine ⟨hinv.safe, fun c ha hcareful => ⟨fun hdeletes hstalled hs => ?_, fun hno s' hs => ?_⟩⟩
  · exact (apply_meets hinv ha hcareful hdeletes hstalled).of_error hs rfl
  · exact (apply_inv hinv ha hs).2 hno

instance (c : Descriptors.Call) : Decidable c.OfTable :=
  match c with
  | .fork _ | .exec | .destroy => inferInstanceAs (Decidable False)
  | .sysopen _ | .sysopend | .sysclose _ | .sysdup _ | .sysdup2 _ _ | .syspipe =>
    inferInstanceAs (Decidable True)

instance (c : Descriptors.Call) : Decidable c.Machine :=
  match c with
  | .sysopen n | .sysclose n | .sysdup n => inferInstanceAs (Decidable (n < 2 ^ 64))
  | .sysdup2 m n => inferInstanceAs (Decidable (m < 2 ^ 64 ∧ n < 2 ^ 64))
  | .sysopend | .syspipe | .fork _ | .exec | .destroy => inferInstanceAs (Decidable True)

instance (s : Kernel) (c : Call) : Decidable (s.Given c) :=
  match c with
  | .task .run => inferInstanceAs (Decidable (s.tasks.current = none))
  | .task .preempt => inferInstanceAs (Decidable True)
  | .task (.fork p t) =>
    inferInstanceAs (Decidable (s.tasks.current ≠ none ∧ s.tasks.Fresh (.fork p t)))
  | .task (.clone t) =>
    inferInstanceAs (Decidable (s.tasks.current ≠ none ∧ s.tasks.Fresh (.clone t)))
  | .task (.exec t) =>
    inferInstanceAs (Decidable (s.tasks.current ≠ none ∧ s.tasks.Fresh (.exec t)))
  | .task (.exit n) =>
    inferInstanceAs (Decidable (s.tasks.current ≠ none ∧ s.tasks.Fresh (.exit n)))
  | .task (.texit n) =>
    inferInstanceAs (Decidable (s.tasks.current ≠ none ∧ s.tasks.Fresh (.texit n)))
  | .task (.wait pid) =>
    inferInstanceAs (Decidable (s.tasks.current ≠ none ∧ s.tasks.Fresh (.wait pid)))
  | .read fd => inferInstanceAs (Decidable (s.tasks.current ≠ none ∧ fd < 2 ^ 64))
  | .table call =>
    inferInstanceAs (Decidable (s.tasks.current ≠ none ∧ call.OfTable ∧ call.Machine))
  | .free o => inferInstanceAs (Decidable (s.fds.owners.count o ≠ none))

instance (s : Kernel) (c : Command) : Decidable (Admits s c) :=
  inferInstanceAs (Decidable (_ ∧ _))

instance (s : Kernel) (v : Table) (c : Descriptors.Call) : Decidable (s.Spares v c) :=
  inferInstanceAs (Decidable (∀ o ∈ lost s.fds.owners (discards v c), s.reads.waitings o = ∅))

instance (s : Kernel) (c : Command) : Decidable (Careful s c) :=
  match c with
  | ⟨_, _, .task task⟩ => inferInstanceAs (Decidable ((∀ t ∈ s.tasks.ends task,
      s.tasks.current ≠ some t → s.tasks.waits.waiting t = ∅ ∧ s.reads.waiting t = ∅) ∧
    ∀ q ∈ s.tasks.reaps task, ∀ v ∈ s.fds.tables.lookup q, s.Spares v .destroy))
  | ⟨_, _, .table call⟩ => inferInstanceAs (Decidable (∀ v ∈ s.table, s.Spares v call))
  | ⟨_, _, .read _⟩ | ⟨_, _, .free _⟩ => inferInstanceAs (Decidable True)

/-- The call stops at an assertion. -/
def fails (s : Kernel) (c : Command) : Bool :=
  match s.apply c with
  | .error e => decide (e = .assertion)
  | .ok _ => false

theorem fails_iff : s.fails c = true ↔ s.apply c = .error .assertion := by
  unfold fails
  cases s.apply c <;> simp

/-- A run found by following commands from the boot. -/
theorem exists_run {C : Kernel → Command → Prop} (check : Kernel → Command → Bool)
    (hcheck : ∀ s c, check s c = true → C s c) (cs : List Command) (P : Kernel → Bool)
    (h : ((boot (2 ^ 20) 10 10 fun _ => 0#64).toOption.bind fun s =>
      machine.follow (fun s c => decide (Admits s c) && check s c) s cs).any P = true) :
    ∃ s, machine.Run C s ∧ P s = true := by
  cases hboot : boot (2 ^ 20) 10 10 fun _ => 0#64 with
  | error e =>
    rw [hboot] at h
    cases h
  | ok s =>
    rw [hboot] at h
    have hstart : machine.start s := ⟨2 ^ 20, 10, 10, _, by decide, hboot⟩
    refine Machine.exists_run (fun s c hc => ?_) hstart cs h
    obtain ⟨ha, hC⟩ := Bool.and_eq_true_iff.mp hc
    have hadmits : Admits s c := of_decide_eq_true ha
    exact ⟨hadmits, hcheck s c hC⟩

/-- A call when the console has nothing to read. -/
def quiet (call : Call) : Command :=
  ⟨2 ^ 20, ⟨true, Stream.READABLE ||| Stream.WAITABLE, 0, false⟩, call⟩

/-- The main thread of init reads the console while its second thread runs. -/
def console : List Command :=
  [quiet (.task .run), quiet (.task (.clone 20)), quiet (.read 0), quiet (.task .run)]

set_option maxRecDepth 10000 in
/-- The second thread closes one of the two descriptors of the console and ends. -/
theorem run_unawaited_console : ∃ s, machine.Run Careful s ∧ 10 ∈ s.reads.waitings 0 ∧ Safe s ∧
    s.apply (quiet (.task (.texit 0))) ≠ .error .assertion := by
  obtain ⟨s, hs, hP⟩ := exists_run (C := Careful) (fun s c => decide (Careful s c))
    (fun _ _ => of_decide_eq_true) (console ++ [quiet (.table (.sysclose 0))])
    (fun s => decide (10 ∈ s.reads.waitings 0 ∧ Admits s (quiet (.task (.texit 0))) ∧
      Careful s (quiet (.task (.texit 0))) ∧ s.tasks.current = some 20 ∧ s.tasks.Dispensable 20))
    (by decide +kernel)
  obtain ⟨hwaits, ha, hcareful, hc, hmain⟩ : 10 ∈ s.reads.waitings 0 ∧
    Admits s (quiet (.task (.texit 0))) ∧ Careful s (quiet (.task (.texit 0))) ∧
      s.tasks.current = some 20 ∧ s.tasks.Dispensable 20 := of_decide_eq_true hP
  obtain ⟨hsafe, hnext⟩ := run_unawaited hs
  refine ⟨s, hs, hwaits, hsafe, (hnext _ ha hcareful).1 trivial fun ⟨t, ht, hno⟩ => ?_⟩
  obtain rfl : 20 = t := Option.some.inj (hc.symm.trans ht)
  exact hno hmain

set_option maxRecDepth 10000 in
/-- It ends the process instead. -/
theorem blocked_exit : ¬∀ s, machine.Run (fun _ _ => True) s → ∀ c, Admits s c →
    s.Deletes c.call → ¬s.Stalled c.call → s.apply c ≠ .error .assertion := by
  intro hall
  obtain ⟨s, hs, hP⟩ := exists_run (C := fun _ _ => True) (fun _ _ => true) (fun _ _ _ => trivial)
    console (fun s => decide (Admits s (quiet (.task (.exit 0)))) &&
      s.fails (quiet (.task (.exit 0)))) (by decide +kernel)
  obtain ⟨ha, hfails⟩ := Bool.and_eq_true_iff.mp hP
  exact hall s hs _ (of_decide_eq_true ha) trivial id (fails_iff.mp hfails)

set_option maxRecDepth 10000 in
/-- It closes both descriptors of the console. -/
theorem blocked_close : ∃ s, machine.Run (fun _ _ => True) s ∧
    s.apply (quiet (.table (.sysclose 1))) = .error .assertion := by
  obtain ⟨s, hs, hP⟩ := exists_run (C := fun _ _ => True) (fun _ _ => true) (fun _ _ _ => trivial)
    (console ++ [quiet (.table (.sysclose 0))])
    (fun s => s.fails (quiet (.table (.sysclose 1)))) (by decide +kernel)
  exact ⟨s, hs, fails_iff.mp hP⟩

end Kernel

end SupOS
