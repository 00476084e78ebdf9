import SupOS.Processes.Tree

/-! Which commands meet their assertions: no thread is deleted that waits, no process that is waited
for, and the numbers and maps are as the destructors expect them. -/

namespace SupOS

open Lib

theorem Bitset.write_meets {v : Bool} {b : Bitset} {i : Nat} (hi : i < b.size) :
    Ensures (b.write v i) NoAssertion fun _ => True := by
  obtain ⟨b', hb'⟩ := Bitset.write_of_lt (v := v) hi
  rw [hb']
  trivial

namespace Tasks

variable {s s' : Tasks} {M : Nat → Nat → Prop} {p q t tid pid : Nat} {pro : Process} {th : Thread}

theorem freeT_meets (hcur : s.current = none) (htid : s.threads tid ≠ none)
    (hu : Unused s.tids s.threads s.processes s.groups) :
    Ensures (s.freeT tid) NoAssertion fun _ => True := by
  have hbounds : tid ≠ 0 ∧ tid < 0x1000 * 8 := hu.bounds fun hnone => htid hnone.1
  have hsome : (s.threads tid).isSome = true := Option.isSome_iff_ne_none.mpr htid
  have hlt : tid < s.tids.size := by
    rw [hu.size]
    exact hbounds.2
  unfold freeT assertNotCurrent
  simp only [hcur, pure, Except.pure, ok_bind, hsome, assert_true]
  split
  · exact (Bitset.write_meets hlt).bind fun _ _ => trivial
  · trivial

theorem deleteThread_meets (h : Sane M s) (ht : s.threadAt t = some th) (hcur : s.current = none)
    (hidle : s.waits.isIdle t = true) : Ensures (s.deleteThread t) NoAssertion fun _ => True := by
  have hmap : s.threads th.tid = some t := (h.crew.mapped th.tid t).mpr ⟨th, ht, rfl⟩
  have hfree : Ensures (s.freeT th.tid) NoAssertion fun _ => True :=
    freeT_meets hcur (fun hnone => by simp [hmap] at hnone) h.unused
  unfold deleteThread
  simp only [thread_eq ht, ok_bind]
  refine (freeT_spec h.current).bind_with hfree fun s₁ hspec => ?_
  obtain ⟨-, b, rfl, -⟩ := hspec
  simp only [Waits.delete, hidle, assert_true, ok_bind]
  trivial

theorem deleteThreads_meets {l : List Nat} (hl : l.Nodup) (h : Sane M s)
    (hM : ∀ t ∈ l, ∃ p, M p t) (hcur : s.current = none)
    (hidle : ∀ t ∈ l, s.waits.isIdle t = true) :
    Ensures (l.foldlM deleteThread s) NoAssertion fun _ => True := by
  induction l generalizing s M with
  | nil => trivial
  | cons t l ih =>
    obtain ⟨hnot, hl⟩ := List.nodup_cons.mp hl
    obtain ⟨p, hp⟩ := hM t List.mem_cons_self
    obtain ⟨th, hth, -⟩ := h.crew.listed p t hp
    rw [List.foldlM_cons]
    refine (deleteThread_spec h hth).bind_with
      (deleteThread_meets h hth hcur (hidle t List.mem_cons_self)) fun s₁ ⟨hs₁, hdel⟩ => ?_
    apply ih hl hs₁
    · intro u hu
      obtain ⟨q, hq⟩ := hM u (List.mem_cons_of_mem t hu)
      exact ⟨q, hq, fun heq => hnot (heq ▸ hu)⟩
    · rw [hdel.still.current, hcur]
    · intro u hu
      rw [hdel.waits]
      exact hidle u (List.mem_cons_of_mem t hu)

theorem clear_meets (h : Sane M s) (hp : s.processAt p = some pro)
    (hM : ∀ t, t ∈ pro.threads → ∃ q, M q t) (hcur : s.current = none)
    (hidle : ∀ t, t ∈ pro.threads → s.waits.isIdle t = true) :
    Ensures (s.clear p) NoAssertion fun _ => True := by
  unfold clear
  simp only [process_eq hp, ok_bind]
  refine (deleteThreads_spec pro.threads.nodup h hM).bind_with
    (deleteThreads_meets pro.threads.nodup h hM hcur hidle) fun s₁ ⟨_, hdel⟩ => ?_
  have hp₁ : s₁.processAt p = some pro := by rw [hdel.processAt, hp]
  simp only [process_eq hp₁, ok_bind]
  trivial

theorem terminate_meets {returnCode : Nat} (h : Sane M s) (hp : s.processAt p = some pro)
    (hM : ∀ t, t ∈ pro.threads → ∃ q, M q t) (hcur : s.current = none)
    (hidle : ∀ t, t ∈ pro.threads → s.waits.isIdle t = true) :
    Ensures (s.terminate p returnCode) NoAssertion fun _ => True := by
  unfold terminate
  simp only [process_eq hp, ok_bind]
  set pro₁ : Process := { pro with returnCode := returnCode, terminated := true }
  have hs₁ : Sane M (s.setProcess p pro₁) := h.setProcess hp rfl
  have hp₁ : (s.setProcess p pro₁).processAt p = some pro₁ := put_self _ _ _
  refine (clear_spec hs₁ hp₁ hM).bind_with (clear_meets hs₁ hp₁ hM hcur hidle)
    fun s₂ _ => ?_
  by_cases hpid : pro.pid = 1
  · rw [if_pos hpid]
    exact fun he => by cases he
  · rw [if_neg hpid]
    obtain ⟨q, -, hq, -⟩ := h.parent hp hpid
    simp only [hq, process]
    cases s₂.processAt q with
    | none => exact fun he => by cases he
    | some _ => trivial

/-- The last thread to leave finds that the main thread has left. -/
theorem remThread_meets (h : Sane M s) (hp : s.processAt p = some pro) (hcur : s.current = none)
    (hmain : (pro.threads.erase t).isEmpty = true → pro.mainTerminated = true) :
    Ensures (s.remThread p t) NoAssertion fun _ => True := by
  unfold remThread
  simp only [process_eq hp, ok_bind]
  set pro₁ : Process := { pro with threads := pro.threads.erase t } with hpro₁
  have hs₁ : Sane M (s.setProcess p pro₁) := h.setProcess hp rfl
  have hp₁ : (s.setProcess p pro₁).processAt p = some pro₁ := put_self _ _ _
  by_cases hempty : (pro.threads.erase t).isEmpty
  · have hno := OrderedSet.isEmpty_iff.mp hempty
    simp only [hempty, if_true, hmain hempty, assert_true, ok_bind]
    exact terminate_meets hs₁ hp₁ (fun u hu => absurd hu (hno u)) hcur
      fun u hu => absurd hu (hno u)
  · simp only [hempty]
    trivial

/-- The thread is not the last one of a process whose main thread goes on. -/
def Dispensable (s : Tasks) (t : Nat) : Prop :=
  ∀ th ∈ s.threadAt t, ∀ pro ∈ s.processAt th.process, th.tid ≠ pro.pid →
    (pro.threads.erase t).isEmpty = true → pro.mainTerminated = true

instance (s : Tasks) (t : Nat) : Decidable (s.Dispensable t) :=
  inferInstanceAs (Decidable (∀ th ∈ s.threadAt t, ∀ pro ∈ s.processAt th.process,
    th.tid ≠ pro.pid → (pro.threads.erase t).isEmpty = true → pro.mainTerminated = true))

theorem terminateThread_meets {returnCode : Nat} (h : Sane M s) (ht : s.threadAt t = some th)
    (hp : s.processAt th.process = some pro) (hcur : s.current = none)
    (hmain : s.Dispensable t) :
    Ensures (s.terminateThread t returnCode) NoAssertion fun _ => True := by
  unfold terminateThread
  simp only [thread_eq ht, process_eq hp, ok_bind]
  split
  · rename_i htid
    unfold mainTerm
    simp only [process_eq hp, thread_eq ht, ok_bind, htid, decide_true, assert_true]
    set pro₁ : Process := { pro with mainTerminated := true, returnCode := returnCode }
    have hs₁ : Sane M (s.setProcess th.process pro₁) := h.setProcess hp rfl
    exact remThread_meets hs₁ (put_self _ _ _) hcur fun _ => rfl
  · rename_i htid
    exact remThread_meets h hp hcur (hmain th ht pro hp htid)

/-- The end of a process wakes at most the threads of one process. -/
theorem terminate_waits {returnCode : Nat} (h : Sane M s) (hp : s.processAt p = some pro)
    (hM : ∀ t, t ∈ pro.threads → ∃ q, M q t) :
    Ensures (s.terminate p returnCode) NoStray fun s' => ∃ q, s'.waits = s.waits.free q := by
  unfold terminate
  simp only [process_eq hp, ok_bind]
  set pro₁ : Process := { pro with returnCode := returnCode, terminated := true }
  have hp₁ : (s.setProcess p pro₁).processAt p = some pro₁ := put_self _ _ _
  have hs₁ : Sane M (s.setProcess p pro₁) := h.setProcess hp rfl
  refine (clear_spec hs₁ hp₁ hM).bind fun s₂ ⟨_, hclear⟩ => ?_
  split
  · exact ⟨by simp, by simp⟩
  · rename_i hpid
    obtain ⟨q, par, hq, hpar⟩ := h.parent hp hpid
    have hpar₂ : s₂.processAt q ≠ none := by
      rw [hclear.processAt, setProcess_processAt, put_put]
      by_cases hqp : q = p
      · simp [hqp]
      · simp [put_of_ne _ _ hqp, hpar]
    obtain ⟨par₂, hpar₂⟩ := Option.ne_none_iff_exists'.mp hpar₂
    simp only [hq, process_eq hpar₂, ok_bind]
    exact ⟨q, congrArg (Waits.free · q) hclear.waits⟩

theorem remThread_waits (h : Sane M s) (hp : s.processAt p = some pro) :
    Ensures (s.remThread p t) NoStray fun s' =>
      s'.waits = s.waits ∨ ∃ q, s'.waits = s.waits.free q := by
  unfold remThread
  simp only [process_eq hp, ok_bind]
  set pro₁ : Process := { pro with threads := pro.threads.erase t }
  have hp₁ : (s.setProcess p pro₁).processAt p = some pro₁ := put_self _ _ _
  by_cases hempty : (pro.threads.erase t).isEmpty
  · have hno := OrderedSet.isEmpty_iff.mp hempty
    simp only [hempty, if_true]
    refine ensures_bind_assert fun _ => ?_
    have hs₁ : Sane M (s.setProcess p pro₁) := h.setProcess hp rfl
    exact (terminate_waits hs₁ hp₁ fun u hu => absurd hu (hno u)).mono (fun _ he => he)
      fun _ hs => .inr hs
  · simp only [hempty]
    exact .inl rfl

theorem terminateThread_waits {returnCode : Nat} (h : Sane M s) (ht : s.threadAt t = some th)
    (hp : s.processAt th.process = some pro) :
    Ensures (s.terminateThread t returnCode) NoStray fun s' =>
      s'.waits = s.waits ∨ ∃ q, s'.waits = s.waits.free q := by
  unfold terminateThread
  simp only [thread_eq ht, process_eq hp, ok_bind]
  split
  · unfold mainTerm
    simp only [process_eq hp, thread_eq ht, ok_bind]
    refine ensures_bind_assert fun _ => ?_
    set pro₁ : Process := { pro with mainTerminated := true, returnCode := returnCode }
    have hs₁ : Sane M (s.setProcess th.process pro₁) := h.setProcess hp rfl
    exact remThread_waits hs₁ (put_self _ _ _)
  · exact remThread_waits h hp

/-- A thread that waits for nothing is in no list, and is not woken. -/
theorem isIdle_free (hw : Watch s.threadAt s.waits) (hidle : s.waits.isIdle t = true) (q : Nat) :
    (s.waits.free q).isIdle t = true := by
  obtain ⟨hnone, hempty⟩ := Protocol.isIdle_eq_true.mp hidle
  have hnot : t ∉ s.waits.waitings q := (hw.inv.sound.released t hempty).1 q
  apply Protocol.isIdle_eq_true.mpr
  exact ⟨by simpa [Waits.free, hnot] using hnone, hempty⟩

theorem enterSys_meets (hc : s.current = some t) : s.enterSys = .ok t := by
  unfold enterSys
  rw [hc]

theorem exit_meets {returnCode : Nat} (h : Inv s) (hc : s.current = some t)
    (hth : s.threadAt t = some th) (hpro : s.processAt th.process = some pro)
    (hidle : ∀ u, u ∈ pro.threads → s.waits.isIdle u = true) :
    Ensures (s.exit returnCode) NoAssertion fun _ => True := by
  unfold exit
  simp only [enterSys_meets hc, thread_eq hth, ok_bind]
  exact terminate_meets h.sane.quit hpro (fun u hu => ⟨_, pro, hpro, hu⟩) rfl hidle

theorem texit_meets {returnCode : Nat} (h : Inv s) (hc : s.current = some t)
    (hidle : s.waits.isIdle t = true) (hmain : s.Dispensable t) :
    Ensures (s.texit returnCode) NoAssertion fun _ => True := by
  obtain ⟨th, pro, hth, hpro, -, -⟩ := h.running hc
  have hs₁ : Sane s.Listed s.quit := h.sane.quit
  have hth₁ : s.quit.threadAt t = some th := hth
  have hpro₁ : s.quit.processAt th.process = some pro := hpro
  unfold texit
  simp only [enterSys_meets hc, ok_bind]
  refine ((terminateThread_spec hs₁ hth₁ hpro₁).and (terminateThread_waits hs₁ hth₁ hpro₁)).bind_with
    (terminateThread_meets hs₁ hth₁ hpro₁ rfl hmain) fun s₂ ⟨⟨hs₂, _, hleft⟩, hwaits⟩ => ?_
  have hth₂ : s₂.threadAt t = some th := by rw [hleft.threadAt, hth₁]
  refine deleteThread_meets hs₂ hth₂ hleft.still.current ?_
  rcases hwaits with hsame | ⟨q, hfree⟩
  · rw [hsame]
    exact hidle
  · rw [hfree]
    exact isIdle_free h.sane.watch hidle q

theorem exec_meets {old : Nat} (h : Inv s) (hc : s.current = some old)
    (hth : s.threadAt old = some th) (hpro : s.processAt th.process = some pro)
    (hidle : ∀ u, u ∈ pro.threads → s.waits.isIdle u = true) :
    Ensures (s.exec t) NoAssertion fun _ => True := by
  have hquit := h.sane.quit
  set s₁ : Tasks := { s.quit with fifo := s.fifo ++ [th.tid] } with hs₁def
  have hs₁ : Sane s.Listed s₁ :=
    ⟨hquit.crew, hquit.family, hquit.watch, hquit.unused, hquit.current⟩
  have hpro₁ : s₁.processAt th.process = some pro := hpro
  have hM : ∀ u, u ∈ pro.threads → ∃ q, s.Listed q u := fun u hu => ⟨_, pro, hpro, hu⟩
  unfold exec
  simp only [enterSys_meets hc, thread_eq hth, stopCurent_eq hc hth, ok_bind, ← hs₁def]
  refine (clear_spec hs₁ hpro₁ hM).bind_with (clear_meets hs₁ hpro₁ hM rfl hidle)
    fun s₂ ⟨_, hclear⟩ => ?_
  have hpro₂ : s₂.processAt th.process = some { pro with threads := .empty } := by
    rw [hclear.processAt, put_self]
  simp only [newThread, addT, addThread, process, hpro₂, ok_bind]
  trivial

theorem preempt_meets : Ensures s.timerHandler NoAssertion fun _ => True := by
  unfold timerHandler stopCurent thread
  cases s.current with
  | none => trivial
  | some t =>
    simp only [reduceCtorEq, if_false]
    cases s.threadAt t with
    | none => exact fun he => by cases he
    | some _ => trivial

theorem process_meets : Ensures (s.process p) NoAssertion fun _ => True := by
  unfold process
  cases s.processAt p with
  | none => exact fun he => by cases he
  | some _ => trivial

theorem orphan_meets : Ensures (s.orphan q) NoAssertion fun _ => True := by
  unfold orphan addChild getP
  cases s.processes 1 with
  | none => exact fun he => by cases he
  | some i => exact process_meets.bind fun _ _ => process_meets.bind fun _ _ => trivial

theorem orphans_meets {l : List Nat} : Ensures (l.foldlM orphan s) NoAssertion fun _ => True := by
  induction l generalizing s with
  | nil => trivial
  | cons q l ih =>
    rw [List.foldlM_cons]
    exact orphan_meets.bind fun _ _ => ih

theorem freeP_meets (hpid : s.processes pid ≠ none)
    (hu : Unused s.tids s.threads s.processes s.groups) :
    Ensures (s.freeP pid) NoAssertion fun _ => True := by
  have hbounds : pid ≠ 0 ∧ pid < 0x1000 * 8 := hu.bounds fun hnone => hpid hnone.2.1
  have hsome : (s.processes pid).isSome = true := Option.isSome_iff_ne_none.mpr hpid
  have hlt : pid < s.tids.size := by
    rw [hu.size]
    exact hbounds.2
  unfold freeP
  simp only [hsome, assert_true, ok_bind]
  split
  · exact (Bitset.write_meets hlt).bind fun _ _ => trivial
  · trivial

theorem remProcess_meets {gid : Nat} {pros : Pointers} (hg : s.groups gid = some pros)
    (hp : p ∈ pros) (hq : q ∈ pros) (hqp : q ≠ p) :
    Ensures (s.remProcess gid p) NoAssertion fun _ => True := by
  have hempty : (pros.erase p).isEmpty = false := by
    rw [Bool.eq_false_iff, Ne, OrderedSet.isEmpty_iff]
    exact fun hno => hno q (OrderedSet.mem_erase.mpr ⟨hq, hqp⟩)
  unfold remProcess
  simp only [getG, hg, hp, decide_true, assert_true, ok_bind, hempty]
  trivial

/-- A zombie that no thread waits for can be deleted. -/
theorem deleteProcess_meets (h : Core M s) (hp : s.processAt p = some pro) {par : Nat}
    (hpar : pro.parent = some par) (hterm : pro.terminated = true) (hM : ∀ t, ¬M p t)
    (hempty : s.waits.waitings p = ∅) :
    Ensures (s.deleteProcess p) NoAssertion fun _ => True := by
  obtain ⟨i, ki, hi, hki, hnone⟩ := h.family.init
  obtain ⟨ip, hip, rfl⟩ := kinAt_eq_some.mp hki
  have hpi : i ≠ p := by
    intro heq
    subst heq
    obtain rfl : ip = pro := Option.some.inj (hip.symm.trans hp)
    exact absurd (hpar.symm.trans hnone) (by simp)
  have hmap : s.processes pro.pid = some p := (h.family.mapped _ p).mpr ⟨_, kinAt_eq hp, rfl⟩
  have hgid : pro.gid = 1 := h.family.gid p _ (kinAt_eq hp)
  obtain ⟨pros, hg, hmem⟩ := h.family.members
  have hthreads : s.threads pro.pid = none := by
    cases hthread : s.threads pro.pid with
    | none => rfl
    | some t =>
      obtain ⟨th, hth, htid⟩ := (h.crew.mapped pro.pid t).mp hthread
      have hown := h.crew.main t th p _ hth (kinAt_eq hp) htid
      exact absurd (hown ▸ (h.crew.owner t th hth).1) (hM t)
  have hsons : ∀ x ∈ pro.sons.toList, s.processAt x ≠ none := by
    intro x hx
    obtain ⟨k, hk, -⟩ := (h.family.sons p _ (kinAt_eq hp) x).mp hx
    exact Option.ne_none_iff_exists'.mpr (kinAt_ne_none.mp (by simp [hk]))
  unfold deleteProcess
  simp only [process_eq hp, ok_bind, hterm, assert_true]
  refine (freeP_spec hthreads h.unused).bind_with
    (freeP_meets (fun hno => by simp [hmap] at hno) h.unused) fun s₁ ⟨b, hs₁, _⟩ => ?_
  have hpid : (1 : Nat) ≠ pro.pid := fun heq => by
    rw [← heq, hi] at hmap
    exact hpi (Option.some.inj hmap)
  have hi₁ : s₁.processes 1 = some i := by
    rw [hs₁]
    exact (put_of_ne _ _ hpid).trans hi
  have hat₁ : s₁.processAt = s.processAt := by rw [hs₁]
  have hip₁ : s₁.processAt i ≠ none := by simp [hat₁, hip]
  refine (orphans_spec hi₁ hip₁ (hat₁ ▸ hsons)).bind_with orphans_meets fun s₂ ⟨f, hs₂, _⟩ => ?_
  have hg₂ : s₂.groups pro.gid = some pros := by rw [hs₂, hs₁, hgid, ← hg]
  refine (remProcess_spec hg₂ (hmem i _ hki) hpi).bind_with
    (remProcess_meets hg₂ (hmem p _ (kinAt_eq hp)) (hmem i _ hki) hpi) fun s₃ hs₃ => ?_
  have hwaits : s₃.waits = s.waits := by rw [hs₃, hs₂, hs₁]
  refine process_meets.bind fun pro₃ _ => ?_
  cases pro₃.parent with
  | none => exact fun he => by cases he
  | some q =>
    refine process_meets.bind fun par₃ _ => ?_
    simp only [setProcess, hwaits, hempty, decide_true, assert_true, ok_bind]
    trivial

theorem findTerminated_meets {l : List Nat} :
    Ensures (s.findTerminated l) NoAssertion fun _ => True := by
  induction l with
  | nil => trivial
  | cons q l ih =>
    unfold findTerminated
    refine process_meets.bind fun pro _ => ?_
    split
    · trivial
    · exact ih

theorem awaited_meets (c : Checker) : Ensures (s.awaited p c) NoAssertion fun _ => True := by
  unfold awaited
  refine process_meets.bind fun pro _ => ?_
  cases c with
  | any =>
    simp only
    split
    · trivial
    · refine findTerminated_meets.bind fun r _ => ?_
      cases r <;> trivial
  | child q =>
    simp only
    split
    · trivial
    · refine process_meets.bind fun son _ => ?_
      split <;> trivial

/-- No thread waits for a zombie. -/
theorem Inv.unawaited (h : Inv s) (hz : Zombie s q p) : s.waits.waitings q = ∅ := by
  apply Finset.eq_empty_of_forall_notMem
  intro u hu
  obtain ⟨-, hmem⟩ := h.sane.watch.inv.registered u q hu
  obtain ⟨th, _, hth, hset, -⟩ := h.sane.watch.own u (Finset.ne_empty_of_mem hmem)
  obtain rfl : q = th.process := by
    rw [hset] at hmem
    exact Finset.mem_singleton.mp hmem
  exact hz.not_listed h.quiet u (h.sane.owner hth).1

theorem nbwaitp_meets (h : Core s.Listed s) (hp : s.processAt p = some pro)
    (hquiet : ∀ p pro, s.processAt p = some pro → pro.terminated = true → ∀ t, t ∉ pro.threads)
    (hempty : ∀ q, Zombie s q p → s.waits.waitings q = ∅) (c : Checker) :
    Ensures (s.nbwaitp p c) NoAssertion fun _ => True := by
  unfold nbwaitp
  refine (awaited_spec h hp c).bind_with (awaited_meets c) fun r hr => ?_
  cases r with
  | inl res => trivial
  | inr q =>
    have hz : Zombie s q p := hr
    obtain ⟨son, hson, hpar, hterm⟩ := hr
    simp only [process_eq hson, ok_bind]
    exact (deleteProcess_meets h hson hpar hterm (hz.not_listed hquiet) (hempty q hz)).bind
      fun _ _ => trivial

theorem stopCurent_meets : Ensures s.stopCurent NoAssertion fun _ => True := by
  unfold stopCurent thread
  cases s.current with
  | none => exact fun he => by cases he
  | some t =>
    simp only
    cases s.threadAt t with
    | none => exact fun he => by cases he
    | some _ => trivial

theorem waitp_meets (h : Inv s) (hth : s.threadAt t = some th)
    (hp : s.processAt th.process = some pro) (hidle : s.waits.isIdle t = true) (c : Checker) :
    Ensures (s.waitp t c) NoAssertion fun _ => True := by
  unfold waitp
  simp only [thread_eq hth, ok_bind]
  refine (nbwaitp_spec h.sane.core hp h.quiet c).bind_with
    (nbwaitp_meets h.sane.core hp h.quiet (fun q hz => h.unawaited hz) c) fun r ⟨_, hwaited⟩ => ?_
  obtain ⟨res, s₁⟩ := r
  by_cases hres : res = .EBLOCK
  · have hsame : s₁ = s := by
      cases hq : s.reaped th.process c with
      | none => exact (hwaited.stays hq).1
      | some q => exact absurd hres (hwaited.reaps q hq).1
    subst hsame
    simp only [if_pos hres, Waits.wait, hidle, assert_true, ok_bind]
    exact stopCurent_meets.bind fun _ _ => trivial
  · simp only [if_neg hres]
    trivial

theorem syswait_meets (h : Inv s) (hc : s.current = some t) (hidle : s.waits.isIdle t = true) :
    Ensures (s.syswait pid) NoAssertion fun _ => True := by
  obtain ⟨th, pro, hth, hpro, -⟩ := h.running hc
  unfold syswait
  simp only [enterSys_meets hc, ok_bind]
  split
  · exact waitp_meets h hth hpro hidle .any
  · unfold getP
    cases s.processes pid with
    | none => exact fun he => by cases he
    | some q => exact waitp_meets h hth hpro hidle (.child q)

theorem OK_meets (h : Inv s) (hth : s.threadAt t = some th) :
    Ensures (s.OK t) NoAssertion fun _ => True := by
  unfold OK
  cases hw : s.waits.waited t with
  | none => trivial
  | some w =>
    have hne : s.waits.waiting t ≠ ∅ := Finset.ne_empty_of_mem (h.sane.watch.inv.waited t w hw).2
    obtain ⟨th', c, hth', -, hc⟩ := h.sane.watch.own t hne
    obtain rfl : th' = th := Option.some.inj (hth'.symm.trans hth)
    obtain ⟨-, pro, hpro⟩ := h.sane.owner hth
    have hth₁ : thread { s with waits := s.waits.clearWaited t } t = .ok th' := thread_eq hth
    simp only [hth₁, hc, ok_bind]
    set s₁ : Tasks := { s with waits := s.waits.clearWaited t }
    have hcore : Core s₁.Listed s₁ := ⟨h.sane.crew, h.sane.family, h.sane.unused, h.sane.current⟩
    have hempty : ∀ q, Zombie s₁ q th'.process → s₁.waits.waitings q = ∅ := fun q hz =>
      h.unawaited (s := s) hz
    exact (nbwaitp_meets hcore hpro h.quiet hempty c).bind fun r _ => trivial

theorem run_meets (h : Inv s) (hcur : s.current = none) (hfifo : s.fifo ≠ []) :
    Ensures s.run NoAssertion fun _ => True := by
  have hnone : s.current.isNone = true := by simp [hcur]
  unfold run
  simp only [hnone, assert_true, ok_bind]
  cases hqueue : s.fifo with
  | nil => exact absurd hqueue hfifo
  | cons nextTid fifo =>
    cases ht : s.threads nextTid with
    | none =>
      simp only [ht]
      trivial
    | some t =>
      obtain ⟨th, hth, -⟩ := (h.sane.crew.mapped nextTid t).mp ht
      have hpopped : Inv { s with fifo := fifo } :=
        ⟨⟨h.sane.crew, h.sane.family, h.sane.watch, h.sane.unused, h.sane.current⟩, h.quiet⟩
      simp only [ht]
      exact (OK_meets hpopped hth).bind fun r _ => trivial

end Tasks

end SupOS
