import SupOS.Processes.Kinship

/-! What the constructors and destructors of threads and processes do to the tree, the threads and
the waits; they reach only objects that exist. -/

namespace SupOS

open Lib

/-- The kernel stops otherwise than at a deleted object or a null pointer. -/
def NoStray (e : Fault) : Prop := e ≠ .dangling ∧ e ≠ .nullPointer

theorem ensures_assert {cond : Bool} {Q : Unit → Prop} (h : cond = true → Q ()) :
    Ensures (assert cond) NoStray Q := by
  cases cond with
  | true => exact h rfl
  | false => exact ⟨by simp, by simp⟩

/-- An assertion in the middle. -/
theorem ensures_bind_assert {α : Type} {cond : Bool} {f : Unit → Except Fault α} {Q : α → Prop}
    (h : cond = true → Ensures (f ()) NoStray Q) : Ensures (assert cond >>= f) NoStray Q := by
  cases cond with
  | true => exact h rfl
  | false => exact ⟨by simp, by simp⟩

theorem Bitset.ensures_write {v : Bool} {b : Bitset} {i : Nat} :
    Ensures (b.write v i) NoStray fun b' => i < b.size ∧ Wrote v (· = i) b b' := by
  cases h : b.write v i with
  | ok b' => exact write_spec h
  | error e =>
    unfold write at h
    by_cases hi : i < b.size
    · simp only [hi, decide_true, assert_true, ok_bind] at h
      cases h
    · simp only [hi, decide_false, assert_false, error_bind, Except.error.injEq] at h
      subst h
      exact ⟨by simp, by simp⟩

namespace Tasks

variable {s s' : Tasks} {M : Nat → Nat → Prop} {p q t tid pid : Nat} {pro : Process} {th : Thread}

def kinAt (s : Tasks) (p : Nat) : Option Kin := (s.processAt p).map Process.kin

def Listed (s : Tasks) (p t : Nat) : Prop := ∃ pro, s.processAt p = some pro ∧ t ∈ pro.threads

/-- What holds inside a command, where `M` says which threads still count as threads of which
process. -/
structure Sane (M : Nat → Nat → Prop) (s : Tasks) : Prop where
  crew : Crew M s.threadAt s.threads s.kinAt
  family : Family s.kinAt s.processes s.groups
  watch : Watch s.threadAt s.waits
  unused : Unused s.tids s.threads s.processes s.groups
  current : ∀ t, s.current = some t → s.threadAt t ≠ none

/-- The part that is not about the waits. -/
structure Core (M : Nat → Nat → Prop) (s : Tasks) : Prop where
  crew : Crew M s.threadAt s.threads s.kinAt
  family : Family s.kinAt s.processes s.groups
  unused : Unused s.tids s.threads s.processes s.groups
  current : ∀ t, s.current = some t → s.threadAt t ≠ none

theorem Sane.core {M : Nat → Nat → Prop} {s : Tasks} (h : Sane M s) : Core M s :=
  ⟨h.crew, h.family, h.unused, h.current⟩

theorem Core.sane {M : Nat → Nat → Prop} {s : Tasks} (h : Core M s)
    (hw : Watch s.threadAt s.waits) : Sane M s :=
  ⟨h.crew, h.family, hw, h.unused, h.current⟩

/-- What holds between the commands. -/
structure Inv (s : Tasks) : Prop where
  sane : Sane s.Listed s
  quiet : ∀ p pro, s.processAt p = some pro → pro.terminated = true → ∀ t, t ∉ pro.threads

/-- The thread `t` of the process `p` waits for any child, and has not been woken. -/
def Asleep (s : Tasks) (t p : Nat) : Prop :=
  ∃ th, s.threadAt t = some th ∧ th.process = p ∧ th.checker = some .any ∧
    s.waits.waiting t ≠ ∅ ∧ s.waits.waited t = none

/-- `q` is a terminated child of `p`. -/
def Zombie (s : Tasks) (q p : Nat) : Prop :=
  ∃ pro, s.processAt q = some pro ∧ pro.parent = some p ∧ pro.terminated = true

/-- No thread falls asleep and no child terminates. -/
structure Calm (s s' : Tasks) : Prop where
  asleep : ∀ t p, Asleep s' t p → Asleep s t p
  zombie : ∀ q p, Zombie s' q p → Zombie s q p

theorem Calm.refl (s : Tasks) : Calm s s := ⟨fun _ _ => id, fun _ _ => id⟩

theorem Calm.trans {s₁ s₂ s₃ : Tasks} (h : Calm s₁ s₂) (h' : Calm s₂ s₃) : Calm s₁ s₃ :=
  ⟨fun t p ht => h.asleep t p (h'.asleep t p ht), fun q p hq => h.zombie q p (h'.zombie q p hq)⟩

/-- A child of `q` terminates, and no thread of `q` stays asleep. -/
structure Ends (q : Nat) (s s' : Tasks) : Prop where
  asleep : ∀ t p, Asleep s' t p → Asleep s t p ∧ p ≠ q
  zombie : ∀ x p, Zombie s' x p → Zombie s x p ∨ p = q

theorem process_eq (h : s.processAt p = some pro) : s.process p = .ok pro := by
  simp [process, h]

theorem thread_eq (h : s.threadAt t = some th) : s.thread t = .ok th := by
  simp [thread, h]

theorem kinAt_eq (h : s.processAt p = some pro) : s.kinAt p = some pro.kin := by
  simp [kinAt, h]

theorem kinAt_eq_some {k : Kin} :
    s.kinAt p = some k ↔ ∃ pro, s.processAt p = some pro ∧ pro.kin = k := by
  simp [kinAt]

theorem kinAt_ne_none : s.kinAt p ≠ none ↔ ∃ pro, s.processAt p = some pro := by
  simp [kinAt, Option.ne_none_iff_exists']

theorem kinAt_setProcess : (s.setProcess p pro).kinAt = put s.kinAt p (some pro.kin) := by
  funext x
  by_cases hx : x = p
  · simp [kinAt, setProcess, hx]
  · simp [kinAt, setProcess, put_of_ne _ _ hx]

/-- A write that leaves the place of the process in the tree as it is. -/
theorem kinAt_setProcess_same {pro' : Process} (h : s.processAt p = some pro)
    (hkin : pro'.kin = pro.kin) : (s.setProcess p pro').kinAt = s.kinAt := by
  rw [kinAt_setProcess, hkin]
  funext x
  by_cases hx : x = p
  · subst hx
    rw [put_self, kinAt_eq h]
  · rw [put_of_ne _ _ hx]

theorem Sane.mono {M' : Nat → Nat → Prop} (h : Sane M s) (hM : ∀ p t, M p t ↔ M' p t) :
    Sane M' s := by
  have : M = M' := funext fun p => funext fun t => propext (hM p t)
  exact this ▸ h

/-- The thread of a process can be read, and its process too. -/
theorem Sane.owner (h : Sane M s) (ht : s.threadAt t = some th) :
    M th.process t ∧ ∃ pro, s.processAt th.process = some pro := by
  obtain ⟨hM, hne⟩ := h.crew.owner t th ht
  exact ⟨hM, kinAt_ne_none.mp hne⟩

theorem Sane.current_thread (h : Sane M s) (hc : s.current = some t) :
    ∃ th, s.threadAt t = some th := Option.ne_none_iff_exists'.mp (h.current t hc)

/-- A write to the fields of a process that no invariant of `Sane` is about. -/
theorem Sane.setProcess {pro' : Process} (h : Sane M s) (hp : s.processAt p = some pro)
    (hkin : pro'.kin = pro.kin) : Sane M (s.setProcess p pro') := by
  have hsame := kinAt_setProcess_same hp hkin
  refine ⟨?_, ?_, h.watch, h.unused, h.current⟩
  · rw [hsame]
    exact h.crew
  · rw [hsame]
    exact h.family

theorem Sane.quit (h : Sane M s) : Sane M s.quit :=
  ⟨h.crew, h.family, h.watch, h.unused, fun _ hc => absurd hc (by simp [Tasks.quit])⟩

/-- The running thread is at the end of the queue. -/
theorem stopCurent_eq (hc : s.current = some t) (ht : s.threadAt t = some th) :
    s.stopCurent = .ok { s.quit with fifo := s.fifo ++ [th.tid] } := by
  unfold Tasks.stopCurent
  simp only [hc, thread_eq ht, ok_bind]
  rfl

/-- No thread is new, and the queue and the running thread are as before. -/
structure Still (s s' : Tasks) : Prop where
  threads : ∀ tid t, s'.threads tid = some t → s.threads tid = some t
  fifo : s'.fifo = s.fifo
  current : s'.current = s.current

theorem Still.refl (s : Tasks) : Still s s := ⟨fun _ _ => id, rfl, rfl⟩

theorem Still.trans {s₁ s₂ s₃ : Tasks} (h : Still s₁ s₂) (h' : Still s₂ s₃) : Still s₁ s₃ :=
  ⟨fun tid t ht => h.threads tid t (h'.threads tid t ht), h'.fifo.trans h.fifo,
    h'.current.trans h.current⟩

/-- An erasure leaves no new entry. -/
theorem of_put_none {α : Type} {f : Nat → Option α} {i j : Nat} {v : α}
    (h : put f i none j = some v) : f j = some v := by
  by_cases hj : j = i
  · rw [hj, put_self] at h
    cases h
  · rwa [put_of_ne _ _ hj] at h

theorem assertNotCurrent_spec (hcur : ∀ c, s.current = some c → s.threadAt c ≠ none) :
    Ensures (s.assertNotCurrent tid) NoStray fun _ =>
      ∀ c th, s.current = some c → s.threadAt c = some th → th.tid ≠ tid := by
  unfold assertNotCurrent
  cases hc : s.current with
  | none => exact fun c _ hc' => absurd hc' (by simp)
  | some c =>
    obtain ⟨th, hth⟩ := Option.ne_none_iff_exists'.mp (hcur c hc)
    simp only [thread_eq hth, ok_bind]
    refine ensures_assert fun hne c' th' hc' hth' => ?_
    obtain rfl : c = c' := Option.some.inj hc'
    obtain rfl : th = th' := Option.some.inj (hth.symm.trans hth')
    simpa using hne

theorem freeT_spec (hcur : ∀ c, s.current = some c → s.threadAt c ≠ none) :
    Ensures (s.freeT tid) NoStray fun s' =>
      (∀ c th, s.current = some c → s.threadAt c = some th → th.tid ≠ tid) ∧
      ∃ b, s' = { s with threads := put s.threads tid none, tids := b } ∧
        (Unused s.tids s.threads s.processes s.groups →
          Unused b (put s.threads tid none) s.processes s.groups) := by
  have hmaps : ∀ k, k ≠ tid → ((put s.threads tid none k = none ∧ s.processes k = none ∧
      s.groups k = none) ↔ s.threads k = none ∧ s.processes k = none ∧ s.groups k = none) := by
    intro k hk
    rw [put_of_ne _ _ hk]
  unfold freeT
  refine (assertNotCurrent_spec hcur).bind fun _ hne => ?_
  refine ensures_bind_assert fun hsome => ?_
  have hbounds : Unused s.tids s.threads s.processes s.groups → tid ≠ 0 ∧ tid < 0x1000 * 8 :=
    fun hu => hu.bounds fun hnone => by simp [hnone.1] at hsome
  by_cases hfree : (s.groups tid).isNone && (s.processes tid).isNone
  · simp only [hfree, if_true]
    refine Bitset.ensures_write.bind fun b hb => ⟨hne, b, rfl, fun hu => ?_⟩
    simp only [Bool.and_eq_true, Option.isNone_iff_eq_none] at hfree
    refine hu.update (hbounds hu) hb.2.size hb.2.outside hmaps ?_
    exact iff_of_true (hb.2.inside tid rfl) ⟨put_self _ _ _, hfree.2, hfree.1⟩
  · simp only [hfree]
    refine ⟨hne, s.tids, rfl, fun hu => hu.update (hbounds hu) rfl (fun _ _ => rfl) hmaps ?_⟩
    have hused : ¬(s.processes tid = none ∧ s.groups tid = none) := by
      rintro ⟨h1, h2⟩
      exact hfree (by simp [h1, h2])
    rw [hu.free tid (hbounds hu).1 (hbounds hu).2]
    exact iff_of_false (fun hnone => hused hnone.2) fun hnone => hused hnone.2

/-- The threads in the list are gone, and only that. -/
structure Deleted (l : List Nat) (s s' : Tasks) : Prop where
  processAt : s'.processAt = s.processAt
  processes : s'.processes = s.processes
  groups : s'.groups = s.groups
  waits : s'.waits = s.waits
  still : Still s s'
  threadAt : ∀ u, s'.threadAt u = if u ∈ l then none else s.threadAt u

theorem Deleted.kinAt {l : List Nat} (h : Deleted l s s') : s'.kinAt = s.kinAt := by
  unfold Tasks.kinAt
  rw [h.processAt]

theorem Deleted.calm {l : List Nat} (h : Deleted l s s') : Calm s s' := by
  refine ⟨fun t p ht => ?_, fun q p hq => ?_⟩
  · obtain ⟨th, hth, hrest⟩ := ht
    rw [h.threadAt] at hth
    rw [h.waits] at hrest
    split at hth
    · cases hth
    · exact ⟨th, hth, hrest⟩
  · unfold Zombie at hq
    rwa [h.processAt] at hq

theorem deleteThread_spec (h : Sane M s) (ht : s.threadAt t = some th) :
    Ensures (s.deleteThread t) NoStray fun s' =>
      Sane (fun q u => M q u ∧ u ≠ t) s' ∧ Deleted [t] s s' := by
  unfold deleteThread
  simp only [thread_eq ht, ok_bind]
  refine (freeT_spec h.current).bind fun s₁ hs₁ => ?_
  obtain ⟨hne, b, rfl, hunused⟩ := hs₁
  refine ensures_bind_assert fun hidle => ?_
  refine ⟨⟨h.crew.remove ht, h.family, h.watch.remove hidle, hunused h.unused, fun c hc => ?_⟩,
    rfl, rfl, rfl, rfl, ⟨fun _ _ => of_put_none, rfl, rfl⟩, fun u => ?_⟩
  · have hct : c ≠ t := by
      rintro rfl
      exact hne c th hc ht rfl
    exact fun hnone => h.current c hc ((put_of_ne _ _ hct).symm.trans hnone)
  · simp [put]

theorem deleteThreads_spec {l : List Nat} (hl : l.Nodup) (h : Sane M s)
    (hM : ∀ t ∈ l, ∃ p, M p t) :
    Ensures (l.foldlM deleteThread s) NoStray fun s' =>
      Sane (fun q u => M q u ∧ u ∉ l) s' ∧ Deleted l s s' := by
  induction l generalizing s M with
  | nil => exact ⟨h.mono (by simp), rfl, rfl, rfl, rfl, .refl s, by simp⟩
  | cons t l ih =>
    obtain ⟨hnot, hl⟩ := List.nodup_cons.mp hl
    obtain ⟨p, hp⟩ := hM t List.mem_cons_self
    obtain ⟨th, hth, -⟩ := h.crew.listed p t hp
    rw [List.foldlM_cons]
    refine (deleteThread_spec h hth).bind fun s₁ ⟨hs₁, hdel⟩ => ?_
    have hM₁ : ∀ u ∈ l, ∃ q, M q u ∧ u ≠ t := by
      intro u hu
      obtain ⟨q, hq⟩ := hM u (List.mem_cons_of_mem t hu)
      refine ⟨q, hq, ?_⟩
      rintro rfl
      exact hnot hu
    refine (ih hl hs₁ hM₁).mono (fun _ => id) fun s₂ ⟨hs₂, hdel₂⟩ => ⟨hs₂.mono ?_, ?_⟩
    · intro q u
      simp only [List.mem_cons, not_or, and_assoc]
    · refine ⟨hdel₂.processAt.trans hdel.processAt, hdel₂.processes.trans hdel.processes,
        hdel₂.groups.trans hdel.groups, hdel₂.waits.trans hdel.waits,
        hdel.still.trans hdel₂.still, fun u => ?_⟩
      rw [hdel₂.threadAt, hdel.threadAt]
      by_cases hut : u = t
      · simp [hut]
      · simp [hut]

/-- The process `p`, which was `pro`, has no threads any more. -/
structure Cleared (p : Nat) (pro : Process) (s s' : Tasks) : Prop where
  processAt : s'.processAt = put s.processAt p (some { pro with threads := .empty })
  waits : s'.waits = s.waits
  still : Still s s'
  threadAt : ∀ u, s'.threadAt u = if u ∈ pro.threads then none else s.threadAt u

theorem clear_spec (h : Sane M s) (hp : s.processAt p = some pro)
    (hM : ∀ t, t ∈ pro.threads → ∃ q, M q t) :
    Ensures (s.clear p) NoStray fun s' =>
      Sane (fun q u => M q u ∧ u ∉ pro.threads) s' ∧ Cleared p pro s s' := by
  unfold clear
  simp only [process_eq hp, ok_bind]
  refine (deleteThreads_spec pro.threads.nodup h hM).bind fun s₁ ⟨hs₁, hdel⟩ => ?_
  have hp₁ : s₁.processAt p = some pro := by rw [hdel.processAt, hp]
  simp only [process_eq hp₁, ok_bind, pure, Except.pure]
  exact ⟨hs₁.setProcess hp₁ rfl,
    by rw [Tasks.setProcess, hdel.processAt], hdel.waits,
    ⟨hdel.still.threads, hdel.still.fifo, hdel.still.current⟩, hdel.threadAt⟩

/-- The parent of a process that is not init. -/
theorem Sane.parent (h : Sane M s) (hp : s.processAt p = some pro) (hpid : pro.pid ≠ 1) :
    ∃ q par, pro.parent = some q ∧ s.processAt q = some par := by
  have hnot : s.processes 1 ≠ some p := by
    intro hmap
    obtain ⟨k, hk, hk1⟩ := (h.family.mapped 1 p).mp hmap
    obtain rfl : k = pro.kin := Option.some.inj (hk.symm.trans (kinAt_eq hp))
    exact hpid hk1
  obtain ⟨q, kq, hq, hkq⟩ := h.family.parent (kinAt_eq hp) hnot
  obtain ⟨par, hpar, -⟩ := kinAt_eq_some.mp hkq
  exact ⟨q, par, hq, hpar⟩

/-- A thread that is asleep is woken by `free` of its process. -/
theorem Asleep.free (hw : Watch s.threadAt s.waits) {q : Nat}
    (h : Asleep { s with waits := s.waits.free q } t p) : Asleep s t p ∧ p ≠ q := by
  obtain ⟨th, hth, rfl, hc, hne, hnone⟩ := h
  have hnot : t ∉ s.waits.waitings q := by
    intro hmem
    simp [Waits.free, hmem] at hnone
  have hnone' : s.waits.waited t = none := by
    simpa [Waits.free, hnot] using hnone
  refine ⟨⟨th, hth, rfl, hc, hne, hnone'⟩, ?_⟩
  rintro rfl
  obtain ⟨th', -, hth', hset, -⟩ := hw.own t hne
  obtain rfl : th' = th := Option.some.inj (hth'.symm.trans hth)
  refine hw.inv.pending t th'.process ?_ hnot hnone'
  simp only [hset, Finset.mem_singleton]

/-- The process `p`, which was `pro`, is a zombie. -/
structure Ended (p : Nat) (pro : Process) (returnCode : Nat) (s s' : Tasks) : Prop where
  processAt : s'.processAt = put s.processAt p
    (some { pro with returnCode := returnCode, terminated := true, threads := .empty })
  still : Still s s'
  threadAt : ∀ u, s'.threadAt u = if u ∈ pro.threads then none else s.threadAt u
  ends : ∃ q, pro.parent = some q ∧ Ends q s s'

theorem terminate_spec {returnCode : Nat} (h : Sane M s) (hp : s.processAt p = some pro)
    (hM : ∀ t, t ∈ pro.threads → ∃ q, M q t) :
    Ensures (s.terminate p returnCode) NoStray fun s' =>
      Sane (fun q u => M q u ∧ u ∉ pro.threads) s' ∧ Ended p pro returnCode s s' := by
  unfold terminate
  simp only [process_eq hp, ok_bind]
  set pro₁ : Process := { pro with returnCode := returnCode, terminated := true } with hpro₁
  have hs₁ : Sane M (s.setProcess p pro₁) := h.setProcess hp rfl
  have hp₁ : (s.setProcess p pro₁).processAt p = some pro₁ := put_self _ _ _
  refine (clear_spec hs₁ hp₁ hM).bind fun s₂ ⟨hs₂, hclear⟩ => ?_
  by_cases hpid : pro.pid = 1
  · rw [if_pos hpid]
    exact ⟨by simp, by simp⟩
  · rw [if_neg hpid]
    obtain ⟨q, par, hq, hpar⟩ := h.parent hp hpid
    have hq₂ : ∃ par', s₂.processAt q = some par' := by
      rw [hclear.processAt]
      by_cases hqp : q = p
      · exact ⟨_, by rw [hqp, put_self]⟩
      · exact ⟨par, by rw [put_of_ne _ _ hqp, setProcess_processAt, put_of_ne _ _ hqp, hpar]⟩
    obtain ⟨par', hpar'⟩ := hq₂
    have hproc : s₂.processAt = put s.processAt p (some { pro₁ with threads := .empty }) := by
      rw [hclear.processAt, setProcess_processAt, put_put]
    simp only [hq, process_eq hpar', ok_bind, pure, Except.pure]
    refine ⟨⟨hs₂.crew, hs₂.family, hs₂.watch.free q, hs₂.unused, hs₂.current⟩, hproc,
      ⟨hclear.still.threads, hclear.still.fifo, hclear.still.current⟩, hclear.threadAt, q, hq, fun t x ht => ?_, fun x y hx => ?_⟩
    · obtain ⟨hasleep, hne⟩ := Asleep.free hs₂.watch ht
      refine ⟨?_, hne⟩
      obtain ⟨th, hth, hrest⟩ := hasleep
      rw [hclear.threadAt] at hth
      rw [hclear.waits] at hrest
      split at hth
      · cases hth
      · exact ⟨th, hth, hrest⟩
    · obtain ⟨prox, hprox, hparx, hterm⟩ := hx
      simp only [hproc] at hprox
      by_cases hxp : x = p
      · subst hxp
        rw [put_self, Option.some.injEq] at hprox
        subst hprox
        exact .inr (Option.some.inj (hparx.symm.trans hq))
      · rw [put_of_ne _ _ hxp] at hprox
        exact .inl ⟨prox, hprox, hparx, hterm⟩

/-- The thread `t` has left the process `p`, which was `pro` and may be a zombie now. -/
structure Left (p t : Nat) (pro pro' : Process) (s s' : Tasks) : Prop where
  processAt : s'.processAt = put s.processAt p (some pro')
  kin : pro'.kin = pro.kin
  threads : ∀ u, u ∈ pro'.threads ↔ u ∈ pro.threads ∧ u ≠ t
  threadAt : s'.threadAt = s.threadAt
  still : Still s s'
  terminated : pro'.terminated = true → pro.terminated = true ∨ ∀ u, u ∉ pro'.threads
  ends : Calm s s' ∨ ∃ q, Ends q s s'

theorem calm_setProcess {pro' : Process} (hp : s.processAt p = some pro)
    (hpar : pro'.parent = pro.parent) (hterm : pro'.terminated = pro.terminated) :
    Calm s (s.setProcess p pro') := by
  refine ⟨fun _ _ ht => ht, fun x y hx => ?_⟩
  obtain ⟨prox, hprox, hrest⟩ := hx
  by_cases hxp : x = p
  · subst hxp
    simp only [setProcess, put_self, Option.some.injEq] at hprox
    subst hprox
    exact ⟨pro, hp, hpar ▸ hrest.1, hterm ▸ hrest.2⟩
  · exact ⟨prox, by simpa [setProcess, put_of_ne _ _ hxp] using hprox, hrest⟩

theorem Calm.ends {s₁ s₂ s₃ : Tasks} (h : Calm s₁ s₂) (h' : Ends q s₂ s₃) : Ends q s₁ s₃ :=
  ⟨fun t p ht => ⟨h.asleep t p (h'.asleep t p ht).1, (h'.asleep t p ht).2⟩,
    fun x p hx => (h'.zombie x p hx).imp_left (h.zombie x p)⟩

theorem Ends.calm {s₁ s₂ s₃ : Tasks} (h : Ends q s₁ s₂) (h' : Calm s₂ s₃) : Ends q s₁ s₃ :=
  ⟨fun t p ht => h.asleep t p (h'.asleep t p ht), fun x p hx => h.zombie x p (h'.zombie x p hx)⟩

theorem remThread_spec (h : Sane M s) (hp : s.processAt p = some pro) :
    Ensures (s.remThread p t) NoStray fun s' => Sane M s' ∧ ∃ pro', Left p t pro pro' s s' := by
  unfold remThread
  simp only [process_eq hp, ok_bind]
  set pro₁ : Process := { pro with threads := pro.threads.erase t } with hpro₁
  have hs₁ : Sane M (s.setProcess p pro₁) := h.setProcess hp rfl
  have hp₁ : (s.setProcess p pro₁).processAt p = some pro₁ := put_self _ _ _
  have hcalm : Calm s (s.setProcess p pro₁) := calm_setProcess hp rfl rfl
  by_cases hempty : (pro.threads.erase t).isEmpty
  · have hno := OrderedSet.isEmpty_iff.mp hempty
    simp only [hempty, if_true]
    refine ensures_bind_assert fun _ => ?_
    refine (terminate_spec hs₁ hp₁ fun u hu => absurd hu (hno u)).mono (fun _ => id)
      fun s₂ ⟨hs₂, hend⟩ => ⟨hs₂.mono fun q u => ?_,
        { pro₁ with returnCode := pro.returnCode, terminated := true, threads := .empty },
        ?_, rfl, fun u => ?_, ?_, ⟨hend.still.threads, hend.still.fifo, hend.still.current⟩, fun _ => .inr OrderedSet.notMem_empty, ?_⟩
    · exact ⟨And.left, fun hq => ⟨hq, hno u⟩⟩
    · rw [hend.processAt, setProcess_processAt, put_put]
    · rw [← OrderedSet.mem_erase]
      exact ⟨fun hu => absurd hu (OrderedSet.notMem_empty u), fun hu => absurd hu (hno u)⟩
    · funext u
      rw [hend.threadAt, if_neg (hno u)]
      rfl
    · obtain ⟨q, -, hends⟩ := hend.ends
      exact .inr ⟨q, hcalm.ends hends⟩
  · simp only [hempty]
    exact ⟨hs₁, pro₁, rfl, rfl, fun u => OrderedSet.mem_erase, rfl,
      ⟨fun _ _ => id, rfl, rfl⟩, fun hterm => .inl hterm,
      .inl hcalm⟩

theorem mainTerm_spec {returnCode : Nat} (h : Sane M s) (hp : s.processAt p = some pro)
    (ht : s.threadAt t = some th) :
    Ensures (s.mainTerm p t returnCode) NoStray fun s' =>
      Sane M s' ∧ ∃ pro', Left p t pro pro' s s' := by
  unfold mainTerm
  simp only [process_eq hp, thread_eq ht, ok_bind]
  refine ensures_bind_assert fun _ => ?_
  set pro₁ : Process := { pro with mainTerminated := true, returnCode := returnCode } with hpro₁
  have hs₁ : Sane M (s.setProcess p pro₁) := h.setProcess hp rfl
  have hp₁ : (s.setProcess p pro₁).processAt p = some pro₁ := put_self _ _ _
  have hcalm : Calm s (s.setProcess p pro₁) := calm_setProcess hp rfl rfl
  refine (remThread_spec hs₁ hp₁).mono (fun _ => id) fun s₂ ⟨hs₂, pro', hleft⟩ =>
    ⟨hs₂, pro', ?_, hleft.kin, hleft.threads, hleft.threadAt,
      ⟨hleft.still.threads, hleft.still.fifo, hleft.still.current⟩, hleft.terminated, ?_⟩
  · rw [hleft.processAt, setProcess_processAt, put_put]
  · rcases hleft.ends with hc | ⟨q, hends⟩
    · exact .inl (hcalm.trans hc)
    · exact .inr ⟨q, hcalm.ends hends⟩

theorem terminateThread_spec {returnCode : Nat} (h : Sane M s) (ht : s.threadAt t = some th)
    (hp : s.processAt th.process = some pro) :
    Ensures (s.terminateThread t returnCode) NoStray fun s' =>
      Sane M s' ∧ ∃ pro', Left th.process t pro pro' s s' := by
  unfold terminateThread
  simp only [thread_eq ht, process_eq hp, ok_bind]
  split
  · exact mainTerm_spec h hp ht
  · exact remThread_spec h hp

/-- The number is taken out of the free ones. -/
theorem getFreshTid_spec (h : Unused s.tids s.threads s.processes s.groups) :
    Ensures s.getFreshTid NoStray fun r => ∃ b, r.2 = { s with tids := b } ∧
      (r.1 ≠ 0 ∧ r.1 < 0x1000 * 8) ∧ (s.tids.bsf = some r.1 ∧ s.tids.bit r.1 = true) ∧
      Bitset.Wrote false (· = r.1) s.tids b := by
  unfold getFreshTid
  refine Bitset.ensures_write.bind fun b ⟨hlt, hb⟩ => ?_
  cases hbsf : s.tids.bsf with
  | none =>
    rw [hbsf, Option.getD_none, h.size] at hlt
    omega
  | some k =>
    obtain ⟨hk, hbit, -⟩ : k < 64 * (s.tids.size / 64) ∧ s.tids.bit k = true ∧ _ :=
      Words.firstOne_some hbsf
    rw [h.size] at hk
    have hmod : k % 2 ^ 16 = k := Nat.mod_eq_of_lt (by omega)
    rw [hbsf, Option.getD_some, hmod] at hb
    simp only [Option.getD_some, hmod]
    refine ⟨b, rfl, ⟨?_, by omega⟩, ⟨rfl, hbit⟩, hb⟩
    rintro rfl
    exact absurd (hbit.symm.trans h.bit_zero) (by simp)

/-- The thread `t` of the process `p`, which was `pro`, is new. -/
structure Added (t tid p : Nat) (pro : Process) (s s' : Tasks) : Prop where
  processAt : s'.processAt = put s.processAt p (some { pro with threads := pro.threads.insert t })
  calm : Calm s s'
  threads : s'.threads = put s.threads tid (some t)
  fifo : s'.fifo = s.fifo ++ [tid]
  current : s'.current = s.current

/-- A new thread with waits that are reset is not asleep. -/
theorem Asleep.of_new {s s' : Tasks} {x : Nat} (h : Asleep s' x p)
    (hthread : s'.threadAt = put s.threadAt t (some ⟨tid, q, none⟩))
    (hwaiting : s'.waits.waiting = fun u => if u = t then ∅ else s.waits.waiting u)
    (hwaited : s'.waits.waited = fun u => if u = t then none else s.waits.waited u) :
    Asleep s x p := by
  obtain ⟨th, hth, hp, hc, hne, hnone⟩ := h
  rw [hthread] at hth
  rw [hwaiting] at hne
  rw [hwaited] at hnone
  by_cases hxt : x = t
  · simp only [if_pos hxt] at hne
    exact absurd rfl hne
  · rw [put_of_ne _ _ hxt] at hth
    simp only [if_neg hxt] at hne hnone
    exact ⟨th, hth, hp, hc, hne, hnone⟩

theorem newThread_spec {b : Bitset} (h : Sane M s) (ht : s.threadAt t = none)
    (hp : s.processAt p = some pro) (htid : s.threads tid = none) (hid : tid ≠ 0 ∧ tid < 0x1000 * 8)
    (hsize : b.size = s.tids.size) (hbit : b.bit tid = false)
    (hb : ∀ k, k ≠ tid → b.bit k = s.tids.bit k)
    (hmain : ∀ q k, s.kinAt q = some k → tid = k.pid → p = q) :
    Ensures (newThread { s with tids := b } t tid p) NoStray fun s' =>
      Sane (fun q u => M q u ∨ q = p ∧ u = t) s' ∧ Added t tid p pro s s' := by
  unfold newThread addThread
  simp only [addT, process, hp, ok_bind, pure, Except.pure]
  have hkin : s.kinAt p ≠ none := kinAt_ne_none.mpr ⟨pro, hp⟩
  set pro' : Process := { pro with threads := pro.threads.insert t } with hpro'
  have hsame : (s.setProcess p pro').kinAt = s.kinAt := kinAt_setProcess_same hp rfl
  refine ⟨⟨?_, ?_, h.watch.add ht, ?_, fun c hc => ?_⟩, rfl, ?_, rfl, rfl, rfl⟩
  · have := h.crew.add ht htid hkin hmain
    rw [← hsame] at this
    exact this
  · have := h.family
    rw [← hsame] at this
    exact this
  · refine h.unused.update hid hsize hb (fun k hk => ?_) ?_
    · simp only [setProcess, put_of_ne _ _ hk]
    · simp [hbit, setProcess]
  · have hct : c ≠ t := by
      rintro rfl
      exact h.current c hc ht
    exact fun hnone => h.current c hc ((put_of_ne _ _ hct).symm.trans hnone)
  · have hcalm : Calm s (s.setProcess p pro') := calm_setProcess hp rfl rfl
    exact ⟨fun x q hx => hx.of_new rfl rfl rfl, hcalm.zombie⟩

/-- The processes in the list are children of `i` now. -/
structure Adopted (i : Nat) (l : List Nat) (f f' : Nat → Option Process) : Prop where
  stays : ∀ x, f x ≠ none → f' x ≠ none
  old : ∀ x pro', f' x = some pro' → ∃ pro sons, f x = some pro ∧
    pro' = { pro with parent := if x ∈ l then some i else pro.parent, sons := sons } ∧
    ∀ y, y ∈ sons ↔ y ∈ pro.sons ∨ x = i ∧ y ∈ l

theorem Adopted.cons {i : Nat} {l : List Nat} {f f' f'' : Nat → Option Process}
    (h : Adopted i [q] f f') (h' : Adopted i l f' f'') : Adopted i (q :: l) f f'' := by
  refine ⟨fun x hx => h'.stays x (h.stays x hx), fun x pro'' hx => ?_⟩
  obtain ⟨pro', sons', hx', rfl, hsons'⟩ := h'.old x pro'' hx
  obtain ⟨pro, sons, hx₀, rfl, hsons⟩ := h.old x pro' hx'
  refine ⟨pro, sons', hx₀, ?_, fun y => ?_⟩
  · by_cases hxq : x = q
    · simp [hxq]
    · simp [hxq]
  · rw [hsons', hsons, List.mem_singleton, List.mem_cons, or_assoc, ← and_or_left]

theorem orphan_spec {i : Nat} (hi : s.processes 1 = some i) (hip : s.processAt i ≠ none)
    (hq : s.processAt q ≠ none) :
    Ensures (s.orphan q) NoStray fun s' =>
      ∃ f, s' = { s with processAt := f } ∧ Adopted i [q] s.processAt f := by
  obtain ⟨ip, hip⟩ := Option.ne_none_iff_exists'.mp hip
  obtain ⟨pro, hq⟩ := Option.ne_none_iff_exists'.mp hq
  unfold orphan addChild
  simp only [getP, hi, process_eq hq, ok_bind]
  by_cases hiq : i = q
  · subst hiq
    simp only [process, setProcess_processAt, put_self, ok_bind, pure, Except.pure]
    refine ⟨_, rfl, fun x hx => ?_, fun x pro' hx => ?_⟩
    · by_cases hxi : x = i
      · simp [hxi]
      · simpa [put_of_ne _ _ hxi] using hx
    · by_cases hxi : x = i
      · subst hxi
        simp only [put_self, Option.some.injEq] at hx
        exact ⟨pro, _, hq, by rw [← hx, if_pos List.mem_cons_self], by simp [or_comm]⟩
      · rw [put_of_ne _ _ hxi, setProcess_processAt, put_of_ne _ _ hxi] at hx
        exact ⟨pro', pro'.sons, hx, by simp [hxi], by simp [hxi]⟩
  · have hip₁ : (s.setProcess q { pro with parent := some i }).processAt i = some ip := by
      rw [setProcess_processAt, put_of_ne _ _ hiq, hip]
    simp only [process_eq hip₁, ok_bind, pure, Except.pure]
    refine ⟨_, rfl, fun x hx => ?_, fun x pro' hx => ?_⟩
    · by_cases hxi : x = i
      · simp [hxi]
      · rw [put_of_ne _ _ hxi, setProcess_processAt]
        by_cases hxq : x = q
        · simp [hxq]
        · rwa [put_of_ne _ _ hxq]
    · by_cases hxi : x = i
      · subst hxi
        simp only [put_self, Option.some.injEq] at hx
        exact ⟨ip, _, hip, by rw [← hx, if_neg (by simp [hiq])], by simp [or_comm]⟩
      · rw [put_of_ne _ _ hxi, setProcess_processAt] at hx
        by_cases hxq : x = q
        · subst hxq
          rw [put_self, Option.some.injEq] at hx
          exact ⟨pro, pro.sons, hq, by rw [← hx, if_pos List.mem_cons_self], by simp [hxi]⟩
        · rw [put_of_ne _ _ hxq] at hx
          exact ⟨pro', pro'.sons, hx, by simp [hxq], by simp [hxi]⟩

theorem orphans_spec {i : Nat} {l : List Nat} (hi : s.processes 1 = some i)
    (hip : s.processAt i ≠ none) (hl : ∀ q ∈ l, s.processAt q ≠ none) :
    Ensures (l.foldlM orphan s) NoStray fun s' =>
      ∃ f, s' = { s with processAt := f } ∧ Adopted i l s.processAt f := by
  induction l generalizing s with
  | nil => exact ⟨s.processAt, rfl, fun _ => id, fun x pro' hx => ⟨pro', pro'.sons, hx, by simp, by simp⟩⟩
  | cons q l ih =>
    rw [List.foldlM_cons]
    refine (orphan_spec hi hip (hl q List.mem_cons_self)).bind fun s₁ ⟨f, hs₁, hadopt⟩ => ?_
    subst hs₁
    have hrest := ih (s := { s with processAt := f }) hi (hadopt.stays i hip) fun x hx =>
      hadopt.stays x (hl x (List.mem_cons_of_mem q hx))
    refine hrest.mono (fun _ => id) fun s₂ ⟨f', hs₂, hadopt'⟩ => ?_
    subst hs₂
    exact ⟨f', rfl, hadopt.cons hadopt'⟩

theorem freeP_spec (hthreads : s.threads pid = none)
    (hu : Unused s.tids s.threads s.processes s.groups) :
    Ensures (s.freeP pid) NoStray fun s' => ∃ b,
      s' = { s with processes := put s.processes pid none, tids := b } ∧
      Unused b s.threads (put s.processes pid none) s.groups := by
  have hmaps : ∀ k, k ≠ pid → ((s.threads k = none ∧ put s.processes pid none k = none ∧
      s.groups k = none) ↔ s.threads k = none ∧ s.processes k = none ∧ s.groups k = none) := by
    intro k hk
    rw [put_of_ne _ _ hk]
  unfold freeP
  refine ensures_bind_assert fun hsome => ?_
  have hbounds : pid ≠ 0 ∧ pid < 0x1000 * 8 := hu.bounds fun hnone => by simp [hnone.2.1] at hsome
  by_cases hfree : (s.groups pid).isNone
  · simp only [hfree, if_true]
    refine Bitset.ensures_write.bind fun b hb => ⟨b, rfl, ?_⟩
    refine hu.update hbounds hb.2.size hb.2.outside hmaps ?_
    exact iff_of_true (hb.2.inside pid rfl)
      ⟨hthreads, put_self _ _ _, Option.isNone_iff_eq_none.mp hfree⟩
  · simp only [hfree]
    refine ⟨s.tids, rfl, hu.update hbounds rfl (fun _ _ => rfl) hmaps ?_⟩
    have hused : s.groups pid ≠ none := by simpa using hfree
    rw [hu.free pid hbounds.1 hbounds.2]
    exact iff_of_false (fun hnone => hused hnone.2.2) fun hnone => hused hnone.2.2

/-- The group of a process stays when it has another one. -/
theorem remProcess_spec {gid : Nat} {pros : Pointers} (hg : s.groups gid = some pros) (hq : q ∈ pros)
    (hqp : q ≠ p) : Ensures (s.remProcess gid p) NoStray fun s' =>
      s' = { s with groups := put s.groups gid (some (pros.erase p)) } := by
  have hempty : (pros.erase p).isEmpty = false := by
    rw [Bool.eq_false_iff, Ne, OrderedSet.isEmpty_iff]
    exact fun hno => hno q (OrderedSet.mem_erase.mpr ⟨hq, hqp⟩)
  unfold remProcess
  simp only [getG, hg, ok_bind]
  refine ensures_bind_assert fun _ => ?_
  simp only [hempty]
  rfl

/-- The process `p` is gone, and its children are children of `i`. -/
structure Reaped (i p : Nat) (s s' : Tasks) : Prop where
  gone : s'.processAt p = none
  stays : ∀ x, x ≠ p → s.processAt x ≠ none → s'.processAt x ≠ none
  old : ∀ x pro', s'.processAt x = some pro' → ∃ pro, s.processAt x = some pro ∧
    pro'.threads = pro.threads ∧ pro'.terminated = pro.terminated ∧
    pro'.parent = if pro.parent = some p then some i else pro.parent
  threadAt : s'.threadAt = s.threadAt
  waits : s'.waits = s.waits
  still : Still s s'

/-- The records after the sons of `p` have been adopted and `p` has left its parent `par`. -/
theorem adopted_old {i par : Nat} {par₁ : Process} {f : Nat → Option Process}
    (h : Family s.kinAt s.processes s.groups) (hp : s.processAt p = some pro)
    (hpar : pro.parent = some par) (hadopt : Adopted i pro.sons.toList s.processAt f)
    (hf : f par = some par₁) {x : Nat} {pro' : Process}
    (hx : put (put f par (some { par₁ with sons := par₁.sons.erase p })) p none x = some pro') :
    x ≠ p ∧ ∃ pro₀ sons, s.processAt x = some pro₀ ∧
      pro' = { pro₀ with
        parent := if pro₀.parent = some p then some i else pro₀.parent, sons := sons } ∧
      ∀ y, y ∈ sons ↔ y ≠ p ∧ (y ∈ pro₀.sons ∨ x = i ∧ parentOf s.kinAt y = some p) := by
  have hson : ∀ y, y ∈ pro.sons ↔ parentOf s.kinAt y = some p := by
    intro y
    rw [parentOf_eq_some]
    exact h.sons p _ (kinAt_eq hp) y
  have hself : parentOf s.kinAt p ≠ some p := fun heq =>
    h.acyclic p (Relation.TransGen.single heq)
  have hxp : x ≠ p := by
    rintro rfl
    rw [put_self] at hx
    cases hx
  rw [put_of_ne _ _ hxp] at hx
  have hparent : ∀ pro₀, s.processAt x = some pro₀ →
      (if x ∈ pro.sons.toList then some i else pro₀.parent) =
        if pro₀.parent = some p then some i else pro₀.parent := by
    intro pro₀ hpro₀
    refine if_congr ((hson x).trans ?_) rfl rfl
    rw [parentOf, kinAt_eq hpro₀]
    exact Iff.rfl
  refine ⟨hxp, ?_⟩
  by_cases hxpar : x = par
  · subst hxpar
    rw [put_self, Option.some.injEq] at hx
    obtain ⟨pro₀, sons, hpro₀, rfl, hsons⟩ := hadopt.old x par₁ hf
    refine ⟨pro₀, sons.erase p, hpro₀, by rw [← hx, hparent pro₀ hpro₀], fun y => ?_⟩
    rw [OrderedSet.mem_erase, hsons, ← hson, and_comm]
    exact Iff.rfl
  · rw [put_of_ne _ _ hxpar] at hx
    obtain ⟨pro₀, sons, hpro₀, rfl, hsons⟩ := hadopt.old x pro' hx
    refine ⟨pro₀, sons, hpro₀, by rw [hparent pro₀ hpro₀], fun y => ?_⟩
    rw [hsons]
    refine ⟨fun hy => ⟨?_, hy.imp_right fun hy => ⟨hy.1, (hson y).mp hy.2⟩⟩,
      fun hy => hy.2.imp_right fun hy => ⟨hy.1, (hson y).mpr hy.2⟩⟩
    rintro rfl
    rcases hy with hy | ⟨-, hy⟩
    · obtain ⟨k, hk, hkpar⟩ := (h.sons x _ (kinAt_eq hpro₀) y).mp hy
      obtain rfl : k = pro.kin := Option.some.inj (hk.symm.trans (kinAt_eq hp))
      exact hxpar (Option.some.inj (hkpar.symm.trans hpar))
    · exact hself ((hson y).mp hy)

theorem deleteProcess_spec (h : Core M s) (hp : s.processAt p = some pro) {par : Nat}
    (hpar : pro.parent = some par) (hM : ∀ t, ¬M p t) :
    Ensures (s.deleteProcess p) NoStray fun s' =>
      ∃ i, s.processes 1 = some i ∧ Core M s' ∧ Reaped i p s s' := by
  obtain ⟨i, ki, hi, hki, hnone⟩ := h.family.init
  obtain ⟨ip, hip, rfl⟩ := kinAt_eq_some.mp hki
  have hpi : p ≠ i := by
    rintro rfl
    obtain rfl : ip = pro := Option.some.inj (hip.symm.trans hp)
    exact absurd (hpar.symm.trans hnone) (by simp)
  have hpid : (1 : Nat) ≠ pro.pid := fun heq =>
    hpi (Option.some.inj (((h.family.mapped 1 p).mpr ⟨_, kinAt_eq hp, heq.symm⟩).symm.trans hi))
  have hgid : pro.gid = 1 := h.family.gid p _ (kinAt_eq hp)
  have hself : parentOf s.kinAt p ≠ some p := fun heq =>
    h.family.acyclic p (Relation.TransGen.single heq)
  have hparent : parentOf s.kinAt p = some par := parentOf_eq_some.mpr ⟨_, kinAt_eq hp, hpar⟩
  have hne : par ≠ p := fun heq => hself (heq ▸ hparent)
  obtain ⟨pros, hg, hmem⟩ := h.family.members
  have hthreads : s.threads pro.pid = none := by
    cases hmap : s.threads pro.pid with
    | none => rfl
    | some t =>
      obtain ⟨th, hth, htid⟩ := (h.crew.mapped pro.pid t).mp hmap
      have hown := h.crew.main t th p _ hth (kinAt_eq hp) htid
      exact absurd (hown ▸ (h.crew.owner t th hth).1) (hM t)
  have hsons : ∀ x ∈ pro.sons.toList, s.processAt x ≠ none := by
    intro x hx
    obtain ⟨k, hk, -⟩ := (h.family.sons p _ (kinAt_eq hp) x).mp hx
    exact Option.ne_none_iff_exists'.mpr (kinAt_ne_none.mp (by simp [hk]))
  unfold deleteProcess
  simp only [process_eq hp, ok_bind]
  refine ensures_bind_assert fun _ => ?_
  refine (freeP_spec hthreads h.unused).bind fun s₁ ⟨b, hs₁, hunused⟩ => ?_
  have hi₁ : s₁.processes 1 = some i := by
    rw [hs₁]
    exact (put_of_ne _ _ hpid).trans hi
  have hat₁ : s₁.processAt = s.processAt := by rw [hs₁]
  have hip₁ : s₁.processAt i ≠ none := by simp [hat₁, hip]
  refine (orphans_spec hi₁ hip₁ (hat₁ ▸ hsons)).bind fun s₂ ⟨f, hs₂, hadopt⟩ => ?_
  rw [hat₁] at hadopt
  have hg₂ : s₂.groups pro.gid = some pros := by rw [hs₂, hs₁, hgid, ← hg]
  refine (remProcess_spec hg₂ (hmem i _ hki) hpi.symm).bind fun s₃ hs₃ => ?_
  have hat₃ : s₃.processAt = f := by rw [hs₃, hs₂]
  -- The process is not its own child, and keeps its parent.
  obtain ⟨pro₁, hp₁⟩ := Option.ne_none_iff_exists'.mp (hadopt.stays p (by simp [hp]))
  have hpar₁ : pro₁.parent = some par := by
    obtain ⟨pro₀, sons, hp₀, rfl, -⟩ := hadopt.old p pro₁ hp₁
    obtain rfl : pro₀ = pro := Option.some.inj (hp₀.symm.trans hp)
    refine (if_neg fun hmem => hself ?_).trans hpar
    exact parentOf_eq_some.mpr ((h.family.sons p _ (kinAt_eq hp) p).mp hmem)
  obtain ⟨kpar, hkpar⟩ := h.family.parent_exists (kinAt_eq hp) hpar
  obtain ⟨par₀, hpar₀, -⟩ := kinAt_eq_some.mp hkpar
  obtain ⟨par₁, hf⟩ := Option.ne_none_iff_exists'.mp (hadopt.stays par (by simp [hpar₀]))
  simp only [process, setProcess, hat₃, hp₁, hpar₁, hf, ok_bind]
  refine ensures_bind_assert fun _ => ?_
  subst hs₃ hs₂ hs₁
  simp only [pure, Except.pure, Ensures.ok]
  set F := put (put f par (some { par₁ with sons := par₁.sons.erase p })) p none with hF
  have hold : ∀ {x pro'}, F x = some pro' → _ := adopted_old h.family hp hpar hadopt hf
  have hstays : ∀ x, x ≠ p → s.processAt x ≠ none → F x ≠ none := by
    intro x hxp hx
    rw [hF, put_of_ne _ _ hxp]
    by_cases hxpar : x = par
    · simp [hxpar]
    · rw [put_of_ne _ _ hxpar]
      exact hadopt.stays x hx
  have hpruned : Pruned i p s.kinAt fun x => (F x).map Process.kin := by
    refine ⟨by simp [hF], fun x k hxp hk => ?_, fun x k' hk' => ?_⟩
    · obtain ⟨pro', hpro'⟩ := Option.ne_none_iff_exists'.mp
        (hstays x hxp (Option.ne_none_iff_exists'.mpr (kinAt_ne_none.mp (by simp [hk]))))
      exact ⟨pro'.kin, by simp [hpro']⟩
    · obtain ⟨pro', hpro', rfl⟩ := Option.map_eq_some_iff.mp hk'
      obtain ⟨-, pro₀, sons, hpro₀, rfl, hmem'⟩ := hold hpro'
      exact ⟨pro₀.kin, kinAt_eq hpro₀, rfl, rfl, rfl, hmem'⟩
  have hfamily := h.family.prune hi (kinAt_eq hp) hpi hg hpruned
  refine ⟨i, hi, ⟨?_, ?_, ?_, h.current⟩,
    put_self _ _ _, hstays, fun x pro' hx => ?_, rfl, rfl, ⟨fun _ _ => id, rfl, rfl⟩⟩
  · refine h.crew.rekin (fun x u hu hx => ?_) fun x k' hk' => ?_
    · have hxp : x ≠ p := by
        rintro rfl
        exact hM u hu
      obtain ⟨prox, hprox⟩ := kinAt_ne_none.mp hx
      simpa [kinAt] using hstays x hxp (by simp [hprox])
    · obtain ⟨k, hk, hpid', -⟩ := hpruned.kept x k' hk'
      exact .inl ⟨k, hk, hpid'.symm⟩
  · rw [hgid]
    exact hfamily
  · have hgroups : ∀ k, put s.groups pro.gid (some (pros.erase p)) k = none ↔ s.groups k = none := by
      intro k
      by_cases hk : k = pro.gid
      · rw [hk, put_self, hgid, hg]
        simp
      · rw [put_of_ne _ _ hk]
    refine ⟨hunused.size, hunused.bit_zero, fun k h0 hk => ?_, fun k hk => ?_⟩
    · rw [hgroups]
      exact hunused.free k h0 hk
    · rw [hgroups]
      exact hunused.none k hk
  · obtain ⟨-, pro₀, sons, hpro₀, rfl, -⟩ := hold hx
    exact ⟨pro₀, hpro₀, rfl, rfl, rfl⟩

end Tasks

end SupOS
