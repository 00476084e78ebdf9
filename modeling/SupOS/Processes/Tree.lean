import SupOS.Processes.Objects

/-! Every command keeps the tree of processes and their threads consistent. -/

namespace SupOS

open Lib

namespace Tasks

variable {s s' : Tasks} {M : Nat → Nat → Prop} {p q t tid pid : Nat} {pro : Process} {th : Thread}

/-- The child `q` is gone, and init may have got its children. -/
structure Reaps (q : Nat) (s s' : Tasks) : Prop where
  asleep : ∀ t p, Asleep s' t p → Asleep s t p
  zombie : ∀ x p, Zombie s' x p → Zombie s x p ∨ s.processes 1 = some p ∧ Zombie s x q
  lived : s.processAt q ≠ none
  gone : s'.processAt q = none

/-- A thread of `p` falls asleep, which has no terminated child. -/
structure Sleeps (p : Nat) (s s' : Tasks) : Prop where
  asleep : ∀ t x, Asleep s' t x → Asleep s t x ∨ x = p
  zombie : ∀ x y, Zombie s' x y → Zombie s x y
  childless : ∀ x, ¬Zombie s x p

/-- What a command that deletes the child `r`, if any, does to the children and their waits. -/
inductive Effect (r : Option Nat) (s s' : Tasks) : Prop
  | calm (hn : r = none) (h : Calm s s')
  | ends {q : Nat} (hn : r = none) (h : Ends q s s')
  | sleeps {p : Nat} (hn : r = none) (h : Sleeps p s s')
  | reaps {q : Nat} (hq : r = some q) (h : Reaps q s s')

/-- The address of the process that the command builds. -/
def builds : Command → Option Nat
  | .fork p _ => some p
  | _ => none

/-- Each thread that does not run is in the queue once, and the one that runs is not in it. -/
def Queued (s : Tasks) : Prop :=
  ∀ tid t, s.threads tid = some t → s.fifo.count tid = if s.current = some t then 0 else 1

/-- A thread that the command adds has a number that is not in the queue then. -/
def Unqueued (s : Tasks) : Command → Prop
  | .fork _ _ | .clone _ => ∀ tid, s.tids.bsf = some tid → tid ∉ s.fifo
  | .exec _ => ∀ t th pro, s.current = some t → s.threadAt t = some th →
      s.processAt th.process = some pro → th.tid ≠ pro.pid ∧ pro.pid ∉ s.fifo
  | _ => True

/-- What is proved of each command. -/
structure Done (c : Command) (s s' : Tasks) : Prop where
  inv : Inv s'
  effect : Effect (s.reaps c) s s'
  born : ∀ x, s'.processAt x ≠ none → s.processAt x ≠ none ∨ builds c = some x
  queued : Unqueued s c → Queued s → Queued s'

theorem Sane.inv (h : Sane M s) (hM : ∀ p t, M p t ↔ Listed s p t)
    (hquiet : ∀ p pro, s.processAt p = some pro → pro.terminated = true → ∀ t, t ∉ pro.threads) :
    Inv s := ⟨h.mono hM, hquiet⟩

/-- A thread is listed by one process. -/
theorem Sane.listed_unique (h : Sane M s) (hp : M p t) (hq : M q t) : p = q := by
  obtain ⟨th, hth, rfl⟩ := h.crew.listed p t hp
  obtain ⟨th', hth', rfl⟩ := h.crew.listed q t hq
  rw [Option.some.inj (hth.symm.trans hth')]

/-- The thread that runs, and its process, which is not a zombie. -/
theorem Inv.running (h : Inv s) (hc : s.current = some t) : ∃ th pro, s.threadAt t = some th ∧
    s.processAt th.process = some pro ∧ t ∈ pro.threads ∧ pro.terminated = false := by
  obtain ⟨th, hth⟩ := h.sane.current_thread hc
  obtain ⟨⟨pro, hpro, hmem⟩, -⟩ := h.sane.owner hth
  refine ⟨th, pro, hth, hpro, hmem, ?_⟩
  cases hterm : pro.terminated with
  | false => rfl
  | true => exact absurd hmem (h.quiet _ pro hpro hterm t)

theorem enterSys_spec : Ensures s.enterSys NoStray fun t => s.current = some t := by
  unfold enterSys
  cases s.current with
  | none => exact ⟨by simp, by simp⟩
  | some t => rfl

/-- A record that is written anew exists as before. -/
theorem exists_of_put {pro' : Process} (hp : s.processAt p = some pro)
    (hproc : s'.processAt = put s.processAt p (some pro')) (x : Nat) (hx : s'.processAt x ≠ none) :
    s.processAt x ≠ none := by
  by_cases hxp : x = p
  · simp [hxp, hp]
  · rwa [hproc, put_of_ne _ _ hxp] at hx

/-- The threads that are listed after a process has lost all of its own. -/
theorem Inv.listed_cleared (h : Inv s) (hp : s.processAt p = some pro) {pro' : Process}
    (hproc : s'.processAt = put s.processAt p (some pro')) (hempty : ∀ u, u ∉ pro'.threads)
    (x u : Nat) : (Listed s x u ∧ u ∉ pro.threads) ↔ Listed s' x u := by
  unfold Listed
  rw [hproc]
  by_cases hxp : x = p
  · subst hxp
    simp [hp, hempty]
  · rw [put_of_ne _ _ hxp]
    refine ⟨And.left, fun hx => ⟨hx, fun hu => hxp ?_⟩⟩
    exact h.sane.listed_unique hx ⟨pro, hp, hu⟩

/-- A process that is written anew is not a zombie with threads. -/
theorem Inv.quiet_put (h : Inv s) {pro' : Process}
    (hproc : s'.processAt = put s.processAt p (some pro'))
    (hpro' : pro'.terminated = true → ∀ u, u ∉ pro'.threads) (x : Nat) (prox : Process)
    (hx : s'.processAt x = some prox) (hterm : prox.terminated = true) (u : Nat) :
    u ∉ prox.threads := by
  rw [hproc] at hx
  by_cases hxp : x = p
  · rw [hxp, put_self, Option.some.injEq] at hx
    exact hx ▸ hpro' (hx ▸ hterm) u
  · rw [put_of_ne _ _ hxp] at hx
    exact h.quiet x prox hx hterm u

theorem Queued.still (h : Queued s) (hs : Still s s') : Queued s' := by
  intro tid t ht
  rw [hs.fifo, hs.current]
  exact h tid t (hs.threads tid t ht)

/-- The running thread is gone. -/
theorem Queued.quit (h : Queued s) (hs : Still s.quit s')
    (hgone : ∀ tid t, s'.threads tid = some t → s.current ≠ some t) : Queued s' := by
  intro tid t ht
  have hcount := h tid t (hs.threads tid t ht)
  rw [if_neg (hgone tid t ht)] at hcount
  rw [hs.fifo, hs.current]
  exact hcount

theorem Queued.stop (h : Queued s) (hcrew : Crew M s.threadAt s.threads s.kinAt)
    (hc : s.current = some t) (ht : s.threadAt t = some th) :
    Queued { s.quit with fifo := s.fifo ++ [th.tid] } := by
  intro tid u hu
  have hcount := h tid u hu
  change (s.fifo ++ [th.tid]).count tid = 1
  simp only [List.count_append, List.count_singleton, beq_iff_eq]
  by_cases hut : u = t
  · subst hut
    obtain ⟨th', hth', rfl⟩ := (hcrew.mapped tid u).mp hu
    obtain rfl : th' = th := Option.some.inj (hth'.symm.trans ht)
    rw [if_pos hc] at hcount
    rw [hcount, if_pos rfl]
  · have hne : th.tid ≠ tid := by
      rintro rfl
      have := (hcrew.mapped th.tid t).mpr ⟨th, ht, rfl⟩
      exact hut (Option.some.inj (hu.symm.trans this))
    rw [if_neg (fun heq => hut (Option.some.inj (heq.symm.trans hc)))] at hcount
    rw [hcount, if_neg hne]

theorem Queued.add (h : Queued s) (hadd : Added t tid p pro s s') (htid : tid ∉ s.fifo)
    (hc : s.current ≠ some t) : Queued s' := by
  intro k u hu
  rw [hadd.threads] at hu
  rw [hadd.fifo, hadd.current]
  simp only [List.count_append, List.count_singleton, beq_iff_eq]
  by_cases hk : k = tid
  · subst hk
    rw [put_self, Option.some.injEq] at hu
    subst hu
    rw [List.count_eq_zero.mpr htid, if_pos rfl, if_neg hc]
  · rw [put_of_ne _ _ hk] at hu
    rw [if_neg (Ne.symm hk)]
    exact h k u hu

theorem preempt_spec (h : Inv s) : Ensures (s.apply .preempt) NoStray (Done .preempt s) := by
  unfold apply timerHandler
  cases hc : s.current with
  | none => exact ⟨h, .calm rfl (.refl s), fun _ => .inl, fun _ => id⟩
  | some t =>
    obtain ⟨th, hth⟩ := h.sane.current_thread hc
    simp only [stopCurent_eq hc hth]
    have hquit := h.sane.quit
    exact ⟨⟨⟨hquit.crew, hquit.family, hquit.watch, hquit.unused, hquit.current⟩, h.quiet⟩,
      .calm rfl ⟨fun _ _ => id, fun _ _ => id⟩, fun _ hx => .inl hx,
      fun _ hq => hq.stop h.sane.crew hc hth⟩

theorem exit_spec (h : Inv s) {returnCode : Nat} :
    Ensures (s.exit returnCode) NoStray (Done (.exit returnCode) s) := by
  unfold exit
  refine enterSys_spec.bind fun t hc => ?_
  obtain ⟨th, pro, hth, hpro, hmem, -⟩ := h.running hc
  simp only [thread_eq hth, ok_bind]
  have hs₁ : Sane s.Listed s.quit := h.sane.quit
  refine (terminate_spec hs₁ hpro fun u hu => ⟨_, pro, hpro, hu⟩).mono (fun _ => id)
    fun s' ⟨hs', hend⟩ => ?_
  obtain ⟨q, -, hends⟩ := hend.ends
  refine ⟨hs'.inv (h.listed_cleared hpro hend.processAt OrderedSet.notMem_empty)
    (h.quiet_put hend.processAt fun _ => OrderedSet.notMem_empty),
    .ends rfl ⟨hends.asleep, hends.zombie⟩, fun x hx => .inl (exists_of_put hpro hend.processAt x hx),
    fun _ hqueued => hqueued.quit hend.still fun tid u hu hcu => ?_⟩
  obtain ⟨thu, hthu, -⟩ := (hs'.crew.mapped tid u).mp hu
  rw [hend.threadAt, if_pos (Option.some.inj (hc.symm.trans hcu) ▸ hmem)] at hthu
  cases hthu

theorem texit_spec (h : Inv s) {returnCode : Nat} :
    Ensures (s.texit returnCode) NoStray (Done (.texit returnCode) s) := by
  unfold texit
  refine enterSys_spec.bind fun t hc => ?_
  obtain ⟨th, pro, hth, hpro, hmem, -⟩ := h.running hc
  have hs₁ : Sane s.Listed s.quit := h.sane.quit
  have hth₁ : s.quit.threadAt t = some th := hth
  have hpro₁ : s.quit.processAt th.process = some pro := hpro
  refine (terminateThread_spec hs₁ hth₁ hpro₁).bind fun s₂ ⟨hs₂, pro', hleft⟩ => ?_
  have hth₂ : s₂.threadAt t = some th := by rw [hleft.threadAt, hth₁]
  refine (deleteThread_spec hs₂ hth₂).mono (fun _ => id) fun s' ⟨hs', hdel⟩ => ?_
  have hproc : s'.processAt = put s.processAt th.process (some pro') :=
    hdel.processAt.trans hleft.processAt
  refine ⟨hs'.inv (fun x u => ?_) (h.quiet_put hproc fun hterm u hu => ?_), ?_,
    fun x hx => .inl (exists_of_put hpro hproc x hx),
    fun _ hqueued => hqueued.quit (hleft.still.trans hdel.still) fun tid u hu hcu => ?_⟩
  · unfold Listed
    rw [hproc]
    by_cases hx : x = th.process
    · subst hx
      simp [hpro, hleft.threads]
    · rw [put_of_ne _ _ hx]
      refine ⟨And.left, fun hxu => ⟨hxu, ?_⟩⟩
      rintro rfl
      exact hx (h.sane.listed_unique hxu ⟨pro, hpro, hmem⟩)
  · rcases hleft.terminated hterm with hold | hno
    · exact h.quiet _ pro hpro hold u ((hleft.threads u).mp hu).1
    · exact hno u hu
  · rcases hleft.ends with hcalm | ⟨q, hends⟩
    · exact .calm rfl ⟨fun t p ht => hcalm.asleep t p (hdel.calm.asleep t p ht),
        fun q p hq => hcalm.zombie q p (hdel.calm.zombie q p hq)⟩
    · exact .ends rfl ⟨(hends.calm hdel.calm).asleep, (hends.calm hdel.calm).zombie⟩
  · obtain ⟨thu, hthu, -⟩ := (hs'.crew.mapped tid u).mp hu
    obtain rfl : t = u := Option.some.inj (hc.symm.trans hcu)
    rw [hdel.threadAt, if_pos List.mem_cons_self] at hthu
    cases hthu

theorem Cleared.calm (h : Cleared p pro s s') (hp : s.processAt p = some pro) : Calm s s' := by
  refine ⟨fun x q hx => ?_, fun x q hx => ?_⟩
  · obtain ⟨th, hth, hrest⟩ := hx
    rw [h.threadAt] at hth
    rw [h.waits] at hrest
    split at hth
    · cases hth
    · exact ⟨th, hth, hrest⟩
  · have hcalm : Calm s (s.setProcess p { pro with threads := .empty }) :=
      calm_setProcess hp rfl rfl
    refine hcalm.zombie x q ?_
    unfold Zombie at hx ⊢
    rwa [h.processAt] at hx

theorem exec_spec (h : Inv s) (ht : s.threadAt t = none) :
    Ensures (s.exec t) NoStray (Done (.exec t) s) := by
  unfold exec
  refine enterSys_spec.bind fun old hc => ?_
  obtain ⟨th, pro, hth, hpro, hmem, hterm⟩ := h.running hc
  set p := th.process with hp
  have hquit := h.sane.quit
  set s₁ : Tasks := { s.quit with fifo := s.fifo ++ [th.tid] } with hs₁def
  have hs₁ : Sane s.Listed s₁ :=
    ⟨hquit.crew, hquit.family, hquit.watch, hquit.unused, hquit.current⟩
  have hpro₁ : s₁.processAt p = some pro := hpro
  simp only [thread_eq hth, stopCurent_eq hc hth, ok_bind, ← hp, ← hs₁def]
  refine (clear_spec hs₁ hpro₁ fun u hu => ⟨_, pro, hpro, hu⟩).bind fun s₂ ⟨hs₂, hclear⟩ => ?_
  have hpro₂ : s₂.processAt p = some { pro with threads := .empty } := by
    rw [hclear.processAt, put_self]
  have hmap : s₂.processes pro.pid = some p :=
    (hs₂.family.mapped pro.pid p).mpr ⟨_, kinAt_eq hpro₂, rfl⟩
  have ht₂ : s₂.threadAt t = none := by
    rw [hclear.threadAt]
    exact ite_eq_left_iff.mpr fun _ => ht
  have htid : s₂.threads pro.pid = none := by
    cases hu : s₂.threads pro.pid with
    | none => rfl
    | some u =>
      obtain ⟨thu, hthu, hpid⟩ := (hs₂.crew.mapped pro.pid u).mp hu
      have hown := hs₂.crew.main u thu p _ hthu (kinAt_eq hpro₂) hpid
      obtain ⟨⟨prou, hprou, hlist⟩, hno⟩ := (hs₂.crew.owner u thu hthu).1
      rw [hown] at hprou
      obtain rfl : prou = pro := Option.some.inj (hprou.symm.trans hpro)
      exact absurd hlist hno
  have hid : pro.pid ≠ 0 ∧ pro.pid < 0x1000 * 8 :=
    hs₂.unused.bounds fun hnone => by simp [hmap] at hnone
  have hbit : s₂.tids.bit pro.pid = false := by
    rw [← Bool.not_eq_true, hs₂.unused.free _ hid.1 hid.2, hmap]
    simp
  have hmain : ∀ q k, s₂.kinAt q = some k → pro.pid = k.pid → p = q := by
    intro q k hk hpid
    have := (hs₂.family.mapped pro.pid q).mpr ⟨k, hk, hpid.symm⟩
    exact Option.some.inj (hmap.symm.trans this)
  simp only [process_eq hpro₂, ok_bind]
  refine (newThread_spec hs₂ ht₂ hpro₂ htid hid rfl hbit (fun _ _ => rfl) hmain).mono (fun _ => id)
    fun s' ⟨hs', hadd⟩ => ?_
  have hproc : s'.processAt = put s.processAt p
      (some { pro with threads := OrderedSet.empty.insert t }) := by
    rw [hadd.processAt, hclear.processAt, put_put]
    rfl
  have hcalm := (hclear.calm hpro₁).trans hadd.calm
  refine ⟨hs'.inv (fun x u => ?_) (h.quiet_put hproc fun hterm' => ?_),
    .calm rfl ⟨hcalm.asleep, hcalm.zombie⟩, fun x hx => .inl (exists_of_put hpro hproc x hx),
    fun hunqueued hqueued => ?_⟩
  · have hcleared : _ ↔ Listed (s.setProcess p { pro with threads := .empty }) x u :=
      h.listed_cleared hpro rfl OrderedSet.notMem_empty x u
    refine (or_congr_left hcleared).trans ?_
    unfold Listed
    rw [hproc, setProcess_processAt]
    by_cases hx : x = p
    · simp [hx, OrderedSet.notMem_empty]
    · simp [hx, put_of_ne _ _ hx]
  · exact absurd (hterm'.symm.trans hterm) (by simp)
  · obtain ⟨hne, hnot⟩ := hunqueued old th pro hc hth hpro
    refine ((hqueued.stop h.sane.crew hc hth).still hclear.still).add hadd ?_ ?_
    · rw [hclear.still.fifo, hs₁def, List.mem_append, List.mem_singleton]
      exact not_or.mpr ⟨hnot, Ne.symm hne⟩
    · rw [hclear.still.current]
      exact fun hcur => nomatch hcur

theorem clone_spec (h : Inv s) (ht : s.threadAt t = none) :
    Ensures (s.clone t) NoStray (Done (.clone t) s) := by
  unfold clone
  refine enterSys_spec.bind fun old hc => ?_
  obtain ⟨th, pro, hth, hpro, hmem, hterm⟩ := h.running hc
  set p := th.process with hp
  simp only [thread_eq hth, ok_bind]
  refine (getFreshTid_spec h.sane.unused).bind fun r ⟨b, hr, hid, ⟨hbsf, hfree⟩, hb⟩ => ?_
  obtain ⟨newTid, s₁⟩ := r
  simp only at hr hid hbsf hfree hb
  subst hr
  obtain ⟨htid, hpid, hgroup⟩ := (h.sane.unused.free newTid hid.1 hid.2).mp hfree
  have hmain : ∀ q k, s.kinAt q = some k → newTid = k.pid → p = q := by
    intro q k hk heq
    have := (h.sane.family.mapped newTid q).mpr ⟨k, hk, heq.symm⟩
    rw [hpid] at this
    cases this
  refine (newThread_spec h.sane ht hpro htid hid hb.size (hb.inside newTid rfl) hb.outside
    hmain).mono (fun _ => id) fun s' ⟨hs', hadd⟩ => ?_
  refine ⟨hs'.inv (fun x u => ?_) (h.quiet_put hadd.processAt fun hterm' => ?_),
    .calm rfl ⟨hadd.calm.asleep, hadd.calm.zombie⟩,
    fun x hx => .inl (exists_of_put hpro hadd.processAt x hx), fun hunqueued hqueued =>
      Queued.add hqueued hadd (hunqueued newTid hbsf) fun hcur => h.sane.current t hcur ht⟩
  · unfold Listed
    rw [hadd.processAt]
    by_cases hx : x = p
    · simp [hx, hpro, or_comm]
    · simp [hx, put_of_ne _ _ hx]
  · exact absurd (hterm'.symm.trans hterm) (by simp)

theorem fork_spec (h : Inv s) (hp : s.processAt p = none) (ht : s.threadAt t = none) :
    Ensures (s.fork p t) NoStray (Done (.fork p t) s) := by
  unfold fork
  refine enterSys_spec.bind fun old hc => ?_
  obtain ⟨th, pro, hth, hpro, hmem, hterm⟩ := h.running hc
  set q := th.process with hq
  simp only [thread_eq hth, ok_bind]
  refine (getFreshTid_spec h.sane.unused).bind fun r ⟨b, hr, hid, ⟨hbsf, hfree⟩, hb⟩ => ?_
  obtain ⟨newTid, s₁⟩ := r
  simp only at hr hid hbsf hfree hb
  subst hr
  obtain ⟨htid, hpid, hgroup⟩ := (h.sane.unused.free newTid hid.1 hid.2).mp hfree
  have hne : q ≠ p := by
    intro heq
    rw [heq, hp] at hpro
    cases hpro
  have hgid : pro.gid = 1 := h.sane.family.gid q _ (kinAt_eq hpro)
  obtain ⟨pros, hg, -⟩ := h.sane.family.members
  have hg' : s.groups pro.gid = some pros := by rw [hgid, hg]
  simp only [newProcess, newThread, addP, addT, addThread, addChild, getG, process, setProcess,
    put_self, put_put, put_of_ne _ _ hne, hpro, ← hq, hg', ok_bind, pure, Except.pure, Ensures.ok]
  set new : Process :=
    ⟨newTid, pro.gid, OrderedSet.empty.insert t, some q, .empty, false, false, 0⟩ with hnew
  set F := put (put s.processAt p (some new)) q (some { pro with sons := pro.sons.insert p }) with hF
  have hFp : F p = some new := by rw [hF, put_of_ne _ _ hne.symm, put_self]
  have hFq : F q = some { pro with sons := pro.sons.insert p } := put_self _ _ _
  have hFx : ∀ x, x ≠ p → x ≠ q → F x = s.processAt x := by
    intro x hxp hxq
    rw [hF, put_of_ne _ _ hxq, put_of_ne _ _ hxp]
  have hkin : (fun x => (F x).map Process.kin) =
      put (put s.kinAt p (some ⟨newTid, pro.gid, some q, .empty⟩)) q (some { pro.kin with sons := pro.kin.sons.insert p }) := by
    funext x
    by_cases hxq : x = q
    · subst hxq
      rw [hFq, put_self]
      rfl
    · rw [put_of_ne _ _ hxq]
      by_cases hxp : x = p
      · subst hxp
        rw [hFp, put_self]
        rfl
      · rw [hFx x hxp hxq, put_of_ne _ _ hxp]
        rfl
  have hkp : s.kinAt p = none := by simp [kinAt, hp]
  have hfamily : Family (fun x => (F x).map Process.kin) (put s.processes newTid (some p))
      (put s.groups pro.gid (some (pros.insert p))) := by
    rw [hkin, hgid]
    exact h.sane.family.grow hkp hpid (kinAt_eq hpro) hg
  have hcrew : Crew s.Listed s.threadAt s.threads fun x => (F x).map Process.kin := by
    refine h.sane.crew.rekin (fun x u _ hx => ?_) fun x k hk => ?_
    · obtain ⟨prox, hprox⟩ := kinAt_ne_none.mp hx
      by_cases hxq : x = q
      · simp [hxq, hFq]
      · have hxp : x ≠ p := by
          rintro rfl
          rw [hp] at hprox
          cases hprox
        simp [hFx x hxp hxq, hprox]
    · by_cases hxp : x = p
      · subst hxp
        rw [hFp] at hk
        simp only [Option.map_some, Option.some.injEq] at hk
        subst hk
        exact .inr htid
      · by_cases hxq : x = q
        · subst hxq
          rw [hFq] at hk
          simp only [Option.map_some, Option.some.injEq] at hk
          subst hk
          exact .inl ⟨_, kinAt_eq hpro, rfl⟩
        · rw [hFx x hxp hxq] at hk
          exact .inl ⟨k, hk, rfl⟩
  have hmain : ∀ x k, (F x).map Process.kin = some k → newTid = k.pid → p = x := by
    intro x k hk heq
    have := (hfamily.mapped newTid x).mpr ⟨k, hk, heq.symm⟩
    rw [put_self] at this
    exact Option.some.inj this
  have howner : ∀ u thu, s.threadAt u = some thu → thu.process ≠ p := by
    rintro u thu hu rfl
    obtain ⟨-, prou, hprou⟩ := h.sane.owner hu
    rw [hp] at hprou
    cases hprou
  refine ⟨⟨Sane.mono (M := fun x u => s.Listed x u ∨ x = p ∧ u = t) ⟨?_, ?_, ?_, ?_,
    fun c hcur => ?_⟩ fun x u => ?_, fun x prox hx htermx => ?_⟩, .calm rfl ⟨fun x y hx => ?_,
    fun x y hx => ?_⟩, fun x hx => ?_, fun hunqueued hqueued => ?_⟩
  · exact hcrew.add ht htid (by simp [hFp]) hmain
  · exact hfamily
  · exact (h.sane.watch.fresh howner).add ht
  · refine h.sane.unused.update hid hb.size hb.outside (fun k hk => ?_) ?_
    · have hgroups : put s.groups pro.gid (some (pros.insert p)) k = none ↔ s.groups k = none := by
        by_cases hkg : k = pro.gid
        · rw [hkg, put_self, hg']
          simp
        · rw [put_of_ne _ _ hkg]
      simp only [put_of_ne _ _ hk, hgroups]
    · simp [hb.inside newTid rfl]
  · have hct : c ≠ t := by
      rintro rfl
      exact h.sane.current c hcur ht
    exact fun hnone => h.sane.current c hcur ((put_of_ne _ _ hct).symm.trans hnone)
  · unfold Listed
    by_cases hxp : x = p
    · subst hxp
      simp [hFp, hp, hnew, OrderedSet.notMem_empty]
    · by_cases hxq : x = q
      · subst hxq
        simp [hFq, hpro, hxp]
      · simp [hFx x hxp hxq, hxp]
  · change F x = some prox at hx
    by_cases hxp : x = p
    · subst hxp
      rw [hFp, Option.some.injEq] at hx
      subst hx
      cases htermx
    · by_cases hxq : x = q
      · subst hxq
        rw [hFq, Option.some.injEq] at hx
        subst hx
        exact absurd (htermx.symm.trans hterm) (by simp)
      · exact h.quiet x prox ((hFx x hxp hxq).symm.trans hx) htermx
  · exact hx.of_new rfl rfl rfl
  · obtain ⟨prox, hprox, hparx, htermx⟩ := hx
    change F x = some prox at hprox
    by_cases hxp : x = p
    · subst hxp
      rw [hFp, Option.some.injEq] at hprox
      subst hprox
      cases htermx
    · by_cases hxq : x = q
      · subst hxq
        rw [hFq, Option.some.injEq] at hprox
        subst hprox
        exact ⟨pro, hpro, hparx, htermx⟩
      · exact ⟨prox, (hFx x hxp hxq).symm.trans hprox, hparx, htermx⟩
  · by_cases hxp : x = p
    · exact .inr (congrArg some hxp.symm)
    · by_cases hxq : x = q
      · exact .inl (by simp [hxq, hpro])
      · exact .inl ((hFx x hxp hxq).symm ▸ hx)
  · intro k u hu
    change put s.threads newTid (some t) k = some u at hu
    simp only [List.count_append, List.count_singleton, beq_iff_eq]
    by_cases hk : k = newTid
    · subst hk
      rw [put_self, Option.some.injEq] at hu
      subst hu
      rw [List.count_eq_zero.mpr (hunqueued k hbsf), if_pos rfl,
        if_neg (fun hcur => h.sane.current t hcur ht)]
    · rw [put_of_ne _ _ hk] at hu
      rw [if_neg (Ne.symm hk)]
      exact hqueued k u hu

theorem findTerminated_spec {l : List Nat} (hl : ∀ q ∈ l, s.processAt q ≠ none) :
    Ensures (s.findTerminated l) NoStray fun r =>
      match r with
      | some q => q ∈ l ∧ ∃ pro, s.processAt q = some pro ∧ pro.terminated = true
      | none => ∀ q ∈ l, ∀ pro, s.processAt q = some pro → pro.terminated = false := by
  induction l with
  | nil => exact fun q hq => absurd hq List.not_mem_nil
  | cons q l ih =>
    obtain ⟨pro, hpro⟩ := Option.ne_none_iff_exists'.mp (hl q List.mem_cons_self)
    unfold findTerminated
    simp only [process_eq hpro, ok_bind]
    cases hterm : pro.terminated with
    | true => exact ⟨List.mem_cons_self, pro, hpro, hterm⟩
    | false =>
      refine (ih fun x hx => hl x (List.mem_cons_of_mem q hx)).mono (fun _ => id) fun r hr => ?_
      cases r with
      | some x => exact ⟨List.mem_cons_of_mem q hr.1, hr.2⟩
      | none =>
        intro x hx prox hprox
        rcases List.mem_cons.mp hx with rfl | hx
        · exact Option.some.inj (hpro.symm.trans hprox) ▸ hterm
        · exact hr x hx prox hprox

/-- What `nbwaitp` finds: a zombie of the process, or none when any child would do. -/
def Found (s : Tasks) (p : Nat) (c : Checker) : WaitResult ⊕ Nat → Prop
  | .inl res => res = .EBLOCK → c = .any → ∀ x, ¬Zombie s x p
  | .inr q => Zombie s q p

theorem awaited_spec (h : Core M s) (hp : s.processAt p = some pro) (c : Checker) :
    Ensures (s.awaited p c) NoStray (Found s p c) := by
  have hson : ∀ q, q ∈ pro.sons → ∃ son, s.processAt q = some son ∧ son.parent = some p := by
    intro q hq
    obtain ⟨k, hk, hpar⟩ := (h.family.sons p _ (kinAt_eq hp) q).mp hq
    obtain ⟨son, hson, rfl⟩ := kinAt_eq_some.mp hk
    exact ⟨son, hson, hpar⟩
  unfold awaited
  simp only [process_eq hp, ok_bind]
  cases c with
  | any =>
    by_cases hempty : pro.sons.isEmpty
    · simp only [hempty, if_true]
      exact fun hres => nomatch hres
    · simp only [hempty]
      refine (findTerminated_spec fun q hq => ?_).bind fun r hr => ?_
      · obtain ⟨son, hson, -⟩ := hson q hq
        simp [hson]
      · cases r with
        | some q =>
          obtain ⟨hmem, pro', hpro', hterm⟩ := hr
          obtain ⟨son, hson', hpar⟩ := hson q hmem
          obtain rfl : son = pro' := Option.some.inj (hson'.symm.trans hpro')
          exact ⟨son, hson', hpar, hterm⟩
        | none =>
          rintro - - x ⟨son, hson', hpar, hterm⟩
          have hmem := (h.family.sons p _ (kinAt_eq hp) x).mpr ⟨son.kin, kinAt_eq hson', hpar⟩
          exact absurd (hterm.symm.trans (hr x hmem son hson')) (by simp)
  | child q =>
    by_cases hmem : q ∈ pro.sons
    · obtain ⟨son, hson', hpar⟩ := hson q hmem
      simp only [hmem, not_true, if_false, process_eq hson', ok_bind]
      cases hterm : son.terminated with
      | true => exact ⟨son, hson', hpar, hterm⟩
      | false => exact fun _ hc => nomatch hc
    · simp only [hmem, not_false_eq_true, if_true]
      exact fun hres => nomatch hres

/-- What `nbwaitp` returns, and does. -/
structure Waited (p : Nat) (c : Checker) (s : Tasks) (r : WaitResult × Tasks) : Prop where
  stays : s.reaped p c = none → r.2 = s ∧ (r.1 = .EBLOCK → c = .any → ∀ x, ¬Zombie s x p)
  reaps : ∀ q, s.reaped p c = some q → r.1 ≠ .EBLOCK ∧ Zombie s q p ∧
    ∃ i, s.processes 1 = some i ∧ Reaped i q s r.2

theorem nbwaitp_spec (h : Core s.Listed s) (hp : s.processAt p = some pro)
    (hquiet : ∀ p pro, s.processAt p = some pro → pro.terminated = true → ∀ t, t ∉ pro.threads)
    (c : Checker) : Ensures (s.nbwaitp p c) NoStray fun r =>
      Core s.Listed r.2 ∧ Waited p c s r := by
  have hspec := awaited_spec h hp c
  unfold nbwaitp
  cases haw : s.awaited p c with
  | error e =>
    rw [haw] at hspec
    exact hspec
  | ok r =>
    rw [haw] at hspec
    rw [ok_bind]
    cases r with
    | inl res =>
      refine ⟨h, fun _ => ⟨rfl, hspec⟩, fun q hq => ?_⟩
      simp [reaped, haw] at hq
    | inr q =>
      obtain ⟨son, hson, hpar, hterm⟩ := hspec
      have hno : ∀ t, ¬s.Listed q t := by
        rintro t ⟨son', hson', hmem⟩
        exact hquiet q son' hson' (Option.some.inj (hson.symm.trans hson') ▸ hterm) t hmem
      simp only [process_eq hson, ok_bind]
      refine (deleteProcess_spec h hson hpar hno).bind fun s' ⟨i, hi, hs', hreap⟩ => ?_
      refine ⟨hs', fun hnone => ?_, fun q' hq' => ?_⟩
      · simp [reaped, haw] at hnone
      · obtain rfl : q = q' := by simpa [reaped, haw] using hq'
        exact ⟨by simp, ⟨son, hson, hpar, hterm⟩, i, hi, hreap⟩

theorem Reaped.listed {i : Nat} (h : Reaped i q s s') (hno : ∀ t, ¬s.Listed q t) (x u : Nat) :
    s.Listed x u ↔ s'.Listed x u := by
  constructor
  · rintro ⟨pro, hpro, hmem⟩
    have hxq : x ≠ q := by
      rintro rfl
      exact hno u ⟨pro, hpro, hmem⟩
    obtain ⟨pro', hpro'⟩ := Option.ne_none_iff_exists'.mp (h.stays x hxq (by simp [hpro]))
    obtain ⟨pro₀, hpro₀, hthreads, -⟩ := h.old x pro' hpro'
    obtain rfl : pro = pro₀ := Option.some.inj (hpro.symm.trans hpro₀)
    exact ⟨pro', hpro', hthreads ▸ hmem⟩
  · rintro ⟨pro', hpro', hmem⟩
    obtain ⟨pro₀, hpro₀, hthreads, -⟩ := h.old x pro' hpro'
    exact ⟨pro₀, hpro₀, hthreads ▸ hmem⟩

theorem Reaped.quiet {i : Nat} (h : Reaped i q s s')
    (hquiet : ∀ p pro, s.processAt p = some pro → pro.terminated = true → ∀ t, t ∉ pro.threads)
    (x : Nat) (pro' : Process) (hx : s'.processAt x = some pro') (hterm : pro'.terminated = true)
    (u : Nat) : u ∉ pro'.threads := by
  obtain ⟨pro₀, hpro₀, hthreads, hterm₀, -⟩ := h.old x pro' hx
  rw [hthreads]
  exact hquiet x pro₀ hpro₀ (hterm₀ ▸ hterm) u

theorem Reaped.zombie {i x : Nat} (h : Reaped i q s s') (hz : Zombie s' x p) :
    Zombie s x p ∨ i = p ∧ Zombie s x q := by
  obtain ⟨pro', hpro', hpar, hterm⟩ := hz
  obtain ⟨pro₀, hpro₀, -, hterm₀, hpar₀⟩ := h.old x pro' hpro'
  rw [hterm₀] at hterm
  rw [hpar₀] at hpar
  split at hpar
  · rename_i hq
    exact .inr ⟨Option.some.inj hpar, pro₀, hpro₀, hq, hterm⟩
  · exact .inl ⟨pro₀, hpro₀, hpar, hterm⟩

theorem Reaped.lived {i : Nat} (h : Reaped i q s s') (x : Nat) (hx : s'.processAt x ≠ none) :
    s.processAt x ≠ none := by
  obtain ⟨pro', hpro'⟩ := Option.ne_none_iff_exists'.mp hx
  obtain ⟨pro₀, hpro₀, -⟩ := h.old x pro' hpro'
  simp [hpro₀]

theorem Zombie.not_listed (hz : Zombie s q p)
    (hquiet : ∀ p pro, s.processAt p = some pro → pro.terminated = true → ∀ t, t ∉ pro.threads)
    (t : Nat) : ¬s.Listed q t := by
  obtain ⟨pro, hpro, -, hterm⟩ := hz
  rintro ⟨pro', hpro', hmem⟩
  exact hquiet q pro' hpro' (Option.some.inj (hpro.symm.trans hpro') ▸ hterm) t hmem

theorem Sane.check (h : Sane M s) (ht : s.threadAt t = some th) {c : Option Checker}
    {waits' : Waits Nat Nat} (hw : Watch (put s.threadAt t (some { th with checker := c })) waits') :
    Sane M { s with
      threadAt := put s.threadAt t (some { th with checker := c }), waits := waits' } := by
  refine ⟨h.crew.check ht c, h.family, hw, h.unused, fun u hu hnone => ?_⟩
  by_cases hut : u = t
  · subst hut
    simp at hnone
  · exact h.current u hu ((put_of_ne _ _ hut).symm.trans hnone)

theorem ensures_wait {waits : Waits Nat Nat} {S : Finset Nat} :
    Ensures (waits.wait t S) NoStray fun waits' => waits.wait t S = .ok waits' := by
  cases h : waits.wait t S with
  | ok waits' => rfl
  | error e =>
    unfold Waits.wait at h
    cases hidle : waits.isIdle t with
    | true =>
      rw [hidle, assert_true, ok_bind] at h
      cases h
    | false =>
      rw [hidle, assert_false, error_bind, Except.error.injEq] at h
      subst h
      exact ⟨by simp, by simp⟩

theorem waitp_spec (h : Inv s) (hcur : s.current = some t) (hth : s.threadAt t = some th)
    (hp : s.processAt th.process = some pro) (c : Checker) :
    Ensures (s.waitp t c) NoStray fun r => Inv r.2 ∧ Effect (s.reaped th.process c) s r.2 ∧
      (∀ x, r.2.processAt x ≠ none → s.processAt x ≠ none) ∧ (Queued s → Queued r.2) := by
  unfold waitp
  simp only [thread_eq hth, ok_bind]
  refine (nbwaitp_spec h.sane.core hp h.quiet c).bind fun r ⟨hcore, hwaited⟩ => ?_
  obtain ⟨res, s₁⟩ := r
  cases hq : s.reaped th.process c with
  | some q =>
    obtain ⟨hres, hz, i, hi, hreap⟩ := hwaited.reaps q hq
    simp only at hres hreap hcore
    rw [if_neg hres]
    have hw : Watch s₁.threadAt s₁.waits := by
      rw [hreap.threadAt, hreap.waits]
      exact h.sane.watch
    refine ⟨(hcore.sane hw).inv (hreap.listed (hz.not_listed h.quiet)) (hreap.quiet h.quiet),
      .reaps rfl ⟨fun u x hu => ?_, fun x y hx => ?_, ?_, hreap.gone⟩, hreap.lived,
      fun hq => hq.still hreap.still⟩
    · unfold Asleep at hu
      rwa [hreap.threadAt, hreap.waits] at hu
    · refine (hreap.zombie hx).imp_right fun hy => ⟨?_, hy.2⟩
      rw [hi, hy.1]
    · obtain ⟨proq, hproq, -⟩ := hz
      simp [hproq]
  | none =>
    obtain ⟨hsame, hno⟩ := hwaited.stays hq
    simp only at hsame hno
    subst hsame
    by_cases hres : res = .EBLOCK
    · rw [if_pos hres]
      refine ensures_wait.bind fun waits' hw => ?_
      set s₂ : Tasks := { s₁ with
        threadAt := put s₁.threadAt t (some { th with checker := some c }), waits := waits' } with hs₂
      have hsane : Sane s₁.Listed s₂ := h.sane.check hth (h.sane.watch.wait hth (c := c) hw)
      have hth₂ : s₂.threadAt t = some { th with checker := some c } := put_self _ _ _
      have hquit := hsane.quit
      simp only [stopCurent_eq (show s₂.current = some t from hcur) hth₂, ok_bind]
      refine ⟨⟨⟨hquit.crew, hquit.family, hquit.watch, hquit.unused, hquit.current⟩, h.quiet⟩, ?_,
        fun _ hx => hx, fun hqueued => by
          have hqueued₂ : Queued s₂ := hqueued
          have hstop := hqueued₂.stop hsane.crew hcur hth₂
          exact hstop⟩
      obtain ⟨-, -, hwaits⟩ := Protocol.wait_eq_ok hw
      have hother : ∀ u x, u ≠ t → Asleep s₂ u x → Asleep s₁ u x := by
        rintro u x hut ⟨thu, hthu, hrest⟩
        refine ⟨thu, (put_of_ne _ _ hut).symm.trans hthu, ?_⟩
        simpa [hs₂, hwaits, Waits.register, hut] using hrest
      by_cases hc : c = .any
      · refine .sleeps (p := th.process) rfl ⟨fun u x hu => ?_, fun _ _ => id, hno hres hc⟩
        by_cases hut : u = t
        · subst hut
          obtain ⟨thu, hthu, hproc, -⟩ := hu
          obtain rfl := Option.some.inj (hth₂.symm.trans hthu)
          exact .inr hproc.symm
        · exact .inl (hother u x hut hu)
      · refine .calm rfl ⟨fun u x hu => ?_, fun _ _ => id⟩
        by_cases hut : u = t
        · subst hut
          obtain ⟨thu, hthu, -, hchecker, -⟩ := hu
          obtain rfl := Option.some.inj (hth₂.symm.trans hthu)
          exact absurd (Option.some.inj hchecker) hc
        · exact hother u x hut hu
    · rw [if_neg hres]
      exact ⟨h, .calm rfl (.refl s₁), fun _ => id, id⟩

theorem syswait_spec (h : Inv s) :
    Ensures (s.apply (.wait pid)) NoStray (Done (.wait pid) s) := by
  unfold apply syswait
  refine Ensures.bind (Q := fun r => Inv r.2 ∧ Effect (s.reaps (.wait pid)) s r.2 ∧
    (∀ x, r.2.processAt x ≠ none → s.processAt x ≠ none) ∧ (Queued s → Queued r.2)) ?_
    fun r ⟨hinv, heff, hborn, hqueued⟩ =>
      ⟨hinv, heff, fun x hx => .inl (hborn x hx), fun _ => hqueued⟩
  refine enterSys_spec.bind fun t hc => ?_
  obtain ⟨th, pro, hth, hpro, -⟩ := h.running hc
  by_cases hpid : pid = 0
  · rw [if_pos hpid]
    simp only [Tasks.reaps, hc, hth, if_pos hpid, Option.bind_eq_bind, Option.bind_some]
    exact waitp_spec h hc hth hpro .any
  · rw [if_neg hpid]
    simp only [Tasks.reaps, hc, hth, if_neg hpid, Option.bind_eq_bind, Option.bind_some]
    unfold getP
    cases s.processes pid with
    | none => exact ⟨by simp, by simp⟩
    | some p => exact waitp_spec h hc hth hpro (.child p)

theorem findTerminated_congr (h : s'.processAt = s.processAt) (l : List Nat) :
    s'.findTerminated l = s.findTerminated l := by
  induction l with
  | nil => rfl
  | cons q l ih => simp only [findTerminated, process, h, ih]

theorem awaited_congr (h : s'.processAt = s.processAt) (p : Nat) (c : Checker) :
    s'.awaited p c = s.awaited p c := by
  cases c <;> simp only [awaited, process, h, findTerminated_congr h]

theorem reaped_congr (h : s'.processAt = s.processAt) (p : Nat) (c : Checker) :
    s'.reaped p c = s.reaped p c := by
  simp only [reaped, awaited_congr h]

theorem OK_spec (h : Inv s) (hth : s.threadAt t = some th) :
    Ensures (s.OK t) NoStray fun r => Inv r.2 ∧ r.2.threadAt = s.threadAt ∧
      Still s r.2 ∧ (∀ x, r.2.processAt x ≠ none → s.processAt x ≠ none) ∧
      Effect (do let _ ← s.waits.waited t; s.reaped th.process (← th.checker)) s r.2 := by
  unfold OK
  cases hw : s.waits.waited t with
  | none => exact ⟨h, rfl, .refl s, fun _ => id, .calm rfl (.refl s)⟩
  | some w =>
    have hwaited : s.waits.waited t ≠ none := by simp [hw]
    have hne : s.waits.waiting t ≠ ∅ := Finset.ne_empty_of_mem (h.sane.watch.inv.waited t w hw).2
    obtain ⟨th', c, hth', -, hc⟩ := h.sane.watch.own t hne
    obtain rfl : th' = th := Option.some.inj (hth'.symm.trans hth)
    obtain ⟨-, pro, hpro⟩ := h.sane.owner hth
    have hth₁ : thread { s with waits := s.waits.clearWaited t } t = .ok th' := thread_eq hth
    simp only [hth₁, hc, ok_bind, Option.bind_eq_bind, Option.bind_some]
    set s₁ : Tasks := { s with waits := s.waits.clearWaited t } with hs₁
    have hcore : Core s₁.Listed s₁ := ⟨h.sane.crew, h.sane.family, h.sane.unused, h.sane.current⟩
    refine (nbwaitp_spec hcore hpro h.quiet c).bind fun r ⟨hcore', hspec⟩ => ?_
    obtain ⟨res, s₂⟩ := r
    have hreaped : s₁.reaped th'.process c = s.reaped th'.process c :=
      reaped_congr (show s₁.processAt = s.processAt from rfl) _ _
    have hotherwise : ∀ {u : Nat} {waits : Waits Nat Nat}, u ≠ t → s₂.threadAt = s.threadAt →
        (waits = (s.waits.clearWaited t).refuse t ∨ waits = (s.waits.clearWaited t).accept t) →
        ∀ {x}, Asleep { s₂ with waits := waits } u x → Asleep s u x := by
      rintro u waits hut hthreads hwaits x ⟨thu, hthu, hrest⟩
      refine ⟨thu, by rwa [hthreads] at hthu, ?_⟩
      rcases hwaits with rfl | rfl
      · simpa [Waits.refuse, Waits.register, Waits.clearWaited, hut] using hrest
      · simpa [Waits.accept, Waits.clearWaited, hut] using hrest
    have hawake : ∀ {x}, ¬Asleep { s₂ with waits := (s.waits.clearWaited t).accept t } t x := by
      rintro x ⟨-, -, -, -, hwaiting, -⟩
      simp [Waits.accept] at hwaiting
    have hasleep : s₂.threadAt = s.threadAt → ∀ u x,
        Asleep { s₂ with waits := (s.waits.clearWaited t).accept t } u x → Asleep s u x := by
      intro hthreads u x hu
      by_cases hut : u = t
      · exact absurd (hut ▸ hu) hawake
      · exact hotherwise hut hthreads (.inr rfl) hu
    cases hq : s₁.reaped th'.process c with
    | some q =>
      obtain ⟨hres, hz, i, hi, hreap⟩ := hspec.reaps q hq
      simp only at hres hreap hcore'
      simp only [if_neg hres, hreap.waits, pure, Except.pure, Ensures.ok]
      have hno := hz.not_listed h.quiet
      refine ⟨⟨⟨?_, hcore'.family, ?_, hcore'.unused, hcore'.current⟩, hreap.quiet h.quiet⟩,
        hreap.threadAt, ⟨hreap.still.threads, hreap.still.fifo, hreap.still.current⟩, hreap.lived,
        ?_⟩
      · have : s₁.Listed = s₂.Listed :=
          funext fun x => funext fun u => propext (hreap.listed hno x u)
        have hcrew := hcore'.crew
        rw [this] at hcrew
        exact hcrew
      · have hw := h.sane.watch.accept hwaited
        rwa [← show s₂.threadAt = s.threadAt from hreap.threadAt] at hw
      · rw [← hreaped, hq]
        refine .reaps rfl ⟨hasleep hreap.threadAt, fun x y hx => ?_, ?_, hreap.gone⟩
        · refine (hreap.zombie hx).imp_right fun hy => ⟨?_, hy.2⟩
          rw [← hy.1]
          exact hi
        · obtain ⟨proq, hproq, -⟩ := hz
          exact fun hnone => absurd (hproq.symm.trans hnone) (by simp)
    | none =>
      obtain ⟨hsame, hno⟩ := hspec.stays hq
      simp only at hsame hno
      subst hsame
      by_cases hres : res = .EBLOCK
      · simp only [if_pos hres, pure, Except.pure, Ensures.ok]
        refine ⟨⟨⟨hcore.crew, hcore.family, h.sane.watch.refuse hth, hcore.unused, hcore.current⟩,
          h.quiet⟩, rfl, ⟨fun _ _ => id, rfl, rfl⟩, fun _ => id, ?_⟩
        rw [← hreaped, hq]
        by_cases hany : c = .any
        · refine .sleeps (p := th'.process) rfl
            ⟨fun u x hu => ?_, fun _ _ => id, hno hres hany⟩
          by_cases hut : u = t
          · subst hut
            obtain ⟨thu, hthu, hproc, -⟩ := hu
            obtain rfl : thu = th' := Option.some.inj (hthu.symm.trans hth)
            exact .inr hproc.symm
          · exact .inl (hotherwise hut rfl (.inl rfl) hu)
        · refine .calm rfl ⟨fun u x hu => ?_, fun _ _ => id⟩
          by_cases hut : u = t
          · subst hut
            obtain ⟨thu, hthu, -, hchecker, -⟩ := hu
            obtain rfl : thu = th' := Option.some.inj (hthu.symm.trans hth)
            exact absurd (Option.some.inj (hc.symm.trans hchecker)) hany
          · exact hotherwise hut rfl (.inl rfl) hu
      · simp only [if_neg hres, pure, Except.pure, Ensures.ok]
        refine ⟨⟨⟨hcore.crew, hcore.family, h.sane.watch.accept hwaited, hcore.unused, hcore.current⟩,
          h.quiet⟩, rfl, ⟨fun _ _ => id, rfl, rfl⟩, fun _ => id, ?_⟩
        rw [← hreaped, hq]
        exact .calm rfl ⟨hasleep rfl, fun _ _ => id⟩

theorem run_spec (h : Inv s) : Ensures (s.apply .run) NoStray (Done .run s) := by
  unfold apply run
  refine ensures_bind_assert fun hcur => ?_
  have hcur := Option.isNone_iff_eq_none.mp hcur
  cases hfifo : s.fifo with
  | nil => exact ⟨by simp, by simp⟩
  | cons nextTid fifo =>
    have hpopped : Inv { s with fifo := fifo } :=
      ⟨⟨h.sane.crew, h.sane.family, h.sane.watch, h.sane.unused, h.sane.current⟩, h.quiet⟩
    cases ht : s.threads nextTid with
    | none =>
      simp only [ht]
      refine ⟨hpopped, .calm (by simp [Tasks.reaps, hfifo, ht]) ⟨fun _ _ => id, fun _ _ => id⟩,
        fun _ => .inl, fun _ hqueued tid u hu => ?_⟩
      have hcount := hqueued tid u hu
      have hne : nextTid ≠ tid := by
        rintro rfl
        exact absurd (ht.symm.trans hu) (by simp)
      rwa [hfifo, List.count_cons_of_ne hne] at hcount
    | some t =>
      obtain ⟨th, hth, -⟩ := (h.sane.crew.mapped nextTid t).mp ht
      simp only [ht]
      refine (OK_spec hpopped hth).bind fun r ⟨hinv, hthreads, hstill, hborn, heff⟩ => ?_
      obtain ⟨ok, s'⟩ := r
      have hreaps : s.reaps .run =
          (do let _ ← s.waits.waited t; s.reaped th.process (← th.checker)) := by
        simp [Tasks.reaps, hfifo, ht, hth]
      have hsame : ({ s with fifo := fifo } : Tasks).processAt = s.processAt := rfl
      have hreaped := reaped_congr hsame
      simp only [hreaped] at heff
      rw [← hreaps] at heff
      simp only at hinv hthreads hstill hborn
      have heff' : ∀ s'', s''.processAt = s'.processAt → s''.threadAt = s'.threadAt →
          s''.waits = s'.waits → Effect (s.reaps .run) s s'' := by
        intro s'' hproc hthread hwaits
        have hasleep : ∀ u x, Asleep s'' u x → Asleep s' u x := by
          intro u x hu
          unfold Asleep at hu ⊢
          rwa [hthread, hwaits] at hu
        have hzombie : ∀ u x, Zombie s'' u x → Zombie s' u x := by
          intro u x hu
          unfold Zombie at hu ⊢
          rwa [hproc] at hu
        cases heff with
        | calm hn he =>
          exact .calm hn ⟨fun u x hu => he.asleep u x (hasleep u x hu),
            fun u x hu => he.zombie u x (hzombie u x hu)⟩
        | ends hn he =>
          exact .ends hn ⟨fun u x hu => he.asleep u x (hasleep u x hu),
            fun u x hu => he.zombie u x (hzombie u x hu)⟩
        | sleeps hn he =>
          exact .sleeps hn ⟨fun u x hu => he.asleep u x (hasleep u x hu),
            fun u x hu => he.zombie u x (hzombie u x hu), he.childless⟩
        | reaps hq he =>
          exact .reaps hq ⟨fun u x hu => he.asleep u x (hasleep u x hu),
            fun u x hu => he.zombie u x (hzombie u x hu), he.lived, hproc ▸ he.gone⟩
      have hcount : Queued s → ∀ tid u, s'.threads tid = some u →
          fifo.count tid = if u = t then 0 else 1 := by
        intro hqueued tid u hu
        have hu := hstill.threads tid u hu
        have hcount := hqueued tid u hu
        rw [hfifo, hcur, if_neg (by simp)] at hcount
        by_cases hut : u = t
        · subst hut
          obtain ⟨thu, hthu, rfl⟩ := (h.sane.crew.mapped tid u).mp hu
          obtain ⟨thn, hthn, hn⟩ := (h.sane.crew.mapped nextTid u).mp ht
          obtain rfl : thu = thn := Option.some.inj (hthu.symm.trans hthn)
          rw [hn, List.count_cons_self] at hcount
          rw [if_pos rfl, hn]
          omega
        · have hne : nextTid ≠ tid := by
            rintro rfl
            exact hut (Option.some.inj (hu.symm.trans ht))
          rwa [if_neg hut, ← List.count_cons_of_ne hne]
      cases ok with
      | false =>
        refine ⟨⟨⟨hinv.sane.crew, hinv.sane.family, hinv.sane.watch, hinv.sane.unused,
          hinv.sane.current⟩, hinv.quiet⟩, heff' _ rfl rfl rfl, fun x hx => .inl (hborn x hx),
          fun _ hqueued tid u hu => ?_⟩
        have hone := hcount hqueued tid u hu
        change (s'.fifo ++ [nextTid]).count tid = if s'.current = some u then 0 else 1
        rw [hstill.fifo, hstill.current, List.count_append, hone]
        simp only [List.count_singleton, beq_iff_eq, hcur]
        by_cases hut : u = t
        · subst hut
          obtain ⟨thu, hthu, rfl⟩ := (h.sane.crew.mapped tid u).mp (hstill.threads tid u hu)
          obtain ⟨thn, hthn, hn⟩ := (h.sane.crew.mapped nextTid u).mp ht
          obtain rfl : thu = thn := Option.some.inj (hthu.symm.trans hthn)
          simp [hn]
        · have hne : nextTid ≠ tid := by
            rintro rfl
            exact hut (Option.some.inj ((hstill.threads _ u hu).symm.trans ht))
          simp [hut, hne]
      | true =>
        refine ⟨⟨⟨hinv.sane.crew, hinv.sane.family, hinv.sane.watch, hinv.sane.unused,
          fun c hc => ?_⟩, hinv.quiet⟩, heff' _ rfl rfl rfl, fun x hx => .inl (hborn x hx),
          fun _ hqueued tid u hu => ?_⟩
        · obtain rfl : t = c := Option.some.inj hc
          exact fun hnone => absurd (hth.symm.trans (hthreads ▸ hnone)) (by simp)
        · have hone := hcount hqueued tid u hu
          change s'.fifo.count tid = if some t = some u then 0 else 1
          rw [hstill.fifo, hone]
          simp [eq_comm]

/-- Every command keeps the invariant, and stops otherwise than at a deleted object. -/
theorem apply_spec (h : Inv s) {c : Command} (hf : s.Fresh c) :
    Ensures (s.apply c) NoStray (Done c s) := by
  cases c with
  | fork p t => exact fork_spec h hf.1 hf.2
  | clone t => exact clone_spec h hf
  | exec t => exact exec_spec h hf
  | exit returnCode => exact exit_spec h
  | texit returnCode => exact texit_spec h
  | wait pid => exact syswait_spec h
  | run => exact run_spec h
  | preempt => exact preempt_spec h

end Tasks

end SupOS
