import SupOS.Pipes.System
import SupOS.Processes.Unawaited

/-! Pipes hand on the bytes that they accept, in their order, and say that they are at their end only
when all of them have been read. -/

namespace SupOS

open Lib

namespace Kernel

variable {k : Kernel} {room : Nat}

theorem call_made (p : Nat) (c : Descriptors.Call) : Ensures (k.call room p c) (fun _ => True)
    fun k' => k'.fds.owners.made = k.fds.owners.made + c.makes := by
  refine (Ensures.trivially (k.fds.table p)).bind fun v _ => ?_
  refine (Ensures.trivially _).bind fun _ _ => ?_
  exact (Descriptors.apply_made ⟨p, room, c⟩).bind fun fds hfds => hfds

theorem settle_made (old : Tasks) (c : Tasks.Command) : Ensures (k.settle room old c)
    (fun _ => True) fun k' => k'.fds.owners.made = k.fds.owners.made := by
  unfold settle
  split
  · refine (Ensures.trivially old.enterSys).bind fun t _ => ?_
    refine (Ensures.trivially (old.thread t)).bind fun th _ => ?_
    exact Descriptors.fork_made.bind fun fds hfds => hfds
  · split
    · rfl
    · exact call_made _ .destroy

theorem task_made (c : Tasks.Command) : Ensures (k.task room c) (fun _ => True)
    fun k' => k'.fds.owners.made = k.fds.owners.made := by
  refine (Ensures.trivially _).bind fun _ _ => ?_
  refine (Ensures.trivially (k.tasks.apply c)).bind fun tasks _ => ?_
  refine (Ensures.trivially _).bind fun _ _ => ?_
  exact settle_made k.tasks c

theorem sysread_made (fd : Nat) (a : Answer) : Ensures (k.sysread fd a) (fun _ => True)
    fun r => r.2.fds.owners.made = k.fds.owners.made := by
  refine (Ensures.trivially k.tasks.enterSys).bind fun t _ => ?_
  refine (Ensures.trivially (k.tasks.thread t)).bind fun th _ => ?_
  refine (Ensures.trivially (k.nbread th.process fd a)).bind fun res _ => ?_
  have hblock : Ensures (k.block t th.process fd) (fun _ => True)
      fun k' => k'.fds.owners.made = k.fds.owners.made := by
    refine (Ensures.trivially (k.fds.table th.process)).bind fun v _ => ?_
    split
    · trivial
    · split
      · trivial
      · refine (Ensures.trivially _).bind fun _ _ => ?_
        refine (Ensures.trivially _).bind fun reads _ => ?_
        exact (Ensures.trivially _).bind fun tasks _ => rfl
  split
  · exact hblock.bind fun _ hr => hr
  · rfl

theorem refuse_made (t : Nat) : Ensures (k.refuse t) (fun _ => True)
    fun k' => k'.fds.owners.made = k.fds.owners.made := by
  unfold refuse
  split
  · rfl
  · trivial

theorem OK_made (t : Nat) (a : Answer) : Ensures (k.OK t a) (fun _ => True)
    fun r => r.2.fds.owners.made = k.fds.owners.made := by
  unfold OK
  split
  · rfl
  · refine (Ensures.trivially _).bind fun th _ => ?_
    split
    · trivial
    · refine (Ensures.trivially _).bind fun res _ => ?_
      split
      · exact (refuse_made t).bind fun _ hr => hr
      · rfl

theorem run_made (a : Answer) : Ensures (k.run room a) (fun _ => True)
    fun k' => k'.fds.owners.made = k.fds.owners.made := by
  refine (Ensures.trivially _).bind fun _ _ => ?_
  split
  · trivial
  · split
    · exact task_made .run
    · split
      · exact task_made .run
      · exact (OK_made _ a).bind fun _ hr => hr

/-- The number of objects that a command makes. -/
def Call.makes : Call → Nat
  | .table c => c.makes
  | _ => 0

theorem apply_made (c : Command) : Ensures (k.apply c) (fun _ => True)
    fun k' => k'.fds.owners.made = k.fds.owners.made + c.call.makes := by
  obtain ⟨room, a, call⟩ := c
  cases call with
  | task c =>
    cases c with
    | run => exact run_made a
    | _ => exact task_made _
  | read fd =>
    have hread := sysread_made (k := k) fd a
    change Ensures ((·.2) <$> k.sysread fd a) _ _
    cases hr : k.sysread fd a with
    | ok r => exact hread.of_ok hr
    | error e => trivial
  | table c =>
    refine (Ensures.trivially k.tasks.enterSys).bind fun t _ => ?_
    refine (Ensures.trivially (k.tasks.thread t)).bind fun th _ => ?_
    exact call_made th.process c
  | free o => exact rfl

end Kernel

namespace PipeEvent

/-- The pipe of an event. -/
def pipe : PipeEvent → Nat
  | .read _ q _ _ | .write q _ | .shut q => q

/-- The bytes that calls of `read` have returned, in their order. -/
def returned (q : Nat) : List PipeEvent → List UInt8
  | [] => []
  | .read _ q' _ bytes :: l => if q' = q then returned q l ++ bytes else returned q l
  | _ :: l => returned q l

/-- The bytes that calls of `write` have accepted, in their order. -/
def accepted (q : Nat) : List PipeEvent → List UInt8
  | [] => []
  | .write q' bytes :: l => if q' = q then accepted q l ++ bytes else accepted q l
  | _ :: l => accepted q l

/-- An end of file comes after all bytes and after the end of the `PipeStreamIn`. -/
def Late : List PipeEvent → Prop
  | [] => True
  | .read _ q count bytes :: l =>
    (0 < count → bytes = [] → returned q l = accepted q l ∧ .shut q ∈ l) ∧ Late l
  | _ :: l => Late l

theorem nothing_of_fresh {q : Nat} {l : List PipeEvent} (h : ∀ e ∈ l, e.pipe ≠ q) :
    returned q l = [] ∧ accepted q l = [] := by
  induction l with
  | nil => exact ⟨rfl, rfl⟩
  | cons e l ih =>
    obtain ⟨hr, ha⟩ := ih fun e' he' => h e' (List.mem_cons_of_mem _ he')
    have he := h e (List.mem_cons_self ..)
    cases e with
    | read t q' count bytes => exact ⟨(if_neg he).trans hr, ha⟩
    | write q' bytes => exact ⟨hr, (if_neg he).trans ha⟩
    | shut q' => exact ⟨hr, ha⟩

theorem Late.split {l : List PipeEvent} (h : Late l) {later earlier : List PipeEvent}
    {t q count : Nat} (hl : l = later ++ .read t q count [] :: earlier) (hcount : 0 < count) :
    returned q earlier = accepted q earlier ∧ .shut q ∈ earlier := by
  induction later generalizing l with
  | nil =>
    subst hl
    exact h.1 hcount rfl
  | cons e later ih =>
    subst hl
    refine ih ?_ rfl
    cases e with
    | read _ _ _ _ => exact h.2
    | write _ _ => exact h
    | shut _ => exact h

end PipeEvent

/-- What is left of a pipe that has lost an end. -/
theorem PipeStream.dropEnd_eq (ps : PipeStream) (side : PipeEnd) (h1 : 1 ≤ ps.nbRef)
    (h2 : ps.nbRef ≤ 2) : (ps.dropEnd side = none ∧ ps.nbRef = 1) ∨ ∃ ps',
      ps.dropEnd side = some ps' ∧ ps.nbRef = ps'.nbRef + 1 ∧ ps'.nbRef = 1 ∧
        ps'.deque = ps.deque ∧ (side = .inp → ps'.out = ps.out) ∧
        (side = .out → ps'.eof = ps.eof) := by
  obtain h | h : ps.nbRef = 1 ∨ ps.nbRef = 2 := by omega
  · refine .inl ⟨?_, h⟩
    cases side <;> simp [dropEnd, decrRef, sendEof, h]
  · refine .inr ?_
    cases side <;> simp [dropEnd, decrRef, sendEof, h]

namespace Pipes

open Tasks (put put_self put_of_ne)
open PipeEvent (returned accepted Late)

variable {s s' : Pipes} {c : Command} {t p q fd count o : Nat} {a : Answer} {ps : PipeStream}

/-- The number of ends of a pipe that exist. -/
def held (ends : Nat → Option (PipeEnd × Nat)) (q : Nat) : Nat :=
  (if ends q = some (.out, q) then 1 else 0) + if ends (q + 1) = some (.inp, q) then 1 else 0

/-- The number of the stream that is this end of a pipe. -/
def place : PipeEnd × Nat → Nat
  | (.out, q) => q
  | (.inp, q) => q + 1

/-- The invariant. -/
structure Inv (s : Pipes) : Prop where
  bound : ∀ o, s.kernel.fds.owners.made ≤ o → s.ends o = none
  place : ∀ o e, s.ends o = some e → o = place e
  nbRef : ∀ q ps, s.pipes q = some ps → ps.nbRef = held s.ends q
  alive : ∀ q, held s.ends q ≠ 0 → s.pipes q ≠ none
  fresh : ∀ e ∈ s.events, e.pipe < s.kernel.fds.owners.made
  fifo : ∀ q ps, s.ends q = some (.out, q) → s.pipes q = some ps →
    ps.out = some q ∧ returned q s.events ++ ps.deque = accepted q s.events
  shut : ∀ q ps, s.pipes q = some ps → ps.eof = true → .shut q ∈ s.events
  late : Late s.events

namespace Inv

theorem kernel (h : s.Inv) {k : Kernel} (hk : s.kernel.fds.owners.made ≤ k.fds.owners.made) :
    Inv { s with kernel := k } where
  __ := h
  bound o ho := h.bound o (hk.trans ho)
  fresh e he := (h.fresh e he).trans_le hk

theorem pipe_lt (h : s.Inv) {side : PipeEnd} (ho : s.ends o = some (side, q)) :
    q < s.kernel.fds.owners.made := by
  have hlt : o < s.kernel.fds.owners.made := by
    by_contra hge
    rw [h.bound o (Nat.not_lt.mp hge)] at ho
    cases ho
  have hplace := h.place o _ ho
  cases side <;> simp only [Pipes.place] at hplace <;> omega

theorem pipe_eq (hq : s.pipe q = .ok ps) : s.pipes q = some ps := by
  unfold Pipes.pipe at hq
  cases hp : s.pipes q with
  | none =>
    rw [hp] at hq
    cases hq
  | some ps' =>
    rw [hp] at hq
    exact congrArg some (Except.ok.inj hq)

/-- A pipe that is read from has its first end. -/
theorem source (h : s.Inv) (hq : s.source p fd a = some q) : s.ends q = some (.out, q) := by
  unfold Pipes.source at hq
  obtain ⟨desc, hdesc, hq⟩ := Option.bind_eq_some_iff.mp hq
  obtain ⟨⟨side, q'⟩, hend, hq⟩ := Option.bind_eq_some_iff.mp hq
  simp only [Bool.and_eq_true, decide_eq_true_eq] at hq
  split at hq
  · rename_i hside
    obtain rfl := Option.some.inj hq
    obtain ⟨-, rfl⟩ := hside
    obtain ⟨desc', hdesc', hend⟩ := Option.bind_eq_some_iff.mp hend
    obtain ⟨o, ho, hend⟩ := Option.bind_eq_some_iff.mp hend
    obtain rfl := h.place o _ hend
    exact hend
  · cases hq

theorem consume (h : s.Inv) {mapped : Nat} : Ensures (s.consume mapped t p fd count a)
    (fun _ => True) fun s' => s'.Inv ∧ s'.kernel = s.kernel := by
  unfold Pipes.consume
  cases hsource : s.source p fd a with
  | none => exact ⟨h, rfl⟩
  | some q =>
    have hend := h.source hsource
    dsimp only
    cases hpipe : s.pipe q with
    | error e => trivial
    | ok ps =>
      have hps := pipe_eq hpipe
      obtain ⟨hout, hfifo⟩ := h.fifo q ps hend hps
      rw [ok_bind]
      by_cases hblocks : (ps.read count).1 = [] ∧ ps.eof = false
      · rw [if_pos hblocks]
        exact ⟨h, rfl⟩
      · rw [if_neg hblocks]
        split
        · trivial
        · refine ⟨⟨h.bound, h.place, fun q' ps' hps' => ?_, fun q' hheld => ?_, fun e he => ?_,
            fun q' ps' hend' hps' => ?_, fun q' ps' hps' heof => ?_, fun hcount hnil => ?_, h.late⟩,
            rfl⟩
          · by_cases hq : q' = q
            · subst hq
              simp only [put_self, Option.some.injEq] at hps'
              subst hps'
              exact h.nbRef _ ps hps
            · simp only [put_of_ne _ _ hq] at hps'
              exact h.nbRef _ _ hps'
          · by_cases hq : q' = q
            · subst hq
              simp
            · simp only [put_of_ne _ _ hq]
              exact h.alive _ hheld
          · rcases List.mem_cons.mp he with rfl | he
            · exact h.pipe_lt hend
            · exact h.fresh e he
          · by_cases hq : q' = q
            · subst hq
              simp only [put_self, Option.some.injEq] at hps'
              subst hps'
              refine ⟨hout, ?_⟩
              simp only [returned, accepted, if_true, PipeStream.read]
              rw [List.append_assoc, List.take_append_drop]
              exact hfifo
            · simp only [put_of_ne _ _ hq] at hps'
              have hne : ¬q = q' := fun heq => hq heq.symm
              simp only [returned, accepted, if_neg hne]
              exact h.fifo q' ps' hend' hps'
          · refine List.mem_cons_of_mem _ ?_
            by_cases hq : q' = q
            · subst hq
              simp only [put_self, Option.some.injEq] at hps'
              subst hps'
              exact h.shut _ ps hps heof
            · simp only [put_of_ne _ _ hq] at hps'
              exact h.shut _ _ hps' heof
          · -- Nothing was left, and the read does not block.
            have hempty : ps.deque = [] := by
              rcases List.take_eq_nil_iff.mp hnil with h0 | h0
              · omega
              · exact h0
            rw [hempty, List.append_nil] at hfifo
            refine ⟨hfifo, h.shut _ ps hps ?_⟩
            by_contra heof
            exact hblocks ⟨hnil, Bool.eq_false_iff.mpr heof⟩

theorem accept (h : s.Inv) {e : PipeEnd} (ho : s.ends o = some (e, q)) {buf : List UInt8} : Ensures (s.accept c q buf) (fun _ => True)
    fun s' => s'.Inv := by
  unfold Pipes.accept
  cases hpipe : s.pipe q with
  | error e => trivial
  | ok ps =>
    have hps := pipe_eq hpipe
    rw [ok_bind]
    simp only [PipeStream.write]
    have hpipes (l : List PipeEvent) (hl : s.events ⊆ l)
        (hfresh : ∀ e ∈ l, e.pipe < s.kernel.fds.owners.made) (hlate : Late l)
        (hothers : ∀ q', q' ≠ q → returned q' l = returned q' s.events ∧
          accepted q' l = accepted q' s.events)
        (hq : s.ends q = some (.out, q) → ps.out = some q ∧
          returned q l ++ (ps.deque ++ buf) = accepted q l) :
        Inv { s with
          pipes := put s.pipes q (some { ps with deque := ps.deque ++ buf }), events := l } := by
      refine ⟨h.bound, h.place, fun q' ps' hps' => ?_, fun q' hheld => ?_, hfresh,
        fun q' ps' hend' hps' => ?_, fun q' ps' hps' heof => hl ?_, hlate⟩
      all_goals by_cases heq : q' = q
      · subst heq
        simp only [put_self, Option.some.injEq] at hps'
        subst hps'
        exact h.nbRef _ ps hps
      · simp only [put_of_ne _ _ heq] at hps'
        exact h.nbRef _ _ hps'
      · subst heq
        simp
      · simp only [put_of_ne _ _ heq]
        exact h.alive _ hheld
      · subst heq
        simp only [put_self, Option.some.injEq] at hps'
        subst hps'
        exact hq hend'
      · simp only [put_of_ne _ _ heq] at hps'
        rw [(hothers q' heq).1, (hothers q' heq).2]
        exact h.fifo q' ps' hend' hps'
      · subst heq
        simp only [put_self, Option.some.injEq] at hps'
        subst hps'
        exact h.shut _ ps hps heof
      · simp only [put_of_ne _ _ heq] at hps'
        exact h.shut _ _ hps' heof
    split
    · trivial
    · split
      · trivial
      · split
        · rename_i hnone
          refine hpipes s.events (fun _ he => he) h.fresh h.late (fun _ _ => ⟨rfl, rfl⟩) fun hend => ?_
          exact absurd ((h.fifo q ps hend hps).1.symm.trans hnone) (Option.some_ne_none q)
        · rename_i o' hout
          refine (Kernel.apply_made _).bind fun k hk => ?_
          refine Inv.kernel (hpipes (.write q buf :: s.events) (List.subset_cons_self _ _)
            (fun e he => ?_) h.late (fun q' hne => ?_) fun hend => ?_) (hk.symm.le.trans' ?_)
          · rcases List.mem_cons.mp he with rfl | he
            · exact h.pipe_lt ho
            · exact h.fresh e he
          · simp only [returned, accepted, if_neg hne.symm, and_self]
          · obtain ⟨hout, hfifo⟩ := h.fifo q ps hend hps
            refine ⟨hout, ?_⟩
            simp only [returned, accepted, if_true]
            rw [← List.append_assoc, hfifo]
          · exact Nat.le_add_right _ _

/-- The end that is destroyed is one of those that its pipe counts. -/
theorem held_put (h : s.Inv) {e : PipeEnd} (ho : s.ends o = some (e, q)) :
    held s.ends q = held (put s.ends o none) q + 1 ∧
      ∀ q', q' ≠ q → held (put s.ends o none) q' = held s.ends q' := by
  have hplace := h.place o _ ho
  cases e with
  | out =>
    obtain rfl : o = q := hplace
    have hne : o + 1 ≠ o := by omega
    refine ⟨?_, fun q' hq' => ?_⟩
    · simp only [held, put_self, put_of_ne _ _ hne, if_pos ho]
      simp [Nat.add_comm]
    · simp only [held, put_of_ne _ _ hq']
      by_cases hq : q' + 1 = o
      · simp [hq, ho]
      · rw [put_of_ne _ _ hq]
  | inp =>
    obtain rfl : o = q + 1 := hplace
    have hne : q ≠ q + 1 := by omega
    refine ⟨?_, fun q' hq' => ?_⟩
    · simp only [held, put_self, put_of_ne _ _ hne, if_pos ho]
      simp
    · have hq : q' + 1 ≠ q + 1 := by omega
      simp only [held, put_of_ne _ _ hq]
      by_cases hq : q' = q + 1
      · simp [hq, ho]
      · rw [put_of_ne _ _ hq]

theorem destroy (h : s.Inv) (o : Nat) : (s.destroy o).Inv := by
  unfold Pipes.destroy
  cases ho : s.ends o with
  | none => exact h
  | some e =>
    obtain ⟨side, q⟩ := e
    dsimp only
    obtain ⟨hheld, hothers⟩ := h.held_put ho
    obtain ⟨ps, hps⟩ := Option.ne_none_iff_exists'.mp (h.alive q (by omega))
    have hnb := h.nbRef q ps hps
    have hle : held s.ends q ≤ 2 := by
      unfold held
      split <;> split <;> omega
    have hevents : s.events ⊆ if side = .inp then .shut q :: s.events else s.events := by
      split
      · exact List.subset_cons_self _ _
      · exact List.Subset.refl _
    have hsame : ∀ q', returned q' (if side = .inp then .shut q :: s.events else s.events) =
          returned q' s.events ∧
        accepted q' (if side = .inp then .shut q :: s.events else s.events) =
          accepted q' s.events := by
      intro q'
      split <;> exact ⟨rfl, rfl⟩
    have hdrop := ps.dropEnd_eq side (by omega) (by omega)
    refine ⟨fun o' ho' => ?_, fun o' e ho' => ?_, fun q' ps' hps' => ?_, fun q' hq' => ?_,
      fun e he => ?_, fun q' ps' hend hps' => ?_, fun q' ps' hps' heof => ?_, ?_⟩
    · by_cases hoo : o' = o
      · subst hoo
        exact put_self _ _ _
      · exact (put_of_ne _ _ hoo).trans (h.bound o' ho')
    · by_cases hoo : o' = o
      · subst hoo
        simp at ho'
      · exact h.place o' e ((put_of_ne _ _ hoo).symm.trans ho')
    · by_cases hq : q' = q
      · subst hq
        simp only [put_self, hps, Option.bind_some] at hps'
        rcases hdrop with ⟨hnone, -⟩ | ⟨ps'', hsome, hnb', -⟩
        · rw [hnone] at hps'
          cases hps'
        · rw [hsome] at hps'
          obtain rfl := Option.some.inj hps'
          change ps''.nbRef = held (put s.ends o none) q'
          omega
      · simp only [put_of_ne _ _ hq] at hps'
        rw [hothers q' hq]
        exact h.nbRef q' ps' hps'
    · change held (put s.ends o none) q' ≠ 0 at hq'
      by_cases hq : q' = q
      · subst hq
        simp only [put_self, hps, Option.bind_some]
        rcases hdrop with ⟨-, hone⟩ | ⟨ps'', hsome, -⟩
        · omega
        · rw [hsome]
          exact Option.some_ne_none _
      · rw [hothers q' hq] at hq'
        simp only [put_of_ne _ _ hq]
        exact h.alive q' hq'
    · dsimp only at he ⊢
      split at he
      · rcases List.mem_cons.mp he with rfl | he
        · exact h.pipe_lt ho
        · exact h.fresh e he
      · exact h.fresh e he
    · dsimp only at hend hps' ⊢
      rw [(hsame q').1, (hsame q').2]
      by_cases hq : q' = q
      · subst hq
        have hplace := h.place o _ ho
        cases side with
        | out =>
          obtain rfl : o = q' := hplace
          simp at hend
        | inp =>
          obtain rfl : o = q' + 1 := hplace
          rw [put_of_ne _ _ (by omega)] at hend
          simp only [put_self, hps, Option.bind_some] at hps'
          rcases hdrop with ⟨hnone, -⟩ | ⟨ps'', hsome, -, -, hdeque, hout, -⟩
          · rw [hnone] at hps'
            cases hps'
          · rw [hsome] at hps'
            obtain rfl := Option.some.inj hps'
            rw [hout rfl, hdeque]
            exact h.fifo q' ps hend hps
      · rw [put_of_ne _ _ hq] at hps'
        have hoo : q' ≠ o := by
          rintro rfl
          simp at hend
        rw [put_of_ne _ _ hoo] at hend
        exact h.fifo q' ps' hend hps'
    · dsimp only at hps' ⊢
      by_cases hq : q' = q
      · subst hq
        cases side with
        | inp => exact List.mem_cons_self ..
        | out =>
          simp only [put_self, hps, Option.bind_some] at hps'
          rcases hdrop with ⟨hnone, -⟩ | ⟨ps'', hsome, -, -, -, -, hkeep⟩
          · rw [hnone] at hps'
            cases hps'
          · rw [hsome] at hps'
            obtain rfl := Option.some.inj hps'
            exact hevents (h.shut q' ps hps ((hkeep rfl).symm.trans heof))
      · rw [put_of_ne _ _ hq] at hps'
        exact hevents (h.shut q' ps' hps' heof)
    · dsimp only
      split
      · exact h.late
      · exact h.late

theorem settle {k : Kernel} (hs : Inv { s with kernel := k }) : (s.settle k).Inv := by
  unfold Pipes.settle
  generalize { s with kernel := k } = s at hs
  generalize k.fds.owners.deleted.reverse = l
  induction l generalizing s with
  | nil => exact hs
  | cons o l ih => exact ih _ (hs.destroy o)

/-- The new pipe has the numbers of the two streams that the kernel makes. -/
theorem addPipe (h : s.Inv) {k : Kernel} (hk : k.fds.owners.made = s.kernel.fds.owners.made + 2) :
    Inv { s.addPipe with kernel := k } := by
  have hmade := h.bound _ (Nat.le_refl _)
  have hnext := h.bound (s.kernel.fds.owners.made + 1) (Nat.le_succ _)
  unfold Pipes.addPipe
  generalize hq : s.kernel.fds.owners.made = q at *
  have hne : q ≠ q + 1 := by omega
  have hends : ∀ o, o ≠ q → o ≠ q + 1 →
      put (put s.ends q (some (.out, q))) (q + 1) (some (.inp, q)) o = s.ends o := fun o h1 h2 =>
    (put_of_ne _ _ h2).trans (put_of_ne _ _ h1)
  have hout : put (put s.ends q (some (.out, q))) (q + 1) (some (.inp, q)) q =
      some (.out, q) := (put_of_ne _ _ hne).trans (put_self _ _ _)
  have hheld : held (put (put s.ends q (some (.out, q))) (q + 1) (some (.inp, q))) q = 2 := by
    unfold held
    rw [hout, put_self]
    simp
  have hothers : ∀ q', q' ≠ q →
      held (put (put s.ends q (some (.out, q))) (q + 1) (some (.inp, q))) q' = held s.ends q' := by
    intro q' hq'
    unfold held
    have h2 : q' + 1 ≠ q + 1 := by omega
    congr 1
    · by_cases h1 : q' = q + 1
      · subst h1
        rw [put_self, hnext]
        simp
      · rw [hends q' hq' h1]
    · by_cases h1 : q' + 1 = q
      · rw [h1, hout, hmade]
        simp
      · rw [hends _ h1 h2]
  refine ⟨fun o ho => ?_, fun o e ho => ?_, fun q' ps hps => ?_, fun q' hq' => ?_, fun e he => ?_,
    fun q' ps hend hps => ?_, fun q' ps hps heof => ?_, h.late⟩
  · dsimp only at ho
    rw [hk] at ho
    exact (hends o (by omega) (by omega)).trans (h.bound o (by omega))
  · by_cases h1 : o = q
    · subst h1
      obtain rfl := Option.some.inj (hout.symm.trans ho)
      rfl
    · by_cases h2 : o = q + 1
      · subst h2
        obtain rfl := Option.some.inj ((put_self _ _ _).symm.trans ho)
        rfl
      · exact h.place o e ((hends o h1 h2).symm.trans ho)
  · by_cases h1 : q' = q
    · subst h1
      obtain rfl := Option.some.inj ((put_self _ _ _).symm.trans hps)
      exact hheld.symm
    · exact (h.nbRef q' ps ((put_of_ne _ _ h1).symm.trans hps)).trans (hothers q' h1).symm
  · by_cases h1 : q' = q
    · subst h1
      exact fun hnone => Option.some_ne_none _ ((put_self _ _ _).symm.trans hnone)
    · exact fun hnone => h.alive q' (fun h0 => hq' ((hothers q' h1).trans h0))
        ((put_of_ne _ _ h1).symm.trans hnone)
  · have := h.fresh e he
    dsimp only
    omega
  · by_cases h1 : q' = q
    · subst h1
      obtain rfl := Option.some.inj ((put_self _ _ _).symm.trans hps)
      obtain ⟨hr, ha⟩ := PipeEvent.nothing_of_fresh (q := q') fun e he heq => by
        have := h.fresh e he
        omega
      refine ⟨rfl, ?_⟩
      change returned q' s.events ++ [] = accepted q' s.events
      rw [hr, ha]
      rfl
    · have h2 : q' ≠ q + 1 := by
        rintro rfl
        have hin := (put_self _ _ _).symm.trans hend
        cases hin
      exact h.fifo q' ps ((hends q' h1 h2).symm.trans hend) ((put_of_ne _ _ h1).symm.trans hps)
  · by_cases h1 : q' = q
    · subst h1
      obtain rfl := Option.some.inj ((put_self _ _ _).symm.trans hps)
      cases heof
    · exact h.shut q' ps ((put_of_ne _ _ h1).symm.trans hps) heof

theorem syswrite (h : s.Inv) {buf : List UInt8} : Ensures (s.syswrite c fd buf) (fun _ => True)
    fun s' => s'.Inv := by
  refine (Ensures.trivially s.kernel.tasks.enterSys).bind fun t _ => ?_
  refine (Ensures.trivially (s.kernel.tasks.thread t)).bind fun th _ => ?_
  split
  · exact h
  · refine (Ensures.trivially (s.kernel.fds.table th.process)).bind fun v _ => ?_
    split
    · exact h
    · split
      · exact h
      · split
        · trivial
        · split
          · trivial
          · split
            · rename_i ho
              split
              · exact h.accept ho
              · exact h
            · exact h

/-- A call of the kernel after a read of a pipe. -/
theorem after {r : Kernel.Command} (hs : Ensures (s.consume c.mapped t p fd count a) (fun _ => True)
    fun s' => s'.Inv ∧ s'.kernel = s.kernel) (hr : r.call.makes = 0) {g : Pipes → Nat → Nat} :
    Ensures (s.consume c.mapped t p fd count a >>= fun s' => s'.kernel.apply r >>= fun kernel =>
      .ok { s' with kernel, counts := g s' }) (fun _ => True) fun s' => s'.Inv := by
  refine hs.bind fun s1 h1 => (Kernel.apply_made r).bind fun k hk => ?_
  exact { h1.1.kernel (k := k) (by omega) with }

/-- Every call keeps the invariant. -/
theorem step (h : s.Inv) : Ensures (s.apply c) (fun _ => True) fun s' => s'.Inv := by
  have hsettle (call : Kernel.Command) (hmakes : call.call.makes = 0) :
      Ensures (s.kernel.apply call >>= fun kernel => .ok (s.settle kernel)) (fun _ => True)
        fun s' => s'.Inv := by
    refine (Kernel.apply_made call).bind fun k hk => ?_
    exact settle (h.kernel (by omega))
  obtain ⟨room, answer, mapped, call⟩ := c
  cases call with
  | read fd count =>
    refine (Ensures.trivially s.kernel.tasks.enterSys).bind fun t _ => ?_
    refine (Ensures.trivially (s.kernel.tasks.thread t)).bind fun th _ => ?_
    refine (Ensures.trivially _).bind fun a _ => ?_
    exact after (c := ⟨room, answer, mapped, .read fd count⟩) h.consume rfl
      (g := fun s' u => if u = t then count else s'.counts u)
  | write fd buf => exact h.syswrite
  | task task =>
    cases task with
    | run =>
      unfold Pipes.apply
      dsimp only
      split
      · exact hsettle _ rfl
      · refine (Ensures.trivially _).bind fun a _ => ?_
        exact after (c := ⟨room, answer, mapped, .task .run⟩) h.consume rfl
          (g := fun s' => s'.counts)
    | _ => exact hsettle _ rfl
  | table table =>
    refine (Kernel.apply_made _).bind fun k hk => ?_
    by_cases hpipe : table = .syspipe
    · subst hpipe
      rw [if_pos rfl]
      exact settle (h.addPipe hk)
    · rw [if_neg hpipe]
      exact settle (h.kernel (by omega))
  | free o => exact (Kernel.apply_made _).bind fun k hk => h.kernel hk.symm.le

end Inv

/-! ### Runs -/

/-- What the kernel admits. Only the other streams call `free` by themselves. -/
def Admits (s : Pipes) (c : Command) : Prop :=
  s.kernel.Admits ⟨c.room, c.answer, c.call.toKernel⟩ ∧ ∀ o, c.call = .free o → s.ends o = none

def machine : Lib.Machine Pipes Command Fault where
  start s := Kernel.machine.start s.kernel ∧ (∀ q, s.pipes q = none) ∧ (∀ o, s.ends o = none) ∧
    s.events = []
  admits := Admits
  apply := Pipes.apply

/-- As long as its read end is open, a pipe has returned what it has accepted but for what is queued,
in the same order; and no read of a positive count has come to the end of file before all that was
accepted was read and the write end was closed. -/
structure Lossless (s : Pipes) : Prop where
  fifo : ∀ q o, s.ends o = some (.out, q) → ∃ ps, s.pipes q = some ps ∧
    returned q s.events ++ ps.deque = accepted q s.events
  eof : ∀ q t count later earlier, s.events = later ++ .read t q count [] :: earlier → 0 < count →
    returned q earlier = accepted q earlier ∧ .shut q ∈ earlier

theorem Inv.lossless (h : s.Inv) : s.Lossless := by
  refine ⟨fun q o ho => ?_, fun q t count later earlier hl hcount => h.late.split hl hcount⟩
  obtain rfl : o = q := h.place o _ ho
  have hheld : held s.ends o ≠ 0 := by
    unfold held
    rw [if_pos ho]
    omega
  obtain ⟨ps, hps⟩ := Option.ne_none_iff_exists'.mp (h.alive o hheld)
  exact ⟨ps, hps, (h.fifo o ps ho hps).2⟩

theorem run_lossless (h : machine.Run (fun _ _ => True) s) : s.Lossless := by
  refine Inv.lossless (h.invariant (fun s hs => ?_) fun _ _ _ hI _ _ hs => hI.step.of_ok hs)
  obtain ⟨-, hpipes, hends, hevents⟩ := hs
  have hnone : ∀ q ps, s.pipes q ≠ some ps := fun q ps hps => by
    rw [hpipes] at hps
    cases hps
  refine ⟨fun o _ => hends o, fun o e ho => ?_, fun q ps hps => absurd hps (hnone q ps),
    fun q hq => ?_, fun e he => ?_, fun q ps _ hps => absurd hps (hnone q ps),
    fun q ps hps => absurd hps (hnone q ps), ?_⟩
  · rw [hends] at ho
    cases ho
  · unfold held at hq
    simp [hends] at hq
  · rw [hevents] at he
    cases he
  · rw [hevents]
    trivial

/-- What a read of a pipe has returned is the result of `nbread`. -/
theorem nbread_eq (hsource : s.source p fd a = some q)
    (ha : a.bytes = (ps.read count).1.length ∧ a.eof = ps.eof)
    (hread : (ps.read count).1 ≠ [] ∨ ps.eof = true) :
    Ensures (s.kernel.nbread p fd a) (· = .dangling) (· = (ps.read count).1.length) := by
  unfold source descriptor endOf at hsource
  obtain ⟨desc, hdesc, hsource⟩ := Option.bind_eq_some_iff.mp hsource
  obtain ⟨⟨side, q'⟩, hend, hsource⟩ := Option.bind_eq_some_iff.mp hsource
  obtain ⟨desc', hdesc', hend⟩ := Option.bind_eq_some_iff.mp hend
  obtain rfl := Option.some.inj (hdesc.symm.trans hdesc')
  obtain ⟨o, ho, -⟩ := Option.bind_eq_some_iff.mp hend
  obtain ⟨v, hv, hdesc⟩ := Option.bind_eq_some_iff.mp hdesc
  simp only [Bool.and_eq_true, decide_eq_true_eq] at hsource
  split at hsource
  · rename_i hchecks
    obtain ⟨⟨⟨hinside, hstream⟩, hcheck⟩, -⟩ := hchecks
    have hv : s.kernel.fds.table p = .ok v := Descriptors.table_eq hv
    unfold Kernel.nbread
    rw [hinside, hv, ok_bind]
    simp only [hdesc, hstream, ho, hcheck, ha.1, ha.2]
    by_cases hcount : s.kernel.fds.owners.count o = none
    · simp [hcount]
    · by_cases hnil : (ps.read count).1 = []
      · simp [hcount, hnil, hread.resolve_left (not_not.mpr hnil), pure, Except.pure]
      · simp [hcount, hnil, pure, Except.pure]
  · cases hsource

/-! ### A pipe between two threads -/

instance (s : Pipes) (c : Command) : Decidable (s.Admits c) :=
  match c with
  | ⟨room, answer, _, .free o⟩ =>
    decidable_of_iff (s.kernel.Admits ⟨room, answer, .free o⟩ ∧ s.ends o = none)
      (and_congr_right fun _ => ⟨fun h _ ho => (Call.free.inj ho) ▸ h, fun h => h o rfl⟩)
  | ⟨room, answer, _, .task c⟩ =>
    decidable_of_iff (s.kernel.Admits ⟨room, answer, .task c⟩)
      ⟨fun h => ⟨h, nofun⟩, fun h => h.1⟩
  | ⟨room, answer, _, .read fd _⟩ | ⟨room, answer, _, .write fd _⟩ =>
    decidable_of_iff (s.kernel.Admits ⟨room, answer, .read fd⟩)
      ⟨fun h => ⟨h, nofun⟩, fun h => h.1⟩
  | ⟨room, answer, _, .table c⟩ =>
    decidable_of_iff (s.kernel.Admits ⟨room, answer, .table c⟩)
      ⟨fun h => ⟨h, nofun⟩, fun h => h.1⟩

/-- The state after the boot. -/
def booted (kernel : Kernel) : Pipes := ⟨kernel, fun _ => none, fun _ => none, fun _ => 0, []⟩

/-- A run found by following commands from the boot. -/
theorem exists_run {C : Pipes → Command → Prop} (check : Pipes → Command → Bool)
    (hcheck : ∀ s c, check s c = true → C s c) (cs : List Command) (P : Pipes → Bool)
    (h : ((Kernel.boot (2 ^ 20) 10 10 fun _ => 0#64).toOption.bind fun k =>
      machine.follow (fun s c => decide (s.Admits c) && check s c) (booted k) cs).any P = true) :
    ∃ s, machine.Run C s ∧ P s = true := by
  cases hboot : Kernel.boot (2 ^ 20) 10 10 fun _ => 0#64 with
  | error e =>
    rw [hboot] at h
    cases h
  | ok k =>
    rw [hboot] at h
    have hstart : machine.start (booted k) :=
      ⟨⟨2 ^ 20, 10, 10, _, by decide, hboot⟩, fun _ => rfl, fun _ => rfl, rfl⟩
    refine Lib.Machine.exists_run (fun s c hc => ?_) hstart cs h
    obtain ⟨ha, hC⟩ := Bool.and_eq_true_iff.mp hc
    have hadmits : s.Admits c := of_decide_eq_true ha
    exact ⟨hadmits, hcheck s c hC⟩

/-- A call with a buffer that is mapped. -/
def plain (call : Call) : Command := ⟨2 ^ 20, ⟨true, 0, 0, false⟩, 2 ^ 20, call⟩

/-- The main thread of init makes a pipe and waits for two bytes; its second thread writes three. -/
def handover : List Command :=
  [plain (.task .run), plain (.table .syspipe), plain (.task (.clone 20)), plain (.read 3 2),
    plain (.task .run), plain (.write 4 [97, 98, 99])]

set_option maxRecDepth 10000 in
/-- The main thread gets the first two bytes. -/
theorem run_lossless_blocked : ∃ s, machine.Run (fun _ _ => True) s ∧
    decide (s.events = [.read 10 2 2 [97, 98], .write 2 [97, 98, 99]]) = true ∧ s.Lossless := by
  obtain ⟨s, hs, hP⟩ := exists_run (C := fun _ _ => True) (fun _ _ => true) (fun _ _ _ => trivial)
    (handover ++ [plain (.task .preempt), plain (.task .run)])
    (fun s => decide (s.events = [.read 10 2 2 [97, 98], .write 2 [97, 98, 99]]))
    (by decide +kernel)
  exact ⟨s, hs, hP, run_lossless hs⟩

end Pipes

end SupOS
