import SupOS.Shell.Restores

/-! The exit statuses of the shell's commands: which of them a command's own children decide. -/

namespace SupOS.Shell

open Lib Libcpp

/-! ### What the tree says -/

/-- The status of a command, from the exit statuses of its own programs in the order in which they are
run, and the statuses that are left. -/
def Command.value : Command → List Int32 → Option (Int32 × List Int32)
  | .Atomic [] _ _, l => some (0, l)
  | .Atomic (name :: _) _ _, l => if name = "cd" then none else l.head?.map fun s => (s, l.tail)
  | .IfThen cond ifcommand, l => do
    let (condres, l) ← cond.value l
    if condres = 0 then ifcommand.value l else some (0, l)
  | .If cond ifcommand elsecommand, l => do
    let (condres, l) ← cond.value l
    if condres = 0 then ifcommand.value l else elsecommand.value l
  | .Pipe _ consumer, l => consumer.value l
  | .And command1 command2, l => do
    let (res1, l) ← command1.value l
    if res1 = 0 then command2.value l else some (res1, l)
  | .Or command1 command2, l => do
    let (res1, l) ← command1.value l
    if res1 ≠ 0 then command2.value l else some (res1, l)
  | .Seq command1 command2, l => do
    let (_, l) ← command1.value l
    command2.value l

namespace Event

/-- The exit status of a program. -/
def status : Event → Option Int32
  | .program _ _ status => some status
  | .cd | .producer => none

/-- A program is started where no other child is left, and `exec` succeeds. -/
def Careful : Event → Prop
  | .cd => False
  | .program others execs _ => others = 0 ∧ execs = true
  | .producer => True

instance (e : Event) : Decidable e.Careful := by
  unfold Careful
  split <;> infer_instance

/-- The child becomes the program, or calls `exit`, with a failure where `exec` fails. -/
def Leaves (e : Event) : Prop :=
  ∀ f ∈ e.fate, f = .execs ∨ ∃ s, f = .exits s ∧ ∀ others status, e = .program others false status → s ≠ 0

theorem Careful.leaves {e : Event} (h : e.Careful) : e.Leaves := by
  cases e with
  | cd => exact h.elim
  | program others execs status =>
    obtain rfl : execs = true := h.2
    rintro f ⟨⟩
    exact .inl rfl
  | producer =>
    rintro f ⟨⟩
    exact .inr ⟨0, rfl, nofun⟩

end Event

/-- The value of `run` is what the tree says of the command's own programs, and no child comes back from
`run` in the code of the shell. -/
structure Lawful (c : Command) (log : List Event) (res : Int32) : Prop where
  value : c.value (log.filterMap Event.status) = some (res, [])
  leaves : ∀ e ∈ log, e.Leaves

/-! ### What a run has done -/

/-- The children and the log are as they were. -/
def Alone (p p' : Process) : Prop := p'.children = p.children ∧ p'.log = p.log

theorem Alone.trans {p p' p'' : Process} (h : Alone p p') (h' : Alone p' p'') : Alone p p'' :=
  ⟨h'.1.trans h.1, h'.2.trans h.2⟩

/-- A run from `p` that returns: it adds a log, leaves as many children, and if the log is careful its
value is what the tree says. -/
def Told (c : Command) (p : Process) (r : Int32 × Process) : Prop :=
  r.2.children.length = p.children.length ∧ ∃ log, r.2.log = p.log ++ log ∧
    ((∀ e ∈ log, e.Careful) → ∀ l, c.value (log.filterMap Event.status ++ l) = some (r.1, l))

section Commands

variable {world : World} {p : Process}

theorem call_alone {f : Nat → Table → Owners → Except Fault (Nat × Table × Owners)} :
    Ensures (p.call world f) (fun _ => True) fun r => Alone p r.2 :=
  (Ensures.trivially _).bind fun _ _ => ⟨rfl, rfl⟩

theorem pipe_alone : Ensures (p.pipe world) (fun _ => True) fun r => r.1 = 0 ∧ Alone p r.2.2.2 := by
  have hzero {room : Nat} {v : Table} {h : Owners} :
      Ensures (Table.syspipe room v h) (fun _ => True) fun r => r.1 = 0 :=
    (Ensures.trivially _).bind fun _ _ => (Ensures.trivially _).bind fun _ _ =>
      (Ensures.trivially _).bind fun _ _ => (Ensures.trivially _).bind fun _ _ => rfl
  have hcall : Ensures (p.call world fun room v h => Table.syspipe room v h) (fun _ => True)
      fun r => r.1 = 0 ∧ Alone p r.2 := by
    refine hzero.bind fun r hr => ⟨?_, rfl, rfl⟩
    change result r.1 = 0
    rw [hr]
    decide
  exact hcall.bind fun ⟨_, _⟩ h => h

theorem open_alone {file : String} {flags : Nat} :
    Ensures (p.open world file flags) (fun _ => True) fun r => Alone p r.2 :=
  .ite (fun _ => call_alone) fun _ => ⟨rfl, rfl⟩

theorem redirections_alone {redirections : List Redirection} :
    Ensures (Process.doRedirections world redirections p) (fun _ => True) (Alone p) := by
  induction redirections generalizing p with
  | nil => exact ⟨rfl, rfl⟩
  | cons r rs ih =>
    have hredirect {file : String} {flags : Nat} {target : Int32} :
        Ensures (p.redirect world file flags target) (fun _ => True) (Alone p) :=
      open_alone.bind fun _ h₁ => call_alone.bind fun _ h₂ => call_alone.bind fun _ h₃ =>
        (h₁.trans h₂).trans h₃
    have hone : Ensures (p.doRedirection world r) (fun _ => True) (Alone p) := by
      cases r with
      | Input file => exact hredirect
      | Output file => exact hredirect
      | OutputAppend file => exact hredirect
    exact hone.bind fun p' hp' => ih.mono (fun _ h => h) fun p'' hp'' => hp'.trans hp''

theorem feed_alone {pipeout pipein : Int32} :
    Ensures (Pipe.feed world pipeout pipein p) (fun _ => True) fun r => Alone p r.2 :=
  call_alone.bind fun _ h₁ => call_alone.bind fun _ h₂ => call_alone.bind fun _ h₃ =>
    call_alone.bind fun _ h₄ => ((h₁.trans h₂).trans h₃).trans h₄

/-- A wait with children reaps one of them. -/
theorem length_wait (h : 0 < p.children.length) :
    (p.wait world).2.children.length + 1 = p.children.length := by
  change (p.children.eraseIdx _).length + 1 = _
  rw [List.length_eraseIdx_of_lt (Nat.mod_lt _ h)]
  omega

theorem finish_alone {oldstdin : Int32} :
    Ensures (Pipe.finish world oldstdin p) (fun _ => True) (Alone (p.wait world).2) :=
  call_alone.bind fun _ h₁ => call_alone.bind fun _ h₂ => h₁.trans h₂

/-- A program that is started where no other child is left is the one that is reaped. -/
theorem await_told {name : String} : (Atomic.await world name p).2.children.length = p.children.length ∧
    (Atomic.await world name p).2.log = p.log ++ [Atomic.forked world name p] ∧
    (p.children = [] → (Atomic.await world name p).1 = stored (p.meets world).status) := by
  refine ⟨?_, rfl, fun hnone => ?_⟩
  · have hreaped : ((p.parent (p.meets world).status (Atomic.forked world name p)).wait
        world).2.children.length + 1 = _ :=
      length_wait (by change 0 < (p.children ++ [_]).length; simp)
    have hlength : (p.parent (p.meets world).status (Atomic.forked world name p)).children.length =
        p.children.length + 1 := List.length_append
    exact Nat.succ.inj (hreaped.trans hlength)
  · have hone : (p.parent (p.meets world).status (Atomic.forked world name p)).children =
        [(p.meets world).status] := congrArg (· ++ [_]) hnone
    have hreaped : ((p.parent (p.meets world).status (Atomic.forked world name p)).wait world).1 =
        some (p.meets world).status := by
      change (Process.children _)[_ % (Process.children _).length]? = _
      rw [hone, List.length_singleton, Nat.mod_one]
      rfl
    change (Option.map stored (Process.wait world _).1).getD _ = _
    rw [hreaped]
    rfl

theorem atomic_told {cmdline : List String} {redirections : List Redirection} {background : Bool} :
    Ensures (Atomic.run world cmdline redirections p) (fun _ => True)
      (Told (.Atomic cmdline redirections background) p) := by
  cases cmdline with
  | nil => exact ⟨rfl, [], (List.append_nil _).symm, fun _ l => rfl⟩
  | cons name args =>
    refine .ite (fun _ => ?_) fun hcd => ?_
    · exact ⟨rfl, [.cd], rfl, fun hcareful => (hcareful .cd (List.mem_singleton.mpr rfl)).elim⟩
    refine call_alone.bind fun ⟨_, p₁⟩ h₁ => call_alone.bind fun ⟨_, p₂⟩ h₂ =>
      redirections_alone.bind fun p₃ h₃ => ?_
    have hbefore : Alone p p₃ := (h₁.trans h₂).trans h₃
    refine call_alone.bind fun ⟨_, p₄⟩ h₄ => call_alone.bind fun ⟨_, p₅⟩ h₅ =>
      call_alone.bind fun ⟨_, p₆⟩ h₆ => call_alone.bind fun ⟨_, p₇⟩ h₇ => ?_
    have hafter : Alone (Atomic.await world name p₃).2 p₇ := ((h₄.trans h₅).trans h₆).trans h₇
    obtain ⟨hlength, hlog, hvalue⟩ : _ ∧ (Atomic.await world name p₃).2.log = _ ∧ _ := await_told
    refine ⟨?_, [Atomic.forked world name p₃], ?_, fun hcareful l => ?_⟩
    · change p₇.children.length = _
      rw [hafter.1, hlength, hbefore.1]
    · change p₇.log = _
      rw [hafter.2, hlog, hbefore.2]
    · have hnone := (hcareful _ (List.mem_singleton.mpr rfl)).1
      change (if name = "cd" then none else some (stored (p₃.meets world).status, l)) =
        some ((Atomic.await world name p₃).1, l)
      rw [if_neg hcd, hvalue (List.length_eq_zero_iff.mp hnone)]

/-- A command that is run after another one, which decides so. -/
theorem Told.then {c c' : Command} {r r' : Int32 × Process} {d : Command} (h : Told c p r)
    (h' : Told c' r.2 r') (hd : ∀ l l', c.value l = some (r.1, l') → d.value l = c'.value l') :
    Told d p r' := by
  obtain ⟨hlength, log, hlog, hvalue⟩ := h
  obtain ⟨hlength', log', hlog', hvalue'⟩ := h'
  refine ⟨hlength'.trans hlength, log ++ log', ?_, fun hcareful l => ?_⟩
  · rw [hlog', hlog, List.append_assoc]
  · have hfirst := hvalue (fun e he => hcareful e (List.mem_append_left _ he))
      (log'.filterMap Event.status ++ l)
    rw [← List.append_assoc, ← List.filterMap_append] at hfirst
    rw [hd _ _ hfirst]
    exact hvalue' (fun e he => hcareful e (List.mem_append_right _ he)) l

/-- A command that ends with another one, or with a value of its own. -/
theorem Told.stop {c d : Command} {r : Int32 × Process} {res : Int32} (h : Told c p r)
    (hd : ∀ l l', c.value l = some (r.1, l') → d.value l = some (res, l')) : Told d p (res, r.2) := by
  obtain ⟨hlength, log, hlog, hvalue⟩ := h
  exact ⟨hlength, log, hlog, fun hcareful l => hd _ _ (hvalue hcareful l)⟩

theorem pipe_told {producer consumer : Command}
    (hconsumer : ∀ p : Process, Ensures (consumer.run world p) (fun _ => True) (Told consumer p)) :
    Ensures ((Command.Pipe producer consumer).run world p) (fun _ => True)
      (Told (.Pipe producer consumer) p) := by
  unfold Command.run
  refine pipe_alone.bind fun r hr => ?_
  obtain ⟨res, pipeout, pipein, p₁⟩ := r
  obtain ⟨hres, h₁⟩ := hr
  refine .ite (fun hfails => absurd hres hfails) fun _ => ?_
  refine (Ensures.trivially _).bind fun child _ => (Ensures.trivially _).bind fun _ _ => ?_
  refine feed_alone.bind fun r h₂ => ?_
  obtain ⟨oldstdin, p₂⟩ := r
  refine (hconsumer p₂).bind fun r h₃ => ?_
  obtain ⟨res, p₃⟩ := r
  refine finish_alone.bind fun p₄ h₄ => ?_
  obtain ⟨hlength, log, hlog, hvalue⟩ := h₃
  have hforked : p₂.children.length = p.children.length + 1 := by
    rw [show p₂.children = p₁.children ++ [0] from h₂.1, List.length_append, h₁.1]
    rfl
  refine ⟨?_, .producer :: log, ?_, fun hcareful l => ?_⟩
  · change p₃.children.length = _ at hlength
    have hreaped : (p₃.wait world).2.children.length + 1 = _ := length_wait (by omega)
    change p₄.children.length = _
    rw [h₄.1]
    omega
  · change p₄.log = _
    rw [h₄.2]
    change p₃.log = _
    rw [show p₃.log = p₂.log ++ log from hlog, show p₂.log = p₁.log ++ [.producer] from h₂.2, h₁.2,
      List.append_assoc]
    rfl
  · exact hvalue (fun e he => hcareful e (List.mem_cons_of_mem _ he)) l

theorem run_told (c : Command) {p : Process} :
    Ensures (c.run world p) (fun _ => True) (Told c p) := by
  induction c generalizing p with
  | Atomic cmdline redirections background => exact atomic_told
  | IfThen cond ifcommand ihcond ihif =>
    refine ihcond.bind fun ⟨condres, p₁⟩ h₁ => .ite (fun hzero => ?_) fun hzero => ?_
    · refine ihif.mono (fun _ h => h) fun r hr => h₁.then hr fun l l' hl => ?_
      simp only [Command.value, hl, Option.bind_eq_bind, Option.bind_some, if_pos hzero]
    · refine h₁.stop fun l l' hl => ?_
      simp only [Command.value, hl, Option.bind_eq_bind, Option.bind_some, if_neg hzero]
  | If cond ifcommand elsecommand ihcond ihif ihelse =>
    refine ihcond.bind fun ⟨condres, p₁⟩ h₁ => .ite (fun hzero => ?_) fun hzero => ?_
    · refine ihif.mono (fun _ h => h) fun r hr => h₁.then hr fun l l' hl => ?_
      simp only [Command.value, hl, Option.bind_eq_bind, Option.bind_some, if_pos hzero]
    · refine ihelse.mono (fun _ h => h) fun r hr => h₁.then hr fun l l' hl => ?_
      simp only [Command.value, hl, Option.bind_eq_bind, Option.bind_some, if_neg hzero]
  | Pipe producer consumer _ ih => exact pipe_told fun p => ih
  | And command1 command2 ih1 ih2 =>
    refine ih1.bind fun ⟨res1, p₁⟩ h₁ => .ite (fun hzero => ?_) fun hzero => ?_
    · refine ih2.mono (fun _ h => h) fun r hr => h₁.then hr fun l l' hl => ?_
      simp only [Command.value, hl, Option.bind_eq_bind, Option.bind_some, if_pos hzero]
    · refine h₁.stop fun l l' hl => ?_
      simp only [Command.value, hl, Option.bind_eq_bind, Option.bind_some, if_neg hzero]
  | Or command1 command2 ih1 ih2 =>
    refine ih1.bind fun ⟨res1, p₁⟩ h₁ => .ite (fun hzero => ?_) fun hzero => ?_
    · refine ih2.mono (fun _ h => h) fun r hr => h₁.then hr fun l l' hl => ?_
      simp only [Command.value, hl, Option.bind_eq_bind, Option.bind_some, if_pos hzero]
    · refine h₁.stop fun l l' hl => ?_
      simp only [Command.value, hl, Option.bind_eq_bind, Option.bind_some, if_neg hzero]
  | Seq command1 command2 ih1 ih2 =>
    refine ih1.bind fun ⟨res1, p₁⟩ h₁ => ih2.mono (fun _ h => h) fun r hr => h₁.then hr fun l l' hl => ?_
    simp only [Command.value, hl, Option.bind_eq_bind, Option.bind_some]

end Commands

/-- In every state of the shell, a command that returns has a log; if no program of it was started while
another child was left, each `exec` has succeeded and no `cd` was run, the value is the one that the tree
says, and no forked child has come back from `run`. -/
theorem run_statuses {p : Process} (hr : machine.Run (fun _ _ => True) p) (world : World) (c : Command)
    {res : Int32} {p' : Process} (hrun : c.run world p = .ok (res, p')) :
    p'.children = [] ∧ ∃ log, p'.log = p.log ++ log ∧
      ((∀ e ∈ log, e.Careful) → Lawful c log res) := by
  have hnone : p.children = [] := by
    refine hr.invariant (I := fun p => p.children = []) (fun p hp => hp.2.2)
      fun p p' c hp _ _ happly => ?_
    obtain ⟨r, hr, hp'⟩ := bind_eq_ok.mp happly
    obtain rfl := Except.ok.inj hp'
    have hlength := ((run_told c.2).of_ok hr).1
    rw [hp] at hlength
    exact List.length_eq_zero_iff.mp hlength
  obtain ⟨hlength, log, hlog, hvalue⟩ := (run_told c).of_ok hrun
  rw [hnone] at hlength
  refine ⟨List.length_eq_zero_iff.mp hlength, log, hlog, fun hcareful => ⟨?_, fun e he =>
    (hcareful e he).leaves⟩⟩
  have := hvalue hcareful []
  rwa [List.append_nil] at this

/-- The shell with three descriptors. -/
theorem run_shell : machine.Run (fun _ _ => True) (⟨[], 0, ⟨[⟨some 0, .TWINDOW, 1⟩,
    ⟨some 0, .TWINDOW, 2⟩, ⟨some 1, .STREAM, 3⟩], 4⟩, [], []⟩ : Process) :=
  .start ⟨⟨show 3 ≤ 4 by decide, show 4 ≤ 2 ^ 30 by decide⟩, show 2 ≤ 3 by decide, rfl⟩

/-- `a && b || c`, where `b` fails with 3: the status is that of `c`. -/
theorem run_statuses_lists : ∃ (p p' : Process) (world : World) (c : Command) (res : Int32),
    machine.Run (fun _ _ => True) p ∧ c.run world p = .ok (res, p') ∧ res = 3 ∧
      ∃ log, p'.log = p.log ++ log ∧ Lawful c log res := by
  obtain ⟨res, p', hrun, hP⟩ := exists_return
    (fun _ calls => ⟨2 ^ 20, ⟨fun _ => some 5, 2, []⟩, fun _ _ => true, fun _ => true,
      if calls ≤ 8 then 0 else 3, 0, 0⟩)
    (.Or (.And (.Atomic ["a"] [] false) (.Atomic ["b"] [] false)) (.Atomic ["c"] [] false))
    ⟨[], 0, ⟨[⟨some 0, .TWINDOW, 1⟩, ⟨some 0, .TWINDOW, 2⟩, ⟨some 1, .STREAM, 3⟩], 4⟩, [], []⟩
    (fun r => decide (r.1 = 3 ∧ ∀ e ∈ r.2.log, e.Careful)) (by decide +kernel)
  obtain ⟨hres, hcareful⟩ := of_decide_eq_true hP
  obtain ⟨-, log, hlog, hlawful⟩ := run_statuses run_shell _ _ hrun
  refine ⟨_, p', _, _, res, run_shell, hrun, hres, log, hlog, hlawful fun e he => hcareful e ?_⟩
  rw [hlog]
  exact he

/-- `a | b`, where `b` fails with 1: the wait for `b` reaps the child of `a`, which has ended first. -/
theorem producer_reaped : ¬∀ (p p' : Process) (world : World) (c : Command) (res : Int32)
    (log : List Event), machine.Run (fun _ _ => True) p → c.run world p = .ok (res, p') →
      p'.log = p.log ++ log → Lawful c log res := by
  intro hall
  obtain ⟨res, p', hrun, hP⟩ := exists_return
    (fun _ _ => ⟨2 ^ 20, ⟨fun _ => some 5, 2, []⟩, fun _ _ => true, fun _ => true, 1, 0, 0⟩)
    (.Pipe (.Atomic ["a"] [] false) (.Atomic ["b"] [] false))
    ⟨[], 0, ⟨[⟨some 0, .TWINDOW, 1⟩, ⟨some 0, .TWINDOW, 2⟩, ⟨some 1, .STREAM, 3⟩], 4⟩, [], []⟩
    (fun r => decide (r.1 = 0 ∧ r.2.log = [.producer, .program 1 true 1])) (by decide +kernel)
  obtain ⟨rfl, hlog⟩ := of_decide_eq_true hP
  have hvalue := (hall _ p' _ _ _ _ run_shell hrun hlog).value
  exact absurd hvalue (by decide)

end SupOS.Shell
