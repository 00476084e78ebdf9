import SupOS.Processes.Waiting

/-! `Scheduler::run`: which thread of the queue it starts, and what it leaves of the queue. `OK` takes
the place of the checks of `Waiting`, which change the rest of the kernel. -/

namespace SupOS

open Lib

variable {T R : Type}

/-- The fields of `Scheduler` that `run` reads or writes, the flag that a context is saved, and the
rest of the kernel. -/
structure Scheduler (T R : Type) where
  threads : Nat → Option T
  fifo : List Nat
  current : Option T
  lastContext : Bool
  remainingTime : Nat
  halted : Bool
  runTryNum : Nat
  rest : R

/-- How `run` ends, which never returns. -/
inductive Ending (T : Type)
  /-- `_current->run()`. -/
  | runs (t : T)
  /-- The loop of `hlt`. -/
  | idles
  deriving DecidableEq, Repr

namespace Scheduler

/-- `processQuantum`. -/
def processQuantum : Nat := 5

variable (OK : T → R → Bool × R)

/-- `run`, where `fuel` bounds the number of calls. -/
def run : Nat → Scheduler T R → Except Fault (Ending T × Scheduler T R)
  | 0, _ => .error .diverges
  | fuel + 1, s => do
    assert s.current.isNone
    assert (!s.lastContext)
    assert (0 < s.fifo.length)
    if s.fifo.length ≤ s.runTryNum then
      return (.idles, { s with runTryNum := 0, halted := true })
    match s.fifo with
    | [] => .error .outOfRange
    | nextTid :: fifo =>
      match s.threads nextTid with
      | none => run fuel { s with fifo := fifo }
      | some t =>
        let (ok, rest) := OK t s.rest
        if ok then
          return (.runs t, { s with
            fifo := fifo
            rest := rest
            current := some t
            remainingTime := processQuantum
            runTryNum := 0 })
        else
          run fuel { s with fifo := fifo ++ [nextTid], rest := rest, runTryNum := s.runTryNum + 1 }

/-- The rest of the kernel after the threads have been asked in order, when all of them still wait. -/
def refusals : List T → R → Option R
  | [], r => some r
  | t :: ts, r => if (OK t r).1 then none else refusals ts (OK t r).2

variable (s : Scheduler T R)

/-- The tids of the list whose threads exist. -/
def live (tids : List Nat) : List Nat := tids.filter fun tid => (s.threads tid).isSome

/-- The state in which `run` is called: `_runTryNum` is 0 from the constructor and from the last call
on. -/
structure Ready : Prop where
  current : s.current = none
  lastContext : s.lastContext = false
  runTryNum : s.runTryNum = 0

/-- The first thread of the queue that is OK has been started. -/
def Starts (t : T) (s' : Scheduler T R) : Prop :=
  ∃ before tid after r, s.fifo = before ++ tid :: after ∧ s.threads tid = some t ∧
    refusals OK (before.filterMap s.threads) s.rest = some r ∧ (OK t r).1 = true ∧
    s' = { s with
      fifo := after ++ s.live before
      rest := (OK t r).2
      current := some t
      remainingTime := processQuantum
      runTryNum := 0 }

/-- No thread of the queue is OK, and the processor sleeps. -/
def Idles (s' : Scheduler T R) : Prop :=
  ∃ r, refusals OK (s.fifo.filterMap s.threads) s.rest = some r ∧
    s' = { s with fifo := s.live s.fifo, halted := true, runTryNum := 0, rest := r }

variable {OK s}

theorem refusals_append {ts us : List T} {r : R} :
    refusals OK (ts ++ us) r = (refusals OK ts r).bind (refusals OK us) := by
  induction ts generalizing r with
  | nil => rfl
  | cons t ts ih =>
    rw [List.cons_append, refusals, refusals]
    by_cases hok : (OK t r).1 = true
    · rw [if_pos hok, if_pos hok]
      rfl
    · rw [if_neg hok, if_neg hok]
      exact ih

section

variable {tid fuel n : Nat} {fifo : List Nat} {t : T} {r : R}

/-- A call with a tid at the front whose thread is gone. -/
theorem run_dead (hc : s.current = none) (hl : s.lastContext = false) (hn : n ≤ fifo.length)
    (ht : s.threads tid = none) :
    run OK (fuel + 1) { s with fifo := tid :: fifo, runTryNum := n, rest := r } =
      run OK fuel { s with fifo := fifo, runTryNum := n, rest := r } := by
  rw [run]
  simp only [hc, hl, Option.isNone_none, Bool.not_false, List.length_cons, Nat.zero_lt_succ, decide_true,
    assert_true, ok_bind]
  rw [if_neg (by omega), ht]

/-- A call with a thread at the front that still waits. -/
theorem run_waiting (hc : s.current = none) (hl : s.lastContext = false) (hn : n ≤ fifo.length)
    (ht : s.threads tid = some t) (hok : (OK t r).1 = false) :
    run OK (fuel + 1) { s with fifo := tid :: fifo, runTryNum := n, rest := r } =
      run OK fuel { s with fifo := fifo ++ [tid], runTryNum := n + 1, rest := (OK t r).2 } := by
  rw [run]
  simp only [hc, hl, Option.isNone_none, Bool.not_false, List.length_cons, Nat.zero_lt_succ, decide_true,
    assert_true, ok_bind]
  rw [if_neg (by omega), ht]
  dsimp only
  rw [hok]
  rfl

/-- A call with a thread at the front that is OK. -/
theorem run_ok (hc : s.current = none) (hl : s.lastContext = false) (hn : n ≤ fifo.length)
    (ht : s.threads tid = some t) (hok : (OK t r).1 = true) :
    run OK (fuel + 1) { s with fifo := tid :: fifo, runTryNum := n, rest := r } =
      .ok (.runs t, { s with
        fifo := fifo
        rest := (OK t r).2
        current := some t
        remainingTime := processQuantum
        runTryNum := 0 }) := by
  rw [run]
  simp only [hc, hl, Option.isNone_none, Bool.not_false, List.length_cons, Nat.zero_lt_succ, decide_true,
    assert_true, ok_bind]
  rw [if_neg (by omega), ht]
  dsimp only
  rw [hok]
  rfl

/-- A call after every thread has been tried. -/
theorem run_tried (hc : s.current = none) (hl : s.lastContext = false) (hf : fifo ≠ [])
    (hn : fifo.length ≤ n) :
    run OK (fuel + 1) { s with fifo := fifo, runTryNum := n, rest := r } =
      .ok (.idles, { s with fifo := fifo, halted := true, runTryNum := 0, rest := r }) := by
  have hpos := List.length_pos_iff.mpr hf
  rw [run]
  simp only [hc, hl, Option.isNone_none, Bool.not_false, hpos, decide_true, assert_true, ok_bind]
  rw [if_pos hn]
  rfl

end

theorem live_cons_none {tid : Nat} {tids : List Nat} (h : s.threads tid = none) :
    s.live (tid :: tids) = s.live tids :=
  List.filter_cons_of_neg (by rw [h]; exact Bool.false_ne_true)

theorem live_cons_some {tid : Nat} {tids : List Nat} {t : T} (h : s.threads tid = some t) :
    s.live (tid :: tids) = tid :: s.live tids :=
  List.filter_cons_of_pos (by rw [h]; rfl)

/-- The threads before the one that is OK go to the back, without the tids whose threads are gone. -/
theorem run_starts {before after : List Nat} {tid fuel n : Nat} {t : T} {r r' : R}
    (hc : s.current = none) (hl : s.lastContext = false) (ht : s.threads tid = some t)
    (href : refusals OK (before.filterMap s.threads) r = some r') (hok : (OK t r').1 = true)
    (hn : n ≤ after.length) (hfuel : before.length < fuel) :
    run OK fuel { s with fifo := before ++ tid :: after, runTryNum := n, rest := r } =
      .ok (.runs t, { s with
        fifo := after ++ s.live before
        rest := (OK t r').2
        current := some t
        remainingTime := processQuantum
        runTryNum := 0 }) := by
  obtain ⟨fuel, rfl⟩ : ∃ m, fuel = m + 1 := ⟨fuel - 1, by omega⟩
  induction before generalizing after fuel n r with
  | nil =>
    obtain rfl : r = r' := Option.some.inj href
    rw [List.nil_append, run_ok hc hl hn ht hok, live, List.filter_nil,
      List.append_nil]
  | cons b before ih =>
    rw [List.length_cons] at hfuel
    obtain ⟨fuel, rfl⟩ : ∃ m, fuel = m + 1 := ⟨fuel - 1, by omega⟩
    have hlen : n ≤ (before ++ tid :: after).length := by
      rw [List.length_append, List.length_cons]
      omega
    cases hb : s.threads b with
    | none =>
      rw [List.filterMap_cons_none hb] at href
      rw [List.cons_append, run_dead hc hl hlen hb,
        live_cons_none hb]
      exact ih href hn fuel (by omega)
    | some u =>
      rw [List.filterMap_cons_some hb, refusals] at href
      have hu : (OK u r).1 = false := by
        by_contra h
        rw [if_pos (eq_true_of_ne_false h)] at href
        cases href
      rw [if_neg (by rw [hu]; exact Bool.false_ne_true)] at href
      rw [List.cons_append, run_waiting hc hl hlen hb hu,
        live_cons_some hb, List.append_assoc, List.cons_append]
      have hn' : n + 1 ≤ (after ++ [b]).length := by
        rw [List.length_append, List.length_singleton]
        omega
      have htail := ih href hn' fuel (by omega)
      rw [List.append_assoc after] at htail
      exact htail

/-- When all of the threads still wait, each of them is asked once. -/
theorem run_idles {todo tried : List Nat} {fuel : Nat} {r r' : R} (hc : s.current = none)
    (hl : s.lastContext = false) (href : refusals OK (todo.filterMap s.threads) r = some r')
    (hne : tried ++ s.live todo ≠ []) (hfuel : todo.length < fuel) :
    run OK fuel { s with fifo := todo ++ tried, runTryNum := tried.length, rest := r } =
      .ok (.idles, { s with
        fifo := tried ++ s.live todo, halted := true, runTryNum := 0, rest := r' }) := by
  obtain ⟨fuel, rfl⟩ : ∃ m, fuel = m + 1 := ⟨fuel - 1, by omega⟩
  induction todo generalizing tried fuel r with
  | nil =>
    obtain rfl : r = r' := Option.some.inj href
    rw [live, List.filter_nil, List.append_nil] at hne ⊢
    rw [List.nil_append, run_tried hc hl hne le_rfl]
  | cons b todo ih =>
    rw [List.length_cons] at hfuel
    obtain ⟨fuel, rfl⟩ : ∃ m, fuel = m + 1 := ⟨fuel - 1, by omega⟩
    have hlen : tried.length ≤ (todo ++ tried).length := by
      rw [List.length_append]
      omega
    cases hb : s.threads b with
    | none =>
      rw [List.filterMap_cons_none hb] at href
      rw [live_cons_none hb] at hne ⊢
      rw [List.cons_append, run_dead hc hl hlen hb]
      exact ih href hne fuel (by omega)
    | some u =>
      rw [List.filterMap_cons_some hb, refusals] at href
      have hu : (OK u r).1 = false := by
        by_contra h
        rw [if_pos (eq_true_of_ne_false h)] at href
        cases href
      rw [if_neg (by rw [hu]; exact Bool.false_ne_true)] at href
      have hne' : tried ++ [b] ++ s.live todo ≠ [] := by simp
      rw [live_cons_some hb, List.cons_append, run_waiting hc hl hlen hb hu, List.append_assoc]
      have htail := ih href hne' fuel (by omega)
      rw [List.length_append, List.length_singleton, List.append_assoc tried] at htail
      exact htail

/-- Either all threads of a queue still wait, or there is a first one that is OK. -/
theorem refusals_cases (threads : Nat → Option T) (tids : List Nat) (r : R) :
    (∃ r', refusals OK (tids.filterMap threads) r = some r') ∨
      ∃ before tid after t r', tids = before ++ tid :: after ∧ threads tid = some t ∧
        refusals OK (before.filterMap threads) r = some r' ∧ (OK t r').1 = true := by
  induction tids generalizing r with
  | nil => exact .inl ⟨r, rfl⟩
  | cons b tids ih =>
    cases hb : threads b with
    | none =>
      rcases ih r with ⟨r', h⟩ | ⟨before, tid, after, t, r', rfl, ht, href, hok⟩
      · exact .inl ⟨r', by rw [List.filterMap_cons_none hb, h]⟩
      · exact .inr ⟨b :: before, tid, after, t, r', rfl, ht,
          by rw [List.filterMap_cons_none hb, href], hok⟩
    | some u =>
      by_cases hu : (OK u r).1 = true
      · exact .inr ⟨[], b, tids, u, r, rfl, hb, rfl, hu⟩
      rcases ih (OK u r).2 with ⟨r', h⟩ | ⟨before, tid, after, t, r', rfl, ht, href, hok⟩
      · exact .inl ⟨r', by rw [List.filterMap_cons_some hb, refusals, if_neg hu, h]⟩
      · exact .inr ⟨b :: before, tid, after, t, r', rfl, ht,
          by rw [List.filterMap_cons_some hb, refusals, if_neg hu, href], hok⟩

/-- A thread that is OK is not passed over. -/
theorem Starts.not_idles {t : T} {s' : Scheduler T R} (h : s.Starts OK t s') :
    refusals OK (s.fifo.filterMap s.threads) s.rest = none := by
  obtain ⟨before, tid, after, r, hf, ht, href, hok, -⟩ := h
  rw [hf, List.filterMap_append, refusals_append, href, Option.bind_some,
    List.filterMap_cons_some ht, refusals, if_pos hok]

/-- `run` ends, starts the first thread of the queue that is OK, and sleeps exactly when there is none. -/
theorem run_choice (OK : T → R → Bool × R) (s : Scheduler T R) (hready : s.Ready)
    (hlive : s.live s.fifo ≠ []) :
    ∃ e s', (∀ fuel, s.fifo.length < fuel → run OK fuel s = .ok (e, s')) ∧
      ((∃ t, e = .runs t ∧ s.Starts OK t s') ∨ (e = .idles ∧ s.Idles OK s')) ∧
      (e = .idles ↔ ∃ r, refusals OK (s.fifo.filterMap s.threads) s.rest = some r) := by
  have hs : s = { s with fifo := s.fifo, runTryNum := 0, rest := s.rest } := by
    rw [← hready.runTryNum]
  rcases refusals_cases s.threads s.fifo s.rest with
    ⟨r, href⟩ | ⟨before, tid, after, t, r, hf, ht, href, hok⟩
  · refine ⟨.idles, _, fun fuel hfuel => ?_, .inr ⟨rfl, r, href, rfl⟩, iff_of_true rfl ⟨r, href⟩⟩
    have h := run_idles hready.current hready.lastContext href
      (show [] ++ s.live s.fifo ≠ [] by rwa [List.nil_append]) hfuel
    rw [List.append_nil, List.length_nil, ← hs, List.nil_append] at h
    exact h
  · have hstarts : s.Starts OK t _ := ⟨before, tid, after, r, hf, ht, href, hok, rfl⟩
    refine ⟨.runs t, _, fun fuel hfuel => ?_, .inl ⟨t, rfl, hstarts⟩,
      iff_of_false (fun h => by cases h) fun h => ?_⟩
    · have hbefore : before.length < fuel := by
        rw [hf, List.length_append, List.length_cons] at hfuel
        omega
      have h := run_starts hready.current hready.lastContext ht href hok (Nat.zero_le after.length)
        hbefore
      rw [← hf, ← hs] at h
      exact h
    · obtain ⟨r', h'⟩ := h
      cases hstarts.not_idles.symm.trans h'

/-- Thread 1 waits for a waitable that has not been freed, thread 2 is gone and thread 3 waits for nothing;
the checker would accept. -/
def threeTids : Scheduler Nat (Waits Nat Nat) where
  threads tid := if tid = 2 then none else some tid
  fifo := [1, 2, 3]
  current := none
  lastContext := false
  remainingTime := 0
  halted := false
  runTryNum := 0
  rest := { Waits.idle with waiting := fun t => if t = 1 then {7} else ∅ }

theorem run_choice_third : ∃ s', run (fun t w => w.OK t true) 4 threeTids = .ok (.runs 3, s') ∧
    s'.fifo = [1] := by
  obtain ⟨e, s', hrun, hcases, -⟩ := run_choice (fun t w => w.OK t true) threeTids ⟨rfl, rfl, rfl⟩
    (by decide)
  have h := hrun 4 (by decide)
  obtain ⟨rfl, rfl⟩ := Prod.mk.inj (Except.ok.inj (h.symm.trans rfl))
  exact ⟨_, h, rfl⟩

end Scheduler

end SupOS
