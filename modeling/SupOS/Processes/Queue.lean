import SupOS.Processes.Runs

/-! The queue of the scheduler: which runs give each thread one turn in a round. -/

namespace SupOS

open Lib

namespace Tasks

variable {s : Tasks} {trace : List Event} {c : Command}

theorem Queued.boot {p t : Nat} {d : Words} (h : boot p t d = .ok s) : Queued s := by
  unfold Tasks.boot at h
  simp only [newProcess, newThread, addP, addT, addThread, getG, process, setProcess, init, thread,
    empty, put_self, put_put, ok_bind, pure, Except.pure, decide_true, assert_true] at h
  obtain ⟨tids₀, -, h⟩ := bind_eq_ok.mp h
  obtain ⟨tids₁, -, h⟩ := bind_eq_ok.mp h
  obtain rfl := Except.ok.inj h
  intro tid u hu
  by_cases htid : tid = 1
  · simp [htid]
  · simp [put_of_ne _ _ htid] at hu

/-- In every run whose commands add no thread with a number that is still in the queue, each thread
that does not run is in the queue once and the one that runs is not in it. -/
theorem run_queued (h : Run Unqueued trace s) : Queued s := by
  induction h with
  | boot h => exact .boot h
  | step hr hf hC h ih => exact ((apply_spec hr.inv hf).of_ok h).queued hC ih

/-- The number that a command gives to a new thread, with the queue at that moment. -/
def enqueues (s : Tasks) : Command → Option (Nat × List Nat)
  | .fork _ _ | .clone _ => s.tids.bsf.map fun tid => (tid, s.fifo)
  | .exec _ => do
    let th ← s.threadAt (← s.current)
    let pro ← s.processAt th.process
    return (pro.pid, s.fifo ++ [th.tid])
  | _ => none

theorem unqueued_of_enqueues (h : (s.enqueues c).all (fun r => decide (r.1 ∉ r.2)) = true) :
    Unqueued s c := by
  cases c with
  | fork p t =>
    intro tid htid
    simpa [enqueues, htid] using h
  | clone t =>
    intro tid htid
    simpa [enqueues, htid] using h
  | exec t =>
    intro u th pro hc hth hpro
    have hnot : pro.pid ∉ s.fifo ∧ pro.pid ≠ th.tid := by simpa [enqueues, hc, hth, hpro] using h
    exact ⟨hnot.2.symm, hnot.1⟩
  | exit _ => trivial
  | texit _ => trivial
  | wait _ => trivial
  | run => trivial
  | preempt => trivial

set_option maxRecDepth 10000 in
/-- A second thread starts a program after the main thread has ended. -/
theorem run_queued_small : ∃ trace s, Run Unqueued trace s ∧ Queued s ∧ s.fifo = [2, 1] := by
  obtain ⟨trace, s, hrun, hP⟩ := exists_run
    (fun s c => (s.enqueues c).all fun r => decide (r.1 ∉ r.2)) 10 10 (fun _ => 0#64)
    [.run, .clone 20, .texit 0, .run, .exec 30] (fun r => decide (r.2.fifo = [2, 1]))
    (fun _ _ _ => unqueued_of_enqueues) (by decide +kernel)
  exact ⟨trace, s, hrun, run_queued hrun, of_decide_eq_true hP⟩

set_option maxRecDepth 10000 in
/-- After init has started a program, its thread is in the queue twice, and still once when it
runs. -/
theorem twice_queued : ∃ trace s trace' s', Run (fun _ _ => True) trace s ∧
    (s.threads 1 = some 20 ∧ s.current = none ∧ s.fifo = [1, 1]) ∧ ¬Queued s ∧
    Run (fun _ _ => True) trace' s' ∧ s'.current = some 20 ∧ s'.fifo = [1] ∧ ¬Queued s' := by
  obtain ⟨trace, s, hrun, hP⟩ := exists_run (C := fun _ _ => True) (fun _ _ => true) 10 10
    (fun _ => 0#64) [.run, .exec 20]
    (fun r => decide (r.2.threads 1 = some 20 ∧ r.2.current = none ∧ r.2.fifo = [1, 1]))
    (fun _ _ _ _ => trivial) (by decide +kernel)
  obtain ⟨trace', s', hrun', hP'⟩ := exists_run (C := fun _ _ => True) (fun _ _ => true) 10 10
    (fun _ => 0#64) [.run, .exec 20, .run]
    (fun r => decide (r.2.threads 1 = some 20 ∧ r.2.current = some 20 ∧ r.2.fifo = [1]))
    (fun _ _ _ _ => trivial) (by decide +kernel)
  have h : s.threads 1 = some 20 ∧ s.current = none ∧ s.fifo = [1, 1] := of_decide_eq_true hP
  have h' : s'.threads 1 = some 20 ∧ s'.current = some 20 ∧ s'.fifo = [1] := of_decide_eq_true hP'
  refine ⟨trace, s, trace', s', hrun, h, fun hq => ?_, hrun', h'.2.1, h'.2.2, fun hq => ?_⟩
  · have hcount := hq 1 20 h.1
    simp [h.2.1, h.2.2] at hcount
  · have hcount := hq 1 20 h'.1
    simp [h'.2.1, h'.2.2] at hcount

end Tasks

end SupOS
