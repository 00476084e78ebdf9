import SupOS.Pipes.System

/-! The object that the two ends of a pipe share, which deletes itself: its accesses, in every order in
which the ends are used and closed. -/

namespace SupOS

open Lib

inductive PipeField
  | deque | out | eof | nbRef
  deriving DecidableEq, Repr

/-- A `PipeStream` with a flag that its deletion clears, the number of its deletions, the accesses to its
fields with the flag at that time, and the ends that have been closed. What came last is the first. -/
structure SharedPipe where
  ps : PipeStream
  alive : Bool
  deletions : Nat
  accesses : List (PipeField × Bool)
  closed : List PipeEnd

namespace SharedPipe

/-- What `syspipe` makes, where `o` is the `PipeStreamOut`. -/
def new (o : Nat) : SharedPipe := ⟨.new o, true, 0, [], []⟩

variable (s : SharedPipe)

/-- An access to a field. -/
def touch (f : PipeField) : SharedPipe := { s with accesses := (f, s.alive) :: s.accesses }

/-- `delete this`, which destroys the queue. -/
def delete : SharedPipe :=
  { s.touch .deque with alive := false, deletions := s.deletions + 1 }

def decrRef : SharedPipe :=
  let s := s.touch .nbRef
  let s := { s with ps.nbRef := (s.ps.nbRef + 255) % 256 }
  let s := s.touch .nbRef
  if s.ps.nbRef = 0 then s.delete else s

def sendEof : SharedPipe := { s.touch .eof with ps.eof := true }

/-- `PipeStreamOut::read` with the bytes that it returns. -/
def read (s : SharedPipe) : Nat → List UInt8 × SharedPipe
  | 0 => ([], s)
  | count + 1 =>
    match s.ps.deque with
    | [] => ([], s.touch .deque)
    | b :: deque =>
      let r := read { ((s.touch .deque).touch .deque).touch .deque with ps.deque := deque } count
      (b :: r.1, r.2)

/-- `PipeStreamOut::eof` -/
def eof : Bool × SharedPipe := (s.ps.eof, s.touch .eof)

/-- The loop of `write`. -/
def pushAll (s : SharedPipe) : List UInt8 → SharedPipe
  | [] => s
  | b :: buf => pushAll { s.touch .deque with ps.deque := s.ps.deque ++ [b] } buf

/-- `PipeStreamIn::write` -/
def write (buf : List UInt8) : Nat × SharedPipe :=
  let s := (s.pushAll buf).touch .out
  if s.ps.out.isSome then (buf.length, s.touch .out) else (errno EPIPE, s)

/-- The destructors of the ends. -/
def dropEnd : PipeEnd → SharedPipe
  | .out => { s.decrRef.touch .out with ps.out := none }
  | .inp => s.sendEof.decrRef

inductive Call
  | read (count : Nat)
  | eof
  | write (buf : List UInt8)
  | close (e : PipeEnd)
  deriving DecidableEq, Repr

/-- The end that a call is made on. -/
def Call.onEnd : Call → PipeEnd
  | .read _ | .eof => .out
  | .write _ => .inp
  | .close e => e

def call : Call → SharedPipe
  | .read count => (s.read count).2
  | .eof => s.eof.2
  | .write buf => (s.write buf).2
  | .close e => { s.dropEnd e with closed := e :: s.closed }

/-- The ends are used until they are closed. -/
def machine : Lib.Machine SharedPipe Call Fault where
  start s := ∃ o, s = .new o
  admits s c := c.onEnd ∉ s.closed
  apply s c := .ok (s.call c)

/-- The reading end is not the last one to be closed. -/
def Orderly (c : Call) : Prop := c = .close .out → .inp ∉ s.closed

variable {s} {s' s'' : SharedPipe}

/-! ### Uses -/

/-- From `s` to `s'` fields have been accessed, and the pipe has neither been closed nor deleted. -/
structure Used (s s' : SharedPipe) : Prop where
  nbRef : s'.ps.nbRef = s.ps.nbRef
  alive : s'.alive = s.alive
  deletions : s'.deletions = s.deletions
  closed : s'.closed = s.closed
  accesses : ∃ new, s'.accesses = new ++ s.accesses ∧ ∀ a ∈ new, a.2 = s.alive

theorem Used.refl (s : SharedPipe) : Used s s := ⟨rfl, rfl, rfl, rfl, [], rfl, nofun⟩

theorem Used.trans (h : Used s s') (h' : Used s' s'') : Used s s'' := by
  obtain ⟨new, hnew, hall⟩ := h.accesses
  obtain ⟨new', hnew', hall'⟩ := h'.accesses
  refine ⟨h'.nbRef.trans h.nbRef, h'.alive.trans h.alive, h'.deletions.trans h.deletions,
    h'.closed.trans h.closed, new' ++ new, ?_, fun a ha => ?_⟩
  · rw [hnew', hnew, List.append_assoc]
  · rcases List.mem_append.mp ha with ha | ha
    · exact (hall' a ha).trans h.alive
    · exact hall a ha

theorem used_touch (s : SharedPipe) (f : PipeField) : Used s (s.touch f) :=
  ⟨rfl, rfl, rfl, rfl, [(f, s.alive)], rfl, fun _ ha => by rw [List.mem_singleton.mp ha]⟩

/-- Another queue makes no difference. -/
theorem Used.deque (h : Used s s') (deque : List UInt8) :
    Used s { s' with ps.deque := deque } :=
  ⟨h.nbRef, h.alive, h.deletions, h.closed, h.accesses⟩

theorem used_read (s : SharedPipe) (count : Nat) : Used s (s.read count).2 := by
  induction count generalizing s with
  | zero => exact .refl s
  | succ count ih =>
    unfold read
    cases s.ps.deque with
    | nil => exact used_touch s .deque
    | cons b deque =>
      have htouched := ((used_touch s .deque).trans (used_touch _ .deque)).trans (used_touch _ .deque)
      exact (htouched.deque deque).trans (ih _)

theorem used_pushAll (s : SharedPipe) (buf : List UInt8) : Used s (s.pushAll buf) := by
  induction buf generalizing s with
  | nil => exact .refl s
  | cons b buf ih => exact ((used_touch s .deque).deque _).trans (ih _)

theorem used_write (s : SharedPipe) (buf : List UInt8) : Used s (s.write buf).2 := by
  have hpushed := (used_pushAll s buf).trans (used_touch _ .out)
  unfold write
  dsimp only
  split
  · exact hpushed.trans (used_touch _ .out)
  · exact hpushed

/-! ### Runs -/

/-- The pipe is there until both ends are closed, and is then deleted once. A deleted pipe has been
accessed when the reading end was the last one to be closed. -/
structure Counted (s : SharedPipe) : Prop where
  nodup : s.closed.Nodup
  alive : s.alive = decide (s.closed.length < 2)
  deletions : s.deletions = if s.closed.length < 2 then 0 else 1
  nbRef : s.closed.length < 2 → s.ps.nbRef = 2 - s.closed.length
  accesses : (∀ a ∈ s.accesses, a.2 = true) ↔ s.closed ≠ [.out, .inp]

theorem counted_new (o : Nat) : (new o).Counted :=
  ⟨.nil, rfl, rfl, fun _ => rfl, iff_of_true nofun nofun⟩

theorem Counted.used (h : s.Counted) (hu : Used s s') (halive : s.alive = true) : s'.Counted := by
  obtain ⟨new, hnew, hall⟩ := hu.accesses
  refine ⟨hu.closed ▸ h.nodup, ?_, ?_, ?_, ?_⟩
  · rw [hu.alive, hu.closed, h.alive]
  · rw [hu.deletions, hu.closed, h.deletions]
  · rw [hu.nbRef, hu.closed]
    exact h.nbRef
  · rw [hu.closed, ← h.accesses, hnew]
    refine ⟨fun hok a ha => hok a (List.mem_append_right new ha), fun hok a ha => ?_⟩
    rcases List.mem_append.mp ha with ha | ha
    · exact (hall a ha).trans halive
    · exact hok a ha

/-- An end that is open is the first or the second one to be closed. -/
theorem Counted.closed_of_open (h : s.Counted) {e : PipeEnd} (he : e ∉ s.closed) :
    s.closed = [] ∨ ∃ e', e' ≠ e ∧ s.closed = [e'] := by
  have hnodup := h.nodup
  match hclosed : s.closed with
  | [] => exact .inl rfl
  | [e'] =>
    rw [hclosed] at he
    exact .inr ⟨e', fun heq => he (List.mem_singleton.mpr heq.symm), rfl⟩
  | x :: y :: rest =>
    rw [hclosed] at he hnodup
    revert he hnodup
    cases x <;> cases y <;> cases e <;> simp

/-- The first end that is closed leaves the pipe to the other one. -/
theorem decrRef_first (h : s.ps.nbRef = 2) : s.decrRef =
    { s with
      ps.nbRef := 1, accesses := (.nbRef, s.alive) :: (.nbRef, s.alive) :: s.accesses } := by
  simp [decrRef, touch, h]

/-- The last one deletes it. -/
theorem decrRef_last (h : s.ps.nbRef = 1) : s.decrRef =
    { s with
      ps.nbRef := 0, alive := false, deletions := s.deletions + 1,
      accesses := (.deque, s.alive) :: (.nbRef, s.alive) :: (.nbRef, s.alive) :: s.accesses } := by
  simp [decrRef, delete, touch, h]

/-- What the flag was when the destructor made its accesses. -/
theorem Counted.close (h : s.Counted) {e : PipeEnd} (he : e ∉ s.closed) :
    (s.call (.close e)).Counted := by
  have halive := h.alive
  have hdeletions := h.deletions
  have hnbRef := h.nbRef
  have haccesses := h.accesses
  obtain hclosed | ⟨e', hne, hclosed⟩ := h.closed_of_open he
  · rw [hclosed] at halive hdeletions hnbRef haccesses
    have hrest := haccesses.mpr nofun
    have htwo : s.ps.nbRef = 2 := hnbRef Nat.two_pos
    cases e with
    | out => constructor <;> simp_all [call, dropEnd, decrRef_first, touch]
    | inp => constructor <;> simp_all [call, dropEnd, decrRef_first, sendEof, touch]
  · rw [hclosed] at halive hdeletions hnbRef haccesses
    have hrest := haccesses.mpr (by simp)
    have hone : s.ps.nbRef = 1 := hnbRef Nat.one_lt_two
    cases e with
    | out =>
      obtain rfl : e' = .inp := by cases e' <;> simp_all
      constructor <;> simp_all [call, dropEnd, decrRef_last, touch]
    | inp =>
      obtain rfl : e' = .out := by cases e' <;> simp_all
      constructor <;> simp_all [call, dropEnd, decrRef_last, sendEof, touch]

theorem run_shared_counted {C : SharedPipe → Call → Prop} (h : machine.Run C s) : s.Counted := by
  refine h.invariant (fun s ⟨o, hs⟩ => hs ▸ counted_new o) fun s s' c hs ha _ happly => ?_
  obtain rfl := Except.ok.inj happly
  have halive : s.alive = true := by
    rw [hs.alive]
    obtain hclosed | ⟨e', -, hclosed⟩ := hs.closed_of_open ha <;> rw [hclosed] <;> rfl
  cases c with
  | read count => exact hs.used (used_read s count) halive
  | eof => exact hs.used (used_touch s .eof) halive
  | write buf => exact hs.used (used_write s buf) halive
  | close e => exact hs.close ha

theorem Counted.length_lt_iff (h : s.Counted) :
    s.closed.length < 2 ↔ ¬(.out ∈ s.closed ∧ .inp ∈ s.closed) := by
  have hnodup := h.nodup
  match hclosed : s.closed with
  | [] => simp
  | [e] => cases e <;> simp
  | x :: y :: rest =>
    rw [hclosed] at hnodup
    revert hnodup
    cases x <;> cases y <;> simp

/-- An orderly run does not close the reading end last. -/
theorem run_orderly (h : machine.Run Orderly s) : s.closed ≠ [.out, .inp] := by
  refine h.invariant (I := fun s => s.closed ≠ [.out, .inp]) (fun s ⟨o, hs⟩ => ?_)
    fun s s' c hs _ hc happly => ?_
  · subst hs
    exact nofun
  · obtain rfl := Except.ok.inj happly
    cases c with
    | read count => rwa [call, (used_read s count).closed]
    | eof => exact hs
    | write buf => rwa [call, (used_write s buf).closed]
    | close e =>
      rintro hclosed
      obtain ⟨rfl, hrest⟩ := List.cons.inj hclosed
      exact hc rfl (by rw [hrest]; exact List.mem_singleton_self _)

/-- In every run the pipe is deleted once, when both ends are closed; a deleted pipe is accessed in
those that close the reading end last, and in no other. -/
theorem run_lifetime (h : machine.Run (fun _ _ => True) s) :
    s.deletions = (if .out ∈ s.closed ∧ .inp ∈ s.closed then 1 else 0) ∧
    (s.alive = true ↔ ¬(.out ∈ s.closed ∧ .inp ∈ s.closed)) ∧
    ((∀ a ∈ s.accesses, a.2 = true) ↔ s.closed ≠ [.out, .inp]) ∧
    (machine.Run Orderly s → ∀ a ∈ s.accesses, a.2 = true) := by
  have hs := run_shared_counted h
  refine ⟨?_, ?_, hs.accesses, fun h => hs.accesses.mpr (run_orderly h)⟩
  · rw [hs.deletions]
    by_cases hboth : .out ∈ s.closed ∧ .inp ∈ s.closed
    · rw [if_pos hboth, if_neg fun hlt => hs.length_lt_iff.mp hlt hboth]
    · rw [if_neg hboth, if_pos (hs.length_lt_iff.mpr hboth)]
  · rw [hs.alive, decide_eq_true_iff, hs.length_lt_iff]

/-- A pipe that is read and closed before its writer is. -/
theorem run_lifetime_orderly : ∃ s, machine.Run Orderly s ∧ s.closed = [.inp, .out] ∧
    s.accesses.length = 8 ∧ ∀ a ∈ s.accesses, a.2 = true := by
  have h₀ : machine.Run Orderly (.new 0) := .start ⟨0, rfl⟩
  have h₁ := h₀.step (c := .read 1) (by nofun) (by nofun) rfl
  have h₂ := h₁.step (c := .close .out) (by nofun) (fun _ => by nofun) rfl
  have hopen : machine.admits (((new 0).call (.read 1)).call (.close .out)) (.close .inp) := by
    show PipeEnd.inp ∉ [PipeEnd.out]
    decide
  have h₃ := h₂.step hopen (by nofun) rfl
  have hrun : machine.Run (fun _ _ => True) _ := h₃.mono fun _ _ _ => trivial
  exact ⟨_, h₃, rfl, by decide, (run_lifetime hrun).2.2.2 h₃⟩

/-- The destructor of the reading end writes to `_out` of the pipe that it has just deleted. -/
theorem close_out_last : ∃ s, machine.Run (fun _ _ => True) s ∧ s.closed = [.out, .inp] ∧
    s.alive = false ∧ (PipeField.out, false) ∈ s.accesses := by
  have h₀ : machine.Run (fun _ _ => True) (.new 0) := .start ⟨0, rfl⟩
  have h₁ := h₀.step (c := .close .inp) (by nofun) trivial rfl
  have hopen : machine.admits ((new 0).call (.close .inp)) (.close .out) := by
    show PipeEnd.out ∉ [PipeEnd.inp]
    decide
  have h₂ := h₁.step hopen trivial rfl
  exact ⟨_, h₂, rfl, rfl, by decide⟩

end SharedPipe

end SupOS
