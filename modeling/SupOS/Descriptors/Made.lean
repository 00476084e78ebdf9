import SupOS.Descriptors.Table

/-! How many objects the system calls on descriptors make: a pipe is two, a file or a directory is one,
and nothing else makes any. -/

namespace SupOS

open Lib Libcpp

open FileDescriptor (element)

variable {v : Table} {h : Owners} {fd : FileDescriptor} {l : List FileDescriptor} {room n i : Nat}

namespace FileDescriptor

theorem drop_made : Ensures (fd.drop h) (fun _ => True) fun h' => h'.made = h.made := by
  unfold drop
  split
  · rfl
  · split
    · trivial
    · rfl
    · unfold free
      split <;> rfl
    · rfl

theorem copy_made : Ensures (fd.copy h) (fun _ => True) fun r => r.2.made = h.made := by
  unfold copy
  split
  · rfl
  · split
    · trivial
    · rfl

theorem construct_made :
    Ensures (construct copy l h) (fun _ => True) fun r => r.2.made = h.made := by
  induction l generalizing h with
  | nil => rfl
  | cons fd l ih => exact copy_made.bind fun r hr => ih.bind fun r' hr' => hr'.trans hr

theorem destroy_made : Ensures (destroy element l h) (fun _ => True) fun h' => h'.made = h.made := by
  induction l generalizing h with
  | nil => rfl
  | cons fd l ih =>
    exact drop_made.bind fun h' hh' => ih.mono (fun _ _ => trivial) fun _ hh'' => hh''.trans hh'

end FileDescriptor

open FileDescriptor

namespace Table

theorem reserve_made :
    Ensures (v.reserve element room n h) (fun _ => True) fun r => r.2.made = h.made := by
  unfold Vector.reserve
  split
  · rfl
  · refine (Ensures.trivially (strategy n)).bind fun c _ => ?_
    exact (Ensures.trivially (allocate element room c)).bind fun _ _ =>
      construct_made.bind fun r hr => hr

theorem clone_made :
    Ensures (v.clone element room h) (fun _ => True) fun r => r.2.made = h.made := by
  refine reserve_made.bind fun r hr => ?_
  exact construct_made.bind fun r' hr' => hr'.trans hr

theorem resize_made :
    Ensures (v.resize element room n h) (fun _ => True) fun r => r.2.made = h.made := by
  unfold Vector.resize
  split
  · rfl
  · split
    · exact destroy_made.bind fun _ hr => hr
    · exact reserve_made.bind fun _ hr => hr

theorem extend_made {newfd : Nat} :
    Ensures (extend room v h newfd n) (fun _ => True) fun r => r.2.made = h.made := by
  unfold extend
  split
  · exact resize_made
  · rfl

theorem assign_made : Ensures (assign v h i fd) (fun _ => True) fun r => r.2.made = h.made := by
  unfold assign
  split
  · trivial
  · exact Ensures.bind (drop_made.bind fun _ hr => copy_made.mono (fun _ _ => trivial)
      fun _ hr' => hr'.trans hr) fun _ hr => hr

theorem assignTemporary_made :
    Ensures (assignTemporary v h i fd) (fun _ => True) fun r => r.2.made = h.made :=
  assign_made.bind fun _ hr => drop_made.bind fun _ hr' => hr'.trans hr

theorem assignFrom_made {j : Nat} :
    Ensures (assignFrom v h i j) (fun _ => True) fun r => r.2.made = h.made := by
  unfold assignFrom
  split
  · trivial
  · exact assign_made

theorem sysopen_made {flags : Nat} :
    Ensures (sysopen room v h flags) (fun _ => True) fun r => r.2.2.made = h.made + 1 := by
  refine extend_made.bind fun r hr => ?_
  exact assignTemporary_made.bind fun r' hr' => hr'.trans (congrArg (· + 1) hr)

theorem sysopend_made :
    Ensures (sysopend room v h) (fun _ => True) fun r => r.2.2.made = h.made + 1 := by
  refine extend_made.bind fun r hr => ?_
  exact assignTemporary_made.bind fun r' hr' => hr'.trans (congrArg (· + 1) hr)

theorem sysclose_made : Ensures (sysclose v h i) (fun _ => True) fun r => r.2.2.made = h.made := by
  unfold sysclose
  split
  · rfl
  · split
    · rfl
    · exact assignTemporary_made.bind fun _ hr => hr

theorem sysdup_made : Ensures (sysdup room v h i) (fun _ => True) fun r => r.2.2.made = h.made := by
  unfold sysdup
  simp only
  split
  · rfl
  · refine extend_made.bind fun r hr => ?_
    exact assignFrom_made.bind fun r' hr' => hr'.trans hr

theorem sysdup2_made {newfd : Nat} :
    Ensures (sysdup2 room v h i newfd) (fun _ => True) fun r => r.2.2.made = h.made := by
  unfold sysdup2
  split
  · rfl
  · refine extend_made.bind fun r hr => ?_
    exact assignFrom_made.bind fun r' hr' => hr'.trans hr

theorem syspipe_made :
    Ensures (syspipe room v h) (fun _ => True) fun r => r.2.2.made = h.made + 2 := by
  refine extend_made.bind fun r1 h1 => ?_
  refine extend_made.bind fun r2 h2 => ?_
  refine assignTemporary_made.bind fun r3 h3 => ?_
  refine assignTemporary_made.bind fun r4 h4 => ?_
  exact h4.trans (congrArg (· + 1) (h3.trans (congrArg (· + 1) (h2.trans h1))))

end Table

namespace Descriptors

variable {s : Descriptors} {p : Nat}

theorem call_made {f : Table → Owners → Except Fault (Nat × Table × Owners)} {k : Nat}
    (hf : ∀ v, Ensures (f v s.owners) (fun _ => True) fun r => r.2.2.made = s.owners.made + k) :
    Ensures ((·.2) <$> s.call p f) (fun _ => True) fun s' => s'.owners.made = s.owners.made + k := by
  unfold call
  cases s.table p with
  | error e => trivial
  | ok v =>
    have hcall := hf v
    rw [ok_bind]
    cases hr : f v s.owners with
    | error e => trivial
    | ok r => exact hcall.of_ok hr

theorem fork_made {child : Nat} :
    Ensures (s.fork room p child) (fun _ => True) fun s' => s'.owners.made = s.owners.made := by
  refine (Ensures.trivially (s.table p)).bind fun v _ => ?_
  refine Table.clone_made.bind fun r1 h1 => ?_
  refine Table.clone_made.bind fun r2 h2 => ?_
  exact destroy_made.bind fun _ h3 => h3.trans (h2.trans h1)

theorem destroy_made :
    Ensures (s.destroy p) (fun _ => True) fun s' => s'.owners.made = s.owners.made :=
  (Ensures.trivially (s.table p)).bind fun _ _ => FileDescriptor.destroy_made.bind fun _ hr => hr

/-- The number of objects that a call makes. -/
def Call.makes : Call → Nat
  | .syspipe => 2
  | .sysopen _ | .sysopend => 1
  | _ => 0

theorem apply_made (c : Command) : Ensures (s.apply c) (fun _ => True) fun s' =>
    s'.owners.made = s.owners.made + c.call.makes := by
  obtain ⟨p, room, call⟩ := c
  cases call with
  | sysopen flags => exact call_made fun v => Table.sysopen_made
  | sysopend => exact call_made fun v => Table.sysopend_made
  | sysclose fd => exact call_made fun v => Table.sysclose_made
  | sysdup oldfd => exact call_made fun v => Table.sysdup_made
  | sysdup2 oldfd newfd => exact call_made fun v => Table.sysdup2_made
  | syspipe => exact call_made fun v => Table.syspipe_made
  | fork child => exact fork_made
  | exec => exact rfl
  | destroy => exact destroy_made

end Descriptors

end SupOS
