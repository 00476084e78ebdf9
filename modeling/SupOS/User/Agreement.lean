import SupOS.User.Results

/-! Which calls the wrappers and the kernel agree on: every one that fails, but for `clone`, and every
one whose result is below `2 ^ 31`. -/

namespace SupOS.User

namespace State

variable (s : State)

/-- The stream that a call finds behind a descriptor, if it can be used in this way. -/
def usable (fd val : Nat) : Option (Descriptor × Stream) :=
  match s.fds[fd]? with
  | none => none
  | some desc =>
    match desc.stream with
    | none => none
    | some st => if desc.hasStream && desc.check st.mask val then some (desc, st) else none

/-- Both ends of a buffer are in user memory. -/
def holds (buf count : UInt64) : Bool := s.inside buf && s.inside (buf + count)

/-- `sysopen` comes to a new descriptor. -/
def opens (path flags : UInt64) : Bool :=
  s.inside path && ((s.resolve path).isSome ||
    (flags &&& O_CREAT != 0 && (s.parent path).any (·.type = .directory)))

/-- `sysopend` comes to a new descriptor. -/
def opensDir (path : UInt64) : Bool :=
  s.inside path && (s.resolve path).any (·.type = .directory)

end State

/-- `sysseek` goes to this position. -/
def Descriptor.accepts (desc : Descriptor) (st : Stream) (origin : Int64) : Bool :=
  !(origin < 0) && (!(st.end_.toInt64 < origin) || desc.check st.mask Stream.APPENDABLE)

/-- The condition under which the wrapper of a call and the kernel agree. -/
def Call.Fits (s : State) : Call → Prop
  | .clone func stackEnd => s.inside func = true ∧ s.inside (stackEnd - 1) = true
  | .read fd buf count => s.holds buf count = true →
      ∀ p ∈ s.usable fd.toUInt32.toNat Stream.READABLE, (p.2.read count).toNat < 2 ^ 31
  | .write fd buf count => s.holds buf count = true →
      ∀ p ∈ s.usable fd.toUInt32.toNat Stream.WRITABLE,
        ∀ n, p.2.write count = .ok n → n.toNat < 2 ^ 31
  | .seek fd offset whence => ∀ p ∈ s.usable fd.toNat Stream.SEEKABLE,
      ∀ origin, p.2.origin offset whence = some origin → p.1.accepts p.2 origin = true →
        origin.toInt < 2 ^ 31
  | .open_ path flags => s.opens path flags = true → s.newfd.toNat < 2 ^ 31
  | .opend path => s.opensDir path = true → s.newfd.toNat < 2 ^ 31
  | .dup oldfd => oldfd.toNat < s.fds.length → s.newfd.toNat < 2 ^ 31
  | .dup2 oldfd newfd => oldfd.toNat < s.fds.length → newfd.toNat < 2 ^ 31
  | .brk addr => addr = 0 → s.heapStart.toNat < 2 ^ 31
  | _ => True

section Handlers

variable {s : State} {t : CType} {o o' : Outcome} {path path₁ path₂ fd buf count flags : UInt64}
  {k : Node → Outcome}

attribute [local simp] fits_error fits_stops fits_waits

@[local simp] theorem zero_fits (t : CType) : (Outcome.value 0).Fits t :=
  (fits_value t 0).mpr (by cases t <;> decide)

@[local simp] theorem pid_fits (pid : UInt16) : (Outcome.value pid.toUInt64).Fits .pid_t :=
  (fits_value _ _).mpr (by simpa [CType.bound] using pid.toNat_lt)

@[local simp] theorem fits_ite (p : Prop) [Decidable p] :
    (if p then o else o').Fits t ↔ (p → o.Fits t) ∧ (¬p → o'.Fits t) := by
  split <;> simp [*]

theorem inParent_fits (h : ∀ dir, (k dir).Fits t) : (s.inParent path k).Fits t := by
  unfold State.inParent
  cases s.parent path with
  | none => exact fits_error t _
  | some dir => simp [h dir]

theorem sysclose_fits : (s.sysclose fd).Fits t := by
  unfold State.sysclose
  cases s.fds[fd.toNat]? <;> simp

theorem syspipe_fits : (s.syspipe fd).Fits t := by
  simp [State.syspipe]

theorem sysreadd_fits : (s.sysreadd fd buf).Fits t := by
  unfold State.sysreadd
  cases s.fds[fd.toNat]? <;> simp

theorem syschdir_fits : (s.syschdir path).Fits t := by
  unfold State.syschdir
  cases s.resolve path <;> simp

theorem syswait_fits : (s.syswait fd buf).Fits .pid_t := by
  have hany : s.waitAny.Fits .pid_t := by
    unfold State.waitAny
    cases s.sons.find? (·.terminated) <;> simp
  have hfor (pid : UInt16) : (s.waitFor pid).Fits .pid_t := by
    unfold State.waitFor
    cases s.sons.find? (·.pid = pid) <;> simp
  simp [State.syswait, hany, hfor]

theorem sysrename_fits : (s.sysrename path₁ path₂).Fits t := by
  unfold State.sysrename
  split
  · exact fits_error t _
  refine inParent_fits fun _ => inParent_fits fun dir₂ => ?_
  cases s.entry path₁ <;> simp

theorem sysmkdir_fits : (s.sysmkdir path).Fits t := by
  unfold State.sysmkdir
  split
  · exact fits_error t _
  refine inParent_fits fun dir => ?_
  simp

theorem sysrmdir_fits : (s.sysrmdir path).Fits t := by
  unfold State.sysrmdir
  split
  · exact fits_error t _
  refine inParent_fits fun dir => ?_
  cases s.entry path <;> simp

theorem syslink_fits : (s.syslink path₁ path₂).Fits t := by
  unfold State.syslink
  split
  · exact fits_error t _
  refine inParent_fits fun dir => ?_
  cases s.resolve path₁ <;> simp

theorem sysunlink_fits : (s.sysunlink path).Fits t := by
  unfold State.sysunlink
  split
  · exact fits_error t _
  refine inParent_fits fun dir => ?_
  cases s.entry path <;> simp

end Handlers

/-! ### The calls whose results can be large -/

section Large

variable {s : State} {t : CType}

attribute [local simp] fits_error fits_stops fits_waits fits_value zero_fits fits_ite

theorem sysopen_fits_iff (path flags : UInt64) : (s.sysopen path flags).Fits .int ↔
    (s.opens path flags = true → s.newfd.toNat < 2 ^ 31) := by
  unfold State.sysopen State.opens
  cases s.resolve path <;> cases s.parent path <;> simp [CType.bound]

theorem sysopend_fits_iff (path : UInt64) : (s.sysopend path).Fits .int ↔
    (s.opensDir path = true → s.newfd.toNat < 2 ^ 31) := by
  unfold State.sysopend State.opensDir
  cases s.resolve path <;> simp [CType.bound]

theorem sysdup_fits_iff (oldfd : UInt64) : (s.sysdup oldfd).Fits .int ↔
    (oldfd.toNat < s.fds.length → s.newfd.toNat < 2 ^ 31) := by
  simp [State.sysdup, CType.bound]

theorem sysdup2_fits_iff (oldfd newfd : UInt64) : (s.sysdup2 oldfd newfd).Fits .int ↔
    (oldfd.toNat < s.fds.length → newfd.toNat < 2 ^ 31) := by
  simp [State.sysdup2, CType.bound]

theorem sysbrk_fits_iff (addr : UInt64) : (s.sysbrk addr).Fits .int ↔
    (addr = 0 → s.heapStart.toNat < 2 ^ 31) := by
  unfold State.sysbrk
  by_cases haddr : addr = 0 <;> simp [haddr, CType.bound]

theorem sysread_fits_iff (fd buf count : UInt64) : (s.sysread fd buf count).Fits .size_t ↔
    (s.holds buf count = true → ∀ p ∈ s.usable fd.toUInt32.toNat Stream.READABLE,
      (p.2.read count).toNat < 2 ^ 31) := by
  have hblock (o : Outcome) :
      (if o = .error .EBLOCK then Outcome.waits else o).Fits .size_t ↔ o.Fits .size_t := by
    split
    · simp [*]
    · rfl
  unfold State.sysread
  rw [hblock]
  unfold State.nbread State.usable State.holds
  cases s.fds[fd.toUInt32.toNat]? with
  | none => simp
  | some desc =>
    cases hst : desc.stream with
    | none => simp [hst]
    | some st =>
      have hzero : st.read count = 0 → (st.read count).toNat < 2 ^ 31 := by
        intro h
        rw [h]
        decide
      simp [hst, CType.bound]
      grind

theorem ofExcept_fits_iff (r : Except Error UInt64) :
    (Outcome.ofExcept r).Fits .size_t ↔ ∀ n, r = .ok n → n.toNat < 2 ^ 31 := by
  cases r <;> simp [Outcome.ofExcept, CType.bound]

theorem syswrite_fits_iff (fd buf count : UInt64) : (s.syswrite fd buf count).Fits .size_t ↔
    (s.holds buf count = true → ∀ p ∈ s.usable fd.toUInt32.toNat Stream.WRITABLE,
      ∀ n, p.2.write count = .ok n → n.toNat < 2 ^ 31) := by
  unfold State.syswrite State.usable State.holds
  cases s.fds[fd.toUInt32.toNat]? with
  | none => simp
  | some desc =>
    cases hst : desc.stream with
    | none => simp [hst]
    | some st =>
      simp [hst, ofExcept_fits_iff]

theorem sysseek_fits_iff (fd offset whence : UInt64) : (s.sysseek fd offset whence).Fits .off_t ↔
    ∀ p ∈ s.usable fd.toNat Stream.SEEKABLE, ∀ origin, p.2.origin offset whence = some origin →
      p.1.accepts p.2 origin = true → origin.toInt < 2 ^ 31 := by
  unfold State.sysseek State.usable
  cases s.fds[fd.toNat]? with
  | none => simp
  | some desc =>
    cases hst : desc.stream with
    | none => simp [hst]
    | some st =>
      cases ho : st.origin offset whence with
      | none => simp [hst, ho]
      | some origin =>
        have hnat : 0 ≤ origin → (origin.toUInt64.toNat < 2 ^ 31 ↔ origin.toInt < 2 ^ 31) := by
          intro h
          have hcast := Int64.cast_toNatClampNeg origin h
          rw [Int64.toNat_toUInt64_of_le h]
          omega
        simp [hst, ho, Descriptor.accepts, CType.bound]
        grind

end Large

/-- The tid of `clone` is passed on, and its error never is. -/
theorem clone_agrees_iff (s : State) (func stackEnd : UInt64) :
    (Call.clone func stackEnd).Agrees s ↔ s.inside func = true ∧ s.inside (stackEnd - 1) = true := by
  have houtcome : (Call.clone func stackEnd).Agrees s ↔
      (Width.u16.rax (s.clone func stackEnd)).map CType.pid_t.returned =
        (s.clone func stackEnd).expected .pid_t := Iff.rfl
  rw [houtcome]
  unfold State.clone
  cases hfunc : s.inside func with
  | false => exact iff_of_false (u16_error_differs .EFAULT) (by simp)
  | true =>
    cases hstack : s.inside (stackEnd - 1) with
    | false => exact iff_of_false (u16_error_differs .EFAULT) (by simp)
    | true => exact iff_of_true (u16_value_agrees s.freshTid) ⟨rfl, rfl⟩

/-- A wrapper returns the result of the kernel, or -1 with the error number, exactly when the call
fits. -/
theorem agrees_iff (s : State) (c : Call) : c.Agrees s ↔ c.Fits s := by
  have hwide (hc : (handlers c.number).map Handler.width = some .u64) :
      c.Agrees s ↔ (c.outcome s).Fits c.type := by
    obtain ⟨h, hh, hw⟩ := Option.map_eq_some_iff.mp hc
    unfold Call.Agrees Call.returned Call.rax
    simp only [hh, hw]
    exact u64_agrees_iff c.type (c.outcome s)
  cases c with
  | fork => exact iff_of_true (u16_value_agrees s.freshTid) trivial
  | clone func stackEnd => exact clone_agrees_iff s func stackEnd
  | read fd buf count => exact (hwide rfl).trans (sysread_fits_iff fd buf count)
  | write fd buf count => exact (hwide rfl).trans (syswrite_fits_iff fd buf count)
  | open_ path flags => exact (hwide rfl).trans (sysopen_fits_iff path flags)
  | close fd => exact (hwide rfl).trans (iff_of_true sysclose_fits trivial)
  | seek fd offset whence => exact (hwide rfl).trans (sysseek_fits_iff fd offset whence)
  | pipe fd2 => exact (hwide rfl).trans (iff_of_true syspipe_fits trivial)
  | dup oldfd => exact (hwide rfl).trans (sysdup_fits_iff oldfd)
  | dup2 oldfd newfd => exact (hwide rfl).trans (sysdup2_fits_iff oldfd newfd)
  | waitpid p status => exact (hwide rfl).trans (iff_of_true syswait_fits trivial)
  | wait status => exact (hwide rfl).trans (iff_of_true syswait_fits trivial)
  | opend path => exact (hwide rfl).trans (sysopend_fits_iff path)
  | readd fd buf => exact (hwide rfl).trans (iff_of_true sysreadd_fits trivial)
  | chdir path => exact (hwide rfl).trans (iff_of_true syschdir_fits trivial)
  | rename oldpath newpath => exact (hwide rfl).trans (iff_of_true sysrename_fits trivial)
  | mkdir path => exact (hwide rfl).trans (iff_of_true sysmkdir_fits trivial)
  | rmdir path => exact (hwide rfl).trans (iff_of_true sysrmdir_fits trivial)
  | link path₁ path₂ => exact (hwide rfl).trans (iff_of_true syslink_fits trivial)
  | unlink path => exact (hwide rfl).trans (iff_of_true sysunlink_fits trivial)
  | brk addr => exact (hwide rfl).trans (sysbrk_fits_iff addr)

/-- A process with a file of 3 GiB, which it can read, and nothing mapped. -/
def large : State where
  inside _ := false
  fds := [⟨⟨some 0, .STREAM, FileDescriptor.fullMask⟩, some
    ⟨Stream.READABLE ||| Stream.SEEKABLE, id, false, .ok, 0, 3 * 2 ^ 30⟩⟩]
  resolve _ := none
  parent _ := none
  entry _ := none
  freshTid := 2
  sons := []
  processes _ := false
  heapStart := 2 ^ 32

/-- A `clone` that fails is taken for one that has made the thread 65531. -/
theorem not_agrees : ¬∀ s : State, ∀ c : Call, c.Agrees s := by
  intro h
  have hclone : ¬(Call.clone 0x200000 0x300000).Agrees large := by decide +kernel
  exact hclone (h large (.clone 0x200000 0x300000))

example : (Call.clone 0x200000 0x300000).returned large = some ⟨65531, none⟩ := by decide +kernel

example : ((Call.seek 0 (2 ^ 31 + 5) SEEK_SET).returned large).map (·.result) = some (-1) := by
  decide +kernel

example : (Call.brk 0).returned large = some ⟨0, none⟩ := by decide +kernel

end SupOS.User
