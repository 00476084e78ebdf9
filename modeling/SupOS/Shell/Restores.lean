import SupOS.Shell.Commands

/-! The descriptors of the shell: after a command they are those from before it, and what it has opened is
closed. -/

namespace SupOS

open Lib Libcpp

open FileDescriptor (element)

/-! ### What the system calls do to the slots of a table -/

namespace Table

variable {v : Table} {h : Owners} {fd : FileDescriptor} {room n i j : Nat}

theorem copy_same : Ensures (fd.copy h) (fun _ => True) fun r => r.1 = fd := by
  unfold FileDescriptor.copy
  split
  · rfl
  · split
    · trivial
    · rfl

theorem construct_same {l : List FileDescriptor} :
    Ensures (construct FileDescriptor.copy l h) (fun _ => True) fun r => r.1 = l := by
  induction l generalizing h with
  | nil => rfl
  | cons fd l ih =>
    refine copy_same.bind fun r hr => ih.bind fun r' hr' => ?_
    change r.1 :: r'.1 = fd :: l
    rw [hr, hr']

theorem reserve_same (hs : Stored v) (hroom : room < kernelSpace) (hn : v.size ≤ n) :
    Ensures (v.reserve element room n h) (fun _ => True) fun r => r.1.data = v.data ∧ Stored r.1 ∧
      n ≤ r.1.capacity := by
  refine .ite (fun hfits => ⟨rfl, hs, hfits.2⟩) fun _ => ?_
  refine ((strategy_spec n).mono (fun _ _ => trivial) fun c hc => hc).bind fun c hc => ?_
  refine ((allocate_spec hroom hc.2).mono (fun _ _ => trivial) fun _ h => h).bind fun _ hle => ?_
  refine construct_same.bind fun r hr => ⟨hr, ⟨?_, hle⟩, Nat.le_of_lt hc.1⟩
  change r.1.length ≤ c
  rw [hr]
  exact Nat.le_trans hn (Nat.le_of_lt hc.1)

theorem clone_same (hroom : room < kernelSpace) :
    Ensures (v.clone element room h) (fun _ => True) fun r => r.1.data = v.data ∧ Stored r.1 := by
  have hempty : Stored (Vector.empty : Table) := ⟨Nat.le_refl 0, Nat.zero_le _⟩
  refine (reserve_same hempty hroom (Nat.zero_le v.size)).bind fun r ⟨_, hstored, hcap⟩ => ?_
  refine construct_same.bind fun r' hr' => ⟨hr', ?_, hstored.capacity⟩
  change r'.1.length ≤ r.1.capacity
  rw [hr']
  exact hcap

/-- A table with a slot more. -/
theorem extend_same (hs : Stored v) (hroom : room < kernelSpace) :
    Ensures (extend room v h v.size (v.size + 1)) (fun _ => True) fun r =>
      r.1.data = v.data ++ [.empty] ∧ Stored r.1 := by
  unfold extend Vector.resize
  rw [if_pos (Nat.le_refl _), if_neg (by omega), if_neg (by omega)]
  refine (reserve_same hs hroom (Nat.le_succ _)).bind fun ⟨w, h'⟩ ⟨hdata, hstored, hcap⟩ => ?_
  have hone : v.size + 1 - w.size = 1 := by
    change w.data = v.data at hdata
    rw [Libcpp.Vector.size, Libcpp.Vector.size, hdata]
    omega
  dsimp only
  rw [hone, hdata]
  refine ⟨rfl, ?_, hstored.capacity⟩
  change (v.data ++ [_]).length ≤ w.capacity
  rw [List.length_append]
  exact hcap

theorem assign_same : Ensures (assign v h i fd) (fun _ => True) fun r =>
    r.1 = ⟨v.data.set i fd, v.capacity⟩ := by
  unfold assign
  split
  · trivial
  · rename_i old _
    have hassign : Ensures (fd.assign old h) (fun _ => True) fun r => r.1 = fd :=
      (Ensures.trivially _).bind fun _ _ => copy_same
    refine hassign.bind fun r hr => ?_
    change (⟨v.data.set i r.1, v.capacity⟩ : Table) = _
    rw [hr]

theorem assignTemporary_same : Ensures (assignTemporary v h i fd) (fun _ => True) fun r =>
    r.1 = ⟨v.data.set i fd, v.capacity⟩ :=
  assign_same.bind fun _ hr => (Ensures.trivially _).bind fun _ _ => hr

theorem stored_set (hs : Stored v) : Stored ⟨v.data.set i fd, v.capacity⟩ :=
  ⟨(set_size v i fd).trans_le hs.size, hs.capacity⟩

/-- A table with a slot more, which holds what is said. -/
structure Added (v v' : Table) (d : Option FileDescriptor) : Prop where
  stored : Stored v'
  size : v'.size = v.size + 1
  slot : v'.data[v.size]? = d
  same : ∀ i < v.size, v'.data[i]? = v.data[i]?

theorem added {v' : Table} (hs : Stored v') (hdata : v'.data = v.data ++ [fd]) :
    Added v v' (some fd) where
  stored := hs
  size := by rw [Libcpp.Vector.size, hdata, List.length_append]; rfl
  slot := by
    rw [hdata]
    exact List.getElem?_concat_length
  same i hi := by rw [hdata, List.getElem?_append_left hi]

/-- A slot of a table with one more that has been filled. -/
theorem added_set {w : Table} (hw : w.data = v.data ++ [.empty]) (hs : Stored w) :
    Added v ⟨w.data.set v.size fd, w.capacity⟩ (some fd) := by
  refine added (stored_set hs) ?_
  change w.data.set v.data.length fd = _
  rw [hw, List.set_append_right _ _ (Nat.le_refl _), Nat.sub_self]
  rfl

theorem sysdup_same (hs : Stored v) (hroom : room < kernelSpace) (hi : i < v.size) :
    Ensures (sysdup room v h i) (fun _ => True) fun r =>
      r.1 = v.size ∧ Added v r.2.1 v.data[i]? := by
  unfold sysdup
  simp only [u32_size hs, u32_size_succ hs]
  rw [if_neg (by omega)]
  refine (extend_same hs hroom).bind fun r ⟨hdata, hstored⟩ => ?_
  have hslot : r.1.data[i]? = some v.data[i] := by
    rw [hdata, List.getElem?_append_left hi, List.getElem?_eq_getElem hi]
  have hassign : Ensures (assignFrom r.1 r.2 v.size i) (fun _ => True) fun r' =>
      r'.1 = ⟨r.1.data.set v.size v.data[i], r.1.capacity⟩ := by
    unfold assignFrom
    rw [hslot]
    exact assign_same
  refine hassign.bind fun r' hr' => ⟨rfl, ?_⟩
  change Added v r'.1 _
  rw [hr', List.getElem?_eq_getElem hi]
  exact added_set hdata hstored

theorem sysopen_same {flags : Nat} (hs : Stored v) (hroom : room < kernelSpace) :
    Ensures (sysopen room v h flags) (fun _ => True) fun r =>
      r.1 = v.size ∧ ∃ d, Added v r.2.1 d := by
  unfold sysopen
  simp only [u32_size hs, u32_size_succ hs]
  refine (extend_same hs hroom).bind fun r ⟨hdata, hstored⟩ => ?_
  refine assignTemporary_same.bind fun r' hr' =>
    ⟨rfl, (r'.1.setMask v.size (openMask flags)).data[v.size]?, ?_⟩
  have hadded : Added v _ (some (FileDescriptor.make r.2 .STREAM).1) := added_set hdata hstored
  rw [← hr'] at hadded
  exact {
    stored := ⟨(List.length_modify ..).trans_le hadded.stored.size, hadded.stored.capacity⟩
    size := (List.length_modify ..).trans hadded.size
    slot := rfl
    same := fun i hi => by
      change (r'.1.data.modify _ _)[i]? = _
      rw [List.getElem?_modify_ne _ _ (show v.size ≠ i by omega)]
      exact hadded.same i hi }

/-- A table of the same size, where a slot holds what is said. -/
structure Changed (v v' : Table) (j : Nat) (d : Option FileDescriptor) : Prop where
  stored : Stored v'
  size : v'.size = v.size
  slot : v'.data[j]? = d
  same : ∀ i ≠ j, v'.data[i]? = v.data[i]?

theorem changed_set (hs : Stored v) (hj : j < v.size) :
    Changed v ⟨v.data.set j fd, v.capacity⟩ j (some fd) where
  stored := stored_set hs
  size := set_size v j fd
  slot := List.getElem?_set_self hj
  same _ hi := List.getElem?_set_ne (Ne.symm hi)

theorem sysdup2_same (hs : Stored v) (hi : i < v.size) (hj : j < v.size) :
    Ensures (sysdup2 room v h i j) (fun _ => True) fun r => Changed v r.2.1 j v.data[i]? := by
  unfold sysdup2 extend assignFrom
  rw [if_neg (by omega), if_neg (by omega), ok_bind]
  dsimp only
  rw [List.getElem?_eq_getElem hi]
  refine assign_same.bind fun r hr => ?_
  change Changed v r.1 j _
  rw [hr]
  exact changed_set hs hj

theorem sysdup2_out (hi : v.size ≤ i) : sysdup2 room v h i j = .ok (errno EBADF, v, h) := if_pos hi

theorem sysclose_same (hs : Stored v) (hi : i < v.size) :
    Ensures (sysclose v h i) (fun _ => True) fun r =>
      ∃ d, Changed v r.2.1 i (some d) ∧ d.type = .EMPTY := by
  unfold sysclose
  rw [List.getElem?_eq_getElem hi]
  refine .ite (fun hempty => ?_) fun _ => ?_
  · exact ⟨v.data[i], ⟨hs, rfl, List.getElem?_eq_getElem hi, fun _ _ => rfl⟩, hempty⟩
  · refine assignTemporary_same.bind fun r hr => ⟨.empty, ?_, rfl⟩
    change Changed v r.1 i _
    rw [hr]
    exact changed_set hs hi

theorem sysclose_out (hi : v.size ≤ i) : sysclose v h i = .ok (errno EBADF, v, h) := by
  rw [sysclose, List.getElem?_eq_none hi]

theorem syspipe_same (hs : Stored v) (hroom : room < kernelSpace) :
    Ensures (syspipe room v h) (fun _ => True) fun r => r.1 = 0 ∧ Stored r.2.1 ∧
      r.2.1.size = v.size + 2 ∧ ∀ i < v.size, r.2.1.data[i]? = v.data[i]? := by
  have hsmall {w : Table} (hw : Stored w) : i32 (u32 w.size) = w.size ∧
      i32 (w.size + 1) = w.size + 1 := by
    have hcap := hw.capacity
    have hsize := hw.size
    exact ⟨by rw [u32_size hw, i32_of_lt (by omega)], i32_of_lt (by omega)⟩
  unfold syspipe
  simp only [(hsmall hs).1, (hsmall hs).2]
  refine (extend_same hs hroom).bind fun r ⟨hdata, hstored⟩ => ?_
  simp only [(hsmall hstored).1, (hsmall hstored).2]
  refine (extend_same hstored hroom).bind fun r' ⟨hdata', hstored'⟩ => ?_
  refine assignTemporary_same.bind fun r₂ h₂ => assignTemporary_same.bind fun r₃ h₃ => ⟨rfl, ?_, ?_, ?_⟩
  · change Stored r₃.1
    rw [h₃, h₂]
    exact stored_set (stored_set hstored')
  · change r₃.1.data.length = _
    rw [h₃, List.length_set, h₂, List.length_set, hdata', List.length_append, hdata,
      List.length_append]
    rfl
  · intro i hi
    have hlen : r.1.size = v.size + 1 := by
      rw [Libcpp.Vector.size, hdata, List.length_append]
      rfl
    change r₃.1.data[i]? = _
    rw [h₃, List.getElem?_set_ne (by omega), h₂, List.getElem?_set_ne (by omega), hdata',
      List.getElem?_append_left (by change i < r.1.size; omega), hdata,
      List.getElem?_append_left hi]

end Table

namespace Shell

/-- `after` has the slots of `before` except those below `base`, and what it has more is empty. -/
structure Frame (base : Nat) (before after : Table) : Prop where
  stored : Stored after
  size : before.size ≤ after.size
  same : ∀ i, base ≤ i → i < before.size → after.data[i]? = before.data[i]?
  closed : ∀ i fd, before.size ≤ i → after.data[i]? = some fd → fd.type = .EMPTY

namespace Frame

variable {base : Nat} {v v' v'' : Table}

theorem refl (hs : Stored v) : Frame base v v :=
  ⟨hs, Nat.le_refl _, fun _ _ _ => rfl, fun i fd hi h => by
    rw [List.getElem?_eq_none hi] at h
    cases h⟩

theorem trans (h : Frame base v v') (h' : Frame base v' v'') (hbase : base ≤ v.size) :
    Frame base v v'' where
  stored := h'.stored
  size := Nat.le_trans h.size h'.size
  same i hi hlt := (h'.same i hi (Nat.lt_of_lt_of_le hlt h.size)).trans (h.same i hi hlt)
  closed i fd hi hfd := by
    by_cases hlt : i < v'.size
    · rw [h'.same i (Nat.le_trans hbase hi) hlt] at hfd
      exact h.closed i fd hi hfd
    · exact h'.closed i fd (Nat.le_of_not_lt hlt) hfd

end Frame

theorem register_result {n : Nat} (hn : n < 2 ^ 31) : register (result n) = n := by
  have hnat : n.toUInt32.toNat = n := Nat.mod_eq_of_lt (by omega)
  have hint : n.toUInt32.toInt32.toInt = n := by
    have := BitVec.toInt_eq_toNat_of_lt (x := n.toUInt32.toBitVec) (by
      change 2 * n.toUInt32.toNat < 2 ^ 32
      omega)
    exact this.trans (congrArg _ hnat)
  have hpos : ¬n.toUInt32.toInt32 < 0 := by
    rw [Int32.lt_iff_toInt_lt, hint]
    change ¬(n : Int) < 0
    omega
  rw [result, if_neg hpos]
  exact hnat

namespace Process

variable {world : World} {p : Process} {oldfd newfd fd : Int32}

theorem call_spec {f : Nat → Table → Owners → Except Fault (Nat × Table × Owners)}
    {Q : Nat → Table → Prop}
    (hf : ∀ h, Ensures (f (p.meets world).room p.fds h) (fun _ => True) fun r => Q r.1 r.2.1) :
    Ensures (p.call world f) (fun _ => True) fun r => ∃ rax, r.1 = result rax ∧ Q rax r.2.fds :=
  (hf _).bind fun r hr => ⟨r.1, rfl, hr⟩

theorem size_lt (hs : Stored p.fds) : p.fds.size < 2 ^ 31 := by
  have := hs.size
  have := hs.capacity
  omega

/-! A call and what follows it. -/

section Rules

variable {β : Type} {k : Int32 × Process → Except Fault β} {R : β → Prop} (hs : Stored p.fds)
  (hroom : ∀ self calls, (world self calls).room < kernelSpace)

include hs hroom in
theorem dup_rule (hold : register oldfd < p.fds.size)
    (hk : ∀ fd p', register fd = p.fds.size →
      Table.Added p.fds p'.fds p.fds.data[register oldfd]? →
        Ensures (k (fd, p')) (fun _ => True) R) :
    Ensures (p.dup world oldfd >>= k) (fun _ => True) R := by
  refine (call_spec (Q := fun rax v => rax = p.fds.size ∧ Table.Added p.fds v _)
    fun h => Table.sysdup_same hs (hroom p.self p.calls) hold).bind ?_
  rintro ⟨fd, p'⟩ ⟨rax, rfl, rfl, hadded⟩
  exact hk _ p' (register_result (size_lt hs)) hadded

include hs hroom in
theorem open_rule {file : String} {flags : Nat}
    (hk : ∀ fd p' d, register fd = p.fds.size → Table.Added p.fds p'.fds d →
      Ensures (k (fd, p')) (fun _ => True) R)
    (hfails : ∀ p', p'.fds = p.fds → Ensures (k (-1, p')) (fun _ => True) R) :
    Ensures (p.open world file flags >>= k) (fun _ => True) R := by
  unfold Process.open
  split
  · refine (call_spec (Q := fun rax v => rax = p.fds.size ∧ ∃ d, Table.Added p.fds v d)
      fun h => Table.sysopen_same hs (hroom p.self p.calls)).bind ?_
    rintro ⟨fd, p'⟩ ⟨rax, rfl, rfl, d, hadded⟩
    exact hk _ p' d (register_result (size_lt hs)) hadded
  · exact hfails p.next rfl

include hs in
theorem dup2_rule (hold : register oldfd < p.fds.size) (hnew : register newfd < p.fds.size)
    (hk : ∀ res p', Table.Changed p.fds p'.fds (register newfd) p.fds.data[register oldfd]? →
      Ensures (k (res, p')) (fun _ => True) R) :
    Ensures (p.dup2 world oldfd newfd >>= k) (fun _ => True) R := by
  refine (call_spec (Q := fun _ v => Table.Changed p.fds v _ _)
    fun _ => Table.sysdup2_same hs hold hnew).bind ?_
  rintro ⟨res, p'⟩ ⟨_, _, hchanged⟩
  exact hk res p' hchanged

theorem dup2_out_rule (hold : p.fds.size ≤ register oldfd)
    (hk : ∀ res p', p'.fds = p.fds → Ensures (k (res, p')) (fun _ => True) R) :
    Ensures (p.dup2 world oldfd newfd >>= k) (fun _ => True) R := by
  refine Ensures.bind (call_spec (Q := fun _ v => v = p.fds) fun h => ?_) ?_
  · rw [Table.sysdup2_out hold]
    rfl
  · rintro ⟨res, p'⟩ ⟨_, _, hsame⟩
    exact hk res p' hsame

include hs in
theorem close_rule (hfd : register fd < p.fds.size)
    (hk : ∀ res p' d, Table.Changed p.fds p'.fds (register fd) (some d) → d.type = .EMPTY →
      Ensures (k (res, p')) (fun _ => True) R) :
    Ensures (p.close world fd >>= k) (fun _ => True) R := by
  refine (call_spec (Q := fun _ v => ∃ d, Table.Changed p.fds v _ (some d) ∧ d.type = .EMPTY)
    fun _ => Table.sysclose_same hs hfd).bind ?_
  rintro ⟨res, p'⟩ ⟨_, _, d, hchanged, hd⟩
  exact hk res p' d hchanged hd

theorem close_out_rule (hfd : p.fds.size ≤ register fd)
    (hk : ∀ res p', p'.fds = p.fds → Ensures (k (res, p')) (fun _ => True) R) :
    Ensures (p.close world fd >>= k) (fun _ => True) R := by
  refine Ensures.bind (call_spec (Q := fun _ v => v = p.fds) fun h => ?_) ?_
  · rw [Table.sysclose_out hfd]
    rfl
  · rintro ⟨res, p'⟩ ⟨_, _, hsame⟩
    exact hk res p' hsame

include hs hroom in
theorem pipe_rule {β : Type} {k : Int32 × Int32 × Int32 × Process → Except Fault β} {R : β → Prop}
    (hk : ∀ pipeout pipein p', register pipeout = p.fds.size → register pipein = p.fds.size + 1 →
      Stored p'.fds → p'.fds.size = p.fds.size + 2 →
      (∀ i < p.fds.size, p'.fds.data[i]? = p.fds.data[i]?) →
        Ensures (k (0, pipeout, pipein, p')) (fun _ => True) R) :
    Ensures (p.pipe world >>= k) (fun _ => True) R := by
  have hcap := Nat.le_trans hs.size hs.capacity
  have hregister {n : Nat} (hn : n < 2 ^ 32) : register n.toUInt32.toInt32 = n :=
    Nat.mod_eq_of_lt hn
  unfold Process.pipe
  rw [bind_assoc]
  refine (call_spec (Q := fun rax v => rax = 0 ∧ Stored v ∧ v.size = p.fds.size + 2 ∧
    ∀ i < p.fds.size, v.data[i]? = p.fds.data[i]?)
    fun h => Table.syspipe_same hs (hroom p.self p.calls)).bind ?_
  rintro ⟨res, p'⟩ ⟨rax, rfl, rfl, hstored, hsize, hsame⟩
  exact hk _ _ p' (hregister (by omega)) (hregister (by omega)) hstored hsize hsame

end Rules

end Process

theorem slot_none {v : Table} {i : Nat} (h : v.size ≤ i) : v.data[i]? = none :=
  List.getElem?_eq_none h

section Commands

variable {world : World} (hroom : ∀ self calls, (world self calls).room < kernelSpace)
include hroom

/-- A redirection changes the input or the output only. -/
theorem redirect_frame {p : Process} (hs : Stored p.fds) (hsize : 2 ≤ p.fds.size) {file : String}
    {flags : Nat} {target : Int32} (htarget : register target < 2) :
    Ensures (p.redirect world file flags target) (fun _ => True) fun p' =>
      Frame 2 p.fds p'.fds := by
  refine Process.open_rule hs hroom (fun fd q d hfd hadded => ?_) fun q hq => ?_
  · have hq := hadded.size
    refine Process.dup2_rule hadded.stored (by omega) (by omega) fun _ q' hdup2 => ?_
    have hq' := hdup2.size
    refine Process.close_rule hdup2.stored (by omega) fun _ q'' d' hclose hd' => ?_
    have hq'' := hclose.size
    refine ⟨hclose.stored, by omega, fun i hi hlt => ?_, fun i x hi hx => ?_⟩
    · rw [hclose.same i (by omega), hdup2.same i (by omega), hadded.same i hlt]
    · by_cases hin : i = register fd
      · rw [hin, hclose.slot] at hx
        rwa [← Option.some.inj hx]
      · rw [slot_none (by omega)] at hx
        cases hx
  · have hout : p.fds.size ≤ register (-1) := by
      have := Process.size_lt hs
      change p.fds.size ≤ 2 ^ 32 - 1
      omega
    refine Process.dup2_out_rule (hq ▸ hout) fun _ q' hq' => ?_
    refine Process.close_out_rule (hq' ▸ hq ▸ hout) fun _ q'' hq'' => ?_
    change Frame 2 p.fds q''.fds
    rw [hq'', hq', hq]
    exact .refl hs

theorem doRedirections_frame {p : Process} (hs : Stored p.fds) (hsize : 2 ≤ p.fds.size)
    {redirections : List Redirection} :
    Ensures (Process.doRedirections world redirections p) (fun _ => True) fun p' =>
      Frame 2 p.fds p'.fds := by
  induction redirections generalizing p with
  | nil => exact .refl hs
  | cons r rs ih =>
    have hone : Ensures (p.doRedirection world r) (fun _ => True) fun p' => Frame 2 p.fds p'.fds := by
      cases r with
      | Input file => exact redirect_frame hroom hs hsize (by decide)
      | Output file => exact redirect_frame hroom hs hsize (by decide)
      | OutputAppend file => exact redirect_frame hroom hs hsize (by decide)
    refine hone.bind fun p' hp' => (ih hp'.stored (Nat.le_trans hsize hp'.size)).mono (fun _ h => h) ?_
    exact fun p'' hp'' => hp'.trans hp'' hsize

/-- An `Atomic` puts back the input and the output that it has saved. -/
theorem atomic_frame {p : Process} (hs : Stored p.fds) (hsize : 2 ≤ p.fds.size)
    {cmdline : List String} {redirections : List Redirection} :
    Ensures (Atomic.run world cmdline redirections p) (fun _ => True) fun r =>
      Frame 0 p.fds r.2.fds := by
  unfold Atomic.run
  split
  · exact .refl hs
  refine .ite (fun _ => .refl hs) fun _ => ?_
  refine Process.dup_rule hs hroom (show 0 < p.fds.size by omega) fun oldstdin p₁ hin h₁ => ?_
  have hsize₁ := h₁.size
  refine Process.dup_rule h₁.stored hroom (show 1 < p₁.fds.size by omega)
    fun oldstdout p₂ hout h₂ => ?_
  have hsize₂ := h₂.size
  refine (doRedirections_frame hroom h₂.stored (by omega)).bind fun p₃ h₃ => ?_
  have hsize₃ := h₃.size
  -- the fork and the wait leave the descriptors
  refine Process.dup2_rule (p := (Atomic.await world _ p₃).2) h₃.stored
    (show register oldstdin < p₃.fds.size by omega) (show 0 < p₃.fds.size by omega)
    fun _ p₄ h₄ => ?_
  have hsize₄ : p₄.fds.size = p₃.fds.size := h₄.size
  refine Process.dup2_rule h₄.stored (by omega) (show 1 < p₄.fds.size by omega) fun _ p₅ h₅ => ?_
  have hsize₅ := h₅.size
  refine Process.close_rule h₅.stored (by omega) fun _ p₆ d₆ h₆ hd₆ => ?_
  have hsize₆ := h₆.size
  refine Process.close_rule h₆.stored (by omega) fun _ p₇ d₇ h₇ hd₇ => ?_
  have hsize₇ := h₇.size
  have hzero : p₄.fds.data[0]? = p.fds.data[0]? := by
    rw [show p₄.fds.data[0]? = p₃.fds.data[register oldstdin]? from h₄.slot,
      h₃.same _ (by omega) (by omega), h₂.same _ (by omega), hin]
    exact h₁.slot
  have hone : p₅.fds.data[1]? = p.fds.data[1]? := by
    rw [show p₅.fds.data[1]? = p₄.fds.data[register oldstdout]? from h₅.slot,
      h₄.same _ (show register oldstdout ≠ 0 by omega)]
    change p₃.fds.data[register oldstdout]? = _
    rw [h₃.same _ (by omega) (by omega), hout]
    exact h₂.slot.trans (h₁.same 1 (by omega))
  refine ⟨h₇.stored, show _ ≤ p₇.fds.size by omega, fun i _ hlt => ?_, fun i x hi hx => ?_⟩
  · change p₇.fds.data[i]? = _
    rw [h₇.same i (by omega), h₆.same i (by omega)]
    by_cases hi₁ : i = 1
    · rw [hi₁, hone]
    · rw [h₅.same i hi₁]
      by_cases hi₀ : i = 0
      · rw [hi₀, hzero]
      · rw [h₄.same i hi₀]
        change p₃.fds.data[i]? = _
        rw [h₃.same i (by omega) (by omega), h₂.same i (by omega), h₁.same i hlt]
  · change p₇.fds.data[i]? = some x at hx
    by_cases hiout : i = register oldstdout
    · rw [hiout, h₇.slot] at hx
      rwa [← Option.some.inj hx]
    · rw [h₇.same i hiout] at hx
      by_cases hiin : i = register oldstdin
      · rw [hiin, h₆.slot] at hx
        rwa [← Option.some.inj hx]
      · rw [h₆.same i hiin, h₅.same i (show i ≠ 1 by omega), h₄.same i (show i ≠ 0 by omega)] at hx
        exact h₃.closed i x (by omega) hx

/-- The input is the reading end, what it was is saved, and both ends are closed. -/
structure Fed (before after : Table) (pipeout pipein oldstdin : Nat) : Prop where
  stored : Stored after
  size : after.size = before.size + 1
  saved : oldstdin = before.size ∧ after.data[oldstdin]? = before.data[0]?
  closed : ∀ i x, i = pipeout ∨ i = pipein → after.data[i]? = some x → x.type = .EMPTY
  same : ∀ i < before.size, i ≠ 0 → i ≠ pipeout → i ≠ pipein → after.data[i]? = before.data[i]?

theorem feed_spec {p : Process} (hs : Stored p.fds) {pipeout pipein : Int32}
    (hout : register pipeout < p.fds.size) (hin : register pipein < p.fds.size)
    (houtpos : 0 < register pipeout) (hinpos : 0 < register pipein) :
    Ensures (Pipe.feed world pipeout pipein p) (fun _ => True) fun r =>
      Fed p.fds r.2.fds (register pipeout) (register pipein) (register r.1) := by
  refine Process.dup_rule hs hroom (show 0 < p.fds.size by omega) fun oldstdin p₁ hold h₁ => ?_
  have hsize₁ := h₁.size
  refine Process.dup2_rule h₁.stored (by omega) (show 0 < p₁.fds.size by omega) fun _ p₂ h₂ => ?_
  have hsize₂ := h₂.size
  refine Process.close_rule h₂.stored (by omega) fun _ p₃ d₃ h₃ hd₃ => ?_
  have hsize₃ := h₃.size
  refine Process.close_rule h₃.stored (by omega) fun _ p₄ d₄ h₄ hd₄ => ?_
  have hsize₄ := h₄.size
  refine ⟨h₄.stored, show p₄.fds.size = _ by omega, ⟨hold, ?_⟩, fun i x hi hx => ?_,
    fun i hlt hzero hiout hiin => ?_⟩
  · change p₄.fds.data[register oldstdin]? = _
    rw [h₄.same _ (by omega), h₃.same _ (by omega),
      h₂.same _ (show register oldstdin ≠ 0 by omega), hold]
    exact h₁.slot
  · change p₄.fds.data[i]? = some x at hx
    by_cases hiout : i = register pipeout
    · rw [hiout, h₄.slot] at hx
      rwa [← Option.some.inj hx]
    · have hiin := hi.resolve_left hiout
      rw [h₄.same i hiout, hiin, h₃.slot] at hx
      rwa [← Option.some.inj hx]
  · change p₄.fds.data[i]? = _
    rw [h₄.same i hiout, h₃.same i hiin, h₂.same i hzero, h₁.same i hlt]

omit hroom in
theorem finish_spec {p : Process} (hs : Stored p.fds) {oldstdin : Int32}
    (hold : register oldstdin < p.fds.size) (hpos : 0 < register oldstdin) :
    Ensures (Pipe.finish world oldstdin p) (fun _ => True) fun p' => Stored p'.fds ∧
      p'.fds.size = p.fds.size ∧ p'.fds.data[0]? = p.fds.data[register oldstdin]? ∧
      (∀ x, p'.fds.data[register oldstdin]? = some x → x.type = .EMPTY) ∧
      ∀ i, i ≠ 0 → i ≠ register oldstdin → p'.fds.data[i]? = p.fds.data[i]? := by
  refine Process.dup2_rule (p := (Process.wait world p).2) hs hold
    (show 0 < p.fds.size by omega) fun _ p₁ h₁ => ?_
  have hsize₁ : p₁.fds.size = p.fds.size := h₁.size
  refine Process.close_rule h₁.stored (by omega) fun _ p₂ d₂ h₂ hd₂ => ?_
  refine ⟨h₂.stored, h₂.size.trans hsize₁, ?_, fun x hx => ?_, fun i hzero hi => ?_⟩
  · rw [h₂.same 0 (by omega)]
    exact h₁.slot
  · rw [h₂.slot] at hx
    rwa [← Option.some.inj hx]
  · rw [h₂.same i hi]
    exact h₁.same i hzero

/-- A `Pipe` puts back the input that it has saved, and closes both ends. -/
theorem pipe_frame {p : Process} (hs : Stored p.fds) (hsize : 2 ≤ p.fds.size)
    {producer consumer : Command}
    (hconsumer : ∀ p : Process, Stored p.fds → 2 ≤ p.fds.size →
      Ensures (consumer.run world p) (fun _ => True) fun r => Frame 0 p.fds r.2.fds) :
    Ensures ((Command.Pipe producer consumer).run world p) (fun _ => True) fun r =>
      Frame 0 p.fds r.2.fds := by
  unfold Command.run
  refine Process.pipe_rule hs hroom fun pipeout pipein p₁ hout hin hs₁ hsize₁ h₁ => ?_
  refine (Ensures.trivially _).bind fun child _ => (Ensures.trivially _).bind fun _ _ => ?_
  have hfeed := feed_spec hroom (p := p₁.parent 0 .producer) hs₁
    (show register pipeout < p₁.fds.size by omega) (show register pipein < p₁.fds.size by omega)
    (by omega) (by omega)
  refine hfeed.bind fun ⟨oldstdin, p₂⟩ h₂ => ?_
  have hsize₂ : p₂.fds.size = p₁.fds.size + 1 := h₂.size
  obtain ⟨hold, hsaved⟩ := h₂.saved
  change register oldstdin = p₁.fds.size at hold
  refine (hconsumer p₂ h₂.stored (by omega)).bind fun ⟨res, p₃⟩ h₃ => ?_
  have hsize₃ : p₂.fds.size ≤ p₃.fds.size := h₃.size
  have hfinish : Ensures (Pipe.finish world oldstdin p₃) _ _ :=
    finish_spec h₃.stored (show register oldstdin < p₃.fds.size by omega)
      (show 0 < register oldstdin by omega)
  refine hfinish.bind fun p₄ ⟨hs₄, hsize₄, hzero, hclosed, hsame⟩ => ?_
  change p₄.fds.size = p₃.fds.size at hsize₄
  refine ⟨hs₄, show _ ≤ p₄.fds.size by omega, fun i _ hlt => ?_, fun i x hi hx => ?_⟩
  · change p₄.fds.data[i]? = _
    by_cases hi : i = 0
    · rw [hi, hzero]
      rw [h₃.same _ (Nat.zero_le _) (show register oldstdin < p₂.fds.size by omega)]
      exact hsaved.trans (h₁ 0 (by omega))
    · rw [hsame i hi (by omega)]
      rw [h₃.same _ (Nat.zero_le _) (show i < p₂.fds.size by omega)]
      exact (h₂.same i (show i < p₁.fds.size by omega) hi (by omega) (by omega)).trans (h₁ i hlt)
  · change p₄.fds.data[i]? = some x at hx
    by_cases hiold : i = register oldstdin
    · exact hclosed x (hiold ▸ hx)
    · rw [hsame i (by omega) hiold] at hx
      change p₃.fds.data[i]? = some x at hx
      by_cases hlt : i < p₂.fds.size
      · rw [h₃.same i (Nat.zero_le i) hlt] at hx
        exact h₂.closed i x (by omega) hx
      · exact h₃.closed i x (Nat.le_of_not_lt hlt) hx

omit hroom in
theorem connect_lone {p : Process} {pipeout pipein : Int32} :
    Ensures (Pipe.connect world pipeout pipein p) (fun _ => True) fun q => q.children = [] := by
  have hchild : Ensures (p.child world) (fun _ => True) fun q => q.children = [] :=
    (Ensures.trivially _).bind fun _ _ => rfl
  have hcall {q : Process} {f : Nat → Table → Owners → Except Fault (Nat × Table × Owners)}
      (h : q.children = []) : Ensures (q.call world f) (fun _ => True) fun r => r.2.children = [] :=
    (Ensures.trivially _).bind fun _ _ => h
  exact hchild.bind fun _ h => (hcall h).bind fun _ h₁ => (hcall h₁).bind fun _ h₂ =>
    (hcall h₂).bind fun _ h₃ => h₃

/-- The child that runs a producer starts as the shell does. -/
theorem connect_start {p : Process} (hsize : 2 ≤ p.fds.size) {pipeout pipein : Int32}
    (hout : register pipeout < p.fds.size) (hin : register pipein < p.fds.size) :
    Ensures (Pipe.connect world pipeout pipein p) (fun _ => True) machine.start := by
  have hchild : Ensures (p.child world) (fun _ => True) fun q =>
      Stored q.fds ∧ q.fds.size = p.fds.size :=
    (Table.clone_same (hroom p.self p.calls)).bind fun r hr => ⟨hr.2, congrArg List.length hr.1⟩
  have htable : Ensures (Pipe.connect world pipeout pipein p) (fun _ => True) fun q =>
      Stored q.fds ∧ 2 ≤ q.fds.size := by
    refine hchild.bind fun q ⟨hs, hq⟩ => ?_
    refine Process.dup2_rule hs (by omega) (show 1 < q.fds.size by omega) fun _ q₁ h₁ => ?_
    have hsize₁ := h₁.size
    refine Process.close_rule h₁.stored (by omega) fun _ q₂ _ h₂ _ => ?_
    have hsize₂ := h₂.size
    refine Process.close_rule h₂.stored (by omega) fun _ q₃ _ h₃ _ => ?_
    have hsize₃ := h₃.size
    exact ⟨h₃.stored, by omega⟩
  exact (htable.and connect_lone).mono (fun _ h => h) fun q ⟨⟨hs, hsize⟩, hnone⟩ => ⟨hs, hsize, hnone⟩

omit hroom in
/-- A command that is run after another one. -/
theorem frame_then {v : Table} {p : Process} {c : Command} (hp : Frame 0 v p.fds) (hsize : 2 ≤ v.size)
    (hc : ∀ {p : Process}, Stored p.fds → 2 ≤ p.fds.size →
      Ensures (c.run world p) (fun _ => True) fun r => Frame 0 p.fds r.2.fds) :
    Ensures (c.run world p) (fun _ => True) fun r => Frame 0 v r.2.fds :=
  (hc hp.stored (Nat.le_trans hsize hp.size)).mono (fun _ h => h)
    fun _ hr => hp.trans hr (Nat.zero_le _)

theorem run_frame (c : Command) {p : Process} (hs : Stored p.fds) (hsize : 2 ≤ p.fds.size) :
    Ensures (c.run world p) (fun _ => True) fun r => Frame 0 p.fds r.2.fds := by
  induction c generalizing p with
  | Atomic cmdline redirections background => exact atomic_frame hroom hs hsize
  | IfThen cond ifcommand ihcond ihif =>
    refine (ihcond hs hsize).bind fun ⟨condres, p₁⟩ h₁ => ?_
    exact .ite (fun _ => frame_then h₁ hsize ihif) fun _ => h₁
  | If cond ifcommand elsecommand ihcond ihif ihelse =>
    refine (ihcond hs hsize).bind fun ⟨condres, p₁⟩ h₁ => ?_
    exact .ite (fun _ => frame_then h₁ hsize ihif) fun _ => frame_then h₁ hsize ihelse
  | Pipe producer consumer _ ih => exact pipe_frame hroom hs hsize fun p hs hsize => ih hs hsize
  | And command1 command2 ih1 ih2 =>
    refine (ih1 hs hsize).bind fun ⟨res1, p₁⟩ h₁ => ?_
    exact .ite (fun _ => frame_then h₁ hsize ih2) fun _ => h₁
  | Or command1 command2 ih1 ih2 =>
    refine (ih1 hs hsize).bind fun ⟨res1, p₁⟩ h₁ => ?_
    exact .ite (fun _ => frame_then h₁ hsize ih2) fun _ => h₁
  | Seq command1 command2 ih1 ih2 =>
    exact (ih1 hs hsize).bind fun ⟨res1, p₁⟩ h₁ => frame_then h₁ hsize ih2

end Commands

/-- In every state of the shell, a command that returns leaves each slot of the table as it was, and each
slot that the table has more empty. -/
theorem run_restores {p : Process} (hr : machine.Run (fun _ _ => True) p) (world : World)
    (hroom : ∀ self calls, (world self calls).room < kernelSpace) (c : Command) {res : Int32}
    {p' : Process} (hrun : c.run world p = .ok (res, p')) :
    p'.fds.data[0]? = p.fds.data[0]? ∧ p'.fds.data[1]? = p.fds.data[1]? ∧
      (∀ i < p.fds.size, p'.fds.data[i]? = p.fds.data[i]?) ∧
      ∀ i fd, p.fds.size ≤ i → p'.fds.data[i]? = some fd → fd.type = .EMPTY := by
  have hfds : Stored p.fds ∧ 2 ≤ p.fds.size := by
    refine hr.invariant (I := fun p => Stored p.fds ∧ 2 ≤ p.fds.size) ?_
      fun p p' c hp ha _ happly => ?_
    · exact fun p hp => ⟨hp.1, hp.2.1⟩
    · obtain ⟨r, hr, hp'⟩ := bind_eq_ok.mp happly
      obtain rfl := Except.ok.inj hp'
      have hframe := (run_frame ha c.2 hp.1 hp.2).of_ok hr
      exact ⟨hframe.stored, Nat.le_trans hp.2 hframe.size⟩
  have hframe := (run_frame hroom c hfds.1 hfds.2).of_ok hrun
  have hsize := hfds.2
  exact ⟨hframe.same 0 (Nat.le_refl 0) (by omega), hframe.same 1 (Nat.zero_le 1) (by omega),
    fun i hi => hframe.same i (Nat.zero_le i) hi, hframe.closed⟩

/-- A command that is seen to return. -/
theorem exists_return (world : World) (c : Command) (p : Process) (P : Int32 × Process → Bool)
    (h : (c.run world p).toOption.any P = true) :
    ∃ res p', c.run world p = .ok (res, p') ∧ P (res, p') = true := by
  cases hrun : c.run world p with
  | error e =>
    rw [hrun] at h
    cases h
  | ok r =>
    rw [hrun] at h
    exact ⟨r.1, r.2, rfl, h⟩

/-- A pipe between commands whose input and output are redirected, in a shell with three descriptors. -/
theorem run_restores_piped : ∃ (p p' : Process) (world : World) (c : Command) (res : Int32),
    machine.Run (fun _ _ => True) p ∧ c.run world p = .ok (res, p') ∧ p'.fds.size = 10 ∧
      p'.fds.data[0]? = p.fds.data[0]? ∧ p'.fds.data[1]? = p.fds.data[1]? ∧
      ∀ i fd, p.fds.size ≤ i → p'.fds.data[i]? = some fd → fd.type = .EMPTY := by
  have hstored : Stored ⟨[⟨some 0, .TWINDOW, 1⟩, ⟨some 0, .TWINDOW, 2⟩, ⟨some 1, .STREAM, 3⟩], 4⟩ :=
    ⟨show 3 ≤ 4 by decide, show 4 ≤ 2 ^ 30 by decide⟩
  have hp : machine.Run (fun _ _ => True) (⟨[], 0, ⟨[⟨some 0, .TWINDOW, 1⟩, ⟨some 0, .TWINDOW, 2⟩,
      ⟨some 1, .STREAM, 3⟩], 4⟩, [], []⟩ : Process) :=
    .start ⟨hstored, show 2 ≤ 3 by decide, rfl⟩
  have hroom (self : List Nat) (calls : Nat) : ((fun _ _ => ⟨2 ^ 20, ⟨fun _ => some 5, 2, []⟩,
      fun _ _ => true, fun _ => true, 0, 0, 0⟩ : World) self calls).room < kernelSpace :=
    show 2 ^ 20 < 2 ^ 47 by decide
  obtain ⟨res, p', hrun, hsize⟩ := exists_return
    (fun _ _ => ⟨2 ^ 20, ⟨fun _ => some 5, 2, []⟩, fun _ _ => true, fun _ => true, 0, 0, 0⟩)
    (.Pipe (.Atomic ["cat"] [.Input "notes"] false)
      (.Atomic ["sort"] [.Output "sorted", .OutputAppend "all"] false))
    ⟨[], 0, ⟨[⟨some 0, .TWINDOW, 1⟩, ⟨some 0, .TWINDOW, 2⟩, ⟨some 1, .STREAM, 3⟩], 4⟩, [], []⟩
    (fun r => decide (r.2.fds.size = 10)) (by decide +kernel)
  obtain ⟨h0, h1, -, hclosed⟩ := run_restores hp _ hroom _ hrun
  exact ⟨_, p', _, _, res, hp, hrun, of_decide_eq_true hsize, h0, h1, hclosed⟩

end Shell

end SupOS
