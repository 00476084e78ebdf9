import SupOS.Descriptors.Table
import SupOS.Lib.Machine
import Mathlib.Order.Basic

/-! The counts of the descriptors over all runs: a table that grows takes new copies and keeps the
counts of the old ones, and the count of an object is otherwise the number of slots that share it. -/

namespace SupOS

open Lib Libcpp

open FileDescriptor (element)

/-- What stops a system call that has no memory left for a table. -/
def NoMemory (e : Fault) : Prop := e = .outOfMemory ∨ e = .assertion

/-- The storage of a table holds its objects and fits the address space. -/
structure Stored (v : Table) : Prop where
  size : v.size ≤ v.capacity
  capacity : v.capacity ≤ 2 ^ 30

/-- The address space of the kernel bounds what `malloc` can have left. -/
def kernelSpace : Nat := 2 ^ 47

/-- The objects that a table leaves behind when it makes room for `n`. -/
def moved (v : Table) (n : Nat) : List FileDescriptor :=
  if n ≤ v.capacity then [] else v.data

variable {h h' : Owners} {R : List FileDescriptor} {v : Table} {room n : Nat}

theorem shiftOne_le (n : Nat) : shiftOne n ≤ 2 ^ 30 ∨ shiftOne n = 2 ^ 64 - 2 ^ 31 := by
  have hall : ∀ k < 32, ((1#32 <<< k).signExtend 64).toNat ≤ 2 ^ 30 ∨
      ((1#32 <<< k).signExtend 64).toNat = 2 ^ 64 - 2 ^ 31 := by decide
  exact hall (n % 32) (Nat.mod_lt _ (by decide))

theorem strategy_spec (s : Nat) : Ensures (strategy s) NoMemory
    fun c => s < c ∧ (c ≤ 2 ^ 30 ∨ c = 2 ^ 64 - 2 ^ 31) := by
  unfold strategy
  by_cases hlt : s < shiftOne ((u64 (s + 1)).log2 + 1)
  · simp only [decide_eq_true hlt, assert_true, ok_bind, pure, Except.pure]
    exact ⟨hlt, shiftOne_le _⟩
  · simp only [decide_eq_false hlt, assert_false, error_bind]
    exact .inr rfl

theorem allocate_spec {c : Nat} (hroom : room < kernelSpace)
    (hc : c ≤ 2 ^ 30 ∨ c = 2 ^ 64 - 2 ^ 31) :
    Ensures (allocate element room c) NoMemory fun _ => c ≤ 2 ^ 30 := by
  unfold allocate
  split
  · rename_i hfits
    refine hc.resolve_right fun hbig => ?_
    have hsize : u64 ((2 ^ 64 - 2 ^ 31) * 56) = 2 ^ 64 - 56 * 2 ^ 31 := by decide
    simp only [element, hbig, hsize, kernelSpace] at hfits hroom
    omega
  · exact .inl rfl

/-- Copies of descriptors that exist. -/
theorem construct_spec {l : List FileDescriptor} (hb : Balanced h R) (hl : ∀ fd ∈ l, fd ∈ R) :
    ∃ h', construct FileDescriptor.copy l h = .ok (l, h') ∧ Balanced h' (l ++ R) := by
  induction l generalizing h R with
  | nil => exact ⟨h, rfl, hb⟩
  | cons fd l ih =>
    obtain ⟨h₁, hcopy, hb₁⟩ := hb.copy_mem (hl fd List.mem_cons_self)
    obtain ⟨h₂, hrest, hb₂⟩ := ih hb₁ fun x hx =>
      List.mem_cons_of_mem _ (hl x (List.mem_cons_of_mem _ hx))
    refine ⟨h₂, ?_, hb₂.perm List.perm_middle⟩
    simp only [construct, hcopy, ok_bind, hrest, pure, Except.pure]

theorem destroy_spec {l : List FileDescriptor} (hb : Balanced h (l ++ R)) :
    ∃ h', destroy element l h = .ok h' ∧ Balanced h' R := by
  induction l generalizing h with
  | nil => exact ⟨h, rfl, hb⟩
  | cons fd l ih =>
    obtain ⟨h₁, hdrop, hb₁⟩ := hb.drop
    obtain ⟨h₂, hrest, hb₂⟩ := ih hb₁
    refine ⟨h₂, ?_, hb₂⟩
    have hd : element.destroy fd h = .ok h₁ := hdrop
    simp only [destroy, hd, ok_bind, hrest]

/-- The descriptors that exist once the call is over: those of the table, those that it left behind
and those that were elsewhere. -/
structure Kept (left R : List FileDescriptor) (v : Table) (h : Owners) : Prop where
  balanced : Balanced h (v.data ++ (left ++ R))
  stored : Stored v

/-- The storage after room was made for `n`: the old one, or one with room for more than that; an
empty table takes a new one in any case. -/
def Grown (v v' : Table) (n : Nat) : Prop :=
  (n ≤ v.capacity ∧ v'.capacity = v.capacity) ∨ (n < v'.capacity ∧ (n ≤ v.capacity → v.data = []))

theorem reserve_spec (hb : Balanced h (v.data ++ R)) (hroom : room < kernelSpace) (hs : Stored v)
    (hn : v.size < n) :
    Ensures (v.reserve element room n h) NoMemory fun r =>
      r.1.data = v.data ∧ Kept (moved v n) R r.1 r.2 ∧ Grown v r.1 n := by
  unfold Vector.reserve
  split
  · rename_i hfits
    refine ⟨rfl, ⟨?_, hs⟩, .inl ⟨hfits.2, rfl⟩⟩
    rwa [moved, if_pos hfits.2]
  · rename_i hfull
    refine (strategy_spec n).bind fun c hc => (allocate_spec hroom hc.2).bind fun _ hle => ?_
    obtain ⟨h', hcopy, hb'⟩ := construct_spec hb fun fd hfd => List.mem_append_left R hfd
    have hmove : construct element.move v.data h = .ok (v.data, h') := hcopy
    simp only [hmove, ok_bind, pure, Except.pure]
    have hnil : n ≤ v.capacity → v.data = [] := fun hcap => by
      have hsize : v.size = 0 := by
        by_contra hne
        exact hfull ⟨Nat.pos_of_ne_zero hne, hcap⟩
      exact List.length_eq_zero_iff.mp hsize
    refine ⟨rfl, ⟨?_, Nat.le_of_lt (Nat.lt_trans hn hc.1), hle⟩, .inr ⟨hc.1, hnil⟩⟩
    unfold moved
    split
    · rename_i hcap
      simpa [hnil hcap] using hb'
    · exact hb'

theorem resize_spec (hb : Balanced h (v.data ++ R)) (hroom : room < kernelSpace) (hs : Stored v)
    (hn : v.size < n) :
    Ensures (v.resize element room n h) NoMemory fun r =>
      r.1.data = v.data ++ List.replicate (n - v.size) .empty ∧ Kept (moved v n) R r.1 r.2 ∧
        Grown v r.1 n := by
  unfold Vector.resize
  rw [if_neg (by omega), if_neg (by omega)]
  refine (reserve_spec hb hroom hs hn).bind fun r hr => ?_
  obtain ⟨hdata, hkept, hgrown⟩ := hr
  have hsize : r.1.size = v.size := congrArg List.length hdata
  have hempty : ∀ k, Balanced r.2 (List.replicate k .empty ++ (r.1.data ++ (moved v n ++ R))) := by
    intro k
    induction k with
    | zero => exact hkept.balanced
    | succ k ih => exact ih.add_empty rfl FileDescriptor.empty_typed
  refine ⟨by simp only [hsize, hdata, element], ⟨?_, ?_, hkept.stored.capacity⟩, hgrown⟩
  · refine (hempty (n - r.1.size)).perm ?_
    rw [← List.append_assoc]
    exact List.Perm.append_right _ List.perm_append_comm
  · have hlen : (r.1.data ++ List.replicate (n - r.1.size) element.value).length = n := by
      rw [List.length_append, List.length_replicate]
      change r.1.size + (n - r.1.size) = n
      omega
    change (r.1.data ++ List.replicate (n - r.1.size) element.value).length ≤ r.1.capacity
    have hcap := hkept.stored.size
    rcases hgrown with ⟨hle, hsame⟩ | ⟨hlt, -⟩
    · omega
    · omega

namespace Table

/-- A table with a slot for `newfd`, after `extend`. -/
theorem extend_spec {newfd : Nat} (hb : Balanced h (v.data ++ R)) (hroom : room < kernelSpace)
    (hs : Stored v) (hn : v.size ≤ newfd → n = newfd + 1) :
    Ensures (extend room v h newfd n) NoMemory fun r =>
      r.1.data = v.data ++ List.replicate (newfd + 1 - v.size) .empty ∧
        Kept (moved v (max v.size (newfd + 1))) R r.1 r.2 ∧ Grown v r.1 (max v.size (newfd + 1)) := by
  unfold extend
  split
  · rename_i hle
    obtain rfl := hn hle
    rw [Nat.max_eq_right (by omega)]
    exact resize_spec hb hroom hs (by omega)
  · rename_i hlt
    have hmax : max v.size (newfd + 1) = v.size := Nat.max_eq_left (by omega)
    have hzero : newfd + 1 - v.size = 0 := by omega
    rw [hmax, hzero]
    refine ⟨by simp, ⟨?_, hs⟩, .inl ⟨hs.size, rfl⟩⟩
    rwa [moved, if_pos hs.size]

/-- The slot `i` takes a descriptor whose object keeps an owner when the old one is dropped. -/
theorem assign_spec {i : Nat} {fd : FileDescriptor} (hb : Balanced h (v.data ++ R)) (hi : i < v.size)
    (ht : fd.Typed)
    (hlive : ∀ o, fd.owners = some o → 0 < sharing (v.data.eraseIdx i ++ R) o) :
    ∃ h', assign v h i fd = .ok (⟨v.data.set i fd, v.capacity⟩, h') ∧
      Balanced h' (v.data.set i fd ++ R) := by
  have hold : v.data[i]? = some (v.data[i]) := List.getElem?_eq_getElem hi
  have hb₀ : Balanced h (v.data[i] :: (v.data.eraseIdx i ++ R)) :=
    hb.perm ((List.getElem_cons_eraseIdx_perm hi).symm.append_right R)
  obtain ⟨h₁, hdrop, hb₁⟩ := hb₀.drop
  obtain ⟨h₂, hcopy, hb₂⟩ := hb₁.copy ht hlive
  refine ⟨h₂, ?_, hb₂.perm ((List.set_perm_cons_eraseIdx hi fd).symm.append_right R)⟩
  simp only [assign, hold, FileDescriptor.assign, hdrop, ok_bind, hcopy, pure, Except.pure]

theorem assignTemporary_spec {i : Nat} {fd : FileDescriptor} (hb : Balanced h (fd :: (v.data ++ R)))
    (hi : i < v.size) :
    ∃ h', assignTemporary v h i fd = .ok (⟨v.data.set i fd, v.capacity⟩, h') ∧
      Balanced h' (v.data.set i fd ++ R) := by
  have ht := hb.typed fd List.mem_cons_self
  obtain ⟨h₁, hassign, hb₁⟩ := assign_spec (hb.perm List.perm_middle.symm) hi ht
    fun o ho => by
      rw [sharing_append, sharing_cons, if_pos ho]
      omega
  obtain ⟨h₂, hdrop, hb₂⟩ := (hb₁.perm List.perm_middle).drop
  refine ⟨h₂, ?_, hb₂⟩
  simp only [assignTemporary, hassign, ok_bind, hdrop, pure, Except.pure]

/-- A list with a descriptor that is not empty. -/
def Occupied (l : List FileDescriptor) : Prop := ∃ fd ∈ l, fd.owners ≠ none

/-- What a call leaves behind that makes room for `n`. -/
def Spill (v : Table) (n : Nat) (left : List FileDescriptor) : Prop :=
  Occupied left ↔ v.capacity < n ∧ Occupied v.data

theorem not_occupied_nil : ¬Occupied [] := fun ⟨_, hfd, _⟩ => List.not_mem_nil hfd

theorem occupied_append_empty {l : List FileDescriptor} {k : Nat} :
    Occupied (l ++ List.replicate k .empty) ↔ Occupied l := by
  constructor
  · intro ⟨fd, hfd, ho⟩
    rcases List.mem_append.mp hfd with hfd | hfd
    · exact ⟨fd, hfd, ho⟩
    · rw [List.eq_of_mem_replicate hfd] at ho
      exact absurd rfl ho
  · intro ⟨fd, hfd, ho⟩
    exact ⟨fd, List.mem_append_left _ hfd, ho⟩

theorem spill_moved (v : Table) (n : Nat) : Spill v n (moved v n) := by
  unfold Spill moved
  split
  · rename_i hle
    exact ⟨fun ho => absurd ho not_occupied_nil, fun ⟨hlt, _⟩ => absurd hlt (by omega)⟩
  · rename_i hgt
    exact ⟨fun ho => ⟨by omega, ho⟩, fun ho => ho.2⟩

theorem spill_nil : Spill v 0 [] :=
  ⟨fun ho => absurd ho not_occupied_nil, fun ⟨hlt, _⟩ => absurd hlt (Nat.not_lt_zero _)⟩

/-- A call that makes room for `n` keeps the counts of all descriptors, those that it leaves behind
among them. -/
def Outcome (v : Table) (n : Nat) (R : List FileDescriptor) (r : Nat × Table × Owners) : Prop :=
  ∃ left, Spill v n left ∧ Kept left R r.2.1 r.2.2

theorem u32_size (hs : Stored v) : u32 v.size = v.size :=
  u32_of_lt (by have := hs.size; have := hs.capacity; omega)

theorem u32_size_succ (hs : Stored v) : u32 (v.size + 1) = v.size + 1 :=
  u32_of_lt (by have := hs.size; have := hs.capacity; omega)

theorem set_size (v : Table) (i : Nat) (fd : FileDescriptor) :
    Libcpp.Vector.size (⟨v.data.set i fd, v.capacity⟩ : Table) = v.size := List.length_set

/-- A slot takes a descriptor of something new. -/
theorem place_spec {left : List FileDescriptor} {i : Nat} (type : FDtype) (hk : Kept left R v h)
    (hi : i < v.size) (htype : type ≠ .EMPTY) :
    ∃ v' h', assignTemporary v (FileDescriptor.make h type).2 i (FileDescriptor.make h type).1 =
      .ok (v', h') ∧ v'.size = v.size ∧ Kept left R v' h' := by
  obtain ⟨h', hassign, hb'⟩ := assignTemporary_spec (i := i) (hk.balanced.make type htype) hi
  exact ⟨_, h', hassign, set_size v i _, hb', (set_size v i _).trans_le hk.stored.size,
    hk.stored.capacity⟩

theorem setMask_kept {left : List FileDescriptor} {i mask : Nat} (hk : Kept left R v h) :
    Kept left R (v.setMask i mask) h := by
  have hlen : Libcpp.Vector.size (v.setMask i mask) = v.size := List.length_modify _ _ _
  have hmap : (v.setMask i mask).data.map (fun fd => (fd.owners, fd.type)) =
      v.data.map fun fd => (fd.owners, fd.type) := by
    refine List.ext_getElem (by simp [setMask]) fun j hj hj' => ?_
    simp only [setMask, List.getElem_map, List.getElem_modify]
    split <;> rfl
  refine ⟨hk.balanced.congr ?_, hlen.trans_le hk.stored.size, hk.stored.capacity⟩
  rw [List.map_append, hmap, ← List.map_append]

/-- A table with a slot more. -/
theorem extend_one (hb : Balanced h (v.data ++ R)) (hroom : room < kernelSpace) (hs : Stored v) :
    Ensures (extend room v h v.size (v.size + 1)) NoMemory fun r =>
      r.1.data = v.data ++ List.replicate 1 .empty ∧ Kept (moved v (v.size + 1)) R r.1 r.2 ∧
        Grown v r.1 (v.size + 1) ∧ r.1.size = v.size + 1 := by
  refine (extend_spec hb hroom hs fun _ => rfl).mono (fun _ he => he) fun r hr => ?_
  rw [Nat.max_eq_right (Nat.le_succ _), Nat.add_sub_cancel_left] at hr
  refine ⟨hr.1, hr.2.1, hr.2.2, ?_⟩
  rw [Libcpp.Vector.size, hr.1, List.length_append, List.length_replicate]
  rfl

theorem sysopen_spec {flags : Nat} (hb : Balanced h (v.data ++ R)) (hroom : room < kernelSpace)
    (hs : Stored v) :
    Ensures (sysopen room v h flags) NoMemory (Outcome v (v.size + 1) R) := by
  unfold sysopen
  simp only [u32_size hs, u32_size_succ hs]
  refine (extend_one hb hroom hs).bind fun r ⟨_, hkept, _, hsize⟩ => ?_
  obtain ⟨v', h', hassign, -, hkept'⟩ := place_spec (i := v.size) .STREAM hkept
    (by omega) (by decide)
  simp only [hassign, ok_bind, pure, Except.pure]
  exact ⟨_, spill_moved v _, setMask_kept hkept'⟩

theorem sysopend_spec (hb : Balanced h (v.data ++ R)) (hroom : room < kernelSpace) (hs : Stored v) :
    Ensures (sysopend room v h) NoMemory (Outcome v (v.size + 1) R) := by
  unfold sysopend
  simp only [u32_size hs, u32_size_succ hs]
  refine (extend_one hb hroom hs).bind fun r ⟨_, hkept, _, hsize⟩ => ?_
  obtain ⟨v', h', hassign, -, hkept'⟩ := place_spec (i := v.size) .DIRECTORY hkept
    (by omega) (by decide)
  simp only [hassign, ok_bind, pure, Except.pure]
  exact ⟨_, spill_moved v _, hkept'⟩

theorem kept_nil (hb : Balanced h (v.data ++ R)) (hs : Stored v) : Kept [] R v h := ⟨hb, hs⟩

theorem sysclose_spec {fd : Nat} (hb : Balanced h (v.data ++ R)) (hs : Stored v) :
    Ensures (sysclose v h fd) NoMemory (Outcome v 0 R) := by
  unfold sysclose
  split
  · exact ⟨[], spill_nil, kept_nil hb hs⟩
  · rename_i desc hdesc
    split
    · exact ⟨[], spill_nil, kept_nil hb hs⟩
    · obtain ⟨hi, -⟩ := List.getElem?_eq_some_iff.mp hdesc
      obtain ⟨h', hassign, hb'⟩ :=
        assignTemporary_spec (hb.add_empty (show FileDescriptor.empty.owners = none from rfl)
          FileDescriptor.empty_typed) hi
      simp only [hassign, ok_bind, pure, Except.pure]
      exact ⟨[], spill_nil, hb', (set_size v fd _).trans_le hs.size, hs.capacity⟩

/-- A slot takes the descriptor of another one. -/
theorem assignFrom_spec {left : List FileDescriptor} {i j : Nat} (hk : Kept left R v h)
    (hi : i < v.size) (hj : j < v.size)
    (hlive : i = j → ∀ fd, v.data[i]? = some fd → ∀ o, fd.owners = some o → h.count o ≠ some 1) :
    ∃ v' h', assignFrom v h i j = .ok (v', h') ∧ Kept left R v' h' := by
  have hfd : v.data[j]? = some (v.data[j]) := List.getElem?_eq_getElem hj
  have hmem : v.data[j] ∈ v.data ++ (left ++ R) :=
    List.mem_append_left _ (List.getElem_mem hj)
  have hkeep : ∀ o, (v.data[j]).owners = some o →
      0 < sharing (v.data.eraseIdx i ++ (left ++ R)) o := by
    intro o ho
    by_cases hij : i = j
    · subst hij
      have hperm := (List.getElem_cons_eraseIdx_perm hi).symm.append_right (left ++ R)
      have hcount := (hk.balanced.perm hperm).count o
      rw [List.cons_append, sharing_cons, if_pos ho] at hcount
      by_contra hzero
      rw [Nat.eq_zero_of_not_pos hzero] at hcount
      exact hlive rfl _ hfd o ho hcount
    · refine sharing_pos.mpr ⟨_, List.mem_append_left _ ?_, ho⟩
      exact List.mem_eraseIdx_iff_getElem.mpr ⟨j, hj, Ne.symm hij, rfl⟩
  obtain ⟨h', hassign, hb'⟩ := assign_spec hk.balanced hi (hk.balanced.typed _ hmem) hkeep
  refine ⟨_, h', ?_, hb', (set_size v i _).trans_le hk.stored.size, hk.stored.capacity⟩
  simp only [assignFrom, hfd]
  exact hassign

/-- A slot that is the only one with its object cannot take its own descriptor. -/
theorem assignFrom_self {i o : Nat} {fd : FileDescriptor} (hfd : v.data[i]? = some fd)
    (ho : fd.owners = some o) (hsole : h.count o = some 1) :
    assignFrom v h i i = .error .dangling := by
  have hdrop : fd.drop h = .ok (fd.free h o) := by simp only [FileDescriptor.drop, ho, hsole]
  have hfree : (fd.free h o).count o = none := by
    unfold FileDescriptor.free
    cases fd.type <;> simp
  simp only [assignFrom, hfd, assign, FileDescriptor.assign, hdrop, ok_bind, FileDescriptor.copy, ho,
    hfree, error_bind]

theorem sysdup_spec {oldfd : Nat} (hb : Balanced h (v.data ++ R)) (hroom : room < kernelSpace)
    (hs : Stored v) :
    Ensures (sysdup room v h oldfd) NoMemory
      (Outcome v (if oldfd < v.size then v.size + 1 else 0) R) := by
  unfold sysdup
  split
  · rename_i hle
    rw [if_neg (by omega)]
    exact ⟨[], spill_nil, kept_nil hb hs⟩
  · rename_i hlt
    rw [if_pos (by omega)]
    simp only [u32_size hs, u32_size_succ hs]
    refine (extend_one hb hroom hs).bind fun r ⟨_, hkept, _, hsize⟩ => ?_
    obtain ⟨v', h', hassign, hkept'⟩ := assignFrom_spec (i := v.size) (j := oldfd) hkept (by omega)
      (by omega) fun hij => absurd hij (by omega)
    simp only [hassign, ok_bind, pure, Except.pure]
    exact ⟨_, spill_moved v _, hkept'⟩

/-- The slot is the only one with its object. -/
def Sole (v : Table) (h : Owners) (i : Nat) : Prop :=
  ∃ fd, v.data[i]? = some fd ∧ ∃ o, fd.owners = some o ∧ h.count o = some 1

theorem sysdup2_spec {oldfd newfd : Nat} (hb : Balanced h (v.data ++ R)) (hroom : room < kernelSpace)
    (hs : Stored v) (hwrap : oldfd < v.size → newfd + 1 < 2 ^ 64)
    (hsole : oldfd = newfd → ¬Sole v h oldfd) :
    Ensures (sysdup2 room v h oldfd newfd) NoMemory
      (Outcome v (if oldfd < v.size then newfd + 1 else 0) R) := by
  unfold sysdup2
  split
  · rename_i hle
    rw [if_neg (by omega)]
    exact ⟨[], spill_nil, kept_nil hb hs⟩
  · rename_i hlt
    have hold : oldfd < v.size := by omega
    rw [if_pos hold, u64_of_lt (hwrap hold)]
    have hspill : ∀ {left}, Spill v (max v.size (newfd + 1)) left → Spill v (newfd + 1) left := by
      intro left hsp
      unfold Spill at hsp ⊢
      have hiff : v.capacity < max v.size (newfd + 1) ↔ v.capacity < newfd + 1 := by
        have := hs.size
        omega
      rwa [hiff] at hsp
    by_cases hnew : v.size ≤ newfd
    · refine (extend_spec hb hroom hs fun _ => rfl).bind fun r ⟨hdata, hkept, _⟩ => ?_
      have hsize : r.1.size = newfd + 1 := by
        rw [Libcpp.Vector.size, hdata, List.length_append, List.length_replicate]
        change v.size + (newfd + 1 - v.size) = newfd + 1
        omega
      obtain ⟨v', h', hassign, hkept'⟩ := assignFrom_spec (i := newfd) (j := oldfd) hkept (by omega)
        (by omega) fun hij => absurd hij (by omega)
      simp only [hassign, ok_bind, pure, Except.pure]
      exact ⟨_, hspill (spill_moved v _), hkept'⟩
    · obtain ⟨v', h', hassign, hkept'⟩ := assignFrom_spec (i := newfd) (j := oldfd) (kept_nil hb hs)
        (by omega) hold fun hij fd hfd o ho hone => hsole hij.symm ⟨fd, hij ▸ hfd, o, ho, hone⟩
      simp only [extend, if_neg hnew, hassign, ok_bind, pure, Except.pure]
      refine ⟨[], ⟨fun ho => absurd ho not_occupied_nil, fun ⟨hcap, _⟩ => ?_⟩, hkept'⟩
      have := hs.size
      omega

theorem occupied_append {l l' : List FileDescriptor} :
    Occupied (l ++ l') ↔ Occupied l ∨ Occupied l' := by
  simp only [Occupied, List.mem_append, or_and_right, exists_or]

/-- Two slots more, one after the other: the storage is given up at most once. -/
theorem spill_twice {w : Table} (hdata : w.data = v.data ++ List.replicate 1 .empty)
    (hgrown : Grown v w (v.size + 1)) (hsize : w.size = v.size + 1) :
    Spill v (v.size + 2) (moved w (w.size + 1) ++ moved v (v.size + 1)) := by
  have hfirst : Occupied (moved v (v.size + 1)) ↔ _ := spill_moved v _
  have hsecond : Occupied (moved w (w.size + 1)) ↔ _ := spill_moved w _
  have hsame : Occupied w.data ↔ Occupied v.data := by
    rw [hdata]
    exact occupied_append_empty
  unfold Spill
  rw [occupied_append, hfirst, hsecond, hsame]
  rcases hgrown with ⟨hle, hcap⟩ | ⟨hlt, hnil⟩
  · rw [hcap, hsize]
    constructor
    · intro hleft
      rcases hleft with ⟨hlt, ho⟩ | ⟨hlt, -⟩
      · exact ⟨hlt, ho⟩
      · omega
    · exact fun ho => .inl ho
  · constructor
    · intro hleft
      rcases hleft with ⟨hlt', -⟩ | ⟨hlt', ho⟩
      · omega
      · exact ⟨by omega, ho⟩
    · intro ⟨_, ho⟩
      refine .inr ⟨?_, ho⟩
      by_contra hle
      obtain ⟨fd, hfd, -⟩ := ho
      rw [hnil (by omega)] at hfd
      exact List.not_mem_nil hfd

theorem syspipe_spec (hb : Balanced h (v.data ++ R)) (hroom : room < kernelSpace) (hs : Stored v) :
    Ensures (syspipe room v h) NoMemory (Outcome v (v.size + 2) R) := by
  have hsmall : ∀ {w : Table}, Stored w → i32 (u32 w.size) = w.size ∧
      i32 (w.size + 1) = w.size + 1 := by
    intro w hw
    have hcap := hw.capacity
    have hsize := hw.size
    exact ⟨by rw [u32_size hw, i32_of_lt (by omega)], i32_of_lt (by omega)⟩
  unfold syspipe
  simp only [(hsmall hs).1, (hsmall hs).2]
  refine (extend_one hb hroom hs).bind fun r ⟨hdata, hkept, hgrown, hsize⟩ => ?_
  simp only [(hsmall hkept.stored).1, (hsmall hkept.stored).2]
  refine (extend_one hkept.balanced hroom hkept.stored).bind fun r' ⟨_, hkept₁, _, hsize₁⟩ => ?_
  obtain ⟨v₂, h₂, hout, hsize₂, hkept₂⟩ := place_spec (i := v.size) .STREAM hkept₁
    (by omega) (by decide)
  obtain ⟨v₃, h₃, hin, -, hkept₃⟩ := place_spec (i := r.1.size) .STREAM hkept₂
    (by omega) (by decide)
  simp only [hout, hin, ok_bind, pure, Except.pure]
  refine ⟨_, spill_twice hdata hgrown hsize, ?_, hkept₃.stored⟩
  rw [List.append_assoc]
  exact hkept₃.balanced

end Table

/-- A copy of a table. -/
theorem clone_spec {R : List FileDescriptor} (hb : Balanced h R) (hroom : room < kernelSpace)
    (hl : ∀ fd ∈ v.data, fd ∈ R) :
    Ensures (v.clone element room h) NoMemory fun r =>
      r.1.data = v.data ∧ Balanced r.2 (r.1.data ++ R) ∧ Stored r.1 := by
  unfold Vector.clone Vector.reserve
  rw [if_neg fun hpos => absurd hpos.1 (Nat.lt_irrefl 0)]
  simp only [Vector.empty, construct, bind_assoc]
  refine (strategy_spec v.size).bind fun c hc => (allocate_spec hroom hc.2).bind fun _ hle => ?_
  obtain ⟨h', hcopy, hb'⟩ := construct_spec hb hl
  have hclone : construct element.copy v.data h = .ok (v.data, h') := hcopy
  simp only [ok_bind, pure, Except.pure, hclone]
  exact ⟨rfl, hb', Nat.le_of_lt hc.1, hle⟩

end SupOS
