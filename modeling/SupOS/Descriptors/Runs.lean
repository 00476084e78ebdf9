import SupOS.Descriptors.Counting

/-! Runs of the system calls on descriptors from the boot on: as long as no table that is in use takes
new storage and no slot is assigned to itself, every count is the number of slots that share it. -/

namespace SupOS

open Lib Libcpp

open FileDescriptor (element)

namespace Descriptors

variable {s s' : Descriptors} {c : Command} {L : List FileDescriptor} {p room : Nat} {v : Table}

theorem split_table {α : Type} {l : List (Nat × α)} {v : α} (h : l.lookup p = some v) :
    ∃ l₁ l₂, l = l₁ ++ (p, v) :: l₂ ∧ (∀ w, replace p w l = l₁ ++ (p, w) :: l₂) ∧
      remove p l = l₁ ++ l₂ := by
  induction l with
  | nil => cases h
  | cons e l ih =>
    obtain ⟨q, w⟩ := e
    rw [List.lookup_cons] at h
    by_cases hq : p = q
    · subst hq
      rw [beq_self_eq_true] at h
      obtain rfl := Option.some.inj h
      exact ⟨[], l, rfl, fun w' => by simp [replace], by simp [remove]⟩
    · rw [beq_false_of_ne hq] at h
      obtain ⟨l₁, l₂, rfl, hrep, hrem⟩ := ih h
      refine ⟨(q, w) :: l₁, l₂, rfl, fun w' => ?_, ?_⟩
      · simp only [replace, if_neg hq, hrep, List.cons_append]
      · simp only [remove, if_neg hq, hrem, List.cons_append]

/-- The slots of all tables. -/
def slots (s : Descriptors) : List FileDescriptor := s.tables.flatMap (·.2.data)

/-- How many slots, over all processes, share the object `o`. -/
def sharers (s : Descriptors) (o : Nat) : Nat := sharing s.slots o

/-- Every count is that of the slots that share it, and what has been deleted, each object once, is
what has been opened and has no slot any more. -/
structure Counted (s : Descriptors) : Prop where
  count : ∀ o, s.owners.count o = countOf (s.sharers o)
  deleted : ∀ o, o ∈ s.owners.deleted ↔ o < s.owners.made ∧ s.sharers o = 0
  once : s.owners.deleted.Nodup

/-- The counts agree with the slots and with what tables have left behind. -/
structure Books (L : List FileDescriptor) (s : Descriptors) : Prop where
  balanced : Balanced s.owners (s.slots ++ L)
  stored : ∀ e ∈ s.tables, Stored e.2

theorem Books.counted (hB : Books [] s) : Counted s := by
  have hb := hB.balanced
  rw [List.append_nil] at hb
  exact ⟨hb.count, hb.deleted, hb.once⟩

theorem Books.not_counted (hB : Books L s) (hL : Table.Occupied L) : ¬Counted s := by
  intro hc
  obtain ⟨fd, hfd, hne⟩ := hL
  obtain ⟨o, ho⟩ := Option.ne_none_iff_exists'.mp hne
  have hsame := countOf_injective ((hB.balanced.count o).symm.trans (hc.count o))
  have hpos : 0 < sharing L o := sharing_pos.mpr ⟨fd, hfd, ho⟩
  rw [sharing_append, sharers] at hsame
  omega

/-- The number of slots that a call makes room for. -/
def Call.needs (v : Table) : Call → Nat
  | .sysopen _ | .sysopend => v.size + 1
  | .sysclose _ => 0
  | .sysdup oldfd => if oldfd < v.size then v.size + 1 else 0
  | .sysdup2 oldfd newfd => if oldfd < v.size then newfd + 1 else 0
  | .syspipe => v.size + 2
  | .fork _ | .exec | .destroy => 0

/-- A `sysdup2` neither wraps the size of the table nor assigns to itself the only slot with its
object. -/
def Call.Safe (v : Table) (h : Owners) : Call → Prop
  | .sysdup2 oldfd newfd => (oldfd < v.size → newfd + 1 < 2 ^ 64) ∧
      (oldfd = newfd → ¬Table.Sole v h oldfd)
  | _ => True

/-- The table of the caller has the storage that the call needs, or no descriptor in use. -/
def Roomy (v : Table) (c : Call) : Prop := c.needs v ≤ v.capacity ∨ ¬Table.Occupied v.data

def Careful (s : Descriptors) (c : Command) : Prop :=
  ∀ v, s.tables.lookup c.p = some v → Roomy v c.call ∧ c.call.Safe v s.owners

/-- Numbers that a system call can be given. -/
def Call.Machine : Call → Prop
  | .sysopen flags => flags < 2 ^ 64
  | .sysclose fd | .sysdup fd => fd < 2 ^ 64
  | .sysdup2 oldfd newfd => oldfd < 2 ^ 64 ∧ newfd < 2 ^ 64
  | _ => True

/-- A process that exists makes a call, a fork under a number that is free. -/
structure Admits (s : Descriptors) (c : Command) : Prop where
  room : c.room < kernelSpace
  caller : ∃ v, s.tables.lookup c.p = some v
  child : ∀ child, c.call = .fork child → s.tables.lookup child = none
  machine : c.call.Machine

def machine : Machine Descriptors Command Fault where
  start s := ∃ room < kernelSpace, boot room = .ok s
  admits := Admits
  apply := apply

/-- What a call may leave behind. -/
def Spilled (s : Descriptors) (c : Command) (L : List FileDescriptor) (s' : Descriptors) : Prop :=
  ∃ left, (Table.Occupied left ↔ ∃ v, s.tables.lookup c.p = some v ∧ ¬Roomy v c.call) ∧
    Books (left ++ L) s'

theorem table_eq (hv : s.tables.lookup p = some v) : s.table p = .ok v := by
  simp only [table, hv]

/-- The table of one process among all slots. -/
theorem slots_perm {l₁ l₂ : List (Nat × Table)} (w : Table) (M : List FileDescriptor) :
    ((l₁ ++ (p, w) :: l₂).flatMap (·.2.data) ++ M).Perm
      (w.data ++ ((l₁ ++ l₂).flatMap (·.2.data) ++ M)) := by
  simp only [List.flatMap_append, List.flatMap_cons, List.append_assoc]
  exact List.perm_append_comm_assoc _ _ _

theorem call_spec {n : Nat} {f : Table → Owners → Except Fault (Nat × Table × Owners)}
    (hB : Books L s) (hv : s.tables.lookup p = some v)
    (hf : ∀ R, Balanced s.owners (v.data ++ R) → Stored v →
      Ensures (f v s.owners) NoMemory (Table.Outcome v n R)) :
    Ensures ((·.2) <$> s.call p f) NoMemory fun s' =>
      ∃ left, Table.Spill v n left ∧ Books (left ++ L) s' := by
  obtain ⟨l₁, l₂, htables, hrep, -⟩ := split_table hv
  have hb := hB.balanced
  rw [slots, htables] at hb
  have hmem : (p, v) ∈ s.tables := by simp [htables]
  have hcall := hf _ (hb.perm (slots_perm v L)) (hB.stored _ hmem)
  rw [call, table_eq hv, ok_bind]
  cases hr : f v s.owners with
  | error e => exact hcall.of_error hr
  | ok r =>
    obtain ⟨left, hspill, hkept⟩ := hcall.of_ok hr
    refine ⟨left, hspill, ?_, fun e he => ?_⟩
    · change Balanced r.2.2 ((replace p r.2.1 s.tables).flatMap (·.2.data) ++ (left ++ L))
      rw [hrep]
      refine hkept.balanced.perm (List.Perm.trans ?_ (slots_perm r.2.1 (left ++ L)).symm)
      exact (List.perm_append_comm_assoc _ _ _).append_left _
    · rw [hrep] at he
      rcases List.mem_append.mp he with he | he
      · exact hB.stored e (htables ▸ List.mem_append_left _ he)
      · rcases List.mem_cons.mp he with rfl | he
        · exact hkept.stored
        · exact hB.stored e (htables ▸ List.mem_append_right _ (List.mem_cons_of_mem _ he))

theorem fork_spec {child : Nat} (hB : Books L s) (hv : s.tables.lookup p = some v)
    (hroom : room < kernelSpace) : Ensures (s.fork room p child) NoMemory (Books L) := by
  obtain ⟨l₁, l₂, htables, -, -⟩ := split_table hv
  have hin : ∀ fd ∈ v.data, fd ∈ s.slots ++ L := fun fd hfd =>
    List.mem_append_left _ (List.mem_flatMap.mpr ⟨(p, v), by simp [htables], hfd⟩)
  rw [fork, table_eq hv, ok_bind]
  refine (clone_spec hB.balanced hroom hin).bind fun r ⟨hdata, hb, _⟩ => ?_
  refine (clone_spec hb hroom fun fd hfd => List.mem_append_left _ hfd).bind
    fun r' ⟨hdata', hb', hstored⟩ => ?_
  obtain ⟨h', hdelete, hb''⟩ := destroy_spec (hb'.perm (List.perm_append_comm_assoc _ _ _))
  have hd : r.1.delete element r'.2 = .ok h' := hdelete
  simp only [hd, ok_bind, pure, Except.pure]
  refine ⟨?_, fun e he => ?_⟩
  · change Balanced h' (((child, r'.1) :: s.tables).flatMap (·.2.data) ++ L)
    rw [List.flatMap_cons, List.append_assoc]
    exact hb''
  · rcases List.mem_cons.mp he with rfl | he
    · exact hstored
    · exact hB.stored e he

theorem destroy_spec (hB : Books L s) (hv : s.tables.lookup p = some v) :
    ∃ s', s.destroy p = .ok s' ∧ Books L s' := by
  obtain ⟨l₁, l₂, htables, -, hrem⟩ := split_table hv
  have hb := hB.balanced
  rw [slots, htables] at hb
  obtain ⟨h', hdelete, hb'⟩ := SupOS.destroy_spec (hb.perm (slots_perm v L))
  have hd : v.delete element s.owners = .ok h' := hdelete
  refine ⟨⟨h', l₁ ++ l₂⟩, ?_, hb', fun e he => hB.stored e ?_⟩
  · simp only [destroy, table_eq hv, ok_bind, hd, hrem, pure, Except.pure]
  · rw [htables]
    rcases List.mem_append.mp he with he | he
    · exact List.mem_append_left _ he
    · exact List.mem_append_right _ (List.mem_cons_of_mem _ he)

theorem Books.unspilled (hB : Books L s') (hv : s.tables.lookup c.p = some v)
    (hn : c.call.needs v = 0) : Spilled s c L s' := by
  refine ⟨[], ⟨fun ho => absurd ho Table.not_occupied_nil, ?_⟩, hB⟩
  intro ⟨w, hw, hroomy⟩
  rw [hv] at hw
  obtain rfl := Option.some.inj hw
  exact absurd (.inl (hn ▸ Nat.zero_le _)) hroomy

theorem spilled_of_spill (hv : s.tables.lookup c.p = some v)
    (h : ∃ left, Table.Spill v (c.call.needs v) left ∧ Books (left ++ L) s') : Spilled s c L s' := by
  obtain ⟨left, hspill, hB⟩ := h
  refine ⟨left, hspill.trans ⟨fun ⟨hlt, ho⟩ => ⟨v, hv, ?_⟩, ?_⟩, hB⟩
  · intro hroomy
    rcases hroomy with hle | hno
    · omega
    · exact hno ho
  · intro ⟨w, hw, hroomy⟩
    rw [hv] at hw
    obtain rfl := Option.some.inj hw
    rw [Roomy, not_or, not_not] at hroomy
    exact ⟨by omega, hroomy.2⟩

/-- Each call keeps the books, and leaves behind what a table in use had before it took new
storage. -/
theorem apply_spec (hB : Books L s) (ha : Admits s c) (hv : s.tables.lookup c.p = some v)
    (hsafe : c.call.Safe v s.owners) : Ensures (s.apply c) NoMemory (Spilled s c L) := by
  obtain ⟨p, room, call⟩ := c
  have hroom := ha.room
  have hspill : ∀ {s'}, (∃ left, Table.Spill v (call.needs v) left ∧ Books (left ++ L) s') →
      Spilled s ⟨p, room, call⟩ L s' := fun h => spilled_of_spill hv h
  cases call with
  | sysopen flags =>
    exact (call_spec hB hv fun R hb hs => Table.sysopen_spec hb hroom hs).mono (fun _ he => he)
      fun _ => hspill
  | sysopend =>
    exact (call_spec hB hv fun R hb hs => Table.sysopend_spec hb hroom hs).mono (fun _ he => he)
      fun _ => hspill
  | sysclose fd =>
    exact (call_spec hB hv fun R hb hs => Table.sysclose_spec hb hs).mono (fun _ he => he)
      fun _ => hspill
  | sysdup oldfd =>
    exact (call_spec hB hv fun R hb hs => Table.sysdup_spec hb hroom hs).mono (fun _ he => he)
      fun _ => hspill
  | sysdup2 oldfd newfd =>
    exact (call_spec hB hv fun R hb hs => Table.sysdup2_spec hb hroom hs hsafe.1 hsafe.2).mono
      (fun _ he => he) fun _ => hspill
  | syspipe =>
    exact (call_spec hB hv fun R hb hs => Table.syspipe_spec hb hroom hs).mono (fun _ he => he)
      fun _ => hspill
  | fork child =>
    exact (fork_spec hB hv hroom).mono (fun _ he => he) fun _ hB' => hB'.unspilled hv rfl
  | exec => exact hB.unspilled hv rfl
  | destroy =>
    obtain ⟨s', hs', hB'⟩ := destroy_spec hB hv
    have happly : s.apply ⟨p, room, .destroy⟩ = .ok s' := hs'
    rw [happly]
    exact hB'.unspilled hv rfl

/-- A `sysdup2` that is not safe goes to a slot or to a count that is no more. -/
theorem unsafe_stops (hB : Books L s) (ha : Admits s c) (hv : s.tables.lookup c.p = some v)
    (hsafe : ¬c.call.Safe v s.owners) : ∃ e, s.apply c = .error e := by
  obtain ⟨l₁, l₂, htables, -, -⟩ := split_table hv
  have hstored : Stored v := hB.stored (c.p, v) (by simp [htables])
  obtain ⟨p, room, call⟩ := c
  cases call with
  | sysdup2 oldfd newfd =>
    have hstop : (∃ e, Table.sysdup2 room v s.owners oldfd newfd = .error e) →
        ∃ e, s.apply ⟨p, room, .sysdup2 oldfd newfd⟩ = .error e := by
      intro ⟨e, he⟩
      refine ⟨e, ?_⟩
      simp only [apply, call, table_eq hv, ok_bind, he, error_bind]
      rfl
    refine hstop ?_
    rw [Call.Safe, not_and_or, Classical.not_imp, Classical.not_imp, not_not] at hsafe
    rcases hsafe with ⟨hold, hwrap⟩ | ⟨rfl, hsole⟩
    · have hnew : newfd = 2 ^ 64 - 1 := by
        have : newfd < 2 ^ 64 := ha.machine.2
        omega
      have hle : v.size ≤ newfd := by
        have := hstored.size
        have := hstored.capacity
        omega
      have hzero : u64 (newfd + 1) = 0 := by
        rw [hnew]
        rfl
      rw [Table.sysdup2, if_neg (by omega), Table.extend, if_pos hle, hzero, Libcpp.Vector.resize,
        if_neg (by omega), if_pos (by omega)]
      cases Libcpp.destroy element (v.data.drop 0) s.owners with
      | error e => exact ⟨e, rfl⟩
      | ok h => exact ⟨.outOfRange, rfl⟩
    · obtain ⟨fd, hfd, o, ho, hone⟩ := hsole
      obtain ⟨hi, -⟩ := List.getElem?_eq_some_iff.mp hfd
      change oldfd < v.size at hi
      refine ⟨.dangling, ?_⟩
      rw [Table.sysdup2, if_neg (by omega), Table.extend, if_neg (by omega), ok_bind]
      simp only [Table.assignFrom_self hfd ho hone, error_bind]
  | sysopen _ | sysopend | sysclose _ | sysdup _ | syspipe | fork _ | exec | destroy =>
    exact absurd trivial hsafe

/-- A table with room takes one descriptor more. -/
theorem pushBack_spec {h : Owners} {R : List FileDescriptor} {x : FileDescriptor}
    (hb : Balanced h (v.data ++ R)) (hx : x ∈ R) (hroom : 0 < v.size ∧ v.size + 1 ≤ v.capacity) :
    Ensures (v.pushBack element room x h) NoMemory fun r =>
      r.1 = ⟨v.data ++ [x], v.capacity⟩ ∧ Balanced r.2 (r.1.data ++ R) := by
  obtain ⟨h', hcopy, hb'⟩ := hb.copy_mem (List.mem_append_right _ hx)
  have hc : element.copy x h = .ok (x, h') := hcopy
  rw [Libcpp.Vector.pushBack, Libcpp.Vector.reserve, if_pos hroom]
  simp only [ok_bind, hc, pure, Except.pure]
  refine ⟨rfl, ?_⟩
  rw [List.append_assoc]
  exact hb'.perm List.perm_middle.symm

/-- The first descriptor of a table. -/
theorem pushBack_empty {h : Owners} {R : List FileDescriptor} {x : FileDescriptor}
    (hb : Balanced h R) (hx : x ∈ R) :
    Ensures (Libcpp.Vector.empty.pushBack element room x h) NoMemory fun r =>
      r.1 = ⟨[x], 4⟩ ∧ Balanced r.2 ([x] ++ R) := by
  obtain ⟨h', hcopy, hb'⟩ := hb.copy_mem hx
  have hc : element.copy x h = .ok (x, h') := hcopy
  have hstrategy : strategy 1 = .ok 4 := by decide
  have hsize : Libcpp.Vector.size (Libcpp.Vector.empty : Table) + 1 = 1 := rfl
  rw [Libcpp.Vector.pushBack, Libcpp.Vector.reserve, hsize,
    if_neg fun hpos => absurd hpos.1 (Nat.lt_irrefl 0), hstrategy, ok_bind]
  unfold allocate
  split
  · simp only [Libcpp.Vector.empty, construct, ok_bind, pure, Except.pure, hc]
    exact ⟨rfl, hb'⟩
  · exact .inl rfl

theorem boot_spec (room : Nat) : Ensures (boot room) NoMemory (Books []) := by
  have hb₀ : Balanced ⟨fun _ => none, 0, []⟩ [] :=
    ⟨fun _ hfd => absurd hfd List.not_mem_nil, fun _ => rfl, fun _ ho => absurd ho (Nat.lt_irrefl 0),
      by simp, List.nodup_nil⟩
  have hb₁ := hb₀.make .TWINDOW (by decide)
  refine (pushBack_empty hb₁ List.mem_cons_self).bind fun r ⟨hv, hb₂⟩ => ?_
  obtain ⟨v, h₂⟩ := r
  subst hv
  refine (pushBack_spec (v := ⟨_, 4⟩) hb₂ List.mem_cons_self (by decide)).bind
    fun r ⟨hv, hb₃⟩ => ?_
  obtain ⟨v, h₃⟩ := r
  subst hv
  have hb₄ := (hb₃.make .STREAM (by decide)).perm List.perm_middle.symm
  refine (pushBack_spec (v := ⟨_, 4⟩) hb₄ List.mem_cons_self (by decide)).bind
    fun r ⟨hv, hb₅⟩ => ?_
  obtain ⟨v, h₅⟩ := r
  subst hv
  refine (hb₅.perm List.perm_middle).ensures_drop.bind fun h₆ hb₆ => ?_
  refine (hb₆.perm List.perm_middle).ensures_drop.bind fun h₇ hb₇ => ?_
  refine ⟨by simpa [slots] using hb₇, fun e he => ?_⟩
  obtain rfl := List.mem_singleton.mp he
  exact ⟨show 3 ≤ 4 by decide, show 4 ≤ 2 ^ 30 by decide⟩

/-- A careful call leaves nothing behind. -/
theorem Spilled.books (hs : Spilled s c [] s') (hcareful : Careful s c) : Books [] s' := by
  obtain ⟨left, hleft, hB⟩ := hs
  have hempty : ∀ fd ∈ left, fd.owners = none := by
    intro fd hfd
    by_contra hne
    obtain ⟨v, hv, hroomy⟩ := hleft.mp ⟨fd, hfd, hne⟩
    exact hroomy (hcareful v hv).1
  exact ⟨(hB.balanced.perm (List.perm_append_comm_assoc _ _ _)).remove_empties hempty, hB.stored⟩

theorem apply_careful (hB : Books [] s) (ha : Admits s c) (hcareful : Careful s c) :
    Ensures (s.apply c) NoMemory (Books []) := by
  obtain ⟨v, hv⟩ := ha.caller
  exact (apply_spec hB ha hv (hcareful v hv).2).mono (fun _ he => he) fun _ hs => hs.books hcareful

/-- A call that is not careful stops or leaves behind counts that no slot has. -/
theorem apply_careless (hB : Books [] s) (ha : Admits s c) (hcareless : ¬Careful s c) :
    Ensures (s.apply c) (fun _ => True) (¬Counted ·) := by
  obtain ⟨v, hv⟩ := ha.caller
  by_cases hsafe : c.call.Safe v s.owners
  · refine (apply_spec hB ha hv hsafe).mono (fun _ _ => trivial) fun s' ⟨left, hleft, hB'⟩ => ?_
    have hroomy : ¬Roomy v c.call := fun hroomy => hcareless fun w hw => by
      rw [hv] at hw
      obtain rfl := Option.some.inj hw
      exact ⟨hroomy, hsafe⟩
    rw [List.append_nil] at hB'
    exact hB'.not_counted (hleft.mpr ⟨v, hv, hroomy⟩)
  · obtain ⟨e, he⟩ := unsafe_stops hB ha hv hsafe
    rw [he]
    trivial

theorem Run.books (h : machine.Run Careful s) : Books [] s :=
  h.invariant (fun _ ⟨room, _, hboot⟩ => (boot_spec room).of_ok hboot)
    fun _ _ _ hB ha hcareful happly => (apply_careful hB ha hcareful).of_ok happly

/-- As long as each call is careful, the counts are those of the slots, and what is deleted is what
has lost its last one; a call that is not careful ends that. -/
theorem run_counted (h : machine.Run Careful s) : Counted s ∧ ∀ c, Admits s c →
    (Careful s c → Ensures (s.apply c) NoMemory Counted) ∧
    (¬Careful s c → Ensures (s.apply c) (fun _ => True) (¬Counted ·)) :=
  ⟨(Run.books h).counted, fun _ ha =>
    ⟨fun hcareful => (apply_careful (Run.books h) ha hcareful).mono (fun _ he => he)
      fun _ hB => hB.counted,
    apply_careless (Run.books h) ha⟩⟩

instance (l : List FileDescriptor) : Decidable (Table.Occupied l) :=
  inferInstanceAs (Decidable (∃ fd ∈ l, fd.owners ≠ none))

/-- Tests of `Admits` and of `Careful`. -/
def admitted (s : Descriptors) (c : Command) : Bool :=
  decide (c.room < kernelSpace) && (s.tables.lookup c.p).isSome &&
    match c.call with
    | .fork child => (s.tables.lookup child).isNone
    | .sysopen n | .sysclose n | .sysdup n => decide (n < 2 ^ 64)
    | .sysdup2 m n => decide (m < 2 ^ 64) && decide (n < 2 ^ 64)
    | _ => true

def careful (s : Descriptors) (c : Command) : Bool :=
  (s.tables.lookup c.p).all fun v =>
    (decide (c.call.needs v ≤ v.capacity) || !decide (Table.Occupied v.data)) &&
      match c.call with
      | .sysdup2 oldfd newfd => decide (newfd + 1 < 2 ^ 64) && (decide (oldfd ≠ newfd) ||
          (v.data[oldfd]?).all fun fd => fd.owners.all fun o => s.owners.count o != some 1)
      | _ => true

theorem admits_of_admitted (h : admitted s c = true) : Admits s c := by
  obtain ⟨p, room, call⟩ := c
  simp only [admitted, Bool.and_eq_true, decide_eq_true_eq, Option.isSome_iff_exists] at h
  obtain ⟨⟨hroom, hcaller⟩, hcall⟩ := h
  refine ⟨hroom, hcaller, ?_, ?_⟩
  · intro child hfork
    simp only at hfork
    subst hfork
    simpa using hcall
  · cases call with
    | sysdup2 m n => simpa [Call.Machine] using hcall
    | sysopen | sysclose | sysdup => simpa [Call.Machine] using hcall
    | sysopend | syspipe | fork _ | exec | destroy => trivial

theorem careful_of_careful (h : careful s c = true) : Careful s c := by
  obtain ⟨p, room, call⟩ := c
  intro v hv
  simp only at hv
  simp only [careful, hv, Option.all_some, Bool.and_eq_true, Bool.or_eq_true, decide_eq_true_eq,
    Bool.not_eq_true', decide_eq_false_iff_not] at h
  refine ⟨h.1, ?_⟩
  cases call with
  | sysdup2 oldfd newfd =>
    have hsafe := h.2
    simp only [Bool.and_eq_true, Bool.or_eq_true, decide_eq_true_eq] at hsafe
    refine ⟨fun _ => hsafe.1, fun heq ⟨fd, hfd, o, ho, hone⟩ => ?_⟩
    have hall := hsafe.2.resolve_left fun hne => hne heq
    simp [hfd, ho, hone] at hall
  | _ => trivial

/-- A run found by following commands from the boot. -/
theorem exists_run {C : Descriptors → Command → Prop} (check : Descriptors → Command → Bool)
    (hcheck : ∀ s c, check s c = true → C s c) (cs : List Command) (P : Descriptors → Bool)
    (h : ((boot (2 ^ 20)).toOption.bind fun s =>
      machine.follow (fun s c => admitted s c && check s c) s cs).any P = true) :
    ∃ s, machine.Run C s ∧ P s = true := by
  cases hboot : boot (2 ^ 20) with
  | error e =>
    rw [hboot] at h
    cases h
  | ok s =>
    rw [hboot] at h
    have hstart : machine.start s := ⟨2 ^ 20, by decide, hboot⟩
    refine Machine.exists_run (fun s c hc => ?_) hstart cs h
    obtain ⟨ha, hC⟩ := Bool.and_eq_true_iff.mp hc
    exact ⟨admits_of_admitted ha, hcheck s c hC⟩

/-- A file that parent and child share, put on its own slot while both have it, is deleted when the
child goes. -/
theorem run_counted_shared : ∃ s, machine.Run Careful s ∧ 2 ∈ s.owners.deleted ∧ Counted s := by
  obtain ⟨s, hs, hdel⟩ := exists_run careful (fun _ _ => careful_of_careful)
    [⟨1, 2 ^ 20, .sysopen 3⟩, ⟨1, 2 ^ 20, .fork 2⟩, ⟨1, 2 ^ 20, .sysdup2 3 3⟩, ⟨1, 2 ^ 20, .sysclose 3⟩,
      ⟨2, 2 ^ 20, .destroy⟩] (fun s => decide (2 ∈ s.owners.deleted)) (by decide +kernel)
  exact ⟨s, hs, of_decide_eq_true hdel, (run_counted hs).1⟩

/-- The second file that init opens grows its table, and the first one is not deleted when it is
closed. -/
theorem grown_table : ¬∀ s, machine.Run (fun _ _ => True) s → Counted s := by
  intro hall
  obtain ⟨s, hs, hkept⟩ := exists_run (C := fun _ _ => True) (fun _ _ => true) (fun _ _ _ => trivial)
    [⟨1, 2 ^ 20, .sysopen 1⟩, ⟨1, 2 ^ 20, .sysopen 1⟩, ⟨1, 2 ^ 20, .sysclose 3⟩]
    (fun s => decide (s.sharers 2 = 0 ∧ 2 < s.owners.made ∧ 2 ∉ s.owners.deleted))
    (by decide +kernel)
  have hlost : s.sharers 2 = 0 ∧ 2 < s.owners.made ∧ 2 ∉ s.owners.deleted := of_decide_eq_true hkept
  exact hlost.2.2 (((hall s hs).deleted 2).mpr ⟨hlost.2.1, hlost.1⟩)

end Descriptors

end SupOS
