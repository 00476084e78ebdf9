import SupOS.Libcpp.Owners

/-! The operations on counting pointers one after another: after which of them the counts are right. -/

namespace SupOS.Libcpp

open Lib

namespace Pointers

open Ptr

variable (s : Pointers)

/-- The pointer with a number, if it has not been destroyed. -/
def find (i : Nat) : Option Ptr := s.ptrs[i]?.join

def has (kind : PtrKind) (i : Nat) : Prop := (s.find i).map (·.kind) = some kind

instance (kind : PtrKind) (i : Nat) : Decidable (s.has kind i) :=
  inferInstanceAs (Decidable (_ = _))

/-- The count block of a pointer. -/
def countAt (i : Nat) : Option Nat := (s.find i).bind (·.count)

/-- A further pointer can be counted. -/
def room (count : Option Nat) : Bool :=
  match count.bind fun c => s.counts[c]?.join with
  | some k => k.nbTotal.toNat + 1 < 2 ^ 32
  | none => true

/-- `expired`, of a count block. -/
def expired (count : Option Nat) : Bool :=
  match count.bind fun c => s.counts[c]?.join with
  | some k => k.nbOwner = 0
  | none => false

def Admits : PtrCall → Prop
  | .sharedNull | .sharedNew _ | .weakNull => True
  | .sharedCopy i | .sharedMove i | .sharedReset i _ | .sharedDestroy i | .weakOfShared i =>
    s.has .shared i
  | .sharedOfWeak i | .weakCopy i | .weakReset i | .weakDestroy i => s.has .weak i
  | .sharedMoveAssign i j => s.has .shared i ∧ s.has .shared j
  | .weakAssignShared i j => s.has .weak i ∧ s.has .shared j

instance (c : PtrCall) : Decidable (s.Admits c) := by
  cases c <;> unfold Admits <;> infer_instance

/-- Nothing is moved from into a new pointer unless it counts nothing, no owner is made of a pointer to
an object that has been deleted, and the counts stay below their bound. -/
def Careful : PtrCall → Prop
  | .sharedMove i => s.countAt i = none
  | .sharedOfWeak i => s.room (s.countAt i) ∧
    (s.expired (s.countAt i) → (s.find i).bind (·.ptr) = none)
  | .sharedCopy i | .weakCopy i | .weakOfShared i => s.room (s.countAt i)
  | .weakAssignShared i j => s.countAt i = s.countAt j ∨ s.room (s.countAt j)
  | _ => True

instance (c : PtrCall) : Decidable (s.Careful c) := by
  cases c <;> unfold Careful <;> infer_instance

def machine : Lib.Machine Pointers PtrCall Fault where
  start s := s = ⟨[], [], []⟩
  admits := Admits
  apply := apply

section Steps

variable {s} {i : Nat} {p x : Ptr} {kind : PtrKind}

theorem has_iff : s.has kind i ↔ ∃ p, s.ptrs[i]? = some (some p) ∧ p.kind = kind := by
  simp only [has, find, Option.map_eq_some_iff, Option.join_eq_some_iff]

theorem get_eq (hi : s.ptrs[i]? = some (some p)) (hkind : p.kind = kind) :
    s.get kind i = .ok p := by
  rw [get, hi]
  exact if_pos hkind

theorem find_eq (hi : s.ptrs[i]? = some (some p)) : s.find i = some p := by
  rw [find, hi]
  rfl

theorem countAt_eq (hi : s.ptrs[i]? = some (some p)) : s.countAt i = p.count := by
  rw [countAt, find_eq hi]
  rfl

theorem room_eq {c : Nat} {k : Count} (hk : s.counts[c]? = some (some k)) :
    s.room (some c) = true ↔ k.nbTotal.toNat + 1 < 2 ^ 32 := by
  simp [room, hk]

theorem expired_eq {c : Nat} {k : Count} (hk : s.counts[c]? = some (some k)) :
    s.expired (some c) = true ↔ k.nbOwner = 0 := by
  simp [expired, hk]

theorem retain_eq {c : Nat} {k : Count} (hk : s.counts[c]? = some (some k)) :
    s.retain kind (some c) = .ok { s with counts := s.counts.set c (some (k.incr kind)) } := by
  simp [retain, Pointers.deref, hk, ok_bind, pure, Except.pure]

/-- A count that has run over is wrong. -/
theorem not_counted_of_full {c : Nat} {k : Count} (hp : some p ∈ s.ptrs) (hc : p.count = some c)
    (hk : s.counts[c]? = some (some k)) (hzero : k.nbTotal.toNat = 0) : ¬s.Counted := by
  intro hs
  have htotal := (hs.count c k hk).2
  have hpos := total_pos.mpr ⟨p, hp, hc⟩
  omega

theorem incr_full {k : Count} (h : ¬k.nbTotal.toNat + 1 < 2 ^ 32) :
    (k.incr kind).nbTotal.toNat = 0 := by
  have hlt := k.nbTotal.toNat_lt
  have hadd : (k.nbTotal + 1).toNat = 0 := by
    rw [UInt32.toNat_add, show k.nbTotal.toNat = 2 ^ 32 - 1 by omega]
    rfl
  cases kind <;> exact hadd

theorem Counted.construct (kind : PtrKind) (hs : s.Counted) (hx : some x ∈ s.ptrs) :
    ∃ s', s.construct kind x = .ok s' ∧ (s'.Counted ↔ s.room x.count ∧
      (kind = .shared → ∀ o, x.ptr = some o → s.objects[o]? = some true)) := by
  cases hc : x.count with
  | none =>
    have hptr := hs.null x hx hc
    refine ⟨s.push { x with kind }, by rw [Pointers.construct, hc]; rfl, ?_⟩
    have hcounted : (s.push { x with kind }).Counted := by
      rw [push_eq]
      exact hs.pad.putNull getElem?_pad trivial ⟨hptr, hc⟩
    refine iff_of_true hcounted ⟨rfl, fun _ o ho => ?_⟩
    cases ho.symm.trans hptr
  | some c =>
    obtain ⟨k, hk⟩ := (hs.block c).mpr ⟨x, hx, hc⟩
    have hlt := hs.lt_counts hx hc
    refine ⟨({ s with counts := s.counts.set c (some (k.incr kind)) } : Pointers).push
      { x with kind }, by rw [Pointers.construct, hc, retain_eq hk]; rfl, ?_⟩
    have hself : some { x with kind } ∈ s.ptrs ++ [some { x with kind }] := by simp
    rw [room_eq hk]
    constructor
    · intro hs'
      refine ⟨Decidable.byContradiction fun hfull => ?_, fun hkind o ho => ?_⟩
      · exact not_counted_of_full (p := { x with kind }) hself hc (List.getElem?_set_self hlt) (incr_full hfull) hs'
      · exact (hs'.object o).mpr ⟨_, hself, hkind, ho⟩
    · rintro ⟨hroom, hlive⟩
      have := Counted.retained kind hs.pad getElem?_pad trivial
        (List.mem_append_left _ hx) hc hk hroom hlive
      rw [push_eq]
      exact this

/-- The object of a weak pointer exists exactly as long as the pointer is not expired. -/
theorem Counted.live_iff (hs : s.Counted) (hx : some x ∈ s.ptrs) :
    (∀ o, x.ptr = some o → s.objects[o]? = some true) ↔
      (s.expired x.count = true → x.ptr = none) := by
  cases hc : x.count with
  | none =>
    have hptr := hs.null x hx hc
    exact iff_of_true (fun o ho => by cases ho.symm.trans hptr) fun _ => hptr
  | some c =>
    obtain ⟨k, hk⟩ := (hs.block c).mpr ⟨x, hx, hc⟩
    have howner := (hs.count c k hk).1
    rw [expired_eq hk]
    constructor
    · intro h hzero
      rw [hzero] at howner
      cases hptr : x.ptr with
      | none => rfl
      | some o =>
        obtain ⟨q, hq, hkind, hqo⟩ := (hs.object o).mp (h o hptr)
        have hqc := (hs.same q x o hq hx hqo hptr).trans hc
        have hpos := owners_pos.mpr ⟨q, hq, hkind, hqc⟩
        rw [← howner] at hpos
        exact absurd hpos (Nat.lt_irrefl 0)
    · intro h o ho
      have hpos : 0 < s.owners c := by
        rw [← howner]
        refine Nat.pos_of_ne_zero fun hzero => ?_
        cases ho.symm.trans (h (UInt32.toNat_inj.mp hzero))
      obtain ⟨q, hq, hkind, hqc⟩ := owners_pos.mp hpos
      exact (hs.object o).mpr ⟨q, hq, hkind, (hs.target q x c hq hx hqc hc).trans ho⟩

theorem Counted.live_of_shared (hs : s.Counted) (hx : some x ∈ s.ptrs) (hkind : x.kind = .shared) :
    ∀ o, x.ptr = some o → s.objects[o]? = some true :=
  fun o ho => (hs.object o).mpr ⟨x, hx, hkind, ho⟩

/-- A pointer moved into a new one is counted once. -/
theorem Counted.move (hs : s.Counted) (hi : s.ptrs[i]? = some (some p)) (hkind : p.kind = .shared) :
    (s.push p).Counted ↔ p.count = none := by
  have hp : some p ∈ s.ptrs := List.mem_of_getElem? hi
  constructor
  · intro hs'
    cases hc : p.count with
    | none => rfl
    | some c =>
      obtain ⟨k, hk⟩ := (hs.block c).mpr ⟨p, hp, hc⟩
      have hbefore := (hs.count c k hk).1
      have hafter := (hs'.count c k hk).1
      have hpush : (s.push p).owners c = s.owners c + 1 := by
        simp [owners, push, isOwner, hkind, hc]
      omega
  · intro hc
    rw [push_eq]
    exact hs.pad.putNull getElem?_pad trivial ⟨hs.null p hp hc, hc⟩

theorem Counted.destroy (hs : s.Counted) (hi : s.ptrs[i]? = some (some p)) (hkind : p.kind = kind) :
    ∃ s', s.destroy kind i = .ok s' ∧ s'.Counted := by
  have hp : some p ∈ s.ptrs := List.mem_of_getElem? hi
  obtain ⟨s', hrelease, -, hcounted⟩ := hs.release hi
  refine ⟨_, ?_, hcounted none trivial⟩
  cases hc : p.count with
  | none =>
    simp only [Pointers.destroy, get_eq hi hkind, ok_bind, hc, hrelease, pure, Except.pure]
  | some c =>
    obtain ⟨k, hk, hderef⟩ := hs.deref hp hc
    obtain ⟨howner, htotal⟩ := hs.count c k hk
    have hpos : 1 ≤ k.checked kind := by
      rw [UInt32.le_iff_toNat_le, UInt32.toNat_one]
      cases kind with
      | shared =>
        have := owners_pos.mpr ⟨p, hp, hkind, hc⟩
        simp only [Count.checked]
        omega
      | weak =>
        have := total_pos.mpr ⟨p, hp, hc⟩
        simp only [Count.checked]
        omega
    simp only [Pointers.destroy, get_eq hi hkind, ok_bind, hc, hderef, decide_eq_true hpos,
      assert_true, hrelease, pure, Except.pure]

/-- `operator=` from another pointer leaves that one with nothing. -/
theorem Counted.moveAssign {j : Nat} (hs : s.Counted) (hi : s.ptrs[i]? = some (some p))
    (hj : s.ptrs[j]? = some (some x)) (hij : i ≠ j) :
    ∃ s', s.release p = .ok s' ∧
      ((s'.put i (some x)).put j (some ⟨.shared, none, none⟩)).Counted := by
  obtain ⟨s', hrelease, hptrs, hcounted⟩ := hs.release hi
  refine ⟨s', hrelease, ?_⟩
  have hnull := hcounted (some ⟨.shared, none, none⟩) ⟨rfl, rfl⟩
  obtain ⟨hilt, -⟩ := List.getElem?_eq_some_iff.mp hi
  obtain ⟨hjlt, hjx⟩ := List.getElem?_eq_some_iff.mp hj
  refine Counted.perm (s := s'.put i (some ⟨.shared, none, none⟩))
    ((s'.ptrs.set i (some x)).set j (some ⟨.shared, none, none⟩)) hnull ?_
  have hi' : i < (s.ptrs.set i (some ⟨.shared, none, none⟩)).length := by simpa using hilt
  have hj' : j < (s.ptrs.set i (some ⟨.shared, none, none⟩)).length := by simpa using hjlt
  simpa [List.getElem_set_ne hij, hptrs, hjx, put] using List.set_set_perm hi' hj'

/-- `operator=` of a weak pointer from a shared one. -/
theorem Counted.weakAssign {j : Nat} (hs : s.Counted) (hi : s.ptrs[i]? = some (some p))
    (hp : p.kind = .weak) (hj : s.ptrs[j]? = some (some x)) (hx : x.kind = .shared) :
    ∃ s' s'', s.release p = .ok s' ∧ s'.retain .weak x.count = .ok s'' ∧
      ((s''.put i (some { x with kind := .weak })).Counted ↔
        p.count = x.count ∨ s.room x.count = true) := by
  obtain ⟨s', hrelease, hptrs, hcounted⟩ := hs.release hi
  have hnull := hcounted none trivial
  have hilt := (List.getElem?_eq_some_iff.mp hi).1
  have hi' : (s'.put i none).ptrs[i]? = some none := by
    rw [put, List.getElem?_set_self (by rw [hptrs]; exact hilt)]
  have hne : some x ≠ some p := fun h => by
    obtain rfl := Option.some.inj h
    cases hp.symm.trans hx
  have hmem : some x ∈ (s'.put i none).ptrs :=
    mem_put_of_ne (hptrs ▸ hi) (hptrs ▸ List.mem_of_getElem? hj) hne
  obtain ⟨kind, ptr, count⟩ := x
  refine ⟨s', ?_⟩
  cases count with
  | none =>
    exact ⟨s', hrelease, rfl, iff_of_true (hcounted _ ⟨hnull.null ⟨kind, _, _⟩ hmem rfl, rfl⟩) (.inr rfl)⟩
  | some c =>
    obtain ⟨k, hk⟩ := (hnull.block c).mpr ⟨_, hmem, rfl⟩
    have hlt := hnull.lt_counts hmem rfl
    refine ⟨_, hrelease, retain_eq hk, ?_⟩
    have hself : some ⟨.weak, ptr, some c⟩ ∈ s'.ptrs.set i (some ⟨.weak, ptr, some c⟩) :=
      List.mem_set (by rw [hptrs]; exact hilt) _
    have hroom : k.nbTotal.toNat + 1 < 2 ^ 32 ↔ p.count = some c ∨ s.room (some c) = true := by
      obtain ⟨k₀, hk₀⟩ := (hs.block c).mpr ⟨_, List.mem_of_getElem? hj, rfl⟩
      have htotal := (hnull.count c k hk).2
      have htotal₀ := (hs.count c k₀ hk₀).2
      have hput := countP_put (refers c) none hi
      have hlt₀ := k₀.nbTotal.toNat_lt
      have hsame : (s'.put i none).total c = (s.put i none).total c := by
        rw [total, total, put, put, hptrs]
      rw [isNull_refers (e := none) trivial, Bool.toNat_false] at hput
      rw [room_eq hk₀]
      simp only [total] at *
      by_cases hpc : p.count = some c
      · have hrefers : refers c (some p) = true := by simp [refers, hpc]
        rw [hrefers, Bool.toNat_true] at hput
        exact iff_of_true (by omega) (.inl hpc)
      · have hrefers : refers c (some p) = false := by simp [refers, hpc]
        rw [hrefers, Bool.toNat_false] at hput
        rw [or_iff_right hpc]
        omega
    rw [← hroom]
    constructor
    · intro hs'
      refine Decidable.byContradiction fun hfull => ?_
      exact not_counted_of_full hself rfl (List.getElem?_set_self hlt) (incr_full hfull) hs'
    · intro h
      have := hnull.retained .weak hi' trivial hmem rfl hk h fun hkind => by cases hkind
      simpa [put, List.set_set] using this

theorem Counted.reset (object : Bool) (hs : s.Counted) (hi : s.ptrs[i]? = some (some p))
    (hkind : p.kind = .shared) :
    ∃ s', s.apply (.sharedReset i object) = .ok s' ∧ s'.Counted := by
  obtain ⟨s', hrelease, hptrs, hcounted⟩ := hs.release hi
  simp only [apply, get_eq hi hkind, ok_bind, hrelease]
  cases object with
  | false => exact ⟨_, rfl, hcounted _ ⟨rfl, rfl⟩⟩
  | true =>
    have hilt := (List.getElem?_eq_some_iff.mp hi).1
    have hi' : (s'.put i none).ptrs[i]? = some none := by
      rw [put, List.getElem?_set_self (by rw [hptrs]; exact hilt)]
    have := (hcounted none trivial).newCount true hi' trivial
    refine ⟨_, rfl, ?_⟩
    simpa [put, List.set_set, Pointers.newCount] using this

/-- An operation on pointers that exist returns, and the counts are right after it exactly if it meets
the condition. -/
theorem Counted.apply (hs : s.Counted) {c : PtrCall} (ha : s.Admits c) :
    ∃ s', s.apply c = .ok s' ∧ (s'.Counted ↔ s.Careful c) := by
  cases c with
  | sharedNull =>
    refine ⟨_, rfl, iff_of_true ?_ trivial⟩
    rw [push_eq]
    exact hs.pad.putNull getElem?_pad trivial ⟨rfl, rfl⟩
  | sharedNew object =>
    refine ⟨_, rfl, iff_of_true ?_ trivial⟩
    rw [push_eq]
    exact hs.pad.newCount object getElem?_pad trivial
  | sharedCopy i =>
    obtain ⟨x, hi, hkind⟩ := has_iff.mp ha
    have hx := List.mem_of_getElem? hi
    obtain ⟨s', happly, h⟩ := Counted.construct .shared hs hx
    refine ⟨s', by rw [Pointers.apply, get_eq hi hkind]; exact happly, h.trans ?_⟩
    rw [Careful, countAt_eq hi]
    exact and_iff_left fun _ => hs.live_of_shared hx hkind
  | sharedMove i =>
    obtain ⟨x, hi, hkind⟩ := has_iff.mp ha
    refine ⟨s.push x, by rw [Pointers.apply, get_eq hi hkind]; rfl, ?_⟩
    rw [Careful, countAt_eq hi]
    exact hs.move hi hkind
  | sharedOfWeak i =>
    obtain ⟨x, hi, hkind⟩ := has_iff.mp ha
    have hx := List.mem_of_getElem? hi
    obtain ⟨s', happly, h⟩ := Counted.construct .shared hs hx
    refine ⟨s', by rw [Pointers.apply, get_eq hi hkind]; exact happly, h.trans ?_⟩
    rw [Careful, countAt_eq hi, find_eq hi, Option.bind_some, ← hs.live_iff hx]
    exact and_congr_right fun _ => ⟨fun h => h rfl, fun h _ => h⟩
  | sharedMoveAssign i j =>
    obtain ⟨⟨p, hi, hp⟩, x, hj, hx⟩ := ha.imp has_iff.mp has_iff.mp
    by_cases hij : i = j
    · refine ⟨s, ?_, iff_of_true hs trivial⟩
      simp only [Pointers.apply, get_eq hi hp, get_eq hj hx, ok_bind, if_pos hij, pure, Except.pure]
    · obtain ⟨s', hrelease, h⟩ := hs.moveAssign hi hj hij
      refine ⟨_, ?_, iff_of_true h trivial⟩
      simp only [Pointers.apply, get_eq hi hp, get_eq hj hx, ok_bind, if_neg hij, hrelease, pure,
        Except.pure]
  | sharedReset i object =>
    obtain ⟨x, hi, hkind⟩ := has_iff.mp ha
    obtain ⟨s', happly, h⟩ := hs.reset object hi hkind
    exact ⟨s', happly, iff_of_true h trivial⟩
  | sharedDestroy i =>
    obtain ⟨x, hi, hkind⟩ := has_iff.mp ha
    obtain ⟨s', happly, h⟩ := hs.destroy hi hkind
    exact ⟨s', happly, iff_of_true h trivial⟩
  | weakNull =>
    refine ⟨_, rfl, iff_of_true ?_ trivial⟩
    rw [push_eq]
    exact hs.pad.putNull getElem?_pad trivial ⟨rfl, rfl⟩
  | weakCopy i =>
    obtain ⟨x, hi, hkind⟩ := has_iff.mp ha
    obtain ⟨s', happly, h⟩ := Counted.construct .weak hs (List.mem_of_getElem? hi)
    refine ⟨s', by rw [Pointers.apply, get_eq hi hkind]; exact happly, h.trans ?_⟩
    rw [Careful, countAt_eq hi]
    exact and_iff_left fun h => by cases h
  | weakOfShared i =>
    obtain ⟨x, hi, hkind⟩ := has_iff.mp ha
    obtain ⟨s', happly, h⟩ := Counted.construct .weak hs (List.mem_of_getElem? hi)
    refine ⟨s', by rw [Pointers.apply, get_eq hi hkind]; exact happly, h.trans ?_⟩
    rw [Careful, countAt_eq hi]
    exact and_iff_left fun h => by cases h
  | weakAssignShared i j =>
    obtain ⟨⟨p, hi, hp⟩, x, hj, hx⟩ := ha.imp has_iff.mp has_iff.mp
    obtain ⟨s', s'', hrelease, hretain, h⟩ := hs.weakAssign hi hp hj hx
    refine ⟨_, ?_, h.trans ?_⟩
    · simp only [Pointers.apply, get_eq hi hp, get_eq hj hx, ok_bind, hrelease, hretain]
      rfl
    · rw [Careful, countAt_eq hi, countAt_eq hj]
  | weakReset i =>
    obtain ⟨x, hi, hkind⟩ := has_iff.mp ha
    obtain ⟨s', hrelease, -, h⟩ := hs.release hi
    refine ⟨_, ?_, iff_of_true (h (some ⟨.weak, none, none⟩) ⟨rfl, rfl⟩) trivial⟩
    simp only [Pointers.apply, get_eq hi hkind, ok_bind, hrelease]
    rfl
  | weakDestroy i =>
    obtain ⟨x, hi, hkind⟩ := has_iff.mp ha
    obtain ⟨s', happly, h⟩ := hs.destroy hi hkind
    exact ⟨s', happly, iff_of_true h trivial⟩

end Steps

/-- In every state of a run whose operations meet the condition the counts are right; a further
operation on pointers that exist returns, and leaves them right exactly if it meets the condition. -/
theorem run_pointers {s : Pointers} (hr : machine.Run Careful s) :
    s.Counted ∧ ∀ c, s.Admits c → ∃ s', s.apply c = .ok s' ∧ (s'.Counted ↔ s.Careful c) := by
  have hcounted : s.Counted := by
    refine hr.invariant ?_ fun s s' c hs ha hcareful happly => ?_
    · rintro s rfl
      exact ⟨nofun, fun c => ⟨nofun, nofun⟩, fun o => ⟨nofun, nofun⟩, nofun, nofun, nofun, nofun⟩
    · obtain ⟨s₁, h₁, hiff⟩ := hs.apply ha
      obtain rfl := Except.ok.inj (h₁.symm.trans happly)
      exact hiff.mpr hcareful
  exact ⟨hcounted, fun c => hcounted.apply⟩

/-- An object with two owners and a weak pointer that outlives them. -/
theorem run_pointers_expired : ∃ s, machine.Run Careful s ∧
    decide (s = ⟨[false], [some ⟨0, 1⟩], [none, none, some ⟨.weak, some 0, some 0⟩]⟩) = true ∧
    s.Counted := by
  have hcheck (s : Pointers) (c : PtrCall) (hc : decide (s.Admits c ∧ s.Careful c) = true) :
      s.Admits c ∧ s.Careful c := of_decide_eq_true hc
  obtain ⟨s, hs, hP⟩ := Machine.exists_run (M := machine) hcheck rfl
    [.sharedNew true, .sharedCopy 0, .weakOfShared 1, .sharedDestroy 0, .sharedDestroy 1]
    (P := fun s => decide (s = ⟨[false], [some ⟨0, 1⟩], [none, none, some ⟨.weak, some 0, some 0⟩]⟩))
    (by decide +kernel)
  exact ⟨s, hs, hP, (run_pointers hs).1⟩

/-- A pointer moved into a new one leaves two owners and a count of one, and each of them deletes the
object. -/
theorem moved_pointer : (¬∀ s, machine.Run (fun _ _ => True) s → s.Counted) ∧
    ∃ s, machine.Run (fun _ _ => True) s ∧ s.Admits (.sharedDestroy 0) ∧
      s.apply (.sharedDestroy 0) = .error .dangling := by
  have hcheck (s : Pointers) (c : PtrCall) (hc : decide (s.Admits c) = true) :
      s.Admits c ∧ True := ⟨of_decide_eq_true hc, trivial⟩
  refine ⟨fun hall => ?_, ?_⟩
  · obtain ⟨s, hs, hP⟩ := Machine.exists_run (M := machine) (C := fun _ _ => True) hcheck rfl
      [.sharedNew true, .sharedMove 0]
      (P := fun s => decide (s.counts[0]? = some (some (⟨1, 1⟩ : Count)) ∧ s.owners 0 = 2)) (by decide +kernel)
    obtain ⟨hk, howners⟩ := of_decide_eq_true hP
    have := ((hall s hs).count 0 _ hk).1
    rw [howners] at this
    exact absurd this (by decide)
  · obtain ⟨s, hs, hP⟩ := Machine.exists_run (M := machine) (C := fun _ _ => True) hcheck rfl
      [.sharedNew true, .sharedMove 0, .sharedDestroy 1]
      (P := fun s => decide (s = ⟨[false], [none], [some ⟨.shared, some 0, some 0⟩, none]⟩))
      (by decide +kernel)
    obtain rfl := of_decide_eq_true hP
    exact ⟨_, hs, by decide, by rfl⟩

end Pointers

end SupOS.Libcpp
