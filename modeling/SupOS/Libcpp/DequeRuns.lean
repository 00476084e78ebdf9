import SupOS.Libcpp.Refines
import SupOS.Lib.Machine

/-! The members of the deque one after another: which of them do what they do to a list. -/

namespace SupOS.Libcpp

open Lib Lib.Ring

variable {T : Type}

/-- The value that is pushed onto a list. -/
def Source.onList (l : List T) : Source T → Option T
  | .value x => some x
  | .own i => l[i]?

/-- What an operation does to a list, and what it returns. -/
def DequeCall.onList (l : List T) : DequeCall T → List T × DequeReply T
  | .pushBack x => (l ++ (x.onList l).toList, .nothing)
  | .pushFront x => ((x.onList l).toList ++ l, .nothing)
  | .popBack => (l.dropLast, .nothing)
  | .popFront => (l.tail, .nothing)
  | .reserve _ => (l, .nothing)
  | .index i => (l, (l[i]?).elim .nothing .element)
  | .front => (l, l.head?.elim .nothing .element)
  | .back => (l, l.getLast?.elim .nothing .element)
  | .size => (l, .number l.length)
  | .empty => (l, .truth l.isEmpty)
  | .iterate => (l, .elements l)
  | .erase i j => (l.take i ++ l.drop j, .nothing)

/-- The operations that may be called on a list: with its own elements and positions, and for fewer than
2 ^ 30 elements. -/
def DequeCall.Admits (l : List T) : DequeCall T → Prop
  | .pushBack (.value _) | .pushFront (.value _) => l.length + 1 < 2 ^ 30
  | .pushBack (.own i) | .pushFront (.own i) => l.length + 1 < 2 ^ 30 ∧ i < l.length
  | .popBack | .popFront | .front | .back => l ≠ []
  | .index i => i < l.length
  | .erase i j => i ≤ j ∧ j ≤ l.length
  | .reserve _ | .size | .empty | .iterate => True

instance (l : List T) (c : DequeCall T) : Decidable (c.Admits l) := by
  unfold DequeCall.Admits
  split <;> infer_instance

namespace Deque

/-- The comment "Class Invariant" of the source. -/
def ClassInvariant (d : Deque T) : Prop :=
  d.begIndex = 0 ∧ d.capacity = 0 ∧ d.endIndex = 0 ∧ (∀ i, d.cells i = none) ∨
  d.begIndex < d.capacity ∧ d.endIndex < d.capacity ∧ ∀ i, (d.cells i).isSome ↔
    if d.begIndex ≤ d.endIndex then d.begIndex ≤ i ∧ i < d.endIndex
    else d.begIndex ≤ i ∧ i < d.capacity ∨ i < d.endIndex

/-- No element is pushed that the deque then moves away from, no room is asked for that `strategy` cannot
give, and nothing is erased from a deque without a buffer. -/
def Careful (d : Deque T) : DequeCall T → Prop
  | .pushBack (.own _) | .pushFront (.own _) => d.keeps (d.size + 1)
  | .reserve n => d.keeps n ∨ n + 1 < 2 ^ 30
  | .erase _ _ => d.capacity ≠ 0
  | _ => True

instance (d : Deque T) (c : DequeCall T) : Decidable (d.Careful c) := by
  unfold Careful
  split <;> infer_instance

section Steps

variable {d : Deque T} {l : List T} {room sizeof : Nat} {leave : T → T}

theorem Ready.classInvariant (hd : d.Ready l) : d.ClassInvariant := by
  have hbeg := hd.beg
  have hroom := hd.room
  have hlast := hd.last
  have hend : d.endIndex < d.capacity := by
    rw [hlast]
    exact slot_lt hd.pos
  rw [hd.slot_eq hroom] at hlast
  refine .inr ⟨hbeg, hend, fun i => ?_⟩
  by_cases hi : i < d.capacity
  · obtain ⟨k, hk, rfl⟩ := exists_slot hbeg hi
    rw [hd.cells k hk, hd.slot_eq hk, isSome_getElem?]
    by_cases hwrap : d.begIndex + l.length < d.capacity
    · rw [if_pos hwrap] at hlast
      rw [hlast, if_pos (by omega)]
      split_ifs <;> omega
    · rw [if_neg hwrap] at hlast
      rw [hlast, if_neg (by omega)]
      split_ifs <;> omega
  · rw [hd.outside i (Nat.le_of_not_lt hi)]
    refine iff_of_false (by simp) ?_
    split <;> omega

theorem Refines.classInvariant (h : d.Refines l) : d.ClassInvariant := by
  obtain ⟨rfl, -⟩ | h := h
  · exact .inl ⟨rfl, rfl, rfl, fun _ => rfl⟩
  · exact h.classInvariant

/-- One slot is always kept free. -/
theorem Refines.empty_iff (h : d.Refines l) : d.endIndex = d.begIndex ↔ l = [] := by
  obtain ⟨rfl, rfl⟩ | h := h
  · exact iff_of_true rfl rfl
  · have hzero := slot_zero h.beg
    rw [h.last]
    constructor
    · intro heq
      exact List.length_eq_zero_iff.mp ((slot_inj h.room h.pos).mp (heq.trans hzero.symm))
    · rintro rfl
      exact hzero

theorem Refines.ready (h : d.Refines l) (hl : l ≠ []) : d.Ready l :=
  h.resolve_left fun h' => hl h'.2

theorem Ready.position {i : Nat} (hd : d.Ready l) (hi : i < l.length) :
    d.position i = .ok (slot d.capacity d.begIndex i) := by
  have hbeg := hd.beg
  have hroom := hd.room
  have hcap := hd.capacity_le
  rw [Deque.position, umod_eq hd.ne_zero, u64_of_lt (by omega)]
  rfl

/-- The value that is pushed. -/
theorem Refines.read (h : d.Refines l) {d' : Deque T} {x : Source T}
    (hkeeps : d.keeps (d.size + 1) → d' = d)
    (hx : ∀ i, x = .own i → i < l.length ∧ d.keeps (d.size + 1)) :
    ∃ v, d.read d' x = .ok v ∧ x.onList l = some v := by
  cases x with
  | value v => exact ⟨v, rfl, rfl⟩
  | own i =>
    obtain ⟨hi, hk⟩ := hx i rfl
    have hd := h.ready (List.ne_nil_of_length_pos (Nat.zero_lt_of_lt hi))
    refine ⟨l[i], ?_, List.getElem?_eq_getElem hi⟩
    rw [Deque.read, hd.position hi, ok_bind, if_pos hk, hkeeps hk, hd.object hi]

theorem Refines.pushBack (h : d.Refines l) {x : Source T} (hfits : Fits l room sizeof)
    (hx : ∀ i, x = .own i → i < l.length ∧ d.keeps (d.size + 1)) :
    Ensures (d.pushBack room sizeof x) (· = .outOfMemory)
      fun d' => d'.Ready (l ++ (x.onList l).toList) := by
  refine (h.reserve_succ hfits).bind fun d' hd' => ?_
  obtain ⟨v, hread, hv⟩ := h.read hd'.2.2 hx
  rw [hread, ok_bind, hv]
  exact hd'.1.construct_back hd'.2.1

theorem Refines.pushFront (h : d.Refines l) {x : Source T} (hfits : Fits l room sizeof)
    (hx : ∀ i, x = .own i → i < l.length ∧ d.keeps (d.size + 1)) :
    Ensures (d.pushFront room sizeof x) (· = .outOfMemory)
      fun d' => d'.Ready ((x.onList l).toList ++ l) := by
  refine (h.reserve_succ hfits).bind fun d' hd' => ?_
  obtain ⟨v, hread, hv⟩ := h.read hd'.2.2 hx
  rw [hread, ok_bind, hv]
  exact hd'.1.construct_front hd'.2.1

/-- The kernel pushes a pointer. -/
theorem Refines.pushBack_value (h : d.Refines l) (x : T) (hroom : room < kernelSpace) :
    Ensures (d.pushBack room 8 (.value x)) (· = .outOfMemory) fun d' => d'.Ready (l ++ [x]) :=
  h.pushBack (.inr ⟨rfl, hroom⟩) nofun

theorem Refines.pushFront_value (h : d.Refines l) (x : T) (hroom : room < kernelSpace) :
    Ensures (d.pushFront room 8 (.value x)) (· = .outOfMemory) fun d' => d'.Ready (x :: l) :=
  h.pushFront (.inr ⟨rfl, hroom⟩) nofun

theorem Refines.front {x : T} (h : d.Refines (x :: l)) : d.front = .ok x := by
  have hd := h.ready (List.cons_ne_nil x l)
  have hobject := hd.object (Nat.succ_pos l.length)
  rw [slot_zero hd.beg] at hobject
  exact hobject

theorem Refines.popFront {x : T} (h : d.Refines (x :: l)) :
    ∃ d', d.popFront = .ok d' ∧ d'.Ready l :=
  (h.ready (List.cons_ne_nil x l)).popFront

theorem Refines.back (h : d.Refines l) (hl : l ≠ []) :
    d.back = .ok (l.getLast hl) := by
  have hd := h.ready hl
  have hroom := hd.room
  have hpos := List.length_pos_iff.mpr hl
  have hdecr := hd.decr_slot (i := l.length - 1) (by omega)
  rw [Nat.sub_add_cancel hpos, ← hd.last] at hdecr
  rw [Deque.back, hdecr, hd.object (by omega), List.getLast_eq_getElem]

/-- An operation does what it does to the list, and returns the same. -/
theorem Refines.apply (h : d.Refines l) {c : DequeCall T} (ha : c.Admits l) (hc : d.Careful c) :
    Ensures (d.apply leave room sizeof c) (· = .outOfMemory)
      fun r => r.2 = (c.onList l).2 ∧ r.1.Refines (c.onList l).1 := by
  cases c with
  | pushBack x =>
    have hpush : Ensures (d.pushBack room sizeof x) (· = .outOfMemory)
        fun d' => d'.Ready (l ++ (x.onList l).toList) := by
      cases x with
      | value v => exact h.pushBack (.inl ha) nofun
      | own i => exact h.pushBack (.inl ha.1) fun j hj => by cases hj; exact ⟨ha.2, hc⟩
    exact hpush.bind fun d' hd' => ⟨rfl, .inr hd'⟩
  | pushFront x =>
    have hpush : Ensures (d.pushFront room sizeof x) (· = .outOfMemory)
        fun d' => d'.Ready ((x.onList l).toList ++ l) := by
      cases x with
      | value v => exact h.pushFront (.inl ha) nofun
      | own i => exact h.pushFront (.inl ha.1) fun j hj => by cases hj; exact ⟨ha.2, hc⟩
    exact hpush.bind fun d' hd' => ⟨rfl, .inr hd'⟩
  | popBack =>
    obtain ⟨d', hpop, hd'⟩ := (h.ready ha).popBack ha
    rw [Deque.apply, hpop]
    exact ⟨rfl, .inr hd'⟩
  | popFront =>
    cases l with
    | nil => exact absurd rfl ha
    | cons x l =>
      obtain ⟨d', hpop, hd'⟩ := h.popFront
      rw [Deque.apply, hpop]
      exact ⟨rfl, .inr hd'⟩
  | reserve n =>
    have hn : d.keeps n ∨ l.length ≤ n + 1 ∧ n + 1 < 2 ^ 30 := by
      refine (Decidable.em (d.keeps n)).imp_right fun hkeeps => ⟨?_, hc.resolve_left hkeeps⟩
      obtain ⟨rfl, rfl⟩ | hd := h
      · exact Nat.zero_le _
      · have hroom := hd.room
        have hle : d.capacity ≤ n := Nat.le_of_not_lt fun hlt => hkeeps ⟨hd.ne_zero, hlt⟩
        omega
    exact (h.reserve hn).bind fun d' hd' => ⟨rfl, .inr hd'.1⟩
  | index i =>
    have hi : i < l.length := ha
    have hd := h.ready (List.ne_nil_of_length_pos (Nat.zero_lt_of_lt hi))
    rw [Deque.apply, Deque.get, hd.position hi, ok_bind, hd.object hi]
    exact ⟨by rw [DequeCall.onList, List.getElem?_eq_getElem hi]; rfl, h⟩
  | front =>
    cases l with
    | nil => exact absurd rfl ha
    | cons x l =>
      rw [Deque.apply, h.front]
      exact ⟨rfl, h⟩
  | back =>
    rw [Deque.apply, h.back ha]
    exact ⟨by rw [DequeCall.onList, List.getLast?_eq_some_getLast ha]; rfl, h⟩
  | size => exact ⟨by rw [DequeCall.onList, h.size_eq], h⟩
  | empty =>
    have hempty : decide (d.endIndex = d.begIndex) = l.isEmpty := by
      rw [Bool.eq_iff_iff, decide_eq_true_iff, h.empty_iff, List.isEmpty_iff]
    exact ⟨congrArg DequeReply.truth hempty, h⟩
  | iterate =>
    rw [Deque.apply, h.elements]
    exact ⟨rfl, h⟩
  | erase i j =>
    obtain ⟨rfl, -⟩ | hd := h
    · exact absurd rfl hc
    · obtain ⟨d', herase, hd'⟩ := hd.eraseAt leave ha.1 ha.2
      rw [Deque.apply, herase]
      exact ⟨rfl, .inr hd'⟩

end Steps

/-- A deque with the list that it is to hold; a command says what memory is left. -/
def machine (leave : T → T) (sizeof : Nat) :
    Lib.Machine (Deque T × List T) (Nat × DequeCall T) Fault where
  start s := s = (Deque.empty, [])
  admits s c := c.2.Admits s.2
  apply s c := do
    let r ← s.1.apply leave c.1 sizeof c.2
    return (r.1, (c.2.onList s.2).1)

/-- In every state of a run whose operations meet the condition, the class invariant holds and the
elements from `begin()` to `end()` are those of the list; the next operation that meets it does and
returns what it does on the list, unless no memory is left. -/
theorem run_deque {leave : T → T} {sizeof : Nat} {s : Deque T × List T}
    (hr : (machine leave sizeof).Run (fun s c => s.1.Careful c.2) s) :
    s.1.ClassInvariant ∧ (s.1.endIndex = s.1.begIndex ↔ s.2 = []) ∧ s.1.elements = .ok s.2 ∧
      ∀ room c, c.Admits s.2 → s.1.Careful c →
        Ensures (s.1.apply leave room sizeof c) (· = .outOfMemory)
          fun r => r.2 = (c.onList s.2).2 ∧ r.1.elements = .ok (c.onList s.2).1 := by
  have hrefines : s.1.Refines s.2 := by
    refine hr.invariant (I := fun s => s.1.Refines s.2) ?_ fun s s' c hs ha hc happly => ?_
    · rintro s rfl
      exact .inl ⟨rfl, rfl⟩
    · obtain ⟨r, hr, hs'⟩ := bind_eq_ok.mp happly
      obtain rfl := Except.ok.inj hs'
      exact ((hs.apply ha hc).of_ok hr).2
  refine ⟨hrefines.classInvariant, hrefines.empty_iff, hrefines.elements, fun room c ha hc => ?_⟩
  exact (hrefines.apply ha hc).mono (fun _ h => h) fun r h => ⟨h.1, h.2.elements⟩

/-- Elements on both sides of the end of the buffer, of which one in the middle is erased. -/
theorem run_deque_wrapped : ∃ s, (machine (T := Nat) id 8).Run (fun s c => s.1.Careful c.2) s ∧
    decide (s.1.begIndex = 3 ∧ s.1.endIndex = 1 ∧ s.2 = [5, 7]) = true ∧
    s.1.elements = .ok s.2 := by
  have hcheck (s : Deque Nat × List Nat) (c : Nat × DequeCall Nat)
      (hc : decide (c.2.Admits s.2 ∧ s.1.Careful c.2) = true) :
      (machine id 8).admits s c ∧ s.1.Careful c.2 :=
    of_decide_eq_true (p := c.2.Admits s.2 ∧ s.1.Careful c.2) hc
  obtain ⟨s, hs, hP⟩ := Machine.exists_run (M := machine (T := Nat) id 8) hcheck rfl
    [(4096, .pushFront (.value 5)), (4096, .pushBack (.value 6)), (4096, .pushBack (.value 7)),
      (4096, .erase 1 2)]
    (P := fun s => decide (s.1.begIndex = 3 ∧ s.1.endIndex = 1 ∧ s.2 = [5, 7])) (by decide +kernel)
  exact ⟨s, hs, hP, (run_deque hs).2.2.1⟩

/-- The empty range of a deque without a buffer: the distance of its iterators is taken modulo 0. -/
theorem erase_divides : ¬∀ (s : Deque Nat × List Nat) (c : DequeCall Nat),
    (machine id 8).Run (fun _ _ => True) s → c.Admits s.2 →
      ∃ r, s.1.apply id 4096 8 c = .ok r ∧ r.1.elements = .ok (c.onList s.2).1 := by
  intro hall
  obtain ⟨r, hr, -⟩ := hall (Deque.empty, []) (.erase 0 0) (.start rfl) ⟨Nat.le_refl 0, Nat.le_refl 0⟩
  have herror : (Deque.empty : Deque Nat).apply id 4096 8 (.erase 0 0) = .error .divideError := rfl
  cases herror.symm.trans hr

end Deque

end SupOS.Libcpp
