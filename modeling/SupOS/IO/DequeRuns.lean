import SupOS.IO.Deque
import SupOS.Lib.Machine

/-! The members of `Deque<T,N>` one after another: they do what the operations of a list of at most `N`
elements do, and stop the kernel where these have no meaning. -/

namespace SupOS.Input

open Lib

variable {T : Type} {N : Nat}

namespace Deque

inductive Call (T : Type)
  | pushBack (v : T)
  | pushFront (v : T)
  | popBack
  | popFront
  | index (n : Nat)
  | checked (n : Nat)
  | front
  | back
  | size
  | empty

inductive Reply (T : Type)
  | nothing
  | value (v : T)
  | number (n : Nat)
  | truth (b : Bool)
  deriving DecidableEq, Repr

def call (d : Deque T N) : Call T → Except Fault (Deque T N × Reply T)
  | .pushBack v => return (← d.pushBack v, .nothing)
  | .pushFront v => return (← d.pushFront v, .nothing)
  | .popBack => return (← d.popBack, .nothing)
  | .popFront => return (← d.popFront, .nothing)
  | .index n => return (d, .value (d.get n))
  | .checked n => return (d, .value (← d.getChecked n))
  | .front => return (d, .value d.front)
  | .back => return (d, .value d.back)
  | .size => return (d, .number d.size)
  | .empty => return (d, .truth d.empty)

/-- The elements from the first one to the last one. -/
def contents (d : Deque T N) : List T := (List.range d.size).map fun i => d.array ((d.begIndex + i) % N)

/-- What a call does to a list of at most `N` elements, and what it returns. -/
def Call.onList (N : Nat) (l : List T) : Call T → Except Fault (List T × Reply T)
  | .pushBack v => if l.length < N then .ok (l ++ [v], .nothing) else .error .assertion
  | .pushFront v => if l.length < N then .ok (v :: l, .nothing) else .error .assertion
  | .popBack => if l = [] then .error .assertion else .ok (l.dropLast, .nothing)
  | .popFront => if l = [] then .error .assertion else .ok (l.tail, .nothing)
  | .index n => .ok (l, (l[n]?).elim .nothing .value)
  | .checked n => (l[n]?).elim (.error .assertion) fun v => .ok (l, .value v)
  | .front => .ok (l, l.head?.elim .nothing .value)
  | .back => .ok (l, l.getLast?.elim .nothing .value)
  | .size => .ok (l, .number l.length)
  | .empty => .ok (l, .truth l.isEmpty)

/-- The calls that do not check that there is such an element. -/
def Call.Admits (l : List T) : Call T → Prop
  | .front | .back => l ≠ []
  | .index n => n < l.length
  | _ => True

instance (l : List T) : (c : Call T) → Decidable (c.Admits l)
  | .front | .back => inferInstanceAs (Decidable (l ≠ []))
  | .index n => inferInstanceAs (Decidable (n < l.length))
  | .pushBack _ | .pushFront _ | .popBack | .popFront | .checked _ | .size | .empty => .isTrue trivial

/-- The deque holds the list. One of capacity 0 holds no other than the empty one. -/
def Represents (d : Deque T N) (l : List T) : Prop := d.Holds l 0 ∨ N = 0 ∧ d.size = 0 ∧ l = []

/-- The call on the deque does what it does on the list. -/
def Agrees (x : Except Fault (Deque T N × Reply T)) (y : Except Fault (List T × Reply T)) : Prop :=
  match y with
  | .ok r => ∃ d, x = .ok (d, r.2) ∧ d.Represents r.1
  | .error e => x = .error e

variable {d : Deque T N} {l : List T} {c : Call T}

theorem represents_new (N : Nat) (array : Nat → T) : (new N array).Represents [] := by
  rcases Nat.eq_zero_or_pos N with h | h
  · exact .inr ⟨h, rfl, rfl⟩
  · exact .inl (.new h array)

theorem pushBack_full (v : T) (h : N ≤ d.size) : d.pushBack v = .error .assertion := by
  rw [pushBack, decide_eq_false (Nat.not_lt_of_le h)]
  rfl

theorem pushFront_full (v : T) (h : N ≤ d.size) : d.pushFront v = .error .assertion := by
  rw [pushFront, decide_eq_false (Nat.not_lt_of_le h)]
  rfl

theorem popBack_empty (h : d.size = 0) : d.popBack = .error .assertion := by
  rw [popBack, h]
  rfl

theorem popFront_empty (h : d.size = 0) : d.popFront = .error .assertion := by
  rw [popFront, advance, h]
  rfl

namespace Represents

theorem size_eq (h : d.Represents l) : d.size = l.length := by
  obtain h | ⟨-, hsize, rfl⟩ := h
  · exact h.size_eq
  · exact hsize

theorem length_le (h : d.Represents l) : l.length ≤ N := by
  obtain h | ⟨-, -, rfl⟩ := h
  · have hsize := h.size_eq
    have hle := h.size_le
    omega
  · exact Nat.zero_le N

/-- A deque with an element, or with room for one, has slots. -/
theorem holds (h : d.Represents l) (hl : l ≠ [] ∨ l.length < N) : d.Holds l 0 := by
  obtain h | ⟨rfl, -, rfl⟩ := h
  · exact h
  · exact absurd hl (by simp)

theorem contents_eq (h : d.Represents l) : d.contents = l := by
  obtain h | ⟨-, hsize, rfl⟩ := h
  · refine List.ext_getElem ?_ fun i hi hi' => ?_
    · rw [contents, List.length_map, List.length_range, h.size_eq, Nat.add_zero]
    · simp only [contents, List.getElem_map, List.getElem_range]
      exact h.kept i hi'
  · rw [contents, hsize]
    rfl

theorem get (h : d.Represents l) (hN : N < 2 ^ 32) {n : Nat} (hn : n < l.length) : d.get n = l[n] :=
  (h.holds (.inl (List.ne_nil_of_length_pos (Nat.zero_lt_of_lt hn)))).get hN hn

/-- What one call does. -/
theorem call (h : d.Represents l) (hN : N < 2 ^ 32) (ha : c.Admits l) : Agrees (d.call c) (c.onList N l) := by
  have hsize := h.size_eq
  cases c with
  | pushBack v =>
    rw [Call.onList, Deque.call]
    by_cases hlt : l.length < N
    · rw [if_pos hlt]
      obtain ⟨d', hpush, hd'⟩ := ((h.holds (.inr hlt)).pushBack v).returns fun _ he => by omega
      rw [hpush]
      exact ⟨d', rfl, .inl hd'.1⟩
    · rw [if_neg hlt, pushBack_full v (by omega)]
      rfl
  | pushFront v =>
    rw [Call.onList, Deque.call]
    by_cases hlt : l.length < N
    · rw [if_pos hlt]
      obtain ⟨d', hpush, hd'⟩ := ((h.holds (.inr hlt)).pushFront v).returns fun _ he => by omega
      rw [hpush]
      exact ⟨d', rfl, .inl hd'⟩
    · rw [if_neg hlt, pushFront_full v (by omega)]
      rfl
  | popBack =>
    rw [Call.onList, Deque.call]
    by_cases hl : l = []
    · rw [if_pos hl, popBack_empty (by rw [hsize, hl]; rfl)]
      rfl
    · rw [if_neg hl]
      obtain ⟨d', hpop, hd'⟩ := (h.holds (.inl hl)).popBack hl
      rw [hpop]
      exact ⟨d', rfl, .inl hd'⟩
  | popFront =>
    cases l with
    | nil =>
      rw [Call.onList, Deque.call]
      rw [if_pos rfl, popFront_empty hsize]
      rfl
    | cons x l =>
      obtain ⟨d', hadvance, hd', -⟩ := (h.holds (.inl (List.cons_ne_nil x l))).advance
      rw [Call.onList, Deque.call, popFront]
      rw [if_neg (List.cons_ne_nil x l), hadvance]
      exact ⟨_, rfl, .inl hd'.shrink.1⟩
  | index n =>
    have hn : n < l.length := ha
    refine ⟨d, ?_, h⟩
    rw [List.getElem?_eq_getElem hn, Deque.call, h.get hN hn]
    rfl
  | checked n =>
    rw [Call.onList, Deque.call, getChecked]
    by_cases hn : n < l.length
    · rw [decide_eq_true (by omega), List.getElem?_eq_getElem hn, h.get hN hn]
      exact ⟨d, rfl, h⟩
    · rw [decide_eq_false (by omega), List.getElem?_eq_none (Nat.le_of_not_lt hn)]
      rfl
  | front =>
    cases l with
    | nil => exact absurd rfl ha
    | cons x l =>
      refine ⟨d, ?_, h⟩
      rw [Deque.call, (h.holds (.inl ha)).front]
      rfl
  | back =>
    have hl : l ≠ [] := ha
    refine ⟨d, ?_, h⟩
    rw [List.getLast?_eq_some_getLast hl, Deque.call, (h.holds (.inl hl)).back hl]
    rfl
  | size =>
    refine ⟨d, ?_, h⟩
    rw [Deque.call, hsize]
    rfl
  | empty =>
    refine ⟨d, ?_, h⟩
    rw [Deque.call, Deque.empty, hsize]
    cases l <;> rfl

end Represents

/-- A deque with the list that it is to hold. -/
def machine (N : Nat) (array : Nat → T) : Lib.Machine (Deque T N × List T) (Call T) Fault where
  start s := s = (new N array, [])
  admits s c := c.Admits s.2
  apply s c := do
    let r ← s.1.call c
    let r' ← c.onList N s.2
    return (r.1, r'.1)

/-- In every state of a run the elements of the deque are those of the list, of which there are no more
than the capacity, and the next call does and returns what it does on the list. A push to a full deque
and a pop from an empty one fail at their assertion. -/
theorem run_bounded (hN : N < 2 ^ 32) {array : Nat → T} {s : Deque T N × List T}
    (hr : (machine N array).Run (fun _ _ => True) s) :
    s.1.contents = s.2 ∧ s.2.length ≤ N ∧ ∀ c : Call T, c.Admits s.2 →
      (s.1.call c).map (fun r => (r.1.contents, r.2)) = c.onList N s.2 := by
  have hs : s.1.Represents s.2 := by
    refine hr.invariant (I := fun s => s.1.Represents s.2) ?_ fun s s' c hs ha _ happly => ?_
    · rintro s rfl
      exact represents_new N array
    · obtain ⟨r, hcall, happly⟩ := bind_eq_ok.mp happly
      obtain ⟨r', hlist, hs'⟩ := bind_eq_ok.mp happly
      obtain rfl := Except.ok.inj hs'
      have hagrees := hs.call hN ha
      rw [hlist, hcall] at hagrees
      obtain ⟨d, hd, hrepresents⟩ := hagrees
      obtain rfl := Except.ok.inj hd
      exact hrepresents
  refine ⟨hs.contents_eq, hs.length_le, fun c ha => ?_⟩
  have hagrees := hs.call hN ha
  cases hlist : c.onList N s.2 with
  | error e =>
    rw [hlist] at hagrees
    rw [show s.1.call c = .error e from hagrees]
    rfl
  | ok r =>
    rw [hlist] at hagrees
    obtain ⟨d, hd, hrepresents⟩ := hagrees
    rw [hd]
    show Except.ok (d.contents, r.2) = _
    rw [hrepresents.contents_eq]

/-- A full deque whose elements wrap around. -/
theorem run_bounded_full : ∃ s, (machine 3 fun _ => (0 : Nat)).Run (fun _ _ => True) s ∧
    (s.1.begIndex = 2 ∧ s.1.endIndex = 2 ∧ s.2 = [5, 6, 7]) ∧ s.1.contents = s.2 ∧ s.2.length ≤ 3 ∧
    ∀ c : Call Nat, c.Admits s.2 → (s.1.call c).map (fun r => (r.1.contents, r.2)) = c.onList 3 s.2 := by
  have hcheck (s : Deque Nat 3 × List Nat) (c : Call Nat) (hc : decide (c.Admits s.2) = true) :
      (machine 3 fun _ => (0 : Nat)).admits s c ∧ True :=
    ⟨of_decide_eq_true (p := c.Admits s.2) hc, trivial⟩
  obtain ⟨s, hs, hP⟩ := Lib.Machine.exists_run (M := machine 3 fun _ => (0 : Nat)) hcheck rfl
    [.pushBack 6, .pushFront 5, .pushBack 7]
    (P := fun s => decide (s.1.begIndex = 2 ∧ s.1.endIndex = 2 ∧ s.2 = [5, 6, 7])) (by decide +kernel)
  exact ⟨s, hs, of_decide_eq_true hP, run_bounded (by decide) hs⟩

end Deque

end SupOS.Input
