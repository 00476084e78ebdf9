import SupOS.Libcpp.Deque
import SupOS.Descriptors.Counting
import Mathlib.Tactic.SplitIfs

/-! The deque as a list: what each of its members does to the list in its ring. -/

namespace SupOS.Libcpp

open Lib Lib.Ring

theorem usub_eq {a b : Nat} (h : b ≤ a) (ha : a < 2 ^ 64) : usub a b = a - b := by
  rw [usub, u64]
  omega

theorem umod_eq {a m : Nat} (h : m ≠ 0) : umod a m = .ok (a % m) := if_neg h

/-- The room that `strategy` asks for below its overflow. -/
theorem strategy_pow {n : Nat} (h : n + 1 < 2 ^ 30) :
    ∃ k ≤ 30, strategy n = .ok (2 ^ k) ∧ n + 1 < 2 ^ k := by
  have hshift : ∀ k < 31, shiftOne k = 2 ^ k := by decide +kernel
  have hlog : (n + 1).log2 < 30 := (Nat.log2_lt (Nat.succ_ne_zero n)).mpr h
  have hlt : n + 1 < 2 ^ ((n + 1).log2 + 1) := Nat.lt_log2_self
  refine ⟨(n + 1).log2 + 1, hlog, ?_, hlt⟩
  rw [strategy, u64_of_lt (by omega), hshift _ (by omega), decide_eq_true (by omega)]
  rfl

namespace Deque

variable {T : Type}

/-- The ring with the list `l`, and a cell that is kept free. -/
structure Ready (d : Deque T) (l : List T) : Prop where
  capacity : ∃ k ≤ 30, d.capacity = 2 ^ k
  beg : d.begIndex < d.capacity
  room : l.length < d.capacity
  last : d.endIndex = slot d.capacity d.begIndex l.length
  cells : Holds d.cells d.capacity d.begIndex l
  outside : ∀ i, d.capacity ≤ i → d.cells i = none

/-- The deque holds the list. -/
def Refines (d : Deque T) (l : List T) : Prop := d = empty ∧ l = [] ∨ d.Ready l

namespace Ready

variable {d : Deque T} {l : List T} {i j : Nat} {x : T}

theorem pos (hd : d.Ready l) : 0 < d.capacity := Nat.zero_lt_of_lt hd.beg

theorem ne_zero (hd : d.Ready l) : d.capacity ≠ 0 := Nat.ne_of_gt hd.pos

theorem capacity_le (hd : d.Ready l) : d.capacity ≤ 2 ^ 30 := by
  obtain ⟨k, hk, hcap⟩ := hd.capacity
  rw [hcap]
  exact Nat.pow_le_pow_right (by decide) hk

theorem slot_eq (hd : d.Ready l) (hi : i < d.capacity) : slot d.capacity d.begIndex i =
    if d.begIndex + i < d.capacity then d.begIndex + i else d.begIndex + i - d.capacity := by
  have hbeg := hd.beg
  split
  · exact Nat.mod_eq_of_lt ‹_›
  · rw [slot, Nat.mod_eq_sub_mod (by omega), Nat.mod_eq_of_lt (by omega)]

theorem incr_slot (hd : d.Ready l) (hi : i + 1 < d.capacity) :
    d.incr (slot d.capacity d.begIndex i) = slot d.capacity d.begIndex (i + 1) := by
  have hbeg := hd.beg
  rw [incr, hd.slot_eq (i := i) (by omega), hd.slot_eq hi]
  split_ifs <;> omega

theorem decr_slot (hd : d.Ready l) (hi : i + 1 < d.capacity) :
    d.decr (slot d.capacity d.begIndex (i + 1)) = slot d.capacity d.begIndex i := by
  have hbeg := hd.beg
  have hcap := hd.capacity_le
  rw [decr, hd.slot_eq (i := i) (by omega), hd.slot_eq hi, usub_eq (by omega) (by omega)]
  by_cases hwrap : d.begIndex + (i + 1) < d.capacity
  · rw [if_pos hwrap, if_neg (by omega), if_pos (by omega)]
    omega
  · rw [if_neg hwrap]
    split_ifs <;> omega

theorem size_eq (hd : d.Ready l) : d.size = l.length := by
  have hbeg := hd.beg
  have hroom := hd.room
  have hcap := hd.capacity_le
  rw [Deque.size, hd.last, hd.slot_eq hroom]
  by_cases h : d.begIndex + l.length < d.capacity
  · rw [if_pos h, if_pos (by omega)]
    omega
  · rw [if_neg h, if_neg (by omega), usub_eq (by omega) (by omega)]
    omega

theorem object (hd : d.Ready l) (hi : i < l.length) :
    d.object (slot d.capacity d.begIndex i) = .ok l[i] := by
  rw [Deque.object, hd.cells i (Nat.lt_trans hi hd.room), List.getElem?_eq_getElem hi]

theorem iterate (hd : d.Ready l) {fuel : Nat} (hi : i ≤ l.length) (hfuel : l.length - i ≤ fuel) :
    d.iterate fuel (slot d.capacity d.begIndex i) d.endIndex = .ok (l.drop i) := by
  have hroom := hd.room
  induction fuel generalizing i with
  | zero =>
    obtain rfl : i = l.length := by omega
    rw [Deque.iterate, hd.last, if_pos rfl, List.drop_length]
  | succ fuel ih =>
    by_cases hlast : i = l.length
    · subst hlast
      rw [Deque.iterate, hd.last, if_pos rfl, List.drop_length]
    · have hne : slot d.capacity d.begIndex i ≠ d.endIndex := by
        rw [hd.last]
        exact fun h => hlast ((slot_inj (by omega) hroom).mp h)
      have hlt : i < l.length := by omega
      rw [Deque.iterate, if_neg hne, hd.object hlt, ok_bind, hd.incr_slot (by omega),
        ih hlt (by omega), ok_bind, List.drop_eq_getElem_cons hlt]
      rfl

theorem elements (hd : d.Ready l) : d.elements = .ok l := by
  have hroom := hd.room
  have hloop := hd.iterate (Nat.zero_le _) (show l.length - 0 ≤ d.capacity by omega)
  rw [slot_zero hd.beg] at hloop
  exact hloop

theorem construct_back (hd : d.Ready l) (hroom : l.length + 1 < d.capacity) :
    ({ d.construct d.endIndex x with endIndex := d.incr d.endIndex } : Deque T).Ready
      (l ++ [x]) where
  capacity := hd.capacity
  beg := hd.beg
  room := by
    rw [List.length_append]
    exact hroom
  last := by
    rw [hd.last, hd.incr_slot hroom, List.length_append]
    rfl
  cells := by
    rw [hd.last]
    exact hd.cells.pushBack hd.room
  outside i hi := by
    have hlt : slot d.capacity d.begIndex l.length < d.capacity := slot_lt hd.pos
    change Function.update d.cells d.endIndex (some x) i = none
    change d.capacity ≤ i at hi
    rw [hd.last, Function.update_of_ne (by omega)]
    exact hd.outside i hi

theorem outside_update (hd : d.Ready l) {index : Nat} (hindex : index < d.capacity) {v : Option T} :
    ∀ i, d.capacity ≤ i → Function.update d.cells index v i = none := fun i hi => by
  rw [Function.update_of_ne (by omega)]
  exact hd.outside i hi

theorem construct_front (hd : d.Ready l) (hroom : l.length + 1 < d.capacity) :
    ({ d.construct (d.decr d.begIndex) x with begIndex := d.decr d.begIndex } : Deque T).Ready
      (x :: l) := by
  have hbeg := hd.beg
  have hcap := hd.capacity_le
  have hdecr : d.decr d.begIndex < d.capacity ∧
      slot d.capacity (d.decr d.begIndex) 1 = d.begIndex := by
    rw [decr, slot, usub_eq (by omega) (by omega)]
    split
    · rename_i hzero
      exact ⟨by omega, by rw [Nat.sub_add_cancel hd.pos, Nat.mod_self, hzero]⟩
    · exact ⟨by omega, by rw [Nat.sub_add_cancel (by omega), Nat.mod_eq_of_lt hbeg]⟩
  refine ⟨hd.capacity, hdecr.1, hroom, ?_, hd.cells.pushFront hd.room hdecr.1 hdecr.2,
    hd.outside_update hdecr.1⟩
  change d.endIndex = slot d.capacity (d.decr d.begIndex) (l.length + 1)
  rw [hd.last, Nat.add_comm l.length, ← slot_slot, hdecr.2]

theorem destroy (hd : d.Ready l) (hi : i < l.length) :
    d.destroy (slot d.capacity d.begIndex i) = .ok { d with
      cells := Function.update d.cells (slot d.capacity d.begIndex i) none } := by
  rw [Deque.destroy, hd.object hi]
  rfl

theorem popBack (hd : d.Ready l) (hl : l ≠ []) : ∃ d', d.popBack = .ok d' ∧ d'.Ready l.dropLast := by
  have hroom := hd.room
  have hpos := List.length_pos_iff.mpr hl
  have hdecr : d.decr d.endIndex = slot d.capacity d.begIndex (l.length - 1) := by
    have := hd.decr_slot (i := l.length - 1) (by omega)
    rwa [Nat.sub_add_cancel hpos, ← hd.last] at this
  refine ⟨{ d with
    cells := Function.update d.cells (slot d.capacity d.begIndex (l.length - 1)) none
    endIndex := slot d.capacity d.begIndex (l.length - 1) }, ?_, hd.capacity, hd.beg, ?_, ?_,
    hd.cells.popBack (Nat.le_of_lt hroom) hl, hd.outside_update (slot_lt hd.pos)⟩
  · simp only [Deque.popBack, hd.size_eq, decide_eq_true hpos, assert_true, ok_bind, hdecr,
      hd.destroy (show l.length - 1 < l.length by omega), pure, Except.pure]
  · rw [List.length_dropLast]
    exact Nat.lt_of_le_of_lt (Nat.sub_le ..) hroom
  · rw [List.length_dropLast]

theorem popFront (hd : d.Ready (x :: l)) : ∃ d', d.popFront = .ok d' ∧ d'.Ready l := by
  have hroom := hd.room
  rw [List.length_cons] at hroom
  have hzero : slot d.capacity d.begIndex 0 = d.begIndex := slot_zero hd.beg
  have hincr : d.incr d.begIndex = slot d.capacity d.begIndex 1 := by
    have := hd.incr_slot (i := 0) (by omega)
    rwa [hzero] at this
  have hdestroy := hd.destroy (i := 0) (Nat.succ_pos _)
  rw [hzero] at hdestroy
  refine ⟨{ d with
    cells := Function.update d.cells d.begIndex none
    begIndex := slot d.capacity d.begIndex 1 }, ?_, hd.capacity, slot_lt hd.pos,
    Nat.lt_of_succ_lt hroom, ?_, hd.cells.popFront hd.beg (Nat.lt_of_succ_lt hroom),
    hd.outside_update hd.beg⟩
  · have hsize : 0 < (x :: l).length := Nat.succ_pos _
    rw [Deque.popFront, hd.size_eq, decide_eq_true hsize, assert_true, ok_bind, hdestroy, ok_bind,
      ← hincr]
    rfl
  · change d.endIndex = slot d.capacity (slot d.capacity d.begIndex 1) l.length
    rw [slot_slot, hd.last, List.length_cons, Nat.add_comm]

end Ready

section Reserve

variable {d : Deque T} {l : List T} {room sizeof n : Nat}

theorem keeps_empty : ¬(empty : Deque T).keeps n := fun h => h.1 rfl

/-- A list in cells of its own. -/
theorem ready_data {k : Nat} (hk : k ≤ 30) (hlt : l.length < 2 ^ k) :
    (⟨fun i => l[i]?, 2 ^ k, 0, l.length⟩ : Deque T).Ready l where
  capacity := ⟨k, hk, rfl⟩
  beg := Nat.pow_pos (by decide)
  room := hlt
  last := by rw [slot, Nat.zero_add, Nat.mod_eq_of_lt hlt]
  cells i hi := by rw [slot, Nat.zero_add, Nat.mod_eq_of_lt hi]
  outside i hi := List.getElem?_eq_none (Nat.le_trans (Nat.le_of_lt hlt) hi)

theorem Refines.elements (h : d.Refines l) : d.elements = .ok l := by
  obtain ⟨rfl, rfl⟩ | h := h
  · rfl
  · exact h.elements

theorem Refines.size_eq (h : d.Refines l) : d.size = l.length := by
  obtain ⟨rfl, rfl⟩ | h := h
  · rfl
  · exact h.size_eq

theorem Refines.reserve (h : d.Refines l) (hn : d.keeps n ∨ l.length ≤ n + 1 ∧ n + 1 < 2 ^ 30) :
    Ensures (d.reserve room sizeof n) (· = .outOfMemory)
      fun d' => d'.Ready l ∧ n < d'.capacity ∧ (d.keeps n → d' = d) := by
  unfold Deque.reserve
  refine .ite (fun hkeeps => ?_) fun hkeeps => ?_
  · obtain ⟨rfl, rfl⟩ | h := h
    · exact absurd hkeeps keeps_empty
    · exact ⟨h, hkeeps.2, fun _ => rfl⟩
  · obtain ⟨hlen, hbound⟩ := hn.resolve_left hkeeps
    obtain ⟨k, hk, hstrategy, hlt⟩ := strategy_pow hbound
    rw [hstrategy, ok_bind]
    refine .ite (fun _ => rfl) fun _ => ?_
    rw [h.elements, ok_bind, h.size_eq]
    exact ⟨ready_data hk (by omega), Nat.lt_of_succ_lt hlt, fun h => absurd h hkeeps⟩

/-- No memory is left for the room that `strategy` asks for past its overflow. -/
theorem reserve_overflow (h : ¬d.keeps (2 ^ 30)) (hroom : room < kernelSpace) :
    d.reserve room 8 (2 ^ 30) = .error .outOfMemory := by
  have hstrategy : strategy (2 ^ 30) = .ok (2 ^ 64 - 2 ^ 31) := by decide +kernel
  have hfull : room < u64 ((2 ^ 64 - 2 ^ 31) * 8) := Nat.lt_trans hroom (by decide)
  rw [Deque.reserve, if_neg h, hstrategy, ok_bind, if_pos hfull]

/-- A push keeps below 2 ^ 30 elements, or is made by the kernel on pointers. -/
def Fits (l : List T) (room sizeof : Nat) : Prop :=
  l.length + 1 < 2 ^ 30 ∨ sizeof = 8 ∧ room < kernelSpace

/-- Room for one more. -/
theorem Refines.reserve_succ (h : d.Refines l) (hfits : Fits l room sizeof) :
    Ensures (d.reserve room sizeof (d.size + 1)) (· = .outOfMemory)
      fun d' => d'.Ready l ∧ l.length + 1 < d'.capacity ∧ (d.keeps (d.size + 1) → d' = d) := by
  rw [h.size_eq]
  by_cases hlen : l.length + 1 < 2 ^ 30
  · refine h.reserve ?_
    by_cases hkeeps : d.keeps (l.length + 1)
    · exact .inl hkeeps
    · refine .inr ⟨by omega, ?_⟩
      obtain ⟨rfl, rfl⟩ | h := h
      · change 0 + 1 + 1 < 2 ^ 30
        decide
      · obtain ⟨k, hk, hcap⟩ := h.capacity
        have hroom := h.room
        have hle : d.capacity ≤ l.length + 1 := Nat.le_of_not_lt fun hlt => hkeeps ⟨h.ne_zero, hlt⟩
        have hk29 : k ≤ 29 := by
          refine Nat.le_of_lt_succ (Nat.lt_of_le_of_ne hk fun h30 => ?_)
          rw [h30] at hcap
          omega
        have hpow : d.capacity ≤ 2 ^ 29 := hcap ▸ Nat.pow_le_pow_right (by decide) hk29
        omega
  · obtain ⟨rfl, hmemory⟩ := hfits.resolve_left hlen
    obtain ⟨rfl, rfl⟩ | h := h
    · exact absurd (show 0 + 1 < 2 ^ 30 by decide) hlen
    · have hroom := h.room
      have hcap := h.capacity_le
      have hfull : l.length + 1 = 2 ^ 30 := by omega
      have hkeeps : ¬d.keeps (2 ^ 30) := fun h => absurd h.2 (Nat.not_lt.mpr hcap)
      rw [hfull, reserve_overflow hkeeps hmemory]
      rfl

end Reserve

section Erase

variable {d : Deque T} {l : List T} {i j n : Nat}

namespace Ready

/-- The distance between two places. -/
theorem distance (hd : d.Ready l) (hij : i ≤ j) (hj : j < d.capacity) :
    (slot d.capacity d.begIndex j + d.capacity - slot d.capacity d.begIndex i) % d.capacity =
      j - i := by
  have hbeg := hd.beg
  rw [hd.slot_eq hj, hd.slot_eq (Nat.lt_of_le_of_lt hij hj)]
  by_cases hi : d.begIndex + i < d.capacity
  · rw [if_pos hi]
    by_cases hj' : d.begIndex + j < d.capacity
    · rw [if_pos hj', show d.begIndex + j + d.capacity - (d.begIndex + i) = j - i + d.capacity by
        omega, Nat.add_mod_right, Nat.mod_eq_of_lt (by omega)]
    · rw [if_neg hj', show d.begIndex + j - d.capacity + d.capacity - (d.begIndex + i) = j - i by
        omega, Nat.mod_eq_of_lt (by omega)]
  · rw [if_neg hi, if_neg (by omega), show d.begIndex + j - d.capacity + d.capacity -
      (d.begIndex + i - d.capacity) = j - i + d.capacity by omega, Nat.add_mod_right,
      Nat.mod_eq_of_lt (by omega)]

/-- One object of `move` and of its source. -/
theorem moveOne (hd : d.Ready l) (hij : i < j) (hj : j < l.length) {y : T} :
    ((d.construct (slot d.capacity d.begIndex j) y).construct (slot d.capacity d.begIndex i)
      l[j]).Ready ((l.set j y).set i l[j]) where
  capacity := hd.capacity
  beg := hd.beg
  room := by
    rw [List.length_set, List.length_set]
    exact hd.room
  last := by
    rw [List.length_set, List.length_set]
    exact hd.last
  cells := by
    have hroom := hd.room
    have hset := hd.cells.set (x := y) hj (Nat.le_of_lt hroom)
    exact hset.set (by rw [List.length_set]; omega) (by rw [List.length_set]; omega)
  outside k hk := by
    have hslot (m : Nat) : slot d.capacity d.begIndex m < d.capacity := slot_lt hd.pos
    change d.capacity ≤ k at hk
    change Function.update (Function.update d.cells _ _) _ _ k = none
    rw [Function.update_of_ne (by have := hslot i; omega),
      Function.update_of_ne (by have := hslot j; omega), hd.outside k hk]

theorem moveRange (leave : T → T) (hd : d.Ready l) {fuel : Nat} (hij : i < j) (hj : j ≤ l.length)
    (hfuel : l.length - j ≤ fuel) :
    ∃ d' l', Deque.moveRange leave fuel (slot d.capacity d.begIndex j) d.endIndex
        (slot d.capacity d.begIndex i) d = .ok d' ∧ d'.Ready l' ∧ d'.capacity = d.capacity ∧
      d'.begIndex = d.begIndex ∧ d'.endIndex = d.endIndex ∧ l'.length = l.length ∧
      l'.take (i + (l.length - j)) = l.take i ++ l.drop j := by
  have hroom := hd.room
  induction fuel generalizing i j d l with
  | zero =>
    obtain rfl : j = l.length := by omega
    refine ⟨d, l, ?_, hd, rfl, rfl, rfl, rfl, by simp⟩
    rw [Deque.moveRange, ← hd.last, if_pos rfl]
  | succ fuel ih =>
    by_cases hlast : j = l.length
    · subst hlast
      refine ⟨d, l, ?_, hd, rfl, rfl, rfl, rfl, by simp⟩
      rw [Deque.moveRange, ← hd.last, if_pos rfl]
    · have hlt : j < l.length := by omega
      have hne : slot d.capacity d.begIndex j ≠ d.endIndex := by
        rw [hd.last]
        exact fun h => hlast ((slot_inj (by omega) hroom).mp h)
      have hnext := hd.moveOne hij hlt (y := leave l[j])
      have hlen : ((l.set j (leave l[j])).set i l[j]).length = l.length := by simp
      obtain ⟨d', l', hmove, hready, hcap, hbeg, hend, hlen', htake⟩ := ih hnext
        (Nat.succ_lt_succ hij) (by rw [hlen]; exact hlt) (by rw [hlen]; omega)
        (by rw [hlen]; exact hroom)
      refine ⟨d', l', ?_, hready, hcap, hbeg, hend, hlen'.trans hlen, ?_⟩
      · rw [Deque.moveRange, if_neg hne, hd.object hlt, ok_bind, hd.object (by omega), ok_bind,
          hd.incr_slot (by omega), hd.incr_slot (by omega)]
        exact hmove
      · rw [hlen] at htake
        rw [show i + (l.length - j) = i + 1 + (l.length - (j + 1)) by omega, htake]
        have hi : i < l.length := by omega
        rw [List.take_succ_eq_append_getElem (by simpa using hi), List.getElem_set_self,
          List.take_set_of_le (Nat.le_refl i), List.take_set_of_le (Nat.le_of_lt hij),
          List.drop_set_of_lt (by omega), List.drop_set_of_lt (by omega), List.append_assoc,
          List.drop_eq_getElem_cons hlt]
        rfl

/-- The destructors of the places from `n` on, where those from `i` to `n` are empty already. -/
theorem destroyRange (hd : d.Ready l) {fuel : Nat} {d' : Deque T} (hcap : d'.capacity = d.capacity)
    (hbeg : d'.begIndex = d.begIndex) (hi : i ≤ n) (hn : n ≤ l.length) (hfuel : l.length - n ≤ fuel)
    (hcells : ∀ k < d.capacity, d'.cells (slot d.capacity d.begIndex k) =
      if i ≤ k ∧ k < n then none else l[k]?) (hout : ∀ k, d.capacity ≤ k → d'.cells k = none) :
    ∃ d'', Deque.destroyRange fuel (slot d.capacity d.begIndex n) d.endIndex d' = .ok d'' ∧
      d''.capacity = d.capacity ∧ d''.begIndex = d.begIndex ∧ d''.endIndex = d'.endIndex ∧
      Holds d''.cells d.capacity d.begIndex (l.take i) ∧ ∀ k, d.capacity ≤ k → d''.cells k = none := by
  have hroom := hd.room
  have hdone {cells : Nat → Option T} (hcells : ∀ k < d.capacity,
      cells (slot d.capacity d.begIndex k) = if i ≤ k ∧ k < l.length then none else l[k]?) :
      Holds cells d.capacity d.begIndex (l.take i) := by
    intro k hk
    rw [hcells k hk, List.getElem?_take]
    by_cases hik : k < i
    · rw [if_neg (by omega), if_pos hik]
    · rw [if_neg hik]
      by_cases hkn : k < l.length
      · rw [if_pos ⟨by omega, hkn⟩]
      · rw [if_neg (by omega), List.getElem?_eq_none (by omega)]
  induction fuel generalizing n d' with
  | zero =>
    have hlast : n = l.length := by omega
    refine ⟨d', ?_, hcap, hbeg, rfl, hdone (hlast ▸ hcells), hout⟩
    rw [Deque.destroyRange, hd.last, hlast, if_pos rfl]
  | succ fuel ih =>
    by_cases hlast : n = l.length
    · refine ⟨d', ?_, hcap, hbeg, rfl, hdone (hlast ▸ hcells), hout⟩
      rw [Deque.destroyRange, hd.last, hlast, if_pos rfl]
    · have hlt : n < l.length := by omega
      have hne : slot d.capacity d.begIndex n ≠ d.endIndex := by
        rw [hd.last]
        exact fun h => hlast ((slot_inj (by omega) hroom).mp h)
      have hobject : d'.object (slot d.capacity d.begIndex n) = .ok l[n] := by
        rw [Deque.object, hcells n (by omega), if_neg (by omega), List.getElem?_eq_getElem hlt]
      have hincr : d'.incr (slot d.capacity d.begIndex n) = slot d.capacity d.begIndex (n + 1) := by
        rw [← hd.incr_slot (by omega), incr, incr, hcap]
      have hcells' : ∀ k < d.capacity, Function.update d'.cells (slot d.capacity d.begIndex n) none
          (slot d.capacity d.begIndex k) = if i ≤ k ∧ k < n + 1 then none else l[k]? := by
        intro k hk
        by_cases hkn : k = n
        · subst hkn
          rw [Function.update_self, if_pos ⟨hi, Nat.lt_succ_self k⟩]
        · rw [Function.update_of_ne fun h => hkn ((slot_inj hk (by omega)).mp h), hcells k hk]
          by_cases hrange : i ≤ k ∧ k < n
          · rw [if_pos hrange, if_pos ⟨hrange.1, by omega⟩]
          · rw [if_neg hrange, if_neg (by omega)]
      have hout' : ∀ k, d.capacity ≤ k →
          Function.update d'.cells (slot d.capacity d.begIndex n) none k = none := by
        intro k hk
        have hslot : slot d.capacity d.begIndex n < d.capacity := slot_lt hd.pos
        rw [Function.update_of_ne (by omega), hout k hk]
      obtain ⟨d'', hloop, h⟩ := @ih (n + 1) { d' with
        cells := Function.update d'.cells (slot d.capacity d.begIndex n) none } hcap hbeg
        (Nat.le_succ_of_le hi) hlt (by omega) hcells' hout'
      refine ⟨d'', ?_, h⟩
      rw [Deque.destroyRange, if_neg hne, Deque.destroy, hobject, ok_bind, hincr]
      exact hloop

theorem eraseAt (leave : T → T) (hd : d.Ready l) (hij : i ≤ j) (hj : j ≤ l.length) :
    ∃ d', d.eraseAt leave (d.iterator i) (d.iterator j) = .ok d' ∧
      d'.Ready (l.take i ++ l.drop j) := by
  have hroom := hd.room
  have hcap := hd.capacity_le
  have hslot (k : Nat) : slot d.capacity d.begIndex k < d.capacity := slot_lt hd.pos
  have hiterator (k : Nat) : d.iterator k = slot d.capacity d.begIndex k := if_neg hd.ne_zero
  have hdiff : umod (usub (u64 (slot d.capacity d.begIndex j + d.capacity))
      (slot d.capacity d.begIndex i)) d.capacity = .ok (j - i) := by
    have := hslot i
    have := hslot j
    rw [umod_eq hd.ne_zero, u64_of_lt (by omega), usub_eq (by omega) (by omega),
      hd.distance hij (by omega)]
  simp only [Deque.eraseAt, hiterator, hdiff, ok_bind]
  by_cases hzero : j - i = 0
  · obtain rfl : i = j := by omega
    refine ⟨d, by rw [if_pos hzero]; rfl, ?_⟩
    rwa [List.take_append_drop]
  · rw [if_neg hzero]
    obtain ⟨d₁, l₁, hmove, h₁, hcap₁, hbeg₁, hend₁, hlen₁, htake⟩ :=
      hd.moveRange leave (show i < j by omega) hj (show l.length - j ≤ d.capacity by omega)
    have hn : l₁.length - (j - i) = i + (l.length - j) := by omega
    -- where the destructors start, and the new end
    have hit : umod (u64 (d₁.endIndex + usub d.capacity (j - i))) d.capacity =
        .ok (slot d.capacity d.begIndex (l₁.length - (j - i))) := by
      have := hslot l.length
      rw [umod_eq hd.ne_zero, hend₁, hd.last, usub_eq (by omega) (by omega), u64_of_lt (by omega),
        slot_sub (by omega) (by omega), hlen₁]
    have hlast : umod (usub (u64 (d₁.endIndex + d.capacity)) (j - i)) d.capacity =
        .ok (slot d.capacity d.begIndex (l₁.length - (j - i))) := by
      have := hslot l.length
      rw [umod_eq hd.ne_zero, hend₁, hd.last, u64_of_lt (by omega), usub_eq (by omega) (by omega),
        Nat.add_sub_assoc (by omega), slot_sub (by omega) (by omega), hlen₁]
    have hmod : umod (j - i) d.capacity = .ok (j - i) := by
      rw [umod_eq hd.ne_zero, Nat.mod_eq_of_lt (by omega)]
    obtain ⟨d₂, hdestroy, hcap₂, hbeg₂, hend₂, hcells₂, hout₂⟩ :=
      h₁.destroyRange (i := l₁.length - (j - i)) (n := l₁.length - (j - i)) rfl rfl (Nat.le_refl _)
        (Nat.sub_le ..) (show _ ≤ d.capacity by omega)
        (fun k hk => by rw [if_neg (by omega), h₁.cells k hk]) h₁.outside
    rw [hcap₁, hbeg₁] at hcells₂ hdestroy
    rw [hcap₁] at hcap₂ hout₂
    rw [hbeg₁] at hbeg₂
    refine ⟨{ d₂ with endIndex := slot d.capacity d.begIndex (l₁.length - (j - i)) }, ?_, ?_⟩
    · rw [hmove, ok_bind, hcap₁, hmod, ok_bind, hit, ok_bind, hdestroy, ok_bind, hend₂, hcap₂, hlast]
      rfl
    · have hlen : (l.take i ++ l.drop j).length = l₁.length - (j - i) := by
        simp only [List.length_append, List.length_take, List.length_drop]
        omega
      rw [hn, htake] at hcells₂
      refine ⟨hcap₂ ▸ hd.capacity, ?_, ?_, ?_, ?_, ?_⟩
      · change d₂.begIndex < d₂.capacity
        rw [hcap₂, hbeg₂]
        exact hd.beg
      · rw [hlen]
        change _ < d₂.capacity
        omega
      · rw [hlen]
        change _ = slot d₂.capacity d₂.begIndex _
        rw [hcap₂, hbeg₂]
      · change Holds d₂.cells d₂.capacity d₂.begIndex _
        rw [hcap₂, hbeg₂]
        exact hcells₂
      · change ∀ k, d₂.capacity ≤ k → d₂.cells k = none
        rw [hcap₂]
        exact hout₂

end Ready

end Erase

end Deque

end SupOS.Libcpp
