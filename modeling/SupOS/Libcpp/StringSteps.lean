import SupOS.Libcpp.BasicString
import SupOS.Libcpp.DequeRuns
import Mathlib.Data.List.TakeWhile

/-! What the members of `basic_string` do to the bytes that a string holds. -/

namespace SupOS.Libcpp

open Lib

variable {room n i : Nat} {junk : Nat → UInt8} {b l l' m : List UInt8} {s : BasicString}

theorem not_mem_cString (c : List UInt8) : (0 : UInt8) ∉ cString c := by
  intro h
  have := List.mem_takeWhile_imp h
  simp at this

theorem cString_of_not_mem (hl : (0 : UInt8) ∉ l) : cString l = l := by
  rw [cString, List.takeWhile_eq_self_iff]
  intro x hx
  simpa using fun h : x = 0 => hl (h ▸ hx)

/-- The bytes behind a NUL play no part. -/
theorem cString_append_zero (m rest : List UInt8) : cString (m ++ 0 :: rest) = cString m := by
  induction m with
  | nil => rfl
  | cons x m ih =>
    rw [List.cons_append, cString, cString, List.takeWhile_cons, List.takeWhile_cons]
    split
    · exact congrArg (x :: ·) ih
    · rfl

namespace Buffer

theorem load_eq (h : i + n ≤ b.length) : load (some b) i n = .ok ((b.drop i).take n) := by
  unfold load
  split
  · next hn => rw [hn, List.take_zero]
  · exact if_pos h

theorem load_one (h : i < b.length) : load (some b) i 1 = .ok [b[i]] := by
  rw [load_eq h, List.drop_eq_getElem_cons h]
  rfl

theorem store_eq (h : i + m.length ≤ b.length) :
    store (some b) i m = .ok (some (b.take i ++ m ++ b.drop (i + m.length))) := by
  unfold store
  split
  · next hm => rw [hm, List.append_nil, List.length_nil, Nat.add_zero, List.take_append_drop]
  · exact if_pos h

/-- `strlen` stops at the first NUL. -/
theorem cStringAt_cString {rest : List UInt8} (h : b.drop i = m ++ 0 :: rest) :
    cStringAt (some b) i = .ok (cString m) := by
  have hlen := congrArg List.length h
  have hle : (cString m).length ≤ m.length := (List.takeWhile_prefix _).length_le
  rw [List.length_drop, List.length_append, List.length_cons] at hlen
  simp only [cStringAt, h, cString_append_zero]
  rw [if_pos (by omega)]

theorem cStringAt_eq {rest : List UInt8} (h : b.drop i = m ++ 0 :: rest) (hm : (0 : UInt8) ∉ m) :
    cStringAt (some b) i = .ok m := by
  rw [cStringAt_cString h, cString_of_not_mem hm]

end Buffer

namespace BasicString

/-- The buffer `b` of the string `s` begins with the bytes `l`, and has room for the terminator. -/
structure Buffered (s : BasicString) (l b : List UInt8) : Prop where
  data : s.data = some b
  size : s.size = l.length
  capacity : s.capacity = b.length
  lt : l.length < b.length
  take : b.take l.length = l
  le : b.length ≤ 2 ^ 30

/-- The string `s` holds the bytes `l`. -/
def Holds (s : BasicString) (l : List UInt8) : Prop := s = empty ∧ l = [] ∨ ∃ b, s.Buffered l b

theorem Holds.size (h : s.Holds l) : s.size = l.length := by
  obtain ⟨rfl, rfl⟩ | ⟨b, hb⟩ := h
  · rfl
  · exact hb.size

theorem Holds.buffered (h : s.Holds l) (hn : n < s.capacity) : ∃ b, s.Buffered l b := by
  obtain ⟨rfl, rfl⟩ | h := h
  · exact absurd hn (Nat.not_lt_zero n)
  · exact h

theorem Buffered.holds (h : s.Buffered l b) : s.Holds l := .inr ⟨b, h⟩

theorem Holds.length_lt (h : s.Holds l) : l.length < 2 ^ 30 := by
  obtain ⟨rfl, rfl⟩ | ⟨b, hb⟩ := h
  · exact Nat.two_pow_pos 30
  · exact hb.lt.trans_le hb.le

/-- The bytes of a string. -/
theorem Holds.load (h : s.Holds l) : s.data.load 0 l.length = .ok l := by
  obtain ⟨rfl, rfl⟩ | ⟨b, hb⟩ := h
  · rfl
  · rw [hb.data, Buffer.load_eq (by rw [Nat.zero_add]; exact hb.lt.le), List.drop_zero, hb.take]

theorem Holds.load_le (h : s.Holds l) (hn : n ≤ l.length) : s.data.load 0 n = .ok (l.take n) := by
  obtain ⟨rfl, rfl⟩ | ⟨b, hb⟩ := h
  · obtain rfl := Nat.le_zero.mp hn
    rfl
  · rw [hb.data, Buffer.load_eq (by rw [Nat.zero_add]; exact hn.trans hb.lt.le), List.drop_zero,
      ← hb.take, List.take_take, Nat.min_eq_left hn]

/-- Bytes written over a string from a position of it on, behind which it ends. -/
theorem Buffered.store (h : s.Buffered l b) (hi : i ≤ l.length) (hlt : i + m.length < s.capacity) :
    ∃ p, s.data.store i m = .ok p ∧
      Holds { s with data := p, size := i + m.length } (l.take i ++ m) := by
  have hcap := h.capacity
  have hb := h.lt
  refine ⟨_, by rw [h.data, Buffer.store_eq (by omega)], .inr ⟨_, rfl, ?_, ?_, ?_, ?_, ?_⟩⟩
  · rw [List.length_append, List.length_take, Nat.min_eq_left hi]
  · simp only [List.length_append, List.length_take, List.length_drop]
    omega
  · simp only [List.length_append, List.length_take, List.length_drop]
    omega
  · rw [← h.take, List.take_take, Nat.min_eq_left hi]
    exact List.take_left
  · have hle := h.le
    simp only [List.length_append, List.length_take, List.length_drop]
    omega

theorem Holds.store (h : s.Holds l) (hi : i ≤ l.length) (hlt : i + m.length < s.capacity) :
    ∃ p, s.data.store i m = .ok p ∧
      Holds { s with data := p, size := i + m.length } (l.take i ++ m) := by
  obtain ⟨b, hb⟩ := h.buffered hlt
  exact hb.store hi hlt

/-- Bytes written within a string. -/
theorem Buffered.store_inside (h : s.Buffered l b) (hi : i + m.length ≤ l.length) :
    ∃ p, s.data.store i m = .ok p ∧
      Holds { s with data := p } (l.take i ++ m ++ l.drop (i + m.length)) := by
  have hcap := h.capacity
  have hb := h.lt
  have hle := h.le
  have htake : b.take i = l.take i := by
    conv_rhs => rw [← h.take]
    rw [List.take_take, Nat.min_eq_left (by omega)]
  refine ⟨_, by rw [h.data, Buffer.store_eq (by omega)], .inr ⟨_, rfl, ?_, ?_, ?_, ?_, ?_⟩⟩
  · simp only [List.length_append, List.length_take, List.length_drop, h.size]
    omega
  · simp only [List.length_append, List.length_take, List.length_drop]
    omega
  · simp only [List.length_append, List.length_take, List.length_drop]
    omega
  · have hdrop : l.drop (i + m.length) = (b.drop (i + m.length)).take (l.length - (i + m.length)) := by
      conv_lhs => rw [← h.take]
      rw [List.drop_take]
    have hfront : (l.take i ++ m).length = i + m.length := by
      rw [List.length_append, List.length_take, Nat.min_eq_left (by omega)]
    rw [htake, List.length_append, hfront, List.length_drop, ← hfront, List.take_length_add_append,
      hfront, ← hdrop]
  · simp only [List.length_append, List.length_take, List.length_drop]
    omega

/-! ### Room -/

/-- A request for room that is met: the buffer has it, or `strategy` can give it. -/
def Grants (s : BasicString) (n : Nat) : Prop := s.keeps n ∨ n + 2 < 2 ^ 30

instance (s : BasicString) (n : Nat) : Decidable (s.Grants n) := inferInstanceAs (Decidable (_ ∨ _))

theorem Holds.lt_of_grants (h : s.Holds l) (hn : s.Grants n) : n < 2 ^ 30 := by
  rcases hn with hkeeps | hlt
  · obtain ⟨b, hb⟩ := h.buffered hkeeps.2
    have hcap := hb.capacity
    have hle := hb.le
    have hlt := hkeeps.2
    omega
  · omega

theorem allocate_spec (room : Nat) (junk : Nat → UInt8) (n : Nat) :
    Ensures (allocate room junk n) (· = .outOfMemory) fun b => b.length = n := by
  unfold allocate
  split
  · exact (List.length_map _).trans List.length_range
  · exact rfl

theorem Holds.reserve (h : s.Holds l) (hn : s.Grants n) :
    Ensures (s.reserve room junk n) (· = .outOfMemory)
      fun s' => s'.Holds l ∧ n < s'.capacity ∧ (s.keeps n → s' = s) := by
  unfold BasicString.reserve
  split
  · next hkeeps => exact ⟨h, hkeeps.2, fun _ => rfl⟩
  · next hkeeps =>
    have hlt := hn.resolve_left hkeeps
    obtain ⟨k, hmax, hk, hroom⟩ := strategy_pow (n := n + 1) (by omega)
    have hpow : 2 ^ k ≤ 2 ^ 30 := Nat.pow_le_pow_right (by decide) hmax
    rw [u64_of_lt (by omega), hk, ok_bind]
    refine (allocate_spec room junk _).bind fun data hdata => ?_
    obtain ⟨rfl, rfl⟩ | ⟨b, hb⟩ := h
    · refine ⟨.inr ⟨data, rfl, rfl, hdata.symm, ?_, rfl, hdata.trans_le hpow⟩, ?_,
        fun h => absurd h hkeeps⟩
      · rw [hdata, List.length_nil]
        omega
      · show n < 2 ^ k
        omega
    · have hle : l.length ≤ n := by
        by_contra hnot
        exact hkeeps ⟨by rw [hb.size]; omega, by rw [hb.capacity]; have := hb.lt; omega⟩
      simp only [hb.data]
      rw [← hb.data, hb.size, hb.holds.load, ok_bind,
        Buffer.store_eq (by rw [Nat.zero_add, hdata]; omega), ok_bind]
      refine ⟨.inr ⟨_, rfl, rfl, ?_, ?_, ?_, ?_⟩, ?_, fun h => absurd h hkeeps⟩
      · simp only [List.length_append, List.length_take, List.length_drop, hdata]
        omega
      · simp only [List.length_append, List.length_take, List.length_drop, hdata]
        omega
      · rw [List.take_zero, List.nil_append, List.take_left]
      · simp only [List.length_append, List.length_take, List.length_drop, hdata]
        omega
      · show n < 2 ^ k
        omega

/-- What `c_str()` leaves. -/
theorem Holds.cStr (h : s.Holds l) : Ensures (s.cStr room junk) (· = .outOfMemory)
    fun s' => ∃ b, s'.Buffered l b ∧ ∃ rest, b = l ++ 0 :: rest := by
  refine (h.reserve (.inr (by decide))).bind fun s' hs' => ?_
  obtain ⟨b, hb⟩ := hs'.1.buffered hs'.2.1
  have hlt := hb.lt
  have hlen : l.length + ([0] : List UInt8).length ≤ b.length := hlt
  rw [hb.size, hb.data, Buffer.store_eq hlen, ok_bind, hb.take]
  have hle := hb.le
  refine ⟨_, ⟨rfl, rfl, ?_, ?_, ?_, ?_⟩, b.drop (l.length + 1), List.append_assoc ..⟩
  · rw [hb.capacity]
    simp only [List.length_append, List.length_drop]
    omega
  · simp only [List.length_append, List.length_drop]
    omega
  · rw [List.append_assoc, List.take_left]
  · simp only [List.length_append, List.length_drop]
    omega

/-! ### Constructors -/

theorem create_spec (hn : n + 2 < 2 ^ 30) (hm : m.length ≤ n + 1) (hl : m.take n = l)
    (hlen : l.length = n) : Ensures (create room junk n m) (· = .outOfMemory) fun s => s.Holds l := by
  obtain ⟨k, hmax, hk, hroom⟩ := strategy_pow (n := n + 1) (by omega)
  have hpow : 2 ^ k ≤ 2 ^ 30 := Nat.pow_le_pow_right (by decide) hmax
  unfold create
  rw [u64_of_lt (by omega), hk, ok_bind]
  refine (allocate_spec room junk _).bind fun data hdata => ?_
  rw [Buffer.store_eq (by omega), ok_bind]
  refine .inr ⟨_, rfl, hlen.symm, ?_, ?_, ?_, ?_⟩
  · simp only [List.length_append, List.length_take, List.length_drop, hdata]
    omega
  · simp only [List.length_append, List.length_take, List.length_drop, hdata]
    omega
  · have hle : n ≤ m.length := by
      rw [← hlen, ← hl, List.length_take]
      exact Nat.min_le_right ..
    rw [List.take_zero, List.nil_append, hlen, List.take_append_of_le_length hle, hl]
  · simp only [List.length_append, List.length_take, List.length_drop, hdata]
    omega

theorem ofCString_spec (c : List UInt8) (hn : (cString c).length + 2 < 2 ^ 30) :
    Ensures (ofCString room junk c) (· = .outOfMemory) fun s => s.Holds (cString c) :=
  create_spec hn (by simp) List.take_left rfl

theorem ofBytes_spec (hn : l.length + 2 < 2 ^ 30) :
    Ensures (ofBytes room junk l) (· = .outOfMemory) fun s => s.Holds l :=
  create_spec hn (Nat.le_succ _) List.take_length rfl

theorem fill_spec (c : UInt8) (hn : n + 2 < 2 ^ 30) :
    Ensures (fill room junk c n) (· = .outOfMemory) fun s => s.Holds (List.replicate n c) :=
  create_spec hn (by simp) (by simp) List.length_replicate

/-- A string without a NUL is copied whole. -/
theorem Holds.copy (h : s.Holds l) (hl : (0 : UInt8) ∉ l) (hn : l.length + 2 < 2 ^ 30) :
    Ensures (s.copy room junk) (· = .outOfMemory) fun r => r.1.Holds l ∧ r.2.Holds l := by
  refine h.cStr.bind fun s' hs' => ?_
  obtain ⟨b, hb, rest, hrest⟩ := hs'
  rw [hb.data, Buffer.cStringAt_eq (by rw [List.drop_zero, hrest]) hl, ok_bind]
  have hnew : Ensures (ofCString room junk l) _ fun new => new.Holds (cString l) :=
    ofCString_spec l (by rwa [cString_of_not_mem hl])
  rw [cString_of_not_mem hl] at hnew
  exact hnew.bind fun new hnew => ⟨hnew, hb.holds⟩

/-! ### Assignments -/

theorem Holds.assignCString (h : s.Holds l) (c : List UInt8)
    (hn : s.Grants ((cString c).length + 1)) (hc : c.length < 2 ^ 63) :
    Ensures (s.assignCString room junk c) (· = .outOfMemory) fun s' => s'.Holds (cString c) := by
  have hle : (cString c).length ≤ c.length := (List.takeWhile_prefix _).length_le
  unfold BasicString.assignCString
  rw [u64_of_lt (by omega)]
  refine (h.reserve hn).bind fun s' hs' => ?_
  obtain ⟨p, hp, hholds⟩ := hs'.1.store (m := cString c) (Nat.zero_le _) (by omega)
  rw [hp, ok_bind]
  rwa [Nat.zero_add, List.take_zero, List.nil_append] at hholds

/-- A string is assigned to another one. -/
theorem Holds.assign {str : BasicString} (h : s.Holds l) (h' : str.Holds l')
    (hn : s.Grants (l'.length + 1)) :
    Ensures (s.assign room junk str false) (· = .outOfMemory)
      fun r => r.1.Holds l' ∧ r.2.Holds l' := by
  have hlt := h'.length_lt
  unfold BasicString.assign
  rw [h'.size, u64_of_lt (by omega)]
  refine (h.reserve hn).bind fun s' hs' => ?_
  simp only [Bool.false_eq_true, if_false]
  refine h'.cStr.bind fun str' hstr' => ?_
  obtain ⟨b, hb, -⟩ := hstr'
  obtain ⟨p, hp, hholds⟩ := hs'.1.store (m := l') (Nat.zero_le _) (by omega)
  rw [hb.holds.load, ok_bind, hp, ok_bind]
  rw [Nat.zero_add, List.take_zero, List.nil_append] at hholds
  exact ⟨hholds, hb.holds⟩

/-- A string is assigned to itself. -/
theorem Holds.assign_self (h : s.Holds l) (hn : s.Grants (l.length + 1)) :
    Ensures (s.assign room junk s true) (· = .outOfMemory) fun r => r.1.Holds l ∧ r.2.Holds l := by
  have hlt := h.length_lt
  unfold BasicString.assign
  rw [h.size, u64_of_lt (by omega)]
  refine (h.reserve hn).bind fun s' hs' => ?_
  simp only [if_true]
  refine hs'.1.cStr.bind fun str' hstr' => ?_
  obtain ⟨b, hb, -⟩ := hstr'
  obtain ⟨p, hp, hholds⟩ := hb.store (m := l) (Nat.zero_le _) (by
    rw [hb.capacity, Nat.zero_add]
    exact hb.lt)
  rw [hb.holds.load, ok_bind, hp, ok_bind]
  rw [Nat.zero_add, List.take_zero, List.nil_append] at hholds
  exact ⟨hholds, hb.holds⟩

/-! ### Changes of the size -/

/-- The string grows to `n` bytes, or is cut to them. -/
theorem Holds.resize (h : s.Holds l) (c : UInt8) (hn : l.length < n → s.Grants n) :
    Ensures (s.resize room junk n c) (· = .outOfMemory)
      fun s' => s'.Holds ((l ++ List.replicate (n - l.length) c).take n) := by
  unfold BasicString.resize
  rw [h.size]
  split
  · next hlt =>
    refine (h.reserve (hn hlt)).bind fun s' hs' => ?_
    obtain ⟨p, hp, hholds⟩ := hs'.1.store (m := List.replicate (n - l.length) c) le_rfl (by
      rw [List.length_replicate, Nat.add_sub_cancel' hlt.le]
      exact hs'.2.1)
    rw [hs'.1.size, hp, ok_bind]
    rw [List.take_length, List.length_replicate, Nat.add_sub_cancel' hlt.le] at hholds
    rwa [List.take_of_length_le (by simp; omega)]
  · next hge =>
    have hle := Nat.le_of_not_lt hge
    rw [Nat.sub_eq_zero_of_le hle, List.replicate_zero, List.append_nil]
    obtain ⟨rfl, rfl⟩ | ⟨b, hb⟩ := h
    · obtain rfl := Nat.le_zero.mp hle
      exact .inl ⟨rfl, rfl⟩
    · have hlen : (l.take n).length = n := by rw [List.length_take, Nat.min_eq_left hle]
      refine .inr ⟨b, hb.data, hlen.symm, hb.capacity, ?_, ?_, hb.le⟩
      · rw [hlen]
        exact hle.trans_lt hb.lt
      · rw [hlen]
        conv_rhs => rw [← hb.take]
        rw [List.take_take, Nat.min_eq_left hle]

/-- The bytes of another string, or of the string itself, are appended. -/
theorem Holds.append {str : BasicString} {self : Bool} (h : s.Holds l) (h' : str.Holds l')
    (hself : self = true → str = s) (hn : s.Grants (l.length + l'.length + 1)) :
    Ensures (s.append room junk str self) (· = .outOfMemory) fun s' => s'.Holds (l ++ l') := by
  have hlt := h.length_lt
  have hlt' := h'.length_lt
  unfold BasicString.append
  rw [h.size, h'.size, u64_of_lt (by omega)]
  refine (h.reserve hn).bind fun s' hs' => ?_
  -- After the move of a string that is appended to itself, its bytes are read from the new buffer.
  have hsrc : (if self = true then s' else str).Holds l' := by
    cases self with
    | false => exact h'
    | true =>
      obtain rfl := hself rfl
      have hlen := h.size.symm.trans h'.size
      have hload := h.load
      rw [hlen, h'.load] at hload
      rw [Except.ok.inj hload]
      exact hs'.1
  obtain ⟨p, hp, hholds⟩ := hs'.1.store (m := l') le_rfl (by omega)
  rw [List.take_length] at hholds
  dsimp only
  rw [hsrc.size, hsrc.load, ok_bind, hs'.1.size, hp, ok_bind]
  exact hholds

/-- A byte is pushed: another one, or one of the string, which is read from the buffer after `reserve`. -/
theorem Holds.pushBack (h : s.Holds l) {x : Source UInt8} (hn : s.Grants (l.length + 1))
    (hown : ∀ i, x = .own i → i < l.length ∧ s.keeps (l.length + 1)) :
    Ensures (s.pushBack room junk x) (· = .outOfMemory)
      fun s' => s'.Holds (l ++ (x.onList l).toList) := by
  have hlt := h.length_lt
  unfold BasicString.pushBack
  rw [h.size, u64_of_lt (by omega)]
  refine (h.reserve hn).bind fun s' hs' => ?_
  have hread : ∃ c, s.read s' x = .ok [c] ∧ (x.onList l).toList = [c] := by
    cases x with
    | value c => exact ⟨c, rfl, rfl⟩
    | own i =>
      obtain ⟨hi, hkeeps⟩ := hown i rfl
      obtain ⟨b, hb⟩ := hs'.1.buffered hs'.2.1
      have hlt := hb.lt
      refine ⟨l[i], ?_, by rw [Source.onList, List.getElem?_eq_getElem hi]; rfl⟩
      have hget : l[i] = b[i] := by
        conv_lhs => rw [List.getElem_of_eq hb.take.symm hi]
        exact List.getElem_take
      rw [read, h.size, if_pos hkeeps, hb.data, Buffer.load_one (by omega), hget]
  obtain ⟨c, hc, hpushed⟩ := hread
  obtain ⟨p, hp, hholds⟩ := hs'.1.store (m := [c]) le_rfl (show l.length + 1 < s'.capacity by omega)
  rw [List.take_length] at hholds
  rw [hc, ok_bind, hs'.1.size, hp, ok_bind, hpushed]
  exact hholds

/-! ### `erase` -/

/-- The loop moves the bytes behind the range to its place, and reads as many bytes behind the string. -/
theorem shift_eq {diff k : Nat} (hdiff : 0 < diff) (hlen : i + k + diff ≤ b.length) :
    shift diff (some b) (List.range' i k) =
      .ok (some (b.take i ++ (b.drop (i + diff)).take k ++ b.drop (i + k))) := by
  induction k generalizing i b with
  | zero => simp [shift, pure, Except.pure]
  | succ k ih =>
    have hfirst : b.drop (i + diff) = b[i + diff] :: b.drop (i + diff + 1) :=
      List.drop_eq_getElem_cons (by omega)
    have hstep : Buffer.store (some b) i [b[i + diff]] =
        .ok (some (b.take i ++ [b[i + diff]] ++ b.drop (i + 1))) := Buffer.store_eq (by simp; omega)
    have hlen' : (b.take i ++ [b[i + diff]]).length = i + 1 := by
      rw [List.length_append, List.length_take, Nat.min_eq_left (by omega)]
      rfl
    have hbehind : ∀ j, (b.take i ++ [b[i + diff]] ++ b.drop (i + 1)).drop (i + 1 + j) =
        b.drop (i + 1 + j) := fun j => by
      rw [← hlen', List.drop_length_add_append, List.drop_drop, hlen']
    have hrest := ih (i := i + 1) (b := b.take i ++ [b[i + diff]] ++ b.drop (i + 1)) (by
      rw [List.length_append, hlen', List.length_drop]
      omega)
    rw [shift] at hrest
    rw [List.range'_succ, shift, List.foldlM_cons, Buffer.load_one (by omega), ok_bind, hstep, ok_bind,
      hrest, hbehind, hbehind, hfirst, List.take_succ_cons, List.take_left' hlen',
      Nat.add_right_comm i 1 diff, Nat.add_right_comm i 1 k, ← Nat.add_assoc, List.append_assoc (b.take i),
      List.singleton_append]

/-- A range is erased when the bytes that the loop reads are in the buffer. -/
theorem Holds.erase (h : s.Holds l) {first last : Nat} (hle : first ≤ last) (hlast : last ≤ l.length)
    (hn : first = last ∨ l.length + (last - first) ≤ s.capacity) :
    ∃ s', s.erase first last = .ok s' ∧ s'.Holds (l.take first ++ l.drop last) := by
  unfold BasicString.erase
  rcases Nat.eq_or_lt_of_le hle with rfl | hlt
  · rw [if_pos (Nat.sub_self first), List.take_append_drop]
    exact ⟨s, rfl, h⟩
  obtain ⟨b, hb⟩ := h.buffered (n := 0) (by have := hn.resolve_left hlt.ne; omega)
  have hroom := hn.resolve_left hlt.ne
  have hcap := hb.capacity
  have hblt := hb.lt
  have hdiff : 0 < last - first := by omega
  have hloop := shift_eq (b := b) (i := first) (k := s.size - first) hdiff (by rw [hb.size]; omega)
  rw [if_neg (by omega), hb.data, hloop, ok_bind]
  refine ⟨_, rfl, .inr ⟨_, rfl, ?_, ?_, ?_, ?_, ?_⟩⟩
  · simp only [List.length_append, List.length_take, List.length_drop, hb.size]
    omega
  · simp only [List.length_append, List.length_take, List.length_drop, hb.size]
    omega
  · simp only [List.length_append, List.length_take, List.length_drop, hb.size]
    omega
  · have hfirst : l.take first = b.take first := by
      rw [← hb.take, List.take_take, Nat.min_eq_left (by omega)]
    have hrest : l.drop last = (b.drop last).take (l.length - last) := by
      conv_lhs => rw [← hb.take]
      rw [List.drop_take]
    have hmoved : (b.take first).length + (l.length - last) =
        (l.take first ++ l.drop last).length := by
      simp only [List.length_append, List.length_take, List.length_drop]
      omega
    rw [← hmoved, hfirst, hrest, List.append_assoc, List.take_length_add_append,
      Nat.add_sub_cancel' hlt.le, List.take_append_of_le_length, List.take_take, Nat.min_eq_left]
    · rw [hb.size]
      omega
    · rw [List.length_take, List.length_drop, hb.size]
      omega
  · have hble := hb.le
    simp only [List.length_append, List.length_take, List.length_drop, hb.size]
    omega

/-! ### `substr` -/

/-- Within the string, the bytes are those of the string up to a NUL. -/
theorem Buffered.substr_cString (h : s.Buffered l b) {pos len : Nat} (hpos : pos ≤ l.length)
    (hlen : len = npos ∨ pos + len ≤ l.length)
    (hn : (cString ((l.drop pos).take len)).length + 2 < 2 ^ 30) :
    Ensures (s.substr room junk pos len) (· = .outOfMemory)
      fun r => r.1.Holds (cString ((l.drop pos).take len)) ∧ r.2 = s := by
  have hlt := h.lt
  have hl := h.holds.length_lt
  have hmax : npos = 2 ^ 64 - 1 := rfl
  obtain ⟨k, hk, hbound, htake⟩ : ∃ k, (if len = npos then l.length - pos else len) = k ∧
      pos + k ≤ l.length ∧ (l.drop pos).take len = (b.drop pos).take k := by
    have hdrop : l.drop pos = (b.drop pos).take (l.length - pos) := by
      conv_lhs => rw [← h.take]
      rw [List.drop_take]
    by_cases hnpos : len = npos
    · refine ⟨_, if_pos hnpos, by omega, ?_⟩
      rw [hdrop, List.take_take, Nat.min_eq_right (by omega)]
    · have hbound := hlen.resolve_left hnpos
      refine ⟨_, if_neg hnpos, hbound, ?_⟩
      rw [hdrop, List.take_take, Nat.min_eq_left (by omega)]
  rw [htake] at hn ⊢
  unfold BasicString.substr
  rw [h.size, if_neg (Nat.not_lt.mpr hpos)]
  dsimp only
  rw [hk, u64_of_lt (by omega), h.data, Buffer.load_one (by omega), ok_bind,
    Buffer.store_eq (show pos + k + 1 ≤ b.length by omega), ok_bind, List.append_assoc]
  have hfront : (b.take (pos + k)).length = pos + k := by
    rw [List.length_take, Nat.min_eq_left (by omega)]
  have hcut : (b.take (pos + k) ++ ([0] ++ b.drop (pos + k + 1))).drop pos =
      (b.drop pos).take k ++ 0 :: b.drop (pos + k + 1) := by
    rw [List.drop_append_of_le_length (by omega), List.drop_take, Nat.add_sub_cancel_left]
    rfl
  have hback : Buffer.store (some (b.take (pos + k) ++ ([0] ++ b.drop (pos + k + 1)))) (pos + k)
      [b[pos + k]] = .ok (some b) := by
    rw [Buffer.store_eq (by simp; omega), List.take_left' hfront]
    have hbehind : (b.take (pos + k) ++ ([0] ++ b.drop (pos + k + 1))).drop (pos + k + 1) =
        b.drop (pos + k + 1) := by
      rw [← List.append_assoc]
      exact List.drop_left' (by rw [List.length_append, hfront]; rfl)
    rw [List.length_singleton, hbehind, List.append_assoc, List.singleton_append,
      ← List.drop_eq_getElem_cons, List.take_append_drop]
  rw [List.length_singleton, Buffer.cStringAt_cString hcut, ok_bind]
  have hcString := cString_of_not_mem (not_mem_cString ((b.drop pos).take k))
  have hnew : Ensures (ofCString room junk (cString ((b.drop pos).take k))) _ fun res =>
      res.Holds (cString (cString ((b.drop pos).take k))) :=
    ofCString_spec _ (by rwa [hcString])
  rw [hcString] at hnew
  refine hnew.bind fun res hres => ?_
  rw [hback, ok_bind]
  exact ⟨hres, by rw [← h.data, ← h.size]⟩

theorem Buffered.substr (h : s.Buffered l b) {pos len : Nat} (hpos : pos ≤ l.length)
    (hlen : len = npos ∨ pos + len ≤ l.length)
    (hnul : (0 : UInt8) ∉ (l.drop pos).take len) (hn : ((l.drop pos).take len).length + 2 < 2 ^ 30) :
    Ensures (s.substr room junk pos len) (· = .outOfMemory)
      fun r => r.1.Holds ((l.drop pos).take len) ∧ r.2 = s := by
  have hsub : Ensures (s.substr room junk pos len) _ _ :=
    h.substr_cString hpos hlen (by rwa [cString_of_not_mem hnul])
  rwa [cString_of_not_mem hnul] at hsub

/-! ### Comparisons -/

/-- The bytes at which two lists first differ are on the same side of 128, so that `char` orders them as
numbers. -/
def Alike : List UInt8 → List UInt8 → Prop
  | x :: xs, y :: ys => if x = y then Alike xs ys else (x.toNat < 128 ↔ y.toNat < 128)
  | _, _ => True

instance decidableAlike : (l l' : List UInt8) → Decidable (Alike l l')
  | x :: xs, y :: ys =>
    have := decidableAlike xs ys
    inferInstanceAs (Decidable (if x = y then Alike xs ys else (x.toNat < 128 ↔ y.toNat < 128)))
  | [], _ => .isTrue trivial
  | _ :: _, [] => .isTrue trivial

/-- The order of the lists of bytes. -/
def precedes (l l' : List UInt8) : Bool := l.lex l' fun x y => decide (x.toNat < y.toNat)

theorem toInt8_lt_iff {x y : UInt8} (h : x.toNat < 128 ↔ y.toNat < 128) :
    x.toInt8 < y.toInt8 ↔ x.toNat < y.toNat := by
  have htoInt : ∀ z : UInt8, z.toInt8.toInt =
      if z.toNat < 128 then (z.toNat : Int) else z.toNat - 256 := fun z => by
    have hz : z.toInt8.toInt = if 2 * z.toNat < 256 then (z.toNat : Int) else z.toNat - 256 :=
      BitVec.toInt_eq_toNat_cond z.toBitVec
    rw [hz]
    split_ifs <;> omega
  have hx := x.toNat_lt
  have hy := y.toNat_lt
  rw [Int8.lt_iff_toInt_lt, htoInt, htoInt]
  split_ifs <;> omega

/-- The result `c` of a comparison says how the lists are ordered. -/
structure Orders (c : Int) (l l' : List UInt8) : Prop where
  lt : c < 0 ↔ precedes l l' = true
  gt : 0 < c ↔ precedes l' l = true
  eq : c = 0 ↔ l = l'

/-- Bytes are compared up to the end of the shorter list. -/
theorem compareBytes_spec (h : Alike l l') : Orders (compareBytes l l') l l' ∨
    compareBytes l l' = 0 ∧ (precedes l l' = decide (l.length < l'.length)) ∧
      (precedes l' l = decide (l'.length < l.length)) ∧ (l = l' ↔ l.length = l'.length) := by
  induction l generalizing l' with
  | nil =>
    refine .inr ⟨by cases l' <;> rfl, ?_⟩
    cases l' <;> simp [precedes]
  | cons x xs ih =>
    cases l' with
    | nil => exact .inr ⟨rfl, by simp [precedes]⟩
    | cons y ys =>
      rw [Alike] at h
      by_cases hxy : x = y
      · subst hxy
        rw [if_pos rfl] at h
        have hcompare : compareBytes (x :: xs) (x :: ys) = compareBytes xs ys := by
          rw [compareBytes, if_pos rfl]
        have hlex : ∀ as bs, precedes (x :: as) (x :: bs) = precedes as bs := fun as bs => by
          simp [precedes]
        rw [hcompare, hlex, hlex]
        obtain ⟨hlt, hgt, heq⟩ | ⟨hzero, hlt, hgt, heq⟩ := ih h
        · exact .inl ⟨by rw [hlex]; exact hlt, by rw [hlex]; exact hgt, by simpa using heq⟩
        · exact .inr ⟨hzero, by simpa using hlt, by simpa using hgt, by simpa using heq⟩
      · rw [if_neg hxy] at h
        have hne : x.toNat ≠ y.toNat := fun h => hxy (UInt8.toNat_inj.mp h)
        have hcompare : compareBytes (x :: xs) (y :: ys) = if x.toNat < y.toNat then -1 else 1 := by
          simp only [compareBytes, if_neg hxy, toInt8_lt_iff h]
        have hlex : ∀ (u v : UInt8) (us vs : List UInt8), u ≠ v →
            precedes (u :: us) (v :: vs) = decide (u.toNat < v.toNat) := fun u v us vs huv => by
          simp [precedes, huv]
        refine .inl ⟨?_, ?_, ?_⟩
        · rw [hcompare, hlex x y xs ys hxy, decide_eq_true_iff]
          split_ifs <;> omega
        · rw [hcompare, hlex y x ys xs (Ne.symm hxy), decide_eq_true_iff]
          split_ifs <;> omega
        · rw [hcompare]
          exact iff_of_false (by split_ifs <;> decide) fun h => hxy (List.cons.inj h).1

/-- The bytes behind the end of the shorter list make no difference. -/
theorem compareBytes_take : compareBytes (l.take l'.length) l' = compareBytes l l' := by
  induction l generalizing l' with
  | nil => rw [List.take_nil]
  | cons x xs ih =>
    cases l' with
    | nil => rfl
    | cons y ys =>
      rw [List.length_cons, List.take_succ_cons, compareBytes, compareBytes, ih]

theorem compareBytes_take_right : compareBytes l (l'.take l.length) = compareBytes l l' := by
  induction l generalizing l' with
  | nil => cases l' <;> rfl
  | cons x xs ih =>
    cases l' with
    | nil => rfl
    | cons y ys =>
      rw [List.length_cons, List.take_succ_cons, compareBytes, compareBytes, ih]

/-- Lists of one length are equal when no byte differs. -/
theorem compareBytes_eq_zero (h : l.length = l'.length) : compareBytes l l' = 0 ↔ l = l' := by
  induction l generalizing l' with
  | nil =>
    obtain rfl := List.length_eq_zero_iff.mp h.symm
    exact iff_of_true rfl rfl
  | cons x xs ih =>
    cases l' with
    | nil => cases h
    | cons y ys =>
      by_cases hxy : x = y
      · subst hxy
        rw [compareBytes, if_pos rfl, ih (Nat.succ.inj h), List.cons.injEq, and_iff_right rfl]
      · rw [compareBytes, if_neg hxy]
        exact iff_of_false (by split_ifs <;> decide) fun h => hxy (List.cons.inj h).1

end BasicString

end SupOS.Libcpp
