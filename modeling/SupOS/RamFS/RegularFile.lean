import SupOS.Libcpp.StringSteps
import SupOS.HDD.RegularFile

/-! The regular files of `HDD/RamFS.cpp`, whose contents are a string. -/

namespace SupOS.RamFS

open Lib HDD Libcpp Libcpp.BasicString

/-- `_content`. -/
abbrev RegularFile : Type := BasicString

namespace RegularFile

variable (room : Nat) (junk : Nat → UInt8) (f : RegularFile)

def resize (size : Nat) : Except Fault RegularFile := BasicString.resize room junk f size 0

def writeaddr (addr : Nat) (bytes : List UInt8) : Except Fault RegularFile := do
  let f ← (if f.size < u64 (addr + bytes.length) then
    RegularFile.resize room junk f (u64 (addr + bytes.length)) else .ok f)
  let f ← f.cStr room junk
  return { f with data := ← f.data.store addr bytes }

/-- The bytes that are read, and what `c_str()` leaves. -/
def readaddr (addr size : Nat) : Except Fault (List UInt8 × RegularFile) := do
  assert (decide (u64 (addr + size) ≤ f.size))
  let f ← f.cStr room junk
  return (← f.data.load addr size, f)

def getSize : Nat := f.size

end RegularFile

variable {room n addr : Nat} {junk : Nat → UInt8} {l bytes : List UInt8} {f : RegularFile}

theorem shrink_spec (h : f.Holds l) (hn : n ≤ l.length) :
    Ensures (RegularFile.resize room junk f n) (· = .outOfMemory) fun f' => f'.Holds (l.take n) := by
  have hresize : Ensures (BasicString.resize room junk f n 0) _ _ :=
    h.resize 0 fun hlt => absurd hlt (Nat.not_lt.mpr hn)
  rwa [Nat.sub_eq_zero_of_le hn, List.replicate_zero, List.append_nil] at hresize

theorem writeaddr_spec (h : f.Holds l) (haddr : addr ≤ l.length)
    (hroom : addr + bytes.length ≤ l.length ∨ f.Grants (addr + bytes.length)) :
    Ensures (RegularFile.writeaddr room junk f addr bytes) (· = .outOfMemory)
      fun f' => f'.Holds (overwrite l addr bytes) := by
  have hlt := h.length_lt
  have hend : addr + bytes.length < 2 ^ 30 := by
    rcases hroom with hle | hgrants
    · omega
    · exact h.lt_of_grants hgrants
  -- The file after `resize` has the bytes in front of `addr`, and none behind those that are written.
  obtain ⟨l', hlen, hfront, hbehind, hgrow⟩ : ∃ l', addr + bytes.length ≤ l'.length ∧
      l'.take addr = l.take addr ∧ l'.drop (addr + bytes.length) = l.drop (addr + bytes.length) ∧
      Ensures (if f.size < u64 (addr + bytes.length) then
        RegularFile.resize room junk f (u64 (addr + bytes.length)) else .ok f) (· = .outOfMemory)
        fun f' => f'.Holds l' := by
    rw [u64_of_lt (by omega), h.size]
    by_cases hgrows : l.length < addr + bytes.length
    · rw [if_pos hgrows]
      refine ⟨_, ?_, ?_, ?_, h.resize 0 fun _ => hroom.resolve_left (Nat.not_le.mpr hgrows)⟩
      · simp only [List.length_take, List.length_append, List.length_replicate]
        omega
      · rw [List.take_take, Nat.min_eq_left (by omega), List.take_append_of_le_length haddr]
      · rw [List.drop_of_length_le hgrows.le, List.drop_of_length_le (List.length_take_le ..)]
    · rw [if_neg hgrows]
      exact ⟨l, Nat.le_of_not_lt hgrows, rfl, rfl, h⟩
  refine hgrow.bind fun f' hf' => hf'.cStr.bind fun f'' hf'' => ?_
  obtain ⟨b, hb, -⟩ := hf''
  obtain ⟨p, hp, hholds⟩ := hb.store_inside hlen
  rw [hp, ok_bind]
  rwa [hfront, hbehind] at hholds

theorem readaddr_spec (h : f.Holds l) (hn : addr + n ≤ l.length) :
    Ensures (RegularFile.readaddr room junk f addr n) (· = .outOfMemory)
      fun r => r.1 = (l.drop addr).take n ∧ r.2.Holds l := by
  have hlt := h.length_lt
  unfold RegularFile.readaddr
  rw [h.size, u64_of_lt (by omega), decide_eq_true hn, assert_true, ok_bind]
  refine h.cStr.bind fun f' hf' => ?_
  obtain ⟨b, hb, -⟩ := hf'
  have hblt := hb.lt
  rw [hb.data, Buffer.load_eq (by omega), ok_bind]
  refine ⟨?_, hb.holds⟩
  conv_rhs => rw [← hb.take]
  rw [List.drop_take, List.take_take, Nat.min_eq_left (by omega)]

end SupOS.RamFS
