import Mathlib.Data.List.Basic

/-! The interface `RegularFile` of `HDD/VFS.h`, and what its operations do to the bytes of a file. -/

namespace SupOS.HDD

inductive FileCall
  | resize (size : Nat)
  | writeaddr (addr : Nat) (bytes : List UInt8)
  | readaddr (addr size : Nat)
  | getSize
  deriving DecidableEq, Repr

/-- What a call returns. -/
inductive FileReply
  | nothing
  | bytes (bytes : List UInt8)
  | size (size : Nat)
  deriving DecidableEq, Repr

/-- Bytes written over a list from a position of it on. -/
def overwrite (l : List UInt8) (addr : Nat) (bytes : List UInt8) : List UInt8 :=
  l.take addr ++ bytes ++ l.drop (addr + bytes.length)

theorem length_overwrite {l bytes : List UInt8} {addr : Nat} (haddr : addr ≤ l.length) :
    (overwrite l addr bytes).length = max l.length (addr + bytes.length) := by
  simp only [overwrite, List.length_append, List.length_take, List.length_drop]
  omega

theorem overwrite_nil (l : List UInt8) (addr : Nat) : overwrite l addr [] = l := by
  rw [overwrite, List.append_nil, List.length_nil, Nat.add_zero, List.take_append_drop]

/-- A byte of an overwritten list. -/
theorem getElem_overwrite {l bytes : List UInt8} {addr i : Nat} (haddr : addr ≤ l.length)
    (hi : i < (overwrite l addr bytes).length) : (overwrite l addr bytes)[i] =
      if addr ≤ i ∧ i < addr + bytes.length then bytes.getD (i - addr) 0 else l.getD i 0 := by
  have hfront : (l.take addr).length = addr := by rw [List.length_take, Nat.min_eq_left haddr]
  have hwritten : (l.take addr ++ bytes).length = addr + bytes.length := by
    rw [List.length_append, hfront]
  simp only [overwrite, List.getElem_append, hwritten, hfront, List.getElem_take, List.getElem_drop,
    List.getD_eq_getElem?_getD]
  by_cases hbefore : i < addr
  · rw [dif_pos (by omega), dif_pos hbefore, if_neg (by omega), List.getElem?_eq_getElem (by omega)]
    rfl
  · by_cases hin : i < addr + bytes.length
    · rw [dif_pos hin, dif_neg hbefore, if_pos ⟨by omega, hin⟩, List.getElem?_eq_getElem (by omega)]
      rfl
    · rw [dif_neg hin, if_neg (by omega)]
      have hlen : (overwrite l addr bytes).length = _ := length_overwrite haddr
      have heq : addr + bytes.length + (i - (addr + bytes.length)) = i := by omega
      rw [List.getElem?_eq_getElem (by omega), Option.getD_some]
      congr 1

end SupOS.HDD
