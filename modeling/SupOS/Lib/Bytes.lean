import Mathlib.Tactic.Ring
import Mathlib.Tactic.NormNum
import Mathlib.Tactic.Linarith
import Mathlib.Logic.Function.Basic

/-! Stores of bytes addressed by natural numbers: copying a buffer into a store, little-endian
words, and buffers laid out one after another, as packed structures are. -/

namespace Lib

/-- A store holds a byte at each address.  A buffer is a store addressed from 0. -/
abbrev Bytes := Nat → UInt8

namespace Bytes

/-- The store `m` after the first `n` bytes of `buf` are copied to `addr`. -/
def blit (m : Bytes) (addr n : Nat) (buf : Bytes) : Bytes :=
  fun a => if addr ≤ a ∧ a < addr + n then buf (a - addr) else m a

/-- The bytes of `m` from `addr` on, as a buffer. -/
def view (m : Bytes) (addr : Nat) : Bytes := fun i => m (addr + i)

/-- The bytes of `m` at `addr` to `addr + n - 1`. -/
def list (m : Bytes) (addr n : Nat) : List UInt8 := (List.range n).map fun i => m (addr + i)

/-- The list `bs` as a buffer. -/
def ofList (bs : List UInt8) : Bytes := fun i => bs.getD i 0

@[simp] theorem view_apply (m : Bytes) (addr i : Nat) : m.view addr i = m (addr + i) := rfl

@[simp] theorem length_list (m : Bytes) (addr n : Nat) : (m.list addr n).length = n := by
  simp [list]

theorem getElem_list (m : Bytes) (addr n i : Nat) (h : i < (m.list addr n).length) :
    (m.list addr n)[i] = m (addr + i) := by
  simp [list]

theorem blit_inside {m buf : Bytes} {addr n a : Nat} (h : addr ≤ a) (h' : a < addr + n) :
    m.blit addr n buf a = buf (a - addr) := by
  simp [blit, h, h']

theorem blit_outside {m buf : Bytes} {addr n a : Nat} (h : a < addr ∨ addr + n ≤ a) :
    m.blit addr n buf a = m a := by
  simp only [blit]
  rw [if_neg (by omega)]

theorem blit_offset {m buf : Bytes} {addr n i : Nat} (h : i < n) :
    m.blit addr n buf (addr + i) = buf i := by
  rw [blit_inside (by omega) (by omega), Nat.add_sub_cancel_left]

/-- A buffer that is copied in two parts. -/
theorem blit_append (m buf : Bytes) (a n k : Nat) :
    (m.blit a n buf).blit (a + n) k (buf.view n) = m.blit a (n + k) buf := by
  funext x
  by_cases hx : x < a ∨ a + (n + k) ≤ x
  · rw [blit_outside (by omega), blit_outside (by omega), blit_outside hx]
  · rw [blit_inside (n := n + k) (by omega) (by omega)]
    by_cases hxn : x < a + n
    · rw [blit_outside (by omega), blit_inside (by omega) (by omega)]
    · rw [blit_inside (by omega) (by omega), view_apply]
      congr 1
      omega

theorem blit_zero (m buf : Bytes) (a : Nat) : m.blit a 0 buf = m := by
  funext x
  exact blit_outside (by omega)

theorem list_append (m : Bytes) (a n k : Nat) :
    m.list a n ++ m.list (a + n) k = m.list a (n + k) := by
  refine List.ext_getElem (by simp) fun i hi hi' => ?_
  rw [getElem_list, List.getElem_append]
  split
  · rw [getElem_list]
  · rename_i hle
    rw [length_list] at hle
    rw [getElem_list, length_list]
    congr 1
    omega

/-- The byte of a little-endian number at offset `i`. -/
def byteOf (v : Nat) : Bytes := fun i => UInt8.ofNat (v / 256 ^ i)

/-- The little-endian number in the `k` bytes of `m` from `addr` on. -/
def word (m : Bytes) (addr : Nat) : Nat → Nat
  | 0 => 0
  | k + 1 => (m addr).toNat + 256 * word m (addr + 1) k

/-- Words depend only on their own bytes. -/
theorem word_congr {m m' : Bytes} {a a' : Nat} :
    ∀ {k : Nat}, (∀ i < k, m (a + i) = m' (a' + i)) → m.word a k = m'.word a' k
  | 0, _ => rfl
  | k + 1, h => by
    have h0 : m a = m' a' := h 0 (by omega)
    have hrest : m.word (a + 1) k = m'.word (a' + 1) k := word_congr fun i hi => by
      have := h (i + 1) (by omega)
      rwa [show a + (i + 1) = a + 1 + i by omega, show a' + (i + 1) = a' + 1 + i by omega] at this
    rw [word, word, h0, hrest]

theorem word_lt (m : Bytes) (a : Nat) : ∀ k : Nat, m.word a k < 256 ^ k
  | 0 => by simp [word]
  | k + 1 => by
    have hb : (m a).toNat < 256 := (m a).toNat_lt
    have hw := word_lt m (a + 1) k
    rw [word, pow_succ]
    omega

theorem byteOf_succ (v i : Nat) : byteOf v (i + 1) = byteOf (v / 256) i := by
  simp only [byteOf]
  rw [pow_succ', Nat.div_div_eq_div_mul]

/-- Reading back a number's bytes keeps it modulo the width. -/
theorem word_byteOf (v : Nat) : ∀ k : Nat, (byteOf v).word 0 k = v % 256 ^ k := by
  intro k
  induction k generalizing v with
  | zero => simp [word, Nat.mod_one]
  | succ k ih =>
    have hshift : (byteOf v).word 1 k = (byteOf (v / 256)).word 0 k :=
      word_congr fun i _ => by
        rw [Nat.add_comm 1 i, Nat.zero_add, byteOf_succ]
    have h0 : (byteOf v 0).toNat = v % 256 := by simp [byteOf]
    rw [word, Nat.zero_add, hshift, ih, h0, pow_succ', Nat.mod_mul]

theorem word_blit_same {m buf : Bytes} {addr n off k : Nat} (h : off + k ≤ n) :
    (m.blit addr n buf).word (addr + off) k = buf.word off k :=
  word_congr fun i hi => by rw [Nat.add_assoc, blit_offset (by omega)]

theorem word_blit_other {m buf : Bytes} {addr n a k : Nat} (h : a + k ≤ addr ∨ addr + n ≤ a) :
    (m.blit addr n buf).word a k = m.word a k :=
  word_congr fun i hi => blit_outside (by omega)

theorem word_view (m : Bytes) (addr off k : Nat) :
    (m.view addr).word off k = m.word (addr + off) k :=
  word_congr fun i _ => by rw [view_apply, Nat.add_assoc]

/-- The buffer that holds the first `n` bytes of `b` and then `b'`. -/
def seq (n : Nat) (b b' : Bytes) : Bytes := fun i => if i < n then b i else b' (i - n)

theorem word_seq_left {n off k : Nat} {b b' : Bytes} (h : off + k ≤ n) :
    (seq n b b').word off k = b.word off k :=
  word_congr fun i hi => by simp only [seq]; rw [if_pos (by omega)]

theorem word_seq_right {n off k : Nat} {b b' : Bytes} (h : n ≤ off) :
    (seq n b b').word off k = b'.word (off - n) k :=
  word_congr fun i hi => by
    simp only [seq]
    rw [if_neg (by omega), show off + i - n = off - n + i by omega]

/-- An array of `k`-byte little-endian numbers. -/
def words (k : Nat) (f : Nat → Nat) : Bytes := fun i => byteOf (f (i / k)) (i % k)

theorem word_words {k : Nat} (f : Nat → Nat) (j : Nat) :
    (words k f).word (k * j) k = f j % 256 ^ k := by
  rw [← word_byteOf]
  refine word_congr fun i hi => ?_
  simp only [words, Nat.zero_add]
  rw [Nat.mul_add_div (by omega), Nat.div_eq_of_lt hi, Nat.mul_add_mod, Nat.mod_eq_of_lt hi,
    Nat.add_zero]

end Bytes

end Lib
