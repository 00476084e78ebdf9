import SupOS.Libc.Malloc
import SupOS.Lib.Blocks

/-! The blocks of the heap in memory: the headers stand one behind another up to the one of size 0, with the
flags and the boundary tags that belong to them. -/

namespace SupOS.Libc.Malloc

open Lib Blocks

variable {m m' : Bytes} {a k n p sz : Nat} {pf pf' f f' : Bool} {b : Block Nat}
  {l l₁ l₂ : List (Block Nat)}

/-! ### Headers -/

/-- The header of a block of `size` bytes that seems valid. -/
def headerOf (size : Nat) (pf f : Bool) : MallocHeader where
  size := BitVec.ofNat 61 (size / 8)
  parity := !(pf ^^ f)
  prevFree := pf
  free := f

@[simp] theorem headerOf_prevFree : (headerOf n pf f).prevFree = pf := rfl

@[simp] theorem headerOf_free : (headerOf n pf f).free = f := rfl

@[simp] theorem headerOf_seemsValid : (headerOf n pf f).seemsValid = true := by
  cases pf <;> cases f <;> rfl

@[simp] theorem headerOf_setFree : (headerOf n pf f).setFree f' = headerOf n pf f' := rfl

@[simp] theorem headerOf_setPFree : (headerOf n pf f).setPFree pf' = headerOf n pf' f := rfl

theorem headerOf_setSize (h : sz % 8 = 0) : (headerOf n pf f).setSize sz = .ok (headerOf sz pf f) := by
  unfold MallocHeader.setSize
  rw [decide_eq_true h]
  rfl

theorem headerOf_getSize (h : n % 8 = 0) (hn : n < 2 ^ 64) : (headerOf n pf f).getSize = n := by
  have hmod : (headerOf n pf f).size.toNat = n / 8 % 2 ^ 61 := BitVec.toNat_ofNat _ _
  rw [MallocHeader.getSize, hmod]
  omega

@[simp] theorem headerOf_zero_size : (headerOf 0 pf f).size = 0 := rfl

theorem headerOf_size_ne (h : n % 8 = 0) (h0 : 0 < n) (hn : n < 2 ^ 64) : (headerOf n pf f).size ≠ 0 := by
  intro hzero
  have hsize : (headerOf n pf f).getSize = n := headerOf_getSize h hn
  rw [MallocHeader.getSize, hzero] at hsize
  exact Nat.ne_of_lt h0 hsize

/-! ### Headers in memory -/

@[simp] theorem load_store {h : MallocHeader} : load (store m a h) a = h := by
  have hword : (store m a h).word (a + 0) 8 = (Bytes.byteOf h.encode).word 0 8 :=
    Bytes.word_blit_same (Nat.le_refl 8)
  rw [Nat.add_zero, Bytes.word_byteOf, Nat.mod_eq_of_lt h.encode_lt] at hword
  rw [load, hword, MallocHeader.decode_encode]

theorem load_store_other {h : MallocHeader} (hne : k + 8 ≤ a ∨ a + 8 ≤ k) :
    load (store m a h) k = load m k := by
  have hword : (store m a h).word k 8 = m.word k 8 := Bytes.word_blit_other hne
  rw [load, hword, load]

theorem store_outside {h : MallocHeader} {y : Nat} (hy : y < a ∨ a + 8 ≤ y) : store m a h y = m y :=
  Bytes.blit_outside hy

theorem load_congr (h : ∀ y, a ≤ y → y < a + 8 → m' y = m y) : load m' a = load m a := by
  have hword : m'.word a 8 = m.word a 8 :=
    Bytes.word_congr fun i hi => h (a + i) (by omega) (by omega)
  rw [load, hword, load]

/-! ### Blocks in memory -/

/-- Block `b` stands at `a`: its header, and its boundary tag if it is free. -/
structure Stands (m : Bytes) (a : Nat) (pf : Bool) (b : Block Nat) : Prop where
  pos : 0 < b.size
  aligned : b.size % 8 = 0
  le : ∀ n ∈ b.used, n ≤ b.size
  header : load m a = headerOf b.size pf b.free
  tag : b.free = true → load m (a + b.size) = load m a

/-- The blocks of a row stand one behind another from `a` on; `pf` tells whether the one before is free. -/
def Row (m : Bytes) : Nat → Bool → List (Block Nat) → Prop
  | _, _, [] => True
  | a, pf, b :: l => Stands m a pf b ∧ Row m (a + 8 + b.size) b.free l

/-- A row with the header of size 0 behind it. -/
def Chain (m : Bytes) (a : Nat) (pf : Bool) (l : List (Block Nat)) : Prop :=
  Row m a pf l ∧ load m (a + span 8 l) = headerOf 0 (lastFree pf l) false

theorem Stands.congr (h : Stands m a pf b) (hm : ∀ y, a ≤ y → y < a + 8 + b.size → m' y = m y) :
    Stands m' a pf b where
  pos := h.pos
  aligned := h.aligned
  le := h.le
  header := (load_congr fun y hy hlt => hm y hy (by omega)).trans h.header
  tag hfree := by
    rw [load_congr fun y hy hlt => hm y (by omega) (by omega), h.tag hfree]
    exact (load_congr fun y hy hlt => hm y hy (by omega)).symm

theorem row_append : Row m a pf (l₁ ++ l₂) ↔ Row m a pf l₁ ∧ Row m (a + span 8 l₁) (lastFree pf l₁) l₂ := by
  induction l₁ generalizing a pf with
  | nil => exact (and_iff_right trivial).symm
  | cons b l₁ ih =>
    rw [List.cons_append, Row, Row, ih, span_cons, lastFree_cons, and_assoc, ← Nat.add_assoc,
      ← Nat.add_assoc]

theorem chain_nil : Chain m a pf [] ↔ load m a = headerOf 0 pf false := and_iff_right trivial

theorem chain_append :
    Chain m a pf (l₁ ++ l₂) ↔ Row m a pf l₁ ∧ Chain m (a + span 8 l₁) (lastFree pf l₁) l₂ := by
  rw [Chain, row_append, span_append, lastFree_append, and_assoc, Chain, Nat.add_assoc]

theorem chain_cons :
    Chain m a pf (b :: l) ↔ Stands m a pf b ∧ Chain m (a + 8 + b.size) b.free l := by
  rw [Chain, Row, and_assoc, Chain, span_cons, lastFree_cons, ← Nat.add_assoc, ← Nat.add_assoc]

theorem Row.congr (h : Row m a pf l) (hm : ∀ y, a ≤ y → y < a + span 8 l → m' y = m y) :
    Row m' a pf l := by
  induction l generalizing a pf with
  | nil => trivial
  | cons b l ih =>
    rw [span_cons] at hm
    exact ⟨h.1.congr fun y hy hlt => hm y hy (by omega), ih h.2 fun y hy hlt => hm y (by omega) (by omega)⟩

theorem Chain.congr (h : Chain m a pf l) (hm : ∀ y, a ≤ y → m' y = m y) : Chain m' a pf l :=
  ⟨h.1.congr fun y hy _ => hm y hy, (load_congr fun y hy _ => hm y (by omega)).trans h.2⟩

/-- A chain starts with a header. -/
theorem Chain.first (h : Chain m a pf l) : ∃ n f, load m a = headerOf n pf f := by
  cases l with
  | nil => exact ⟨0, false, chain_nil.mp h⟩
  | cons b l => exact ⟨b.size, b.free, h.1.1.header⟩

theorem Chain.first_of_closed (h : Chain m a pf l) (hl : Closed l) :
    ∃ n, load m a = headerOf n pf false := by
  cases l with
  | nil => exact ⟨0, chain_nil.mp h⟩
  | cons b l => exact ⟨b.size, closed_cons.mp hl ▸ h.1.1.header⟩

/-- Only the first header of a chain tells of the block before. -/
theorem Chain.setPFree (h : Chain m a pf l) (hl : Closed l) (pf' : Bool) :
    Chain (store m a ((load m a).setPFree pf')) a pf' l := by
  cases l with
  | nil =>
    rw [chain_nil] at h ⊢
    rw [load_store, h, headerOf_setPFree]
  | cons b l =>
    rw [chain_cons] at h ⊢
    refine ⟨⟨h.1.pos, h.1.aligned, h.1.le, ?_, fun hfree => ?_⟩, h.2.congr fun y hy => ?_⟩
    · rw [load_store, h.1.header, headerOf_setPFree]
    · rw [closed_cons.mp hl] at hfree
      cases hfree
    · exact store_outside (by omega)

/-- What is in use in a row lies in it. -/
theorem Row.find_bounds (h : Row m a pf l) (hp : find 8 a l p = some n) :
    a + 8 ≤ p ∧ p + n ≤ a + span 8 l := by
  obtain ⟨l₁, b, l₂, rfl, rfl, hb⟩ := exists_of_find hp
  have hle := (row_append.mp h).2.1.le n hb
  rw [span_append, span_cons]
  omega

/-! ### What is kept in the blocks -/

/-- The bytes in use in a row are the same in both memories. -/
def Kept (m m' : Bytes) (a : Nat) (l : List (Block Nat)) : Prop :=
  ∀ p n, find 8 a l p = some n → ∀ i < n, m' (p + i) = m (p + i)

theorem Kept.of_behind (h : ∀ y, a + 8 ≤ y → m' y = m y) : Kept m m' a l := by
  intro p n hp i _
  exact h _ (Nat.le_add_right_of_le (le_of_find hp))

theorem Kept.cons (h : Kept m m' (a + 8 + b.size) l) (hs : Stands m a pf b)
    (hm : ∀ y, a ≤ y → y < a + 8 + b.size → m' y = m y) : Kept m m' a (b :: l) := by
  intro p n hp i hi
  rw [find] at hp
  split at hp
  · have hle := hs.le n hp
    exact hm _ (by omega) (by omega)
  · exact h p n hp i hi

theorem Kept.cons_of_free (hb : b.free = true) (h : Kept m m' (a + 8 + b.size) l) :
    Kept m m' a (b :: l) := by
  intro p n hp
  rw [find, Block.used_of_free hb] at hp
  split at hp
  · cases hp
  · exact h p n hp

/-- The heap is the row `l`, and ends at the break. -/
structure Holds (B : Bounds) (s : State) (l : List (Block Nat)) : Prop where
  first : s.firstHeader = B.start
  chain : Chain s.mem B.start false l
  coalesced : Coalesced l
  brk : s.Brk = B.start + span 8 l + 8
  limit : s.Brk ≤ B.limit

end SupOS.Libc.Malloc
