import SupOS.Ext2.Scan
import SupOS.HDD.RegularFile
import Mathlib.Data.List.TakeWhile

/-! The records of a directory, one after another in its data, as a list. -/

namespace SupOS.Ext2

open Lib HDD

/-- A record of a directory: the fields of its entry, its name, and the bytes behind the name up to the
next record. -/
structure DirRecord where
  inode : UInt32
  type : UInt8
  name : List UInt8
  rest : List UInt8
  deriving DecidableEq, Repr

theorem DirectoryEntry.length_toList (e : DirectoryEntry) : e.toList.length = 8 :=
  Bytes.length_list ..

/-- An entry is read as it was written. -/
theorem DirectoryEntry.ofBytes_toList (e : DirectoryEntry) :
    DirectoryEntry.ofBytes (.ofList e.toList) = e := by
  have hbyte : ∀ i < 8, Bytes.ofList e.toList i = e.bytes i := by
    intro i hi
    have hlen := e.length_toList
    have hget : ∀ h : i < e.toList.length, e.toList[i] = e.bytes i := by
      intro h
      simp only [toList, Bytes.getElem_list, Nat.zero_add]
    rw [Bytes.ofList, List.getD_eq_getElem?_getD, List.getElem?_eq_getElem (by omega), hget]
    rfl
  have hword : ∀ off k, off + k ≤ 8 → (Bytes.ofList e.toList).word off k = e.bytes.word off k :=
    fun off k hk => Bytes.word_congr fun i hi => hbyte _ (by omega)
  have hinode : e.bytes.word 0 4 = e.inode.toNat := by
    rw [bytes, Bytes.word_seq_left (by omega), Bytes.word_byteOf]
    exact Nat.mod_eq_of_lt e.inode.toNat_lt
  have hrec : e.bytes.word 4 2 = e.recLen.toNat := by
    rw [bytes, Bytes.word_seq_right (by omega), Bytes.word_seq_left (by omega), Bytes.word_byteOf]
    exact Nat.mod_eq_of_lt e.recLen.toNat_lt
  have hname : e.bytes 6 = e.nameLen := by
    simp [bytes, Bytes.seq, Bytes.byteOf]
  have htype : e.bytes 7 = e.type := by
    simp [bytes, Bytes.seq, Bytes.byteOf]
  rw [ofBytes, hword 0 4 (by omega), hword 4 2 (by omega), hbyte 6 (by omega), hbyte 7 (by omega),
    hinode, hrec, hname, htype]
  simp

namespace DirRecord

variable (r : DirRecord)

/-- The value of `rec_len`. -/
def recLen : Nat := 8 + r.name.length + r.rest.length

def entry : DirectoryEntry :=
  ⟨r.inode, UInt16.ofNat r.recLen, UInt8.ofNat r.name.length, r.type⟩

def bytes : List UInt8 := r.entry.toList ++ r.name ++ r.rest

/-- Where the next record may start at the earliest. -/
def curSize : Nat := alignup (8 + r.name.length) 4

/-- The lengths fit in their fields, and records start at multiples of 4. -/
structure Fits (r : DirRecord) : Prop where
  name : r.name.length < 2 ^ 8
  recLen : r.recLen < 2 ^ 16
  aligned : 4 ∣ r.recLen

variable {r}

theorem length_bytes : r.bytes.length = r.recLen := by
  simp only [bytes, List.length_append, DirectoryEntry.length_toList, recLen]

theorem Fits.toNat_recLen (h : r.Fits) : r.entry.recLen.toNat = r.recLen := by
  have := h.recLen
  simp only [entry, UInt16.toNat_ofNat']
  omega

theorem Fits.toNat_nameLen (h : r.Fits) : r.entry.nameLen.toNat = r.name.length := by
  have := h.name
  simp only [entry, UInt8.toNat_ofNat']
  omega

theorem Fits.curSize_le (h : r.Fits) : r.curSize ≤ r.recLen := by
  obtain ⟨k, hk⟩ := h.aligned
  have hle : 8 + r.name.length ≤ r.recLen := Nat.le_add_right _ _
  unfold curSize alignup
  omega

theorem le_curSize : 8 + r.name.length ≤ r.curSize ∧ r.curSize < 8 + r.name.length + 4 ∧
    4 ∣ r.curSize := by
  refine ⟨?_, ?_, ⟨(8 + r.name.length + 4 - 1) / 4, ?_⟩⟩ <;> unfold curSize alignup <;> omega

/-! ### Lists of records -/

/-- The bytes of records one after another. -/
def data (l : List DirRecord) : List UInt8 := l.flatMap bytes

def size (l : List DirRecord) : Nat := (l.map recLen).sum

@[simp] theorem size_nil : size [] = 0 := rfl

@[simp] theorem size_cons (r : DirRecord) (l : List DirRecord) : size (r :: l) = r.recLen + size l := rfl

@[simp] theorem size_append (l l' : List DirRecord) : size (l ++ l') = size l + size l' := by
  simp [size]

@[simp] theorem data_append (l l' : List DirRecord) : data (l ++ l') = data l ++ data l' := by
  simp [data]

@[simp] theorem data_cons (r : DirRecord) (l : List DirRecord) : data (r :: l) = r.bytes ++ data l := by
  simp [data]

theorem length_data (l : List DirRecord) : (data l).length = size l := by
  induction l with
  | nil => rfl
  | cons r l ih => rw [data_cons, List.length_append, length_bytes, ih, size_cons]

/-- From a position on, no record lies on two blocks. -/
def Within (blockSize : Nat) : Nat → List DirRecord → Prop
  | _, [] => True
  | pos, r :: l => pos % blockSize + r.recLen ≤ blockSize ∧ Within blockSize (pos + r.recLen) l

theorem within_append {blockSize pos : Nat} {l l' : List DirRecord} :
    Within blockSize pos (l ++ l') ↔
      Within blockSize pos l ∧ Within blockSize (pos + size l) l' := by
  induction l generalizing pos with
  | nil => simp [Within]
  | cons r l ih =>
    rw [List.cons_append, Within, Within, ih, size_cons, and_assoc, Nat.add_assoc]

/-- The records of a directory of whole blocks. -/
structure Tiled (blockSize : Nat) (l : List DirRecord) : Prop where
  fits : ∀ r ∈ l, r.Fits
  whole : blockSize ∣ size l
  within : Within blockSize 0 l

/-- The entries that are in use, with their names. -/
def dirents (l : List DirRecord) : List Dirent :=
  (l.filter fun r => decide (r.inode ≠ 0)).map fun r => (r.entry, r.name)

@[simp] theorem dirents_append (l l' : List DirRecord) : dirents (l ++ l') = dirents l ++ dirents l' := by
  simp [dirents]

theorem dirents_used {l : List DirRecord} (hr : r.inode ≠ 0) :
    dirents (r :: l) = (r.entry, r.name) :: dirents l := by
  simp [dirents, hr]

theorem dirents_free {l : List DirRecord} (hr : r.inode = 0) : dirents (r :: l) = dirents l := by
  simp [dirents, hr]

/-- The names in use, as C strings, and what they name. -/
def names (l : List DirRecord) : List (List UInt8 × UInt32) :=
  (dirents l).map fun d => (cString d.2, d.1.inode)

@[simp] theorem names_append (l l' : List DirRecord) : names (l ++ l') = names l ++ names l' := by
  simp [names]

theorem names_cons (r : DirRecord) (l : List DirRecord) :
    names (r :: l) = (if r.inode = 0 then [] else [(cString r.name, r.inode)]) ++ names l := by
  by_cases hr : r.inode = 0
  · rw [if_pos hr, names, dirents_free hr]
    rfl
  · rw [if_neg hr, names, dirents_used hr]
    rfl

theorem cString_of_not_mem {name : List UInt8} (h : 0 ∉ name) : cString name = name :=
  List.takeWhile_eq_self_iff.mpr fun c hc => decide_eq_true fun h0 => h (h0 ▸ hc)

/-- The last inode with the name, and 0 if there is none. -/
def lookup (l : List DirRecord) (name : List UInt8) : UInt32 :=
  (names l).foldl (fun inode d => if d.1 = name then d.2 else inode) 0

theorem foldl_lookup (name : List UInt8) (l : List DirRecord) (inode : UInt32) :
    (dirents l).foldl (fun inode d => if cString d.2 = name then d.1.inode else inode) inode =
      (names l).foldl (fun inode d => if d.1 = name then d.2 else inode) inode := by
  rw [names, List.foldl_map]

/-- Names that are not looked for do not matter. -/
theorem foldl_skip {name : List UInt8} {ns : List (List UInt8 × UInt32)}
    (h : name ∉ ns.map Prod.fst) (inode : UInt32) :
    ns.foldl (fun inode d => if d.1 = name then d.2 else inode) inode = inode := by
  induction ns with
  | nil => rfl
  | cons d ns ih =>
    simp only [List.map_cons, List.mem_cons, not_or] at h
    rw [List.foldl_cons, if_neg (Ne.symm h.1), ih h.2]

theorem lookup_insert {l l' : List DirRecord} {name : List UInt8} {inode : UInt32}
    {ns ns' : List (List UInt8 × UInt32)} (hl : names l = ns ++ ns')
    (hl' : names l' = ns ++ (name, inode) :: ns') (hnew : name ∉ (names l).map Prod.fst)
    (n : List UInt8) : lookup l' n = if n = name then inode else lookup l n := by
  rw [hl, List.map_append, List.mem_append, not_or] at hnew
  rw [lookup, lookup, hl, hl', List.foldl_append, List.foldl_cons, List.foldl_append]
  by_cases hn : n = name
  · subst hn
    rw [if_pos rfl, if_pos rfl, foldl_skip hnew.2]
  · rw [if_neg hn, if_neg (Ne.symm hn)]

theorem lookup_erase {l l' : List DirRecord} {name : List UInt8} {inode : UInt32}
    {ns ns' : List (List UInt8 × UInt32)} (hl : names l = ns ++ (name, inode) :: ns')
    (hl' : names l' = ns ++ ns') (honce : name ∉ (ns ++ ns').map Prod.fst) (n : List UInt8) :
    lookup l' n = if n = name then 0 else lookup l n := by
  have hinsert := lookup_insert hl' hl (hl' ▸ honce) n
  by_cases hn : n = name
  · subst hn
    rw [if_pos rfl, lookup, hl', foldl_skip honce]
  · rw [if_neg hn, hinsert, if_neg hn]

/-- What all entries with the name stand for. -/
theorem lookup_of_forall {l : List DirRecord} {name : List UInt8} {i : Nat}
    (hsome : ∃ x ∈ names l, x.1 = name) (hall : ∀ x ∈ names l, x.1 = name → x.2.toNat = i) :
    (lookup l name).toNat = i := by
  unfold lookup
  generalize names l = ns at hsome hall
  have hkeep : ∀ (ns : List (List UInt8 × UInt32)) (inode : UInt32), inode.toNat = i →
      (∀ x ∈ ns, x.1 = name → x.2.toNat = i) →
      (ns.foldl (fun inode d => if d.1 = name then d.2 else inode) inode).toNat = i := by
    intro ns
    induction ns with
    | nil => exact fun inode hinode _ => hinode
    | cons d ns ih =>
      intro inode hinode hall
      obtain ⟨hd, hall⟩ := List.forall_mem_cons.mp hall
      rw [List.foldl_cons]
      split
      case isTrue heq => exact ih _ (hd heq) hall
      case isFalse => exact ih _ hinode hall
  obtain ⟨x, hx, hname⟩ := hsome
  obtain ⟨front, back, rfl⟩ := List.append_of_mem hx
  rw [List.foldl_append, List.foldl_cons, if_pos hname]
  exact hkeep back _ (hall x hx hname) fun y hy =>
    hall y (List.mem_append_right _ (List.mem_cons_of_mem _ hy))

end DirRecord

end SupOS.Ext2
