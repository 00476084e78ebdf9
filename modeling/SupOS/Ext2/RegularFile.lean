import SupOS.Ext2.Resize
import SupOS.HDD.RegularFile

/-! The contents of a regular file as a list of bytes, and the operations on that list. -/

namespace SupOS.Ext2

open Lib HDD SupOS.Ext2.Geometry

variable {G : Geometry} {M : Nat → Prop} {fs fs' : FS} {ino n addr : Nat} {l bytes : List UInt8}

namespace FS

/-- Inode `ino` is in order, and its bytes are those of `l`. -/
structure Contains (fs : FS) (G : Geometry) (M : Nat → Prop) (ino : Nat) (l : List UInt8) : Prop where
  intact : fs.Intact G M ino
  size : fs.getSize ino = l.length
  bytes : ∀ i, ∀ h : i < l.length, fs.byte G ino i = l[i]

theorem Contains.nil (h : fs.Intact G M ino) (hsize : fs.getSize ino = 0) :
    fs.Contains G M ino [] :=
  ⟨h, hsize, fun _ hi => absurd hi (Nat.not_lt_zero _)⟩

theorem Contains.iReadaddr (hG : G.Sound) (h : fs.Contains G M ino l) (hn : addr + n ≤ l.length) :
    fs.iReadaddr ino addr n = (l.drop addr).take n := by
  rw [iReadaddr_bytes hG h.intact.fit.geometry (h.size.symm ▸ hn)]
  refine List.ext_getElem (by simp; omega) fun i hi hi' => ?_
  rw [List.length_map, List.length_range] at hi
  rw [List.getElem_map, List.getElem_range, List.getElem_take, List.getElem_drop,
    h.bytes _ (by omega)]

/-- A file is cut. -/
theorem Contains.iResize (hG : G.Sound) (hM : G.Metadata M) (h : fs.Contains G M ino l)
    (hsmall : l.length + G.blockSize ≤ 2 ^ 32) (hn : n ≤ l.length) :
    ∃ fs', fs.iResize ino n = .ok fs' ∧ fs'.Contains G M ino (l.take n) := by
  obtain ⟨fs', heq, ht, -⟩ := iResize_pruned hG hM h.intact (hn.trans h.size.ge)
    (h.size.symm ▸ hsmall)
  refine ⟨fs', heq, ht.change.intact h.intact.inode, ?_, fun i hi => ?_⟩
  · rw [ht.size, List.length_take, Nat.min_eq_left hn]
  · rw [List.length_take, Nat.min_eq_left hn] at hi
    have hreach := le_blocksFor hG (fs'.getSize ino)
    rw [← count, ht.size] at hreach
    rw [ht.kept i (by omega), List.getElem_take, h.bytes]

/-- Bytes are written from a position within the file or at its end. -/
theorem Contains.iWriteaddr (hG : G.Sound) (hM : G.Metadata M) (h : fs.Contains G M ino l)
    (haddr : addr ≤ l.length) (hend : addr + bytes.length < 2 ^ 32) :
    Ensures (fs.iWriteaddr ino addr bytes) (· = .bsod "No space on disk :-(")
      fun fs' => fs'.Contains G M ino (overwrite l addr bytes) := by
  by_cases hbytes : bytes = []
  · subst hbytes
    rw [fs.iWriteaddr_nil (haddr.trans h.size.ge)]
    rw [overwrite_nil]
    exact h
  refine (iWriteaddr_spec hG hM h.intact hbytes hend).mono (fun _ he => he.1) fun fs' how => ?_
  have hlen : (overwrite l addr bytes).length = _ := length_overwrite haddr
  refine ⟨how.change.intact h.intact.inode, ?_, fun i hi => ?_⟩
  · rw [how.size, h.size, hlen]
  · have hreach := le_blocksFor hG (fs.getSize ino)
    rw [← count, h.size] at hreach
    rw [getElem_overwrite haddr hi]
    split
    · next hin => rw [how.written i hin.1 hin.2]
    · next hout =>
      have hil : i < l.length := by omega
      rw [how.kept i (by omega) (by omega), List.getD_eq_getElem?_getD, List.getElem?_eq_getElem hil]
      exact h.bytes i hil

end FS

end SupOS.Ext2
