import SupOS.HDD.HardDrive
import SupOS.Lib.Machine

/-! The disk as an array of bytes: what `readaddr` returns, what `writeaddr` changes, and how many
words each command transfers. -/

namespace SupOS.HDD

open Lib

variable {master : Bool} {d d' : Drive} {lba n k : Nat} {ts : List Transfer}

/-! ### Words -/

theorem word_two (m : Bytes) (p : Nat) : m.word p 2 = (m p).toNat + 256 * (m (p + 1)).toNat := by
  simp [Bytes.word]

theorem low_word (m : Bytes) (p : Nat) : low (UInt16.ofNat (m.word p 2)) = m p := by
  have h₀ := (m p).toNat_lt
  have h₁ := (m (p + 1)).toNat_lt
  refine UInt8.toNat_inj.mp ?_
  rw [low, UInt16.toNat_toUInt8, UInt16.toNat_ofNat', word_two]
  omega

theorem high_word (m : Bytes) (p : Nat) : high (UInt16.ofNat (m.word p 2)) = m (p + 1) := by
  have h₀ := (m p).toNat_lt
  have h₁ := (m (p + 1)).toNat_lt
  refine UInt8.toNat_inj.mp ?_
  rw [high, UInt16.toNat_toUInt8, UInt16.toNat_shiftRight, UInt16.toNat_ofNat', word_two,
    Nat.shiftRight_eq_div_pow]
  simp only [UInt16.reduceToNat, Nat.reduceMod, Nat.reducePow]
  omega

theorem byteOf_word (m : Bytes) (p : Nat) {i : Nat} (hi : i < 2) :
    Bytes.byteOf (UInt16.ofNat (m.word p 2)).toNat i = m (p + i) := by
  have h₀ := (m p).toNat_lt
  have h₁ := (m (p + 1)).toNat_lt
  refine UInt8.toNat_inj.mp ?_
  rw [Bytes.byteOf, UInt8.toNat_ofNat', UInt16.toNat_ofNat', word_two]
  obtain rfl | rfl : i = 0 ∨ i = 1 := by omega
  · simp only [Nat.pow_zero, Nat.div_one, Nat.add_zero]
    omega
  · simp only [Nat.pow_one]
    omega

theorem list_two (m : Bytes) (a : Nat) : m.list a 2 = [m a, m (a + 1)] := rfl

theorem list_one (m : Bytes) (a : Nat) : m.list a 1 = [m a] := rfl

theorem list_zero (m : Bytes) (a : Nat) : m.list a 0 = [] := rfl

/-! ### Commands -/

/-- The drive is selected by the driver, and no transfer is under way. -/
structure Ready (master : Bool) (d : Drive) : Prop where
  master : d.master = master
  idle : d.Idle

/-- The drive after a command for `n` sectors, of which `k` words have been transferred. -/
def Drive.under (d : Drive) (write : Bool) (lba n k : Nat) (ts : List Transfer) : Drive :=
  { d with transfers := ⟨write, lba, n, k⟩ :: ts }

theorem deviceByte_eq (master : Bool) : deviceByte master = Drive.selector master := by
  cases master <;> decide

/-- What is left of a command once its registers are written. -/
theorem issue_spec (lba : Nat) (hr : Ready master d) (hlba : lba < 2 ^ 32) (hpos : 0 < n) (hn : n < 2 ^ 16)
    (write : Bool) : ∃ d₀ : Drive, issue master d lba n (if write then 0x34 else 0x24) =
        .ok (d₀.under write lba n 0 d.transfers) ∧
      d₀.disk = d.disk ∧ d₀.master = d.master ∧ d₀.device = Drive.selector d.master := by
  have hsectors : (UInt8.ofNat (n >>> 8)).toNat * 2 ^ 8 + (UInt8.ofNat n).toNat = n := by
    rw [UInt8.toNat_ofNat', UInt8.toNat_ofNat', Nat.shiftRight_eq_div_pow]
    omega
  have hlba' : (UInt8.ofNat lba).toNat + (UInt8.ofNat (lba >>> 8)).toNat * 2 ^ 8 +
      (UInt8.ofNat (lba >>> 16)).toNat * 2 ^ 16 + (UInt8.ofNat (lba >>> 24)).toNat * 2 ^ 24 +
      (0 : UInt8).toNat * 2 ^ 32 + (0 : UInt8).toNat * 2 ^ 40 = lba := by
    simp only [UInt8.toNat_ofNat', Nat.shiftRight_eq_div_pow, UInt8.toNat_zero]
    omega
  have hidle := hr.idle
  have hmaster := hr.master
  let d₀ : Drive := ⟨d.master, d.disk, ⟨UInt8.ofNat (n >>> 8), UInt8.ofNat n⟩,
    ⟨UInt8.ofNat (lba >>> 24), UInt8.ofNat lba⟩, ⟨0, UInt8.ofNat (lba >>> 8)⟩,
    ⟨0, UInt8.ofNat (lba >>> 16)⟩, Drive.selector d.master, d.transfers⟩
  have hstart (w : Bool) : d₀.start w = d₀.under w lba n 0 d.transfers := by
    have hs : d₀.sectors = n := by
      show (if _ = 0 then _ else _) = n
      rw [hsectors, if_neg (by omega)]
    have hl : d₀.lba = lba := hlba'
    unfold Drive.start Drive.under
    rw [hs, hl]
  refine ⟨d₀, ?_, rfl, rfl, rfl⟩
  unfold issue
  simp only [Drive.outb, ok_bind, Register.push]
  rw [deviceByte_eq, ← hmaster]
  show d₀.command _ = _
  have hassert : assert (decide (d₀.Idle ∧ d₀.device = Drive.selector d₀.master)) = .ok () :=
    assert_eq_ok.mpr (decide_eq_true ⟨hidle, rfl⟩)
  unfold Drive.command
  rw [hassert, ok_bind]
  cases write with
  | false => exact congrArg Except.ok (hstart false)
  | true => exact congrArg Except.ok (hstart true)

/-- The next word of a command that reads. -/
theorem inw_under (hk : k < n * 256) : (d.under false lba n k ts).inw =
    .ok (UInt16.ofNat (d.disk.word (lba * 512 + 2 * k) 2), d.under false lba n (k + 1) ts) := by
  have hassert : assert ((⟨false, lba, n, k⟩ : Transfer).write == false &&
      decide (k < n * 256)) = .ok () := assert_eq_ok.mpr (by simp [hk])
  unfold Drive.inw Drive.step Drive.under
  simp only [hassert, ok_bind]
  rfl

/-- The next word of a command that writes. -/
theorem outw_under (hk : k < n * 256) (w : UInt16) : (d.under true lba n k ts).outw w =
    .ok (({ d with disk := d.disk.blit (lba * 512 + 2 * k) 2 (Bytes.byteOf w.toNat) } :
      Drive).under true lba n (k + 1) ts) := by
  have hassert : assert ((⟨true, lba, n, k⟩ : Transfer).write == true &&
      decide (k < n * 256)) = .ok () := assert_eq_ok.mpr (by simp [hk])
  unfold Drive.outw Drive.step Drive.under
  simp only [hassert, ok_bind]
  rfl

/-! ### Reading -/

theorem skip_spec {offset : Nat} (count : Nat) (hk : k + offset / 2 ≤ n * 256) :
    skip (d.under false lba n k ts) offset count =
      .ok (offset % 2, count + offset / 2, d.under false lba n (k + offset / 2) ts) := by
  induction offset using Nat.twoStepInduction generalizing k count with
  | zero => rfl
  | one => rfl
  | more offset ih _ =>
    have hdiv : (offset + 2) / 2 = offset / 2 + 1 := by omega
    have hmod : (offset + 2) % 2 = offset % 2 := by omega
    unfold skip
    rw [inw_under (by omega), ok_bind]
    simp only
    rw [ih (count + 1) (by omega), hdiv, hmod, Nat.add_assoc, Nat.add_assoc, Nat.add_comm 1]

theorem readWords_spec {size : Nat} (count : Nat) (hk : k + size / 2 ≤ n * 256) :
    readWords (d.under false lba n k ts) size count =
      .ok (d.disk.list (lba * 512 + 2 * k) (size / 2 * 2), size % 2, count + size / 2,
        d.under false lba n (k + size / 2) ts) := by
  induction size using Nat.twoStepInduction generalizing k count with
  | zero => rfl
  | one => rfl
  | more size ih _ =>
    have hdiv : (size + 2) / 2 = size / 2 + 1 := by omega
    have hmod : (size + 2) % 2 = size % 2 := by omega
    unfold readWords
    rw [inw_under (by omega), ok_bind]
    simp only
    rw [ih (count + 1) (by omega), ok_bind, hdiv, hmod, low_word, high_word,
      show (size / 2 + 1) * 2 = 2 + size / 2 * 2 by omega, ← Bytes.list_append, list_two,
      Nat.add_assoc count, Nat.add_assoc k, Nat.add_comm 1, Nat.mul_add 2 k, Nat.mul_one,
      ← Nat.add_assoc (lba * 512)]
    rfl

theorem readFirst_spec {offset size : Nat} (count : Nat) (hoff : offset < 2)
    (hk : k + offset ≤ n * 256) : readFirst (d.under false lba n k ts) offset size count =
      .ok (d.disk.list (lba * 512 + 2 * k + offset) offset, size - offset, count + offset,
        d.under false lba n (k + offset) ts) := by
  unfold readFirst
  obtain rfl | rfl : offset = 0 ∨ offset = 1 := by omega
  · rfl
  · rw [if_pos rfl, inw_under (by omega), ok_bind, list_one]
    simp only [high_word]
    rfl

theorem readLast_spec {size : Nat} (count : Nat) (hsize : size < 2) (hk : k + size ≤ n * 256) :
    readLast (d.under false lba n k ts) size count =
      .ok (d.disk.list (lba * 512 + 2 * k) size, count + size,
        d.under false lba n (k + size) ts) := by
  unfold readLast
  obtain rfl | rfl : size = 0 ∨ size = 1 := by omega
  · rfl
  · rw [if_pos rfl, inw_under (by omega), ok_bind, list_one]
    simp only [low_word]
    rfl

theorem drain_spec {i : Nat} (hk : k + i ≤ n * 256) :
    drain (d.under false lba n k ts) i = .ok (d.under false lba n (k + i) ts) := by
  induction i generalizing k with
  | zero => rfl
  | succ i ih =>
    unfold drain
    rw [inw_under (by omega), ok_bind]
    simp only
    rw [ih (by omega), Nat.add_assoc, Nat.add_comm 1]

/-- A command that is over, with the disk that it leaves. -/
structure Done (d d' : Drive) (disk : Bytes) (t : Transfer) : Prop where
  master : d'.master = d.master
  disk : d'.disk = disk
  transfers : d'.transfers = t :: d.transfers
  complete : t.Complete

theorem Done.ready {disk : Bytes} {t : Transfer} (h : Done d d' disk t) (hr : Ready master d) :
    Ready master d' := by
  refine ⟨h.master.trans hr.master, fun t' ht' => ?_⟩
  rw [h.transfers] at ht'
  obtain rfl := Option.some.inj ht'
  exact h.complete

/-- The sectors that a range of bytes touches. -/
def touched (addr size : Nat) : Nat := (addr % 512 + size + 511) / 512

/-- The bytes that the parts of `readaddr` return are those of the range. -/
theorem read_bytes (m : Bytes) {addr size odd rest : Nat} (hpos : 0 < size)
    (hodd : odd = addr % 512 % 2) (hrest : rest = size - odd) :
    m.list (addr / 512 * 512 + 2 * (0 + addr % 512 / 2) + odd) odd ++
      m.list (addr / 512 * 512 + 2 * (0 + addr % 512 / 2 + odd)) (rest / 2 * 2) ++
      m.list (addr / 512 * 512 + 2 * (0 + addr % 512 / 2 + odd + rest / 2)) (rest % 2) =
      m.list addr size := by
  have haddr : addr = addr / 512 * 512 + addr % 512 := (Nat.div_add_mod' addr 512).symm
  have hoffset : addr % 512 = 2 * (addr % 512 / 2) + odd := hodd ▸ (Nat.div_add_mod _ 2).symm
  have hlt : odd ≤ 1 := hodd ▸ Nat.le_of_lt_succ (Nat.mod_lt _ (by decide))
  clear hodd
  generalize addr / 512 * 512 = base at *
  generalize addr % 512 / 2 = half at *
  generalize addr % 512 = offset at *
  have h₁ : base + 2 * (0 + half) + odd = addr := by omega
  have h₂ : base + 2 * (0 + half + odd) = addr + odd := by omega
  have h₃ : base + 2 * (0 + half + odd + rest / 2) = addr + (odd + rest / 2 * 2) := by omega
  have hsize : odd + rest / 2 * 2 + rest % 2 = size := by omega
  rw [h₁, h₂, h₃, Bytes.list_append, Bytes.list_append, hsize]

/-- The words that they read are those of the sectors. -/
theorem read_words {addr size n : Nat} (h : addr % 512 + size ≤ n * 512) :
    0 + addr % 512 / 2 + addr % 512 % 2 + (size - addr % 512 % 2) / 2 +
      (size - addr % 512 % 2) % 2 + (n * 256 - (0 + addr % 512 / 2 + addr % 512 % 2 +
        (size - addr % 512 % 2) / 2 + (size - addr % 512 % 2) % 2)) = n * 256 := by
  omega

theorem readaddr_spec (addr size : Nat) (hr : Ready master d) (hpos : 0 < size)
    (hsize : size < 512 * 512) (hend : addr + size ≤ 2 ^ 41) :
    ∃ d', readaddr master d addr size = .ok (d.disk.list addr size, d') ∧
      Done d d' d.disk ⟨false, addr / 512, touched addr size, touched addr size * 256⟩ := by
  have hassert : assert (decide (0 < size ∧ size < 512 * 512 ∧ addr < 2 ^ 41)) = .ok () :=
    assert_eq_ok.mpr (decide_eq_true ⟨hpos, hsize, by omega⟩)
  have hlba : u32 (addr / 512) = addr / 512 := u32_of_lt (by omega)
  have hend' : u64 (addr + size + 511) = addr + size + 511 := u64_of_lt (by omega)
  have hnb : u64 ((addr + size + 511) / 512 + 2 ^ 64 - addr / 512) = touched addr size := by
    unfold u64 touched
    omega
  have htouched : addr % 512 + size ≤ touched addr size * 512 := by unfold touched; omega
  have htouched' : 0 < touched addr size ∧ touched addr size < 2 ^ 16 := by unfold touched; omega
  have haddr : addr / 512 * 512 + addr % 512 = addr := by omega
  obtain ⟨d₀, hissue, hdisk, hmaster, _⟩ := issue_spec (addr / 512) hr (by omega)
    htouched'.1 htouched'.2 false
  generalize hN : touched addr size = N at *
  unfold readaddr
  simp only [hassert, ok_bind, hlba, hend', hnb]
  simp only [Bool.false_eq_true, if_false] at hissue
  simp only [hissue, ok_bind]
  rw [skip_spec 0 (by omega), ok_bind]
  simp only
  rw [readFirst_spec _ (Nat.mod_lt _ (by decide)) (by omega), ok_bind]
  simp only
  rw [readWords_spec _ (by omega), ok_bind]
  simp only
  rw [readLast_spec _ (Nat.mod_lt _ (by decide)) (by omega), ok_bind]
  simp only
  rw [drain_spec (by omega), ok_bind]
  refine ⟨d₀.under false (addr / 512) N (N * 256) d.transfers, ?_, hmaster, hdisk, rfl, rfl⟩
  rw [hdisk, read_bytes d.disk hpos rfl rfl, read_words htouched]
  rfl

/-! ### Writing -/

/-- A sector that is read, changed and written back. -/
theorem blit_sector (m data : Bytes) (a offset n : Nat) (hn : offset + n ≤ 512) :
    m.blit a 512 ((Bytes.ofList (m.list a 512)).blit offset n data) =
      m.blit (a + offset) n data := by
  funext x
  by_cases hx : x < a ∨ a + 512 ≤ x
  · rw [Bytes.blit_outside hx, Bytes.blit_outside (by omega)]
  · rw [Bytes.blit_inside (by omega) (by omega)]
    by_cases hin : a + offset ≤ x ∧ x < a + offset + n
    · rw [Bytes.blit_inside (by omega) (by omega), Bytes.blit_inside hin.1 hin.2]
      congr 1
      omega
    · have hlt : x - a < (m.list a 512).length := by rw [Bytes.length_list]; omega
      rw [Bytes.blit_outside (by omega), Bytes.blit_outside (by omega), Bytes.ofList,
        List.getD_eq_getElem?_getD, List.getElem?_eq_getElem hlt, Option.getD_some,
        Bytes.getElem_list]
      congr 1
      omega

/-- The words of a buffer that have been written. -/
theorem writeWords_spec (lba n : Nat) (ts : List Transfer) (data : Bytes) : ∃ d',
    (List.range (n * 256)).foldlM (fun d i => d.outw (UInt16.ofNat (data.word (2 * i) 2)))
        (d.under true lba n 0 ts) = .ok d' ∧
      d' = ({ d with disk := d.disk.blit (lba * 512) (2 * (n * 256)) data } : Drive).under true lba n
        (n * 256) ts := by
  refine (Ensures.foldlM_range (E := fun _ => False) (P := fun i d' => d' =
    ({ d with disk := d.disk.blit (lba * 512) (2 * i) data } : Drive).under true lba n i ts) ?_
    fun i hi d' hd' => ?_).returns fun _ => id
  · rw [Nat.mul_zero, Bytes.blit_zero]
  · subst hd'
    rw [outw_under hi]
    show _ = _
    have hblit : (d.disk.blit (lba * 512) (2 * i) data).blit (lba * 512 + 2 * i) 2
        (Bytes.byteOf (UInt16.ofNat (data.word (2 * i) 2)).toNat) =
        d.disk.blit (lba * 512) (2 * (i + 1)) data := by
      rw [Nat.mul_add, Nat.mul_one, ← Bytes.blit_append]
      funext x
      by_cases hx : x < lba * 512 + 2 * i ∨ lba * 512 + 2 * i + 2 ≤ x
      · rw [Bytes.blit_outside hx, Bytes.blit_outside hx]
      · rw [Bytes.blit_inside (by omega) (by omega), Bytes.blit_inside (by omega) (by omega),
          byteOf_word _ _ (by omega), Bytes.view_apply]
    rw [hblit]

/-- The cache flush that ends `writelba`. -/
theorem flush_spec (hi : d.Idle) (hdevice : d.device = Drive.selector d.master) :
    d.outb 7 0xe7 = .ok d := by
  have hassert : assert (decide (d.Idle ∧ d.device = Drive.selector d.master)) = .ok () :=
    assert_eq_ok.mpr (decide_eq_true ⟨hi, hdevice⟩)
  show d.command 0xe7 = .ok d
  unfold Drive.command
  rw [hassert]
  rfl

theorem writelba_spec (hr : Ready master d) (hlba : lba < 2 ^ 32) (hpos : 0 < n) (hn : n < 512)
    (data : Bytes) : ∃ d', writelba master d lba data n = .ok d' ∧
      Done d d' (d.disk.blit (lba * 512) (512 * n) data) ⟨true, lba, n, n * 256⟩ := by
  have hassert : assert (decide (0 < n ∧ n < 512)) = .ok () :=
    assert_eq_ok.mpr (decide_eq_true ⟨hpos, hn⟩)
  obtain ⟨d₀, hissue, hdisk, hmaster, hdevice⟩ := issue_spec lba hr hlba hpos (by omega) true
  obtain ⟨d₁, hwords, rfl⟩ := writeWords_spec (d := d₀) lba n d.transfers data
  simp only [if_true] at hissue
  have hflush := flush_spec (d := ({ d₀ with disk := d₀.disk.blit (lba * 512) (2 * (n * 256)) data }
    : Drive).under true lba n (n * 256) d.transfers) (fun t ht => by cases ht; rfl)
    (hdevice.trans (by rw [← hmaster]; rfl))
  unfold writelba
  simp only [hassert, hissue, hwords, ok_bind]
  refine ⟨_, hflush, hmaster, ?_, rfl, rfl⟩
  show d₀.disk.blit _ _ _ = _
  rw [hdisk]
  congr 1
  omega

/-! ### `writeaddr` -/

/-- A command that transferred all the words of sectors that the range of bytes touches. -/
structure Transfer.Covered (addr size : Nat) (t : Transfer) : Prop where
  complete : t.Complete
  first : addr / 512 ≤ t.lba
  last : t.lba + t.sectors ≤ (addr + size + 511) / 512

theorem Transfer.Covered.mono {addr size addr' size' : Nat} {t : Transfer}
    (h : t.Covered addr size) (haddr : addr' ≤ addr) (hend : addr + size ≤ addr' + size') :
    t.Covered addr' size' := by
  refine ⟨h.complete, ?_, ?_⟩
  · have := h.first
    omega
  · have := h.last
    omega

/-- What a call leaves: a drive that is ready, the disk with the bytes written, and the commands
that did it. -/
structure Wrote (master : Bool) (d d' : Drive) (addr size : Nat) (data : Bytes) : Prop where
  ready : Ready master d'
  disk : d'.disk = d.disk.blit addr size data
  transfers : ∃ new, d'.transfers = new ++ d.transfers ∧ ∀ t ∈ new, t.Covered addr size

theorem Wrote.nothing (hr : Ready master d) (addr : Nat) (data : Bytes) :
    Wrote master d d addr 0 data :=
  ⟨hr, (Bytes.blit_zero ..).symm, [], rfl, nofun⟩

/-- A call that writes the first part, and one that writes the rest. -/
theorem Wrote.append {addr size rest : Nat} {data : Bytes} {d₁ : Drive}
    (h : Wrote master d d₁ addr size data)
    (h' : Wrote master d₁ d' (addr + size) rest (data.view size)) :
    Wrote master d d' addr (size + rest) data := by
  obtain ⟨new, hnew, hall⟩ := h.transfers
  obtain ⟨new', hnew', hall'⟩ := h'.transfers
  refine ⟨h'.ready, by rw [h'.disk, h.disk, Bytes.blit_append], new' ++ new, ?_, fun t ht => ?_⟩
  · rw [hnew', hnew, List.append_assoc]
  · obtain hin | hin := List.mem_append.mp ht
    · exact (hall' t hin).mono (by omega) (by omega)
    · exact (hall t hin).mono (by omega) (by omega)

/-- Whole sectors. -/
theorem writelba_wrote (hr : Ready master d) (hlba : lba < 2 ^ 32) (hpos : 0 < n) (hn : n < 512)
    (data : Bytes) : ∃ d', writelba master d lba data n = .ok d' ∧
      Wrote master d d' (lba * 512) (512 * n) data := by
  obtain ⟨d', hwrite, hdone⟩ := writelba_spec hr hlba hpos hn data
  refine ⟨d', hwrite, hdone.ready hr, hdone.disk, [_], hdone.transfers, fun t ht => ?_⟩
  rw [List.mem_singleton.mp ht]
  exact ⟨hdone.complete, by dsimp only; omega, by dsimp only; omega⟩

/-- A part of a sector: it is read, changed and written back. -/
theorem sector_wrote (offset size : Nat) (hr : Ready master d) (hlba : lba < 2 ^ 32)
    (hoffset : offset < 512) (hpos : 0 < offset + size) (hsize : offset + size ≤ 512)
    (data : Bytes) :
    ∃ buffer d₁ d', readlba master d lba 1 = .ok (buffer, d₁) ∧
      writelba master d₁ lba ((Bytes.ofList buffer).blit offset size data) 1 = .ok d' ∧
      Wrote master d d' (lba * 512 + offset) size data := by
  obtain ⟨d₁, hread, hdone⟩ := readaddr_spec (lba * 512) (1 * 512) hr (by decide)
    (by decide) (by omega)
  have hr₁ := hdone.ready hr
  obtain ⟨d', hwrite, hdone'⟩ := writelba_spec hr₁ hlba Nat.one_pos (by decide)
    ((Bytes.ofList (d.disk.list (lba * 512) (1 * 512))).blit offset size data)
  refine ⟨_, d₁, d', hread, hwrite, hdone'.ready hr₁, ?_, [_, _],
    by rw [hdone'.transfers, hdone.transfers]; rfl, fun t ht => ?_⟩
  · rw [hdone'.disk, hdone.disk]
    exact blit_sector _ _ _ _ _ hsize
  · simp only [List.mem_cons, List.not_mem_nil, or_false] at ht
    obtain rfl | rfl := ht
    · exact ⟨hdone'.complete, by dsimp only; omega, by dsimp only; omega⟩
    · refine ⟨hdone.complete, by dsimp only; omega, ?_⟩
      have htouched : touched (lba * 512) (1 * 512) = 1 := by unfold touched; omega
      dsimp only
      omega

theorem writeTail_wrote (hr : Ready master d) {size : Nat} (hsize : size < 512)
    (hend : lba * 512 + size ≤ 2 ^ 41) (data : Bytes) :
    ∃ d', writeTail master d (u32 lba) data size = .ok d' ∧
      Wrote master d d' (lba * 512) size data := by
  unfold writeTail
  by_cases hpos : 0 < size
  · have hlba : lba < 2 ^ 32 := by omega
    obtain ⟨buffer, d₁, d', hread, hwrite, hwrote⟩ := sector_wrote 0 size hr
      hlba (by decide) (by omega) (by omega) data
    rw [if_pos hpos, u32_of_lt hlba, hread, ok_bind]
    rw [Nat.add_zero] at hwrote
    exact ⟨d', hwrite, hwrote⟩
  · obtain rfl : size = 0 := by omega
    exact ⟨d, rfl, .nothing hr _ data⟩

theorem writeSectors_wrote (lba size : Nat) (hr : Ready master d) (hsize : size < 512 * 512)
    (hend : lba * 512 + size ≤ 2 ^ 41) (data : Bytes) :
    ∃ d', writeSectors master d (u32 lba) data size = .ok d' ∧
      Wrote master d d' (lba * 512) size data := by
  unfold writeSectors
  by_cases hpos : 0 < size / 512
  · have hlba : lba < 2 ^ 32 := by omega
    obtain ⟨d₁, hwrite, hwrote⟩ := writelba_wrote hr hlba hpos (by omega) data
    have hrest : size - size / 512 * 512 = size % 512 := by omega
    have hstart : (lba + size / 512) * 512 = lba * 512 + 512 * (size / 512) := by omega
    have hsum : 512 * (size / 512) + size % 512 = size := Nat.div_add_mod size 512
    have hlast : (lba + size / 512) * 512 + size % 512 ≤ 2 ^ 41 := by
      rw [hstart, Nat.add_assoc, hsum]
      exact hend
    obtain ⟨d', htail, hwrote'⟩ := writeTail_wrote hwrote.ready (Nat.mod_lt size (by decide))
      hlast (data.view (512 * (size / 512)))
    simp only [if_pos hpos, u32_of_lt hlba, hwrite, ok_bind, hrest]
    refine ⟨d', htail, ?_⟩
    rw [hstart] at hwrote'
    have hwhole := hwrote.append hwrote'
    rwa [hsum] at hwhole
  · simp only [if_neg hpos]
    exact writeTail_wrote hr (by omega) hend data

theorem writeaddr_wrote (hr : Ready master d) {addr size : Nat} (hlt : addr < 2 ^ 41)
    (hsize : size < 512 * 512) (hend : addr + size ≤ 2 ^ 41) (data : Bytes) :
    ∃ d', writeaddr master d addr data size = .ok d' ∧ Wrote master d d' addr size data := by
  have hassert : assert (decide (size < 512 * 512)) = .ok () :=
    assert_eq_ok.mpr (decide_eq_true hsize)
  have hlba : addr / 512 < 2 ^ 32 := by omega
  unfold writeaddr
  simp only [hassert, ok_bind]
  by_cases hoff : addr % 512 = 0
  · rw [if_neg (by simp [hoff])]
    obtain ⟨d', hwrite, hwrote⟩ := writeSectors_wrote (addr / 512) size hr hsize (by omega) data
    rw [show addr / 512 * 512 = addr by omega] at hwrote
    exact ⟨d', hwrite, hwrote⟩
  · rw [if_pos hoff, u32_of_lt hlba]
    obtain ⟨buffer, d₁, d₂, hread, hwrite, hwrote⟩ := sector_wrote (addr % 512)
      (min (512 - addr % 512) size) hr hlba (Nat.mod_lt _ (by decide)) (by omega)
      (by omega) data
    rw [show addr / 512 * 512 + addr % 512 = addr by omega] at hwrote
    simp only [hread, hwrite, ok_bind]
    by_cases hall : min (512 - addr % 512) size = size
    · rw [if_pos hall]
      rw [hall] at hwrote
      exact ⟨d₂, rfl, hwrote⟩
    · rw [if_neg hall]
      have hmin : min (512 - addr % 512) size = 512 - addr % 512 := by omega
      rw [hmin] at hwrote ⊢
      obtain ⟨d', hrest, hwrote'⟩ := writeSectors_wrote (addr / 512 + 1)
        (size - (512 - addr % 512)) hwrote.ready (by omega) (by omega) (data.view (512 - addr % 512))
      rw [show (addr / 512 + 1) * 512 = addr + (512 - addr % 512) by omega] at hwrote'
      have hwhole := hwrote.append hwrote'
      rw [show 512 - addr % 512 + (size - (512 - addr % 512)) = size by omega] at hwhole
      exact ⟨d', hrest, hwhole⟩

/-! ### Runs -/

/-- The range of a call lies on the disk. -/
structure InRange (addr size : Nat) : Prop where
  pos : 0 < size
  lt : size < 512 * 512
  end_le : addr + size ≤ 2 ^ 41

instance (addr size : Nat) : Decidable (InRange addr size) :=
  decidable_of_iff (0 < size ∧ size < 512 * 512 ∧ addr + size ≤ 2 ^ 41)
    ⟨fun h => ⟨h.1, h.2.1, h.2.2⟩, fun h => ⟨h.pos, h.lt, h.end_le⟩⟩

theorem InRange.addr_lt {addr size : Nat} (h : InRange addr size) : addr < 2 ^ 41 := by
  have := h.pos
  have := h.end_le
  omega

inductive Call
  | readaddr (addr size : Nat)
  | writeaddr (addr size : Nat) (data : Bytes)

/-- A call of `writeaddr`. -/
structure Write where
  addr : Nat
  size : Nat
  data : Bytes

/-- The drive, what its disk held at first, and the calls of `writeaddr` since, the last first. -/
structure Session where
  drive : Drive
  initial : Bytes
  writes : List Write

/-- The byte last written at each address. -/
def lastWritten (initial : Bytes) : List Write → Bytes
  | [] => initial
  | w :: ws => fun x =>
    if w.addr ≤ x ∧ x < w.addr + w.size then w.data (x - w.addr) else lastWritten initial ws x

namespace Session

def apply (master : Bool) (s : Session) : Call → Except Fault Session
  | .readaddr addr size => do
    let (_, drive) ← readaddr master s.drive addr size
    return { s with drive }
  | .writeaddr addr size data => do
    let drive ← writeaddr master s.drive addr data size
    return { s with drive, writes := ⟨addr, size, data⟩ :: s.writes }

def machine (master : Bool) : Lib.Machine Session Call Fault where
  start s := s.drive.master = master ∧ s.drive.transfers = [] ∧ s.initial = s.drive.disk ∧
    s.writes = []
  admits _
    | .readaddr addr size => InRange addr size
    | .writeaddr addr size _ => InRange addr size
  apply := apply master

variable {s s' : Session}

/-- The disk is the array of the bytes last written, and all commands are over. -/
structure Agrees (master : Bool) (s : Session) : Prop where
  ready : Ready master s.drive
  disk : s.drive.disk = lastWritten s.initial s.writes
  complete : ∀ t ∈ s.drive.transfers, t.Complete

theorem Agrees.readaddr (hs : s.Agrees master) {addr size : Nat} (h : InRange addr size) :
    ∃ d', HDD.readaddr master s.drive addr size =
        .ok ((lastWritten s.initial s.writes).list addr size, d') ∧
      ({ s with drive := d' } : Session).Agrees master ∧
      d'.transfers = ⟨false, addr / 512, touched addr size, touched addr size * 256⟩ ::
        s.drive.transfers := by
  obtain ⟨d', hread, hdone⟩ := readaddr_spec _ _ hs.ready h.pos h.lt h.end_le
  refine ⟨d', hs.disk ▸ hread, ⟨hdone.ready hs.ready, hdone.disk.trans hs.disk, fun t ht => ?_⟩,
    hdone.transfers⟩
  rw [hdone.transfers] at ht
  obtain rfl | hold := List.mem_cons.mp ht
  · exact hdone.complete
  · exact hs.complete t hold

theorem Agrees.writeaddr (hs : s.Agrees master) {addr size : Nat} (h : InRange addr size)
    (data : Bytes) : ∃ d', HDD.writeaddr master s.drive addr data size = .ok d' ∧
      ({ s with drive := d', writes := ⟨addr, size, data⟩ :: s.writes } :
        Session).Agrees master := by
  obtain ⟨d', hwrite, hwrote⟩ := writeaddr_wrote hs.ready h.addr_lt h.lt h.end_le data
  refine ⟨d', hwrite, hwrote.ready, ?_, fun t ht => ?_⟩
  · show d'.disk = _
    rw [hwrote.disk, hs.disk]
    rfl
  · obtain ⟨new, hnew, hall⟩ := hwrote.transfers
    rw [show d'.transfers = new ++ s.drive.transfers from hnew] at ht
    obtain hin | hin := List.mem_append.mp ht
    · exact (hall t hin).complete
    · exact hs.complete t hin

theorem run_agrees (h : (machine master).Run (fun _ _ => True) s) : s.Agrees master := by
  refine h.invariant (fun s hs => ?_) fun s s' c hI ha _ hs => ?_
  · obtain ⟨hmaster, hnone, hinitial, hwrites⟩ := hs
    refine ⟨⟨hmaster, fun t ht => ?_⟩, by rw [hwrites, ← hinitial]; rfl, ?_⟩
    · rw [hnone] at ht
      cases ht
    · rw [hnone]
      nofun
  · cases c with
    | readaddr addr size =>
      obtain ⟨d', hread, hagrees, _⟩ := hI.readaddr ha
      obtain ⟨⟨bytes, d₁⟩, hcall, hs⟩ := bind_eq_ok.mp hs
      obtain ⟨_, rfl⟩ := Prod.mk.inj (Except.ok.inj (hread.symm.trans hcall))
      obtain rfl := Except.ok.inj hs
      exact hagrees
    | writeaddr addr size data =>
      obtain ⟨d', hwrite, hagrees⟩ := hI.writeaddr ha data
      obtain ⟨d₁, hcall, hs⟩ := bind_eq_ok.mp hs
      obtain rfl := Except.ok.inj (hwrite.symm.trans hcall)
      obtain rfl := Except.ok.inj hs
      exact hagrees

/-- After any calls, `readaddr` returns the bytes last written in its range, `writeaddr` changes the
bytes of its range and no other, neither ever fails, and every command has transferred 256 words
for each of its sectors. -/
theorem run_byteArray (h : (machine master).Run (fun _ _ => True) s) :
    (∀ addr size, InRange addr size → ∃ d', HDD.readaddr master s.drive addr size =
        .ok ((lastWritten s.initial s.writes).list addr size, d') ∧ d'.disk = s.drive.disk ∧
      d'.transfers = ⟨false, addr / 512, touched addr size, touched addr size * 256⟩ ::
        s.drive.transfers) ∧
    (∀ addr size data, InRange addr size → ∃ d',
      HDD.writeaddr master s.drive addr data size = .ok d' ∧
        (∀ x, addr ≤ x → x < addr + size → d'.disk x = data (x - addr)) ∧
        (∀ x, x < addr ∨ addr + size ≤ x → d'.disk x = s.drive.disk x) ∧
        ∀ t ∈ d'.transfers, t.Complete) ∧
    ∀ t ∈ s.drive.transfers, t.Complete := by
  have hs := run_agrees h
  refine ⟨fun addr size hrange => ?_, fun addr size data hrange => ?_, hs.complete⟩
  · obtain ⟨d', hread, hagrees, htransfers⟩ := hs.readaddr hrange
    exact ⟨d', hread, hagrees.disk.trans hs.disk.symm, htransfers⟩
  · obtain ⟨d', hwrite, hwrote⟩ := writeaddr_wrote hs.ready hrange.addr_lt hrange.lt hrange.end_le data
    obtain ⟨d₁, hwrite', hagrees⟩ := hs.writeaddr hrange data
    obtain rfl := Except.ok.inj (hwrite.symm.trans hwrite')
    refine ⟨d', hwrite, fun x hx hx' => ?_, fun x hx => ?_, hagrees.complete⟩
    · rw [hwrote.disk, Bytes.blit_inside hx hx']
    · rw [hwrote.disk, Bytes.blit_outside hx]

/-- A drive whose bytes are all 0. -/
def fresh : Drive :=
  ⟨true, fun _ => 0, ⟨0, 0⟩, ⟨0, 0⟩, ⟨0, 0⟩, ⟨0, 0⟩, 0, []⟩

/-- Seven bytes that cross the end of a sector at an odd offset. -/
def seven : Write := ⟨1021, 7, fun i => UInt8.ofNat (i + 1)⟩

/-- What is read where they have been written. -/
theorem run_byteArray_odd : ∃ s, (machine true).Run (fun _ _ => True) s ∧
    s.writes.map (·.addr) = [1021] ∧ ∃ d', HDD.readaddr true s.drive 1020 5 =
      .ok ([0, 1, 2, 3, 4], d') := by
  have h₀ : (machine true).Run (fun _ _ => True) ⟨fresh, fun _ => 0, []⟩ :=
    .start ⟨rfl, rfl, rfl, rfl⟩
  have hrange : InRange seven.addr seven.size := by decide
  obtain ⟨d', hwrite, _⟩ := (run_agrees h₀).writeaddr hrange seven.data
  have hcall : (machine true).apply ⟨fresh, fun _ => 0, []⟩
      (.writeaddr seven.addr seven.size seven.data) = .ok ⟨d', fun _ => 0, [seven]⟩ :=
    bind_eq_ok.mpr ⟨d', hwrite, rfl⟩
  have hadmits : (machine true).admits ⟨fresh, fun _ => 0, []⟩
      (.writeaddr seven.addr seven.size seven.data) := hrange
  have h₁ := h₀.step hadmits trivial hcall
  have hlist : (lastWritten (fun _ => 0) [seven]).list 1020 5 = [0, 1, 2, 3, 4] := by
    decide +kernel
  obtain ⟨d₁, hread, _⟩ := (run_byteArray h₁).1 1020 5 (by decide)
  exact ⟨_, h₁, rfl, d₁, hlist ▸ hread⟩

end Session

end SupOS.HDD
