import SupOS.HDD.ByteArray

/-! The class `Partition` of `HDD/Partition.cpp`: a range of sectors of a drive, whose operations
check their arguments and forward them to the drive. -/

namespace SupOS.HDD

open Lib

/-- The fields of a `PartitionTableEntry` that the class uses. -/
structure PartitionTableEntry where
  begLBA : Nat
  size : Nat
  deriving DecidableEq, Repr

/-- A partition whose sectors have 32-bit numbers. -/
structure Partition extends PartitionTableEntry where
  begLBA_lt : begLBA < 2 ^ 32
  size_lt : size < 2 ^ 32
  fits : begLBA + size ≤ 2 ^ 32

namespace Partition

variable (p : Partition)

def getSize : Nat := p.size * 512

/-- The assertion of `readlba` and `writelba`, and the sector that they forward. -/
def diskLBA (LBA nbsector : Nat) : Except Fault Nat := do
  assert (decide (u32 (LBA + nbsector) < p.size))
  return u32 (LBA + p.begLBA)

/-- The assertion of `readaddr` and `writeaddr`, and the address that they forward. -/
def diskAddr (addr size : Nat) : Except Fault Nat := do
  assert (decide (u64 (addr + size) < p.getSize))
  return u64 (addr + p.begLBA * 512)

variable (master : Bool) (d : Drive)

def writelba (LBA : Nat) (data : Bytes) (nbsector : Nat) : Except Fault Drive := do
  let LBA ← p.diskLBA LBA nbsector
  HDD.writelba master d LBA data nbsector

def readlba (LBA nbsector : Nat) : Except Fault (List UInt8 × Drive) := do
  let LBA ← p.diskLBA LBA nbsector
  HDD.readlba master d LBA nbsector

def writeaddr (addr : Nat) (data : Bytes) (size : Nat) : Except Fault Drive := do
  let addr ← p.diskAddr addr size
  HDD.writeaddr master d addr data size

def readaddr (addr size : Nat) : Except Fault (List UInt8 × Drive) := do
  let addr ← p.diskAddr addr size
  HDD.readaddr master d addr size

variable {master d} {d' : Drive}

/-- The commands of a call are for sectors of the partition. -/
def Keeps (d d' : Drive) : Prop :=
  ∃ new, d'.transfers = new ++ d.transfers ∧
    ∀ t ∈ new, p.begLBA ≤ t.lba ∧ t.lba + t.sectors ≤ p.begLBA + p.size

/-- The drive's own conditions on a number of bytes or of sectors. -/
def Transferable (n limit : Nat) : Prop := 0 < n ∧ n < limit

/-- A range of sectors is treated as it should: it is accepted when it lies in the partition, and
transferred from and to the sectors of the disk that are as far from the start of the partition. -/
structure SectorsRight (LBA nbsector : Nat) : Prop where
  accepts : (∃ a, p.diskLBA LBA nbsector = .ok a) ↔ LBA + nbsector ≤ p.size
  shifts : ∀ a, p.diskLBA LBA nbsector = .ok a → a = p.begLBA + LBA
  reads : ∀ master d, Ready master d → Ensures (p.readlba master d LBA nbsector)
    (fun _ => ¬(Transferable nbsector 512 ∧ LBA + nbsector ≤ p.size))
    fun r => r.1 = d.disk.list ((p.begLBA + LBA) * 512) (nbsector * 512) ∧ r.2.disk = d.disk ∧
      p.Keeps d r.2
  writes : ∀ master d data, Ready master d → Ensures (p.writelba master d LBA data nbsector)
    (fun _ => ¬(Transferable nbsector 512 ∧ LBA + nbsector ≤ p.size))
    fun d' => d'.disk = d.disk.blit ((p.begLBA + LBA) * 512) (512 * nbsector) data ∧ p.Keeps d d'

/-- A range of bytes is treated as it should. -/
structure BytesRight (addr size : Nat) : Prop where
  accepts : (∃ a, p.diskAddr addr size = .ok a) ↔ addr + size ≤ p.getSize
  shifts : ∀ a, p.diskAddr addr size = .ok a → a = p.begLBA * 512 + addr
  reads : ∀ master d, Ready master d → Ensures (p.readaddr master d addr size)
    (fun _ => ¬(Transferable size (512 * 512) ∧ addr + size ≤ p.getSize))
    fun r => r.1 = d.disk.list (p.begLBA * 512 + addr) size ∧ r.2.disk = d.disk ∧ p.Keeps d r.2
  writes : ∀ master d data, Ready master d → Ensures (p.writeaddr master d addr data size)
    (fun _ => ¬(size < 512 * 512 ∧ addr + size ≤ p.getSize))
    fun d' => d'.disk = d.disk.blit (p.begLBA * 512 + addr) size data ∧ p.Keeps d d'

variable {p} {LBA nbsector addr size : Nat}

/-! ### The assertions -/

theorem diskLBA_eq_ok {a : Nat} : p.diskLBA LBA nbsector = .ok a ↔
    u32 (LBA + nbsector) < p.size ∧ u32 (LBA + p.begLBA) = a := by
  unfold diskLBA
  rw [bind_eq_ok]
  simp only [assert_eq_ok, decide_eq_true_eq, pure_eq_ok]
  exact ⟨fun ⟨_, h⟩ => h, fun h => ⟨(), h⟩⟩

theorem diskAddr_eq_ok {a : Nat} : p.diskAddr addr size = .ok a ↔
    u64 (addr + size) < p.getSize ∧ u64 (addr + p.begLBA * 512) = a := by
  unfold diskAddr
  rw [bind_eq_ok]
  simp only [assert_eq_ok, decide_eq_true_eq, pure_eq_ok]
  exact ⟨fun ⟨_, h⟩ => h, fun h => ⟨(), h⟩⟩

theorem diskLBA_inside (h : LBA + nbsector < p.size) :
    p.diskLBA LBA nbsector = .ok (p.begLBA + LBA) := by
  have hsize := p.size_lt
  have hfits := p.fits
  refine diskLBA_eq_ok.mpr ⟨?_, ?_⟩
  · rw [u32_of_lt (by omega)]
    exact h
  · rw [u32_of_lt (by omega), Nat.add_comm]

theorem diskAddr_inside (h : addr + size < p.getSize) :
    p.diskAddr addr size = .ok (p.begLBA * 512 + addr) := by
  have hsize := p.size_lt
  have hfits := p.fits
  unfold getSize at h
  refine diskAddr_eq_ok.mpr ⟨?_, ?_⟩
  · rw [u64_of_lt (by omega)]
    exact h
  · rw [u64_of_lt (by omega), Nat.add_comm]

theorem diskLBA_rejects (h : p.size ≤ u32 (LBA + nbsector)) :
    p.diskLBA LBA nbsector = .error .assertion := by
  unfold diskLBA
  rw [decide_eq_false (by omega)]
  rfl

theorem diskAddr_rejects (h : p.getSize ≤ u64 (addr + size)) :
    p.diskAddr addr size = .error .assertion := by
  unfold diskAddr
  rw [decide_eq_false (by omega)]
  rfl

/-! ### The drive's part -/

theorem keeps_one {t : Transfer} (h : d'.transfers = t :: d.transfers) (hfirst : p.begLBA ≤ t.lba)
    (hlast : t.lba + t.sectors ≤ p.begLBA + p.size) : p.Keeps d d' := by
  refine ⟨[t], h, fun t' ht => ?_⟩
  obtain rfl := List.mem_singleton.mp ht
  exact ⟨hfirst, hlast⟩

/-- Bytes of the disk that lie in the partition. -/
theorem readaddr_inside (hr : Ready master d) (h : addr + size ≤ p.getSize) :
    Ensures (HDD.readaddr master d (p.begLBA * 512 + addr) size)
      (fun _ => ¬Transferable size (512 * 512))
      fun r => r.1 = d.disk.list (p.begLBA * 512 + addr) size ∧ r.2.disk = d.disk ∧
        p.Keeps d r.2 := by
  have hfits := p.fits
  unfold getSize at h
  by_cases ht : Transferable size (512 * 512)
  · obtain ⟨d', hread, hdone⟩ := readaddr_spec (p.begLBA * 512 + addr) size hr ht.1 ht.2 (by omega)
    rw [hread]
    refine ⟨rfl, hdone.disk, keeps_one hdone.transfers ?_ ?_⟩
    · dsimp only
      omega
    · unfold touched
      dsimp only
      omega
  · unfold HDD.readaddr
    rw [decide_eq_false fun hok => ht ⟨hok.1, hok.2.1⟩]
    exact ht

theorem writeaddr_inside (hr : Ready master d) (h : addr + size ≤ p.getSize)
    (hlt : addr < p.getSize) (data : Bytes) :
    Ensures (HDD.writeaddr master d (p.begLBA * 512 + addr) data size)
      (fun _ => ¬size < 512 * 512)
      fun d' => d'.disk = d.disk.blit (p.begLBA * 512 + addr) size data ∧ p.Keeps d d' := by
  have hfits := p.fits
  unfold getSize at h hlt
  by_cases ht : size < 512 * 512
  · have hstart : p.begLBA * 512 + addr < 2 ^ 41 := by omega
    have hend : p.begLBA * 512 + addr + size ≤ 2 ^ 41 := by omega
    obtain ⟨d', hwrite, hwrote⟩ := writeaddr_wrote hr hstart ht hend data
    obtain ⟨new, hnew, hall⟩ := hwrote.transfers
    rw [hwrite]
    refine ⟨hwrote.disk, new, hnew, fun t hin => ?_⟩
    have hcovered := hall t hin
    have hfirst := hcovered.first
    have hlast := hcovered.last
    omega
  · unfold HDD.writeaddr
    rw [decide_eq_false ht]
    exact ht

theorem writelba_inside (hr : Ready master d) (h : LBA + nbsector ≤ p.size) (data : Bytes) :
    Ensures (HDD.writelba master d (p.begLBA + LBA) data nbsector)
      (fun _ => ¬Transferable nbsector 512)
      fun d' => d'.disk = d.disk.blit ((p.begLBA + LBA) * 512) (512 * nbsector) data ∧
        p.Keeps d d' := by
  have hfits := p.fits
  by_cases ht : Transferable nbsector 512
  · have hpos := ht.1
    have hstart : p.begLBA + LBA < 2 ^ 32 := by omega
    obtain ⟨d', hwrite, hdone⟩ := writelba_spec hr hstart hpos ht.2 data
    rw [hwrite]
    refine ⟨hdone.disk, keeps_one hdone.transfers ?_ ?_⟩
    · exact Nat.le_add_right ..
    · dsimp only
      omega
  · unfold HDD.writelba
    rw [decide_eq_false fun hok : 0 < nbsector ∧ nbsector < 512 => ht hok]
    exact ht

/-! ### When the operations are right -/

/-- Sectors that the assertion lets through exactly when they lie in the partition. -/
theorem sectorsRight (hin : u32 (LBA + nbsector) < p.size ↔ LBA + nbsector ≤ p.size)
    (hend : LBA + nbsector ≠ p.size) : p.SectorsRight LBA nbsector := by
  by_cases h : LBA + nbsector ≤ p.size
  · have hlt : LBA + nbsector < p.size := by omega
    have hdisk := diskLBA_inside hlt
    refine ⟨⟨fun _ => h, fun _ => ⟨_, hdisk⟩⟩, fun a ha => ?_, fun master d hr => ?_,
      fun master d data hr => ?_⟩
    · exact Except.ok.inj (ha.symm.trans hdisk)
    · unfold readlba HDD.readlba
      rw [hdisk, ok_bind, Nat.add_mul]
      refine (readaddr_inside hr (by unfold getSize; omega)).mono (fun _ hn hok => hn ?_)
        fun r hr => hr
      have hpos := hok.1.1
      have hlt := hok.1.2
      exact ⟨by omega, by omega⟩
    · unfold writelba
      rw [hdisk, ok_bind]
      exact (writelba_inside hr h data).mono (fun _ hn hok => hn hok.1) fun _ hw => hw
  · have hle : p.size ≤ u32 (LBA + nbsector) := by omega
    have hdisk := diskLBA_rejects hle
    refine ⟨⟨fun ⟨a, ha⟩ => ?_, fun hle => absurd hle h⟩, fun a ha => ?_, fun master d _ => ?_,
      fun master d data _ => ?_⟩
    · cases hdisk.symm.trans ha
    · cases hdisk.symm.trans ha
    · unfold readlba
      rw [hdisk]
      exact fun hok => h hok.2
    · unfold writelba
      rw [hdisk]
      exact fun hok => h hok.2

theorem bytesRight (hin : u64 (addr + size) < p.getSize ↔ addr + size ≤ p.getSize)
    (hend : addr + size ≠ p.getSize) : p.BytesRight addr size := by
  by_cases h : addr + size ≤ p.getSize
  · have hlt : addr + size < p.getSize := by omega
    have hdisk := diskAddr_inside hlt
    refine ⟨⟨fun _ => h, fun _ => ⟨_, hdisk⟩⟩, fun a ha => ?_, fun master d hr => ?_,
      fun master d data hr => ?_⟩
    · exact Except.ok.inj (ha.symm.trans hdisk)
    · unfold readaddr
      rw [hdisk, ok_bind]
      exact (readaddr_inside hr h).mono (fun _ hn hok => hn hok.1) fun _ hr => hr
    · unfold writeaddr
      rw [hdisk, ok_bind]
      exact (writeaddr_inside hr h (by omega) data).mono (fun _ hn hok => hn hok.1) fun _ hw => hw
  · have hle : p.getSize ≤ u64 (addr + size) := by omega
    have hdisk := diskAddr_rejects hle
    refine ⟨⟨fun ⟨a, ha⟩ => ?_, fun hle => absurd hle h⟩, fun a ha => ?_, fun master d _ => ?_,
      fun master d data _ => ?_⟩
    · cases hdisk.symm.trans ha
    · cases hdisk.symm.trans ha
    · unfold readaddr
      rw [hdisk]
      exact fun hok => h hok.2
    · unfold writeaddr
      rw [hdisk]
      exact fun hok => h hok.2

/-- What the assertion must decide for the range to be treated as it should. -/
theorem SectorsRight.accepted (h : p.SectorsRight LBA nbsector) :
    u32 (LBA + nbsector) < p.size ↔ LBA + nbsector ≤ p.size := by
  rw [← h.accepts]
  exact ⟨fun hlt => ⟨_, diskLBA_eq_ok.mpr ⟨hlt, rfl⟩⟩, fun ⟨_, ha⟩ => (diskLBA_eq_ok.mp ha).1⟩

theorem BytesRight.accepted (h : p.BytesRight addr size) :
    u64 (addr + size) < p.getSize ↔ addr + size ≤ p.getSize := by
  rw [← h.accepts]
  exact ⟨fun hlt => ⟨_, diskAddr_eq_ok.mpr ⟨hlt, rfl⟩⟩, fun ⟨_, ha⟩ => (diskAddr_eq_ok.mp ha).1⟩

/-- A range is treated as it should unless it ends where the partition does, or its end wraps
around to a number below the size. -/
theorem right_iff (p : Partition) {LBA nbsector addr size : Nat} (hLBA : LBA < 2 ^ 32)
    (hnbsector : nbsector < 2 ^ 32) (haddr : addr < 2 ^ 64) (hsize : size < 2 ^ 64) :
    (p.SectorsRight LBA nbsector ↔ LBA + nbsector ≠ p.size ∧
      ¬(2 ^ 32 ≤ LBA + nbsector ∧ LBA + nbsector - 2 ^ 32 < p.size)) ∧
    (p.BytesRight addr size ↔ addr + size ≠ p.size * 512 ∧
      ¬(2 ^ 64 ≤ addr + size ∧ addr + size - 2 ^ 64 < p.size * 512)) := by
  have hp := p.size_lt
  constructor
  · constructor
    · intro h
      have hin := h.accepted
      unfold u32 at hin
      omega
    · intro h
      refine sectorsRight ?_ h.1
      unfold u32
      omega
  · constructor
    · intro h
      have hin := h.accepted
      unfold u64 getSize at hin
      omega
    · intro h
      refine bytesRight ?_ h.1
      unfold u64 getSize
      omega

/-- Ten sectors behind the first 63 of the disk. -/
def small : Partition := ⟨⟨63, 10⟩, by decide, by decide, by decide⟩

theorem right_iff_small : (small.SectorsRight 3 4 ↔ 3 + 4 ≠ 10 ∧
      ¬(2 ^ 32 ≤ 3 + 4 ∧ 3 + 4 - 2 ^ 32 < 10)) ∧
    (small.BytesRight 700 30 ↔ 700 + 30 ≠ 10 * 512 ∧
      ¬(2 ^ 64 ≤ 700 + 30 ∧ 700 + 30 - 2 ^ 64 < 10 * 512)) :=
  right_iff small (by decide) (by decide) (by decide) (by decide)

/-- The last sector cannot be read, nor the last byte, and a range that wraps around is read from
the sector in front of the partition on. -/
theorem last_sector_rejected : ¬small.SectorsRight 9 1 ∧ ¬small.BytesRight 5119 1 ∧
    ¬small.SectorsRight (2 ^ 32 - 1) 2 ∧ ∃ bytes d',
      small.readlba true Session.fresh (2 ^ 32 - 1) 2 = .ok (bytes, d') ∧
      d'.transfers.map (fun t => (t.lba, t.sectors)) = [(62, 2)] := by
  refine ⟨fun h => ?_, fun h => ?_, fun h => ?_, ?_⟩
  · exact absurd h.accepted (by decide)
  · exact absurd h.accepted (by decide)
  · exact absurd h.accepted (by decide)
  · have hready : Ready true Session.fresh := ⟨rfl, by decide⟩
    obtain ⟨d', hread, hdone⟩ := readaddr_spec (62 * 512) (2 * 512) hready (by decide) (by decide)
      (by decide)
    have hdisk : small.diskLBA (2 ^ 32 - 1) 2 = .ok 62 :=
      diskLBA_eq_ok.mpr ⟨by decide, by decide⟩
    refine ⟨Session.fresh.disk.list (62 * 512) (2 * 512), d', ?_, ?_⟩
    · unfold readlba
      rw [hdisk, ok_bind]
      exact hread
    · rw [hdone.transfers]
      decide

end Partition

end SupOS.HDD
