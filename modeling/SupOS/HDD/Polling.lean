import Mathlib.Data.List.Chain
import SupOS.HDD.ByteArray

/-! The port accesses of `HDD::readaddr`, with the status bytes that it polls. -/

namespace SupOS.HDD

open Lib

/-! ### The ports -/

namespace StatusByte

def error (b : UInt8) : Bool := b &&& 0x01 != 0

def driveFault (b : UInt8) : Bool := b &&& 0x20 != 0

def busy (b : UInt8) : Bool := b &&& 0x80 != 0

def isReadyOrFailed (b : UInt8) : Bool := error b || driveFault b || !busy b

def isOk (b : UInt8) : Bool := !(error b || driveFault b)

/-- A drive that reports a failure reports it again until the next command. -/
def Sticky : List UInt8 → Prop :=
  List.IsChain fun b b' => isOk b = false → isOk b' = false

end StatusByte

open StatusByte

/-- An access to a port of the drive: a register written, the status or a word of data read. -/
inductive PortAccess
  | outb (reg : Nat) (byte : UInt8)
  | status (byte : UInt8)
  | data (word : UInt16)
  deriving DecidableEq, Repr

/-- The words of data taken. -/
def taken : List PortAccess → Nat
  | [] => 0
  | .data _ :: older => taken older + 1
  | _ :: older => taken older

/-- Since the last word of data and the last register written, the status register has reported a
drive that is ready and has not failed. The last access comes first. -/
def polled : List PortAccess → Bool
  | .status b :: older => (isOk b && !busy b) || polled older
  | _ => false

/-- Each first word of a sector was taken after such a report. -/
def waited : List PortAccess → Bool
  | [] => true
  | .data _ :: older => (taken older % 256 != 0 || polled older) && waited older
  | _ :: older => waited older

/-- What the registers of the drive are going to answer, and the accesses so far. -/
structure Ports where
  statuses : List UInt8
  words : Nat → UInt16
  trace : List PortAccess

/-- A computation that stops keeps the accesses that it made. -/
abbrev Ported := Except (Fault × Ports)

def accesses {α : Type} : Ported (α × Ports) → List PortAccess
  | .ok r => r.2.trace
  | .error e => e.2.trace

/-! ### The driver -/

namespace Ports

variable (s : Ports)

def outb (reg : Nat) (byte : UInt8) : Ports := { s with trace := .outb reg byte :: s.trace }

/-- The next status byte. A drive that answers no more keeps the driver waiting. -/
def getStatus : Ported (UInt8 × Ports) :=
  match s.statuses with
  | [] => .error (.diverges, s)
  | b :: statuses => .ok (b, { s with statuses, trace := .status b :: s.trace })

def inw : UInt16 × Ports :=
  (s.words 0, { s with words := fun k => s.words (k + 1), trace := .data (s.words 0) :: s.trace })

def check (cond : Bool) : Ported Unit :=
  if cond then .ok () else .error (.assertion, s)

/-- `while(!getStatus().isReadyOrFailed()){}` -/
def await (s : Ports) : Nat → Ported Ports
  | 0 => .error (.diverges, s)
  | fuel + 1 => do
    let (b, s) ← s.getStatus
    if isReadyOrFailed b then return s else await s fuel

/-- The loop and the assertion behind it. -/
def poll : Ported Ports := do
  let s ← s.await (s.statuses.length + 1)
  let (b, s) ← s.getStatus
  s.check (isOk b)
  return s

/-- The writes to the registers. -/
def issue (master : Bool) (LBA nbsector : Nat) : Ports :=
  let s := s.outb 6 (deviceByte master)
  let s := s.outb 2 (UInt8.ofNat (nbsector >>> 8))
  let s := s.outb 3 (UInt8.ofNat (LBA >>> 24))
  let s := s.outb 4 0
  let s := s.outb 5 0
  let s := s.outb 2 (UInt8.ofNat nbsector)
  let s := s.outb 3 (UInt8.ofNat LBA)
  let s := s.outb 4 (UInt8.ofNat (LBA >>> 8))
  let s := s.outb 5 (UInt8.ofNat (LBA >>> 16))
  s.outb 7 0x24

def skip (s : Ports) : Nat → Nat → Nat × Nat × Ports
  | offset + 2, count => skip s.inw.2 offset (count + 1)
  | offset, count => (offset, count, s)

def readFirst (offset size count : Nat) : List UInt8 × Nat × Nat × Ports :=
  if offset = 1 then ([high s.inw.1], size - 1, count + 1, s.inw.2) else ([], size, count, s)

/-- The loop over whole words, which polls in front of each sector. -/
def readWords (s : Ports) : Nat → Nat → Ported (List UInt8 × Nat × Nat × Ports)
  | size + 2, count => do
    let s ← (if count % 256 = 0 then s.poll else .ok s)
    let (bytes, size, count, s') ← readWords s.inw.2 size (count + 1)
    return (low s.inw.1 :: high s.inw.1 :: bytes, size, count, s')
  | size, count => .ok ([], size, count, s)

/-- The byte that is left, in front of which no status is read. -/
def readLast (size count : Nat) : List UInt8 × Nat × Ports :=
  if size = 1 then ([low s.inw.1], count + 1, s.inw.2) else ([], count, s)

def drain (s : Ports) : Nat → Ports
  | 0 => s
  | n + 1 => drain s.inw.2 n

def readaddr (master : Bool) (addr size : Nat) : Ported (List UInt8 × Ports) := do
  s.check (decide (0 < size ∧ size < 512 * 512 ∧ addr < 2 ^ 41))
  let LBA := u32 (addr / 512)
  let endLBA := u64 (addr + size + 511) / 512
  let nbsector := u64 (endLBA + 2 ^ 64 - LBA)
  let s ← (s.issue master LBA nbsector).poll
  let (offset, count, s) := s.skip (addr % 512) 0
  let (first, size, count, s) := s.readFirst offset size count
  let (middle, size, count, s) ← s.readWords size count
  let (last, count, s) := s.readLast size count
  return (first ++ middle ++ last, s.drain (nbsector * 256 - count))

variable {s} {m : Bytes} {base count n : Nat}

/-! ### What each part takes -/

/-- `count` words of the bytes of `m` from `base` on have been taken, each first word of a sector
after a poll. -/
structure Reading (m : Bytes) (base count : Nat) (s : Ports) : Prop where
  taken : taken s.trace = count
  waited : waited s.trace = true
  sticky : Sticky s.statuses
  words : ∀ k, s.words k = UInt16.ofNat (m.word (base + 2 * (count + k)) 2)

/-- Between the parts, the status has been polled since the last word only if there is none. -/
structure At (m : Bytes) (base count : Nat) (s : Ports) : Prop extends Reading m base count s where
  polled : polled s.trace = true ↔ count = 0

theorem Reading.inw (h : s.Reading m base count)
    (hpolled : count % 256 = 0 → HDD.polled s.trace = true) :
    s.inw.2.At m base (count + 1) := by
  refine ⟨⟨?_, ?_, h.sticky, fun k => ?_⟩, ?_⟩
  · exact congrArg (· + 1) h.taken
  · show (_ && HDD.waited s.trace) = true
    rw [h.waited, h.taken, Bool.and_true]
    by_cases hfirst : count % 256 = 0
    · rw [hpolled hfirst, Bool.or_true]
    · simp [hfirst]
  · show s.words (k + 1) = _
    rw [h.words, Nat.add_assoc, Nat.add_comm 1]
  · exact iff_of_false (by simp [Ports.inw, HDD.polled]) (Nat.succ_ne_zero count)

theorem Reading.low_inw (h : s.Reading m base count) : low s.inw.1 = m (base + 2 * count) := by
  show low (s.words 0) = _
  rw [h.words]
  exact low_word m _

theorem Reading.high_inw (h : s.Reading m base count) : high s.inw.1 = m (base + 2 * count + 1) := by
  show high (s.words 0) = _
  rw [h.words]
  exact high_word m _

/-- A word that is not the first of a sector, or that is the first of all. -/
theorem At.next (h : s.At m base count) (hfirst : count % 256 = 0 → count = 0) :
    s.inw.2.At m base (count + 1) :=
  h.toReading.inw fun h256 => h.polled.mpr (hfirst h256)

/-- The first loop stays in the first sector. -/
theorem At.skip {offset : Nat} (h : s.At m base count) (hlt : count + offset / 2 ≤ 256) :
    ∃ s' : Ports, s.skip offset count = (offset % 2, count + offset / 2, s') ∧
      s'.At m base (count + offset / 2) := by
  induction offset using Nat.twoStepInduction generalizing s count with
  | zero => exact ⟨s, rfl, h⟩
  | one => exact ⟨s, rfl, h⟩
  | more offset ih _ =>
    have hdiv : (offset + 2) / 2 = offset / 2 + 1 := by omega
    have hmod : (offset + 2) % 2 = offset % 2 := by omega
    obtain ⟨s', hskip, hat⟩ := ih (h.next (by omega)) (by omega)
    refine ⟨s', ?_, ?_⟩
    · unfold Ports.skip
      rw [hskip, hdiv, hmod, Nat.add_right_comm, Nat.add_assoc]
    · rwa [hdiv, Nat.add_comm (offset / 2), ← Nat.add_assoc]

theorem At.readFirst {odd size : Nat} (h : s.At m base count) (hodd : odd < 2)
    (hlt : count + odd ≤ 256) :
    ∃ s' : Ports, s.readFirst odd size count =
        (m.list (base + 2 * count + odd) odd, size - odd, count + odd, s') ∧
      s'.At m base (count + odd) := by
  unfold Ports.readFirst
  obtain rfl | rfl : odd = 0 ∨ odd = 1 := by omega
  · exact ⟨s, rfl, h⟩
  · refine ⟨s.inw.2, ?_, h.next (by omega)⟩
    rw [if_pos rfl, h.high_inw]
    rfl

/-! ### Polling -/

theorem getStatus_cons {b : UInt8} {bs : List UInt8} (h : s.statuses = b :: bs) :
    s.getStatus = .ok (b, { s with statuses := bs, trace := .status b :: s.trace }) := by
  unfold getStatus
  rw [h]

theorem Reading.status {b : UInt8} {bs : List UInt8} (h : s.Reading m base count)
    (hs : s.statuses = b :: bs) :
    ({ s with statuses := bs, trace := .status b :: s.trace } : Ports).Reading m base count :=
  ⟨h.taken, h.waited, (hs ▸ h.sticky).tail, h.words⟩

/-- The loop ends with a status that says ready or failed. -/
theorem Reading.await {fuel : Nat} (h : s.Reading m base count) : Ensures (s.await fuel)
    (fun e => HDD.waited e.2.trace = true)
    fun s' => s'.Reading m base count ∧ ∃ b older, s'.trace = .status b :: older ∧
      isReadyOrFailed b = true ∧ Sticky (b :: s'.statuses) := by
  induction fuel generalizing s with
  | zero => exact h.waited
  | succ fuel ih =>
    unfold Ports.await
    cases hs : s.statuses with
    | nil =>
      unfold getStatus
      rw [hs]
      exact h.waited
    | cons b bs =>
      rw [getStatus_cons hs, ok_bind]
      dsimp only
      by_cases hb : isReadyOrFailed b = true
      · rw [if_pos hb]
        exact ⟨h.status hs, b, s.trace, rfl, hb, hs ▸ h.sticky⟩
      · rw [if_neg hb]
        exact ih (h.status hs)

/-- A poll that returns has seen a drive that is ready and has not failed. -/
theorem Reading.poll (h : s.Reading m base count) : Ensures s.poll
    (fun e => HDD.waited e.2.trace = true)
    fun s' => s'.Reading m base count ∧ HDD.polled s'.trace = true := by
  unfold Ports.poll
  refine h.await.bind fun s₁ ⟨h₁, b, older, htrace, hb, hsticky⟩ => ?_
  cases hs : s₁.statuses with
  | nil =>
    unfold getStatus
    rw [hs]
    exact h₁.waited
  | cons b' bs =>
    rw [getStatus_cons hs, ok_bind]
    have h₂ := h₁.status hs
    dsimp only [check]
    by_cases hb' : isOk b' = true
    · rw [if_pos hb']
      refine ⟨h₂, ?_⟩
      -- a failure seen by the loop would have failed the assertion
      have hok : isOk b = true := by
        by_contra hn
        rw [hs] at hsticky
        have hfailed := (List.isChain_cons_cons.mp hsticky).1 (by simpa using hn)
        rw [hfailed] at hb'
        cases hb'
      have hready : (isOk b && !busy b) = true := by
        unfold isReadyOrFailed at hb
        unfold isOk at hok ⊢
        revert hok hb
        cases error b <;> cases driveFault b <;> simp
      show (_ || HDD.polled s₁.trace) = true
      rw [htrace]
      show (_ || (_ || _)) = true
      rw [hready, Bool.true_or, Bool.or_true]
    · rw [if_neg hb']
      exact h₂.waited

/-- The loop over words polls at the start of each sector. -/
theorem At.readWords {size : Nat} (h : s.At m base count) : Ensures (s.readWords size count)
    (fun e => HDD.waited e.2.trace = true)
    fun r => r.1 = m.list (base + 2 * count) (size / 2 * 2) ∧ r.2.1 = size % 2 ∧ r.2.2.1 = count + size / 2 ∧
      r.2.2.2.At m base (count + size / 2) := by
  induction size using Nat.twoStepInduction generalizing s count with
  | zero => exact ⟨rfl, rfl, rfl, h⟩
  | one => exact ⟨rfl, rfl, rfl, h⟩
  | more size ih _ =>
    have hdiv : (size + 2) / 2 = size / 2 + 1 := by omega
    have hmod : (size + 2) % 2 = size % 2 := by omega
    have hlist : (size / 2 + 1) * 2 = 2 + size / 2 * 2 := by omega
    unfold Ports.readWords
    have hpoll : Ensures (if count % 256 = 0 then s.poll else .ok s)
        (fun e => HDD.waited e.2.trace = true)
        fun s' => s'.Reading m base count ∧ (count % 256 = 0 → HDD.polled s'.trace = true) :=
      .ite (fun _ => h.toReading.poll.mono (fun _ he => he) fun s' h' => ⟨h'.1, fun _ => h'.2⟩)
        fun hne => ⟨h.toReading, fun h0 => absurd h0 hne⟩
    refine hpoll.bind fun s₁ ⟨h₁, hpolled⟩ => ?_
    refine (ih (h₁.inw hpolled)).bind fun r ⟨hbytes, hsize, hcount, hat⟩ => ?_
    refine ⟨?_, ?_, ?_, ?_⟩
    · rw [hbytes, h₁.low_inw, h₁.high_inw, hdiv, hlist, ← Bytes.list_append, list_two]
      rfl
    · rw [hsize, hmod]
    · rw [hcount, hdiv, Nat.add_right_comm, Nat.add_assoc]
    · rwa [hdiv, Nat.add_comm (size / 2), ← Nat.add_assoc]

/-! ### A drive that is always ready -/

/-- Only the bit `ready` is set. -/
def ready : UInt8 := 0x40

theorem poll_ready (hs : s.statuses = List.replicate (n + 2) ready) :
    ∃ s', s.poll = .ok s' ∧ s'.statuses = List.replicate n ready := by
  have hs' : s.statuses = ready :: ready :: List.replicate n ready := hs
  unfold poll Ports.await
  rw [getStatus_cons hs', ok_bind]
  dsimp only
  rw [if_pos (by decide), pure_bind, getStatus_cons rfl, ok_bind, check]
  dsimp only
  rw [if_pos (by decide)]
  exact ⟨_, rfl, rfl⟩

theorem skip_statuses (offset count : Nat) :
    (s.skip offset count).2.2.statuses = s.statuses := by
  induction offset using Nat.twoStepInduction generalizing s count with
  | zero => rfl
  | one => rfl
  | more offset ih _ => exact ih (s := s.inw.2) (count + 1)

theorem readFirst_statuses (offset size count : Nat) :
    (s.readFirst offset size count).2.2.2.statuses = s.statuses := by
  unfold Ports.readFirst
  split <;> rfl

theorem readFirst_size (offset size count : Nat) :
    (s.readFirst offset size count).2.1 ≤ size := by
  unfold Ports.readFirst
  split
  · exact Nat.sub_le size 1
  · exact Nat.le_refl size

theorem readWords_ready {size : Nat} (count : Nat) (hn : size ≤ n)
    (hs : s.statuses = List.replicate n ready) : ∃ r, s.readWords size count = .ok r := by
  induction size using Nat.twoStepInduction generalizing s count n with
  | zero => exact ⟨_, rfl⟩
  | one => exact ⟨_, rfl⟩
  | more size ih _ =>
    obtain ⟨k, rfl⟩ : ∃ k, n = k + 2 := ⟨n - 2, by omega⟩
    have hround : ∃ s₁ j, (if count % 256 = 0 then s.poll else .ok s) = .ok s₁ ∧
        s₁.statuses = List.replicate j ready ∧ size ≤ j := by
      by_cases h256 : count % 256 = 0
      · obtain ⟨s₁, hpoll, hs₁⟩ := poll_ready hs
        exact ⟨s₁, k, by rw [if_pos h256, hpoll], hs₁, by omega⟩
      · exact ⟨s, k + 2, by rw [if_neg h256], hs, by omega⟩
    obtain ⟨s₁, j, hs₁, hstatuses, hj⟩ := hround
    obtain ⟨r, hr⟩ := ih (s := s₁.inw.2) (count + 1) hj hstatuses
    unfold Ports.readWords
    rw [hs₁, ok_bind, hr]
    exact ⟨_, rfl⟩

/-- No call waits forever, and none fails. -/
theorem readaddr_ready {addr size : Nat} (master : Bool) (hpos : 0 < size)
    (hsize : size < 512 * 512) (haddr : addr < 2 ^ 41)
    (hs : s.statuses = List.replicate (size + 2) ready) :
    ∃ r, s.readaddr master addr size = .ok r := by
  unfold Ports.readaddr check
  rw [decide_eq_true ⟨hpos, hsize, haddr⟩, if_pos rfl, ok_bind]
  dsimp only
  obtain ⟨s₁, hpoll, hs₁⟩ := poll_ready (s := s.issue master _ _) hs
  rw [hpoll, ok_bind]
  have hskip := (skip_statuses (s := s₁) (addr % 512) 0).trans hs₁
  generalize s₁.skip (addr % 512) 0 = skipped at hskip
  obtain ⟨offset, count, s₂⟩ := skipped
  have hfirst := (readFirst_statuses (s := s₂) offset size count).trans hskip
  have hle := readFirst_size (s := s₂) offset size count
  dsimp only
  generalize s₂.readFirst offset size count = read at hfirst hle
  obtain ⟨first, size', count', s₃⟩ := read
  obtain ⟨r, hr⟩ := readWords_ready (s := s₃) count' hle hfirst
  dsimp only
  rw [hr]
  exact ⟨_, rfl⟩

/-! ### The end of the last sector -/

/-- The rest of a sector of which words have been taken. -/
theorem At.drain (h : s.At m base count) (hin : ∀ i < n, (count + i) % 256 ≠ 0) :
    HDD.waited (s.drain n).trace = true := by
  induction n generalizing s count with
  | zero => exact h.waited
  | succ n ih =>
    unfold Ports.drain
    refine ih (h.next fun h0 => absurd h0 (hin 0 (by omega))) fun i hi => ?_
    rw [Nat.add_right_comm]
    exact hin (i + 1) (by omega)

theorem drain_unwaited (h : HDD.waited s.trace = false) :
    HDD.waited (s.drain n).trace = false := by
  induction n generalizing s with
  | zero => exact h
  | succ n ih =>
    unfold Ports.drain
    refine ih ?_
    show (_ && HDD.waited s.trace) = false
    rw [h, Bool.and_false]

/-- The last byte is taken without a poll, which is right unless it begins another sector. -/
theorem At.readLast {rest : Nat} (h : s.At m base count) (hrest : rest < 2)
    (hin : ∀ i < n, (count + rest + i) % 256 ≠ 0) :
    ∃ s' : Ports, s.readLast rest count =
        (m.list (base + 2 * count) rest, count + rest, s') ∧
      (HDD.waited (s'.drain n).trace = true ↔ ¬(rest = 1 ∧ count % 256 = 0 ∧ count ≠ 0)) := by
  unfold Ports.readLast
  obtain rfl | rfl : rest = 0 ∨ rest = 1 := by omega
  · refine ⟨s, rfl, iff_of_true (h.drain hin) (by simp)⟩
  · refine ⟨s.inw.2, by rw [if_pos rfl, h.low_inw]; rfl, ?_⟩
    by_cases hfirst : count % 256 = 0 → count = 0
    · exact iff_of_true ((h.next hfirst).drain hin) fun hbad => hbad.2.2 (hfirst hbad.2.1)
    · obtain ⟨h256, hne⟩ := Classical.not_imp.mp hfirst
      refine iff_of_false (Bool.eq_false_iff.mp (drain_unwaited ?_)) fun hok => hok ⟨rfl, h256, hne⟩
      have hpolled : HDD.polled s.trace = false := Bool.eq_false_iff.mpr (mt h.polled.mp hne)
      show ((_ || HDD.polled s.trace) && _) = false
      rw [h.taken, hpolled, h256]
      rfl

/-! ### `readaddr` -/

/-- The driver before its first access, with the bytes that the data register is going to
deliver. -/
structure Fresh (m : Bytes) (addr : Nat) (s : Ports) : Prop where
  trace : s.trace = []
  sticky : Sticky s.statuses
  words : ∀ k, s.words k = UInt16.ofNat (m.word (addr / 512 * 512 + 2 * (0 + k)) 2)

/-- The bytes behind any words. -/
theorem exists_fresh (addr : Nat) (htrace : s.trace = []) (hsticky : Sticky s.statuses) :
    ∃ m, Fresh m addr s := by
  generalize hbase : addr / 512 * 512 = base
  refine ⟨fun x => Bytes.byteOf (s.words ((x - base) / 2)).toNat ((x - base) % 2), htrace,
    hsticky, fun k => ?_⟩
  have hlt := (s.words k).toNat_lt
  have h₀ : base + 2 * k - base = 2 * k := by omega
  have h₁ : base + 2 * k + 1 - base = 2 * k + 1 := by omega
  have hdiv : (2 * k + 1) / 2 = k := by omega
  rw [Nat.zero_add, hbase, word_two, ← UInt16.toNat_inj, UInt16.toNat_ofNat']
  simp only [h₀, h₁, hdiv, Bytes.byteOf, UInt8.toNat_ofNat', Nat.mul_mod_right,
    Nat.mul_add_mod_self_left, Nat.mul_div_cancel_left k Nat.two_pos, Nat.pow_zero, Nat.div_one,
    Nat.reduceMod, Nat.pow_one]
  omega

/-- The words that are drained are not the first of their sector. -/
theorem drain_inside {addr size : Nat} (hpos : 0 < size) : ∀ i,
    i < touched addr size * 256 - (0 + addr % 512 / 2 + addr % 512 % 2 +
      (size - addr % 512 % 2) / 2 + (size - addr % 512 % 2) % 2) →
    (0 + addr % 512 / 2 + addr % 512 % 2 + (size - addr % 512 % 2) / 2 +
      (size - addr % 512 % 2) % 2 + i) % 256 ≠ 0 := by
  intro i hi
  have hcount : 0 + addr % 512 / 2 + addr % 512 % 2 + (size - addr % 512 % 2) / 2 +
      (size - addr % 512 % 2) % 2 = (addr % 512 + size + 1) / 2 := by omega
  rw [hcount] at hi ⊢
  unfold touched at hi
  omega

/-- The last byte begins a sector that is not the first one. -/
theorem last_first {addr size : Nat} (hpos : 0 < size) :
    ((size - addr % 512 % 2) % 2 = 1 ∧
      (0 + addr % 512 / 2 + addr % 512 % 2 + (size - addr % 512 % 2) / 2) % 256 = 0 ∧
      0 + addr % 512 / 2 + addr % 512 % 2 + (size - addr % 512 % 2) / 2 ≠ 0) ↔
    1 < size ∧ (addr + size - 1) % 512 = 0 := by
  omega

/-- What `readaddr` returns, and whether it has waited for each sector. -/
theorem Fresh.readaddr {addr size : Nat} (hs : s.Fresh m addr) (master : Bool) (hpos : 0 < size)
    (hsize : size < 512 * 512) (haddr : addr < 2 ^ 41) : Ensures (s.readaddr master addr size)
      (fun e => HDD.waited e.2.trace = true)
      fun r => r.1 = m.list addr size ∧
        (HDD.waited r.2.trace = true ↔ ¬(1 < size ∧ (addr + size - 1) % 512 = 0)) := by
  have hlba : u32 (addr / 512) = addr / 512 := u32_of_lt (by omega)
  have hend : u64 (addr + size + 511) = addr + size + 511 := u64_of_lt (by omega)
  have hnb : u64 ((addr + size + 511) / 512 + 2 ^ 64 - addr / 512) = touched addr size := by
    unfold u64 touched
    omega
  have hissue : (s.issue master (addr / 512) (touched addr size)).Reading m (addr / 512 * 512) 0 :=
    ⟨by simp [issue, outb, HDD.taken, hs.trace], by simp [issue, outb, HDD.waited, hs.trace],
      hs.sticky, hs.words⟩
  unfold Ports.readaddr check
  rw [decide_eq_true ⟨hpos, hsize, haddr⟩, if_pos rfl, ok_bind]
  dsimp only
  rw [hlba, hend, hnb]
  refine hissue.poll.bind fun s₁ ⟨hreading, hpolled⟩ => ?_
  have h₁ : s₁.At m (addr / 512 * 512) 0 := ⟨hreading, iff_of_true hpolled rfl⟩
  have hskipped : 0 + addr % 512 / 2 ≤ 256 := by omega
  obtain ⟨s₂, hskip, h₂⟩ := h₁.skip hskipped
  rw [hskip]
  have hodd : addr % 512 % 2 < 2 := Nat.mod_lt _ (by decide)
  obtain ⟨s₃, hfirst, h₃⟩ := h₂.readFirst hodd (by omega)
  dsimp only
  rw [hfirst]
  refine h₃.readWords.bind fun ⟨middle, rest, count, s₄⟩ ⟨hmiddle, hrest, hcount, h₄⟩ => ?_
  dsimp only at hmiddle hrest hcount h₄ ⊢
  subst hmiddle hrest hcount
  obtain ⟨s₅, hlast, hwaited⟩ := h₄.readLast (Nat.mod_lt _ (by decide)) (drain_inside hpos)
  rw [hlast]
  refine ⟨read_bytes m hpos rfl rfl, hwaited.trans (not_congr (last_first hpos))⟩

/-- What is returned is what `HDD.readaddr` returns of a drive that delivers the same words. -/
theorem Fresh.readaddr_eq {master : Bool} {d : Drive} {addr size : Nat} {r : List UInt8 × Ports}
    (hs : s.Fresh d.disk addr) (hr : Ready master d) (h : InRange addr size)
    (hrun : s.readaddr master addr size = .ok r) :
    ∃ d', HDD.readaddr master d addr size = .ok (r.1, d') := by
  obtain ⟨d', hread, _⟩ := readaddr_spec addr size hr h.pos h.lt h.end_le
  have hbytes := ((hs.readaddr master h.pos h.lt h.addr_lt).of_ok hrun).1
  exact ⟨d', hbytes ▸ hread⟩

end Ports

end SupOS.HDD
