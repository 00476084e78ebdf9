import SupOS.Streams.BytesStream
import SupOS.Descriptors.FileDescriptor
import SupOS.Errno
import Mathlib.Algebra.Ring.Int.Defs

/-! `sysseek` of `User/Syscalls.cpp`. -/

namespace SupOS.Streams

/-- The functionalities in the mask of a stream. -/
def READABLE : Nat := 1

def WRITABLE : Nat := 2

def SEEKABLE : Nat := 4

def APPENDABLE : Nat := 8

/-- `SEEK_SET`, `SEEK_CUR` and `SEEK_END`. -/
def SEEK_SET : Nat := 0

def SEEK_CUR : Nat := 1

def SEEK_END : Nat := 2

/-- The streams that are seekable: a `BytesStream`, and the devices `StreamZero`, `StreamNull` and
`StreamRandom`, also behind a `CharacterDevice`. -/
inductive Stream
  | bytes (s : BytesStream)
  | device
  deriving DecidableEq, Repr

namespace Stream

def getMask : Stream → Nat
  | .bytes _ | .device => READABLE ||| WRITABLE ||| APPENDABLE ||| SEEKABLE

def tell : Stream → Nat
  | .bytes s => s.tell
  | .device => 0

/-- `end`, which the devices have from `Stream`. -/
def «end» : Stream → Nat
  | .bytes s => s.end
  | .device => 0

/-- `seek` from the beginning. -/
def seek (count : Nat) : Stream → Stream
  | .bytes s => .bytes (s.seek count .BEG).2
  | .device => .device

end Stream

/-- A descriptor of a table, with its stream. -/
structure Open where
  desc : FileDescriptor
  stream : Stream
  deriving DecidableEq, Repr

/-- The value of an `i64` that has the bits of `n`. -/
def i64 (n : Int) : Int := (n + 2 ^ 63) % 2 ^ 64 - 2 ^ 63

namespace Open

variable (d : Open)

/-- `desc.check(val)` -/
def check (val : Nat) : Bool := d.desc.check d.stream.getMask val

/-- The descriptor can append. -/
def appendable : Bool := d.check APPENDABLE

end Open

/-- Where the mode counts from. -/
def origin (s : Stream) (mode : Nat) : Option Nat :=
  if mode = SEEK_SET then some 0
  else if mode = SEEK_CUR then some s.tell
  else if mode = SEEK_END then some s.end
  else none

/-- `sysseek` -/
def sysseek (fds : List Open) (fd offset mode : Nat) : Nat × List Open :=
  match fds[fd]? with
  | none => (errno EBADF, fds)
  | some d =>
    if !d.desc.hasStream then (errno EBADF, fds)
    else if !d.check SEEKABLE then (errno EBADF, fds)
    else
      let size := i64 d.stream.end
      match origin d.stream mode with
      | none => (errno EINVAL, fds)
      | some start =>
        -- the sum is taken modulo 2 ^ 64
        let origin := i64 (i64 start + offset)
        if origin < 0 then (errno EINVAL, fds)
        else if size < origin ∧ !d.appendable then (errno EINVAL, fds)
        else (origin.toNat, fds.set fd { d with stream := d.stream.seek origin.toNat })

/-- The byte that the mode and the offset, a signed value, mean. -/
def target (s : Stream) (offset mode : Nat) : Option Int :=
  (origin s mode).map fun start => start + i64 offset

/-- The seek has to fail: the mode is unknown, or the target is negative, or it is past the end of what
cannot be appended to. -/
def Refused (d : Open) (offset mode : Nat) : Prop :=
  match target d.stream offset mode with
  | none => True
  | some t => t < 0 ∨ (d.stream.end < t ∧ d.appendable = false)

/-- The next access of the stream starts at byte `r`. -/
def StartsAt : Stream → Nat → Prop
  | .bytes s, r => ∀ count size, ∀ a ∈ (s.read count).accesses ++ (s.write count size).accesses,
      ∃ n, a = .readaddr r n ∨ a = .writeaddr r n
  | .device, _ => True

/-- What `sysseek` returns is true of the descriptor that it leaves: a value is the target and the new
position, with an error the descriptor is as before, and errors are for what has to fail. -/
structure Truthful (d : Open) (offset mode : Nat) (r : Nat) (d' : Open) : Prop where
  value : 0 ≤ i64 r → target d.stream offset mode = some (r : Int) ∧ d'.stream.tell = r ∧ StartsAt d'.stream r
  error : i64 r < 0 → d' = d
  refused : i64 r < 0 ↔ Refused d offset mode

/-- With `t` the target: the seek has to fail and `end` does not pass for a negative value or the target
for one within it, or the target is within the data and below 2 ^ 63, or the position is there already. -/
def Reaches (d : Open) (offset mode : Nat) : Prop :=
  match target d.stream offset mode with
  | none => True
  | some t =>
    t < 0 ∨
    (d.appendable = true ∧ t < 2 ^ 63 ∧ (t ≤ d.stream.end ∨ t = d.stream.tell)) ∨
    (d.appendable = false ∧ t ≤ d.stream.end ∧ d.stream.end < 2 ^ 63) ∨
    (d.appendable = false ∧ d.stream.end < t ∧
      (t < 2 ^ 64 ∨ 2 ^ 63 ≤ d.stream.end ∨ d.stream.end < t - 2 ^ 64))

variable {s : Stream} {d d' : Open} {fds : List Open} {fd offset mode : Nat}

/-- The value is the only one of the type that agrees with `n` modulo 2 ^ 64. -/
theorem i64_spec (n : Int) :
    -2 ^ 63 ≤ i64 n ∧ i64 n < 2 ^ 63 ∧ ∃ k : Int, i64 n = n + 2 ^ 64 * k := by
  have hdiv := Int.emod_add_mul_ediv (n + 2 ^ 63) (2 ^ 64)
  have hlow := Int.emod_nonneg (n + 2 ^ 63) (show (2 ^ 64 : Int) ≠ 0 by decide)
  have hhigh := Int.emod_lt_of_pos (n + 2 ^ 63) (show (0 : Int) < 2 ^ 64 by decide)
  unfold i64
  exact ⟨by omega, by omega, -((n + 2 ^ 63) / 2 ^ 64), by omega⟩

theorem i64_of_lt {n : Int} (h0 : 0 ≤ n) (h : n < 2 ^ 63) : i64 n = n := by
  obtain ⟨hlow, hhigh, k, hk⟩ := i64_spec n
  omega

theorem i64_errno : i64 (errno EINVAL) < 0 := by decide

theorem tell_seek_of_lt {count : Nat} (h : s.end < count) : (s.seek count).tell = s.tell := by
  cases s with
  | bytes s =>
    have hlt : s.data.size < count := h
    simp only [Stream.seek, BytesStream.seek, if_pos hlt]
  | device => rfl

theorem tell_seek_of_le {count : Nat} (h : count ≤ s.end) : (s.seek count).tell = count := by
  cases s with
  | bytes s =>
    have hle : ¬s.data.size < count := Nat.not_lt_of_le h
    simp only [Stream.seek, BytesStream.seek, if_neg hle, Stream.tell, BytesStream.tell]
  | device => exact (Nat.le_zero.mp h).symm

/-- Reads and writes start at the position. -/
theorem startsAt_tell (s : Stream) : StartsAt s s.tell := by
  cases s with
  | bytes s =>
    intro count size a ha
    rcases List.mem_append.mp ha with h | h
    · exact (BytesStream.start_read h).imp fun _ => .inl
    · exact (BytesStream.start_write h).imp fun _ => .inr
  | device => trivial

/-- What `sysseek` does with a descriptor that is seekable. -/
def Open.reposition (d : Open) (offset mode : Nat) : Nat × Open :=
  match origin d.stream mode with
  | none => (errno EINVAL, d)
  | some start =>
    let o := i64 (i64 start + offset)
    if o < 0 then (errno EINVAL, d)
    else if i64 d.stream.end < o ∧ !d.appendable then (errno EINVAL, d)
    else (o.toNat, { d with stream := d.stream.seek o.toNat })

theorem sysseek_eq (hd : fds[fd]? = some d) (hstream : d.desc.hasStream = true)
    (hseek : d.check SEEKABLE = true) :
    sysseek fds fd offset mode =
      ((d.reposition offset mode).1, fds.set fd (d.reposition offset mode).2) := by
  have hself : fds.set fd d = fds := by
    obtain ⟨hlt, rfl⟩ := List.getElem?_eq_some_iff.mp hd
    exact List.set_getElem_self hlt
  rw [sysseek, hd]
  simp only [hstream, hseek, Bool.not_true, Bool.false_eq_true, if_false, Open.reposition]
  cases origin d.stream mode with
  | none => simp only [hself]
  | some start =>
    dsimp only
    by_cases hneg : i64 (i64 start + offset) < 0
    · simp only [if_pos hneg, hself]
    · simp only [if_neg hneg]
      by_cases hpast : i64 d.stream.end < i64 (i64 start + offset) ∧ (!d.appendable) = true
      · simp only [if_pos hpast, hself]
      · simp only [if_neg hpast]

/-- What the sum in `sysseek` is of the target. -/
theorem i64_sum {start offset : Nat} {t : Int} (ht : t = start + i64 offset) (hstart : start < 2 ^ 64) :
    -2 ^ 63 ≤ t ∧ t < 2 ^ 64 + 2 ^ 63 ∧
      i64 (i64 start + offset) = if t < 2 ^ 63 then t else t - 2 ^ 64 := by
  obtain ⟨hlow, hhigh, k, hk⟩ := i64_spec offset
  obtain ⟨hlow', hhigh', k', hk'⟩ := i64_spec start
  obtain ⟨hlow'', hhigh'', k'', hk''⟩ := i64_spec (i64 start + offset)
  refine ⟨by omega, by omega, ?_⟩
  by_cases hlt : t < 2 ^ 63
  · rw [if_pos hlt]
    omega
  · rw [if_neg hlt]
    omega

theorem truthful_iff (htell : d.stream.tell < 2 ^ 64) (hend : d.stream.end < 2 ^ 64) :
    Truthful d offset mode (d.reposition offset mode).1 (d.reposition offset mode).2 ↔
      Reaches d offset mode := by
  have hrefused {r : Nat} (hr : i64 r < 0) : Truthful d offset mode r d ↔ Refused d offset mode :=
    ⟨fun h => h.refused.mp hr, fun h => ⟨fun h0 => by omega, fun _ => rfl, iff_of_true hr h⟩⟩
  unfold Open.reposition
  cases horigin : origin d.stream mode with
  | none =>
    have htarget : target d.stream offset mode = none := by rw [target, horigin]; rfl
    rw [hrefused i64_errno, Refused, Reaches, htarget]
  | some start =>
    have hstart : start < 2 ^ 64 := by
      unfold origin at horigin
      split_ifs at horigin
      all_goals
        obtain rfl := Option.some.inj horigin
        first | assumption | decide
    have htarget : target d.stream offset mode = some ((start : Int) + i64 offset) := by
      rw [target, horigin]
      rfl
    obtain ⟨hlow, hhigh, hsum⟩ := i64_sum rfl hstart
    obtain ⟨hlow', hhigh', k, hsize⟩ := i64_spec d.stream.end
    dsimp only
    generalize (start : Int) + i64 offset = t at htarget hlow hhigh hsum
    generalize i64 (i64 start + offset) = o at hsum
    by_cases hneg : o < 0
    · rw [if_pos hneg, hrefused i64_errno, Refused, Reaches, htarget]
      cases d.appendable
      · simp only [Bool.false_eq_true, false_and, true_and, and_true, false_or]
        omega
      · simp only [reduceCtorEq, false_and, true_and, and_false, or_false]
        omega
    rw [if_neg hneg]
    by_cases hpast : i64 d.stream.end < o ∧ (!d.appendable) = true
    · rw [if_pos hpast, hrefused i64_errno, Refused, Reaches, htarget]
      obtain ⟨hlt, happ⟩ := hpast
      rw [Bool.not_eq_true'] at happ
      simp only [happ, Bool.false_eq_true, false_and, true_and, and_true, false_or]
      omega
    rw [if_neg hpast]
    have ho : i64 (o.toNat : Int) = o := by
      rw [Int.toNat_of_nonneg (Int.le_of_not_gt hneg)]
      exact i64_of_lt (Int.le_of_not_gt hneg) (by omega)
    have htruthful : Truthful d offset mode o.toNat { d with stream := d.stream.seek o.toNat } ↔
        t = o ∧ (d.stream.seek o.toNat).tell = o.toNat ∧ ¬Refused d offset mode := by
      constructor
      · intro h
        obtain ⟨hval, hpos, -⟩ := h.value (by omega)
        rw [htarget, Option.some.injEq] at hval
        exact ⟨by omega, hpos, fun hr => absurd (h.refused.mpr hr) (by omega)⟩
      · rintro ⟨rfl, hpos, hnot⟩
        refine ⟨fun _ => ⟨?_, hpos, ?_⟩, fun h => by omega, iff_of_false (by omega) hnot⟩
        · rw [htarget, Int.toNat_of_nonneg (Int.le_of_not_gt hneg)]
        · have hstarts := startsAt_tell (d.stream.seek t.toNat)
          rwa [hpos] at hstarts
    rw [htruthful, Refused, Reaches, htarget]
    by_cases hend' : d.stream.end < o.toNat
    · rw [tell_seek_of_lt hend']
      cases happ : d.appendable
      · rw [happ] at hpast
        simp only [Bool.false_eq_true, false_and, true_and, and_true, false_or]
        simp only [Bool.not_false, and_true] at hpast
        omega
      · simp only [reduceCtorEq, false_and, true_and, and_false, or_false]
        omega
    · rw [tell_seek_of_le (Nat.le_of_not_lt hend')]
      cases happ : d.appendable
      · rw [happ] at hpast
        simp only [Bool.false_eq_true, false_and, true_and, and_true, false_or]
        simp only [Bool.not_false, and_true] at hpast
        omega
      · simp only [reduceCtorEq, false_and, true_and, and_false, or_false]
        omega

/-- `sysseek` on a seekable descriptor tells the truth exactly when the position that it returns is
reached. -/
theorem sysseek_iff (fds : List Open) (fd offset mode : Nat) (d : Open) (hd : fds[fd]? = some d)
    (hstream : d.desc.hasStream = true) (hseek : d.check SEEKABLE = true)
    (htell : d.stream.tell < 2 ^ 64) (hend : d.stream.end < 2 ^ 64) :
    (∃ d', (sysseek fds fd offset mode).2 = fds.set fd d' ∧
      Truthful d offset mode (sysseek fds fd offset mode).1 d') ↔ Reaches d offset mode := by
  rw [sysseek_eq hd hstream hseek, ← truthful_iff htell hend]
  constructor
  · rintro ⟨d', hset, htruthful⟩
    obtain ⟨hlt, -⟩ := List.getElem?_eq_some_iff.mp hd
    have hget := congrArg (·[fd]?) hset
    dsimp only at hget
    rw [List.getElem?_set_self hlt, List.getElem?_set_self hlt, Option.some.injEq] at hget
    rw [hget]
    exact htruthful
  · exact fun h => ⟨_, rfl, h⟩

/-- A descriptor for reading and writing at byte 3 of a file of 10 bytes. -/
def smallFile : Open where
  desc := ⟨some 0, .STREAM, SEEKABLE ||| READABLE ||| WRITABLE ||| APPENDABLE⟩
  stream := .bytes ⟨⟨10, true⟩, 3⟩

/-- Two bytes back from the end. -/
theorem sysseek_back : ∃ d', (sysseek [smallFile] 0 (2 ^ 64 - 2) SEEK_END).2 = [d'] ∧
    Truthful smallFile (2 ^ 64 - 2) SEEK_END (sysseek [smallFile] 0 (2 ^ 64 - 2) SEEK_END).1 d' :=
  (sysseek_iff [smallFile] 0 (2 ^ 64 - 2) SEEK_END smallFile rfl rfl rfl (by decide) (by decide)).mpr
    (.inr (.inl ⟨rfl, by decide, .inl (by decide)⟩))

/-- A seek to byte 20 returns 20 and leaves the position at byte 3. -/
theorem sysseek_past_end : sysseek [smallFile] 0 20 SEEK_SET = (20, [smallFile]) ∧
    ¬Truthful smallFile 20 SEEK_SET 20 smallFile := by
  refine ⟨by decide +kernel, fun h => ?_⟩
  obtain ⟨-, hpos, -⟩ := h.value (by decide)
  exact absurd hpos (by decide)

end SupOS.Streams
