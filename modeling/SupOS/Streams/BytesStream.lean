import SupOS.Fault

/-! The class `BytesStream` of `Streams/BytesStream.cpp`, and where the accesses to its data lie while
others change the size of the data. -/

namespace SupOS.Streams

/-- What a stream sees of the sequence of bytes in `_data`: the results of `getSize` and of
`appendable`. -/
structure Bytes where
  size : Nat
  appendable : Bool
  deriving DecidableEq, Repr

/-- A call of `readaddr` or `writeaddr`. -/
inductive Access
  | readaddr (addr count : Nat)
  | writeaddr (addr count : Nat)
  deriving DecidableEq, Repr

/-- The stream, with its data. -/
structure BytesStream where
  data : Bytes
  addr : Nat
  deriving DecidableEq, Repr

/-- What a call returns, the accesses it makes, and the stream that it leaves. -/
structure Done where
  count : Nat
  accesses : List Access
  stream : BytesStream
  deriving DecidableEq, Repr

/-- `Stream::mod` -/
inductive Mod
  | BEG
  | CUR
  | END
  deriving DecidableEq, Repr

namespace BytesStream

variable (s : BytesStream)

/-- `_data->getSize()-_addr`, which is unsigned. -/
def remaining : Nat := u64 (s.data.size + 2 ^ 64 - s.addr)

def read (count : Nat) : Done :=
  let toRead := max 0 (min count s.remaining)
  if toRead = 0 then ⟨0, [], s⟩
  else ⟨toRead, [.readaddr s.addr toRead], { s with addr := u64 (s.addr + toRead) }⟩

/-- The member `eof` of `BytesStream`; it does not override the one of `Stream`, which is const. -/
def eof : Bool := s.addr == s.data.size

/-- `write`; the size of data that is appendable is `size` after it. -/
def write (count size : Nat) : Done :=
  let toWrite := if s.data.appendable then count else max 0 (min count s.remaining)
  if toWrite = 0 then ⟨0, [], s⟩
  else
    let data := if s.data.appendable then { s.data with size := u64 size } else s.data
    ⟨toWrite, [.writeaddr s.addr toWrite], ⟨data, u64 (s.addr + toWrite)⟩⟩

def tell : Nat := s.addr

def «end» : Nat := s.data.size

/-- `seek`, where `count` is the bits of an `i64`. -/
def seek (count : Nat) (mode : Mod) : Nat × BytesStream :=
  let toSet := match mode with
    | .BEG => count
    | .CUR => u64 (s.addr + count)
    | .END => u64 (s.data.size + count)
  if s.data.size < toSet then (2 ^ 64 - 1, s) else (toSet, { s with addr := toSet })

/-- The calls on a stream, and a change of the size of its data elsewhere. -/
inductive Call
  | read (count : Nat)
  | write (count size : Nat)
  | seek (count : Nat) (mode : Mod)
  | eof
  | resize (size : Nat)
  deriving DecidableEq, Repr

def apply : Call → BytesStream
  | .read count => (s.read count).stream
  | .write count size => (s.write count size).stream
  | .seek count mode => (s.seek count mode).2
  | .eof => s
  | .resize size => { s with data := { s.data with size := u64 size } }

/-- The calls of a run, each with the stream on which it is made. -/
def trace : BytesStream → List Call → List (BytesStream × Call)
  | _, [] => []
  | s, c :: cs => (s, c) :: trace (s.apply c) cs

end BytesStream

namespace Bytes

variable (d : Bytes)

/-- The access is one that the data must serve. -/
def Serves : Access → Prop
  | .readaddr addr count => addr + count ≤ d.size
  | .writeaddr addr count => d.appendable = true ∨ addr + count ≤ d.size

/-- How many bytes the access moves: those of the data at these addresses, and all that are written to
data that is appendable. -/
def moves : Access → Nat
  | .readaddr addr count => min (addr + count) d.size - addr
  | .writeaddr addr count => if d.appendable then count else min (addr + count) d.size - addr

end Bytes

namespace BytesStream

variable (s : BytesStream)

/-- A read or a write stays inside the data and tells how many bytes it has moved. -/
def Sound (r : Done) : Prop :=
  (∀ a ∈ r.accesses, s.data.Serves a) ∧ r.count = (r.accesses.map s.data.moves).sum

/-- The call does what a stream promises. -/
def Right : Call → Prop
  | .read count => s.Sound (s.read count)
  | .write count size => s.Sound (s.write count size)
  | .eof => s.eof = true ↔ s.data.size ≤ s.addr
  | .seek _ _ | .resize _ => True

/-- Where the call depends on the end of the data, the position is not past it. -/
def Within : Call → Prop
  | .read count => count = 0 ∨ s.addr ≤ s.data.size
  | .write count _ => count = 0 ∨ s.data.appendable = true ∨ s.addr ≤ s.data.size
  | .eof => s.addr ≤ s.data.size
  | .seek _ _ | .resize _ => True

variable {s} {count size : Nat}

/-- A read starts at the position. -/
theorem start_read {a : Access} (ha : a ∈ (s.read count).accesses) : ∃ n, a = .readaddr s.addr n := by
  unfold read at ha
  dsimp only at ha
  split_ifs at ha
  · cases ha
  · exact ⟨_, List.mem_singleton.mp ha⟩

/-- A write starts at the position. -/
theorem start_write {a : Access} (ha : a ∈ (s.write count size).accesses) :
    ∃ n, a = .writeaddr s.addr n := by
  unfold write at ha
  generalize (if s.data.appendable = true then count else max 0 (min count s.remaining)) = toWrite at ha
  dsimp only at ha
  by_cases hzero : toWrite = 0
  · rw [if_pos hzero] at ha
    cases ha
  · rw [if_neg hzero] at ha
    exact ⟨_, List.mem_singleton.mp ha⟩

theorem remaining_of_le (h : s.addr ≤ s.data.size) (hsize : s.data.size < 2 ^ 64) :
    s.remaining = s.data.size - s.addr := by
  unfold remaining u64
  omega

/-- Past the end, the difference has wrapped. -/
theorem remaining_pos (h : s.data.size < s.addr) (haddr : s.addr < 2 ^ 64) : 0 < s.remaining := by
  unfold remaining u64
  omega

/-- An access of the bytes that remain, at most `count` of them, to data that ends. -/
theorem sound_iff {access : Access} {t : BytesStream} (hsize : s.data.size < 2 ^ 64)
    (haddr : s.addr < 2 ^ 64)
    (hserves : s.data.Serves access ↔ s.addr + min count s.remaining ≤ s.data.size)
    (hmoves : s.data.moves access = min (s.addr + min count s.remaining) s.data.size - s.addr) :
    s.Sound (if min count s.remaining = 0 then ⟨0, [], s⟩ else ⟨min count s.remaining, [access], t⟩) ↔
      count = 0 ∨ s.addr ≤ s.data.size := by
  by_cases hzero : min count s.remaining = 0
  · rw [if_pos hzero]
    refine iff_of_true ⟨List.forall_mem_nil _, rfl⟩ ?_
    by_contra h
    have hpos := remaining_pos (s := s) (by omega) haddr
    omega
  · rw [if_neg hzero]
    constructor
    · intro h
      have hin := hserves.mp (h.1 access List.mem_cons_self)
      omega
    · intro h
      have hle : s.addr ≤ s.data.size := h.resolve_left (by omega)
      have hrem := remaining_of_le hle hsize
      refine ⟨fun a ha => ?_, ?_⟩
      · obtain rfl := List.mem_singleton.mp ha
        exact hserves.mpr (by omega)
      · rw [List.map_singleton, List.sum_singleton, hmoves]
        dsimp only
        omega

theorem read_iff (hsize : s.data.size < 2 ^ 64) (haddr : s.addr < 2 ^ 64) :
    s.Right (.read count) ↔ s.Within (.read count) := by
  simp only [Right, Within, read, Nat.zero_max]
  exact sound_iff hsize haddr Iff.rfl rfl

theorem write_iff (hsize : s.data.size < 2 ^ 64) (haddr : s.addr < 2 ^ 64) :
    s.Right (.write count size) ↔ s.Within (.write count size) := by
  simp only [Right, Within, write, Nat.zero_max]
  by_cases happ : s.data.appendable = true
  · refine iff_of_true ?_ (.inr (.inl happ))
    rw [if_pos happ]
    split_ifs with hzero
    · exact ⟨List.forall_mem_nil _, rfl⟩
    · refine ⟨fun a ha => ?_, ?_⟩
      · obtain rfl := List.mem_singleton.mp ha
        exact .inl happ
      · rw [List.map_singleton, List.sum_singleton, Bytes.moves, if_pos happ]
  · rw [if_neg happ, if_neg happ]
    have hserves : s.data.Serves (.writeaddr s.addr (min count s.remaining)) ↔
        s.addr + min count s.remaining ≤ s.data.size := or_iff_right happ
    rw [sound_iff hsize haddr hserves (if_neg happ), or_iff_right happ]

/-- A call is right exactly when it is made within the data. -/
theorem call_right_iff (hsize : s.data.size < 2 ^ 64) (haddr : s.addr < 2 ^ 64) (c : Call) :
    s.Right c ↔ s.Within c := by
  cases c with
  | read count => exact read_iff hsize haddr
  | write count size => exact write_iff hsize haddr
  | seek count mode => exact Iff.rfl
  | eof =>
    simp only [Right, Within, eof, beq_iff_eq]
    omega
  | resize size => exact Iff.rfl

/-! ### Runs -/

/-- Size and position are values of 64 bits all along. -/
theorem apply_lt (hsize : s.data.size < 2 ^ 64) (haddr : s.addr < 2 ^ 64) (c : Call) :
    (s.apply c).data.size < 2 ^ 64 ∧ (s.apply c).addr < 2 ^ 64 := by
  have hmod : ∀ n, u64 n < 2 ^ 64 := fun n => Nat.mod_lt n (by decide)
  cases c with
  | read count =>
    simp only [apply, read]
    split_ifs
    · exact ⟨hsize, haddr⟩
    · exact ⟨hsize, hmod _⟩
  | write count size =>
    simp only [apply, write]
    by_cases happ : s.data.appendable = true
    · simp only [if_pos happ]
      split_ifs
      · exact ⟨hsize, haddr⟩
      · exact ⟨hmod _, hmod _⟩
    · simp only [if_neg happ]
      split_ifs
      · exact ⟨hsize, haddr⟩
      · exact ⟨hsize, hmod _⟩
  | seek count mode =>
    simp only [apply, seek]
    split_ifs with hlt
    · exact ⟨hsize, haddr⟩
    · exact ⟨hsize, by dsimp only; omega⟩
  | eof => exact ⟨hsize, haddr⟩
  | resize size => exact ⟨hmod _, haddr⟩

/-- All calls of a run are right exactly when each is made within the data. -/
theorem run_inside (s : BytesStream) (calls : List Call) (hsize : s.data.size < 2 ^ 64)
    (haddr : s.addr < 2 ^ 64) :
    (∀ p ∈ s.trace calls, p.1.Right p.2) ↔ ∀ p ∈ s.trace calls, p.1.Within p.2 := by
  induction calls generalizing s with
  | nil => exact iff_of_true (List.forall_mem_nil _) (List.forall_mem_nil _)
  | cons c calls ih =>
    obtain ⟨hsize', haddr'⟩ := apply_lt hsize haddr c
    rw [trace, List.forall_mem_cons, List.forall_mem_cons, call_right_iff hsize haddr c,
      ih (s.apply c) hsize' haddr']

/-- A change of the size leaves the position within the data, and data that grows holds what has been
written to it. -/
def Spares (s : BytesStream) : Call → Prop
  | .resize size => s.addr ≤ size ∧ size < 2 ^ 64
  | .write count size => s.data.appendable = true → s.addr + count ≤ size ∧ size < 2 ^ 64
  | _ => True

/-- Without a cut below the position, the position stays within the data. -/
theorem apply_within (hsize : s.data.size < 2 ^ 64) (hle : s.addr ≤ s.data.size) {c : Call}
    (hc : s.Spares c) : (s.apply c).addr ≤ (s.apply c).data.size := by
  have hrem := remaining_of_le hle hsize
  cases c with
  | read count =>
    simp only [apply, read]
    split_ifs
    · exact hle
    · dsimp only
      rw [u64_of_lt (by omega)]
      omega
  | write count size =>
    simp only [apply, write]
    by_cases happ : s.data.appendable = true
    · obtain ⟨hcount, hlt⟩ := hc happ
      simp only [if_pos happ]
      split_ifs
      · exact hle
      · dsimp only
        rw [u64_of_lt hlt, u64_of_lt (by omega)]
        exact hcount
    · simp only [if_neg happ]
      split_ifs
      · exact hle
      · dsimp only
        rw [u64_of_lt (by omega)]
        omega
  | seek count mode =>
    simp only [apply, seek]
    split_ifs with hlt
    · exact hle
    · exact Nat.le_of_not_lt hlt
  | eof => exact hle
  | resize size =>
    rw [apply, u64_of_lt hc.2]
    exact hc.1

/-- In a run that never cuts the data below the position, every call is right. -/
theorem run_spared (s : BytesStream) (calls : List Call) (hsize : s.data.size < 2 ^ 64)
    (hle : s.addr ≤ s.data.size) (hcalls : ∀ p ∈ s.trace calls, p.1.Spares p.2) :
    ∀ p ∈ s.trace calls, p.1.Right p.2 := by
  induction calls generalizing s with
  | nil => exact List.forall_mem_nil _
  | cons c calls ih =>
    obtain ⟨hc, hrest⟩ := List.forall_mem_cons.mp hcalls
    have haddr := Nat.lt_of_le_of_lt hle hsize
    refine List.forall_mem_cons.mpr ⟨(call_right_iff hsize haddr c).mpr ?_,
      ih _ (apply_lt hsize haddr c).1 (apply_within hsize hle hc) hrest⟩
    cases c with
    | read count => exact .inr hle
    | write count size => exact .inr (.inr hle)
    | seek count mode => exact trivial
    | eof => exact hle
    | resize size => exact trivial

/-- A file of 10 bytes is read to its end, cut to 4 bytes, and read again after a seek to its end: the
position is past the end for a while, and every call is right. -/
theorem run_inside_cut : ∃ run, run = (BytesStream.mk ⟨10, true⟩ 0).trace
    [.read 100, .eof, .resize 4, .seek 0 .END, .read 100] ∧
    (∃ p ∈ run, p.1.data.size < p.1.addr) ∧ ∀ p ∈ run, p.1.Right p.2 := by
  refine ⟨_, rfl, ⟨_, List.mem_of_getElem? (i := 3) rfl, by decide⟩, ?_⟩
  refine (run_inside ⟨⟨10, true⟩, 0⟩ _ (by decide) (by decide)).mpr ?_
  simp only [trace, List.forall_mem_cons, List.not_mem_nil, false_imp_iff, implies_true, and_true]
  exact ⟨.inr (by decide), (by decide : (10 : Nat) ≤ 10), trivial, trivial, .inr (by decide)⟩

/-- Without the seek, the next read asks for bytes past the end. -/
theorem read_past_cut : ¬∀ p ∈ (BytesStream.mk ⟨10, true⟩ 0).trace
    [.read 100, .resize 4, .read 100], p.1.Right p.2 := by
  intro h
  have hright := h (⟨⟨4, true⟩, 10⟩, .read 100)
    (List.mem_cons_of_mem _ (List.mem_cons_of_mem _ List.mem_cons_self))
  have hserves : 10 + 100 ≤ 4 := hright.1 (.readaddr 10 100) List.mem_cons_self
  omega

end BytesStream

end SupOS.Streams
