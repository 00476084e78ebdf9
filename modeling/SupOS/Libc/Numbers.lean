import SupOS.Libc.Stdio
import SupOS.Lib.Digits

/-! The bytes that `fputs` and the functions for numbers write and the values that they return, when no
write fails. -/

namespace SupOS.Libc

open Lib

variable {α β : Type} {file : File} {x : Stdio α} {f : α → Stdio β} {a a' : α} {b : β} {bs cs : List Int8}

/-- The function writes these bytes, however many a write takes, and returns this. -/
def Writes (x : Stdio α) (bs : List Int8) (a : α) : Prop :=
  ∀ o, ∃ calls, x o = .ok (a, ⟨o.written ++ bs, calls⟩)

namespace Writes

theorem pure (a : α) : Writes (Pure.pure a) [] a :=
  fun o => ⟨o.calls, by rw [List.append_nil]; rfl⟩

theorem bind (h : Writes x bs a) (h' : Writes (f a) cs b) : Writes (x >>= f) (bs ++ cs) b := by
  intro o
  obtain ⟨calls, hx⟩ := h o
  obtain ⟨calls', hf⟩ := h' ⟨o.written ++ bs, calls⟩
  refine ⟨calls', ?_⟩
  show (x o >>= fun r => f r.1 r.2) = _
  rw [hx, ok_bind, hf, List.append_assoc]

/-- A computation that writes nothing. -/
theorem lift {y : Except Fault α} (hy : y = .ok a) (h : Writes (f a) cs b) :
    Writes ((liftM y : Stdio α) >>= f) cs b := by
  subst hy
  exact h

/-- What comes last writes nothing. -/
theorem bind_pure (h : Writes x bs a) (h' : f a = Pure.pure b) : Writes (x >>= f) bs b := by
  have hpure : Writes (f a) [] b := h' ▸ Writes.pure b
  have hbind := h.bind hpure
  rwa [List.append_nil] at hbind

theorem unique (h : Writes x bs a) (h' : Writes x cs a') : a = a' ∧ bs = cs := by
  obtain ⟨calls, hx⟩ := h ⟨[], 0⟩
  obtain ⟨calls', hx'⟩ := h' ⟨[], 0⟩
  have hpair := Except.ok.inj (hx.symm.trans hx')
  exact ⟨congrArg Prod.fst hpair, congrArg (fun r => r.2.written) hpair⟩

end Writes

/-- No call of `write` fails. -/
def NoFailure (file : File) : Prop := ∀ call, file call ≠ none

/-! ### Characters and strings -/

theorem toInt_of_bounds {n : Int} (h : -2 ^ 31 ≤ n) (h' : n < 2 ^ 31) : toInt n = n :=
  Int.bmod_eq_of_le_mul_two (by omega) (by omega)

theorem toInt_lt (n : Int) : toInt n < 2 ^ 31 := Int.bmod_lt (by decide)

section Output

variable (hfile : NoFailure file)

include hfile

/-- A write takes a character at least. -/
theorem write_eq {buf : List Int8} (hbuf : buf ≠ []) (o : Out) : ∃ k, 1 ≤ k ∧ k ≤ buf.length ∧
    write file buf o = .ok ((k : Int), ⟨o.written ++ buf.take k, o.calls + 1⟩) := by
  obtain ⟨more, hmore⟩ := Option.ne_none_iff_exists'.mp (hfile o.calls)
  have hpos := List.length_pos_iff.mpr hbuf
  refine ⟨min (more + 1) buf.length, by omega, by omega, ?_⟩
  rw [write, hmore]

theorem fputc_writes (character : Int) :
    Writes (fputc file character) [Int8.ofInt character] character := by
  intro o
  obtain ⟨k, hk, hle, hwrite⟩ := write_eq hfile (List.cons_ne_nil (Int8.ofInt character) []) o
  obtain rfl : k = 1 := Nat.le_antisymm hle hk
  refine ⟨o.calls + 1, ?_⟩
  show (write file [Int8.ofInt character] o >>= _) = _
  rw [hwrite]
  rfl

theorem fputsFrom_writes {fuel : Nat} {str : List Int8} (hfuel : str.length ≤ fuel)
    (hlen : str.length < 2 ^ 31) : Writes (fputsFrom file fuel str.length str) str 0 := by
  induction fuel generalizing str with
  | zero =>
    obtain rfl := List.length_eq_zero_iff.mp (Nat.le_zero.mp hfuel)
    exact .pure 0
  | succ fuel ih =>
    unfold fputsFrom
    cases hempty : str with
    | nil => exact .pure 0
    | cons c rest =>
      rw [← hempty]
      have hne : str ≠ [] := hempty ▸ List.cons_ne_nil c rest
      have hpos := List.length_pos_iff.mpr hne
      rw [if_pos (by omega), Int.toNat_natCast, List.take_length]
      intro o
      obtain ⟨k, hk, hle, hwrite⟩ := write_eq hfile hne o
      have hnum : toInt ((str.length : Int) - k) = ((str.drop k).length : Int) := by
        rw [toInt_of_bounds (by omega) (by omega), List.length_drop]
        omega
      have hless : (str.drop k).length ≤ fuel := by
        rw [List.length_drop]
        omega
      obtain ⟨calls, hrest⟩ := ih hless (by rw [List.length_drop]; omega)
        ⟨o.written ++ str.take k, o.calls + 1⟩
      refine ⟨calls, ?_⟩
      show (write file str o >>= _) = _
      rw [hwrite, ok_bind]
      dsimp only
      rw [if_neg (by omega), hnum, Int.toNat_natCast, hrest, List.append_assoc, List.take_append_drop]

/-- `fputs` returns what is left of the length, not the length. -/
theorem fputs_writes {str : List Int8} (hlen : str.length < 2 ^ 31) : Writes (fputs file str) str 0 := by
  rw [fputs, toInt_of_bounds (by omega) (by omega)]
  exact fputsFrom_writes hfile (Nat.le_refl _) hlen

/-! ### The digits of a number -/

omit hfile

def digitChar (d : Nat) : Int8 := Int8.ofInt (if d ≤ 9 then 48 + d else 97 + (d - 10))

/-- A number in a base, without superfluous zeros. -/
def numeral (base n : Nat) : List Int8 :=
  (if n = 0 then [0] else (Nat.digits base n).reverse).map digitChar

/-- A number with as many zeros before it as the padding asks for. -/
def number (base padding n : Nat) : List Int8 :=
  List.replicate (padding - (numeral base n).length) 48 ++ numeral base n

variable {base n k fuel nb padding : Nat}

theorem numeral_eq (hbase : 1 < base) (n : Nat) :
    numeral base n = (Digits.highFirst base (Nat.log base n + 1) n).map digitChar := by
  unfold numeral
  by_cases hn : n = 0
  · subst hn
    rw [if_pos rfl, Nat.log_zero_right, Digits.highFirst_zero]
    rfl
  · rw [if_neg hn, Digits.highFirst_log hbase hn]

theorem length_numeral (hbase : 1 < base) (n : Nat) : (numeral base n).length = Nat.log base n + 1 := by
  rw [numeral_eq hbase, List.length_map, Digits.length_highFirst]

theorem length_number (base padding n : Nat) :
    (number base padding n).length = max padding (numeral base n).length := by
  rw [number, List.length_append, List.length_replicate]
  omega

theorem divide_eq {a b : Nat} (hb : b ≠ 0) : divide a b = .ok (a / b, a % b) := if_neg hb

/-- A number of 64 bits has no more than 64 digits. -/
theorem log_lt (hbase : 1 < base) (hn : n < 2 ^ 64) : Nat.log base n < 64 := by
  by_cases h0 : n = 0
  · rw [h0, Nat.log_zero_right]
    decide
  · exact Nat.log_lt_of_lt_pow h0 (Nat.lt_of_lt_of_le hn (Nat.pow_le_pow_left hbase 64))

theorem pow_succ_le (hbase : 1 < base) (hk : k < Nat.log base n) : base ^ (k + 1) ≤ n := by
  refine Nat.pow_le_of_le_log ?_ hk
  rintro rfl
  rw [Nat.log_zero_right] at hk
  exact Nat.not_lt_zero _ hk

/-- The first loop goes on before the power of the first digit. -/
theorem le_div_pow_iff (hbase : 1 < base) (n k : Nat) : base ≤ n / base ^ k ↔ k < Nat.log base n := by
  rw [Nat.le_div_iff_mul_le (Nat.pow_pos (Nat.zero_lt_of_lt hbase)), ← Nat.pow_succ']
  exact ⟨Nat.le_log_of_pow_le hbase, pow_succ_le hbase⟩

/-- The first loop ends at the power of the first digit, and the power never overflows. -/
theorem scale_eq (hbase : 1 < base) (hn : n < 2 ^ 64) (hk : k ≤ Nat.log base n)
    (hfuel : Nat.log base n - k < fuel) : scale n base fuel (base ^ k) padding =
      .ok (base ^ Nat.log base n, padding - (Nat.log base n - k)) := by
  induction fuel generalizing k padding with
  | zero => exact absurd hfuel (Nat.not_lt_zero _)
  | succ fuel ih =>
    have hpow : base ^ k ≠ 0 := (Nat.pow_pos (Nat.zero_lt_of_lt hbase)).ne'
    unfold scale
    rw [divide_eq hpow, ok_bind]
    dsimp only
    rcases Nat.lt_or_eq_of_le hk with hlt | rfl
    · have hround := (le_div_pow_iff hbase n k).mpr hlt
      rw [if_pos hround, u64, ← Nat.pow_succ, Nat.mod_eq_of_lt (Nat.lt_of_le_of_lt (pow_succ_le hbase hlt) hn),
        ih hlt (by omega)]
      congr 2
      omega
    · have hlast : ¬n / base ^ Nat.log base n ≥ base := fun h =>
        Nat.lt_irrefl _ ((le_div_pow_iff hbase n _).mp h)
      rw [if_neg hlast, Nat.sub_self, Nat.sub_zero]
      rfl

/-- The products that the first loop computes, before they are taken modulo `2 ^ 64`. -/
def products (n base : Nat) : Nat → Nat → List Nat
  | 0, _ => []
  | fuel + 1, i => if n / i ≥ base then i * base :: products n base fuel (u64 (i * base)) else []

theorem products_lt (hbase : 1 < base) (hn : n < 2 ^ 64) {p : Nat}
    (hp : p ∈ products n base fuel (base ^ k)) : p < 2 ^ 64 := by
  induction fuel generalizing k with
  | zero => cases hp
  | succ fuel ih =>
    unfold products at hp
    split at hp
    · rename_i hround
      have hlt := Nat.lt_of_le_of_lt (pow_succ_le hbase ((le_div_pow_iff hbase n k).mp hround)) hn
      rw [← Nat.pow_succ, u64, Nat.mod_eq_of_lt hlt] at hp
      rcases List.mem_cons.mp hp with rfl | hp
      · exact hlt
      · exact ih hp
    · cases hp

/-- The power of the first digit when `k` digits are left. -/
def power (base k : Nat) : Nat := base ^ k / base

theorem power_succ (hbase : 1 < base) (k : Nat) : power base (k + 1) = base ^ k :=
  Nat.mul_div_cancel _ (Nat.zero_lt_of_lt hbase)

theorem power_zero (hbase : 1 < base) : power base 0 = 0 := Nat.div_eq_of_lt hbase

include hfile

theorem printDigit_writes {d : Nat} (hd : d < 2 ^ 31) :
    ∃ r, r ≠ EOF ∧ Writes (printDigit file (toInt d)) [digitChar d] r := by
  rw [toInt_of_bounds (by omega) (by omega)]
  unfold printDigit digitChar
  by_cases h : d ≤ 9
  · rw [if_pos h, if_pos (by omega)]
    exact ⟨_, by rw [EOF]; omega, fputc_writes hfile _⟩
  · rw [if_neg h, if_neg (by omega)]
    exact ⟨_, by rw [EOF]; omega, fputc_writes hfile _⟩

theorem putZeros_writes {rounds : Nat} (hnb : nb + rounds < 2 ^ 32) :
    Writes (putZeros file rounds nb) (List.replicate rounds 48) (some (nb + rounds)) := by
  induction rounds generalizing nb with
  | zero => exact .pure _
  | succ rounds ih =>
    unfold putZeros
    rw [List.replicate_succ]
    refine (fputc_writes hfile 48).bind ?_
    rw [if_neg (by decide), u32_of_lt (by omega), Nat.add_comm rounds, ← Nat.add_assoc]
    exact ih (by omega)

theorem putDigits_writes (hbase : 1 < base) (hsmall : base < 2 ^ 31) (hn : n < base ^ k) (hfuel : k < fuel)
    (hnb : nb + k < 2 ^ 32) : ∃ bs j, Writes (putDigits file base fuel n (power base k) nb) bs
      (some (power base j, nb + bs.length)) ∧
    bs ++ List.replicate j 48 = (Digits.highFirst base k n).map digitChar := by
  have hpos : 0 < base := Nat.zero_lt_of_lt hbase
  induction k generalizing n nb fuel with
  | zero =>
    obtain ⟨fuel, rfl⟩ := Nat.exists_eq_succ_of_ne_zero (Nat.ne_zero_of_lt hfuel)
    refine ⟨[], 0, ?_, rfl⟩
    rw [Nat.pow_zero, Nat.lt_one_iff] at hn
    unfold putDigits
    rw [hn, if_neg (Nat.lt_irrefl 0)]
    exact .pure _
  | succ k ih =>
    obtain ⟨fuel, rfl⟩ := Nat.exists_eq_succ_of_ne_zero (Nat.ne_zero_of_lt hfuel)
    have hpow : base ^ k ≠ 0 := (Nat.pow_pos hpos).ne'
    unfold putDigits
    by_cases h0 : n = 0
    · -- the zeros that are left are those of the last loop
      subst h0
      rw [if_neg (Nat.lt_irrefl 0)]
      refine ⟨[], k + 1, .pure _, ?_⟩
      rw [Digits.highFirst_zero, List.map_replicate]
      rfl
    · rw [if_pos (Nat.pos_of_ne_zero h0), power_succ hbase]
      have hdigit : n / base ^ k < 2 ^ 31 :=
        (Nat.div_lt_of_lt_mul (by rwa [← Nat.pow_succ])).trans hsmall
      obtain ⟨r, hr, hdig⟩ := printDigit_writes hfile hdigit
      have hlow : n % base ^ k < base ^ k := Nat.mod_lt _ (Nat.pos_of_ne_zero hpow)
      have hcount : nb + 1 + k < 2 ^ 32 := by omega
      obtain ⟨bs, j, hrest, hbs⟩ := ih hlow (Nat.lt_of_succ_lt_succ hfuel) hcount
      refine ⟨digitChar (n / base ^ k) :: bs, j, ?_, ?_⟩
      · refine Writes.lift (divide_eq hpow) ?_
        refine hdig.bind (?_ : Writes _ bs _)
        rw [if_neg hr]
        refine Writes.lift (divide_eq hpos.ne') ?_
        dsimp only
        rw [u32_of_lt (by omega)]
        rwa [List.length_cons, Nat.add_comm bs.length, ← Nat.add_assoc]
      · rw [Digits.highFirst_succ, List.map_cons, List.cons_append, hbs]

theorem putTail_writes (hbase : 1 < base) (hfuel : k < fuel) (hnb : nb + k < 2 ^ 32) :
    Writes (putTail file base fuel (power base k) nb) (List.replicate k 48) (some (nb + k)) := by
  have hpos : 0 < base := Nat.zero_lt_of_lt hbase
  induction k generalizing nb fuel with
  | zero =>
    obtain ⟨fuel, rfl⟩ := Nat.exists_eq_succ_of_ne_zero (Nat.ne_zero_of_lt hfuel)
    unfold putTail
    rw [power_zero hbase, if_neg (by decide)]
    exact .pure _
  | succ k ih =>
    obtain ⟨fuel, rfl⟩ := Nat.exists_eq_succ_of_ne_zero (Nat.ne_zero_of_lt hfuel)
    unfold putTail
    rw [power_succ hbase, if_pos (show base ^ k ≥ 1 from Nat.pow_pos hpos), List.replicate_succ]
    refine (fputc_writes hfile 48).bind ?_
    rw [if_neg (by decide)]
    refine Writes.lift (divide_eq hpos.ne') ?_
    dsimp only
    rw [u32_of_lt (by omega), Nat.add_comm k, ← Nat.add_assoc]
    exact ih (by omega) (by omega)

/-- `printUInt` writes the padded number, and returns the count of its characters as an `int`. -/
theorem printUInt_writes (hbase : 1 < base) (hsmall : base < 2 ^ 31) (hn : n < 2 ^ 64)
    (hpadding : padding < 2 ^ 32) : Writes (printUInt file n base padding) (number base padding n)
      (toInt (number base padding n).length) := by
  have hlog := log_lt hbase hn
  have hlen := length_numeral hbase n
  have hzeros : padding - Nat.log base n - 1 = padding - (numeral base n).length := by
    rw [hlen]
    omega
  have hfuel : Nat.log base n + 1 < 65 := by omega
  have hcount : padding - Nat.log base n - 1 + (Nat.log base n + 1) < 2 ^ 32 := by omega
  obtain ⟨bs, j, hdigits, hbs⟩ :=
    putDigits_writes hfile hbase hsmall (Nat.lt_pow_succ_log_self hbase n) hfuel hcount
  rw [power_succ hbase] at hdigits
  rw [← numeral_eq hbase] at hbs
  have hj : bs.length + j = (numeral base n).length := by
    rw [← hbs, List.length_append, List.length_replicate]
  unfold printUInt
  refine Writes.lift (scale_eq (k := 0) hbase hn (Nat.zero_le _) (by omega)) ?_
  dsimp only
  rw [number, ← hzeros, ← hbs]
  have hfirst : 0 + (padding - Nat.log base n - 1) < 2 ^ 32 := by omega
  refine (putZeros_writes hfile hfirst).bind ?_
  rw [Nat.zero_add]
  refine hdigits.bind ?_
  refine (putTail_writes hfile hbase (by omega) (by omega)).bind_pure ?_
  dsimp only
  rw [List.length_append, List.length_append, List.length_replicate, List.length_replicate, Nat.add_assoc]

/-- A count that is an `int` is not changed. -/
theorem printUInt_count (hbase : 1 < base) (hsmall : base < 2 ^ 31) (hn : n < 2 ^ 64)
    (hlen : (number base padding n).length < 2 ^ 31) :
    Writes (printUInt file n base padding) (number base padding n) (number base padding n).length := by
  have hpadding : padding ≤ (number base padding n).length := by
    rw [length_number]
    exact Nat.le_max_left _ _
  have hlt : padding < 2 ^ 32 := by omega
  have hprint := printUInt_writes hfile hbase hsmall hn hlt
  rwa [toInt_of_bounds (by omega) (by omega)] at hprint

/-- A number in a base up to 16 is written with its padding, every loop ends, and no power of the base
overflows; the number of characters is returned exactly if the padding is an `int`. -/
theorem printUInt_right_iff (hbase : 2 ≤ base) (hle : base ≤ 16) (hn : n < 2 ^ 64) (hpadding : padding < 2 ^ 32) :
    (∃ r, Writes (printUInt file n base padding) (number base padding n) r) ∧
    (∀ p ∈ products n base 65 1, p < 2 ^ 64) ∧
    (Writes (printUInt file n base padding) (number base padding n) (number base padding n).length ↔
      padding < 2 ^ 31) := by
  have hsmall : base < 2 ^ 31 := by omega
  have hwrites := printUInt_writes hfile hbase hsmall hn hpadding
  have hlen := length_number base padding n
  have hlog := log_lt hbase hn
  have hnumeral := length_numeral hbase n
  refine ⟨⟨_, hwrites⟩, fun p hp => products_lt (k := 0) hbase hn hp, fun h => ?_, fun h => ?_⟩
  · have hret := (h.unique hwrites).1
    have hlt := toInt_lt (number base padding n).length
    omega
  · exact printUInt_count hfile hbase hsmall hn (by omega)

omit hfile

/-- The greatest number in binary, with one zero before it. -/
theorem printUInt_right_iff_greatest :
    (∃ r, Writes (printUInt (fun _ => some 0) (2 ^ 64 - 1) 2 65) (number 2 65 (2 ^ 64 - 1)) r) ∧
    (∀ p ∈ products (2 ^ 64 - 1) 2 65 1, p < 2 ^ 64) ∧
    (Writes (printUInt (fun _ => some 0) (2 ^ 64 - 1) 2 65) (number 2 65 (2 ^ 64 - 1))
      (number 2 65 (2 ^ 64 - 1)).length ↔ 65 < 2 ^ 31) :=
  printUInt_right_iff (fun _ h => by cases h) (by decide) (by decide) (by decide) (by decide)

/-- A zero with a padding of `2 ^ 31` characters: their number is no `int`. -/
theorem padding_not_counted :
    Writes (printUInt (fun _ => some 0) 0 10 (2 ^ 31)) (number 10 (2 ^ 31) 0) (-2 ^ 31) ∧
    ¬Writes (printUInt (fun _ => some 0) 0 10 (2 ^ 31)) (number 10 (2 ^ 31) 0)
      (number 10 (2 ^ 31) 0).length := by
  have hfile : NoFailure fun _ => some 0 := fun _ h => by cases h
  have hlen : (number 10 (2 ^ 31) 0).length = 2 ^ 31 := length_number 10 (2 ^ 31) 0
  have hwrites : Writes (printUInt (fun _ => some 0) 0 10 (2 ^ 31)) (number 10 (2 ^ 31) 0)
      (toInt (number 10 (2 ^ 31) 0).length) :=
    printUInt_writes hfile (by decide) (by decide) (by decide) (by decide)
  rw [hlen] at hwrites ⊢
  exact ⟨hwrites, fun h => absurd (h.unique hwrites).1 (by decide)⟩

/-! ### Signed numbers -/

/-- The sign stands before the padding. -/
def signedNumber (base padding : Nat) (n : Int) : List Int8 :=
  if n < 0 then 45 :: number base padding n.natAbs else number base padding n.natAbs

/-- The absolute value, also of the least number. -/
theorem toNat_neg {n : Int64} (h : n < 0) : (-n).toUInt64.toNat = n.toInt.natAbs := by
  have hneg : n.toInt < 0 := Int64.lt_iff_toInt_lt.mp h
  have hint : n.toInt = n.toBitVec.toInt := rfl
  show (-n.toBitVec).toNat = _
  rw [BitVec.toNat_neg]
  rw [hint, BitVec.toInt_eq_toNat_cond] at hneg ⊢
  have hlt := n.toBitVec.isLt
  split at hneg <;> omega

theorem toNat_nonneg {n : Int64} (h : ¬n < 0) : n.toUInt64.toNat = n.toInt.natAbs := by
  have hneg : ¬n.toInt < 0 := fun hlt => h (Int64.lt_iff_toInt_lt.mpr hlt)
  have hint : n.toInt = n.toBitVec.toInt := rfl
  show n.toBitVec.toNat = _
  rw [hint, BitVec.toInt_eq_toNat_cond] at hneg ⊢
  have hlt := n.toBitVec.isLt
  split at hneg <;> omega

include hfile

theorem printInt_writes (hbase : 1 < base) (hsmall : base < 2 ^ 31) (n : Int64)
    (hlen : (signedNumber base padding n.toInt).length < 2 ^ 31) :
    Writes (printInt file n base padding) (signedNumber base padding n.toInt)
      (signedNumber base padding n.toInt).length := by
  have habs : n.toInt.natAbs < 2 ^ 64 := by
    have hle := n.le_toInt
    have hlt := n.toInt_lt
    omega
  unfold printInt
  unfold signedNumber at hlen ⊢
  by_cases h : n < 0
  · have hneg : n.toInt < 0 := Int64.lt_iff_toInt_lt.mp h
    rw [if_pos hneg] at hlen ⊢
    rw [List.length_cons] at hlen
    rw [if_pos h, toNat_neg h]
    refine (fputc_writes hfile 45).bind ((printUInt_count hfile hbase hsmall habs (by omega)).bind_pure ?_)
    rw [if_neg (by rw [EOF]; omega), toInt_of_bounds (by omega) (by omega), List.length_cons]
    rfl
  · have hneg : ¬n.toInt < 0 := fun hlt => h (Int64.lt_iff_toInt_lt.mpr hlt)
    rw [if_neg hneg] at hlen ⊢
    rw [if_neg h, toNat_nonneg h]
    refine (printUInt_count hfile hbase hsmall habs hlen).bind_pure ?_
    rw [if_neg (by rw [EOF]; omega)]

end Output

end SupOS.Libc
