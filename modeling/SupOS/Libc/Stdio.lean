import SupOS.Fault
import SupOS.Lib.Outcome
import Mathlib.Algebra.Ring.Int.Defs

/-! The output functions of `libc/src/stdio.c`: `fputc`, `fputs` and `vfprintf` with its helpers. -/

namespace SupOS.Libc

open Lib

/-- The bytes that a file has been given so far, and the number of calls of `write` for them. -/
structure Out where
  written : List Int8
  calls : Nat

abbrev Stdio := StateT Out (Except Fault)

/-- What a file does at each call of `write`: it fails, or takes no more than so many bytes besides the
first one. -/
abbrev File := Nat → Option Nat

def EOF : Int := -1

/-- A value that is converted to an `int`. -/
def toInt (n : Int) : Int := n.bmod (2 ^ 32)

/-- A value that is converted to a `uint`. -/
def toUInt (n : Int) : Nat := (n % 2 ^ 32).toNat

/-- The quotient and the remainder, as the processor finds them. -/
def divide (a b : Nat) : Except Fault (Nat × Nat) :=
  if b = 0 then .error .divideError else .ok (a / b, a % b)

variable (file : File)

def write (buf : List Int8) : Stdio Int := fun o =>
  match file o.calls with
  | none => .ok (-1, ⟨o.written, o.calls + 1⟩)
  | some more =>
    let res := min (more + 1) buf.length
    .ok (res, ⟨o.written ++ buf.take res, o.calls + 1⟩)

/-- `fputc` writes the first byte of an `int` in memory, its lowest one. -/
def fputc (character : Int) : Stdio Int := do
  let res ← write file [Int8.ofInt character]
  if res = 0 ∨ res = -1 then return EOF else return character

/-- The loop of `fputs`, whose `num` does not exceed the fuel. -/
def fputsFrom : Nat → Int → List Int8 → Stdio Int
  | 0, num, _ => return num
  | fuel + 1, num, str =>
    if num > 0 then do
      let res ← write file (str.take num.toNat)
      if res = 0 ∨ res = -1 then return EOF
      else fputsFrom fuel (toInt (num - res)) (str.drop res.toNat)
    else return num

def fputs (str : List Int8) : Stdio Int := fputsFrom file str.length (toInt str.length) str

def printDigit (d : Int) : Stdio Int :=
  if d ≤ 9 then fputc file (48 + d) else fputc file (97 + (d - 10))

/-! ### `printUInt` -/

/-- The first loop: the power of the base for the first digit, and the padding without the other
ones. -/
def scale (n base : Nat) : Nat → Nat → Nat → Except Fault (Nat × Nat)
  | 0, _, _ => .error .diverges
  | fuel + 1, i, padding => do
    let (q, _) ← divide n i
    if q ≥ base then scale n base fuel (u64 (i * base)) (padding - 1) else return (i, padding)

/-- Zeros for a number of rounds. The loops return the new `nb`, or nothing where a character fails. -/
def putZeros : Nat → Nat → Stdio (Option Nat)
  | 0, nb => return some nb
  | rounds + 1, nb => do
    let res ← fputc file 48
    if res = EOF then return none else putZeros rounds (u32 (nb + 1))

/-- The loop that takes the first digit from what is left of the number. -/
def putDigits (base : Nat) : Nat → Nat → Nat → Nat → Stdio (Option (Nat × Nat))
  | 0, _, _, _ => throw .diverges
  | fuel + 1, n, i, nb =>
    if n > 0 then do
      let (d, r) ← divide n i
      let res ← printDigit file (toInt d)
      if res = EOF then return none
      else
        let (i, _) ← divide i base
        putDigits base fuel r i (u32 (nb + 1))
    else return some (i, nb)

/-- The last loop. -/
def putTail (base : Nat) : Nat → Nat → Nat → Stdio (Option Nat)
  | 0, _, _ => throw .diverges
  | fuel + 1, i, nb =>
    if i ≥ 1 then do
      let res ← fputc file 48
      if res = EOF then return none
      else
        let (i, _) ← divide i base
        putTail base fuel i (u32 (nb + 1))
    else return some nb

/-- No loop takes more rounds than a number has digits. -/
def printUInt (n base padding : Nat) : Stdio Int := do
  let (i, padding) ← scale n base 65 1 padding
  match ← putZeros file (padding - 1) 0 with
  | none => return EOF
  | some nb =>
    match ← putDigits file base 65 n i nb with
    | none => return EOF
    | some (i, nb) =>
      match ← putTail file base 65 i nb with
      | none => return EOF
      | some nb => return toInt nb

/-- The negation of the least number is that number, which is then taken for an unsigned one. -/
def printInt (n : Int64) (base padding : Nat) : Stdio Int :=
  if n < 0 then do
    let _ ← fputc file 45
    let res ← printUInt file (-n).toUInt64.toNat base padding
    if res = EOF then return EOF else return toInt (res + 1)
  else do
    let res ← printUInt file n.toUInt64.toNat base padding
    if res = EOF then return EOF else return res

/-! ### `vfprintf` -/

inductive Arg
  | int (v : Int32)
  | long (v : Int64)
  | str (s : List Int8)

/-- `va_arg(ap, int)`. -/
def vaInt : List Arg → Option (Int32 × List Arg)
  | .int v :: ap => some (v, ap)
  | _ => none

/-- `va_arg` for `long int`, `long long int` and their unsigned types. -/
def vaLong : List Arg → Option (Int64 × List Arg)
  | .long v :: ap => some (v, ap)
  | _ => none

/-- `va_arg(ap, char*)`. -/
def vaString : List Arg → Option (List Int8 × List Arg)
  | .str s :: ap => some (s, ap)
  | _ => none

/-- `SWITCHSIZE(int,long int, lint)`. -/
def vaSigned (length : Nat) (ap : List Arg) : Option (Int64 × List Arg) :=
  if length = 0 then (vaInt ap).map fun r => (r.1.toInt64, r.2) else vaLong ap

/-- `SWITCHSIZE(uint,unsigned long int, ulint)`. -/
def vaUnsigned (length : Nat) (ap : List Arg) : Option (Nat × List Arg) :=
  if length = 0 then (vaInt ap).map fun r => (r.1.toUInt32.toNat, r.2)
  else (vaLong ap).map fun r => (r.1.toUInt64.toNat, r.2)

/-- An argument that is of the type that it is read with. -/
def arg {α : Type} (r : Option (α × List Arg)) : Stdio (α × List Arg) :=
  match r with
  | some r => return r
  | none => throw .outOfRange

/-- The digits of the padding. -/
def scanPadding : Int → List Int8 → Int × List Int8
  | padding, [] => (padding, [])
  | padding, c :: s =>
    if c ≥ 48 ∧ c ≤ 57 then scanPadding (toInt (10 * padding + (c.toInt - 48))) s else (padding, c :: s)

/-- The letters `l`, of which there may be two. -/
def scanLength (s : List Int8) : Nat × List Int8 :=
  if s.head? = some 108 then
    if s.tail.head? = some 108 then (2, s.tail.tail) else (1, s.tail)
  else (0, s)

/-- What a conversion adds to the count, or `EOF`, and the arguments that are left. Other letters are no
conversion. -/
def convert (c : Int8) (length : Nat) (padding : Int) (ap : List Arg) : Option (Stdio (Int × List Arg)) :=
  if c = 37 then some do
    let res ← fputc file 37
    return (if res = EOF then EOF else 1, ap)
  else if c = 117 then some do
    let (val, ap) ← arg (vaUnsigned length ap)
    return (← printUInt file val 10 (toUInt padding), ap)
  else if c = 100 then some do
    let (val, ap) ← arg (vaSigned length ap)
    return (← printInt file val 10 (toUInt padding), ap)
  else if c = 120 then some do
    let (val, ap) ← arg (vaUnsigned length ap)
    return (← printUInt file val 16 (toUInt padding), ap)
  else if c = 112 then some do
    let (val, ap) ← arg (vaLong ap)
    return (← printUInt file val.toUInt64.toNat 16 (toUInt padding), ap)
  else if c = 115 then some do
    let (s, ap) ← arg (vaString ap)
    return (← fputs file s, ap)
  else if c = 99 then some do
    let (v, ap) ← arg (vaInt ap)
    let res ← fputc file v.toInt8.toInt
    return (if res = EOF then EOF else 1, ap)
  else none

/-- The loop of `vfprintf`; each round takes a character of the format at least. -/
def vfprintfFrom : Nat → List Int8 → List Arg → Int → Stdio Int
  | 0, _, _, _ => throw .diverges
  | _ + 1, [], _, nb => return nb
  | fuel + 1, c :: s, ap, nb =>
    if c ≠ 37 then do
      let res ← fputc file c.toInt
      if res = EOF then return EOF else vfprintfFrom fuel s ap (toInt (nb + 1))
    else
      let (padding, s) := scanPadding 0 s
      let (length, s) := scanLength s
      match s with
      | [] => vfprintfFrom fuel [] ap nb
      | c :: s =>
        match convert file c length padding ap with
        | none => vfprintfFrom fuel (c :: s) ap nb
        | some conversion => do
          let (res, ap) ← conversion
          if res = EOF then return EOF else vfprintfFrom fuel s ap (toInt (nb + res))

def vfprintf (s : List Int8) (ap : List Arg) : Stdio Int := vfprintfFrom file (s.length + 1) s ap 0

end SupOS.Libc
