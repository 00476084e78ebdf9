import SupOS.Libc.Numbers

/-! Format strings as texts and conversions: how they are written, what they stand for, and how
`vfprintf` reads them. -/

namespace SupOS.Libc

open Lib

/-- The letters of the conversions. -/
inductive Kind
  | percent
  | unsigned
  | decimal
  | hex
  | pointer
  | string
  | char
  deriving DecidableEq, Repr

def Kind.letter : Kind → Int8
  | .percent => 37
  | .unsigned => 117
  | .decimal => 100
  | .hex => 120
  | .pointer => 112
  | .string => 115
  | .char => 99

/-- A character of the text, a conversion with the digits of its padding and the number of its `l`, or a
percent sign with no letter of a conversion behind these. -/
inductive Piece
  | text (c : Int8)
  | conversion (padding : List Int8) (length : Nat) (kind : Kind)
  | stray (padding : List Int8) (length : Nat)
  deriving DecidableEq, Repr

/-- A percent sign with what it may have before the letter. -/
def flags (padding : List Int8) (length : Nat) : List Int8 :=
  37 :: (padding ++ List.replicate length 108)

def render : List Piece → List Int8
  | [] => []
  | .text c :: ps => c :: render ps
  | .conversion padding length kind :: ps => flags padding length ++ kind.letter :: render ps
  | .stray padding length :: ps => flags padding length ++ render ps

def IsDigit (c : Int8) : Prop := c ≥ 48 ∧ c ≤ 57

instance (c : Int8) : Decidable (IsDigit c) := inferInstanceAs (Decidable (_ ∧ _))

/-- Digits and one or two `l` at most. -/
structure Flags (padding : List Int8) (length : Nat) : Prop where
  digits : ∀ c ∈ padding, IsDigit c
  length_le : length ≤ 2

/-- A character that goes on neither with the flags nor with a letter. -/
structure Ends (length : Nat) (c : Int8) : Prop where
  letter : ∀ kind : Kind, c ≠ kind.letter
  digit : length = 0 → ¬IsDigit c
  long : length < 2 → c ≠ 108

/-- The pieces are those of a C string, each as long as it can be. -/
def Valid : List Piece → Prop
  | [] => True
  | .text c :: ps => (c ≠ 37 ∧ c ≠ 0) ∧ Valid ps
  | .conversion padding length _ :: ps => Flags padding length ∧ Valid ps
  | .stray padding length :: ps => (Flags padding length ∧ ∀ c ∈ (render ps).head?, Ends length c) ∧ Valid ps

/-- The number that the digits of a padding write. -/
def value (padding : List Int8) : Nat := padding.foldl (fun n c => 10 * n + (c.toInt - 48).toNat) 0

/-- What a conversion stands for, and the arguments after its own; nothing where they do not match. -/
def Kind.expand (padding length : Nat) (ap : List Arg) : Kind → Option (List Int8 × List Arg)
  | .percent => some ([37], ap)
  | .unsigned => (vaUnsigned length ap).map fun r => (number 10 padding r.1, r.2)
  | .decimal => (vaSigned length ap).map fun r => (signedNumber 10 padding r.1.toInt, r.2)
  | .hex => (vaUnsigned length ap).map fun r => (number 16 padding r.1, r.2)
  | .pointer => (vaLong ap).map fun r => (number 16 padding r.1.toUInt64.toNat, r.2)
  | .string => vaString ap
  | .char => (vaInt ap).map fun r => ([r.1.toInt8], r.2)

/-- The format with each conversion replaced by what it stands for. -/
def expansion : List Piece → List Arg → Option (List Int8)
  | [], _ => some []
  | .text c :: ps, ap => (expansion ps ap).map (c :: ·)
  | .conversion padding length kind :: ps, ap =>
    (kind.expand (value padding) length ap).bind fun r => (expansion ps r.2).map (r.1 ++ ·)
  | .stray _ _ :: ps, ap => expansion ps ap

/-- The characters that stand for themselves: those of the text and the arguments of `%c`. -/
def characters : List Piece → List Arg → List Int8
  | [], _ => []
  | .text c :: ps, ap => c :: characters ps ap
  | .conversion padding length kind :: ps, ap =>
    match kind.expand (value padding) length ap with
    | some (bs, ap) => (if kind = .char then bs else []) ++ characters ps ap
    | none => []
  | .stray _ _ :: ps, ap => characters ps ap

/-- The arguments of `%s`, one after another. -/
def strings : List Piece → List Arg → List Int8
  | [], _ => []
  | .text _ :: ps, ap => strings ps ap
  | .conversion padding length kind :: ps, ap =>
    match kind.expand (value padding) length ap with
    | some (bs, ap) => (if kind = .string then bs else []) ++ strings ps ap
    | none => []
  | .stray _ _ :: ps, ap => strings ps ap

/-! ### How `vfprintf` reads a format -/

section Scan

variable {padding rest : List Int8} {length : Nat}

theorem scanPadding_append (hpadding : ∀ c ∈ padding, IsDigit c) (hrest : ∀ c ∈ rest.head?, ¬IsDigit c)
    (n : Nat) : scanPadding (toInt n) (padding ++ rest) =
      (toInt (padding.foldl (fun n c => 10 * n + (c.toInt - 48).toNat) n : Nat), rest) := by
  induction padding generalizing n with
  | nil =>
    cases rest with
    | nil => rfl
    | cons c rest => exact if_neg (hrest c rfl)
  | cons c padding ih =>
    have hdigit := hpadding c (List.mem_cons_self ..)
    have hc : 48 ≤ c.toInt := Int8.le_iff_toInt_le.mp hdigit.1
    have hnext : toInt (10 * toInt n + (c.toInt - 48)) = toInt (10 * n + (c.toInt - 48).toNat : Nat) := by
      have hint : 10 * (n : Int) + (c.toInt - 48) = (10 * n + (c.toInt - 48).toNat : Nat) := by omega
      rw [← hint]
      exact Int.add_bmod_eq_add_bmod_right _ Int.mul_bmod_bmod
    rw [List.cons_append, scanPadding, if_pos (show c ≥ 48 ∧ c ≤ 57 from hdigit), hnext, List.foldl_cons]
    exact ih (fun c hc => hpadding c (List.mem_cons_of_mem _ hc)) _

theorem scanLength_append (hlen : length ≤ 2) (hrest : length < 2 → ∀ c ∈ rest.head?, c ≠ 108) :
    scanLength (List.replicate length 108 ++ rest) = (length, rest) := by
  have hstop {k : Nat} (hk : length = k) (hlt : k < 2) : rest.head? ≠ some 108 := fun h =>
    hrest (hk ▸ hlt) 108 h rfl
  unfold scanLength
  match length, hlen with
  | 0, _ => exact if_neg (hstop rfl (by decide))
  | 1, _ => exact (if_pos rfl).trans (if_neg (hstop rfl (by decide)))
  | 2, _ => exact (if_pos rfl).trans (if_pos rfl)

/-- What comes behind the flags. -/
def Behind (length : Nat) (rest : List Int8) : Prop :=
  ∀ c ∈ rest.head?, (length = 0 → ¬IsDigit c) ∧ (length < 2 → c ≠ 108)

theorem scan_flags (h : Flags padding length) (hrest : Behind length rest) :
    scanPadding 0 (padding ++ List.replicate length 108 ++ rest) =
      (toInt (value padding), List.replicate length 108 ++ rest) ∧
    scanLength (List.replicate length 108 ++ rest) = (length, rest) := by
  refine ⟨?_, scanLength_append h.length_le fun hlt c hc => (hrest c hc).2 hlt⟩
  rw [List.append_assoc]
  refine scanPadding_append h.digits (fun c hc => ?_) 0
  cases hlen : length with
  | zero =>
    rw [hlen] at hc
    exact (hrest c hc).1 hlen
  | succ k =>
    rw [hlen] at hc
    obtain rfl : 108 = c := Option.some.inj hc
    decide

end Scan

end SupOS.Libc
