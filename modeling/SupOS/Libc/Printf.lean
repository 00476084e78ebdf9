import SupOS.Libc.Format
import Mathlib.Data.List.TakeWhile

/-! `vfprintf`: the bytes that it writes and the count that it returns, when no write fails. -/

namespace SupOS.Libc

open Lib

variable {file : File} {padding rest bs : List Int8} {length fuel : Nat} {kind : Kind} {ap ap' : List Arg}
  {c : Int8} {nb : Int} {ps : List Piece}

theorem toUInt_toInt (n : Nat) : toUInt (toInt n) = n % 2 ^ 32 := by
  show ((Int.bmod n (2 ^ 32)) % (2 ^ 32 : Nat)).toNat = _
  rw [Int.bmod_emod]
  omega

/-- The padding of a number that is short enough. -/
theorem toUInt_of_number {base n : Nat} (hlen : (number base (value padding) n).length < 2 ^ 31) :
    toUInt (toInt (value padding)) = value padding := by
  rw [length_number] at hlen
  rw [toUInt_toInt, Nat.mod_eq_of_lt (by omega)]

/-- The sign adds to a number. -/
theorem length_number_le {base padding : Nat} {n : Int} :
    (number base padding n.natAbs).length ≤ (signedNumber base padding n).length := by
  unfold signedNumber
  split
  · exact Nat.le_succ _
  · exact Nat.le_refl _

theorem vaUnsigned_lt {n : Nat} (h : vaUnsigned length ap = some (n, ap')) : n < 2 ^ 64 := by
  unfold vaUnsigned at h
  split at h
  · obtain ⟨r, -, hr⟩ := Option.map_eq_some_iff.mp h
    obtain ⟨rfl, -⟩ := Prod.mk.inj hr
    exact r.1.toUInt32.toNat_lt.trans (by decide)
  · obtain ⟨r, -, hr⟩ := Option.map_eq_some_iff.mp h
    obtain ⟨rfl, -⟩ := Prod.mk.inj hr
    exact r.1.toUInt64.toNat_lt

/-! ### One conversion -/

/-- An argument that is there. -/
theorem Writes.arg {α β : Type} {r : α × List Arg} {f : α × List Arg → Stdio β} {b : β}
    (h : Writes (f r) bs b) : Writes (Libc.arg (some r) >>= f) bs b := h

/-- A letter of no conversion. -/
theorem convert_none (h : ∀ kind : Kind, c ≠ kind.letter) (padding : Int) :
    convert file c length padding ap = none := by
  unfold convert
  refine (if_neg (h .percent)).trans ((if_neg (h .unsigned)).trans ((if_neg (h .decimal)).trans ?_))
  exact (if_neg (h .hex)).trans ((if_neg (h .pointer)).trans
    ((if_neg (h .string)).trans (if_neg (h .char))))

theorem toInt_eq_EOF : c.toInt = EOF ↔ c = -1 := by
  rw [← Int8.toInt_inj]
  exact Iff.rfl

/-- What a conversion adds to the count: a string nothing, and a character that is `EOF` ends the
count. -/
def added (kind : Kind) (bs : List Int8) : Int :=
  if kind = .string then 0 else if kind = .char ∧ bs = [-1] then EOF else bs.length

theorem convert_writes (hfile : NoFailure file)
    (hexpand : kind.expand (value padding) length ap = some (bs, ap')) (hlen : bs.length < 2 ^ 31) :
    ∃ x, convert file kind.letter length (toInt (value padding)) ap = some x ∧
      Writes x bs (added kind bs, ap') := by
  cases kind with
  | percent =>
    obtain ⟨rfl, rfl⟩ := Prod.mk.inj (Option.some.inj hexpand)
    exact ⟨_, rfl, (fputc_writes hfile 37).bind_pure rfl⟩
  | unsigned =>
    obtain ⟨⟨n, ap₁⟩, harg, hr⟩ := Option.map_eq_some_iff.mp hexpand
    obtain ⟨rfl, rfl⟩ := Prod.mk.inj hr
    refine ⟨_, rfl, ?_⟩
    rw [harg, toUInt_of_number hlen]
    exact .arg ((printUInt_count hfile (by decide) (by decide) (vaUnsigned_lt harg) hlen).bind_pure rfl)
  | decimal =>
    obtain ⟨⟨n, ap₁⟩, harg, hr⟩ := Option.map_eq_some_iff.mp hexpand
    obtain ⟨rfl, rfl⟩ := Prod.mk.inj hr
    refine ⟨_, rfl, ?_⟩
    have hpadding : toUInt (toInt (value padding)) = value padding :=
      toUInt_of_number (Nat.lt_of_le_of_lt length_number_le hlen)
    rw [harg, hpadding]
    exact .arg ((printInt_writes hfile (by decide) (by decide) n hlen).bind_pure rfl)
  | hex =>
    obtain ⟨⟨n, ap₁⟩, harg, hr⟩ := Option.map_eq_some_iff.mp hexpand
    obtain ⟨rfl, rfl⟩ := Prod.mk.inj hr
    refine ⟨_, rfl, ?_⟩
    rw [harg, toUInt_of_number hlen]
    exact .arg ((printUInt_count hfile (by decide) (by decide) (vaUnsigned_lt harg) hlen).bind_pure rfl)
  | pointer =>
    obtain ⟨⟨n, ap₁⟩, harg, hr⟩ := Option.map_eq_some_iff.mp hexpand
    obtain ⟨rfl, rfl⟩ := Prod.mk.inj hr
    refine ⟨_, rfl, ?_⟩
    rw [harg, toUInt_of_number hlen]
    exact .arg ((printUInt_count hfile (by decide) (by decide) n.toUInt64.toNat_lt hlen).bind_pure rfl)
  | string =>
    refine ⟨_, rfl, ?_⟩
    rw [show vaString ap = some (bs, ap') from hexpand]
    exact .arg ((fputs_writes hfile hlen).bind_pure rfl)
  | char =>
    obtain ⟨⟨v, ap₁⟩, harg, hr⟩ := Option.map_eq_some_iff.mp hexpand
    obtain ⟨rfl, rfl⟩ := Prod.mk.inj hr
    refine ⟨_, rfl, ?_⟩
    rw [harg]
    have hput := fputc_writes hfile v.toInt8.toInt
    rw [Int8.ofInt_toInt] at hput
    refine .arg (hput.bind_pure ?_)
    simp only [added, toInt_eq_EOF, List.cons.injEq, and_true, true_and, reduceCtorEq, if_false]
    rfl

theorem added_cases (hexpand : kind.expand (value padding) length ap = some (bs, ap')) :
    (added kind bs = EOF ∧ (-1 : Int8) ∈ (if kind = .char then bs else [])) ∨
    (0 ≤ added kind bs ∧ added kind bs + (if kind = .string then bs else []).length = bs.length ∧
      (-1 : Int8) ∉ (if kind = .char then bs else [])) := by
  by_cases hchar : kind = .char
  · subst hchar
    obtain ⟨r, -, hr⟩ := Option.map_eq_some_iff.mp hexpand
    obtain ⟨rfl, -⟩ := Prod.mk.inj hr
    by_cases hv : r.1.toInt8 = -1
    · exact .inl (by simp [added, hv])
    · exact .inr (by simp [added, hv, Ne.symm hv])
  · refine .inr ?_
    by_cases hstring : kind = .string
    · simp [added, hstring]
    · simp [added, hstring, hchar]

/-! ### The format -/

theorem behind_letter (length : Nat) (kind : Kind) (rest : List Int8) :
    Behind length (kind.letter :: rest) := by
  rintro c hc
  obtain rfl := Option.some.inj hc
  have hletter : ¬IsDigit kind.letter ∧ kind.letter ≠ 108 := by cases kind <;> decide
  exact ⟨fun _ => hletter.1, fun _ => hletter.2⟩

theorem vfprintfFrom_conversion (h : Flags padding length) {x : Stdio (Int × List Arg)}
    (hx : convert file kind.letter length (toInt (value padding)) ap = some x) :
    vfprintfFrom file (fuel + 1) (flags padding length ++ kind.letter :: rest) ap nb =
      x >>= fun r =>
        if r.1 = EOF then return EOF else vfprintfFrom file fuel rest r.2 (toInt (nb + r.1)) := by
  obtain ⟨hpadding, hlength⟩ := scan_flags h (behind_letter length kind rest)
  rw [flags, List.cons_append, vfprintfFrom, if_neg (by decide), hpadding]
  dsimp only
  rw [hlength]
  dsimp only
  rw [hx]

theorem vfprintfFrom_stray (h : Flags padding length) (hrest : ∀ c ∈ rest.head?, Ends length c) :
    vfprintfFrom file (fuel + 1) (flags padding length ++ rest) ap nb =
      vfprintfFrom file fuel rest ap nb := by
  obtain ⟨hpadding, hlength⟩ := scan_flags h fun c hc => ⟨(hrest c hc).digit, (hrest c hc).long⟩
  rw [flags, List.cons_append, vfprintfFrom, if_neg (by decide), hpadding]
  dsimp only
  rw [hlength]
  cases rest with
  | nil => rfl
  | cons c rest =>
    dsimp only
    rw [convert_none (hrest c rfl).letter]

/-- A format with its arguments: where a character is `EOF` the count is, and otherwise the strings are
missing from it. -/
theorem vfprintfFrom_writes (hfile : NoFailure file) (hv : Valid ps) (hexp : expansion ps ap = some bs)
    (hfuel : (render ps).length < fuel) (hnb : 0 ≤ nb) (hlen : nb + bs.length < 2 ^ 31) :
    ((-1 : Int8) ∉ characters ps ap → Writes (vfprintfFrom file fuel (render ps) ap nb) bs
      (nb + bs.length - (strings ps ap).length)) ∧
    ((-1 : Int8) ∈ characters ps ap → ∃ cs, Writes (vfprintfFrom file fuel (render ps) ap nb) cs EOF) := by
  induction ps generalizing ap bs nb fuel with
  | nil =>
    obtain ⟨fuel, rfl⟩ := Nat.exists_eq_succ_of_ne_zero (Nat.ne_zero_of_lt hfuel)
    obtain rfl := Option.some.inj hexp
    refine ⟨fun _ => ?_, fun h => absurd h (List.not_mem_nil)⟩
    have hnb' : nb + ([] : List Int8).length - (strings [] ap).length = nb := by simp [strings]
    rw [hnb']
    exact .pure nb
  | cons p ps ih =>
    obtain ⟨fuel, rfl⟩ := Nat.exists_eq_succ_of_ne_zero (Nat.ne_zero_of_lt hfuel)
    cases p with
    | text c =>
      obtain ⟨cs, hcs, rfl⟩ := Option.map_eq_some_iff.mp hexp
      have hput := fputc_writes hfile c.toInt
      rw [Int8.ofInt_toInt] at hput
      rw [render, List.length_cons] at hfuel
      rw [List.length_cons] at hlen ⊢
      rw [render, vfprintfFrom, if_pos hv.1.1, characters, strings, List.mem_cons]
      by_cases hc : c = -1
      · refine ⟨fun h => absurd (.inl hc.symm) h, fun _ => ⟨[c], hput.bind_pure ?_⟩⟩
        rw [if_pos (toInt_eq_EOF.mpr hc)]
      · have hnext : 0 ≤ nb + 1 := by omega
        obtain ⟨hcount, heof⟩ := ih hv.2 hcs (Nat.lt_of_succ_lt_succ hfuel) hnext (by omega)
        have hstep {ds : List Int8} {r : Int}
            (h : Writes (vfprintfFrom file fuel (render ps) ap (nb + 1)) ds r) :
            Writes (fputc file c.toInt >>= fun res =>
              if res = EOF then return EOF else vfprintfFrom file fuel (render ps) ap (toInt (nb + 1)))
              (c :: ds) r := by
          refine hput.bind (?_ : Writes _ ds _)
          rwa [if_neg fun h => hc (toInt_eq_EOF.mp h), toInt_of_bounds (by omega) (by omega)]
        refine ⟨fun h => ?_, fun h => ?_⟩
        · have hrest := hstep (hcount fun hmem => h (.inr hmem))
          rwa [show nb + 1 + (cs.length : Int) = nb + (cs.length + 1 : Nat) by omega] at hrest
        · obtain ⟨ds, hds⟩ := heof (h.resolve_left fun h => hc h.symm)
          exact ⟨_, hstep hds⟩
    | conversion padding length kind =>
      obtain ⟨⟨cs, ap'⟩, hexpand, hrest⟩ := Option.bind_eq_some_iff.mp hexp
      obtain ⟨ds, hds, rfl⟩ := Option.map_eq_some_iff.mp hrest
      dsimp only at hds hlen ⊢
      rw [List.length_append] at hlen ⊢
      obtain ⟨x, hx, hwrites⟩ := convert_writes hfile hexpand (by omega)
      have hshort : (render ps).length < fuel := by
        rw [render, List.length_append, flags, List.length_cons, List.length_cons] at hfuel
        omega
      rw [render, vfprintfFrom_conversion hv.1 hx, characters, strings, hexpand]
      dsimp only
      rw [List.mem_append, List.length_append]
      rcases added_cases hexpand with ⟨hadded, hmem⟩ | ⟨hpos, hcount, hmem⟩
      · refine ⟨fun h => absurd (.inl hmem) h, fun _ => ⟨cs, hwrites.bind_pure ?_⟩⟩
        rw [hadded]
        exact if_pos rfl
      · have hne : added kind cs ≠ EOF := by
          rw [EOF]
          omega
        have hnext : 0 ≤ nb + added kind cs := by omega
        obtain ⟨hcounted, heof⟩ := ih hv.2 hds hshort hnext (by omega)
        have hstep {es : List Int8} {r : Int}
            (h : Writes (vfprintfFrom file fuel (render ps) ap' (nb + added kind cs)) es r) :
            Writes (x >>= fun r =>
              if r.1 = EOF then return EOF else vfprintfFrom file fuel (render ps) r.2 (toInt (nb + r.1)))
              (cs ++ es) r := by
          refine hwrites.bind ?_
          dsimp only
          rwa [if_neg hne, toInt_of_bounds (by omega) (by omega)]
        refine ⟨fun h => ?_, fun h => ?_⟩
        · have hall := hstep (hcounted fun h' => h (.inr h'))
          have hsum : nb + added kind cs + (ds.length : Int) - (strings ps ap').length =
              nb + (cs.length + ds.length : Nat) -
                ((if kind = .string then cs else []).length + (strings ps ap').length : Nat) := by
            omega
          rwa [hsum] at hall
        · obtain ⟨es, hes⟩ := heof (h.resolve_left hmem)
          exact ⟨_, hstep hes⟩
    | stray padding length =>
      have hshort : (render ps).length < fuel := by
        rw [render, List.length_append, flags, List.length_cons] at hfuel
        omega
      rw [render, vfprintfFrom_stray hv.1.1 hv.1.2]
      exact ih hv.2 hexp hshort hnb hlen

/-- The count is an `int`. -/
theorem vfprintfFrom_lt {s : List Int8} {o o' : Out} {r : Int} (hnb : nb < 2 ^ 31)
    (h : vfprintfFrom file fuel s ap nb o = .ok (r, o')) : r < 2 ^ 31 := by
  induction fuel generalizing s ap nb o with
  | zero => cases h
  | succ fuel ih =>
    have heof {o : Out} (h : (pure EOF : Stdio Int) o = .ok (r, o')) : r < 2 ^ 31 := by
      rw [← (Prod.mk.inj (Except.ok.inj h)).1]
      decide
    cases s with
    | nil => rwa [← (Prod.mk.inj (Except.ok.inj h)).1]
    | cons c₀ s₀ =>
      unfold vfprintfFrom at h
      split at h
      · obtain ⟨res, -, h⟩ := bind_eq_ok.mp h
        dsimp only at h
        split at h
        · exact heof h
        · exact ih (toInt_lt _) h
      · dsimp only at h
        cases hrest : (scanLength (scanPadding 0 s₀).2).2 with
        | nil =>
          rw [hrest] at h
          exact ih hnb h
        | cons c s =>
          rw [hrest] at h
          dsimp only at h
          cases hconv : convert file c (scanLength (scanPadding 0 s₀).2).1 (scanPadding 0 s₀).1 ap with
          | none =>
            rw [hconv] at h
            exact ih hnb h
          | some x =>
            rw [hconv] at h
            obtain ⟨res, -, h⟩ := bind_eq_ok.mp h
            dsimp only at h
            split at h
            · exact heof h
            · exact ih (toInt_lt _) h

/-! ### Every string is a format -/

theorem scanLength_spec (s : List Int8) : (scanLength s).1 ≤ 2 ∧
    s = List.replicate (scanLength s).1 108 ++ (scanLength s).2 ∧
    ((scanLength s).1 < 2 → ∀ c ∈ (scanLength s).2.head?, c ≠ 108) := by
  unfold scanLength
  by_cases hone : s.head? = some 108
  · obtain ⟨s', rfl⟩ := List.head?_eq_some_iff.mp hone
    rw [if_pos hone]
    by_cases htwo : s'.head? = some 108
    · obtain ⟨s'', rfl⟩ := List.head?_eq_some_iff.mp htwo
      rw [if_pos (by exact htwo)]
      exact ⟨Nat.le_refl 2, rfl, fun h => absurd h (Nat.lt_irrefl 2)⟩
    · rw [if_neg (by exact htwo)]
      exact ⟨Nat.le_succ 1, rfl, fun _ c hc hl => htwo (hl ▸ hc)⟩
  · rw [if_neg hone]
    exact ⟨Nat.zero_le 2, rfl, fun _ c hc hl => hone (hl ▸ hc)⟩

theorem exists_render {s : List Int8} (hs : ∀ c ∈ s, c ≠ 0) : ∃ ps, Valid ps ∧ render ps = s := by
  induction hlen : s.length using Nat.strong_induction_on generalizing s with
  | _ n ih =>
    subst hlen
    cases s with
    | nil => exact ⟨[], trivial, rfl⟩
    | cons c s =>
      have hrest (s' : List Int8) (hsub : s' <:+ s) : ∃ ps, Valid ps ∧ render ps = s' :=
        ih s'.length (Nat.lt_succ_of_le hsub.length_le)
          (fun c hc => hs c (List.mem_cons_of_mem _ (hsub.subset hc))) rfl
      by_cases hc : c = 37
      · subst hc
        have hdigits : ∀ c ∈ s.takeWhile (IsDigit ·), IsDigit c := fun c hc =>
          of_decide_eq_true (List.mem_takeWhile_imp (p := fun c => decide (IsDigit c)) hc)
        obtain ⟨hle, hsplit, hlong⟩ := scanLength_spec (s.dropWhile (IsDigit ·))
        generalize (scanLength (s.dropWhile (IsDigit ·))).1 = length at hle hsplit hlong
        generalize (scanLength (s.dropWhile (IsDigit ·))).2 = s' at hsplit hlong
        have hflags : Flags (s.takeWhile (IsDigit ·)) length := ⟨hdigits, hle⟩
        have hwhole : 37 :: s = flags (s.takeWhile (IsDigit ·)) length ++ s' := by
          rw [flags, List.cons_append, List.append_assoc, ← hsplit, List.takeWhile_append_dropWhile]
        have hsuffix : s' <:+ s := by
          refine List.IsSuffix.trans ?_ (List.dropWhile_suffix (IsDigit ·))
          rw [hsplit]
          exact List.suffix_append _ _
        by_cases hletter : ∃ kind rest, s' = Kind.letter kind :: rest
        · obtain ⟨kind, rest, rfl⟩ := hletter
          obtain ⟨ps, hv, hr⟩ := hrest rest ((List.suffix_cons _ _).trans hsuffix)
          exact ⟨.conversion _ length kind :: ps, ⟨hflags, hv⟩, by rw [render, hr, hwhole]⟩
        · obtain ⟨ps, hv, hr⟩ := hrest s' hsuffix
          refine ⟨.stray _ length :: ps, ⟨⟨hflags, fun c hc => ⟨?_, ?_, ?_⟩⟩, hv⟩, by rw [render, hr, hwhole]⟩
          · rintro kind rfl
            rw [hr] at hc
            obtain ⟨rest, hs'⟩ := List.head?_eq_some_iff.mp hc
            exact hletter ⟨kind, rest, hs'⟩
          · rintro rfl hdigit
            rw [hr] at hc
            have hnot := List.head?_dropWhile_not (IsDigit ·) s
            rw [hsplit, List.replicate_zero, List.nil_append, hc] at hnot
            exact absurd hdigit (of_decide_eq_false hnot)
          · rw [hr] at hc
            exact fun hlt => hlong hlt c hc
      · obtain ⟨ps, hv, hr⟩ := hrest s (List.suffix_refl s)
        exact ⟨.text c :: ps, ⟨⟨hc, hs c (List.mem_cons_self ..)⟩, hv⟩, by rw [render, hr]⟩

/-! ### The count -/

/-- Each C string is a format, and where its arguments match and no write fails, `vfprintf` writes what it
stands for and returns the number of these bytes exactly if that is an `int`, no character for itself is
`EOF`, and each string is empty. -/
theorem vfprintf_count_iff (hfile : NoFailure file) {s : List Int8} (hs : ∀ c ∈ s, c ≠ 0) :
    (∃ ps, Valid ps ∧ render ps = s) ∧ ∀ ps ap bs, Valid ps → render ps = s → expansion ps ap = some bs →
      (Writes (vfprintf file s ap) bs bs.length ↔
        bs.length < 2 ^ 31 ∧ (-1 : Int8) ∉ characters ps ap ∧ strings ps ap = []) := by
  refine ⟨exists_render hs, ?_⟩
  rintro ps ap bs hv rfl hexp
  have hwrites (hlen : bs.length < 2 ^ 31) := by
    have hshort : 0 + (bs.length : Int) < 2 ^ 31 := by omega
    exact vfprintfFrom_writes hfile hv hexp (Nat.lt_succ_self _) (Int.le_refl 0) hshort
  constructor
  · intro h
    obtain ⟨calls, hrun⟩ := h ⟨[], 0⟩
    have hlen : (bs.length : Int) < 2 ^ 31 := vfprintfFrom_lt (by decide) hrun
    have hlen' : bs.length < 2 ^ 31 := by omega
    obtain ⟨hcount, heof⟩ := hwrites hlen'
    have hchars : (-1 : Int8) ∉ characters ps ap := fun hmem => by
      obtain ⟨cs, hcs⟩ := heof hmem
      have hret := (h.unique hcs).1
      rw [EOF] at hret
      omega
    have hret := (h.unique (hcount hchars)).1
    refine ⟨hlen', hchars, List.length_eq_zero_iff.mp ?_⟩
    omega
  · rintro ⟨hlen, hchars, hstrings⟩
    have hall := (hwrites hlen).1 hchars
    rw [hstrings] at hall
    rw [vfprintf]
    simpa using hall

/-- The least number, written a byte at a time, and a new line. -/
theorem vfprintf_count_iff_least :
    (expansion [.conversion [53] 2 .decimal, .text 10] [.long (-9223372036854775808)]).map List.length = some 21 ∧
    ∃ bs, Writes (vfprintf (fun _ => some 0) [37, 53, 108, 108, 100, 10] [.long (-9223372036854775808)]) bs 21 := by
  have hlen : (expansion [.conversion [53] 2 .decimal, .text 10] [.long (-9223372036854775808)]).map
      List.length = some 21 := by decide +kernel
  obtain ⟨bs, hbs, hlength⟩ := Option.map_eq_some_iff.mp hlen
  have hfile : NoFailure fun _ => some 0 := fun _ h => by cases h
  have hs : ∀ c ∈ ([37, 53, 108, 108, 100, 10] : List Int8), c ≠ 0 := by decide +kernel
  have hiff := (vfprintf_count_iff hfile hs).2 [.conversion [53] 2 .decimal, .text 10]
    [.long (-9223372036854775808)] bs ⟨⟨by decide +kernel, by decide +kernel⟩, by decide +kernel, trivial⟩ rfl hbs
  refine ⟨hlen, bs, ?_⟩
  have hcount := hiff.mpr ⟨by rw [hlength]; decide, by decide +kernel, rfl⟩
  rwa [hlength] at hcount

/-- The two characters of a string are written, and not counted. -/
theorem string_not_counted :
    expansion [.conversion [] 0 .string] [.str [104, 105]] = some [104, 105] ∧
    Writes (vfprintf (fun _ => some 9) [37, 115] [.str [104, 105]]) [104, 105] 0 ∧
    ¬Writes (vfprintf (fun _ => some 9) [37, 115] [.str [104, 105]]) [104, 105] 2 := by
  have hfile : NoFailure fun _ => some 9 := fun _ h => by cases h
  have hv : Valid [.conversion [] 0 .string] := ⟨⟨by decide +kernel, by decide +kernel⟩, trivial⟩
  have hrun : Writes (vfprintf (fun _ => some 9) [37, 115] [.str [104, 105]]) [104, 105] 0 :=
    (vfprintfFrom_writes hfile hv rfl (by decide) (by decide) (by decide)).1 (by decide)
  exact ⟨rfl, hrun, fun h => absurd (h.unique hrun).1 (by decide)⟩

end SupOS.Libc
