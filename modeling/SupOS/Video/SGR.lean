import SupOS.Video.Lines

/-! The colours of the escape sequences of a text window: the parameters that a sequence gives, and those
that `SGR` reads. -/

namespace SupOS.Video.TextWindow

open Lib Libcpp

variable {w w' : TextWindow} {room : Nat} {junk junk' : Nat → UInt32} {c : Int8} {chars : List Int8}

/-! ### The parameters of a sequence -/

/-- The value of a digit. -/
def digit (c : Int8) : Nat := (c - 48).toInt.toNat

/-- The number that a sequence of digits writes. -/
def numeral (digits : List Int8) : Nat := digits.foldl (fun n c => n * 10 + digit c) 0

theorem numeral_append (digits : List Int8) (c : Int8) :
    numeral (digits ++ [c]) = numeral digits * 10 + digit c := by
  rw [numeral, List.foldl_append]
  rfl

/-- `_stack` after these parameters. -/
def values (params : List Nat) : List UInt32 := params.map UInt32.ofNat

/-- The parameters in the text of a sequence, which `;` separates. -/
structure Reads (text : List Int8) (pieces : List (List Int8)) : Prop where
  text_eq : text = [59].intercalate pieces
  ne_nil : pieces ≠ []
  digits : ∀ p ∈ pieces, ∀ c ∈ p, 48 ≤ c ∧ c ≤ 57

theorem intercalate_concat {α : Type} (sep l m : List α) (ls : List (List α)) :
    sep.intercalate (ls ++ [l ++ m]) = sep.intercalate (ls ++ [l]) ++ m := by
  induction ls with
  | nil => rw [List.nil_append, List.nil_append, List.intercalate_singleton, List.intercalate_singleton]
  | cons k ls ih =>
    have hne (l : List α) : ls ++ [l] ≠ [] := List.append_ne_nil_of_right_ne_nil _ (List.cons_ne_nil _ _)
    rw [List.cons_append, List.cons_append, List.intercalate_cons_of_ne_nil (hne _),
      List.intercalate_cons_of_ne_nil (hne _), ih, List.append_assoc, List.append_assoc, List.append_assoc]

theorem intercalate_concat_nil {α : Type} (sep : List α) {ls : List (List α)} (h : ls ≠ []) :
    sep.intercalate (ls ++ [[]]) = sep.intercalate ls ++ sep := by
  induction ls with
  | nil => exact absurd rfl h
  | cons k ls ih =>
    cases ls with
    | nil =>
      rw [List.cons_append, List.nil_append, List.intercalate_cons_cons, List.intercalate_singleton,
        List.intercalate_singleton, List.append_nil]
    | cons k' ls =>
      rw [List.cons_append, List.cons_append, List.intercalate_cons_cons, ← List.cons_append,
        ih (List.cons_ne_nil _ _), List.intercalate_cons_cons, List.append_assoc, List.append_assoc,
        List.append_assoc]

namespace Reads

variable {text : List Int8} {pieces : List (List Int8)}

theorem start : Reads [] [[]] := ⟨rfl, List.cons_ne_nil _ _, by simp⟩

/-- One more digit is of the last number. -/
theorem digit (h : Reads text pieces) (hc : 48 ≤ c ∧ c ≤ 57) :
    Reads (text ++ [c]) (pieces.dropLast ++ [pieces.getLast h.ne_nil ++ [c]]) := by
  refine ⟨?_, List.append_ne_nil_of_right_ne_nil _ (List.cons_ne_nil _ _), ?_⟩
  · rw [intercalate_concat, List.dropLast_concat_getLast, h.text_eq]
  · intro p hp d hd
    rcases List.mem_append.mp hp with hp | hp
    · exact h.digits p (List.dropLast_subset _ hp) d hd
    · rw [List.mem_singleton.mp hp] at hd
      rcases List.mem_append.mp hd with hd | hd
      · exact h.digits _ (List.getLast_mem h.ne_nil) d hd
      · rwa [List.mem_singleton.mp hd]

theorem semicolon (h : Reads text pieces) : Reads (text ++ [59]) (pieces ++ [[]]) := by
  refine ⟨?_, List.append_ne_nil_of_left_ne_nil h.ne_nil _, ?_⟩
  · rw [intercalate_concat_nil _ h.ne_nil, h.text_eq]
  · intro p hp
    rcases List.mem_append.mp hp with hp | hp
    · exact h.digits p hp
    · rw [List.mem_singleton.mp hp]
      simp

end Reads

/-! ### What `SGR` reads -/

/-- The indices of `_stack` that `SGR` reads. -/
def sgrReads (w : TextWindow) (junk : Nat → UInt32) : List Nat :=
  if w.stack.size = 0 then []
  else if w.stackAt junk 0 = 38 ∨ w.stackAt junk 0 = 48 then
    if w.stack.size < 5 then [0]
    else if w.stackAt junk 1 ≠ 2 then [0, 1]
    else [0, 1, 3, 4, 5]
  else [0]

/-- `SGR` does the same where the memory that it reads past the end is the same. -/
theorem sgr_congr {error : TextWindow → Except Fault TextWindow}
    (h : ∀ i ∈ w.sgrReads junk, w.stackAt junk i = w.stackAt junk' i) :
    w.SGR junk error = w.SGR junk' error := by
  unfold SGR sgrReads at *
  by_cases hsize : w.stack.size = 0
  · rw [if_pos hsize, if_pos hsize]
  rw [if_neg hsize] at h
  rw [if_neg hsize, if_neg hsize]
  have hcommand : w.stackAt junk 0 = w.stackAt junk' 0 := h 0 (by split_ifs <;> simp)
  have hcolor (f : Color24 → TextWindow) (hc : w.stackAt junk' 0 = 38 ∨ w.stackAt junk' 0 = 48) :
      (if w.stack.size < 5 then error w
        else if w.stackAt junk 1 ≠ 2 then error w else .ok (f (w.color junk))) =
      if w.stack.size < 5 then error w
        else if w.stackAt junk' 1 ≠ 2 then error w else .ok (f (w.color junk')) := by
    rw [hcommand, if_pos hc] at h
    refine ite_congr rfl (fun _ => rfl) fun hlong => ?_
    rw [if_neg hlong] at h
    have hone : w.stackAt junk 1 = w.stackAt junk' 1 := h 1 (by split_ifs <;> simp)
    rw [hone]
    refine ite_congr rfl (fun _ => rfl) fun htwo => ?_
    rw [hone, if_neg htwo] at h
    rw [color, color, h 3 (by simp), h 4 (by simp), h 5 (by simp)]
  dsimp only
  rw [hcommand]
  refine ite_congr rfl (fun _ => rfl) fun _ => ?_
  refine ite_congr rfl (fun _ => rfl) fun _ => ?_
  refine ite_congr rfl (fun _ => rfl) fun _ => ?_
  refine ite_congr rfl (fun _ => rfl) fun _ => ?_
  refine ite_congr rfl (fun _ => rfl) fun _ => ?_
  refine ite_congr rfl (fun _ => rfl) fun _ => ?_
  refine ite_congr rfl (fun _ => rfl) fun _ => ?_
  refine ite_congr rfl (fun h => hcolor (fun fg => { w with cursFormat.fg := fg }) (.inl h)) fun _ => ?_
  refine ite_congr rfl (fun _ => rfl) fun _ => ?_
  refine ite_congr rfl (fun _ => rfl) fun _ => ?_
  exact ite_congr rfl (fun h => hcolor (fun bg => { w with cursFormat.bg := bg }) (.inr h)) fun _ => rfl

/-- Five parameters for a colour, which `SGR` takes to be six. -/
def OffByOne (params : List Nat) : Prop :=
  ∃ r g b, values params = [38, 2, r, g, b] ∨ values params = [48, 2, r, g, b]

/-- What a colour sequence is for. -/
def rgb (r g b : Nat) : Color24 where
  R := UInt8.ofNat r
  G := UInt8.ofNat g
  B := UInt8.ofNat b

/-- The end of a sequence with these parameters: `SGR` reads none but them, sets the colour that they give
and nothing else, and puts two tildes where they are too few, with the format as it is. -/
structure Within (w : TextWindow) (room : Nat) (junk : Nat → UInt32) (params : List Nat) : Prop where
  reads : ∀ i ∈ w.sgrReads junk, i < params.length
  fg : ∀ r g b, params = [38, 2, r, g, b] →
    w.putChar room junk 109 = .ok { w with cursFormat.fg := rgb r g b, state := .NORMAL }
  bg : ∀ r g b, params = [48, 2, r, g, b] →
    w.putChar room junk 109 = .ok { w with cursFormat.bg := rgb r g b, state := .NORMAL }
  rejected : params.length < 5 → params.head? = some 38 ∨ params.head? = some 48 →
    w.putChar room junk 109 = putChars { w with state := .NORMAL } room junk [126, 126] ∧
    ∀ w', w.putChar room junk 109 = .ok w' → w'.cursFormat = w.cursFormat ∧ w'.bright = w.bright

/-! ### A sequence that is too short -/

theorem putChar_tilde (hstate : w.state = .NORMAL) (depth : Nat) :
    putCharAt room junk (depth + 1) w 126 = w.addPrintableChar room 126 := by
  unfold putCharAt
  simp only [hstate]
  rfl

theorem addPrintableChar_frame (h : w.addPrintableChar room c = .ok w') :
    w'.state = w.state ∧ w'.cursFormat = w.cursFormat ∧ w'.bright = w.bright := by
  unfold addPrintableChar at h
  split at h
  · cases h
  · obtain ⟨line, _, h⟩ := bind_eq_ok.mp h
    obtain rfl := Except.ok.inj h
    exact ⟨rfl, rfl, rfl⟩

theorem tildes_eq {f : TextWindow → Except Fault TextWindow} (hstate : w.state = .NORMAL)
    (hf : ∀ w : TextWindow, w.state = .NORMAL → f w = w.addPrintableChar room 126) :
    f w >>= f = w.addPrintableChar room 126 >>= fun w => w.addPrintableChar room 126 := by
  rw [hf w hstate]
  cases hadd : w.addPrintableChar room 126 with
  | error e => rfl
  | ok w' => exact hf w' ((addPrintableChar_frame hadd).1.trans hstate)

/-- `error`, at each depth of `putChar`. -/
theorem error_eq (depth : Nat) : (do
      let w ← putCharAt room junk (depth + 1) { w with state := .NORMAL } 126
      putCharAt room junk (depth + 1) w 126) =
    putChars { w with state := .NORMAL } room junk [126, 126] := by
  have hputs : putChars { w with state := .NORMAL } room junk [126, 126] =
      putChar { w with state := .NORMAL } room junk 126 >>= fun w => w.putChar room junk 126 := by
    rw [putChars, List.foldlM_cons]
    exact bind_congr fun w => (List.foldlM_cons ..).trans (bind_pure _)
  rw [hputs]
  exact (tildes_eq (f := fun w => putCharAt room junk (depth + 1) w 126) rfl
    fun w hw => putChar_tilde hw depth).trans
      (tildes_eq (f := fun w => w.putChar room junk 126) rfl fun w hw => putChar_tilde hw 2).symm

theorem tildes_frame (h : putChars { w with state := .NORMAL } room junk [126, 126] = .ok w') :
    w'.state = .NORMAL ∧ w'.cursFormat = w.cursFormat ∧ w'.bright = w.bright := by
  rw [← error_eq 0, tildes_eq (f := fun w => putCharAt room junk 1 w 126) rfl
    fun w hw => putChar_tilde hw 0] at h
  obtain ⟨w₁, h₁, h₂⟩ := bind_eq_ok.mp h
  obtain ⟨hstate₁, hformat₁, hbright₁⟩ := addPrintableChar_frame h₁
  obtain ⟨hstate₂, hformat₂, hbright₂⟩ := addPrintableChar_frame h₂
  exact ⟨hstate₂.trans hstate₁, hformat₂.trans hformat₁, hbright₂.trans hbright₁⟩

/-- The end of a sequence. -/
theorem putChar_end (hstate : w.state = .ESCAPE) : w.putChar room junk 109 = do
    let w ← w.SGR junk fun w => putChars { w with state := .NORMAL } room junk [126, 126]
    return { w with state := .NORMAL } := by
  unfold putChar
  rw [putCharAt]
  simp only [hstate, error_eq]
  rfl

/-! ### The condition -/

theorem exists_five {α : Type} {l : List α} (h : l.length = 5) : ∃ p q r g b, l = [p, q, r, g, b] := by
  match l, h with
  | [p, q, r, g, b], _ => exact ⟨p, q, r, g, b, rfl⟩

section Condition

variable {params : List Nat} (hstack : w.stack.data = values params)

include hstack

theorem size_eq : w.stack.size = params.length := by
  rw [Libcpp.Vector.size, hstack, values, List.length_map]

theorem stackAt_eq {i : Nat} (hi : i < params.length) : w.stackAt junk i = UInt32.ofNat params[i] := by
  rw [stackAt, hstack, values, List.getD_eq_getElem?_getD, List.getElem?_map, List.getElem?_eq_getElem hi]
  rfl

/-- `SGR` reads past the parameters only at one too few of them. -/
theorem reads_iff : (∀ i ∈ w.sgrReads junk, i < params.length) ↔ ¬OffByOne params := by
  have hsize := size_eq hstack
  unfold sgrReads
  constructor
  · intro hreads hoff
    obtain ⟨r, g, b, hvalues⟩ := hoff
    have hdata : w.stack.data = [38, 2, r, g, b] ∨ w.stack.data = [48, 2, r, g, b] := by rwa [hstack]
    have hlen : params.length = 5 := by
      rw [← hsize]
      rcases hdata with hdata | hdata <;> rw [Libcpp.Vector.size, hdata] <;> rfl
    have hfive := hreads 5
    rw [hsize, hlen] at hfive
    rcases hdata with hdata | hdata <;> simp [stackAt, hdata] at hfive
  · intro hoff i hi
    split_ifs at hi with hempty hcolor hshort htwo
    · cases hi
    · simp at hi
      omega
    · simp at hi
      omega
    · -- four more parameters are no less than five
      have hlen : params.length ≠ 5 := fun hlen => by
        obtain ⟨p, q, r, g, b, rfl⟩ := exists_five hlen
        rw [stackAt_eq hstack (i := 0) (by simp)] at hcolor
        rw [stackAt_eq hstack (i := 1) (by simp), Decidable.not_not] at htwo
        refine hoff ⟨UInt32.ofNat r, UInt32.ofNat g, UInt32.ofNat b, hcolor.imp (fun h => ?_) fun h => ?_⟩ <;>
          exact congrArg₂ (fun p q => [p, q, UInt32.ofNat r, UInt32.ofNat g, UInt32.ofNat b]) h htwo
      simp at hi
      omega
    · simp at hi
      omega

/-- Too few parameters for a colour. -/
theorem rejected (hstate : w.state = .ESCAPE) (hshort : params.length < 5)
    (hhead : params.head? = some 38 ∨ params.head? = some 48) :
    w.putChar room junk 109 = putChars { w with state := .NORMAL } room junk [126, 126] := by
  have hsize := size_eq hstack
  obtain ⟨p, rest, rfl⟩ : ∃ p rest, params = p :: rest := by
    cases params with
    | nil => simp at hhead
    | cons p rest => exact ⟨p, rest, rfl⟩
  have hcommand : w.stackAt junk 0 = UInt32.ofNat p := stackAt_eq hstack (i := 0) (Nat.zero_lt_succ _)
  have hne : w.stack.size ≠ 0 := by
    rw [hsize]
    exact Nat.succ_ne_zero _
  rw [← hsize] at hshort
  have hsgr (error : TextWindow → Except Fault TextWindow) : w.SGR junk error = error w := by
    unfold SGR
    rw [if_neg hne, hcommand]
    rcases hhead with hp | hp <;> obtain rfl := Option.some.inj hp <;> simp [hshort]
  rw [putChar_end hstate, hsgr]
  cases hputs : putChars { w with state := .NORMAL } room junk [126, 126] with
  | error e => rfl
  | ok w' =>
    have hnormal := (tildes_frame hputs).1
    rw [ok_bind, ← hnormal]
    rfl

/-- The end of a sequence meets its purpose exactly where it is not one too few parameters for a
colour. -/
theorem within_iff (hstate : w.state = .ESCAPE) (room : Nat) (junk : Nat → UInt32) :
    w.Within room junk params ↔ ¬OffByOne params := by
  refine ⟨fun h => (reads_iff hstack).mp h.reads, fun hoff => ⟨(reads_iff hstack).mpr hoff, ?_, ?_, ?_⟩⟩
  · rintro r g b rfl
    exact absurd ⟨_, _, _, .inl rfl⟩ hoff
  · rintro r g b rfl
    exact absurd ⟨_, _, _, .inr rfl⟩ hoff
  · intro hshort hhead
    have hrejected : w.putChar room junk 109 = _ := rejected hstack hstate hshort hhead
    exact ⟨hrejected, fun w' hw' => (tildes_frame (hrejected ▸ hw')).2⟩

end Condition

/-! ### Runs -/

theorem spaces_state {n : Nat}
    (h : (List.replicate n (32 : Int8)).foldlM (fun w c => w.addPrintableChar room c) w = .ok w') :
    w'.state = w.state := by
  induction n generalizing w with
  | zero => rw [← Except.ok.inj h]
  | succ n ih =>
    rw [List.replicate_succ, List.foldlM_cons] at h
    obtain ⟨w₁, h₁, h₂⟩ := bind_eq_ok.mp h
    exact (ih h₂).trans (addPrintableChar_frame h₁).1

/-- Between sequences, only an escape character starts one. -/
theorem normal_state (hstate : w.state = .NORMAL) {depth : Nat}
    (h : putCharAt room junk (depth + 2) w c = .ok w') :
    w'.state = .NORMAL ∨ c = 27 ∧ w'.state = .WAITINGOB := by
  rw [putCharAt] at h
  simp only [hstate, error_eq] at h
  split at h
  · rename_i hc
    exact .inr ⟨hc, by rw [← Except.ok.inj h]⟩
  refine .inl ?_
  split at h
  · rw [← Except.ok.inj h, newLine_state, hstate]
  split at h
  · rw [spaces_state h, hstate]
  split at h
  · split at h <;> rw [← Except.ok.inj h]
  split at h
  · rw [← Except.ok.inj h]
  split at h
  · rw [← Except.ok.inj h]
    exact newLine_state.trans hstate
  split at h
  · exact (tildes_frame h).1
  · rw [(addPrintableChar_frame h).1, hstate]

/-- What the characters so far say about the sequence that the parser is in. -/
structure Parsed (w : TextWindow) (chars : List Int8) : Prop where
  waiting : w.state = .WAITINGOB → ∃ pre, chars = pre ++ [27]
  escape : w.state = .ESCAPE → ∃ pre text pieces, chars = pre ++ 27 :: 91 :: text ∧ Reads text pieces ∧
    w.stack.data = values (pieces.map numeral)

namespace Parsed

theorem of_normal (h : w'.state = .NORMAL ∨ c = 27 ∧ w'.state = .WAITINGOB) (chars : List Int8) :
    Parsed w' (chars ++ [c]) := by
  rcases h with h | ⟨rfl, h⟩
  · exact ⟨fun h' => absurd (h.symm.trans h') (by decide), fun h' => absurd (h.symm.trans h') (by decide)⟩
  · exact ⟨fun _ => ⟨chars, rfl⟩, fun h' => absurd (h.symm.trans h') (by decide)⟩

theorem of_escape (hstate : w'.state = .ESCAPE) {pre text : List Int8} {pieces : List (List Int8)}
    (hchars : chars = pre ++ 27 :: 91 :: text) (hreads : Reads text pieces)
    (hstack : w'.stack.data = values (pieces.map numeral)) : Parsed w' chars :=
  ⟨fun h' => absurd (hstate.symm.trans h') (by decide), fun _ => ⟨pre, text, pieces, hchars, hreads, hstack⟩⟩

/-- A broken sequence, after which the character is read again. -/
theorem of_retry (h : (do
      let w ← putChars { w with state := .NORMAL } room junk [126, 126]
      putCharAt room junk 2 w c) = .ok w') (chars : List Int8) : Parsed w' (chars ++ [c]) := by
  obtain ⟨w₁, h₁, h₂⟩ := bind_eq_ok.mp h
  exact of_normal (normal_state (tildes_frame h₁).1 h₂) chars

/-- A digit changes the number on top of the stack. -/
theorem stack_digit {pieces : List (List Int8)} {n : UInt32} (hne : pieces ≠ [])
    (hstack : w.stack.data = values (pieces.map numeral)) (hn : w.back = .ok n) :
    w.stack.data.dropLast ++ [n * 10 + (c - 48).toInt.toNat.toUInt32] =
      values ((pieces.dropLast ++ [pieces.getLast hne ++ [c]]).map numeral) := by
  obtain ⟨front, last, rfl⟩ : ∃ front last, pieces = front ++ [last] :=
    ⟨_, _, (List.dropLast_concat_getLast hne).symm⟩
  have hdata : w.stack.data = values (front.map numeral) ++ [UInt32.ofNat (numeral last)] := by
    rw [hstack, values, List.map_append, List.map_append]
    rfl
  have hlast : n = UInt32.ofNat (numeral last) := by
    rw [back, hdata, List.getLast?_concat] at hn
    exact (Except.ok.inj hn).symm
  rw [hdata, List.dropLast_concat, List.dropLast_concat, List.getLast_concat, hlast, values, values,
    List.map_append, List.map_append]
  show _ = values _ ++ [UInt32.ofNat (numeral (last ++ [c]))]
  rw [numeral_append, UInt32.ofNat_add, UInt32.ofNat_mul]
  rfl

theorem putChar (hw : w.Parsed chars) (h : w.putChar room junk c = .ok w') : w'.Parsed (chars ++ [c]) := by
  unfold TextWindow.putChar at h
  cases hstate : w.state with
  | NORMAL => exact of_normal (normal_state hstate h) chars
  | WAITINGOB =>
    rw [putCharAt] at h
    simp only [hstate, error_eq] at h
    split at h
    · exact of_retry h chars
    · rename_i hc
      obtain ⟨pre, rfl⟩ := hw.waiting hstate
      obtain ⟨r, hpush, h⟩ := bind_eq_ok.mp h
      obtain rfl := Except.ok.inj h
      refine of_escape rfl (?_ : _ = pre ++ 27 :: 91 :: _) .start (pushBackMove_plain.of_ok hpush)
      rw [Decidable.not_not.mp hc, List.append_assoc]
      rfl
  | ESCAPE =>
    obtain ⟨pre, text, pieces, rfl, hreads, hstack⟩ := hw.escape hstate
    rw [putCharAt] at h
    simp only [hstate, error_eq] at h
    split at h
    · exact of_retry h _
    split at h
    · rename_i hc
      obtain ⟨n, hn, h⟩ := bind_eq_ok.mp h
      obtain rfl := Except.ok.inj h
      refine of_escape rfl (?_ : _ = pre ++ 27 :: 91 :: _) (hreads.digit hc) (stack_digit hreads.ne_nil hstack hn)
      rw [List.append_assoc]
      rfl
    split at h
    · rename_i hc
      obtain ⟨r, hpush, h⟩ := bind_eq_ok.mp h
      obtain rfl := Except.ok.inj h
      refine of_escape rfl (?_ : _ = pre ++ 27 :: 91 :: _) hreads.semicolon ?_
      · rw [hc, List.append_assoc]
        rfl
      · have hdata := pushBackMove_plain.of_ok hpush
        rw [hdata, hstack, values, values, List.map_append, List.map_append]
        rfl
    split at h
    · obtain ⟨w₁, _, h⟩ := bind_eq_ok.mp h
      obtain rfl := Except.ok.inj h
      exact of_normal (.inl rfl) _
    · exact of_retry h _

theorem putChars (hw : w.Parsed chars) {buf : List Int8} (h : w.putChars room junk buf = .ok w') :
    w'.Parsed (chars ++ buf) := by
  induction buf generalizing w chars with
  | nil =>
    obtain rfl := Except.ok.inj h
    rwa [List.append_nil]
  | cons c buf ih =>
    rw [TextWindow.putChars, List.foldlM_cons] at h
    obtain ⟨w₁, h₁, h₂⟩ := bind_eq_ok.mp h
    have hrest := ih (hw.putChar h₁) h₂
    rwa [List.append_assoc] at hrest

/-- The parser's state and the stack are all that counts. -/
theorem congr (hw : w.Parsed chars) (hstate : w'.state = w.state) (hstack : w'.stack = w.stack) :
    w'.Parsed chars := ⟨hstate ▸ hw.waiting, by rw [hstate, hstack]; exact hw.escape⟩

end Parsed

/-- The characters that a call puts. -/
def puts (w : TextWindow) : Call → List Int8
  | .write buf => buf.take (min buf.length 1024)
  | .key sym => if sym = 8 then if w.keyboardBuffer = [] then [] else [8, 32, 8] else [sym]
  | .setSize _ => []

/-- The window whose characters these are: a key changes the buffer first. -/
def entered (w : TextWindow) : Call → TextWindow
  | .write _ => w
  | .key sym =>
    if sym = 8 then { w with keyboardBuffer := w.keyboardBuffer.dropLast }
    else if sym = 10 then { w with keyboardBuffer := [] }
    else { w with keyboardBuffer := w.keyboardBuffer ++ [sym] }
  | .setSize v => w.setSize v

theorem entered_key (w : TextWindow) (sym : Int8) :
    ∃ keyboardBuffer, w.entered (.key sym) = { w with keyboardBuffer } := by
  unfold entered
  dsimp only
  split
  · exact ⟨_, rfl⟩
  · split <;> exact ⟨_, rfl⟩

theorem putChars_singleton (w : TextWindow) (c : Int8) : w.putChars room junk [c] = w.putChar room junk c := by
  rw [putChars, List.foldlM_cons]
  exact bind_pure _

/-- A call puts its characters one after another. -/
theorem apply_eq (w : TextWindow) (c : Command) :
    w.apply c = (w.entered c.call).putChars c.room c.junk (w.puts c.call) := by
  obtain ⟨room, junk, call⟩ := c
  cases call with
  | write buf =>
    change (·.2) <$> w.write room junk buf = w.putChars room junk (buf.take (min buf.length 1024))
    unfold TextWindow.write
    dsimp only
    cases w.putChars room junk (buf.take (min buf.length 1024)) <;> rfl
  | key sym =>
    change w.handleKey room junk sym = _
    unfold handleKey entered puts
    dsimp only
    by_cases hback : sym = 8
    · rw [if_pos hback, if_pos hback, if_pos hback]
      by_cases hempty : w.keyboardBuffer = []
      · have hlast : w.keyboardBuffer.dropLast = w.keyboardBuffer := by rw [hempty, List.dropLast_nil]
        rw [if_pos hempty, if_pos hempty, hlast]
        rfl
      · rw [if_neg hempty, if_neg hempty]
    · rw [if_neg hback, if_neg hback, if_neg hback, putChars_singleton]
      by_cases hline : sym = 10
      · rw [if_pos hline, if_pos hline, hline]
      · rw [if_neg hline, if_neg hline]
  | setSize v => rfl

namespace Parsed

theorem entered (hw : w.Parsed chars) (call : Call) : (w.entered call).Parsed chars := by
  cases call with
  | write buf => exact hw
  | key sym =>
    obtain ⟨keyboardBuffer, hkey⟩ := w.entered_key sym
    rw [hkey]
    exact hw.congr rfl rfl
  | setSize v => exact hw.congr rfl rfl

theorem apply (hw : w.Parsed chars) {c : Command} (h : w.apply c = .ok w') :
    w'.Parsed (chars ++ w.puts c.call) := by
  rw [apply_eq] at h
  exact (hw.entered c.call).putChars h

theorem new (size : Vec2u) : (TextWindow.new size).Parsed [] :=
  ⟨fun h => absurd (show State.NORMAL = .WAITINGOB from h) (by decide),
    fun h => absurd (show State.NORMAL = .ESCAPE from h) (by decide)⟩

end Parsed

/-- The window of `machine`, with the characters that have been put into it. -/
def recorded : Lib.Machine (TextWindow × List Int8) Command Fault where
  start s := ∃ size, s = (new size, [])
  admits _ _ := True
  apply s c := do return (← s.1.apply c, s.2 ++ s.1.puts c.call)

theorem parsed_of_run {s : TextWindow × List Int8} (hr : recorded.Run (fun _ _ => True) s) :
    s.1.Parsed s.2 := by
  refine hr.invariant (I := fun s => s.1.Parsed s.2) ?_ fun s s' c hs _ _ happly => ?_
  · rintro s ⟨size, rfl⟩
    exact .new size
  · obtain ⟨w', hw', hs'⟩ := bind_eq_ok.mp happly
    obtain rfl := Except.ok.inj hs'
    exact hs.apply hw'

/-- In any window and after each character of what is written to it: where the parser is in an escape
sequence, the characters of the sequence give its parameters, and its end meets its purpose exactly where
these are not the five of a colour. -/
theorem sgr_within_iff {s : TextWindow × List Int8} (hr : recorded.Run (fun _ _ => True) s) {buf : List Int8}
    (h : s.1.putChars room junk buf = .ok w) (hstate : w.state = .ESCAPE) :
    ∃ pre text pieces, s.2 ++ buf = pre ++ 27 :: 91 :: text ∧ Reads text pieces ∧
      ∀ room junk, w.Within room junk (pieces.map numeral) ↔ ¬OffByOne (pieces.map numeral) := by
  obtain ⟨pre, text, pieces, hchars, hreads, hstack⟩ := ((parsed_of_run hr).putChars h).escape hstate
  exact ⟨pre, text, pieces, hchars, hreads, fun room junk => within_iff hstack hstate room junk⟩

/-- A number after the escape character and the bracket. -/
theorem sgr_within_iff_bold : ∃ s w, recorded.Run (fun _ _ => True) s ∧
    s.1.putChars 4096 (fun _ => 0) [91, 49] = .ok w ∧ ∃ pre text pieces,
      s.2 ++ [91, 49] = pre ++ 27 :: 91 :: text ∧ Reads text pieces ∧
        ∀ room junk, w.Within room junk (pieces.map numeral) ↔ ¬OffByOne (pieces.map numeral) := by
  obtain ⟨s, hr, hP⟩ := Machine.exists_run (M := recorded) (C := fun _ _ => True)
    (fun _ _ (_ : true = true) => ⟨trivial, trivial⟩) ⟨⟨82, 34⟩, rfl⟩ [⟨4096, fun _ => 0, .write [27]⟩]
    (P := fun s => (s.1.putChars 4096 (fun _ => 0) [91, 49]).toOption.any (·.state = .ESCAPE))
    (by decide +kernel)
  obtain ⟨w, hw, hstate⟩ := Option.any_eq_true .. |>.mp hP
  have hw := toOption_eq_some.mp hw
  exact ⟨s, w, hr, hw, sgr_within_iff hr hw (of_decide_eq_true hstate)⟩

/-- A colour of five parameters: the red one is lost, and the blue one comes from behind the stack. -/
theorem color_past_end : ∃ s, recorded.Run (fun _ _ => True) s ∧
    (s.2 = [27, 91, 51, 56, 59, 50, 59, 49, 59, 50, 59, 51] ∧
      (s.1.putChar 4096 (fun _ => 7) 109).toOption.map (·.cursFormat.fg) = some ⟨7, 3, 2⟩) ∧
    ¬s.1.Within 4096 (fun _ => 7) [38, 2, 1, 2, 3] := by
  obtain ⟨s, hr, hP⟩ := Machine.exists_run (M := recorded) (C := fun _ _ => True)
    (fun _ _ (_ : true = true) => ⟨trivial, trivial⟩) ⟨⟨82, 34⟩, rfl⟩
    [⟨4096, fun _ => 7, .write [27, 91, 51, 56, 59, 50, 59, 49, 59, 50, 59, 51]⟩]
    (P := fun s => decide (s.2 = [27, 91, 51, 56, 59, 50, 59, 49, 59, 50, 59, 51] ∧
      (s.1.putChar 4096 (fun _ => 7) 109).toOption.map (·.cursFormat.fg) = some ⟨7, 3, 2⟩))
    (by decide +kernel)
  have hs := of_decide_eq_true hP
  refine ⟨s, hr, hs, fun hwithin => ?_⟩
  have hcolor := hs.2
  rw [hwithin.fg 1 2 3 rfl] at hcolor
  have hrgb : rgb 1 2 3 = ⟨7, 3, 2⟩ := Option.some.inj hcolor
  exact absurd hrgb (by decide)

end SupOS.Video.TextWindow
