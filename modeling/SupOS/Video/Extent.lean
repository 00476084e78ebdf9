import SupOS.Video.Inside
import SupOS.Video.SGR

/-! How far to the right the cursor and the lines of a text window come, and the runs in which a window
draws inside itself. -/

namespace SupOS.Video

open Lib Libcpp

theorem Line.size_write {line line' : Line} {room i : Nat} {fmc : FormatedChar}
    (h : line.write room i fmc = .ok line') : line'.data.size ≤ max line.data.size (i + 1) := by
  unfold Line.write at h
  by_cases hshort : line.data.size ≤ i
  · rw [if_pos hshort] at h
    obtain ⟨r, hr, h⟩ := bind_eq_ok.mp h
    obtain rfl := Except.ok.inj h
    show (r.1.data.set i fmc).length ≤ _
    rw [List.length_set]
    unfold Libcpp.Vector.resize at hr
    rw [if_neg (by omega), if_neg (by omega)] at hr
    obtain ⟨v, hv, hr⟩ := bind_eq_ok.mp hr
    obtain rfl := Except.ok.inj hr
    have hdata := reserve_plain.of_ok hv
    show (v.1.data ++ List.replicate (i + 1 - v.1.data.length) _).length ≤ _
    rw [List.length_append, List.length_replicate, hdata]
    show line.data.size + (i + 1 - line.data.size) ≤ _
    omega
  · rw [if_neg hshort] at h
    obtain rfl := Except.ok.inj h
    show (line.data.data.set i fmc).length ≤ _
    rw [List.length_set]
    exact Nat.le_max_left _ _

namespace TextWindow

variable {w w' : TextWindow} {room : Nat} {junk : Nat → UInt32} {c : Int8} {b b' : Nat}

/-- Neither the cursor's column nor the length of a line is greater. -/
structure Extent (b : Nat) (w : TextWindow) : Prop where
  column : w.curs.x.toNat ≤ b
  lines : ∀ line ∈ w.lineBuffer, line.data.size ≤ b

namespace Extent

theorem mono (h : Extent b w) (hb : b ≤ b') : Extent b' w :=
  ⟨Nat.le_trans h.column hb, fun line hline => Nat.le_trans (h.lines line hline) hb⟩

theorem congr (h : Extent b w) (hcurs : w'.curs = w.curs) (hlines : w'.lineBuffer = w.lineBuffer) :
    Extent b w' := ⟨hcurs ▸ h.column, hlines ▸ h.lines⟩

theorem newLine (h : Extent b w) : Extent b w.newLine ∧ w.newLine.width = w.width := by
  have hnew (line : Line) (hline : line ∈ [Line.new]) : line.data.size ≤ b := by
    rw [List.mem_singleton.mp hline]
    exact Nat.zero_le b
  unfold TextWindow.newLine
  split
  · split
    · exact ⟨⟨Nat.zero_le b, fun line hline => (List.mem_append.mp hline).elim
        (fun h' => h.lines line (List.mem_of_mem_tail h')) (hnew line)⟩, rfl⟩
    · exact ⟨⟨Nat.zero_le b, fun line hline => (List.mem_append.mp hline).elim
        (h.lines line) (hnew line)⟩, rfl⟩
  · exact ⟨⟨Nat.zero_le b, h.lines⟩, rfl⟩

/-- A printable character goes one column to the right. -/
theorem addPrintableChar (h : Extent b w) (hput : w.addPrintableChar room c = .ok w') :
    Extent (b + 1) w' ∧ w'.curs.x = w.curs.x + 1 ∧ w'.width = w.width := by
  have hcolumn := h.column
  unfold TextWindow.addPrintableChar at hput
  split at hput
  · cases hput
  · rename_i line hline
    obtain ⟨line', hwrite, hput⟩ := bind_eq_ok.mp hput
    obtain rfl := Except.ok.inj hput
    refine ⟨⟨?_, fun l hl => ?_⟩, rfl, rfl⟩
    · dsimp only
      rw [UInt32.toNat_add, UInt32.toNat_one]
      omega
    · rcases List.mem_or_eq_of_mem_set hl with hl | rfl
      · exact Nat.le_succ_of_le (h.lines l hl)
      · have hsize := Line.size_write hwrite
        have hold := h.lines line (List.mem_of_getElem? hline)
        omega

theorem spaces {n : Nat} (h : Extent b w)
    (hput : (List.replicate n (32 : Int8)).foldlM (fun w c => w.addPrintableChar room c) w = .ok w') :
    Extent (b + n) w' ∧ w'.width = w.width := by
  induction n generalizing w b with
  | zero => exact ⟨Except.ok.inj hput ▸ h, by rw [← Except.ok.inj hput]⟩
  | succ n ih =>
    rw [List.replicate_succ, List.foldlM_cons] at hput
    obtain ⟨w₁, h₁, h₂⟩ := bind_eq_ok.mp hput
    obtain ⟨hone, -, hwidth⟩ := h.addPrintableChar h₁
    obtain ⟨hrest, hwidth'⟩ := ih hone h₂
    exact ⟨hrest.mono (by omega), hwidth'.trans hwidth⟩

/-- The two tildes of `error`. -/
theorem tildes (h : Extent b w) (hput : putChars { w with state := .NORMAL } room junk [126, 126] = .ok w') :
    Extent (b + 2) w' ∧ w'.curs.x = w.curs.x + 1 + 1 ∧ w'.width = w.width := by
  rw [← error_eq 0, tildes_eq (f := fun w => putCharAt room junk 1 w 126) rfl
    fun w hw => putChar_tilde hw 0] at hput
  obtain ⟨w₁, h₁, h₂⟩ := bind_eq_ok.mp hput
  have hstart : Extent b { w with state := .NORMAL } := h.congr rfl rfl
  obtain ⟨hone, hx, hwidth⟩ := hstart.addPrintableChar h₁
  obtain ⟨htwo, hx', hwidth'⟩ := hone.addPrintableChar h₂
  exact ⟨htwo, by rw [hx', hx], hwidth'.trans hwidth⟩

/-- A character between sequences. A backspace at the beginning of a line leads to the last column, of
which there is none in a window of no width. -/
theorem normal (h : Extent b w) (hb : 255 ≤ b) (hstate : w.state = .NORMAL)
    (hback : c = 8 → w.curs.x = 0 → w.width = 0 → 2 ^ 32 - 1 ≤ b) {depth : Nat}
    (hput : putCharAt room junk (depth + 2) w c = .ok w') : Extent (b + 4) w' ∧ w'.width = w.width := by
  have hle : b ≤ b + 4 := by omega
  rw [putCharAt] at hput
  simp only [hstate, error_eq] at hput
  split at hput
  · obtain rfl := Except.ok.inj hput
    exact ⟨(h.mono hle).congr rfl rfl, rfl⟩
  split at hput
  · obtain rfl := Except.ok.inj hput
    exact ⟨h.newLine.1.mono hle, h.newLine.2⟩
  split at hput
  · obtain ⟨hspaces, hwidth⟩ := h.spaces hput
    exact ⟨hspaces.mono (by omega), hwidth⟩
  split at hput
  · rename_i hc
    split at hput
    · rename_i hx
      obtain rfl := Except.ok.inj hput
      refine ⟨⟨?_, fun line hline => Nat.le_trans (h.lines line hline) hle⟩, rfl⟩
      dsimp only
      rw [UInt32.toNat_sub, UInt8.toNat_toUInt32]
      simp only [UInt32.reduceToNat]
      have hwidth := w.width.toNat_lt
      by_cases h0 : w.width = 0
      · have hfar := hback hc hx h0
        omega
      · have hpos : 0 < w.width.toNat := Nat.pos_of_ne_zero fun h => h0 (UInt8.toNat_inj.mp h)
        omega
    · rename_i hx
      obtain rfl := Except.ok.inj hput
      refine ⟨⟨?_, fun line hline => Nat.le_trans (h.lines line hline) hle⟩, rfl⟩
      have hcolumn := h.column
      have hpos : 0 < w.curs.x.toNat := Nat.pos_of_ne_zero fun h => hx (UInt32.toNat_inj.mp h)
      dsimp only
      rw [UInt32.toNat_sub]
      simp only [UInt32.reduceToNat]
      omega
  split at hput
  · obtain rfl := Except.ok.inj hput
    exact ⟨⟨Nat.zero_le _, fun line hline => Nat.le_trans (h.lines line hline) hle⟩, rfl⟩
  split at hput
  · obtain rfl := Except.ok.inj hput
    exact ⟨⟨Nat.le_trans h.column hle, fun line hline => Nat.le_trans (h.newLine.1.lines line hline) hle⟩,
      h.newLine.2⟩
  split at hput
  · obtain ⟨htildes, -, hwidth⟩ := h.tildes hput
    exact ⟨htildes.mono (by omega), hwidth⟩
  · obtain ⟨hone, -, hwidth⟩ := h.addPrintableChar hput
    exact ⟨hone.mono (by omega), hwidth⟩

/-- A broken sequence: a backspace that is read again is not at the beginning of a line. -/
theorem retry (h : Extent b w) (hb : 255 ≤ b) (hput : (do
      let w ← putChars { w with state := .NORMAL } room junk [126, 126]
      putCharAt room junk 2 w c) = .ok w') : Extent (b + 6) w' ∧ w'.width = w.width := by
  obtain ⟨w₁, h₁, h₂⟩ := bind_eq_ok.mp hput
  obtain ⟨htildes, hx, hwidth⟩ := h.tildes h₁
  have hcolumn := h.column
  obtain ⟨hnormal, hwidth'⟩ := htildes.normal (by omega) (tildes_frame h₁).1 (fun _ h0 _ => by
    rw [hx] at h0
    have h0' := congrArg UInt32.toNat h0
    rw [UInt32.toNat_add, UInt32.toNat_add] at h0'
    simp only [UInt32.reduceToNat] at h0'
    omega) h₂
  exact ⟨hnormal, hwidth'.trans hwidth⟩

theorem sgr (h : Extent b w) (hsgr : (w.SGR junk fun w =>
      putChars { w with state := .NORMAL } room junk [126, 126]) = .ok w') :
    Extent (b + 6) w' ∧ w'.width = w.width := by
  have herror : Ensures (putChars { w with state := .NORMAL } room junk [126, 126]) (fun _ => True)
      fun w' => Extent (b + 6) w' ∧ w'.width = w.width := by
    cases hputs : putChars { w with state := .NORMAL } room junk [126, 126] with
    | error e => trivial
    | ok w₁ =>
      obtain ⟨htildes, -, hwidth⟩ := h.tildes hputs
      exact ⟨htildes.mono (by omega), hwidth⟩
  exact (sgr_keeps (P := fun w' => Extent (b + 6) w' ∧ w'.width = w.width)
    (fun _ _ => ⟨(h.mono (Nat.le_add_right b 6)).congr rfl rfl, rfl⟩) herror).of_ok hsgr

end Extent

/-- The character is a backspace that would lead to the left of a line in a window of no width. -/
def BackOut (w : TextWindow) (c : Int8) : Prop :=
  w.state = .NORMAL ∧ c = 8 ∧ w.curs.x = 0 ∧ w.width = 0

theorem Extent.putChar (h : Extent b w) (hb : 255 ≤ b) (hback : ¬w.BackOut c)
    (hput : w.putChar room junk c = .ok w') : Extent (b + 6) w' ∧ w'.width = w.width := by
  unfold TextWindow.putChar at hput
  cases hstate : w.state with
  | NORMAL =>
    obtain ⟨hnormal, hwidth⟩ := h.normal hb hstate
      (fun hc hx h0 => absurd ⟨hstate, hc, hx, h0⟩ hback) hput
    exact ⟨hnormal.mono (by omega), hwidth⟩
  | WAITINGOB =>
    rw [putCharAt] at hput
    simp only [hstate, error_eq] at hput
    split at hput
    · exact h.retry hb hput
    · obtain ⟨r, _, hput⟩ := bind_eq_ok.mp hput
      obtain rfl := Except.ok.inj hput
      exact ⟨(h.mono (Nat.le_add_right b 6)).congr rfl rfl, rfl⟩
  | ESCAPE =>
    rw [putCharAt] at hput
    simp only [hstate, error_eq] at hput
    split at hput
    · exact h.retry hb hput
    split at hput
    · obtain ⟨n, _, hput⟩ := bind_eq_ok.mp hput
      obtain rfl := Except.ok.inj hput
      exact ⟨(h.mono (Nat.le_add_right b 6)).congr rfl rfl, rfl⟩
    split at hput
    · obtain ⟨r, _, hput⟩ := bind_eq_ok.mp hput
      obtain rfl := Except.ok.inj hput
      exact ⟨(h.mono (Nat.le_add_right b 6)).congr rfl rfl, rfl⟩
    split at hput
    · obtain ⟨w₁, hsgr, hput⟩ := bind_eq_ok.mp hput
      obtain rfl := Except.ok.inj hput
      obtain ⟨hextent, hwidth⟩ := h.sgr hsgr
      exact ⟨hextent.congr rfl rfl, hwidth⟩
    · exact h.retry hb hput

instance (w : TextWindow) (c : Int8) : Decidable (w.BackOut c) :=
  inferInstanceAs (Decidable (_ ∧ _ ∧ _ ∧ _))

/-- None of the characters is such a backspace when it is put. -/
def stays (room : Nat) (junk : Nat → UInt32) : TextWindow → List Int8 → Bool
  | _, [] => true
  | w, c :: chars =>
    decide (¬w.BackOut c) &&
      match w.putChar room junk c with
      | .ok w' => stays room junk w' chars
      | .error _ => true

theorem Extent.putChars (h : Extent b w) (hb : 255 ≤ b) {chars : List Int8}
    (hstays : stays room junk w chars = true) (hputs : w.putChars room junk chars = .ok w') :
    Extent (b + 6 * chars.length) w' ∧ w'.width = w.width := by
  induction chars generalizing w b with
  | nil => exact ⟨Except.ok.inj hputs ▸ h, by rw [← Except.ok.inj hputs]⟩
  | cons c chars ih =>
    rw [TextWindow.putChars, List.foldlM_cons] at hputs
    obtain ⟨w₁, h₁, h₂⟩ := bind_eq_ok.mp hputs
    rw [stays, h₁, Bool.and_eq_true, decide_eq_true_eq] at hstays
    obtain ⟨hone, hwidth⟩ := h.putChar hb hstays.1 h₁
    obtain ⟨hrest, hwidth'⟩ := ih hone (by omega) hstays.2 h₂
    exact ⟨hrest.mono (by rw [List.length_cons]; omega), hwidth'.trans hwidth⟩

namespace Whole

inductive Call
  | text (c : Command)
  | setOffset (v : Vec2u)

/-- `setSize` is that of the whole window. -/
def apply (w : Whole) : Call → Except Fault Whole
  | .text ⟨_, _, .setSize v⟩ => .ok (w.setSize v)
  | .text c => do
    let text ← w.toTextWindow.apply c
    return { w with toTextWindow := text }
  | .setOffset v => .ok (w.setOffset v)

/-- The number of characters that a call puts. -/
def count (w : Whole) : Call → Nat
  | .text c => (w.puts c.call).length
  | .setOffset _ => 0

/-- A window that is opened with this offset and size, with the number of characters that have been put
into it. -/
def machine (offset size : Vec2u) : Lib.Machine (Whole × Nat) Call Fault where
  start s := s = (new offset size, 0)
  admits _ _ := True
  apply s c := do return (← s.1.apply c, s.2 + s.1.count c)

/-- The window is given a height for its frame, and no character is a backspace to the left of a line. -/
def Careful (w : Whole) : Call → Prop
  | .text ⟨_, _, .setSize v⟩ => 2 ≤ v.y
  | .text c => stays c.room c.junk (w.entered c.call) (w.puts c.call) = true
  | .setOffset _ => True

/-- The quotient may lose its high bits. -/
theorem le_of_columns {n : UInt32} (hn : 2 ≤ n) (k : UInt32) :
    k.toNat * ((n - 2) / k).toUInt8.toNat + 2 ≤ n.toNat := by
  rw [UInt32.le_iff_toNat_le] at hn
  have hsub : (n - 2).toNat = n.toNat - 2 := UInt32.toNat_sub_of_le _ _ (UInt32.le_iff_toNat_le.mpr hn)
  have hquot := Nat.mul_div_le (n.toNat - 2) k.toNat
  have hmod := Nat.mod_le ((n.toNat - 2) / k.toNat) (2 ^ 8)
  have hmul := Nat.mul_le_mul_left k.toNat hmod
  rw [UInt32.toNat_toUInt8, UInt32.toNat_div, hsub]
  simp only [UInt32.reduceToNat] at hn
  omega

theorem fits_new {offset size : Vec2u} (hx : 2 ≤ size.x) (hy : 2 ≤ size.y) : (new offset size).Fits :=
  ⟨fun _ => le_of_columns hx 8, fun _ => le_of_columns hy 16⟩

theorem fits_setSize (w : Whole) {v : Vec2u} (hy : 2 ≤ v.y) : (w.setSize v).Fits := by
  refine ⟨fun hwidth => ?_, fun _ => le_of_columns hy 16⟩
  change (if v.x < 2 then 0 else ((v.x - 2) / 8).toUInt8) ≠ 0 at hwidth
  show 8 * (if v.x < 2 then 0 else ((v.x - 2) / 8).toUInt8).toNat + 2 ≤ v.x.toNat
  split
  · rename_i hx
    rw [if_pos hx] at hwidth
    exact absurd rfl hwidth
  · rename_i hx
    exact le_of_columns (UInt32.not_lt.mp hx) 8

theorem fits_text {w : Whole} (hw : w.Fits) {text : TextWindow} (hwidth : text.width = w.width) :
    Fits { w with toTextWindow := text } :=
  ⟨by dsimp only; rw [hwidth]; exact hw.width, hw.height⟩

/-- What every state has: the text fits into the window, and its extent is that of what has been put. -/
structure Inv (s : Whole × Nat) : Prop where
  fits : s.1.Fits
  extent : s.1.Extent (255 + 6 * s.2)

theorem inv_new {offset size : Vec2u} (hx : 2 ≤ size.x) (hy : 2 ≤ size.y) : Inv (new offset size, 0) := by
  refine ⟨fits_new hx hy, Nat.zero_le _, fun line hline => ?_⟩
  obtain rfl := List.mem_singleton.mp hline
  exact Nat.zero_le _

theorem Inv.apply {s s' : Whole × Nat} {offset size : Vec2u} {c : Call} (hs : Inv s)
    (hc : s.1.Careful c) (h : (machine offset size).apply s c = .ok s') : Inv s' := by
  obtain ⟨w', hw', hs'⟩ := bind_eq_ok.mp h
  obtain rfl := Except.ok.inj hs'
  have hb : 255 ≤ 255 + 6 * s.2 := Nat.le_add_right _ _
  have hputs {c : Command} {text : TextWindow} (hentered : (s.1.entered c.call).Extent (255 + 6 * s.2))
      (hwidth : (s.1.entered c.call).width = s.1.width)
      (hc : stays c.room c.junk (s.1.entered c.call) (s.1.puts c.call) = true)
      (htext : s.1.toTextWindow.apply c = .ok text) :
      Inv ({ s.1 with toTextWindow := text }, s.2 + (s.1.puts c.call).length) := by
    rw [apply_eq] at htext
    obtain ⟨hextent, hwidth'⟩ := hentered.putChars hb hc htext
    exact ⟨fits_text hs.fits (hwidth'.trans hwidth), hextent.mono (by dsimp only; omega)⟩
  match c, hc, hw' with
  | .setOffset v, _, hw' =>
    obtain rfl := Except.ok.inj hw'
    exact ⟨⟨hs.fits.width, hs.fits.height⟩, hs.extent⟩
  | .text ⟨_, _, .setSize v⟩, hc, hw' =>
    obtain rfl := Except.ok.inj hw'
    exact ⟨fits_setSize s.1 hc, hs.extent.congr rfl rfl⟩
  | .text ⟨room, junk, .write buf⟩, hc, hw' =>
    obtain ⟨text, htext, hw'⟩ := bind_eq_ok.mp hw'
    obtain rfl := Except.ok.inj hw'
    exact hputs hs.extent rfl hc htext
  | .text ⟨room, junk, .key sym⟩, hc, hw' =>
    obtain ⟨text, htext, hw'⟩ := bind_eq_ok.mp hw'
    obtain rfl := Except.ok.inj hw'
    obtain ⟨keyboardBuffer, hkey⟩ := s.1.entered_key sym
    refine hputs ?_ ?_ hc htext
    · dsimp only
      rw [hkey]
      exact hs.extent.congr rfl rfl
    · dsimp only
      rw [hkey]

instance (w : Whole) : (c : Call) → Decidable (w.Careful c)
  | .text ⟨_, _, .setSize v⟩ => inferInstanceAs (Decidable (2 ≤ v.y))
  | .text ⟨_, _, .write _⟩ => inferInstanceAs (Decidable (_ = true))
  | .text ⟨_, _, .key _⟩ => inferInstanceAs (Decidable (_ = true))
  | .setOffset _ => .isTrue trivial

end Whole

end TextWindow

end SupOS.Video
