import SupOS.Video.TextWindow
import SupOS.Descriptors.Counting

/-! The bounds of the line buffer of a text window and of its cursor, whatever is written to it. -/

namespace SupOS.Video

open Lib Libcpp

section Plain

variable {T : Type} {size room n : Nat} {value x : T} {v : Libcpp.Vector T}

theorem construct_plain (l : List T) : construct (plain size value).move l () = .ok (l, ()) := by
  induction l with
  | nil => rfl
  | cons x l ih =>
    simp only [construct, plain, ok_bind] at ih ⊢
    rw [ih]
    rfl

theorem strategy_noMemory (s : Nat) : Ensures (strategy s) NoMemory fun _ => True :=
  (strategy_spec s).mono (fun _ h => h) fun _ _ => trivial

theorem reserve_plain : Ensures (v.reserve (plain size value) room n ()) NoMemory
    fun r => r.1.data = v.data := by
  unfold Libcpp.Vector.reserve
  split
  · rfl
  · refine (strategy_noMemory n).bind fun capacity _ => ?_
    unfold allocate
    split
    · rw [ok_bind, construct_plain]
      rfl
    · exact .inl rfl

theorem pushBackMove_plain : Ensures (v.pushBackMove (plain size value) room x ()) NoMemory
    fun r => r.1.data = v.data ++ [x] := by
  refine reserve_plain.bind fun r hr => ?_
  simp only [plain, ok_bind, pure, Except.pure, Ensures.ok, hr]

theorem destroy_plain (l : List T) : destroy (plain size value) l () = .ok () := by
  induction l with
  | nil => rfl
  | cons x l ih =>
    rw [destroy, show (plain size value).destroy x () = .ok () from rfl, ok_bind, ih]

theorem resize_plain : Ensures (v.resize (plain size value) room n ()) NoMemory
    fun _ => True := by
  unfold Libcpp.Vector.resize
  split
  · trivial
  · split
    · rw [destroy_plain]
      trivial
    · exact reserve_plain.bind fun _ _ => trivial

end Plain

theorem Line.write_noMemory (line : Line) (room i : Nat) (fmc : FormatedChar) :
    Ensures (line.write room i fmc) NoMemory fun _ => True := by
  unfold Line.write
  split
  · exact resize_plain.bind fun _ _ => trivial
  · trivial

namespace TextWindow

/-- The buffer holds a line and at most `LineNum` of them, and the cursor is on one. -/
structure InLines (w : TextWindow) : Prop where
  some : 1 ≤ w.lineBuffer.length
  most : w.lineBuffer.length ≤ LineNum
  cursor : w.curs.y.toNat < w.lineBuffer.length

/-- The parser is on a number in an escape sequence. -/
structure Inv (w : TextWindow) : Prop extends InLines w where
  number : w.state = .ESCAPE → w.stack.data ≠ []

variable {w w' : TextWindow} {room : Nat} {junk : Nat → UInt32} {c : Int8}

/-- The lines and the cursor's line decide whether the cursor is in the buffer. -/
theorem InLines.congr (hw : w.InLines) (hlines : w'.lineBuffer.length = w.lineBuffer.length)
    (hy : w'.curs.y.toNat ≤ w.curs.y.toNat) : w'.InLines :=
  ⟨hlines ▸ hw.some, hlines ▸ hw.most, by rw [hlines]; exact Nat.lt_of_le_of_lt hy hw.cursor⟩

theorem toNat_succ {y : UInt32} (h : y.toNat < LineNum) : (y + 1).toNat = y.toNat + 1 := by
  rw [UInt32.toNat_add]
  exact Nat.mod_eq_of_lt (by rw [LineNum] at h; simp only [UInt32.toNat_one]; omega)

theorem InLines.newLine (hw : w.InLines) : w.newLine.InLines := by
  obtain ⟨hsome, hmost, hcursor⟩ := hw
  have hsucc := toNat_succ (Nat.lt_of_lt_of_le hcursor hmost)
  unfold TextWindow.newLine
  split
  · rename_i hlast
    rw [hsucc] at hlast
    split
    · have hlen : (w.lineBuffer.tail ++ [Line.new]).length = w.lineBuffer.length := by
        rw [List.length_append, List.length_tail, List.length_singleton]
        omega
      exact ⟨by rw [hlen]; exact hsome, by rw [hlen]; exact hmost, by rw [hlen]; exact hcursor⟩
    · rename_i hnotFull
      have hlen : (w.lineBuffer ++ [Line.new]).length = w.lineBuffer.length + 1 := by simp
      refine ⟨by rw [hlen]; omega, by rw [hlen]; omega, ?_⟩
      change (w.curs.y + 1).toNat < _
      rw [hsucc, hlen]
      omega
  · rename_i hlast
    rw [hsucc] at hlast
    refine ⟨hsome, hmost, ?_⟩
    change (w.curs.y + 1).toNat < w.lineBuffer.length
    omega

theorem newLine_state : w.newLine.state = w.state := by
  unfold newLine
  split
  · split <;> rfl
  · rfl

theorem InLines.addPrintableChar (hw : w.InLines) :
    Ensures (w.addPrintableChar room c) NoMemory fun w' => w'.InLines ∧ w'.state = w.state := by
  unfold TextWindow.addPrintableChar
  rw [List.getElem?_eq_getElem hw.cursor]
  exact (Line.write_noMemory _ _ _ _).bind fun line _ => ⟨hw.congr (by simp) (Nat.le_refl _), rfl⟩

theorem InLines.spaces (hw : w.InLines) (hstate : w.state = .NORMAL) (n : Nat) :
    Ensures ((List.replicate n (32 : Int8)).foldlM (fun w c => w.addPrintableChar room c) w)
      NoMemory fun w' => w'.InLines ∧ w'.state = .NORMAL := by
  induction n generalizing w with
  | zero => exact ⟨hw, hstate⟩
  | succ n ih =>
    rw [List.replicate_succ, List.foldlM_cons]
    exact hw.addPrintableChar.bind fun w' hw' => ih hw'.1 (hw'.2.trans hstate)

theorem getByNum_ok (bright : Bool) {val : Nat} (h : val < 8) :
    ∃ color, Color24.getByNum bright val = .ok color := by
  have hlen : (Color24.table bright).length = 8 := by cases bright <;> rfl
  rw [← hlen] at h
  exact ⟨_, by rw [Color24.getByNum, List.getElem?_eq_getElem h]⟩

theorem toNat_sub_lt {command : UInt32} (base : UInt32) (h : base ≤ command) (h' : command ≤ base + 7)
    (hbase : base.toNat < 100) : (command - base).toNat < 8 := by
  rw [UInt32.toNat_sub_of_le _ _ h]
  rw [UInt32.le_iff_toNat_le, UInt32.toNat_add] at h'
  simp only [UInt32.reduceToNat] at h'
  omega

/-- `SGR` changes the format and the brightness, or it reports an error. -/
theorem sgr_keeps {P : TextWindow → Prop} {E : Fault → Prop} {error : TextWindow → Except Fault TextWindow}
    (hkeep : ∀ cursFormat bright, P { w with cursFormat, bright }) (herror : Ensures (error w) E P) :
    Ensures (w.SGR junk error) E P := by
  have hcolor {val : Nat} (hval : val < 8) (f : Color24 → TextWindow) (hf : ∀ color, P (f color)) :
      Ensures (do return f (← Color24.getByNum w.bright val)) E P := by
    obtain ⟨color, hcolor⟩ := getByNum_ok w.bright hval
    rw [hcolor]
    exact hf color
  refine .ite (fun _ => hkeep _ _) fun _ => ?_
  refine .ite (fun _ => hkeep _ _) fun _ => ?_
  refine .ite (fun _ => hkeep _ _) fun _ => ?_
  refine .ite (fun _ => hkeep _ _) fun _ => ?_
  refine .ite (fun _ => hkeep _ _) fun _ => ?_
  refine .ite (fun _ => hkeep _ _) fun _ => ?_
  refine .ite (fun _ => hkeep _ _) fun _ => ?_
  refine .ite (fun h => hcolor (toNat_sub_lt 30 h.1 h.2 (by decide)) _ fun _ => hkeep _ _)
    fun _ => ?_
  refine .ite (fun _ => .ite (fun _ => herror) fun _ => .ite (fun _ => herror)
    fun _ => hkeep _ _) fun _ => ?_
  refine .ite (fun _ => hkeep _ _) fun _ => ?_
  refine .ite (fun h => hcolor (toNat_sub_lt 40 h.1 h.2 (by decide)) _ fun _ => hkeep _ _)
    fun _ => ?_
  refine .ite (fun _ => .ite (fun _ => herror) fun _ => .ite (fun _ => herror)
    fun _ => hkeep _ _) fun _ => ?_
  exact .ite (fun _ => hkeep _ _) fun _ => hkeep w.cursFormat w.bright

theorem InLines.sgr (hw : w.InLines) {error : TextWindow → Except Fault TextWindow}
    (herror : Ensures (error w) NoMemory InLines) : Ensures (w.SGR junk error) NoMemory InLines :=
  sgr_keeps (fun _ _ => hw.congr rfl (Nat.le_refl _)) herror

/-- `putChar('~')` between escape sequences. -/
theorem InLines.tilde (hw : w.InLines) (hstate : w.state = .NORMAL) (depth : Nat) :
    Ensures (putCharAt room junk (depth + 1) w 126) NoMemory
      fun w' => w'.InLines ∧ w'.state = .NORMAL := by
  unfold putCharAt
  simp only [hstate]
  exact hw.addPrintableChar.mono (fun _ h => h) fun w' h => ⟨h.1, h.2.trans hstate⟩

/-- `error`. -/
theorem InLines.error (hw : w.InLines) (depth : Nat) :
    Ensures (do
      let w ← putCharAt room junk (depth + 1) { w with state := .NORMAL } 126
      putCharAt room junk (depth + 1) w 126) NoMemory
      fun w' => w'.InLines ∧ w'.state = .NORMAL := by
  have hstart : ({ w with state := .NORMAL } : TextWindow).InLines := hw.congr rfl (Nat.le_refl _)
  exact (hstart.tilde rfl depth).bind fun w' hw' => hw'.1.tilde hw'.2 depth

/-- A character between escape sequences. -/
theorem InLines.normal (hw : w.InLines) (hstate : w.state = .NORMAL) (depth : Nat) :
    Ensures (putCharAt room junk (depth + 2) w c) NoMemory
      fun w' => w'.InLines ∧ w'.state ≠ .ESCAPE := by
  have hne {w' : TextWindow} (h : w'.InLines ∧ w'.state = .NORMAL) :
      w'.InLines ∧ w'.state ≠ .ESCAPE := ⟨h.1, by rw [h.2]; nofun⟩
  rw [putCharAt]
  simp only [hstate]
  split
  · exact ⟨hw.congr rfl (Nat.le_refl _), nofun⟩
  split
  · exact hne ⟨hw.newLine, newLine_state.trans hstate⟩
  split
  · exact (hw.spaces hstate _).mono (fun _ h => h) fun w' => hne
  split
  · split
    · refine hne ⟨hw.congr rfl ?_, rfl⟩
      change UInt32.toNat (if w.curs.y > 0 then w.curs.y - 1 else w.curs.y) ≤ w.curs.y.toNat
      split
      · rename_i hy
        have hpos : 1 ≤ w.curs.y := UInt32.le_iff_toNat_le.mpr (UInt32.lt_iff_toNat_lt.mp hy)
        rw [UInt32.toNat_sub_of_le _ _ hpos]
        exact Nat.sub_le ..
      · exact Nat.le_refl _
    · exact hne ⟨hw.congr rfl (Nat.le_refl _), rfl⟩
  split
  · exact hne ⟨hw.congr rfl (Nat.le_refl _), rfl⟩
  split
  · exact hne ⟨hw.newLine.congr rfl (Nat.le_refl _), newLine_state.trans hstate⟩
  split
  · exact (hw.error depth).mono (fun _ h => h) fun w' => hne
  · exact hw.addPrintableChar.mono (fun _ h => h) fun w' h => hne ⟨h.1, h.2.trans hstate⟩

theorem Inv.putChar (hw : w.Inv) : Ensures (w.putChar room junk c) NoMemory Inv := by
  have hlines := hw.toInLines
  have hinv {w' : TextWindow} (h : w'.InLines ∧ w'.state ≠ .ESCAPE) : w'.Inv :=
    ⟨h.1, fun h' => absurd h' h.2⟩
  -- after a broken sequence the character is read again
  have hretry : Ensures (do
      let w ← (do
        let w ← putCharAt room junk 2 { w with state := .NORMAL } 126
        putCharAt room junk 2 w 126)
      putCharAt room junk 2 w c) NoMemory Inv :=
    (hlines.error 1).bind fun w' hw' =>
      (hw'.1.normal hw'.2 0).mono (fun _ h => h) fun w'' => hinv
  unfold TextWindow.putChar
  cases hstate : w.state with
  | NORMAL => exact (hlines.normal hstate 1).mono (fun _ h => h) fun w' => hinv
  | WAITINGOB =>
    rw [putCharAt]
    simp only [hstate]
    split
    · exact hretry
    · refine pushBackMove_plain.bind fun r hr => ⟨hlines.congr rfl (Nat.le_refl _), fun _ => ?_⟩
      change r.1.data ≠ []
      rw [hr]
      simp
  | ESCAPE =>
    have hnumber := hw.number hstate
    rw [putCharAt]
    simp only [hstate]
    split
    · exact hretry
    split
    · have hback : ∃ n, w.back = .ok n := by
        rw [back, List.getLast?_eq_some_getLast hnumber]
        exact ⟨_, rfl⟩
      obtain ⟨n, hn⟩ := hback
      rw [hn]
      refine ⟨hlines.congr rfl (Nat.le_refl _), fun _ => ?_⟩
      change w.stack.data.dropLast ++ _ ≠ []
      simp
    split
    · refine pushBackMove_plain.bind fun r hr => ⟨hlines.congr rfl (Nat.le_refl _), fun _ => ?_⟩
      change r.1.data ≠ []
      rw [hr]
      simp
    split
    · refine (hlines.sgr ((hlines.error 1).mono (fun _ h => h) fun _ h => h.1)).bind fun w' hw' =>
        hinv ⟨hw'.congr rfl (Nat.le_refl _), nofun⟩
    · exact hretry

/-- What each character keeps, a sequence of characters keeps. -/
theorem Inv.putChars (hw : w.Inv) (buf : List Int8) :
    Ensures (w.putChars room junk buf) NoMemory Inv := by
  induction buf generalizing w with
  | nil => exact hw
  | cons c buf ih =>
    rw [TextWindow.putChars, List.foldlM_cons]
    exact hw.putChar.bind fun w' hw' => ih hw'

theorem Inv.apply (hw : w.Inv) (c : Command) : Ensures (w.apply c) NoMemory Inv := by
  have hbuffer (keyboardBuffer : List Int8) : ({ w with keyboardBuffer } : TextWindow).Inv :=
    ⟨hw.toInLines.congr rfl (Nat.le_refl _), hw.number⟩
  obtain ⟨room, junk, call⟩ := c
  cases call with
  | write buf =>
    have hloop : Ensures (w.write room junk buf) NoMemory fun r => r.2.Inv :=
      (hw.putChars _).bind fun w' hw' => hw'
    change Ensures ((·.2) <$> w.write room junk buf) NoMemory Inv
    cases hwrite : w.write room junk buf with
    | ok r => exact hloop.of_ok hwrite
    | error e => exact hloop.of_error hwrite
  | key sym =>
    refine .ite (fun _ => .ite (fun _ => hw) fun _ => (hbuffer _).putChars _) fun _ => ?_
    exact .ite (fun _ => (hbuffer _).putChar) fun _ => (hbuffer _).putChar
  | setSize v => exact ⟨hw.toInLines.congr rfl (Nat.le_refl _), hw.number⟩

theorem inv_new (size : Vec2u) : (new size).Inv :=
  ⟨⟨Nat.le_refl 1, show 1 ≤ LineNum by decide, Nat.zero_lt_one⟩, nofun⟩

def machine : Lib.Machine TextWindow Command Fault where
  start w := ∃ size, w = new size
  admits _ _ := True
  apply := apply

/-- After any calls, and after each character of what is written next, the line buffer is within its
bounds and the cursor in it; nothing but the memory for a line or for `_stack` stops a character. -/
theorem run_inLines (hr : machine.Run (fun _ _ => True) w) :
    w.InLines ∧ ∀ room junk buf, Ensures (w.putChars room junk buf) NoMemory InLines := by
  have hw : w.Inv := hr.invariant (fun w ⟨size, h⟩ => h ▸ inv_new size)
    fun w w' c hw _ _ h => (hw.apply c).of_ok h
  exact ⟨hw.toInLines, fun room junk buf =>
    (hw.putChars buf).mono (fun _ h => h) fun _ h => h.toInLines⟩

/-- A broken escape sequence, in a window of no width where a backspace leads far to the right. -/
theorem run_inLines_broken : ∃ w, machine.Run (fun _ _ => True) w ∧
    decide (w.lineBuffer.length = 2 ∧ w.curs = ⟨4294967295, 0⟩ ∧ w.state = .ESCAPE) = true ∧
    Ensures (w.putChars 4096 (fun _ => 0) [10]) NoMemory InLines := by
  obtain ⟨w, hr, hP⟩ := Machine.exists_run (M := machine) (C := fun _ _ => True)
    (fun _ _ (_ : true = true) => ⟨trivial, trivial⟩) ⟨⟨2, 2⟩, rfl⟩
    [⟨4096, fun _ => 0, .write [27, 91, 10]⟩, ⟨4096, fun _ => 0, .write [8, 27, 91, 51]⟩]
    (P := fun w => decide (w.lineBuffer.length = 2 ∧ w.curs = ⟨4294967295, 0⟩ ∧ w.state = .ESCAPE))
    (by decide +kernel)
  exact ⟨w, hr, hP, (run_inLines hr).2 _ _ _⟩

end TextWindow

end SupOS.Video
