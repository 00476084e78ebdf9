import SupOS.Video.Send
import SupOS.Video.OnScreen

/-! Where a text window draws: inside its own rectangle when its columns and rows fit in, and without
stopping the kernel when the rectangle is on the screen. -/

namespace SupOS.Video

open Lib Libcpp

variable {α β : Type} {x : Draw α} {f : α → Draw β} {P : Vec2u → Prop} {E : Fault → Prop} {Q Q' : α → Prop}
  {R : β → Prop}

/-- Only pixels in `P` are drawn, whether it ends with a value in `Q` or with an error in `E`. -/
def Draws (x : Draw α) (P : Vec2u → Prop) (E : Fault → Prop) (Q : α → Prop) : Prop :=
  ∀ drawn, (∃ pixels, (x.run.run drawn).2 = drawn ++ pixels ∧ ∀ p ∈ pixels, P p) ∧
    Ensures (x.run.run drawn).1 E Q

namespace Draws

theorem pure {a : α} (h : Q a) : Draws (Pure.pure a : Draw α) P E Q :=
  fun _ => ⟨⟨[], (List.append_nil _).symm, fun _ hp => by cases hp⟩, h⟩

theorem throw {e : Fault} (h : E e) : Draws (MonadExcept.throw e : Draw α) P E Q :=
  fun _ => ⟨⟨[], (List.append_nil _).symm, fun _ hp => by cases hp⟩, h⟩

theorem plot {pixels : List Vec2u} (h : ∀ p ∈ pixels, P p) : Draws (Video.plot pixels) P E fun _ => True :=
  fun _ => ⟨⟨pixels, rfl, h⟩, trivial⟩

theorem lift {y : Except Fault α} (h : Ensures y E Q) : Draws (liftM y : Draw α) P E Q := by
  cases y with
  | ok a => exact pure (a := a) h
  | error e => exact throw (e := e) h

theorem bind (h : Draws x P E Q) (hf : ∀ a, Q a → Draws (f a) P E R) : Draws (x >>= f) P E R := by
  intro drawn
  obtain ⟨⟨pixels, hpixels, hin⟩, hresult⟩ := h drawn
  have hrun : (x >>= f).run.run drawn =
      (ExceptT.bindCont f (x.run.run drawn).1).run (x.run.run drawn).2 := rfl
  rw [hrun, hpixels]
  cases hx : (x.run.run drawn).1 with
  | error e =>
    rw [hx] at hresult
    exact ⟨⟨pixels, rfl, hin⟩, hresult⟩
  | ok a =>
    rw [hx] at hresult
    obtain ⟨⟨pixels', hpixels', hin'⟩, hresult'⟩ := hf a hresult (drawn ++ pixels)
    refine ⟨⟨pixels ++ pixels', ?_, fun p hp => (List.mem_append.mp hp).elim (hin p) (hin' p)⟩, hresult'⟩
    rw [← List.append_assoc]
    exact hpixels'

theorem ite {c : Prop} [Decidable c] {y : Draw α} (hx : c → Draws x P E Q) (hy : ¬c → Draws y P E Q) :
    Draws (if c then x else y) P E Q := by
  by_cases hc : c
  · rw [if_pos hc]
    exact hx hc
  · rw [if_neg hc]
    exact hy hc

/-- A loop with enough rounds ends. -/
theorem forLoop {limit : UInt32} {body : UInt32 → Draw Unit} {rounds : Nat} {i : UInt32}
    (hrounds : limit.toNat - i.toNat ≤ rounds)
    (h : ∀ j, i ≤ j → j < limit → Draws (body j) P E fun _ => True) :
    Draws (Video.forLoop limit body rounds i) P E fun _ => True := by
  induction rounds generalizing i with
  | zero =>
    refine .ite (fun hlt => ?_) fun _ => .pure trivial
    have hlt' := UInt32.lt_iff_toNat_lt.mp hlt
    omega
  | succ rounds ih =>
    refine .ite (fun hlt => ?_) fun _ => .pure trivial
    have hlt' := UInt32.lt_iff_toNat_lt.mp hlt
    have hsucc : (i + 1).toNat = i.toNat + 1 := by
      rw [UInt32.toNat_add, UInt32.toNat_one, Nat.mod_eq_of_lt]
      have := limit.toNat_lt
      omega
    refine (h i (UInt32.le_refl i) hlt).bind fun _ _ => ih (by omega) fun j hj => h j ?_
    rw [UInt32.le_iff_toNat_le] at hj ⊢
    omega

end Draws

/-! ### The rectangle of a window -/

/-- The coordinates of the pixel, counted from the offset, are less than the size. -/
def Inside (offset size p : Vec2u) : Prop := p.x - offset.x < size.x ∧ p.y - offset.y < size.y

instance (offset size p : Vec2u) : Decidable (Inside offset size p) := inferInstanceAs (Decidable (_ ∧ _))

/-- In a rectangle that does not wrap around these are the pixels between its sides. -/
theorem inside_iff {offset size p : Vec2u} (hx : offset.x.toNat + size.x.toNat ≤ 2 ^ 32)
    (hy : offset.y.toNat + size.y.toNat ≤ 2 ^ 32) : Inside offset size p ↔
      (offset.x.toNat ≤ p.x.toNat ∧ p.x.toNat < offset.x.toNat + size.x.toNat) ∧
      (offset.y.toNat ≤ p.y.toNat ∧ p.y.toNat < offset.y.toNat + size.y.toNat) := by
  have hside {p o n : UInt32} (h : o.toNat + n.toNat ≤ 2 ^ 32) :
      p - o < n ↔ o.toNat ≤ p.toNat ∧ p.toNat < o.toNat + n.toNat := by
    have hp := p.toNat_lt
    have ho := o.toNat_lt
    rw [UInt32.lt_iff_toNat_lt, UInt32.toNat_sub]
    omega
  exact and_congr (hside hx) (hside hy)

theorem inside_add {offset size : Vec2u} {dx dy : UInt32} (hx : dx < size.x) (hy : dy < size.y) :
    Inside offset size ⟨offset.x + dx, offset.y + dy⟩ := by
  have hcancel (a b : UInt32) : a + b - a = b := by rw [UInt32.add_comm, UInt32.add_sub_cancel]
  exact ⟨by rwa [hcancel], by rwa [hcancel]⟩

theorem clear_draws (offset size : Vec2u) :
    Draws (Screen.clear offset size) (Inside offset size) E fun _ => True := by
  refine .forLoop ?_ fun y hle hlt => .plot fun p hp => ?_
  · rw [UInt32.toNat_add]
    omega
  · obtain ⟨k, hk, rfl⟩ := List.mem_map.mp hp
    rw [List.mem_range, UInt32.toNat_mul] at hk
    rw [UInt32.le_iff_toNat_le] at hle
    rw [UInt32.lt_iff_toNat_lt, UInt32.toNat_add] at hlt
    have hx : UInt32.ofNat k < size.x := by
      rw [UInt32.lt_iff_toNat_lt, UInt32.toNat_ofNat']
      simp only [UInt32.reduceToNat] at hk
      omega
    have hy : y - offset.y < size.y := by
      rw [UInt32.lt_iff_toNat_lt, UInt32.toNat_sub]
      omega
    have hinside : Inside offset size _ := inside_add hx hy
    rwa [UInt32.add_comm offset.y, UInt32.sub_add_cancel] at hinside

namespace TextWindow.Whole

variable {w : Whole} {screen : Screen}

/-- The columns and the rows fit into the rectangle. -/
structure Fits (w : Whole) : Prop where
  width : w.width ≠ 0 → 8 * w.width.toNat + 2 ≤ w.size.x.toNat
  height : w.height ≠ 0 → 16 * w.height.toNat + 2 ≤ w.size.y.toNat

/-- A rectangle that is not on the screen stops the kernel at an assertion or at an invalid pixel. -/
def OffScreen (w : Whole) (screen : Screen) (e : Fault) : Prop :=
  ¬screen.Within w.offset w.size ∧ (e = .assertion ∨ e = .bsod "drawing at %d %d invalid")

/-- A place of the text. -/
def Cell (w : Whole) (pos : Vec2u) : Prop :=
  pos.x.toNat < w.width.toNat ∧ pos.y.toNat < w.height.toNat

/-- A sum of coordinates that stays on the screen. -/
theorem lt_of_within {o p d limit : UInt32} {n : Nat} (hd : p.toNat * n + d.toNat < limit.toNat - o.toNat)
    (hn : n < 2 ^ 32) : o + p * UInt32.ofNat n + d < limit := by
  have hlimit := limit.toNat_lt
  rw [UInt32.lt_iff_toNat_lt, UInt32.toNat_add, UInt32.toNat_add, UInt32.toNat_mul,
    UInt32.toNat_ofNat_of_lt' hn]
  rw [Nat.mod_eq_of_lt (a := p.toNat * n) (by omega)]
  omega

section Cell

variable (hw : w.Fits) {pos : Vec2u} (hpos : w.Cell pos)

include hw hpos

/-- The pixels of a place, its frame of one pixel included. -/
theorem cell_bounds : pos.x.toNat * 8 + 9 < w.size.x.toNat ∧ pos.y.toNat * 16 + 17 < w.size.y.toNat := by
  obtain ⟨hx, hy⟩ := hpos
  have hwidth := hw.width fun h => by
    rw [h] at hx
    exact Nat.not_lt_zero _ hx
  have hheight := hw.height fun h => by
    rw [h] at hy
    exact Nat.not_lt_zero _ hy
  omega

theorem inside_cell {dx dy : UInt32} (hdx : dx.toNat ≤ 8) (hdy : dy.toNat ≤ 16) :
    Inside w.offset w.size ⟨w.offset.x + pos.x * 8 + dx, w.offset.y + pos.y * 16 + dy⟩ := by
  obtain ⟨hx, hy⟩ := cell_bounds hw hpos
  rw [UInt32.add_assoc, UInt32.add_assoc]
  refine inside_add ?_ ?_
  · rw [UInt32.lt_iff_toNat_lt, UInt32.toNat_add, UInt32.toNat_mul]
    simp only [UInt32.reduceToNat]
    omega
  · rw [UInt32.lt_iff_toNat_lt, UInt32.toNat_add, UInt32.toNat_mul]
    simp only [UInt32.reduceToNat]
    omega

theorem putChar_draws : Draws (screen.putChar (w.offset.x + pos.x * 8 + 1) (w.offset.y + pos.y * 16 + 1))
    (Inside w.offset w.size) (w.OffScreen screen) fun _ => True := by
  obtain ⟨hx, hy⟩ := cell_bounds hw hpos
  have hassert {c : Prop} [Decidable c] (hc : screen.Within w.offset w.size → c) :
      Ensures (assert (decide c)) (w.OffScreen screen) fun _ => True := by
    by_cases h : c
    · rw [decide_eq_true h]
      trivial
    · rw [decide_eq_false h]
      exact ⟨fun hwithin => h (hc hwithin), .inl rfl⟩
  refine (Draws.lift (hassert fun hwithin => ?_)).bind fun _ _ =>
    (Draws.lift (hassert fun hwithin => ?_)).bind fun _ _ => .plot fun p hp => ?_
  · have hright := hwithin.1
    have hsum : w.offset.x + pos.x * UInt32.ofNat 8 + 9 < screen.getSize.x := by
      refine lt_of_within ?_ (by decide)
      rw [Screen.getSize_x]
      simp only [UInt32.reduceToNat]
      omega
    rw [UInt32.add_assoc _ 1 8]
    exact hsum
  · have hbottom := hwithin.2
    have hsum : w.offset.y + pos.y * UInt32.ofNat 16 + 17 < screen.getSize.y := by
      refine lt_of_within ?_ (by decide)
      rw [Screen.getSize_y]
      simp only [UInt32.reduceToNat]
      omega
    rw [UInt32.add_assoc _ 1 16]
    exact hsum
  · obtain ⟨i, hi, hp⟩ := List.mem_flatMap.mp hp
    obtain ⟨j, hj, rfl⟩ := List.mem_map.mp hp
    rw [List.mem_range] at hi hj
    rw [UInt32.add_assoc _ 1, UInt32.add_assoc _ 1]
    refine inside_cell hw hpos ?_ ?_
    · rw [UInt32.toNat_add, UInt32.toNat_ofNat']
      simp only [UInt32.reduceToNat]
      omega
    · rw [UInt32.toNat_add, UInt32.toNat_ofNat']
      simp only [UInt32.reduceToNat]
      omega

theorem drawFMC_draws (fmc : FormatedChar) :
    Draws (w.drawFMC screen pos fmc) (Inside w.offset w.size) (w.OffScreen screen) fun _ => True := by
  refine (putChar_draws hw hpos).bind fun _ _ => .ite (fun _ => ?_) fun _ => .pure trivial
  refine .forLoop (by decide) fun k _ hk => ?_
  rw [UInt32.lt_iff_toNat_lt] at hk
  simp only [UInt32.reduceToNat] at hk
  obtain ⟨hx, hy⟩ := cell_bounds hw hpos
  have hdx : (1 + k).toNat ≤ 8 := by
    rw [UInt32.toNat_add]
    simp only [UInt32.reduceToNat]
    omega
  rw [UInt32.add_assoc _ 1]
  refine .ite (fun hout => .throw ⟨fun hwithin => ?_, .inr rfl⟩) fun _ =>
    .ite (fun hout => .throw ⟨fun hwithin => ?_, .inr rfl⟩) fun _ => .plot fun p hp => ?_
  · refine absurd (lt_of_within (n := 8) ?_ (by decide)) (UInt32.not_lt.mpr hout)
    rw [Screen.getSize_x]
    have hright := hwithin.1
    omega
  · refine absurd (lt_of_within (n := 16) ?_ (by decide)) (UInt32.not_lt.mpr hout)
    rw [Screen.getSize_y]
    have hbottom := hwithin.2
    simp only [UInt32.reduceToNat]
    omega
  · obtain rfl := List.mem_singleton.mp hp
    exact inside_cell hw hpos hdx (by decide)

end Cell

/-! ### The loops of `send` -/

theorem totalHeight_le (w : Whole) {lines : List Line} {height : UInt32}
    (h : height.toNat ≤ w.height.toNat) : (w.totalHeight lines height).toNat ≤ w.height.toNat := by
  induction lines generalizing height with
  | nil => exact h
  | cons line lines ih =>
    unfold totalHeight
    split
    · rw [UInt8.toNat_toUInt32]
    · rename_i hlt
      have hlt' := UInt32.lt_iff_toNat_lt.mp (UInt32.not_le.mp hlt)
      rw [UInt8.toNat_toUInt32] at hlt'
      exact ih (Nat.le_of_lt hlt')

/-- The rows of a line begin inside it. -/
theorem startx_lt {line : Line} {i : UInt32} (hwidth : w.width ≠ 0) (hi : i < w.rows line) :
    ((w.rows line - 1 - i) * w.width.toUInt32).toNat < line.data.size := by
  have hpos : 0 < w.width.toNat := Nat.pos_of_ne_zero fun h => hwidth (UInt8.toNat_inj.mp h)
  have hi' := UInt32.lt_iff_toNat_lt.mp hi
  have hrows : (w.rows line).toNat ≤ (line.data.size + w.width.toNat - 1) / w.width.toNat := by
    rw [rows, UInt32.toNat_ofNat']
    exact Nat.mod_le _ _
  have hquot := Nat.div_mul_le_self (line.data.size + w.width.toNat - 1) w.width.toNat
  have hall := Nat.mul_le_mul_right w.width.toNat hrows
  have hindex : (w.rows line - 1 - i).toNat ≤ (w.rows line).toNat - 1 := by
    rw [UInt32.toNat_sub, UInt32.toNat_sub]
    simp only [UInt32.reduceToNat]
    have hlt := (w.rows line).toNat_lt
    omega
  have hstart := Nat.mul_le_mul_right w.width.toNat hindex
  rw [Nat.sub_mul, Nat.one_mul] at hstart
  have hone := Nat.mul_le_mul_right w.width.toNat (show 1 ≤ (w.rows line).toNat by omega)
  rw [UInt32.toNat_mul, UInt8.toNat_toUInt32]
  refine Nat.lt_of_le_of_lt (Nat.mod_le _ _) ?_
  omega

theorem sendRow_draws (hw : w.Fits) {line : Line} {startx height : UInt32}
    (hstart : startx.toNat < line.data.size) (hheight : height ≠ 0)
    (hle : height.toNat ≤ w.height.toNat) :
    Draws (w.sendRow screen line startx height) (Inside w.offset w.size) (w.OffScreen screen)
      fun _ => True := by
  have hpos : 0 < height.toNat := Nat.pos_of_ne_zero fun h => hheight (UInt32.toNat_inj.mp h)
  refine .forLoop (by omega) fun x _ hx => ?_
  have hcolumns : x.toNat < w.width.toNat ∧ x.toNat < line.data.size - startx.toNat := by
    have hleft : (UInt32.ofNat (usub line.data.size startx.toNat)).toNat ≤ line.data.size - startx.toNat := by
      rw [UInt32.toNat_ofNat', usub, u64]
      omega
    change x < if _ ≤ _ then _ else _ at hx
    split at hx
    all_goals
      rename_i hmin
      rw [UInt32.le_iff_toNat_le, UInt8.toNat_toUInt32] at hmin
      rw [UInt32.lt_iff_toNat_lt] at hx
    · rw [UInt8.toNat_toUInt32] at hx
      omega
    · omega
  have hindex : (startx + x).toNat < line.data.size := by
    rw [UInt32.toNat_add]
    omega
  have hchar : Draws (charAt line (startx + x)) (Inside w.offset w.size) (w.OffScreen screen)
      fun _ => True := by
    unfold charAt
    rw [List.getElem?_eq_getElem (by exact hindex)]
    exact .pure trivial
  have hcell : w.Cell ⟨x, height - 1⟩ := by
    refine ⟨hcolumns.1, ?_⟩
    dsimp only
    rw [UInt32.toNat_sub]
    simp only [UInt32.reduceToNat]
    omega
  exact hchar.bind fun fmc _ => drawFMC_draws hw hcell fmc

theorem sendLine_draws (hw : w.Fits) (hwidth : w.width ≠ 0) {line : Line} {rounds : Nat}
    {i height : UInt32} (hrounds : (w.rows line).toNat - i.toNat ≤ rounds)
    (hle : height.toNat ≤ w.height.toNat) :
    Draws (w.sendLine screen line rounds i height) (Inside w.offset w.size) (w.OffScreen screen)
      fun r => ∀ height' ∈ r, height'.toNat ≤ w.height.toNat := by
  induction rounds generalizing i height with
  | zero =>
    refine .ite (fun hlt => ?_) fun _ => .pure ?_
    · have hlt' := UInt32.lt_iff_toNat_lt.mp hlt
      omega
    · rintro height' h
      rwa [← Option.some.inj h]
  | succ rounds ih =>
    refine .ite (fun hlt => ?_) fun _ => .pure ?_
    · refine .ite (fun _ => .pure fun _ h => by cases h) fun hheight => ?_
      refine (sendRow_draws hw (startx_lt hwidth hlt) hheight hle).bind fun _ _ => ih ?_ ?_
      · have hlt' := UInt32.lt_iff_toNat_lt.mp hlt
        have hrows := (w.rows line).toNat_lt
        rw [UInt32.toNat_add]
        simp only [UInt32.reduceToNat]
        omega
      · have hpos : 0 < height.toNat := Nat.pos_of_ne_zero fun h => hheight (UInt32.toNat_inj.mp h)
        rw [UInt32.toNat_sub]
        simp only [UInt32.reduceToNat]
        omega
    · rintro height' h
      rwa [← Option.some.inj h]

theorem sendLines_draws (hw : w.Fits) (hwidth : w.width ≠ 0) {lines : List Line} {height : UInt32}
    (hle : height.toNat ≤ w.height.toNat) :
    Draws (w.sendLines screen lines height) (Inside w.offset w.size) (w.OffScreen screen)
      fun _ => True := by
  induction lines generalizing height with
  | nil => exact .pure trivial
  | cons line lines ih =>
    refine (sendLine_draws hw hwidth (by simp) hle).bind fun r hr => ?_
    cases r with
    | none => exact .pure trivial
    | some height' => exact ih (hr height' rfl)

/-- `send` ends, and draws inside the window. -/
theorem send_draws (hw : w.Fits) (screen : Screen) :
    Draws (w.send screen) (Inside w.offset w.size) (w.OffScreen screen) fun _ => True := by
  refine (clear_draws w.offset w.size).bind fun _ _ => .ite (fun _ => .pure trivial) fun hwidth => ?_
  exact sendLines_draws hw hwidth (totalHeight_le w (Nat.zero_le _))

end TextWindow.Whole

end SupOS.Video
