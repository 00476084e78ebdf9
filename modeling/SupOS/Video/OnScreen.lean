import SupOS.Video.Workspace

/-! Windows on the screen: which calls keep every window within it, and what happens to a request that
would not. -/

namespace SupOS.Video

open Lib Libcpp

/-! ### The bounds of the mouse -/

theorem toInt_toInt32 {x : UInt32} (h : x.toNat < 2 ^ 31) : x.toInt32.toInt = x.toNat :=
  BitVec.toInt_eq_toNat_of_lt (x := x.toBitVec) (by change 2 * x.toNat < 2 ^ 32; omega)

theorem toInt_sub {s w : UInt32} (hs : s.toNat < 2 ^ 31) (hw : w.toNat ≤ s.toNat) :
    (s.toInt32 - w.toInt32).toInt = s.toNat - w.toNat := by
  rw [Int32.toInt_sub, toInt_toInt32 hs, toInt_toInt32 (Nat.lt_of_le_of_lt hw hs)]
  exact Int.bmod_eq_of_le (by omega) (by omega)

/-- A coordinate that is kept between a lower bound and the space that is left. -/
theorem clamp_add_le (low p : Int32) {s w : UInt32} (hs : s.toNat < 2 ^ 31) (hlow : 0 ≤ low)
    (h : w.toNat + low.toInt ≤ s.toNat) :
    w.toNat + (max low (min p (s.toInt32 - w.toInt32))).toUInt32.toNat ≤ s.toNat := by
  have hzero : 0 ≤ low.toInt := by
    rw [Int32.le_iff_toInt_le] at hlow
    exact hlow
  have hw : w.toNat ≤ s.toNat := by omega
  have hle : low ≤ s.toInt32 - w.toInt32 := by
    rw [Int32.le_iff_toInt_le, toInt_sub hs hw]
    omega
  have hmin : min p (s.toInt32 - w.toInt32) ≤ s.toInt32 - w.toInt32 := by
    change (if p ≤ _ then p else _) ≤ _
    split
    · assumption
    · exact Int32.le_refl _
  have hmax : max low (min p (s.toInt32 - w.toInt32)) ≤ s.toInt32 - w.toInt32 := by
    change (if low ≤ _ then _ else low) ≤ _
    split
    · exact hmin
    · exact hle
  have hpos : 0 ≤ max low (min p (s.toInt32 - w.toInt32)) := by
    change 0 ≤ if low ≤ _ then _ else low
    split
    · exact Int32.le_trans hlow ‹_›
    · exact hlow
  have hbound := Int32.toUInt32_le hpos hmax
  rw [UInt32.le_iff_toNat_le, Int32.toUInt32_sub, UInt32.toUInt32_toInt32, UInt32.toUInt32_toInt32,
    UInt32.toNat_sub_of_le _ _ hw] at hbound
  omega

namespace Screen

variable (screen : Screen)

theorem getSize_x : screen.getSize.x.toNat = screen.Xsize.toNat := UInt16.toNat_toUInt32 _

theorem getSize_y : screen.getSize.y.toNat = screen.Ysize.toNat := UInt16.toNat_toUInt32 _

theorem size_lt : screen.getSize.x.toNat < 2 ^ 31 ∧ screen.getSize.y.toNat < 2 ^ 31 := by
  have hx := screen.Xsize.toNat_lt
  have hy := screen.Ysize.toNat_lt
  rw [getSize_x, getSize_y]
  omega

end Screen

/-- The least window that the mouse makes, at this offset. -/
def Screen.Leaves (screen : Screen) (offset : Vec2u) : Prop :=
  offset.x.toNat + 10 ≤ screen.Xsize.toNat ∧ offset.y.toNat + 10 ≤ screen.Ysize.toNat

instance (screen : Screen) (offset : Vec2u) : Decidable (screen.Leaves offset) :=
  inferInstanceAs (Decidable (_ ∧ _))

namespace Workspace

variable {w : Workspace} {ws : Windows} {screen : Screen} {e : MouseEvent} {win : Window}

theorem within_move (h : screen.Within win.offset win.size) :
    screen.Within (w.move screen e win).offset (w.move screen e win).size := by
  obtain ⟨hx, hy⟩ := h
  rw [← Screen.getSize_x] at hx
  rw [← Screen.getSize_y] at hy
  have hboundx := clamp_add_le 0 (w.dragged e).x screen.size_lt.1 (Int32.le_refl 0)
    (show (win.size.x.toNat : Int) + (0 : Int32).toInt ≤ screen.getSize.x.toNat by
      change (win.size.x.toNat : Int) + 0 ≤ _
      omega)
  have hboundy := clamp_add_le 0 (w.dragged e).y screen.size_lt.2 (Int32.le_refl 0)
    (show (win.size.y.toNat : Int) + (0 : Int32).toInt ≤ screen.getSize.y.toNat by
      change (win.size.y.toNat : Int) + 0 ≤ _
      omega)
  rw [Screen.getSize_x, Nat.add_comm] at hboundx
  rw [Screen.getSize_y, Nat.add_comm] at hboundy
  exact ⟨hboundx, hboundy⟩

theorem within_resize (h : screen.Leaves win.offset) :
    screen.Within (w.resize screen e win).offset (w.resize screen e win).size := by
  obtain ⟨hx, hy⟩ := h
  rw [← Screen.getSize_x] at hx
  rw [← Screen.getSize_y] at hy
  have hboundx := clamp_add_le 10 (w.dragged e).x screen.size_lt.1 (by decide)
    (show (win.offset.x.toNat : Int) + (10 : Int32).toInt ≤ screen.getSize.x.toNat by
      change (win.offset.x.toNat : Int) + 10 ≤ _
      omega)
  have hboundy := clamp_add_le 10 (w.dragged e).y screen.size_lt.2 (by decide)
    (show (win.offset.y.toNat : Int) + (10 : Int32).toInt ≤ screen.getSize.y.toNat by
      change (win.offset.y.toNat : Int) + 10 ≤ _
      omega)
  rw [Screen.getSize_x] at hboundx
  rw [Screen.getSize_y] at hboundy
  exact ⟨hboundx, hboundy⟩

theorem within_drag (h : screen.Within win.offset win.size)
    (hresize : w.state = .RESIZING → screen.Leaves win.offset) :
    screen.Within (w.drag screen e win).offset (w.drag screen e win).size := by
  cases hstate : w.state with
  | NORMAL => simpa only [drag, hstate] using h
  | MOVING => simpa only [drag, hstate] using within_move h
  | RESIZING => simpa only [drag, hstate] using within_resize (hresize hstate)

/-- A mouse event resizes this window, which is in front: its right button is taken now, or was taken and
a button is still down. -/
def Resizes (w : Workspace) (e : MouseEvent) (a : Nat) : Prop :=
  w.superState = true ∧ e.get .LEFT .JUSTPRESSED = false ∧
    (e.get .RIGHT .JUSTPRESSED = true ∨ w.state = .RESIZING ∧ w.currentWindow = some a ∧
      (e.get .LEFT .PRESSED = true ∨ e.get .RIGHT .PRESSED = true))

instance (w : Workspace) (e : MouseEvent) (a : Nat) : Decidable (w.Resizes e a) :=
  inferInstanceAs (Decidable (_ ∧ _ ∧ _))

theorem updateState_spec : Ensures (w.updateState ws e) (fun _ => True) fun w' =>
    w'.wins = w.wins ∧ ∀ a, w'.empty = false → w'.state = .RESIZING → w'.superState = true →
      w'.currentWindow = some a → w.Resizes e a := by
  unfold updateState
  refine .ite (fun hsuper => ?_) fun hsuper => ?_
  · rw [Bool.and_eq_true, Bool.not_eq_true'] at hsuper
    refine .ite (fun _ => ?_) fun hleft => ?_
    · refine (Ensures.trivially _).bind fun a _ => (Ensures.trivially _).bind fun win _ => ?_
      exact ⟨rfl, nofun⟩
    have hleft := Bool.eq_false_of_not_eq_true hleft
    refine .ite (fun hright => ?_) fun hright => ?_
    · refine (Ensures.trivially _).bind fun a _ => (Ensures.trivially _).bind fun win _ => ?_
      exact ⟨rfl, fun _ _ _ _ _ => ⟨hsuper.1, hleft, .inl hright⟩⟩
    refine .ite (fun _ => ⟨rfl, nofun⟩) fun hdown => ?_
    have hdown : e.get .LEFT .PRESSED = true ∨ e.get .RIGHT .PRESSED = true := by
      cases hl : e.get .LEFT .PRESSED <;> cases hr : e.get .RIGHT .PRESSED <;> simp_all
    exact ⟨rfl, fun a _ hstate _ hcurrent => ⟨hsuper.1, hleft, .inr ⟨hstate, hcurrent, hdown⟩⟩⟩
  · refine ⟨rfl, fun a hempty _ hs _ => absurd ?_ hsuper⟩
    rw [hs, hempty]
    rfl

theorem target_eq_some {a : Nat} (h : w.target = .ok (some a)) :
    w.empty = false ∧ w.wins.front = .ok a ∧ w.currentWindow = some a ∧ w.superState = true := by
  unfold target at h
  split at h
  · cases h
  · obtain ⟨front, hfront, h⟩ := bind_eq_ok.mp h
    have h := Except.ok.inj h
    split at h
    · obtain rfl := Option.some.inj h
      exact ⟨Bool.eq_false_of_not_eq_true ‹_›, hfront, ‹_›⟩
    · cases h

end Workspace

namespace Desktop

/-- Every live window is within the screen. -/
def OnScreen (screen : Screen) (s : Desktop) : Prop :=
  s.screen = screen ∧ ∀ a w, s.windows a = some w → screen.Within w.offset w.size

/-- The sums of the components are less than 2 ^ 32. -/
def NoWrap (size offset : Vec2u) : Prop :=
  size.x.toNat + offset.x.toNat < 2 ^ 32 ∧ size.y.toNat + offset.y.toNat < 2 ^ 32

instance (size offset : Vec2u) : Decidable (NoWrap size offset) :=
  inferInstanceAs (Decidable (_ ∧ _))

/-- What `sysopenwin` and `sysopentwin` check. -/
def Opens (s : Desktop) (size offset workspace : UInt64) : Prop :=
  let botright := (Vec2u.ofU64 size).add (Vec2u.ofU64 offset)
  botright.x ≤ s.screen.getSize.x ∧ botright.y ≤ s.screen.getSize.y ∧
    workspace.toNat < Workspace.totalNumber

/-- What `sysresizewin` checks. -/
def ResizesTo (s : Desktop) (win : Option Nat) (size offset : UInt64) : Prop :=
  let botright := (Vec2u.ofU64 size).add (Vec2u.ofU64 offset)
  botright.x < s.screen.getSize.x ∧ botright.y < s.screen.getSize.y ∧ win.isSome = true

instance (s : Desktop) (size offset workspace : UInt64) : Decidable (s.Opens size offset workspace) :=
  inferInstanceAs (Decidable (_ ∧ _ ∧ _))

instance (s : Desktop) (win : Option Nat) (size offset : UInt64) :
    Decidable (s.ResizesTo win size offset) :=
  inferInstanceAs (Decidable (_ ∧ _ ∧ _))

/-- No request that passes the checks wraps around, and the mouse resizes no window whose offset is
within 10 of the screen's end. -/
def Careful (s : Desktop) : DesktopCall → Prop
  | .sysopenwin _ _ size offset workspace | .sysopentwin _ _ size offset workspace =>
    s.Opens size offset workspace → NoWrap (Vec2u.ofU64 size) (Vec2u.ofU64 offset)
  | .sysresizewin win size offset =>
    s.ResizesTo win size offset → NoWrap (Vec2u.ofU64 size) (Vec2u.ofU64 offset)
  | .handleEvent (.mouse e) =>
    ∀ a ∈ (s.elems s.active).wins.front.toOption, (s.elems s.active).Resizes e a →
      ∀ w ∈ s.windows a, s.screen.Leaves w.offset
  | _ => True

instance (s : Desktop) : (c : DesktopCall) → Decidable (s.Careful c)
  | .sysopenwin .. | .sysopentwin .. | .sysresizewin .. => inferInstanceAs (Decidable (_ → _))
  | .handleEvent (.mouse _) => inferInstanceAs (Decidable (∀ a ∈ _, _))
  | .handleEvent (.keyboard _) | .kernelWindow .. | .delete _ => .isTrue trivial

end Desktop

/-- The rectangle that a system call asks for. -/
def DesktopCall.asks : DesktopCall → Option (Vec2u × Vec2u)
  | .sysopenwin _ _ size offset _ | .sysopentwin _ _ size offset _ | .sysresizewin _ size offset =>
    some (.ofU64 offset, .ofU64 size)
  | _ => none

namespace Desktop

section Steps

variable {screen : Screen} {s : Desktop} {room : Nat}

theorem OnScreen.setWindow (h : OnScreen screen s) {a : Nat} {w : Option Window}
    (hw : ∀ w' ∈ w, screen.Within w'.offset w'.size) : OnScreen screen (s.setWindow a w) := by
  refine ⟨h.1, fun b w' hb => ?_⟩
  change Function.update s.windows a w b = some w' at hb
  by_cases hba : b = a
  · subst hba
    rw [Function.update_self] at hb
    exact hw w' hb
  · rw [Function.update_of_ne hba] at hb
    exact h.2 b w' hb

theorem OnScreen.at (h : OnScreen screen s) (a : Nat) :
    Ensures (s.windows.at a) (fun _ => True) fun w =>
      s.windows a = some w ∧ screen.Within w.offset w.size := by
  unfold Windows.at
  split
  · rename_i w hw
    exact ⟨hw, h.2 a w hw⟩
  · trivial

/-- A window whose number of workspace is set. -/
theorem OnScreen.setWs (h : OnScreen screen s) {a i : Nat} {w : Window}
    (hw : screen.Within w.offset w.size) :
    OnScreen screen (s.setWindow a (some { w with ws := i })) :=
  h.setWindow fun w' hw' => by
    obtain rfl := Option.some.inj hw'
    exact hw

theorem OnScreen.handleMouse (h : OnScreen screen s) {e : MouseEvent} {i : Nat}
    (hresize : ∀ a ∈ (s.elems i).wins.front.toOption, (s.elems i).Resizes e a →
      ∀ w ∈ s.windows a, screen.Leaves w.offset) :
    Ensures (s.handleMouse room e i) (fun _ => True) (OnScreen screen) := by
  refine Workspace.updateState_spec.bind fun w hw => ?_
  cases htarget : w.target with
  | error _ => trivial
  | ok target =>
    rw [ok_bind]
    cases target with
    | none => exact (Ensures.trivially _).bind fun w' _ => h
    | some a =>
      obtain ⟨hempty, hfront, hcurrent, hsuper⟩ := Workspace.target_eq_some htarget
      refine (h.at a).bind fun win hwin => (Ensures.trivially _).bind fun w' _ => ?_
      refine h.setWindow fun win' hwin' => ?_
      obtain rfl := Option.some.inj hwin'
      rw [h.1]
      refine Workspace.within_drag hwin.2 fun hstate => ?_
      rw [hw.1] at hfront
      exact hresize a (by rw [hfront]; rfl) (hw.2 a hempty hstate hsuper hcurrent) win hwin.1

theorem OnScreen.moveFront (h : OnScreen screen s) {i : Nat} :
    Ensures (s.moveFront room i) (fun _ => True) (OnScreen screen) := by
  unfold Desktop.moveFront
  refine .ite (fun _ => h) fun _ => ?_
  refine (Ensures.trivially _).bind fun win _ => (Ensures.trivially _).bind fun d _ =>
    (Ensures.trivially _).bind fun d' _ => ?_
  exact (OnScreen.at (s := (s.setElem _ _).setElem _ _) h win).bind fun w hw => OnScreen.setWs h hw.2

theorem OnScreen.addWin (h : OnScreen screen s) {i a : Nat} :
    Ensures (s.addWin room i a) (fun _ => True) (OnScreen screen) := by
  refine (Ensures.trivially _).bind fun target _ => (Ensures.trivially _).bind fun _ _ =>
    (h.at a).bind fun w hw => ?_
  refine .ite (fun _ => trivial) fun _ => (Ensures.trivially _).bind fun d _ => ?_
  exact OnScreen.setWs h hw.2

theorem OnScreen.destroy (h : OnScreen screen s) {a : Nat} :
    Ensures (s.destroy a) (fun _ => True) (OnScreen screen) := by
  refine (Ensures.trivially _).bind fun w _ => (Ensures.trivially _).bind fun _ _ =>
    (Ensures.trivially _).bind fun _ _ => (Ensures.trivially _).bind fun _ _ => ?_
  exact OnScreen.setWindow h nofun

theorem OnScreen.handleEvent (h : OnScreen screen s) {e : Event} (hc : s.Careful (.handleEvent e)) :
    Ensures (s.handleEvent room e) (fun _ => True) (OnScreen screen) := by
  cases e with
  | mouse e =>
    refine (Ensures.trivially _).bind fun _ _ => h.handleMouse ?_
    rw [← h.1]
    exact hc
  | keyboard k =>
    have honMe : Ensures (do let _ ← s.get s.active; s.handleEventOnMe room (.keyboard k) s.active)
        (fun _ => True) (OnScreen screen) :=
      (Ensures.trivially _).bind fun _ _ => (Ensures.trivially _).bind fun _ _ => h
    refine .ite (fun _ => .ite (fun _ => ?_) fun _ => .ite (fun _ => h) fun _ => honMe) fun _ => honMe
    exact .ite (fun _ => h.moveFront) fun _ => h

/-- The sums that do not wrap are those of the check. -/
theorem within_of_noWrap {size offset : Vec2u} (hwrap : NoWrap size offset)
    (hx : (size.add offset).x ≤ screen.getSize.x) (hy : (size.add offset).y ≤ screen.getSize.y) :
    screen.Within offset size := by
  have hsumx : (size.x + offset.x).toNat = size.x.toNat + offset.x.toNat := by
    rw [UInt32.toNat_add, Nat.mod_eq_of_lt hwrap.1]
  have hsumy : (size.y + offset.y).toNat = size.y.toNat + offset.y.toNat := by
    rw [UInt32.toNat_add, Nat.mod_eq_of_lt hwrap.2]
  have hlex : (size.x + offset.x).toNat ≤ screen.getSize.x.toNat := UInt32.le_iff_toNat_le.mp hx
  have hley : (size.y + offset.y).toNat ≤ screen.getSize.y.toNat := UInt32.le_iff_toNat_le.mp hy
  rw [Screen.getSize_x, hsumx, Nat.add_comm] at hlex
  rw [Screen.getSize_y, hsumy, Nat.add_comm] at hley
  exact ⟨hlex, hley⟩

/-- A request is refused, or it passes the checks. -/
theorem openWindow_cases (s : Desktop) (fd win : Nat) (size offset workspace : UInt64) :
    s.openWindow room fd win size offset workspace = .ok (s, errno EINVAL) ∨
      s.Opens size offset workspace ∧ s.openWindow room fd win size offset workspace = do
        return (← (s.setWindow win (some (.new (.ofU64 offset) (.ofU64 size)))).addWin room
          workspace.toNat win, fd) := by
  unfold openWindow
  by_cases hx : ((Vec2u.ofU64 size).add (Vec2u.ofU64 offset)).x > s.screen.getSize.x
  · exact .inl (if_pos hx)
  by_cases hy : ((Vec2u.ofU64 size).add (Vec2u.ofU64 offset)).y > s.screen.getSize.y
  · exact .inl ((if_neg hx).trans (if_pos hy))
  by_cases hworkspace : workspace.toNat ≥ Workspace.totalNumber
  · exact .inl ((if_neg hx).trans ((if_neg hy).trans (if_pos hworkspace)))
  · refine .inr ⟨⟨UInt32.not_lt.mp hx, UInt32.not_lt.mp hy, Nat.lt_of_not_le hworkspace⟩, ?_⟩
    exact (if_neg hx).trans ((if_neg hy).trans (if_neg hworkspace))

theorem sysresizewin_cases (s : Desktop) (win : Option Nat) (size offset : UInt64) :
    s.sysresizewin win size offset = .ok (s, errno EINVAL) ∨
      s.sysresizewin win size offset = .ok (s, errno EBADF) ∨
      ∃ a, win = some a ∧ s.ResizesTo win size offset ∧ s.sysresizewin win size offset = do
        let w ← s.windows.at a
        return (s.setWindow a (some { w with size := .ofU64 size, offset := .ofU64 offset }), 0) := by
  unfold sysresizewin
  by_cases hx : ((Vec2u.ofU64 size).add (Vec2u.ofU64 offset)).x ≥ s.screen.getSize.x
  · exact .inl (if_pos hx)
  by_cases hy : ((Vec2u.ofU64 size).add (Vec2u.ofU64 offset)).y ≥ s.screen.getSize.y
  · exact .inl ((if_neg hx).trans (if_pos hy))
  cases win with
  | none => exact .inr (.inl ((if_neg hx).trans (if_neg hy)))
  | some a =>
    refine .inr (.inr ⟨a, rfl, ⟨UInt32.not_le.mp hx, UInt32.not_le.mp hy, rfl⟩, ?_⟩)
    exact (if_neg hx).trans (if_neg hy)

theorem OnScreen.openWindow (h : OnScreen screen s) {fd win : Nat} {size offset workspace : UInt64}
    (hc : s.Opens size offset workspace → NoWrap (.ofU64 size) (.ofU64 offset)) :
    Ensures (s.openWindow room fd win size offset workspace) (fun _ => True)
      fun r => OnScreen screen r.1 := by
  obtain hrefused | ⟨hopens, haccepted⟩ := s.openWindow_cases fd win size offset workspace
  · rw [hrefused]
    exact h
  · rw [haccepted]
    have hwithin := within_of_noWrap (hc hopens) hopens.1 hopens.2.1
    rw [h.1] at hwithin
    refine (OnScreen.addWin (h.setWindow fun w hw => ?_)).bind fun s' hs' => hs'
    obtain rfl := Option.some.inj hw
    exact hwithin

theorem OnScreen.sysresizewin (h : OnScreen screen s) {win : Option Nat} {size offset : UInt64}
    (hc : s.ResizesTo win size offset → NoWrap (.ofU64 size) (.ofU64 offset)) :
    Ensures (s.sysresizewin win size offset) (fun _ => True) fun r => OnScreen screen r.1 := by
  obtain hrefused | hrefused | ⟨a, -, hresizes, haccepted⟩ := s.sysresizewin_cases win size offset
  · rw [hrefused]
    exact h
  · rw [hrefused]
    exact h
  · rw [haccepted]
    have hwithin := within_of_noWrap (hc hresizes) (UInt32.le_of_lt hresizes.1)
      (UInt32.le_of_lt hresizes.2.1)
    rw [h.1] at hwithin
    refine (h.at a).bind fun w _ => h.setWindow fun w' hw' => ?_
    obtain rfl := Option.some.inj hw'
    exact hwithin

/-- A call that is admitted and meets the condition keeps every window on the screen. -/
theorem OnScreen.apply (h : OnScreen screen s) {c : DesktopCall} (ha : s.Admits c)
    (hc : s.Careful c) : Ensures (s.apply room c) (fun _ => True) fun r => OnScreen screen r.1 := by
  cases c with
  | sysopenwin fd win size offset workspace => exact h.openWindow hc
  | sysopentwin fd win size offset workspace => exact h.openWindow hc
  | sysresizewin win size offset => exact h.sysresizewin hc
  | kernelWindow win offset size i =>
    refine (OnScreen.addWin (h.setWindow fun w hw => ?_)).bind fun s' hs' => hs'
    obtain rfl := Option.some.inj hw
    exact h.1 ▸ ha.2.2.2
  | delete win => exact h.destroy.bind fun s' hs' => hs'
  | handleEvent e => exact (h.handleEvent hc).bind fun s' hs' => hs'

/-- A request for a rectangle that is not within the screen is refused, and changes nothing. -/
theorem OnScreen.refuses (h : OnScreen screen s) {c : DesktopCall} (hc : s.Careful c)
    {offset size : Vec2u} (hasks : c.asks = some (offset, size)) (hout : ¬screen.Within offset size) :
    s.apply room c = .ok (s, errno EINVAL) ∨ s.apply room c = .ok (s, errno EBADF) := by
  have hopen (fd win : Nat) (size' offset' workspace : UInt64)
      (hc : s.Opens size' offset' workspace → NoWrap (.ofU64 size') (.ofU64 offset'))
      (hasks : some (Vec2u.ofU64 offset', Vec2u.ofU64 size') = some (offset, size)) :
      s.openWindow room fd win size' offset' workspace = .ok (s, errno EINVAL) := by
    obtain ⟨rfl, rfl⟩ := Prod.mk.inj (Option.some.inj hasks)
    refine (s.openWindow_cases fd win size' offset' workspace).resolve_right fun hopens => hout ?_
    rw [← h.1]
    exact within_of_noWrap (hc hopens.1) hopens.1.1 hopens.1.2.1
  cases c with
  | sysopenwin fd win size' offset' workspace => exact .inl (hopen _ _ _ _ _ hc hasks)
  | sysopentwin fd win size' offset' workspace => exact .inl (hopen _ _ _ _ _ hc hasks)
  | sysresizewin win size' offset' =>
    obtain hrefused | hrefused | ⟨a, -, hresizes, -⟩ := s.sysresizewin_cases win size' offset'
    · exact .inl hrefused
    · exact .inr hrefused
    · obtain ⟨rfl, rfl⟩ := Prod.mk.inj (Option.some.inj hasks)
      refine absurd (within_of_noWrap (hc hresizes) (UInt32.le_of_lt hresizes.1)
        (UInt32.le_of_lt hresizes.2.1)) ?_
      rw [h.1]
      exact hout
  | kernelWindow win offset size i => cases hasks
  | delete win => cases hasks
  | handleEvent e => cases hasks

end Steps

/-- In every state of a run whose calls meet the condition, every live window is within the screen, and a
system call that asks for a rectangle that is not returns an error and changes nothing. -/
theorem run_onScreen {screen : Screen} {s : Desktop}
    (hr : (machine screen).Run (fun s c => s.Careful c.2) s) :
    OnScreen screen s ∧ ∀ room c offset size, s.Careful c → c.asks = some (offset, size) →
      ¬screen.Within offset size →
        s.apply room c = .ok (s, errno EINVAL) ∨ s.apply room c = .ok (s, errno EBADF) := by
  have hscreen : OnScreen screen s := by
    refine hr.invariant ?_ fun s s' c hs ha hc happly => ?_
    · rintro s rfl
      exact ⟨rfl, nofun⟩
    · obtain ⟨r, hr, hs'⟩ := bind_eq_ok.mp happly
      obtain rfl := Except.ok.inj hs'
      exact (hs.apply ha.2 hc).of_ok hr
  exact ⟨hscreen, fun room c offset size hc hasks hout => hscreen.refuses hc hasks hout⟩

/-- A window that the mouse has moved to the corner of the screen, and a larger one than that is left. -/
theorem run_onScreen_corner : ∃ s, (machine ⟨640, 480⟩).Run (fun s c => s.Careful c.2) s ∧
    decide ((s.windows 4096).map (·.offset) = some ⟨540, 380⟩) = true ∧ OnScreen ⟨640, 480⟩ s := by
  have hcheck (s : Desktop) (c : Nat × DesktopCall)
      (hc : decide ((c.1 < kernelSpace ∧ s.Admits c.2) ∧ s.Careful c.2) = true) :
      (machine ⟨640, 480⟩).admits s c ∧ s.Careful c.2 :=
    of_decide_eq_true (p := (c.1 < kernelSpace ∧ s.Admits c.2) ∧ s.Careful c.2) hc
  obtain ⟨s, hs, hP⟩ := Machine.exists_run (M := machine ⟨640, 480⟩) hcheck rfl
    [(4096, .sysopenwin 3 4096 0x0000006400000064 0x0000000a0000000a 0),
      (4096, .handleEvent (.keyboard ⟨false, false, true, false, 91, false⟩)),
      (4096, .handleEvent (.mouse ⟨20, 20, 1, 1⟩)), (4096, .handleEvent (.mouse ⟨639, 479, 1, 0⟩))]
    (P := fun s => decide ((s.windows 4096).map (·.offset) = some ⟨540, 380⟩)) (by decide +kernel)
  exact ⟨s, hs, hP, (run_onScreen hs).1⟩

/-- The right end of the window that is asked for wraps around to 0. -/
theorem window_wraps : ¬∀ (screen : Screen) (s : Desktop),
    (machine screen).Run (fun _ _ => True) s → OnScreen screen s := by
  intro hall
  have hcheck (s : Desktop) (c : Nat × DesktopCall)
      (hc : decide (c.1 < kernelSpace ∧ s.Admits c.2) = true) :
      (machine ⟨640, 480⟩).admits s c ∧ True :=
    ⟨of_decide_eq_true (p := c.1 < kernelSpace ∧ s.Admits c.2) hc, trivial⟩
  obtain ⟨s, hs, hP⟩ := Machine.exists_run (M := machine ⟨640, 480⟩) hcheck rfl
    [(4096, .sysopenwin 3 4096 0x00000001ffffffff 0x0000000000000001 0)]
    (P := fun s => decide (s.windows 4096 = some ⟨0, ⟨1, 0⟩, ⟨0xffffffff, 1⟩⟩)) (by decide +kernel)
  have hwin := of_decide_eq_true hP
  exact absurd ((hall _ s hs).2 4096 _ hwin) (by decide)

end Desktop

end SupOS.Video
