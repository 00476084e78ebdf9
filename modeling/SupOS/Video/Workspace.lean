import SupOS.Errno
import SupOS.Descriptors.Counting
import SupOS.Libcpp.Deque
import SupOS.Lib.Machine
import SupOS.Video.TextWindow

/-! The windows of `Graphics/Window.cpp`, the workspaces of `Graphics/Workspace.cpp` that list them, and
the system calls of `User/Syscalls.cpp` that make and resize them. -/

namespace SupOS.Video

open Lib Libcpp

/-- `Vec2i`. -/
structure Vec2i where
  x : Int32
  y : Int32
  deriving DecidableEq, Repr

namespace Vec2u

/-- The vector that is packed in a `u64`. -/
def ofU64 (u : UInt64) : Vec2u := ⟨(u &&& ((1 : UInt64) <<< 32 - 1)).toUInt32, (u >>> 32).toUInt32⟩

def add (v w : Vec2u) : Vec2u := ⟨v.x + w.x, v.y + w.y⟩

def toVec2i (v : Vec2u) : Vec2i := ⟨v.x.toInt32, v.y.toInt32⟩

end Vec2u

namespace Vec2i

def add (v w : Vec2i) : Vec2i := ⟨v.x + w.x, v.y + w.y⟩

def sub (v w : Vec2i) : Vec2i := ⟨v.x - w.x, v.y - w.y⟩

def toVec2u (v : Vec2i) : Vec2u := ⟨v.x.toUInt32, v.y.toUInt32⟩

end Vec2i

structure Screen where
  Xsize : UInt16
  Ysize : UInt16
  deriving DecidableEq, Repr

def Screen.getSize (s : Screen) : Vec2u := ⟨s.Xsize.toUInt32, s.Ysize.toUInt32⟩

/-! ### Events -/

/-- The scan code of a key, and what the keyboard's state says of the modifiers. -/
structure KeyCode where
  lShift : Bool
  rShift : Bool
  lWin : Bool
  rWin : Bool
  code : UInt8
  release : Bool
  deriving DecidableEq, Repr

namespace Keyboard

def TAB : UInt8 := 15
def SPACE : UInt8 := 57
def F1 : UInt8 := 59
def F10 : UInt8 := 68

end Keyboard

inductive Button
  | LEFT
  | RIGHT
  | MIDDLE
  deriving DecidableEq, Repr

inductive ButtonState
  | PRESSED
  | CHANGED
  | JUSTPRESSED
  | JUSTRELEASED
  deriving DecidableEq, Repr

structure MouseEvent where
  x : UInt16
  y : UInt16
  pressed : UInt8
  changed : UInt8
  deriving DecidableEq, Repr

namespace MouseEvent

variable (e : MouseEvent)

def get (b : Button) (s : ButtonState) : Bool :=
  let v := match s with
    | .PRESSED => e.pressed
    | .CHANGED => e.changed
    | .JUSTPRESSED => e.pressed &&& e.changed
    | .JUSTRELEASED => ~~~e.pressed &&& e.changed
  let bit : UInt8 := match b with
    | .LEFT => (1 : UInt8) <<< 0
    | .RIGHT => (1 : UInt8) <<< 1
    | .MIDDLE => (1 : UInt8) <<< 2
  decide (v &&& bit ≠ 0)

/-- The position as a `Vec2u`. -/
def pos : Vec2u := ⟨e.x.toUInt32, e.y.toUInt32⟩

end MouseEvent

inductive Event
  | keyboard (kcode : KeyCode)
  | mouse (mousec : MouseEvent)
  deriving DecidableEq, Repr

/-! ### Windows and workspaces -/

structure Window where
  ws : Nat
  offset : Vec2u
  size : Vec2u
  deriving DecidableEq, Repr

/-- `Window(offset, size)`, whose workspace is `-1`. -/
def Window.new (offset size : Vec2u) : Window := ⟨2 ^ 32 - 1, offset, size⟩

def Window.isInside (w : Window) (point : Vec2u) : Bool :=
  decide (point.x ≥ w.offset.x) && decide (point.y ≥ w.offset.y) &&
    decide (point.x < w.offset.x + w.size.x) && decide (point.y < w.offset.y + w.size.y)

/-- The live windows by their addresses. -/
abbrev Windows := Nat → Option Window

/-- An access to a window. -/
def Windows.at (ws : Windows) (win : Nat) : Except Fault Window :=
  match ws win with
  | some w => .ok w
  | none => .error .dangling

/-- A call of `handleEvent`: a window keeps the event for its program, or edits its input. -/
def Windows.handleEvent (ws : Windows) (win : Nat) : Except Fault Unit := do
  let _ ← ws.at win
  return ()

inductive WorkspaceState
  | NORMAL
  | MOVING
  | RESIZING
  deriving DecidableEq, Repr

structure Workspace where
  wins : Deque Nat
  superState : Bool
  state : WorkspaceState
  currentWindow : Option Nat
  startMousePos : Vec2i
  startWindow : Vec2i

namespace Workspace

/-- `_totalNumber`. -/
def totalNumber : Nat := 10

def init : Workspace := ⟨.empty, false, .NORMAL, none, ⟨0, 0⟩, ⟨0, 0⟩⟩

/-- `_wins.empty()`. -/
def empty (w : Workspace) : Bool := decide (w.wins.endIndex = w.wins.begIndex)

variable (room : Nat) (ws : Windows)

def cycle (w : Workspace) : Except Fault Workspace :=
  if w.empty then .ok w
  else do
    let tmp ← w.wins.front
    let wins ← w.wins.popFront
    let wins ← wins.pushBack room 8 (.value tmp)
    if wins.size > 1 then
      ws.handleEvent (← wins.front)
      ws.handleEvent tmp
      return { w with wins }
    else return { w with wins }

/-- The keys that cycle through the windows. -/
def cycleOn (k : KeyCode) (w : Workspace) : Except Fault Workspace :=
  if (k.lWin || k.rWin) && decide (k.code = Keyboard.TAB) && !k.release then w.cycle room ws
  else .ok w

/-- What is left of the state when the keyboard's is known. -/
def setSuper (k : KeyCode) (w : Workspace) : Workspace :=
  if k.lWin || k.rWin then { w with superState := true }
  else { w with superState := false, state := .NORMAL }

/-- `handleEventOnMe` of a key. -/
def handleKey (k : KeyCode) (w : Workspace) : Except Fault Workspace := do
  let w ← w.cycleOn room ws k
  let w := w.setSuper k
  if w.empty then return w
  else
    ws.handleEvent (← w.wins.front)
    return w

/-- The part of `handleEventOnMe` under the comment "Update state". -/
def updateState (e : MouseEvent) (w : Workspace) : Except Fault Workspace :=
  if w.superState && !w.empty then
    if e.get .LEFT .JUSTPRESSED then do
      let currentWindow ← w.wins.front
      let win ← ws.at currentWindow
      return { w with
        state := .MOVING
        currentWindow := some currentWindow
        startMousePos := e.pos.toVec2i
        startWindow := win.offset.toVec2i }
    else if e.get .RIGHT .JUSTPRESSED then do
      let currentWindow ← w.wins.front
      let win ← ws.at currentWindow
      return { w with
        state := .RESIZING
        currentWindow := some currentWindow
        startMousePos := e.pos.toVec2i
        startWindow := win.size.toVec2i }
    else if !e.get .LEFT .PRESSED && !e.get .RIGHT .PRESSED then
      .ok { w with state := .NORMAL, currentWindow := none }
    else .ok w
  else .ok w

/-- The window that a mouse event moves or resizes, in the state after the update. -/
def target (w : Workspace) : Except Fault (Option Nat) :=
  if w.empty then .ok none
  else do
    let front ← w.wins.front
    return if w.currentWindow = some front ∧ w.superState = true then some front else none

/-- Where the mouse has moved what it had taken. -/
def dragged (e : MouseEvent) (w : Workspace) : Vec2i :=
  (w.startWindow.sub w.startMousePos).add e.pos.toVec2i

/-- The window moved to where the mouse is. -/
def move (screen : Screen) (e : MouseEvent) (w : Workspace) (win : Window) : Window :=
  let newPos := w.dragged e
  let winSize := win.size.toVec2i
  let screenSize := screen.getSize.toVec2i
  let newPos : Vec2i := ⟨max 0 (min newPos.x (screenSize.x - winSize.x)),
    max 0 (min newPos.y (screenSize.y - winSize.y))⟩
  { win with offset := newPos.toVec2u }

/-- The window resized to where the mouse is. -/
def resize (screen : Screen) (e : MouseEvent) (w : Workspace) (win : Window) : Window :=
  let newSize := w.dragged e
  let winOff := win.offset.toVec2i
  let screenSize := screen.getSize.toVec2i
  let newSize : Vec2i := ⟨max 10 (min newSize.x (screenSize.x - winOff.x)),
    max 10 (min newSize.y (screenSize.y - winOff.y))⟩
  { win with size := newSize.toVec2u }

/-- What a mouse event does to the window that it moves or resizes. -/
def drag (screen : Screen) (e : MouseEvent) (w : Workspace) (win : Window) : Window :=
  match w.state with
  | .NORMAL => win
  | .MOVING => w.move screen e win
  | .RESIZING => w.resize screen e win

/-- The first window of the list that the mouse is on. -/
def inside (point : Vec2u) : List Nat → Except Fault (Option Nat)
  | [] => .ok none
  | a :: wins => do
    let w ← ws.at a
    if w.isInside point then return some a
    else inside point wins

/-- The loop that brings a window to the front; `fuel` bounds its rounds. -/
def rotate (win : Nat) : Nat → Deque Nat → Except Fault (Deque Nat)
  | 0, wins => do
    let w ← wins.front
    if w = win then return wins
    else .error .diverges
  | fuel + 1, wins => do
    let w ← wins.front
    if w = win then return wins
    else
      let wins ← wins.popFront
      let wins ← wins.pushBack room 8 (.value w)
      rotate win fuel wins

/-- A button that is pressed on a window brings it to the front. -/
def raise (e : MouseEvent) (win : Nat) (wins : Deque Nat) : Except Fault (Deque Nat) :=
  if e.pressed &&& e.changed ≠ 0 then rotate room win wins.size wins else .ok wins

/-- The part of `handleEventOnMe` that gives the event to the window under the mouse. -/
def click (e : MouseEvent) (w : Workspace) : Except Fault Workspace := do
  match ← inside ws e.pos (← w.wins.elements) with
  | none => return w
  | some win =>
    let wins ← raise room e win w.wins
    ws.handleEvent win
    return { w with wins }

/-- The loop of `remWin` from an index; `fuel` bounds its rounds. -/
def find (wins : Deque Nat) (win : Nat) : Nat → Nat → Except Fault Nat
  | 0, it => if it = wins.endIndex then .ok it else .error .diverges
  | fuel + 1, it =>
    if it = wins.endIndex then .ok it
    else do
      let w ← wins.object it
      if w = win then return it
      else find wins win fuel (wins.incr it)

/-- The call of `erase` returns nothing, and its value is not used. -/
def remWin (win : Nat) (w : Workspace) : Except Fault Workspace := do
  let it ← find w.wins win w.wins.capacity w.wins.begIndex
  assert (decide (it ≠ w.wins.endIndex))
  let wins ← w.wins.eraseAt id it (← umod (u64 (it + 1)) w.wins.capacity)
  return { w with wins }

end Workspace

/-! ### All of the desktop -/

structure Desktop where
  screen : Screen
  windows : Windows
  elems : Nat → Workspace
  active : Nat
  currentKeymap : Nat

namespace Desktop

/-- The desktop after `Workspace::init`. -/
def init (screen : Screen) : Desktop := ⟨screen, fun _ => none, fun _ => .init, 0, 0⟩

variable (s : Desktop)

def setElem (i : Nat) (w : Workspace) : Desktop :=
  { s with elems := Function.update s.elems i w }

def setWins (i : Nat) (wins : Deque Nat) : Desktop := s.setElem i { s.elems i with wins }

def setWindow (win : Nat) (w : Option Window) : Desktop :=
  { s with windows := Function.update s.windows win w }

/-- `Workspace::get`. -/
def get (i : Nat) : Except Fault Workspace := do
  assert (decide (i < Workspace.totalNumber))
  return s.elems i

/-- `handleEventOnMe` of a mouse event: the window that is moved or resized, then the one under the
mouse. -/
def handleMouse (room : Nat) (e : MouseEvent) (i : Nat) : Except Fault Desktop := do
  let w ← (s.elems i).updateState s.windows e
  match ← w.target with
  | none =>
    let w ← Workspace.click room s.windows e { w with state := .NORMAL }
    return s.setElem i w
  | some a =>
    let win ← s.windows.at a
    let s := s.setWindow a (some (w.drag s.screen e win))
    let w ← w.click room s.windows e
    return s.setElem i w

def handleEventOnMe (room : Nat) (e : Event) (i : Nat) : Except Fault Desktop :=
  match e with
  | .keyboard k => do return s.setElem i (← (s.elems i).handleKey room s.windows k)
  | .mouse e => s.handleMouse room e i

/-- The window in front goes to a workspace, which may be the one that it is on. -/
def moveFront (room workspaceNum : Nat) : Except Fault Desktop :=
  if (s.elems s.active).empty then .ok s
  else do
    let win ← (s.elems s.active).wins.front
    let s := s.setWins s.active (← (s.elems s.active).wins.popFront)
    let s := s.setWins workspaceNum
      (← (s.elems workspaceNum).wins.pushFront room 8 (.value win))
    let w ← s.windows.at win
    return s.setWindow win (some { w with ws := workspaceNum })

def handleEvent (room : Nat) (e : Event) : Except Fault Desktop := do
  let onMe : Except Fault Desktop := do
    let _ ← s.get s.active
    s.handleEventOnMe room e s.active
  match e with
  | .mouse _ => onMe
  | .keyboard k =>
    if (k.lWin || k.rWin) && !k.release then
      if k.code ≥ Keyboard.F1 && k.code ≤ Keyboard.F10 then
        let workspaceNum := (k.code.toNat - Keyboard.F1.toNat + 1) % 10
        if k.lShift || k.rShift then s.moveFront room workspaceNum
        else return { s with active := workspaceNum }
      else if k.code = Keyboard.SPACE then
        return { s with currentKeymap := (s.currentKeymap + 1) % 3 }
      else onMe
    else onMe

/-- `Workspace::get(i).addWin(win)`. -/
def addWin (room i win : Nat) : Except Fault Desktop := do
  let target ← s.get i
  assert (decide (win ≠ 0))
  let w ← s.windows.at win
  let botright := w.offset.add w.size
  if !(botright.x ≤ s.screen.getSize.x && botright.y ≤ s.screen.getSize.y) then .error (.bsod "hjl")
  else
    let s := s.setWins i (← target.wins.pushFront room 8 (.value win))
    return s.setWindow win (some { w with ws := i })

/-- `~Window`. -/
def destroy (win : Nat) : Except Fault Desktop := do
  let w ← s.windows.at win
  assert (decide (w.ws ≠ 2 ^ 32 - 1))
  let elem ← (← s.get w.ws).remWin win
  return (s.setElem w.ws elem).setWindow win none

/-- The body of `sysopenwin` and `sysopentwin`, which make a window at an address for a free
descriptor. -/
def openWindow (room fd win : Nat) (size offset workspace : UInt64) :
    Except Fault (Desktop × Nat) :=
  let vSize := Vec2u.ofU64 size
  let vOffset := Vec2u.ofU64 offset
  let botright := vSize.add vOffset
  if botright.x > s.screen.getSize.x then .ok (s, errno EINVAL)
  else if botright.y > s.screen.getSize.y then .ok (s, errno EINVAL)
  else if workspace.toNat ≥ Workspace.totalNumber then .ok (s, errno EINVAL)
  else do
    let s := s.setWindow win (some (.new vOffset vSize))
    return (← s.addWin room workspace.toNat win, fd)

def sysopenwin := s.openWindow

def sysopentwin := s.openWindow

/-- `win` is the window of the descriptor, if the descriptor is one of a window. -/
def sysresizewin (win : Option Nat) (size offset : UInt64) : Except Fault (Desktop × Nat) :=
  let vSize := Vec2u.ofU64 size
  let vOffset := Vec2u.ofU64 offset
  let botright := vSize.add vOffset
  if botright.x ≥ s.screen.getSize.x then .ok (s, errno EINVAL)
  else if botright.y ≥ s.screen.getSize.y then .ok (s, errno EINVAL)
  else
    match win with
    | none => .ok (s, errno EBADF)
    | some a => do
      let w ← s.windows.at a
      return (s.setWindow a (some { w with size := vSize, offset := vOffset }), 0)

end Desktop

/-- What happens to the desktop. -/
inductive DesktopCall
  | sysopenwin (fd win : Nat) (size offset workspace : UInt64)
  | sysopentwin (fd win : Nat) (size offset workspace : UInt64)
  | sysresizewin (win : Option Nat) (size offset : UInt64)
  /-- A window that the kernel makes for itself. -/
  | kernelWindow (win : Nat) (offset size : Vec2u) (i : Nat)
  | delete (win : Nat)
  | handleEvent (e : Event)

/-- The sums of the components do not pass the screen. -/
def Screen.Within (screen : Screen) (offset size : Vec2u) : Prop :=
  offset.x.toNat + size.x.toNat ≤ screen.Xsize.toNat ∧
    offset.y.toNat + size.y.toNat ≤ screen.Ysize.toNat

instance (screen : Screen) (offset size : Vec2u) : Decidable (screen.Within offset size) :=
  inferInstanceAs (Decidable (_ ∧ _))

namespace Desktop

def apply (room : Nat) (s : Desktop) : DesktopCall → Except Fault (Desktop × Nat)
  | .sysopenwin fd win size offset workspace => s.sysopenwin room fd win size offset workspace
  | .sysopentwin fd win size offset workspace => s.sysopentwin room fd win size offset workspace
  | .sysresizewin win size offset => s.sysresizewin win size offset
  | .kernelWindow win offset size i => do
    return (← (s.setWindow win (some (.new offset size))).addWin room i win, 0)
  | .delete win => do return (← s.destroy win, 0)
  | .handleEvent e => do return (← s.handleEvent room e, 0)

/-- A window is made at a fresh address, the kernel's own on the screen and on a workspace; what a
descriptor names and what is deleted is a live window. -/
def Admits (s : Desktop) : DesktopCall → Prop
  | .sysopenwin _ win _ _ _ | .sysopentwin _ win _ _ _ => win ≠ 0 ∧ s.windows win = none
  | .sysresizewin win _ _ => ∀ a ∈ win, s.windows a ≠ none
  | .kernelWindow win offset size i => win ≠ 0 ∧ s.windows win = none ∧ i < Workspace.totalNumber ∧
      s.screen.Within offset size
  | .delete win => s.windows win ≠ none
  | .handleEvent _ => True

instance (s : Desktop) (c : DesktopCall) : Decidable (s.Admits c) := by
  unfold Admits
  split <;> infer_instance

/-- The desktop on a screen; a command says what memory is left. -/
def machine (screen : Screen) : Lib.Machine Desktop (Nat × DesktopCall) Fault where
  start s := s = init screen
  admits s c := c.1 < kernelSpace ∧ s.Admits c.2
  apply s c := do return (← s.apply c.1 c.2).1

end Desktop

end SupOS.Video
