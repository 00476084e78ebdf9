import SupOS.Video.Workspace

/-! The drawing of a text window: `send` of `Graphics/TextWindow.cpp` and what it calls of
`Graphics/Screen.cpp`. Of a pixel only the position counts. -/

namespace SupOS.Video

open Lib Libcpp

/-- What is drawn before the kernel stops stays drawn. -/
abbrev Draw := ExceptT Fault (StateM (List Vec2u))

/-- The pixels of the list are drawn. -/
def plot (pixels : List Vec2u) : Draw Unit := modify (· ++ pixels)

/-- `for(uint i = first; i < limit; ++i)`, whose rounds are counted down to tell an endless loop. -/
def forLoop (limit : UInt32) (body : UInt32 → Draw Unit) : Nat → UInt32 → Draw Unit
  | 0, i => if i < limit then throw .diverges else pure ()
  | rounds + 1, i =>
    if i < limit then do
      body i
      forLoop limit body rounds (i + 1)
    else pure ()

namespace Screen

variable (screen : Screen)

/-- The pixels that `memset` clears in a row. -/
def clearRow (offset size : Vec2u) (y : UInt32) : List Vec2u :=
  (List.range ((size.x * 4).toNat / 4)).map fun k => ⟨offset.x + UInt32.ofNat k, y⟩

def clear (offset size : Vec2u) : Draw Unit :=
  forLoop (offset.y + size.y) (fun y => plot (clearRow offset size y)) size.y.toNat offset.y

def set (x y : UInt32) : Draw Unit :=
  if x ≥ screen.getSize.x then throw (.bsod "drawing at %d %d invalid")
  else if y ≥ screen.getSize.y then throw (.bsod "drawing at %d %d invalid")
  else plot [⟨x, y⟩]

/-- The lines of a character, which `Font::writeLine` writes. -/
def glyph (x y : UInt32) : List Vec2u :=
  (List.range 16).flatMap fun i =>
    (List.range 8).map fun j => ⟨x + UInt32.ofNat j, y + UInt32.ofNat i⟩

def putChar (x y : UInt32) : Draw Unit := do
  assert (decide (x + 8 < screen.getSize.x))
  assert (decide (y + 16 < screen.getSize.y))
  plot (glyph x y)

end Screen

namespace TextWindow

/-- A text window with the members of its base class `Window` and its height. -/
structure Whole extends TextWindow where
  offset : Vec2u
  size : Vec2u
  height : UInt8

namespace Whole

/-- The constructor. -/
def new (offset size : Vec2u) : Whole where
  toTextWindow := .new size
  offset := offset
  size := size
  height := ((size.y - 2) / 16).toUInt8

variable (w : Whole) (screen : Screen)

def setSize (v : Vec2u) : Whole :=
  { w with toTextWindow := w.toTextWindow.setSize v, size := v, height := ((v.y - 2) / 16).toUInt8 }

def setOffset (v : Vec2u) : Whole := { w with offset := v }

def drawFMC (pos : Vec2u) (fmc : FormatedChar) : Draw Unit := do
  screen.putChar (w.offset.x + pos.x * 8 + 1) (w.offset.y + pos.y * 16 + 1)
  if fmc.underline then
    forLoop 8 (fun k => screen.set (w.offset.x + pos.x * 8 + 1 + k) (w.offset.y + pos.y * 16 + 16)) 8 0
  else pure ()

/-- The rows that a line takes, where the width is not 0. -/
def rows (line : Line) : UInt32 :=
  UInt32.ofNat ((line.data.size + w.width.toNat - 1) / w.width.toNat)

/-- The first loop of `send`, from the last line on: the height of all lines, or that of the window. -/
def totalHeight : List Line → UInt32 → UInt32
  | [], height => height
  | line :: lines, height =>
    if height + w.rows line ≥ w.height.toUInt32 then w.height.toUInt32
    else totalHeight lines (height + w.rows line)

/-- An access to `data`. -/
def charAt (line : Line) (i : UInt32) : Draw FormatedChar :=
  match line.data.data[i.toNat]? with
  | some fmc => pure fmc
  | none => throw .outOfRange

/-- A row of a line, which starts at the column `startx`. -/
def sendRow (line : Line) (startx height : UInt32) : Draw Unit :=
  let columns := min w.width.toUInt32 (UInt32.ofNat (usub line.data.size startx.toNat))
  forLoop columns (fun x => do
    let fmc ← charAt line (startx + x)
    w.drawFMC screen ⟨x, height - 1⟩ fmc) columns.toNat 0

/-- The rows of a line from the last one on. It returns nothing where `send` does. -/
def sendLine (line : Line) : Nat → UInt32 → UInt32 → Draw (Option UInt32)
  | 0, i, height => if i < w.rows line then throw .diverges else return some height
  | rounds + 1, i, height =>
    if i < w.rows line then
      if height = 0 then return none
      else do
        w.sendRow screen line ((w.rows line - 1 - i) * w.width.toUInt32) height
        sendLine line rounds (i + 1) (height - 1)
    else return some height

/-- The second loop of `send`, from the last line on. -/
def sendLines : List Line → UInt32 → Draw Unit
  | [], _ => return ()
  | line :: lines, height => do
    match ← w.sendLine screen line (w.rows line).toNat 0 height with
    | none => return ()
    | some height => sendLines lines height

def send : Draw Unit := do
  Screen.clear w.offset w.size
  if w.width = 0 then return ()
  else w.sendLines screen w.lineBuffer.reverse (w.totalHeight w.lineBuffer.reverse 0)

end Whole

end TextWindow

end SupOS.Video
