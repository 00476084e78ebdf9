import SupOS.Descriptors.Vector
import SupOS.Lib.Machine
import Mathlib.Data.List.Basic

/-! The text windows of `Graphics/TextWindow.cpp`: the buffer of lines, the cursor and the parser of
escape sequences. -/

namespace SupOS.Video

open Lib Libcpp

/-- `Vec2u`. -/
structure Vec2u where
  x : UInt32
  y : UInt32
  deriving DecidableEq, Repr

structure Color24 where
  B : UInt8
  G : UInt8
  R : UInt8
  deriving DecidableEq, Repr

namespace Color24

def white : Color24 := ⟨255, 255, 255⟩
def black : Color24 := ⟨0, 0, 0⟩
def red : Color24 := ⟨0, 0, 255⟩
def blue : Color24 := ⟨255, 100, 40⟩
def green : Color24 := ⟨0, 255, 0⟩
def yellow : Color24 := ⟨0, 255, 255⟩
def magenta : Color24 := ⟨255, 0, 255⟩
def cyan : Color24 := ⟨255, 255, 0⟩
def lred : Color24 := ⟨0, 0, 187⟩
def lblue : Color24 := ⟨187, 50, 20⟩
def lgreen : Color24 := ⟨0, 128, 0⟩
def lyellow : Color24 := ⟨0, 187, 187⟩
def lmagenta : Color24 := ⟨187, 30, 187⟩
def lcyan : Color24 := ⟨187, 187, 0⟩
def lwhite : Color24 := ⟨187, 187, 187⟩

/-- The colours in the order of their numbers. -/
def table (bright : Bool) : List Color24 :=
  if bright then [black, red, green, yellow, blue, magenta, cyan, white]
  else [black, lred, lgreen, lyellow, lblue, lmagenta, lcyan, lwhite]

def getByNum (bright : Bool) (val : Nat) : Except Fault Color24 :=
  match (table bright)[val]? with
  | some color => .ok color
  | none => .error .assertion

end Color24

structure Format where
  fg : Color24
  underline : Bool
  bg : Color24
  deriving DecidableEq, Repr

/-- `Format()`. -/
def Format.init : Format := ⟨.lwhite, false, .black⟩

structure FormatedChar extends Format where
  c : Int8
  deriving DecidableEq, Repr

/-- Objects that are copied byte by byte. -/
def plain {T : Type} (size : Nat) (value : T) : Element Unit T where
  size := size
  value := value
  copy x h := .ok (x, h)
  move x h := .ok (x, h)
  destroy _ h := .ok h

structure Line where
  data : Libcpp.Vector FormatedChar

namespace Line

def new : Line := ⟨.empty⟩

/-- `write`, where `malloc` has `room` bytes left for a request. -/
def write (line : Line) (room i : Nat) (fmc : FormatedChar) : Except Fault Line := do
  let r ← if line.data.size ≤ i then
      line.data.resize (plain 8 ⟨Format.init, 32⟩) room (i + 1) ()
    else pure (line.data, ())
  return ⟨{ r.1 with data := r.1.data.set i fmc }⟩

end Line

inductive State
  | NORMAL
  | WAITINGOB
  | ESCAPE
  deriving DecidableEq, Repr

/-- A window's text. The deque of lines is given by its contents. -/
structure TextWindow where
  cursFormat : Format
  width : UInt8
  curs : Vec2u
  lineBuffer : List Line
  state : State
  stack : Libcpp.Vector UInt32
  bright : Bool
  keyboardBuffer : List Int8

namespace TextWindow

def LineNum : Nat := 256

/-- The constructor. -/
def new (size : Vec2u) : TextWindow where
  cursFormat := .init
  width := ((size.x - 2) / 8).toUInt8
  curs := ⟨0, 0⟩
  lineBuffer := [.new]
  state := .NORMAL
  stack := .empty
  bright := false
  keyboardBuffer := []

variable (w : TextWindow)

def newLine : TextWindow :=
  if (w.curs.y + 1).toNat = w.lineBuffer.length then
    if w.lineBuffer.length = LineNum then
      { w with curs := ⟨0, w.curs.y⟩, lineBuffer := w.lineBuffer.tail ++ [.new] }
    else { w with curs := ⟨0, w.curs.y + 1⟩, lineBuffer := w.lineBuffer ++ [.new] }
  else { w with curs := ⟨0, w.curs.y + 1⟩ }

/-- The check of `at` has an error of its own here. -/
def addPrintableChar (room : Nat) (c : Int8) : Except Fault TextWindow :=
  match w.lineBuffer[w.curs.y.toNat]? with
  | none => .error .outOfRange
  | some line => do
    let line ← line.write room w.curs.x.toNat ⟨w.cursFormat, c⟩
    return { w with
      lineBuffer := w.lineBuffer.set w.curs.y.toNat line
      curs := { w.curs with x := w.curs.x + 1 } }

/-- The value of `_stack.back()`. -/
def back : Except Fault UInt32 :=
  match w.stack.data.getLast? with
  | some n => .ok n
  | none => .error .outOfRange

/-- An element of `_stack`, where `junk` is in the memory past its end. -/
def stackAt (junk : Nat → UInt32) (i : Nat) : UInt32 := w.stack.data.getD i (junk i)

/-- What `SGR` does on a long enough sequence for a colour. -/
def color (junk : Nat → UInt32) : Color24 where
  R := (w.stackAt junk 3).toUInt8
  G := (w.stackAt junk 4).toUInt8
  B := (w.stackAt junk 5).toUInt8

def SGR (junk : Nat → UInt32) (error : TextWindow → Except Fault TextWindow) :
    Except Fault TextWindow :=
  if w.stack.size = 0 then .ok { w with cursFormat := .init }
  else
    let command := w.stackAt junk 0
    if command = 0 then .ok { w with cursFormat := .init }
    else if command = 1 then .ok { w with bright := true }
    else if command = 2 then .ok { w with bright := false }
    else if command = 4 then .ok { w with cursFormat.underline := true }
    else if command = 7 then
      .ok { w with cursFormat := { w.cursFormat with fg := w.cursFormat.bg, bg := w.cursFormat.fg } }
    else if command = 24 then .ok { w with cursFormat.underline := false }
    else if command ≥ 30 ∧ command ≤ 37 then do
      let fg ← Color24.getByNum w.bright (command - 30).toNat
      return { w with cursFormat.fg := fg }
    else if command = 38 then
      if w.stack.size < 5 then error w
      else if w.stackAt junk 1 ≠ 2 then error w
      else .ok { w with cursFormat.fg := w.color junk }
    else if command = 39 then .ok { w with cursFormat.fg := .lwhite }
    else if command ≥ 40 ∧ command ≤ 47 then do
      let bg ← Color24.getByNum w.bright (command - 40).toNat
      return { w with cursFormat.bg := bg }
    else if command = 48 then
      if w.stack.size < 5 then error w
      else if w.stackAt junk 1 ≠ 2 then error w
      else .ok { w with cursFormat.bg := w.color junk }
    else if command = 49 then .ok { w with cursFormat.bg := .black }
    else .ok w

/-- `putChar`, with the depth of its recursion through `error`. -/
def putCharAt (room : Nat) (junk : Nat → UInt32) : Nat → TextWindow → Int8 → Except Fault TextWindow
  | 0, _, _ => .error .diverges
  | depth + 1, w, c =>
    let putChar := putCharAt room junk depth
    let error (w : TextWindow) : Except Fault TextWindow := do
      let w ← putChar { w with state := .NORMAL } 126
      putChar w 126
    match w.state with
    | .WAITINGOB =>
      if c ≠ 91 then do
        let w ← error w
        putChar w c
      else do
        let r ← Libcpp.Vector.empty.pushBackMove (plain 4 (0 : UInt32)) room 0 ()
        return { w with stack := r.1, state := .ESCAPE }
    | .ESCAPE =>
      if c < 32 ∨ c > 126 then do
        let w ← error w
        putChar w c
      else if c ≥ 48 ∧ c ≤ 57 then do
        let n ← w.back
        let n := n * 10 + (c - 48).toInt.toNat.toUInt32
        return { w with stack.data := w.stack.data.dropLast ++ [n] }
      else if c = 59 then do
        let r ← w.stack.pushBackMove (plain 4 (0 : UInt32)) room 0 ()
        return { w with stack := r.1 }
      else if c = 109 then do
        let w ← w.SGR junk error
        return { w with state := .NORMAL }
      else do
        let w ← error w
        putChar w c
    | .NORMAL =>
      if c = 27 then .ok { w with state := .WAITINGOB }
      else if c = 10 then .ok w.newLine
      else if c = 9 then
        (List.replicate (4 - w.curs.x.toNat % 4) (32 : Int8)).foldlM
          (fun w c => w.addPrintableChar room c) w
      else if c = 8 then
        if w.curs.x = 0 then
          .ok { w with curs :=
            ⟨w.width.toUInt32 - 1, if w.curs.y > 0 then w.curs.y - 1 else w.curs.y⟩ }
        else .ok { w with curs.x := w.curs.x - 1 }
      else if c = 13 then .ok { w with curs.x := 0 }
      else if c = 12 then .ok { w.newLine with curs.x := w.curs.x }
      else if c < 32 ∧ c ≥ -1 then error w
      else w.addPrintableChar room c

/-- `putChar` calls itself through `error` no deeper than this. -/
def putChar (room : Nat) (junk : Nat → UInt32) (c : Int8) : Except Fault TextWindow :=
  putCharAt room junk 3 w c

/-- The characters of a buffer, of which `write` takes 1024 at most. -/
def putChars (room : Nat) (junk : Nat → UInt32) (buf : List Int8) : Except Fault TextWindow :=
  buf.foldlM (fun w c => w.putChar room junk c) w

def write (room : Nat) (junk : Nat → UInt32) (buf : List Int8) : Except Fault (Nat × TextWindow) := do
  let count := min buf.length 1024
  let w ← w.putChars room junk (buf.take count)
  return (count, w)

/-- `handleEvent` for a symbol of the keyboard. -/
def handleKey (room : Nat) (junk : Nat → UInt32) (sym : Int8) : Except Fault TextWindow :=
  if sym = 8 then
    if w.keyboardBuffer = [] then .ok w
    else putChars { w with keyboardBuffer := w.keyboardBuffer.dropLast } room junk [8, 32, 8]
  else if sym = 10 then putChar { w with keyboardBuffer := [] } room junk 10
  else putChar { w with keyboardBuffer := w.keyboardBuffer ++ [sym] } room junk sym

def setSize (v : Vec2u) : TextWindow :=
  { w with width := if v.x < 2 then 0 else ((v.x - 2) / 8).toUInt8 }

inductive Call
  | write (buf : List Int8)
  | key (sym : Int8)
  | setSize (v : Vec2u)

/-- A call, with the memory that is left and what is in the memory past the end of `_stack`. -/
structure Command where
  room : Nat
  junk : Nat → UInt32
  call : Call

def apply (c : Command) : Except Fault TextWindow :=
  match c.call with
  | .write buf => (·.2) <$> w.write c.room c.junk buf
  | .key sym => w.handleKey c.room c.junk sym
  | .setSize v => .ok (w.setSize v)

end TextWindow

end SupOS.Video
