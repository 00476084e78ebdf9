import SupOS.IO.Deque
import SupOS.Lib.Machine

/-! The class `Keyboard` of `IO/Keyboard.cpp`: the interrupt handler queues the scan codes, and a poll
takes a key code from the queue. -/

namespace SupOS.Input

open Lib

/-- A byte of a keymap is an ASCII character, and 0 is none. -/
structure Keymap where
  main : Vector UInt8 0x57
  shift : Vector UInt8 0x38
  shift56 : UInt8
  altGr : Vector UInt8 0xe
  pad : Vector UInt8 (0x54 - 0x47)

namespace Keyboard

/-- The modifiers. -/
structure State where
  lShift : Bool
  rShift : Bool
  lCtrl : Bool
  rCtrl : Bool
  lAlt : Bool
  rAlt : Bool
  lWin : Bool
  rWin : Bool
  capsLock : Bool
  numLock : Bool
  deriving DecidableEq, Repr

/-! The members of `Code` that `poll` names. -/

def CTRL : Nat := 29
def LSHIFT : Nat := 42
def RSHIFT : Nat := 54
def ALT : Nat := 56
def CAPSLOCK : Nat := 58
def NUMLOCK : Nat := 69
def LWIN : Nat := 0x5b
def RWIN : Nat := 0x5c

structure EScanCode where
  code : Fin 128
  release : Bool
  extended : Bool
  valid : Bool
  deriving DecidableEq, Repr

namespace EScanCode

/-- The default constructor, whose code is all ones. -/
def eof : EScanCode := ⟨0x7f, true, false, false⟩

def ofByte (c : UInt8) : EScanCode :=
  ⟨⟨c.toNat % 128, Nat.mod_lt _ (by decide)⟩, decide (128 ≤ c.toNat), false, true⟩

/-- The scan code of a byte behind the prefix 0xe0. -/
def ofExtended (c : UInt8) : EScanCode := { ofByte c with extended := true }

end EScanCode

structure KeyCode where
  state : State
  symbol : UInt8
  scanCode : EScanCode
  deriving DecidableEq, Repr

namespace State

variable (st : State) (sc : EScanCode)

/-- The bytes that `setLeds` sends for the locks. -/
def leds : List UInt8 :=
  [0xed, (st.capsLock.toUInt8 <<< 2) + (st.numLock.toUInt8 <<< 1)]

/-- The switch of `poll`: the new modifiers, and the bytes that are sent to the keyboard. -/
def track : State × List UInt8 :=
  if sc.code = CTRL then
    (if sc.extended then { st with rCtrl := !sc.release } else { st with lCtrl := !sc.release }, [])
  else if sc.code = LSHIFT then ({ st with lShift := !sc.release }, [])
  else if sc.code = RSHIFT then ({ st with rShift := !sc.release }, [])
  else if sc.code = ALT then
    (if sc.extended then { st with rAlt := !sc.release } else { st with lAlt := !sc.release }, [])
  else if sc.code = CAPSLOCK then
    let st := if !sc.release then { st with capsLock := !st.capsLock } else st
    (st, st.leds)
  else if sc.code = NUMLOCK then
    let st := if !sc.release then { st with numLock := !st.numLock } else st
    (st, st.leds)
  else if sc.code = LWIN then (if sc.extended then { st with lWin := !sc.release } else st, [])
  else if sc.code = RWIN then (if sc.extended then { st with rWin := !sc.release } else st, [])
  else (st, [])

/-- The part of `poll` that finds the character. -/
def symbol (keymap : Keymap) : UInt8 :=
  let code := sc.code.val
  if hmain : code ≥ 0x57 then 0
  else if sc.extended ∧ code = 0x35 then '/'.toUInt8
  else if sc.extended then 0
  else if st.lShift ∨ st.rShift ∨ st.capsLock then
    if code = 0x56 then keymap.shift56
    else if hpad : code ≥ 0x47 ∧ code < 0x54 then
      -- the keypad is the other way round here than without a shift
      if st.numLock ∧ ¬sc.extended then keymap.main[code - 0x47] else keymap.pad[code - 0x47]
    else if hshift : code < 0x38 then keymap.shift[code]
    else 0
  else if st.rAlt then if halt : code < 0xe then keymap.altGr[code] else 0
  else if hpad : code ≥ 0x47 ∧ code < 0x54 ∧ st.numLock ∧ ¬sc.extended then keymap.pad[code - 0x47]
  else keymap.main[code]

end State

end Keyboard

open Keyboard (EScanCode KeyCode)

/-- The keyboard, with the bytes that the handler has been called with and those that `setLeds` has sent
so far. -/
structure Keyboard where
  deque : Deque UInt8 1024
  state : Keyboard.State
  keymap : Keymap
  arrived : List UInt8
  sent : List UInt8

namespace Keyboard

variable (kbd : Keyboard)

def handleScanCode (sc : UInt8) : Except Fault Keyboard := do
  return { kbd with deque := ← kbd.deque.pushBack sc, arrived := kbd.arrived ++ [sc] }

/-- The interrupts that come between two accesses to the queue. -/
def interrupts (scs : List UInt8) : Except Fault Keyboard := scs.foldlM handleScanCode kbd

/-- `pop_front`, with the interrupts before it and those before its last statement. -/
def popFront (before within : List UInt8) : Except Fault Keyboard := do
  let kbd ← kbd.interrupts before
  let kbd := { kbd with deque := ← kbd.deque.advance }
  let kbd ← kbd.interrupts within
  return { kbd with deque := kbd.deque.shrink }

/-- `during` are the interrupts that come in the middle. -/
def pollSC (during : Fin 7 → List UInt8) : Except Fault (Keyboard × EScanCode) := do
  if kbd.deque.empty then return (kbd, EScanCode.eof)
  else
    let kbd ← kbd.interrupts (during 0)
    let sc := kbd.deque.front
    let kbd ← kbd.interrupts (during 1)
    if sc = 0xe0 then
      if kbd.deque.size ≤ 1 then return (kbd, EScanCode.eof)
      else
        let kbd ← kbd.interrupts (during 2)
        let e := { EScanCode.ofByte (kbd.deque.get 1) with extended := true }
        let kbd ← kbd.popFront (during 3) (during 4)
        let kbd ← kbd.popFront (during 5) (during 6)
        return (kbd, e)
    else
      let kbd ← kbd.popFront (during 2) (during 3)
      return (kbd, EScanCode.ofByte sc)

/-- The interrupts after `pollSC` are as those after the poll, which leaves the queue alone from there
on. The symbol of a poll without a scan code is `EOF`. -/
def poll (during : Fin 7 → List UInt8) : Except Fault (Keyboard × KeyCode) := do
  let (kbd, sc) ← kbd.pollSC during
  if !sc.valid then return (kbd, ⟨kbd.state, 0xff, sc⟩)
  else
    let (state, leds) := kbd.state.track sc
    return ({ kbd with state, sent := kbd.sent ++ leds }, ⟨state, state.symbol sc kbd.keymap, sc⟩)

def setKeymap (keymap : Keymap) : Keyboard := { kbd with keymap }

/-! ### The key codes of a sequence of bytes -/

/-- The scan codes that a sequence of bytes makes up. A prefix at its end is none yet. -/
def scanCodes : List UInt8 → List EScanCode
  | [] => []
  | [sc] => if sc = 0xe0 then [] else [EScanCode.ofByte sc]
  | sc :: c :: scs =>
    if sc = 0xe0 then EScanCode.ofExtended c :: scanCodes scs
    else EScanCode.ofByte sc :: scanCodes (c :: scs)

theorem scanCodes_cons {sc : UInt8} (h : sc ≠ 0xe0) (scs : List UInt8) :
    scanCodes (sc :: scs) = EScanCode.ofByte sc :: scanCodes scs := by
  cases scs with
  | nil => exact if_neg h
  | cons c scs => exact if_neg h

theorem scanCodes_extended (c : UInt8) (scs : List UInt8) :
    scanCodes (0xe0 :: c :: scs) = EScanCode.ofExtended c :: scanCodes scs := if_pos rfl

/-- What has been made of the scan codes so far: the key codes, the modifiers, and the bytes that were
sent. -/
structure Typed where
  state : State
  sent : List UInt8
  events : List KeyCode

/-- One more scan code. `layout` is the keymap that is set once these key codes have been handled. -/
def Typed.press (layout : List KeyCode → Keymap) (t : Typed) (sc : EScanCode) : Typed :=
  let (state, leds) := t.state.track sc
  ⟨state, t.sent ++ leds, t.events ++ [⟨state, state.symbol sc (layout t.events), sc⟩]⟩

namespace Typed

variable {layout : List KeyCode → Keymap} {t : Typed} {scs : List EScanCode}

theorem length_events_foldl_press :
    (scs.foldl (press layout) t).events.length = t.events.length + scs.length := by
  induction scs generalizing t with
  | nil => rfl
  | cons sc scs ih =>
    rw [List.foldl_cons, ih]
    show (t.events ++ [_]).length + scs.length = _
    rw [List.length_append, List.length_singleton, List.length_cons, Nat.add_assoc, Nat.add_comm 1]

theorem events_prefix : t.events <+: (scs.foldl (press layout) t).events := by
  induction scs generalizing t with
  | nil => exact List.prefix_refl _
  | cons sc scs ih => exact (List.prefix_append t.events _).trans (ih (t := t.press layout sc))

theorem events_prefix_of_prefix {scs' : List EScanCode} (h : scs <+: scs') :
    (scs.foldl (press layout) t).events <+: (scs'.foldl (press layout) t).events := by
  obtain ⟨rest, rfl⟩ := h
  rw [List.foldl_append]
  exact events_prefix

end Typed

end Keyboard

end SupOS.Input
