import Mathlib.Data.Fintype.Basic
import KernelLabs.Lib.RingBuffer
import KernelLabs.Lib.Screen

/-!
The console (lab-3 `kern/console.c`). The kernel runs with interrupts off and reads the devices
when it wants a character; what they have by then is a list for each. A keyboard byte says
whether it is from the mouse. The ports get what the screen gets, and are left out.
-/
namespace JosConsole
open Screen

abbrev Byte := BitVec 8

section Keyboard

def KEY_HOME : Byte := 0xE0
def KEY_END : Byte := 0xE1
def KEY_UP : Byte := 0xE2
def KEY_DN : Byte := 0xE3
def KEY_LF : Byte := 0xE4
def KEY_RT : Byte := 0xE5
def KEY_PGUP : Byte := 0xE6
def KEY_PGDN : Byte := 0xE7
def KEY_INS : Byte := 0xE8
def KEY_DEL : Byte := 0xE9

def NO : Char := '\x00'

def SHIFT : BitVec 32 := 1
def CTL : BitVec 32 := 2
def ALT : BitVec 32 := 4
def CAPSLOCK : BitVec 32 := 8
def NUMLOCK : BitVec 32 := 16
def SCROLLLOCK : BitVec 32 := 32
def E0ESC : BitVec 32 := 64

def shiftcode (data : Byte) : BitVec 32 :=
  match data.toNat with
  | 0x1D | 0x9D => CTL
  | 0x2A | 0x36 => SHIFT
  | 0x38 | 0xB8 => ALT
  | _ => 0

def togglecode (data : Byte) : BitVec 32 :=
  match data.toNat with
  | 0x3A => CAPSLOCK
  | 0x45 => NUMLOCK
  | 0x46 => SCROLLLOCK
  | _ => 0

def code (c : Char) : Byte := BitVec.ofNat 8 c.toNat

/-- The arrow keys and the keys around them, the same in all maps. -/
def arrows (data : Byte) : Byte :=
  match data.toNat with
  | 0xC8 => KEY_UP
  | 0xC9 => KEY_PGUP
  | 0xCB => KEY_LF
  | 0xCD => KEY_RT
  | 0xCF => KEY_END
  | 0xD0 => KEY_DN
  | 0xD1 => KEY_PGDN
  | 0xD2 => KEY_INS
  | 0xD3 => KEY_DEL
  | _ => 0

def keypad (data : Byte) : Byte :=
  match data.toNat with
  | 0xC7 => KEY_HOME
  | 0x9C => code '\n'
  | 0xB5 => code '/'
  | _ => arrows data

def normalmap (data : Byte) : Byte :=
  (([NO, '\x1b', '1', '2', '3', '4', '5', '6',
    '7', '8', '9', '0', '-', '=', '\x08', '\t',
    'q', 'w', 'e', 'r', 't', 'y', 'u', 'i',
    'o', 'p', '[', ']', '\n', NO, 'a', 's',
    'd', 'f', 'g', 'h', 'j', 'k', 'l', ';',
    '\x27', '\x60', NO, '\x5c', 'z', 'x', 'c', 'v',
    'b', 'n', 'm', ',', '.', '/', NO, '*',
    NO, ' ', NO, NO, NO, NO, NO, NO,
    NO, NO, NO, NO, NO, NO, NO, '7',
    '8', '9', '-', '4', '5', '6', '+', '1',
    '2', '3', '0', '.', NO, NO, NO, NO] : List Char)[data.toNat]?.map code).getD (keypad data)

def shiftmap (data : Byte) : Byte :=
  (([NO, '\x1b', '!', '@', '#', '$', '%', '^',
    '&', '*', '(', ')', '_', '+', '\x08', '\t',
    'Q', 'W', 'E', 'R', 'T', 'Y', 'U', 'I',
    'O', 'P', '\x7b', '\x7d', '\n', NO, 'A', 'S',
    'D', 'F', 'G', 'H', 'J', 'K', 'L', ':',
    '\x22', '~', NO, '|', 'Z', 'X', 'C', 'V',
    'B', 'N', 'M', '<', '>', '?', NO, '*',
    NO, ' ', NO, NO, NO, NO, NO, NO,
    NO, NO, NO, NO, NO, NO, NO, '7',
    '8', '9', '-', '4', '5', '6', '+', '1',
    '2', '3', '0', '.', NO, NO, NO, NO] : List Char)[data.toNat]?.map code).getD (keypad data)

/-- The macro `C`. -/
def ctl (x : Char) : Byte := code x - 64

def ctlpad (data : Byte) : Byte :=
  match data.toNat with
  | 0x97 => KEY_HOME
  | 0xB5 => ctl '/'
  | _ => arrows data

def ctlmap (data : Byte) : Byte :=
  (([0, 0, 0, 0, 0, 0, 0, 0,
    0, 0, 0, 0, 0, 0, 0, 0,
    ctl 'Q', ctl 'W', ctl 'E', ctl 'R', ctl 'T', ctl 'Y', ctl 'U', ctl 'I',
    ctl 'O', ctl 'P', 0, 0, code '\r', 0, ctl 'A', ctl 'S',
    ctl 'D', ctl 'F', ctl 'G', ctl 'H', ctl 'J', ctl 'K', ctl 'L', 0,
    0, 0, 0, ctl '\x5c', ctl 'Z', ctl 'X', ctl 'C', ctl 'V',
    ctl 'B', ctl 'N', ctl 'M', 0, 0, ctl '/', 0, 0] : List Byte)[data.toNat]?).getD (ctlpad data)

/-- `charcode`, with the bits of `CTL` and `SHIFT` as index. -/
def charcode (shift : BitVec 32) (data : Byte) : Byte :=
  if shift &&& CTL ≠ 0 then ctlmap data else if shift &&& SHIFT ≠ 0 then shiftmap data else normalmap data

def capital (shift : BitVec 32) (c : Byte) : Byte :=
  if shift &&& CAPSLOCK ≠ 0 then
    if code 'a' ≤ c ∧ c ≤ code 'z' then c + (code 'A' - code 'a')
    else if code 'A' ≤ c ∧ c ≤ code 'Z' then c + (code 'a' - code 'A')
    else c
  else c

/-- The new `shift`, the character, and whether it is Ctrl-Alt-Del. -/
def kbdProcData (shift : BitVec 32) (data : Byte) : BitVec 32 × Byte × Bool :=
  if data = 0xE0 then (shift ||| E0ESC, 0, false)
  else if data &&& 0x80 ≠ 0 then
    let data := if shift &&& E0ESC ≠ 0 then data else data &&& 0x7F
    (shift &&& ~~~(shiftcode data ||| E0ESC), 0, false)
  else
    let escaped := shift &&& E0ESC ≠ 0
    let data := if escaped then data ||| 0x80 else data
    let shift := if escaped then shift &&& ~~~E0ESC else shift
    let shift := (shift ||| shiftcode data) ^^^ togglecode data
    let c := capital shift (charcode shift data)
    (shift, c, ~~~shift &&& (CTL ||| ALT) = 0 && c = KEY_DEL)

/-- What the calls of `kbd_proc_data` return up to -1. A byte from the mouse is not read. The last
    component is the reboot, with which everything ends. -/
def kbdRead (shift : BitVec 32) : List (Bool × Byte) → List Byte × BitVec 32 × List (Bool × Byte) × Bool
  | [] => ([], shift, [], false)
  | (mouse, data) :: rest =>
    if mouse then ([], shift, (mouse, data) :: rest, false)
    else
      let (shift, c, reboot) := kbdProcData shift data
      if reboot then ([], shift, rest, true)
      else
        let (chars, shift, left, off) := kbdRead shift rest
        (c :: chars, shift, left, off)

end Keyboard

section Display

def CRT_COLS : Nat := 80
def CRT_SIZE : Nat := 25 * CRT_COLS

abbrev Crt := Text (BitVec 16)

def blankCell : BitVec 16 := 0x0720

/-- The switch of `cga_putc`, but for the tab. -/
def advance (s : Crt) (c : BitVec 32) : Crt :=
  match (c &&& 0xff).toNat with
  | 8 => if s.pos > 0 then rub s (((c &&& ~~~0xff#32) ||| 0x20).setWidth 16) else s
  | 10 => { s with pos := s.pos + CRT_COLS - (s.pos + CRT_COLS) % CRT_COLS }
  | 13 => { s with pos := s.pos - s.pos % CRT_COLS }
  | _ => put s (c.setWidth 16)

/-- The end of `cga_putc`. -/
def settle (s : Crt) : Crt := if s.pos ≥ CRT_SIZE then scroll CRT_COLS CRT_SIZE blankCell s else s

/-- Black on white if no attribute is given. -/
def colored (c : BitVec 32) : BitVec 32 := if c &&& ~~~0xff#32 = 0 then c ||| 0x0700 else c

def cgaPutc (s : Crt) (c : BitVec 32) : Crt :=
  let c := colored c
  if c &&& 0xff = 9 then settle ((fun s => settle (advance s (colored 0x20)))^[5] s) else settle (advance s c)

end Display

section Input

def CONSBUFSIZE : Nat := 512

structure Cons where
  buf : Nat → Byte
  rpos : Nat
  wpos : Nat

def wrapped (pos : Nat) : Nat := if pos + 1 = CONSBUFSIZE then 0 else pos + 1

/-- The body of the loop of `cons_intr`, for a character that is not 0. -/
def Cons.store (s : Cons) (c : Byte) : Cons :=
  { s with buf := Function.update s.buf s.wpos c, wpos := wrapped s.wpos }

/-- `cons_intr`, with what `proc` returns up to -1. -/
def consIntr (s : Cons) (chars : List Byte) : Cons :=
  chars.foldl (fun s c => if c = 0 then s else s.store c) s

structure Console where
  serialExists : Bool
  serial : List Byte
  kbd : List (Bool × Byte)
  shift : BitVec 32
  cons : Cons
  crt : Crt
  rebooted : Bool

def serialIntr (s : Console) : Console :=
  if s.serialExists then { s with serial := [], cons := consIntr s.cons s.serial } else s

def kbdIntr (s : Console) : Console :=
  let (chars, shift, left, off) := kbdRead s.shift s.kbd
  { s with kbd := left, shift := shift, cons := consIntr s.cons chars, rebooted := off }

/-- `cons_getc`, 0 if there is nothing. A reboot comes before it returns. -/
def consGetc (s : Console) : Console × Byte :=
  let s := kbdIntr (serialIntr s)
  if s.cons.rpos ≠ s.cons.wpos ∧ s.rebooted = false then
    ({ s with cons := { s.cons with rpos := wrapped s.cons.rpos } }, s.cons.buf s.cons.rpos)
  else (s, 0)

/-- `cons_putc`. -/
def consPutc (s : Console) (c : BitVec 32) : Console := { s with crt := cgaPutc s.crt c }

end Input
end JosConsole
