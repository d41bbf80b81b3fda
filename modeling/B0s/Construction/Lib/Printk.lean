import B0s.Construction.Drivers.Vga
import B0s.Construction.Lib.String

/-
This file models the formatted output of `printk.c`. The screen is a device, so its cells are no bytes of the strings.
-/

namespace B0s
open ByteMemory

/-- These are the digits of the alphabet `HEX_ALPHA`. -/
def hexAlpha : List (BitVec 8) :=
  [0x30, 0x31, 0x32, 0x33, 0x34, 0x35, 0x36, 0x37, 0x38, 0x39, 0x61, 0x62, 0x63, 0x64, 0x65, 0x66]

def logLookup : List Nat := [64, 41, 32, 28, 25, 23, 22, 21, 20, 19, 18, 18, 17, 17, 16]

/-- This is the `U64_MAX_LOG_BASE` macro. -/
def u64MaxLogBase (base : Nat) : Nat := logLookup.getD (base - 2) 0

/-- A `u8` value is reduced modulo its width. -/
def u8 (value : Nat) : Nat := value % 2 ^ 8

/-- A `u8` index counts down around zero. -/
def predU8 (i : Nat) : Nat := (i + 2 ^ 8 - 1) % 2 ^ 8

/-- The first loop of `putnbr` stores the lowest digit first. The written indices are listed. -/
def putnbrFill (base : Nat) : Nat → Nat → Nat → Str → Outcome (Str × Nat × List Nat)
  | 0, _, _, _ => .error .diverges
  | steps + 1, nbr, i, array =>
      let array := Function.update array i (hexAlpha.getD (nbr % base) 0)
      let nbr := nbr / base
      if nbr = 0 then .ok (array, predU8 i, [i])
      else do
        let (array, last, written) ← putnbrFill base steps nbr (predU8 i) array
        .ok (array, last, i :: written)

/-- The last loop of `putnbr` and of `putptr` prints the array up to its end. -/
def putArray (array : Str) (log : Nat) : Nat → Nat → Vga → Outcome Vga
  | 0, _, _ => .error .diverges
  | steps + 1, i, vga =>
      if i ≤ log - 1 then putArray array log steps (u8 (i + 1)) (vgaPutchar (array i) vgaWhite vga) else .ok vga

/-- The array is not initialised. -/
def putnbr (uninit : Str) (nbr base : Nat) (vga : Vga) : Outcome (Vga × List Nat) := do
  let log := u64MaxLogBase base
  let (array, i, written) ← putnbrFill base walkLimit nbr (log - 1) uninit
  let vga ← putArray array log walkLimit (u8 (i + 1)) vga
  .ok (vga, written)

/-- The first loop of `putptr` ends when its index has wrapped around. -/
def putptrFill : Nat → Nat → Nat → Str → Outcome (Str × Nat × List Nat)
  | 0, _, _, _ => .error .diverges
  | steps + 1, ptr, i, array =>
      let array := Function.update array i (hexAlpha.getD (ptr % 16) 0)
      let ptr := ptr / 16
      if predU8 i = 255 then .ok (array, predU8 i, [i])
      else do
        let (array, last, written) ← putptrFill steps ptr (predU8 i) array
        .ok (array, last, i :: written)

def putptr (uninit : Str) (ptr : Nat) (vga : Vga) : Outcome (Vga × List Nat) := do
  let vga := vgaPutchar 0x30 vgaWhite vga
  let vga := vgaPutchar 0x78 vgaWhite vga
  let log := u64MaxLogBase 16
  let (array, i, written) ← putptrFill walkLimit ptr (log - 1) uninit
  let vga ← putArray array log walkLimit (u8 (i + 1)) vga
  .ok (vga, written)

/-- The loop of `putstr` prints the characters in front of the null character. -/
def putstrFrom (str : Str) : Nat → Nat → Vga → Outcome Vga
  | 0, _, _ => .error .diverges
  | steps + 1, i, vga =>
      if str i = 0 then .ok vga else putstrFrom str steps (i + 1) (vgaPutchar (str i) vgaWhite vga)

def putstr (str : Str) (vga : Vga) : Outcome Vga := putstrFrom str walkLimit 0 vga

/-- The slots of a `va_list` hold words, and `next` is the slot that `va_arg` reads. -/
structure VaList where
  slot : Nat → BitVec 64
  next : Nat

def VaList.vaArg (args : VaList) : BitVec 64 × VaList := (args.slot args.next, { args with next := args.next + 1 })

section
variable (mem : Memory) (uninit : Str)

/-- The result is the number of characters that the format advances by. -/
def printArg (specifier : BitVec 8) (args : VaList) (vga : Vga) : Outcome (Nat × VaList × Vga) :=
  let (word, rest) := args.vaArg
  if specifier = 0x62 then do
    let (vga, _) ← putnbr uninit word.toNat 2 vga
    .ok (2, rest, vga)
  else if specifier = 0x78 then do
    let (vga, _) ← putnbr uninit word.toNat 16 vga
    .ok (2, rest, vga)
  else if specifier = 0x75 then do
    let (vga, _) ← putnbr uninit word.toNat 10 vga
    .ok (2, rest, vga)
  else if specifier = 0x63 then .ok (2, rest, vgaPutchar (word.setWidth 8) vgaWhite vga)
  else if specifier = 0x73 then do
    let vga ← putstr (bytesAt mem word.toNat) vga
    .ok (2, rest, vga)
  else if specifier = 0x70 then do
    let (vga, _) ← putptr uninit word.toNat vga
    .ok (2, rest, vga)
  else if specifier = 0x25 then .ok (2, args, vgaPutchar 0x25 vgaWhite vga)
  else .ok (1, args, vga)

/-- The inner loop of `interpret` prints a character, or it pads the row at a newline. -/
def interpretChar (ch : BitVec 8) (vga : Vga) : Outcome Vga :=
  if ch = 0x0a then vgaPad vga else .ok (vgaPutchar ch vgaWhite vga)

/-- The inner loop of `interpret` prints up to a percent sign, whose index it returns, or up to the null character.
The read indices are listed. -/
def interpretText (format : Str) : Nat → Nat → Vga → Outcome (Option Nat × Vga × List Nat)
  | 0, _, _ => .error .diverges
  | steps + 1, i, vga =>
      if format i = 0x25 then .ok (some i, vga, [i])
      else if format i = 0 then .ok (none, vga, [i])
      else do
        let vga ← interpretChar (format i) vga
        let (stop, vga, reads) ← interpretText format steps (i + 1) vga
        .ok (stop, vga, i :: reads)

def interpretFrom (format : Str) : Nat → Nat → VaList → Vga → Outcome (VaList × Vga × List Nat)
  | 0, _, _, _ => .error .diverges
  | steps + 1, i, args, vga => do
      let (stop, vga, reads) ← interpretText format walkLimit i vga
      match stop with
      | none => .ok (args, vga, reads)
      | some i => do
          let (count, args, vga) ← printArg mem uninit (format (i + 1)) args vga
          let (args, vga, later) ← interpretFrom format steps (i + count) args vga
          .ok (args, vga, reads ++ (i + 1) :: later)

def interpret (format : Str) (args : VaList) (vga : Vga) : Outcome (VaList × Vga × List Nat) :=
  interpretFrom mem uninit format walkLimit 0 args vga

end

end B0s
