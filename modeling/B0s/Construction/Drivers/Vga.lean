import B0s.Construction.Machine

/-
This file models the text screen of `vga.c`.
-/

namespace B0s

def vgaWidth : Nat := 80

def vgaHeight : Nat := 25

def vgaBlack : BitVec 8 := 0

def vgaWhite : BitVec 8 := 15

/-- A cell of `vga_buffer` gets an entry. -/
structure VgaWrite where
  index : Nat
  entry : BitVec 16
  deriving DecidableEq, Repr

/-- The cursor lies in the statics `x` and `y`, and the writes to the buffer are listed. -/
structure Vga where
  x : Nat
  y : Nat
  writes : List VgaWrite
  deriving DecidableEq, Repr

def vgaColorEntry (fg bg : BitVec 8) : BitVec 8 := fg ||| (bg <<< 4)

/-- The type `char` is signed. -/
def vgaEntry (ch color : BitVec 8) : BitVec 16 := ch.signExtend 16 ||| (color.setWidth 16 <<< 8)

def vgaPutchar (ch color : BitVec 8) (vga : Vga) : Vga where
  x := (vga.x + 1) % vgaWidth
  y := (vga.y + (vga.x + 1) / vgaWidth) % vgaHeight
  writes := vga.writes ++ [⟨vga.y * vgaWidth + vga.x, vgaEntry ch color⟩]

/-- The loop of `vga_reset` clears the cells that are left. -/
def vgaResetFrom : Nat → Vga → Vga
  | 0, vga => vga
  | left + 1, vga => vgaResetFrom left (vgaPutchar 0x20 (vgaColorEntry vgaBlack vgaBlack) vga)

def vgaReset (vga : Vga) : Vga :=
  { vgaResetFrom (vgaWidth * vgaHeight) vga with x := 0, y := 0 }

/-- The loop of `vga_pad` writes blanks until the cursor leaves its row. -/
def vgaPadFrom (row : Nat) : Nat → Vga → Outcome Vga
  | 0, _ => .error .diverges
  | steps + 1, vga =>
      if vga.y = row then vgaPadFrom row steps (vgaPutchar 0x20 (vgaColorEntry vgaBlack vgaBlack) vga) else .ok vga

def vgaPad (vga : Vga) : Outcome Vga := vgaPadFrom vga.y walkLimit vga

def vgaNewline (vga : Vga) : Vga := { vga with x := 0, y := (vga.y + 1) % vgaHeight }

end B0s
