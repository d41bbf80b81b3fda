import B0s.Construction.Drivers.Vga

/-
This file proves that the cursor stays on the screen and that all writes hit its cells.
-/

namespace B0s

/-- The cursor stands on a cell of the screen. -/
structure Vga.OnScreen (vga : Vga) : Prop where
  column : vga.x < vgaWidth
  row : vga.y < vgaHeight

/-- The later screen has more writes, which all hit its cells, and the cursor stands on it. -/
structure Vga.Extends (vga vga' : Vga) : Prop where
  onScreen : vga'.OnScreen
  writes : ∃ written, vga'.writes = vga.writes ++ written ∧ ∀ write ∈ written, write.index < vgaWidth * vgaHeight

/-- These are the screens that the driver reaches after a reset. -/
inductive Vga.Reachable : Vga → Prop
  | reset (vga : Vga) : Reachable (vgaReset vga)
  | putchar {vga : Vga} (ch color : BitVec 8) (before : Reachable vga) : Reachable (vgaPutchar ch color vga)
  | pad {vga vga' : Vga} (before : Reachable vga) (padded : vgaPad vga = .ok vga') : Reachable vga'
  | newline {vga : Vga} (before : Reachable vga) : Reachable (vgaNewline vga)

/-- Blanks are written one behind the other. -/
def vgaBlanks : Nat → Vga → Vga
  | 0, vga => vga
  | count + 1, vga => vgaBlanks count (vgaPutchar 0x20 (vgaColorEntry vgaBlack vgaBlack) vga)

section
variable {vga vga' vga'' : Vga}

theorem Vga.OnScreen.extends (onScreen : vga.OnScreen) : vga.Extends vga :=
  ⟨onScreen, [], (List.append_nil _).symm, by simp⟩

theorem Vga.Extends.trans (first : vga.Extends vga') (second : vga'.Extends vga'') : vga.Extends vga'' := by
  obtain ⟨-, written, named, inside⟩ := first
  obtain ⟨onScreen, later, named', inside'⟩ := second
  refine ⟨onScreen, written ++ later, by rw [named', named, List.append_assoc], ?_⟩
  intro write member
  rcases List.mem_append.mp member with before | after
  · exact inside write before
  · exact inside' write after

/-- A character is written to the cell of the cursor. -/
theorem Vga.OnScreen.putchar (onScreen : vga.OnScreen) (ch color : BitVec 8) : vga.Extends (vgaPutchar ch color vga) := by
  obtain ⟨column, row⟩ := onScreen
  unfold vgaWidth at column
  unfold vgaHeight at row
  refine ⟨⟨?_, ?_⟩, _, rfl, ?_⟩
  · exact Nat.mod_lt _ (by decide)
  · exact Nat.mod_lt _ (by decide)
  · intro write member
    obtain rfl := List.mem_singleton.mp member
    unfold vgaWidth vgaHeight
    dsimp only
    omega

/-- Below the last column the row stays, and behind it the cursor is at the start of the next row. -/
theorem vgaPutchar_cursor (onScreen : vga.OnScreen) (ch color : BitVec 8) :
    (vgaPutchar ch color vga).x = (if vga.x + 1 < vgaWidth then vga.x + 1 else 0) ∧
      (vgaPutchar ch color vga).y = if vga.x + 1 < vgaWidth then vga.y else (vga.y + 1) % vgaHeight := by
  obtain ⟨column, row⟩ := onScreen
  unfold vgaPutchar vgaWidth vgaHeight at *
  dsimp only
  split_ifs <;> omega

theorem vgaBlanks_extends (onScreen : vga.OnScreen) (count : Nat) : vga.Extends (vgaBlanks count vga) := by
  induction count generalizing vga with
  | zero => exact onScreen.extends
  | succ count ih =>
      have first := onScreen.putchar 0x20 (vgaColorEntry vgaBlack vgaBlack)
      exact first.trans (ih first.onScreen)

/-- The padding writes the blanks that are left in the row. -/
theorem vgaPadFrom_eq (onScreen : vga.OnScreen) {steps left : Nat} (place : vga.x + left + 1 = vgaWidth)
    (enough : left + 1 < steps) : vgaPadFrom vga.y steps vga = .ok (vgaBlanks (left + 1) vga) := by
  induction left generalizing vga steps with
  | zero =>
      obtain ⟨steps, rfl⟩ := Nat.exists_eq_add_of_lt enough
      have cursor := (vgaPutchar_cursor onScreen 0x20 (vgaColorEntry vgaBlack vgaBlack)).2
      rw [if_neg (by omega)] at cursor
      have row := onScreen.row
      unfold vgaHeight at row cursor
      have different : (vgaPutchar 0x20 (vgaColorEntry vgaBlack vgaBlack) vga).y ≠ vga.y := by omega
      rw [Nat.zero_add, Nat.add_assoc, Nat.add_comm 1, vgaPadFrom, if_pos rfl, vgaPadFrom, if_neg different]
      rfl
  | succ left ih =>
      obtain ⟨steps, rfl⟩ := Nat.exists_eq_succ_of_ne_zero (Nat.ne_zero_of_lt enough)
      obtain ⟨column, row⟩ := vgaPutchar_cursor onScreen 0x20 (vgaColorEntry vgaBlack vgaBlack)
      rw [if_pos (by omega)] at column row
      have later := @ih _ (onScreen.putchar 0x20 (vgaColorEntry vgaBlack vgaBlack)).onScreen steps (by omega)
        (Nat.lt_of_succ_lt_succ enough)
      rw [row] at later
      rw [vgaPadFrom, if_pos rfl, later]
      rfl

theorem vgaPad_eq (onScreen : vga.OnScreen) : vgaPad vga = .ok (vgaBlanks (vgaWidth - vga.x) vga) := by
  have column := onScreen.column
  have count : vgaWidth - vga.x = (vgaWidth - vga.x - 1) + 1 := by omega
  rw [vgaPad, count]
  apply vgaPadFrom_eq onScreen (by omega)
  unfold vgaWidth walkLimit
  omega

/-- Every screen that is reached has its cursor on a cell. -/
theorem Vga.Reachable.onScreen (reachable : vga.Reachable) : vga.OnScreen := by
  induction reachable with
  | reset vga => exact ⟨show 0 < vgaWidth by decide, show 0 < vgaHeight by decide⟩
  | putchar ch color _ onScreen => exact (onScreen.putchar ch color).onScreen
  | pad _ padded onScreen =>
      obtain rfl := Except.ok.inj ((vgaPad_eq onScreen).symm.trans padded)
      exact (vgaBlanks_extends onScreen _).onScreen
  | newline _ onScreen => exact ⟨show 0 < vgaWidth by decide, Nat.mod_lt _ (by decide)⟩

end

end B0s
