import B0s.Proof.Drivers.VgaRun
import B0s.Proof.Lib.PrintkDigits

/-
This file proves that `interpret` prints the expansion of its format on the cells of the screen.
-/

namespace B0s
open ByteMemory

/-- These are the specifiers `b`, `x`, `u`, `c`, `s`, and `p`, which take an argument. -/
def specifiers : List (BitVec 8) := [0x62, 0x78, 0x75, 0x63, 0x73, 0x70]

/-- A format is a sequence of characters, newlines, percent signs, and arguments. -/
inductive FormatPiece where
  | char (ch : BitVec 8)
  | newline
  | percent
  | argument (specifier : BitVec 8)
  deriving DecidableEq

/-- A percent sign in front of an unknown character, or at the end, is left out. -/
def parseFormat : List (BitVec 8) → List FormatPiece
  | [] => []
  | ch :: rest =>
      if ch = 0x25 then
        match rest with
        | [] => []
        | specifier :: tail =>
            if specifier ∈ specifiers then .argument specifier :: parseFormat tail
            else if specifier = 0x25 then .percent :: parseFormat tail
            else parseFormat (specifier :: tail)
      else if ch = 0x0a then .newline :: parseFormat rest
      else .char ch :: parseFormat rest

/-- The pieces of a format that take an argument. -/
def FormatPiece.arguments : FormatPiece → Nat
  | .argument _ => 1
  | _ => 0

def argumentCount (pieces : List FormatPiece) : Nat := (pieces.map FormatPiece.arguments).sum

section
variable (mem : Memory) (length : BitVec 64 → Nat) (slot : Nat → BitVec 64)

/-- The text of an argument. A string has a length at its pointer. -/
def argumentText (specifier : BitVec 8) (word : BitVec 64) : List (BitVec 8) :=
  if specifier = 0x62 then (lowDigits 2 word.toNat).reverse.map digitChar
  else if specifier = 0x78 then (lowDigits 16 word.toNat).reverse.map digitChar
  else if specifier = 0x75 then (lowDigits 10 word.toNat).reverse.map digitChar
  else if specifier = 0x63 then [word.setWidth 8]
  else if specifier = 0x73 then (List.range (length word)).map (bytesAt mem word.toNat)
  else 0x30 :: 0x78 :: (pointerDigits 16 word.toNat).reverse.map digitChar

/-- A piece prints characters, or it ends the row of the screen. -/
def FormatPiece.items (word : BitVec 64) : FormatPiece → List (Option (BitVec 8))
  | .char ch => [some ch]
  | .newline => [none]
  | .percent => [some 0x25]
  | .argument specifier => (argumentText mem length specifier word).map some

/-- The pieces are expanded from left to right, and each argument is the next one. -/
def expandFormat : List FormatPiece → Nat → List (Option (BitVec 8))
  | [], _ => []
  | piece :: pieces, next => piece.items mem length (slot next) ++ expandFormat pieces (next + piece.arguments)

/-- The arguments for the specifier `s` lead to strings. -/
def ArgsMatch : List FormatPiece → Nat → Prop
  | [], _ => True
  | piece :: pieces, next =>
      (piece = .argument 0x73 → (bytesAt mem (slot next).toNat).Terminated (length (slot next))) ∧
        ArgsMatch pieces (next + piece.arguments)

end

/-- The row is filled with blanks at a newline. -/
def renderItem (vga : Vga) : Option (BitVec 8) → Vga
  | some ch => vgaPutchar ch vgaWhite vga
  | none => vgaBlanks (vgaWidth - vga.x) vga

def render (items : List (Option (BitVec 8))) (vga : Vga) : Vga := items.foldl renderItem vga

/-- The characters stand in the string from an index on, in front of the null character. -/
def Str.SpellsAt (str : Str) : Nat → List (BitVec 8) → Prop
  | i, [] => str i = 0
  | i, ch :: rest => str i = ch ∧ ch ≠ 0 ∧ Str.SpellsAt str (i + 1) rest

section
variable {mem : Memory} {uninit format str : Str} {length : BitVec 64 → Nat} {slot : Nat → BitVec 64} {vga : Vga}
variable {i next len : Nat} {rest : List (BitVec 8)}

theorem Str.Terminated.spellsAt (terminated : str.Terminated len) {left : Nat} (place : i + left = len) :
    str.SpellsAt i ((List.range' i left).map str) := by
  induction left generalizing i with
  | zero =>
      have last : i = len := place
      exact last ▸ terminated.null
  | succ left ih => exact ⟨rfl, terminated.chars i (by omega), ih (by omega)⟩

theorem parseFormat_char {ch : BitVec 8} (percent : ch ≠ 0x25) (rest : List (BitVec 8)) :
    parseFormat (ch :: rest) = (if ch = 0x0a then .newline else .char ch) :: parseFormat rest := by
  cases rest <;> simp only [parseFormat, if_neg percent] <;> split_ifs <;> rfl

theorem parseFormat_percent (specifier : BitVec 8) (tail : List (BitVec 8)) :
    parseFormat (0x25 :: specifier :: tail) =
      if specifier ∈ specifiers then .argument specifier :: parseFormat tail
      else if specifier = 0x25 then .percent :: parseFormat tail else parseFormat (specifier :: tail) := by
  conv_lhs => unfold parseFormat
  rw [if_pos rfl]

theorem render_some (chars : List (BitVec 8)) (vga : Vga) : render (chars.map some) vga = emit chars vga := by
  rw [render, List.foldl_map]
  rfl

theorem render_append (first second : List (Option (BitVec 8))) (vga : Vga) :
    render (first ++ second) vga = render second (render first vga) :=
  List.foldl_append

theorem render_extends (onScreen : vga.OnScreen) (items : List (Option (BitVec 8))) : vga.Extends (render items vga) := by
  induction items generalizing vga with
  | nil => exact onScreen.extends
  | cons item items ih =>
      have first : vga.Extends (renderItem vga item) := by
        cases item with
        | none => exact vgaBlanks_extends onScreen _
        | some ch => exact onScreen.putchar ch vgaWhite
      exact first.trans (ih first.onScreen)

theorem argumentCount_cons (piece : FormatPiece) (pieces : List FormatPiece) :
    argumentCount (piece :: pieces) = piece.arguments + argumentCount pieces := by
  rw [argumentCount, List.map_cons, List.sum_cons]
  rfl

theorem expandFormat_append (first second : List FormatPiece) (next : Nat) :
    expandFormat mem length slot (first ++ second) next =
      expandFormat mem length slot first next ++ expandFormat mem length slot second (next + argumentCount first) := by
  induction first generalizing next with
  | nil => rfl
  | cons piece first ih =>
      rw [List.cons_append, expandFormat, ih, expandFormat, List.append_assoc, argumentCount_cons, Nat.add_assoc]

theorem argsMatch_append {first second : List FormatPiece} (valid : ArgsMatch mem length slot (first ++ second) next) :
    ArgsMatch mem length slot second (next + argumentCount first) := by
  induction first generalizing next with
  | nil => exact valid
  | cons piece first ih =>
      rw [argumentCount_cons, ← Nat.add_assoc]
      exact ih valid.2

theorem argumentCount_append (first second : List FormatPiece) :
    argumentCount (first ++ second) = argumentCount first + argumentCount second := by
  rw [argumentCount, List.map_append, List.sum_append]
  rfl

/-- A string is printed up to its null character. -/
theorem putstrFrom_spec {left steps : Nat} (terminated : str.Terminated len) (place : i + left = len) (enough : left < steps)
    (vga : Vga) : putstrFrom str steps i vga = .ok (emit ((List.range' i left).map str) vga) := by
  induction left generalizing i steps vga with
  | zero =>
      obtain ⟨steps, rfl⟩ := Nat.exists_eq_succ_of_ne_zero (Nat.ne_zero_of_lt enough)
      have last : i = len := place
      rw [putstrFrom, if_pos (last ▸ terminated.null)]
      rfl
  | succ left ih =>
      obtain ⟨steps, rfl⟩ := Nat.exists_eq_succ_of_ne_zero (Nat.ne_zero_of_lt enough)
      rw [putstrFrom, if_neg (terminated.chars i (by omega)), ih (by omega) (by omega)]
      rfl

theorem putstr_spec (terminated : str.Terminated len) (vga : Vga) :
    putstr str vga = .ok (emit ((List.range len).map str) vga) := by
  have enough : len < walkLimit := terminated.small
  rw [putstr, putstrFrom_spec terminated (Nat.zero_add len) enough, List.range_eq_range']

/-- An argument is taken, and its text is printed. -/
theorem printArg_argument {specifier : BitVec 8} (known : specifier ∈ specifiers)
    (valid : specifier = 0x73 → (bytesAt mem (slot next).toNat).Terminated (length (slot next))) (vga : Vga) :
    printArg mem uninit specifier ⟨slot, next⟩ vga =
      .ok (2, ⟨slot, next + 1⟩, emit (argumentText mem length specifier (slot next)) vga) := by
  obtain ⟨written2, binary, -⟩ := putnbr_spec uninit (slot next) vga (le_refl 2) (by decide)
  obtain ⟨written16, hex, -⟩ := putnbr_spec uninit (slot next) vga (by decide) (le_refl 16)
  obtain ⟨written10, decimal, -⟩ := putnbr_spec uninit (slot next) vga (show 2 ≤ 10 by decide) (by decide)
  obtain ⟨writtenPtr, pointer, -⟩ := putptr_spec uninit (slot next) vga
  simp only [specifiers, List.mem_cons, List.not_mem_nil, or_false] at known
  rcases known with rfl | rfl | rfl | rfl | rfl | rfl
  · simp [printArg, VaList.vaArg, argumentText, binary, bind, Except.bind]
  · simp [printArg, VaList.vaArg, argumentText, hex, bind, Except.bind]
  · simp [printArg, VaList.vaArg, argumentText, decimal, bind, Except.bind]
  · rfl
  · have text := putstr_spec (valid rfl) vga
    simp [printArg, VaList.vaArg, argumentText, text, bind, Except.bind]
  · simp [printArg, VaList.vaArg, argumentText, pointer, bind, Except.bind]

/-- Another character takes no argument. -/
theorem printArg_other {specifier : BitVec 8} (unknown : specifier ∉ specifiers) (percent : specifier ≠ 0x25) (args : VaList)
    (vga : Vga) : printArg mem uninit specifier args vga = .ok (1, args, vga) := by
  simp only [specifiers, List.mem_cons, List.not_mem_nil, or_false, not_or] at unknown
  obtain ⟨b, x, u, c, s, p⟩ := unknown
  simp only [printArg, VaList.vaArg, if_neg b, if_neg x, if_neg u, if_neg c, if_neg s, if_neg p, if_neg percent]

/-- The inner loop prints the text up to a percent sign or up to the end. -/
theorem interpretText_spec {steps : Nat} (spells : format.SpellsAt i rest) (onScreen : vga.OnScreen)
    (enough : rest.length < steps) :
    ∃ text tail stop reads j,
      interpretText format steps i vga = .ok (stop, render (expandFormat mem length slot text next) vga, reads) ∧
        parseFormat rest = text ++ parseFormat tail ∧ argumentCount text = 0 ∧ format.SpellsAt j tail ∧
        i ≤ j ∧ j + tail.length = i + rest.length ∧ (∀ index ∈ reads, index ≤ i + rest.length) ∧
        (stop = none ∧ tail = [] ∨ stop = some j ∧ ∃ behind, tail = 0x25 :: behind) := by
  induction rest generalizing i vga steps with
  | nil =>
      obtain ⟨steps, rfl⟩ := Nat.exists_eq_succ_of_ne_zero (Nat.ne_zero_of_lt enough)
      have null : format i = 0 := spells
      have other : format i ≠ 0x25 := by rw [null]; decide
      refine ⟨[], [], none, [i], i, ?_, rfl, rfl, spells, le_rfl, rfl, by simp, Or.inl ⟨rfl, rfl⟩⟩
      rw [interpretText, if_neg other, if_pos null]
      rfl
  | cons ch rest ih =>
      obtain ⟨steps, rfl⟩ := Nat.exists_eq_succ_of_ne_zero (Nat.ne_zero_of_lt enough)
      obtain ⟨here, nonnull, later⟩ := spells
      by_cases percent : ch = 0x25
      · refine ⟨[], ch :: rest, some i, [i], i, ?_, rfl, rfl, ⟨here, nonnull, later⟩, le_rfl, rfl, by simp,
          Or.inr ⟨rfl, rest, by rw [percent]⟩⟩
        rw [interpretText, if_pos (here.trans percent)]
        rfl
      · have shown : interpretChar ch vga = .ok (render (FormatPiece.items mem length (slot next)
            (if ch = 0x0a then .newline else .char ch)) vga) := by
          rw [interpretChar]
          split_ifs with newline
          · rw [vgaPad_eq onScreen]
            rfl
          · rfl
        have parsed := parseFormat_char percent rest
        have none : (if ch = 0x0a then FormatPiece.newline else .char ch).arguments = 0 := by split_ifs <;> rfl
        generalize (if ch = 0x0a then FormatPiece.newline else .char ch) = piece at *
        have kept := render_extends onScreen (piece.items mem length (slot next))
        obtain ⟨text, tail, stop, reads, j, ran, split, count, spells', low, place, inside, ends⟩ :=
          ih later kept.onScreen (Nat.lt_of_succ_lt_succ enough)
        refine ⟨piece :: text, tail, stop, i :: reads, j, ?_, ?_, ?_, spells', by omega, ?_, ?_, ends⟩
        · have first : expandFormat mem length slot (piece :: text) next =
              piece.items mem length (slot next) ++ expandFormat mem length slot text next := by
            rw [expandFormat, none]
            rfl
          rw [interpretText, here, if_neg percent, if_neg nonnull, shown, first, render_append]
          simp only [bind, Except.bind, ran]
        · rw [parsed, split, List.cons_append]
        · rw [argumentCount_cons, none, count]
        · rw [place, List.length_cons]
          omega
        · intro index member
          rw [List.length_cons]
          rcases List.mem_cons.mp member with rfl | after
          · omega
          · have bound := inside index after
            omega

/-- Behind a percent sign an argument or a percent sign is printed, or nothing is printed and the sign is left out. -/
theorem printArg_spec {behind : List (BitVec 8)} (spells : format.SpellsAt i behind)
    (valid : ArgsMatch mem length slot (parseFormat (0x25 :: behind)) next) (vga : Vga) :
    ∃ advance pieces left,
      printArg mem uninit (format i) ⟨slot, next⟩ vga = .ok (advance + 1, ⟨slot, next + argumentCount pieces⟩,
          render (expandFormat mem length slot pieces next) vga) ∧
        parseFormat (0x25 :: behind) = pieces ++ parseFormat left ∧ format.SpellsAt (i + advance) left ∧
        advance + left.length = behind.length := by
  cases behind with
  | nil =>
      have null : format i = 0 := spells
      rw [null]
      exact ⟨0, [], [], printArg_other (by decide) (by decide) _ _, rfl, spells, rfl⟩
  | cons specifier left =>
      obtain ⟨here, nonnull, later⟩ := spells
      have parsed := parseFormat_percent specifier left
      rw [here]
      split_ifs at parsed with known percent
      · rw [parsed] at valid
        have printed := @printArg_argument mem uninit length slot next specifier known
          (fun same => valid.1 (by rw [same])) vga
        refine ⟨1, [.argument specifier], left, ?_, parsed, later, by rw [List.length_cons, Nat.add_comm]⟩
        rw [printed, expandFormat, expandFormat, List.append_nil, FormatPiece.items, render_some]
        rfl
      · refine ⟨1, [.percent], left, ?_, parsed, later, by rw [List.length_cons, Nat.add_comm]⟩
        rw [percent]
        rfl
      · exact ⟨0, [], specifier :: left, printArg_other known percent _ _, parsed, ⟨here, nonnull, later⟩,
          Nat.zero_add _⟩

/-- The outer loop prints the expansion of the format, takes its arguments, and reads up to the null character. -/
theorem interpretFrom_spec {steps : Nat} (spells : format.SpellsAt i rest) (onScreen : vga.OnScreen)
    (enough : rest.length < steps) (small : rest.length < walkLimit)
    (valid : ArgsMatch mem length slot (parseFormat rest) next) :
    ∃ reads, interpretFrom mem uninit format steps i ⟨slot, next⟩ vga =
        .ok (⟨slot, next + argumentCount (parseFormat rest)⟩,
          render (expandFormat mem length slot (parseFormat rest) next) vga, reads) ∧
      ∀ index ∈ reads, index ≤ i + rest.length := by
  induction steps generalizing i rest vga next with
  | zero => exact absurd enough (Nat.not_lt_zero _)
  | succ steps ih =>
      obtain ⟨text, tail, stop, reads, j, ran, split, count, spells', low, place, inside, ends⟩ :=
        @interpretText_spec mem format length slot vga i next rest walkLimit spells onScreen small
      have kept := render_extends onScreen (expandFormat mem length slot text next)
      rw [split] at valid ⊢
      have same : next + argumentCount text = next := by rw [count, Nat.add_zero]
      have valid' := argsMatch_append valid
      rw [same] at valid'
      rw [expandFormat_append, argumentCount_append, ← Nat.add_assoc, same, render_append]
      generalize render (expandFormat mem length slot text next) vga = middle at *
      rcases ends with ⟨rfl, rfl⟩ | ⟨rfl, behind, rfl⟩
      · refine ⟨reads, ?_, inside⟩
        rw [interpretFrom, ran]
        rfl
      · obtain ⟨-, -, after⟩ := spells'
        rw [List.length_cons] at place
        obtain ⟨advance, pieces, left, printed, parsed, spells'', total⟩ :=
          @printArg_spec mem uninit format length slot (j + 1) next behind after valid' middle
        rw [parsed] at valid' ⊢
        have shown := render_extends kept.onScreen (expandFormat mem length slot pieces next)
        obtain ⟨later, looped, bound⟩ := @ih _ (j + 1 + advance) (next + argumentCount pieces) left spells'' shown.onScreen
          (by omega) (by omega) (argsMatch_append valid')
        rw [expandFormat_append, argumentCount_append, ← Nat.add_assoc, render_append]
        refine ⟨reads ++ (j + 1) :: later, ?_, ?_⟩
        · have next' : j + (advance + 1) = j + 1 + advance := by omega
          rw [interpretFrom, ran]
          simp only [bind, Except.bind, printed, next', looped]
        · intro index member
          rw [List.mem_append, List.mem_cons] at member
          rcases member with before | rfl | behind'
          · exact inside index before
          · omega
          · have last := bound index behind'
            omega

end

/-- From a screen that the driver reaches, a format with matching arguments is read up to its null character, and
its expansion is printed on cells of the screen. Each specifier takes the next argument. -/
theorem interpret_expands {mem : Memory} {uninit format : Str} {len : Nat} {length : BitVec 64 → Nat} {args : VaList}
    {vga : Vga} (terminated : format.Terminated len) (reachable : vga.Reachable)
    (valid : ArgsMatch mem length args.slot (parseFormat ((List.range len).map format)) args.next) :
    ∃ vga' reads, interpret mem uninit format args vga =
        .ok (⟨args.slot, args.next + argumentCount (parseFormat ((List.range len).map format))⟩, vga', reads) ∧
      (∀ index ∈ reads, index ≤ len) ∧
      vga' = render (expandFormat mem length args.slot (parseFormat ((List.range len).map format)) args.next) vga ∧
      vga.Extends vga' := by
  have spells := terminated.spellsAt (Nat.zero_add len)
  rw [← List.range_eq_range'] at spells
  have count : ((List.range len).map format).length = len := by rw [List.length_map, List.length_range]
  have small : ((List.range len).map format).length < walkLimit := by
    rw [count]
    exact terminated.small
  obtain ⟨reads, ran, inside⟩ := @interpretFrom_spec mem uninit format length args.slot vga 0 args.next _ walkLimit spells
    reachable.onScreen small small valid
  rw [count, Nat.zero_add] at inside
  exact ⟨_, reads, ran, inside, rfl, render_extends reachable.onScreen _⟩

/-- The format `%u%` prints its argument after a reset. -/
theorem interpret_expands_number :
    ∃ vga' reads, interpret (fun _ => 0) (fun _ => 0)
        (fun index => [0x25, 0x75, 0x25].getD index 0) ⟨fun _ => 42, 0⟩ (vgaReset ⟨0, 0, []⟩) =
        .ok (⟨fun _ => 42, 1⟩, vga', reads) ∧ (∀ index ∈ reads, index ≤ 3) ∧
      vga' = render [some 0x34, some 0x32] (vgaReset ⟨0, 0, []⟩) ∧ (vgaReset ⟨0, 0, []⟩).Extends vga' := by
  have terminated : Str.Terminated (fun index => [0x25, 0x75, 0x25].getD index 0) 3 := ⟨by decide, by decide, by decide⟩
  have valid : ArgsMatch (fun _ => 0) (fun _ => 0) (fun _ => 42)
      (parseFormat ((List.range 3).map fun index => [0x25, 0x75, 0x25].getD index 0)) 0 := by
    exact ⟨fun same => absurd same (by decide), trivial⟩
  obtain ⟨vga', reads, ran, inside, printed, extends'⟩ := @interpret_expands (fun _ => 0) (fun _ => 0) _ 3 (fun _ => 0)
    ⟨fun _ => 42, 0⟩ _ terminated (Vga.Reachable.reset _) valid
  exact ⟨vga', reads, ran, inside, printed, extends'⟩

end B0s
