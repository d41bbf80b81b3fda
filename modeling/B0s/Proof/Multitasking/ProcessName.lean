import B0s.Proof.Lib.StringRun
import B0s.Construction.Multitasking.ProcessRecord

/-
This file proves which names of a process fit in their field.
-/

namespace B0s
open ByteMemory

namespace ProcessRecord

/-- The name is written inside of its field, and the field holds the longest prefix that fits in with its null
character. -/
def NameFits (call : ProcessCall) (len : Nat) : Prop :=
  ∀ proc mem, proc + sizeofProcess ≤ 2 ^ 64 →
    DifferIn (Within (name proc) processNameMax) mem (setName proc call mem) ∧
      ∃ count, IsGreatest {count | count ≤ len ∧ count < processNameMax} count ∧
        Str.Terminated (fun index => setName proc call mem (name proc + index)) count ∧
        ∀ index < count, setName proc call mem (name proc + index) = call.name index

section
variable {call : ProcessCall} {len proc : Nat} {mem : Memory}

/-- The null character stands behind the copied characters. -/
theorem setName_eq (terminated : call.name.Terminated len) (room : proc + sizeofProcess ≤ 2 ^ 64) :
    setName proc call mem = Function.update
      (copyBytes mem (name proc) ((List.range (min processNameMax len)).map call.name))
      (name proc + min processNameMax len) 0 := by
  unfold sizeofProcess at room
  have place : u64 (name proc + min processNameMax len) = name proc + min processNameMax len :=
    Nat.mod_eq_of_lt (by unfold name processNameMax; omega)
  unfold setName memcpy storeU8
  dsimp only
  rw [strlen_eq terminated, place]
  rfl

/-- A short name stands in its field. -/
theorem setName_short (terminated : call.name.Terminated len) (room : proc + sizeofProcess ≤ 2 ^ 64)
    (short : len < processNameMax) :
    DifferIn (Within (name proc) (len + 1)) mem (setName proc call mem) ∧
      (∀ index < len, setName proc call mem (name proc + index) = call.name index) ∧
      setName proc call mem (name proc + len) = 0 := by
  have written := @setName_eq call len proc mem terminated room
  rw [Nat.min_eq_right (Nat.le_of_lt short)] at written
  have count : ((List.range len).map call.name).length = len := by rw [List.length_map, List.length_range]
  have inside : name proc + ((List.range len).map call.name).length ≤ 2 ^ 64 := by
    rw [count]
    unfold sizeofProcess at room
    unfold processNameMax at short
    unfold name
    omega
  rw [written]
  refine ⟨?_, ?_, Function.update_self _ _ _⟩
  · apply DifferIn.update_inside
    · apply (DifferIn.refl _ mem).copy_inside inside
      rintro addr ⟨low, high⟩
      exact ⟨low, by omega⟩
    · exact ⟨by omega, by omega⟩
  · intro index before
    rw [Function.update_of_ne (by omega), copyBytes_inside inside (by rw [count]; exact before), List.getElem_map,
      List.getElem_range]

/-- The null character of a long name stands behind the field. -/
theorem setName_long (terminated : call.name.Terminated len) (room : proc + sizeofProcess ≤ 2 ^ 64)
    (long : processNameMax ≤ len) : setName proc call mem (name proc + processNameMax) = 0 := by
  rw [setName_eq terminated room, Nat.min_eq_left long, Function.update_self]

end

/-- A name fits exactly when it is shorter than its field. -/
theorem setName_fits_iff {call : ProcessCall} {len : Nat} (terminated : call.name.Terminated len) :
    NameFits call len ↔ len < processNameMax := by
  constructor
  · intro fits
    by_contra long
    have room : 0 + sizeofProcess ≤ 2 ^ 64 := by decide
    obtain ⟨inside, -⟩ := fits 0 (fun _ => 1) room
    have kept := inside (name 0 + processNameMax) (by decide) (by unfold Within; omega)
    rw [setName_long terminated room (Nat.le_of_not_lt long)] at kept
    exact absurd kept (by decide)
  · intro short proc mem room
    obtain ⟨inside, chars, null⟩ := @setName_short call len proc mem terminated room short
    refine ⟨?_, len, ⟨⟨le_rfl, short⟩, fun count member => member.1⟩, ⟨?_, null, terminated.small⟩, chars⟩
    · apply inside.mono
      rintro addr - ⟨low, high⟩
      exact ⟨low, by omega⟩
    · intro index before
      rw [chars index before]
      exact terminated.chars index before

/-- A name of one character fits. -/
theorem setName_fits_iff_single :
    Str.Terminated (fun index => if index = 0 then 0x61 else 0) 1 ∧
      NameFits ⟨fun index => if index = 0 then 0x61 else 0, 0, 0⟩ 1 := by
  have terminated : Str.Terminated (fun index => if index = 0 then 0x61 else 0) 1 := ⟨by decide, by decide, by decide⟩
  exact ⟨terminated, (@setName_fits_iff ⟨fun index => if index = 0 then 0x61 else 0, 0, 0⟩ 1 terminated).mpr (by decide)⟩

/-- A name of 64 characters is written behind its field. -/
theorem setName_overruns :
    Str.Terminated (fun index => if index < 64 then 0x61 else 0) 64 ∧
      ¬NameFits ⟨fun index => if index < 64 then 0x61 else 0, 0, 0⟩ 64 := by
  have terminated : Str.Terminated (fun index => if index < 64 then 0x61 else 0) 64 :=
    ⟨fun index before => by simp [before], by decide, by decide⟩
  refine ⟨terminated, fun fits => ?_⟩
  have room : 0 + sizeofProcess ≤ 2 ^ 64 := by decide
  obtain ⟨inside, -⟩ := fits 0 (fun _ => 1) room
  have kept := inside 66 (by decide) (by unfold Within name processNameMax; decide)
  have written := @setName_long ⟨fun index => if index < 64 then 0x61 else 0, 0, 0⟩ 64 0 (fun _ => 1) terminated room le_rfl
  rw [show name 0 + processNameMax = 66 from rfl] at written
  rw [written] at kept
  exact absurd kept (by decide)

end ProcessRecord

end B0s
