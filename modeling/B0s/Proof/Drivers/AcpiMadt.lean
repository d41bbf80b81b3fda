import B0s.Library.OffsetChain
import B0s.Construction.Drivers.Acpi
import B0s.Proof.Machine

/-
This file proves when `acpi_madt_find` stays inside the table and finds the first entry of a type.
-/

namespace B0s
open ByteMemory OffsetChain

/-- The offset behind an entry. -/
def madtNext (table : Str) (entry : Nat) : Nat := entry + (table (entry + 1)).toNat

/-- The entries from an offset on, each of which leads to the next one by its length. -/
abbrev MadtChain (table : Str) (stop : Nat) : Nat → Nat → Prop := Chain (madtNext table) (fun _ => False) stop

/-- The first entry of a type, if there is one. -/
def FirstEntry (table : Str) (type : BitVec 8) (stop start : Nat) : Option Nat → Prop
  | some entry => IsLeast {entry | MadtChain table stop start entry ∧ table entry = type} entry
  | none => ∀ entry, MadtChain table stop start entry → table entry ≠ type

/-- The entries up to the first one of a type, without it, have their two bytes inside the table and a length. -/
def EntriesSized (table : Str) (type : BitVec 8) (stop start : Nat) : Prop :=
  ∀ entry, MadtChain table stop start entry →
    (∀ before ≤ entry, MadtChain table stop start before → table before ≠ type) →
      entry + 1 < stop ∧ table (entry + 1) ≠ 0

section
variable {table : Str} {type : BitVec 8} {stop entry : Nat}

theorem le_madtNext (table : Str) (entry : Nat) : entry ≤ madtNext table entry :=
  Nat.le_add_right entry _

theorem firstEntry_here (inside : entry < stop) (same : table entry = type) :
    FirstEntry table type stop entry (some entry) :=
  ⟨⟨Chain.here inside, same⟩, fun _ member => member.1.le (le_madtNext table)⟩

theorem firstEntry_skip (inside : entry < stop) (different : table entry ≠ type) {found : Option Nat}
    (first : FirstEntry table type stop (madtNext table entry) found) : FirstEntry table type stop entry found := by
  have skip : ∀ {other}, MadtChain table stop entry other ∧ table other = type ↔
      MadtChain table stop (madtNext table entry) other ∧ table other = type :=
    fun {other} => @chain_skip _ _ _ _ other (fun other => table other = type) inside not_false different
  cases found with
  | none => exact fun other chain same => first other (skip.mp ⟨chain, same⟩).1 same
  | some other => exact ⟨skip.mpr first.1, fun later member => first.2 (skip.mp member)⟩

/-- An entry of another type has its bytes inside the table, and the entries behind it are as good as it. -/
theorem entriesSized_iff (inside : entry < stop) (different : table entry ≠ type) :
    EntriesSized table type stop entry ↔
      (entry + 1 < stop ∧ table (entry + 1) ≠ 0) ∧ EntriesSized table type stop (madtNext table entry) := by
  constructor
  · intro sized
    refine ⟨sized entry (Chain.here inside) ?_, ?_⟩
    · intro before low chain
      rwa [Nat.le_antisymm low (chain.le (le_madtNext table))]
    · intro later chain others
      apply sized later (Chain.there inside not_false chain)
      intro before low chain'
      rcases (chain_iff.mp chain').2 with rfl | ⟨-, rest⟩
      · exact different
      · exact others before low rest
  · rintro ⟨here, sized⟩ later chain others
    rcases (chain_iff.mp chain).2 with rfl | ⟨-, rest⟩
    · exact here
    · exact sized later rest fun before low chain' => others before low (Chain.there inside not_false chain')

/-- With lengths that are not zero, the walk ends and finds the first entry. -/
theorem acpiMadtFindFrom_spec {steps : Nat} (enough : stop - entry < steps) (sized : EntriesSized table type stop entry) :
    ∃ found reads, acpiMadtFindFrom table type stop steps entry = .ok (found, reads) ∧
      FirstEntry table type stop entry found ∧ ∀ offset ∈ reads, offset < stop := by
  induction steps generalizing entry with
  | zero => exact absurd enough (Nat.not_lt_zero _)
  | succ steps ih =>
      rw [acpiMadtFindFrom]
      split_ifs with inside same
      · exact ⟨some entry, [entry], rfl, firstEntry_here inside same, List.forall_mem_singleton.mpr inside⟩
      · obtain ⟨⟨second, positive⟩, rest⟩ := (entriesSized_iff inside same).mp sized
        have advance : (table (entry + 1)).toNat ≠ 0 := fun zero => positive (BitVec.eq_of_toNat_eq zero)
        have closer : stop - madtNext table entry < steps := by
          unfold madtNext
          omega
        obtain ⟨found, reads, ran, first, bound⟩ := ih closer rest
        rw [madtNext] at ran
        refine ⟨found, entry :: (entry + 1) :: reads, ?_, firstEntry_skip inside same first, ?_⟩
        · rw [ran]
          rfl
        · exact List.forall_mem_cons.mpr ⟨inside, List.forall_mem_cons.mpr ⟨second, bound⟩⟩
      · exact ⟨none, [], rfl, fun other chain => absurd chain (not_chain_of_le (Nat.le_of_not_lt inside)),
          fun offset member => absurd member List.not_mem_nil⟩

/-- An entry of length zero leads to itself. -/
theorem acpiMadtFindFrom_stuck (inside : entry < stop) (different : table entry ≠ type) (zero : table (entry + 1) = 0)
    (steps : Nat) : acpiMadtFindFrom table type stop steps entry = .error .diverges := by
  induction steps with
  | zero => rfl
  | succ steps ih =>
      rw [acpiMadtFindFrom, if_pos inside, if_neg different, zero]
      exact congrArg (· >>= _) ih

/-- A walk that ends and stays inside the table meets lengths that are not zero. -/
theorem acpiMadtFindFrom_sized {steps : Nat} {found : Option Nat} {reads : List Nat}
    (ran : acpiMadtFindFrom table type stop steps entry = .ok (found, reads))
    (bound : ∀ offset ∈ reads, offset < stop) : EntriesSized table type stop entry := by
  induction steps generalizing entry reads with
  | zero => cases ran
  | succ steps ih =>
      have whole := ran
      rw [acpiMadtFindFrom] at ran
      split_ifs at ran with inside same
      · intro later chain others
        exact absurd same (others entry (chain.le (le_madtNext table)) (Chain.here inside))
      · obtain ⟨⟨found', reads'⟩, walked, result⟩ := Outcome.bind_eq_ok.mp ran
        obtain ⟨rfl, rfl⟩ := Prod.mk.inj (Except.ok.inj result)
        have second : entry + 1 < stop := bound _ (by simp)
        refine (entriesSized_iff inside same).mpr ⟨⟨second, ?_⟩, ?_⟩
        · intro zero
          rw [acpiMadtFindFrom_stuck inside same zero] at whole
          cases whole
        · exact ih walked fun offset member => bound offset (by simp [member])
      · intro later chain
        exact absurd chain (not_chain_of_le (Nat.le_of_not_lt inside))

end

/-- The table that is searched was found before, or it is looked up. -/
def acpiMadtTable (mem : Memory) (rsdt madt : Nat) : Nat :=
  if madt = NULL then (acpiFindTable mem rsdt acpiMadtSignature).1 else madt

/-- The table that is searched passes the checksum, if there is one. -/
def MadtChecked (mem : Memory) (rsdt madt : Nat) : Prop :=
  acpiMadtTable mem rsdt madt ≠ NULL → checksum (bytesAt mem (acpiMadtTable mem rsdt madt))
    (loadU32 mem (acpiHeaderLength (acpiMadtTable mem rsdt madt))) = 0

section
variable {mem : Memory} {rsdt madt : Nat}

theorem acpiMadtLoad_missing (missing : acpiMadtTable mem rsdt madt = NULL) :
    acpiMadtLoad mem rsdt madt = .error .nullAccess := by
  unfold acpiMadtTable at missing
  unfold acpiMadtLoad
  split_ifs at missing with first
  · rw [if_pos first, missing]
    rfl
  · exact absurd missing first

theorem acpiMadtLoad_spec (found : acpiMadtTable mem rsdt madt ≠ NULL) (checked : MadtChecked mem rsdt madt) :
    ∃ tested, acpiMadtLoad mem rsdt madt = .ok (acpiMadtTable mem rsdt madt, tested) ∧
      ∀ offset ∈ tested, offset < 8 ∨ offset < loadU32 mem (acpiHeaderLength (acpiMadtTable mem rsdt madt)) := by
  have valid := checked found
  unfold acpiMadtTable at *
  unfold acpiMadtLoad
  split_ifs at found valid ⊢ with first
  · dsimp only
    rw [if_neg found, if_neg (not_not.mpr valid)]
    refine ⟨_, rfl, ?_⟩
    intro offset member
    rcases List.mem_append.mp member with header | body
    · simp only [List.mem_cons, List.not_mem_nil, or_false] at header
      omega
    · exact Or.inr (List.mem_range.mp (List.mem_reverse.mp body))
  · exact ⟨[], rfl, fun offset member => absurd member List.not_mem_nil⟩

end

/-- The call ends, it reads bytes of the table, and it results in the first entry of the type, or in `NULL` if there is
none or no table exists. -/
def FindsMadt (mem : Memory) (rsdt madt : Nat) (type : BitVec 8) : Prop :=
  ∃ result reads, acpiMadtFind mem rsdt madt type = .ok (result, acpiMadtTable mem rsdt madt, reads) ∧
    (acpiMadtTable mem rsdt madt = NULL → result = NULL) ∧
    (acpiMadtTable mem rsdt madt ≠ NULL →
      (∀ offset ∈ reads, offset < loadU32 mem (acpiHeaderLength (acpiMadtTable mem rsdt madt))) ∧
      ∃ found, FirstEntry (bytesAt mem (acpiMadtTable mem rsdt madt)) type
          (loadU32 mem (acpiHeaderLength (acpiMadtTable mem rsdt madt))) acpiMadtEntries found ∧
        result = (found.map fun entry => u64 (acpiMadtTable mem rsdt madt + entry)).getD NULL)

section
variable {mem : Memory} {rsdt madt : Nat} {type : BitVec 8}

/-- A call that stays inside a table meets lengths that are not zero. -/
theorem FindsMadt.sized (finds : FindsMadt mem rsdt madt type) : acpiMadtTable mem rsdt madt ≠ NULL ∧
    8 ≤ loadU32 mem (acpiHeaderLength (acpiMadtTable mem rsdt madt)) ∧
      EntriesSized (bytesAt mem (acpiMadtTable mem rsdt madt)) type
        (loadU32 mem (acpiHeaderLength (acpiMadtTable mem rsdt madt))) acpiMadtEntries := by
  obtain ⟨result, reads, ran, -, inside⟩ := finds
  obtain ⟨⟨table, tested⟩, loaded, walk⟩ := Outcome.bind_eq_ok.mp ran
  obtain ⟨⟨found, walked⟩, ended, final⟩ := Outcome.bind_eq_ok.mp walk
  have shape : table = acpiMadtTable mem rsdt madt ∧ tested ++ ([4, 5, 6, 7] ++ walked) = reads := by
    cases found <;> simp_all
  obtain ⟨rfl, rfl⟩ := shape
  have exists_table : acpiMadtTable mem rsdt madt ≠ NULL := by
    intro missing
    rw [acpiMadtLoad_missing missing] at loaded
    cases loaded
  obtain ⟨bound, -⟩ := inside exists_table
  refine ⟨exists_table, bound 7 (by simp), acpiMadtFindFrom_sized ended ?_⟩
  intro offset member
  exact bound offset (List.mem_append_right _ (List.mem_append_right _ member))

/-- With a valid table, a call is right exactly when the table exists and has its length, and each entry up to the
first one of the type has its bytes inside the table and a length that is not zero. -/
theorem acpiMadtFind_findsMadt_iff (checked : MadtChecked mem rsdt madt) :
    FindsMadt mem rsdt madt type ↔ acpiMadtTable mem rsdt madt ≠ NULL ∧
      8 ≤ loadU32 mem (acpiHeaderLength (acpiMadtTable mem rsdt madt)) ∧
        EntriesSized (bytesAt mem (acpiMadtTable mem rsdt madt)) type
          (loadU32 mem (acpiHeaderLength (acpiMadtTable mem rsdt madt))) acpiMadtEntries := by
  refine ⟨FindsMadt.sized, ?_⟩
  rintro ⟨exists_table, header, sized⟩
  obtain ⟨tested, loaded, bound⟩ := acpiMadtLoad_spec exists_table checked
  have small := loadU32_lt mem (acpiHeaderLength (acpiMadtTable mem rsdt madt))
  have enough : loadU32 mem (acpiHeaderLength (acpiMadtTable mem rsdt madt)) - acpiMadtEntries < walkLimit := by
    unfold walkLimit
    omega
  obtain ⟨found, walked, ran, first, inside⟩ := acpiMadtFindFrom_spec enough sized
  have called : acpiMadtFind mem rsdt madt type = .ok ((found.map fun entry => u64 (acpiMadtTable mem rsdt madt +
      entry)).getD NULL, acpiMadtTable mem rsdt madt, tested ++ ([4, 5, 6, 7] ++ walked)) := by
    unfold acpiMadtFind
    simp only [loaded, ran, bind, Except.bind]
    cases found <;> rfl
  refine ⟨_, _, called, fun missing => absurd missing exists_table, fun _ => ⟨?_, found, first, rfl⟩⟩
  intro offset member
  rw [List.mem_append, List.mem_append] at member
  rcases member with before | word | behind
  · have low := bound offset before
    omega
  · simp only [List.mem_cons, List.not_mem_nil, or_false] at word
    omega
  · exact inside offset behind

end

/-- The only table of this memory is a `madt`, whose only entry has the type 0. -/
def sampleMadt (size : BitVec 8) : Memory := fun addr =>
  ([(higherHalfStart + 4, 40), (higherHalfStart + 9, 0xd7), (higherHalfStart + 37, 1), (higherHalfStart + 256, 0x41),
    (higherHalfStart + 257, 0x50), (higherHalfStart + 258, 0x49), (higherHalfStart + 259, 0x43),
    (higherHalfStart + 260, 46), (higherHalfStart + 265, 0xb5 - size), (higherHalfStart + 301, size)].lookup addr).getD 0

/-- An entry of two bytes is skipped. -/
theorem acpiMadtFind_findsMadt_iff_skip :
    MadtChecked (sampleMadt 2) higherHalfStart NULL ∧ FindsMadt (sampleMadt 2) higherHalfStart NULL 1 := by
  have place : acpiMadtTable (sampleMadt 2) higherHalfStart NULL = higherHalfStart + 256 := by decide +kernel
  have length : loadU32 (sampleMadt 2) (acpiHeaderLength (higherHalfStart + 256)) = 46 := by decide +kernel
  have checked : MadtChecked (sampleMadt 2) higherHalfStart NULL := by
    rw [MadtChecked, place, length]
    decide +kernel
  refine ⟨checked, (acpiMadtFind_findsMadt_iff checked).mpr ?_⟩
  rw [place, length]
  refine ⟨by decide, by decide, (entriesSized_iff (by decide) (by decide +kernel)).mpr ⟨by decide +kernel, ?_⟩⟩
  have behind : madtNext (bytesAt (sampleMadt 2) (higherHalfStart + 256)) acpiMadtEntries = 46 := by decide +kernel
  rw [behind]
  exact fun entry chain => absurd chain (not_chain_of_le le_rfl)

/-- The walk does not end at an entry of length 0. -/
theorem acpiMadtFind_zero_length :
    acpiMadtTable (sampleMadt 0) higherHalfStart NULL ≠ NULL ∧ MadtChecked (sampleMadt 0) higherHalfStart NULL ∧
      ¬FindsMadt (sampleMadt 0) higherHalfStart NULL 1 := by
  have place : acpiMadtTable (sampleMadt 0) higherHalfStart NULL = higherHalfStart + 256 := by decide +kernel
  have length : loadU32 (sampleMadt 0) (acpiHeaderLength (higherHalfStart + 256)) = 46 := by decide +kernel
  rw [MadtChecked, place, length]
  refine ⟨by decide, by decide +kernel, ?_⟩
  intro finds
  obtain ⟨-, -, sized⟩ := finds.sized
  rw [place, length] at sized
  have entry := ((entriesSized_iff (by decide) (by decide +kernel)).mp sized).1.2
  revert entry
  decide +kernel

end B0s
