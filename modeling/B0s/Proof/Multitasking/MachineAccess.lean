import B0s.Construction.Multitasking.Switch

/-
This file proves what the machine reads and writes through its tables where they lead to known places.
-/

namespace B0s
open ByteMemory

/-- The loaded tables lead each address of an area to its place, and the places of the whole show a virtual memory. -/
structure Machine.Reaches (m : Machine) (place : Nat → Nat) (area whole : Nat → Prop) (shown : Memory) : Prop where
  places : Places (m.tables m.cr3) place area
  part : ∀ addr, area addr → whole addr
  apart : PlacedApart place whole
  shows : Shows place whole m.mem shown

/-- The registers that pops leave, where the popped words come from a virtual memory. -/
def loadAll (shown : Memory) : List (BitVec 64 → Regs → Regs) → Nat → Regs → Regs
  | [], _, regs => regs
  | set :: sets, base, regs =>
      loadAll shown sets (base + 8) (set (loadWord shown base) { regs with rsp := regs.rsp + 8 })

section
variable {m : Machine} {place : Nat → Nat} {area whole : Nat → Prop} {shown : Memory} {base size : Nat}

theorem Machine.Reaches.regs (reaches : m.Reaches place area whole shown) (regs : Regs) :
    Machine.Reaches { m with regs := regs } place area whole shown :=
  ⟨reaches.places, reaches.part, reaches.apart, reaches.shows⟩

theorem Machine.Reaches.load (reaches : m.Reaches place area whole shown) {addr : BitVec 64} (here : addr.toNat = base)
    (room : base + 8 ≤ 2 ^ 64) (inside : ∀ addr, base ≤ addr → addr < base + 8 → area addr) :
    m.load addr = some (loadWord shown base) := by
  rw [Machine.load, here, if_pos (reaches.places.translates room inside)]
  exact congrArg some (reaches.shows.loadWord reaches.places room inside reaches.part)

/-- A write in the area changes the shown bytes there. -/
theorem Machine.Reaches.put (reaches : m.Reaches place area whole shown) {bytes : Memory → Memory} {shown' : Memory}
    (room : base + size ≤ 2 ^ 64) (inside : ∀ addr, base ≤ addr → addr < base + size → area addr)
    (put : ∀ mem addr, base ≤ addr → addr < base + size → bytes mem addr = shown' addr)
    (kept : ∀ addr, whole addr → addr < base ∨ base + size ≤ addr → shown' addr = shown addr) :
    ∃ mem', m.put base size bytes = some { m with mem := mem' } ∧
      Machine.Reaches { m with mem := mem' } place area whole shown' := by
  rw [Machine.put, if_pos (reaches.places.translates room inside)]
  refine ⟨_, rfl, reaches.places, reaches.part, reaches.apart, ?_⟩
  exact reaches.shows.putBytes reaches.places reaches.apart room inside reaches.part (put _) kept

theorem Machine.Reaches.store (reaches : m.Reaches place area whole shown) (small : ∀ addr, whole addr → addr < 2 ^ 64)
    {addr : BitVec 64} (value : BitVec 64) (here : addr.toNat = base) (room : base + 8 ≤ 2 ^ 64)
    (inside : ∀ addr, base ≤ addr → addr < base + 8 → area addr) :
    ∃ mem', m.store addr value = some { m with mem := mem' } ∧
      Machine.Reaches { m with mem := mem' } place area whole (storeWord shown base value) := by
  rw [Machine.store, here]
  apply reaches.put room inside
  · intro mem addr low high
    have near : distance base addr < 8 := by
      unfold distance
      omega
    rw [storeWord, storeWord, if_pos near, if_pos near]
  · intro addr listed outside
    exact storeWord_outside _ _ room (small addr listed) outside

theorem Machine.Reaches.clear (reaches : m.Reaches place area whole shown) (small : ∀ addr, whole addr → addr < 2 ^ 64)
    {addr : BitVec 64} (size : Nat) (here : addr.toNat = base) (room : base + size ≤ 2 ^ 64)
    (inside : ∀ addr, base ≤ addr → addr < base + size → area addr) :
    ∃ mem', m.clear addr size = some { m with mem := mem' } ∧
      Machine.Reaches { m with mem := mem' } place area whole (fill shown base 0 size) := by
  rw [Machine.clear, here]
  apply reaches.put room inside
  · intro mem addr low high
    have near : distance base addr < size := by
      unfold distance
      omega
    rw [fill, fill, if_pos near, if_pos near]
  · intro addr listed outside
    exact fill_outside _ _ room (small addr listed) outside

theorem Machine.Reaches.push (reaches : m.Reaches place area whole shown) (small : ∀ addr, whole addr → addr < 2 ^ 64)
    (value : BitVec 64) (room : 8 ≤ m.regs.rsp.toNat)
    (inside : ∀ addr, m.regs.rsp.toNat - 8 ≤ addr → addr < m.regs.rsp.toNat → area addr) :
    ∃ mem', m.push value = some { m with mem := mem', regs := { m.regs with rsp := m.regs.rsp - 8 } } ∧
      Machine.Reaches { m with mem := mem', regs := { m.regs with rsp := m.regs.rsp - 8 } } place area whole
        (storeWord shown (m.regs.rsp.toNat - 8) value) := by
  have here : (m.regs.rsp - 8).toNat = m.regs.rsp.toNat - 8 := by bv_omega
  have bound := m.regs.rsp.isLt
  obtain ⟨mem', stored, after⟩ := reaches.store small value here (by omega) fun addr low high =>
    inside addr low (by omega)
  refine ⟨mem', ?_, after.regs _⟩
  rw [Machine.push]
  simp only [stored, bind, Option.bind]

/-- The pushed values lie below the stack pointer, each one below the last. -/
theorem Machine.Reaches.pushAll (reaches : m.Reaches place area whole shown)
    (small : ∀ addr, whole addr → addr < 2 ^ 64) {values : List (BitVec 64)} (room : 8 * values.length ≤ m.regs.rsp.toNat)
    (inside : ∀ addr, m.regs.rsp.toNat - 8 * values.length ≤ addr → addr < m.regs.rsp.toNat → area addr) :
    ∃ mem', m.pushAll values = some { m with
        mem := mem', regs := { m.regs with rsp := m.regs.rsp - BitVec.ofNat 64 (8 * values.length) } } ∧
      Machine.Reaches { m with
        mem := mem', regs := { m.regs with rsp := m.regs.rsp - BitVec.ofNat 64 (8 * values.length) } } place area whole
          (pushWords shown m.regs.rsp.toNat values) := by
  induction values generalizing m shown with
  | nil =>
      have same : m.regs.rsp - BitVec.ofNat 64 (8 * ([] : List (BitVec 64)).length) = m.regs.rsp := by
        rw [List.length_nil]
        bv_omega
      rw [same]
      exact ⟨m.mem, rfl, reaches⟩
  | cons value values ih =>
      rw [List.length_cons] at room inside
      obtain ⟨pushed, done, after⟩ := reaches.push small value (by omega) fun addr low high => inside addr (by omega) high
      have below : (m.regs.rsp - 8).toNat = m.regs.rsp.toNat - 8 := by bv_omega
      have total : m.regs.rsp - 8 - BitVec.ofNat 64 (8 * values.length) =
          m.regs.rsp - BitVec.ofNat 64 (8 * (value :: values).length) := by
        rw [List.length_cons]
        bv_omega
      obtain ⟨mem', rest, result⟩ := ih after (by dsimp only; omega) fun addr low high =>
        inside addr (by dsimp only at low; omega) (by dsimp only at high; omega)
      refine ⟨mem', ?_, ?_⟩
      · rw [Machine.pushAll]
        simp only [done, bind, Option.bind]
        rw [rest]
        dsimp only
        rw [total]
      · dsimp only at result
        rw [total, below] at result
        exact result

/-- The pops load the words above the stack pointer. -/
theorem Machine.Reaches.popAll (reaches : m.Reaches place area whole shown) {sets : List (BitVec 64 → Regs → Regs)}
    (keeps : ∀ set ∈ sets, ∀ value regs, (set value regs).rsp = regs.rsp)
    (room : m.regs.rsp.toNat + 8 * sets.length ≤ 2 ^ 64)
    (inside : ∀ addr, m.regs.rsp.toNat ≤ addr → addr < m.regs.rsp.toNat + 8 * sets.length → area addr) :
    m.popAll sets = some { m with regs := loadAll shown sets m.regs.rsp.toNat m.regs } := by
  induction sets generalizing m with
  | nil => rfl
  | cons set sets ih =>
      rw [List.length_cons] at room inside
      have word := reaches.load rfl (by omega) fun addr low high => inside addr low (by omega)
      rw [Machine.popAll, Machine.pop, loadAll]
      simp only [word, bind, Option.bind]
      have rsp := keeps set List.mem_cons_self (loadWord shown m.regs.rsp.toNat) { m.regs with rsp := m.regs.rsp + 8 }
      rcases sets with - | ⟨next, sets⟩
      · rfl
      · rw [List.length_cons] at room inside
        have above : (set (loadWord shown m.regs.rsp.toNat) { m.regs with rsp := m.regs.rsp + 8 }).rsp.toNat =
            m.regs.rsp.toNat + 8 := by
          rw [rsp]
          bv_omega
        have rest := ih (reaches.regs (set (loadWord shown m.regs.rsp.toNat) { m.regs with rsp := m.regs.rsp + 8 }))
          (fun other member => keeps other (List.mem_cons_of_mem _ member)) (by rw [above, List.length_cons]; omega)
          (by rw [above, List.length_cons]; exact fun addr low high => inside addr (by omega) (by omega))
        rw [above] at rest
        exact rest

/-- Pops change registers only. -/
theorem Machine.popAll_keeps {sets : List (BitVec 64 → Regs → Regs)} {m' : Machine} (done : m.popAll sets = some m') :
    ∃ regs, m' = { m with regs := regs } := by
  induction sets generalizing m with
  | nil => exact ⟨m.regs, (Option.some.inj done).symm⟩
  | cons set sets ih =>
      obtain ⟨popped, here, rest⟩ := Option.bind_eq_some_iff.mp done
      obtain ⟨value, -, same⟩ := Option.bind_eq_some_iff.mp here
      obtain rfl := Option.some.inj same
      obtain ⟨regs, kept⟩ := ih rest
      exact ⟨regs, kept⟩

theorem loadAll_rsp {sets : List (BitVec 64 → Regs → Regs)} {regs : Regs}
    (keeps : ∀ set ∈ sets, ∀ value regs, (set value regs).rsp = regs.rsp) :
    (loadAll shown sets base regs).rsp = regs.rsp + BitVec.ofNat 64 (8 * sets.length) := by
  induction sets generalizing base regs with
  | nil =>
      rw [loadAll, List.length_nil]
      bv_omega
  | cons set sets ih =>
      rw [loadAll, ih fun other member => keeps other (List.mem_cons_of_mem _ member), keeps set List.mem_cons_self,
        List.length_cons]
      dsimp only
      bv_omega

end

end B0s
