import B0s.Library.Runs
import B0s.Proof.Lib.Bitmap
import B0s.Construction.Multitasking.Pid

/-
This file settles when all processes have distinct pids.
-/

namespace B0s
open ByteMemory Runs

/-- A call creates a process, whatever its unassigned local holds. -/
def CreatesProcess (unassigned : Nat) (state state' : Pids) : Prop :=
  processCreate unassigned state = .ok state'

/-- The first pids are handed out in order, and the bootstrap process has the pid 0 as well. -/
structure Pids.Counted (state : Pids) (count : Nat) : Prop where
  len : state.pidBitmap.len = u16Max
  size : state.pidBitmap.sizeInBlock = 1024
  few : count ≤ u16Max
  bits : ∀ j < 65536, state.pidBitmap.bit state.mem j = decide (count ≤ j)
  pids : state.pids = (List.range count).reverse ++ [0]

section
variable {state state' : Pids} {count : Nat}

theorem processInit_counted (ptr : Nat) (mem : Memory) (nonnull : ptr ≠ NULL) :
    (processInit ptr mem).Counted 0 := by
  have shape : processInit ptr mem = ⟨⟨u16Max, 1024, ptr⟩, fill mem ptr 0xff 8192, [0]⟩ := by
    simp only [processInit, bitmapInitKheap, if_neg nonnull]
    rfl
  rw [shape]
  refine ⟨rfl, rfl, Nat.zero_le _, ?_, rfl⟩
  intro j small
  have filled : ByteMemory.bit (fill mem ptr (BitVec.allOnes 8) 8192)
      (ByteMemory.place ptr (64 * (j / 64) + (63 - j % 64))) = true :=
    bit_fill_place mem ptr (by omega) (by norm_num)
  rw [Bitmap.bit, Bitmap.place]
  simpa using filled

/-- A process that is created gets the number of processes created before it. -/
theorem Pids.Counted.create (counted : state.Counted count) {unassigned : Nat}
    (creates : processCreate unassigned state = .ok state') : state'.Counted (count + 1) := by
  obtain ⟨len, size, few, bits, pids⟩ := counted
  have limit : state.pidBitmap.len = 65535 := len
  have bound : count ≤ 65535 := few
  have fits : state.pidBitmap.Fits := ⟨by omega, by omega⟩
  obtain ⟨⟨pid, next⟩, got, done⟩ := Outcome.bind_eq_ok.mp creates
  obtain rfl := Except.ok.inj done
  rw [processGetUnusedPid] at got
  split_ifs at got with null
  rcases bitmapFindAndSet_spec state.mem fits unassigned with
    ⟨all, -⟩ | ⟨j, mem', found, inside, set, first, writes⟩
  · have last := all 65535 (by omega)
    rw [bits 65535 (by omega)] at last
    simp only [decide_eq_false_iff_not] at last
    omega
  · rw [size] at inside
    rw [bits j (by omega), decide_eq_true_eq] at set
    have same : j = count := by
      by_contra different
      have clear := first count (by omega)
      rw [bits count (by omega)] at clear
      simp at clear
    subst same
    rw [found] at got
    dsimp only at got
    split_ifs at got with exhausted
    have short : j < 65535 := by
      by_contra long
      apply exhausted
      unfold u16
      omega
    have value : u16 (min j state.pidBitmap.len) = j := by
      unfold u16
      omega
    have parts := Prod.mk.inj (Except.ok.inj got)
    rw [value] at parts
    obtain ⟨rfl, rfl⟩ := parts
    refine ⟨len, size, short, ?_, ?_⟩
    · intro k small
      by_cases here : k = j
      · subst here
        simpa using writes.self
      · have apart : state.pidBitmap.place k ≠ state.pidBitmap.place j := fun equal =>
          here (Bitmap.place_injective (by omega) (by omega) equal)
        show state.pidBitmap.bit mem' k = _
        rw [writes.other apart, bits k small]
        apply decide_eq_decide.mpr
        omega
    · show j :: state.pids = _
      rw [pids, List.range_succ, List.reverse_append]
      rfl

/-- A run of successful calls hands out the pids in order. -/
theorem Pids.Counted.run {calls : List Nat} (counted : state.Counted count)
    (path : Path CreatesProcess calls state state') : state'.Counted (count + calls.length) := by
  induction calls generalizing state count with
  | nil => exact path ▸ counted
  | cons unassigned calls ih =>
      obtain ⟨middle, creates, rest⟩ := path
      have later := ih (counted.create creates) rest
      rw [List.length_cons]
      have sum : count + 1 + calls.length = count + (calls.length + 1) := by omega
      rw [← sum]
      exact later

end

/-- After every sequence of successful creations, all processes have distinct pids exactly when no
process was created. -/
theorem pidRun_distinct_iff (ptr : Nat) (mem : Memory) (calls : List Nat) (state : Pids)
    (path : Path CreatesProcess calls (processInit ptr mem) state) : state.pids.Nodup ↔ calls = [] := by
  cases calls with
  | nil =>
      have same : processInit ptr mem = state := path
      rw [← same]
      simp [processInit]
  | cons unassigned calls =>
      have nonnull : ptr ≠ NULL := by
        rintro rfl
        obtain ⟨middle, creates, -⟩ := path
        cases creates
      have counted := (processInit_counted ptr mem nonnull).run path
      rw [counted.pids, List.length_cons]
      constructor
      · intro distinct
        have apart := (List.nodup_append.mp distinct).2.2 0 (by simp) 0 (by simp)
        exact absurd rfl apart
      · intro empty
        cases empty

/-- Right after its initialisation the kernel has one process. -/
theorem pidRun_distinct_iff_boot : (processInit 0x1000 fun _ => 0).pids.Nodup :=
  (pidRun_distinct_iff 0x1000 (fun _ => 0) [] _ rfl).mpr rfl

/-- The first process that is created shares the pid 0 with the bootstrap process. -/
theorem pidRun_shares_zero :
    ∃ state, Path CreatesProcess [0] (processInit 0x1000 fun _ => 0) state ∧ state.pids = [0, 0] ∧
      ¬state.pids.Nodup := by
  have evaluated : (do
      let state ← processCreate 0 (processInit 0x1000 fun _ => 0)
      Except.ok state.pids : Outcome (List Nat)) = .ok [0, 0] := by
    decide +kernel
  obtain ⟨state, created, rest⟩ := Outcome.bind_eq_ok.mp evaluated
  have pids := Except.ok.inj rest
  refine ⟨state, ⟨state, created, rfl⟩, pids, ?_⟩
  rw [pids]
  decide

end B0s
