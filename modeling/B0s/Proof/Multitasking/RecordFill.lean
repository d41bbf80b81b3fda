import B0s.Proof.Lib.BitmapStaticRun
import B0s.Proof.Lib.StringRun
import B0s.Proof.Mm.KheapStale
import B0s.Construction.Multitasking.ProcessRecord

/-
This file proves which bytes `process_create` writes in a new record, and which ones it reads.
-/

namespace B0s
open ByteMemory

/-- The words of a bitmap. -/
def Bitmap.Words (bm : Bitmap) : Nat → Prop := Within bm.bitmap (8 * bm.sizeInBlock)

section
variable {area : Nat → Prop} {mem mem' : Memory} {bm : Bitmap}

/-- A stored value is read back modulo the word size. -/
theorem loadU64_stored (addr value : Nat) (mem : Memory) : loadU64 (storeU64 addr value mem) addr = u64 value := by
  rw [loadU64, storeU64, loadWord_storeWord, BitVec.toNat_ofNat, u64]

/-- The words of a bitmap do not wrap around. -/
theorem Bitmap.word_eq (room : bm.bitmap + 8 * bm.sizeInBlock ≤ 2 ^ 64) {i : Nat} (inside : i < bm.sizeInBlock) :
    bm.word i = bm.bitmap + 8 * i := by
  unfold Bitmap.word u64 sizeofU64
  omega

/-- The search reads the words of the bitmap, so it finds the same index in both memories. -/
theorem bitmapFindAndSetFrom_differ (differ : DifferIn area mem mem') (room : bm.bitmap + 8 * bm.sizeInBlock ≤ 2 ^ 64)
    (spared : Spared area bm.bitmap (8 * bm.sizeInBlock)) (unassigned : Nat) {steps i : Nat}
    (inside : i + steps = bm.sizeInBlock) :
    (bitmapFindAndSetFrom bm unassigned steps i mem').1 = (bitmapFindAndSetFrom bm unassigned steps i mem).1 ∧
      DifferIn area (bitmapFindAndSetFrom bm unassigned steps i mem).2 (bitmapFindAndSetFrom bm unassigned steps i mem').2 := by
  induction steps generalizing i with
  | zero => exact ⟨rfl, differ⟩
  | succ steps ih =>
      have word := Bitmap.word_eq room (show i < bm.sizeInBlock by omega)
      have same : loadWord mem' (bm.word i) = loadWord mem (bm.word i) := by
        apply differ.loadWord (by omega)
        intro offset small
        have place := spared (8 * i + offset) (by omega)
        rwa [word, Nat.add_assoc]
      simp only [bitmapFindAndSetFrom, same]
      split_ifs with zero
      · exact ih (by omega)
      · exact ⟨rfl, differ.storeWord _ _⟩

/-- The search writes only words of the bitmap. -/
theorem bitmapFindAndSetFrom_words (room : bm.bitmap + 8 * bm.sizeInBlock ≤ 2 ^ 64) (unassigned : Nat) {steps i : Nat}
    (inside : i + steps = bm.sizeInBlock) :
    DifferIn bm.Words mem (bitmapFindAndSetFrom bm unassigned steps i mem).2 := by
  induction steps generalizing i with
  | zero => exact DifferIn.refl _ mem
  | succ steps ih =>
      have word := Bitmap.word_eq room (show i < bm.sizeInBlock by omega)
      simp only [bitmapFindAndSetFrom]
      split_ifs with zero
      · exact ih (by omega)
      · apply (DifferIn.refl _ mem).store_inside _ (by omega)
        rintro addr ⟨low, high⟩
        exact ⟨by omega, by omega⟩

/-- The pid depends on the words of the bitmap, and only they change. -/
theorem processGetUnusedPid_differ (differ : DifferIn area mem mem') (room : bm.bitmap + 8 * bm.sizeInBlock ≤ 2 ^ 64)
    (spared : Spared area bm.bitmap (8 * bm.sizeInBlock)) {unassigned pid : Nat} {pids : Pids}
    (got : processGetUnusedPid unassigned ⟨bm, mem, []⟩ = .ok (pid, pids)) :
    DifferIn bm.Words mem pids.mem ∧ ∃ pids', processGetUnusedPid unassigned ⟨bm, mem', []⟩ = .ok (pid, pids') ∧
      DifferIn area pids.mem pids'.mem := by
  have whole : 0 + bm.sizeInBlock = bm.sizeInBlock := Nat.zero_add _
  obtain ⟨index, kept⟩ := bitmapFindAndSetFrom_differ differ room spared unassigned whole
  have words := @bitmapFindAndSetFrom_words mem bm room unassigned _ _ whole
  unfold processGetUnusedPid bitmapFindAndSet at got ⊢
  dsimp only at got ⊢
  rw [index]
  split_ifs at got ⊢ with null full
  obtain ⟨rfl, rfl⟩ := Prod.mk.inj (Except.ok.inj got)
  exact ⟨words, _, rfl, kept⟩

end

namespace ProcessRecord

section
variable {area : Nat → Prop} {mem mem' : Memory} {text : KernelText} {proc stack : Nat} {uentry ustack : BitVec 64}

/-- A pointer outside the area is followed alike in both memories. -/
theorem storeThrough_differ (differ : DifferIn area mem mem') {pointer : Nat} (room : pointer + 8 ≤ 2 ^ 64)
    (spared : Spared area pointer 8) (offset : Nat) (value : BitVec 64) :
    DifferIn area (storeThrough pointer offset value mem) (storeThrough pointer offset value mem') := by
  rw [storeThrough, storeThrough, differ.loadU64 room spared]
  exact differ.storeWord _ _

theorem clearThrough_differ (differ : DifferIn area mem mem') {pointer : Nat} (room : pointer + 8 ≤ 2 ^ 64)
    (spared : Spared area pointer 8) (size : Nat) :
    DifferIn area (clearThrough pointer size mem) (clearThrough pointer size mem') := by
  rw [clearThrough, clearThrough, differ.loadU64 room spared]
  exact differ.fill _ _ _

/-- A part of a spared range is spared. -/
theorem Spared.part {base size : Nat} (spared : Spared area base size) {offset count : Nat} (inside : offset + count ≤ size) :
    Spared area (base + offset) count := by
  intro byte small
  rw [Nat.add_assoc]
  exact spared (offset + byte) (by omega)

/-- The arch part reads only the record, so it makes the same stores in both memories. -/
theorem processArchInit_differ (differ : DifferIn area mem mem') (room : proc + sizeofProcess ≤ 2 ^ 64)
    (spared : Spared area proc sizeofProcess) :
    DifferIn area (processArchInit text proc uentry ustack mem) (processArchInit text proc uentry ustack mem') := by
  unfold sizeofProcess at room
  have stackAt : Spared area (kstack proc) 8 := Spared.part spared (by decide)
  have frameAt : Spared area (tf proc) 8 := Spared.part spared (by decide)
  have contextAt : Spared area (context proc) 8 := Spared.part spared (by decide)
  have stackRoom : kstack proc + 8 ≤ 2 ^ 64 := by unfold kstack; omega
  have frameRoom : tf proc + 8 ≤ 2 ^ 64 := by unfold tf; omega
  have contextRoom : context proc + 8 ≤ 2 ^ 64 := by unfold context; omega
  unfold processArchInit
  dsimp only
  rw [differ.loadU64 stackRoom stackAt]
  have step1 := clearThrough_differ (differ.storeU64 (tf proc)
    (subU64 (u64 (loadU64 mem (kstack proc) + processKernelStackSize)) sizeofTrapFrame)) frameRoom frameAt sizeofTrapFrame
  have step2 := storeThrough_differ step1 frameRoom frameAt 160 ustack
  have step3 := storeThrough_differ step2 frameRoom frameAt 168 (BitVec.ofNat 64 (gdtUserDataIndex * 8 ||| dplUser))
  have step4 := storeThrough_differ step3 frameRoom frameAt 144 (BitVec.ofNat 64 (gdtUserCodeIndex * 8 ||| dplUser))
  have step5 := storeThrough_differ step4 frameRoom frameAt 152 0x202
  have step6 := storeThrough_differ step5 frameRoom frameAt 136 uentry
  have step7 := step6.storeWord (subU64 (subU64 (u64 (loadU64 mem (kstack proc) + processKernelStackSize)) sizeofTrapFrame) 8)
    text.trapRet
  have step8 := clearThrough_differ (step7.storeU64 (context proc) (subU64 (subU64 (subU64 (u64 (loadU64 mem (kstack proc) +
    processKernelStackSize)) sizeofTrapFrame) 8) sizeofContext)) contextRoom contextAt sizeofContext
  exact storeThrough_differ step8 contextRoom contextAt 48 text.processFirstRun

/-- The bytes of the record that the arch part writes, and the stack. -/
def ArchArea (proc stack addr : Nat) : Prop :=
  Within (proc + 4816) 8 addr ∨ Within (proc + 5000) 8 addr ∨ Within stack processKernelStackSize addr

/-- A store through a known pointer keeps to the area around it. -/
theorem storeThrough_within (differ : DifferIn area mem mem') {pointer ptr offset : Nat} (value : BitVec 64)
    (pointerAt : loadU64 mem' pointer = ptr) (room : ptr + offset + 8 ≤ 2 ^ 64)
    (inside : ∀ addr, Within (ptr + offset) 8 addr → area addr) :
    DifferIn area mem (storeThrough pointer offset value mem') := by
  rw [storeThrough, pointerAt]
  exact differ.store_inside value room inside

theorem clearThrough_within (differ : DifferIn area mem mem') {pointer ptr size : Nat}
    (pointerAt : loadU64 mem' pointer = ptr) (room : ptr + size ≤ 2 ^ 64)
    (inside : ∀ addr, Within ptr size addr → area addr) : DifferIn area mem (clearThrough pointer size mem') := by
  rw [clearThrough, pointerAt]
  exact differ.fill_inside 0 room inside

/-- The arch part writes two pointers of the record, and the top of the stack. -/
theorem processArchInit_within (room : proc + sizeofProcess ≤ 2 ^ 64) (roomStack : stack + processKernelStackSize < 2 ^ 64)
    (apart : Apart proc sizeofProcess stack processKernelStackSize) (stackAt : loadU64 mem (kstack proc) = stack) :
    DifferIn (ArchArea proc stack) mem (processArchInit text proc uentry ustack mem) := by
  unfold sizeofProcess at room
  unfold processKernelStackSize at roomStack
  unfold Apart sizeofProcess processKernelStackSize at apart
  have frame : subU64 (u64 (loadU64 mem (kstack proc) + processKernelStackSize)) sizeofTrapFrame = stack + 16208 := by
    rw [stackAt]
    unfold subU64 u64 processKernelStackSize sizeofTrapFrame
    omega
  have below : subU64 (stack + 16208) 8 = stack + 16200 := by
    unfold subU64
    omega
  have bottom : subU64 (stack + 16200) sizeofContext = stack + 16144 := by
    unfold subU64 sizeofContext
    omega
  have onStack : ∀ base count, stack ≤ base → base + count ≤ stack + 16384 →
      ∀ addr, Within base count addr → Within stack 16384 addr := by
    rintro base count first last addr ⟨low, high⟩
    exact ⟨by omega, by omega⟩
  have read : ∀ field, proc ≤ field → field + 8 ≤ proc + 5008 → ∀ {mem mem' : Memory} {value},
      DifferIn (Within stack 16384) mem mem' → loadU64 mem field = value → loadU64 mem' field = value := by
    intro field low high mem mem' value differ at_
    rw [← at_]
    apply differ.loadU64 (by omega)
    rintro offset small ⟨first, last⟩
    omega
  have readFrame := @read (tf proc) (by unfold tf; omega) (by unfold tf; omega)
  have readContext := @read (context proc) (by unfold context; omega) (by unfold context; omega)
  unfold processArchInit
  dsimp only
  rw [frame, below, bottom]
  have start : loadU64 (storeU64 (tf proc) (stack + 16208) mem) (tf proc) = stack + 16208 := by
    rw [loadU64_stored, u64]
    exact Nat.mod_eq_of_lt (by omega)
  have whole := DifferIn.refl (Within stack 16384) (storeU64 (tf proc) (stack + 16208) mem)
  have step1 := clearThrough_within whole (readFrame whole start) (by unfold sizeofTrapFrame; omega)
    (onStack _ sizeofTrapFrame (by omega) (by unfold sizeofTrapFrame; omega))
  have step2 := storeThrough_within step1 ustack (readFrame step1 start) (by omega) (onStack (stack + 16208 + 160) 8
    (by omega) (by omega))
  have step3 := storeThrough_within step2 (BitVec.ofNat 64 (gdtUserDataIndex * 8 ||| dplUser)) (readFrame step2 start)
    (by omega) (onStack (stack + 16208 + 168) 8 (by omega) (by omega))
  have step4 := storeThrough_within step3 (BitVec.ofNat 64 (gdtUserCodeIndex * 8 ||| dplUser)) (readFrame step3 start)
    (by omega) (onStack (stack + 16208 + 144) 8 (by omega) (by omega))
  have step5 := storeThrough_within step4 0x202 (readFrame step4 start) (by omega) (onStack (stack + 16208 + 152) 8
    (by omega) (by omega))
  have step6 := storeThrough_within step5 uentry (readFrame step5 start) (by omega) (onStack (stack + 16208 + 136) 8
    (by omega) (by omega))
  have step7 := step6.store_inside text.trapRet (show stack + 16200 + 8 ≤ 2 ^ 64 by omega) (onStack _ 8 (by omega) (by omega))
  have stacked : ∀ addr < 2 ^ 64, Within stack 16384 addr → ArchArea proc stack addr := fun _ _ => Or.inr ∘ Or.inr
  have upper : DifferIn (ArchArea proc stack) mem _ := ((DifferIn.refl _ mem).store_inside (BitVec.ofNat 64 (stack + 16208))
    (show tf proc + 8 ≤ 2 ^ 64 by unfold tf; omega) (fun _ => Or.inl)).trans (step7.mono stacked)
  change DifferIn _ _ (storeWord _ _ _) at upper
  generalize storeWord _ (stack + 16200) text.trapRet = top at upper ⊢
  have startContext : loadU64 (storeU64 (context proc) (stack + 16144) top) (context proc) = stack + 16144 := by
    rw [loadU64_stored, u64]
    exact Nat.mod_eq_of_lt (by omega)
  have wholeContext := DifferIn.refl (Within stack 16384) (storeU64 (context proc) (stack + 16144) top)
  have step8 := clearThrough_within wholeContext (readContext wholeContext startContext) (by unfold sizeofContext; omega)
    (onStack _ sizeofContext (by omega) (by unfold sizeofContext; omega))
  have step9 := storeThrough_within step8 text.processFirstRun (readContext step8 startContext) (by omega)
    (onStack (stack + 16144 + 48) 8 (by omega) (by omega))
  have lower := upper.store_inside (BitVec.ofNat 64 (stack + 16144)) (show context proc + 8 ≤ 2 ^ 64 by unfold context; omega)
    (fun _ => Or.inr ∘ Or.inl)
  exact lower.trans (step9.mono stacked)

/-- The name is written alike in both memories. -/
theorem setName_differ (differ : DifferIn area mem mem') (call : ProcessCall) :
    DifferIn area (setName proc call mem) (setName proc call mem') :=
  (differ.copyBytes _ _).storeU8 _ _

/-- The null character of the longest name lies behind the name field, in front of the state. -/
theorem setName_within (room : proc + sizeofProcess ≤ 2 ^ 64) (call : ProcessCall) :
    DifferIn (Within (proc + 2) 65) mem (setName proc call mem) := by
  have short := strlen_le call.name processNameMax
  unfold sizeofProcess at room
  unfold processNameMax at short
  have copied : ((List.range (strlen call.name 64)).map call.name).length ≤ 64 := by
    rw [List.length_map, List.length_range]
    omega
  have place : u64 (name proc + strlen call.name 64) = proc + 2 + strlen call.name 64 :=
    Nat.mod_eq_of_lt (by unfold name; omega)
  unfold setName processNameMax
  dsimp only
  rw [storeU8, place]
  apply DifferIn.update_inside
  · apply (DifferIn.refl _ mem).copy_inside
    · unfold name
      omega
    · rintro addr ⟨low, high⟩
      unfold name at low high
      exact ⟨by omega, by omega⟩
  · exact ⟨by omega, by omega⟩

/-- The object of the descriptor bitmap lies in the record. -/
theorem fdbitmap_object (aligned : proc % 8 = 0) (room : proc + sizeofProcess ≤ 2 ^ 64) :
    StaticObject (fdbitmap proc) processMaxFd := by
  unfold sizeofProcess at room
  refine ⟨Nat.succ_ne_zero _, ?_, ?_⟩
  · unfold fdbitmap sizeofU64
    omega
  · unfold fdbitmap sizeofBitmapStatic bitmapSizeInBlock processMaxFd sizeofU64
    omega

theorem bitmapInitStatic_fd (aligned : proc % 8 = 0) (room : proc + sizeofProcess ≤ 2 ^ 64) (mem : Memory) :
    bitmapInitStatic (fdbitmap proc) processMaxFd mem = fill (bitmapStaticHead (fdbitmap proc) processMaxFd mem)
      (loadU64 mem (proc + 4240)) 0xff 40 :=
  (fdbitmap_object aligned room).init_eq

/-- The stores of the fields, where the fill of the descriptors meets no unmapped page. -/
def fieldStores (proc pid parent : Nat) (mem : Memory) : Memory :=
  let mem := bitmapInitStatic (fdbitmap proc) processMaxFd (storeU16 (ProcessRecord.pid proc) pid mem)
  let mem := listHeadInitIn (siblingsList proc) (listHeadInitIn (schedList proc) mem)
  storeU64 (ProcessRecord.parent proc) parent (storeU32 (state proc) processReady mem)

/-- The fields are stored exactly when the stale pointer leads to mapped bytes. -/
theorem setFields_eq (tables : Translation) (aligned : proc % 8 = 0) (room : proc + sizeofProcess ≤ 2 ^ 64)
    (pid parent : Nat) (mem : Memory) :
    setFields tables proc pid parent mem =
      if Translates tables (loadU64 mem (proc + 4240)) 40 then .ok (fieldStores proc pid parent mem)
      else .error (.panic .pageFault) := by
  have pointer : loadU64 (storeU16 (ProcessRecord.pid proc) pid mem) (proc + 4240) = loadU64 mem (proc + 4240) := by
    unfold sizeofProcess at room
    have named : DifferIn (Within proc 4240) mem (storeU16 proc pid mem) :=
      (DifferIn.refl _ mem).store_inside _ (by omega) fun _ inside => ⟨inside.1, by have high := inside.2; omega⟩
    apply named.loadU64 (by omega)
    rintro offset less ⟨low, high⟩
    omega
  have size : bitmapSizeInBlock processMaxFd * sizeofU64 = 40 := rfl
  have place : fdbitmap proc + 16 = proc + 4240 := rfl
  have initialised := @StaticObject.initMapped_eq _ _ (storeU16 (ProcessRecord.pid proc) pid mem)
    (fdbitmap_object aligned room) tables
  rw [size, place, ← loadU64, pointer] at initialised
  unfold setFields fieldStores
  dsimp only
  rw [initialised]
  split_ifs with mapped
  · rw [Outcome.ok_bind]
  · rw [Outcome.error_bind]

/-- The fields are written alike in both memories. -/
theorem fieldStores_differ (differ : DifferIn area mem mem') (aligned : proc % 8 = 0) (room : proc + sizeofProcess ≤ 2 ^ 64)
    (spared : Spared area proc sizeofProcess) (pid parent : Nat) :
    DifferIn area (fieldStores proc pid parent mem) (fieldStores proc pid parent mem') := by
  have named : DifferIn area (storeU16 proc pid mem) (storeU16 proc pid mem') := differ.storeBytes _ _ _
  have pointer : loadU64 (storeU16 proc pid mem') (proc + 4240) = loadU64 (storeU16 proc pid mem) (proc + 4240) := by
    apply named.loadU64 (by unfold sizeofProcess at room; omega)
    exact Spared.part spared (by decide)
  have cleared : DifferIn area (bitmapInitStatic (fdbitmap proc) processMaxFd (storeU16 proc pid mem))
      (bitmapInitStatic (fdbitmap proc) processMaxFd (storeU16 proc pid mem')) := by
    rw [bitmapInitStatic_fd aligned room, bitmapInitStatic_fd aligned room, pointer]
    exact ((named.storeWord _ _).storeWord _ _).fill _ _ _
  exact (((((cleared.storeU64 _ _).storeU64 _ _).storeU64 _ _).storeU64 _ _).storeBytes _ _ _).storeU64 _ _

/-- The fields in front of the inline words are written, and the stale pointer is filled from on. -/
theorem fieldStores_bytes (aligned : proc % 8 = 0) (room : proc + sizeofProcess ≤ 2 ^ 64) (pid parent : Nat) {addr : Nat}
    (small : addr < 2 ^ 64) (outside : ¬Within proc 4240 addr) :
    fieldStores proc pid parent mem addr = if distance (loadU64 mem (proc + 4240)) addr < 40 then 0xff else mem addr := by
  unfold sizeofProcess at room
  have front : ∀ base count, proc ≤ base → base + count ≤ proc + 4240 → ∀ addr, Within base count addr → Within proc 4240 addr := by
    rintro base count first last addr ⟨low, high⟩
    exact ⟨by omega, by omega⟩
  have named : DifferIn (Within proc 4240) mem (storeU16 proc pid mem) :=
    (DifferIn.refl _ mem).store_inside _ (by omega) (front proc 2 le_rfl (by omega))
  have pointer : loadU64 (storeU16 proc pid mem) (proc + 4240) = loadU64 mem (proc + 4240) := by
    apply named.loadU64 (by omega)
    rintro offset less ⟨low, high⟩
    omega
  have head : DifferIn (Within proc 4240) mem (bitmapStaticHead (fdbitmap proc) processMaxFd (storeU16 proc pid mem)) := by
    unfold bitmapStaticHead fdbitmap
    exact (named.store_inside _ (by omega) (front (proc + 4224) 8 (by omega) (by omega))).store_inside _ (by omega)
      (front (proc + 4224 + 8) 8 (by omega) (by omega))
  have cleared := bitmapInitStatic_fd aligned (by unfold sizeofProcess; omega) (storeU16 proc pid mem)
  rw [pointer] at cleared
  have later : DifferIn (Within proc 4240) (bitmapInitStatic (fdbitmap proc) processMaxFd (storeU16 proc pid mem))
      (fieldStores proc pid parent mem) := by
    unfold fieldStores listHeadInitIn schedList siblingsList state ProcessRecord.parent ProcessRecord.pid
    exact ((((((DifferIn.refl _ _).store_inside _ (by omega) (front (proc + 80) 8 (by omega) (by omega))).store_inside _
      (by omega) (front (proc + 80 + 8) 8 (by omega) (by omega))).store_inside _ (by omega) (front (proc + 96) 8 (by omega)
      (by omega))).store_inside _ (by omega) (front (proc + 96 + 8) 8 (by omega) (by omega))).store_inside _ (by omega)
      (front (proc + 68) 4 (by omega) (by omega))).store_inside _ (by omega) (front (proc + 112) 8 (by omega) (by omega))
  rw [later addr small outside, cleared, fill, head addr small outside]

end

/-- The part of `process_create` behind its allocations, up to the family. -/
def recordFront (tables : Translation) (unassigned : Nat) (statics : ProcessStatics) (call : ProcessCall) (proc : Nat)
    (mem : Memory) : Outcome Memory := do
  let mem := setName proc call (processArchInit statics.text proc call.uentry 0xffff mem)
  let (pid, pids) ← processGetUnusedPid unassigned ⟨statics.pidBitmap, mem, []⟩
  setFields tables proc pid call.parent pids.mem

def recordBack (proc parent : Nat) (mem : Memory) : Outcome Memory := do
  let mem ← setFamily proc parent mem
  .ok (memset (signalsHandlers proc) 0 (8 * processNsig) (storeU64 (child proc) NULL mem))

/-- The bytes that the first part writes, apart from the fill. -/
def FrontArea (statics : ProcessStatics) (proc stack addr : Nat) : Prop :=
  Within proc 4240 addr ∨ Within (proc + 4808) 200 addr ∨ Within stack processKernelStackSize addr ∨
    statics.pidBitmap.Words addr

/-- The record, the stack, and the words of the pids lie apart. -/
structure RecordPlaces (statics : ProcessStatics) (proc stack : Nat) : Prop where
  aligned : proc % 8 = 0
  room : proc + sizeofProcess ≤ 2 ^ 64
  roomStack : stack + processKernelStackSize < 2 ^ 64
  apart : Apart proc sizeofProcess stack processKernelStackSize
  roomPids : statics.pidBitmap.bitmap + 8 * statics.pidBitmap.sizeInBlock ≤ 2 ^ 64
  pids : Apart proc sizeofProcess statics.pidBitmap.bitmap (8 * statics.pidBitmap.sizeInBlock)
  pidsStack : Apart stack processKernelStackSize statics.pidBitmap.bitmap (8 * statics.pidBitmap.sizeInBlock)

section
variable {area : Nat → Prop} {mem mem' : Memory} {tables : Translation} {unassigned proc stack : Nat}
variable {statics : ProcessStatics} {call : ProcessCall}

theorem fillRecord_eq (tables : Translation) (unassigned : Nat) (statics : ProcessStatics) (call : ProcessCall)
    (proc : Nat) (mem : Memory) : fillRecord tables unassigned statics call proc mem =
      recordFront tables unassigned statics call proc mem >>= recordBack proc call.parent := by
  unfold fillRecord recordFront recordBack
  rw [bind_assoc]

/-- The first part gets a pid, and its stale pointer leads to mapped bytes. -/
theorem recordFront_split (places : RecordPlaces statics proc stack) {front : Memory}
    (ran : recordFront tables unassigned statics call proc mem = .ok front) :
    ∃ pid pids, processGetUnusedPid unassigned ⟨statics.pidBitmap,
        setName proc call (processArchInit statics.text proc call.uentry 0xffff mem), []⟩ = .ok (pid, pids) ∧
      Translates tables (loadU64 pids.mem (proc + 4240)) 40 ∧ front = fieldStores proc pid call.parent pids.mem := by
  obtain ⟨⟨pid, pids⟩, got, rest⟩ := Outcome.bind_eq_ok.mp ran
  dsimp only at rest
  rw [setFields_eq tables places.aligned places.room] at rest
  split_ifs at rest with mapped
  exact ⟨pid, pids, got, mapped, (Except.ok.inj rest).symm⟩

/-- The first part is the same on two memories that differ only outside the record and the words of the pids. -/
theorem recordFront_differ (differ : DifferIn area mem mem') (places : RecordPlaces statics proc stack)
    (spared : Spared area proc sizeofProcess)
    (sparedPids : Spared area statics.pidBitmap.bitmap (8 * statics.pidBitmap.sizeInBlock)) {front : Memory}
    (ran : recordFront tables unassigned statics call proc mem = .ok front) :
    ∃ front', recordFront tables unassigned statics call proc mem' = .ok front' ∧ DifferIn area front front' := by
  have arch := @processArchInit_differ area mem mem' statics.text proc call.uentry 0xffff differ places.room spared
  have named := @setName_differ area _ _ proc arch call
  obtain ⟨pid, pids, got, mapped, rfl⟩ := recordFront_split places ran
  obtain ⟨-, pids', got', kept⟩ := processGetUnusedPid_differ named places.roomPids sparedPids got
  have room := places.room
  unfold sizeofProcess at room
  rw [← kept.loadU64 (by omega) (Spared.part spared (by decide))] at mapped
  refine ⟨fieldStores proc pid call.parent pids'.mem, Outcome.bind_eq_ok.mpr ⟨_, got', ?_⟩,
    fieldStores_differ kept places.aligned places.room spared pid call.parent⟩
  exact (setFields_eq tables places.aligned places.room pid call.parent pids'.mem).trans (if_pos mapped)

/-- The bytes that the name and the arch part write. -/
def NamedArea (proc stack addr : Nat) : Prop :=
  Within proc 4224 addr ∨ Within (proc + 4808) 200 addr ∨ Within stack processKernelStackSize addr

theorem named_within (places : RecordPlaces statics proc stack) (stackAt : loadU64 mem (kstack proc) = stack) :
    DifferIn (NamedArea proc stack) mem (setName proc call (processArchInit statics.text proc call.uentry 0xffff mem)) := by
  have arch := @processArchInit_within mem statics.text proc stack call.uentry 0xffff places.room places.roomStack
    places.apart stackAt
  have named := @setName_within (processArchInit statics.text proc call.uentry 0xffff mem) proc places.room call
  apply (arch.mono _).trans (named.mono _)
  · rintro addr - (⟨low, high⟩ | ⟨low, high⟩ | onStack)
    · exact Or.inr (Or.inl ⟨by omega, by omega⟩)
    · exact Or.inr (Or.inl ⟨by omega, by omega⟩)
    · exact Or.inr (Or.inr onStack)
  · rintro addr - ⟨low, high⟩
    exact Or.inl ⟨by omega, by omega⟩

/-- The name and the arch part spare the words of the pids. -/
theorem RecordPlaces.named_spares (places : RecordPlaces statics proc stack) :
    Spared (NamedArea proc stack) statics.pidBitmap.bitmap (8 * statics.pidBitmap.sizeInBlock) := by
  have pids := places.pids
  have pidsStack := places.pidsStack
  unfold Apart sizeofProcess at pids
  unfold Apart processKernelStackSize at pidsStack
  intro offset less inside
  unfold NamedArea Within processKernelStackSize at inside
  omega

/-- All that is written in front of the fields spares the stale pointer. -/
theorem pids_differ (places : RecordPlaces statics proc stack) (stackAt : loadU64 mem (kstack proc) = stack) {pid : Nat}
    {pids : Pids} (got : processGetUnusedPid unassigned ⟨statics.pidBitmap,
      setName proc call (processArchInit statics.text proc call.uentry 0xffff mem), []⟩ = .ok (pid, pids)) :
    DifferIn (fun addr => NamedArea proc stack addr ∨ statics.pidBitmap.Words addr) mem pids.mem ∧
      loadU64 pids.mem (proc + 4240) = loadU64 mem (proc + 4240) := by
  have named := @named_within mem proc stack statics call places stackAt
  obtain ⟨words, -⟩ := processGetUnusedPid_differ (DifferIn.refl (fun _ => False) _) places.roomPids
    (fun _ _ inside => inside) got
  have before : DifferIn (fun addr => NamedArea proc stack addr ∨ statics.pidBitmap.Words addr) mem pids.mem :=
    (named.mono fun _ _ => Or.inl).trans (words.mono fun _ _ => Or.inr)
  have room := places.room
  have apart := places.apart
  have pidsApart := places.pids
  unfold sizeofProcess at room
  unfold Apart sizeofProcess processKernelStackSize at apart
  unfold Apart sizeofProcess at pidsApart
  refine ⟨before, before.loadU64 (by omega) ?_⟩
  intro offset less inside
  unfold NamedArea Bitmap.Words Within processKernelStackSize at inside
  omega

/-- The first part returns when a pid is left before it and the stale pointer leads to mapped bytes. -/
theorem recordFront_returns_iff (places : RecordPlaces statics proc stack) (stackAt : loadU64 mem (kstack proc) = stack) :
    (∃ front, recordFront tables unassigned statics call proc mem = .ok front) ↔
      (∃ result, processGetUnusedPid unassigned ⟨statics.pidBitmap, mem, []⟩ = .ok result) ∧
        Translates tables (loadU64 mem (proc + 4240)) 40 := by
  have named := @named_within mem proc stack statics call places stackAt
  constructor
  · rintro ⟨front, ran⟩
    obtain ⟨pid, pids, got, mapped, -⟩ := recordFront_split places ran
    obtain ⟨-, pids', got', -⟩ := processGetUnusedPid_differ named.symm places.roomPids places.named_spares got
    rw [(pids_differ places stackAt got).2] at mapped
    exact ⟨⟨_, got'⟩, mapped⟩
  · rintro ⟨⟨⟨pid, pids⟩, got⟩, mapped⟩
    obtain ⟨-, pids', got', -⟩ := processGetUnusedPid_differ named places.roomPids places.named_spares got
    rw [← (pids_differ places stackAt got').2] at mapped
    refine ⟨fieldStores proc pid call.parent pids'.mem, Outcome.bind_eq_ok.mpr ⟨_, got', ?_⟩⟩
    exact (setFields_eq tables places.aligned places.room pid call.parent pids'.mem).trans (if_pos mapped)

/-- The first part writes its area, and it fills from the stale pointer on. -/
theorem recordFront_bytes (places : RecordPlaces statics proc stack) (stackAt : loadU64 mem (kstack proc) = stack)
    {front : Memory} (ran : recordFront tables unassigned statics call proc mem = .ok front) {addr : Nat}
    (small : addr < 2 ^ 64) (outside : ¬FrontArea statics proc stack addr) :
    front addr = if distance (loadU64 mem (proc + 4240)) addr < 40 then 0xff else mem addr := by
  obtain ⟨pid, pids, got, -, rfl⟩ := recordFront_split places ran
  obtain ⟨before, pointer⟩ := pids_differ places stackAt got
  have kept : pids.mem addr = mem addr := by
    apply before addr small
    rintro ((⟨low, high⟩ | behind | onStack) | word)
    · exact outside (Or.inl ⟨low, by omega⟩)
    · exact outside (Or.inr (Or.inl behind))
    · exact outside (Or.inr (Or.inr (Or.inl onStack)))
    · exact outside (Or.inr (Or.inr (Or.inr word)))
  rw [fieldStores_bytes places.aligned places.room _ _ small fun inside => outside (Or.inl inside), pointer, kept]

/-- The second part is the same on two memories that differ neither in the family links nor in the ring of siblings. -/
theorem recordBack_differ {parent : Nat} (differ : DifferIn area mem mem') (roomChild : child parent + 8 ≤ 2 ^ 64)
    (sparedChild : Spared area (child parent) 8)
    (link : loadU64 mem (child parent) ≠ NULL → siblingsList (loadU64 mem (child parent)) + 8 ≤ 2 ^ 64 ∧
      Spared area (siblingsList (loadU64 mem (child parent))) 8) {back : Memory}
    (ran : recordBack proc parent mem = .ok back) :
    ∃ back', recordBack proc parent mem' = .ok back' ∧ DifferIn area back back' := by
  have same := differ.loadU64 roomChild sparedChild
  obtain ⟨family, joined, rest⟩ := Outcome.bind_eq_ok.mp ran
  obtain rfl := Except.ok.inj rest
  have joined' : ∃ family', setFamily proc parent mem' = .ok family' ∧ DifferIn area family family' := by
    unfold setFamily at joined ⊢
    rw [same]
    split_ifs at joined ⊢ with both null
    · obtain ⟨room, spared⟩ := link both.2
      have next := differ.loadU64 room spared
      unfold listAddIn at joined ⊢
      dsimp only at joined ⊢
      rw [next]
      split_ifs at joined ⊢ with empty
      obtain rfl := Except.ok.inj joined
      exact ⟨_, rfl, (((differ.storeU64 _ _).storeU64 _ _).storeU64 _ _).storeU64 _ _⟩
    · obtain rfl := Except.ok.inj joined
      exact ⟨_, rfl, differ.storeU64 _ _⟩
  obtain ⟨family', joined', kept⟩ := joined'
  exact ⟨_, Outcome.bind_eq_ok.mpr ⟨_, joined', rfl⟩, (kept.storeU64 _ _).fill _ _ _⟩

end

/-- All that the first part writes, with the fill from the stale pointer on. -/
def FrontReach (statics : ProcessStatics) (proc stack stale addr : Nat) : Prop :=
  FrontArea statics proc stack addr ∨ distance stale addr < 40

/-- The first child of the parent and its next sibling in the ring, which lie apart from the record and outside
an area. -/
structure Family (area : Nat → Prop) (mem : Memory) (proc parent first next : Nat) : Prop where
  firstAt : loadU64 mem (child parent) = first
  roomChild : child parent + 8 ≤ 2 ^ 64
  childApart : Apart proc sizeofProcess (child parent) 8
  child : Spared area (child parent) 8
  nextAt : first ≠ NULL → loadU64 mem (siblingsList first) = next ∧ next ≠ NULL
  roomRing : first ≠ NULL → siblingsList first + 8 ≤ 2 ^ 64 ∧ next + 16 ≤ 2 ^ 64
  ringApart : first ≠ NULL → Apart proc sizeofProcess (siblingsList first) 8 ∧ Apart proc sizeofProcess (next + 8) 8
  ring : first ≠ NULL → Spared area (siblingsList first) 8

section
variable {area : Nat → Prop} {mem mem' : Memory} {tables : Translation} {unassigned proc stack parent first next : Nat}
variable {statics : ProcessStatics} {call : ProcessCall}

/-- A family is left as it is by a change inside of its area. -/
theorem Family.keep (family : Family area mem proc parent first next) (differ : DifferIn area mem mem') :
    Family area mem' proc parent first next := by
  refine ⟨(differ.loadU64 family.roomChild family.child).trans family.firstAt, family.roomChild, family.childApart,
    family.child, ?_, family.roomRing, family.ringApart, family.ring⟩
  intro nonnull
  obtain ⟨next, linked⟩ := family.nextAt nonnull
  exact ⟨(differ.loadU64 (family.roomRing nonnull).1 (family.ring nonnull)).trans next, linked⟩

/-- The second part returns when the parent is there. -/
theorem recordBack_returns (family : Family area mem proc parent first next) (nonnull : parent ≠ NULL) :
    ∃ back, recordBack proc parent mem = .ok back := by
  have joined : ∃ joined, setFamily proc parent mem = .ok joined := by
    unfold setFamily
    rw [family.firstAt]
    split_ifs with both
    · obtain ⟨next, linked⟩ := family.nextAt both.2
      unfold listAddIn
      dsimp only
      rw [next, if_neg linked]
      exact ⟨_, rfl⟩
    · exact ⟨_, rfl⟩
  obtain ⟨joined, ran⟩ := joined
  exact ⟨_, Outcome.bind_eq_ok.mpr ⟨joined, ran, rfl⟩⟩

/-- The second part keeps the words of the signals. -/
theorem recordBack_signals (family : Family area mem proc parent first next) (room : proc + sizeofProcess ≤ 2 ^ 64)
    {back : Memory} (ran : recordBack proc parent mem = .ok back) :
    DifferIn (fun addr => ¬Within (maskedSignals proc) 16 addr) mem back := by
  have roomChild := family.roomChild
  have childApart := family.childApart
  unfold sizeofProcess at room
  unfold Apart sizeofProcess at childApart
  have away : ∀ base count, base + count ≤ proc + 4280 ∨ proc + 4296 ≤ base →
      ∀ addr, Within base count addr → ¬Within (maskedSignals proc) 16 addr := by
    rintro base count outside addr ⟨low, high⟩ ⟨first, last⟩
    unfold maskedSignals at first last
    omega
  obtain ⟨joined, joins, rest⟩ := Outcome.bind_eq_ok.mp ran
  obtain rfl := Except.ok.inj rest
  have before : DifferIn (fun addr => ¬Within (maskedSignals proc) 16 addr) mem joined := by
    unfold setFamily at joins
    rw [family.firstAt] at joins
    split_ifs at joins with both null
    · obtain ⟨nextAt, linked⟩ := family.nextAt both.2
      obtain ⟨roomRing, roomNext⟩ := family.roomRing both.2
      obtain ⟨ringApart, nextApart⟩ := family.ringApart both.2
      unfold Apart sizeofProcess at ringApart nextApart
      unfold listAddIn at joins
      dsimp only at joins
      rw [nextAt, if_neg linked] at joins
      obtain rfl := Except.ok.inj joins
      unfold siblingsList at roomRing ringApart ⊢
      exact ((((DifferIn.refl _ mem).store_inside _ (by omega) (away (next + 8) 8 (by omega))).store_inside _ (by omega)
        (away (proc + 96) 8 (by omega))).store_inside _ (by omega) (away (proc + 96 + 8) 8 (by omega))).store_inside _
        (by omega) (away (first + 96) 8 (by omega))
    · obtain rfl := Except.ok.inj joins
      exact (DifferIn.refl _ mem).store_inside _ roomChild (away (ProcessRecord.child parent) 8 (by omega))
  have cleared := before.store_inside 0 (show proc + 120 + 8 ≤ 2 ^ 64 by omega) (away (proc + 120) 8 (by omega))
  exact cleared.fill_inside 0 (show proc + 4296 + 512 ≤ 2 ^ 64 by omega) (away (proc + 4296) 512 (by omega))

/-- The first part keeps to its reach. -/
theorem recordFront_reach (places : RecordPlaces statics proc stack) (stackAt : loadU64 mem (kstack proc) = stack)
    {front : Memory} (ran : recordFront tables unassigned statics call proc mem = .ok front) :
    DifferIn (FrontReach statics proc stack (loadU64 mem (proc + 4240))) mem front := by
  intro addr small outside
  rw [recordFront_bytes places stackAt ran small fun inside => outside (Or.inl inside),
    if_neg fun near => outside (Or.inr near)]

/-- The record is filled when a pid is left, the parent is there, and the stale pointer leads to mapped bytes. -/
theorem fillRecord_returns (places : RecordPlaces statics proc stack) (stackAt : loadU64 mem (kstack proc) = stack)
    (family : Family (FrontReach statics proc stack (loadU64 mem (proc + 4240))) mem proc call.parent first next)
    (left : ∃ result, processGetUnusedPid unassigned ⟨statics.pidBitmap, mem, []⟩ = .ok result)
    (mapped : Translates tables (loadU64 mem (proc + 4240)) 40) (nonnull : call.parent ≠ NULL) : ∃ back, fillRecord tables unassigned statics call proc mem = .ok back := by
  obtain ⟨front, ran⟩ := (@recordFront_returns_iff mem tables unassigned proc stack statics call places stackAt).mpr ⟨left, mapped⟩
  obtain ⟨back, ran'⟩ := recordBack_returns (family.keep (recordFront_reach places stackAt ran)) nonnull
  rw [fillRecord_eq]
  exact ⟨back, Outcome.bind_eq_ok.mpr ⟨front, ran, ran'⟩⟩

/-- The words of the signals are the stale ones, unless the fill from the stale pointer reaches them. -/
theorem fillRecord_signals (places : RecordPlaces statics proc stack) (stackAt : loadU64 mem (kstack proc) = stack)
    (family : Family (FrontReach statics proc stack (loadU64 mem (proc + 4240))) mem proc call.parent first next)
    {back : Memory} (ran : fillRecord tables unassigned statics call proc mem = .ok back) {addr : Nat}
    (inside : Within (maskedSignals proc) 16 addr) :
    back addr = if distance (loadU64 mem (proc + 4240)) addr < 40 then 0xff else mem addr := by
  rw [fillRecord_eq] at ran
  obtain ⟨front, ran, ran'⟩ := Outcome.bind_eq_ok.mp ran
  have kept := family.keep (recordFront_reach places stackAt ran)
  have room := places.room
  have apart := places.apart
  have pids := places.pids
  obtain ⟨low, high⟩ := inside
  unfold maskedSignals at low high
  unfold sizeofProcess at room
  unfold Apart sizeofProcess processKernelStackSize at apart
  unfold Apart sizeofProcess at pids
  have outside : ¬FrontArea statics proc stack addr := by
    unfold FrontArea Bitmap.Words Within processKernelStackSize
    omega
  rw [recordBack_signals kept places.room ran' addr (by omega) (not_not_intro ⟨low, high⟩),
    recordFront_bytes places stackAt ran (by omega) outside]

/-- The record is filled alike in two memories that differ only outside of the live fields. -/
theorem fillRecord_differ (differ : DifferIn area mem mem') (places : RecordPlaces statics proc stack)
    (spared : Spared area proc sizeofProcess)
    (sparedPids : Spared area statics.pidBitmap.bitmap (8 * statics.pidBitmap.sizeInBlock))
    (stackAt : loadU64 mem (kstack proc) = stack)
    (family : Family (FrontReach statics proc stack (loadU64 mem (proc + 4240))) mem proc call.parent first next)
    (sparedChild : Spared area (child call.parent) 8) (sparedRing : first ≠ NULL → Spared area (siblingsList first) 8)
    {back : Memory} (ran : fillRecord tables unassigned statics call proc mem = .ok back) :
    ∃ back', fillRecord tables unassigned statics call proc mem' = .ok back' ∧ DifferIn area back back' := by
  rw [fillRecord_eq] at ran ⊢
  obtain ⟨front, ran, behind⟩ := Outcome.bind_eq_ok.mp ran
  obtain ⟨front', ran', kept⟩ := recordFront_differ differ places spared sparedPids ran
  have same := family.keep (recordFront_reach places stackAt ran)
  obtain ⟨back', behind', kept'⟩ := recordBack_differ kept same.roomChild sparedChild
    (fun nonnull => same.firstAt ▸ ⟨(same.roomRing (same.firstAt ▸ nonnull)).1, sparedRing (same.firstAt ▸ nonnull)⟩) behind
  exact ⟨back', Outcome.bind_eq_ok.mpr ⟨front', ran', behind'⟩, kept'⟩

end

end ProcessRecord

end B0s
