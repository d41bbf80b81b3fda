import B0s.Library.DoublyLinked
import B0s.Construction.Mm.Block
import B0s.Proof.Lib.Bitmap
import B0s.Proof.Mm.KheapMemory

/-
This file proves what the object allocator does to one block and to the words of the other blocks.
-/

namespace B0s
open ByteMemory DoublyLinked

namespace Vmm

/-- The number of objects in a block. -/
def maxObjects (type : StructType) : Nat := (pageSizeInBytes - sizeofBlock) / (getStructSize type + 1)

/-- The address of an object of a block. -/
def object (type : StructType) (b i : Nat) : Nat := b + 72 + i * getStructSize type

/-- The bitmap of a block follows its objects. -/
def blockBitmap (type : StructType) (b : Nat) : Bitmap :=
  ⟨maxObjects type, maxObjects type / 64 + 1, object type b (maxObjects type)⟩

/-- The objects and the bitmap fill at most one page. -/
theorem block_fits (type : StructType) : 16 ≤ getStructSize type ∧ getStructSize type % 8 = 0 ∧
    getStructSize type ≤ 40 ∧ 0 < maxObjects type ∧ maxObjects type ≤ 236 ∧
    72 + maxObjects type * getStructSize type + 8 * (maxObjects type / 64 + 1) ≤ 4096 := by
  cases type <;> decide

theorem blockBitmap_fits (type : StructType) (b : Nat) : (blockBitmap type b).Fits := by
  obtain ⟨-, -, -, -, most, -⟩ := block_fits type
  have covers : maxObjects type < 64 * (maxObjects type / 64 + 1) := by omega
  have small : 64 * (maxObjects type / 64 + 1) ≤ 2 ^ 64 := by omega
  exact ⟨covers, small⟩

/-- A block is a page of the direct mapping. -/
structure Page (b : Nat) : Prop where
  aligned : b % 4096 = 0
  low : higherHalfStart ≤ b
  room : b + 4096 ≤ 2 ^ 64

theorem Page.nonnull {b : Nat} (page : Page b) : b ≠ NULL := by
  have low := page.low
  unfold higherHalfStart at low
  unfold NULL
  omega

/-- An object lies between the header and the bitmap of its block. -/
theorem object_bounds (type : StructType) (b : Nat) {i : Nat} (inside : i < maxObjects type) :
    b + 72 ≤ object type b i ∧ object type b i + getStructSize type ≤ object type b (maxObjects type) ∧
      object type b (maxObjects type) + 8 * (maxObjects type / 64 + 1) ≤ b + 4096 := by
  obtain ⟨-, -, -, -, -, room⟩ := block_fits type
  have less : (i + 1) * getStructSize type ≤ maxObjects type * getStructSize type := Nat.mul_le_mul_right _ inside
  rw [Nat.add_mul, Nat.one_mul] at less
  unfold object
  omega

theorem object_injective {type : StructType} {b i j : Nat} (same : object type b i = object type b j) : i = j := by
  obtain ⟨positive, -⟩ := block_fits type
  unfold object at same
  exact Nat.eq_of_mul_eq_mul_right (by omega) (Nat.add_left_cancel same)

/-- The fixed words of the header of a block. -/
def fixedWords (mem : Memory) (b : Nat) : List Nat := [0, 16, 24, 32, 40, 48].map fun offset => loadU64 mem (b + offset)

/-- The header of a block is in memory, with its count of used objects. -/
structure BlockHolds (type : StructType) (b count : Nat) (mem : Memory) : Prop where
  fixed : fixedWords mem b =
    [b + 72, getStructSize type, maxObjects type, maxObjects type, maxObjects type / 64 + 1,
      object type b (maxObjects type)]
  nbUsed : loadU64 mem (b + 8) = count

section
variable {type : StructType} {b b' count offset offset' value : Nat} {mem mem' : Memory}

theorem BlockHolds.values (holds : BlockHolds type b count mem) :
    loadU64 mem (blockObjects b) = b + 72 ∧ loadU64 mem (blockObjectSizeInBytes b) = getStructSize type ∧
      loadU64 mem (blockMaxObjects b) = maxObjects type ∧ loadBitmap mem (blockBm b) = blockBitmap type b := by
  have fixed := holds.fixed
  simp only [fixedWords, List.map_cons, List.map_nil, List.cons.injEq, and_true] at fixed
  obtain ⟨objects, size, most, len, sizeInBlock, bitmap⟩ := fixed
  refine ⟨objects, size, most, ?_⟩
  simp only [loadBitmap, blockBm, Nat.add_assoc, Nat.reduceAdd, len, sizeInBlock, bitmap]
  rfl

/-- Two header words of blocks are different words. -/
theorem header_ne (page : Page b) (page' : Page b') (small : offset < 72) (small' : offset' < 72)
    (different : b ≠ b' ∨ offset ≠ offset') : b + offset ≠ b' + offset' := by
  have first := page.aligned
  have second := page'.aligned
  omega

theorem Page.word (page : Page b) (small : offset < 72) (aligned : offset % 8 = 0) : Word (b + offset) := by
  have first := page.aligned
  have second := page.room
  exact ⟨by omega, by omega⟩

theorem loadU64_header_store (page : Page b) (page' : Page b') (small : offset < 72) (aligned : offset % 8 = 0)
    (small' : offset' < 72) (aligned' : offset' % 8 = 0) (different : b ≠ b' ∨ offset ≠ offset') :
    loadU64 (storeU64 (b' + offset') value mem) (b + offset) = loadU64 mem (b + offset) := by
  have word := page.word small aligned
  have word' := page'.word small' aligned'
  exact loadU64_storeU64_ne word'.aligned word'.room word.aligned word.room
    (header_ne page page' small small' different)

/-- The byte of an index lies behind the objects of its block. -/
theorem place_bounds (page : Page b) {j : Nat} (inside : j < 64 * (maxObjects type / 64 + 1)) :
    object type b (maxObjects type) ≤ ((blockBitmap type b).place j).1 ∧
      ((blockBitmap type b).place j).1 < b + 4096 := by
  have room := page.room
  have bounds := @object_bounds type b 0 (block_fits type).2.2.2.1
  have low : b + 72 ≤ object type b (maxObjects type) := Nat.le_add_right _ _
  have shape : ((blockBitmap type b).place j).1 =
      (object type b (maxObjects type) + (64 * (j / 64) + (63 - j % 64)) / 8) % 2 ^ 64 := rfl
  have reduced : (object type b (maxObjects type) + (64 * (j / 64) + (63 - j % 64)) / 8) % 2 ^ 64 =
      object type b (maxObjects type) + (64 * (j / 64) + (63 - j % 64)) / 8 := Nat.mod_eq_of_lt (by omega)
  rw [shape, reduced]
  omega

/-- Different indices have different places, in one block or in two. -/
theorem place_ne (page : Page b) (page' : Page b') {j k : Nat} (inside : j < 64 * (maxObjects type / 64 + 1))
    (inside' : k < 64 * (maxObjects type / 64 + 1)) (different : b ≠ b' ∨ j ≠ k) :
    (blockBitmap type b).place j ≠ (blockBitmap type b').place k := by
  obtain ⟨-, -, -, -, most, -⟩ := block_fits type
  intro same
  by_cases equal : b = b'
  · subst equal
    have index := Bitmap.place_injective (by omega) (by omega) same
    omega
  · have first := @place_bounds type b page j inside
    have second := @place_bounds type b' page' k inside'
    have low : b + 72 ≤ object type b (maxObjects type) := Nat.le_add_right _ _
    have low' : b' + 72 ≤ object type b' (maxObjects type) := Nat.le_add_right _ _
    have aligned := page.aligned
    have aligned' := page'.aligned
    rw [same] at first
    omega

/-- A written bit of a bitmap leaves the headers as they are. -/
theorem loadU64_header_write (page : Page b) (page' : Page b') {j : Nat} {bit : Bool}
    (inside : j < 64 * (maxObjects type / 64 + 1)) (writes : (blockBitmap type b').Writes j bit mem mem')
    (small : offset + 8 ≤ 72) : loadU64 mem' (b + offset) = loadU64 mem (b + offset) := by
  have bounds := @place_bounds type b' page' j inside
  have low : b' + 72 ≤ object type b' (maxObjects type) := Nat.le_add_right _ _
  have room := page.room
  have aligned := page.aligned
  have aligned' := page'.aligned
  have same : loadWord mem' (b + offset) = loadWord mem (b + offset) := by
    apply BitVec.eq_of_getLsbD_eq
    intro k bound
    rw [getLsbD_loadWord _ _ bound, getLsbD_loadWord _ _ bound, writes _ (valid_place _ _), if_neg]
    intro equal
    have address := congrArg Prod.fst equal
    have shape : (ByteMemory.place (b + offset) k).1 = b + offset + k / 8 := Nat.mod_eq_of_lt (by omega)
    rw [shape] at address
    omega
  rw [loadU64, loadU64, same]

/-- A stored header word leaves the bits of the bitmaps as they are. -/
theorem bit_header_store (page : Page b) (page' : Page b') {j : Nat}
    (inside : j < 64 * (maxObjects type / 64 + 1)) (small : offset + 8 ≤ 72) :
    (blockBitmap type b).bit (storeU64 (b' + offset) value mem) j = (blockBitmap type b).bit mem j := by
  have bounds := @place_bounds type b page j inside
  have low : b + 72 ≤ object type b (maxObjects type) := Nat.le_add_right _ _
  have room := page'.room
  have room' := page.room
  have aligned := page.aligned
  have aligned' := page'.aligned
  have same : storeU64 (b' + offset) value mem ((blockBitmap type b).place j).1 =
      mem ((blockBitmap type b).place j).1 :=
    storeWord_outside _ _ (by omega) (by omega) (by omega)
  rw [Bitmap.bit, Bitmap.bit, ByteMemory.bit, ByteMemory.bit, same]

end

/-- The number of listed objects in a block. -/
def usedIn (b : Nat) (live : List Nat) : Nat := (live.filter fun p => b ≤ p ∧ p < b + 4096).length

/-- The blocks of a type are linked from its head, are held pages, count their live objects, and mark
them as used. -/
structure Blocks.Holds {σ : Type} (pages : BlockPages σ) (type : StructType) (blocks : Blocks σ)
    (live bs : List Nat) : Prop where
  head : blocks.blockHeads type = bs.headD NULL
  links : Segment (fun b => loadU64 blocks.mem (b + 64)) (fun b => loadU64 blocks.mem (b + 56)) NULL bs NULL
  distinct : bs.Nodup
  page : ∀ b ∈ bs, Page b
  held : ∀ b ∈ bs, pages.held blocks.env (dmV2P b)
  holds : ∀ b ∈ bs, BlockHolds type b (usedIn b live) blocks.mem
  nodup : live.Nodup
  placed : ∀ p ∈ live, ∃ b ∈ bs, ∃ i < maxObjects type, p = object type b i
  marked : ∀ b ∈ bs, ∀ i < maxObjects type, object type b i ∈ live → (blockBitmap type b).bit blocks.mem i = false

section
variable {type : StructType} {mem mem' : Memory} {b count : Nat}

theorem usedIn_cons (b p : Nat) (live : List Nat) :
    usedIn b (p :: live) = usedIn b live + if b ≤ p ∧ p < b + 4096 then 1 else 0 := by
  unfold usedIn
  by_cases inside : b ≤ p ∧ p < b + 4096
  · rw [List.filter_cons_of_pos (by simpa using inside), List.length_cons, if_pos inside]
  · rw [List.filter_cons_of_neg (by simpa using inside), if_neg inside]
    rfl

/-- An object lies in the page of its own block only. -/
theorem object_page {b' i : Nat} (page : Page b) (page' : Page b') (inside : i < maxObjects type) :
    (b' ≤ object type b i ∧ object type b i < b' + 4096) ↔ b' = b := by
  have bounds := object_bounds type b inside
  have positive := (block_fits type).1
  have aligned := page.aligned
  have aligned' := page'.aligned
  omega

theorem fixedWords_congr (same : ∀ offset < 56, offset ≠ 8 → offset % 8 = 0 →
    loadU64 mem' (b + offset) = loadU64 mem (b + offset)) : fixedWords mem' b = fixedWords mem b := by
  unfold fixedWords
  apply List.map_congr_left
  intro offset member
  simp only [List.mem_cons, List.not_mem_nil, or_false] at member
  exact same offset (by omega) (by omega) (by omega)

end

section
variable {σ : Type} {pages : BlockPages σ} {type : StructType} {blocks : Blocks σ} {live bs done rest : List Nat}
variable {b : Nat} {mem' : Memory}

/-- The blocks read only their header words and the bits of the live objects. -/
theorem Blocks.Holds.transport (holds : blocks.Holds pages type live bs)
    (headers : ∀ b ∈ bs, ∀ offset < 72, offset % 8 = 0 →
      loadU64 mem' (b + offset) = loadU64 blocks.mem (b + offset))
    (bits : ∀ b ∈ bs, ∀ i < maxObjects type, object type b i ∈ live →
      (blockBitmap type b).bit blocks.mem i = false → (blockBitmap type b).bit mem' i = false) :
    Blocks.Holds pages type { blocks with mem := mem' } live bs where
  head := holds.head
  links := holds.links.transport fun b member =>
    ⟨headers b member 64 (by decide) (by decide), headers b member 56 (by decide) (by decide)⟩
  distinct := holds.distinct
  page := holds.page
  held := holds.held
  holds := by
    intro b member
    have here := holds.holds b member
    refine ⟨?_, (headers b member 8 (by decide) (by decide)).trans here.nbUsed⟩
    rw [fixedWords_congr fun offset small _ aligned => headers b member offset (by omega) aligned]
    exact here.fixed
  nodup := holds.nodup
  placed := holds.placed
  marked := by
    intro b member i inside listed
    exact bits b member i inside listed (holds.marked b member i inside listed)

theorem bitmap_index {i : Nat} (inside : i < maxObjects type) : i < 64 * (maxObjects type / 64 + 1) := by
  omega

/-- Clearing any bit of a bitmap keeps the blocks. -/
theorem Blocks.Holds.clear (holds : blocks.Holds pages type live bs) (member : b ∈ bs) {j : Nat}
    (inside : j < 64 * (maxObjects type / 64 + 1))
    (writes : (blockBitmap type b).Writes j false blocks.mem mem') :
    Blocks.Holds pages type { blocks with mem := mem' } live bs := by
  have page := holds.page b member
  apply holds.transport
  · intro c member' offset small aligned
    exact loadU64_header_write (holds.page c member') page inside writes (by omega)
  · intro c member' i _ _ clear
    exact writes.antitone clear

/-- Only the block of the pointer counts it, and its index is not marked for another object. -/
theorem Blocks.Holds.take (holds : blocks.Holds pages type live bs) (member : b ∈ bs) {j : Nat}
    (inside : j < maxObjects type) (unused : object type b j ∉ live) (small : usedIn b live + 1 < 2 ^ 64)
    (marked : (blockBitmap type b).bit blocks.mem j = false) :
    Blocks.Holds pages type { blocks with mem := storeU64 (b + 8) (usedIn b live + 1) blocks.mem }
      (object type b j :: live) bs where
  head := holds.head
  links := by
    have page := holds.page b member
    apply holds.links.transport
    intro c member'
    have page' := holds.page c member'
    exact ⟨loadU64_header_store page' page (by decide) (by decide) (by decide) (by decide) (Or.inr (by decide)),
      loadU64_header_store page' page (by decide) (by decide) (by decide) (by decide) (Or.inr (by decide))⟩
  distinct := holds.distinct
  page := holds.page
  held := holds.held
  holds := by
    intro c member'
    have page := holds.page b member
    have page' := holds.page c member'
    have here := holds.holds c member'
    constructor
    · rw [← here.fixed]
      apply fixedWords_congr
      intro offset small different aligned
      exact loadU64_header_store page' page (by omega) aligned (by decide) (by decide) (Or.inr different)
    · have counts := @object_page type b c j page page' inside
      rw [usedIn_cons]
      by_cases same : c = b
      · rw [if_pos (counts.mpr same), same]
        exact loadU64_storeU64 small
      · rw [if_neg fun enclosed => same (counts.mp enclosed)]
        rw [loadU64_header_store page' page (by decide) (by decide) (by decide) (by decide) (Or.inl same)]
        exact here.nbUsed
  nodup := List.nodup_cons.mpr ⟨unused, holds.nodup⟩
  placed := by
    intro p listed
    rcases List.mem_cons.mp listed with rfl | earlier
    · exact ⟨b, member, j, inside, rfl⟩
    · exact holds.placed p earlier
  marked := by
    intro c member' i inside' listed
    have page := holds.page b member
    have page' := holds.page c member'
    rw [bit_header_store page' page (bitmap_index inside') (by decide)]
    rcases List.mem_cons.mp listed with same | earlier
    · have enclosed := (@object_page type c b i page' page inside').mp
        (same ▸ (@object_page type b b j page page inside).mpr rfl)
      subst enclosed
      rw [object_injective same]
      exact marked
    · exact holds.marked c member' i inside' earlier

/-- A block has at most as many live objects as it has room for. -/
theorem Blocks.Holds.usedIn_le (holds : blocks.Holds pages type live bs) (member : b ∈ bs) :
    usedIn b live ≤ maxObjects type := by
  have page := holds.page b member
  have distinct : (live.filter fun p => b ≤ p ∧ p < b + 4096).Nodup := holds.nodup.filter _
  rw [usedIn, ← List.toFinset_card_of_nodup distinct]
  have covered : (live.filter fun p => b ≤ p ∧ p < b + 4096).toFinset ⊆
      (Finset.range (maxObjects type)).image (object type b) := by
    intro p listed
    rw [List.mem_toFinset, List.mem_filter] at listed
    obtain ⟨c, member', i, inside, rfl⟩ := holds.placed p listed.1
    have same := (@object_page type c b i (holds.page c member') page inside).mp (by simpa using listed.2)
    subst same
    exact Finset.mem_image.mpr ⟨i, Finset.mem_range.mpr inside, rfl⟩
  have counted := (Finset.card_le_card covered).trans Finset.card_image_le
  rwa [Finset.card_range] at counted

end

section
variable {σ : Type} {pages : BlockPages σ} {type : StructType} {blocks blocks' : Blocks σ} {new prev : Nat}
variable {bytes mem : Memory}

/-- The page of a new block holds arbitrary bytes. -/
def pageBytes (new : Nat) (bytes mem : Memory) : Memory := fun addr =>
  if new ≤ addr ∧ addr < new + pageSizeInBytes then bytes addr else mem addr

/-- The stores of `create_block` as the code makes them. -/
def blockMemory (type : StructType) (new prev : Nat) (bytes mem : Memory) : Memory :=
  let mem := pageBytes new bytes mem
  let mem := storeU64 (blockObjectSizeInBytes new) (getStructSize type) mem
  let mem := storeU64 (blockMaxObjects new) ((pageSizeInBytes - sizeofBlock) /
    u64 (loadU64 mem (blockObjectSizeInBytes new) + 1)) mem
  let mem := storeU64 (blockObjects new) (u64 (new + sizeofBlock)) mem
  let mem := storeU64 (blockPrev new) prev mem
  let mem := storeU64 (blockNext new) NULL mem
  let len := loadU64 mem (blockMaxObjects new)
  let ptr := u64 (loadU64 mem (blockObjects new) + u64 (loadU64 mem (blockMaxObjects new) *
    loadU64 mem (blockObjectSizeInBytes new)))
  let mem := storeBitmap (blockBm new) (bitmapInit len ptr mem).1 mem
  (bitmapInit len ptr mem).2.2

/-- A block is created in the page that `pmm_xalloc` returns. -/
theorem createBlock_unfold (pages : BlockPages σ) (type : StructType) (prev : Nat) (blocks : Blocks σ) :
    createBlock pages type prev blocks = (do
      let (frame, bytes, env) ← pages.pmmXalloc blocks.env
      .ok (dmP2V frame, { blocks with mem := blockMemory type (dmP2V frame) prev bytes blocks.mem, env := env })) :=
  rfl

/-- The stores of `create_block` with their values. -/
def blockStores (type : StructType) (new prev : Nat) (mem : Memory) : Memory :=
  fill (storeU64 (new + 48) (object type new (maxObjects type)) (storeU64 (new + 40) (maxObjects type / 64 + 1)
    (storeU64 (new + 32) (maxObjects type) (storeU64 (new + 64) NULL (storeU64 (new + 56) prev
      (storeU64 new (new + 72) (storeU64 (new + 24) (maxObjects type) (storeU64 (new + 16) (getStructSize type)
        mem)))))))) (object type new (maxObjects type)) 0xff (8 * (maxObjects type / 64 + 1))

/-- The loads between the stores of `create_block` see the new words. -/
theorem blockMemory_eq (page : Page new) :
    blockMemory type new prev bytes mem = blockStores type new prev (pageBytes new bytes mem) := by
  have aligned := page.aligned
  have room := page.room
  obtain ⟨positive, -, small, -, most, fits⟩ := block_fits type
  have sizeSmall : getStructSize type < 2 ^ 64 := by omega
  have mostSmall : maxObjects type < 2 ^ 64 := by omega
  have dataSmall : new + 72 < 2 ^ 64 := by omega
  have count : (pageSizeInBytes - sizeofBlock) / u64 (getStructSize type + 1) = maxObjects type := by
    have reduced : u64 (getStructSize type + 1) = getStructSize type + 1 := Nat.mod_eq_of_lt (by omega)
    rw [reduced, maxObjects]
  have data : u64 (new + sizeofBlock) = new + 72 := Nat.mod_eq_of_lt dataSmall
  have product : u64 (maxObjects type * getStructSize type) = maxObjects type * getStructSize type :=
    Nat.mod_eq_of_lt (by omega)
  have behind : u64 (new + 72 + maxObjects type * getStructSize type) = object type new (maxObjects type) :=
    Nat.mod_eq_of_lt (by omega)
  have length : u64 ((maxObjects type / 64 + 1) * sizeofU64) = 8 * (maxObjects type / 64 + 1) := by
    unfold sizeofU64 u64
    omega
  have sizeLoad : ∀ mem, loadU64 (storeU64 (new + 16) (getStructSize type) mem) (new + 16) = getStructSize type :=
    fun _ => loadU64_storeU64 sizeSmall
  have mostLoad : ∀ mem, loadU64 (storeU64 (new + 24) (maxObjects type) mem) (new + 24) = maxObjects type :=
    fun _ => loadU64_storeU64 mostSmall
  have dataLoad : ∀ mem, loadU64 (storeU64 new (new + 72) mem) new = new + 72 := fun _ => loadU64_storeU64 dataSmall
  clear positive small most fits sizeSmall mostSmall dataSmall
  simp only [blockMemory, blockObjectSizeInBytes, blockMaxObjects, blockObjects, blockPrev, blockNext, blockBm,
    sizeLoad, count, data]
  clear count data
  simp (disch := omega) only [loadU64_storeU64_ne, sizeLoad, mostLoad, dataLoad]
  rw [product, behind]
  simp only [storeBitmap, bitmapInit, bitmapSizeInBlock, memset, length]
  rfl

/-- A new block is in memory, leads nowhere, has no used index, and lies in a page of its own. -/
structure NewBlock (type : StructType) (new prev count : Nat) (mem mem' : Memory) : Prop where
  holds : BlockHolds type new count mem'
  prev : loadU64 mem' (new + 56) = prev
  next : loadU64 mem' (new + 64) = NULL
  unused : ∀ j < 64 * (maxObjects type / 64 + 1), (blockBitmap type new).bit mem' j = true
  outside : ∀ addr < 2 ^ 64, addr < new ∨ new + 4096 ≤ addr → mem' addr = mem addr

theorem blockStores_values (page : Page new) (small : prev < 2 ^ 64) :
    NewBlock type new prev (loadU64 mem (new + 8)) mem (blockStores type new prev mem) := by
  have aligned := page.aligned
  have room := page.room
  obtain ⟨-, -, sizeSmall, -, most, fits⟩ := block_fits type
  have bounds := @object_bounds type new 0 (block_fits type).2.2.2.1
  have low : new + 72 ≤ object type new (maxObjects type) := Nat.le_add_right _ _
  have sizeLoad : ∀ mem, loadU64 (storeU64 (new + 16) (getStructSize type) mem) (new + 16) = getStructSize type :=
    fun _ => loadU64_storeU64 (by omega)
  have mostLoad : ∀ mem, loadU64 (storeU64 (new + 24) (maxObjects type) mem) (new + 24) = maxObjects type :=
    fun _ => loadU64_storeU64 (by omega)
  have dataLoad : ∀ mem, loadU64 (storeU64 new (new + 72) mem) new = new + 72 :=
    fun _ => loadU64_storeU64 (by omega)
  have lenLoad : ∀ mem, loadU64 (storeU64 (new + 32) (maxObjects type) mem) (new + 32) = maxObjects type :=
    fun _ => loadU64_storeU64 (by omega)
  have blockLoad : ∀ mem, loadU64 (storeU64 (new + 40) (maxObjects type / 64 + 1) mem) (new + 40) =
      maxObjects type / 64 + 1 := fun _ => loadU64_storeU64 (by omega)
  have bitmapLoad : ∀ mem, loadU64 (storeU64 (new + 48) (object type new (maxObjects type)) mem) (new + 48) =
      object type new (maxObjects type) := fun _ => loadU64_storeU64 (by omega)
  have prevLoad : ∀ mem, loadU64 (storeU64 (new + 56) prev mem) (new + 56) = prev := fun _ => loadU64_storeU64 small
  have nextLoad : ∀ mem, loadU64 (storeU64 (new + 64) NULL mem) (new + 64) = NULL :=
    fun _ => loadU64_storeU64 (by decide)
  have filled : ∀ mem, ∀ addr, addr + 8 ≤ new + 72 → loadU64 (fill mem (object type new (maxObjects type)) 0xff
      (8 * (maxObjects type / 64 + 1))) addr = loadU64 mem addr := by
    intro mem addr inside
    rw [loadU64, loadU64, loadWord_fill_apart _ _ (by omega) (by omega) (by omega)]
  unfold blockStores
  refine ⟨⟨?_, ?_⟩, ?_, ?_, ?_, ?_⟩
  · simp only [fixedWords, List.map_cons, List.map_nil, Nat.add_zero]
    simp (disch := omega) only [filled, loadU64_storeU64_ne, sizeLoad, mostLoad, dataLoad, lenLoad, blockLoad,
      bitmapLoad]
  · simp (disch := omega) only [filled, loadU64_storeU64_ne]
  · simp (disch := omega) only [filled, loadU64_storeU64_ne, prevLoad]
  · simp (disch := omega) only [filled, loadU64_storeU64_ne, nextLoad]
  · intro j inside
    have index : (64 * (j / 64) + (63 - j % 64)) / 8 < 8 * (maxObjects type / 64 + 1) := by omega
    exact bit_fill_place _ _ index (by omega)
  · intro addr below outside
    rw [fill_outside _ _ (by omega) below (by omega)]
    simp only [storeU64]
    rw [storeWord_outside _ _ (by omega) below (by omega), storeWord_outside _ _ (by omega) below (by omega),
      storeWord_outside _ _ (by omega) below (by omega), storeWord_outside _ _ (by omega) below (by omega),
      storeWord_outside _ _ (by omega) below (by omega), storeWord_outside _ _ (by omega) below (by omega),
      storeWord_outside _ _ (by omega) below (by omega), storeWord_outside _ _ (by omega) below (by omega)]

theorem dmP2V_page {frame : Nat} (aligned : frame % pageSizeInBytes = 0) (small : frame < 2 ^ 47) :
    Page (dmP2V frame) ∧ dmV2P (dmP2V frame) = frame := by
  unfold pageSizeInBytes at aligned
  have value : dmP2V frame = frame + higherHalfStart := by
    apply Nat.mod_eq_of_lt
    unfold higherHalfStart
    omega
  rw [value]
  refine ⟨⟨?_, Nat.le_add_left _ _, ?_⟩, ?_⟩
  · unfold higherHalfStart
    omega
  · unfold higherHalfStart
    omega
  · unfold dmV2P subU64 higherHalfStart
    omega

/-- A call of `create_block` that returns has made a new block in a fresh page. -/
theorem createBlock_spec (small : prev < 2 ^ 64) (created : createBlock pages type prev blocks = .ok (new, blocks')) :
    ∃ frame bytes, pages.pmmXalloc blocks.env = .ok (frame, bytes, blocks'.env) ∧ Page new ∧ dmP2V frame = new ∧
      dmV2P new = frame ∧ blocks'.blockHeads = blocks.blockHeads ∧
      NewBlock type new prev (loadU64 bytes (new + 8)) blocks.mem blocks'.mem := by
  rw [createBlock_unfold] at created
  obtain ⟨⟨frame, bytes, env⟩, obtained, rest⟩ := Outcome.bind_eq_ok.mp created
  obtain ⟨rfl, rfl⟩ := Prod.mk.inj (Except.ok.inj rest)
  obtain ⟨aligned, bounded⟩ := pages.xalloc_aligned _ _ _ _ obtained
  obtain ⟨page, back⟩ := dmP2V_page aligned bounded
  have room := page.room
  refine ⟨frame, bytes, obtained, page, rfl, back, rfl, ?_⟩
  dsimp only
  rw [blockMemory_eq page]
  generalize dmP2V frame = new at *
  have values := @blockStores_values type new prev (pageBytes new bytes blocks.mem) page small
  have count : loadU64 (pageBytes new bytes blocks.mem) (new + 8) = loadU64 bytes (new + 8) := by
    have same : loadWord (pageBytes new bytes blocks.mem) (new + 8) = loadWord bytes (new + 8) := by
      apply loadWord_congr
      intro offset inside
      have reduced : (new + 8 + offset) % 2 ^ 64 = new + 8 + offset := Nat.mod_eq_of_lt (by omega)
      rw [byteAt, byteAt, reduced]
      exact if_pos ⟨by omega, by unfold pageSizeInBytes; omega⟩
    rw [loadU64, loadU64, same]
  rw [count] at values
  refine ⟨values.holds, values.prev, values.next, values.unused, ?_⟩
  intro addr below outside
  rw [values.outside addr below outside]
  exact if_neg (by unfold pageSizeInBytes; omega)

end

end Vmm

end B0s
