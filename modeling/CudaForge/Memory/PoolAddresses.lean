import CudaForge.Library.TiledLoop
import CudaForge.Memory.AllocationSizes
import CudaForge.Memory.PagedKVCache
import Mathlib.Order.CompletePartialOrder

/-!
The addresses of the key and value blocks, in the integer widths of the code: the part of a layer in
a block is the tile of its pool that the two numbers select.
-/
namespace CudaForge.Memory
open BlockAllocator MachineWord TiledLoop

def BlockAllocator.AllocateResult.pointer (a : BlockAllocator) :
    AllocateResult → Option (DevicePtr × BlockAllocator)
  | .returnsNull => some (0, a)
  | .outOfMemory _ => none
  | .returns allocator handle => some (handle.ptr, allocator)

/-- The fields of a `KVCacheConfig` that size the pools. -/
structure PoolConfig where
  numLayers : UInt32 := 32
  numKvHeads : UInt32 := 8
  headDim : UInt32 := 128
  blockSize : UInt32 := 16
  elementSizeBytes : UInt64 := 2
  totalGpuBlocks : UInt64 := 1024

namespace PoolConfig
variable (c : PoolConfig)

def layerBlockBytes : UInt64 :=
  c.numKvHeads.toUInt64 * c.blockSize.toUInt64 * c.headDim.toUInt64 * c.elementSizeBytes

def bytesPerBlock : UInt64 := c.numLayers.toUInt64 * c.layerBlockBytes

def totalPoolBytes : UInt64 := c.totalGpuBlocks * c.bytesPerBlock

/-- `static_cast<int32_t>(config_.total_gpu_blocks)`, from which the block ids are counted down. -/
def blockCount : Int32 := c.totalGpuBlocks.toUInt32.toInt32

def blockOffset (blockId : Int32) (layerIdx : UInt32) : UInt64 :=
  blockId.toInt64.toUInt64 * c.bytesPerBlock + layerIdx.toUInt64 * c.layerBlockBytes

end PoolConfig

structure KVPools where
  config : PoolConfig
  dKeyPool : DevicePtr
  dValPool : DevicePtr

namespace PoolConfig

/-- The pools of the constructor, with the driver's answers to the two allocations; `none` when one
of them throws. -/
def construct (c : PoolConfig) (a : BlockAllocator) (keyAnswer valAnswer : Option DevicePtr) :
    Option (KVPools × BlockAllocator) :=
  ((a.allocate c.totalPoolBytes.toNat .kvCache 0 keyAnswer).pointer a).bind fun key =>
    ((key.2.allocate c.totalPoolBytes.toNat .kvCache 0 valAnswer).pointer key.2).map fun val =>
      (⟨c, key.1, val.1⟩, val.2)

end PoolConfig

namespace KVPools
variable (pools : KVPools)

def getKeyBlockPtr (blockId : Int32) (layerIdx : UInt32) : DevicePtr :=
  pools.dKeyPool + (pools.config.blockOffset blockId layerIdx).toNat

def getValueBlockPtr (blockId : Int32) (layerIdx : UInt32) : DevicePtr :=
  pools.dValPool + (pools.config.blockOffset blockId layerIdx).toNat

end KVPools

namespace PoolConfig
variable (c : PoolConfig)

def Positive : Prop :=
  0 < c.numLayers ∧ 0 < c.numKvHeads ∧ 0 < c.headDim ∧ 0 < c.blockSize ∧ 0 < c.elementSizeBytes ∧
    0 < c.totalGpuBlocks

instance : Decidable c.Positive := inferInstanceAs (Decidable (_ ∧ _))

def product : ℕ :=
  c.totalGpuBlocks.toNat * c.numLayers.toNat * c.numKvHeads.toNat * c.blockSize.toNat *
    c.headDim.toNat * c.elementSizeBytes.toNat

def Addresses (blockId : Int32) (layerIdx : UInt32) : Prop :=
  0 ≤ blockId.toInt ∧ blockId.toInt < c.totalGpuBlocks.toNat ∧ layerIdx < c.numLayers

def MulExact (a b : UInt64) : Prop := (a * b).toNat = a.toNat * b.toNat

structure OffsetExact (blockId : Int32) (layerIdx : UInt32) : Prop where
  widened : (blockId.toInt64.toUInt64.toNat : ℤ) = blockId.toInt
  blockStart : MulExact blockId.toInt64.toUInt64 c.bytesPerBlock
  layerStart : MulExact layerIdx.toUInt64 c.layerBlockBytes
  sum : (c.blockOffset blockId layerIdx).toNat =
    (blockId.toInt64.toUInt64 * c.bytesPerBlock).toNat +
      (layerIdx.toUInt64 * c.layerBlockBytes).toNat

/-- The sizes and offsets, operation by operation; `request` is the sum that `allocate` rounds. -/
structure NeverWraps : Prop where
  headTokens : MulExact c.numKvHeads.toUInt64 c.blockSize.toUInt64
  elements : MulExact (c.numKvHeads.toUInt64 * c.blockSize.toUInt64) c.headDim.toUInt64
  layerBlockBytes : MulExact
    (c.numKvHeads.toUInt64 * c.blockSize.toUInt64 * c.headDim.toUInt64) c.elementSizeBytes
  bytesPerBlock : MulExact c.numLayers.toUInt64 c.layerBlockBytes
  totalPoolBytes : MulExact c.totalGpuBlocks c.bytesPerBlock
  request : add 64 c.totalPoolBytes.toNat 256 = c.totalPoolBytes.toNat + 256
  offset : ∀ blockId layerIdx, c.Addresses blockId layerIdx → c.OffsetExact blockId layerIdx

def layerBytes (ptr : DevicePtr) : Set DevicePtr := Set.Ico ptr (ptr + c.layerBlockBytes.toNat)

def poolBytes (pool : DevicePtr) : Set DevicePtr := Set.Ico pool (pool + c.totalPoolBytes.toNat)

/-- The parts that an accessor selects lie in the pool, and different ones are disjoint. -/
structure Separate (pool : DevicePtr) (ptr : Int32 → UInt32 → DevicePtr) : Prop where
  inside : ∀ b l, c.Addresses b l → c.layerBytes (ptr b l) ⊆ c.poolBytes pool
  disjoint : ∀ b l b' l', c.Addresses b l → c.Addresses b' l' → (b, l) ≠ (b', l') →
    Disjoint (c.layerBytes (ptr b l)) (c.layerBytes (ptr b' l'))

def Covered (pool : DevicePtr) (ptr : Int32 → UInt32 → DevicePtr) : Prop :=
  ∀ x ∈ c.poolBytes pool, ∃ b l, c.Addresses b l ∧ x ∈ c.layerBytes (ptr b l)

section Sizes
variable {c}

theorem mulExact_of_lt {a b : UInt64} (h : a.toNat * b.toNat < 2 ^ 64) : MulExact a b := by
  rw [MulExact, UInt64.toNat_mul, Nat.mod_eq_of_lt h]

variable (hpos : c.Positive) (hproduct : c.product < 2 ^ 64 - 256)
include hpos

theorem product_pos : 0 < c.product := by
  obtain ⟨hlayers, hheads, hdim, hblock, helement, htotal⟩ := hpos
  have hlayers' : 0 < c.numLayers.toNat := UInt32.lt_iff_toNat_lt.mp hlayers
  have hheads' : 0 < c.numKvHeads.toNat := UInt32.lt_iff_toNat_lt.mp hheads
  have hdim' : 0 < c.headDim.toNat := UInt32.lt_iff_toNat_lt.mp hdim
  have hblock' : 0 < c.blockSize.toNat := UInt32.lt_iff_toNat_lt.mp hblock
  have helement' : 0 < c.elementSizeBytes.toNat := UInt64.lt_iff_toNat_lt.mp helement
  have htotal' : 0 < c.totalGpuBlocks.toNat := UInt64.lt_iff_toNat_lt.mp htotal
  unfold product
  positivity

include hproduct

/-- The product of some of the fields fits a word. -/
theorem fits_of_dvd {m : ℕ} (h : m ∣ c.product) : m < 2 ^ 64 := by
  have hle := Nat.le_of_dvd (product_pos hpos) h
  omega

theorem headTokens_exact : MulExact c.numKvHeads.toUInt64 c.blockSize.toUInt64 := by
  apply mulExact_of_lt
  rw [UInt32.toNat_toUInt64, UInt32.toNat_toUInt64]
  exact fits_of_dvd hpos hproduct
    ⟨c.totalGpuBlocks.toNat * c.numLayers.toNat * c.headDim.toNat * c.elementSizeBytes.toNat,
      by rw [product]; ring⟩

theorem elements_exact :
    MulExact (c.numKvHeads.toUInt64 * c.blockSize.toUInt64) c.headDim.toUInt64 := by
  apply mulExact_of_lt
  rw [headTokens_exact hpos hproduct, UInt32.toNat_toUInt64, UInt32.toNat_toUInt64,
    UInt32.toNat_toUInt64]
  exact fits_of_dvd hpos hproduct
    ⟨c.totalGpuBlocks.toNat * c.numLayers.toNat * c.elementSizeBytes.toNat, by rw [product]; ring⟩

theorem layerBlockBytes_exact : MulExact
    (c.numKvHeads.toUInt64 * c.blockSize.toUInt64 * c.headDim.toUInt64) c.elementSizeBytes := by
  apply mulExact_of_lt
  rw [elements_exact hpos hproduct, headTokens_exact hpos hproduct, UInt32.toNat_toUInt64,
    UInt32.toNat_toUInt64, UInt32.toNat_toUInt64]
  exact fits_of_dvd hpos hproduct
    ⟨c.totalGpuBlocks.toNat * c.numLayers.toNat, by rw [product]; ring⟩

theorem layerBlockBytes_toNat : c.layerBlockBytes.toNat =
    c.numKvHeads.toNat * c.blockSize.toNat * c.headDim.toNat * c.elementSizeBytes.toNat := by
  rw [PoolConfig.layerBlockBytes, layerBlockBytes_exact hpos hproduct, elements_exact hpos hproduct,
    headTokens_exact hpos hproduct, UInt32.toNat_toUInt64, UInt32.toNat_toUInt64,
    UInt32.toNat_toUInt64]

theorem bytesPerBlock_exact : MulExact c.numLayers.toUInt64 c.layerBlockBytes := by
  apply mulExact_of_lt
  rw [layerBlockBytes_toNat hpos hproduct, UInt32.toNat_toUInt64]
  exact fits_of_dvd hpos hproduct ⟨c.totalGpuBlocks.toNat, by rw [product]; ring⟩

theorem bytesPerBlock_toNat :
    c.bytesPerBlock.toNat = c.numLayers.toNat * c.layerBlockBytes.toNat := by
  rw [PoolConfig.bytesPerBlock, bytesPerBlock_exact hpos hproduct, UInt32.toNat_toUInt64]

theorem product_eq : c.product = c.totalGpuBlocks.toNat * c.bytesPerBlock.toNat := by
  rw [bytesPerBlock_toNat hpos hproduct, layerBlockBytes_toNat hpos hproduct, product]
  ring

theorem totalPoolBytes_exact : MulExact c.totalGpuBlocks c.bytesPerBlock := by
  apply mulExact_of_lt
  rw [← product_eq hpos hproduct]
  exact fits_of_dvd hpos hproduct dvd_rfl

/-- The constructor requests the bytes of the pool. -/
theorem totalPoolBytes_toNat : c.totalPoolBytes.toNat = c.product := by
  rw [PoolConfig.totalPoolBytes, totalPoolBytes_exact hpos hproduct, product_eq hpos hproduct]

theorem layerBlockBytes_pos : 0 < c.layerBlockBytes.toNat := by
  have hprod := product_pos hpos
  rw [product_eq hpos hproduct, bytesPerBlock_toNat hpos hproduct] at hprod
  exact Nat.pos_of_mul_pos_left (Nat.pos_of_mul_pos_left hprod)

end Sizes

section Offsets
variable {c} {b b' : Int32} {l l' : UInt32} {pool x : ℕ}

/-- A block id keeps its value as a `size_t`. -/
theorem widened_eq (h : 0 ≤ b.toInt) : b.toInt64.toUInt64.toNat = b.toInt.toNat := by
  have hnonneg : (0 : Int64) ≤ b.toInt64 := by
    rw [Int64.le_iff_toInt_le, Int32.toInt_toInt64]
    exact h
  rw [Int64.toNat_toUInt64_of_le hnonneg, Int32.toNatClampNeg_toInt64, Int32.toNat_toInt]

theorem Addresses.block_lt (h : c.Addresses b l) : b.toInt.toNat < c.totalGpuBlocks.toNat := by
  obtain ⟨hlow, hhigh, -⟩ := h
  omega

theorem Addresses.layer_lt (h : c.Addresses b l) : l.toNat < c.numLayers.toNat :=
  UInt32.lt_iff_toNat_lt.mp h.2.2

variable (hpos : c.Positive) (hproduct : c.product < 2 ^ 64 - 256)
include hpos hproduct

theorem offsetExact (h : c.Addresses b l) : c.OffsetExact b l := by
  have hwidened := widened_eq h.1
  -- the end of the part is at most the end of the pool
  have hblocks : (b.toInt.toNat + 1) * c.bytesPerBlock.toNat ≤ c.product := by
    rw [product_eq hpos hproduct]
    exact Nat.mul_le_mul_right _ h.block_lt
  have hlayers : (l.toNat + 1) * c.layerBlockBytes.toNat ≤ c.bytesPerBlock.toNat := by
    rw [bytesPerBlock_toNat hpos hproduct]
    exact Nat.mul_le_mul_right _ h.layer_lt
  rw [Nat.succ_mul] at hblocks hlayers
  have hblock : MulExact b.toInt64.toUInt64 c.bytesPerBlock := by
    apply mulExact_of_lt
    rw [hwidened]
    omega
  have hlayer : MulExact l.toUInt64 c.layerBlockBytes := by
    apply mulExact_of_lt
    rw [UInt32.toNat_toUInt64]
    omega
  refine ⟨?_, hblock, hlayer, ?_⟩
  · rw [hwidened, Int.toNat_of_nonneg h.1]
  · rw [blockOffset, UInt64.toNat_add, hblock, hlayer, hwidened, UInt32.toNat_toUInt64]
    exact Nat.mod_eq_of_lt (by omega)

/-- The offset as an integer. -/
theorem blockOffset_toNat (h : c.Addresses b l) : (c.blockOffset b l).toNat =
    b.toInt.toNat * (c.numLayers.toNat * c.layerBlockBytes.toNat) +
      l.toNat * c.layerBlockBytes.toNat := by
  have hexact := offsetExact hpos hproduct h
  rw [hexact.sum, hexact.blockStart, hexact.layerStart, widened_eq h.1, UInt32.toNat_toUInt64,
    bytesPerBlock_toNat hpos hproduct]

theorem neverWraps : c.NeverWraps where
  headTokens := headTokens_exact hpos hproduct
  elements := elements_exact hpos hproduct
  layerBlockBytes := layerBlockBytes_exact hpos hproduct
  bytesPerBlock := bytesPerBlock_exact hpos hproduct
  totalPoolBytes := totalPoolBytes_exact hpos hproduct
  request := by
    rw [totalPoolBytes_toNat hpos hproduct]
    exact add_eq (by omega)
  offset := fun _ _ h => offsetExact hpos hproduct h

/-- A byte lies in the part that its distance from the pool's begin selects. -/
theorem mem_layerBytes (h : c.Addresses b l) :
    x ∈ c.layerBytes (pool + (c.blockOffset b l).toNat) ↔ pool ≤ x ∧
      (x - pool) / c.layerBlockBytes.toNat / c.numLayers.toNat = b.toInt.toNat ∧
      (x - pool) / c.layerBlockBytes.toNat % c.numLayers.toNat = l.toNat := by
  rw [layerBytes, Set.mem_Ico, blockOffset_toNat hpos hproduct h,
    ← mem_tile_iff (layerBlockBytes_pos hpos hproduct) h.layer_lt]
  omega

theorem mem_poolBytes : x ∈ c.poolBytes pool ↔ pool ≤ x ∧
    (x - pool) / c.layerBlockBytes.toNat / c.numLayers.toNat < c.totalGpuBlocks.toNat := by
  have hs := layerBlockBytes_pos hpos hproduct
  have hL : 0 < c.numLayers.toNat := UInt32.lt_iff_toNat_lt.mp hpos.1
  rw [poolBytes, Set.mem_Ico, Nat.div_lt_iff_lt_mul hL, Nat.div_lt_iff_lt_mul hs, Nat.mul_assoc,
    ← bytesPerBlock_toNat hpos hproduct, ← product_eq hpos hproduct,
    totalPoolBytes_toNat hpos hproduct]
  omega

/-- The parts are tiles of the pool. -/
theorem separate (pool : DevicePtr) :
    c.Separate pool fun b l => pool + (c.blockOffset b l).toNat where
  inside := fun b l h x hx => by
    obtain ⟨hle, hblock, -⟩ := (mem_layerBytes hpos hproduct h).mp hx
    rw [mem_poolBytes hpos hproduct, hblock]
    exact ⟨hle, h.block_lt⟩
  disjoint := fun b l b' l' h h' hne => by
    rw [Set.disjoint_left]
    intro x hx hx'
    obtain ⟨-, hblock, hlayer⟩ := (mem_layerBytes hpos hproduct h).mp hx
    obtain ⟨-, hblock', hlayer'⟩ := (mem_layerBytes hpos hproduct h').mp hx'
    have hb : b.toInt = b'.toInt := by
      have hlow := h.1
      have hlow' := h'.1
      omega
    have hl : l.toNat = l'.toNat := hlayer.symm.trans hlayer'
    exact hne (Prod.ext (Int32.toInt_inj.mp hb) (UInt32.toNat_inj.mp hl))

/-- Block ids up to `2 ^ 31 - 1` reach the whole pool when it has no further blocks. -/
theorem covered_iff (pool : DevicePtr) :
    c.Covered pool (fun b l => pool + (c.blockOffset b l).toNat) ↔
      c.totalGpuBlocks.toNat ≤ 2 ^ 31 := by
  have hs := layerBlockBytes_pos hpos hproduct
  have hL : 0 < c.numLayers.toNat := UInt32.lt_iff_toNat_lt.mp hpos.1
  constructor
  · intro hcovered
    by_contra hmany
    -- the first byte of block `2 ^ 31`
    have hplace : (pool + 2 ^ 31 * c.numLayers.toNat * c.layerBlockBytes.toNat - pool) /
        c.layerBlockBytes.toNat / c.numLayers.toNat = 2 ^ 31 := by
      rw [Nat.add_sub_cancel_left, Nat.mul_div_cancel _ hs, Nat.mul_div_cancel _ hL]
    obtain ⟨b, l, haddresses, hx⟩ := hcovered
      (pool + 2 ^ 31 * c.numLayers.toNat * c.layerBlockBytes.toNat)
      ((mem_poolBytes hpos hproduct).mpr ⟨Nat.le_add_right _ _, by rw [hplace]; omega⟩)
    obtain ⟨-, hblock, -⟩ := (mem_layerBytes hpos hproduct haddresses).mp hx
    rw [hplace] at hblock
    have hlt := Int32.toInt_lt b
    omega
  · intro hfew x hx
    obtain ⟨hle, hlt⟩ := (mem_poolBytes hpos hproduct).mp hx
    have hblock := Int32.toInt_ofNat_of_lt (hlt.trans_le hfew)
    have hmod := Nat.mod_lt ((x - pool) / c.layerBlockBytes.toNat) hL
    have hlayer := UInt32.toNat_ofNat_of_lt' (hmod.trans c.numLayers.toNat_lt)
    have haddresses : c.Addresses
        (Int32.ofNat ((x - pool) / c.layerBlockBytes.toNat / c.numLayers.toNat))
        (UInt32.ofNat ((x - pool) / c.layerBlockBytes.toNat % c.numLayers.toNat)) := by
      refine ⟨?_, ?_, ?_⟩
      · rw [hblock]
        exact Int.natCast_nonneg _
      · rw [hblock]
        exact_mod_cast hlt
      · rwa [UInt32.lt_iff_toNat_lt, hlayer]
    refine ⟨_, _, haddresses, (mem_layerBytes hpos hproduct haddresses).mpr ⟨hle, ?_, ?_⟩⟩
    · rw [hblock, Int.toNat_natCast]
    · rw [hlayer]

end Offsets

/-- The number of blocks keeps its value as an `int32_t` when it is below `2 ^ 31`. -/
theorem blockCount_eq_iff :
    c.blockCount.toInt = c.totalGpuBlocks.toNat ↔ c.totalGpuBlocks.toNat < 2 ^ 31 := by
  have hcount : c.blockCount.toInt = toSigned 32 (c.totalGpuBlocks.toNat % 2 ^ 32) :=
    BitVec.toInt_eq_toNat_bmod _
  constructor
  · intro h
    have hlt := Int32.toInt_lt c.blockCount
    omega
  · intro h
    rw [hcount, Nat.mod_eq_of_lt (by omega), toSigned_eq (by omega)]

section Construction
variable {c} {a a' : BlockAllocator} {pools : KVPools}
  {keyAnswer valAnswer answer : Option DevicePtr}

/-- A request that does not wrap is recorded with the rounded size under the pointer it returns. -/
theorem allocate_pointer {bytes : ℕ} (hbytes : 0 < bytes) (hlt : bytes < 2 ^ 64 - 256)
    {category : MemoryCategory} {stream : CudaStream} {ptr : DevicePtr}
    (h : (a.allocate bytes category stream answer).pointer a = some (ptr, a')) :
    a'.activeAllocations =
      a.activeAllocations.insert ptr ⟨ptr, roundedUp bytes, category, stream⟩ := by
  have hword : bytes % 2 ^ 64 = bytes := Nat.mod_eq_of_lt (by omega)
  have hrounded : roundedUp bytes % 2 ^ 64 = roundedUp bytes := by
    rw [roundedUp]
    exact Nat.mod_eq_of_lt (by omega)
  have hcheck : a.allocateCheck bytes = _ := hword ▸ allocateCheck_of_ne_zero (by omega)
  rw [BlockAllocator.allocate, hcheck, hrounded] at h
  split_ifs at h
  · cases h
  · cases answer with
    | none => cases h
    | some p =>
      obtain ⟨rfl, rfl⟩ := Prod.mk.inj (Option.some.inj h)
      rfl

/-- Both pools of a constructed cache lie in blocks that the allocator has recorded. -/
theorem construct_recorded (hpos : c.Positive) (hproduct : c.product < 2 ^ 64 - 256)
    (h : c.construct a keyAnswer valAnswer = some (pools, a')) :
    pools.config = c ∧ ∀ pool, pool = pools.dKeyPool ∨ pool = pools.dValPool →
      ∃ handle, a'.activeAllocations.lookup pool = some handle ∧ c.product ≤ handle.sizeBytes := by
  have hbytes := product_pos hpos
  have hround : c.product ≤ roundedUp c.product := (roundedUp_isLeast c.product).1.2
  rw [construct, totalPoolBytes_toNat hpos hproduct] at h
  obtain ⟨⟨key, a₁⟩, hkey, h⟩ := Option.bind_eq_some_iff.mp h
  obtain ⟨⟨val, a₂⟩, hval, h⟩ := Option.map_eq_some_iff.mp h
  obtain ⟨rfl, rfl⟩ := Prod.mk.inj h
  refine ⟨rfl, fun pool hpool => ?_⟩
  rw [allocate_pointer hbytes hproduct hval, FiniteMap.lookup_insert_ite]
  split_ifs with hsame
  · exact ⟨_, rfl, hround⟩
  · obtain rfl := hpool.resolve_right hsame
    rw [allocate_pointer hbytes hproduct hkey, FiniteMap.lookup_insert_ite, if_pos rfl]
    exact ⟨_, rfl, hround⟩

end Construction

/-- No size and no offset wraps; the parts of the key pool and of the value pool lie in their pool,
are disjoint, and cover it exactly when an `int32_t` can hold all block ids. The constructor's own
count of the blocks fits when it is one less. -/
theorem pools_tiled (c : PoolConfig) (hpos : c.Positive) (hproduct : c.product < 2 ^ 64 - 256) :
    c.totalPoolBytes.toNat = c.product ∧ c.NeverWraps ∧
    (c.blockCount.toInt = c.totalGpuBlocks.toNat ↔ c.totalGpuBlocks.toNat < 2 ^ 31) ∧
    ∀ pools : KVPools, pools.config = c →
      c.Separate pools.dKeyPool pools.getKeyBlockPtr ∧
      c.Separate pools.dValPool pools.getValueBlockPtr ∧
      (c.Covered pools.dKeyPool pools.getKeyBlockPtr ↔ c.totalGpuBlocks.toNat ≤ 2 ^ 31) ∧
      (c.Covered pools.dValPool pools.getValueBlockPtr ↔ c.totalGpuBlocks.toNat ≤ 2 ^ 31) := by
  refine ⟨totalPoolBytes_toNat hpos hproduct, neverWraps hpos hproduct, c.blockCount_eq_iff, ?_⟩
  rintro pools rfl
  exact ⟨separate hpos hproduct _, separate hpos hproduct _, covered_iff hpos hproduct _,
    covered_iff hpos hproduct _⟩

theorem pools_tiled_default :
    let pools : KVPools := ⟨{}, 4096, 2 ^ 30⟩
    PoolConfig.Covered {} 4096 pools.getKeyBlockPtr ↔ (1024 : UInt64).toNat ≤ 2 ^ 31 :=
  ((pools_tiled {} (by decide) (by decide)).2.2.2 ⟨{}, 4096, 2 ^ 30⟩ rfl).2.2.1

/-- One block more than there are block ids, each of one byte. -/
def manyBlocks : PoolConfig := ⟨1, 1, 1, 1, 1, 0x80000001⟩

theorem manyBlocks_not_covered :
    manyBlocks.Positive ∧ manyBlocks.product < 2 ^ 64 - 256 ∧
      manyBlocks.blockCount.toInt ≠ manyBlocks.totalGpuBlocks.toNat ∧
      ¬ manyBlocks.Covered 4096 (KVPools.getKeyBlockPtr ⟨manyBlocks, 4096, 2 ^ 40⟩) := by
  have hpos : manyBlocks.Positive := by decide
  have hproduct : manyBlocks.product < 2 ^ 64 - 256 := by decide
  refine ⟨hpos, hproduct, by decide, fun hcovered => ?_⟩
  exact absurd ((covered_iff hpos hproduct 4096).mp hcovered) (by decide)

end PoolConfig

section CacheConfig
variable {cfg : KVCacheConfig}

def KVCacheConfig.poolConfig (cfg : KVCacheConfig) : PoolConfig where
  numLayers := .ofNat cfg.numLayers
  numKvHeads := .ofNat cfg.numKvHeads
  headDim := .ofNat cfg.headDim
  blockSize := .ofNat cfg.blockSize
  elementSizeBytes := .ofNat cfg.elementSizeBytes
  totalGpuBlocks := .ofNat cfg.totalGpuBlocks

variable (hlayers : cfg.numLayers < 2 ^ 32) (hheads : cfg.numKvHeads < 2 ^ 32)
  (hdim : cfg.headDim < 2 ^ 32)
include hheads hdim

theorem layerBlockBytes_poolConfig :
    cfg.poolConfig.layerBlockBytes.toNat = PagedKVCache.layerBlockBytes cfg := by
  have hblock := cfg.blockSize_lt
  simp only [PoolConfig.layerBlockBytes, KVCacheConfig.poolConfig, PagedKVCache.layerBlockBytes,
    UInt64.toNat_mul, UInt32.toNat_toUInt64, UInt32.toNat_ofNat_of_lt' hheads,
    UInt32.toNat_ofNat_of_lt' hdim, UInt32.toNat_ofNat_of_lt' hblock, UInt64.toNat_ofNat',
    Nat.mod_mul_mod, Nat.mul_mod_mod]

include hlayers

theorem bytesPerBlock_poolConfig :
    cfg.poolConfig.bytesPerBlock.toNat = PagedKVCache.bytesPerBlock cfg := by
  rw [PoolConfig.bytesPerBlock, UInt64.toNat_mul, layerBlockBytes_poolConfig hheads hdim,
    UInt32.toNat_toUInt64, PagedKVCache.bytesPerBlock]
  exact congrArg (· * _ % 2 ^ 64) (UInt32.toNat_ofNat_of_lt' hlayers)

/-- The strides that a batch descriptor carries are those of the accessors. -/
theorem batch_strides {c : PagedKVCache cfg} {ids : List ℕ} {batch : KVCacheBatchDescriptor}
    (h : c.prepareBatchMetadata ids = .ok batch) :
    batch.bytesPerBlock = cfg.poolConfig.bytesPerBlock.toNat ∧
      batch.layerBlockBytes = cfg.poolConfig.layerBlockBytes.toNat := by
  rw [bytesPerBlock_poolConfig hlayers hheads hdim, layerBlockBytes_poolConfig hheads hdim]
  unfold PagedKVCache.prepareBatchMetadata at h
  split_ifs at h
  split at h
  · cases h
  · dsimp only at h
    split_ifs at h
    obtain rfl := Except.ok.inj h
    exact ⟨rfl, rfl⟩

end CacheConfig

end CudaForge.Memory
