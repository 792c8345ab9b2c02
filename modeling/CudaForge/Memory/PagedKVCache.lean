import CudaForge.Library.PathTrie
import CudaForge.Library.FiniteMap
import CudaForge.Library.MachineWord
import CudaForge.Library.Rounding
import CudaForge.Library.Transition

/-!
The paged KV cache with prefix sharing and LRU eviction.

Block ids are indices of `physical_blocks_`, so the range check of `free_physical_block` never
fires. The free stack is a list with its back first and the LRU list one with its front first.
-/
namespace CudaForge.Memory
open MachineWord FiniteMap

structure KVCacheConfig where
  numLayers : ℕ := 32
  numKvHeads : ℕ := 8
  headDim : ℕ := 128
  blockSize : ℕ := 16
  elementSizeBytes : ℕ := 2
  totalGpuBlocks : ℕ := 1024
  enablePrefixCaching : Bool := true
  maxSupportedBatchSize : ℕ := 256
  maxBlocksPerSequence : ℕ := 512
  /-- The code divides by the block size. -/
  blockSize_pos : 0 < blockSize := by decide
  blockSize_lt : blockSize < 2 ^ 32 := by decide
  /-- Block ids are `int32_t`. -/
  totalGpuBlocks_lt : totalGpuBlocks < 2 ^ 31 := by decide

/-- `lruIterator` tells whether the iterator is not `end()`; it then points to the block's first
occurrence in the LRU list. -/
structure PhysicalBlock where
  refCount : ℕ
  numTokensFilled : ℕ
  hashValue : UInt64
  isCached : Bool
  lruIterator : Bool
  deriving DecidableEq

abbrev Block (cfg : KVCacheConfig) := Fin cfg.totalGpuBlocks

instance (cfg : KVCacheConfig) : LawfulBEq (Block cfg) := inferInstance

structure PrefixTreeNode (cfg : KVCacheConfig) where
  hashValue : UInt64
  physicalBlockId : Block cfg
  deriving DecidableEq

/-- The tree is kept by paths of hashes, and `hash_to_node_map_` holds the paths of its nodes. -/
structure PagedKVCache (cfg : KVCacheConfig) where
  physicalBlocks : Block cfg → PhysicalBlock
  freeBlockStack : List (Block cfg)
  lruList : List (Block cfg)
  prefixTree : PathTrie UInt64 (PrefixTreeNode cfg)
  hashToNodeMap : FiniteMap UInt64 (List UInt64)
  pageTables : FiniteMap ℕ (List (Block cfg))
  prefixCacheHits : ℕ
  prefixCacheMisses : ℕ
  lruEvictionsCount : ℕ

structure KVCacheStats where
  totalBlocks : ℕ
  freeBlocks : ℕ
  allocatedBlocks : ℕ
  cachedPrefixBlocks : ℕ
  totalMemoryBytes : ℕ
  usedMemoryBytes : ℕ
  /-- `none` is not a number. -/
  poolUtilizationRatio : Option ℚ
  activeSequencesCount : ℕ
  prefixCacheHits : ℕ
  prefixCacheMisses : ℕ
  lruEvictionsCount : ℕ

/-- Without the device pointers. -/
structure KVCacheBatchDescriptor where
  blockTables : List ℤ
  contextLens : List ℤ
  batchSize : ℤ
  maxBlocksPerSeq : ℤ
  blockSize : ℤ
  numKvHeads : ℤ
  headDim : ℤ
  bytesPerBlock : ℕ
  layerBlockBytes : ℕ
  deriving DecidableEq

inductive KVCacheException where
  | outOfPages (totalGpuBlocks : ℕ)
  | notRegistered (sequenceId : ℕ)
  | parentNotFound (parentSequenceId : ℕ)
  | batchTooLarge
  | notFound (sequenceId : ℕ)
  | tooManyBlocks
  deriving DecidableEq

def KVCacheException.what : KVCacheException → String
  | .outOfPages n =>
    "OutOfPagesException: Physical KV Cache pool exhausted! All " ++ toString n ++
      " blocks in active use."
  | .notRegistered id => "Sequence ID " ++ toString id ++ " not registered!"
  | .parentNotFound id => "Parent Sequence ID " ++ toString id ++ " not found!"
  | .batchTooLarge => "Requested batch size exceeds max_supported_batch_size"
  | .notFound id => "prepare_batch_metadata: Sequence ID " ++ toString id ++ " not found!"
  | .tooManyBlocks => "Sequence blocks count exceeds max_blocks_per_sequence limit"

/-- `std::hash<int32_t>` converts to `size_t`. -/
def stdHash (token : Int32) : UInt64 := token.toInt64.toUInt64

def computeBlockHash (tokens : List Int32) (parentHash : UInt64) : UInt64 :=
  tokens.foldl
    (fun hash token => hash ^^^
      (stdHash token + 0x9e3779b9 + (hash <<< (6 : UInt64)) + (hash >>> (2 : UInt64))))
    (parentHash ^^^ 0x9e3779b97f4a7c15)

namespace PagedKVCache
variable {cfg : KVCacheConfig}

def init (cfg : KVCacheConfig) : PagedKVCache cfg where
  physicalBlocks _ := ⟨0, 0, 0, false, false⟩
  freeBlockStack := List.finRange cfg.totalGpuBlocks
  lruList := []
  prefixTree := PathTrie.empty
  hashToNodeMap := ∅
  pageTables := ∅
  prefixCacheHits := 0
  prefixCacheMisses := 0
  lruEvictionsCount := 0

def layerBlockBytes (cfg : KVCacheConfig) : ℕ :=
  cfg.numKvHeads * cfg.blockSize * cfg.headDim * cfg.elementSizeBytes % 2 ^ 64

def bytesPerBlock (cfg : KVCacheConfig) : ℕ := cfg.numLayers * layerBlockBytes cfg % 2 ^ 64

def setBlock (c : PagedKVCache cfg) (b : Block cfg) (block : PhysicalBlock) : PagedKVCache cfg :=
  { c with physicalBlocks := Function.update c.physicalBlocks b block }

def takeUnreferenced (blocks : Block cfg → PhysicalBlock) :
    List (Block cfg) → Option (Block cfg × List (Block cfg))
  | [] => none
  | b :: rest =>
    match takeUnreferenced blocks rest with
    | some (victim, rest) => some (victim, b :: rest)
    | none => if (blocks b).refCount = 0 then some (b, rest) else none

/-- `none` is the result `false`, which changes nothing. -/
def evictLruBlock (c : PagedKVCache cfg) : Option (PagedKVCache cfg) :=
  (takeUnreferenced c.physicalBlocks c.lruList).map fun victim =>
    let block := c.physicalBlocks victim.1
    { c.setBlock victim.1
        { block with isCached := false, hashValue := 0, numTokensFilled := 0, lruIterator := false }
      with
      hashToNodeMap := c.hashToNodeMap.erase block.hashValue
      lruList := victim.2
      freeBlockStack := victim.1 :: c.freeBlockStack
      lruEvictionsCount := add 64 c.lruEvictionsCount 1 }

/-- `none` when `OutOfPagesException` is thrown, which leaves the cache as it was. -/
def allocatePhysicalBlock (c : PagedKVCache cfg) : Option (Block cfg × PagedKVCache cfg) :=
  let evicted := if c.freeBlockStack.isEmpty then c.evictLruBlock else some c
  evicted.bind fun c =>
    match c.freeBlockStack with
    | [] => none
    | b :: rest =>
      some (b, { c.setBlock b
          { c.physicalBlocks b with refCount := 1, numTokensFilled := 0, isCached := false } with
        freeBlockStack := rest })

def freePhysicalBlock (c : PagedKVCache cfg) (b : Block cfg) : PagedKVCache cfg :=
  let block := c.physicalBlocks b
  if block.refCount = 0 then c
  else
    let refCount := block.refCount - 1
    if refCount = 0 then
      if cfg.enablePrefixCaching && block.hashValue ≠ 0 then
        { c.setBlock b { block with refCount := refCount, isCached := true, lruIterator := true }
          with lruList := b :: c.lruList }
      else
        { c.setBlock b { block with refCount := refCount, numTokensFilled := 0 } with
          freeBlockStack := b :: c.freeBlockStack }
    else c.setBlock b { block with refCount := refCount }

def shareBlock (c : PagedKVCache cfg) (b : Block cfg) : PagedKVCache cfg :=
  let c := { c with prefixCacheHits := add 64 c.prefixCacheHits 1 }
  let block := { c.physicalBlocks b with refCount := add 32 (c.physicalBlocks b).refCount 1 }
  if block.isCached then
    if block.lruIterator then
      { c.setBlock b { block with isCached := false, lruIterator := false } with
        lruList := c.lruList.erase b }
    else c.setBlock b { block with isCached := false }
  else c.setBlock b block

def blockTokens (cfg : KVCacheConfig) (promptTokens : List Int32) (b : ℕ) : List Int32 :=
  (promptTokens.drop (b * cfg.blockSize)).take cfg.blockSize

/-- The local variables of `register_sequence_with_prefix`; `treePath` is the current tree node. -/
structure Registration (cfg : KVCacheConfig) where
  cache : PagedKVCache cfg
  blockTable : List (Block cfg)
  matchedTokens : ℕ
  currentParentHash : UInt64
  treePath : List UInt64
  outOfPages : Bool

def matchLoop : List (List Int32) → Registration cfg → Registration cfg
  | [], r => r
  | tokens :: rest, r =>
    let blockHash := computeBlockHash tokens r.currentParentHash
    match r.cache.prefixTree (blockHash :: r.treePath) with
    | none => r
    | some child =>
      matchLoop rest
        { r with
          cache := r.cache.shareBlock child.physicalBlockId
          blockTable := r.blockTable ++ [child.physicalBlockId]
          matchedTokens := r.matchedTokens + cfg.blockSize
          currentParentHash := blockHash
          treePath := blockHash :: r.treePath }

def fillBlock (c : PagedKVCache cfg) (b : Block cfg) (blockHash : UInt64)
    (treePath : List UInt64) : PagedKVCache cfg :=
  { c.setBlock b
      { c.physicalBlocks b with numTokensFilled := cfg.blockSize, hashValue := blockHash } with
    prefixTree := c.prefixTree.insertChild treePath blockHash ⟨blockHash, b⟩
    hashToNodeMap := c.hashToNodeMap.insert blockHash (blockHash :: treePath)
    prefixCacheMisses := add 64 c.prefixCacheMisses 1 }

def Registration.fillStep (r : Registration cfg) (tokens : List Int32) (b : Block cfg)
    (cache : PagedKVCache cfg) : Registration cfg :=
  let blockHash := computeBlockHash tokens r.currentParentHash
  { r with
    cache := cache.fillBlock b blockHash r.treePath
    blockTable := r.blockTable ++ [b]
    currentParentHash := blockHash
    treePath := blockHash :: r.treePath }

def fillLoop : List (List Int32) → Registration cfg → Registration cfg
  | [], r => r
  | tokens :: rest, r =>
    match r.cache.allocatePhysicalBlock with
    | none => { r with outOfPages := true }
    | some (b, cache) => fillLoop rest (r.fillStep tokens b cache)

def setTokens (c : PagedKVCache cfg) (b : Block cfg) (numTokens : ℕ) : PagedKVCache cfg :=
  c.setBlock b { c.physicalBlocks b with numTokensFilled := numTokens }

/-- The full blocks of a prompt; its size is cast to `uint32_t`. -/
def promptBlocks (cfg : KVCacheConfig) (promptTokens : List Int32) : List (List Int32) :=
  (List.range (promptTokens.length % 2 ^ 32 / cfg.blockSize)).map (blockTokens cfg promptTokens)

/-- The tail block, which is also allocated for an empty prompt. -/
def tailStep (tailTokens : ℕ) (r : Registration cfg) : Registration cfg :=
  if tailTokens > 0 ∨ r.blockTable = [] then
    match r.cache.allocatePhysicalBlock with
    | none => { r with outOfPages := true }
    | some (b, cache) =>
      { r with cache := cache.setTokens b tailTokens, blockTable := r.blockTable ++ [b] }
  else r

def buildTable (c : PagedKVCache cfg) (promptTokens : List Int32) : Registration cfg :=
  let totalTokens := promptTokens.length % 2 ^ 32
  let start : Registration cfg := ⟨c, [], 0, 0, [], false⟩
  let matched :=
    if cfg.enablePrefixCaching then matchLoop (promptBlocks cfg promptTokens) start else start
  let remainingTokens := totalTokens - matched.matchedTokens
  let unMatchedFullBlocks := remainingTokens / cfg.blockSize
  let startBlockIdx := matched.matchedTokens / cfg.blockSize
  let filled := fillLoop
    ((List.range unMatchedFullBlocks).map fun b => blockTokens cfg promptTokens (startBlockIdx + b))
    matched
  if filled.outOfPages then filled else tailStep (remainingTokens % cfg.blockSize) filled

def registerSequenceWithPrefix (c : PagedKVCache cfg) (sequenceId : ℕ)
    (promptTokens : List Int32) : Except KVCacheException ℕ × PagedKVCache cfg :=
  if sequenceId ∈ c.pageTables then (.ok 0, c)
  else
    let r := c.buildTable promptTokens
    if r.outOfPages then (.error (.outOfPages cfg.totalGpuBlocks), r.cache)
    else
      (.ok r.matchedTokens,
        { r.cache with pageTables := r.cache.pageTables.insert sequenceId r.blockTable })

/-- The table grows in place, so a throw keeps the blocks added so far. -/
def appendLoop (sequenceId : ℕ) : ℕ → ℕ → List (Block cfg) → PagedKVCache cfg →
    Except KVCacheException Unit × PagedKVCache cfg
  | 0, _, _, c => (.ok (), c)
  | additional + 1, remaining, blockTable, c =>
    match c.allocatePhysicalBlock with
    | none => (.error (.outOfPages cfg.totalGpuBlocks), c)
    | some (b, c) =>
      let added := min remaining cfg.blockSize
      let blockTable := blockTable ++ [b]
      let c := c.setTokens b added
      appendLoop sequenceId additional (remaining - added) blockTable
        { c with pageTables := c.pageTables.insert sequenceId blockTable }

/-- A registered table is never empty, so its back exists. -/
def appendTokens (c : PagedKVCache cfg) (sequenceId numTokens : ℕ) :
    Except KVCacheException Unit × PagedKVCache cfg :=
  match c.pageTables.lookup sequenceId with
  | none => (.error (.notRegistered sequenceId), c)
  | some blockTable =>
    match blockTable.getLast? with
    | none => (.ok (), c)
    | some last =>
      let filled := (c.physicalBlocks last).numTokensFilled
      let available := sub 32 cfg.blockSize filled
      if numTokens ≤ available then (.ok (), c.setTokens last (add 32 filled numTokens))
      else
        let remaining := numTokens - available
        let additionalBlocks := sub 32 (add 32 remaining cfg.blockSize) 1 / cfg.blockSize
        appendLoop sequenceId additionalBlocks remaining blockTable
          (c.setTokens last cfg.blockSize)

def unregisterSequence (c : PagedKVCache cfg) (sequenceId : ℕ) : PagedKVCache cfg :=
  match c.pageTables.lookup sequenceId with
  | none => c
  | some blockTable =>
    let c := blockTable.foldl freePhysicalBlock c
    { c with pageTables := c.pageTables.erase sequenceId }

def addReference (c : PagedKVCache cfg) (b : Block cfg) : PagedKVCache cfg :=
  c.setBlock b { c.physicalBlocks b with refCount := add 32 (c.physicalBlocks b).refCount 1 }

def forkSequence (c : PagedKVCache cfg) (parentSequenceId childSequenceId : ℕ) :
    Except KVCacheException Unit × PagedKVCache cfg :=
  match c.pageTables.lookup parentSequenceId with
  | none => (.error (.parentNotFound parentSequenceId), c)
  | some parentBlocks =>
    let c := parentBlocks.foldl addReference c
    (.ok (), { c with pageTables := c.pageTables.insert childSequenceId parentBlocks })

/-- The context length of a table: its full blocks and its last one, in `uint32_t`, stored as an
`int32_t`. -/
def contextLen (c : PagedKVCache cfg) (blocks : List (Block cfg)) : ℤ :=
  let fullTokens := (blocks.length - 1) % 2 ^ 32 * cfg.blockSize % 2 ^ 32
  let lastBlockTokens := (blocks.getLast?.map fun b => (c.physicalBlocks b).numTokensFilled).getD 0
  toSigned 32 (add 32 fullTokens lastBlockTokens)

/-- A row of the flattened block tables, padded with -1. -/
def blockRow (maxBlocksInBatch : ℕ) (blocks : List (Block cfg)) : List ℤ :=
  blocks.map (fun b => (b.val : ℤ)) ++ List.replicate (maxBlocksInBatch - blocks.length) (-1)

/-- The tables of a batch, up to the first id that is not registered. -/
def batchTables (c : PagedKVCache cfg) :
    List ℕ → Except KVCacheException (List (List (Block cfg)))
  | [] => .ok []
  | sequenceId :: rest =>
    match c.pageTables.lookup sequenceId with
    | none => .error (.notFound sequenceId)
    | some blocks => (c.batchTables rest).map (blocks :: ·)

/-- The copies to the device are taken to succeed. -/
def prepareBatchMetadata (c : PagedKVCache cfg) (activeSequenceIds : List ℕ) :
    Except KVCacheException KVCacheBatchDescriptor :=
  if activeSequenceIds.length > cfg.maxSupportedBatchSize then .error .batchTooLarge
  else
    match c.batchTables activeSequenceIds with
    | .error exception => .error exception
    | .ok tables =>
      let maxBlocksInBatch := (tables.map List.length).foldl max 0
      if maxBlocksInBatch > cfg.maxBlocksPerSequence then .error .tooManyBlocks
      else
        .ok
          { blockTables := tables.flatMap (blockRow maxBlocksInBatch)
            contextLens := tables.map c.contextLen
            batchSize := toSigned 32 activeSequenceIds.length
            maxBlocksPerSeq := toSigned 32 maxBlocksInBatch
            blockSize := toSigned 32 cfg.blockSize
            numKvHeads := toSigned 32 cfg.numKvHeads
            headDim := toSigned 32 cfg.headDim
            bytesPerBlock := bytesPerBlock cfg
            layerBlockBytes := layerBlockBytes cfg }

def getStats (fl : Rounding) (c : PagedKVCache cfg) : KVCacheStats :=
  let freeBlocks := c.freeBlockStack.length
  let cached := c.lruList.length
  let allocated := sub 64 (sub 64 cfg.totalGpuBlocks freeBlocks) cached
  { totalBlocks := cfg.totalGpuBlocks
    freeBlocks := freeBlocks
    allocatedBlocks := allocated
    cachedPrefixBlocks := cached
    totalMemoryBytes := cfg.totalGpuBlocks * bytesPerBlock cfg * 2 % 2 ^ 64
    usedMemoryBytes := add 64 allocated cached * bytesPerBlock cfg * 2 % 2 ^ 64
    poolUtilizationRatio :=
      if cfg.totalGpuBlocks = 0 then none
      else some (fl.round (fl.round (sub 64 cfg.totalGpuBlocks freeBlocks : ℕ) /
        fl.round cfg.totalGpuBlocks))
    activeSequencesCount := c.pageTables.entries.length % 2 ^ 32
    prefixCacheHits := c.prefixCacheHits
    prefixCacheMisses := c.prefixCacheMisses
    lruEvictionsCount := c.lruEvictionsCount }

end PagedKVCache

inductive KVCacheAction where
  | registerSequenceWithPrefix (sequenceId : ℕ) (promptTokens : List Int32)
  | appendTokens (sequenceId numTokens : ℕ)
  | unregisterSequence (sequenceId : ℕ)
  deriving DecidableEq

def PagedKVCache.step {cfg : KVCacheConfig} (c : PagedKVCache cfg) :
    KVCacheAction → PagedKVCache cfg
  | .registerSequenceWithPrefix sequenceId promptTokens =>
    (c.registerSequenceWithPrefix sequenceId promptTokens).2
  | .appendTokens sequenceId numTokens => (c.appendTokens sequenceId numTokens).2
  | .unregisterSequence sequenceId => c.unregisterSequence sequenceId

section SmallPools

namespace PagedKVCache

abbrev oneBlock : KVCacheConfig := { totalGpuBlocks := 1, blockSize := 2 }

abbrev twoBlocks : KVCacheConfig := { totalGpuBlocks := 2, blockSize := 4 }

abbrev fourTokenBlocks : KVCacheConfig := { totalGpuBlocks := 4, blockSize := 4 }

abbrev threeTokenPairs : KVCacheConfig := { totalGpuBlocks := 3, blockSize := 2 }

/-- Without a limit on the blocks: the size of the table buffer wraps to 0. -/
abbrev unlimitedBlocks : KVCacheConfig :=
  { totalGpuBlocks := 1, blockSize := 2, maxSupportedBatchSize := 1
    maxBlocksPerSequence := 2 ^ 62 }

abbrev wideCachedBlock : KVCacheConfig := { totalGpuBlocks := 1, blockSize := 2 ^ 31 }

end PagedKVCache

namespace TokenSystem

abbrev uncached : KVCacheConfig :=
  { totalGpuBlocks := 3, blockSize := 4, enablePrefixCaching := false }

abbrev wideBlock : KVCacheConfig :=
  { totalGpuBlocks := 1, blockSize := 2 ^ 31, enablePrefixCaching := false }

end TokenSystem

namespace KVSystem

def twoTokenBlocks : KVCacheConfig := { totalGpuBlocks := 8, blockSize := 2 }

def twoBlocks : KVCacheConfig := { totalGpuBlocks := 2, blockSize := 2 }

abbrev oneBlock : KVCacheConfig := { totalGpuBlocks := 1, blockSize := 1 }

abbrev tokenPairs : KVCacheConfig := { totalGpuBlocks := 8, blockSize := 2 }

abbrev eightTokenBlocks : KVCacheConfig := { totalGpuBlocks := 4, blockSize := 8 }

abbrev threePairs : KVCacheConfig := { totalGpuBlocks := 3, blockSize := 2 }

abbrev twoPairs : KVCacheConfig := { totalGpuBlocks := 2, blockSize := 2 }

end KVSystem

def MetadataSystem.fourBlocks : KVCacheConfig := { totalGpuBlocks := 4, blockSize := 2 }

abbrev twoTokenPool : KVCacheConfig := { totalGpuBlocks := 2, blockSize := 1 }

end SmallPools
end CudaForge.Memory
