import CudaForge.Memory.AppendFrame
import CudaForge.Memory.BatchStaging
import CudaForge.Memory.PoolCapacity

/-!
What a call that runs out of pages leaves behind. Neither registrations nor appends undo what they
did before the throw, so that a failure is without effect only when it is the first thing to happen.
-/
namespace CudaForge.Memory
open MachineWord FiniteMap

namespace PagedKVCache
variable {cfg : KVCacheConfig} {c : PagedKVCache cfg} {b last : Block cfg}
  {sequenceId numTokens : ℕ} {table : List (Block cfg)} {promptTokens : List Int32}

section Register

def capacityBesides (c : PagedKVCache cfg) (matched : List (Block cfg)) : ℕ :=
  (matched.foldl shareBlock c).capacity

/-- If the call throws, the tables, the reference counts and the capacity are as before. -/
def RegistrationAtomic (c : PagedKVCache cfg) (sequenceId : ℕ) (promptTokens : List Int32) : Prop :=
  let r := c.registerSequenceWithPrefix sequenceId promptTokens
  r.1 = .error (.outOfPages cfg.totalGpuBlocks) →
    r.2.pageTables = c.pageTables ∧
      (∀ b, (r.2.physicalBlocks b).refCount = (c.physicalBlocks b).refCount) ∧
      ∀ fl, (r.2.getStats fl).freeBlocks + (r.2.getStats fl).cachedPrefixBlocks =
        (c.getStats fl).freeBlocks + (c.getStats fl).cachedPrefixBlocks

theorem shareBlock_refCount (c : PagedKVCache cfg) (b x : Block cfg) :
    ((c.shareBlock b).physicalBlocks x).refCount =
      if x = b then add 32 (c.physicalBlocks x).refCount 1
      else (c.physicalBlocks x).refCount := by
  rw [shareBlock_physicalBlocks]
  split_ifs with hx
  · rw [hx, Function.update_self]
  · rw [Function.update_of_ne hx]

/-- The references of the matched blocks are counted modulo `2 ^ 32`. -/
theorem shareBlocks_refCount (ids : List (Block cfg)) (c : PagedKVCache cfg) (x : Block cfg) :
    ((ids.foldl shareBlock c).physicalBlocks x).refCount =
      if x ∈ ids then ((c.physicalBlocks x).refCount + ids.count x) % 2 ^ 32
      else (c.physicalBlocks x).refCount := by
  induction ids generalizing c with
  | nil => rfl
  | cons b ids ih =>
    rw [List.foldl_cons, ih, shareBlock_refCount]
    rcases eq_or_ne x b with rfl | hx
    · rw [if_pos rfl, if_pos List.mem_cons_self, List.count_cons_self, add]
      split_ifs with hmem
      · rw [Nat.mod_add_mod, Nat.add_assoc, Nat.add_comm 1]
      · rw [List.count_eq_zero.mpr hmem]
    · simp only [hx, if_false, List.count_cons_of_ne hx.symm, List.mem_cons, false_or]

theorem shareBlocks_spare_le (ids : List (Block cfg)) (c : PagedKVCache cfg) :
    (ids.foldl shareBlock c).spareBlocks ≤ c.spareBlocks := by
  induction ids generalizing c with
  | nil => exact Nat.le_refl _
  | cons b ids ih =>
    refine (ih _).trans ?_
    rw [spareBlocks, spareBlocks, shareBlock_freeBlockStack, shareBlock_lruList]
    split_ifs
    · exact Nat.add_le_add_left List.length_erase_le _
    · exact Nat.le_refl _

theorem reusedBlocks_length_lt (c : PagedKVCache cfg) (promptTokens : List Int32) :
    (c.reusedBlocks promptTokens).length < 2 ^ 32 := by
  refine (reusedBlocks_length_le c promptTokens).trans_lt ?_
  rw [promptBlocks_length]
  exact (Nat.div_le_self _ _).trans_lt (Nat.mod_lt _ (by norm_num))

/-- Fewer than `2 ^ 32` matches never restore a count. -/
theorem reusedBlocks_eq_nil (h : ∀ b, (((c.reusedBlocks promptTokens).foldl shareBlock c
    ).physicalBlocks b).refCount = (c.physicalBlocks b).refCount) :
    c.reusedBlocks promptTokens = [] := by
  apply List.eq_nil_iff_forall_not_mem.mpr
  intro b hb
  have hcount := h b
  rw [shareBlocks_refCount, if_pos hb] at hcount
  have hpos := List.count_pos_iff.mpr hb
  have hlt := (List.count_le_length (a := b)).trans_lt (reusedBlocks_length_lt c promptTokens)
  omega

theorem registerSequence_throws_iff (hid : sequenceId ∉ c.pageTables) :
    (c.registerSequenceWithPrefix sequenceId promptTokens).1 =
        .error (.outOfPages cfg.totalGpuBlocks) ↔
      c.capacityBesides (c.reusedBlocks promptTokens) < c.furtherBlocks promptTokens := by
  have hthrow := (buildTable_taken c promptTokens).1
  rw [afterMatch_cache] at hthrow
  rw [capacityBesides, ← hthrow]
  simp only [registerSequenceWithPrefix, hid, if_false]
  split_ifs with hflag
  · exact iff_of_true rfl hflag
  · simp only [reduceCtorEq, hflag]

/-- The cache that a failed registration leaves: the references on the matched blocks stay, and all
the capacity is used up. -/
theorem registerSequence_failed (hid : sequenceId ∉ c.pageTables)
    (h : c.capacityBesides (c.reusedBlocks promptTokens) < c.furtherBlocks promptTokens) :
    ((c.reusedBlocks promptTokens).foldl shareBlock c).Taken
      (c.registerSequenceWithPrefix sequenceId promptTokens).2
      (c.capacityBesides (c.reusedBlocks promptTokens)) := by
  obtain ⟨hthrow, htaken⟩ := buildTable_taken c promptTokens
  rw [afterMatch_cache] at hthrow htaken
  rw [capacityBesides] at h ⊢
  rw [Nat.min_eq_right h.le] at htaken
  simpa only [registerSequenceWithPrefix, hid, if_false, hthrow.mpr h, if_true] using htaken

/-- A registration leaves nothing behind exactly when it does not throw, or when it matches no block
and finds none to hand out. -/
theorem registration_atomic_iff (hid : sequenceId ∉ c.pageTables) :
    c.RegistrationAtomic sequenceId promptTokens ↔
      c.furtherBlocks promptTokens ≤ c.capacityBesides (c.reusedBlocks promptTokens) ∨
        c.reusedBlocks promptTokens = [] ∧ c.capacity = 0 := by
  rw [RegistrationAtomic, registerSequence_throws_iff hid]
  constructor
  · intro hatomic
    rw [or_iff_not_imp_left, Nat.not_le]
    intro hthrow
    obtain ⟨-, href, hspare⟩ := hatomic hthrow
    have hfailed := registerSequence_failed hid hthrow
    have hle := shareBlocks_spare_le (c.reusedBlocks promptTokens) c
    have hsame : (c.registerSequenceWithPrefix sequenceId promptTokens).2.spareBlocks =
        c.spareBlocks := hspare Rounding.exact
    have hspent := hfailed.spare_eq
    have hzero : c.capacityBesides (c.reusedBlocks promptTokens) = 0 := by omega
    rw [hfailed.unchanged hzero] at href
    have hnil := reusedBlocks_eq_nil href
    rw [hnil] at hzero
    exact ⟨hnil, hzero⟩
  · rintro (henough | ⟨hnil, hzero⟩) hthrow
    · exact absurd hthrow (Nat.not_lt.mpr henough)
    · have hfailed := registerSequence_failed hid hthrow
      rw [hnil] at hfailed
      rw [hfailed.unchanged hzero]
      exact ⟨rfl, fun _ => rfl, fun _ => rfl⟩

/-- The whole pool is in use and nothing of the prompt is cached. -/
theorem registration_atomic_exhausted : ∃ c : PagedKVCache oneBlock,
    afterCall (init oneBlock) (.registerSequenceWithPrefix 1 [5]) = c ∧
    (c.registerSequenceWithPrefix 2 [6, 6, 6]).1 = .error (.outOfPages 1) ∧
    c.RegistrationAtomic 2 [6, 6, 6] := by
  refine ⟨_, rfl, by decide +kernel, ?_⟩
  exact (registration_atomic_iff (by decide +kernel)).mpr (Or.inr (by decide +kernel))

/-- The only block is handed out for the first part of a prompt that needs two. It stays referenced,
though no sequence is registered, and every later registration fails as well. -/
theorem registration_atomic_leak :
    let c := (init oneBlock).afterCall (.registerSequenceWithPrefix 1 [5, 5, 6])
    ((init oneBlock).registerSequenceWithPrefix 1 [5, 5, 6]).1 = .error (.outOfPages 1) ∧
    c.pageTables.entries = [] ∧ (c.physicalBlocks 0).refCount = 1 ∧ c.freeBlockStack = [] ∧
    c.lruList = [] ∧ (c.registerSequenceWithPrefix 2 [7]).1 = .error (.outOfPages 1) ∧
    ¬(init oneBlock).RegistrationAtomic 1 [5, 5, 6] := by
  refine ⟨by decide +kernel, by decide +kernel, by decide +kernel, by decide +kernel,
    by decide +kernel, by decide +kernel, fun hatomic => ?_⟩
  have href := (hatomic (by decide +kernel)).2.1 0
  exact absurd href (by decide +kernel)

end Register

section Append

/-- If the call throws, the table and the context length of every sequence are as before. -/
def AppendAtomic (c : PagedKVCache cfg) (sequenceId numTokens : ℕ) : Prop :=
  let r := c.appendTokens sequenceId numTokens
  r.1 = .error (.outOfPages cfg.totalGpuBlocks) →
    ∀ id, r.2.pageTables.lookup id = c.pageTables.lookup id ∧
      ∀ table ∈ c.pageTables.lookup id, r.2.contextLen table = c.contextLen table

/-- An append is a fill of the last block, or the loop behind the filled last block. -/
theorem appendTokens_eq (hlookup : c.pageTables.lookup sequenceId = some table)
    (hlast : last ∈ table.getLast?) (numTokens : ℕ) :
    c.appendTokens sequenceId numTokens =
      if numTokens ≤ sub 32 cfg.blockSize (c.filled last) then
        (.ok (), c.setTokens last (add 32 (c.filled last) numTokens))
      else
        appendLoop sequenceId (c.additionalBlocks last numTokens)
          (numTokens - sub 32 cfg.blockSize (c.filled last)) table
          (c.setTokens last cfg.blockSize) := by
  simp only [appendTokens, hlookup, Option.mem_def.mp hlast, additionalBlocks, filled]
  split_ifs <;> rfl

theorem appendTokens_throws_iff (hlookup : c.pageTables.lookup sequenceId = some table)
    (hlast : last ∈ table.getLast?) :
    (c.appendTokens sequenceId numTokens).1 = .error (.outOfPages cfg.totalGpuBlocks) ↔
      c.capacity < c.additionalBlocks last numTokens := by
  rw [appendTokens_eq hlookup hlast]
  split_ifs with hfits
  · have hnone : c.additionalBlocks last numTokens = 0 := if_pos hfits
    simp only [hnone, Nat.not_lt_zero]
  · rw [(appendLoop_taken _ _ _ _ _).1, setTokens_capacity]

/-- The loop leaves other tables alone and adds a block in each turn. -/
theorem appendLoop_length (additional remaining : ℕ) (table : List (Block cfg))
    (c : PagedKVCache cfg) (hlookup : c.pageTables.lookup sequenceId = some table) :
    ∃ table', (appendLoop sequenceId additional remaining table c).2.pageTables.lookup sequenceId =
        some table' ∧ table'.length = table.length + min additional c.capacity := by
  induction additional generalizing remaining table c with
  | zero => exact ⟨table, hlookup, by rw [Nat.zero_min, Nat.add_zero]⟩
  | succ additional ih =>
    unfold appendLoop
    cases halloc : c.allocatePhysicalBlock with
    | none =>
      rw [allocatePhysicalBlock_none.mp halloc, Nat.min_zero]
      exact ⟨table, hlookup, rfl⟩
    | some found =>
      obtain ⟨b, cache⟩ := found
      have hcapacity := (allocatePhysicalBlock_capacity halloc).1
      obtain ⟨table', htable', hlength⟩ := ih (remaining - min remaining cfg.blockSize)
        (table ++ [b]) { cache.setTokens b (min remaining cfg.blockSize) with
          pageTables := cache.pageTables.insert sequenceId (table ++ [b]) }
        (AList.lookup_insert _)
      have hsame : capacity { cache.setTokens b (min remaining cfg.blockSize) with
          pageTables := cache.pageTables.insert sequenceId (table ++ [b]) } = cache.capacity :=
        setTokens_capacity cache b _
      refine ⟨table', htable', ?_⟩
      rw [hlength, hsame, List.length_append, List.length_singleton]
      omega

/-- A last block that is filled up shows in the context length. -/
theorem contextLen_setTokens_ne (hlast : last ∈ table.getLast?)
    (hlt : c.filled last < cfg.blockSize) :
    (c.setTokens last cfg.blockSize).contextLen table ≠ c.contextLen table := by
  have hsize := cfg.blockSize_lt
  have hself : ((c.setTokens last cfg.blockSize).physicalBlocks last).numTokensFilled =
      cfg.blockSize := setTokens_filled_self
  rw [filled] at hlt
  intro heq
  simp only [contextLen, Option.mem_def.mp hlast, Option.map_some, Option.getD_some, hself,
    toSigned] at heq
  have hmod := Int.bmod_eq_bmod_iff_bmod_sub_eq_zero.mp heq
  rw [← Int.dvd_iff_bmod_eq_zero] at hmod
  simp only [add] at hmod
  omega

/-- An append is all or nothing exactly when it does not throw, or when the last block is full and
there is no block to hand out. -/
theorem append_atomic_iff_of_bounded (hbounded : c.Bounded)
    (hlookup : c.pageTables.lookup sequenceId = some table) (hlast : last ∈ table.getLast?) :
    c.AppendAtomic sequenceId numTokens ↔
      c.additionalBlocks last numTokens ≤ c.capacity ∨
        c.filled last = cfg.blockSize ∧ c.capacity = 0 := by
  rw [AppendAtomic, appendTokens_throws_iff hlookup hlast]
  constructor
  · intro hatomic
    rw [or_iff_not_imp_left, Nat.not_le]
    intro hthrow
    have hunfit : ¬numTokens ≤ sub 32 cfg.blockSize (c.filled last) := fun hfits => by
      have hnone : c.additionalBlocks last numTokens = 0 := if_pos hfits
      omega
    have hsame := hatomic hthrow sequenceId
    rw [appendTokens_eq hlookup hlast, if_neg hunfit] at hsame
    obtain ⟨table', htable', hlength⟩ := appendLoop_length (c.additionalBlocks last numTokens)
      (numTokens - sub 32 cfg.blockSize (c.filled last)) table (c.setTokens last cfg.blockSize)
      hlookup
    rw [setTokens_capacity, Nat.min_eq_right hthrow.le] at hlength
    rw [hsame.1, hlookup] at htable'
    obtain rfl := Option.some.inj htable'
    have hzero : c.capacity = 0 := by omega
    have htaken := (appendLoop_taken sequenceId (c.additionalBlocks last numTokens)
      (numTokens - sub 32 cfg.blockSize (c.filled last)) table (c.setTokens last cfg.blockSize)).2
    rw [setTokens_capacity, hzero, Nat.min_zero] at htaken
    rw [htaken.unchanged rfl] at hsame
    refine ⟨?_, hzero⟩
    by_contra hne
    exact contextLen_setTokens_ne hlast (lt_of_le_of_ne (hbounded.filled_le last) hne)
      (hsame.2 table hlookup)
  · rintro (henough | ⟨hfull, hzero⟩) hthrow
    · exact absurd hthrow (Nat.not_lt.mpr henough)
    · have hset : c.setTokens last cfg.blockSize = c := by
        rw [setTokens, ← hfull, filled, setBlock, Function.update_eq_self]
      have hunfit : ¬numTokens ≤ sub 32 cfg.blockSize (c.filled last) := fun hfits => by
        have hnone : c.additionalBlocks last numTokens = 0 := if_pos hfits
        omega
      have htaken := (appendLoop_taken sequenceId (c.additionalBlocks last numTokens)
        (numTokens - sub 32 cfg.blockSize (c.filled last)) table c).2
      rw [hzero, Nat.min_zero] at htaken
      rw [appendTokens_eq hlookup hlast, if_neg hunfit, hset, htaken.unchanged rfl]
      exact fun id => ⟨rfl, fun _ _ => rfl⟩

theorem Bounded.afterCall (h : c.Bounded) (call : KVCacheCall) : (c.afterCall call).Bounded := by
  cases call with
  | registerSequenceWithPrefix sequenceId promptTokens => exact h.register sequenceId promptTokens
  | appendTokens sequenceId numTokens => exact h.append sequenceId numTokens
  | unregisterSequence sequenceId => exact h.unregister sequenceId
  | forkSequence parent child => exact h.fork parent child

theorem calls_bounded (calls : List KVCacheCall) : (calls.foldl afterCall (init cfg)).Bounded :=
  List.foldlRecOn calls afterCall init_bounded fun _ hc call _ => hc.afterCall call

/-- The same in every state that calls reach, throwing ones included. -/
theorem append_atomic_iff (calls : List KVCacheCall) (numTokens : ℕ)
    (hid : sequenceId ∈ (calls.foldl afterCall (init cfg)).pageTables) :
    let c := calls.foldl afterCall (init cfg)
    ∃ table last, c.pageTables.lookup sequenceId = some table ∧ last ∈ table.getLast? ∧
      (c.AppendAtomic sequenceId numTokens ↔
        c.additionalBlocks last numTokens ≤ c.capacity ∨
          c.filled last = cfg.blockSize ∧ c.capacity = 0) := by
  intro c
  have hbounded : c.Bounded := calls_bounded calls
  obtain ⟨table, hlookup⟩ := Option.isSome_iff_exists.mp (AList.lookup_isSome.mpr hid)
  obtain ⟨last, hlast⟩ := hbounded.exists_last hlookup
  exact ⟨table, last, hlookup, hlast, append_atomic_iff_of_bounded hbounded hlookup hlast⟩

/-- The pool is used up and the last block is full, so that the append throws at once. -/
theorem append_atomic_full :
    let c := ([.registerSequenceWithPrefix 1 [5, 5]] : List KVCacheCall).foldl afterCall
      (init oneBlock)
    (c.appendTokens 1 3).1 = .error (.outOfPages 1) ∧ c.AppendAtomic 1 3 := by
  intro c
  have hid : 1 ∈ c.pageTables := by decide +kernel
  obtain ⟨table, last, hlookup, hlast, hiff⟩ :=
    append_atomic_iff [.registerSequenceWithPrefix 1 [5, 5]] 3 hid
  refine ⟨by decide +kernel, hiff.mpr (Or.inr ⟨?_, by decide +kernel⟩)⟩
  obtain rfl := Subsingleton.elim last 0
  decide +kernel

/-- The last block is filled up and one block is added before the pool is used up: the sequence of
one token has eight of them after the failure, and a retry counts them once more. -/
theorem append_atomic_grown :
    let c := (init twoBlocks).afterCall (.registerSequenceWithPrefix 1 [5])
    let c' := c.afterCall (.appendTokens 1 12)
    (c.appendTokens 1 12).1 = .error (.outOfPages 2) ∧ c.pageTables.lookup 1 = some [0] ∧
    c.contextLen [0] = 1 ∧ c'.pageTables.lookup 1 = some [0, 1] ∧ c'.contextLen [0, 1] = 8 ∧
    ¬c.AppendAtomic 1 12 := by
  refine ⟨by decide +kernel, by decide +kernel, by decide +kernel, by decide +kernel,
    by decide +kernel, fun hatomic => ?_⟩
  have hsame := (hatomic (by decide +kernel) 1).1
  exact absurd hsame (by decide +kernel)

end Append
end PagedKVCache
end CudaForge.Memory
