import CudaForge.Memory.FailedCalls

/-! How many tokens an append stores, whatever its 32-bit block count comes out as. -/
namespace CudaForge.Memory
open MachineWord FiniteMap

namespace PagedKVCache
variable {cfg : KVCacheConfig} {c c' : PagedKVCache cfg} {b last : Block cfg}
  {sequenceId numTokens : ℕ} {table : List (Block cfg)}

/-- The tokens of a table: its blocks before the last are full. This is the context length of the
batch metadata, as an integer. -/
def tableTokens (c : PagedKVCache cfg) (table : List (Block cfg)) : ℕ :=
  (table.length - 1) * cfg.blockSize + (table.getLast?.map c.filled).getD 0

/-- The tokens stored for a sequence, none when it is not registered. -/
def storedTokens (c : PagedKVCache cfg) (sequenceId : ℕ) : ℕ :=
  ((c.pageTables.lookup sequenceId).map c.tableTokens).getD 0

def remainingAfter (blockSize : ℕ) : ℕ → ℕ → ℕ
  | remaining, 0 => remaining
  | remaining, turns + 1 => remainingAfter blockSize (remaining - min remaining blockSize) turns

/-- The append throws, or its tokens fit the last block, or it has blocks for what remains and
places all of it; and the sequence has the appended tokens more. -/
def LosesNothing (c : PagedKVCache cfg) (sequenceId numTokens : ℕ) : Prop :=
  (c.appendTokens sequenceId numTokens).1 = .ok () →
    (∀ table ∈ c.pageTables.lookup sequenceId, ∀ last ∈ table.getLast?,
      let available := cfg.blockSize - c.filled last
      let remaining := numTokens - available
      available < numTokens →
        remaining ≤ c.additionalBlocks last numTokens * cfg.blockSize ∧
          remainingAfter cfg.blockSize remaining (c.additionalBlocks last numTokens) = 0) ∧
    (c.appendTokens sequenceId numTokens).2.storedTokens sequenceId =
      c.storedTokens sequenceId + numTokens

theorem remainingAfter_eq (blockSize remaining turns : ℕ) :
    remainingAfter blockSize remaining turns = remaining - turns * blockSize := by
  induction turns generalizing remaining with
  | zero => rw [remainingAfter, Nat.zero_mul, Nat.sub_zero]
  | succ turns ih =>
    rw [remainingAfter, ih, Nat.succ_mul]
    omega

theorem tableTokens_concat :
    c.tableTokens (table ++ [b]) = table.length * cfg.blockSize + c.filled b := by
  rw [tableTokens, List.getLast?_concat, List.length_append, List.length_singleton,
    Nat.add_sub_cancel, Option.map_some, Option.getD_some]

theorem storedTokens_insert (sequenceId : ℕ) (cache : PagedKVCache cfg)
    (table : List (Block cfg)) :
    ({ cache with pageTables := cache.pageTables.insert sequenceId table } :
      PagedKVCache cfg).storedTokens sequenceId = cache.tableTokens table := by
  rw [storedTokens, AList.lookup_insert]
  rfl

/-- The loop stores what remains as far as its blocks go, when only the last one may stay partly
empty. -/
theorem appendLoop_stored {additional remaining : ℕ}
    (hlookup : c.pageTables.lookup sequenceId = some table)
    (hfull : c.tableTokens table = table.length * cfg.blockSize)
    (hneeded : additional = 0 ∨ (additional - 1) * cfg.blockSize < remaining)
    (hok : (appendLoop sequenceId additional remaining table c).1 = .ok ()) :
    (appendLoop sequenceId additional remaining table c).2.storedTokens sequenceId =
      table.length * cfg.blockSize + min remaining (additional * cfg.blockSize) := by
  induction additional generalizing c table remaining with
  | zero =>
    rw [appendLoop, storedTokens, hlookup, Option.map_some, Option.getD_some, hfull, Nat.zero_mul,
      Nat.min_zero, Nat.add_zero]
  | succ additional ih =>
    unfold appendLoop at hok ⊢
    cases ha : c.allocatePhysicalBlock with
    | none =>
      rw [ha] at hok
      cases hok
    | some found =>
      obtain ⟨b, cache⟩ := found
      simp only [ha] at hok ⊢
      have hremaining : additional * cfg.blockSize < remaining := by
        rcases hneeded with hzero | hlt
        · cases hzero
        · rwa [Nat.add_sub_cancel] at hlt
      have hfilled : (cache.setTokens b (min remaining cfg.blockSize)).filled b =
          min remaining cfg.blockSize := setTokens_filled_self
      cases additional with
      | zero =>
        have hstored := storedTokens_insert sequenceId
          (cache.setTokens b (min remaining cfg.blockSize)) (table ++ [b])
        rw [tableTokens_concat, hfilled] at hstored
        rw [Nat.zero_add, Nat.one_mul]
        exact hstored
      | succ additional =>
        have hmore : cfg.blockSize < remaining := by
          rw [Nat.succ_mul] at hremaining
          omega
        rw [ih (AList.lookup_insert _) ?_ (.inr ?_) hok, List.length_append, List.length_singleton]
        · have hsplit : (additional + 1 + 1) * cfg.blockSize =
            (additional + 1) * cfg.blockSize + cfg.blockSize := Nat.succ_mul _ _
          rw [hsplit, Nat.succ_mul table.length]
          omega
        · refine tableTokens_concat.trans
            ((congrArg (table.length * cfg.blockSize + ·) hfilled).trans ?_)
          rw [List.length_append, List.length_singleton, Nat.succ_mul, Nat.min_eq_right hmore.le]
        · rw [Nat.succ_mul] at hremaining
          rw [Nat.add_sub_cancel]
          omega

/-- The computed block count is the one that is needed, or zero when it wraps. -/
theorem additionalBlocks_wrapped (hle : c.filled last ≤ cfg.blockSize)
    (hover : cfg.blockSize - c.filled last < numTokens) (hword : numTokens < 2 ^ 32) :
    c.additionalBlocks last numTokens =
      if numTokens + c.filled last ≤ 2 ^ 32 then
        (numTokens - (cfg.blockSize - c.filled last) + cfg.blockSize - 1) / cfg.blockSize
      else 0 := by
  have hlt := cfg.blockSize_lt
  have hpos := cfg.blockSize_pos
  have havailable : sub 32 cfg.blockSize (c.physicalBlocks last).numTokensFilled =
      cfg.blockSize - c.filled last := sub_eq hle hlt
  simp only [additionalBlocks, havailable]
  rw [if_neg (not_le.mpr hover)]
  split_ifs with hfits
  · rw [add, sub_one_of_le (by omega) (by omega) (by decide)]
  · rw [add, Nat.mod_eq_sub_mod (by omega), Nat.mod_eq_of_lt (by omega),
      sub_eq (by omega) (by omega)]
    exact Nat.div_eq_of_lt (by omega)

section Append
variable (h : c.Bounded) (hlookup : c.pageTables.lookup sequenceId = some table)
  (hlast : last ∈ table.getLast?)
include hlookup hlast

theorem storedTokens_eq :
    c.storedTokens sequenceId = (table.length - 1) * cfg.blockSize + c.filled last := by
  rw [storedTokens, hlookup, Option.map_some, Option.getD_some, tableTokens,
    Option.mem_def.mp hlast, Option.map_some, Option.getD_some]

theorem table_length_pos : 0 < table.length := by
  refine List.length_pos_of_ne_nil ?_
  rintro rfl
  cases hlast

include h

/-- Tokens that fit the last block. -/
theorem appendTokens_stored_fits (hfits : numTokens ≤ cfg.blockSize - c.filled last) :
    (c.appendTokens sequenceId numTokens).2.storedTokens sequenceId =
      c.storedTokens sequenceId + numTokens := by
  have hle := h.filled_le last
  have hlt := cfg.blockSize_lt
  rw [appendTokens_eq hlookup hlast, sub_eq hle hlt, if_pos hfits,
    storedTokens_eq (c := c.setTokens last _) hlookup hlast, setTokens_filled_self,
    storedTokens_eq hlookup hlast, add_eq (by omega), Nat.add_assoc]

/-- Tokens beyond the last block: as many as the computed blocks have room for. -/
theorem appendTokens_stored_over (hover : cfg.blockSize - c.filled last < numTokens)
    (hword : numTokens < 2 ^ 32)
    (hok : (c.appendTokens sequenceId numTokens).1 = .ok ()) :
    (c.appendTokens sequenceId numTokens).2.storedTokens sequenceId =
      c.storedTokens sequenceId + (cfg.blockSize - c.filled last) +
        min (numTokens - (cfg.blockSize - c.filled last))
          (c.additionalBlocks last numTokens * cfg.blockSize) := by
  have hle := h.filled_le last
  have hpos := cfg.blockSize_pos
  have htable := table_length_pos hlookup hlast
  have hsize : table.length * cfg.blockSize =
      (table.length - 1) * cfg.blockSize + cfg.blockSize := by
    rw [← Nat.succ_mul, Nat.succ_eq_add_one, Nat.sub_add_cancel htable]
  rw [appendTokens_eq hlookup hlast, sub_eq hle cfg.blockSize_lt,
    if_neg (not_le.mpr hover)] at hok ⊢
  rw [appendLoop_stored (c := c.setTokens last cfg.blockSize) hlookup ?_ ?_ hok,
    storedTokens_eq hlookup hlast, hsize]
  · omega
  · rw [tableTokens, Option.mem_def.mp hlast, Option.map_some, Option.getD_some,
      setTokens_filled_self, hsize]
  · rw [additionalBlocks_wrapped hle hover hword]
    split_ifs
    · right
      have hmul := Nat.div_mul_le_self
        (numTokens - (cfg.blockSize - c.filled last) + cfg.blockSize - 1) cfg.blockSize
      rw [Nat.sub_mul, Nat.one_mul]
      omega
    · exact .inl rfl

theorem losesNothing_registered (hword : numTokens < 2 ^ 32) :
    c.LosesNothing sequenceId numTokens ↔ numTokens + c.filled last ≤ 2 ^ 32 := by
  have hle := h.filled_le last
  have hlt := cfg.blockSize_lt
  have hpos := cfg.blockSize_pos
  by_cases hover : cfg.blockSize - c.filled last < numTokens
  · have hblocks := additionalBlocks_wrapped hle hover hword
    by_cases hfits : numTokens + c.filled last ≤ 2 ^ 32
    · rw [if_pos hfits] at hblocks
      have henough : numTokens - (cfg.blockSize - c.filled last) ≤
          c.additionalBlocks last numTokens * cfg.blockSize := by
        rw [hblocks]
        have hdiv := Nat.div_add_mod
          (numTokens - (cfg.blockSize - c.filled last) + cfg.blockSize - 1) cfg.blockSize
        have hmod := Nat.mod_lt
          (numTokens - (cfg.blockSize - c.filled last) + cfg.blockSize - 1) hpos
        rw [Nat.mul_comm] at hdiv
        omega
      refine iff_of_true (fun hok => ⟨?_, ?_⟩) hfits
      · intro table' htable last' hlast'
        obtain rfl := Option.some.inj (hlookup.symm.trans htable)
        obtain rfl := Option.some.inj (hlast.symm.trans hlast')
        exact fun _ => ⟨henough, by rw [remainingAfter_eq]; omega⟩
      · rw [appendTokens_stored_over h hlookup hlast hover hword hok, Nat.min_eq_left henough]
        omega
    · -- no block is computed, and the call returns without the rest of the tokens
      rw [if_neg hfits] at hblocks
      refine iff_of_false (fun hloses => ?_) hfits
      have hok : (c.appendTokens sequenceId numTokens).1 = .ok () := by
        rw [appendTokens_eq hlookup hlast, sub_eq hle hlt, if_neg (not_le.mpr hover), hblocks,
          appendLoop]
      have hroom := ((hloses hok).1 table hlookup last hlast hover).1
      rw [hblocks, Nat.zero_mul] at hroom
      omega
  · refine iff_of_true (fun _ => ⟨?_, ?_⟩) (by omega)
    · intro table' htable last' hlast' available remaining hover'
      obtain rfl := Option.some.inj (hlookup.symm.trans htable)
      obtain rfl := Option.some.inj (hlast.symm.trans hlast')
      exact absurd hover' hover
    · exact appendTokens_stored_fits h hlookup hlast (not_lt.mp hover)

end Append

/-- After any calls, returned or thrown, an append of a 32-bit number of tokens loses none exactly
when the tokens and the fill level of the last block together are at most `2 ^ 32`. -/
theorem append_loses_nothing_iff (calls : List KVCacheCall) (sequenceId numTokens : ℕ)
    (hword : numTokens < 2 ^ 32) :
    let c := calls.foldl afterCall (init cfg)
    c.LosesNothing sequenceId numTokens ↔
      ∀ table ∈ c.pageTables.lookup sequenceId, ∀ last ∈ table.getLast?,
        numTokens + c.filled last ≤ 2 ^ 32 := by
  intro c
  have h : c.Bounded := calls_bounded calls
  cases hlookup : c.pageTables.lookup sequenceId with
  | none =>
    refine iff_of_true (fun hok => ?_) fun table htable => by cases htable
    simp only [appendTokens, hlookup] at hok
    cases hok
  | some table =>
    obtain ⟨last, hlast⟩ := h.exists_last hlookup
    rw [losesNothing_registered h hlookup hlast hword]
    constructor
    · intro hfits table' htable last' hlast'
      obtain rfl := Option.some.inj htable
      obtain rfl := Option.some.inj (hlast.symm.trans hlast')
      exact hfits
    · exact fun hall => hall table rfl last hlast

theorem append_loses_nothing_iff_short :
    ((init fourTokenBlocks).afterCall (.registerSequenceWithPrefix 1 [5, 5])).LosesNothing 1 7 :=
  (append_loses_nothing_iff [.registerSequenceWithPrefix 1 [5, 5]] 1 7 (by decide)).mpr
    (by decide +kernel)

/-- Behind two tokens in a block of four, `2 ^ 32 - 1` more: the block count wraps to zero, and the
call returns with two of them stored. -/
theorem append_loses_tokens :
    let c := (init fourTokenBlocks).afterCall (.registerSequenceWithPrefix 1 [5, 5])
    (c.appendTokens 1 (2 ^ 32 - 1)).1 = .ok () ∧ c.storedTokens 1 = 2 ∧
      (c.appendTokens 1 (2 ^ 32 - 1)).2.storedTokens 1 = 4 ∧ ¬ c.LosesNothing 1 (2 ^ 32 - 1) := by
  intro c
  have hok : (c.appendTokens 1 (2 ^ 32 - 1)).1 = .ok () := by decide +kernel
  have hbefore : c.storedTokens 1 = 2 := by decide +kernel
  have hafter : (c.appendTokens 1 (2 ^ 32 - 1)).2.storedTokens 1 = 4 := by decide +kernel
  refine ⟨hok, hbefore, hafter, fun hloses => ?_⟩
  have hstored := (hloses hok).2
  rw [hbefore, hafter] at hstored
  exact absurd hstored (by decide)

end PagedKVCache
end CudaForge.Memory
