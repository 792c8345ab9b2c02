import CudaForge.Memory.ReferenceCounts

/-!
What an append to one sequence means for the others. A fork shares the last block of its parent even
when it is not full, and an append to one of the two then fills the block of both.
-/
namespace CudaForge.Memory
open MachineWord FiniteMap Transition

namespace PagedKVCache
variable {cfg : KVCacheConfig} {c c' : PagedKVCache cfg} {b x last : Block cfg}
  {sequenceId numTokens n : ℕ} {table fresh : List (Block cfg)} {promptTokens : List Int32}

section Bounds

/-- No block is overfull, and no table is empty. -/
structure Bounded (c : PagedKVCache cfg) : Prop where
  filled_le : ∀ b, c.filled b ≤ cfg.blockSize
  nonempty : ∀ id table, c.pageTables.lookup id = some table → table ≠ []

theorem setBlock_filled_le (h : ∀ x, c.filled x ≤ cfg.blockSize) (block : PhysicalBlock)
    (hb : block.numTokensFilled ≤ cfg.blockSize) (x : Block cfg) :
    (c.setBlock b block).filled x ≤ cfg.blockSize := by
  rcases eq_or_ne x b with rfl | hx
  · rwa [filled, setBlock_self]
  · rw [filled, setBlock_of_ne _ hx]
    exact h x

theorem allocatePhysicalBlock_filled_le (h : ∀ x, c.filled x ≤ cfg.blockSize)
    (ha : c.allocatePhysicalBlock = some (b, c')) (x : Block cfg) :
    c'.filled x ≤ cfg.blockSize := by
  rcases eq_or_ne x b with rfl | hx
  · rw [filled, (allocated ha).numTokensFilled]
    exact Nat.zero_le _
  · rw [filled, (allocated ha).other x hx]
    exact h x

theorem freePhysicalBlock_filled_le (h : ∀ x, c.filled x ≤ cfg.blockSize) (x : Block cfg) :
    (c.freePhysicalBlock b).filled x ≤ cfg.blockSize := by
  unfold freePhysicalBlock
  simp only
  split_ifs
  · exact h x
  · refine setBlock_filled_le h { c.physicalBlocks b with
      refCount := _, isCached := true, lruIterator := true } ?_ x
    exact h b
  · refine setBlock_filled_le h { c.physicalBlocks b with
      refCount := _, numTokensFilled := 0 } (Nat.zero_le _) x
  · refine setBlock_filled_le h { c.physicalBlocks b with refCount := _ } ?_ x
    exact h b

theorem shareBlock_filled (x : Block cfg) : (c.shareBlock b).filled x = c.filled x := by
  rw [filled, shareBlock_physicalBlocks, filled]
  rcases eq_or_ne x b with rfl | hx
  · rw [Function.update_self]
  · rw [Function.update_of_ne hx]

theorem addReference_filled (x : Block cfg) : (c.addReference b).filled x = c.filled x := by
  rw [filled, addReference, filled]
  rcases eq_or_ne x b with rfl | hx
  · rw [setBlock_self]
  · rw [setBlock_of_ne _ hx]

/-- A bound that every step of a loop over blocks keeps. -/
theorem foldl_filled_le {step : PagedKVCache cfg → Block cfg → PagedKVCache cfg}
    (hstep : ∀ c b, (∀ x, c.filled x ≤ cfg.blockSize) → ∀ x, (step c b).filled x ≤ cfg.blockSize)
    (h : ∀ x, c.filled x ≤ cfg.blockSize) (ids : List (Block cfg)) :
    ∀ x, (ids.foldl step c).filled x ≤ cfg.blockSize :=
  List.foldlRecOn (motive := fun c : PagedKVCache cfg => ∀ x, c.filled x ≤ cfg.blockSize)
    ids step h fun c hc b _ => hstep c b hc

theorem init_bounded : (init cfg).Bounded :=
  ⟨fun _ => Nat.zero_le _, fun id table h => by simp [init] at h⟩

theorem Bounded.exists_last (h : c.Bounded)
    (hlookup : c.pageTables.lookup sequenceId = some table) :
    ∃ last, last ∈ table.getLast? :=
  ⟨_, List.getLast?_eq_some_getLast (h.nonempty _ _ hlookup)⟩

/-- The tables and fill counts of a registration, whether it returns or throws. -/
theorem Bounded.buildTable (h : c.Bounded) (promptTokens : List Int32) :
    (c.buildTable promptTokens).cache.pageTables = c.pageTables ∧
      (∀ x, (c.buildTable promptTokens).cache.filled x ≤ cfg.blockSize) ∧
      ((c.buildTable promptTokens).outOfPages = false →
        (c.buildTable promptTokens).blockTable ≠ []) := by
  have hstart : (c.afterMatch promptTokens).cache.pageTables = c.pageTables ∧
      ∀ x, (c.afterMatch promptTokens).cache.filled x ≤ cfg.blockSize := by
    rw [afterMatch_cache, shareBlocks_pageTables]
    exact ⟨rfl, foldl_filled_le (fun c b hc x => (shareBlock_filled x).trans_le (hc x))
      h.filled_le _⟩
  obtain ⟨done, r, ⟨htables, hle⟩, -, hend⟩ := buildTable_rule
    (I := fun _ r => r.cache.pageTables = c.pageTables ∧
      ∀ x, r.cache.filled x ≤ cfg.blockSize) hstart
    fun done tokens r b cache _ ⟨htables, hle⟩ ha =>
      ⟨(allocated ha).pageTables.trans htables,
        setBlock_filled_le (allocatePhysicalBlock_filled_le hle ha) _ le_rfl⟩
  rcases hend with hend | ⟨-, ⟨htail, hend⟩ | ⟨b, cache, -, ha, hend⟩⟩
  · rw [hend]
    exact ⟨htables, hle, fun hflag => nomatch hflag⟩
  · rw [hend]
    exact ⟨htables, hle, fun _ => (not_or.mp htail).2⟩
  · rw [hend]
    exact ⟨(allocated ha).pageTables.trans htables,
      setBlock_filled_le (allocatePhysicalBlock_filled_le hle ha) _
        (Nat.mod_lt _ cfg.blockSize_pos).le, fun _ => List.concat_ne_nil _ _⟩

theorem Bounded.register (h : c.Bounded) (sequenceId : ℕ) (promptTokens : List Int32) :
    (c.registerSequenceWithPrefix sequenceId promptTokens).2.Bounded := by
  obtain ⟨htables, hle, hne⟩ := h.buildTable promptTokens
  simp only [registerSequenceWithPrefix]
  split_ifs with hid hthrow
  · exact h
  · exact ⟨hle, fun id table hlookup => h.nonempty id table (htables ▸ hlookup)⟩
  · refine ⟨hle, fun id table hlookup => ?_⟩
    rw [htables, lookup_insert_ite] at hlookup
    split_ifs at hlookup
    · exact Option.some.inj hlookup ▸ hne (Bool.eq_false_iff.mpr hthrow)
    · exact h.nonempty id table hlookup

theorem Bounded.setTokens (h : c.Bounded) (hn : n ≤ cfg.blockSize) :
    (c.setTokens b n).Bounded :=
  ⟨setBlock_filled_le h.filled_le _ hn, h.nonempty⟩

theorem Bounded.append (h : c.Bounded) (sequenceId numTokens : ℕ) :
    (c.appendTokens sequenceId numTokens).2.Bounded := by
  cases hlookup : c.pageTables.lookup sequenceId with
  | none => simpa only [appendTokens, hlookup] using h
  | some table =>
    obtain ⟨last, hlast⟩ := h.exists_last hlookup
    have hfilled : (c.physicalBlocks last).numTokensFilled ≤ cfg.blockSize := h.filled_le last
    simp only [appendTokens, hlookup, Option.mem_def.mp hlast]
    rw [sub_eq hfilled cfg.blockSize_lt]
    split_ifs with hfits
    · refine h.setTokens ((add_le 32 _ _).trans ?_)
      omega
    · have hloop (additional remaining : ℕ) : ∃ _ : List (Block cfg),
          (appendLoop sequenceId additional remaining table
            (c.setTokens last cfg.blockSize)).2.Bounded := by
        apply appendLoop_rule (I := fun _ c => c.Bounded) _ (h.setTokens le_rfl)
        intro table c b cache n hn hc ha
        refine ⟨setBlock_filled_le (allocatePhysicalBlock_filled_le hc.filled_le ha) _ hn,
          fun id other hother => ?_⟩
        rw [(allocated ha).pageTables, lookup_insert_ite] at hother
        split_ifs at hother
        · exact Option.some.inj hother ▸ List.concat_ne_nil _ _
        · exact hc.nonempty id other hother
      obtain ⟨_, hbounded⟩ := hloop _ _
      exact hbounded

theorem Bounded.unregister (h : c.Bounded) (sequenceId : ℕ) :
    (c.unregisterSequence sequenceId).Bounded := by
  constructor
  · cases hlookup : c.pageTables.lookup sequenceId with
    | none =>
      rw [unregisterSequence_none hlookup]
      exact h.filled_le
    | some table =>
      rw [unregisterSequence_some hlookup]
      exact foldl_filled_le (fun c b hc => freePhysicalBlock_filled_le hc) h.filled_le table
  · intro id table hlookup
    rw [unregisterSequence_lookup] at hlookup
    split_ifs at hlookup
    exact h.nonempty id table hlookup

theorem Bounded.fork (h : c.Bounded) (parent child : ℕ) :
    (c.forkSequence parent child).2.Bounded := by
  unfold forkSequence
  cases hlookup : c.pageTables.lookup parent with
  | none => exact h
  | some table =>
    refine ⟨foldl_filled_le (fun c b hc x => (addReference_filled x).trans_le (hc x))
      h.filled_le table, fun id other hother => ?_⟩
    simp only [addReferences_pageTables, lookup_insert_ite] at hother
    split_ifs at hother
    · exact Option.some.inj hother ▸ h.nonempty parent table hlookup
    · exact h.nonempty id other hother

end Bounds

section Append

/-- The loop of an append leaves the full last block alone. -/
theorem appendedFull_concat (howned : last ∈ c.ownedBlocks) (table' : List (Block cfg))
    (c' : PagedKVCache cfg) (b : Block cfg) (cache : PagedKVCache cfg) (n : ℕ)
    (hn : n ≤ cfg.blockSize)
    (h : ∃ fresh, table' = table ++ fresh ∧ c.Appended sequenceId table fresh c' ∧
      (∀ x ∈ fresh, c'.filled x ≤ cfg.blockSize) ∧ c'.filled last = cfg.blockSize)
    (ha : c'.allocatePhysicalBlock = some (b, cache)) :
    let next := { cache.setTokens b n with
      pageTables := cache.pageTables.insert sequenceId (table' ++ [b]) }
    ∃ fresh, table' ++ [b] = table ++ fresh ∧ c.Appended sequenceId table fresh next ∧
      (∀ x ∈ fresh, next.filled x ≤ cfg.blockSize) ∧ next.filled last = cfg.blockSize := by
  obtain ⟨fresh, rfl, happended, hle, hfull⟩ := h
  have hnext := happended.concat ha n
  have hnew : last ≠ b := by
    rintro rfl
    exact hnext.unowned last (List.mem_append_right fresh (List.mem_singleton_self last)) howned
  have hold : ∀ x ≠ b, filled { cache.setTokens b n with
      pageTables := cache.pageTables.insert sequenceId (table ++ (fresh ++ [b])) } x =
        c'.filled x := fun x hx => by
    apply (setTokens_filled_of_ne hx).trans
    rw [filled, (allocated ha).other x hx, filled]
  rw [List.append_assoc]
  refine ⟨fresh ++ [b], rfl, hnext, fun x hx => ?_, (hold last hnew).trans hfull⟩
  rcases eq_or_ne x b with rfl | hne
  · exact setTokens_filled_self.trans_le hn
  · rw [hold x hne]
    refine hle x ((List.mem_append.mp hx).resolve_right fun hb => hne ?_)
    exact List.mem_singleton.mp hb

/-- An append in terms of its last block, which is filled up first, and of fresh blocks. -/
theorem appendTokens_appended (hpart : c.Partitioned c.ownedBlocks)
    (hlookup : c.pageTables.lookup sequenceId = some table) (hlast : last ∈ table.getLast?)
    (numTokens : ℕ) :
    ∃ fresh, c.Appended sequenceId table fresh (c.appendTokens sequenceId numTokens).2 ∧
      (∀ x ∈ fresh, (c.appendTokens sequenceId numTokens).2.filled x ≤ cfg.blockSize) ∧
      (c.appendTokens sequenceId numTokens).2.filled last =
        if numTokens ≤ sub 32 cfg.blockSize (c.filled last) then add 32 (c.filled last) numTokens
        else cfg.blockSize := by
  have hstart := Appended.setTokens hpart hlookup hlast
  simp only [appendTokens, hlookup, Option.mem_def.mp hlast]
  simp only [show (c.physicalBlocks last).numTokensFilled = c.filled last from rfl]
  split_ifs with hfits
  · exact ⟨[], hstart _, fun x hx => absurd hx List.not_mem_nil, setTokens_filled_self⟩
  obtain ⟨table', fresh, -, hfresh⟩ := appendLoop_rule
    (appendedFull_concat (mem_ownedBlocks hlookup (List.mem_of_mem_getLast? hlast)))
    ⟨[], (List.append_nil table).symm, hstart cfg.blockSize,
      fun x hx => absurd hx List.not_mem_nil, setTokens_filled_self⟩
    (sub 32 (add 32 (numTokens - sub 32 cfg.blockSize (c.filled last)) cfg.blockSize) 1 /
      cfg.blockSize) (numTokens - sub 32 cfg.blockSize (c.filled last))
  exact ⟨fresh, hfresh⟩

/-- One call keeps the bounds. -/
theorem attempt_bounded {call : KVCacheCall} (h : c.Bounded) (hrun : c.attempt call = some c') :
    c'.Bounded := by
  cases call with
  | registerSequenceWithPrefix sequenceId promptTokens =>
    obtain ⟨_, hok⟩ := returned_eq hrun
    have hbounded := h.register sequenceId promptTokens
    rw [hok] at hbounded
    exact hbounded
  | appendTokens sequenceId numTokens =>
    obtain ⟨_, hok⟩ := returned_eq hrun
    have hbounded := h.append sequenceId numTokens
    rw [hok] at hbounded
    exact hbounded
  | unregisterSequence sequenceId =>
    obtain rfl := Option.some.inj hrun
    exact h.unregister sequenceId
  | forkSequence parent child =>
    obtain ⟨_, hok⟩ := returned_eq hrun
    have hbounded := h.fork parent child
    rw [hok] at hbounded
    exact hbounded

end Append

section Frame

def positions (c : PagedKVCache cfg) (table : List (Block cfg)) : Set (Block cfg × ℕ) :=
  {p | p.1 ∈ table ∧ p.2 < c.filled p.1}

/-- An append changes nothing of another sequence, and the positions it fills are in blocks that no
other table contains. -/
structure AppendFramed (c : PagedKVCache cfg) (sequenceId : ℕ) (c' : PagedKVCache cfg) : Prop where
  others : ∀ id ≠ sequenceId, ∀ table, c.pageTables.lookup id = some table →
    c'.pageTables.lookup id = some table ∧ c'.contextLen table = c.contextLen table
  fresh : ∀ table table', c.pageTables.lookup sequenceId = some table →
    c'.pageTables.lookup sequenceId = some table' →
    ∀ p ∈ c'.positions table' \ c.positions table,
      ∀ id ≠ sequenceId, ∀ other, c'.pageTables.lookup id = some other → p.1 ∉ other

/-- The append adds nothing, or the last block is full, or no other table contains it. -/
def TailExclusive (c : PagedKVCache cfg) (sequenceId numTokens : ℕ) : Prop :=
  numTokens = 0 ∨ ∀ table ∈ c.pageTables.lookup sequenceId, ∀ last ∈ table.getLast?,
    c.filled last = cfg.blockSize ∨
      ∀ id ≠ sequenceId, ∀ other ∈ c.pageTables.lookup id, last ∉ other

/-- A last block that is not full gets tokens of the append. -/
theorem appendTokens_tail_lt (hpart : c.Partitioned c.ownedBlocks) (h : c.Bounded)
    (hlookup : c.pageTables.lookup sequenceId = some table) {last : Block cfg}
    (hlast : last ∈ table.getLast?) (hpos : 0 < numTokens)
    (hnotfull : c.filled last ≠ cfg.blockSize) :
    c.filled last < (c.appendTokens sequenceId numTokens).2.filled last := by
  obtain ⟨fresh, -, -, hfilled⟩ := appendTokens_appended hpart hlookup hlast numTokens
  have hle := h.filled_le last
  have hlt := cfg.blockSize_lt
  rw [sub_eq hle hlt] at hfilled
  rw [hfilled]
  split_ifs
  · rw [add_eq (by omega)]
    omega
  · omega

/-- The blocks of other tables keep their tokens. -/
theorem TailExclusive.filled_eq (hexclusive : c.TailExclusive sequenceId numTokens)
    (hpart : c.Partitioned c.ownedBlocks) (h : c.Bounded)
    (hlookup : c.pageTables.lookup sequenceId = some table) {id : ℕ} (hid : id ≠ sequenceId)
    {other : List (Block cfg)} (hother : c.pageTables.lookup id = some other) (hx : x ∈ other) :
    (c.appendTokens sequenceId numTokens).2.filled x = c.filled x := by
  obtain ⟨last, hlast⟩ := h.exists_last hlookup
  obtain ⟨fresh, happended, -, hfilled⟩ := appendTokens_appended hpart hlookup hlast numTokens
  have hle := h.filled_le last
  have hlt := cfg.blockSize_lt
  rw [sub_eq hle hlt] at hfilled
  rcases eq_or_ne x last with rfl | hne
  · rw [hfilled]
    rcases hexclusive with rfl | hexclusive
    · rw [if_pos (Nat.zero_le _), add_eq (by omega), Nat.add_zero]
    rcases hexclusive table hlookup x hlast with hfull | hexclusive
    · split_ifs
      · rw [add_eq (by omega)]
        omega
      · exact hfull.symm
    · exact absurd hx (hexclusive id hid other hother)
  · have hfresh : x ∉ fresh := fun hmem => happended.unowned x hmem (mem_ownedBlocks hother hx)
    rw [filled, happended.blocks x hfresh
      fun hmem => hne (Option.some.inj (hmem.symm.trans hlast)), filled]

theorem TailExclusive.appendFramed (hexclusive : c.TailExclusive sequenceId numTokens)
    (hpart : c.Partitioned c.ownedBlocks) (h : c.Bounded)
    (hlookup : c.pageTables.lookup sequenceId = some table) :
    c.AppendFramed sequenceId (c.appendTokens sequenceId numTokens).2 := by
  obtain ⟨last, hlast⟩ := h.exists_last hlookup
  obtain ⟨fresh, happended, -, -⟩ := appendTokens_appended hpart hlookup hlast numTokens
  constructor
  · intro id hid other hother
    obtain ⟨tail, htail⟩ := h.exists_last hother
    have hsame := hexclusive.filled_eq hpart h hlookup hid hother (List.mem_of_mem_getLast? htail)
    simp only [filled] at hsame
    refine ⟨(happended.others id hid).trans hother, ?_⟩
    simp only [contextLen, Option.mem_def.mp htail, Option.map_some, hsame]
  · intro old new hold hnew p hp id hid other hother hmem
    obtain rfl := Option.some.inj (hlookup.symm.trans hold)
    obtain rfl := Option.some.inj (happended.appending.lookup.symm.trans hnew)
    rw [happended.others id hid] at hother
    obtain ⟨⟨hin, hlow⟩, hnot⟩ := hp
    have htable : p.1 ∈ table := by
      rcases List.mem_append.mp hin with htable | hfresh
      · exact htable
      · exact absurd (mem_ownedBlocks hother hmem) (happended.unowned p.1 hfresh)
    rw [hexclusive.filled_eq hpart h hlookup hid hother hmem] at hlow
    exact hnot ⟨htable, hlow⟩

/-- An unfilled position of a shared last block is filled by the append. -/
theorem AppendFramed.tailExclusive
    (hframed : c.AppendFramed sequenceId (c.appendTokens sequenceId numTokens).2)
    (hpart : c.Partitioned c.ownedBlocks) (h : c.Bounded)
    (hlookup : c.pageTables.lookup sequenceId = some table) :
    c.TailExclusive sequenceId numTokens := by
  obtain ⟨last, hlast⟩ := h.exists_last hlookup
  obtain ⟨fresh, happended, -, -⟩ := appendTokens_appended hpart hlookup hlast numTokens
  rcases Nat.eq_zero_or_pos numTokens with hzero | hpos
  · exact Or.inl hzero
  apply Or.inr
  intro table' htable' last' hlast'
  obtain rfl := Option.some.inj (hlookup.symm.trans htable')
  obtain rfl := Option.some.inj (hlast.symm.trans hlast')
  by_contra hboth
  obtain ⟨hnotfull, hshared⟩ := not_or.mp hboth
  push Not at hshared
  obtain ⟨id, hid, other, hother, hmem⟩ := hshared
  have hgrown := appendTokens_tail_lt hpart h hlookup hlast hpos hnotfull
  have hin : last ∈ table ++ fresh := List.mem_append_left fresh (List.mem_of_mem_getLast? hlast)
  apply hframed.fresh table _ hlookup happended.appending.lookup (last, c.filled last) _ id hid
    other ((happended.others id hid).trans hother) hmem
  exact ⟨⟨hin, hgrown⟩, fun hold => lt_irrefl _ hold.2⟩

/-- In every run with forks, an append that returns is framed exactly when it adds nothing, the last
block is full or no other table contains it. -/
theorem append_framed_iff {calls : List KVCacheCall}
    (hkept : AllSteps attempt CountsKept (init cfg) calls)
    (hrun : exec attempt (init cfg) calls = some c) (hid : sequenceId ∈ c.pageTables)
    (hok : c.appendTokens sequenceId numTokens = (.ok (), c')) :
    c.AppendFramed sequenceId c' ↔ c.TailExclusive sequenceId numTokens := by
  obtain ⟨hbalanced, hbounded⟩ : c.Balanced c.ownedBlocks ∧ c.Bounded := by
    refine exec_invariant (I := fun c : PagedKVCache cfg => c.Balanced c.ownedBlocks ∧ c.Bounded)
      (fun s call s' ⟨hs, hb⟩ hk he => ⟨attempt_balanced hs hk he, ?_⟩)
      ⟨init_balanced, init_bounded⟩ hkept hrun
    exact attempt_bounded hb he
  obtain ⟨table, hlookup⟩ := Option.isSome_iff_exists.mp (AList.lookup_isSome.mpr hid)
  have hstate : c' = (c.appendTokens sequenceId numTokens).2 := by rw [hok]
  subst hstate
  constructor
  · intro hframed
    exact hframed.tailExclusive hbalanced.partitioned hbounded hlookup
  · intro hexclusive
    exact hexclusive.appendFramed hbalanced.partitioned hbounded hlookup

/-- The last block of sequence 1 is full and shared: its append goes to fresh blocks. -/
theorem append_framed_full : ∃ c : PagedKVCache fourTokenBlocks,
    exec attempt (init _) [.registerSequenceWithPrefix 1 [5, 5, 5, 5],
      .registerSequenceWithPrefix 2 [5, 5, 5, 5, 6], .forkSequence 1 3] = some c ∧
    ∃ c', c.appendTokens 1 5 = (.ok (), c') ∧
      (c.AppendFramed 1 c' ↔ c.TailExclusive 1 5) := by
  refine exec_exists (P := fun c => 1 ∈ c.pageTables ∧ (c.appendTokens 1 5).1 = .ok ())
    (by decide +kernel) ?_
  rintro c hrun ⟨hid, hok⟩
  exact ⟨_, Prod.ext hok rfl, append_framed_iff (by decide +kernel) hrun hid (Prod.ext hok rfl)⟩

/-- After a fork of a sequence with one token, an append to the child gives the parent a second. -/
theorem append_framed_fork : ∃ c : PagedKVCache fourTokenBlocks,
    exec attempt (init _) [.registerSequenceWithPrefix 1 [5], .forkSequence 1 2] = some c ∧
    (c.appendTokens 2 1).1 = .ok () ∧ c.pageTables.lookup 1 = some [0] ∧
    c.contextLen [0] = 1 ∧ (c.appendTokens 2 1).2.contextLen [0] = 2 ∧
    ¬c.AppendFramed 2 (c.appendTokens 2 1).2 := by
  refine exec_exists (P := fun c => (c.appendTokens 2 1).1 = .ok () ∧
    c.pageTables.lookup 1 = some [0] ∧ c.contextLen [0] = 1 ∧
    (c.appendTokens 2 1).2.contextLen [0] = 2) (by decide +kernel) ?_
  rintro c - ⟨hok, hlookup, hbefore, hafter⟩
  refine ⟨hok, hlookup, hbefore, hafter, fun hframed => ?_⟩
  have hsame := (hframed.others 1 (by decide) [0] hlookup).2
  rw [hbefore, hafter] at hsame
  exact absurd hsame (by decide)

end Frame
end PagedKVCache
end CudaForge.Memory
