import Mathlib.Data.List.Basic
import Mathlib.Data.Set.Finite.Basic
import Mathlib.Logic.Function.Basic
import CudaForge.Library.TiledLoop

/-!
Threads that run straight-line programs over a shared memory, in any interleaving. When no thread
accesses what another one stores to, each leaves what it would leave alone.
-/
namespace SharedMemory
variable {T R C V : Type*}

/-- An instruction over registers `R` and memory cells `C`. -/
inductive Instr (R C V : Type*) where
  | set (dst : R) (value : (R → V) → V)
  | load (dst : R) (src : C)
  | store (dst : C) (value : (R → V) → V)

structure View (R C V : Type*) where
  regs : R → V
  mem : C → V

structure Machine (T R C V : Type*) where
  regs : T → R → V
  mem : C → V

namespace Instr

def Stores (c : C) : Instr R C V → Prop
  | store dst _ => dst = c
  | _ => False

def Accesses (c : C) : Instr R C V → Prop
  | set _ _ => False
  | load _ src => src = c
  | store dst _ => dst = c

theorem Stores.accesses {c : C} {a : Instr R C V} (h : a.Stores c) : a.Accesses c := by
  cases a with
  | store dst value => exact h
  | set dst value => exact h.elim
  | load dst src => exact h.elim

variable [DecidableEq R] [DecidableEq C]

def exec (s : View R C V) : Instr R C V → View R C V
  | set dst value => { s with regs := Function.update s.regs dst (value s.regs) }
  | load dst src => { s with regs := Function.update s.regs dst (s.mem src) }
  | store dst value => { s with mem := Function.update s.mem dst (value s.regs) }

theorem exec_mem_of_not_stores {c : C} {a : Instr R C V} (h : ¬ a.Stores c) (s : View R C V) :
    (exec s a).mem c = s.mem c := by
  cases a with
  | store dst value => exact Function.update_of_ne (Ne.symm h) _ _
  | set dst value => rfl
  | load dst src => rfl

end Instr

section Traces
variable [DecidableEq T]

def own (t : T) (trace : List (T × Instr R C V)) : List (Instr R C V) :=
  (trace.filter (·.1 = t)).map Prod.snd

theorem own_concat (t : T) (trace : List (T × Instr R C V)) (a : T × Instr R C V) :
    own t (trace ++ [a]) = if a.1 = t then own t trace ++ [a.2] else own t trace := by
  unfold own
  rw [List.filter_append, List.map_append]
  split_ifs with h
  · rw [List.filter_singleton, decide_eq_true h]
    rfl
  · rw [List.filter_singleton, decide_eq_false h]
    exact List.append_nil _

structure Schedule (prog : T → List (Instr R C V)) where
  trace : List (T × Instr R C V)
  own_eq : ∀ t, own t trace = prog t

variable {prog : T → List (Instr R C V)}

theorem Schedule.mem_prog (s : Schedule prog) {a : T × Instr R C V} (ha : a ∈ s.trace) :
    a.2 ∈ prog a.1 := by
  rw [← s.own_eq, own, List.mem_map]
  exact ⟨a, List.mem_filter.mpr ⟨ha, decide_eq_true rfl⟩, rfl⟩

theorem Schedule.mem_trace (s : Schedule prog) {t : T} {a : Instr R C V} (ha : a ∈ prog t) :
    (t, a) ∈ s.trace := by
  rw [← s.own_eq, own, List.mem_map] at ha
  obtain ⟨b, hb, rfl⟩ := ha
  obtain ⟨hmem, hthread⟩ := List.mem_filter.mp hb
  rwa [← of_decide_eq_true hthread]

/-- No thread accesses a cell that another one stores to. -/
def RaceFree (prog : T → List (Instr R C V)) : Prop :=
  ∀ t t' c, (∃ a ∈ prog t, a.Stores c) → (∃ a ∈ prog t', a.Accesses c) → t = t'

def Schedule.sequential (threads : List T) (hnodup : threads.Nodup)
    (hall : ∀ t, prog t ≠ [] → t ∈ threads) : Schedule prog where
  trace := threads.flatMap fun t => (prog t).map fun a => (t, a)
  own_eq := by
    intro t
    have hother : ∀ t', t' ≠ t →
        ((prog t').map fun a => (t', a)).filter (fun a => decide (a.1 = t)) = [] := by
      intro t' hne
      apply List.filter_eq_nil_iff.mpr
      intro a ha
      obtain ⟨_, -, rfl⟩ := List.mem_map.mp ha
      simpa using hne
    have hself : ((prog t).map fun a => (t, a)).filter (fun a => decide (a.1 = t)) =
        (prog t).map fun a => (t, a) := by
      apply List.filter_eq_self.mpr
      intro a ha
      obtain ⟨_, -, rfl⟩ := List.mem_map.mp ha
      exact decide_eq_true rfl
    have hsnd : ((prog t).map fun a => (t, a)).map Prod.snd = prog t := by
      rw [List.map_map]
      exact List.map_id _
    unfold own
    by_cases ht : t ∈ threads
    · rw [TiledLoop.flatMap_filter_unique hnodup ht fun t' _ hne => hother t' hne, hself, hsnd]
    · have hempty : prog t = [] := by
        by_contra hne
        exact ht (hall t hne)
      rw [hempty, List.filter_flatMap, List.flatMap_eq_nil_iff.mpr, List.map_nil]
      intro t' ht'
      exact hother t' fun heq => ht (heq ▸ ht')

/-- Finitely many threads can run. -/
theorem Schedule.nonempty (h : Set.Finite fun t => prog t ≠ []) : Nonempty (Schedule prog) :=
  ⟨sequential h.toFinset.toList h.toFinset.nodup_toList fun _ ht =>
    Finset.mem_toList.mpr (h.mem_toFinset.mpr ht)⟩

end Traces

variable [DecidableEq R] [DecidableEq C]

structure View.Agree (F : Set C) (s s' : View R C V) : Prop where
  regs : s.regs = s'.regs
  mem : ∀ c ∈ F, s.mem c = s'.mem c

/-- An instruction that accesses only these cells keeps the agreement. -/
theorem View.Agree.exec {F : Set C} {s s' : View R C V} (h : View.Agree F s s') {a : Instr R C V}
    (ha : ∀ c, a.Accesses c → c ∈ F) : View.Agree F (a.exec s) (a.exec s') := by
  cases a with
  | set dst value =>
    refine ⟨?_, h.mem⟩
    show Function.update s.regs dst _ = Function.update s'.regs dst _
    rw [h.regs]
  | load dst src =>
    refine ⟨?_, h.mem⟩
    show Function.update s.regs dst _ = Function.update s'.regs dst _
    rw [h.regs, h.mem src (ha src rfl)]
  | store dst value =>
    refine ⟨h.regs, fun c hc => ?_⟩
    show Function.update s.mem dst _ c = Function.update s'.mem dst _ c
    rw [h.regs]
    by_cases hcd : c = dst
    · rw [hcd, Function.update_self, Function.update_self]
    · rw [Function.update_of_ne hcd, Function.update_of_ne hcd, h.mem c hc]

def runAlone (prog : List (Instr R C V)) (s : View R C V) : View R C V := prog.foldl Instr.exec s

theorem runAlone_append (prog prog' : List (Instr R C V)) (s : View R C V) :
    runAlone (prog ++ prog') s = runAlone prog' (runAlone prog s) := List.foldl_append

theorem runAlone_mem_of_not_stores {c : C} {prog : List (Instr R C V)}
    (h : ∀ a ∈ prog, ¬ a.Stores c) (s : View R C V) : (runAlone prog s).mem c = s.mem c := by
  induction prog generalizing s with
  | nil => rfl
  | cons a prog ih =>
    have htail := ih (fun b hb => h b (List.mem_cons_of_mem _ hb)) (a.exec s)
    exact htail.trans (Instr.exec_mem_of_not_stores (h a List.mem_cons_self) s)

section Interleavings
variable [DecidableEq T] {prog : T → List (Instr R C V)}

namespace Machine

def view (m : Machine T R C V) (t : T) : View R C V := ⟨m.regs t, m.mem⟩

def step (m : Machine T R C V) (a : T × Instr R C V) : Machine T R C V :=
  let s := a.2.exec (m.view a.1)
  { regs := Function.update m.regs a.1 s.regs
    mem := s.mem }

def run (m : Machine T R C V) (trace : List (T × Instr R C V)) : Machine T R C V :=
  trace.foldl step m

/-- Behind a part of a trace every thread sees, on its footprint, what it would see alone. -/
def Separated (footprint : T → Set C) (m₀ m : Machine T R C V) (done : List (T × Instr R C V)) :
    Prop :=
  ∀ t, View.Agree (footprint t) (m.view t) (runAlone (own t done) (m₀.view t))

variable {footprint : T → Set C} {m₀ m : Machine T R C V} {done : List (T × Instr R C V)}

theorem Separated.step (h : Separated footprint m₀ m done) {a : T × Instr R C V}
    (haccess : ∀ c, a.2.Accesses c → c ∈ footprint a.1)
    (hstores : ∀ t c, a.2.Stores c → c ∈ footprint t → a.1 = t) :
    Separated footprint m₀ (m.step a) (done ++ [a]) := by
  intro t
  rw [own_concat]
  by_cases ht : a.1 = t
  · subst ht
    rw [if_pos rfl, runAlone_append]
    have hself : (m.step a).view a.1 = a.2.exec (m.view a.1) := by
      unfold Machine.step view
      dsimp only
      rw [Function.update_self]
    rw [hself]
    exact (h a.1).exec haccess
  · rw [if_neg ht]
    constructor
    · rw [← (h t).regs]
      exact Function.update_of_ne (Ne.symm ht) _ _
    · intro c hc
      rw [← (h t).mem c hc]
      exact Instr.exec_mem_of_not_stores (fun hstore => ht (hstores t c hstore hc)) _

theorem Separated.run (rest : List (T × Instr R C V)) (h : Separated footprint m₀ m done)
    (haccess : ∀ a ∈ rest, ∀ c, a.2.Accesses c → c ∈ footprint a.1)
    (hstores : ∀ a ∈ rest, ∀ t c, a.2.Stores c → c ∈ footprint t → a.1 = t) :
    Separated footprint m₀ (m.run rest) (done ++ rest) := by
  induction rest generalizing m done with
  | nil =>
    rw [List.append_nil]
    exact h
  | cons a rest ih =>
    rw [List.append_cons]
    exact ih (h.step (haccess a List.mem_cons_self) (hstores a List.mem_cons_self))
      (fun b hb => haccess b (List.mem_cons_of_mem _ hb))
      (fun b hb => hstores b (List.mem_cons_of_mem _ hb))

end Machine

namespace Schedule
variable (s : Schedule prog) (m : Machine T R C V) {c : C}
include s

/-- A cell that a thread accesses is left as the thread alone leaves it. -/
theorem run_mem (h : RaceFree prog) {t : T} (hc : ∃ a ∈ prog t, a.Accesses c) :
    (m.run s.trace).mem c = (runAlone (prog t) (m.view t)).mem c := by
  have hstart : Machine.Separated (fun t => {c | ∃ a ∈ prog t, a.Accesses c}) m m [] := fun t =>
    ⟨rfl, fun c _ => rfl⟩
  have hrun := hstart.run s.trace
    (fun a ha c hac => ⟨a.2, s.mem_prog ha, hac⟩)
    (fun a ha t c hac hct => h a.1 t c ⟨a.2, s.mem_prog ha, hac⟩ hct)
  have hmem := (hrun t).mem c hc
  rw [List.nil_append, s.own_eq] at hmem
  exact hmem

/-- A cell that no thread stores to keeps its value. -/
theorem run_mem_of_not_stores (hc : ∀ t, ∀ a ∈ prog t, ¬ a.Stores c) :
    (m.run s.trace).mem c = m.mem c := by
  have hkeep : ∀ rest : List (T × Instr R C V), (∀ a ∈ rest, ¬ a.2.Stores c) →
      ∀ m : Machine T R C V, (m.run rest).mem c = m.mem c := by
    intro rest
    induction rest with
    | nil => exact fun _ _ => rfl
    | cons a rest ih =>
      intro hrest m
      have htail := ih (fun b hb => hrest b (List.mem_cons_of_mem _ hb)) (m.step a)
      exact htail.trans (Instr.exec_mem_of_not_stores (hrest a List.mem_cons_self) _)
  exact hkeep s.trace (fun a ha => hc a.1 a.2 (s.mem_prog ha)) m

end Schedule

end Interleavings

section Tiles
variable (n : ℕ) (mask : ℕ → Prop) [DecidablePred mask] (s : View R C V)

/-- A masked load of one register for each lane of a tile. -/
def loadTile (dst : ℕ → R) (other : V) (src : ℕ → C) : List (Instr R C V) :=
  (List.range n).map fun lane =>
    if mask lane then .load (dst lane) (src lane) else .set (dst lane) fun _ => other

/-- A masked store of one value for each lane of a tile. -/
def storeTile (dst : ℕ → C) (value : ℕ → (R → V) → V) : List (Instr R C V) :=
  ((List.range n).filter mask).map fun lane => .store (dst lane) (value lane)

variable {mask} {n}

omit [DecidableEq R] [DecidableEq C] in
theorem loadTile_accesses {dst : ℕ → R} {other : V} {src : ℕ → C} {a : Instr R C V} {c : C}
    (ha : a ∈ loadTile n mask dst other src) (hc : a.Accesses c) :
    ∃ lane < n, mask lane ∧ src lane = c := by
  obtain ⟨lane, hlane, rfl⟩ := List.mem_map.mp ha
  split_ifs at hc with hmask
  · exact ⟨lane, List.mem_range.mp hlane, hmask, hc⟩
  · exact hc.elim

omit [DecidableEq R] [DecidableEq C] in
theorem load_mem_loadTile {lane : ℕ} (hlane : lane < n) (hmask : mask lane) (dst : ℕ → R)
    (other : V) (src : ℕ → C) : .load (dst lane) (src lane) ∈ loadTile n mask dst other src :=
  List.mem_map.mpr ⟨lane, List.mem_range.mpr hlane, if_pos hmask⟩

omit [DecidableEq R] [DecidableEq C] in
theorem loadTile_not_stores {dst : ℕ → R} {other : V} {src : ℕ → C} {a : Instr R C V} {c : C}
    (ha : a ∈ loadTile n mask dst other src) : ¬ a.Stores c := by
  obtain ⟨lane, -, rfl⟩ := List.mem_map.mp ha
  split_ifs <;> exact id

omit [DecidableEq R] [DecidableEq C] in
theorem storeTile_accesses {dst : ℕ → C} {value : ℕ → (R → V) → V} {a : Instr R C V} {c : C}
    (ha : a ∈ storeTile n mask dst value) (hc : a.Accesses c) :
    ∃ lane < n, mask lane ∧ dst lane = c := by
  obtain ⟨lane, hlane, rfl⟩ := List.mem_map.mp ha
  obtain ⟨hrange, hmask⟩ := List.mem_filter.mp hlane
  exact ⟨lane, List.mem_range.mp hrange, of_decide_eq_true hmask, hc⟩

variable (n)

theorem loadTile_mem (dst : ℕ → R) (other : V) (src : ℕ → C) :
    (runAlone (loadTile n mask dst other src) s).mem = s.mem := by
  funext c
  exact runAlone_mem_of_not_stores (fun a ha => loadTile_not_stores ha) s

/-- The registers of the tile hold what was loaded, and the others what they held. -/
theorem loadTile_regs {dst : ℕ → R} (hdst : Function.Injective dst) (other : V) (src : ℕ → C) :
    (∀ lane < n, (runAlone (loadTile n mask dst other src) s).regs (dst lane) =
      if mask lane then s.mem (src lane) else other) ∧
    ∀ r, (∀ lane, r ≠ dst lane) →
      (runAlone (loadTile n mask dst other src) s).regs r = s.regs r := by
  induction n with
  | zero => exact ⟨nofun, fun _ _ => rfl⟩
  | succ n ih =>
    obtain ⟨hlanes, hothers⟩ := ih
    have hlast : (runAlone (loadTile (n + 1) mask dst other src) s).regs =
        Function.update (runAlone (loadTile n mask dst other src) s).regs (dst n)
          (if mask n then s.mem (src n) else other) := by
      unfold loadTile
      rw [List.range_succ, List.map_append, runAlone_append]
      by_cases hn : mask n
      · have hmem : (runAlone (loadTile n mask dst other src) s).mem = s.mem :=
          loadTile_mem n s dst other src
        simp only [List.map_cons, List.map_nil, if_pos hn]
        rw [← hmem]
        rfl
      · simp only [List.map_cons, List.map_nil, if_neg hn]
        rfl
    rw [hlast]
    constructor
    · intro lane hlane
      rcases (Nat.lt_succ_iff_lt_or_eq.mp hlane) with hlt | rfl
      · rw [Function.update_of_ne (hdst.ne hlt.ne), hlanes lane hlt]
      · rw [Function.update_self]
    · intro r hr
      rw [Function.update_of_ne (hr n), hothers r hr]

/-- A stored cell of one lane only holds the lane's value, computed from the registers before the
stores. -/
theorem storeTile_mem {dst : ℕ → C} (value : ℕ → (R → V) → V) {lane : ℕ}
    (hdst : ∀ l, mask l → dst l = dst lane → l = lane) (hlane : lane < n) (hmask : mask lane) :
    (runAlone (storeTile n mask dst value) s).mem (dst lane) = value lane s.regs := by
  have hstores : ∀ lanes : List ℕ, lane ∈ lanes → lanes.Nodup → (∀ l ∈ lanes, mask l) →
      ∀ s : View R C V,
      (runAlone (lanes.map fun l => (.store (dst l) (value l) : Instr R C V)) s).mem (dst lane) =
        value lane s.regs := by
    intro lanes
    induction lanes with
    | nil => exact fun h => (List.not_mem_nil h).elim
    | cons l lanes ih =>
      intro hmem hnodup hmasked s
      obtain ⟨hl, hrest⟩ := List.nodup_cons.mp hnodup
      have hmaskedRest : ∀ l ∈ lanes, mask l := fun l hl => hmasked l (List.mem_cons_of_mem _ hl)
      rcases List.mem_cons.mp hmem with rfl | htail
      · have hother : ∀ a ∈ lanes.map fun l => (.store (dst l) (value l) : Instr R C V),
            ¬ a.Stores (dst lane) := by
          intro a ha hstore
          obtain ⟨l, hmem, rfl⟩ := List.mem_map.mp ha
          exact hl (hdst l (hmaskedRest l hmem) hstore ▸ hmem)
        have hkeep := runAlone_mem_of_not_stores hother
          (Instr.exec s (.store (dst lane) (value lane)))
        exact hkeep.trans (Function.update_self _ _ _)
      · exact ih htail hrest hmaskedRest _
  exact hstores _ (List.mem_filter.mpr ⟨List.mem_range.mpr hlane, decide_eq_true hmask⟩)
    (List.nodup_range.filter _) (fun l hl => of_decide_eq_true (List.mem_filter.mp hl).2) s

theorem storeTile_regs (dst : ℕ → C) (value : ℕ → (R → V) → V) :
    (runAlone (storeTile n mask dst value) s).regs = s.regs := by
  unfold storeTile
  induction (List.range n).filter mask generalizing s with
  | nil => rfl
  | cons l lanes ih => exact ih (Instr.exec s (.store (dst l) (value l)))

end Tiles

end SharedMemory
