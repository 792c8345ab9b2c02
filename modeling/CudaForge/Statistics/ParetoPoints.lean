import CudaForge.Library.FiniteMap

/-!
The Pareto frontier of benchmark points.

Metrics are exact numbers, and numpy's square root is a parameter.
-/
namespace CudaForge.Statistics

inductive MetaValue (𝕜 : Type*) where
  | text (value : String)
  | whole (value : ℤ)
  | number (value : 𝕜)

structure ParetoPoint (𝕜 : Type*) [Zero 𝕜] where
  pointId : String
  metrics : FiniteMap String 𝕜
  metadata : FiniteMap String (MetaValue 𝕜)
  isParetoOptimal : Bool := false
  distanceToFrontier : 𝕜 := 0

structure ValueError where
  message : String
deriving DecidableEq, Repr

def ValueError.invalidDirection (direction : String) : ValueError :=
  ⟨"Invalid objective direction '" ++ direction ++ "'. Must be 'maximize' or 'minimize'."⟩

def ValueError.emptyMinimum : ValueError :=
  ⟨"zero-size array to reduction operation minimum which has no identity"⟩

/-- `str.lower`. No letter outside ASCII has a letter of the two directions as its lower case. -/
def lower (s : String) : String := String.ofList (s.toList.map Char.toLower)

section Model
variable {𝕜 : Type*} [Field 𝕜] [LinearOrder 𝕜]

/-- `pt.metrics.get(metric, 0.0)` -/
def ParetoPoint.metric (pt : ParetoPoint 𝕜) (name : String) : 𝕜 := (pt.metrics.lookup name).getD 0

def criterion (pt : ParetoPoint 𝕜) (objective : (_ : String) × String) : Except ValueError 𝕜 :=
  let val := pt.metric objective.1
  let direction := lower objective.2
  if direction = "maximize" then .ok val
  else if direction = "minimize" then .ok (-val)
  else .error (.invalidDirection direction)

def criteriaMatrix (points : List (ParetoPoint 𝕜)) (objectives : FiniteMap String String) :
    Except ValueError (List (List 𝕜)) :=
  points.mapM fun pt => objectives.entries.mapM (criterion pt)

/-- `np.all(r >= s) and np.any(r > s)` -/
def rowDominates (r s : List 𝕜) : Bool :=
  (List.zipWith (fun x y => decide (y ≤ x)) r s).all id &&
    (List.zipWith (fun x y => decide (y < x)) r s).any id

/-- The loop over `j`. -/
def isDominated (matrix : List (List 𝕜)) (isOptimal : List Bool) (i : ℕ) : Bool :=
  (List.range matrix.length).any fun j =>
    i != j && isOptimal.getD j false && rowDominates (matrix.getD j []) (matrix.getD i [])

/-- The body of the loop over `i`. -/
def eliminate (matrix : List (List 𝕜)) (isOptimal : List Bool) (i : ℕ) : List Bool :=
  if isOptimal.getD i false && isDominated matrix isOptimal i then isOptimal.set i false
  else isOptimal

def optimalFlags (matrix : List (List 𝕜)) : List Bool :=
  (List.range matrix.length).foldl (eliminate matrix) (List.replicate matrix.length true)

/-- `matrix[is_optimal]` -/
def frontierMatrix (matrix : List (List 𝕜)) (isOptimal : List Bool) : List (List 𝕜) :=
  ((matrix.zip isOptimal).filter Prod.snd).map Prod.fst

/-- `np.min(matrix, axis=0)` or `np.max(matrix, axis=0)` -/
def reduceRows (pick : 𝕜 → 𝕜 → 𝕜) : List (List 𝕜) → List 𝕜
  | [] => []
  | row :: rows => rows.foldl (List.zipWith pick) row

def rangeVals (matrix : List (List 𝕜)) : List 𝕜 :=
  List.zipWith (fun hi lo => if hi - lo = 0 then 1 else hi - lo)
    (reduceRows max matrix) (reduceRows min matrix)

/-- `(row - min_vals) / range_vals` -/
def normRow (minVals ranges row : List 𝕜) : List 𝕜 :=
  List.zipWith (· / ·) (List.zipWith (· - ·) row minVals) ranges

/-- `np.sqrt(np.sum(diffs**2))` of one row of the frontier -/
def rowDistance (sqrt : 𝕜 → 𝕜) (row target : List 𝕜) : 𝕜 :=
  sqrt ((List.zipWith (· - ·) row target).map (· ^ 2)).sum

/-- `np.min(dists)` -/
def minimum : List 𝕜 → Except ValueError 𝕜
  | [] => .error .emptyMinimum
  | d :: ds => .ok (ds.foldl min d)

/-- The points with their flags and their rows of `norm_matrix`. -/
def processPoint (sqrt : 𝕜 → 𝕜) (normFrontier : List (List 𝕜))
    (entry : ParetoPoint 𝕜 × Bool × List 𝕜) : Except ValueError (ParetoPoint 𝕜) := do
  let (pt, ptIsOpt, row) := entry
  let dist ←
    if ptIsOpt then pure 0 else minimum (normFrontier.map fun f => rowDistance sqrt f row)
  return { pointId := pt.pointId
           metrics := pt.metrics
           metadata := pt.metadata
           isParetoOptimal := ptIsOpt
           distanceToFrontier := dist }

def computeParetoFrontier (sqrt : 𝕜 → 𝕜) (points : List (ParetoPoint 𝕜))
    (objectives : FiniteMap String String) : Except ValueError (List (ParetoPoint 𝕜)) :=
  if points.isEmpty then .ok []
  else do
    let matrix ← criteriaMatrix points objectives
    let isOptimal := optimalFlags matrix
    let normalize := normRow (reduceRows min matrix) (rangeVals matrix)
    let normFrontier := (frontierMatrix matrix isOptimal).map normalize
    (points.zip (isOptimal.zip (matrix.map normalize))).mapM (processPoint sqrt normFrontier)

end Model
end CudaForge.Statistics
