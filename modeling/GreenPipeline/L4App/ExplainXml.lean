import Mathlib.Data.List.Basic

/-!
# Reading an EXPLAIN plan from its XML

`ExtractNodes1` and `LinkNoeud1` (`JavaApp/src/godpostgresql/CProcess.java:464-729`)
over the DOM tree of one EXPLAIN document. `ExtractNodes1` visits the `Plan`
elements from the last to the first; from each it reads the first element of
every known tag below it and removes that element, so that the plans above do
not find it again. `removeChild` throws if the element found is not a child.

`LinkNoeud1` writes the index of a parent plan as an attribute `ParentID` into
the element that holds its child plans, and reads the attributes back.

Doubles are a parameter (`Env`), so is the lookup of the image files.
-/
namespace GreenPipeline.L4.ExplainXml

inductive Fault | nullPointer | indexOutOfBounds | numberFormat | classCast | notFound
deriving DecidableEq, Repr

/-! ## The DOM -/

inductive Xml where
  | elem (tag : String) (attrs : List (String × String)) (children : List Xml)
  | text (s : String)

/-- The child indices on the way from an element to one of its descendants. -/
abbrev Path := List Nat

mutual

/-- The descendant elements of a node with the given tag, in document order:
`Element.getElementsByTagName`. -/
def byTag (tag : String) : Xml → List (Path × Xml)
  | .elem _ _ children => byTagList tag 0 children
  | .text _ => []

def byTagList (tag : String) (i : Nat) : List Xml → List (Path × Xml)
  | [] => []
  | x :: rest => selfByTag tag i x ++ byTagList tag (i + 1) rest

/-- The `i`th child itself, if it has the tag, and what is below it. -/
def selfByTag (tag : String) (i : Nat) : Xml → List (Path × Xml)
  | .elem t attrs children =>
    let below := (byTagList tag 0 children).map fun (p, y) => (i :: p, y)
    if t = tag then ([i], .elem t attrs children) :: below else below
  | .text _ => []

end

/-- `Document.getElementsByTagName("Plan")`; `doc` is the document element. -/
def plans (doc : Xml) : List (Path × Xml) :=
  match doc with
  | .elem "Plan" attrs children => ([], .elem "Plan" attrs children) :: byTag "Plan" doc
  | _ => byTag "Plan" doc

mutual

/-- `getTextContent` -/
def textContent : Xml → String
  | .text s => s
  | .elem _ _ children => textContents children

def textContents : List Xml → String
  | [] => ""
  | x :: rest => textContent x ++ textContents rest

end

def attributes : Xml → List (String × String)
  | .elem _ attrs _ => attrs
  | .text _ => []

def childNodes : Xml → List Xml
  | .elem _ _ children => children
  | .text _ => []

def get (e : Xml) : Path → Option Xml
  | [] => some e
  | i :: path => (childNodes e)[i]?.bind fun x => get x path

/-- The tree with the node at a path replaced. -/
def put (e : Xml) (new : Xml) : Path → Xml
  | [] => new
  | i :: path =>
    match e with
    | .elem tag attrs children => .elem tag attrs (children.modify i fun x => put x new path)
    | .text s => .text s

/-- `nNode.removeChild(item)`, where `item` stands at `path` below the node. -/
def removeChild (e : Xml) : Path → Except Fault Xml
  | [i] =>
    match e with
    | .elem tag attrs children => .ok (.elem tag attrs (children.eraseIdx i))
    | .text _ => .error .notFound
  | _ => .error .notFound

/-! ## Numbers -/

def digit? (c : Char) : Option Nat := if c.isDigit then some (c.toNat - '0'.toNat) else none

def digits (cs : List Char) : Option Nat :=
  cs.foldl (fun acc c => acc.bind fun n => (digit? c).map (10 * n + ·)) (some 0)

/-- The number a text of digits stands for, if there are any. -/
def magnitude : List Char → Option Nat
  | [] => none
  | cs => digits cs

/-- `Integer.parseInt`: a sign and digits, in the range of `int`. -/
def parseInt (s : String) : Except Fault Int :=
  let value : Option Int :=
    match s.toList with
    | '-' :: cs => (magnitude cs).map fun n => -(n : Int)
    | '+' :: cs => (magnitude cs).map Int.ofNat
    | cs => (magnitude cs).map Int.ofNat
  match value with
  | some n => if -2147483648 ≤ n ∧ n ≤ 2147483647 then .ok n else .error .numberFormat
  | none => .error .numberFormat

/-- The double arithmetic the code uses, `FenP.B0` and `getResource` on the
image `../vis/img/<name>.png`. -/
structure Env (D : Type) where
  parse : String → Option D
  print : D → String
  ofInt : Int → D
  add : D → D → D
  sub : D → D → D
  mul : D → D → D
  B0 : D
  resource : String → Option String

/-! ## The record of a plan node -/

/-- mirrors JavaApp/src/godpostgresql/Nodes.java:16-37 -/
structure Nodes (D : Type) where
  nodeType : String
  joinType : String
  command : String
  parallel : String
  totalCost : D
  ioCost : D
  cpuCost : D
  powerCost : D
  tabname : String
  strategie : String
  startCost : D
  planWi : Int
  actualStTime : String
  actuelTtTime : String
  actualRows : Int
  actualLoop : D
  rows : Int
  hsBlock : Int
  rsBlock : Int
  wrPlan : Int
  wrLau : Int
  path : String
deriving DecidableEq

/-- The sums `ExtractNodes1` keeps over the plan. -/
structure Estimates (D : Type) where
  totalCost : D
  power : D
  io : D
  cpu : D
deriving DecidableEq

/-- mirrors JavaApp/src/godpostgresql/QueryStatistic.java:76-83 -/
structure QueryStatistic (D : Type) where
  nbreop : Nat
  estimatedCPU : D
  estimatedPower : D
  estimatedIO : D
  estimatedTotalCost : D
  estimatedEnergy : D
deriving DecidableEq

section
variable {D : Type} (env : Env D)

/-- `new Nodes()`, whose image is the one of unknown nodes.
mirrors JavaApp/src/godpostgresql/Nodes.java:16-42,210-212 -/
def newNodes : Except Fault (Nodes D) :=
  match env.resource "ex_unknown" with
  | none => .error .nullPointer
  | some path =>
    let zero := env.ofInt 0
    .ok ⟨"", "", "", "", zero, zero, zero, zero, "", "", zero, 0, "", "", 0, zero, 0, 0,
      0, -1, -1, path⟩

/-- What is known while one plan is read. -/
abbrev Reading (D : Type) := Nodes D × Estimates D

/-- What is done with the text of a tag. -/
abbrev Setter (D : Type) := String → Reading D → Except Fault (Reading D)

def setString (set : String → Nodes D → Nodes D) : Setter D := fun t r => .ok (set t r.1, r.2)

def setInt (set : Int → Nodes D → Nodes D) : Setter D := fun t r => do
  let n ← parseInt t
  .ok (set n r.1, r.2)

/-- `Double.parseDouble`, for the record and for the sums. -/
def setDouble (set : D → Nodes D → Nodes D) (sum : D → Estimates D → Estimates D) : Setter D :=
  fun t r =>
    match env.parse t with
    | none => .error .numberFormat
    | some d => .ok (set d r.1, sum d r.2)

/-- The tags in the order in which they are read; `temp` is the index of the plan.
mirrors JavaApp/src/godpostgresql/CProcess.java:485-552 -/
def fields (temp : Nat) : List (String × Setter D) :=
  [("Node-Type", setString fun t nd => { nd with nodeType := t }),
    ("Total-Cost", setDouble env (fun d nd => { nd with totalCost := d })
      fun d e => if temp = 0 then { e with totalCost := d } else e),
    ("IO-Cost", setDouble env (fun d nd => { nd with ioCost := d }) fun d e =>
      { e with io := env.add e.io d }),
    ("CPU-Cost", setDouble env (fun d nd => { nd with cpuCost := d }) fun d e =>
      { e with cpu := env.add e.cpu d }),
    ("Power-Cost", setDouble env (fun d nd => { nd with powerCost := d })
      fun d e => { e with power := env.add e.power d }),
    ("Plan-Rows", setInt fun n nd => { nd with rows := n }),
    ("Relation-Name", setString fun t nd => { nd with tabname := t }),
    ("Strategy", setString fun t nd => { nd with strategie := t }),
    ("Startup-Cost", setDouble env (fun d nd => { nd with startCost := d }) fun _ e => e),
    ("Plan-Width", setInt fun n nd => { nd with planWi := n }),
    ("Actual-Startup-Time", setString fun t nd => { nd with actualStTime := t }),
    ("Actual-Total-Time", setString fun t nd => { nd with actuelTtTime := t }),
    ("Actual-Rows", setInt fun n nd => { nd with actualRows := n }),
    ("Actual-Loops", setDouble env (fun d nd => { nd with actualLoop := d }) fun _ e => e),
    ("Join-Type", setString fun t nd => { nd with joinType := t }),
    ("Command", setString fun t nd => { nd with command := t }),
    ("Parallel-Aware", setString fun t nd => { nd with parallel := t }),
    ("Shared-Hit-Blocks", setInt fun n nd => { nd with hsBlock := n }),
    ("Shared-Read-Blocks", setInt fun n nd => { nd with rsBlock := n }),
    ("Workers-Planned", setInt fun n nd => { nd with wrPlan := n }),
    ("Workers-Launched", setInt fun n nd => { nd with wrLau := n })]

/-- One of the `if` blocks: read the first element with the tag and remove it. -/
def takeField (acc : Reading D × Xml) (field : String × Setter D) :
    Except Fault (Reading D × Xml) :=
  match byTag field.1 acc.2 with
  | [] => .ok acc
  | (path, x) :: _ => do
    let r ← field.2 (textContent x) acc.1
    let e ← removeChild acc.2 path
    .ok (r, e)

/-- The loop over the plans, from `temp - 1` down to 0.
mirrors JavaApp/src/godpostgresql/CProcess.java:481-552 -/
def extractLoop : Nat → Xml → List (Nodes D) → Estimates D →
    Except Fault (List (Nodes D) × Estimates D)
  | 0, _, node, est => .ok (node, est)
  | temp + 1, doc, node, est =>
    match (plans doc)[temp]? with
    | none => .error .nullPointer
    | some (path, e) => do
      let nd ← newNodes env
      let ((nd, est), e) ← (fields env temp).foldlM takeField ((nd, est), e)
      extractLoop temp (put doc e path) (node ++ [nd]) est

/-- mirrors JavaApp/src/godpostgresql/QueryStatistic.java:26-39 and CProcess.java:666-674 -/
def queryStatistic (nbreop : Nat) (est : Estimates D) : QueryStatistic D :=
  let power := env.sub est.power (env.mul env.B0 (env.ofInt ((nbreop : Int) - 1)))
  ⟨nbreop, est.cpu, power, est.io, est.totalCost, env.mul power est.totalCost⟩

/-- The plan and the statistic that `ExtractNodes1` adds to the static lists.
mirrors JavaApp/src/godpostgresql/CProcess.java:464-676 -/
def extractNodes1 (doc : Xml) : Except Fault (List (Nodes D) × QueryStatistic D) := do
  let zero := env.ofInt 0
  let (node, est) ← extractLoop env (plans doc).length doc [] ⟨zero, zero, zero, zero⟩
  .ok (node.reverse, queryStatistic env node.length est)

end

/-! ## Parents -/

/-- The first loop of `LinkNoeud1`: the elements that get a `ParentID`. The
parent of a document element is the document, which is not an `Element`.
mirrors JavaApp/src/godpostgresql/CProcess.java:716-721 -/
def setParentIds (doc : Xml) :
    List (Path × Xml) → Nat → List (Path × Int) → Except Fault (List (Path × Int))
  | [], _, ids => .ok ids
  | ([], _) :: _, _, _ => .error .classCast
  | (path, _) :: rest, i, ids =>
    let holder := path.dropLast
    let hasAttributes := ((get doc holder).elim [] attributes).isEmpty = false ∨
      (ids.lookup holder).isSome
    setParentIds doc rest (i + 1) (if hasAttributes then ids else (holder, (i : Int) - 1) :: ids)

/-- The attribute `ParentID` of the element that holds a plan. -/
def parentId (doc : Xml) (ids : List (Path × Int)) (path : Path) : Except Fault Int :=
  match ids.lookup path.dropLast with
  | some n => .ok n
  | none =>
    match ((get doc path.dropLast).elim [] attributes).lookup "ParentID" with
    | some t => parseInt t
    | none => .error .nullPointer

/-- The second loop of `LinkNoeud1`, with what it has added when it throws.
mirrors JavaApp/src/godpostgresql/CProcess.java:723-725 -/
def readParentIds (doc : Xml) (ids : List (Path × Int)) :
    List (Path × Xml) → List Int → List Int × Option Fault
  | [], parents => (parents, none)
  | (path, _) :: rest, parents =>
    match parentId doc ids path with
    | .ok n => readParentIds doc ids rest (parents ++ [n])
    | .error f => (parents, some f)

/-- The new value of the static `NodesParend`.
mirrors JavaApp/src/godpostgresql/CProcess.java:706-729 -/
def linkNoeud1 (doc : Xml) : List Int × Option Fault :=
  match setParentIds doc (plans doc) 0 [] with
  | .error f => ([], some f)
  | .ok ids => readParentIds doc ids (plans doc) []

end GreenPipeline.L4.ExplainXml
