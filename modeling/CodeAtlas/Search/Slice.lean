import CodeAtlas.Graph.Store
import CodeAtlas.Graph.Query
import CodeAtlas.Search.Loop
/-!
# Slices

A slice holds everything within reach of a start node, and the edges that were followed to get
there. The walk is depth first; under a depth bound a node reached again by a shorter way is opened
anew, so that the bound cuts off by distance and not by the order of the walk.
-/

namespace CodeAtlas

/-- Bounds on a slice: how many hops from the start, and along which kinds of edges. -/
structure SliceOptions where
  maxDepth : Option Nat := none
  kinds : KindFilter := none
  deriving Inhabited

namespace SliceOptions

/-- Options from raw bounds; the depth is checked before the kinds. -/
def ofRaw (maxDepth : Option Int) (kinds : Option (List Value)) : Except Fault SliceOptions :=
  match maxDepth with
  | some d =>
    if d < 0 then .error (.negativeDepth d)
    else (KindFilter.ofValues kinds).map fun kinds => { maxDepth := some d.toNat, kinds }
  | none => (KindFilter.ofValues kinds).map fun kinds => { kinds }

/-- Whether a node at `depth` may be left for its neighbours. -/
def opens (o : SliceOptions) (depth : Nat) : Bool :=
  match o.maxDepth with
  | none => true
  | some d => depth < d

end SliceOptions

namespace Direction

/-- The direction that a value names. -/
def ofValue (v : Value) : Except Fault Direction :=
  match v.text?.bind Spelled.ofText? with
  | some d => .ok d
  | none => .error (.unknownWord .direction v)

end Direction

/-- An edge that can be followed, and the node it leads to. -/
abbrev Hop := Edge × String

namespace Graph

/-- The hops along admitted edges that leave a node. -/
def hopsOut (g : Graph) (filter : KindFilter) (id : String) : List Hop :=
  ((g.outgoingEdges id).filter (filter.admits ·.kind)).map fun e => (e, e.target)

/-- The hops against admitted edges that enter a node. -/
def hopsIn (g : Graph) (filter : KindFilter) (id : String) : List Hop :=
  ((g.incomingEdges id).filter (filter.admits ·.kind)).map fun e => (e, e.source)

/-- The hops that a slice may take from a node, those along edges before those against them. -/
def hops (g : Graph) (direction : Direction) (filter : KindFilter) (id : String) : List Hop :=
  match direction with
  | .forward => g.hopsOut filter id
  | .backward => g.hopsIn filter id
  | .bidirectional => g.hopsOut filter id ++ g.hopsIn filter id

end Graph

/-! ## The walk -/

structure SliceWalk where
  /-- Open nodes with the hops still to try, deepest first. -/
  stack : List (String × List Hop)
  /-- The smallest number of hops found so far for each node. -/
  depths : Assoc Nat
  /-- Nodes in the order in which they were first reached. -/
  order : List String
  /-- Edges in the order in which they were first followed. -/
  followed : List Edge
  deriving Inhabited

namespace SliceWalk

def start (hops : String → List Hop) (id : String) : SliceWalk :=
  { stack := [(id, hops id)], depths := [(id, 0)], order := [id], followed := [] }

def depth (w : SliceWalk) (id : String) : Nat :=
  (w.depths.get? id).getD 0

/-- Notes an edge unless it was followed before. -/
def follow (followed : List Edge) (e : Edge) : List Edge :=
  if followed.any (·.id == e.id) then followed else followed ++ [e]

def enter (w : SliceWalk) (hops : String → List Hop) (id : String) (depth : Nat) : SliceWalk :=
  { w with stack := (id, hops id) :: w.stack, depths := w.depths.set id depth }

/-- Takes the next hop of the deepest open node, or closes that node. A node is entered when it is
new, and under a depth bound also when this way to it is shorter than the known one. -/
def step (hops : String → List Hop) (o : SliceOptions) (w : SliceWalk) : Option SliceWalk :=
  match w.stack with
  | [] => none
  | (n, todo) :: below =>
    let depth := w.depth n
    match o.opens depth, todo with
    | true, (e, m) :: rest =>
      let w := { w with stack := (n, rest) :: below, followed := follow w.followed e }
      match w.depths.get? m with
      | none => some ({ w with order := w.order ++ [m] }.enter hops m (depth + 1))
      | some known =>
        if o.maxDepth.isSome && depth + 1 < known then some (w.enter hops m (depth + 1))
        else some w
    | _, _ => some { w with stack := below }

end SliceWalk

namespace Graph

/-- A bound on the steps of a slice: a node is opened at most once for each depth, and an open node
has at most two hops for each edge. -/
def sliceBudget (g : Graph) : Nat :=
  (g.nodes.length * g.nodes.length + 1) * (2 * g.edges.length + 2) + 1

/-- The finished walk of a slice. -/
def sliceWalk (g : Graph) (start : String) (direction : Direction) (o : SliceOptions) :
    SliceWalk :=
  let hops := g.hops direction o.kinds
  iterate (SliceWalk.step hops o) g.sliceBudget (SliceWalk.start hops start)

/-- What a slice says about itself. -/
def sliceMetadata (start : String) (direction : Direction) : Fields :=
  [("slice_start", .str start), ("slice_direction", .str (Spelled.text direction))]

/-- The slice from a node of the graph. -/
def sliceFrom (g : Graph) (start : String) (direction : Direction) (o : SliceOptions) :
    Except Fault Graph := do
  let w := g.sliceWalk start direction o
  let h ← (empty g.config (sliceMetadata start direction)).addNodes (w.order.filterMap g.node?)
  h.addEdges w.followed

def requireNode (g : Graph) (id : String) : Except Fault Unit :=
  if g.hasNode id then .ok () else .error (.nodeNotFound id none)

/-- The slice from `start`; the start is checked before the direction. -/
def slice (g : Graph) (start : String) (direction : Value) (o : SliceOptions) :
    Except Fault Graph := do
  g.requireNode start
  let direction ← Direction.ofValue direction
  g.sliceFrom start direction o

end Graph

end CodeAtlas
