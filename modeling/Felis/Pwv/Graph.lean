import Mathlib.Data.Nat.Bitwise

/-!
# The dependency graph of an epoch

The transactions of an epoch that share a resource have to use it one after the other, in the order
of their sequence numbers. A transaction adds its resources to its node. `Build` goes through the
nodes in order. It stamps every resource with the last transaction that uses it, finds the edge of
this transaction when it comes to the next one, and makes the next one its successor; the number of
such edges into a node is its in-degree. A transaction without incoming edges is notified that it is
free. `ActivateResources` of a transaction decrements the in-degrees of the successors on the given
resources.

A serial id has 32 bits for the epoch, 24 bits for the sequence number and 8 bits for the node of
the cluster. The nodes are named by their sequence numbers. The memory for the edges is not
modelled. When the code aborts, or reads what is not in the array of nodes or through a null
pointer, there is no result.
-/

namespace Felis.Pwv

open Function

def kInlineEdges : ℕ := 1

/-- What is in `Edge::node`. -/
inductive Link
  | null
  | node (seq : ℕ)
  /-- `0xdeadbeef` -/
  | activated
  deriving DecidableEq

structure Edge (R : Type) where
  resource : Option R
  node : Link
  deriving DecidableEq

structure Node (R : Type) where
  inDegree : ℕ
  nrResources : ℕ
  totResources : ℕ
  mark : Bool
  schedEntry : Bool
  onNodeFree : Bool
  /-- The inlined edges, and then the extra ones. -/
  edge : ℕ → Edge R

structure Graph (R : Type) where
  node : ℕ → Node R
  word : R → ℕ
  notified : List ℕ

variable {R : Type}

namespace Node

/-- A node after `Reset`. -/
def zero : Node R where
  inDegree := 0
  nrResources := 0
  totResources := 0
  mark := false
  schedEntry := false
  onNodeFree := false
  edge _ := ⟨none, .null⟩

/-- `Edge *at(uint8_t n)`. -/
def slot (x : Node R) (n : ℕ) : Option ℕ :=
  let n := n % 2 ^ 8
  if n < kInlineEdges then some n
  else if n < x.totResources then some n
  else none

def setEdge (x : Node R) (n : ℕ) (e : Edge R) : Node R :=
  { x with edge := update x.edge n e }

/-- `in_degree.fetch_add(n)` -/
def addInDegree (x : Node R) (n : ℕ) : Node R := { x with inDegree := (x.inDegree + n) % 2 ^ 32 }

/-- `in_degree.fetch_sub(1)` -/
def subInDegree (x : Node R) : Node R :=
  { x with inDegree := if x.inDegree = 0 then 2 ^ 32 - 1 else x.inDegree - 1 }

variable [DecidableEq R]

/-- The loop of `FindEdge`, with the number of edges that are left. -/
def findEdgeFrom (x : Node R) (r : R) : ℕ → ℕ → Option (Option ℕ)
  | 0, _ => some none
  | left + 1, i =>
    (x.slot i).bind fun j =>
      if (x.edge j).resource = some r then some (some j) else findEdgeFrom x r left (i + 1)

def findEdge (x : Node R) (r : R) : Option (Option ℕ) := x.findEdgeFrom r x.nrResources 0

end Node

namespace Graph

def setNode (G : Graph R) (seq : ℕ) (x : Node R) : Graph R :=
  { G with node := update G.node seq x }

@[simp] theorem node_setNode_self (G : Graph R) (seq : ℕ) (x : Node R) :
    (G.setNode seq x).node seq = x :=
  update_self ..

theorem node_setNode_of_ne (G : Graph R) {seq q : ℕ} (hq : q ≠ seq) (x : Node R) :
    (G.setNode seq x).node q = G.node q :=
  update_of_ne hq ..

@[simp] theorem setNode_setNode (G : Graph R) (seq : ℕ) (x y : Node R) :
    (G.setNode seq x).setNode seq y = G.setNode seq y := by
  unfold setNode
  rw [update_idem]

/-- The node of a serial id, when it is one of the `n` nodes of the epoch. -/
def fromSerialId (n : ℕ) (sid : ℕ) : Option ℕ :=
  let seq := (sid >>> 8) % 2 ^ 24
  if 1 ≤ seq ∧ seq ≤ n then some seq else none

/-- `GenerateSerialId`, for the node `id` of the cluster. -/
def serialId (epoch seq id : ℕ) : ℕ := (epoch <<< 32 ||| seq <<< 8 ||| id) % 2 ^ 64

/-! ## Resources -/

def reserveEdge (G : Graph R) (seq k : ℕ) : Option (Graph R) :=
  if (G.node seq).nrResources ≠ 0 then none
  else
    some (G.setNode seq { G.node seq with
      totResources := ((G.node seq).totResources + k) % 2 ^ 16 })

/-- The loop of `AddResources`, from slot `i` on. -/
def addEdges (x : Node R) : ℕ → List R → Option (Node R)
  | _, [] => some x
  | i, r :: rs => (x.slot i).bind fun j => addEdges (x.setEdge j ⟨some r, .null⟩) (i + 1) rs

def addResources (G : Graph R) (seq : ℕ) (res : List R) : Option (Graph R) :=
  let x := G.node seq
  let nr := (x.nrResources + res.length) % 2 ^ 16
  if x.totResources < nr then none
  else (addEdges { x with nrResources := nr } x.nrResources res).map fun x =>
    G.setNode seq { x with mark := true }

/-- `RegisterFreeListener` and `RegisterSchedEntry`. -/
def register (G : Graph R) (seq : ℕ) : Graph R :=
  G.setNode seq { G.node seq with schedEntry := true, onNodeFree := true }

/-! ## `Build` -/

def notifyFree (G : Graph R) (seq : ℕ) : Option (Graph R) :=
  if (G.node seq).schedEntry then
    some (if (G.node seq).onNodeFree then { G with notified := G.notified ++ [seq] } else G)
  else none

/-- What `Build` writes to a resource; `seq` is an `unsigned int`. -/
def stamp (epoch seq : ℕ) : ℕ := (epoch <<< 32) % 2 ^ 64 ||| (seq <<< 8) % 2 ^ 32

variable [DecidableEq R] (n epoch : ℕ)

def setWord (G : Graph R) (r : R) (w : ℕ) : Graph R :=
  { G with word := update G.word r w }

/-- `seq` becomes the successor of the last user of `r`. -/
def link (G : Graph R) (seq : ℕ) (r : R) : Option (Graph R) :=
  (fromSerialId n (G.word r)).bind fun p =>
    ((G.node p).findEdge r).bind fun e =>
      -- the code aborts: "cannot find resource"
      e.map fun j => G.setNode p ((G.node p).setEdge j { (G.node p).edge j with node := .node seq })

/-- A resource of `seq`, with the in-degree so far. -/
def buildEdge (seq : ℕ) (G : Graph R) (inDegree i : ℕ) : Option (Graph R × ℕ) :=
  ((G.node seq).slot i).bind fun j =>
    ((G.node seq).edge j).resource.bind fun rc =>
      if G.word rc >>> 32 = epoch then
        (G.link n seq rc).map fun G => (G.setWord rc (stamp epoch seq), inDegree + 1)
      else some (G.setWord rc (stamp epoch seq), inDegree)

def buildEdges (seq : ℕ) : Graph R → ℕ → List ℕ → Option (Graph R × ℕ)
  | G, inDegree, [] => some (G, inDegree)
  | G, inDegree, i :: is =>
    (buildEdge n epoch seq G inDegree i).bind fun (G, inDegree) => buildEdges seq G inDegree is

def buildNode (G : Graph R) (seq : ℕ) : Option (Graph R) :=
  if (G.node seq).mark = false then some G
  else
    (buildEdges n epoch seq G 0 (List.range (G.node seq).nrResources)).bind fun (G, inDegree) =>
      if 0 < inDegree then some (G.setNode seq ((G.node seq).addInDegree inDegree))
      else G.notifyFree seq

def buildNodes : Graph R → List ℕ → Option (Graph R)
  | G, [] => some G
  | G, seq :: seqs => (buildNode n epoch G seq).bind fun G => buildNodes G seqs

/-- For the `n` nodes of the epoch. -/
def build (G : Graph R) : Option (Graph R) := buildNodes n epoch G (List.range' 1 n)

/-! ## `ActivateResources` -/

def activateResource (G : Graph R) (seq : ℕ) (r : R) : Option (Graph R) :=
  ((G.node seq).findEdge r).bind fun e =>
    e.bind fun j =>
      let edge := (G.node seq).edge j
      match edge.node with
      | .null => some G
      -- the code logs "Duplicate Activation", and goes on with `0xdeadbeef`
      | .activated => none
      | .node q =>
        let G := G.setNode q (G.node q).subInDegree
        (if (G.node q).inDegree = 0 then G.notifyFree q else some G).map fun G =>
          G.setNode seq ((G.node seq).setEdge j { edge with node := .activated })

def activateAll (seq : ℕ) : Graph R → List R → Option (Graph R)
  | G, [] => some G
  | G, r :: rs => (activateResource G seq r).bind fun G => activateAll seq G rs

def activateResources (G : Graph R) (sid : ℕ) (res : List R) : Option (Graph R) :=
  (fromSerialId n sid).bind fun seq =>
    -- the code aborts: "shouldn't be scheduled"
    if 0 < (G.node seq).inDegree then none else activateAll seq G res

end Graph

end Felis.Pwv
