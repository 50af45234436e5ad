import TFCommon.Lib.Loop
import TFCommon.Patricia.Key
import Mathlib.Logic.Function.Basic

/-! The threaded Patricia tree over a node memory. `none` is an access through `NULL`, to a freed
node, or to the data of an internal node; every loop is bounded by the node counts. -/
namespace TFCommon.Patricia

/-- A node is embedded in a data object or allocated for the tree. -/
inductive Ref (D : Type) where
  | data (d : D)
  | int (n : Nat)
deriving DecidableEq

abbrev Link (D : Type) := Option (Ref D)

structure Node (D : Type) where
  left : Link D := none
  right : Link D := none
  intnode : Bool := false
  bitpos : Nat := 0

structure Tree (D : Type) where
  nodes : Int
  intNodes : Int
  root : Link D
  mem : Ref D → Option (Node D)
  fresh : Nat

variable {D : Type}

def Ref.toData : Ref D → Option D
  | .data d => some d
  | .int _ => none

def nodeToData : Link D → Option (Option D)
  | none => some none
  | some x => x.toData.map some

inductive Move (D : Type) where
  | child (x : Ref D)
  | thread (x : Ref D)
  | missing

namespace Tree

/-- The data objects' nodes exist before they are inserted. -/
def new : Tree D where
  nodes := 0
  intNodes := 0
  root := none
  mem
    | .data _ => some {}
    | .int _ => none
  fresh := 0

def turns (t : Tree D) : Nat := 2 * (t.nodes + t.intNodes).toNat + 2

def size (t : Tree D) : Int := t.nodes

/-- `x && (p->bitpos_ >= x->bitpos_)` marks a thread. -/
def move (t : Tree D) (p : Node D) : Link D → Option (Move D)
  | none => some .missing
  | some x => (t.mem x).map fun n => if n.bitpos ≤ p.bitpos then .thread x else .child x

def follow (K : KeyTraits D) (node : D) (x : Node D) : Link D :=
  if getBit K node x.bitpos then x.right else x.left

/-- The end of a descent's turn: `p = x; x = GetBit(node, x->bitpos_) ? x->right_ : x->left_;` and
the exit from the loop at a thread. -/
def turnDown {A R : Type} (K : KeyTraits D) (t : Tree D) (node : D) (n : Node D) (locals : A) (atThread : Ref D → R) :
    Option (Turn (Link D × A) R) := do
  match ← t.move n (follow K node n) with
  | .child c => return .again (some c, locals)
  | .missing => return .again (none, locals)
  | .thread y => return .exit (atThread y)

section memory
variable [DecidableEq D]

def write (t : Tree D) (x : Ref D) (n : Node D) : Tree D := { t with mem := Function.update t.mem x (some n) }

def setLeft (t : Tree D) (x : Ref D) (v : Link D) : Option (Tree D) := do
  let n ← t.mem x
  return t.write x { n with left := v }

def setRight (t : Tree D) (x : Ref D) (v : Link D) : Option (Tree D) := do
  let n ← t.mem x
  return t.write x { n with right := v }

/-- `new Node` with `bitpos_` and `intnode_` set, counted in `int_nodes_`. -/
def newInternal (t : Tree D) (pos : Nat) : Ref D × Tree D :=
  (.int t.fresh, { t.write (.int t.fresh) { intnode := true, bitpos := pos } with
    intNodes := t.intNodes + 1, fresh := t.fresh + 1 })

/-- `delete x` with `int_nodes_--`; a data object's node is not the tree's to delete. -/
def deleteInternal (t : Tree D) : Ref D → Option (Tree D)
  | .data _ => none
  | .int n => some { t with mem := Function.update t.mem (.int n) none, intNodes := t.intNodes - 1 }

/-- `if (!p) root_ = l; else if (GetBit(node, p->bitpos_)) p->right_ = l; else p->left_ = l;`. -/
def attach (K : KeyTraits D) (t : Tree D) (node : D) (p l : Link D) : Option (Tree D) :=
  match p with
  | none => some { t with root := l }
  | some p => do
    let n ← t.mem p
    if getBit K node n.bitpos then t.setRight p l else t.setLeft p l

def rightMostTurn (t : Tree D) (x : Ref D) : Option (Turn (Ref D) (Ref D)) := do
  let n ← t.mem x
  match ← t.move n n.right with
  | .child r => return .again r
  | _ => return .exit x

/-- The link the right-most node had, and the tree with that link set to `p`. -/
def rewireRightMost (t : Tree D) (p x : Link D) : Option (Link D × Tree D) :=
  match x with
  | none => some (none, t)
  | some x => do
    let last ← loop t.rightMostTurn t.turns x
    let n ← t.mem last
    return (n.right, t.write last { n with right := p })

end memory

section insertNode
variable (K : KeyTraits D)

/-- The first descent of `InsertNode`, on `(x, p)`. -/
def seekTurn (t : Tree D) (node : D) : Link D × Link D → Option (Turn (Link D × Link D) (Link D × Link D))
  | (none, p) => some (.exit (none, p))
  | (some x, p) => do
    let n ← t.mem x
    if K.bitLength node ≤ n.bitpos ∧ n.intnode = false then return .exit (some x, p)
    else t.turnDown K node n (some x) fun _ => (none, some x)

/-- The second descent, down to the position `i` of the first mismatch. -/
def placeTurn (t : Tree D) (node : D) (i : Nat) :
    Link D × Link D → Option (Turn (Link D × Link D) (Link D × Link D))
  | (none, p) => some (.exit (none, p))
  | (some x, p) => do
    let n ← t.mem x
    if n.bitpos ≤ i ∧ n.bitpos < K.bitLength node then t.turnDown K node n (some x) fun _ => (none, some x)
    else return .exit (some x, p)

variable [DecidableEq D]

/-- `InsertNode` where nothing follows `p` on the key's side. -/
def insertLeaf (t : Tree D) (node : D) (p : Link D) : Option (Tree D) :=
  match p with
  | none => t.attach K node none (some (.data node))
  | some p => do
    let np ← t.mem p
    let t ← t.setRight (.data node) (if getBit K node np.bitpos then np.right else some p)
    t.attach K node (some p) (some (.data node))

/-- `InsertNode` in the place of the internal node `x`. -/
def replaceInternal (t : Tree D) (node : D) (p : Link D) (x : Ref D) (nx : Node D) : Option (Tree D) := do
  let t ← t.setRight (.data node) nx.right
  let t ← t.setLeft (.data node) nx.left
  let (_, t) ← t.rewireRightMost (some (.data node)) nx.left
  let t ← t.deleteInternal x
  t.attach K node p (some (.data node))

/-- `InsertNode` above `x`, whose keys extend the new one. -/
def insertAbove (t : Tree D) (node : D) (l : Link D) (i : Nat) (p : Link D) (x : Ref D) : Option (Tree D) := do
  let l ← l
  let dl ← l.toData
  if getBit K dl i then
    let t ← t.setRight (.data node) (some x)
    t.attach K node p (some (.data node))
  else
    let t ← t.setLeft (.data node) (some x)
    let (right, t) ← t.rewireRightMost (some (.data node)) (some x)
    let t ← t.setRight (.data node) right
    t.attach K node p (some (.data node))

/-- `InsertNode` beside `x`, under a new internal node at `i`. -/
def insertBeside (t : Tree D) (node : D) (i : Nat) (p : Link D) (x : Ref D) : Option (Tree D) := do
  let (l, t) := t.newInternal i
  if getBit K node i then
    let t ← t.setLeft l (some x)
    let t ← t.setRight l (some (.data node))
    let (right, t) ← t.rewireRightMost (some l) (some x)
    let t ← t.setRight (.data node) right
    t.attach K node p (some l)
  else
    let t ← t.setLeft l (some (.data node))
    let t ← t.setRight l (some x)
    let t ← t.setRight (.data node) (some l)
    t.attach K node p (some l)

def insertFrom (t : Tree D) (node : D) (l : Link D) (i : Nat) (p x : Link D) : Option (Tree D) :=
  match x with
  | none => t.insertLeaf K node p
  | some x => do
    let nx ← t.mem x
    if nx.bitpos = i then t.replaceInternal K node p x nx
    else if i = K.bitLength node then t.insertAbove K node l i p x
    else t.insertBeside K node i p x

/-- `InsertNode` from `nodes_++`, with the locals the descents left. -/
def insertAt (t : Tree D) (node : D) (l : Link D) (i : Nat) (p x : Link D) : Option (Tree D) := do
  let n ← t.mem (.data node)
  let t := { t with nodes := t.nodes + 1 }.write (.data node)
    { n with left := none, right := none, bitpos := K.bitLength node }
  t.insertFrom K node l i p x

def insertNode (t : Tree D) (node : D) : Option (Bool × Tree D) := do
  let (x, p) ← loop (t.seekTurn K node) t.turns (t.root, none)
  match x <|> p with
  | none =>
    let t ← t.insertAt K node none 0 p x
    return (true, t)
  | some l =>
    let nl ← t.mem l
    let dl ← l.toData
    let (equal, i) := compareFrom K node dl 0
    if equal then return (false, t)
    else if i ≠ K.bitLength node ∨ i ≠ nl.bitpos then
      let (x, p) ← loop (t.placeTurn K node i) t.turns (t.root, none)
      let t ← t.insertAt K node (some l) i p x
      return (true, t)
    else
      let t ← t.insertAt K node (some l) i p x
      return (true, t)

end insertNode

section removeNode
variable (K : KeyTraits D)

/-- The tests before a turn of the exact-match descents: `none` goes on. -/
def matchStop (node : D) (n : Node D) : Option Bool :=
  if K.bitLength node < n.bitpos then some false
  else if n.bitpos = K.bitLength node ∧ n.intnode = false then some true
  else none

/-- The descent that `RemoveNode`, `FindNode` and `GetPrevNode` share; `next` updates their locals. -/
def matchTurn {A : Type} (t : Tree D) (node : D) (next : Ref D → Node D → A → A) :
    Link D × A → Option (Turn (Link D × A) (Link D × A))
  | (none, locals) => some (.exit (none, locals))
  | (some x, locals) => do
    let n ← t.mem x
    match matchStop K node n with
    | some true => return .exit (some x, locals)
    | some false => return .exit (none, locals)
    | none => t.turnDown K node n (next x n locals) fun _ => (none, next x n locals)

def removeTurn (t : Tree D) (node : D) :
    Link D × Link D × Link D → Option (Turn (Link D × Link D × Link D) (Link D × Link D × Link D)) :=
  t.matchTurn K node fun x _ locals => (some x, locals.1)

/-- `a && b->bitpos_ > pos` for a link that may be `NULL`. -/
def hasChild (t : Tree D) (n : Node D) (a : Link D) : Option Bool :=
  (t.move n a).map fun
    | .child _ => true
    | _ => false

variable [DecidableEq D]

/-- A found node with both children: an internal node takes its place. -/
def replaceByInternal (t : Tree D) (p : Link D) (d : D) (n : Node D) : Option (Tree D) := do
  let (i, t) := t.newInternal n.bitpos
  let t ← t.setLeft i n.left
  let t ← t.setRight i n.right
  let (_, t) ← t.rewireRightMost (some i) n.left
  t.attach K d p (some i)

/-- A found node `x` with a left child only. -/
def liftLeft (t : Tree D) (p : Link D) (x : Ref D) (d : D) (n : Node D) : Option (Tree D) := do
  let t ← t.attach K d p n.left
  let n ← t.mem x
  let (_, t) ← t.rewireRightMost n.right n.left
  return t

/-- A found leaf under the internal node `p`, which goes with it. -/
def dropInternal (t : Tree D) (pPrev : Link D) (p : Ref D) (np : Node D) (d : D) (n : Node D) : Option (Tree D) := do
  if getBit K d np.bitpos then
    let (_, t) ← t.rewireRightMost n.right np.left
    let t ← t.attach K d pPrev np.left
    t.deleteInternal p
  else
    let t ← t.attach K d pPrev np.right
    t.deleteInternal p

/-- The detachments of the found node `x`, whose data is `d`. -/
def detach (t : Tree D) (pPrev p : Link D) (x : Ref D) (d : D) (n : Node D) : Option (Tree D) := do
  let rightChild ← t.hasChild n n.right
  if n.left.isSome ∧ rightChild = true then t.replaceByInternal K p d n
  else if n.left.isSome then t.liftLeft K p x d n
  else if rightChild = true then t.attach K d p n.right
  else match p with
    | none => t.attach K d none none
    | some p =>
      let np ← t.mem p
      if np.intnode = true then t.dropInternal K pPrev p np d n
      else if getBit K d np.bitpos then t.setRight p n.right
      else t.setLeft p none

def removeNode (t : Tree D) (node : D) : Option (Bool × Tree D) := do
  let (x, p, pPrev) ← loop (t.removeTurn K node) t.turns (t.root, none, none)
  match x with
  | none => return (false, t)
  | some x =>
    let n ← t.mem x
    let d ← x.toData
    if compare K node d then
      let t ← t.detach K pPrev p x d n
      let self ← t.mem (.data node)
      return (true, { t with nodes := t.nodes - 1 }.write (.data node) { self with left := none, right := none })
    else return (false, t)

end removeNode

section lookup
variable (K : KeyTraits D)

def findTurn (t : Tree D) (node : D) : Link D × Unit → Option (Turn (Link D × Unit) (Link D × Unit)) :=
  t.matchTurn K node fun _ _ locals => locals

def findNode (t : Tree D) (node : D) : Option (Link D) := do
  match ← loop (t.findTurn K node) t.turns (t.root, ()) with
  | (none, _) => return none
  | (some x, _) =>
    let d ← x.toData
    if compare K node d then return some x else return none

def bestTurn (t : Tree D) (node : D) : Link D × Link D × Nat → Option (Turn (Link D × Link D × Nat) (Link D))
  | (none, l, _) => some (.exit l)
  | (some x, l, i) => do
    let n ← t.mem x
    if n.intnode = true then descend n l i
    else
      let d ← x.toData
      let (equal, i) := compareFrom K node d i
      if equal then return .exit (some x)
      else descend n (if i = n.bitpos then some x else l) i
where
  descend (n : Node D) (l : Link D) (i : Nat) : Option (Turn (Link D × Link D × Nat) (Link D)) :=
    if K.bitLength node < n.bitpos then some (.exit l)
    else t.turnDown K node n (l, i) fun _ => l

def findBestMatchNode (t : Tree D) (node : D) : Option (Link D) :=
  loop (t.bestTurn K node) t.turns (t.root, none, 0)

end lookup

section iterate

/-- The end of a turn of `GetNextNode`, with `l = x` and the next link chosen. -/
def arrive (t : Tree D) (l : Ref D) (nl : Node D) : Link D → Option (Turn (Link D × Ref D) (Link D))
  | none => some (.again (none, l))
  | some x => do
    let n ← t.mem x
    if nl.bitpos < n.bitpos ∧ n.intnode = false then return .exit (some x)
    else return .again (some x, l)

def nextTurn (t : Tree D) : Link D × Ref D → Option (Turn (Link D × Ref D) (Link D))
  | (none, _) => some (.exit none)
  | (some x, l) => do
    let nx ← t.mem x
    let nl ← t.mem l
    t.arrive x nx (if nx.bitpos < nl.bitpos then nx.right else nx.left <|> nx.right)

def getNextNode (t : Tree D) (node : Link D) : Option (Link D) :=
  match t.root with
  | none => some none
  | some root => do
    let n ← t.mem root
    match node with
    | some x => loop t.nextTurn t.turns (some x, x)
    | none => if n.intnode = true then loop t.nextTurn t.turns (some root, root) else return some root

def lastTurn (t : Tree D) : Link D × Unit → Option (Turn (Link D × Unit) (Link D))
  | (none, _) => some (.exit none)
  | (some x, _) => do
    let n ← t.mem x
    match n.right with
    | some r =>
      let nr ← t.mem r
      if nr.bitpos < n.bitpos then
        if n.left = none then return .exit (some x) else return .again (n.left, ())
      else return .again (some r, ())
    | none => if n.left = none then return .exit (some x) else return .again (n.left, ())

def getLastNode (t : Tree D) : Option (Link D) :=
  match t.root with
  | none => some none
  | some root => loop t.lastTurn t.turns (some root, ())

end iterate

section findNext
variable (K : KeyTraits D)

/-- The first loop of `FindNextNode` on `(x, l, i)`; it ends at an equal key or leaves the three. -/
def findNextTurn (t : Tree D) (node : D) :
    Link D × Link D × Nat → Option (Turn (Link D × Link D × Nat) (Ref D ⊕ Link D × Link D × Nat))
  | (none, l, i) => some (.exit (.inr (none, l, i)))
  | (some x, l, i) => do
    let n ← t.mem x
    if n.intnode = true then t.turnDown K node n (l, i) fun y => .inr (some y, l, i)
    else
      let d ← x.toData
      let (equal, i) := compareFrom K node d i
      if equal then return .exit (.inl x)
      else if K.bitLength node < n.bitpos ∨ i ≠ n.bitpos then return .exit (.inr (some x, l, i))
      else t.turnDown K node n (some x, i) fun y => .inr (some y, some x, i)

/-- The second loop, from the last data node that was a proper prefix, on `(x, l)`. -/
def resumeTurn (t : Tree D) (node : D) (i : Nat) : Link D × Ref D → Option (Turn (Link D × Ref D) (Link D × Ref D))
  | (none, l) => some (.exit (none, l))
  | (some x, l) => do
    let n ← t.mem x
    if n.bitpos ≤ i then t.turnDown K node n x fun y => (some y, x)
    else return .exit (some x, l)

/-- `while (x && l->bitpos_ > x->bitpos_) { l = x; x = x->right_; }`. -/
def climbTurn (t : Tree D) : Ref D × Link D → Option (Turn (Ref D × Link D) (Link D))
  | (_, none) => some (.exit none)
  | (l, some x) => do
    let nl ← t.mem l
    let nx ← t.mem x
    if nx.bitpos < nl.bitpos then return .again (x, nx.right) else return .exit (some x)

/-- `l = x; if (x && !IS_INT_NODE(x)) return x; return GetNextNode(l);`. -/
def landed (t : Tree D) : Link D → Option (Link D)
  | none => t.getNextNode none
  | some x => do
    let n ← t.mem x
    if n.intnode = true then t.getNextNode (some x) else return some x

def findNextFrom (t : Tree D) (node : D) (i : Nat) (l : Ref D) (x : Link D) : Option (Link D) := do
  let nl ← t.mem l
  if K.bitLength node = nl.bitpos then t.getNextNode (some l)
  else if getBit K node nl.bitpos then
    match x with
    | none => return none
    | some x =>
      let nx ← t.mem x
      if nx.bitpos < nl.bitpos then t.landed (← loop t.climbTurn t.turns (l, some x))
      else if getBit K node i then
        let r ← loop t.rightMostTurn t.turns x
        let nr ← t.mem r
        t.landed (← loop t.climbTurn t.turns (r, nr.right))
      else t.landed (some x)
  else if x = none ∨ getBit K node i = true then t.landed (← loop t.climbTurn t.turns (l, nl.right))
  else t.landed x

def findNextNode (t : Tree D) (node : D) : Option (Link D) := do
  match ← loop (t.findNextTurn K node) t.turns (t.root, none, 0) with
  | .inl x => t.getNextNode (some x)
  | .inr (x, none, i) => return if getBit K node i then none else x
  | .inr (_, some l, i) =>
    let (x, l) ← loop (t.resumeTurn K node i) t.turns (some l, l)
    t.findNextFrom K node i l x

end findNext

section getPrev
variable (K : KeyTraits D)

/-- `right_turn` and `greatest_partial` of `GetPrevNode`. -/
def prevTurn (t : Tree D) (node : D) :
    Link D × Link D × Link D → Option (Turn (Link D × Link D × Link D) (Link D × Link D × Link D)) :=
  t.matchTurn K node fun x n (rightTurn, greatestPartial) =>
    if getBit K node n.bitpos then (some x, greatestPartial)
    else (rightTurn, if n.intnode = false then some x else greatestPartial)

def greatestTurn (t : Tree D) : Link D × Unit → Option (Turn (Link D × Unit) (Link D))
  | (none, _) => some (.exit none)
  | (some x, _) => do
    let n ← t.mem x
    match ← t.move n n.right with
    | .child r => return .again (some r, ())
    | _ => if n.left = none then return .exit (some x) else return .again (n.left, ())

/-- `GetPrevNode` once the key is found, from `right_turn` and `greatest_partial`. -/
def prevFrom (t : Tree D) : Link D → Link D → Option (Link D)
  | none, greatestPartial => some greatestPartial
  | some r, none => do
    let nr ← t.mem r
    loop t.greatestTurn t.turns (nr.left, ())
  | some r, some g => do
    let nr ← t.mem r
    let ng ← t.mem g
    if nr.bitpos < ng.bitpos then return some g
    else loop t.greatestTurn t.turns (nr.left, ())

def getPrevNode (t : Tree D) (node : D) : Option (Link D) := do
  match ← loop (t.prevTurn K node) t.turns (t.root, none, none) with
  | (none, _, _) => return none
  | (some x, rightTurn, greatestPartial) =>
    let d ← x.toData
    if compare K node d then t.prevFrom rightTurn greatestPartial else return none

end getPrev

section interface
variable (K : KeyTraits D)

def insert [DecidableEq D] (t : Tree D) (data : D) : Option (Bool × Tree D) := t.insertNode K data
def remove [DecidableEq D] (t : Tree D) (data : D) : Option (Bool × Tree D) := t.removeNode K data
def find (t : Tree D) (data : D) : Option (Option D) := t.findNode K data >>= nodeToData
def findNext (t : Tree D) (data : D) : Option (Option D) := t.findNextNode K data >>= nodeToData
def lowerBound (t : Tree D) (data : D) : Option (Option D) := t.findNext K data
def lpmFind (t : Tree D) (data : D) : Option (Option D) := t.findBestMatchNode K data >>= nodeToData
def getNext (t : Tree D) (data : Option D) : Option (Option D) := t.getNextNode (data.map .data) >>= nodeToData
def getPrev (t : Tree D) (data : D) : Option (Option D) := t.getPrevNode K data >>= nodeToData
def getLast (t : Tree D) : Option (Option D) := t.getLastNode >>= nodeToData

end interface

end Tree

end TFCommon.Patricia
