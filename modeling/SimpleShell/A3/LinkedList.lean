import SimpleShell.Lib.Heap
import SimpleShell.Lib.DoublyLinked

/-!
# The linked list of A3

`linked_list.c`: a doubly linked list between two dummy nodes. A function that would read
or store through a null pointer or one that `malloc` never gave is `none`, and so is one
that calls `exit`. `malloc` leaves what was there before in a new node: `junk` is that, and
it can be anything.
-/

namespace SimpleShell.A3

open SimpleShell.Lib

structure Node (α : Type) where
  data : α
  next : Option Nat
  prev : Option Nat

structure LinkedList (α : Type) where
  size : Int
  dummyHead : Nat
  dummyTail : Nat
  equal : α → α → Bool

variable {α : Type}

/-! ## Memory -/

/-- `p->next = q` and its kin. -/
def storeAt (h : Heap (Node α)) (p : Nat) (f : Node α → Node α) : Option (Heap (Node α)) :=
  (h.get? p).map fun node => h.set p (f node)

def setNext (h : Heap (Node α)) (p q : Nat) : Option (Heap (Node α)) :=
  storeAt h p fun node => { node with next := some q }

def setPrev (h : Heap (Node α)) (p q : Nat) : Option (Heap (Node α)) :=
  storeAt h p fun node => { node with prev := some q }

/-- `p->next`, where the code goes on to the node it points to. -/
def nextOf (h : Heap (Node α)) (p : Nat) : Option Nat := (h.get? p).bind Node.next

def prevOf (h : Heap (Node α)) (p : Nat) : Option Nat := (h.get? p).bind Node.prev

def dataOf (h : Heap (Node α)) (p : Nat) : Option α := (h.get? p).map Node.data

/-! ## Operations -/

def listInit (h : Heap (Node α)) (junk : Nat → Node α) (equal : α → α → Bool) :
    Option (Heap (Node α) × LinkedList α) := do
  let (dummyHead, h) := h.alloc (junk h.next)
  let (dummyTail, h) := h.alloc (junk h.next)
  let h ← storeAt h dummyTail fun node => { node with next := none }
  let h ← setNext h dummyHead dummyTail
  let h ← setPrev h dummyTail dummyHead
  pure (h, { size := 0, dummyHead := dummyHead, dummyTail := dummyTail, equal := equal })

def listClear (h : Heap (Node α)) (list : LinkedList α) :
    Option (Heap (Node α) × LinkedList α) := do
  let h ← setNext h list.dummyHead list.dummyTail
  let h ← setPrev h list.dummyTail list.dummyHead
  pure (h, { list with size := 0 })

def addTail (h : Heap (Node α)) (junk : Nat → Node α) (data : α) (list : LinkedList α) :
    Option (Heap (Node α) × LinkedList α) := do
  let (newNode, h) := h.alloc (junk h.next)
  let oldTail ← prevOf h list.dummyTail
  let h ← storeAt h newNode fun node => { node with data := data }
  let h ← setNext h oldTail newNode
  let h ← setPrev h newNode oldTail
  let h ← setNext h newNode list.dummyTail
  let h ← setPrev h list.dummyTail newNode
  pure (h, { list with size := list.size + 1 })

def addHead (h : Heap (Node α)) (junk : Nat → Node α) (data : α) (list : LinkedList α) :
    Option (Heap (Node α) × LinkedList α) := do
  let (newNode, h) := h.alloc (junk h.next)
  let oldHead ← nextOf h list.dummyHead
  let h ← storeAt h newNode fun node => { node with data := data }
  let h ← setPrev h oldHead newNode
  let h ← setNext h newNode oldHead
  let h ← setPrev h newNode list.dummyHead
  let h ← setNext h list.dummyHead newNode
  pure (h, { list with size := list.size + 1 })

/-- How `pop_head`, `pop_tail` and `remove_elem` end. -/
def unlinkNode (h : Heap (Node α)) (toBeDeleted : Nat) (list : LinkedList α) :
    Option (α × Heap (Node α) × LinkedList α) := do
  let before ← prevOf h toBeDeleted
  let behind ← nextOf h toBeDeleted
  let h ← setNext h before behind
  -- The two fields are read again for the second line.
  let behind ← nextOf h toBeDeleted
  let before ← prevOf h toBeDeleted
  let h ← setPrev h behind before
  let data ← dataOf h toBeDeleted
  pure (data, h, { list with size := list.size - 1 })

def popHead (h : Heap (Node α)) (list : LinkedList α) :
    Option (α × Heap (Node α) × LinkedList α) :=
  if list.size ≤ 0 then none
  else do
    let toBeDeleted ← nextOf h list.dummyHead
    unlinkNode h toBeDeleted list

def popTail (h : Heap (Node α)) (list : LinkedList α) :
    Option (α × Heap (Node α) × LinkedList α) :=
  if list.size ≤ 0 then none
  else do
    let toBeDeleted ← prevOf h list.dummyTail
    unlinkNode h toBeDeleted list

/-- The loop of `get_node_by_value`, which gives the node or null. -/
def findFrom (h : Heap (Node α)) (equal : α → α → Bool) (target : α) :
    Nat → Option Nat → Option (Option Nat)
  | _, none => some none
  | 0, some _ => none
  | fuel + 1, some curr =>
      match h.get? curr with
      | none => none
      | some node =>
          if equal target node.data then some (some curr)
          else findFrom h equal target fuel node.next

/-- A list visits a node once, so it has looked at enough of them after one step for
each that there is. -/
def getNodeByValue (h : Heap (Node α)) (list : LinkedList α) (target : α) :
    Option (Option Nat) := do
  let head ← h.get? list.dummyHead
  findFrom h list.equal target h.next head.next

def removeElem (h : Heap (Node α)) (data : α) (list : LinkedList α) :
    Option (α × Heap (Node α) × LinkedList α) := do
  let toBeDeleted ← getNodeByValue h list data
  let toBeDeleted ← toBeDeleted
  unlinkNode h toBeDeleted list

/-! ## Traversals -/

/-- The nodes from the dummy head to the dummy tail. -/
def forwardNodes (h : Heap (Node α)) (list : LinkedList α) : List Nat :=
  walk (nextOf h) list.dummyTail h.next list.dummyHead

/-- The nodes from the dummy tail to the dummy head. -/
def backwardNodes (h : Heap (Node α)) (list : LinkedList α) : List Nat :=
  walk (prevOf h) list.dummyHead h.next list.dummyTail

end SimpleShell.A3
