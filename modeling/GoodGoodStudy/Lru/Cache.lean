/-
The least-recently-used cache of `146、LRU缓存机制.py`: a dictionary from keys to the nodes of a
doubly linked list with two sentinels, the most recently used node right after `head`.

Nodes live in a heap of locations. Every access through a pointer that may be `None` and every
`dict.pop` may raise, so the methods return an `Option`; `none` stands for the exception.
-/
import GoodGoodStudy.Lib.Linked
import GoodGoodStudy.Lib.Recency

namespace GoodGoodStudy.Lru

open GoodGoodStudy.Lib

abbrev Loc := Nat

structure DLinkNode where
  key : Int := 0
  value : Int := 0
  pre : Option Loc := none
  next : Option Loc := none

structure LRUCache where
  capacity : Int
  size : Int
  head : Loc
  tail : Loc
  cache : Dict Int Loc
  /-- The allocated nodes. -/
  heap : Loc → DLinkNode
  /-- The next location to be allocated. -/
  fresh : Loc

namespace LRUCache

/-! ## Assignments to the fields of a node -/

def assign (c : LRUCache) (l : Loc) (f : DLinkNode → DLinkNode) : LRUCache :=
  { c with heap := Function.update c.heap l (f (c.heap l)) }

def setPre (c : LRUCache) (l : Loc) (v : Option Loc) : LRUCache := c.assign l fun n => { n with pre := v }

def setNext (c : LRUCache) (l : Loc) (v : Option Loc) : LRUCache := c.assign l fun n => { n with next := v }

def setValue (c : LRUCache) (l : Loc) (v : Int) : LRUCache := c.assign l fun n => { n with value := v }

/-- `DLinkNode(key, value)` -/
def newNode (c : LRUCache) (key value : Int) : Loc × LRUCache :=
  (c.fresh, { c with heap := Function.update c.heap c.fresh { key, value }, fresh := c.fresh + 1 })

/-! ## The methods -/

/-- `LRUCache(capacity)`: the two sentinels are the locations 0 and 1. -/
def init (capacity : Int) : LRUCache :=
  let c : LRUCache :=
    { capacity, size := 0, head := 0, tail := 1, cache := .empty, heap := fun _ => {}, fresh := 2 }
  let c := c.setNext c.head (some c.tail)
  c.setPre c.tail (some c.head)

def removeNode (c : LRUCache) (node : Loc) : Option LRUCache := do
  let p ← (c.heap node).pre
  let c := c.setNext p (c.heap node).next
  let n ← (c.heap node).next
  return c.setPre n (c.heap node).pre

def addnode (c : LRUCache) (node : Loc) : Option LRUCache := do
  let c := c.setPre node (some c.head)
  let c := c.setNext node (c.heap c.head).next
  let n ← (c.heap c.head).next
  let c := c.setPre n (some node)
  return c.setNext c.head (some node)

def moveToHead (c : LRUCache) (node : Loc) : Option LRUCache := do
  let c ← c.removeNode node
  c.addnode node

def removeTail (c : LRUCache) : Option (Loc × LRUCache) := do
  let node ← (c.heap c.tail).pre
  let c ← c.removeNode node
  return (node, c)

/-- `self.cache.pop(key)`, which raises on a missing key. -/
def pop (c : LRUCache) (key : Int) : Option LRUCache :=
  if c.cache.contains key then some { c with cache := c.cache.erase key } else none

def get (c : LRUCache) (key : Int) : Option (LRUCache × Int) :=
  match c.cache.get? key with
  | none => some (c, -1)
  | some node => do
    let c ← c.moveToHead node
    return (c, (c.heap node).value)

def put (c : LRUCache) (key value : Int) : Option LRUCache :=
  match c.cache.get? key with
  | none => do
    let (node, c) := c.newNode key value
    let c := { c with cache := c.cache.set key node }
    let c ← c.addnode node
    let c := { c with size := c.size + 1 }
    if c.size > c.capacity then
      let (removed, c) ← c.removeTail
      let c ← c.pop (c.heap removed).key
      return { c with size := c.size - 1 }
    else
      return c
  | some node => do
    let c := c.setValue node value
    c.moveToHead node

/-- One call; `get` answers with a value. -/
def step (c : LRUCache) : CacheOp Int Int → Option (LRUCache × Option Int)
  | .get key => do
    let (c, v) ← c.get key
    return (c, some v)
  | .put key value => do
    let c ← c.put key value
    return (c, none)

/-! ## The pointers of the heap -/

def links (c : LRUCache) : Links Loc := ⟨fun l => (c.heap l).next, fun l => (c.heap l).pre⟩

/-- The key and the value a node holds. -/
def entry (c : LRUCache) (l : Loc) : Int × Int := ((c.heap l).key, (c.heap l).value)

@[simp] theorem links_setNext (c : LRUCache) (l : Loc) (v : Option Loc) :
    (c.setNext l v).links = c.links.setNext l v := by
  simp only [links, setNext, assign, Links.setNext, Links.mk.injEq]
  constructor <;> funext m <;> by_cases hm : m = l <;> simp [hm]

@[simp] theorem links_setPre (c : LRUCache) (l : Loc) (v : Option Loc) :
    (c.setPre l v).links = c.links.setPre l v := by
  simp only [links, setPre, assign, Links.setPre, Links.mk.injEq]
  constructor <;> funext m <;> by_cases hm : m = l <;> simp [hm]

@[simp] theorem entry_setNext (c : LRUCache) (l : Loc) (v : Option Loc) : (c.setNext l v).entry = c.entry := by
  funext m
  by_cases hm : m = l <;> simp [entry, setNext, assign, hm]

@[simp] theorem entry_setPre (c : LRUCache) (l : Loc) (v : Option Loc) : (c.setPre l v).entry = c.entry := by
  funext m
  by_cases hm : m = l <;> simp [entry, setPre, assign, hm]

/-- What the pointer surgeries leave alone. -/
structure SameData (c c' : LRUCache) : Prop where
  capacity : c'.capacity = c.capacity
  size : c'.size = c.size
  head : c'.head = c.head
  tail : c'.tail = c.tail
  cache : c'.cache = c.cache
  fresh : c'.fresh = c.fresh
  entry : c'.entry = c.entry

theorem removeNode_eq {c : LRUCache} {node p n : Loc} (hp : c.links.pre node = some p)
    (hn : c.links.next node = some n) (hne : p ≠ node) :
    c.removeNode node = some ((c.setNext p (some n)).setPre n (some p)) := by
  have hp' : (c.heap node).pre = some p := hp
  have hn' : (c.heap node).next = some n := hn
  have hkeep : (c.setNext p (some n)).heap node = c.heap node := by
    simp [setNext, assign, hne.symm]
  simp [removeNode, hp', hn', hkeep]

theorem addnode_eq {c : LRUCache} {node n : Loc} (hn : c.links.next c.head = some n) (hne : c.head ≠ node) :
    c.addnode node = some ((((c.setPre node (some c.head)).setNext node (some n)).setPre n (some node)).setNext
      c.head (some node)) := by
  have hn' : (c.heap c.head).next = some n := hn
  simp [addnode, setPre, setNext, assign, Function.update_apply, hne, hn']

end LRUCache

end GoodGoodStudy.Lru
