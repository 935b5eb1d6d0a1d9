/-
`dict.c`: hash tables with chains, rehashed in small steps. While a rehash is under way there are two tables; every
operation moves one bucket from the first to the second, unless an iterator is at work. A read outside of a table, a
`NULL` that is followed and an assertion that fails are `none`.
-/
import GoodGoodStudy.Lib.Buckets
import GoodGoodStudy.Lib.Cursor
import GoodGoodStudy.Lib.Run

namespace GoodGoodStudy.Redis

open GoodGoodStudy.Lib (Placed)

variable {K V : Type}

/-! ## Tables -/

structure DictEntry (K V : Type) where
  key : K
  /-- `none` until a value is written. -/
  val : Option V
  deriving DecidableEq, Repr

structure Dictht (K V : Type) where
  /-- The buckets, each with its chain; `[]` is `NULL`. -/
  table : List (List (DictEntry K V))
  size : ℕ
  sizemask : BitVec 64
  used : ℕ
  deriving DecidableEq, Repr

structure Dict (K V : Type) where
  ht0 : Dictht K V
  ht1 : Dictht K V
  /-- The next bucket to move, `none` for `-1`. -/
  rehashidx : Option ℕ
  iterators : ℕ
  deriving DecidableEq, Repr

def DICT_HT_INITIAL_SIZE : ℕ := 4

def dict_force_resize_ratio : ℕ := 5

def Dictht.reset : Dictht K V := ⟨[], 0, 0, 0⟩

def dictCreate : Dict K V := ⟨.reset, .reset, none, 0⟩

namespace Dict

def isRehashing (d : Dict K V) : Bool := d.rehashidx.isSome

def dictSize (d : Dict K V) : ℕ := d.ht0.used + d.ht1.used

def ht (d : Dict K V) : Bool → Dictht K V
  | false => d.ht0
  | true => d.ht1

def setHt (d : Dict K V) (t : Dictht K V) : Bool → Dict K V
  | false => { d with ht0 := t }
  | true => { d with ht1 := t }

end Dict

/-- The bucket of a hash. -/
def Dictht.index (t : Dictht K V) (hash : BitVec 64) : ℕ := (hash &&& t.sizemask).toNat

/-! ## Growing and shrinking -/

/-- The loop of `_dictNextPower`; from 4 on, 61 doublings reach every size below `LONG_MAX`. -/
def nextPowerLoop (size : ℕ) : ℕ → ℕ → ℕ
  | 0, i => i
  | fuel + 1, i => if size ≤ i then i else nextPowerLoop size fuel (i * 2)

def LONG_MAX : ℕ := 2 ^ 63 - 1

def dictNextPower (size : ℕ) : ℕ :=
  if LONG_MAX ≤ size then LONG_MAX + 1 else nextPowerLoop size 61 DICT_HT_INITIAL_SIZE

/-- A table of empty buckets, as `dictExpand` makes it. -/
def Dictht.new (realsize : ℕ) : Dictht K V :=
  ⟨List.replicate realsize [], realsize, BitVec.ofNat 64 (realsize - 1), 0⟩

/-- The first component is `true` for `DICT_OK`. `zcalloc` is asked for `realsize * 8` bytes modulo `2 ^ 64`, so that
from `2 ^ 61` buckets on the table is too short. -/
def dictExpand (d : Dict K V) (size : ℕ) : Option (Bool × Dict K V) :=
  if d.isRehashing ∨ size < d.ht0.used then some (false, d)
  else if dictNextPower size = d.ht0.size then some (false, d)
  else if 2 ^ 61 ≤ dictNextPower size then none
  -- the first table
  else if d.ht0.table.isEmpty then some (true, { d with ht0 := .new (dictNextPower size) })
  else some (true, { d with ht1 := .new (dictNextPower size), rehashidx := some 0 })

/-- `minimal` is an `int`. -/
def dictResize (canResize : Bool) (d : Dict K V) : Option (Bool × Dict K V) :=
  if !canResize ∨ d.isRehashing then some (false, d)
  else
    let minimal := (BitVec.ofNat 32 d.ht0.used).toInt
    dictExpand d (if minimal < DICT_HT_INITIAL_SIZE then DICT_HT_INITIAL_SIZE else minimal.toNat)

def dictExpandIfNeeded (canResize : Bool) (d : Dict K V) : Option (Bool × Dict K V) :=
  if d.isRehashing then some (true, d)
  else if d.ht0.size = 0 then dictExpand d DICT_HT_INITIAL_SIZE
  else if d.ht0.size ≤ d.ht0.used ∧ (canResize ∨ dict_force_resize_ratio < d.ht0.used / d.ht0.size) then
    dictExpand d (d.ht0.used * 2)
  else some (true, d)

/-! ## Rehashing -/

/-- Put an entry in front of the chain of its bucket. -/
def Dictht.push (t : Dictht K V) (index : ℕ) (de : DictEntry K V) : Option (Dictht K V) :=
  match t.table[index]? with
  | none => none
  | some chain => some { t with table := t.table.set index (de :: chain), used := t.used + 1 }

/-- The inner loop of `dictRehash` that goes on to a bucket with entries: the next index, and how many empty buckets
may still be visited; with 0 of them `dictRehash` returns 1. -/
def skipEmpty (table : List (List (DictEntry K V))) : ℕ → ℕ → Option (ℕ × ℕ)
  | 0, _ => none
  | emptyVisits + 1, rehashidx =>
    match table[rehashidx]? with
    | none => none
    | some (_ :: _) => some (rehashidx, emptyVisits + 1)
    | some [] => if emptyVisits = 0 then some (rehashidx + 1, 0) else skipEmpty table emptyVisits (rehashidx + 1)

section Hash

variable (hash : K → BitVec 64)

def moveEntry (d : Dict K V) (de : DictEntry K V) : Option (Dict K V) :=
  match d.ht1.push (d.ht1.index (hash de.key)) de with
  | none => none
  | some t => some { d with ht0 := { d.ht0 with used := d.ht0.used - 1 }, ht1 := t }

/-- The outer loop of `dictRehash`; `true` says that the function returns 1 in its middle. -/
def rehashLoop : ℕ → ℕ → ℕ → Dict K V → Option (Bool × Dict K V)
  | 0, _, rehashidx, d => some (false, { d with rehashidx := some rehashidx })
  | n + 1, emptyVisits, rehashidx, d =>
    if d.ht0.used = 0 then some (false, { d with rehashidx := some rehashidx })
    else if d.ht0.size ≤ rehashidx then none
    else
      match skipEmpty d.ht0.table emptyVisits rehashidx with
      | none => none
      | some (rehashidx, 0) => some (true, { d with rehashidx := some rehashidx })
      | some (rehashidx, emptyVisits + 1) =>
        match (d.ht0.table.getD rehashidx []).foldlM (moveEntry hash) d with
        | none => none
        | some d =>
          rehashLoop n (emptyVisits + 1) (rehashidx + 1)
            { d with ht0 := { d.ht0 with table := d.ht0.table.set rehashidx [] } }

/-- The first component says whether there is more to move. -/
def dictRehash (d : Dict K V) (n : ℕ) : Option (Bool × Dict K V) :=
  match d.rehashidx with
  | none => some (false, d)
  | some rehashidx =>
    match rehashLoop hash n (n * 10) rehashidx d with
    | none => none
    | some (true, d) => some (true, d)
    | some (false, d) =>
      if d.ht0.used = 0 then some (false, { d with ht0 := d.ht1, ht1 := .reset, rehashidx := none })
      else some (true, d)

def dictRehashStep (d : Dict K V) : Option (Dict K V) :=
  if d.iterators = 0 then (dictRehash hash d 1).map Prod.snd else some d

/-- What `dictAddRaw`, `dictGenericDelete` and `dictFind` begin with. -/
def stepIfRehashing (d : Dict K V) : Option (Dict K V) :=
  if d.isRehashing then dictRehashStep hash d else some d

/-! ## Entries -/

variable [DecidableEq K]

/-- A pointer to an entry: its table, its bucket and its place in the chain. -/
structure EntryRef (K V : Type) where
  second : Bool
  index : ℕ
  before : List (DictEntry K V)
  entry : DictEntry K V
  behind : List (DictEntry K V)

/-- The walk along a chain. -/
def findInChain (key : K) : List (DictEntry K V) → Option (List (DictEntry K V) × DictEntry K V × List (DictEntry K V))
  | [] => none
  | he :: chain =>
    if key = he.key then some ([], he, chain)
    else (findInChain key chain).map fun (before, entry, behind) => (he :: before, entry, behind)

def findInTable (d : Dict K V) (second : Bool) (key : K) : Option (Option (EntryRef K V)) :=
  let index := (d.ht second).index (hash key)
  match (d.ht second).table[index]? with
  | none => none
  | some chain =>
    some ((findInChain key chain).map fun (before, entry, behind) => ⟨second, index, before, entry, behind⟩)

/-- The loop over the tables. -/
def findInTables (d : Dict K V) (key : K) : Option (Option (EntryRef K V)) :=
  match findInTable hash d false key with
  | some none => if d.isRehashing then findInTable hash d true key else some none
  | found => found

def dictSetVal (d : Dict K V) (ref : EntryRef K V) (val : V) : Dict K V :=
  let t := d.ht ref.second
  d.setHt { t with table := t.table.set ref.index (ref.before ++ { ref.entry with val := some val } :: ref.behind) }
    ref.second

/-- The index for a new key, or the entry that has it already (`NULL` when the table could not be expanded). -/
def dictKeyIndex (canResize : Bool) (d : Dict K V) (key : K) : Option ((ℕ ⊕ Option (EntryRef K V)) × Dict K V) :=
  match dictExpandIfNeeded canResize d with
  | none => none
  | some (false, d) => some (.inr none, d)
  | some (true, d) =>
    match findInTables hash d key with
    | none => none
    | some (some existing) => some (.inr (some existing), d)
    | some none => some (.inl ((d.ht d.isRehashing).index (hash key)), d)

/-- The new entry, or what `existing` is set to. -/
def dictAddRaw (canResize : Bool) (d : Dict K V) (key : K) :
    Option ((EntryRef K V ⊕ Option (EntryRef K V)) × Dict K V) :=
  match stepIfRehashing hash d with
  | none => none
  | some d =>
    match dictKeyIndex hash canResize d key with
    | none => none
    | some (.inr existing, d) => some (.inr existing, d)
    | some (.inl index, d) =>
      let t := d.ht d.isRehashing
      match t.table[index]?, t.push index ⟨key, none⟩ with
      | some chain, some t' => some (.inl ⟨d.isRehashing, index, [], ⟨key, none⟩, chain⟩, d.setHt t' d.isRehashing)
      | _, _ => none

/-- `true` for `DICT_OK`. -/
def dictAdd (canResize : Bool) (d : Dict K V) (key : K) (val : V) : Option (Bool × Dict K V) :=
  match dictAddRaw hash canResize d key with
  | none => none
  | some (.inl entry, d) => some (true, dictSetVal d entry val)
  | some (.inr _, d) => some (false, d)

/-- `true` for 1: the key is new. -/
def dictReplace (canResize : Bool) (d : Dict K V) (key : K) (val : V) : Option (Bool × Dict K V) :=
  match dictAddRaw hash canResize d key with
  | none => none
  | some (.inl entry, d) => some (true, dictSetVal d entry val)
  | some (.inr none, _) => none
  | some (.inr (some existing), d) => some (false, dictSetVal d existing val)

def dictAddOrFind (canResize : Bool) (d : Dict K V) (key : K) : Option (Option (EntryRef K V) × Dict K V) :=
  match dictAddRaw hash canResize d key with
  | none => none
  | some (.inl entry, d) => some (some entry, d)
  | some (.inr existing, d) => some (existing, d)

/-- The entry that has been taken out of its chain. -/
def dictGenericDelete (d : Dict K V) (key : K) : Option (Option (DictEntry K V) × Dict K V) :=
  if d.ht0.used = 0 ∧ d.ht1.used = 0 then some (none, d)
  else
    match stepIfRehashing hash d with
    | none => none
    | some d =>
      match findInTables hash d key with
      | none => none
      | some none => some (none, d)
      | some (some ref) =>
        let t := d.ht ref.second
        some (some ref.entry,
          d.setHt { t with table := t.table.set ref.index (ref.before ++ ref.behind), used := t.used - 1 } ref.second)

/-- `true` for `DICT_OK`. -/
def dictDelete (d : Dict K V) (key : K) : Option (Bool × Dict K V) :=
  (dictGenericDelete hash d key).map fun (he, d) => (he.isSome, d)

def dictUnlink (d : Dict K V) (key : K) : Option (Option (DictEntry K V) × Dict K V) := dictGenericDelete hash d key

def dictFind (d : Dict K V) (key : K) : Option (Option (EntryRef K V) × Dict K V) :=
  if d.dictSize = 0 then some (none, d)
  else
    match stepIfRehashing hash d with
    | none => none
    | some d => (findInTables hash d key).map fun he => (he, d)

def dictFetchValue (d : Dict K V) (key : K) : Option (Option V × Dict K V) :=
  (dictFind hash d key).map fun (he, d) => (he.bind fun ref => ref.entry.val, d)

end Hash

/-- Both tables are cleared; freeing the entries is not modelled. -/
def dictEmpty (_ : Dict K V) : Dict K V := ⟨.reset, .reset, none, 0⟩

end GoodGoodStudy.Redis
