/-
The Bloom filter: an item sets a bit for each of its hash values, and `check` asks for all of them. An item is
reported exactly when each of its bits was set for some item added before, so an item that was added always is.

The size and the number of hash functions, which the constructor computes from logarithms, are given; the hash
function of the third-party module is a parameter.
-/
import Mathlib.Data.List.Basic
import Mathlib.Data.Int.ModEq

namespace GoodGoodStudy.LeetCode

/-- What the constructor comes to. -/
structure FilterShape where
  size : Nat
  hashCount : Nat
  size_pos : 0 < size

/-- `bit_array`. -/
abbrev BloomFilter (shape : FilterShape) := Vector Bool shape.size

namespace BloomFilter

variable {Item : Type*} (hash : Item → Nat → Int) {shape : FilterShape}

/-- A new filter: `setall(0)`. -/
def new (shape : FilterShape) : BloomFilter shape := Vector.replicate shape.size false

/-- `mmh3.hash(item, i) % self.size`. -/
def digest (shape : FilterShape) (item : Item) (i : Nat) : Fin shape.size :=
  ⟨(hash item i % shape.size).toNat, by
    have hpos : (0 : Int) < shape.size := by exact_mod_cast shape.size_pos
    have hlt := Int.emod_lt_of_pos (hash item i) hpos
    omega⟩

/-- The loop of `add`, over the seeds. -/
def addFrom (item : Item) : List Nat → BloomFilter shape → BloomFilter shape
  | [], bits => bits
  | i :: seeds, bits => addFrom item seeds (bits.set (digest hash shape item i) true)

def add (bits : BloomFilter shape) (item : Item) : BloomFilter shape :=
  addFrom hash item (List.range shape.hashCount) bits

/-- The loop of `check`, over the seeds. -/
def checkFrom (item : Item) (bits : BloomFilter shape) : List Nat → Bool
  | [] => true
  | i :: seeds => if bits[digest hash shape item i] = false then false else checkFrom item bits seeds

def check (bits : BloomFilter shape) (item : Item) : Bool :=
  checkFrom hash item bits (List.range shape.hashCount)

/-! ## The bits that are set -/

/-- The bits of an item. -/
def Probes (shape : FilterShape) (item : Item) (k : Fin shape.size) : Prop :=
  ∃ i < shape.hashCount, digest hash shape item i = k

theorem getElem_addFrom (item : Item) (seeds : List Nat) (bits : BloomFilter shape) (k : Fin shape.size) :
    (addFrom hash item seeds bits)[k] = true ↔ bits[k] = true ∨ ∃ i ∈ seeds, digest hash shape item i = k := by
  induction seeds generalizing bits with
  | nil => simp [addFrom]
  | cons i seeds ih =>
    have hset : (bits.set (digest hash shape item i) true)[k] = true ↔
        bits[k] = true ∨ digest hash shape item i = k := by
      rw [Fin.getElem_fin, Fin.getElem_fin, Vector.getElem_set]
      split_ifs with hk
      · exact iff_of_true rfl (Or.inr (Fin.ext hk))
      · exact ⟨Or.inl, fun h => h.resolve_right fun he => hk (congrArg Fin.val he)⟩
    rw [addFrom, ih, hset, or_assoc]
    simp only [List.exists_mem_cons_iff]

/-- What `add` sets, and that it clears nothing. -/
theorem getElem_add (bits : BloomFilter shape) (item : Item) (k : Fin shape.size) :
    (add hash bits item)[k] = true ↔ bits[k] = true ∨ Probes hash shape item k := by
  unfold add Probes
  simp only [getElem_addFrom, List.mem_range]

theorem getElem_foldl_add (items : List Item) (bits : BloomFilter shape) (k : Fin shape.size) :
    (items.foldl (add hash) bits)[k] = true ↔ bits[k] = true ∨ ∃ item ∈ items, Probes hash shape item k := by
  induction items generalizing bits with
  | nil => simp
  | cons item items ih =>
    rw [List.foldl_cons, ih, getElem_add, or_assoc]
    simp only [List.exists_mem_cons_iff]

theorem checkFrom_iff (item : Item) (bits : BloomFilter shape) (seeds : List Nat) :
    checkFrom hash item bits seeds = true ↔ ∀ i ∈ seeds, bits[digest hash shape item i] = true := by
  induction seeds with
  | nil => simp [checkFrom]
  | cons i seeds ih =>
    rw [checkFrom, List.forall_mem_cons, ← ih]
    cases bits[digest hash shape item i] <;> simp

theorem check_iff (bits : BloomFilter shape) (item : Item) :
    check hash bits item = true ↔ ∀ k, Probes hash shape item k → bits[k] = true := by
  unfold check Probes
  simp only [checkFrom_iff, List.mem_range]
  exact ⟨fun h k ⟨i, hi, hk⟩ => hk ▸ h i hi, fun h i hi => h _ ⟨i, hi, rfl⟩⟩

/-- After any sequence of additions an item is reported exactly when each of its bits is a bit of some added item;
and an item that was added is reported. -/
theorem check_foldl_add_iff (items : List Item) :
    (∀ item, check hash (items.foldl (add hash) (new shape)) item = true ↔
      ∀ i < shape.hashCount, ∃ added ∈ items, ∃ j < shape.hashCount,
        digest hash shape added j = digest hash shape item i) ∧
      ∀ item ∈ items, check hash (items.foldl (add hash) (new shape)) item = true := by
  have hnew : ∀ k : Fin shape.size, (new shape)[k] = false := fun k => by simp [new]
  have hcheck : ∀ item, check hash (items.foldl (add hash) (new shape)) item = true ↔
      ∀ k, Probes hash shape item k → ∃ added ∈ items, Probes hash shape added k := by
    intro item
    simp only [check_iff, getElem_foldl_add, hnew, Bool.false_eq_true, false_or]
  refine ⟨fun item => (hcheck item).trans ?_, fun item hitem => (hcheck item).2 fun k hk => ⟨item, hitem, hk⟩⟩
  constructor
  · intro h i hi
    exact h _ ⟨i, hi, rfl⟩
  · rintro h k ⟨i, hi, rfl⟩
    exact h i hi

end BloomFilter

end GoodGoodStudy.LeetCode
