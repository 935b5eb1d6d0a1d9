/-
`LRUCache` refines the recency-ordered map: on every run of `get` and `put` calls from a fresh
cache the linked list, the dictionary and the size counter agree, and every `get` answers what the
bounded recency list answers.

The invariant is a list of locations, most recently used first: the heap links it between the
sentinels, the dictionary maps exactly the keys of its nodes to them, and its entries are those of
the abstract map.
-/
import GoodGoodStudy.Lru.Cache

namespace GoodGoodStudy.Lru

open GoodGoodStudy.Lib

namespace LRUCache

/-! ## What the pointer helpers do to a linked list -/

theorem removeNode_spec {c : LRUCache} {x : Loc} {xs ys : List Loc}
    (d : Linked c.links (c.head :: (xs ++ x :: (ys ++ [c.tail])))) :
    ∃ c', c.removeNode x = some c' ∧ SameData c c' ∧ Linked c'.links (c.head :: (xs ++ (ys ++ [c.tail]))) := by
  obtain ⟨p, n, hp, hn, hpx, -, d'⟩ := d.unlink_inner
  exact ⟨_, removeNode_eq hp hn hpx, ⟨rfl, rfl, rfl, rfl, rfl, rfl, by simp⟩, by simpa using d'⟩

theorem addnode_spec {c : LRUCache} {x : Loc} {ls : List Loc} (d : Linked c.links (c.head :: (ls ++ [c.tail])))
    (hx : x ∉ c.head :: (ls ++ [c.tail])) :
    ∃ c', c.addnode x = some c' ∧ SameData c c' ∧ Linked c'.links (c.head :: x :: (ls ++ [c.tail])) := by
  obtain ⟨n, v, hnv⟩ : ∃ n v, ls ++ [c.tail] = n :: v := by cases ls <;> exact ⟨_, _, rfl⟩
  rw [hnv] at d hx ⊢
  have hadj := d.adjacent (u := [])
  have hne : c.head ≠ x := fun e => hx (by simp [e])
  refine ⟨_, addnode_eq hadj.1 hne, ⟨rfl, rfl, rfl, rfl, rfl, rfl, by simp⟩, ?_⟩
  simpa using d.link (u := []) hx

theorem SameData.trans {a b c : LRUCache} (h : SameData a b) (h' : SameData b c) : SameData a c :=
  ⟨h'.capacity.trans h.capacity, h'.size.trans h.size, h'.head.trans h.head, h'.tail.trans h.tail,
    h'.cache.trans h.cache, h'.fresh.trans h.fresh, h'.entry.trans h.entry⟩

theorem moveToHead_spec {c : LRUCache} {x : Loc} {xs ys : List Loc}
    (d : Linked c.links (c.head :: (xs ++ x :: ys ++ [c.tail]))) :
    ∃ c', c.moveToHead x = some c' ∧ SameData c c' ∧ Linked c'.links (c.head :: (x :: (xs ++ ys) ++ [c.tail])) := by
  have d₀ : Linked c.links (c.head :: (xs ++ x :: (ys ++ [c.tail]))) := by simpa using d
  obtain ⟨c₁, h₁, s₁, d₁⟩ := removeNode_spec d₀
  have hx : x ∉ c.head :: (xs ++ (ys ++ [c.tail])) := by
    have hnd : ((c.head :: xs) ++ x :: (ys ++ [c.tail])).Nodup := by simpa using d₀.nodup
    obtain ⟨h₁, h₂, -⟩ := Linked.split_nodup hnd
    rw [← List.cons_append, List.mem_append, not_or]
    exact ⟨h₁, h₂⟩
  rw [← s₁.head, ← s₁.tail, ← List.append_assoc] at d₁ hx
  obtain ⟨c₂, h₂, s₂, d₂⟩ := addnode_spec d₁ hx
  refine ⟨c₂, by simp [moveToHead, h₁, h₂], s₁.trans s₂, ?_⟩
  rw [s₁.head, s₁.tail] at d₂
  simpa using d₂

/-! ## The invariant -/

/-- The nodes between the sentinels, most recently used first, as the heap links them and the
dictionary finds them. -/
structure Shape (c : LRUCache) (nodes : List Loc) : Prop where
  linked : Linked c.links (c.head :: (nodes ++ [c.tail]))
  cache : ∀ k l, c.cache.get? k = some l ↔ l ∈ nodes ∧ (c.entry l).1 = k
  alive : ∀ l ∈ c.head :: (nodes ++ [c.tail]), l < c.fresh

theorem Shape.nodup {c : LRUCache} {nodes : List Loc} (h : Shape c nodes) : nodes.Nodup :=
  (List.nodup_append.1 (List.nodup_cons.1 h.linked.nodup).2).1

/-- The cache holds the entries of the abstract map. -/
structure Represents {cap : Nat} (c : LRUCache) (r : Recency Int Int cap) (nodes : List Loc) : Prop where
  shape : Shape c nodes
  entries : nodes.map c.entry = r.entries
  size : c.size = nodes.length
  capacity : c.capacity = cap

theorem Represents.get?_eq_none {cap : Nat} {c : LRUCache} {r : Recency Int Int cap} {nodes : List Loc}
    (h : Represents c r nodes) {k : Int} (hk : c.cache.get? k = none) : k ∉ r.entries.map Prod.fst := by
  rw [← h.entries, List.map_map]
  intro hm
  obtain ⟨l, hl, hkl⟩ := List.mem_map.1 hm
  rw [(h.shape.cache k l).2 ⟨hl, hkl⟩] at hk
  cases hk

theorem Represents.lookup {cap : Nat} {c : LRUCache} {r : Recency Int Int cap} {nodes : List Loc}
    (h : Represents c r nodes) {k : Int} {l : Loc} (hk : c.cache.get? k = some l) :
    r.lookup k = some (c.entry l).2 := by
  obtain ⟨hl, rfl⟩ := (h.shape.cache k l).1 hk
  exact (Dict.lookup_eq_some r.nodupKeys).2 (h.entries ▸ List.mem_map.2 ⟨l, hl, rfl⟩)

/-! ## One call keeps the invariant -/

/-- Moving a node to the front, after its value was set to `v`. -/
theorem represents_moveToHead {cap : Nat} {c : LRUCache} {r : Recency Int Int cap} {nodes : List Loc}
    (h : Represents c r nodes) {k : Int} {l : Loc} (hk : c.cache.get? k = some l) (v : Int) :
    ∃ c' nodes', (c.setValue l v).moveToHead l = some c' ∧ Represents c' (r.put k v) nodes' ∧
      (c'.entry l).2 = v := by
  obtain ⟨hl, rfl⟩ := (h.shape.cache k l).1 hk
  obtain ⟨xs, ys, rfl⟩ := List.append_of_mem hl
  have hlinks : (c.setValue l v).links = c.links := by
    simp only [links, setValue, assign, Links.mk.injEq]
    constructor <;> funext m <;> by_cases hm : m = l <;> simp [hm]
  have hentry : (c.setValue l v).entry = Function.update c.entry l ((c.entry l).1, v) := by
    funext m
    by_cases hm : m = l <;> simp [entry, setValue, assign, hm]
  have hlinked : Linked (c.setValue l v).links ((c.setValue l v).head :: (xs ++ l :: ys ++ [(c.setValue l v).tail])) := by
    rw [hlinks]
    exact h.shape.linked
  obtain ⟨c', h', s, d⟩ := moveToHead_spec hlinked
  have hperm : (l :: (xs ++ ys)).Perm (xs ++ l :: ys) := List.perm_middle.symm
  have hkey : ∀ m, (c'.entry m).1 = (c.entry m).1 := fun m => by
    rw [s.entry, hentry]; by_cases hm : m = l <;> simp [hm]
  have hother : ∀ m ∈ xs ++ ys, c'.entry m = c.entry m := by
    intro m hm
    have hml : m ≠ l := by
      rintro rfl
      exact (List.nodup_cons.1 (hperm.nodup_iff.2 h.shape.nodup)).1 hm
    rw [s.entry, hentry, Function.update_of_ne hml]
  have hself : c'.entry l = ((c.entry l).1, v) := by rw [s.entry, hentry, Function.update_self]
  refine ⟨c', l :: (xs ++ ys), h', ⟨⟨?_, fun k m => ?_, fun m hm => ?_⟩, ?_, ?_, ?_⟩, by rw [hself]⟩
  · rw [s.head, s.tail]; exact d
  -- the dictionary is the same, and so are the keys and the set of the nodes
  · rw [s.cache, hperm.mem_iff, hkey]; exact h.shape.cache k m
  · rw [s.fresh]
    rw [s.head, s.tail] at hm
    refine h.shape.alive m ?_
    simp only [List.mem_cons, List.mem_append, List.cons_append] at hm ⊢
    rcases hm with hm | hm | hm | hm <;> tauto
  · have hr : r.entries = xs.map c.entry ++ ((c.entry l).1, (c.entry l).2) :: ys.map c.entry := by
      rw [← h.entries]; simp
    rw [Recency.put_entries_append r hr, List.map_cons, hself, List.map_congr_left hother, List.map_append]
  · rw [s.size, hperm.length_eq]; exact h.size
  · rw [s.capacity]; exact h.capacity

/-- A `get` that finds its key sets no value. -/
theorem setValue_self (c : LRUCache) (l : Loc) : c.setValue l (c.entry l).2 = c := by
  simp [setValue, assign, entry]

/-! ## A dictionary that finds nodes by their keys -/

section Index

variable {cache : Dict Int Loc} {nodes : List Loc} {f g : Loc → Int} {x : Loc}

/-- A new node, whose key the dictionary did not have. -/
theorem index_set {key : Int} (h : ∀ k l, cache.get? k = some l ↔ l ∈ nodes ∧ f l = k)
    (hkey : cache.get? key = none) (hx : g x = key) (hg : ∀ l ∈ nodes, g l = f l) (k : Int) (l : Loc) :
    (cache.set key x).get? k = some l ↔ l ∈ x :: nodes ∧ g l = k := by
  rw [Dict.get?_set, List.mem_cons]
  by_cases hk : k = key
  · subst hk
    rw [if_pos rfl]
    constructor
    · rintro ⟨rfl⟩; exact ⟨.inl rfl, hx⟩
    · rintro ⟨rfl | hl, he⟩
      · rfl
      · rw [hg l hl] at he
        rw [(h k l).2 ⟨hl, he⟩] at hkey
        cases hkey
  · rw [if_neg hk, h]
    constructor
    · rintro ⟨hl, he⟩; exact ⟨.inr hl, (hg l hl).trans he⟩
    · rintro ⟨rfl | hl, he⟩
      · exact absurd (he.symm.trans hx) hk
      · exact ⟨hl, (hg l hl).symm.trans he⟩

/-- The key of the last node is no other node's, since the dictionary finds one node for it. -/
theorem index_erase (h : ∀ k l, cache.get? k = some l ↔ l ∈ nodes ++ [x] ∧ f l = k) (hx : x ∉ nodes) (k : Int)
    (l : Loc) : (cache.erase (f x)).get? k = some l ↔ l ∈ nodes ∧ f l = k := by
  rw [Dict.get?_erase]
  by_cases hk : k = f x
  · subst hk
    simp only [if_true, reduceCtorEq, false_iff, not_and]
    intro hl he
    have hfind := (h (f x) x).2 ⟨by simp, rfl⟩
    rw [(h (f x) l).2 ⟨List.mem_append_left _ hl, he⟩] at hfind
    exact hx (Option.some.inj hfind ▸ hl)
  · rw [if_neg hk, h, List.mem_append, List.mem_singleton]
    constructor
    · rintro ⟨hl | rfl, he⟩
      · exact ⟨hl, he⟩
      · exact absurd he.symm hk
    · rintro ⟨hl, he⟩; exact ⟨.inl hl, he⟩

end Index

/-- Allocating and linking a node for a new key. -/
theorem shape_add {c : LRUCache} {nodes : List Loc} (h : Shape c nodes) {key : Int} (value : Int)
    (hk : c.cache.get? key = none) :
    let c₁ := { (c.newNode key value).2 with cache := c.cache.set key c.fresh }
    ∃ c', c₁.addnode c.fresh = some c' ∧ Shape c' (c.fresh :: nodes) ∧ c'.entry c.fresh = (key, value) ∧
      (∀ l ∈ nodes, c'.entry l = c.entry l) ∧ c'.size = c.size ∧ c'.capacity = c.capacity := by
  intro c₁
  have hlt : ∀ l ∈ c.head :: (nodes ++ [c.tail]), l ≠ c.fresh := fun l hl => (h.alive l hl).ne
  have hx : c.fresh ∉ c.head :: (nodes ++ [c.tail]) := fun hm => hlt _ hm rfl
  have hheap : ∀ l, l ≠ c.fresh → c₁.heap l = c.heap l := fun l hl => Function.update_of_ne hl ..
  have hnew : c₁.heap c.fresh = { key, value } := Function.update_self ..
  have d₁ : Linked c₁.links (c₁.head :: (nodes ++ [c₁.tail])) :=
    h.linked.congr (fun l hl => by simp only [links, hheap l (hlt l hl)])
      fun l hl => by simp only [links, hheap l (hlt l hl)]
  obtain ⟨c', h', s, d⟩ := addnode_spec d₁ hx
  have hother : ∀ l, l ≠ c.fresh → c'.entry l = c.entry l := fun l hl => by
    rw [s.entry]; simp only [entry, hheap l hl]
  have hself : c'.entry c.fresh = (key, value) := by rw [s.entry]; simp only [entry, hnew]
  have hin : ∀ l ∈ nodes, l ≠ c.fresh := fun l hl => hlt l (by simp [hl])
  refine ⟨c', h', ⟨?_, fun k l => ?_, fun l hl => ?_⟩, hself, fun l hl => hother l (hin l hl), s.size, s.capacity⟩
  · rw [s.head, s.tail]; exact d
  · rw [s.cache]
    exact index_set h.cache hk (congrArg Prod.fst hself) (fun l hl => congrArg Prod.fst (hother l (hin l hl))) k l
  · rw [s.fresh, show c₁.fresh = c.fresh + 1 from rfl]
    rw [s.head, s.tail] at hl
    have hl' : l = c.fresh ∨ l ∈ c.head :: (nodes ++ [c.tail]) := by
      simp only [List.mem_cons, List.cons_append] at hl ⊢
      rcases hl with hl | hl | hl
      · exact .inr (.inl hl)
      · exact .inl hl
      · exact .inr (.inr hl)
    rcases hl' with rfl | hl'
    · exact Nat.lt_succ_self _
    · exact Nat.lt_succ_of_lt (h.alive l hl')

/-- Unlinking the last node and deleting its key. -/
theorem shape_evict {c : LRUCache} {ns : List Loc} {z : Loc} (h : Shape c (ns ++ [z])) :
    ∃ c₁ c', c.removeTail = some (z, c₁) ∧ c₁.pop (c₁.heap z).key = some c' ∧ Shape c' ns ∧
      c'.entry = c.entry ∧ c'.size = c.size ∧ c'.capacity = c.capacity := by
  have d₀ : Linked c.links (c.head :: (ns ++ z :: ([] ++ [c.tail]))) := by simpa using h.linked
  have hadj := Linked.adjacent (u := c.head :: ns) (p := z) (n := c.tail) (v := []) (by simpa using d₀)
  obtain ⟨c₁, h₁, s, d⟩ := removeNode_spec d₀
  have hpre : (c.heap c.tail).pre = some z := hadj.2
  have hz : z ∉ ns := fun hm => (List.nodup_append.1 h.nodup).2.2 z hm z (by simp) rfl
  have hkey : (c₁.heap z).key = (c.entry z).1 := congrArg Prod.fst (congrFun s.entry z)
  have hfind : c.cache.get? (c.entry z).1 = some z := (h.cache _ z).2 ⟨by simp, rfl⟩
  have hcon : c₁.cache.contains (c.entry z).1 = true := by rw [s.cache, Dict.contains, hfind]; rfl
  refine ⟨c₁, { c₁ with cache := c₁.cache.erase (c.entry z).1 }, by simp [removeTail, hpre, h₁],
    by rw [hkey, pop, if_pos hcon], ⟨?_, fun k l => ?_, fun l hl => ?_⟩, s.entry, s.size, s.capacity⟩
  · rw [s.head, s.tail]; exact d
  · show (c₁.cache.erase (c.entry z).1).get? k = some l ↔ l ∈ ns ∧ (c₁.entry l).1 = k
    rw [s.cache, s.entry]
    exact index_erase (f := fun l => (c.entry l).1) h.cache hz k l
  · rw [s.fresh]
    rw [s.head, s.tail] at hl
    refine h.alive l ?_
    simp only [List.mem_cons, List.mem_append] at hl ⊢
    rcases hl with hl | hl | hl <;> tauto

/-- A `put` of a new key while there is room. -/
theorem put_room {c c₁ : LRUCache} {k : Int} (hk : c.cache.get? k = none) (v : Int)
    (h₁ : { (c.newNode k v).2 with cache := c.cache.set k c.fresh }.addnode c.fresh = some c₁)
    (hroom : ¬ c₁.size + 1 > c₁.capacity) : c.put k v = some { c₁ with size := c₁.size + 1 } := by
  simp only [put, hk, newNode] at h₁ ⊢
  simp only [Option.pure_def, Option.bind_eq_bind, h₁, Option.bind_some, if_neg hroom]

/-- A `put` of a new key that overflows the capacity. -/
theorem put_full {c c₁ c₂ c₃ : LRUCache} {k : Int} {z : Loc} (hk : c.cache.get? k = none) (v : Int)
    (h₁ : { (c.newNode k v).2 with cache := c.cache.set k c.fresh }.addnode c.fresh = some c₁)
    (hfull : c₁.size + 1 > c₁.capacity) (h₂ : { c₁ with size := c₁.size + 1 }.removeTail = some (z, c₂))
    (h₃ : c₂.pop (c₂.heap z).key = some c₃) : c.put k v = some { c₃ with size := c₃.size - 1 } := by
  simp only [put, hk, newNode] at h₁ ⊢
  simp only [Option.pure_def, Option.bind_eq_bind, h₁, Option.bind_some, if_pos hfull, h₂, h₃]

/-- A `put` of a new key. -/
theorem represents_put_new {cap : Nat} {c : LRUCache} {r : Recency Int Int cap} {nodes : List Loc}
    (h : Represents c r nodes) {k : Int} (hk : c.cache.get? k = none) (v : Int) :
    ∃ c' nodes', c.put k v = some c' ∧ Represents c' (r.put k v) nodes' := by
  obtain ⟨c₁, h₁, hs, hself, hother, hsize, hcap⟩ := shape_add h.shape v hk
  have hentries : (c.fresh :: nodes).map c₁.entry = (k, v) :: r.entries := by
    rw [List.map_cons, hself, List.map_congr_left hother, h.entries]
  have hput : (r.put k v).entries = ((c.fresh :: nodes).map c₁.entry).take cap := by
    rw [Recency.put_entries_of_not_mem r (h.get?_eq_none hk), hentries]
  have hle : nodes.length ≤ cap := by
    have := r.bounded
    rwa [← h.entries, List.length_map] at this
  have hfull : c₁.size + 1 > c₁.capacity ↔ nodes.length = cap := by
    rw [hsize, hcap, h.size, h.capacity]; omega
  by_cases hov : nodes.length = cap
  · -- the last of the nodes, with the new one in front of them, is evicted
    obtain ⟨ns, z, hns⟩ : ∃ ns z, c.fresh :: nodes = ns ++ [z] :=
      ⟨_, _, (List.dropLast_concat_getLast (List.cons_ne_nil c.fresh nodes)).symm⟩
    have hlen : ns.length = cap := by
      have := congrArg List.length hns
      simp only [List.length_cons, List.length_append, List.length_nil] at this
      omega
    have hs' : Shape { c₁ with size := c₁.size + 1 } (ns ++ [z]) := hns ▸ ⟨hs.linked, hs.cache, hs.alive⟩
    obtain ⟨c₂, c₃, h₂, h₃, hs₃, he₃, hz₃, hc₃⟩ := shape_evict hs'
    refine ⟨_, ns, put_full hk v h₁ (hfull.2 hov) h₂ h₃, ⟨⟨hs₃.linked, hs₃.cache, hs₃.alive⟩, ?_, ?_, ?_⟩⟩
    · show ns.map c₃.entry = _
      rw [he₃, hput, hns, ← List.map_take, List.take_left' hlen]; rfl
    · show c₃.size - 1 = _
      rw [hz₃]
      show c₁.size + 1 - 1 = _
      rw [hsize, h.size]; omega
    · show c₃.capacity = _
      rw [hc₃]; exact hcap.trans h.capacity
  · refine ⟨_, c.fresh :: nodes, put_room hk v h₁ (mt hfull.1 hov), ⟨⟨hs.linked, hs.cache, hs.alive⟩, ?_, ?_, ?_⟩⟩
    · rw [hput, List.take_of_length_le (by simp; omega)]; rfl
    · show c₁.size + 1 = _
      rw [hsize, h.size]; simp
    · exact hcap.trans h.capacity

/-! ## Runs -/

/-- The abstract cache: `get` answers the value of its key, or -1. -/
def spec {cap : Nat} (r : Recency Int Int cap) (op : CacheOp Int Int) : Recency Int Int cap × Option Int :=
  match op with
  | .get k => ((r.step (.get k)).1, some ((r.lookup k).getD (-1)))
  | .put k v => ((r.step (.put k v)).1, none)

theorem final_spec {cap : Nat} (r : Recency Int Int cap) (ops : List (CacheOp Int Int)) :
    final spec r ops = final Recency.step r ops := by
  unfold final
  congr 1
  funext t op
  cases op <;> rfl

/-- A `get` of a key that is held. -/
theorem represents_get {cap : Nat} {c : LRUCache} {r : Recency Int Int cap} {nodes : List Loc}
    (h : Represents c r nodes) (k : Int) :
    ∃ c' nodes', c.get k = some (c', (r.lookup k).getD (-1)) ∧ Represents c' (r.step (.get k)).1 nodes' := by
  cases hk : c.cache.get? k with
  | none =>
    have hl : r.lookup k = none := Dict.lookup_eq_none.2 (h.get?_eq_none hk)
    exact ⟨c, nodes, by simp [get, hk, hl], by simpa [Recency.step, hl] using h⟩
  | some l =>
    have hl := h.lookup hk
    obtain ⟨c', nodes', h', hr, hv⟩ := represents_moveToHead h hk (c.entry l).2
    rw [setValue_self] at h'
    have hv' : (c'.heap l).value = (c.entry l).2 := hv
    exact ⟨c', nodes', by simp [get, hk, h', hl, hv'], by simpa [Recency.step, hl] using hr⟩

/-- Every call answers as the abstract cache does and leads to a cache that represents it. -/
theorem step_refines {cap : Nat} (c : LRUCache) (r : Recency Int Int cap) (op : CacheOp Int Int)
    (h : ∃ nodes, Represents c r nodes) :
    ∃ c', c.step op = some (c', (spec r op).2) ∧ ∃ nodes, Represents c' (spec r op).1 nodes := by
  obtain ⟨nodes, h⟩ := h
  cases op with
  | get k =>
    obtain ⟨c', nodes', h', hr⟩ := represents_get h k
    exact ⟨c', by simp [step, h', spec], nodes', hr⟩
  | put k v =>
    cases hk : c.cache.get? k with
    | none =>
      obtain ⟨c', nodes', h', hr⟩ := represents_put_new h hk v
      exact ⟨c', by simp [step, h', spec], nodes', hr⟩
    | some l =>
      obtain ⟨c', nodes', h', hr, -⟩ := represents_moveToHead h hk v
      exact ⟨c', by simp [step, put, hk, h', spec], nodes', hr⟩

theorem represents_init (cap : Nat) : Represents (init cap) (Recency.empty : Recency Int Int cap) [] where
  shape :=
    { linked :=
        { chain := by simp [List.isChain_cons_cons, Adjacent, links, init, setNext, setPre, assign]
          nodup := by simp [init, setNext, setPre, assign]
          first := by simp [links, init, setNext, setPre, assign]
          last := by simp [links, init, setNext, setPre, assign] }
      cache := by simp [init, setNext, setPre, assign]
      alive := by simp [init, setNext, setPre, assign] }
  entries := rfl
  size := rfl
  capacity := rfl

/-- The parts of a cache agree on its nodes: both walks visit them between the sentinels, in
opposite orders; they are the values of the dictionary, each under its own key; and the counter is
their number, at most the capacity. -/
structure Consistent (c : LRUCache) (nodes : List Loc) : Prop where
  forward : Walk c.links.next c.head (c.head :: nodes ++ [c.tail])
  backward : Walk c.links.pre c.tail (c.head :: nodes ++ [c.tail]).reverse
  distinct : nodes.Nodup
  keyed : ∀ k l, (k, l) ∈ c.cache.items ↔ l ∈ nodes ∧ (c.heap l).key = k
  counted : c.size = nodes.length
  bounded : c.size ≤ c.capacity

theorem Represents.consistent {cap : Nat} {c : LRUCache} {r : Recency Int Int cap} {nodes : List Loc}
    (h : Represents c r nodes) : Consistent c nodes where
  forward := h.shape.linked.walk_next
  backward := by
    have hlinked : Linked c.links ((c.head :: nodes) ++ [c.tail]) := h.shape.linked
    exact hlinked.walk_pre
  distinct := h.shape.nodup
  keyed k l := by rw [← Dict.get?_eq_some]; exact h.shape.cache k l
  counted := h.size
  bounded := by
    have := r.bounded
    rw [← h.entries, List.length_map] at this
    rw [h.size, h.capacity]
    exact_mod_cast this

/-- `LRUCache` refines the recency-ordered map: no run of calls raises, after every run the parts
of the cache are consistent, the answers are those of the abstract list, and a further `get`
returns the value put last when the key is among the `capacity` most recently used ones and -1
otherwise. -/
theorem lru_refines_recency (capacity : Int) (hcap : 1 ≤ capacity) (ops : List (CacheOp Int Int)) :
    ∃ c, runOut step (init capacity) ops =
        some (c, outputs spec (Recency.empty : Recency Int Int capacity.toNat) ops) ∧
      c.capacity = capacity ∧ (∃ nodes, Consistent c nodes) ∧
      ∀ key, ∃ c', c.get key =
        some (c', if key ∈ (Recency.usedKeys capacity.toNat ops).take capacity.toNat
          then (Recency.latestPut ops key).getD (-1) else -1) := by
  obtain ⟨cap, rfl⟩ := Int.eq_ofNat_of_zero_le (by omega : 0 ≤ capacity)
  obtain ⟨c, hrun, nodes, hr⟩ := runOut_refines (R := fun c r => ∃ nodes, Represents c r nodes) step_refines ops
    ⟨[], represents_init cap⟩
  refine ⟨c, hrun, hr.capacity, ⟨nodes, hr.consistent⟩, fun key => ?_⟩
  obtain ⟨c', -, hget, -⟩ := represents_get hr key
  refine ⟨c', ?_⟩
  rw [hget, final_spec, Recency.lookup_final, Int.toNat_natCast]
  congr 2
  split <;> rfl

/-- Capacity 2: the third key evicts the least recently used one. -/
theorem lru_refines_recency_two :
    ∃ c, runOut step (init 2) [.put 1 10, .put 2 20, .get 1, .put 3 30] =
        some (c, outputs spec (Recency.empty : Recency Int Int 2) [.put 1 10, .put 2 20, .get 1, .put 3 30]) ∧
      c.capacity = 2 ∧ (∃ nodes, Consistent c nodes) ∧ (∃ c', c.get 2 = some (c', -1)) ∧ ∃ c', c.get 1 = some (c', 10) := by
  obtain ⟨c, hrun, hcap, hc, hget⟩ := lru_refines_recency 2 (by decide) [.put 1 10, .put 2 20, .get 1, .put 3 30]
  exact ⟨c, hrun, hcap, hc, hget 2, hget 1⟩

end LRUCache

end GoodGoodStudy.Lru
