/-
Recency-ordered maps of bounded size: the entries, most recently used first, of a cache that drops
the least recently used entry when a new key overflows its capacity.

The second half reads the same object off the history of operations: the keys held are the
`cap` most recently used ones, and each holds the value put last under it.
-/
import Mathlib.Data.List.Induction
import Mathlib.Data.List.Nodup
import Mathlib.Data.List.Perm.Subperm
import GoodGoodStudy.Lib.Dict
import GoodGoodStudy.Lib.Run

namespace GoodGoodStudy.Lib

/-- At most `cap` entries with distinct keys, most recently used first. -/
structure Recency (κ υ : Type*) (cap : Nat) where
  entries : List (κ × υ)
  nodupKeys : (entries.map Prod.fst).Nodup
  bounded : entries.length ≤ cap

/-- The operations of a cache. -/
inductive CacheOp (κ υ : Type*) where
  | get (k : κ)
  | put (k : κ) (v : υ)

namespace Recency

variable {κ υ : Type*} {cap : Nat}

def empty : Recency κ υ cap := ⟨[], List.nodup_nil, Nat.zero_le _⟩

variable [DecidableEq κ]

/-- The entries with the one of `k` removed. -/
def without (k : κ) (l : List (κ × υ)) : List (κ × υ) := l.filter fun p => decide (p.1 ≠ k)

theorem keys_without (k : κ) (l : List (κ × υ)) :
    (without k l).map Prod.fst = (l.map Prod.fst).filter fun a => decide (a ≠ k) := by
  rw [List.filter_map]; rfl

theorem nodup_cons_without {l : List (κ × υ)} (hl : (l.map Prod.fst).Nodup) (k : κ) (v : υ) :
    (((k, v) :: without k l).map Prod.fst).Nodup := by
  rw [List.map_cons, keys_without]
  exact List.nodup_cons.2 ⟨by simp, hl.filter _⟩

def lookup (r : Recency κ υ cap) (k : κ) : Option υ := r.entries.lookup k

/-- Make `(k, v)` the most recent entry; an entry beyond the capacity is evicted. -/
def put (r : Recency κ υ cap) (k : κ) (v : υ) : Recency κ υ cap where
  entries := ((k, v) :: without k r.entries).take cap
  nodupKeys := (nodup_cons_without r.nodupKeys k v).sublist ((List.take_sublist _ _).map _)
  bounded := List.length_take_le _ _

/-- One operation and, for `get`, the value found. A `get` that finds its key makes it the most
recent one. -/
def step (r : Recency κ υ cap) : CacheOp κ υ → Recency κ υ cap × Option υ
  | .get k => match r.lookup k with
    | some v => (r.put k v, some v)
    | none => (r, none)
  | .put k v => (r.put k v, none)

theorem length_without_lt {l : List (κ × υ)} {k : κ} (hk : k ∈ l.map Prod.fst) :
    (without k l).length < l.length := by
  obtain ⟨p, hp, rfl⟩ := List.mem_map.1 hk
  exact List.length_filter_lt_length_iff_exists.2 ⟨p, hp, by simp⟩

/-- Putting a key that is held moves it to the front and evicts nothing. -/
theorem put_entries_of_mem (r : Recency κ υ cap) {k : κ} (hk : k ∈ r.entries.map Prod.fst) (v : υ) :
    (r.put k v).entries = (k, v) :: without k r.entries := by
  have h1 := length_without_lt hk
  have h2 := r.bounded
  exact List.take_of_length_le (by rw [List.length_cons]; omega)

theorem without_eq_self {l : List (κ × υ)} {k : κ} (hk : k ∉ l.map Prod.fst) : without k l = l :=
  List.filter_eq_self.2 fun p hp => by
    simp only [ne_eq, decide_eq_true_eq]
    rintro rfl
    exact hk (List.mem_map.2 ⟨p, hp, rfl⟩)

theorem put_entries_of_not_mem (r : Recency κ υ cap) {k : κ} (hk : k ∉ r.entries.map Prod.fst) (v : υ) :
    (r.put k v).entries = ((k, v) :: r.entries).take cap := by
  simp only [put, without_eq_self hk]

/-- Putting a key held between two parts of the entries. -/
theorem put_entries_append (r : Recency κ υ cap) {as bs : List (κ × υ)} {k : κ} {w : υ}
    (hr : r.entries = as ++ (k, w) :: bs) (v : υ) : (r.put k v).entries = (k, v) :: (as ++ bs) := by
  have hnd := r.nodupKeys
  rw [hr, List.map_append, List.map_cons, List.nodup_append, List.nodup_cons] at hnd
  obtain ⟨-, ⟨hb, -⟩, ha⟩ := hnd
  have ha' : k ∉ as.map Prod.fst := fun hm => ha k hm k List.mem_cons_self rfl
  have hw : without k ((k, w) :: bs) = bs := by
    have : without k ((k, w) :: bs) = without k bs := List.filter_cons_of_neg (by simp)
    rw [this, without_eq_self hb]
  rw [put_entries_of_mem r (by rw [hr]; simp), hr]
  have : without k (as ++ (k, w) :: bs) = without k as ++ without k ((k, w) :: bs) := List.filter_append ..
  rw [this, without_eq_self ha', hw]

/-! ## Reading the map off the history -/

/-- Make `k` the most recent key. -/
def touch (k : κ) (ks : List κ) : List κ := k :: ks.filter fun a => decide (a ≠ k)

/-- A `put` uses its key; a `get` uses its key when it is among the `cap` most recent ones. -/
def useKey (cap : Nat) (ks : List κ) : CacheOp κ υ → List κ
  | .get k => if k ∈ ks.take cap then touch k ks else ks
  | .put k _ => touch k ks

/-- The keys used so far, most recently used first. -/
def usedKeys (cap : Nat) (ops : List (CacheOp κ υ)) : List κ := ops.foldl (useKey cap) []

/-- The value put last under `k`. -/
def latestPut (ops : List (CacheOp κ υ)) (k : κ) : Option υ :=
  match ops.reverse.find? fun op => match op with
    | .get _ => false
    | .put a _ => decide (a = k) with
  | some (.put _ v) => some v
  | _ => none

theorem usedKeys_concat (cap : Nat) (ops : List (CacheOp κ υ)) (op : CacheOp κ υ) :
    usedKeys cap (ops ++ [op]) = useKey cap (usedKeys cap ops) op := List.foldl_concat ..

theorem latestPut_concat_get (ops : List (CacheOp κ υ)) (a k : κ) :
    latestPut (ops ++ [.get a]) k = latestPut ops k := by
  unfold latestPut; rw [List.reverse_append]; rfl

theorem latestPut_concat_put (ops : List (CacheOp κ υ)) (a k : κ) (v : υ) :
    latestPut (ops ++ [.put a v]) k = if a = k then some v else latestPut ops k := by
  unfold latestPut
  rw [List.reverse_append, List.reverse_singleton, List.singleton_append, List.find?_cons]
  by_cases ha : a = k <;> simp [ha]

theorem touch_nodup {ks : List κ} (h : ks.Nodup) (k : κ) : (touch k ks).Nodup :=
  List.nodup_cons.2 ⟨by simp, h.filter _⟩

theorem take_filter_take {ks : List κ} (h : ks.Nodup) (k : κ) (n : Nat) :
    ((ks.take (n + 1)).filter fun a => decide (a ≠ k)).take n = (ks.filter fun a => decide (a ≠ k)).take n := by
  by_cases hlen : ks.length ≤ n + 1
  · rw [List.take_of_length_le hlen]
  · -- of the first `n + 1` keys, which are distinct, the filter drops at most one
    have hlong : n ≤ ((ks.take (n + 1)).filter fun a => decide (a ≠ k)).length := by
      have hnd : (ks.take (n + 1)).Nodup := h.sublist (List.take_sublist _ _)
      have herase : ((ks.take (n + 1)).filter fun a => decide (a ≠ k)) = (ks.take (n + 1)).erase k := by
        rw [hnd.erase_eq_filter]
        exact List.filter_congr fun a _ => by by_cases ha : a = k <;> simp [ha]
      have hl : (ks.take (n + 1)).length = n + 1 := by rw [List.length_take]; omega
      rw [herase, List.length_erase]
      split <;> omega
    conv_rhs => rw [← List.take_append_drop (n + 1) ks, List.filter_append]
    rw [List.take_append_of_le_length hlong]

/-- Touching a key commutes with keeping the `cap` most recent ones. -/
theorem take_touch_take {ks : List κ} (h : ks.Nodup) (k : κ) (cap : Nat) :
    (touch k (ks.take cap)).take cap = (touch k ks).take cap := by
  cases cap with
  | zero => rfl
  | succ n => simp only [touch, List.take_succ_cons, take_filter_take h]

/-- The entries agree with the history `ks` of used keys and the last values `o`. -/
structure Reads (r : Recency κ υ cap) (ks : List κ) (o : κ → Option υ) : Prop where
  nodup : ks.Nodup
  keys : r.entries.map Prod.fst = ks.take cap
  value : ∀ k ∈ ks.take cap, r.lookup k = o k

theorem lookup_take {l : List (κ × υ)} {n : Nat} {k : κ} (hl : (l.map Prod.fst).Nodup)
    (hk : k ∈ (l.take n).map Prod.fst) : (l.take n).lookup k = l.lookup k := by
  obtain ⟨⟨k', v⟩, hp, rfl⟩ := List.mem_map.1 hk
  have hl' : ((l.take n).map Prod.fst).Nodup := hl.sublist ((List.take_sublist _ _).map _)
  rw [(Dict.lookup_eq_some hl').2 hp, (Dict.lookup_eq_some hl).2 ((List.take_sublist _ _).subset hp)]

theorem Reads.put {r : Recency κ υ cap} {ks : List κ} {o : κ → Option υ} (h : Reads r ks o) (k : κ) (v : υ) :
    Reads (r.put k v) (touch k ks) fun a => if k = a then some v else o a := by
  have hkeys : (r.put k v).entries.map Prod.fst = (touch k ks).take cap := by
    rw [← take_touch_take h.nodup, ← h.keys, Recency.put, List.map_take, List.map_cons, keys_without]; rfl
  refine ⟨touch_nodup h.nodup k, hkeys, fun a ha => ?_⟩
  have hnd := nodup_cons_without r.nodupKeys k v
  rw [← hkeys] at ha
  have hlook : (r.put k v).lookup a = ((k, v) :: without k r.entries).lookup a := lookup_take hnd ha
  rw [hlook, List.lookup_cons]
  by_cases hka : a = k
  · simp [hka]
  · have hmem : a ∈ ks.take cap := by
      have := (List.take_sublist _ _).subset (hkeys ▸ ha)
      rw [← take_touch_take h.nodup] at hkeys
      rw [hkeys] at ha
      have ha' := (List.take_sublist _ _).subset ha
      rw [touch, List.mem_cons, List.mem_filter] at ha'
      exact (ha'.resolve_left hka).1
    rw [beq_eq_false_iff_ne.2 hka]
    simp only [Ne.symm hka, if_false]
    rw [← h.value a hmem]
    exact Dict.lookup_filter r.entries k a ▸ by simp [hka, lookup]

theorem Reads.congr {r : Recency κ υ cap} {ks : List κ} {o o' : κ → Option υ} (h : Reads r ks o)
    (ho : ∀ a, o a = o' a) : Reads r ks o' :=
  ⟨h.nodup, h.keys, fun k hk => (h.value k hk).trans (ho k)⟩

theorem lookup_mem {r : Recency κ υ cap} {k : κ} {v : υ} (h : r.lookup k = some v) : (k, v) ∈ r.entries :=
  (Dict.lookup_eq_some r.nodupKeys).1 h

/-- After any history the entries are the `cap` most recently used keys with their last values. -/
theorem reads_final (ops : List (CacheOp κ υ)) :
    Reads (final step (empty : Recency κ υ cap) ops) (usedKeys cap ops) (latestPut ops) := by
  induction ops using List.reverseRecOn with
  | nil => exact ⟨List.nodup_nil, by simp [final, empty, usedKeys], by simp [usedKeys]⟩
  | append_singleton ops op ih =>
    rw [usedKeys_concat, final_append]
    generalize final step (empty : Recency κ υ cap) ops = r at ih
    generalize usedKeys cap ops = ks at ih
    cases op with
    | put k v => exact (ih.put k v).congr fun a => (latestPut_concat_put ops k a v).symm
    | get k =>
      -- a key that is found is put again with its value, which is the one put last
      have ho : ∀ a, latestPut ops a = latestPut (ops ++ [.get k]) a := fun a => (latestPut_concat_get ops k a).symm
      simp only [final, List.foldl_cons, List.foldl_nil, step, useKey]
      cases hv : r.lookup k with
      | some v =>
        have hk : k ∈ ks.take cap := ih.keys ▸ List.mem_map.2 ⟨_, lookup_mem hv, rfl⟩
        have hlast : latestPut ops k = some v := (ih.value k hk).symm.trans hv
        rw [if_pos hk]
        refine (ih.put k v).congr fun a => ?_
        rw [← ho a]
        split
        · rename_i hka; rw [← hka, hlast]
        · rfl
      | none =>
        have hk : k ∉ ks.take cap := ih.keys ▸ Dict.lookup_eq_none.1 hv
        rw [if_neg hk]
        exact ih.congr ho

/-- What a lookup finds after any history. -/
theorem lookup_final (ops : List (CacheOp κ υ)) (k : κ) :
    (final step (empty : Recency κ υ cap) ops).lookup k =
      if k ∈ (usedKeys cap ops).take cap then latestPut ops k else none := by
  have h : Reads (final step (empty : Recency κ υ cap) ops) (usedKeys cap ops) (latestPut ops) := reads_final ops
  split
  · rename_i hk; exact h.value k hk
  · rename_i hk; exact Dict.lookup_eq_none.2 (h.keys ▸ hk)

end Recency

end GoodGoodStudy.Lib
