/-
The invariant of `dict.c`, and what the rehash and the changes of size keep: each entry stands in the bucket of its
hash, `used` counts the entries, and the buckets that the rehash has passed are empty.
-/
import GoodGoodStudy.Redis.Dict

namespace GoodGoodStudy.Redis

open GoodGoodStudy.Lib

variable {K V : Type}

/-! ## The invariant -/

/-- A table of `2 ^ m` buckets. -/
structure Dictht.Ok (hash : K → BitVec 64) (t : Dictht K V) (m : ℕ) : Prop where
  m_le : m ≤ 63
  size : t.size = 2 ^ m
  length : t.table.length = 2 ^ m
  mask : t.sizemask = Cursor.low 64 m
  used : t.used = t.table.flatten.length
  placed : Placed (fun e => t.index (hash e.key)) t.table

/-- A rehash under way, the buckets before the index are moved. -/
structure Dict.Moving (hash : K → BitVec 64) (d : Dict K V) (rehashidx : ℕ) : Prop where
  ht0 : ∃ m, d.ht0.Ok hash m
  ht1 : ∃ m, d.ht1.Ok hash m
  size_ne : d.ht0.size ≠ d.ht1.size
  idx_le : rehashidx ≤ d.ht0.size
  moved : ∀ i < rehashidx, d.ht0.table[i]? = some []

inductive Dict.Shape (hash : K → BitVec 64) (d : Dict K V) : Prop
  | empty (h0 : d.ht0 = .reset) (h1 : d.ht1 = .reset) (hidx : d.rehashidx = none)
  | single (h0 : ∃ m, d.ht0.Ok hash m) (h1 : d.ht1 = .reset) (hidx : d.rehashidx = none)
  | moving (r : ℕ) (h : d.Moving hash r) (hlt : r < d.ht0.size) (hidx : d.rehashidx = some r)

def Dict.entries (d : Dict K V) : List (DictEntry K V) := d.ht0.table.flatten ++ d.ht1.table.flatten

structure Dict.Ok (hash : K → BitVec 64) (d : Dict K V) : Prop where
  shape : d.Shape hash
  nodup : (d.entries.map DictEntry.key).Nodup

variable {hash : K → BitVec 64} {t : Dictht K V} {d : Dict K V} {m : ℕ}

theorem dictCreate_ok : (dictCreate : Dict K V).Ok hash := ⟨.empty rfl rfl rfl, List.nodup_nil⟩

theorem Dict.Shape.setIterators (h : d.Shape hash) (n : ℕ) : Dict.Shape hash { d with iterators := n } := by
  cases h with
  | empty h0 h1 hidx => exact .empty h0 h1 hidx
  | single h0 h1 hidx => exact .single h0 h1 hidx
  | moving r h hlt hidx => exact .moving r ⟨h.ht0, h.ht1, h.size_ne, h.idx_le, h.moved⟩ hlt hidx

namespace Dictht

theorem Ok.index_lt (h : t.Ok hash m) (u : BitVec 64) : t.index u < t.table.length := by
  rw [h.length, index, h.mask, BitVec.toNat_and]
  have hmask : (Cursor.low 64 m).toNat = 2 ^ m - 1 := by
    have hpow : 2 ^ m ≤ 2 ^ 63 := Nat.pow_le_pow_right Nat.two_pos h.m_le
    rw [Cursor.low, BitVec.toNat_ofNat, Nat.mod_eq_of_lt (by omega)]
  rw [hmask]
  have hand : u.toNat &&& (2 ^ m - 1) ≤ 2 ^ m - 1 := Nat.and_le_right
  have hpos := Nat.two_pow_pos m
  omega

/-- The bucket of a hash can be read. -/
theorem Ok.chain (h : t.Ok hash m) (u : BitVec 64) : ∃ chain, t.table[t.index u]? = some chain :=
  ⟨_, List.getElem?_eq_getElem (h.index_lt u)⟩

/-- Every bucket that is written with entries of its own keeps the table in order. -/
theorem Ok.set (h : t.Ok hash m) {i : ℕ} {chain chain' : List (DictEntry K V)} {used' : ℕ}
    (hi : t.table[i]? = some chain)
    (hplace : ∀ e ∈ chain', t.index (hash e.key) = i) (hused : used' + chain.length = t.used + chain'.length) :
    Ok hash { t with table := t.table.set i chain', used := used' } m where
  m_le := h.m_le
  size := h.size
  length := (List.length_set).trans h.length
  mask := h.mask
  used := by
    obtain ⟨rest, hold, hnew⟩ := flatten_set_perm hi
    have hlen := (hnew chain').length_eq
    have hlen' := hold.length_eq
    rw [List.length_append] at hlen hlen'
    have := h.used
    show used' = (t.table.set i chain').flatten.length
    omega
  placed := h.placed.set hplace

theorem Ok.push (h : t.Ok hash m) (e : DictEntry K V) :
    ∃ t', t.push (t.index (hash e.key)) e = some t' ∧ t'.Ok hash m ∧ t'.table.flatten.Perm (e :: t.table.flatten) := by
  obtain ⟨chain, hchain⟩ := h.chain (hash e.key)
  obtain ⟨rest, hold, hnew⟩ := flatten_set_perm hchain
  refine ⟨_, by rw [Dictht.push, hchain], h.set hchain ?_ (by rw [List.length_cons]; omega), ?_⟩
  · intro e' he'
    rcases List.mem_cons.1 he' with rfl | he'
    · rfl
    · exact h.placed _ chain hchain e' he'
  · exact (hnew (e :: chain)).trans (List.Perm.cons e hold.symm)

/-- A new table. -/
theorem Ok.new (hm : m ≤ 63) : Ok hash (Dictht.new (2 ^ m) : Dictht K V) m where
  m_le := hm
  size := rfl
  length := List.length_replicate
  mask := rfl
  used := by simp [Dictht.new]
  placed := placed_replicate _

@[simp] theorem flatten_new (n : ℕ) : (Dictht.new n : Dictht K V).table.flatten = [] := by simp [Dictht.new]

theorem Ok.used_eq_zero (h : t.Ok hash m) : t.used = 0 ↔ t.table.flatten = [] := by
  rw [h.used, List.length_eq_zero_iff]

/-- A table with entries has a bucket with entries. -/
theorem Ok.exists_chain (h : t.Ok hash m) (hused : t.used ≠ 0) :
    ∃ (i : ℕ) (chain : List (DictEntry K V)), t.table[i]? = some chain ∧ chain ≠ [] := by
  rw [Ne, h.used_eq_zero, List.flatten_eq_nil_iff] at hused
  push Not at hused
  obtain ⟨chain, hmem, hne⟩ := hused
  obtain ⟨i, hi⟩ := List.getElem?_of_mem hmem
  exact ⟨i, chain, hi, hne⟩

end Dictht

namespace Dict

theorem Ok.dictSize_eq (h : d.Ok hash) : d.dictSize = d.entries.length := by
  rw [dictSize, entries, List.length_append]
  cases h.shape with
  | empty h0 h1 _ => rw [h0, h1]; rfl
  | single h0 h1 _ =>
    obtain ⟨m, h0⟩ := h0
    rw [h0.used, h1]; rfl
  | moving r h _ _ =>
    obtain ⟨m, h0⟩ := h.ht0
    obtain ⟨m', h1⟩ := h.ht1
    rw [h0.used, h1.used]

theorem used_le (d : Dict K V) : d.ht0.used ≤ d.dictSize := Nat.le_add_right _ _

/-- A first table that has entries left has them at the index or behind it. -/
theorem Moving.exists_chain {r : ℕ} (h : d.Moving hash r) (hused : d.ht0.used ≠ 0) :
    ∃ (j : ℕ) (chain : List (DictEntry K V)), d.ht0.table[j]? = some chain ∧ chain ≠ [] ∧ r ≤ j ∧ j < d.ht0.size := by
  obtain ⟨m, h0⟩ := h.ht0
  obtain ⟨j, chain, hj, hne⟩ := h0.exists_chain hused
  refine ⟨j, chain, hj, hne, Nat.le_of_not_lt fun hlt => ?_, ?_⟩
  · rw [h.moved j hlt] at hj
    cases hj
    exact hne rfl
  · rw [h0.size, ← h0.length]
    exact (List.getElem?_eq_some_iff.1 hj).1

end Dict

/-! ## Rehashing -/

theorem skipEmpty_spec {table : List (List (DictEntry K V))} {j : ℕ} {chain : List (DictEntry K V)}
    (hj : table[j]? = some chain) (hne : chain ≠ []) : ∀ {emptyVisits idx : ℕ}, emptyVisits ≠ 0 → idx ≤ j →
      ∃ idx' left, skipEmpty table emptyVisits idx = some (idx', left) ∧ idx ≤ idx' ∧ idx' ≤ j ∧
        (left = 0 → idx < idx') ∧ ∀ i, idx ≤ i → i < idx' → table[i]? = some []
  | 0, _, h, _ => absurd rfl h
  | emptyVisits + 1, idx, _, hidx => by
    have hlt : idx < table.length := lt_of_le_of_lt hidx (List.getElem?_eq_some_iff.1 hj).1
    rw [skipEmpty, List.getElem?_eq_getElem hlt]
    cases hb : table[idx] with
    | cons e b => exact ⟨idx, emptyVisits + 1, rfl, le_rfl, hidx, fun h => absurd h (Nat.succ_ne_zero _),
        fun i hi hi' => absurd hi' (Nat.not_lt.2 hi)⟩
    | nil =>
      have hempty : table[idx]? = some [] := by rw [List.getElem?_eq_getElem hlt, hb]
      have hlt' : idx < j := by
        refine lt_of_le_of_ne hidx fun heq => hne ?_
        rw [heq, hj] at hempty
        exact Option.some.inj hempty
      show ∃ idx' left, (if emptyVisits = 0 then _ else _) = some (idx', left) ∧ _
      split_ifs with hz
      · refine ⟨idx + 1, 0, rfl, Nat.le_succ idx, hlt', fun _ => Nat.lt_succ_self idx, fun i hi hi' => ?_⟩
        rw [Nat.le_antisymm (Nat.lt_succ_iff.1 hi') hi, hempty]
      · obtain ⟨idx', left, hrun, hle, hle', _, hskip⟩ := skipEmpty_spec hj hne hz hlt'
        refine ⟨idx', left, hrun, by omega, hle', fun _ => by omega, fun i hi hi' => ?_⟩
        rcases Nat.eq_or_lt_of_le hi with rfl | hi
        · exact hempty
        · exact hskip i hi hi'

theorem foldlM_moveEntry : ∀ (chain : List (DictEntry K V)) {d : Dict K V}, d.ht1.Ok hash m →
    ∃ t, chain.foldlM (moveEntry hash) d =
        some { d with ht0 := { d.ht0 with used := d.ht0.used - chain.length }, ht1 := t } ∧
      t.Ok hash m ∧ t.table.flatten.Perm (chain ++ d.ht1.table.flatten)
  | [], d, h => ⟨d.ht1, rfl, h, List.Perm.refl _⟩
  | e :: chain, d, h => by
    obtain ⟨t, hpush, ht, hperm⟩ := h.push e
    have hmove : moveEntry hash d e = some { d with ht0 := { d.ht0 with used := d.ht0.used - 1 }, ht1 := t } := by
      rw [moveEntry, hpush]
    obtain ⟨t', hrun, ht', hperm'⟩ := foldlM_moveEntry chain
      (d := { d with ht0 := { d.ht0 with used := d.ht0.used - 1 }, ht1 := t }) ht
    refine ⟨t', ?_, ht', ?_⟩
    · rw [List.foldlM_cons, hmove]
      show chain.foldlM (moveEntry hash) _ = _
      rw [hrun, List.length_cons, Nat.add_comm, ← Nat.sub_sub]
    · calc t'.table.flatten.Perm (chain ++ t.table.flatten) := hperm'
        _ |>.Perm (chain ++ e :: d.ht1.table.flatten) := hperm.append_left chain
        _ |>.Perm (e :: chain ++ d.ht1.table.flatten) := List.perm_middle

/-- One bucket is moved. -/
theorem Dict.Moving.moveBucket {r j : ℕ} (h : d.Moving hash r) (hj : j < d.ht0.size)
    (hskip : ∀ i, r ≤ i → i < j → d.ht0.table[i]? = some []) :
    ∃ d' : Dict K V, (d.ht0.table.getD j []).foldlM (moveEntry hash) d = some d' ∧
      Dict.Moving hash { d' with ht0 := { d'.ht0 with table := d'.ht0.table.set j [] } } (j + 1) ∧
      (Dict.entries { d' with ht0 := { d'.ht0 with table := d'.ht0.table.set j [] } }).Perm d.entries ∧
      d'.iterators = d.iterators ∧ d'.ht0.size = d.ht0.size := by
  obtain ⟨m, h0⟩ := h.ht0
  obtain ⟨m', h1⟩ := h.ht1
  have hlt : j < d.ht0.table.length := by rwa [h0.length, ← h0.size]
  have hget : d.ht0.table[j]? = some (d.ht0.table.getD j []) := by
    rw [List.getD_eq_getElem?_getD, List.getElem?_eq_getElem hlt, Option.getD_some]
  obtain ⟨rest, hold, hnew⟩ := flatten_set_perm hget
  obtain ⟨t, hrun, ht, hperm⟩ := foldlM_moveEntry (d.ht0.table.getD j []) h1
  have hlen := hold.length_eq
  rw [List.length_append, ← h0.used] at hlen
  have hused : d.ht0.used - (d.ht0.table.getD j []).length + (d.ht0.table.getD j []).length =
      d.ht0.used + ([] : List (DictEntry K V)).length := by
    rw [List.length_nil]
    omega
  refine ⟨_, hrun, ⟨⟨m, h0.set hget (fun _ he => nomatch he) hused⟩, ⟨m', ht⟩, ?_, hj, ?_⟩, ?_, rfl, rfl⟩
  · show d.ht0.size ≠ t.size
    rw [ht.size, ← h1.size]
    exact h.size_ne
  · intro i hi
    show (d.ht0.table.set j [])[i]? = some []
    rw [List.getElem?_set]
    split_ifs with hij
    · rfl
    · rcases Nat.lt_or_ge i r with hir | hir
      · exact h.moved i hir
      · exact hskip i hir (by omega)
  · show ((d.ht0.table.set j []).flatten ++ t.table.flatten).Perm (d.ht0.table.flatten ++ d.ht1.table.flatten)
    calc ((d.ht0.table.set j []).flatten ++ t.table.flatten).Perm
          (rest ++ (d.ht0.table.getD j [] ++ d.ht1.table.flatten)) := (hnew []).append hperm
      _ |>.Perm (d.ht0.table.getD j [] ++ rest ++ d.ht1.table.flatten) := by
          rw [List.append_assoc]
          exact List.perm_append_comm_assoc _ _ _
      _ |>.Perm (d.ht0.table.flatten ++ d.ht1.table.flatten) := hold.symm.append_right _

/-- The loop goes on from bucket to bucket; it leaves the entries as they are. -/
theorem rehashLoop_spec : ∀ {n v r : ℕ} {d : Dict K V}, d.Moving hash r → (n ≠ 0 → v ≠ 0) →
    ∃ early d' r', rehashLoop hash n v r d = some (early, d') ∧ d'.Moving hash r' ∧ d'.rehashidx = some r' ∧
      d'.entries.Perm d.entries ∧ d'.iterators = d.iterators ∧ (early = true → d'.ht0.used ≠ 0) ∧
      d'.ht0.size = d.ht0.size ∧ r ≤ r' ∧ (n ≠ 0 → d'.ht0.used ≠ 0 → r < r')
  | 0, _, r, d, h, _ =>
    ⟨false, { d with rehashidx := some r }, r, rfl, ⟨h.ht0, h.ht1, h.size_ne, h.idx_le, h.moved⟩, rfl, List.Perm.refl _,
      rfl, fun he => absurd he Bool.false_ne_true, rfl, le_rfl, fun h => absurd rfl h⟩
  | n + 1, emptyVisits, r, d, h, hev => by
    rw [rehashLoop]
    split_ifs with hused hsize
    · exact ⟨false, { d with rehashidx := some r }, r, rfl, ⟨h.ht0, h.ht1, h.size_ne, h.idx_le, h.moved⟩, rfl,
        List.Perm.refl _, rfl, fun he => absurd he Bool.false_ne_true, rfl, le_rfl, fun _ h => absurd hused h⟩
    · obtain ⟨j, _, _, _, hrj, hj⟩ := h.exists_chain hused
      omega
    · obtain ⟨j, chain, hj, hne, hrj, hjlt⟩ := h.exists_chain hused
      obtain ⟨idx, left, hskip, hle, hle', hleft, hempty⟩ := skipEmpty_spec hj hne (hev (Nat.succ_ne_zero n)) hrj
      rw [hskip]
      cases left with
      | zero =>
        refine ⟨true, { d with rehashidx := some idx }, idx, rfl, ⟨h.ht0, h.ht1, h.size_ne, ?_, ?_⟩, rfl,
          List.Perm.refl _, rfl, fun _ => hused, rfl, hle,
          fun _ _ => hleft rfl⟩
        · exact (lt_of_le_of_lt hle' hjlt).le
        · intro i hi
          rcases Nat.lt_or_ge i r with hir | hir
          · exact h.moved i hir
          · exact hempty i hir hi
      | succ left =>
        obtain ⟨d₁, hmove, hd₁, hperm₁, hit₁, hsize₁⟩ := h.moveBucket (lt_of_le_of_lt hle' hjlt) hempty
        obtain ⟨early, d₂, r₂, hrun, hd₂, hidx, hperm₂, hit₂, hearly, hsize₂, hr₂, _⟩ :=
          rehashLoop_spec (n := n) (v := left + 1) hd₁ fun _ => Nat.succ_ne_zero left
        refine ⟨early, d₂, r₂, ?_, hd₂, hidx, hperm₂.trans hperm₁, hit₂.trans hit₁, hearly,
          hsize₂.trans hsize₁, by omega,
          fun _ _ => by omega⟩
        simp only [hmove]
        exact hrun

/-- What the operations that only reorganize the tables keep. -/
structure Dict.Keeps (hash : K → BitVec 64) (d d' : Dict K V) : Prop where
  ok : d'.Ok hash
  perm : d'.entries.Perm d.entries
  iterators : d'.iterators = d.iterators

theorem Dict.Ok.keeps (h : d.Ok hash) : d.Keeps hash d := ⟨h, List.Perm.refl _, rfl⟩

theorem Dict.Keeps.trans {d' d'' : Dict K V} (h : d.Keeps hash d') (h' : d'.Keeps hash d'') : d.Keeps hash d'' :=
  ⟨h'.ok, h'.perm.trans h.perm, h'.iterators.trans h.iterators⟩

theorem Dict.Ok.of_perm {d' : Dict K V} (h : d.Ok hash) (hshape : d'.Shape hash) (hperm : d'.entries.Perm d.entries) :
    d'.Ok hash :=
  ⟨hshape, (hperm.map _).nodup_iff.2 h.nodup⟩

theorem Dict.Keeps.dictSize {d' : Dict K V} (h : d.Keeps hash d') (hd : d.Ok hash) : d'.dictSize = d.dictSize := by
  rw [h.ok.dictSize_eq, hd.dictSize_eq, h.perm.length_eq]

/-- `dictRehash` succeeds, says whether the rehash goes on, and goes on by at least one bucket if it does. -/
theorem dictRehash_spec (h : d.Ok hash) (n : ℕ) :
    ∃ d', dictRehash hash d n = some (d'.isRehashing, d') ∧ d.Keeps hash d' ∧
      ∀ r r', d.rehashidx = some r → d'.rehashidx = some r' → n ≠ 0 → r < r' ∧ d'.ht0.size = d.ht0.size := by
  have hnone : d.rehashidx = none → ∃ d', dictRehash hash d n = some (d'.isRehashing, d') ∧ d.Keeps hash d' ∧
      ∀ r r', d.rehashidx = some r → d'.rehashidx = some r' → n ≠ 0 → r < r' ∧ d'.ht0.size = d.ht0.size := by
    intro hidx
    refine ⟨d, ?_, h.keeps, fun r _ hr => ?_⟩
    · rw [dictRehash, hidx, Dict.isRehashing, hidx]
      rfl
    · rw [hidx] at hr
      cases hr
  cases h.shape with
  | empty _ _ hidx => exact hnone hidx
  | single _ _ hidx => exact hnone hidx
  | moving r hm _ hidx =>
    obtain ⟨early, d₁, r₁, hrun, hd₁, hidx₁, hperm, hit, hearly, hsize, hle, hlt⟩ :=
      rehashLoop_spec (n := n) (v := n * 10) hm (by omega)
    rw [dictRehash, hidx]
    simp only [hrun]
    have hre : d₁.isRehashing = true := by rw [Dict.isRehashing, hidx₁]; rfl
    by_cases hused : d₁.ht0.used = 0
    · have hfalse : early = false := Bool.eq_false_iff.2 fun he => hearly he hused
      obtain ⟨m, h0⟩ := hd₁.ht0
      have hnil := h0.used_eq_zero.1 hused
      rw [hfalse]
      refine ⟨{ d₁ with ht0 := d₁.ht1, ht1 := .reset, rehashidx := none }, if_pos hused, ?_,
        fun _ _ _ hr' => nomatch hr'⟩
      have hperm' : (Dict.entries { d₁ with ht0 := d₁.ht1, ht1 := .reset, rehashidx := none }).Perm d.entries := by
        rw [Dict.entries, hnil, List.nil_append] at hperm
        rw [Dict.entries]
        show (d₁.ht1.table.flatten ++ []).Perm d.entries
        rw [List.append_nil]
        exact hperm
      exact ⟨h.of_perm (.single hd₁.ht1 rfl rfl) hperm', hperm', hit⟩
    · obtain ⟨_, _, _, _, hrj, hj⟩ := hd₁.exists_chain hused
      have hkeeps : d.Keeps hash d₁ :=
        ⟨h.of_perm (.moving r₁ hd₁ (lt_of_le_of_lt hrj hj) hidx₁) hperm, hperm, hit⟩
      refine ⟨d₁, ?_, hkeeps, fun r' r'' hr' hr'' hn => ?_⟩
      · cases early with
        | true => rw [hre]
        | false =>
          rw [hre]
          exact if_neg hused
      · rw [hidx₁] at hr''
        cases hr'
        cases hr''
        exact ⟨hlt hn hused, hsize⟩

/-- The step at the beginning of an operation. A rehash that no iterator holds up goes on by at least one bucket. -/
theorem stepIfRehashing_spec (h : d.Ok hash) :
    ∃ d', stepIfRehashing hash d = some d' ∧ d.Keeps hash d' ∧
      (d.iterators = 0 → ∀ r r', d.rehashidx = some r → d'.rehashidx = some r' → r < r' ∧
        d'.ht0.size = d.ht0.size) := by
  rw [stepIfRehashing]
  split_ifs with hre
  · rw [dictRehashStep]
    split_ifs with hit
    · obtain ⟨d', hrun, hkeeps, hprog⟩ := dictRehash_spec h 1
      rw [hrun]
      exact ⟨d', rfl, hkeeps, fun _ r r' hr hr' => hprog r r' hr hr' Nat.one_ne_zero⟩
    · exact ⟨d, rfl, h.keeps, fun h0 => absurd h0 hit⟩
  · refine ⟨d, rfl, h.keeps, fun _ r r' hr => absurd ?_ hre⟩
    rw [Dict.isRehashing, hr]
    rfl

/-! ## Growing and shrinking -/

/-- The loop stops at a power of two that is at least `size`, and at most a bound of `size` that is one. -/
theorem nextPowerLoop_spec {size b : ℕ} (hb : size ≤ 2 ^ b) : ∀ {f j : ℕ}, j ≤ b → b ≤ j + f →
    ∃ m ≤ b, nextPowerLoop size f (2 ^ j) = 2 ^ m ∧ size ≤ 2 ^ m
  | 0, j, hj, hfuel => by
    obtain rfl : j = b := by omega
    exact ⟨j, le_rfl, rfl, hb⟩
  | fuel + 1, j, hj, hfuel => by
    rw [nextPowerLoop]
    split_ifs with hle
    · exact ⟨j, hj, rfl, hle⟩
    · have hne : j ≠ b := fun heq => hle (heq ▸ hb)
      rw [← Nat.pow_succ]
      exact nextPowerLoop_spec hb (by omega) (by omega)

theorem dictNextPower_spec (size : ℕ) (h : size ≤ 2 ^ 60) :
    ∃ m ≤ 60, dictNextPower size = 2 ^ m ∧ size ≤ 2 ^ m := by
  rw [dictNextPower, if_neg (by rw [LONG_MAX]; omega)]
  exact nextPowerLoop_spec h (f := 61) (j := 2) (by omega) (by omega)

theorem Dict.isRehashing_of_some {r : ℕ} (hidx : d.rehashidx = some r) : d.isRehashing = true := by
  rw [Dict.isRehashing, hidx]
  rfl

theorem Dict.isRehashing_of_none (hidx : d.rehashidx = none) : d.isRehashing = false := by
  rw [Dict.isRehashing, hidx]
  rfl

/-- `dictExpand` keeps the dictionary, whether it expands or not; it does when there is no rehash, the entries fit and
the size is a new one. -/
theorem dictExpand_spec (h : d.Ok hash) (size : ℕ) (hsize : size ≤ 2 ^ 60) :
    ∃ ok d', dictExpand d size = some (ok, d') ∧ d.Keeps hash d' ∧ d'.entries = d.entries ∧
      (d.rehashidx = none → d.ht0.used ≤ size → dictNextPower size ≠ d.ht0.size → ok = true ∧
        ∃ m, d'.ht0.Ok hash m) := by
  obtain ⟨m, hm, hpow, hle⟩ := dictNextPower_spec size hsize
  have h61 : ¬ 2 ^ 61 ≤ 2 ^ m := Nat.not_le.2 (Nat.pow_lt_pow_right (by omega) (by omega))
  have hnew : (Dictht.new (2 ^ m) : Dictht K V).Ok hash m := .new (by omega)
  rw [dictExpand, hpow, if_neg h61]
  by_cases hno : d.isRehashing = true ∨ size < d.ht0.used
  · refine ⟨false, d, if_pos hno, h.keeps, rfl, fun hidx hused _ => ?_⟩
    rcases hno with hre | hlt
    · rw [Dict.isRehashing_of_none hidx] at hre
      cases hre
    · omega
  by_cases hsame : 2 ^ m = d.ht0.size
  · exact ⟨false, d, by rw [if_neg hno, if_pos hsame], h.keeps, rfl, fun _ _ hne => absurd hsame hne⟩
  rw [if_neg hno, if_neg hsame]
  cases h.shape with
  | empty h0 h1 hidx =>
    have hentries : (Dict.entries { d with ht0 := .new (2 ^ m) }) = d.entries := by
      rw [Dict.entries, Dict.entries, h0, Dictht.flatten_new]
      rfl
    refine ⟨true, _, if_pos (by rw [h0]; rfl), ⟨h.of_perm (.single ⟨m, hnew⟩ h1 hidx) (.of_eq hentries),
      .of_eq hentries,
      rfl⟩, hentries, fun _ _ _ => ⟨rfl, m, hnew⟩⟩
  | single h0 h1 hidx =>
    obtain ⟨m₀, h0⟩ := h0
    have hnull : ¬ d.ht0.table.isEmpty = true := by
      rw [List.isEmpty_iff, ← List.length_eq_zero_iff, h0.length]
      exact (Nat.two_pow_pos m₀).ne'
    have hentries : (Dict.entries { d with ht1 := .new (2 ^ m), rehashidx := some 0 }) = d.entries := by
      rw [Dict.entries, Dict.entries, h1, Dictht.flatten_new]
      rfl
    refine ⟨true, _, if_neg hnull, ⟨h.of_perm (.moving 0 ⟨⟨m₀, h0⟩, ⟨m, hnew⟩, fun heq => hsame heq.symm, Nat.zero_le _,
      fun i hi => absurd hi (Nat.not_lt_zero i)⟩ ?_ rfl) (.of_eq hentries), .of_eq hentries, rfl⟩, hentries,
      fun _ _ _ => ⟨rfl, m₀, h0⟩⟩
    rw [h0.size]
    exact Nat.two_pow_pos m₀
  | moving r _ _ hidx => exact absurd (Or.inl (Dict.isRehashing_of_some hidx)) hno

theorem dictResize_spec (canResize : Bool) (h : d.Ok hash) :
    ∃ ok d', dictResize canResize d = some (ok, d') ∧ d.Keeps hash d' := by
  rw [dictResize]
  split_ifs with hno
  · exact ⟨false, d, rfl, h.keeps⟩
  · have hbound : (BitVec.ofNat 32 d.ht0.used).toInt.toNat ≤ 2 ^ 60 := by
      have := BitVec.toInt_lt (x := BitVec.ofNat 32 d.ht0.used)
      omega
    obtain ⟨ok, d', hrun, hkeeps, _⟩ := dictExpand_spec h
      (if (BitVec.ofNat 32 d.ht0.used).toInt < DICT_HT_INITIAL_SIZE then DICT_HT_INITIAL_SIZE
       else (BitVec.ofNat 32 d.ht0.used).toInt.toNat) (by split_ifs <;> [decide; exact hbound])
    exact ⟨ok, d', hrun, hkeeps⟩

/-- Before an entry is added there is a table for it. -/
theorem dictExpandIfNeeded_spec (canResize : Bool) (h : d.Ok hash) (hsize : d.dictSize ≤ 2 ^ 59) :
    ∃ d', dictExpandIfNeeded canResize d = some (true, d') ∧ d.Keeps hash d' ∧ d'.entries = d.entries ∧
      ∃ m, d'.ht0.Ok hash m := by
  have hused : d.ht0.used ≤ 2 ^ 59 := d.used_le.trans hsize
  rw [dictExpandIfNeeded]
  cases h.shape with
  | moving r hm _ hidx =>
    rw [if_pos (Dict.isRehashing_of_some hidx)]
    exact ⟨d, rfl, h.keeps, rfl, hm.ht0⟩
  | empty h0 h1 hidx =>
    obtain ⟨ok, d', hrun, hkeeps, hentries, hok⟩ := dictExpand_spec h DICT_HT_INITIAL_SIZE (by decide)
    obtain ⟨rfl, hm⟩ := hok hidx (by rw [h0]; exact Nat.zero_le _)
      (by rw [h0]; show dictNextPower DICT_HT_INITIAL_SIZE ≠ 0; decide)
    refine ⟨d', ?_, hkeeps, hentries, hm⟩
    rw [if_neg (by rw [Dict.isRehashing_of_none hidx]; decide), if_pos (by rw [h0]; rfl)]
    exact hrun
  | single h0 h1 hidx =>
    obtain ⟨m, h0⟩ := h0
    have hpos : 0 < d.ht0.size := by
      rw [h0.size]
      exact Nat.two_pow_pos m
    rw [if_neg (by rw [Dict.isRehashing_of_none hidx]; decide), if_neg hpos.ne']
    split_ifs with hfull
    · obtain ⟨ok, d', hrun, hkeeps, hentries, hok⟩ := dictExpand_spec h (d.ht0.used * 2) (by omega)
      obtain ⟨_, _, hpow, hle⟩ := dictNextPower_spec (d.ht0.used * 2) (by omega)
      obtain ⟨rfl, hm⟩ := hok hidx (by omega) (by omega)
      exact ⟨d', hrun, hkeeps, hentries, hm⟩
    · exact ⟨d, rfl, h.keeps, rfl, m, h0⟩

end GoodGoodStudy.Redis
