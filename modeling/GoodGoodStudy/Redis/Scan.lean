/-
`dictScan`: an iteration without a state of its own, whose cursor the client gives back. Between its calls the
dictionary may change, grow, shrink and be rehashed; what is in it all the time is reported.
-/
import GoodGoodStudy.Redis.DictMap

namespace GoodGoodStudy.Redis

open GoodGoodStudy.Lib

variable {K V : Type}

/-! ## Reversed bits -/

def swapBits (s : ℕ) (mask v : BitVec 64) : BitVec 64 := ((v >>> s) &&& mask) ||| ((v <<< s) &&& ~~~mask)

/-- The loop of `rev`, at most seven rounds for a word of 64 bits. -/
def revLoop : ℕ → ℕ → BitVec 64 → BitVec 64 → BitVec 64
  | 0, _, _, v => v
  | fuel + 1, s, mask, v =>
    if s / 2 = 0 then v
    else revLoop fuel (s / 2) (mask ^^^ (mask <<< (s / 2))) (swapBits (s / 2) (mask ^^^ (mask <<< (s / 2))) v)

def rev (v : BitVec 64) : BitVec 64 := revLoop 7 64 (BitVec.allOnes 64) v

/-- Neighbouring groups of `s` bits change places, if the mask has every other group. -/
theorem getLsbD_swapBits {s : ℕ} {mask : BitVec 64} (v : BitVec 64)
    (h : ∀ i : Fin 64, if mask.getLsbD i then i + s < 64 ∧ i ^^^ s = i + s else s ≤ i ∧ (i : ℕ) ^^^ s = i - s)
    {i : ℕ} (hi : i < 64) : (swapBits s mask v).getLsbD i = v.getLsbD (i ^^^ s) := by
  have hbit := h ⟨i, hi⟩
  rw [swapBits, BitVec.getLsbD_or, BitVec.getLsbD_and, BitVec.getLsbD_and, BitVec.getLsbD_not,
    BitVec.getLsbD_ushiftRight,
    BitVec.getLsbD_shiftLeft, decide_eq_true hi]
  split_ifs at hbit with hmask
  · obtain ⟨_, hidx⟩ := hbit
    simp only at hmask hidx
    rw [hmask, hidx, Nat.add_comm i s]
    simp
  · obtain ⟨hle, hidx⟩ := hbit
    simp only at hmask hidx hle
    rw [Bool.eq_false_iff.2 hmask, hidx, decide_eq_false (Nat.not_lt.2 hle)]
    simp

/-- The loop reverses the word. -/
theorem rev_eq_reverse (v : BitVec 64) : rev v = v.reverse := by
  have hrev : rev v = swapBits 1 0x5555555555555555 (swapBits 2 0x3333333333333333 (swapBits 4 0x0F0F0F0F0F0F0F0F
    (swapBits 8 0x00FF00FF00FF00FF (swapBits 16 0x0000FFFF0000FFFF (swapBits 32 0x00000000FFFFFFFF v))))) := rfl
  have hlt : ∀ {s i : ℕ}, i < 64 → s < 64 → i ^^^ s < 64 := fun hi hs => Nat.xor_lt_two_pow (n := 6) hi hs
  -- the six exchanges together take bit `i` from place `63 - i`
  have hall : ∀ i < 64, i ^^^ 1 ^^^ 2 ^^^ 4 ^^^ 8 ^^^ 16 ^^^ 32 = 63 - i := by decide
  apply BitVec.eq_of_getLsbD_eq
  intro i hi
  have h1 := hlt hi (s := 1) (by decide)
  have h2 := hlt h1 (s := 2) (by decide)
  have h4 := hlt h2 (s := 4) (by decide)
  have h8 := hlt h4 (s := 8) (by decide)
  have h16 := hlt h8 (s := 16) (by decide)
  rw [hrev, getLsbD_swapBits _ (by decide) hi, getLsbD_swapBits _ (by decide) h1, getLsbD_swapBits _ (by decide) h2,
    getLsbD_swapBits _ (by decide) h4, getLsbD_swapBits _ (by decide) h8, getLsbD_swapBits _ (by decide) h16, hall i hi,
    BitVec.getLsbD_reverse, BitVec.getMsbD_eq_getLsbD, decide_eq_true hi, Bool.true_and]

/-! ## One call -/

/-- Set the bits outside of the mask and count the reversed cursor up. -/
def nextCursor (sizemask v : BitVec 64) : BitVec 64 := rev (rev (v ||| ~~~sizemask) + 1)

/-- The `do` loop over the buckets of the larger table that belong to one of the smaller table. It needs no more rounds
than the larger table has buckets. -/
def scanLarger (m0 : BitVec 64) (t1 : Dictht K V) : ℕ → BitVec 64 → Option (BitVec 64 × List (DictEntry K V))
  | 0, _ => none
  | fuel + 1, v =>
    match t1.table[t1.index v]? with
    | none => none
    | some chain =>
      if nextCursor t1.sizemask v &&& (m0 ^^^ t1.sizemask) = 0 then some (nextCursor t1.sizemask v, chain)
      else (scanLarger m0 t1 fuel (nextCursor t1.sizemask v)).map fun (v, es) => (v, chain ++ es)

/-- The bucket of the smaller table `t0`, and those of the larger one. -/
def scanTables (t0 t1 : Dictht K V) (v : BitVec 64) : Option (BitVec 64 × List (DictEntry K V)) :=
  match t0.table[t0.index v]? with
  | none => none
  | some chain => (scanLarger t0.sizemask t1 t1.size v).map fun (v, es) => (v, chain ++ es)

/-- The next cursor and the entries that `fn` is called with; `fn` does not change the dictionary. -/
def dictScan (d : Dict K V) (v : BitVec 64) : Option (BitVec 64 × List (DictEntry K V)) :=
  if d.dictSize = 0 then some (0, [])
  else if !d.isRehashing then
    d.ht0.table[d.ht0.index v]?.map fun chain => (nextCursor d.ht0.sizemask v, chain)
  else if d.ht1.size < d.ht0.size then scanTables d.ht1 d.ht0 v
  else scanTables d.ht0 d.ht1 v

/-- The buckets that a whole iteration goes through. -/
def Dict.slots (d : Dict K V) : ℕ := if d.isRehashing then min d.ht0.size d.ht1.size else d.ht0.size

variable {hash : K → BitVec 64} {t : Dictht K V} {d : Dict K V} {m : ℕ}

theorem nextCursor_low (m : ℕ) (v : BitVec 64) : nextCursor (Cursor.low 64 m) v = Cursor.next m v := by
  rw [nextCursor, rev_eq_reverse, rev_eq_reverse]
  rfl

/-- What is between two cursors of the table is in the bucket of the first. -/
theorem Dictht.Ok.mem_chain (h : t.Ok hash m) {v : BitVec 64} {chain : List (DictEntry K V)}
    (hchain : t.table[t.index v]? = some chain) {e : DictEntry K V} (he : e ∈ t.table.flatten)
    (hle : Cursor.pos v ≤ Cursor.pos (hash e.key)) (hlt : Cursor.pos (hash e.key) < Cursor.limit (Cursor.next m v)) :
    e ∈ chain := by
  refine h.placed.mem_bucket he ?_
  have hidx : t.index (hash e.key) = t.index v := by
    rw [Dictht.index, Dictht.index, h.mask, Cursor.and_low_eq_of_lt_limit (h.m_le.trans (by decide)) hle hlt]
  rw [hidx]
  exact hchain

/-- The loop reports what is behind the cursor in the block of the smaller table, and ends at the end of the block. -/
theorem scanLarger_spec {m₀ : ℕ} (h : t.Ok hash m) (hm : m₀ ≤ m) {fuel : ℕ} {v : BitVec 64}
    (hfuel : 2 ^ (m - m₀) ≤ Cursor.pos v / 2 ^ (64 - m) % 2 ^ (m - m₀) + fuel) :
    ∃ es, scanLarger (Cursor.low 64 m₀) t fuel v = some (Cursor.next m₀ v, es) ∧ (∀ e ∈ es, e ∈ t.table.flatten) ∧
      ∀ e ∈ t.table.flatten, Cursor.pos v ≤ Cursor.pos (hash e.key) →
        Cursor.pos (hash e.key) < Cursor.limit (Cursor.next m₀ v) → e ∈ es := by
  induction fuel generalizing v with
  | zero => exact absurd (Nat.mod_lt _ (Nat.two_pow_pos (m - m₀))) (Nat.not_lt.2 hfuel)
  | succ fuel ih =>
    have h64 : m ≤ 64 := h.m_le.trans (by decide)
    obtain ⟨chain, hchain⟩ := h.chain v
    have hsub : ∀ e ∈ chain, e ∈ t.table.flatten := fun e he => mem_flatten_of_getElem? hchain he
    rw [scanLarger, hchain]
    simp only [h.mask, nextCursor_low]
    split_ifs with hdone
    · rw [Cursor.next_eq_of_done hm h64 hdone]
      refine ⟨chain, rfl, hsub, fun e he hle hlt => h.mem_chain hchain he hle ?_⟩
      rwa [Cursor.next_eq_of_done hm h64 hdone]
    · obtain ⟨hnext, hidx⟩ := Cursor.next_next_of_more hm h64 hdone
      obtain ⟨es, hrun, hsub', hcover⟩ := ih (v := Cursor.next m v) (by omega)
      rw [hrun, hnext]
      refine ⟨chain ++ es, rfl, fun e he => ?_, fun e he hle hlt => ?_⟩
      · rcases List.mem_append.1 he with he | he
        · exact hsub e he
        · exact hsub' e he
      · rcases Nat.lt_or_ge (Cursor.pos (hash e.key)) (Cursor.limit (Cursor.next m v)) with hin | hout
        · exact List.mem_append_left _ (h.mem_chain hchain he hle hin)
        · have hne : Cursor.next m v ≠ 0 := fun hz => hdone (by rw [hz]; exact BitVec.zero_and)
          rw [Cursor.limit_of_ne_zero hne] at hout
          exact List.mem_append_right _ (hcover e he hout (by rwa [hnext]))

/-- The places of the hashes from a cursor to the next one, or to the end. -/
structure Scanned (hash : K → BitVec 64) (l : List (DictEntry K V)) (v v' : BitVec 64) (es : List (DictEntry K V)) :
    Prop where
  sound : ∀ e ∈ es, e ∈ l
  cover : ∀ e ∈ l, Cursor.pos v ≤ Cursor.pos (hash e.key) → Cursor.pos (hash e.key) < Cursor.limit v' → e ∈ es

theorem Scanned.of_mem {l l' es : List (DictEntry K V)} {v v' : BitVec 64} (h : Scanned hash l v v' es)
    (hl : ∀ e, e ∈ l ↔ e ∈ l') : Scanned hash l' v v' es :=
  ⟨fun e he => (hl e).1 (h.sound e he), fun e he => h.cover e ((hl e).2 he)⟩

/-- A cursor goes on to the beginning of a block. -/
theorem two_pow_dvd_limit_next {k : ℕ} (hm : m ≤ 64) (hk : 2 ^ m ≤ 2 ^ k) (v : BitVec 64) :
    2 ^ (64 - k) ∣ Cursor.limit (Cursor.next m v) := by
  rw [Cursor.limit_next hm]
  have hle : m ≤ k := (Nat.pow_le_pow_iff_right (by decide)).1 hk
  exact (Nat.pow_dvd_pow 2 (by omega)).mul_left _

theorem scanTables_spec {t0 t1 : Dictht K V} {m₀ m₁ : ℕ} (h0 : t0.Ok hash m₀) (h1 : t1.Ok hash m₁) (hm : m₀ ≤ m₁)
    (v : BitVec 64) : ∃ es, scanTables t0 t1 v = some (Cursor.next m₀ v, es) ∧
      Scanned hash (t0.table.flatten ++ t1.table.flatten) v (Cursor.next m₀ v) es := by
  obtain ⟨chain, hchain⟩ := h0.chain v
  have hfuel : 2 ^ (m₁ - m₀) ≤ t1.size := by
    rw [h1.size]
    exact Nat.pow_le_pow_right Nat.two_pos (Nat.sub_le _ _)
  obtain ⟨es, hrun, hsub, hcover⟩ := scanLarger_spec h1 hm
    (show _ ≤ Cursor.pos v / 2 ^ (64 - m₁) % 2 ^ (m₁ - m₀) + t1.size by omega)
  rw [scanTables, hchain, h0.mask]
  refine ⟨chain ++ es, by simp only [hrun, Option.map_some], fun e he => ?_, fun e he hle hlt => ?_⟩
  · rcases List.mem_append.1 he with he | he
    · exact List.mem_append_left _ (mem_flatten_of_getElem? hchain he)
    · exact List.mem_append_right _ (hsub e he)
  · rcases List.mem_append.1 he with he | he
    · exact List.mem_append_left _ (h0.mem_chain hchain he hle hlt)
    · exact List.mem_append_right _ (hcover e he hle hlt)

/-- One call reports all entries from its cursor to the next one, in both tables, and goes on by at least a bucket. -/
theorem dictScan_spec (h : d.Ok hash) (v : BitVec 64) :
    ∃ v' es, dictScan d v = some (v', es) ∧ Scanned hash d.entries v v' es ∧ Cursor.pos v < Cursor.limit v' ∧
      ∀ k, d.slots ≤ 2 ^ k → 2 ^ (64 - k) ∣ Cursor.limit v' := by
  rw [dictScan]
  by_cases hz : d.dictSize = 0
  · refine ⟨0, [], if_pos hz, ⟨fun e he => absurd he List.not_mem_nil, fun e he => ?_⟩, Cursor.pos_lt v,
      fun k _ => Nat.pow_dvd_pow 2 (Nat.sub_le 64 k)⟩
    rw [h.dictSize_eq, List.length_eq_zero_iff] at hz
    rw [hz] at he
    cases he
  rw [if_neg hz]
  cases h.shape with
  | empty h0 h1 _ =>
    rw [Dict.dictSize, h0, h1] at hz
    exact absurd rfl hz
  | single h0 h1 hidx =>
    obtain ⟨m, h0⟩ := h0
    have h64 : m ≤ 64 := h0.m_le.trans (by decide)
    obtain ⟨chain, hchain⟩ := h0.chain v
    rw [if_pos (by rw [Dict.isRehashing_of_none hidx]; rfl), hchain, h0.mask, nextCursor_low, Dict.entries, h1]
    refine ⟨_, chain, rfl, ⟨fun e he => ?_, fun e he hle hlt => ?_⟩, Cursor.pos_lt_limit_next h64 v, fun k hk => ?_⟩
    · exact List.mem_append_left _ (mem_flatten_of_getElem? hchain he)
    · exact h0.mem_chain hchain ((List.mem_append.1 he).resolve_right List.not_mem_nil) hle hlt
    · rw [Dict.slots, Dict.isRehashing_of_none hidx, h0.size] at hk
      exact two_pow_dvd_limit_next h64 hk v
  | moving r hm _ hidx =>
    obtain ⟨m₀, h0⟩ := hm.ht0
    obtain ⟨m₁, h1⟩ := hm.ht1
    have hre := Dict.isRehashing_of_some hidx
    have hslots : d.slots = min (2 ^ m₀) (2 ^ m₁) := by rw [Dict.slots, if_pos hre, h0.size, h1.size]
    rw [if_neg (by rw [hre]; decide), hslots, h0.size, h1.size]
    split_ifs with hlt
    · have hle : m₁ ≤ m₀ := (Nat.pow_le_pow_iff_right (by decide)).1 hlt.le
      have h64 : m₁ ≤ 64 := h1.m_le.trans (by decide)
      obtain ⟨es, hrun, hscanned⟩ := scanTables_spec h1 h0 hle v
      refine ⟨_, es, hrun, hscanned.of_mem fun e => ?_, Cursor.pos_lt_limit_next h64 v, fun k hk => ?_⟩
      · rw [Dict.entries, List.mem_append, List.mem_append, or_comm]
      · rw [Nat.min_eq_right hlt.le] at hk
        exact two_pow_dvd_limit_next h64 hk v
    · have hle : m₀ ≤ m₁ := (Nat.pow_le_pow_iff_right (by decide)).1 (Nat.le_of_not_lt hlt)
      have h64 : m₀ ≤ 64 := h0.m_le.trans (by decide)
      obtain ⟨es, hrun, hscanned⟩ := scanTables_spec h0 h1 hle v
      refine ⟨_, es, hrun, hscanned, Cursor.pos_lt_limit_next h64 v, fun k hk => ?_⟩
      rw [Nat.min_eq_left (Nat.le_of_not_lt hlt)] at hk
      exact two_pow_dvd_limit_next h64 hk v

/-! ## Runs -/

/-- The client's side of an iteration: the cursor, the calls so far and the entries reported in them. -/
structure Scan (K V : Type) where
  state : State K V
  cursor : BitVec 64
  calls : ℕ
  seen : List (DictEntry K V)

inductive Action (K V : Type)
  | call (c : Call K V)
  | scan

/-- A client begins with the cursor 0, and is done when it gets the cursor 0. -/
def scanStep [DecidableEq K] (hash : K → BitVec 64) (s : Scan K V) : Action K V → Option (Scan K V)
  | .call c => (step hash s.state c).map fun (state, _) => { s with state := state }
  | .scan =>
    if s.calls ≠ 0 ∧ s.cursor = 0 then some s
    else (dictScan s.state.dict s.cursor).map fun (v, es) =>
      { s with cursor := v, calls := s.calls + 1, seen := s.seen ++ es }

def Scan.Done (s : Scan K V) : Prop := s.calls ≠ 0 ∧ s.cursor = 0

/-- The places that are behind the client: all of them when it is done. -/
def Scan.reached (s : Scan K V) : ℕ := if s.calls = 0 then 0 else Cursor.limit s.cursor

variable [DecidableEq K]

/-- Every step succeeds, and the dictionary keeps its invariant. -/
theorem scanStep_run : ∀ (acts : List (Action K V)) {s : Scan K V} {m : K → Option (Option V)}, s.state.dict.Ok hash →
    Represents s.state.dict.entries m → s.state.dict.dictSize + acts.length ≤ 2 ^ 59 →
    (∀ size, .call (.expand size) ∈ acts → size ≤ 2 ^ 60) →
    ∃ t, run (scanStep hash) s acts = some t ∧ AllStates (scanStep hash) (fun s => s.state.dict.Ok hash) s acts
  | [], s, _, h, _, _, _ => ⟨s, rfl, h⟩
  | a :: acts, s, m, h, hm, hlen, hexpand => by
    rw [List.length_cons] at hlen
    have hrest : ∀ size, .call (.expand size) ∈ acts → size ≤ 2 ^ 60 :=
      fun size hmem => hexpand size (List.mem_cons_of_mem a hmem)
    have hgo : ∀ (s₁ : Scan K V) {m₁ : K → Option (Option V)}, scanStep hash s a = some s₁ → s₁.state.dict.Ok hash →
        Represents s₁.state.dict.entries m₁ → s₁.state.dict.dictSize ≤ s.state.dict.dictSize + 1 →
        ∃ t, run (scanStep hash) s (a :: acts) = some t ∧
          AllStates (scanStep hash) (fun s => s.state.dict.Ok hash) s (a :: acts) := by
      intro s₁ m₁ hs₁ hok₁ hm₁ hsize₁
      obtain ⟨t, hrun, hall⟩ := scanStep_run acts hok₁ hm₁ (by omega) hrest
      exact ⟨t, run_cons_some.2 ⟨s₁, hs₁, hrun⟩, h, fun s' hs' => Option.some.inj (hs₁.symm.trans hs') ▸ hall⟩
    cases a with
    | call c =>
      obtain ⟨state, hstep, hok, hm', hsize⟩ := simulates h hm (by omega) c fun size hc =>
        hexpand size (hc ▸ List.mem_cons_self)
      exact hgo { s with state := state } (by rw [scanStep, hstep]; rfl) hok hm' hsize
    | scan =>
      by_cases hdone : s.calls ≠ 0 ∧ s.cursor = 0
      · exact hgo _ (if_pos hdone) h hm (Nat.le_succ _)
      · obtain ⟨v, es, hscan, _⟩ := dictScan_spec h s.cursor
        exact hgo { s with cursor := v, calls := s.calls + 1, seen := s.seen ++ es }
          (by rw [scanStep, if_neg hdone, hscan]; rfl) h hm (Nat.le_succ _)

/-- A step of the client, unless it is done, reports what is between its cursor and the next one. -/
theorem scanStep_cases {s s' : Scan K V} {a : Action K V} (h : s.state.dict.Ok hash) (hs : scanStep hash s a = some s')
    (hcalls : s.calls = 0 → s.cursor = 0) :
    s'.cursor = s.cursor ∧ s'.calls = s.calls ∧ s'.seen = s.seen ∨
      ∃ es, s'.calls = s.calls + 1 ∧ s'.seen = s.seen ++ es ∧ (∀ e ∈ es, e ∈ s.state.dict.entries) ∧
        (∀ e ∈ s.state.dict.entries, s.reached ≤ Cursor.pos (hash e.key) → Cursor.pos (hash e.key) < s'.reached →
          e ∈ es) ∧
        s.reached < s'.reached ∧ ∀ k, s.state.dict.slots ≤ 2 ^ k → 2 ^ (64 - k) ∣ s'.reached := by
  cases a with
  | call c =>
    obtain ⟨⟨state, _⟩, _, rfl⟩ := Option.map_eq_some_iff.1 hs
    exact .inl ⟨rfl, rfl, rfl⟩
  | scan =>
    rw [scanStep] at hs
    split_ifs at hs with hdone
    · cases hs
      exact .inl ⟨rfl, rfl, rfl⟩
    · obtain ⟨v, es, hscan, hscanned, hlt, hdvd⟩ := dictScan_spec h s.cursor
      rw [hscan] at hs
      cases hs
      have hreached : s.reached = Cursor.pos s.cursor := by
        rw [Scan.reached]
        split_ifs with hz
        · rw [hcalls hz, Cursor.pos_zero]
        · exact Cursor.limit_of_ne_zero fun hv => hdone ⟨hz, hv⟩
      have hreached' : Scan.reached { s with cursor := v, calls := s.calls + 1, seen := s.seen ++ es } =
          Cursor.limit v := if_neg (Nat.succ_ne_zero _)
      rw [hreached, hreached']
      exact .inr ⟨es, rfl, rfl, hscanned.sound, hscanned.cover, hlt, hdvd⟩


section Run

variable {acts : List (Action K V)} {state : State K V} {t : Scan K V}
  (hok : AllStates (scanStep hash) (fun s => s.state.dict.Ok hash) ⟨state, 0, 0, []⟩ acts)
  (hrun : run (scanStep hash) ⟨state, 0, 0, []⟩ acts = some t)
include hok hrun

/-- A key that is in the dictionary all the time is reported before the cursor has passed it. -/
theorem seen_of_reached {k : K}
    (hk : AllStates (scanStep hash) (fun s => ∃ e ∈ s.state.dict.entries, e.key = k) ⟨state, 0, 0, []⟩ acts)
    (hreached : Cursor.pos (hash k) < t.reached) : ∃ e ∈ t.seen, e.key = k := by
  refine (run_invariant_along
    (I := fun s : Scan K V => (s.calls = 0 → s.cursor = 0) ∧
      (Cursor.pos (hash k) < s.reached → ∃ e ∈ s.seen, e.key = k))
    (fun s a s' ⟨hcalls, hseen⟩ ⟨hok, e, he, hek⟩ hs => ?_)
    ⟨fun _ => rfl, fun h => absurd h (Nat.not_lt_zero _)⟩ (hok.and hk) hrun).2 hreached
  obtain ⟨hcur, hcalls', hseen'⟩ | ⟨es, hcalls', hseen', _, hcover, _, _⟩ := scanStep_cases hok hs hcalls
  · refine ⟨fun h => by rw [hcur, hcalls (hcalls' ▸ h)], fun h => ?_⟩
    rw [hseen']
    rw [Scan.reached, hcur, hcalls'] at h
    exact hseen h
  · refine ⟨fun h => absurd (hcalls' ▸ h) (Nat.succ_ne_zero _), fun h => ?_⟩
    rw [hseen']
    rcases Nat.lt_or_ge (Cursor.pos (hash k)) s.reached with hlt | hge
    · obtain ⟨e', he', hek'⟩ := hseen hlt
      exact ⟨e', List.mem_append_left _ he', hek'⟩
    · rw [← hek] at hge h
      exact ⟨e, List.mem_append_right _ (hcover e he hge h), hek⟩

theorem seen_sound {P : DictEntry K V → Prop}
    (hP : AllStates (scanStep hash) (fun s => ∀ e ∈ s.state.dict.entries, P e) ⟨state, 0, 0, []⟩ acts) :
    ∀ e ∈ t.seen, P e := by
  refine (run_invariant_along (I := fun s : Scan K V => (s.calls = 0 → s.cursor = 0) ∧ ∀ e ∈ s.seen, P e)
    (fun s a s' ⟨hcalls, hseen⟩ ⟨hok, hP⟩ hs => ?_) ⟨fun _ => rfl, fun e he => absurd he List.not_mem_nil⟩
      (hok.and hP) hrun).2
  obtain ⟨hcur, hcalls', hseen'⟩ | ⟨es, hcalls', hseen', hsound, _⟩ := scanStep_cases hok hs hcalls
  · refine ⟨fun h => by rw [hcur, hcalls (hcalls' ▸ h)], ?_⟩
    rw [hseen']
    exact hseen
  · refine ⟨fun h => absurd (hcalls' ▸ h) (Nat.succ_ne_zero _), fun e he => ?_⟩
    rw [hseen'] at he
    rcases List.mem_append.1 he with he | he
    · exact hseen e he
    · exact hP e (hsound e he)

/-- Each call goes on by a whole bucket of the smaller table, so that there are no more calls than buckets. -/
theorem calls_le {k : ℕ} (hk64 : k ≤ 64)
    (hk : AllStates (scanStep hash) (fun s => s.state.dict.slots ≤ 2 ^ k) ⟨state, 0, 0, []⟩ acts) :
    t.calls ≤ 2 ^ k := by
  suffices hinv : (t.calls = 0 → t.cursor = 0) ∧ 2 ^ (64 - k) ∣ t.reached ∧ t.calls * 2 ^ (64 - k) ≤ t.reached by
    have hle : t.calls * 2 ^ (64 - k) ≤ 2 ^ k * 2 ^ (64 - k) := by
      rw [← Nat.pow_add, Nat.add_sub_cancel' hk64]
      refine hinv.2.2.trans ?_
      rw [Scan.reached]
      split_ifs
      · exact Nat.zero_le _
      · exact Cursor.limit_le t.cursor
    exact Nat.le_of_mul_le_mul_right hle (Nat.two_pow_pos _)
  refine run_invariant_along (I := fun s : Scan K V =>
      (s.calls = 0 → s.cursor = 0) ∧ 2 ^ (64 - k) ∣ s.reached ∧ s.calls * 2 ^ (64 - k) ≤ s.reached)
    (fun s a s' ⟨hcalls, hdvd, hle⟩ ⟨hok, hslots⟩ hs => ?_)
    ⟨fun _ => rfl, Nat.dvd_zero _, by rw [Nat.zero_mul]; exact Nat.zero_le _⟩ (hok.and hk) hrun
  obtain ⟨hcur, hcalls', _⟩ | ⟨es, hcalls', _, _, _, hlt, hdvd'⟩ := scanStep_cases hok hs hcalls
  · have hreached : s'.reached = s.reached := by rw [Scan.reached, Scan.reached, hcur, hcalls']
    rw [hreached, hcalls', hcur]
    exact ⟨hcalls, hdvd, hle⟩
  · refine ⟨fun h => absurd (hcalls' ▸ h) (Nat.succ_ne_zero _), hdvd' k hslots, ?_⟩
    obtain ⟨c, hc⟩ := hdvd
    obtain ⟨c', hc'⟩ := hdvd' k hslots
    rw [hc, hc', Nat.mul_lt_mul_left (Nat.two_pow_pos _)] at hlt
    rw [hcalls', Nat.succ_mul, hc']
    rw [hc] at hle
    calc s.calls * 2 ^ (64 - k) + 2 ^ (64 - k) ≤ 2 ^ (64 - k) * c + 2 ^ (64 - k) := Nat.add_le_add_right hle _
      _ = 2 ^ (64 - k) * (c + 1) := rfl
      _ ≤ 2 ^ (64 - k) * c' := Nat.mul_le_mul_left _ hlt

end Run

end GoodGoodStudy.Redis
