/-
The dictionary is a finite map: whatever is added, replaced, deleted, looked up, resized, rehashed and iterated over in
whatever order, the operations answer as those of a map that knows of no tables, and no read leaves a table.
-/
import GoodGoodStudy.Redis.Rehash

namespace GoodGoodStudy.Redis

open GoodGoodStudy.Lib

variable {K V : Type}

/-! ## Lists of entries as maps -/

/-- The map with these entries; a key whose value is not written yet has the value `none`. -/
def Represents (l : List (DictEntry K V)) (m : K → Option (Option V)) : Prop := ∀ e, e ∈ l ↔ m e.key = some e.val

section Represents

variable {l l' rest : List (DictEntry K V)} {m : K → Option (Option V)} {e e' : DictEntry K V} {k : K}

theorem represents_nil : Represents ([] : List (DictEntry K V)) fun _ => none := fun _ => ⟨nofun, nofun⟩

theorem Represents.perm (h : Represents l m) (hp : l'.Perm l) : Represents l' m := fun e => hp.mem_iff.trans (h e)

theorem Represents.eq_some (h : Represents l m) (he : e ∈ l) (hk : e.key = k) : m k = some e.val :=
  hk ▸ (h e).1 he

theorem Represents.eq_none (h : Represents l m) (hk : ∀ e ∈ l, e.key ≠ k) : m k = none := by
  rcases hm : m k with _ | v
  · rfl
  · exact absurd rfl (hk ⟨k, v⟩ ((h ⟨k, v⟩).2 hm))

variable [DecidableEq K]

theorem Represents.cons (h : Represents l m) (hk : ∀ e' ∈ l, e'.key ≠ e.key) :
    Represents (e :: l) (Function.update m e.key (some e.val)) := by
  intro e'
  rw [List.mem_cons, Function.update_apply]
  split_ifs with heq
  · constructor
    · rintro (rfl | hmem)
      · rfl
      · exact absurd heq (hk e' hmem)
    · intro hval
      left
      cases e'
      cases e
      simp_all
  · rw [h e']
    exact or_iff_right fun h' => heq (congrArg _ h')

theorem Represents.erase (h : Represents (e :: rest) m) (hnd : ((e :: rest).map DictEntry.key).Nodup) :
    Represents rest (Function.update m e.key none) := by
  intro e'
  have hnot : ∀ e'' ∈ rest, e''.key ≠ e.key := fun e'' he'' heq =>
    (List.nodup_cons.1 hnd).1 (heq ▸ List.mem_map_of_mem he'')
  rw [Function.update_apply]
  split_ifs with heq
  · exact iff_of_false (fun hmem => hnot e' hmem heq) nofun
  · rw [← h e', List.mem_cons]
    exact (or_iff_right fun h' => heq (congrArg _ h')).symm

theorem Represents.replace (h : Represents (e :: rest) m) (hnd : ((e :: rest).map DictEntry.key).Nodup)
    (hkey : e'.key = e.key) : Represents (e' :: rest) (Function.update m e.key (some e'.val)) := by
  have hcons := (h.erase hnd).cons (e := e') fun e'' he'' heq =>
    (List.nodup_cons.1 hnd).1 ((heq.trans hkey) ▸ List.mem_map_of_mem he'')
  rwa [hkey, Function.update_idem] at hcons

end Represents

/-! ## Writing a bucket -/

variable {hash : K → BitVec 64} {d : Dict K V}

theorem not_ok_reset {m : ℕ} : ¬ (Dictht.reset : Dictht K V).Ok hash m := fun h =>
  (Nat.two_pow_pos m).ne (h.length : 0 = 2 ^ m)

/-- A bucket of a table is written; a bucket that the rehash has passed must not be filled again. -/
theorem Dict.Ok.write (h : d.Ok hash) {second : Bool} {i u : ℕ} {chain chain' : List (DictEntry K V)}
    (ht : ∃ m, (d.ht second).Ok hash m) (hi : (d.ht second).table[i]? = some chain)
    (hplace : ∀ e ∈ chain', (d.ht second).index (hash e.key) = i)
    (hused : u + chain.length = (d.ht second).used + chain'.length)
    (hpassed : d.isRehashing = true → second = false → chain ≠ []) :
    let d' := d.setHt { d.ht second with table := (d.ht second).table.set i chain', used := u } second
    d'.Shape hash ∧ d'.iterators = d.iterators ∧ d'.isRehashing = d.isRehashing ∧
      ∃ rest, d.entries.Perm (chain ++ rest) ∧ d'.entries.Perm (chain' ++ rest) := by
  obtain ⟨m, ht⟩ := ht
  have hset := ht.set hi hplace hused
  obtain ⟨rest, hold, hnew⟩ := flatten_set_perm hi
  cases second with
  | false =>
    refine ⟨?_, rfl, rfl, rest ++ d.ht1.table.flatten, ?_, ?_⟩
    · cases h.shape with
      | empty h0 _ _ =>
        have ht : d.ht0.Ok hash m := ht
        rw [h0] at ht
        exact absurd ht not_ok_reset
      | single _ h1 hidx => exact .single ⟨m, hset⟩ h1 hidx
      | moving r hm hlt hidx =>
        refine .moving r ⟨⟨m, hset⟩, hm.ht1, hm.size_ne, hm.idx_le, fun j hj => ?_⟩ hlt hidx
        show (d.ht0.table.set i chain')[j]? = some []
        rw [List.getElem?_set_ne, hm.moved j hj]
        rintro rfl
        have hi : d.ht0.table[i]? = some chain := hi
        rw [hm.moved i hj] at hi
        exact hpassed (Dict.isRehashing_of_some hidx) rfl (Option.some.inj hi).symm
    · rw [← List.append_assoc]
      exact hold.append_right _
    · rw [← List.append_assoc]
      exact (hnew chain').append_right _
  | true =>
    refine ⟨?_, rfl, rfl, d.ht0.table.flatten ++ rest, ?_, ?_⟩
    · have hreset : d.ht1 ≠ .reset := by
        intro h1
        have ht : d.ht1.Ok hash m := ht
        rw [h1] at ht
        exact not_ok_reset ht
      cases h.shape with
      | empty _ h1 _ => exact absurd h1 hreset
      | single _ h1 _ => exact absurd h1 hreset
      | moving r hm hlt hidx => exact .moving r ⟨hm.ht0, ⟨m, hset⟩, hm.size_ne, hm.idx_le, hm.moved⟩ hlt hidx
    · exact (hold.append_left _).trans (List.perm_append_comm_assoc _ _ _)
    · exact ((hnew chain').append_left _).trans (List.perm_append_comm_assoc _ _ _)

/-! ## Finding an entry -/

/-- The pointer is one to an entry of the dictionary. -/
structure Dict.At (hash : K → BitVec 64) (d : Dict K V) (ref : EntryRef K V) : Prop where
  ok : ∃ m, (d.ht ref.second).Ok hash m
  chain : (d.ht ref.second).table[ref.index]? = some (ref.before ++ ref.entry :: ref.behind)

theorem Dict.At.mem {ref : EntryRef K V} (h : d.At hash ref) : ref.entry ∈ d.entries := by
  have hmem := mem_flatten_of_getElem? h.chain (List.mem_append_right _ List.mem_cons_self)
  rcases hsec : ref.second with _ | _
  · rw [hsec] at hmem
    exact List.mem_append_left _ hmem
  · rw [hsec] at hmem
    exact List.mem_append_right _ hmem

theorem Dict.At.placed {ref : EntryRef K V} (h : d.At hash ref) :
    ∀ e ∈ ref.before ++ ref.entry :: ref.behind, (d.ht ref.second).index (hash e.key) = ref.index := by
  obtain ⟨m, hok⟩ := h.ok
  exact hok.placed _ _ h.chain

/-- Another entry of the same key is put into the place. -/
theorem Dict.At.replace {ref : EntryRef K V} (h : d.At hash ref) (hd : d.Ok hash) {e : DictEntry K V}
    (hkey : e.key = ref.entry.key) :
    let t := d.ht ref.second
    let d' := d.setHt { t with table := t.table.set ref.index (ref.before ++ e :: ref.behind) } ref.second
    d'.Ok hash ∧ d'.iterators = d.iterators ∧ ∃ rest, d.entries.Perm (ref.entry :: rest) ∧
      d'.entries.Perm (e :: rest) := by
  have hplace : ∀ e' ∈ ref.before ++ e :: ref.behind, (d.ht ref.second).index (hash e'.key) = ref.index := by
    intro e' he'
    rcases List.mem_append.1 he' with he' | he'
    · exact h.placed e' (List.mem_append_left _ he')
    rcases List.mem_cons.1 he' with rfl | he'
    · rw [hkey]
      exact h.placed ref.entry (List.mem_append_right _ List.mem_cons_self)
    · exact h.placed e' (List.mem_append_right _ (List.mem_cons_of_mem _ he'))
  obtain ⟨hshape, hit, _, rest, hold, hnew⟩ := hd.write h.ok h.chain hplace (u := (d.ht ref.second).used)
    (by simp only [List.length_append, List.length_cons]) (fun _ _ => by simp)
  have hold' : d.entries.Perm (ref.entry :: (ref.before ++ ref.behind ++ rest)) :=
    hold.trans (List.perm_middle.append_right rest)
  have hnew' := hnew.trans (List.perm_middle.append_right rest)
  refine ⟨⟨hshape, ?_⟩, hit, _, hold', hnew'⟩
  have hnd := (hold'.map DictEntry.key).nodup_iff.1 hd.nodup
  rw [(hnew'.map DictEntry.key).nodup_iff, List.cons_append, List.map_cons, hkey]
  exact hnd

/-- The entry is taken out of its chain. -/
theorem Dict.At.remove {ref : EntryRef K V} (h : d.At hash ref) (hd : d.Ok hash) :
    let t := d.ht ref.second
    let d' := d.setHt { t with table := t.table.set ref.index (ref.before ++ ref.behind), used := t.used - 1 }
      ref.second
    d'.Ok hash ∧ d'.iterators = d.iterators ∧ d.entries.Perm (ref.entry :: d'.entries) := by
  obtain ⟨m, hok⟩ := h.ok
  have hpos : 0 < (d.ht ref.second).used := by
    rw [hok.used]
    exact List.length_pos_of_mem (mem_flatten_of_getElem? h.chain (List.mem_append_right _ List.mem_cons_self))
  have hplace : ∀ e' ∈ ref.before ++ ref.behind, (d.ht ref.second).index (hash e'.key) = ref.index := by
    intro e' he'
    apply h.placed
    rcases List.mem_append.1 he' with he' | he'
    · exact List.mem_append_left _ he'
    · exact List.mem_append_right _ (List.mem_cons_of_mem _ he')
  obtain ⟨hshape, hit, _, rest, hold, hnew⟩ := hd.write h.ok h.chain hplace (u := (d.ht ref.second).used - 1)
    (by simp only [List.length_append, List.length_cons]; omega) (fun _ _ => by simp)
  have hperm := hold.trans (List.perm_middle.append_right rest) |>.trans (List.Perm.cons ref.entry hnew.symm)
  refine ⟨⟨hshape, ?_⟩, hit, hperm⟩
  exact (List.nodup_cons.1 ((hperm.map DictEntry.key).nodup_iff.1 hd.nodup)).2

@[simp] theorem Dict.ht_setHt (d : Dict K V) (t : Dictht K V) : ∀ b, (d.setHt t b).ht b = t
  | false => rfl
  | true => rfl

/-- The table for new entries: the second one while a rehash is under way. -/
theorem Dict.Ok.target (h : d.Ok hash) (h0 : ∃ m, d.ht0.Ok hash m) : ∃ m, (d.ht d.isRehashing).Ok hash m := by
  cases h.shape with
  | empty hr _ _ =>
    obtain ⟨m, h0⟩ := h0
    exact absurd (hr ▸ h0) not_ok_reset
  | single h0 _ hidx => rwa [Dict.isRehashing_of_none hidx]
  | moving r hm _ hidx =>
    rw [Dict.isRehashing_of_some hidx]
    exact hm.ht1

/-- A new entry is put in front of its chain. -/
theorem Dict.Ok.addEntry (h : d.Ok hash) (h0 : ∃ m, d.ht0.Ok hash m) {key : K} (hnot : ∀ e ∈ d.entries, e.key ≠ key) :
    let index := (d.ht d.isRehashing).index (hash key)
    ∃ chain t, (d.ht d.isRehashing).table[index]? = some chain ∧
      (d.ht d.isRehashing).push index ⟨key, none⟩ = some t ∧ (d.setHt t d.isRehashing).Ok hash ∧
      (d.setHt t d.isRehashing).At hash ⟨d.isRehashing, index, [], ⟨key, none⟩, chain⟩ ∧
      (d.setHt t d.isRehashing).entries.Perm (⟨key, none⟩ :: d.entries) := by
  intro index
  obtain ⟨m, htok⟩ := h.target h0
  obtain ⟨chain, hchain⟩ := htok.chain (hash key)
  have hplace : ∀ e ∈ (⟨key, none⟩ : DictEntry K V) :: chain, (d.ht d.isRehashing).index (hash e.key) = index := by
    intro e he
    rcases List.mem_cons.1 he with rfl | he
    · rfl
    · exact htok.placed _ chain hchain e he
  have hused : (d.ht d.isRehashing).used + 1 + chain.length =
      (d.ht d.isRehashing).used + ((⟨key, none⟩ : DictEntry K V) :: chain).length := by
    rw [List.length_cons]
    omega
  obtain ⟨hshape, _, _, rest, hold, hnew⟩ := h.write ⟨m, htok⟩ hchain hplace hused
    (fun htrue hfalse => by rw [htrue] at hfalse; cases hfalse)
  have hperm := hnew.trans (List.Perm.cons _ hold.symm)
  refine ⟨chain, _, hchain, by rw [Dictht.push, hchain], ⟨hshape, ?_⟩, ⟨⟨m, ?_⟩, ?_⟩, hperm⟩
  · rw [(hperm.map DictEntry.key).nodup_iff, List.map_cons, List.nodup_cons]
    refine ⟨fun hmem => ?_, h.nodup⟩
    obtain ⟨e, he, heq⟩ := List.mem_map.1 hmem
    exact hnot e he heq
  · rw [Dict.ht_setHt]
    exact htok.set hchain hplace hused
  · rw [Dict.ht_setHt]
    exact List.getElem?_set_self (htok.index_lt (hash key))

section Find

variable [DecidableEq K]

theorem findInChain_none {key : K} : ∀ {chain : List (DictEntry K V)}, findInChain key chain = none →
    ∀ e ∈ chain, e.key ≠ key
  | he :: chain, h, e, hmem => by
    rw [findInChain] at h
    split_ifs at h with hkey
    rcases List.mem_cons.1 hmem with rfl | hmem
    · exact Ne.symm hkey
    · exact findInChain_none (Option.map_eq_none_iff.1 h) e hmem

theorem findInChain_some {key : K} : ∀ {chain before behind : List (DictEntry K V)} {entry : DictEntry K V},
    findInChain key chain = some (before, entry, behind) → chain = before ++ entry :: behind ∧ entry.key = key
  | he :: chain, before, behind, entry, h => by
    rw [findInChain] at h
    split_ifs at h with hkey
    · cases h
      exact ⟨rfl, hkey.symm⟩
    · obtain ⟨⟨before', entry', behind'⟩, hrec, heq⟩ := Option.map_eq_some_iff.1 h
      cases heq
      obtain ⟨rfl, hkey'⟩ := findInChain_some hrec
      exact ⟨rfl, hkey'⟩

/-- The entry of a key in the tables that are searched. -/
structure Found (hash : K → BitVec 64) (d : Dict K V) (key : K) (l : List (DictEntry K V)) (r : Option (EntryRef K V)) :
    Prop where
  none : r = none → ∀ e ∈ l, e.key ≠ key
  some : ∀ ref, r = some ref → d.At hash ref ∧ ref.entry.key = key

theorem findInTable_spec (second : Bool) (key : K) (h : ∃ m, (d.ht second).Ok hash m) :
    ∃ r, findInTable hash d second key = some r ∧ Found hash d key (d.ht second).table.flatten r := by
  obtain ⟨m, hok⟩ := h
  obtain ⟨chain, hchain⟩ := hok.chain (hash key)
  rw [findInTable, hchain]
  refine ⟨_, rfl, fun hnone e he heq => ?_, fun ref href => ?_⟩
  · refine findInChain_none (Option.map_eq_none_iff.1 hnone) e ?_ heq
    refine hok.placed.mem_bucket he ?_
    rw [heq]
    exact hchain
  · obtain ⟨⟨before, entry, behind⟩, hfind, rfl⟩ := Option.map_eq_some_iff.1 href
    obtain ⟨rfl, hkey⟩ := findInChain_some hfind
    exact ⟨⟨⟨m, hok⟩, hchain⟩, hkey⟩

theorem findInTables_spec (key : K) (h : d.Ok hash) (h0 : ∃ m, d.ht0.Ok hash m) :
    ∃ r, findInTables hash d key = some r ∧ Found hash d key d.entries r := by
  obtain ⟨r, hrun, hfound⟩ := findInTable_spec false key (d := d) h0
  rw [findInTables, hrun]
  cases r with
  | some ref => exact ⟨some ref, rfl, nofun, hfound.some⟩
  | none =>
    have hnot := hfound.none rfl
    cases h.shape with
    | empty hr _ _ =>
      obtain ⟨m, h0⟩ := h0
      exact absurd (hr ▸ h0) not_ok_reset
    | single _ h1 hidx =>
      refine ⟨none, ?_, fun _ e he => ?_, nofun⟩
      · show (if d.isRehashing = true then _ else _) = _
        rw [Dict.isRehashing_of_none hidx]
        rfl
      · rw [Dict.entries, h1] at he
        rcases List.mem_append.1 he with he | he
        · exact hnot e he
        · cases he
    | moving r hm _ hidx =>
      obtain ⟨r', hrun', hfound'⟩ := findInTable_spec true key (d := d) hm.ht1
      refine ⟨r', ?_, fun hnone e he => ?_, hfound'.some⟩
      · show (if d.isRehashing = true then _ else _) = _
        rw [Dict.isRehashing_of_some hidx]
        exact hrun'
      · rcases List.mem_append.1 he with he | he
        · exact hnot e he
        · exact hfound'.none hnone e he

/-! ## The operations -/

/-- `dictAddRaw`: a new key gets an entry without a value, a key that is there is found. -/
inductive Dict.Added (hash : K → BitVec 64) (d : Dict K V) (key : K) (d' : Dict K V) :
    EntryRef K V ⊕ Option (EntryRef K V) → Prop
  | new (ref : EntryRef K V) (hok : d'.Ok hash) (hat : d'.At hash ref) (hentry : ref.entry = ⟨key, none⟩)
      (hnot : ∀ e ∈ d.entries, e.key ≠ key) (hperm : d'.entries.Perm (⟨key, none⟩ :: d.entries)) :
      d.Added hash key d' (.inl ref)
  | existing (ref : EntryRef K V) (hkeeps : d.Keeps hash d') (hat : d'.At hash ref) (hkey : ref.entry.key = key) :
      d.Added hash key d' (.inr (some ref))

theorem dictAddRaw_spec (canResize : Bool) (h : d.Ok hash) (hsize : d.dictSize ≤ 2 ^ 59) (key : K) :
    ∃ r d', dictAddRaw hash canResize d key = some (r, d') ∧ d.Added hash key d' r := by
  obtain ⟨d₁, hrun₁, hk₁, _⟩ := stepIfRehashing_spec h
  obtain ⟨d₂, hrun₂, hk₂, _, h0⟩ := dictExpandIfNeeded_spec canResize hk₁.ok (by rwa [hk₁.dictSize h])
  obtain ⟨r, hrun₃, hfound⟩ := findInTables_spec key hk₂.ok h0
  have hk := hk₁.trans hk₂
  rw [dictAddRaw, hrun₁]
  simp only [dictKeyIndex, hrun₂, hrun₃]
  cases r with
  | some ref =>
    obtain ⟨hat, hkey⟩ := hfound.some ref rfl
    exact ⟨_, d₂, rfl, .existing ref hk hat hkey⟩
  | none =>
    have hnot : ∀ e ∈ d₂.entries, e.key ≠ key := hfound.none rfl
    obtain ⟨chain, t, hchain, hpush, hok, hat, hperm⟩ := hk₂.ok.addEntry h0 hnot
    exact ⟨_, _, by simp only [hchain, hpush], .new _ hok hat rfl (fun e he => hnot e (hk.perm.mem_iff.2 he))
      (hperm.trans (hk.perm.cons _))⟩

end Find

/-! ## The calls -/

inductive Call (K V : Type)
  | add (key : K) (val : V)
  | replace (key : K) (val : V)
  | addOrFind (key : K)
  | delete (key : K)
  | unlink (key : K)
  | find (key : K)
  | fetchValue (key : K)
  | empty
  | resize
  | expand (size : ℕ)
  | rehash (n : ℕ)
  | enableResize
  | disableResize
  /-- A safe iterator begins, or ends. -/
  | iterate
  | release
  deriving DecidableEq, Repr

inductive Reply (K V : Type)
  | bool (b : Bool)
  | entry (e : Option (DictEntry K V))
  | value (v : Option V)
  /-- The answer of an operation that only reorganizes the tables is left open. -/
  | done
  deriving DecidableEq, Repr

structure State (K V : Type) where
  dict : Dict K V
  dict_can_resize : Bool
  deriving DecidableEq, Repr

def State.init : State K V := ⟨dictCreate, true⟩

variable [DecidableEq K]

def step (hash : K → BitVec 64) (s : State K V) : Call K V → Option (State K V × Reply K V)
  | .add key val => (dictAdd hash s.dict_can_resize s.dict key val).map fun (b, d) => ({ s with dict := d }, .bool b)
  | .replace key val =>
    (dictReplace hash s.dict_can_resize s.dict key val).map fun (b, d) => ({ s with dict := d }, .bool b)
  | .addOrFind key =>
    (dictAddOrFind hash s.dict_can_resize s.dict key).map fun (ref, d) =>
      ({ s with dict := d }, .entry (ref.map EntryRef.entry))
  | .delete key => (dictDelete hash s.dict key).map fun (b, d) => ({ s with dict := d }, .bool b)
  | .unlink key => (dictUnlink hash s.dict key).map fun (e, d) => ({ s with dict := d }, .entry e)
  | .find key =>
    (dictFind hash s.dict key).map fun (ref, d) => ({ s with dict := d }, .entry (ref.map EntryRef.entry))
  | .fetchValue key => (dictFetchValue hash s.dict key).map fun (v, d) => ({ s with dict := d }, .value v)
  | .empty => some ({ s with dict := dictEmpty s.dict }, .done)
  | .resize => (dictResize s.dict_can_resize s.dict).map fun (_, d) => ({ s with dict := d }, .done)
  | .expand size => (dictExpand s.dict size).map fun (_, d) => ({ s with dict := d }, .done)
  | .rehash n => (dictRehash hash s.dict n).map fun (_, d) => ({ s with dict := d }, .done)
  | .enableResize => some ({ s with dict_can_resize := true }, .done)
  | .disableResize => some ({ s with dict_can_resize := false }, .done)
  | .iterate => some ({ s with dict := { s.dict with iterators := s.dict.iterators + 1 } }, .done)
  | .release => some ({ s with dict := { s.dict with iterators := s.dict.iterators - 1 } }, .done)

/-- The same calls on a map. -/
def mapStep (m : K → Option (Option V)) : Call K V → (K → Option (Option V)) × Reply K V
  | .add key val =>
    if (m key).isNone then (Function.update m key (some (some val)), .bool true) else (m, .bool false)
  | .replace key val => (Function.update m key (some (some val)), .bool (m key).isNone)
  | .addOrFind key =>
    if (m key).isNone then (Function.update m key (some none), .entry (some ⟨key, none⟩))
    else (m, .entry ((m key).map (⟨key, ·⟩)))
  | .delete key => (Function.update m key none, .bool (m key).isSome)
  | .unlink key => (Function.update m key none, .entry ((m key).map (⟨key, ·⟩)))
  | .find key => (m, .entry ((m key).map (⟨key, ·⟩)))
  | .fetchValue key => (m, .value (m key).join)
  | .empty => (fun _ => none, .done)
  | .resize => (m, .done)
  | .expand _ => (m, .done)
  | .rehash _ => (m, .done)
  | .enableResize => (m, .done)
  | .disableResize => (m, .done)
  | .iterate => (m, .done)
  | .release => (m, .done)

/-! ## Each call does what it does on the map -/

variable {m : K → Option (Option V)}

theorem dictSetVal_spec {ref : EntryRef K V} (h : d.Ok hash) (hat : d.At hash ref) (hm : Represents d.entries m)
    (val : V) :
    (dictSetVal d ref val).Ok hash ∧
      Represents (dictSetVal d ref val).entries (Function.update m ref.entry.key (some (some val))) ∧
      (dictSetVal d ref val).dictSize = d.dictSize := by
  obtain ⟨hok, _, rest, hold, hnew⟩ := hat.replace h (e := { ref.entry with val := some val }) rfl
  have hnd := (hold.map DictEntry.key).nodup_iff.1 h.nodup
  refine ⟨hok, ((hm.perm hold.symm).replace hnd
    (show ({ ref.entry with val := some val } : DictEntry K V).key = ref.entry.key from rfl)).perm hnew, ?_⟩
  rw [h.dictSize_eq, hold.length_eq]
  exact hok.dictSize_eq.trans hnew.length_eq

/-- What `dictAddRaw` means for the map. -/
theorem Dict.Added.represents {key : K} {d' : Dict K V} {r : EntryRef K V ⊕ Option (EntryRef K V)}
    (h : d.Added hash key d' r) (hd : d.Ok hash) (hm : Represents d.entries m) :
    (∃ ref, r = .inl ref ∧ d'.Ok hash ∧ d'.At hash ref ∧ ref.entry = ⟨key, none⟩ ∧ m key = none ∧
        Represents d'.entries (Function.update m key (some none)) ∧ d'.dictSize = d.dictSize + 1) ∨
      ∃ ref, r = .inr (some ref) ∧ d'.Ok hash ∧ d'.At hash ref ∧ ref.entry.key = key ∧ m key = some ref.entry.val ∧
        Represents d'.entries m ∧ d'.dictSize = d.dictSize := by
  cases h with
  | new ref hok hat hentry hnot hperm =>
    refine .inl ⟨ref, rfl, hok, hat, hentry, hm.eq_none hnot, ?_, ?_⟩
    · exact (hm.cons (e := ⟨key, none⟩) hnot).perm hperm
    · rw [hok.dictSize_eq, hd.dictSize_eq, hperm.length_eq, List.length_cons]
  | existing ref hkeeps hat hkey =>
    have hm' := hm.perm hkeeps.perm
    exact .inr ⟨ref, rfl, hkeeps.ok, hat, hkey, hm'.eq_some hat.mem hkey, hm', hkeeps.dictSize hd⟩

/-- The call succeeds with the answer of the map `m`, and the dictionary is again that of the map. -/
def Simulates (hash : K → BitVec 64) (s : State K V) (m : K → Option (Option V)) (c : Call K V) : Prop :=
  ∃ s', step hash s c = some (s', (mapStep m c).2) ∧ s'.dict.Ok hash ∧ Represents s'.dict.entries (mapStep m c).1 ∧
    s'.dict.dictSize ≤ s.dict.dictSize + 1

omit [DecidableEq K] in
theorem eq_none_of_dictSize (h : d.Ok hash) (hm : Represents d.entries m) (hz : d.dictSize = 0) (key : K) :
    m key = none := by
  rw [h.dictSize_eq, List.length_eq_zero_iff] at hz
  refine hm.eq_none fun e he => ?_
  rw [hz] at he
  cases he

section Calls

variable {s : State K V} (h : s.dict.Ok hash) (hm : Represents s.dict.entries m)
include h hm

theorem simulates_add (hsize : s.dict.dictSize ≤ 2 ^ 59) (key : K) (val : V) : Simulates hash s m (.add key val) := by
  obtain ⟨r, d', hrun, hadded⟩ := dictAddRaw_spec s.dict_can_resize h hsize key
  obtain ⟨ref, rfl, hok, hat, hentry, hnone, hm', hlen⟩ | ⟨ref, rfl, hok, _, _, hsome, hm', hlen⟩ :=
    hadded.represents h hm
  · obtain ⟨hok', hm'', hlen'⟩ := dictSetVal_spec hok hat hm' val
    refine ⟨{ s with dict := dictSetVal d' ref val }, ?_, hok', ?_, by rw [hlen', hlen]⟩
    · simp only [step, dictAdd, hrun, mapStep, hnone]
      rfl
    · rw [hentry, Function.update_idem] at hm''
      simp only [mapStep, hnone]
      exact hm''
  · refine ⟨{ s with dict := d' }, ?_, hok, ?_, by rw [hlen]; exact Nat.le_succ _⟩
    · simp only [step, dictAdd, hrun, mapStep, hsome]
      rfl
    · simp only [mapStep, hsome]
      exact hm'

theorem simulates_replace (hsize : s.dict.dictSize ≤ 2 ^ 59) (key : K) (val : V) :
    Simulates hash s m (.replace key val) := by
  obtain ⟨r, d', hrun, hadded⟩ := dictAddRaw_spec s.dict_can_resize h hsize key
  obtain ⟨ref, rfl, hok, hat, hentry, hnone, hm', hlen⟩ | ⟨ref, rfl, hok, hat, hkey, hsome, hm', hlen⟩ :=
    hadded.represents h hm
  · obtain ⟨hok', hm'', hlen'⟩ := dictSetVal_spec hok hat hm' val
    refine ⟨{ s with dict := dictSetVal d' ref val }, ?_, hok', ?_, by rw [hlen', hlen]⟩
    · simp only [step, dictReplace, hrun, mapStep, hnone]
      rfl
    · rw [hentry, Function.update_idem] at hm''
      exact hm''
  · obtain ⟨hok', hm'', hlen'⟩ := dictSetVal_spec hok hat hm' val
    refine ⟨{ s with dict := dictSetVal d' ref val }, ?_, hok', ?_, by rw [hlen', hlen]; exact Nat.le_succ _⟩
    · simp only [step, dictReplace, hrun, mapStep, hsome]
      rfl
    · rw [hkey] at hm''
      exact hm''

theorem simulates_addOrFind (hsize : s.dict.dictSize ≤ 2 ^ 59) (key : K) : Simulates hash s m (.addOrFind key) := by
  obtain ⟨r, d', hrun, hadded⟩ := dictAddRaw_spec s.dict_can_resize h hsize key
  obtain ⟨ref, rfl, hok, hat, hentry, hnone, hm', hlen⟩ | ⟨ref, rfl, hok, hat, hkey, hsome, hm', hlen⟩ :=
    hadded.represents h hm
  · refine ⟨{ s with dict := d' }, ?_, hok, ?_, by rw [hlen]⟩
    · simp only [step, dictAddOrFind, hrun, mapStep, hnone, Option.map_some, hentry]
      rfl
    · simp only [mapStep, hnone]
      exact hm'
  · refine ⟨{ s with dict := d' }, ?_, hok, ?_, by rw [hlen]; exact Nat.le_succ _⟩
    · subst hkey
      simp only [step, dictAddOrFind, hrun, mapStep, hsome, Option.map_some]
      rfl
    · simp only [mapStep, hsome]
      exact hm'

/-- The search that deleting and finding share. -/
theorem lookup_spec (hne : s.dict.dictSize ≠ 0) (key : K) :
    ∃ d r, stepIfRehashing hash s.dict = some d ∧ d.Ok hash ∧ Represents d.entries m ∧ d.dictSize = s.dict.dictSize ∧
      findInTables hash d key = some r ∧
      (r = none ∧ m key = none ∨
        ∃ ref, r = some ref ∧ d.At hash ref ∧ ref.entry.key = key ∧ m key = some ref.entry.val) := by
  obtain ⟨d, hrun, hk, _⟩ := stepIfRehashing_spec h
  have hm' := hm.perm hk.perm
  have hlen := hk.dictSize h
  have h0 : ∃ m, d.ht0.Ok hash m := by
    cases hk.ok.shape with
    | empty h0 h1 _ =>
      rw [← hlen, Dict.dictSize, h0, h1] at hne
      exact absurd rfl hne
    | single h0 _ _ => exact h0
    | moving r hmv _ _ => exact hmv.ht0
  obtain ⟨r, hfind, hfound⟩ := findInTables_spec key hk.ok h0
  refine ⟨d, r, hrun, hk.ok, hm', hlen, hfind, ?_⟩
  cases r with
  | none => exact .inl ⟨rfl, hm'.eq_none (hfound.none rfl)⟩
  | some ref =>
    obtain ⟨hat, hkey⟩ := hfound.some ref rfl
    exact .inr ⟨ref, rfl, hat, hkey, hm'.eq_some hat.mem hkey⟩

theorem dictGenericDelete_spec (key : K) :
    ∃ d, dictGenericDelete hash s.dict key = some ((m key).map (⟨key, ·⟩), d) ∧ d.Ok hash ∧
      Represents d.entries (Function.update m key none) ∧ d.dictSize ≤ s.dict.dictSize := by
  rw [dictGenericDelete]
  split_ifs with hz
  · have hnone := eq_none_of_dictSize h hm (by rw [Dict.dictSize]; omega) key
    refine ⟨s.dict, by rw [hnone]; rfl, h, ?_, le_rfl⟩
    rwa [← hnone, Function.update_eq_self]
  · obtain ⟨d, r, hrun, hok, hm', hlen, hfind, hr⟩ := lookup_spec h hm (by rw [Dict.dictSize]; omega) key
    simp only [hrun, hfind]
    obtain ⟨rfl, hnone⟩ | ⟨ref, rfl, hat, hkey, hsome⟩ := hr
    · refine ⟨d, by rw [hnone]; rfl, hok, ?_, hlen.le⟩
      rwa [← hnone, Function.update_eq_self]
    · obtain ⟨hok', _, hperm⟩ := hat.remove hok
      have hnd := (hperm.map DictEntry.key).nodup_iff.1 hok.nodup
      have hm'' := (hm'.perm hperm.symm).erase hnd
      refine ⟨_, ?_, hok', hkey ▸ hm'', ?_⟩
      · subst hkey
        rw [hsome]
        rfl
      · have hlen' := hperm.length_eq
        rw [← hok.dictSize_eq, List.length_cons, ← hok'.dictSize_eq] at hlen'
        omega

theorem dictFind_spec (key : K) :
    ∃ ref d, dictFind hash s.dict key = some (ref, d) ∧ d.Ok hash ∧ Represents d.entries m ∧
      d.dictSize = s.dict.dictSize ∧ ref.map EntryRef.entry = (m key).map (⟨key, ·⟩) := by
  rw [dictFind]
  split_ifs with hz
  · exact ⟨none, s.dict, rfl, h, hm, rfl, by rw [eq_none_of_dictSize h hm hz key]; rfl⟩
  · obtain ⟨d, r, hrun, hok, hm', hlen, hfind, hr⟩ := lookup_spec h hm hz key
    simp only [hrun, hfind]
    refine ⟨r, d, rfl, hok, hm', hlen, ?_⟩
    obtain ⟨rfl, hnone⟩ | ⟨ref, rfl, _, rfl, hsome⟩ := hr
    · rw [hnone]
      rfl
    · rw [hsome]
      rfl

/-- An operation that only reorganizes the tables. -/
theorem simulates_keeps {c : Call K V} (s' : State K V) (hc : mapStep m c = (m, .done))
    (hrun : step hash s c = some (s', .done)) (hshape : s'.dict.Shape hash)
    (hperm : s'.dict.entries.Perm s.dict.entries) : Simulates hash s m c := by
  have hok := h.of_perm hshape hperm
  refine ⟨s', by rw [hrun, hc], hok, ?_, ?_⟩
  · rw [hc]
    exact hm.perm hperm
  · rw [hok.dictSize_eq, hperm.length_eq, h.dictSize_eq]
    exact Nat.le_succ _

/-- Each call: the sizes that are asked for fit into memory, and so do the entries. -/
theorem simulates (hsize : s.dict.dictSize ≤ 2 ^ 59) (c : Call K V) (hc : ∀ size, c = .expand size → size ≤ 2 ^ 60) :
    Simulates hash s m c := by
  cases c with
  | add key val => exact simulates_add h hm hsize key val
  | replace key val => exact simulates_replace h hm hsize key val
  | addOrFind key => exact simulates_addOrFind h hm hsize key
  | delete key =>
    obtain ⟨d, hrun, hok, hm', hlen⟩ := dictGenericDelete_spec h hm key
    refine ⟨{ s with dict := d }, ?_, hok, hm', hlen.trans (Nat.le_succ _)⟩
    simp only [step, dictDelete, hrun, mapStep, Option.map_some, Option.isSome_map]
  | unlink key =>
    obtain ⟨d, hrun, hok, hm', hlen⟩ := dictGenericDelete_spec h hm key
    refine ⟨{ s with dict := d }, ?_, hok, hm', hlen.trans (Nat.le_succ _)⟩
    simp only [step, dictUnlink, hrun, mapStep, Option.map_some]
  | find key =>
    obtain ⟨ref, d, hrun, hok, hm', hlen, href⟩ := dictFind_spec h hm key
    refine ⟨{ s with dict := d }, ?_, hok, hm', hlen.le.trans (Nat.le_succ _)⟩
    simp only [step, hrun, mapStep, Option.map_some, href]
  | fetchValue key =>
    obtain ⟨ref, d, hrun, hok, hm', hlen, href⟩ := dictFind_spec h hm key
    refine ⟨{ s with dict := d }, ?_, hok, hm', hlen.le.trans (Nat.le_succ _)⟩
    have hval : (ref.bind fun ref => ref.entry.val) = (m key).join := by
      calc (ref.bind fun ref => ref.entry.val) = (ref.map EntryRef.entry).bind DictEntry.val := by cases ref <;> rfl
        _ = ((m key).map fun v => ⟨key, v⟩).bind DictEntry.val := by rw [href]
        _ = (m key).join := by cases m key <;> rfl
    simp only [step, dictFetchValue, hrun, mapStep, Option.map_some, hval]
  | empty => exact ⟨{ s with dict := dictCreate }, rfl, dictCreate_ok, represents_nil, Nat.zero_le _⟩
  | resize =>
    obtain ⟨_, d, hrun, hkeeps⟩ := dictResize_spec s.dict_can_resize h
    exact simulates_keeps h hm { s with dict := d } rfl (by rw [step, hrun]; rfl) hkeeps.ok.shape hkeeps.perm
  | expand size =>
    obtain ⟨_, d, hrun, hkeeps, _⟩ := dictExpand_spec h size (hc size rfl)
    exact simulates_keeps h hm { s with dict := d } rfl (by rw [step, hrun]; rfl) hkeeps.ok.shape hkeeps.perm
  | rehash n =>
    obtain ⟨d, hrun, hkeeps, _⟩ := dictRehash_spec h n
    exact simulates_keeps h hm { s with dict := d } rfl (by rw [step, hrun]; rfl) hkeeps.ok.shape hkeeps.perm
  | enableResize => exact simulates_keeps h hm _ rfl rfl h.shape (List.Perm.refl _)
  | disableResize => exact simulates_keeps h hm _ rfl rfl h.shape (List.Perm.refl _)
  | iterate => exact simulates_keeps h hm _ rfl rfl (h.shape.setIterators _) (List.Perm.refl _)
  | release => exact simulates_keeps h hm _ rfl rfl (h.shape.setIterators _) (List.Perm.refl _)

end Calls

variable (hash) in
/-- A run of calls, with what it leads to. -/
theorem calls_ok (calls : List (Call K V)) (hlen : calls.length ≤ 2 ^ 59)
    (hexpand : ∀ size, .expand size ∈ calls → size ≤ 2 ^ 60) :
    ∃ s, runOut (step hash) State.init calls = some (s, outputs mapStep (fun _ => none) calls) ∧ s.dict.Ok hash ∧
      Represents s.dict.entries (final mapStep (fun _ => none) calls) ∧ s.dict.dictSize ≤ calls.length := by
  obtain ⟨s, hrun, hok, hm, hsize, _⟩ := @runOut_refines_ahead _ _ _ _ (step hash) mapStep
    (fun rest s m => s.dict.Ok hash ∧ Represents s.dict.entries m ∧
      s.dict.dictSize + rest.length ≤ calls.length ∧ ∀ size, .expand size ∈ rest → size ≤ 2 ^ 60)
    (fun c rest s m ⟨hok, hm, hsize, hexpand⟩ => by
      rw [List.length_cons] at hsize
      obtain ⟨s', hrun, hok', hm', hsize'⟩ := simulates hok hm (by omega) c fun size hc =>
        hexpand size (hc ▸ List.mem_cons_self)
      exact ⟨s', hrun, hok', hm', by omega, fun size hmem => hexpand size (List.mem_cons_of_mem c hmem)⟩)
    calls (s := State.init) (t := fun _ => none) ⟨dictCreate_ok, represents_nil, (Nat.zero_add _).le, hexpand⟩
  exact ⟨s, hrun, hok, hm, hsize⟩

end GoodGoodStudy.Redis
