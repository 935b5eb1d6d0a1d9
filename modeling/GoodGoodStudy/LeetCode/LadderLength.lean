/-
The exercise 127, word ladder: how many words a shortest ladder has from one word to another, where every word after the
first is in a list and differs from the one before in one letter; 0 if there is no ladder. `Solution` searches from the
first word. `Solution2` searches from both sides, always on from the smaller one: it looks for the words that it reaches
from `front` in `front` again, where its comment says that the sides have met.
-/
import GoodGoodStudy.Lib.Distance
import GoodGoodStudy.Lib.Grid
import GoodGoodStudy.Lib.Loop

namespace GoodGoodStudy.LeetCode.LadderLength

open GoodGoodStudy.Lib

/-- The letters from `'a'` to `'z'`. -/
abbrev Letter := Fin 26

abbrev Word (n : ℕ) := Vector Letter n

/-- An order in which the elements of sets are passed. It may be another one every time. -/
structure Order (α : Type) where
  list : ℕ → Finset α → List α
  mem_list : ∀ k s a, a ∈ list k s ↔ a ∈ s

instance (α : Type) : Nonempty (Order α) := ⟨⟨fun _ s => s.toList, fun _ _ _ => Finset.mem_toList⟩⟩

variable {n : ℕ}

/-! ## From one side -/

/-- The words `tmp` in the order of the two loops. -/
def candidates (alpha_possible : List Letter) (word : Word n) : List (Word n) :=
  (List.finRange n).flatMap fun i : Fin n => alpha_possible.map fun j => word.set i j i.isLt

abbrev Queue (n : ℕ) := List (Word n × ℕ)

def Solution.visit (step : ℕ) (s : Queue n × Finset (Word n)) (tmp : Word n) : Queue n × Finset (Word n) :=
  if tmp ∈ s.2 then (s.1 ++ [(tmp, step + 1)], s.2.erase tmp) else s

/-- One round of the loop, from the queue and the words that are left. -/
def Solution.round (alpha_possible : List Letter) (endWord : Word n) :
    Queue n × Finset (Word n) → Round (Queue n × Finset (Word n)) ℕ
  | ([], _) => .leave 0
  | ((word, step) :: queue, words) =>
    if word = endWord then .leave step
    else .again ((candidates alpha_possible word).foldl (visit step) (queue, words))

def Solution.ladderLength (order : Order Letter) (fuel : ℕ) (beginWord endWord : Word n) (wordList : List (Word n)) :
    Option ℕ :=
  let alpha_possible := order.list 0 (wordList.flatMap Vector.toList).toFinset
  let words := wordList.toFinset
  if endWord ∉ words then some 0 else loop (round alpha_possible endWord) fuel ([(beginWord, 1)], words)

/-! ## From both sides -/

/-- The words `new_word` in the order of the two loops. -/
def changes (word : Word n) : List (Word n) :=
  (List.finRange n).flatMap fun i => ((List.finRange 26).filter (· ≠ word.get i)).map fun c => word.set i c i.isLt

/-- The two sides, and the words that are left. -/
structure Sides (n : ℕ) where
  front : Finset (Word n)
  back : Finset (Word n)
  words : Finset (Word n)

/-- What the loops do with a word: the state is `next_front` and the words that are left, and `none` stands for the
`return` in the loops, which ends the function. -/
def Solution2.look (front : Finset (Word n)) (s : Finset (Word n) × Finset (Word n)) (new_word : Word n) :
    Option (Finset (Word n) × Finset (Word n)) :=
  if new_word ∈ front then none
  else if new_word ∈ s.2 then some (insert new_word s.1, s.2.erase new_word)
  else some s

def Solution2.round (order : Order (Word n)) : Sides n × ℕ → Round (Sides n × ℕ) ℕ
  | (⟨front, back, words⟩, dist) =>
    if front = ∅ then .leave 0
    else
      match ((order.list dist front).flatMap changes).foldlM (look front) (∅, words) with
      | none => .leave (dist + 1)
      | some (next_front, words) =>
        if back.card < next_front.card then .again (⟨back, next_front, words⟩, dist + 1)
        else .again (⟨next_front, back, words⟩, dist + 1)

def Solution2.ladderLength (order : Order (Word n)) (fuel : ℕ) (beginWord endWord : Word n)
    (wordList : List (Word n)) : Option ℕ :=
  let words := wordList.toFinset
  if endWord ∉ words then some 0 else loop (round order) fuel (⟨{beginWord}, {endWord}, words⟩, 1)

/-! ## Ladders -/

/-- The words differ in one letter. -/
def Adjacent (u v : Word n) : Prop := ∃ (i : Fin n) (c : Letter), c ≠ u.get i ∧ v = u.set i c i.isLt

theorem mem_changes {u v : Word n} : v ∈ changes u ↔ Adjacent u v := by
  simp only [changes, Adjacent, List.mem_flatMap, List.mem_finRange, true_and, List.mem_map, List.mem_filter,
    decide_eq_true_eq, eq_comm (a := v)]

instance (u v : Word n) : Decidable (Adjacent u v) := decidable_of_iff _ mem_changes

theorem Adjacent.symm {u v : Word n} (h : Adjacent u v) : Adjacent v u := by
  obtain ⟨i, c, hc, rfl⟩ := h
  refine ⟨i, u.get i, ?_, ?_⟩
  · rw [vector_get_set, if_pos rfl]
    exact hc.symm
  · rw [Vector.set_set]
    exact (Vector.set_getElem_self i.isLt).symm

theorem Adjacent.ne {u v : Word n} (h : Adjacent u v) : u ≠ v := by
  rintro rfl
  obtain ⟨i, c, hc, hu⟩ := h
  have hget := congrArg (fun w : Word n => w.get i) hu
  simp only [vector_get_set, if_pos] at hget
  exact hc hget.symm

/-- The graph of the words between which a ladder may step. -/
def ladder (U : Set (Word n)) : SimpleGraph (Word n) where
  Adj u v := u ∈ U ∧ v ∈ U ∧ Adjacent u v
  symm := ⟨fun _ _ h => ⟨h.2.1, h.1, h.2.2.symm⟩⟩
  loopless := ⟨fun _ h => h.2.2.ne rfl⟩

/-- The words of the list, and the first one. -/
def steps (beginWord : Word n) (wordList : List (Word n)) : Set (Word n) := insert beginWord {v | v ∈ wordList}

/-- The number of words of a shortest ladder from `p` to `q`, or 0. -/
structure IsLength (G : SimpleGraph (Word n)) (p q : Word n) (r : ℕ) : Prop where
  some : ∀ d : ℕ, G.edist p q = d → r = d + 1
  none : G.edist p q = ⊤ → r = 0

section Steps

variable {beginWord endWord : Word n} {wordList : List (Word n)}

theorem mem_or_eq_of_adj {u v : Word n} (h : (ladder (steps beginWord wordList)).Adj u v) :
    v ∈ (wordList.toFinset : Set (Word n)) ∨ v = beginWord := by
  rcases h.2.1 with hv | hv
  · exact Or.inr hv
  · exact Or.inl (List.mem_toFinset.2 hv)

theorem mem_of_edist_le {U : Set (Word n)} {p u : Word n} {a : ℕ} (hp : p ∈ U) (h : (ladder U).edist p u ≤ a) :
    u ∈ U := by
  obtain ⟨k, hk⟩ := ENat.ne_top_iff_exists.1 (ne_top_of_le_ne_top (ENat.natCast_ne_top a) h)
  cases k with
  | zero => exact SimpleGraph.edist_eq_zero_iff.1 hk.symm ▸ hp
  | succ k =>
    obtain ⟨v, -, hadj⟩ := exists_adj_of_edist_eq hk.symm
    exact hadj.2.1

end Steps

/-- A ladder, word by word: neighbours differ in exactly one letter, and every word after the first is in the list. -/
structure IsLadder (beginWord endWord : Word n) (wordList l : List (Word n)) : Prop where
  head : l.head? = some beginWord
  last : l.getLast? = some endWord
  chain : l.IsChain fun u v => ∃! i : Fin n, u.get i ≠ v.get i
  mem : ∀ v ∈ l.tail, v ∈ wordList

theorem adjacent_iff {u v : Word n} : Adjacent u v ↔ ∃! i : Fin n, u.get i ≠ v.get i := by
  constructor
  · rintro ⟨i, c, hc, rfl⟩
    refine ⟨i, ?_, fun j hj => ?_⟩
    · simp only [vector_get_set, if_pos]
      exact hc.symm
    · by_contra hne
      simp only [vector_get_set, if_neg hne, ne_eq, not_true_eq_false] at hj
  · rintro ⟨i, hi, huniq⟩
    refine ⟨i, v.get i, hi.symm, Vector.ext fun j hj => ?_⟩
    have hget := vector_get_set u i ⟨j, hj⟩ (v.get i)
    split_ifs at hget with hji
    · exact (congrArg v.get hji).trans hget.symm
    · have hsame : u.get ⟨j, hj⟩ = v.get ⟨j, hj⟩ := by
        by_contra hne
        exact hji (huniq _ hne)
      exact hsame.symm.trans hget.symm

section Ladders

variable {beginWord endWord : Word n} {wordList l : List (Word n)}

theorem IsLadder.isTrack (h : IsLadder beginWord endWord wordList l) :
    IsTrack (ladder (steps beginWord wordList)) beginWord endWord l where
  head := h.head
  last := h.last
  chain := by
    obtain ⟨ws, rfl⟩ := List.head?_eq_some_iff.1 h.head
    have hsteps : ∀ v ∈ beginWord :: ws, v ∈ steps beginWord wordList := fun v hv =>
      (List.mem_cons.1 hv).imp_right (h.mem v)
    exact h.chain.imp_of_mem_imp fun u v hu hv hdiff => ⟨hsteps u hu, hsteps v hv, adjacent_iff.2 hdiff⟩

/-- A track that does not come back to the first word is a ladder. -/
theorem IsLadder.of_isTrack (h : IsTrack (ladder (steps beginWord wordList)) beginWord endWord l) (hnodup : l.Nodup) :
    IsLadder beginWord endWord wordList l where
  head := h.head
  last := h.last
  chain := h.chain.imp fun u v hadj => adjacent_iff.1 hadj.2.2
  mem := by
    obtain ⟨ws, rfl⟩ := List.head?_eq_some_iff.1 h.head
    intro v hv
    obtain ⟨u, hadj⟩ := exists_adj_of_isChain h.chain v hv
    apply hadj.2.1.resolve_left
    rintro rfl
    exact (List.nodup_cons.1 hnodup).1 hv

/-- The number of words of a shortest ladder, word by word. -/
theorem IsLength.isLeast_or {r : ℕ} (h : IsLength (ladder (steps beginWord wordList)) beginWord endWord r) :
    IsLeast {k | ∃ l, IsLadder beginWord endWord wordList l ∧ l.length = k} r ∨
      (∀ l, ¬ IsLadder beginWord endWord wordList l) ∧ r = 0 := by
  by_cases htop : (ladder (steps beginWord wordList)).edist beginWord endWord = ⊤
  · refine Or.inr ⟨fun l hl => ?_, h.none htop⟩
    have hle := hl.isTrack.edist_add_one_le
    rw [htop, top_add, top_le_iff] at hle
    exact ENat.natCast_ne_top l.length hle
  · obtain ⟨d, hd⟩ := ENat.ne_top_iff_exists.1 htop
    obtain ⟨l, hl, hnodup, hlen⟩ := exists_track hd.symm
    rw [h.some d hd.symm]
    refine Or.inl ⟨⟨l, IsLadder.of_isTrack hl hnodup, hlen⟩, ?_⟩
    rintro _ ⟨l', hl', rfl⟩
    have hle := hl'.isTrack.edist_add_one_le
    rw [← hd] at hle
    exact_mod_cast hle

end Ladders

/-! ## `Solution` -/

namespace Solution

variable {beginWord endWord : Word n} {wordList : List (Word n)} {alpha_possible : List Letter}

theorem eq_or_adjacent {u v : Word n} (h : v ∈ candidates alpha_possible u) : u = v ∨ Adjacent u v := by
  simp only [candidates, List.mem_flatMap, List.mem_finRange, true_and, List.mem_map] at h
  obtain ⟨i, j, -, rfl⟩ := h
  by_cases hj : j = u.get i
  · subst hj
    exact Or.inl (Vector.set_getElem_self i.isLt).symm
  · exact Or.inr ⟨i, j, hj, rfl⟩

/-- Every letter of the words is tried. -/
theorem mem_candidates (halpha : ∀ c, c ∈ alpha_possible ↔ ∃ word ∈ wordList, c ∈ word.toList) {u v : Word n}
    (hv : v ∈ wordList) (h : Adjacent u v) : v ∈ candidates alpha_possible u := by
  obtain ⟨i, c, -, rfl⟩ := h
  simp only [candidates, List.mem_flatMap, List.mem_finRange, true_and, List.mem_map]
  refine ⟨i, c, (halpha c).2 ⟨_, hv, ?_⟩, rfl⟩
  have hmem : (u.set i c).get i ∈ u.set i c := Vector.getElem_mem i.isLt
  rw [vector_get_set, if_pos rfl] at hmem
  exact Vector.mem_toList_iff.2 hmem

/-- What the two loops add to the queue they take from the words. -/
theorem foldl_visit (step : ℕ) : ∀ (l : List (Word n)) (queue : Queue n) (words : Finset (Word n)),
    ∃ new : List (Word n), l.foldl (visit step) (queue, words) =
        (queue ++ new.map (·, step + 1), words \ new.toFinset) ∧
      (∀ v, v ∈ new ↔ v ∈ words ∧ v ∈ l) ∧ (words \ new.toFinset).card + new.length = words.card
  | [], queue, words => ⟨[], by simp, by simp, by simp⟩
  | tmp :: l, queue, words => by
    rw [List.foldl_cons, visit]
    split_ifs with htmp
    · obtain ⟨new, heq, hnew, hcard⟩ := foldl_visit step l (queue ++ [(tmp, step + 1)]) (words.erase tmp)
      have hwords : words \ (tmp :: new).toFinset = words.erase tmp \ new.toFinset := by
        rw [List.toFinset_cons, Finset.sdiff_insert, Finset.erase_sdiff_comm]
      refine ⟨tmp :: new, ?_, fun v => ?_, ?_⟩
      · rw [heq, hwords, List.append_assoc]
        rfl
      · rw [List.mem_cons, List.mem_cons, hnew, Finset.mem_erase]
        by_cases hv : v = tmp
        · simp only [hv, htmp, true_or, true_and]
        · simp only [hv, false_or, ne_eq, not_false_eq_true, true_and]
      · have herase : (words.erase tmp).card + 1 = words.card := Finset.card_erase_add_one htmp
        rw [hwords, List.length_cons]
        omega
    · obtain ⟨new, heq, hnew, hcard⟩ := foldl_visit step l queue words
      refine ⟨new, heq, fun v => ?_, hcard⟩
      rw [hnew, List.mem_cons]
      refine and_congr_right fun hv => ⟨Or.inr, fun h => h.resolve_left ?_⟩
      rintro rfl
      exact htmp hv

/-- The queue holds what is ahead in the level, and what is found for the next one. -/
def Searching (wordList : List (Word n)) (G : SimpleGraph (Word n)) (p goal : Word n)
    (s : Queue n × Finset (Word n)) : Prop :=
  ∃ (a : ℕ) (done ahead found : List (Word n)) (words : Finset (Word n)),
    s = (ahead.map (·, a + 1) ++ found.map (·, a + 2), words \ found.toFinset) ∧
      Queued G p goal words a done ahead found ∧ words ⊆ wordList.toFinset

theorem round_cons (halpha : ∀ c, c ∈ alpha_possible ↔ ∃ word ∈ wordList, c ∈ word.toList) {a : ℕ}
    {done ahead found : List (Word n)} {words : Finset (Word n)} {x : Word n} {s : Queue n × Finset (Word n)}
    (hs : s = ((x :: ahead).map (·, a + 1) ++ found.map (·, a + 2), words \ found.toFinset))
    (h : Queued (ladder (steps beginWord wordList)) beginWord endWord words a done (x :: ahead) found)
    (hsub : words ⊆ wordList.toFinset) :
    (∃ s', round alpha_possible endWord s = .again s' ∧
        Searching wordList (ladder (steps beginWord wordList)) beginWord endWord s' ∧
        s'.2.card + s'.1.length < s.2.card + s.1.length) ∨
      ∃ r, round alpha_possible endWord s = .leave r ∧
        IsLength (ladder (steps beginWord wordList)) beginWord endWord r := by
  subst hs
  by_cases hx : x = endWord
  · subst hx
    refine Or.inr ⟨a + 1, if_pos rfl, fun d hd => ?_, fun htop => ?_⟩
    · rw [h.edist_eq, Nat.cast_inj] at hd
      rw [hd]
    · rw [h.edist_eq] at htop
      exact absurd htop (ENat.natCast_ne_top a)
  · obtain ⟨new, heq, hnew, hcard⟩ := foldl_visit (a + 1) (candidates alpha_possible x)
      (ahead.map (·, a + 1) ++ found.map (·, a + 2)) (words \ found.toFinset)
    have hx' : x ∈ steps beginWord wordList := mem_of_edist_le (Or.inl rfl)
      (h.search.level.near x (List.mem_append_right done List.mem_cons_self))
    have hword : ∀ v ∈ words, v ∈ wordList := fun v hv => List.mem_toFinset.1 (hsub hv)
    have hlook : Queued (ladder (steps beginWord wordList)) beginWord endWord words a (done ++ [x]) ahead
        (found ++ new) := by
      refine h.look hx (fun v hv => ?_) fun v hv hfound hadj => ?_
      · obtain ⟨hv, hcand⟩ := (hnew v).1 hv
        have hvU : v ∈ steps beginWord wordList := Or.inr (hword v (Finset.mem_sdiff.1 hv).1)
        exact (eq_or_adjacent hcand).imp_right fun hadj => ⟨hx', hvU, hadj⟩
      · refine (hnew v).2 ⟨Finset.mem_sdiff.2 ⟨hv, mt List.mem_toFinset.1 hfound⟩, ?_⟩
        exact mem_candidates halpha (hword v hv) hadj.2.2
    refine Or.inl ⟨_, (if_neg hx).trans (congrArg Round.again heq), ?_, ?_⟩
    · refine ⟨a, done ++ [x], ahead, found ++ new, words, ?_, hlook, hsub⟩
      rw [List.map_append, List.append_assoc, List.toFinset_append, sdiff_sdiff_left]
      rfl
    · simp only [List.length_append, List.length_map, List.length_cons]
      omega

theorem returns (halpha : ∀ c, c ∈ alpha_possible ↔ ∃ word ∈ wordList, c ∈ word.toList) :
    ∃ r, Returns (fun fuel => loop (round alpha_possible endWord) fuel ([(beginWord, 1)], wordList.toFinset)) r ∧
      IsLength (ladder (steps beginWord wordList)) beginWord endWord r := by
  refine Returns.loop_of_measure (fun s => s.2.card + s.1.length)
    (I := Searching wordList (ladder (steps beginWord wordList)) beginWord endWord) ?_
    ⟨0, [], [beginWord], [], wordList.toFinset, by simp, Queued.init endWord fun u v => mem_or_eq_of_adj,
      Finset.Subset.refl _⟩
  rintro _ ⟨a, done, ahead, found, words, rfl, h, hsub⟩
  cases ahead with
  | cons x ahead => exact round_cons halpha rfl h hsub
  | nil =>
    cases found with
    | nil =>
      have htop := h.edist_eq_top
      exact Or.inr ⟨0, rfl, fun d hd => absurd (hd.symm.trans htop) (ENat.natCast_ne_top d), fun _ => rfl⟩
    | cons x found =>
      have hturn := h.turn
      rw [← List.coe_toFinset, ← Finset.coe_sdiff] at hturn
      refine round_cons halpha ?_ hturn (Finset.sdiff_subset.trans hsub)
      rw [List.map_nil, List.nil_append, List.map_nil, List.append_nil, List.toFinset_nil, Finset.sdiff_empty]

end Solution

/-! ## The search from both sides -/

namespace Sides

/-- Two words of the front differ in one letter: what `Solution2` tests. -/
def Clash (s : Sides n) : Prop := ∃ u ∈ s.front, ∃ v ∈ s.front, Adjacent u v

/-- A word of the front and a word of the back differ in one letter. -/
def Meets (s : Sides n) : Prop := ∃ u ∈ s.front, ∃ v ∈ s.back, Adjacent u v

instance (s : Sides n) : Decidable (Clash s) := inferInstanceAs (Decidable (∃ u ∈ s.front, ∃ v ∈ s.front, _))

instance (s : Sides n) : Decidable (Meets s) := inferInstanceAs (Decidable (∃ u ∈ s.front, ∃ v ∈ s.back, _))

def next (s : Sides n) : Finset (Word n) := s.words.filter fun v => ∃ u ∈ s.front, Adjacent u v

/-- The front moves to the next words, and the smaller side is the front of the next round. -/
def advance (s : Sides n) : Sides n :=
  if s.back.card < s.next.card then ⟨s.back, s.next, s.words \ s.next⟩ else ⟨s.next, s.back, s.words \ s.next⟩

/-- The sides before the round `t`, if the search did not end before. -/
def before (beginWord endWord : Word n) (wordList : List (Word n)) (t : ℕ) : Sides n :=
  advance^[t] ⟨{beginWord}, {endWord}, wordList.toFinset⟩

@[simp] theorem words_advance (s : Sides n) : s.advance.words = s.words \ s.next := by
  rw [advance]
  split_ifs <;> rfl

theorem before_succ (beginWord endWord : Word n) (wordList : List (Word n)) (t : ℕ) :
    before beginWord endWord wordList (t + 1) = (before beginWord endWord wordList t).advance :=
  Function.iterate_succ_apply' advance t _

theorem front_advance_of_next {s : Sides n} (h : s.next = ∅) : s.advance.front = ∅ := by
  rw [advance, h, Finset.card_empty, if_neg (Nat.not_lt_zero _)]

theorem next_eq_empty {s : Sides n} (h : s.front = ∅) : s.next = ∅ :=
  Finset.filter_false_of_mem fun v _ ⟨u, hu, _⟩ => by rw [h] at hu; exact Finset.notMem_empty u hu

theorem not_clash_of_front {s : Sides n} (h : s.front = ∅) : ¬ s.Clash :=
  fun ⟨u, hu, _⟩ => by rw [h] at hu; exact Finset.notMem_empty u hu

/-- Without a front there is nothing to go on from. -/
theorem front_before_add {beginWord endWord : Word n} {wordList : List (Word n)} {t : ℕ}
    (h : (before beginWord endWord wordList t).front = ∅) (d : ℕ) :
    (before beginWord endWord wordList (t + d)).front = ∅ := by
  induction d with
  | zero => exact h
  | succ d ih =>
    rw [← Nat.add_assoc, before_succ]
    exact front_advance_of_next (next_eq_empty ih)

/-- It never increases, and it decreases as long as there is a front. -/
def weight (s : Sides n) : ℕ := 2 * s.words.card + if s.front = ∅ then 0 else 1

theorem weight_advance_lt {s : Sides n} (h : s.front ≠ ∅) : s.advance.weight < s.weight := by
  rw [weight, weight, if_neg h, words_advance]
  by_cases hnext : s.next = ∅
  · rw [if_pos (front_advance_of_next hnext), hnext, Finset.sdiff_empty]
    exact Nat.lt_succ_self _
  · have hlt : (s.words \ s.next).card < s.words.card :=
      Finset.card_lt_card (Finset.sdiff_ssubset (Finset.filter_subset _ _) (Finset.nonempty_iff_ne_empty.2 hnext))
    split_ifs <;> omega

end Sides

/-- The number of words of a ladder for which the sides meet in the first round with `P`, or 0. -/
structure AtFirst (P : ℕ → Prop) (r : ℕ) : Prop where
  first : ∀ t, IsLeast {t | P t} t → r = t + 2
  never : (∀ t, ¬ P t) → r = 0

section AtFirst

variable {P Q : ℕ → Prop} {r r' : ℕ}

theorem AtFirst.eq_zero_or (h : AtFirst P r) : r = 0 ∨ ∃ t, IsLeast {t | P t} t := by
  classical
  by_cases hP : ∃ t, P t
  · exact Or.inr ⟨_, Nat.isLeast_find hP⟩
  · exact Or.inl (h.never (not_exists.1 hP))

theorem AtFirst.eq_add_two_iff (h : AtFirst P r) (t : ℕ) : r = t + 2 ↔ IsLeast {t | P t} t := by
  refine ⟨fun heq => ?_, h.first t⟩
  rcases h.eq_zero_or with hzero | ⟨t', ht'⟩
  · omega
  · have hr := h.first t' ht'
    obtain rfl : t' = t := by omega
    exact ht'

theorem AtFirst.eq_iff (h : AtFirst P r) (h' : AtFirst Q r') :
    r = r' ↔ ∀ t, IsLeast {t | P t} t ↔ IsLeast {t | Q t} t := by
  simp only [← h.eq_add_two_iff, ← h'.eq_add_two_iff]
  refine ⟨fun heq t => by rw [heq], fun hiff => ?_⟩
  rcases h.eq_zero_or with hzero | ⟨t, ht⟩
  · rcases h'.eq_zero_or with hzero' | ⟨t, ht⟩
    · rw [hzero, hzero']
    · exact ((hiff t).2 (h'.first t ht)).trans (h'.first t ht).symm
  · exact (h.first t ht).trans ((hiff t).1 (h.first t ht)).symm

end AtFirst

namespace Solution2

theorem foldlM_look (front : Finset (Word n)) : ∀ (l : List (Word n)) (next words : Finset (Word n)),
    l.foldlM (look front) (next, words) =
      if ∃ v ∈ l, v ∈ front then none else some (next ∪ words ∩ l.toFinset, words \ l.toFinset)
  | [], next, words => by simp
  | v :: l, next, words => by
    rw [List.foldlM_cons, look, List.toFinset_cons]
    by_cases hv : v ∈ front
    · rw [if_pos hv, if_pos ⟨v, List.mem_cons_self, hv⟩]
      rfl
    have hiff : (∃ u ∈ v :: l, u ∈ front) ↔ ∃ u ∈ l, u ∈ front := by
      simp only [List.mem_cons, or_and_right, exists_or, exists_eq_left, hv, false_or]
    rw [if_neg hv, if_congr hiff rfl rfl]
    by_cases hword : v ∈ words
    · have hnext : insert v next ∪ words.erase v ∩ l.toFinset = next ∪ words ∩ insert v l.toFinset := by
        ext u
        by_cases hu : u = v
        · simp only [hu, Finset.mem_union, Finset.mem_insert_self, Finset.mem_inter, hword, true_or, and_self, or_true]
        · simp only [hu, Finset.mem_union, Finset.mem_insert, Finset.mem_inter, Finset.mem_erase, false_or, ne_eq,
            not_false_eq_true, true_and]
      rw [if_pos hword, Finset.sdiff_insert, ← hnext, ← Finset.erase_sdiff_comm]
      exact foldlM_look front l (insert v next) (words.erase v)
    · rw [if_neg hword, Finset.inter_insert_of_notMem hword, Finset.sdiff_insert_of_notMem hword]
      exact foldlM_look front l next words

/-- What is found does not depend on the order. -/
theorem round_eq (order : Order (Word n)) (s : Sides n) (dist : ℕ) : round order (s, dist) =
    if s.front = ∅ then .leave 0 else if s.Clash then .leave (dist + 1) else .again (s.advance, dist + 1) := by
  obtain ⟨front, back, words⟩ := s
  have hmem : ∀ v, v ∈ (order.list dist front).flatMap changes ↔ ∃ u ∈ front, Adjacent u v := by
    simp only [List.mem_flatMap, order.mem_list, mem_changes, implies_true]
  have hclash : (∃ v ∈ (order.list dist front).flatMap changes, v ∈ front) ↔ (Sides.mk front back words).Clash := by
    simp only [hmem]
    exact ⟨fun ⟨v, ⟨u, hu, hadj⟩, hv⟩ => ⟨u, hu, v, hv, hadj⟩, fun ⟨u, hu, v, hv, hadj⟩ => ⟨v, ⟨u, hu, hadj⟩, hv⟩⟩
  have hnext : ∅ ∪ words ∩ ((order.list dist front).flatMap changes).toFinset = (Sides.mk front back words).next := by
    ext v
    rw [Finset.empty_union, Finset.mem_inter, List.mem_toFinset, hmem]
    rw [Sides.next, Finset.mem_filter]
  have hwords : words \ ((order.list dist front).flatMap changes).toFinset =
      words \ (Sides.mk front back words).next := by
    rw [← hnext, Finset.empty_union, Finset.sdiff_inter_self_left]
  rw [round, foldlM_look, if_congr hclash rfl rfl, hnext, hwords]
  by_cases hc : (Sides.mk front back words).Clash
  · rw [if_pos hc, if_pos hc]
  · rw [if_neg hc, if_neg hc, Sides.advance]
    dsimp only
    split_ifs with hfront hcard
    · rfl
    · rfl
    · rfl

/-- It returns in the first round in which two words of the front differ in one letter. -/
theorem returns (order : Order (Word n)) (beginWord endWord : Word n) (wordList : List (Word n)) :
    ∃ r, Returns (fun fuel => loop (round order) fuel (⟨{beginWord}, {endWord}, wordList.toFinset⟩, 1)) r ∧
      AtFirst (fun t => (Sides.before beginWord endWord wordList t).Clash) r := by
  refine Returns.loop_of_measure (fun s => s.1.weight)
    (I := fun s => ∃ t, s = (Sides.before beginWord endWord wordList t, t + 1) ∧
      ∀ t' < t, ¬ (Sides.before beginWord endWord wordList t').Clash) ?_ ⟨0, rfl, nofun⟩
  rintro _ ⟨t, rfl, hno⟩
  rw [round_eq]
  by_cases hfront : (Sides.before beginWord endWord wordList t).front = ∅
  · refine Or.inr ⟨0, if_pos hfront, fun t' ht' => ?_, fun _ => rfl⟩
    by_cases hlt : t' < t
    · exact absurd ht'.1 (hno t' hlt)
    · obtain ⟨d, rfl⟩ := Nat.exists_eq_add_of_le (Nat.le_of_not_lt hlt)
      exact absurd ht'.1 (Sides.not_clash_of_front (Sides.front_before_add hfront d))
  rw [if_neg hfront]
  by_cases hclash : (Sides.before beginWord endWord wordList t).Clash
  · refine Or.inr ⟨t + 2, if_pos hclash, fun t' ht' => ?_, fun hnone => absurd hclash (hnone t)⟩
    have hle : t' ≤ t := ht'.2 hclash
    have hge : t ≤ t' := Nat.le_of_not_lt fun hlt => hno t' hlt ht'.1
    omega
  · refine Or.inl ⟨_, if_neg hclash, ⟨t + 1, by rw [Sides.before_succ], fun t' ht' => ?_⟩,
      Sides.weight_advance_lt hfront⟩
    rcases Nat.lt_succ_iff_lt_or_eq.1 ht' with hlt | rfl
    · exact hno t' hlt
    · exact hclash

end Solution2

/-! ## Where the sides meet -/

namespace Sides

variable {U : Set (Word n)} {p q : Word n} {s : Sides n} {t : ℕ}

/-- The front was reached from `p` and the back from `q`, in `t` rounds. -/
def Between (U : Set (Word n)) (p q : Word n) (s : Sides n) (t : ℕ) : Prop :=
  ∃ a b, a + b = t ∧ TwoSided (ladder U) p q s.words a s.front b s.back

theorem Between.meets_iff (hp : p ∈ U) (hq : q ∈ U) (h : Between U p q s t) :
    s.Meets ↔ (ladder U).edist p q = (t + 1 : ℕ) := by
  obtain ⟨a, b, rfl, h⟩ := h
  rw [← h.meet_iff]
  constructor
  · rintro ⟨u, hu, v, hv, hadj⟩
    exact ⟨u, hu, v, hv, mem_of_edist_le hp (h.front.near u hu), mem_of_edist_le hq (h.back.near v hv), hadj⟩
  · exact fun ⟨u, hu, v, hv, hadj⟩ => ⟨u, hu, v, hv, hadj.2.2⟩

theorem Between.succ (hp : p ∈ U) (hwords : ∀ v ∈ s.words, v ∈ U) (h : Between U p q s t)
    (hne : (ladder U).edist p q ≠ (t + 1 : ℕ)) :
    Between U p q s.advance (t + 1) ∨ Between U q p s.advance (t + 1) := by
  obtain ⟨a, b, rfl, h⟩ := h
  have hnext : IsNext (ladder U) s.words s.front s.next :=
    { near := fun v hv => by
        obtain ⟨hv, u, hu, hadj⟩ := Finset.mem_filter.1 hv
        exact ⟨u, hu, Or.inr ⟨mem_of_edist_le hp (h.front.near u hu), hwords v hv, hadj⟩⟩
      all := fun u hu v hv hadj => Finset.mem_filter.2 ⟨hv, u, hu, hadj.2.2⟩ }
  have hsucc := h.succ (mt h.meet_iff.1 hne) hnext
  rw [← Finset.coe_sdiff] at hsucc
  rw [advance]
  split_ifs
  · exact Or.inr ⟨b, a + 1, by omega, hsucc.swap⟩
  · exact Or.inl ⟨a + 1, b, by omega, hsucc⟩

end Sides

section Meeting

variable {beginWord endWord : Word n} {wordList : List (Word n)}

open Sides

theorem words_before (t : ℕ) : ∀ v ∈ (before beginWord endWord wordList t).words, v ∈ wordList := by
  induction t with
  | zero => exact fun v hv => List.mem_toFinset.1 hv
  | succ t ih =>
    intro v hv
    rw [before_succ, words_advance] at hv
    exact ih v (Finset.mem_sdiff.1 hv).1

theorem between_before (hne : beginWord ≠ endWord) (hend : endWord ∈ wordList) : ∀ t,
    (∀ t' < t, (ladder (steps beginWord wordList)).edist beginWord endWord ≠ (t' + 1 : ℕ)) →
      Between (steps beginWord wordList) beginWord endWord (before beginWord endWord wordList t) t ∨
        Between (steps beginWord wordList) endWord beginWord (before beginWord endWord wordList t) t
  | 0, _ => by
    have hinit := TwoSided.init hne fun u v (hadj : (ladder (steps beginWord wordList)).Adj u v) =>
      mem_or_eq_of_adj hadj
    rw [← Finset.coe_singleton, ← Finset.coe_singleton] at hinit
    exact Or.inl ⟨0, 0, rfl, hinit⟩
  | t + 1, hno => by
    have hwords : ∀ v ∈ (before beginWord endWord wordList t).words, v ∈ steps beginWord wordList :=
      fun v hv => Or.inr (words_before t v hv)
    rw [before_succ]
    rcases between_before hne hend t fun t' ht' => hno t' (Nat.lt_succ_of_lt ht') with h | h
    · exact h.succ (Or.inl rfl) hwords (hno t t.lt_succ_self)
    · exact (h.succ (Or.inr hend) hwords (SimpleGraph.edist_comm.trans_ne (hno t t.lt_succ_self))).symm

theorem meets_before_iff (hne : beginWord ≠ endWord) (hend : endWord ∈ wordList) (t : ℕ)
    (hno : ∀ t' < t, (ladder (steps beginWord wordList)).edist beginWord endWord ≠ (t' + 1 : ℕ)) :
    (before beginWord endWord wordList t).Meets ↔
      (ladder (steps beginWord wordList)).edist beginWord endWord = (t + 1 : ℕ) := by
  have hbegin : beginWord ∈ steps beginWord wordList := Or.inl rfl
  have hend' : endWord ∈ steps beginWord wordList := Or.inr hend
  rcases between_before hne hend t hno with h | h
  · exact h.meets_iff hbegin hend'
  · rw [SimpleGraph.edist_comm]
    exact h.meets_iff hend' hbegin

/-- The length of a shortest ladder tells the round in which the sides meet. -/
theorem edist_eq_iff (hne : beginWord ≠ endWord) (hend : endWord ∈ wordList) (t : ℕ) :
    (ladder (steps beginWord wordList)).edist beginWord endWord = (t + 1 : ℕ) ↔
      IsLeast {t | (before beginWord endWord wordList t).Meets} t := by
  have hinj : ∀ {t t' : ℕ}, (ladder (steps beginWord wordList)).edist beginWord endWord = (t + 1 : ℕ) →
      (ladder (steps beginWord wordList)).edist beginWord endWord = (t' + 1 : ℕ) → t = t' :=
    fun h h' => Nat.succ_injective (Nat.cast_injective (h.symm.trans h'))
  have hmeets : ∀ t, (ladder (steps beginWord wordList)).edist beginWord endWord = (t + 1 : ℕ) →
      (before beginWord endWord wordList t).Meets := fun t heq =>
    (meets_before_iff hne hend t fun t' ht' heq' => ht'.ne (hinj heq' heq)).2 heq
  constructor
  · intro heq
    refine ⟨hmeets t heq, fun t' ht' => Nat.le_of_not_lt fun hlt => ?_⟩
    have heq' := (meets_before_iff hne hend t' fun t'' h'' heq'' => (h''.trans hlt).ne (hinj heq'' heq)).1 ht'
    exact hlt.ne (hinj heq' heq)
  · rintro ⟨hmem, hleast⟩
    refine (meets_before_iff hne hend t fun t' ht' heq => ?_).1 hmem
    exact absurd (hleast (hmeets t' heq)) (not_le_of_gt ht')

theorem edist_eq_top (hne : beginWord ≠ endWord) (hend : endWord ∈ wordList)
    (h : ∀ t, ¬ (before beginWord endWord wordList t).Meets) :
    (ladder (steps beginWord wordList)).edist beginWord endWord = ⊤ := by
  by_contra htop
  obtain ⟨k, hk⟩ := ENat.ne_top_iff_exists.1 htop
  cases k with
  | zero => exact hne (SimpleGraph.edist_eq_zero_iff.1 hk.symm)
  | succ k => exact h k ((edist_eq_iff hne hend k).1 hk.symm).1

end Meeting

/-! ## The two functions -/

theorem mem_alpha_possible (order : Order Letter) (wordList : List (Word n)) (c : Letter) :
    c ∈ order.list 0 (wordList.flatMap Vector.toList).toFinset ↔ ∃ word ∈ wordList, c ∈ word.toList := by
  rw [order.mem_list, List.mem_toFinset, List.mem_flatMap]

section Agree

variable (order : Order Letter) (order₂ : Order (Word n)) (beginWord : Word n) {endWord : Word n}
  {wordList : List (Word n)}

theorem Solution.ladderLength_returns (hend : endWord ∈ wordList) :
    ∃ r, Returns (fun fuel => ladderLength order fuel beginWord endWord wordList) r ∧
      IsLength (ladder (steps beginWord wordList)) beginWord endWord r := by
  simp only [ladderLength, List.mem_toFinset, hend, not_true_eq_false, if_false]
  exact returns (mem_alpha_possible order wordList)

theorem Solution2.ladderLength_returns (hend : endWord ∈ wordList) :
    ∃ r, Returns (fun fuel => ladderLength order₂ fuel beginWord endWord wordList) r ∧
      AtFirst (fun t => (Sides.before beginWord endWord wordList t).Clash) r := by
  simp only [ladderLength, List.mem_toFinset, hend, not_true_eq_false, if_false]
  exact returns order₂ beginWord endWord wordList

theorem ladderLength_of_not_mem (hend : endWord ∉ wordList) :
    Returns (fun fuel => Solution.ladderLength order fuel beginWord endWord wordList) 0 ∧
      Returns (fun fuel => Solution2.ladderLength order₂ fuel beginWord endWord wordList) 0 := by
  simp only [Solution.ladderLength, Solution2.ladderLength, List.mem_toFinset, hend, not_false_eq_true, if_true]
  exact ⟨Returns.pure 0, Returns.pure 0⟩

/-- `Solution` returns what the search from both sides would return if it tested whether the sides meet. -/
theorem IsLength.atFirst {beginWord : Word n} (hne : beginWord ≠ endWord) (hend : endWord ∈ wordList) {r : ℕ}
    (h : IsLength (ladder (steps beginWord wordList)) beginWord endWord r) :
    AtFirst (fun t => (Sides.before beginWord endWord wordList t).Meets) r where
  first t ht := h.some (t + 1) ((edist_eq_iff hne hend t).2 ht)
  never hno := h.none (edist_eq_top hne hend hno)

end Agree

/-- `Solution` returns the length of a shortest ladder, or 0 if there is none or the last word is not in the list. -/
theorem ladderLength_isLeast (order : Order Letter) (beginWord endWord : Word n) (wordList : List (Word n)) :
    ∃ r, Returns (fun fuel => Solution.ladderLength order fuel beginWord endWord wordList) r ∧
      (endWord ∈ wordList → IsLeast {k | ∃ l, IsLadder beginWord endWord wordList l ∧ l.length = k} r ∨
        (∀ l, ¬ IsLadder beginWord endWord wordList l) ∧ r = 0) ∧
      (endWord ∉ wordList → r = 0) := by
  by_cases hend : endWord ∈ wordList
  · obtain ⟨r, hr, hlen⟩ := Solution.ladderLength_returns order beginWord hend
    exact ⟨r, hr, fun _ => hlen.isLeast_or, fun hnot => absurd hend hnot⟩
  · have hr : Returns (fun fuel => Solution.ladderLength order fuel beginWord endWord wordList) 0 := by
      simp only [Solution.ladderLength, List.mem_toFinset, hend, not_false_eq_true, if_true]
      exact Returns.pure 0
    exact ⟨0, hr, fun hmem => absurd hmem hend, fun _ => rfl⟩

/-- A word alone is a ladder to itself, but `Solution` returns 0 where the word is not in the list. -/
theorem ladderLength_self :
    IsLeast {k | ∃ l, IsLadder (#v[0] : Word 1) #v[0] [] l ∧ l.length = k} 1 ∧
      ∀ order, Returns (fun fuel => Solution.ladderLength order fuel (#v[0] : Word 1) #v[0] []) 0 := by
  refine ⟨⟨⟨[#v[0]], ⟨rfl, rfl, List.IsChain.singleton _, nofun⟩, rfl⟩, ?_⟩, fun order => Returns.pure 0⟩
  rintro _ ⟨l, hl, rfl⟩
  apply Nat.one_le_iff_ne_zero.2
  intro hzero
  rw [List.eq_nil_of_length_eq_zero hzero] at hl
  exact Option.some_ne_none _ hl.head.symm

end GoodGoodStudy.LeetCode.LadderLength
