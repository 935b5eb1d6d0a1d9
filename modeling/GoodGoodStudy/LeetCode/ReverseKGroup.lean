/-
A singly linked list with its groups of `k` nodes reversed in place, by three functions of the exercise 25: one moves
each node of a group behind the last one, one calls itself for the list behind the first group, and one turns the
pointers of a group and joins it to the group before. The two functions of the exercise 24 swap pairs. All of them keep
the nodes and their values, and write to no pointer of another node.
-/
import GoodGoodStudy.Lib.Memory
import GoodGoodStudy.Lib.Segment

namespace GoodGoodStudy.LeetCode.ReverseKGroup

open GoodGoodStudy.Lib

abbrev Loc := ℕ

structure ListNode where
  val : ℤ := 0
  next : Option Loc := none

abbrev Nodes := Memory ListNode

/-- `None` has no attributes. -/
inductive Exc
  | attributeError
  deriving DecidableEq, Repr

namespace Nodes

def next (m : Nodes) (l : Loc) : Option Loc := (m.get l).next

def link (m : Nodes) (l : Loc) (q : Option Loc) : Nodes := m.set l { m.get l with next := q }

/-- `p.next` -/
def getNext (m : Nodes) : Option Loc → Except Exc (Option Loc)
  | none => .error .attributeError
  | some l => .ok (next m l)

/-- `p.next = q` -/
def setNext (m : Nodes) (p q : Option Loc) : Except Exc Nodes :=
  match p with
  | none => .error .attributeError
  | some l => .ok (link m l q)

end Nodes

open Nodes

/-- `dummy = ListNode(0)` before the head, and `dummy.next` in the end. -/
def withDummy (head : Option Loc) (m : Nodes) (body : Loc → Nodes → ExceptT Exc Option Nodes) :
    ExceptT Exc Option (Option Loc × Nodes) := do
  let (dummy, m) := m.new {}
  let m ← setNext m (some dummy) head
  let m ← body dummy m
  let head ← getNext m (some dummy)
  return (head, m)

/-- `while p and count < k`: the place where it ends, and the number of steps. -/
def walk (m : Nodes) : ℕ → Option Loc → Option Loc × ℕ
  | 0, p => (p, 0)
  | _ + 1, none => (none, 0)
  | k + 1, some l =>
    let (p, count) := walk m k (next m l)
    (p, count + 1)

/-- `for _ in range(k): cur.next, pre, cur = pre, cur, cur.next` -/
def reverse : ℕ → (pre cur : Option Loc) → Nodes → Except Exc (Option Loc × Option Loc × Nodes)
  | 0, pre, cur, m => .ok (pre, cur, m)
  | k + 1, pre, cur, m => do
    let behind ← getNext m cur
    let m ← setNext m cur pre
    reverse k cur behind m

/-! ## The exercise 25 -/

namespace Iterative

/-- A round of `while pre.next != tail`. -/
def moveBehind (pre tail : Option Loc) (m : Nodes) : Except Exc (Round Nodes Nodes) := do
  let cur ← getNext m pre
  if cur ≠ tail then
    let m ← setNext m pre (← getNext m cur)
    let m ← setNext m cur (← getNext m tail)
    let m ← setNext m tail cur
    return .again m
  else return .leave m

/-- A round of `while True`, with `pre` and `tail`. -/
def round (k fuel : ℕ) : Option Loc × Option Loc × Nodes → ExceptT Exc Option (Round (Option Loc × Option Loc × Nodes) Nodes)
  | (pre, tail, m) =>
    match (walk m k tail).1 with
    | none => return .leave m
    | some tail => do
      let head ← getNext m pre
      let m ← ExceptT.mk (loop (attempt (moveBehind pre (some tail))) fuel m)
      return .again (head, head, m)

def reverseKGroup (head : Option Loc) (k : ℕ) (m : Nodes) (fuel : ℕ) : ExceptT Exc Option (Option Loc × Nodes) :=
  withDummy head m fun dummy m => loopM (round k) fuel (some dummy, some dummy, m)

end Iterative

namespace Recursive

/-- The first loop; `none` stands for `return head`. -/
def skip (m : Nodes) : ℕ → Option Loc → Option (Option Loc)
  | 0, cur => some cur
  | _ + 1, none => none
  | k + 1, some l => skip m k (next m l)

def reverseKGroup (k : ℕ) : Option Loc → Nodes → ℕ → ExceptT Exc Option (Option Loc × Nodes)
  | _, _, 0 => ExceptT.mk none
  | head, m, fuel + 1 =>
    match skip m k head with
    | none => return (head, m)
    | some _ => do
      let (pre, cur, m) ← reverse k none head m
      let (rest, m) ← reverseKGroup k cur m fuel
      let m ← setNext m head rest
      return (pre, m)

/-- A round of `while True`, with `jump`, `l` and `r`. -/
def round (k : ℕ) : Option Loc × Option Loc × Option Loc × Nodes →
    Except Exc (Round (Option Loc × Option Loc × Option Loc × Nodes) Nodes)
  | (jump, l, r, m) =>
    let (r, count) := walk m k r
    if count = k then do
      let (pre, _, m) ← reverse k r l m
      let m ← setNext m jump pre
      return .again (l, r, r, m)
    else return .leave m

def reverseKGroup2 (head : Option Loc) (k : ℕ) (m : Nodes) (fuel : ℕ) : ExceptT Exc Option (Option Loc × Nodes) :=
  withDummy head m fun dummy m => loopM (fun _ s => round k s) fuel (some dummy, head, head, m)

end Recursive

/-! ## The exercise 24 -/

def Solution.swapPairs : Option Loc → Nodes → ℕ → ExceptT Exc Option (Option Loc × Nodes)
  | _, _, 0 => ExceptT.mk none
  | none, m, _ + 1 => return (none, m)
  | some first, m, fuel + 1 =>
    match next m first with
    | none => return (some first, m)
    | some second => do
      let (rest, m) ← swapPairs (next m second) m fuel
      return (some second, link (link m second (some first)) first rest)

namespace Solution2

/-- A round of `while tmp.next and tmp.next.next`. -/
def round : Option Loc × Nodes → Except Exc (Round (Option Loc × Nodes) Nodes)
  | (tmp, m) => do
    match ← getNext m tmp with
    | none => return .leave m
    | some node1 =>
      match next m node1 with
      | none => return .leave m
      | some node2 => do
        let m ← setNext m tmp (some node2)
        let m := link m node1 (next m node2)
        let m := link m node2 (some node1)
        return .again (some node1, m)

def swapPairs (head : Option Loc) (m : Nodes) (fuel : ℕ) : ExceptT Exc Option (Option Loc × Nodes) :=
  withDummy head m fun dummy m => loopM (fun _ s => round s) fuel (some dummy, m)

end Solution2

/-! ## Groups of a list -/

section Blocks

variable {α : Type}

/-- Every full group of `k` elements is reversed, and what is left behind them stays. -/
def reverseBlocks (k : ℕ) (xs : List α) : List α :=
  if 0 < k ∧ k ≤ xs.length then (xs.take k).reverse ++ reverseBlocks k (xs.drop k) else xs
termination_by xs.length
decreasing_by
  rw [List.length_drop]
  omega

theorem reverseBlocks_of_lt {k : ℕ} {xs : List α} (h : xs.length < k) : reverseBlocks k xs = xs := by
  rw [reverseBlocks, if_neg]
  omega

theorem reverseBlocks_append {block : List α} (h : 0 < block.length) (xs : List α) :
    reverseBlocks block.length (block ++ xs) = block.reverse ++ reverseBlocks block.length xs := by
  rw [reverseBlocks, if_pos ⟨h, by simp⟩, List.take_left, List.drop_left]

/-- A list of less than `k` elements, or one that begins with a group. -/
theorem block_cases {k : ℕ} (hk : 0 < k) (xs : List α) :
    xs.length < k ∨ ∃ x ys rest, xs = x :: ys ++ rest ∧ (x :: ys).length = k := by
  rcases Nat.lt_or_ge xs.length k with hlt | hge
  · exact Or.inl hlt
  · have hlen : (xs.take k).length = k := by rw [List.length_take, Nat.min_eq_left hge]
    obtain ⟨x, ys, hcons⟩ := List.exists_cons_of_length_pos (hlen.symm ▸ hk)
    refine Or.inr ⟨x, ys, xs.drop k, ?_, hcons ▸ hlen⟩
    rw [← hcons, List.take_append_drop]

theorem reverseBlocks_perm {k : ℕ} (hk : 0 < k) (xs : List α) : (reverseBlocks k xs).Perm xs := by
  induction hn : xs.length using Nat.strongRecOn generalizing xs with
  | _ n ih =>
    rcases block_cases hk xs with hlt | ⟨x, ys, rest, rfl, rfl⟩
    · rw [reverseBlocks_of_lt hlt]
    · rw [reverseBlocks_append hk]
      exact (List.reverse_perm _).append (ih rest.length (by simp at hn ⊢; omega) rest rfl)

end Blocks

/-! ## What changes in the memory -/

theorem next_link (m : Nodes) (l x : Loc) (q : Option Loc) : next (link m l q) x = if x = l then q else next m x := by
  rw [next, link, Memory.get_set]
  split_ifs <;> rfl

theorem val_link (m : Nodes) (l x : Loc) (q : Option Loc) : ((link m l q).get x).val = (m.get x).val := by
  rw [link, Memory.get_set]
  split_ifs with hx
  · rw [hx]
  · rfl

/-- Only pointers of these locations may be others than before. -/
structure Relinked (ls : List Loc) (m m' : Nodes) : Prop where
  val : ∀ x, (m'.get x).val = (m.get x).val
  next : ∀ x ∉ ls, next m' x = next m x

namespace Relinked

variable {ls ls' : List Loc} {m m' m'' : Nodes}

theorem refl (ls : List Loc) (m : Nodes) : Relinked ls m m := ⟨fun _ => rfl, fun _ _ => rfl⟩

theorem trans (h : Relinked ls m m') (h' : Relinked ls m' m'') : Relinked ls m m'' :=
  ⟨fun x => (h'.val x).trans (h.val x), fun x hx => (h'.next x hx).trans (h.next x hx)⟩

theorem mono (hsub : ls ⊆ ls') (h : Relinked ls m m') : Relinked ls' m m' :=
  ⟨h.val, fun x hx => h.next x fun hmem => hx (hsub hmem)⟩

theorem link {l : Loc} (hl : l ∈ ls) (m : Nodes) (q : Option Loc) : Relinked ls m (Nodes.link m l q) := by
  refine ⟨fun x => val_link m l x q, fun x hx => ?_⟩
  rw [next_link, if_neg]
  rintro rfl
  exact hx hl

/-- A part of the list that was not touched. -/
theorem segment (h : Relinked ls m m') {p q : Option Loc} {xs : List Loc} (hxs : ∀ x ∈ xs, x ∉ ls)
    (hseg : Segment (Nodes.next m) p xs q) : Segment (Nodes.next m') p xs q :=
  hseg.congr fun x hx => h.next x (hxs x hx)

end Relinked

/-! ## The inner loops -/

theorem walk_full {m : Nodes} {q : Option Loc} : ∀ {xs : List Loc} {p : Option Loc}, Segment (next m) p xs q →
    walk m xs.length p = (q, xs.length)
  | [], _, rfl => rfl
  | _ :: _, _, ⟨rfl, h⟩ => by rw [List.length_cons, walk, walk_full h]

theorem walk_short {m : Nodes} : ∀ {k : ℕ} {xs : List Loc} {p : Option Loc}, Segment (next m) p xs none →
    xs.length < k → walk m k p = (none, xs.length)
  | _ + 1, [], _, rfl, _ => rfl
  | _ + 1, _ :: _, _, ⟨rfl, h⟩, hlt => by rw [walk, walk_short h (Nat.lt_of_succ_lt_succ hlt), List.length_cons]

theorem walk_end {m : Nodes} {k : ℕ} {xs : List Loc} {p : Option Loc} (h : Segment (next m) p xs none)
    (hle : xs.length ≤ k) : (walk m k p).1 = none := by
  rcases Nat.lt_or_eq_of_le hle with hlt | rfl
  · rw [walk_short h hlt]
  · rw [walk_full h]

theorem Recursive.skip_full {m : Nodes} {q : Option Loc} : ∀ {xs : List Loc} {p : Option Loc},
    Segment (next m) p xs q → skip m xs.length p = some q
  | [], _, rfl => rfl
  | _ :: _, _, ⟨rfl, h⟩ => by
    rw [List.length_cons, skip]
    exact skip_full h

theorem Recursive.skip_short {m : Nodes} : ∀ {k : ℕ} {xs : List Loc} {p : Option Loc}, Segment (next m) p xs none →
    xs.length < k → skip m k p = none
  | _ + 1, [], _, rfl, _ => rfl
  | _ + 1, _ :: _, _, ⟨rfl, h⟩, hlt => by
    rw [skip]
    exact skip_short h (Nat.lt_of_succ_lt_succ hlt)

/-- The pointers of a part of the list are turned. -/
theorem reverse_spec {q : Option Loc} : ∀ {xs : List Loc} (pre : Option Loc) {cur : Option Loc} {m : Nodes},
    Segment (next m) cur xs q → xs.Nodup → ∃ p m', reverse xs.length pre cur m = .ok (p, q, m') ∧
      Segment (next m') p xs.reverse pre ∧ Relinked xs m m'
  | [], pre, _, m, rfl, _ => ⟨pre, m, rfl, rfl, .refl [] m⟩
  | x :: xs, pre, _, m, ⟨rfl, h⟩, hnodup => by
    obtain ⟨hx, hxs⟩ := List.nodup_cons.1 hnodup
    have hlink : Relinked [x] m (link m x pre) := .link List.mem_cons_self m pre
    have hrest := hlink.segment (fun y hy hmem => hx (List.mem_singleton.1 hmem ▸ hy)) h
    obtain ⟨p, m', heq, hrev, hrelinked⟩ := reverse_spec (some x) hrest hxs
    refine ⟨p, m', heq, ?_, ?_⟩
    · rw [List.reverse_cons, segment_append]
      refine ⟨some x, hrev, rfl, ?_⟩
      rw [hrelinked.next x hx, next_link, if_pos rfl, Segment]
    · exact (hlink.mono (by simp)).trans (hrelinked.mono (List.subset_cons_self x xs))

namespace Iterative

variable {pre tail a : Loc} {m : Nodes}

theorem moveBehind_leave (h : next m pre = some tail) : moveBehind (some pre) (some tail) m = .ok (.leave m) := by
  simp only [moveBehind, getNext, h, bind, Except.bind, ne_eq, not_true_eq_false, if_false]
  rfl

theorem moveBehind_again (h : next m pre = some a) (ha : a ≠ tail) (htail : tail ≠ pre) :
    moveBehind (some pre) (some tail) m =
      .ok (.again (link (link (link m pre (next m a)) a (next m tail)) tail (some a))) := by
  have hne : some a ≠ some tail := fun heq => ha (Option.some.inj heq)
  have hkeep : next (link m pre (next m a)) tail = next m tail := by rw [next_link, if_neg htail]
  simp only [moveBehind, getNext, setNext, h, bind, Except.bind, if_pos hne, hkeep]
  rfl

/-- The node behind `pre` is moved behind `tail`. -/
theorem segment_moveBehind {q : Option Loc} {as ds : List Loc}
    (hseg : Segment (next m) (some a) (a :: as ++ tail :: ds) q)
    (hnodup : (pre :: (a :: as ++ tail :: ds)).Nodup) :
    let m₁ := link (link (link m pre (next m a)) a (next m tail)) tail (some a)
    Segment (next m₁) (next m₁ pre) (as ++ tail :: a :: ds) q := by
  intro m₁
  simp only [List.cons_append, List.nodup_cons, List.nodup_append, List.mem_cons, List.mem_append, not_or] at hnodup
  obtain ⟨⟨hpa, hpas, hpt, hpds⟩, ⟨haas, hat, hads⟩, -, ⟨htds, -⟩, hdisj⟩ := hnodup
  obtain ⟨-, hseg⟩ := hseg
  obtain ⟨_, has, rfl, hds⟩ := segment_append.1 hseg
  have hnext : ∀ x, next m₁ x =
      if x = tail then some a else if x = a then next m tail else if x = pre then next m a else next m x := by
    intro x
    rw [next_link, next_link, next_link]
  have hkeep : ∀ x, x ≠ tail → x ≠ a → x ≠ pre → next m₁ x = next m x := by
    intro x h₁ h₂ h₃
    rw [hnext, if_neg h₁, if_neg h₂, if_neg h₃]
  have has₁ : Segment (next m₁) (next m a) as (some tail) := has.congr fun x hx =>
    hkeep x (hdisj x hx tail (Or.inl rfl)) (fun heq => haas (heq ▸ hx)) fun heq => hpas (heq ▸ hx)
  have hds₁ : Segment (next m₁) (next m tail) ds q := hds.congr fun x hx =>
    hkeep x (fun heq => htds (heq ▸ hx)) (fun heq => hads (heq ▸ hx)) fun heq => hpds (heq ▸ hx)
  have hpre₁ : next m₁ pre = next m a := by rw [hnext, if_neg hpt, if_neg hpa, if_pos rfl]
  have htail₁ : next m₁ tail = some a := by rw [hnext, if_pos rfl]
  have ha₁ : next m₁ a = next m tail := by rw [hnext, if_neg hat, if_pos rfl]
  rw [hpre₁, segment_append]
  exact ⟨some tail, has₁, rfl, htail₁, ha₁ ▸ hds₁⟩

/-- The nodes before `tail` are moved behind it, the first one first. -/
theorem loop_moveBehind {q : Option Loc} : ∀ {as ds : List Loc} {m : Nodes},
    Segment (next m) (next m pre) (as ++ tail :: ds) q → (pre :: (as ++ tail :: ds)).Nodup →
      ∃ m', Returns (fun fuel => loop (attempt (moveBehind (some pre) (some tail))) fuel m) (.ok m') ∧
        Segment (next m') (next m' pre) (tail :: (as.reverse ++ ds)) q ∧ Relinked (pre :: (as ++ tail :: ds)) m m'
  | [], _, m, hseg, _ => ⟨m, Returns.leave (attempt_leave (moveBehind_leave hseg.1)), hseg, .refl _ m⟩
  | a :: as, ds, m, hseg, hnodup => by
    have hfirst : next m pre = some a := hseg.1
    have hperm : (pre :: (as ++ tail :: a :: ds)).Perm (pre :: (a :: as ++ tail :: ds)) := by
      have hmiddle : ((as ++ [tail]) ++ a :: ds).Perm (a :: ((as ++ [tail]) ++ ds)) := List.perm_middle
      simpa using hmiddle
    have hne : a ≠ tail ∧ tail ≠ pre := by
      simp only [List.cons_append, List.nodup_cons, List.mem_cons, List.mem_append, not_or] at hnodup
      exact ⟨hnodup.2.1.2.1, Ne.symm hnodup.1.2.2.1⟩
    have hround := moveBehind_again hfirst hne.1 hne.2
    have hseg₁ := segment_moveBehind (hfirst ▸ hseg) hnodup
    obtain ⟨m', hloop, hseg', hrelinked⟩ := loop_moveBehind hseg₁ (hperm.nodup_iff.2 hnodup)
    refine ⟨m', Returns.again (attempt_again hround) hloop, ?_, ?_⟩
    · rwa [List.reverse_cons, List.append_assoc, List.singleton_append]
    · refine Relinked.trans ?_ (hrelinked.mono hperm.subset)
      exact ((Relinked.link (by simp) m _).trans (.link (by simp) _ _)).trans (.link (by simp) _ _)

end Iterative

/-! ## The loop over the groups -/

/-- The first node of a group becomes its last one, and the loop goes on behind it. -/
theorem nodup_behind_group {pre x : Loc} {ys rest : List Loc} (h : (pre :: (x :: ys ++ rest)).Nodup) :
    (x :: rest).Nodup ∧ ∀ y ∈ pre :: ys, y ∉ x :: rest := by
  have hperm : ((pre :: ys) ++ x :: rest).Perm (pre :: (x :: ys ++ rest)) := List.perm_middle.cons pre
  obtain ⟨-, hrest, hdisj⟩ := List.nodup_append.1 (hperm.nodup_iff.2 h)
  exact ⟨hrest, fun y hy hmem => hdisj y hy y hmem rfl⟩

/-- A loop that reverses the group behind `pre` in each round. -/
theorem loop_blocks {σ : Type} {state : Loc → Nodes → σ} {round : ℕ → σ → ExceptT Exc Option (Round σ Nodes)} {k : ℕ}
    (hk : 0 < k)
    (hshort : ∀ pre m xs, Segment (next m) (next m pre) xs none → xs.length < k →
      Returns (fun fuel => round fuel (state pre m)) (.ok (.leave m)))
    (hfull : ∀ pre m x ys q, Segment (next m) (next m pre) (x :: ys) q → (pre :: x :: ys).Nodup →
      (x :: ys).length = k → ∃ m', Returns (fun fuel => round fuel (state pre m)) (.ok (.again (state x m'))) ∧
        Segment (next m') (next m' pre) (x :: ys).reverse q ∧ Relinked (pre :: x :: ys) m m')
    (xs : List Loc) (pre : Loc) (m : Nodes) (hseg : Segment (next m) (next m pre) xs none)
    (hnodup : (pre :: xs).Nodup) :
    ∃ m', Returns (fun fuel => loopM round fuel (state pre m)) (.ok m') ∧
      Segment (next m') (next m' pre) (reverseBlocks k xs) none ∧ Relinked (pre :: xs) m m' := by
  induction hn : xs.length using Nat.strongRecOn generalizing xs pre m with
  | _ n ih =>
    rcases block_cases hk xs with hlt | ⟨x, ys, rest, rfl, hlen⟩
    · refine ⟨m, Returns.loopM_leave (hshort pre m xs hseg hlt), ?_, .refl _ m⟩
      rwa [reverseBlocks_of_lt hlt]
    · obtain ⟨q, hblock, hrest⟩ := segment_append.1 hseg
      obtain ⟨hgroup, -, hdisj⟩ := List.nodup_append.1 (show ((pre :: x :: ys) ++ rest).Nodup from hnodup)
      obtain ⟨hbehind, hbefore⟩ := nodup_behind_group hnodup
      obtain ⟨m₁, hround, hrev, hre⟩ := hfull pre m x ys q hblock hgroup hlen
      rw [List.reverse_cons, segment_append] at hrev
      obtain ⟨_, hys, rfl, hx⟩ := hrev
      -- the loop goes on from the last node of the reversed group
      have hrest₁ : Segment (next m₁) (next m₁ x) rest none := by
        rw [show next m₁ x = q from hx]
        exact hre.segment (fun y hy hmem => hdisj y hmem y hy rfl) hrest
      obtain ⟨m₂, hloop, hrest₂, hre₂⟩ := ih rest.length (by simp at hn ⊢; omega) rest x m₁ hrest₁ hbehind rfl
      have hsame : next m₂ pre = next m₁ pre := hre₂.next pre (hbefore pre List.mem_cons_self)
      have hys₂ : Segment (next m₂) (next m₁ pre) ys.reverse (some x) :=
        hre₂.segment (fun y hy => hbefore y (List.mem_cons_of_mem pre (List.mem_reverse.1 hy))) hys
      refine ⟨m₂, Returns.loopM_again hround hloop, ?_, ?_⟩
      · rw [← hlen, reverseBlocks_append (by simp), hlen, hsame, List.reverse_cons, List.append_assoc, segment_append]
        exact ⟨some x, hys₂, rfl, hrest₂⟩
      · refine (hre.mono ?_).trans (hre₂.mono ?_)
        · exact List.subset_append_left (pre :: x :: ys) rest
        · intro y hy
          rcases List.mem_cons.1 hy with rfl | hy
          · simp
          · simp [hy]

/-! ## The rounds -/

section Rounds

variable {pre x : Loc} {m : Nodes} {ys : List Loc} {q : Option Loc} {k : ℕ}

theorem Iterative.round_short {xs : List Loc} (hseg : Segment (next m) (next m pre) xs none) (hlt : xs.length < k) :
    Returns (fun fuel => Iterative.round k fuel (some pre, some pre, m)) (.ok (.leave m)) := by
  have hpath : Segment (next m) (some pre) (pre :: xs) none := ⟨rfl, hseg⟩
  have hwalk : (walk m k (some pre)).1 = none := walk_end hpath hlt
  simp only [Iterative.round, hwalk]
  exact Returns.pure _

theorem Iterative.round_full (hseg : Segment (next m) (next m pre) (x :: ys) q) (hnodup : (pre :: x :: ys).Nodup)
    (hlen : (x :: ys).length = k) :
    ∃ m', Returns (fun fuel => Iterative.round k fuel (some pre, some pre, m)) (.ok (.again (some x, some x, m'))) ∧
      Segment (next m') (next m' pre) (x :: ys).reverse q ∧ Relinked (pre :: x :: ys) m m' := by
  obtain ⟨as, tail, has⟩ : ∃ as tail, x :: ys = as ++ [tail] :=
    ⟨_, _, (List.dropLast_concat_getLast (List.cons_ne_nil x ys)).symm⟩
  have hfirst : next m pre = some x := hseg.1
  rw [has] at hseg hnodup hlen ⊢
  obtain ⟨_, hseg₁, rfl, -⟩ := segment_append.1 hseg
  obtain ⟨m', hloop, hrev, hrelinked⟩ := loop_moveBehind hseg hnodup
  have hwalk : walk m k (some pre) = (some tail, k) := by
    have hpath : Segment (next m) (some pre) (pre :: as) (some tail) := ⟨rfl, hseg₁⟩
    have hfull := walk_full hpath
    simp only [List.length_append, List.length_cons, List.length_nil, Nat.zero_add] at hlen
    rwa [List.length_cons, hlen] at hfull
  refine ⟨m', ?_, by simpa using hrev, hrelinked⟩
  simp only [Iterative.round, hwalk, getNext, hfirst]
  exact Returns.bind_ok (g := fun m _ => pure (Round.again (some x, some x, m))) hloop (Returns.done _)

theorem Recursive.round_short {xs : List Loc} (hseg : Segment (next m) (next m pre) xs none) (hlt : xs.length < k) :
    Recursive.round k (some pre, next m pre, next m pre, m) = .ok (.leave m) := by
  simp only [Recursive.round, walk_short hseg hlt, if_neg hlt.ne]
  rfl

theorem Recursive.round_full (hseg : Segment (next m) (next m pre) (x :: ys) q) (hnodup : (pre :: x :: ys).Nodup)
    (hlen : (x :: ys).length = k) :
    ∃ m', Recursive.round k (some pre, next m pre, next m pre, m) =
        .ok (.again (some x, next m' x, next m' x, m')) ∧
      Segment (next m') (next m' pre) (x :: ys).reverse q ∧ Relinked (pre :: x :: ys) m m' := by
  obtain ⟨hpre, hxs⟩ := List.nodup_cons.1 hnodup
  obtain ⟨p, m', hreverse, hrev, hrelinked⟩ := reverse_spec q hseg hxs
  have hlink : Relinked [pre] m' (link m' pre p) := .link List.mem_cons_self m' p
  have hrev' : Segment (next (link m' pre p)) p (x :: ys).reverse q := by
    refine hlink.segment (fun y hy hmem => ?_) hrev
    exact hpre (List.mem_singleton.1 hmem ▸ List.mem_reverse.1 hy)
  have hlast : next (link m' pre p) x = q := by
    rw [List.reverse_cons, segment_append] at hrev'
    obtain ⟨_, -, -, hq⟩ := hrev'
    exact hq
  refine ⟨link m' pre p, ?_, ?_, ?_⟩
  · rw [hlen] at hreverse
    have hfirst : next m pre = some x := hseg.1
    simp only [Recursive.round, ← hlen, walk_full hseg, if_true]
    rw [hlen, hreverse, hlast, hfirst]
    rfl
  · rwa [next_link, if_pos rfl]
  · exact (hrelinked.mono (by simp)).trans (hlink.mono (by simp))

theorem Solution2.round_short {xs : List Loc} (hseg : Segment (next m) (next m pre) xs none) (hlt : xs.length < 2) :
    Solution2.round (some pre, m) = .ok (.leave m) := by
  match xs, hseg with
  | [], hnone =>
    simp only [Solution2.round, getNext, show next m pre = none from hnone]
    rfl
  | [x], ⟨hx, hnone⟩ =>
    simp only [Solution2.round, getNext, hx, bind, Except.bind, show next m x = none from hnone]
    rfl

theorem Solution2.round_full (hseg : Segment (next m) (next m pre) (x :: ys) q) (hnodup : (pre :: x :: ys).Nodup)
    (hlen : (x :: ys).length = 2) :
    ∃ m', Solution2.round (some pre, m) = .ok (.again (some x, m')) ∧
      Segment (next m') (next m' pre) (x :: ys).reverse q ∧ Relinked (pre :: x :: ys) m m' := by
  obtain ⟨y, rfl⟩ := List.length_eq_one_iff.1 (Nat.succ.inj hlen)
  obtain ⟨hx, hy, hq⟩ := hseg
  simp only [List.nodup_cons, List.mem_cons, List.not_mem_nil, or_false, not_or] at hnodup
  obtain ⟨⟨hpx, hpy⟩, hxy, -⟩ := hnodup
  refine ⟨link (link (link m pre (some y)) x q) y (some x), ?_, ?_, ?_⟩
  · have hkeep : next (link m pre (some y)) y = q := by
      rw [next_link, if_neg (Ne.symm hpy)]
      exact hq
    simp only [Solution2.round, getNext, setNext, hx, hy, bind, Except.bind, hkeep]
    rfl
  · have hpre₁ : next (link (link (link m pre (some y)) x q) y (some x)) pre = some y := by
      rw [next_link, if_neg hpy, next_link, if_neg hpx, next_link, if_pos rfl]
    have hy₁ : next (link (link (link m pre (some y)) x q) y (some x)) y = some x := by rw [next_link, if_pos rfl]
    have hx₁ : next (link (link (link m pre (some y)) x q) y (some x)) x = q := by
      rw [next_link, if_neg hxy, next_link, if_pos rfl]
    exact ⟨hpre₁, hy₁, hx₁⟩
  · exact ((Relinked.link (by simp) m _).trans (.link (by simp) _ _)).trans (.link (by simp) _ _)

end Rounds

/-! ## The recursive calls -/

/-- The list that a call gave is joined to the last node of the group before. -/
theorem segment_join {m : Nodes} {x : Loc} {p rest : Option Loc} {us vs : List Loc}
    (hu : Segment (next m) p us (some x)) (hv : Segment (next m) rest vs none) (hxu : x ∉ us) (hxv : x ∉ vs) :
    Segment (next (link m x rest)) p (us ++ x :: vs) none := by
  have hlink : Relinked [x] m (link m x rest) := .link List.mem_cons_self m rest
  have hfirst : next (link m x rest) x = rest := by rw [next_link, if_pos rfl]
  rw [segment_append]
  refine ⟨some x, hlink.segment (fun y hy hmem => hxu (List.mem_singleton.1 hmem ▸ hy)) hu, rfl, ?_⟩
  rw [hfirst]
  exact hlink.segment (fun y hy hmem => hxv (List.mem_singleton.1 hmem ▸ hy)) hv

theorem Recursive.reverseKGroup_spec {k : ℕ} (hk : 0 < k) (xs : List Loc) (head : Option Loc) (m : Nodes)
    (hseg : Segment (next m) head xs none) : ∃ head' m', Returns (Recursive.reverseKGroup k head m) (.ok (head', m')) ∧
      Segment (next m') head' (reverseBlocks k xs) none ∧ Relinked xs m m' := by
  induction hn : xs.length using Nat.strongRecOn generalizing xs head m with
  | _ n ih =>
    rcases block_cases hk xs with hlt | ⟨x, ys, rest, rfl, hlen⟩
    · refine ⟨head, m, Returns.call (g := fun _ => some (.ok (head, m))) (fun fuel => ?_) (Returns.pure _), ?_,
        .refl xs m⟩
      · simp only [Recursive.reverseKGroup, skip_short hseg hlt]
        rfl
      · rwa [reverseBlocks_of_lt hlt]
    · obtain ⟨hnodup₁, -, hdisj⟩ := List.nodup_append.1 hseg.nodup
      obtain ⟨q, hblock, hrest⟩ := segment_append.1 hseg
      have hskip := skip_full hblock
      obtain ⟨p, m₁, hreverse, hrev, hre₁⟩ := reverse_spec none hblock hnodup₁
      have hrest₁ := hre₁.segment (fun y hy hmem => hdisj y hmem y hy rfl) hrest
      obtain ⟨rest', m₂, hcall, hrest₂, hre₂⟩ := ih rest.length (by simp at hn ⊢; omega) rest q m₁ hrest₁ rfl
      rw [hlen] at hskip hreverse
      rw [List.reverse_cons, segment_append] at hrev
      obtain ⟨_, hys, rfl, -⟩ := hrev
      have hx := (List.nodup_cons.1 hnodup₁).1
      have hys₂ : Segment (next m₂) p ys.reverse (some x) :=
        hre₂.segment (fun y hy hmem => hdisj y (by simp [List.mem_reverse.1 hy]) y hmem rfl) hys
      refine ⟨p, link m₂ x rest', ?_, ?_, ?_⟩
      · obtain rfl : head = some x := hblock.1
        have hbind := Returns.bind_ok (g := fun r _ => pure (p, link r.2 x r.1)) hcall (Returns.done _)
        refine Returns.call (fun fuel => ?_) hbind
        simp only [Recursive.reverseKGroup, hskip, hreverse]
        rfl
      · rw [← hlen, reverseBlocks_append (by simp), hlen, List.reverse_cons, List.append_assoc]
        refine segment_join hys₂ hrest₂ (fun hmem => hx (List.mem_reverse.1 hmem)) fun hmem => ?_
        exact hdisj x (by simp) x ((reverseBlocks_perm hk rest).subset hmem) rfl
      · refine ((hre₁.mono ?_).trans (hre₂.mono ?_)).trans (.link (by simp) m₂ rest')
        · exact List.subset_append_left (x :: ys) rest
        · exact List.subset_append_right (x :: ys) rest

theorem Solution.swapPairs_spec : ∀ (xs : List Loc) (head : Option Loc) (m : Nodes), Segment (next m) head xs none →
    ∃ head' m', Returns (Solution.swapPairs head m) (.ok (head', m')) ∧
      Segment (next m') head' (reverseBlocks 2 xs) none ∧ Relinked xs m m'
  | [], _, m, rfl => by
    refine ⟨none, m, Returns.call (g := fun _ => some (.ok (none, m))) (fun _ => rfl) (Returns.pure _), ?_, .refl [] m⟩
    rw [reverseBlocks_of_lt (by simp)]
    rfl
  | [x], _, m, ⟨rfl, hx⟩ => by
    refine ⟨some x, m, Returns.call (g := fun _ => some (.ok (some x, m))) (fun _ => ?_) (Returns.pure _), ?_,
      .refl [x] m⟩
    · simp only [Solution.swapPairs, show next m x = none from hx]
      rfl
    · rw [reverseBlocks_of_lt (by simp)]
      exact ⟨rfl, hx⟩
  | x :: y :: rest, _, m, hseg => by
    have hnodup := hseg.nodup
    simp only [List.nodup_cons, List.mem_cons, not_or] at hnodup
    obtain ⟨rfl, hx, hrest⟩ := hseg
    obtain ⟨rest', m₁, hcall, hrest₁, hre₁⟩ := swapPairs_spec rest (next m y) m hrest
    have hperm := reverseBlocks_perm Nat.two_pos rest
    have hlink : Relinked [y] m₁ (link m₁ y (some x)) := .link List.mem_cons_self m₁ (some x)
    refine ⟨some y, link (link m₁ y (some x)) x rest', ?_, ?_, ?_⟩
    · have hbind := Returns.bind_ok
        (g := fun r _ => pure (some y, link (link r.2 y (some x)) x r.1)) hcall (Returns.done _)
      refine Returns.call (fun fuel => ?_) hbind
      simp only [Solution.swapPairs, hx]
    · have hblock := reverseBlocks_append (by simp : 0 < [x, y].length) rest
      rw [show reverseBlocks 2 (x :: y :: rest) = [y] ++ x :: reverseBlocks 2 rest from hblock]
      refine segment_join ⟨rfl, by rw [next_link, if_pos rfl, Segment]⟩ (hlink.segment (fun z hz hmem => ?_) hrest₁)
        (by simpa using hnodup.1.1) fun hmem => hnodup.1.2 (hperm.subset hmem)
      exact hnodup.2.1 (List.mem_singleton.1 hmem ▸ hperm.subset hz)
    · refine ((hre₁.mono ?_).trans (.link (by simp) m₁ _)).trans (.link (by simp) _ _)
      exact List.subset_append_right [x, y] rest

/-! ## The functions -/

/-- The call returns the head of the list `ys`. In the memory before only pointers of the list `xs` were written to. -/
def Rearranges (f : ℕ → ExceptT Exc Option (Option Loc × Nodes)) (m : Nodes) (xs ys : List Loc) : Prop :=
  ∃ head' m', Returns f (.ok (head', m')) ∧ Segment (next m') head' ys none ∧
    (∀ l < m.fresh, (m'.get l).val = (m.get l).val) ∧ ∀ l < m.fresh, l ∉ xs → next m' l = next m l

variable {head : Option Loc} {m : Nodes} {xs ys : List Loc}

theorem rearranges_withDummy {body : Loc → Nodes → ℕ → ExceptT Exc Option Nodes}
    (hlist : Segment (next m) head xs none) (halloc : ∀ x ∈ xs, x < m.fresh)
    (hbody : ∀ dummy m₁, Segment (next m₁) (next m₁ dummy) xs none → next m₁ dummy = head → (dummy :: xs).Nodup →
      ∃ m', Returns (body dummy m₁) (.ok m') ∧ Segment (next m') (next m' dummy) ys none ∧
        Relinked (dummy :: xs) m₁ m') :
    Rearranges (fun fuel => withDummy head m fun dummy m => body dummy m fuel) m xs ys := by
  have hdummy : m.fresh ∉ xs := fun hmem => (halloc _ hmem).false
  generalize hm₁ : link (m.new {}).2 m.fresh head = m₁
  have hget : ∀ l < m.fresh, m₁.get l = m.get l := by
    intro l hl
    rw [← hm₁, link, Memory.get_set, if_neg hl.ne, Memory.get_new, if_neg hl.ne]
  have hfirst : next m₁ m.fresh = head := by rw [← hm₁, next_link, if_pos rfl]
  have hlist₁ : Segment (next m₁) (next m₁ m.fresh) xs none := by
    rw [hfirst]
    exact hlist.congr fun x hx => congrArg ListNode.next (hget x (halloc x hx))
  obtain ⟨m', hreturns, hseg, hrelinked⟩ :=
    hbody m.fresh m₁ hlist₁ hfirst (List.nodup_cons.2 ⟨hdummy, hlist.nodup⟩)
  refine ⟨next m' m.fresh, m', ?_, hseg, fun l hl => ?_, fun l hl hxs => ?_⟩
  · have hdone := Returns.bind_ok (g := fun m' _ => pure (next m' m.fresh, m')) hreturns (Returns.done _)
    rw [← hm₁] at hdone
    exact hdone
  · rw [hrelinked.val, hget l hl]
  · rw [hrelinked.next l (by simp [hl.ne, hxs]), next, hget l hl, next]

/-- A loop over the groups behind a dummy node. -/
theorem rearranges_blocks {σ : Type} (state : Loc → Nodes → σ) {round : ℕ → σ → ExceptT Exc Option (Round σ Nodes)}
    {k : ℕ} (hk : 0 < k) (hlist : Segment (next m) head xs none) (halloc : ∀ x ∈ xs, x < m.fresh)
    {body : Loc → Nodes → ℕ → ExceptT Exc Option Nodes}
    (hbody : ∀ dummy m₁, next m₁ dummy = head → body dummy m₁ = fun fuel => loopM round fuel (state dummy m₁))
    (hshort : ∀ pre m xs, Segment (next m) (next m pre) xs none → xs.length < k →
      Returns (fun fuel => round fuel (state pre m)) (.ok (.leave m)))
    (hfull : ∀ pre m x ys q, Segment (next m) (next m pre) (x :: ys) q → (pre :: x :: ys).Nodup →
      (x :: ys).length = k → ∃ m', Returns (fun fuel => round fuel (state pre m)) (.ok (.again (state x m'))) ∧
        Segment (next m') (next m' pre) (x :: ys).reverse q ∧ Relinked (pre :: x :: ys) m m') :
    Rearranges (fun fuel => withDummy head m fun dummy m => body dummy m fuel) m xs (reverseBlocks k xs) :=
  rearranges_withDummy hlist halloc fun dummy m₁ hseg hfirst hnodup => by
    rw [hbody dummy m₁ hfirst]
    exact loop_blocks hk hshort hfull xs dummy m₁ hseg hnodup

theorem Iterative.rearranges_reverseKGroup {k : ℕ} (hk : 0 < k) (hlist : Segment (next m) head xs none)
    (halloc : ∀ x ∈ xs, x < m.fresh) :
    Rearranges (Iterative.reverseKGroup head k m) m xs (reverseBlocks k xs) :=
  rearranges_blocks (fun pre m => (some pre, some pre, m)) hk hlist halloc (fun _ _ _ => rfl)
    (fun _ _ _ hseg hlt => Iterative.round_short hseg hlt)
    fun _ _ _ _ _ hseg hnodup hlen => Iterative.round_full hseg hnodup hlen

theorem Recursive.rearranges_reverseKGroup2 {k : ℕ} (hk : 0 < k) (hlist : Segment (next m) head xs none)
    (halloc : ∀ x ∈ xs, x < m.fresh) :
    Rearranges (Recursive.reverseKGroup2 head k m) m xs (reverseBlocks k xs) :=
  rearranges_blocks (fun pre m => (some pre, next m pre, next m pre, m)) hk hlist halloc
    (fun _ _ hfirst => by rw [hfirst])
    (fun _ _ _ hseg hlt => Returns.lift (Recursive.round_short hseg hlt))
    fun _ _ _ _ _ hseg hnodup hlen => by
      obtain ⟨m', hround, hrev, hrelinked⟩ := Recursive.round_full hseg hnodup hlen
      exact ⟨m', Returns.lift hround, hrev, hrelinked⟩

theorem Solution2.rearranges_swapPairs (hlist : Segment (next m) head xs none) (halloc : ∀ x ∈ xs, x < m.fresh) :
    Rearranges (Solution2.swapPairs head m) m xs (reverseBlocks 2 xs) :=
  rearranges_blocks (fun pre m => (some pre, m)) Nat.two_pos hlist halloc (fun _ _ _ => rfl)
    (fun _ _ _ hseg hlt => Returns.lift (Solution2.round_short hseg hlt))
    fun _ _ _ _ _ hseg hnodup hlen => by
      obtain ⟨m', hround, hrev, hrelinked⟩ := Solution2.round_full hseg hnodup hlen
      exact ⟨m', Returns.lift hround, hrev, hrelinked⟩

theorem Relinked.rearranges {f : ℕ → ExceptT Exc Option (Option Loc × Nodes)}
    (h : ∃ head' m', Returns f (.ok (head', m')) ∧ Segment (Nodes.next m') head' ys none ∧ Relinked xs m m') :
    Rearranges f m xs ys := by
  obtain ⟨head', m', hreturns, hseg, hrelinked⟩ := h
  exact ⟨head', m', hreturns, hseg, fun l _ => hrelinked.val l, fun l _ => hrelinked.next l⟩

/-- All three functions reverse the full groups of `k` nodes and keep the order of the nodes that are left, and the two
functions for pairs do the same for `k = 2`. The list that they return consists of the same nodes. -/
theorem reverseKGroup_exact {k : ℕ} (hk : 0 < k) (hlist : Segment (next m) head xs none)
    (halloc : ∀ x ∈ xs, x < m.fresh) :
    (reverseBlocks k xs).Perm xs ∧
      Rearranges (Iterative.reverseKGroup head k m) m xs (reverseBlocks k xs) ∧
      Rearranges (Recursive.reverseKGroup k head m) m xs (reverseBlocks k xs) ∧
      Rearranges (Recursive.reverseKGroup2 head k m) m xs (reverseBlocks k xs) ∧
      Rearranges (Solution.swapPairs head m) m xs (reverseBlocks 2 xs) ∧
      Rearranges (Solution2.swapPairs head m) m xs (reverseBlocks 2 xs) :=
  ⟨reverseBlocks_perm hk xs, Iterative.rearranges_reverseKGroup hk hlist halloc,
    Relinked.rearranges (Recursive.reverseKGroup_spec hk xs head m hlist),
    Recursive.rearranges_reverseKGroup2 hk hlist halloc,
    Relinked.rearranges (Solution.swapPairs_spec xs head m hlist), Solution2.rearranges_swapPairs hlist halloc⟩

/-- The list of the nodes 0, 1 and 2, and no other node. -/
theorem reverseKGroup_three :
    let m : Nodes := ⟨fun l => ⟨l, if l < 2 then some (l + 1) else none⟩, 3⟩
    (reverseBlocks 2 [0, 1, 2]).Perm [0, 1, 2] ∧
      Rearranges (Iterative.reverseKGroup (some 0) 2 m) m [0, 1, 2] (reverseBlocks 2 [0, 1, 2]) ∧
      Rearranges (Recursive.reverseKGroup 2 (some 0) m) m [0, 1, 2] (reverseBlocks 2 [0, 1, 2]) ∧
      Rearranges (Recursive.reverseKGroup2 (some 0) 2 m) m [0, 1, 2] (reverseBlocks 2 [0, 1, 2]) ∧
      Rearranges (Solution.swapPairs (some 0) m) m [0, 1, 2] (reverseBlocks 2 [0, 1, 2]) ∧
      Rearranges (Solution2.swapPairs (some 0) m) m [0, 1, 2] (reverseBlocks 2 [0, 1, 2]) :=
  reverseKGroup_exact Nat.two_pos ⟨rfl, rfl, rfl, rfl⟩ (by decide)

end GoodGoodStudy.LeetCode.ReverseKGroup
