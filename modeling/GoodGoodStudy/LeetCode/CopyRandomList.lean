/-
Copies of a linked list whose nodes have a second pointer to any node of the list: the exercise 35 of the second
collection and the exercise 138. Both make a new node for every node of the list, keep it in a dictionary under the old
one, and set the pointers of the new nodes when all of them are there. They write to the new nodes only.
-/
import GoodGoodStudy.Lib.Dict
import GoodGoodStudy.Lib.Memory
import GoodGoodStudy.Lib.Segment

namespace GoodGoodStudy.LeetCode.CopyRandomList

open GoodGoodStudy.Lib

abbrev Loc := ℕ

structure Node where
  val : ℤ
  next : Option Loc := none
  random : Option Loc := none

abbrev Nodes := Memory Node

/-- A key that is not in the dictionary. -/
inductive Exc
  | keyError
  deriving DecidableEq, Repr

/-- `dic[p]` -/
def item (dic : Dict Loc Loc) (p : Loc) : Except Exc Loc :=
  match dic.get? p with
  | none => .error .keyError
  | some node => .ok node

def setNext (m : Nodes) (l : Loc) (q : Option Loc) : Nodes := m.set l { m.get l with next := q }

def setRandom (m : Nodes) (l : Loc) (q : Option Loc) : Nodes := m.set l { m.get l with random := q }

/-- A round of the first loop: `dic[p] = Node(p.val)`. -/
def create : Option Loc × Dict Loc Loc × Nodes →
    Except Exc (Round (Option Loc × Dict Loc Loc × Nodes) (Dict Loc Loc × Nodes))
  | (none, dic, m) => .ok (.leave (dic, m))
  | (some p, dic, m) =>
    let (node, m) := m.new { val := (m.get p).val }
    .ok (.again ((m.get p).next, dic.set p node, m))

/-- The second loop, with its rounds, and `dic[head]`. -/
def linkAll (link : Dict Loc Loc → Option Loc × Nodes → Except Exc (Round (Option Loc × Nodes) Nodes)) (head : Loc)
    (dic : Dict Loc Loc) (m : Nodes) (fuel : ℕ) : ExceptT Exc Option (Option Loc × Nodes) := do
  let m ← ExceptT.mk (loop (attempt (link dic)) fuel (some head, m))
  let node ← item dic head
  return (some node, m)

def copyWith (link : Dict Loc Loc → Option Loc × Nodes → Except Exc (Round (Option Loc × Nodes) Nodes))
    (head : Option Loc) (m : Nodes) (fuel : ℕ) : ExceptT Exc Option (Option Loc × Nodes) :=
  match head with
  | none => return (none, m)
  | some p => do
    let (dic, m) ← ExceptT.mk (loop (attempt create) fuel (some p, .empty, m))
    linkAll link p dic m fuel

/-- `dic.get(p)`; `None` is no key. -/
def Offer35.get (dic : Dict Loc Loc) (p : Option Loc) : Option Loc := p.bind dic.get?

def Offer35.link (dic : Dict Loc Loc) : Option Loc × Nodes → Except Exc (Round (Option Loc × Nodes) Nodes)
  | (none, m) => .ok (.leave m)
  | (some cur, m) => do
    let node ← item dic cur
    let m := setNext m node (Offer35.get dic (m.get cur).next)
    let m := setRandom m node (Offer35.get dic (m.get cur).random)
    return .again ((m.get cur).next, m)

def Offer35.copyRandomList : Option Loc → Nodes → ℕ → ExceptT Exc Option (Option Loc × Nodes) := copyWith Offer35.link

/-- `if q: dic[p].next = dic[q]`, and the same for `random`. -/
def Exercise138.assign (set : Nodes → Loc → Option Loc → Nodes) (dic : Dict Loc Loc) (p : Loc) (q : Option Loc)
    (m : Nodes) : Except Exc Nodes :=
  match q with
  | none => .ok m
  | some q => do
    let target ← item dic q
    let node ← item dic p
    return set m node (some target)

def Exercise138.link (dic : Dict Loc Loc) : Option Loc × Nodes → Except Exc (Round (Option Loc × Nodes) Nodes)
  | (none, m) => .ok (.leave m)
  | (some p, m) => do
    let m ← Exercise138.assign setRandom dic p (m.get p).random m
    let m ← Exercise138.assign setNext dic p (m.get p).next m
    return .again ((m.get p).next, m)

def Exercise138.copyRandomList : Option Loc → Nodes → ℕ → ExceptT Exc Option (Option Loc × Nodes) :=
  copyWith Exercise138.link

/-! ## What a copy is -/

def next (m : Nodes) (l : Loc) : Option Loc := (m.get l).next

/-- The values of a list of nodes, and at which positions of the list the random pointers point. -/
def contents (m : Nodes) (xs : List Loc) : List (ℤ × Option ℕ) :=
  xs.map fun x => ((m.get x).val, (m.get x).random.map fun r => xs.idxOf r)

/-- The call returns the head of a list of new nodes with the same contents, and the memory before is as it was. -/
def Copies (f : ℕ → ExceptT Exc Option (Option Loc × Nodes)) (m : Nodes) (xs : List Loc) : Prop :=
  ∃ head' m' ys, Returns f (.ok (head', m')) ∧ Segment (next m') head' ys none ∧ (∀ y ∈ ys, m.fresh ≤ y) ∧
    contents m' ys = contents m xs ∧ ∀ l < m.fresh, m'.get l = m.get l

/-! ## The new nodes -/

/-- The list of the nodes `xs`, whose random pointers point into it. -/
structure Original (m : Nodes) (head : Option Loc) (xs : List Loc) : Prop where
  segment : Segment (next m) head xs none
  alloc : ∀ x ∈ xs, x < m.fresh
  random : ∀ x ∈ xs, ∀ r, (m.get x).random = some r → r ∈ xs

/-- The new node for a node of the list. -/
def copy (m : Nodes) (xs : List Loc) (x : Loc) : Loc := m.fresh + xs.idxOf x

/-- The node with its pointers to new nodes. -/
def linked (m : Nodes) (xs : List Loc) (x : Loc) : Node :=
  ⟨(m.get x).val, (m.get x).next.map (copy m xs), (m.get x).random.map (copy m xs)⟩

variable {m m' : Nodes} {head : Option Loc} {xs pre rest : List Loc} {x : Loc} {dic : Dict Loc Loc}

theorem copy_inj {y : Loc} (hx : x ∈ xs) : copy m xs x = copy m xs y ↔ x = y := by
  rw [copy, copy, Nat.add_left_cancel_iff, List.idxOf_inj hx]

theorem ne_copy {l : Loc} (hl : l < m.fresh) : l ≠ copy m xs x := (hl.trans_le (Nat.le_add_right _ _)).ne

/-- Position by position the new nodes are the copies. -/
theorem idxOf_map_copy {ys : List Loc} (hys : ys ⊆ xs) : (ys.map (copy m xs)).idxOf (copy m xs x) = ys.idxOf x := by
  induction ys with
  | nil => rfl
  | cons y ys ih =>
    obtain ⟨hy, hys⟩ := List.cons_subset.1 hys
    have hbeq : (copy m xs y == copy m xs x) = (y == x) := Bool.eq_iff_iff.2 (by simpa using copy_inj hy)
    rw [List.map_cons, List.idxOf_cons, List.idxOf_cons, hbeq, ih hys]

/-- After the first loop has passed the nodes `pre`. -/
structure Created (m : Nodes) (xs pre : List Loc) (dic : Dict Loc Loc) (m' : Nodes) : Prop where
  fresh : m'.fresh = m.fresh + pre.length
  dic : ∀ l, dic.get? l = if l ∈ pre then some (copy m xs l) else none
  old : ∀ l < m.fresh, m'.get l = m.get l
  new : ∀ x ∈ pre, m'.get (copy m xs x) = { val := (m.get x).val }

theorem Created.create (hc : Created m xs pre dic m') (hxs : pre ++ x :: rest = xs) (hpre : x ∉ pre)
    (hx : x < m.fresh) : ∃ s, create (some x, dic, m') = .ok (.again (next m x, s)) ∧
      Created m xs (pre ++ [x]) s.1 s.2 := by
  have hcopy : copy m xs x = m'.fresh := by
    rw [hc.fresh, copy, ← hxs, List.idxOf_append_of_notMem hpre, List.idxOf_cons_self, Nat.add_zero]
  have hold : ∀ l < m.fresh, (m'.new { val := (m'.get x).val }).2.get l = m.get l := fun l hl => by
    rw [Memory.get_new, if_neg (by rw [hc.fresh]; omega), hc.old l hl]
  refine ⟨(dic.set x m'.fresh, (m'.new { val := (m'.get x).val }).2), ?_, ?_, fun l => ?_, hold, fun y hy => ?_⟩
  · rw [next, ← hold x hx]
    rfl
  · rw [List.length_append, List.length_singleton, ← Nat.add_assoc, ← hc.fresh]
    rfl
  · rw [Dict.get?_set, hc.dic, ← hcopy]
    by_cases hl : l = x
    · simp [hl]
    · simp [hl]
  · rw [Memory.get_new, ← hcopy]
    rcases List.mem_append.1 hy with hy | hy
    · have hmem : y ∈ xs := by simp [← hxs, hy]
      have hne : y ≠ x := fun heq => hpre (heq ▸ hy)
      rw [if_neg (mt (copy_inj hmem).1 hne), hc.new y hy]
    · rw [List.mem_singleton.1 hy, if_pos rfl, hc.old x hx]

/-- After the second loop has passed the nodes `pre`. -/
structure Linking (m : Nodes) (xs pre : List Loc) (m' : Nodes) : Prop where
  old : ∀ l < m.fresh, m'.get l = m.get l
  done : ∀ x ∈ pre, m'.get (copy m xs x) = linked m xs x
  todo : ∀ x ∈ xs, x ∉ pre → m'.get (copy m xs x) = { val := (m.get x).val }

/-- What a round of the second loop writes. -/
def LinksOne (m : Nodes) (xs : List Loc) (x : Loc) (m' m₁ : Nodes) : Prop :=
  ∀ l, m₁.get l = if l = copy m xs x then linked m xs x else m'.get l

theorem Linking.linksOne {m₁ : Nodes} (hl : Linking m xs pre m') (h : LinksOne m xs x m' m₁) (hx : x ∈ xs) :
    Linking m xs (pre ++ [x]) m₁ where
  old l hlt := by
    rw [h, if_neg (ne_copy hlt), hl.old l hlt]
  done y hy := by
    rw [h]
    split_ifs with heq
    · rw [(copy_inj hx).1 heq.symm]
    · refine hl.done y ((List.mem_append.1 hy).resolve_right fun hmem => heq ?_)
      rw [List.mem_singleton.1 hmem]
  todo y hy hnot := by
    rw [List.mem_append, List.mem_singleton, not_or] at hnot
    rw [h, if_neg (mt (copy_inj hy).1 hnot.2), hl.todo y hy hnot.1]

/-! ## The rounds of the second loop -/

/-- The dictionary after the first loop. -/
def Complete (m : Nodes) (xs : List Loc) (dic : Dict Loc Loc) : Prop :=
  ∀ l, dic.get? l = if l ∈ xs then some (copy m xs l) else none

theorem Complete.item (h : Complete m xs dic) (hx : x ∈ xs) : item dic x = .ok (copy m xs x) := by
  rw [CopyRandomList.item, h x, if_pos hx]

theorem Offer35.get_eq (h : Complete m xs dic) {q : Option Loc} (hq : ∀ r, q = some r → r ∈ xs) :
    Offer35.get dic q = q.map (copy m xs) := by
  cases q with
  | none => rfl
  | some r => rw [Offer35.get, Option.bind_some, h r, if_pos (hq r rfl), Option.map_some]

theorem get_setNext (m : Nodes) (l y : Loc) (q : Option Loc) :
    (setNext m l q).get y = if y = l then { m.get l with next := q } else m.get y := m.get_set l y _

theorem get_setRandom (m : Nodes) (l y : Loc) (q : Option Loc) :
    (setRandom m l q).get y = if y = l then { m.get l with random := q } else m.get y := m.get_set l y _

theorem Offer35.link_spec (h : Original m head xs) (hdic : Complete m xs dic) (hl : Linking m xs pre m') (hx : x ∈ xs)
    (hpre : x ∉ pre) : ∃ m₁, Offer35.link dic (some x, m') = .ok (.again (next m x, m₁)) ∧ LinksOne m xs x m' m₁ := by
  have hold : m'.get x = m.get x := hl.old x (h.alloc x hx)
  have hne : x ≠ copy m xs x := ne_copy (h.alloc x hx)
  have hnext : Offer35.get dic (m.get x).next = _ := Offer35.get_eq hdic fun r hr => h.segment.next_mem x hx r hr
  have hrandom := Offer35.get_eq hdic (h.random x hx)
  refine ⟨setRandom (setNext m' (copy m xs x) ((m.get x).next.map (copy m xs))) (copy m xs x)
    ((m.get x).random.map (copy m xs)), ?_, fun l => ?_⟩
  · simp only [Offer35.link, hdic.item hx, bind, Except.bind, get_setNext, get_setRandom, if_neg hne, hold, hnext,
      hrandom]
    rfl
  · simp only [get_setRandom, get_setNext, if_true, hl.todo x hx hpre]
    split_ifs <;> rfl

theorem Exercise138.assign_eq (set : Nodes → Loc → Option Loc → Nodes) (hdic : Complete m xs dic) (hx : x ∈ xs)
    {q : Option Loc} (hq : ∀ r, q = some r → r ∈ xs) (hnone : set m' (copy m xs x) none = m') :
    Exercise138.assign set dic x q m' = .ok (set m' (copy m xs x) (q.map (copy m xs))) := by
  cases q with
  | none => rw [Exercise138.assign, Option.map_none, hnone]
  | some r =>
    simp only [Exercise138.assign, hdic.item hx, hdic.item (hq r rfl)]
    rfl

theorem setNext_self {l : Loc} (h : (m.get l).next = none) : setNext m l none = m := by
  rw [setNext, ← h]
  exact m.set_get_self l

theorem setRandom_self {l : Loc} (h : (m.get l).random = none) : setRandom m l none = m := by
  rw [setRandom, ← h]
  exact m.set_get_self l

theorem Exercise138.link_spec (h : Original m head xs) (hdic : Complete m xs dic) (hl : Linking m xs pre m')
    (hx : x ∈ xs) (hpre : x ∉ pre) :
    ∃ m₁, Exercise138.link dic (some x, m') = .ok (.again (next m x, m₁)) ∧ LinksOne m xs x m' m₁ := by
  have hold : m'.get x = m.get x := hl.old x (h.alloc x hx)
  have hne : x ≠ copy m xs x := ne_copy (h.alloc x hx)
  have hblank := hl.todo x hx hpre
  have hrandom := Exercise138.assign_eq setRandom hdic hx (h.random x hx) (setRandom_self (by rw [hblank]))
  generalize hm₁ : setRandom m' (copy m xs x) ((m.get x).random.map (copy m xs)) = m₁ at hrandom
  have hnext : Exercise138.assign setNext dic x (m.get x).next m₁ = _ :=
    Exercise138.assign_eq setNext hdic hx (fun r hr => h.segment.next_mem x hx r hr)
      (setNext_self (by rw [← hm₁, get_setRandom, if_pos rfl, hblank]))
  have hold₁ : m₁.get x = m.get x := by rw [← hm₁, get_setRandom, if_neg hne, hold]
  refine ⟨setNext m₁ (copy m xs x) ((m.get x).next.map (copy m xs)), ?_, fun l => ?_⟩
  · simp only [Exercise138.link, hold, hrandom, bind, Except.bind, hold₁, hnext, get_setNext, if_neg hne]
    rfl
  · simp only [← hm₁, get_setNext, get_setRandom, if_true, hblank]
    split_ifs <;> rfl

/-! ## The functions -/

theorem Linking.contents (hl : Linking m xs xs m') : contents m' (xs.map (copy m xs)) = contents m xs := by
  rw [CopyRandomList.contents, CopyRandomList.contents, List.map_map]
  refine List.map_congr_left fun x hx => ?_
  simp only [Function.comp_apply, hl.done x hx, linked]
  cases hr : (m.get x).random with
  | none => rfl
  | some r => rw [Option.map_some, Option.map_some, Option.map_some, idxOf_map_copy (List.Subset.refl xs)]

/-- What the memory holds when both loops have ended. -/
theorem Linking.copies (h : Original m head xs) (hl : Linking m xs xs m')
    {f : ℕ → ExceptT Exc Option (Option Loc × Nodes)} (hf : Returns f (.ok (head.map (copy m xs), m'))) :
    Copies f m xs := by
  refine ⟨_, m', xs.map (copy m xs), hf, ?_, fun y hy => ?_, hl.contents, hl.old⟩
  · exact h.segment.map (copy m xs) fun x hx => congrArg Node.next (hl.done x hx)
  · obtain ⟨x, -, rfl⟩ := List.mem_map.1 hy
    exact Nat.le_add_right _ _

theorem exists_created (h : Original m head xs) :
    ∃ s, Returns (fun fuel => loop (attempt create) fuel (head, .empty, m)) (.ok s) ∧ Created m xs xs s.1 s.2 :=
  Returns.through (P := fun pre (s : Dict Loc Loc × Nodes) => Created m xs pre s.1 s.2) Except.ok
    (fun _ => rfl) h.segment
    (fun pre x rest s hxs hs => by
      obtain ⟨s', heq, hs'⟩ := hs.create hxs (h.segment.not_mem_passed hxs) (h.alloc x (by simp [← hxs]))
      exact ⟨s', attempt_again heq, hs'⟩)
    ⟨rfl, fun _ => rfl, fun _ _ => rfl, fun x hx => absurd hx List.not_mem_nil⟩

theorem copies_copyWith {link : Dict Loc Loc → Option Loc × Nodes → Except Exc (Round (Option Loc × Nodes) Nodes)}
    (h : Original m head xs) (hend : ∀ dic m, link dic (none, m) = .ok (.leave m))
    (hlink : ∀ dic pre x m', Complete m xs dic → Linking m xs pre m' → x ∈ xs → x ∉ pre →
      ∃ m₁, link dic (some x, m') = .ok (.again (next m x, m₁)) ∧ LinksOne m xs x m' m₁) :
    Copies (copyWith link head m) m xs := by
  obtain ⟨⟨dic, m₁⟩, hcreate, hcreated⟩ := exists_created h
  have hblank : Linking m xs [] m₁ :=
    ⟨hcreated.old, fun x hx => absurd hx List.not_mem_nil, fun x hx _ => hcreated.new x hx⟩
  obtain ⟨m₂, hlinks, hl⟩ := Returns.through (P := Linking m xs) Except.ok
    (fun m => attempt_leave (hend dic m)) h.segment
    (fun pre x rest m' hxs hl => by
      have hx : x ∈ xs := by simp [← hxs]
      obtain ⟨m₁, heq, hone⟩ := hlink dic pre x m' hcreated.dic hl hx (h.segment.not_mem_passed hxs)
      exact ⟨m₁, attempt_again heq, hl.linksOne hone hx⟩) hblank
  cases head with
  | none =>
    obtain rfl : xs = [] := Segment.eq_of_none h.segment rfl
    refine ⟨none, m, [], Returns.pure _, rfl, fun y hy => absurd hy List.not_mem_nil, rfl, fun _ _ => rfl⟩
  | some p =>
    have hitem : item dic p = .ok (copy m xs p) := Complete.item hcreated.dic h.segment.head_mem
    have hlinkAll : Returns (linkAll link p dic m₁) (.ok (some (copy m xs p), m₂)) := by
      refine Returns.bind_ok (g := fun m _ => (liftM (item dic p) >>= fun node => pure (some node, m))) hlinks ?_
      rw [hitem]
      exact Returns.done _
    have hboth := Returns.bind_ok (g := fun (s : Dict Loc Loc × Nodes) => linkAll link p s.1 s.2) hcreate hlinkAll
    exact hl.copies h hboth

/-- Both functions return a list of new nodes with the values of the old ones and with random pointers to the same
positions, and leave the nodes that were there as they were. -/
theorem copyRandomList_exact (h : Original m head xs) :
    Copies (Offer35.copyRandomList head m) m xs ∧ Copies (Exercise138.copyRandomList head m) m xs :=
  ⟨copies_copyWith h (fun _ _ => rfl) fun _ _ _ _ hdic hl hx hpre => Offer35.link_spec h hdic hl hx hpre,
    copies_copyWith h (fun _ _ => rfl) fun _ _ _ _ hdic hl hx hpre => Exercise138.link_spec h hdic hl hx hpre⟩

/-- Two nodes; the random pointer of the first one points forwards, that of the second one to itself. -/
theorem copyRandomList_two :
    let m : Nodes := ⟨fun l => if l = 0 then ⟨7, some 1, some 1⟩ else ⟨13, none, some 1⟩, 2⟩
    Copies (Offer35.copyRandomList (some 0) m) m [0, 1] ∧ Copies (Exercise138.copyRandomList (some 0) m) m [0, 1] :=
  copyRandomList_exact ⟨⟨rfl, rfl, rfl⟩, by decide, by decide⟩

end GoodGoodStudy.LeetCode.CopyRandomList
