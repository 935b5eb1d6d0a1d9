/-
The third solution of the exercise 130: a union-find forest in a dictionary, with the cells numbered row by row and
one more number for the border. Two cells that share a side are joined when one of them lies inside; those on the
border are joined with the number of the border, and so with each other.
-/
import Mathlib.Logic.Equiv.Fin.Basic
import Mathlib.Tactic.Ring
import GoodGoodStudy.Lib.Dict
import GoodGoodStudy.Lib.Forest
import GoodGoodStudy.LeetCode.SurroundedRegions

namespace GoodGoodStudy.LeetCode.SurroundedRegions

open GoodGoodStudy.Lib

variable {m n : ℕ}

/-! ## The solution -/

namespace Solution3

def setdefault (f : Dict ℤ ℤ) (x : ℤ) : Dict ℤ ℤ := if f.contains x then f else f.set x x

/-- The dictionary after the call, and the root. -/
def find : ℕ → Dict ℤ ℤ → ℤ → Option (Dict ℤ ℤ × ℤ)
  | 0, _, _ => none
  | fuel + 1, f, x =>
    let f := setdefault f x
    (f.get? x).bind fun y =>
      if y ≠ x then (find fuel f y).map fun (f, root) => (f.set x root, root) else some (f, y)

/-- `f[find(y)] = find(x)`: the right side is evaluated first. -/
def union (fuel : ℕ) (f : Dict ℤ ℤ) (x y : ℤ) : Option (Dict ℤ ℤ) :=
  (find fuel f x).bind fun (f, rootX) => (find fuel f y).map fun (f, rootY) => f.set rootY rootX

/-- An index of a list, which counts from the end if it is negative. -/
def item? (k : ℕ) (x : ℤ) : Option (Fin k) := if 0 ≤ x then index? k x else index? k (x + k)

/-- `board[x][y]`. -/
def tile? (board : Board m n) (x y : ℤ) : Option Tile :=
  (item? (m + 1) x).bind fun i => (item? (n + 1) y).map fun j => board.get (i, j)

/-- `x * col + y`. -/
def key (n : ℕ) (x y : ℤ) : ℤ := x * (n + 1 : ℕ) + y

def dummy (m n : ℕ) : ℤ := (m + 1 : ℕ) * (n + 1 : ℕ)

/-- The body of the first loops. -/
def joinCell (fuel : ℕ) (board : Board m n) (f : Dict ℤ ℤ) (p : Pos m n) : Option (Dict ℤ ℤ) :=
  if board.get p = .O then
    if OnBorder p then union fuel f (key n p.1 p.2) (dummy m n)
    else directions.foldlM (fun f d => (tile? board (p.1 + d.1) (p.2 + d.2)).bind fun t =>
      if t = .O then union fuel f (key n p.1 p.2) (key n (p.1 + d.1) (p.2 + d.2)) else some f) f
  else some f

/-- The body of the last loops. -/
def restoreCell (fuel : ℕ) (s : Board m n × Dict ℤ ℤ) (p : Pos m n) : Option (Board m n × Dict ℤ ℤ) :=
  (find fuel s.2 (dummy m n)).bind fun (f, root) => (find fuel f (key n p.1 p.2)).map fun (f, root') =>
    (s.1.set p (if root = root' then .O else .X), f)

def solve (fuel : ℕ) (board : Board m n) : Option (Board m n) :=
  ((cells (m + 1) (n + 1)).foldlM (joinCell fuel board) Dict.empty).bind fun f =>
    ((cells (m + 1) (n + 1)).foldlM (restoreCell fuel) (board, f)).map Prod.fst

/-! ## The dictionary as a parent function -/

/-- A number that is not in the dictionary is its own parent as soon as anybody asks. -/
def par (f : Dict ℤ ℤ) (x : ℤ) : ℤ := (f.get? x).getD x

theorem par_set (f : Dict ℤ ℤ) (x r : ℤ) : par (f.set x r) = Function.update (par f) x r := by
  funext y
  unfold par
  rw [Dict.get?_set, Function.update_apply]
  split_ifs with hy
  · rfl
  · rfl

theorem get?_setdefault (f : Dict ℤ ℤ) (x : ℤ) : (setdefault f x).get? x = some (par f x) := by
  unfold setdefault par Dict.contains
  cases h : f.get? x with
  | none => simp
  | some y => simp [h]

theorem par_setdefault (f : Dict ℤ ℤ) (x : ℤ) : par (setdefault f x) = par f := by
  unfold setdefault
  split_ifs with h
  · rfl
  · have hx : par f x = x := by
      unfold par
      rw [Dict.contains, Bool.not_eq_true, Option.isSome_eq_false_iff, Option.isNone_iff_eq_none] at h
      rw [h, Option.getD_none]
    rw [par_set, Function.update_eq_self_iff.2 hx.symm]

/-- `find` returns the root, and every number keeps its own. -/
theorem find_returns {f : Dict ℤ ℤ} {x r : ℤ} (h : Leads (par f) x r) :
    ∃ f', Returns (fun fuel => find fuel f x) (f', r) ∧ ∀ a s, Leads (par f) a s → Leads (par f') a s := by
  generalize hg : par f = g at h
  induction h generalizing f with
  | @root r h =>
    have hget : (setdefault f r).get? r = some r := by rw [get?_setdefault, hg, h]
    refine ⟨setdefault f r, Returns.call (g := fun _ => some (setdefault f r, r)) (fun fuel => ?_) (Returns.pure _), ?_⟩
    · simp only [find, hget, Option.bind_some, ne_eq, not_true_eq_false, if_false]
    · intro a s hs
      rwa [par_setdefault, hg]
  | @step x r h hr ih =>
    have hget : (setdefault f x).get? x = some (g x) := by rw [get?_setdefault, hg]
    obtain ⟨f', hret, hkeep⟩ := ih (f := setdefault f x) (by rw [par_setdefault, hg])
    have hx : Leads (par f') x r := hkeep x r (.step h hr)
    refine ⟨f'.set x r, Returns.call (fun fuel => ?_) (hret.map fun q => (q.1.set x q.2, q.2)), ?_⟩
    · simp only [find, hget, Option.bind_some, ne_eq, h, not_false_eq_true, if_true]
    · intro a s hs
      rw [par_set]
      exact hx.compress (hkeep a s hs)

theorem union_returns {f : Dict ℤ ℤ} (h : Forest (par f)) (x y : ℤ) :
    ∃ f', Returns (fun fuel => union fuel f x y) f' ∧ Joins (par f) (fun a b => a = y ∧ b = x) (par f') := by
  obtain ⟨r, hr⟩ := h x
  obtain ⟨f₁, hf₁, hkeep₁⟩ := find_returns hr
  have hjoin₁ := Joins.of_keeps h hkeep₁
  obtain ⟨s, hs⟩ := hjoin₁.forest y
  obtain ⟨f₂, hf₂, hkeep₂⟩ := find_returns hs
  have hjoin₂ := Joins.of_keeps hjoin₁.forest hkeep₂
  have hlink := Joins.link hjoin₂.forest (hkeep₂ _ _ hs) (hkeep₂ _ _ (hkeep₁ _ _ hr))
  refine ⟨f₂.set s r, hf₁.bind (hf₂.map fun q => q.1.set q.2 r), ?_⟩
  rw [par_set]
  exact ((hjoin₁.trans hjoin₂).trans hlink).congr fun a b => by simp

/-! ## The numbers of the cells -/

/-- The number of a cell. -/
def num (p : Pos m n) : ℤ := key n p.1 p.2

theorem num_eq (p : Pos m n) : num p = ((finProdFinEquiv p : Fin ((m + 1) * (n + 1))) : ℕ) := by
  show (p.1 : ℤ) * ((n + 1 : ℕ) : ℤ) + p.2 = (((p.2 : ℕ) + (n + 1) * p.1 : ℕ) : ℤ)
  push_cast
  ring

theorem num_inj {p q : Pos m n} (h : num p = num q) : p = q := by
  rw [num_eq, num_eq] at h
  exact finProdFinEquiv.injective (Fin.ext (Int.ofNat.inj h))

theorem num_ne_dummy (p : Pos m n) : num p ≠ dummy m n := by
  have hlt := (finProdFinEquiv p).isLt
  rw [num_eq, dummy, ← Int.natCast_mul]
  exact fun h => absurd (Int.ofNat.inj h) (Nat.ne_of_lt hlt)

theorem tile?_eq {board : Board m n} {x y : ℤ} {q : Pos m n} (hx : x = q.1) (hy : y = q.2) :
    tile? board x y = some (board.get q) := by
  have hitem : ∀ {k : ℕ} {z : ℤ} {i : Fin k}, z = i → item? k z = some i := fun hz => by
    rw [item?, if_pos (hz ▸ Int.natCast_nonneg _), index?_eq_some.2 hz]
  rw [tile?, hitem hx, hitem hy]
  rfl

/-! ## What is joined -/

/-- The pairs that the first loops join when they come to a cell. -/
def Joined (board : Board m n) (p : Pos m n) (a b : ℤ) : Prop :=
  board.get p = .O ∧ b = num p ∧
    ((OnBorder p ∧ a = dummy m n) ∨ (¬ OnBorder p ∧ ∃ q, SharesSide p q ∧ board.get q = .O ∧ a = num q))

/-- A cell inside has a neighbour in every direction. -/
theorem exists_neighbour {p : Pos m n} (hp : ¬ OnBorder p) {d : ℤ × ℤ} (hd : d ∈ directions) :
    ∃ q : Pos m n, (p.1 : ℤ) + d.1 = q.1 ∧ (p.2 : ℤ) + d.2 = q.2 := by
  have hfin : ∀ {k : ℕ} {x : ℤ}, 0 ≤ x → x < k → ∃ i : Fin k, x = i := fun h0 hk =>
    ⟨⟨_, (Int.toNat_lt h0).2 hk⟩, (Int.toNat_of_nonneg h0).symm⟩
  have hstep : ∀ d ∈ directions, (-1 ≤ d.1 ∧ d.1 ≤ 1) ∧ -1 ≤ d.2 ∧ d.2 ≤ 1 := by decide
  obtain ⟨h1, h2⟩ := hstep d hd
  simp only [OnBorder, not_or, Fin.ext_iff, Fin.val_zero, Fin.val_last] at hp
  obtain ⟨i, hi⟩ := hfin (k := m + 1) (x := (p.1 : ℤ) + d.1) (by omega) (by omega)
  obtain ⟨j, hj⟩ := hfin (k := n + 1) (x := (p.2 : ℤ) + d.2) (by omega) (by omega)
  exact ⟨(i, j), hi, hj⟩

/-- The pair that is joined when the loop over the directions looks in one of them. -/
def JoinedSide (board : Board m n) (p : Pos m n) (d : ℤ × ℤ) (a b : ℤ) : Prop :=
  b = num p ∧ ∃ q : Pos m n, ((p.1 : ℤ) + d.1 = q.1 ∧ (p.2 : ℤ) + d.2 = q.2) ∧ board.get q = .O ∧ a = num q

/-- The cell in a direction is the only one there. -/
theorem joinedSide_iff {board : Board m n} {p q : Pos m n} {d : ℤ × ℤ} (hx : (p.1 : ℤ) + d.1 = q.1)
    (hy : (p.2 : ℤ) + d.2 = q.2) (a b : ℤ) :
    JoinedSide board p d a b ↔ board.get q = .O ∧ a = num q ∧ b = num p := by
  constructor
  · rintro ⟨hb, q', ⟨hx', hy'⟩, hO, ha⟩
    have hq : q' = q :=
      Prod.ext (Fin.ext (Int.ofNat.inj (hx'.symm.trans hx))) (Fin.ext (Int.ofNat.inj (hy'.symm.trans hy)))
    subst hq
    exact ⟨hO, ha, hb⟩
  · rintro ⟨hO, ha, hb⟩
    exact ⟨hb, q, ⟨hx, hy⟩, hO, ha⟩

theorem joinSide_returns (board : Board m n) {p : Pos m n} (hp : ¬ OnBorder p) {d : ℤ × ℤ} (hd : d ∈ directions)
    {g : Dict ℤ ℤ} (hg : Forest (par g)) :
    ∃ g', Returns (fun fuel => (tile? board (p.1 + d.1) (p.2 + d.2)).bind fun t =>
        if t = .O then union fuel g (key n p.1 p.2) (key n (p.1 + d.1) (p.2 + d.2)) else some g) g' ∧
      Joins (par g) (JoinedSide board p d) (par g') := by
  obtain ⟨q, hx, hy⟩ := exists_neighbour hp hd
  rw [tile?_eq hx hy]
  simp only [Option.bind_some]
  by_cases hq : board.get q = .O
  · simp only [if_pos hq]
    have hkey : key n (p.1 + d.1) (p.2 + d.2) = num q := by rw [hx, hy]; rfl
    rw [hkey]
    obtain ⟨g', hret, hjoin⟩ := union_returns hg (num p) (num q)
    refine ⟨g', hret, hjoin.congr fun a b => ?_⟩
    rw [joinedSide_iff hx hy, and_iff_right hq]
  · simp only [if_neg hq]
    refine ⟨g, Returns.pure g, (Joins.of_keeps hg fun _ _ h => h).congr fun a b => ?_⟩
    rw [joinedSide_iff hx hy]
    exact iff_of_false not_false fun h => hq h.1

theorem joinCell_returns (board : Board m n) (p : Pos m n) {f : Dict ℤ ℤ} (hf : Forest (par f)) :
    ∃ f', Returns (fun fuel => joinCell fuel board f p) f' ∧ Joins (par f) (Joined board p) (par f') := by
  unfold joinCell
  by_cases hO : board.get p = .O
  · by_cases hp : OnBorder p
    · simp only [if_pos hO, if_pos hp]
      obtain ⟨f', hret, hjoin⟩ := union_returns hf (num p) (dummy m n)
      refine ⟨f', hret, hjoin.congr fun a b => ⟨fun h => ⟨hO, h.2, Or.inl ⟨hp, h.1⟩⟩, ?_⟩⟩
      rintro ⟨-, hb, ⟨-, ha⟩ | ⟨hnot, -⟩⟩
      · exact ⟨ha, hb⟩
      · exact absurd hp hnot
    · simp only [if_pos hO, if_neg hp]
      obtain ⟨f', hret, hjoin⟩ := Joins.foldlM par _ _ directions (fun d hd _ hg => joinSide_returns board hp hd hg) f hf
      refine ⟨f', hret, hjoin.congr fun a b => ⟨?_, ?_⟩⟩
      · rintro ⟨d, hd, hb, q, hpos, hq, ha⟩
        have hside := mem_neighbours_directions.1 (mem_neighbours_iff.2 ⟨d, hd, hpos⟩)
        exact ⟨hO, hb, Or.inr ⟨hp, q, hside, hq, ha⟩⟩
      · rintro ⟨-, hb, ⟨hborder, -⟩ | ⟨-, q, hside, hq, ha⟩⟩
        · exact absurd hborder hp
        · obtain ⟨d, hd, hpos⟩ := mem_neighbours_iff.1 (mem_neighbours_directions.2 hside)
          exact ⟨d, hd, hb, q, hpos, hq, ha⟩
  · simp only [if_neg hO]
    exact ⟨f, Returns.pure f, (Joins.of_keeps hf fun _ _ h => h).congr fun a b =>
      ⟨False.elim, fun h => hO h.1⟩⟩

/-- What the border is joined with: the border itself, and the safe cells. -/
def SafeNumber (board : Board m n) (a : ℤ) : Prop :=
  a = dummy m n ∨ ∃ q : Pos m n, Safe board q ∧ a = num q

theorem safeNumber_num {board : Board m n} (q : Pos m n) : SafeNumber board (num q) ↔ Safe board q := by
  constructor
  · rintro (hq | ⟨q', hsafe, hq⟩)
    · exact absurd hq (num_ne_dummy q)
    · exact num_inj hq ▸ hsafe
  · exact fun hsafe => Or.inr ⟨q, hsafe, rfl⟩

/-- Every pair that is joined keeps it. -/
theorem Joined.safeNumber_iff {board : Board m n} {q : Pos m n} {a b : ℤ} (h : Joined board q a b) :
    SafeNumber board a ↔ SafeNumber board b := by
  obtain ⟨hO, rfl, ⟨hq, rfl⟩ | ⟨-, q', hside, hO', rfl⟩⟩ := h
  · exact iff_of_true (Or.inl rfl) ((safeNumber_num q).2 (Reach.start hq hO))
  · rw [safeNumber_num, safeNumber_num]
    exact ⟨fun hs => hs.edge hO hside.symm, fun hs => hs.edge hO' hside⟩

/-- A cell is joined with the border if and only if it is safe. -/
theorem sameRoot_dummy_iff {board : Board m n} {g : ℤ → ℤ}
    (h : Joins id (fun a b => ∃ p ∈ cells (m + 1) (n + 1), Joined board p a b) g) (p : Pos m n) :
    SameRoot g (dummy m n) (num p) ↔ Safe board p := by
  have hE := SameRoot.equivalence h.forest
  have hborder : ∀ q : Pos m n, board.get q = .O → OnBorder q → SameRoot g (dummy m n) (num q) := fun q hO hq =>
    h.pairs ⟨q, mem_cells q, hO, rfl, Or.inl ⟨hq, rfl⟩⟩
  constructor
  · have hclosure : ∀ a b, Relation.EqvGen (fun a b => ∃ q ∈ cells (m + 1) (n + 1), Joined board q a b) a b →
        (SafeNumber board a ↔ SafeNumber board b) := by
      intro a b hgen
      induction hgen with
      | rel a b hab =>
        obtain ⟨q, -, hq⟩ := hab
        exact hq.safeNumber_iff
      | refl a => exact Iff.rfl
      | symm a b _ ih => exact ih.symm
      | trans a b c _ _ ih₁ ih₂ => exact ih₁.trans ih₂
    intro hroot
    rw [← safeNumber_num, ← hclosure _ _ ((h.sameRoot_iff_eqvGen _ _).1 hroot)]
    exact Or.inl rfl
  · rintro ⟨q, hq, hO, hpath⟩
    induction hpath with
    | refl => exact hborder q hO hq
    | @tail b c _ hlast ih =>
      obtain ⟨hb, hc, hside⟩ := hlast
      -- a cell inside was joined with its neighbours when the loop came to it, a cell on the border was not
      by_cases hbb : OnBorder b
      · by_cases hcb : OnBorder c
        · exact hborder c hc hcb
        · exact hE.trans ih (h.pairs ⟨c, mem_cells c, hc, rfl, Or.inr ⟨hcb, b, hside.symm, hb, rfl⟩⟩)
      · exact hE.trans ih (hE.symm (h.pairs ⟨b, mem_cells b, hb, rfl, Or.inr ⟨hbb, c, hside, hc, rfl⟩⟩))

/-! ## The last loops -/

/-- The cells that the loop has passed are as they are to be, and the roots have not changed. -/
structure Restored (f₀ : Dict ℤ ℤ) (pre : List (Pos m n)) (s : Board m n × Dict ℤ ℤ) : Prop where
  roots : ∀ a r, Leads (par f₀) a r → Leads (par s.2) a r
  tiles : ∀ p ∈ pre, s.1.get p ≠ .L ∧ (s.1.get p = .O ↔ SameRoot (par f₀) (dummy m n) (num p))

theorem restoreCell_returns {f₀ : Dict ℤ ℤ} (h₀ : Forest (par f₀)) (pre : List (Pos m n)) (p : Pos m n)
    (s : Board m n × Dict ℤ ℤ) (hs : Restored f₀ pre s) :
    ∃ s', Returns (fun fuel => restoreCell fuel s p) s' ∧ Restored f₀ (pre ++ [p]) s' := by
  obtain ⟨root, hroot⟩ := h₀ (dummy m n)
  obtain ⟨root', hroot'⟩ := h₀ (num p)
  obtain ⟨f₁, hf₁, hkeep₁⟩ := find_returns (hs.roots _ _ hroot)
  obtain ⟨f₂, hf₂, hkeep₂⟩ := find_returns (hkeep₁ _ _ (hs.roots _ _ hroot'))
  have hsame : root = root' ↔ SameRoot (par f₀) (dummy m n) (num p) := by
    constructor
    · rintro rfl
      exact ⟨root, hroot, hroot'⟩
    · rintro ⟨r, hr, hr'⟩
      exact (hroot.unique hr).trans (hr'.unique hroot')
  refine ⟨_, hf₁.bind (hf₂.map fun q => (s.1.set p (if root = q.2 then .O else .X), q.1)), ?_, fun q hq => ?_⟩
  · exact fun a r ha => hkeep₂ _ _ (hkeep₁ _ _ (hs.roots a r ha))
  · rw [Grid.get_set]
    split_ifs with hqp hr
    · subst hqp
      exact ⟨nofun, iff_of_true rfl (hsame.1 hr)⟩
    · subst hqp
      exact ⟨nofun, iff_of_false nofun fun h => hr (hsame.2 h)⟩
    · rcases List.mem_append.1 hq with hq | hq
      · exact hs.tiles q hq
      · exact absurd (List.mem_singleton.1 hq) hqp

theorem solve_returns (board : Board m n) :
    ∃ result, Returns (fun fuel => solve fuel board) result ∧ Solved board result := by
  have hempty : Forest (par Dict.empty) := fun a => ⟨a, .root rfl⟩
  obtain ⟨f, hf, hjoin⟩ := Joins.foldlM par (fun fuel => joinCell fuel board) (Joined board)
    (cells (m + 1) (n + 1)) (fun p _ f hf => joinCell_returns board p hf) Dict.empty hempty
  obtain ⟨s, hs, hrestored⟩ := Returns.foldlM (restoreCell_returns hjoin.forest) (cells (m + 1) (n + 1)) []
    (s := (board, f)) ⟨fun _ _ h => h, fun _ h => absurd h List.not_mem_nil⟩
  refine ⟨s.1, hf.bind (hs.map Prod.fst), fun p => ?_⟩
  have hp := hrestored.tiles p (mem_cells p)
  rwa [sameRoot_dummy_iff hjoin] at hp

end Solution3

/-! ## The three solutions -/

/-- On every board of `'X'` and `'O'` the three solutions end, and leave the one board in which the open cells are
those that were connected to the border. -/
theorem solutions_agree (board : Board m n) (hboard : ∀ p, board.get p ≠ .L) :
    ∃ result, Returns (fun fuel => Solution1.solve fuel board) result ∧
      Returns (fun fuel => Solution2.solve fuel board) result ∧
      Returns (fun fuel => Solution3.solve fuel board) result ∧
      ∀ p, result.get p ≠ .L ∧ (result.get p = .O ↔ Safe board p) := by
  obtain ⟨r₁, h₁, hr₁⟩ := solveWith_returns dfs_returns hboard
  obtain ⟨r₂, h₂, hr₂⟩ := solveWith_returns bfs_returns hboard
  obtain ⟨r₃, h₃, hr₃⟩ := Solution3.solve_returns board
  exact ⟨r₁, h₁, hr₂.unique hr₁ ▸ h₂, hr₃.unique hr₁ ▸ h₃, hr₁⟩

def ring : Board 2 2 :=
  ⟨#v[#v[.X, .O, .X], #v[.X, .O, .X], #v[.X, .X, .O]]⟩

theorem solutions_agree_ring : (∀ p, ring.get p ≠ .L) ∧
    ∃ result, Returns (fun fuel => Solution1.solve fuel ring) result ∧
      Returns (fun fuel => Solution2.solve fuel ring) result ∧
      Returns (fun fuel => Solution3.solve fuel ring) result ∧
      ∀ p, result.get p ≠ .L ∧ (result.get p = .O ↔ Safe ring p) :=
  have hring : ∀ p, ring.get p ≠ .L := by decide
  ⟨hring, solutions_agree ring hring⟩

end GoodGoodStudy.LeetCode.SurroundedRegions
