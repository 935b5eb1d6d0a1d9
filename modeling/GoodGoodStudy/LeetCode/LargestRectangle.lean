/-
The exercises 84, the largest rectangle under the bars of a histogram, and 85, the largest rectangle of ones in a
matrix. In 84 a stack holds the bars that no later one is below. A bar that is taken from it has the greatest
rectangle with its height between the bar below it on the stack and the one that removes it. -1 lies under all bars;
read as an index it names the last height, which is a 0 that was appended. In 85 every cell has the number of ones up
to it in its row, and the rectangles with their last corner there are as wide as the least of these numbers above.
-/
import Mathlib.Order.Bounds.Defs
import GoodGoodStudy.Lib.Counter
import GoodGoodStudy.Lib.Sequence
import GoodGoodStudy.Lib.Standing

namespace GoodGoodStudy.LeetCode.LargestRectangle

open GoodGoodStudy.Lib

/-! ## The bars of a histogram -/

/-- The inner loop, on the stack from its top. -/
def pops (heights : List ℤ) (i : ℕ) : List ℤ → ℤ → Option (List ℤ × ℤ)
  | [], _ => none
  | t :: stack, ans => do
    let h ← item? heights t
    if (← item? heights i) < h then
      let w := i - (← stack.head?) - 1
      pops heights i stack (max ans (h * w))
    else some (t :: stack, ans)

def push (heights : List ℤ) (st : List ℤ × ℤ) (i : ℕ) : Option (List ℤ × ℤ) := do
  let (stack, ans) ← pops heights i st.1 st.2
  some (i :: stack, ans)

/-- `none` is an `IndexError`. -/
def largestRectangleArea (heights : List ℤ) : Option ℤ := do
  let heights := heights ++ [0]
  let (_, ans) ← (List.range heights.length).foldlM (push heights) ([-1], 0)
  some ans

example : largestRectangleArea [2, 1, 5, 6, 2, 3] = some 10 := by decide

variable {hs : List ℤ} {i a b t : ℕ} {l above below : List ℕ} {ans ans' : ℤ}

def height (hs : List ℤ) (i : ℕ) : ℤ := hs.getD i 0

theorem item?_height (hi : i < hs.length) : item? hs i = some (height hs i) := item?_getD hi 0

/-- A bar is not above another one. -/
def Low (hs : List ℤ) (t x : ℕ) : Prop := height hs t ≤ height hs x

instance : DecidableRel (Low hs) := fun _ _ => inferInstanceAs (Decidable (_ ≤ _))

theorem Low.trans {t x y : ℕ} (h : Low hs t x) (h' : Low hs x y) : Low hs t y := le_trans h h'

theorem not_low_trans {t x y : ℕ} (h : ¬ Low hs t x) (h' : ¬ Low hs x y) : ¬ Low hs t y :=
  not_le.2 (lt_trans (not_le.1 h') (not_le.1 h))

/-- The bar `t` is one of those from `a` up to `b`, and none of them is below it. -/
structure Lowest (hs : List ℤ) (a b t : ℕ) : Prop where
  le : a ≤ t
  lt : t < b
  low : ∀ x, a ≤ x → x < b → Low hs t x

/-- The stack with these bars. -/
def stackOf (l : List ℕ) : List ℤ := l.map (fun t : ℕ => (t : ℤ)) ++ [-1]

theorem head?_stackOf (l : List ℕ) : (stackOf l).head? = some ((behind l : ℤ) - 1) := by
  cases l with
  | nil => rfl
  | cons p l => simp [stackOf, behind]

/-- The area that is computed for a bar when `i` removes it. -/
def area (hs : List ℤ) (i t : ℕ) (below : List ℕ) : ℤ := height hs t * (i - behind below)

/-- The greatest area after some bars have been removed. -/
structure Popped (hs : List ℤ) (i : ℕ) (l : List ℕ) (ans ans' : ℤ) : Prop where
  le : ans ≤ ans'
  area_le : ∀ above t below, l = above ++ t :: below → ¬ Low hs t i → area hs i t below ≤ ans'
  found : ans' = ans ∨ ∃ above t below, l = above ++ t :: below ∧ ¬ Low hs t i ∧ ans' = area hs i t below

theorem popped_of_low (h : ∀ t ∈ l, Low hs t i) : Popped hs i l ans ans where
  le := le_rfl
  area_le above t _ hl hlow := absurd (h t (hl ▸ List.mem_append_right above List.mem_cons_self)) hlow
  found := Or.inl rfl

theorem Popped.cons (h : Popped hs i l (max ans (area hs i t l)) ans') (ht : ¬ Low hs t i) :
    Popped hs i (t :: l) ans ans' := by
  refine ⟨(le_max_left _ _).trans h.le, ?_, ?_⟩
  · rintro (_ | ⟨u, above⟩) t' below hl hlow
    · obtain ⟨rfl, rfl⟩ := List.cons.inj hl
      exact (le_max_right _ _).trans h.le
    · exact h.area_le above t' below (List.cons.inj hl).2 hlow
  · rcases h.found with hans | ⟨above, t', below, rfl, hlow, hans⟩
    · rcases max_choice ans (area hs i t l) with hmax | hmax
      · exact Or.inl (hans.trans hmax)
      · exact Or.inr ⟨[], t, l, rfl, ht, hans.trans hmax⟩
    · exact Or.inr ⟨t :: above, t', below, rfl, hlow, hans⟩

/-- The bars that `i` removes are those above it. -/
theorem pops_popped (hlast : item? hs (-1) = some 0) (hi : i < hs.length) (hpos : 0 ≤ height hs i) :
    ∀ (l : List ℕ) (ans : ℤ), (∀ t ∈ l, t < hs.length) → (l.Pairwise fun u t => Low hs t u) →
      ∃ ans', pops hs i (stackOf l) ans = some (stackOf (l.filter fun t => Low hs t i), ans') ∧ Popped hs i l ans ans'
  | [], ans, _, _ => by
    -- only -1 is left, and the height that it reads is not above any other
    refine ⟨ans, ?_, popped_of_low fun t ht => absurd ht List.not_mem_nil⟩
    show pops hs i [-1] ans = some ([-1], ans)
    rw [pops, hlast, item?_height hi]
    simp only [Option.bind_eq_bind, Option.bind_some, if_neg (not_lt.2 hpos)]
  | t :: l, ans, hlt, hl => by
    obtain ⟨ht, hl⟩ := List.pairwise_cons.1 hl
    have hpops : pops hs i (stackOf (t :: l)) ans = if height hs i < height hs t then
        pops hs i (stackOf l) (max ans (area hs i t l)) else some (stackOf (t :: l), ans) := by
      have hw : (i : ℤ) - ((behind l : ℤ) - 1) - 1 = i - behind l := by omega
      show pops hs i ((t : ℤ) :: stackOf l) ans = _
      rw [pops, item?_height hi, item?_height (hlt t List.mem_cons_self), head?_stackOf]
      simp only [Option.bind_eq_bind, Option.bind_some, hw]
      rfl
    rw [hpops]
    by_cases hlow : Low hs t i
    · have hall : ∀ u ∈ t :: l, Low hs u i := by
        rintro u (_ | ⟨_, hu⟩)
        · exact hlow
        · exact (ht u hu).trans hlow
      rw [if_neg (not_lt.2 hlow), List.filter_eq_self.2 fun u hu => decide_eq_true (hall u hu)]
      exact ⟨ans, rfl, popped_of_low hall⟩
    · obtain ⟨ans', hans', hpopped⟩ := pops_popped hlast hi hpos l (max ans (area hs i t l))
        (fun u hu => hlt u (List.mem_cons_of_mem t hu)) hl
      rw [if_pos (not_le.1 hlow), List.filter_cons_of_neg (by simpa using hlow)]
      exact ⟨ans', hans', hpopped.cons hlow⟩

/-- A bar on the stack is lowest behind the one below it. -/
theorem lowest_of_split (h : standing (Low hs) i = above ++ t :: below) : Lowest hs (behind below) i t := by
  have hfirst := firstStanding_behind h
  obtain ⟨hti, hstands⟩ := mem_standing.1 hfirst.mem
  refine ⟨hfirst.le, hti, fun x hx hxi => ?_⟩
  rcases lt_trichotomy x t with hxt | rfl | htx
  · exact (not_le.1 (FirstStanding.not_stands (r := Low hs) Low.trans not_low_trans hfirst hx hxt)).le
  · exact le_rfl
  · exact hstands x htx hxi

/-- The variables when the loop comes to the bar `i`. -/
structure Scanned (hs : List ℤ) (i : ℕ) (st : List ℤ × ℤ) : Prop where
  stack : st.1 = stackOf (standing (Low hs) i)
  nonneg : 0 ≤ st.2
  area_le : ∀ a b t x, Lowest hs a b t → b ≤ x → x < i → ¬ Low hs t x → height hs t * (b - a) ≤ st.2
  found : st.2 = 0 ∨ ∃ a b t, Lowest hs a b t ∧ b < i ∧ st.2 = height hs t * (b - a)

theorem scanned_zero : Scanned hs 0 ([-1], 0) where
  stack := rfl
  nonneg := le_rfl
  area_le _ _ _ x _ _ hx := absurd hx (Nat.not_lt_zero x)
  found := Or.inl rfl

/-- What `i` removes has all areas that a lower bar bounds for the first time. -/
theorem Popped.scanned {st : List ℤ × ℤ} (h : Scanned hs i st) (hpos : ∀ i, 0 ≤ height hs i)
    (hpopped : Popped hs i (standing (Low hs) i) st.2 ans') :
    Scanned hs (i + 1) (stackOf (standing (Low hs) (i + 1)), ans') := by
  refine ⟨rfl, h.nonneg.trans hpopped.le, fun a b t x hlowest hbx hx hlow => ?_, ?_⟩
  · by_cases hbefore : ∃ y, b ≤ y ∧ y < i ∧ ¬ Low hs t y
    · obtain ⟨y, hby, hyi, hy⟩ := hbefore
      exact (h.area_le a b t y hlowest hby hyi hy).trans hpopped.le
    · push Not at hbefore
      obtain rfl : x = i := by
        by_contra hne
        exact hlow (hbefore x hbx (by omega))
      -- the bar is as low as the first one on the stack, which `i` removes
      have hax : a < x := (hlowest.le.trans_lt hlowest.lt).trans_le hbx
      obtain ⟨u, hfirst⟩ := exists_firstStanding (r := Low hs) hax
      obtain ⟨above, below, hsplit, hbehind⟩ := hfirst.exists_split
      have hu := lowest_of_split hsplit
      have htu : Low hs t u := by
        rcases Nat.lt_or_ge u b with hub | hub
        · exact hlowest.low u hfirst.le hub
        · exact hbefore u hub hu.lt
      have hut : Low hs u t := hu.low t (hbehind.trans hlowest.le) (hlowest.lt.trans_le hbx)
      have harea := hpopped.area_le above u below hsplit fun hux => hlow (htu.trans hux)
      refine le_trans ?_ harea
      rw [le_antisymm htu hut]
      exact Int.mul_le_mul_of_nonneg_left (by omega) (hpos u)
  · rcases hpopped.found with hans | ⟨above, t, below, hsplit, -, hans⟩
    · rcases h.found with hzero | ⟨a, b, t, hlowest, hb, hst⟩
      · exact Or.inl (hans.trans hzero)
      · exact Or.inr ⟨a, b, t, hlowest, Nat.lt_succ_of_lt hb, hans.trans hst⟩
    · exact Or.inr ⟨behind below, i, t, lowest_of_split hsplit, Nat.lt_succ_self i, hans⟩

theorem Scanned.push {st : List ℤ × ℤ} (h : Scanned hs i st) (hlast : item? hs (-1) = some 0)
    (hpos : ∀ i, 0 ≤ height hs i) (hi : i < hs.length) : ∃ st', push hs st i = some st' ∧ Scanned hs (i + 1) st' := by
  obtain ⟨ans', hpops, hpopped⟩ := pops_popped hlast hi (hpos i) (standing (Low hs) i) st.2
    (fun t ht => (standing_lt ht).trans hi) ((pairwise_standing i).imp And.right)
  refine ⟨_, ?_, hpopped.scanned h hpos⟩
  rw [LargestRectangle.push, h.stack, hpops]
  rfl

/-- The areas of the rectangles under the bars from `i` to `j`. -/
def Areas (heights : List ℤ) : Set ℤ :=
  {s | ∃ i j m, i ≤ j ∧ (window heights i (j + 1)).min? = some m ∧ j < heights.length ∧ s = ((j : ℤ) - i + 1) * m}

variable {heights : List ℤ}

theorem height_concat (hi : i < heights.length) : heights[i]? = some (height (heights ++ [0]) i) := by
  rw [height, List.getD_eq_getElem?_getD, List.getElem?_append_left hi, List.getElem?_eq_getElem hi]
  rfl

theorem min?_window_iff {m : ℤ} (hb : b ≤ heights.length) : (window heights a b).min? = some m ↔
    ∃ t, Lowest (heights ++ [0]) a b t ∧ height (heights ++ [0]) t = m := by
  rw [List.min?_eq_some_iff, mem_window_iff]
  have hget : ∀ x, x < b → heights[x]? = some (height (heights ++ [0]) x) := fun x hx => height_concat (hx.trans_le hb)
  constructor
  · rintro ⟨⟨t, hat, htb, ht⟩, hmin⟩
    obtain rfl : height (heights ++ [0]) t = m := Option.some.inj ((hget t htb).symm.trans ht)
    exact ⟨t, ⟨hat, htb, fun x hax hxb => hmin _ (mem_window_iff.2 ⟨x, hax, hxb, hget x hxb⟩)⟩, rfl⟩
  · rintro ⟨t, ⟨hat, htb, hlow⟩, rfl⟩
    refine ⟨⟨t, hat, htb, hget t htb⟩, fun h hh => ?_⟩
    obtain ⟨x, hax, hxb, hx⟩ := mem_window_iff.1 hh
    exact Option.some.inj ((hget x hxb).symm.trans hx) ▸ hlow x hax hxb

theorem height_nonneg (h : ∀ h ∈ heights, 0 ≤ h) (i : ℕ) : 0 ≤ height (heights ++ [0]) i := by
  rw [height, List.getD_eq_getElem?_getD]
  cases hget : (heights ++ [0])[i]? with
  | none => exact le_rfl
  | some x =>
    rcases List.mem_append.1 (List.mem_of_getElem? hget) with hx | hx
    · exact h x hx
    · exact (List.mem_singleton.1 hx).ge

theorem Lowest.mem_areas (h : Lowest (heights ++ [0]) a b t) (hb : b ≤ heights.length) :
    height (heights ++ [0]) t * (b - a) ∈ Areas heights := by
  have hab := h.le.trans_lt h.lt
  refine ⟨a, b - 1, height (heights ++ [0]) t, by omega, ?_, by omega, ?_⟩
  · rw [Nat.sub_add_cancel (by omega)]
    exact (min?_window_iff hb).2 ⟨t, h, rfl⟩
  · have hwidth : ((b - 1 : ℕ) : ℤ) - a + 1 = b - a := by omega
    rw [hwidth, Int.mul_comm]

/-- The last bar is below all that are not 0. -/
theorem Scanned.le_of_lowest {st : List ℤ × ℤ} (h : Scanned (heights ++ [0]) (heights.length + 1) st)
    (hpos : ∀ i, 0 ≤ height (heights ++ [0]) i) (hlowest : Lowest (heights ++ [0]) a b t) (hb : b ≤ heights.length) :
    height (heights ++ [0]) t * (b - a) ≤ st.2 := by
  rcases (hpos t).eq_or_lt with hzero | hlt
  · rw [← hzero, Int.zero_mul]
    exact h.nonneg
  · have hend : height (heights ++ [0]) heights.length = 0 := by simp [height]
    refine h.area_le a b t heights.length hlowest hb (Nat.lt_succ_self _) ?_
    unfold Low
    rwa [hend, not_le]

theorem Scanned.isGreatest {st : List ℤ × ℤ} (h : Scanned (heights ++ [0]) (heights.length + 1) st)
    (hpos : ∀ i, 0 ≤ height (heights ++ [0]) i) (hne : heights ≠ []) : IsGreatest (Areas heights) st.2 := by
  constructor
  · rcases h.found with hzero | ⟨a, b, t, hlowest, hb, hans⟩
    · -- then every bar has the area 0
      have hone : Lowest (heights ++ [0]) 0 1 0 := by
        refine ⟨le_rfl, Nat.one_pos, fun x _ hx => ?_⟩
        obtain rfl : x = 0 := by omega
        exact le_rfl
      have hlen := List.length_pos_iff.2 hne
      have harea := h.le_of_lowest hpos hone hlen
      have hmem := hone.mem_areas hlen
      have hfirst := hpos 0
      have hzero' : height (heights ++ [0]) 0 * ((1 : ℕ) - (0 : ℕ)) = st.2 := by omega
      rwa [hzero'] at hmem
    · rw [hans]
      exact hlowest.mem_areas (Nat.le_of_lt_succ hb)
  · rintro _ ⟨i, j, m, hij, hm, hj, rfl⟩
    obtain ⟨t, hlowest, rfl⟩ := (min?_window_iff hj).1 hm
    have hwidth : (j : ℤ) - i + 1 = (j + 1 : ℕ) - i := by omega
    rw [hwidth, Int.mul_comm]
    exact h.le_of_lowest hpos hlowest hj

theorem largestRectangleArea_eq (h : ∀ h ∈ heights, 0 ≤ h) : ∃ ans, largestRectangleArea heights = some ans ∧
    if heights = [] then ans = 0 else IsGreatest (Areas heights) ans := by
  obtain ⟨⟨stack, ans⟩, hloop, hscanned⟩ := exists_foldlM_range (heights ++ [0]).length
    (fun i hi st hst => hst.push (item?_concat heights 0) (height_nonneg h) hi) scanned_zero
  have hlength : (heights ++ [0]).length = heights.length + 1 := List.length_append
  rw [hlength] at hscanned
  refine ⟨ans, ?_, ?_⟩
  · simp only [largestRectangleArea, hloop, Option.bind_eq_bind, Option.bind_some]
  · split_ifs with hnil
    · rcases hscanned.found with hzero | ⟨a, b, t, hlowest, hb, -⟩
      · exact hzero
      · have hlt := hlowest.lt
        rw [hnil, List.length_nil] at hb
        omega
    · exact hscanned.isGreatest (height_nonneg h) hnil

/-! ## A matrix of ones -/

inductive Tile
  | zero
  | one
  deriving DecidableEq, Repr

variable {m n : ℕ}

/-- A round of the innermost loop, for the last corner `p`. -/
def widen (dp : Grid m n ℕ) (p : Cell m n) (st : ℕ × ℕ) (k : ℕ) : Option (ℕ × ℕ) := do
  let width := min st.1 (← dp.item? k p.2)
  some (width, max st.2 (width * (p.1 - k + 1)))

/-- `dp[i][j - 1] + 1 if j else 1` -/
def widthHere (dp : Grid m n ℕ) (p : Cell m n) : Option ℕ :=
  if (p.2 : ℕ) ≠ 0 then (dp.item? p.1 ((p.2 : ℤ) - 1)).map (· + 1) else some 1

/-- What the loops over the rows and columns do with a cell. -/
def visit (matrix : Grid m n Tile) (st : Grid m n ℕ × ℕ) (p : Cell m n) : Option (Grid m n ℕ × ℕ) :=
  if matrix.get p = .zero then some st
  else do
    let (dp, maxarea) := st
    let width ← widthHere dp p
    let dp := dp.set p width
    let (_, maxarea) ← (List.range (p.1 + 1)).reverse.foldlM (widen dp p) (width, maxarea)
    some (dp, maxarea)

def Solution2.maximalRectangle (matrix : Grid m n Tile) : Option ℕ := do
  let (_, maxarea) ← (cells m n).foldlM (visit matrix) (Grid.replicate m n 0, 0)
  some maxarea

/-- How many of the elements in front of `j` hold without a break. -/
def run (f : ℕ → Bool) : ℕ → ℕ
  | 0 => 0
  | j + 1 => if f j then run f j + 1 else 0

theorem le_run_iff {f : ℕ → Bool} {w j : ℕ} : w ≤ run f j ↔ w ≤ j ∧ ∀ y, j - w ≤ y → y < j → f y = true := by
  induction j generalizing w with
  | zero => exact ⟨fun h => ⟨h, fun y _ hy => absurd hy (Nat.not_lt_zero y)⟩, And.left⟩
  | succ j ih =>
    rw [run]
    cases w with
    | zero => exact iff_of_true (Nat.zero_le _) ⟨Nat.zero_le _, fun y hle hlt => by omega⟩
    | succ w =>
      rw [Nat.add_sub_add_right]
      split_ifs with hf
      · rw [Nat.add_le_add_iff_right, Nat.add_le_add_iff_right, ih]
        refine and_congr_right fun _ => ⟨fun h y hle hlt => ?_, fun h y hle hlt => h y hle (Nat.lt_succ_of_lt hlt)⟩
        rcases Nat.lt_succ_iff_lt_or_eq.1 hlt with hlt | rfl
        · exact h y hle hlt
        · exact hf
      · exact iff_of_false (Nat.not_succ_le_zero w) fun h => hf (h.2 j (Nat.sub_le j w) (Nat.lt_succ_self j))

variable (matrix : Grid m n Tile)

def ones (i : Fin m) (y : ℕ) : Bool := if h : y < n then matrix.get (i, ⟨y, h⟩) = .one else false

/-- The ones up to a cell in its row. -/
def width (p : Cell m n) : ℕ := run (ones matrix p.1) (p.2 + 1)

/-- All cells in the rows from `a` up to `b` and the columns from `c` up to `d` are ones. -/
structure AllOnes (a b c d : ℕ) : Prop where
  rows : b ≤ m
  columns : d ≤ n
  one : ∀ p : Cell m n, a ≤ p.1 → p.1 < b → c ≤ p.2 → p.2 < d → matrix.get p = .one

/-- The areas of the rectangles of ones, the empty ones among them. -/
def OnesAreas : Set ℕ := {s | ∃ a b c d, AllOnes matrix a b c d ∧ s = (b - a) * (d - c)}

/-- From the row `x` down to the corner, all rows have as many ones. -/
def Wide (p : Cell m n) (x w : ℕ) : Prop := ∀ q : Cell m n, q.2 = p.2 → x ≤ q.1 → q.1 ≤ p.1 → w ≤ width matrix q

variable {matrix} {p q : Cell m n} {x w c k : ℕ} {dp : Grid m n ℕ} {pre rest : List (Cell m n)}

theorem ones_eq : ones matrix p.1 p.2 = true ↔ matrix.get p = .one := by
  rw [ones, dif_pos p.2.isLt, decide_eq_true_iff]

theorem width_zero (h : matrix.get p = .zero) : width matrix p = 0 := by
  have hnot : ¬ ones matrix p.1 p.2 = true := fun hone => by
    rw [ones_eq, h] at hone
    cases hone
  rw [width, run, if_neg hnot]

theorem width_one (h : matrix.get p ≠ .zero) : width matrix p = run (ones matrix p.1) p.2 + 1 := by
  have hone : ones matrix p.1 p.2 = true := by
    rw [ones_eq]
    cases hp : matrix.get p with
    | zero => exact absurd hp h
    | one => rfl
  rw [width, run, if_pos hone]

/-- The rectangles with a last corner are as wide as the least of the widths. -/
theorem wide_iff (hw : w ≤ p.2 + 1) : Wide matrix p x w ↔ AllOnes matrix x (p.1 + 1) (p.2 + 1 - w) (p.2 + 1) := by
  constructor
  · refine fun h => ⟨p.1.isLt, p.2.isLt, fun q hx hq hy hq' => ?_⟩
    have hle := h (q.1, p.2) rfl hx (Fin.le_def.2 (Nat.le_of_lt_succ hq))
    exact ones_eq.1 ((le_run_iff.1 hle).2 q.2 hy hq')
  · rintro h ⟨i, j⟩ rfl hx hi
    refine le_run_iff.2 ⟨hw, fun y hy hlt => ?_⟩
    have hyn : y < n := hlt.trans_le h.columns
    exact (ones_eq (p := (i, ⟨y, hyn⟩))).2 (h.one (i, ⟨y, hyn⟩) hx (Nat.lt_succ_of_le hi) hy hlt)

theorem AllOnes.wide (h : AllOnes matrix x (p.1 + 1) c (p.2 + 1)) : Wide matrix p x (p.2 + 1 - c) := by
  rcases Nat.le_total c (p.2 + 1) with hc | hc
  · rw [wide_iff (Nat.sub_le _ _), Nat.sub_sub_self hc]
    exact h
  · rw [Nat.sub_eq_zero_of_le hc]
    exact fun _ _ _ _ => Nat.zero_le _

theorem Wide.mem_onesAreas (h : Wide matrix p x w) (hx : x ≤ p.1) : w * (p.1 - x + 1) ∈ OnesAreas matrix := by
  have hw : w ≤ p.2 + 1 := (le_run_iff.1 (h p rfl hx le_rfl)).1
  refine ⟨x, p.1 + 1, p.2 + 1 - w, p.2 + 1, (wide_iff hw).1 h, ?_⟩
  rw [Nat.sub_sub_self hw, Nat.sub_add_comm hx, Nat.mul_comm]

/-- The variables of the innermost loop, when it has gone up to the row `k`. -/
structure Widened (matrix : Grid m n Tile) (p : Cell m n) (maxarea : ℕ) (k : ℕ) (st : ℕ × ℕ) : Prop where
  least : ∀ w, w ≤ st.1 ↔ w ≤ width matrix p ∧ Wide matrix p k w
  le : maxarea ≤ st.2
  area_le : ∀ x w, k ≤ x → x ≤ p.1 → Wide matrix p x w → w * (p.1 - x + 1) ≤ st.2
  found : st.2 = maxarea ∨ st.2 ∈ OnesAreas matrix

theorem widened_start (maxarea : ℕ) : Widened matrix p maxarea (p.1 + 1) (width matrix p, maxarea) where
  least w := ⟨fun h => ⟨h, fun q _ hq hq' => absurd (Fin.le_def.1 hq') (by omega)⟩, And.left⟩
  le := le_rfl
  area_le _ _ hx hx' := absurd hx' (by omega)
  found := Or.inl rfl

theorem wide_succ (hk : k ≤ p.1) (hq : q.2 = p.2) (hqk : (q.1 : ℕ) = k) :
    Wide matrix p k w ↔ Wide matrix p (k + 1) w ∧ w ≤ width matrix q := by
  constructor
  · exact fun h => ⟨fun q hq hle => h q hq (Nat.le_of_succ_le hle), h q hq hqk.ge (Fin.le_def.2 (hqk ▸ hk))⟩
  · rintro ⟨h, hle⟩ ⟨i, j⟩ hj hi hip
    rcases Nat.eq_or_lt_of_le hi with hi | hi
    · have heq : q = (i, j) := Prod.ext (Fin.ext (hqk.trans hi)) (hq.trans hj.symm)
      exact heq ▸ hle
    · exact h (i, j) hj hi hip

theorem Widened.widen {maxarea : ℕ} {st : ℕ × ℕ} (h : Widened matrix p maxarea (k + 1) st) (hk : k ≤ p.1)
    (hdp : ∀ q : Cell m n, q.2 = p.2 → q.1 ≤ p.1 → dp.get q = width matrix q) :
    ∃ st', widen dp p st k = some st' ∧ Widened matrix p maxarea k st' := by
  obtain ⟨width', maxarea'⟩ := st
  have hkm : k < m := hk.trans_lt p.1.isLt
  have hitem : dp.item? k p.2 = some (width matrix (⟨k, hkm⟩, p.2)) := by
    rw [← hdp (⟨k, hkm⟩, p.2) rfl (Fin.le_def.2 hk)]
    exact Grid.item?_cell dp (⟨k, hkm⟩, p.2)
  have hmin : ∀ w, w ≤ min width' (width matrix (⟨k, hkm⟩, p.2)) ↔ w ≤ width matrix p ∧ Wide matrix p k w := by
    intro w
    rw [le_min_iff, wide_succ (q := (⟨k, hkm⟩, p.2)) hk rfl rfl, ← and_assoc]
    exact and_congr_left fun _ => h.least w
  refine ⟨_, by rw [LargestRectangle.widen, hitem]; rfl, hmin, h.le.trans (le_max_left _ _),
    fun x w hx hxp hwide => ?_, ?_⟩
  · rcases Nat.eq_or_lt_of_le hx with rfl | hx
    · exact (Nat.mul_le_mul_right _ ((hmin w).2 ⟨hwide p rfl hxp le_rfl, hwide⟩)).trans (le_max_right _ _)
    · exact (h.area_le x w hx hxp hwide).trans (le_max_left _ _)
  · -- the new area is that of a rectangle, whether it is the greatest or not
    have hmem := ((hmin _).1 le_rfl).2.mem_onesAreas hk
    show max maxarea' _ = maxarea ∨ max maxarea' _ ∈ OnesAreas matrix
    rcases max_choice maxarea' (min width' (width matrix (⟨k, hkm⟩, p.2)) * (p.1 - k + 1)) with hmax | hmax
    · rw [hmax]
      exact h.found
    · rw [hmax]
      exact Or.inr hmem

/-- The variables of the outer loops, when they have come past some cells. -/
structure Marked (matrix : Grid m n Tile) (pre : List (Cell m n)) (st : Grid m n ℕ × ℕ) : Prop where
  get : ∀ q, st.1.get q = if q ∈ pre then width matrix q else 0
  area_le : ∀ p ∈ pre, ∀ a c, AllOnes matrix a (p.1 + 1) c (p.2 + 1) → (p.1 + 1 - a) * (p.2 + 1 - c) ≤ st.2
  found : st.2 ∈ OnesAreas matrix

theorem zero_mem_onesAreas : 0 ∈ OnesAreas matrix :=
  ⟨0, 0, 0, 0, ⟨Nat.zero_le m, Nat.zero_le n, fun _ _ hp => absurd hp (Nat.not_lt_zero _)⟩, rfl⟩

theorem Marked.skip {st : Grid m n ℕ × ℕ} (h : Marked matrix pre st) (hzero : matrix.get p = .zero) :
    Marked matrix (pre ++ [p]) st := by
  refine ⟨fun q => ?_, fun q hq a c hones => ?_, h.found⟩
  · rw [h.get q]
    by_cases hq : q ∈ pre
    · rw [if_pos hq, if_pos (List.mem_append_left _ hq)]
    · by_cases hqp : q = p
      · rw [if_neg hq, hqp, width_zero hzero, ite_self]
      · rw [if_neg hq, if_neg (by simp [hq, hqp])]
  · rcases List.mem_append.1 hq with hq | hq
    · exact h.area_le q hq a c hones
    · obtain rfl := List.mem_singleton.1 hq
      rcases Nat.lt_or_ge q.1 a with ha | ha
      · rw [Nat.sub_eq_zero_of_le ha, Nat.zero_mul]
        exact Nat.zero_le _
      · have hle := hones.wide q rfl ha le_rfl
        rw [width_zero hzero, Nat.le_zero] at hle
        rw [hle, Nat.mul_zero]
        exact Nat.zero_le _

/-- The width that is read on the left. -/
theorem Marked.width_left {st : Grid m n ℕ × ℕ} (h : Marked matrix pre st) (hall : pre ++ p :: rest = cells m n)
    (hone : matrix.get p ≠ .zero) :
    widthHere st.1 p = some (width matrix p) := by
  rw [width_one hone, widthHere]
  split_ifs with hj
  · obtain ⟨y, hy⟩ := Nat.exists_eq_succ_of_ne_zero hj
    have hlt : y < n := by omega
    have hmem : (p.1, (⟨y, hlt⟩ : Fin n)) ∈ pre :=
      mem_of_precedes hall (Or.inr ⟨rfl, Fin.lt_def.2 (hy ▸ Nat.lt_succ_self y)⟩)
    have hitem : st.1.item? p.1 y = some (width matrix (p.1, ⟨y, hlt⟩)) := by
      rw [← if_pos (c := (p.1, (⟨y, hlt⟩ : Fin n)) ∈ pre) hmem (t := width matrix _) (e := 0), ← h.get]
      exact Grid.item?_cell st.1 (p.1, ⟨y, hlt⟩)
    have hindex : ((p.2 : ℕ) : ℤ) - 1 = (y : ℕ) := by omega
    rw [hindex, hitem, hy]
    rfl
  · rw [not_not.1 hj]
    rfl

theorem Marked.visit {st : Grid m n ℕ × ℕ} (h : Marked matrix pre st) (hall : pre ++ p :: rest = cells m n) :
    ∃ st', visit matrix st p = some st' ∧ Marked matrix (pre ++ [p]) st' := by
  unfold LargestRectangle.visit
  split_ifs with hzero
  · exact ⟨st, rfl, h.skip hzero⟩
  · obtain ⟨dp, maxarea⟩ := st
    have hget : ∀ q, (dp.set p (width matrix p)).get q = if q ∈ pre ++ [p] then width matrix q else 0 := by
      intro q
      rw [Grid.get_set, h.get q]
      by_cases hqp : q = p
      · rw [if_pos hqp, if_pos (by simp [hqp]), hqp]
      · simp [hqp]
    have hcolumn : ∀ q : Cell m n, q.2 = p.2 → q.1 ≤ p.1 → (dp.set p (width matrix p)).get q = width matrix q := by
      intro q hq hle
      rw [hget q, if_pos]
      rcases eq_or_lt_of_le hle with heq | hlt
      · simp [Prod.ext heq hq]
      · exact List.mem_append_left _ (mem_of_precedes hall (Or.inl hlt))
    obtain ⟨⟨w, maxarea'⟩, hloop, hwidened⟩ := exists_foldlM_down (f := widen (dp.set p (width matrix p)) p)
      (P := Widened matrix p maxarea) (p.1 + 1)
      (fun k hk st hst => hst.widen (Nat.le_of_lt_succ hk) hcolumn) (widened_start maxarea)
    refine ⟨(dp.set p (width matrix p), maxarea'), ?_, hget, fun q hq a c hones => ?_, ?_⟩
    · have hwidth : widthHere dp p = some (width matrix p) := h.width_left hall hzero
      simp only [hwidth, Option.bind_eq_bind, Option.bind_some, hloop]
    · rcases List.mem_append.1 hq with hq | hq
      · exact (h.area_le q hq a c hones).trans hwidened.le
      · obtain rfl := List.mem_singleton.1 hq
        rcases Nat.lt_or_ge q.1 a with ha | ha
        · rw [Nat.sub_eq_zero_of_le ha, Nat.zero_mul]
          exact Nat.zero_le _
        · rw [Nat.mul_comm, Nat.sub_add_comm ha]
          exact hwidened.area_le a _ (Nat.zero_le a) ha hones.wide
    · rcases hwidened.found with hmax | hmem
      · exact hmax ▸ h.found
      · exact hmem

theorem maximalRectangle_eq (matrix : Grid m n Tile) :
    ∃ s, Solution2.maximalRectangle matrix = some s ∧ IsGreatest (OnesAreas matrix) s := by
  have hstart : Marked matrix [] (Grid.replicate m n 0, 0) := by
    refine ⟨fun q => ?_, fun _ hp => absurd hp List.not_mem_nil, zero_mem_onesAreas⟩
    rw [Grid.get_replicate, if_neg List.not_mem_nil]
  obtain ⟨⟨dp, maxarea⟩, hloop, hmarked⟩ := exists_foldlM_split
    (fun pre p rest st hall hst => Marked.visit hst hall) (cells m n) [] rfl hstart
  refine ⟨maxarea, ?_, hmarked.found, ?_⟩
  · simp only [Solution2.maximalRectangle, hloop, Option.bind_eq_bind, Option.bind_some]
  · rintro _ ⟨a, b, c, d, hones, rfl⟩
    by_cases hempty : b - a = 0 ∨ d - c = 0
    · rw [Nat.mul_eq_zero.2 hempty]
      exact Nat.zero_le _
    · rw [not_or] at hempty
      have hrows := hones.rows
      have hcolumns := hones.columns
      -- the last corner is a cell
      obtain ⟨x, rfl⟩ : ∃ x, b = x + 1 := ⟨b - 1, by omega⟩
      obtain ⟨y, rfl⟩ : ∃ y, d = y + 1 := ⟨d - 1, by omega⟩
      exact hmarked.area_le (⟨x, hrows⟩, ⟨y, hcolumns⟩) (mem_cells _) a c hones

/-! ## The results -/

/-- The results are the greatest area of a rectangle under the bars, and of a rectangle of ones. -/
theorem largestRectangle_isGreatest (heights : List ℤ) (h : ∀ h ∈ heights, 0 ≤ h) (matrix : Grid m n Tile) :
    (∃ ans, largestRectangleArea heights = some ans ∧
      if heights = [] then ans = 0 else IsGreatest (Areas heights) ans) ∧
    ∃ s, Solution2.maximalRectangle matrix = some s ∧ IsGreatest (OnesAreas matrix) s :=
  ⟨largestRectangleArea_eq h, maximalRectangle_eq matrix⟩

theorem largestRectangle_isGreatest_two : (∀ h ∈ [2, 1, 2], (0 : ℤ) ≤ h) ∧
    ∃ ans, largestRectangleArea [2, 1, 2] = some ans ∧ IsGreatest (Areas [2, 1, 2]) ans := by
  have hnonneg : ∀ h ∈ [2, 1, 2], (0 : ℤ) ≤ h := by decide
  exact ⟨hnonneg, (largestRectangle_isGreatest [2, 1, 2] hnonneg (Grid.replicate 2 2 Tile.one)).1⟩

end GoodGoodStudy.LeetCode.LargestRectangle
