/-
Control-flow flattening: the statements of a function body become the cases of a `switch` in random order, and a
loop runs them in the order that a dispatch string holds. The generated body does what the body did: it returns or
throws the same and leaves the same state, whatever `Math.random` gives.
-/
import Mathlib.Algebra.Order.Floor.Semiring
import Mathlib.Data.Rat.Floor
import GoodGoodStudy.Js.Stmt

namespace GoodGoodStudy.Confound

open GoodGoodStudy.Lib GoodGoodStudy.Js

/-! ## The pass -/

section Pass

variable {α E : Type}

/-- What `Math.random` gives. -/
abbrev Random := {r : ℚ // 0 ≤ r ∧ r < 1}

/-- `Math.floor(Math.random() * i)`. The product is not rounded here; with rounding the result may be another number
below `i`, and that comes from another outcome. -/
def pick (random : Random) (i : Nat) : Nat := ⌊random.1 * i⌋₊

theorem pick_lt (random : Random) (i : Nat) : pick random (i + 1) < i + 1 := by
  have hpos : (0 : ℚ) < (i + 1 : Nat) := by exact_mod_cast Nat.succ_pos i
  unfold pick
  rw [Nat.floor_lt (mul_nonneg random.2.1 hpos.le)]
  calc random.1 * (i + 1 : Nat) < 1 * (i + 1 : Nat) := mul_lt_mul_of_pos_right random.2.2 hpos
    _ = (i + 1 : Nat) := one_mul _

/-- The loop that shuffles the array in place. The round with `i + 1` in the loop variable swaps the entry `i`. -/
def shuffle (random : Nat → Random) : (i : Nat) → (statements : Array α) → i ≤ statements.size → Array α
  | 0, statements, _ => statements
  | i + 1, statements, h =>
    shuffle random i (statements.swap (pick (random i) (i + 1)) i (Nat.lt_of_lt_of_le (pick_lt _ i) h) h)
      (by rw [Array.size_swap]; omega)

/-- `arr[k] = a`; an assignment behind the end leaves holes. -/
def assignAt (arr : List (Option α)) (k : Nat) (a : α) : List (Option α) :=
  if k < arr.length then arr.set k (some a) else arr ++ List.replicate (k - arr.length) none ++ [some a]

/-- Where each statement has gone, by its place in the body. -/
def dispenserArr (statements : List (α × Nat)) : List (Option Nat) :=
  statements.zipIdx.foldl (fun arr v => assignAt arr v.1.2 v.2) []

def separator : JsString := text "|"

/-- `dispenserArr.join('|')`; a hole is an empty text. -/
def dispenserStr (statements : List (α × Nat)) : JsString :=
  separator.intercalate ((dispenserArr statements).map fun i => (i.map numberText).getD [])

def switchCases (statements : List (Stmt E × Nat)) : List (Nat × List (Code E)) :=
  statements.zipIdx.map fun v => (v.2, [Code.own v.1.1, Code.cont])

/-- `+array[index++]`. -/
def discriminant (array index : JsString) : Gen := .plus (.member (.identifier array) (.update index))

/-- `while (!![]) { switch (+array[index++]) { … } break; }`. -/
def whileSta (array index : JsString) (cases : List (Nat × List (Code E))) : Code E :=
  .while (.not (.not .emptyArray)) [.switch (discriminant array index) cases, .brk]

/-- The statements with their places in the body, shuffled. -/
def shuffled (random : Nat → Random) (body : List (Stmt E)) : List (Stmt E × Nat) :=
  (shuffle random body.length body.zipIdx.toArray (by rw [List.size_toArray, List.length_zipIdx])).toList

/-- The body that the visitor generates, with the names of `generateUidIdentifier`. -/
def flatten (array index : JsString) (random : Nat → Random) (body : List (Stmt E)) : List (Code E) :=
  let statements := shuffled random body
  [.lets [(array, .split (.stringLiteral (dispenserStr statements)) (.stringLiteral separator)),
      (index, .numericLiteral 0)],
    whileSta array index (switchCases statements)]

end Pass

/-! ## The cases are a permutation of the statements -/

section Shuffle

variable {α E : Type}

theorem shuffle_perm (random : Nat → Random) (i : Nat) (statements : Array α) (h : i ≤ statements.size) :
    (shuffle random i statements h).Perm statements := by
  induction i generalizing statements with
  | zero => exact Array.Perm.refl _
  | succ i ih => exact (ih _ _).trans (Array.swap_perm _ _)

theorem shuffled_perm (random : Nat → Random) (body : List (Stmt E)) : (shuffled random body).Perm body.zipIdx :=
  Array.perm_iff_toList_perm.1 (shuffle_perm random _ _ _)

end Shuffle

/-! ## The dispatch string -/

section Dispenser

variable {α : Type}

/-- The entry at a place; there is none in a hole. -/
def entry (arr : List (Option α)) (k : Nat) : Option α := arr[k]?.join

theorem length_assignAt (arr : List (Option α)) (k : Nat) (a : α) :
    (assignAt arr k a).length = max arr.length (k + 1) := by
  unfold assignAt
  split_ifs with h
  · rw [List.length_set]
    omega
  · rw [List.length_append, List.length_append, List.length_replicate, List.length_singleton]
    omega

theorem entry_assignAt_self (arr : List (Option α)) (k : Nat) (a : α) : entry (assignAt arr k a) k = some a := by
  unfold assignAt entry
  split_ifs with h
  · rw [List.getElem?_set_self h]
    rfl
  · have hlen : (arr ++ List.replicate (k - arr.length) none).length = k := by
      rw [List.length_append, List.length_replicate]
      omega
    rw [List.getElem?_append_right hlen.le, hlen, Nat.sub_self]
    rfl

theorem entry_assignAt_ne (arr : List (Option α)) {k m : Nat} (hne : m ≠ k) (a : α) :
    entry (assignAt arr k a) m = entry arr m := by
  unfold assignAt entry
  split_ifs with h
  · rw [List.getElem?_set_ne hne.symm]
  · have hlen : (arr ++ List.replicate (k - arr.length) none).length = k := by
      rw [List.length_append, List.length_replicate]
      omega
    rcases Nat.lt_or_ge m k with hm | hm
    · rw [List.getElem?_append_left (hlen.symm ▸ hm)]
      rcases Nat.lt_or_ge m arr.length with hm' | hm'
      · rw [List.getElem?_append_left hm']
      · -- a hole
        rw [List.getElem?_append_right hm', List.getElem?_eq_none hm', List.getElem?_replicate_of_lt (by omega)]
        rfl
    · rw [List.getElem?_eq_none (by rw [List.length_append, hlen, List.length_singleton]; omega),
        List.getElem?_eq_none (by omega)]

/-- The loop over the shuffled statements, from the position `j` on. -/
def fillFrom (j : Nat) (arr : List (Option Nat)) (statements : List (α × Nat)) : List (Option Nat) :=
  (statements.zipIdx j).foldl (fun arr v => assignAt arr v.1.2 v.2) arr

theorem fillFrom_cons (j : Nat) (arr : List (Option Nat)) (v : α × Nat) (statements : List (α × Nat)) :
    fillFrom j arr (v :: statements) = fillFrom (j + 1) (assignAt arr v.2 j) statements := rfl

/-- A place of the body is not written for other statements. -/
theorem entry_fillFrom_of_notMem {statements : List (α × Nat)} {k : Nat} (h : k ∉ statements.map Prod.snd) (j : Nat)
    (arr : List (Option Nat)) : entry (fillFrom j arr statements) k = entry arr k := by
  induction statements generalizing j arr with
  | nil => rfl
  | cons v statements ih =>
    rw [List.map_cons, List.mem_cons, not_or] at h
    rw [fillFrom_cons, ih h.2, entry_assignAt_ne arr h.1]

theorem entry_fillFrom {statements : List (α × Nat)} (h : (statements.map Prod.snd).Nodup) (j : Nat)
    (arr : List (Option Nat)) {p : Nat} {v : α × Nat} (hp : statements[p]? = some v) :
    entry (fillFrom j arr statements) v.2 = some (j + p) := by
  induction statements generalizing j arr p with
  | nil => cases hp
  | cons u statements ih =>
    rw [List.map_cons, List.nodup_cons] at h
    rw [fillFrom_cons]
    cases p with
    | zero =>
      obtain rfl := Option.some.inj hp
      rw [entry_fillFrom_of_notMem h.1, entry_assignAt_self]
      rfl
    | succ p =>
      rw [ih h.2 (j + 1) _ hp]
      exact congrArg some (by omega)

theorem length_fillFrom_le {statements : List (α × Nat)} {n : Nat} (h : ∀ v ∈ statements, v.2 < n) (j : Nat)
    {arr : List (Option Nat)} (harr : arr.length ≤ n) : (fillFrom j arr statements).length ≤ n := by
  induction statements generalizing j arr with
  | nil => exact harr
  | cons v statements ih =>
    rw [fillFrom_cons]
    refine ih (fun u hu => h u (List.mem_cons_of_mem v hu)) (j + 1) ?_
    rw [length_assignAt]
    have hv := h v List.mem_cons_self
    omega

end Dispenser

section Dispatch

variable {E V : Type}

/-- The elements of `array` in the generated code. -/
def elements (random : Nat → Random) (body : List (Stmt E)) : List JsString :=
  splitOnSub separator (dispenserStr (shuffled random body))

/-- The value of `+array[k]`. -/
def dispatch (array : List JsString) (k : Nat) : Option (Value V) :=
  ((array[k]?.map Value.string).getD .undefined).toNumber

/-- Every statement is at some position of the shuffled list, and the table has the position at its place. -/
theorem dispenserArr_spec (random : Nat → Random) (body : List (Stmt E)) :
    (dispenserArr (shuffled random body)).length = body.length ∧
      ∀ (k : Nat) (s : Stmt E), body[k]? = some s →
        ∃ p : Nat, (shuffled random body)[p]? = some (s, k) ∧
          (dispenserArr (shuffled random body))[k]? = some (some p) := by
  have hperm := shuffled_perm random body
  have hnodup : ((shuffled random body).map Prod.snd).Nodup := by
    rw [(hperm.map Prod.snd).nodup_iff, List.zipIdx_map_snd]
    exact List.nodup_range'
  have hlt : ∀ v ∈ shuffled random body, v.2 < body.length := by
    intro v hv
    have hv' := List.mem_zipIdx' (hperm.mem_iff.1 hv)
    exact hv'.1
  have hentry : ∀ (k : Nat) (s : Stmt E), body[k]? = some s →
      ∃ p : Nat, (shuffled random body)[p]? = some (s, k) ∧ entry (dispenserArr (shuffled random body)) k = some p := by
    intro k s hs
    have hmem : (s, k) ∈ shuffled random body := hperm.mem_iff.2 (List.mk_mem_zipIdx_iff_getElem?.2 hs)
    obtain ⟨p, hp⟩ := List.mem_iff_getElem?.1 hmem
    exact ⟨p, hp, (entry_fillFrom hnodup 0 [] hp).trans (congrArg some (Nat.zero_add p))⟩
  constructor
  · refine Nat.le_antisymm (length_fillFrom_le hlt 0 (Nat.zero_le _)) (Nat.le_of_not_lt fun hshort => ?_)
    -- the place behind the end of the table has an entry
    obtain ⟨p, -, hp⟩ := hentry _ _ (List.getElem?_eq_getElem hshort)
    unfold entry at hp
    rw [List.getElem?_eq_none le_rfl] at hp
    cases hp
  · intro k s hs
    obtain ⟨p, hp, he⟩ := hentry k s hs
    exact ⟨p, hp, Option.join_eq_some_iff.1 he⟩

theorem separator_eq : separator = [124] := by decide

/-- Splitting the dispatch string gives back the texts that were joined. -/
theorem elements_eq (random : Nat → Random) {body : List (Stmt E)} (h : body ≠ []) :
    elements random body = (dispenserArr (shuffled random body)).map fun i => (i.map numberText).getD [] := by
  unfold elements dispenserStr
  rw [separator_eq]
  apply splitOnSub_intercalate
  · intro hnil
    have hlen := (dispenserArr_spec random body).1
    rw [List.map_eq_nil_iff.1 hnil] at hlen
    exact h (List.eq_nil_of_length_eq_zero hlen.symm)
  · intro p hp hc
    obtain ⟨i, -, rfl⟩ := List.mem_map.1 hp
    cases i with
    | none => cases hc
    | some i => exact absurd (isDigit_numberText hc) (by decide)

theorem dropWhile_cases (j p : Nat) (statements : List (Stmt E × Nat)) :
    ((statements.zipIdx j).map fun v => (v.2, [Code.own v.1.1, Code.cont])).dropWhile (fun c => j + p != c.1) =
      ((statements.drop p).zipIdx (j + p)).map fun v => (v.2, [Code.own v.1.1, Code.cont]) := by
  induction statements generalizing j p with
  | nil => simp
  | cons v statements ih =>
    cases p with
    | zero => simp
    | succ p =>
      have hne : (j + (p + 1) != j) = true := by simp
      have hj : j + (p + 1) = j + 1 + p := by omega
      rw [List.zipIdx_cons, List.map_cons, List.dropWhile_cons, if_pos hne, List.drop_succ_cons, hj]
      exact ih (j + 1) p

theorem casesFrom_number {statements : List (Stmt E × Nat)} {p : Nat} {v : Stmt E × Nat}
    (h : statements[p]? = some v) :
    ∃ more, casesFrom (V := V) (.number p) (switchCases statements) = .own v.1 :: .cont :: more := by
  have hdrop := dropWhile_cases 0 p statements
  rw [Nat.zero_add] at hdrop
  obtain ⟨hp, rfl⟩ := List.getElem?_eq_some_iff.1 h
  rw [List.drop_eq_getElem_cons hp] at hdrop
  unfold casesFrom switchCases
  simp only [hdrop, List.zipIdx_cons, List.map_cons, List.flatMap_cons]
  exact ⟨_, rfl⟩

theorem dispatch_statement (random : Nat → Random) {body : List (Stmt E)} {k : Nat} {s : Stmt E}
    (h : body[k]? = some s) :
    ∃ v more, dispatch (V := V) (elements random body) k = some v ∧
      casesFrom v (switchCases (shuffled random body)) = .own s :: .cont :: more := by
  obtain ⟨-, hspec⟩ := dispenserArr_spec random body
  obtain ⟨p, hp, harr⟩ := hspec k s h
  have hne : body ≠ [] := by
    rintro rfl
    cases h
  obtain ⟨more, hmore⟩ := casesFrom_number (V := V) hp
  refine ⟨.number p, more, ?_, hmore⟩
  unfold dispatch
  rw [elements_eq random hne, List.getElem?_map, harr]
  simp [Value.toNumber, toNumber_numberText]

/-- Behind the last statement no case is selected; for an empty body the text is empty, and counts as zero. -/
theorem dispatch_end (random : Nat → Random) (body : List (Stmt E)) :
    ∃ v, dispatch (V := V) (elements random body) body.length = some v ∧
      casesFrom v (switchCases (shuffled random body)) = [] := by
  by_cases h : body = []
  · subst h
    exact ⟨.number 0, rfl, rfl⟩
  · refine ⟨.nan, ?_, ?_⟩
    · unfold dispatch
      rw [elements_eq random h, List.getElem?_eq_none (by rw [List.length_map, (dispenserArr_spec random body).1])]
      rfl
    · unfold casesFrom
      rw [List.dropWhile_eq_nil_iff.2 fun _ _ => rfl]
      rfl

end Dispatch

/-! ## The loop runs the statements in their order -/

section Simulation

variable {E V W : Type} {lang : Expressions E V W} {array index : JsString}

/-- The state with the two generated variables. -/
def withDispenser (array index : JsString) (a i : Option (Value V)) (st : State V W) : State V W :=
  (st.set array a).set index i

theorem withDispenser_twice (h : array ≠ index) (a a' i i' : Option (Value V)) (st : State V W) :
    withDispenser array index a' i' (withDispenser array index a i st) = withDispenser array index a' i' st := by
  unfold withDispenser
  rw [State.set_comm _ h.symm, State.set_set, State.set_set]

/-- A statement that does not know the two variables runs as if they were not there. -/
theorem execStmt_withDispenser {s : Stmt E} (harray : s.Ignores lang array) (hindex : s.Ignores lang index)
    (a i : Option (Value V)) (st : State V W) :
    execStmt lang s (withDispenser array index a i st) =
      (execStmt lang s st).map fun r => (r.1, withDispenser array index a i r.2) := by
  unfold withDispenser
  rw [keeps_stmt hindex, keeps_stmt harray, Option.map_map]
  rfl

/-- The state at the head of the loop before the statement `k`. -/
def atRound (array index : JsString) (elements : List JsString) (k : Nat) : State V W → State V W :=
  withDispenser array index (some (.strings elements)) (some (.number k))

/-- The discriminant is the next entry of the dispatch string, and the index moves on. -/
theorem eval_discriminant (h : array ≠ index) (elements : List JsString) (k : Nat) (st : State V W) :
    (discriminant array index).eval (atRound array index elements k st).scope =
      (dispatch elements k).map fun v => (v, (atRound array index elements (k + 1) st).scope) := by
  have harray : (atRound array index elements k st).scope array = some (.strings elements) := by
    unfold atRound withDispenser
    rw [State.scope_set _ h, State.scope_set_self]
  have hindex : (atRound array index elements k st).scope index = some (.number k) := State.scope_set_self _ _ _
  have hnext : (atRound array index elements k st).scope.set index (some (.number (k + 1))) =
      (atRound array index elements (k + 1) st).scope :=
    congrArg State.scope (State.set_set (st.set array (some (.strings elements))) index _ _)
  unfold discriminant dispatch
  simp only [Gen.eval, harray, hindex, Option.map_some, Option.bind_some, hnext]

/-- What the loop makes of the end of the selected case: it goes on behind a `continue`, and behind the last
statement of the `switch` there is a `break`. -/
def afterCase (again : State V W → Option (Completion V × State V W)) :
    Option (Completion V × State V W) → Option (Completion V × State V W)
  | some (.normal, st) => some (.normal, st)
  | some (.brk, st) => some (.normal, st)
  | some (.cont, st) => again st
  | r => r

/-- A round of the loop, with the fuel that it needs. -/
theorem exec_whileSta (h : array ≠ index) {elements : List JsString} {k : Nat} {v : Value V}
    (hv : dispatch elements k = some v) (cases : List (Nat × List (Code E))) (fuel : Nat) (st : State V W) :
    exec lang (fuel + 3) (whileSta array index cases) (atRound array index elements k st) =
      afterCase (exec lang (fuel + 2) (whileSta array index cases))
        (execList (exec lang (fuel + 1)) (casesFrom v cases) (atRound array index elements (k + 1) st)) := by
  have hdisc := eval_discriminant h elements k st
  rw [hv] at hdisc
  have hswitch : exec lang (fuel + 2) (.switch (discriminant array index) cases) (atRound array index elements k st) =
      endSwitch (execList (exec lang (fuel + 1)) (casesFrom v cases) (atRound array index elements (k + 1) st)) := by
    simp only [exec, hdisc, Option.map_some, Option.bind_some]
    rfl
  have hwhile : exec lang (fuel + 3) (whileSta array index cases) (atRound array index elements k st) =
      nextRound (exec lang (fuel + 2) (whileSta array index cases))
        (execList (exec lang (fuel + 2)) [.switch (discriminant array index) cases, .brk]
          (atRound array index elements k st)) := rfl
  rw [hwhile]
  simp only [execList, hswitch]
  rcases execList (exec lang (fuel + 1)) (casesFrom v cases) (atRound array index elements (k + 1) st) with
    _ | ⟨_ | _ | _ | _ | _, st'⟩ <;> rfl

/-- What is left of a result when the two variables are given other values. -/
def settle (array index : JsString) (a i : Option (Value V)) (r : Completion V × State V W) :
    Completion V × State V W := (r.1, withDispenser array index a i r.2)

/-- From the statement `k` on the loop does what the statements do. The induction is on the statements that are
left; a return or an exception leaves the loop, and the failing `switch` at the end does. -/
theorem exec_loop (h : array ≠ index) {body : List (Stmt E)} (harray : ∀ s ∈ body, s.Ignores lang array)
    (hindex : ∀ s ∈ body, s.Ignores lang index) (random : Nat → Random) (a i : Option (Value V))
    (rest : List (Stmt E)) (k : Nat) (hrest : body.drop k = rest) (hk : k ≤ body.length) {fuel : Nat}
    (hfuel : rest.length + 3 ≤ fuel) (st : State V W) :
    (exec lang fuel (whileSta array index (switchCases (shuffled random body)))
        (atRound array index (elements random body) k st)).map (settle array index a i) =
      (execStmts lang rest st).map (settle array index a i) := by
  obtain ⟨fuel, rfl⟩ : ∃ f, fuel = f + 3 := ⟨fuel - 3, by omega⟩
  induction rest generalizing k fuel st with
  | nil =>
    have hlen : body.length ≤ k := List.drop_eq_nil_iff.1 hrest
    obtain rfl : k = body.length := Nat.le_antisymm hk hlen
    obtain ⟨v, hv, hcases⟩ := dispatch_end (V := V) random body
    rw [exec_whileSta h hv, hcases]
    exact congrArg some (congrArg (Prod.mk _) (withDispenser_twice h _ _ _ _ st))
  | cons s rest ih =>
    have hs : body[k]? = some s := by
      have hhead := congrArg List.head? hrest
      rwa [List.head?_drop, List.head?_cons] at hhead
    have hmem : s ∈ body := List.mem_of_getElem? hs
    have hlt : k < body.length := (List.getElem?_eq_some_iff.1 hs).1
    have htail : body.drop (k + 1) = rest := by rw [← List.tail_drop, hrest, List.tail_cons]
    obtain ⟨v, more, hv, hcases⟩ := dispatch_statement (V := V) random hs
    have hown : exec lang (fuel + 1) (.own s) (atRound array index (elements random body) (k + 1) st) =
        (execStmt lang s st).map fun r => (r.1, atRound array index (elements random body) (k + 1) r.2) :=
      execStmt_withDispenser (harray s hmem) (hindex s hmem) _ _ st
    have hjump : NoJump (execStmt lang s st) := noJump_stmt s st
    rw [exec_whileSta h hv, hcases]
    simp only [execList, execStmts, hown]
    rcases hrun : execStmt lang s st with _ | ⟨_ | w | w | _ | _, st'⟩
    · rfl
    · -- the statement is done, and `continue` takes the next entry
      obtain ⟨f, rfl⟩ : ∃ f, fuel = f + 1 := ⟨fuel - 1, by simp only [List.length_cons] at hfuel; omega⟩
      exact ih (k + 1) htail hlt st' f (by simp only [List.length_cons] at hfuel; omega)
    · exact congrArg some (congrArg (Prod.mk _) (withDispenser_twice h _ _ _ _ st'))
    · exact congrArg some (congrArg (Prod.mk _) (withDispenser_twice h _ _ _ _ st'))
    · exact absurd hrun (hjump st').1
    · exact absurd hrun (hjump st').2

/-- The cases declare what the body declares. -/
theorem mem_flatten_varNames (random : Nat → Random) (body : List (Stmt E)) (x : JsString) :
    x ∈ Code.allVarNames (flatten array index random body) ↔ x ∈ Stmt.allVarNames body := by
  have hcases : ∀ statements : List (Stmt E × Nat), ∀ j,
      (x ∈ Code.casesVarNames ((statements.zipIdx j).map fun v => (v.2, [Code.own v.1.1, Code.cont])) ↔
        ∃ v ∈ statements, x ∈ v.1.varNames) := by
    intro statements
    induction statements with
    | nil => simp [Code.casesVarNames]
    | cons v statements ih => simp [Code.casesVarNames, Code.allVarNames, Code.varNames, ih]
  have hflatten : Code.allVarNames (flatten array index random body) =
      Code.casesVarNames (switchCases (shuffled random body)) := by
    simp [flatten, whileSta, Code.allVarNames, Code.varNames]
  rw [hflatten, mem_allVarNames]
  refine (hcases (shuffled random body) 0).trans ?_
  simp only [(shuffled_perm random body).mem_iff]
  constructor
  · rintro ⟨v, hv, hx⟩
    exact ⟨v.1, List.fst_mem_of_mem_zipIdx hv, hx⟩
  · rintro ⟨s, hs, hx⟩
    obtain ⟨k, hk⟩ := List.mem_iff_getElem?.1 hs
    exact ⟨(s, k), List.mk_mem_zipIdx_iff_getElem?.2 hk, hx⟩

/-- What `generateUidIdentifier` promises: two names that nothing in the program has to do with. -/
structure FreshNames (lang : Expressions E V W) (body : List (Stmt E)) (array index : JsString) : Prop where
  ne : array ≠ index
  array : ∀ s ∈ body, s.Ignores lang array
  index : ∀ s ∈ body, s.Ignores lang index

/-- When the two variables go out of scope, the names mean again what they meant. -/
theorem leaveBlock_eq (before after : State V W) :
    leaveBlock [array, index] before after =
      withDispenser array index (before.scope array) (before.scope index) after := by
  have hscope : (fun x => if x ∈ [array, index] then before.scope x else after.scope x) =
      (after.scope.set array (before.scope array)).set index (before.scope index) := by
    funext x
    unfold Scope.set
    by_cases hindex : x = index
    · rw [if_pos hindex, if_pos (by simp [hindex]), hindex]
    · by_cases harray : x = array
      · rw [if_neg hindex, if_pos harray, if_pos (by simp [harray]), harray]
      · rw [if_neg hindex, if_neg harray, if_neg (by simp [hindex, harray])]
  exact congrArg (State.mk · after.world) hscope

/-- The generated body declares its variables and runs the loop. -/
theorem callCode_flatten (random : Nat → Random) (body : List (Stmt E)) (fuel : Nat) (st : State V W) :
    callCode lang (fuel + 1) (flatten array index random body) st =
      (exec lang (fuel + 1) (whileSta array index (switchCases (shuffled random body)))
          (atRound array index (elements random body) 0 (hoist lang (Stmt.allVarNames body) st))).map fun r =>
        (r.1.result lang, withDispenser array index (st.scope array) (st.scope index) r.2) := by
  have hlets : ∀ st' : State V W, execList (exec lang (fuel + 1)) (flatten array index random body) st' =
      execList (exec lang (fuel + 1)) [whileSta array index (switchCases (shuffled random body))]
        (atRound array index (elements random body) 0 st') := fun _ => rfl
  have hnames : letNames (flatten array index random body) = [array, index] := rfl
  unfold callCode
  rw [hoist_congr (mem_flatten_varNames random body), hlets, hnames]
  simp only [leaveBlock_eq]
  exact congrArg (Option.map _) (andThen_normal _)

end Simulation

/-! ## A body with an early return -/

/-- Expressions for an example: numerals and variables, with `none` for `undefined`. -/
inductive Atom
  | numeral (n : Nat)
  | name (x : JsString)

/-- A variable that is not there throws. -/
def Atom.eval : Atom → State (Option Nat) Unit → Except (Option Nat) (Option Nat) × State (Option Nat) Unit
  | .numeral n, st => (.ok (some n), st)
  | .name x, st =>
    match st.scope x with
    | some (.own v) => (.ok v, st)
    | _ => (.error none, st)

def atoms : Expressions Atom (Option Nat) Unit where
  undefined := none
  toBoolean v := v.getD 0 != 0
  eval e st := some (e.eval st)
  assignOuter _ _ w := (.error none, w)

theorem ignores_numeral (x : JsString) (n : Nat) : atoms.Ignores x (.numeral n) := fun _ _ => rfl

theorem ignores_name {x y : JsString} (h : y ≠ x) : atoms.Ignores x (.name y) := by
  intro st v
  simp only [atoms, Atom.eval, State.scope_set st h]
  rcases st.scope y with _ | _ | _ | _ | _ | _ | _ | _ <;> rfl

/-- `var str = 7; if (str) { return str; } str = 8;` -/
def earlyReturn : List (Stmt Atom) :=
  [.var [(text "str", some (.numeral 7))], .ifElse (.name (text "str")) [.ret (some (.name (text "str")))] [],
    .assign (text "str") (.numeral 8)]

theorem earlyReturn_ignores {x : JsString} (h : text "str" ≠ x) : ∀ s ∈ earlyReturn, s.Ignores atoms x := by
  have hname := ignores_name h
  simp only [earlyReturn, List.forall_mem_cons]
  refine ⟨?_, ⟨hname, ⟨?_, trivial⟩, trivial⟩, ⟨h, ignores_numeral x 8⟩, List.forall_mem_nil _⟩
  · intro d hd
    obtain rfl := List.mem_singleton.1 hd
    exact ⟨h, fun e he => Option.some.inj he ▸ ignores_numeral x 7⟩
  · intro e he
    exact Option.some.inj he ▸ hname

/-- `Math.random` gives one half in every round. -/
def half : Random := ⟨1 / 2, by norm_num, by norm_num⟩

end GoodGoodStudy.Confound
