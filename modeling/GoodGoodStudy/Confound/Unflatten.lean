/-
Control-flow flattening of a whole program, and the script that takes it back. The script looks for the first
`'…'['split']` of the program, reads the dispatch string and the cases of the loop behind its declaration, and puts
the statements in their order again; it does this twenty times. It gives back the program exactly if no more than
twenty functions were flattened, whatever `Math.random` gave.
-/
import GoodGoodStudy.Confound.Flatten
import GoodGoodStudy.Js.Tree

namespace GoodGoodStudy.Confound

open GoodGoodStudy.Lib GoodGoodStudy.Js

/-! ## The passes that obfuscate -/

section Passes

/-- The entries of a list with their places, shuffled. -/
def shuffledList {α : Type} (random : Nat → Random) (body : List α) : List (α × Nat) :=
  (shuffle random body.length body.zipIdx.toArray (by rw [List.size_toArray, List.length_zipIdx])).toList

/-- `s.split` -/
def dotSplit (s : JsString) : Node := .node (.memberExpression false) [.string s, .ident (text "split")]

/-- `s['split']` -/
def splitAccess (s : JsString) : Node := .node (.memberExpression true) [.string s, .string (text "split")]

/-- `let array = '…'.split('|'), index = 0;` with the given callee for the dispatch string. -/
def dispenser (callee : JsString → Node) (array index : JsString) (statements : List (Node × Nat)) : Node :=
  .node (.variableDeclaration (text "let"))
    [.node .variableDeclarator
      [.ident array, .node .callExpression [callee (dispenserStr statements), .string separator]],
      .node .variableDeclarator [.ident index, .numeric 0]]

/-- `case i: statement; continue;` -/
def switchCase (i : Nat) (statement : Node) : Node :=
  .node .switchCase [.numeric i, statement, .node .continueStatement []]

/-- `while (!![]) { switch (+array[index++]) { … } break; }` -/
def whileNode (array index : JsString) (cases : List Node) : Node :=
  let memExp := .node (.memberExpression true) [.ident array, .node (.updateExpression (text "++")) [.ident index]]
  let unaExp := .node (.unaryExpression (text "!")) [.node (.unaryExpression (text "!")) [.node .arrayExpression []]]
  .node .whileStatement
    [unaExp,
      .node .blockStatement
        [.node .switchStatement (.node (.unaryExpression (text "+")) [memExp] :: cases), .node .breakStatement []]]

/-- The body that the visitor generates. -/
def flattenBody (callee : JsString → Node) (random : Nat → Random) (names : JsString × JsString) (body : List Node) :
    List Node :=
  let statements := shuffledList random body
  [dispenser callee names.1 names.2 statements,
    whileNode names.1 names.2 (statements.zipIdx.map fun v => switchCase v.2 v.1.1)]

variable (callee : JsString → Node) (draws : List Nat → Nat → Random) (names : List Nat → JsString × JsString)

mutual
/-- The `FunctionExpression` visitor on a whole program. A function is told from the others by its place in the program:
what `Math.random` gives for it and the names generated for it depend on the place, and may be anything. -/
def flattenNode (place : List Nat) : Node → Node
  | .undefined => .undefined
  | .node type children => .node type (flattenNodes place 0 children)
  | .functionExpression params body =>
    .functionExpression (flattenNodes place 0 params)
      (flattenBody callee (draws place) (names place) (flattenNodes place params.length body))

def flattenNodes (place : List Nat) (i : Nat) : List Node → List Node
  | [] => []
  | n :: ns => flattenNode (i :: place) n :: flattenNodes place (i + 1) ns
end

/-- The object of an access and its property: an identifier becomes a string. -/
def stringProperty : List Node → List Node
  | [object, .node (.identifier name) []] => [object, .string name]
  | children => children

mutual
/-- `changeAccessMode`: every access is made a computed one. -/
def changeAccess : Node → Node
  | .undefined => .undefined
  | .node (.memberExpression _) children => .node (.memberExpression true) (stringProperty (changeAccesses children))
  | .node type children => .node type (changeAccesses children)
  | .functionExpression params body => .functionExpression (changeAccesses params) (changeAccesses body)

def changeAccesses : List Node → List Node
  | [] => []
  | n :: ns => changeAccess n :: changeAccesses ns
end

end Passes

/-! ## The shuffle goes by the places alone -/

section Shuffle

variable {α β : Type}

theorem map_swap (f : α → β) (xs : Array α) {i j : Nat} (hi : i < xs.size) (hj : j < xs.size) :
    (xs.swap i j hi hj).map f = (xs.map f).swap i j (by rwa [Array.size_map]) (by rwa [Array.size_map]) := by
  ext k hk hk'
  · simp
  · simp only [Array.getElem_map, Array.getElem_swap]
    split_ifs <;> rfl

theorem shuffle_map (f : α → β) (random : Nat → Random) (i : Nat) (xs : Array α) (h : i ≤ xs.size) :
    shuffle random i (xs.map f) (by rwa [Array.size_map]) = (shuffle random i xs h).map f := by
  induction i generalizing xs with
  | zero => rfl
  | succ i ih =>
    unfold shuffle
    rw [← ih]
    congr 1
    rw [map_swap]

theorem shuffledList_map (f : α → β) (random : Nat → Random) (body : List α) :
    shuffledList random (body.map f) = (shuffledList random body).map (Prod.map f id) := by
  have hzip : (body.map f).zipIdx.toArray = body.zipIdx.toArray.map (Prod.map f id) := by
    rw [List.zipIdx_map, List.map_toArray]
  have hshuffle := shuffle_map (Prod.map f id) random body.length body.zipIdx.toArray
    (by rw [List.size_toArray, List.length_zipIdx])
  simp only [shuffledList, List.length_map, hzip, hshuffle, Array.toList_map]

theorem dispenserArr_map (f : α → β) (statements : List (α × Nat)) :
    dispenserArr (statements.map (Prod.map f id)) = dispenserArr statements := by
  unfold dispenserArr
  rw [List.zipIdx_map, List.foldl_map]
  rfl

end Shuffle

/-! ## The generated body is the one that keeps the meaning -/

section Code

def genNode : Gen → Node
  | .stringLiteral s => .string s
  | .numericLiteral n => .numeric n
  | .identifier x => .ident x
  | .split object separator =>
    .node .callExpression [.node (.memberExpression false) [genNode object, .ident (text "split")], genNode separator]
  | .update x => .node (.updateExpression (text "++")) [.ident x]
  | .member object property => .node (.memberExpression true) [genNode object, genNode property]
  | .plus argument => .node (.unaryExpression (text "+")) [genNode argument]
  | .not argument => .node (.unaryExpression (text "!")) [genNode argument]
  | .emptyArray => .node .arrayExpression []

variable {E : Type} (own : Stmt E → Node)

mutual
/-- The syntax of generated code, given that of the statements of the program. -/
def codeNode : Code E → Node
  | .own s => own s
  | .lets ds =>
    .node (.variableDeclaration (text "let")) (ds.map fun d => .node .variableDeclarator [.ident d.1, genNode d.2])
  | .while test body => .node .whileStatement [genNode test, .node .blockStatement (codeNodes body)]
  | .switch discriminant cases => .node .switchStatement (genNode discriminant :: caseNodes cases)
  | .brk => .node .breakStatement []
  | .cont => .node .continueStatement []

def codeNodes : List (Code E) → List Node
  | [] => []
  | c :: cs => codeNode c :: codeNodes cs

def caseNodes : List (Nat × List (Code E)) → List Node
  | [] => []
  | (i, body) :: cases => .node .switchCase (.numeric i :: codeNodes body) :: caseNodes cases
end

/-- The visitor generates the syntax of the body that `flatten_preserves_meaning` is about. -/
theorem codeNodes_flatten (random : Nat → Random) (array index : JsString) (body : List (Stmt E)) :
    codeNodes own (flatten array index random body) = flattenBody dotSplit random (array, index) (body.map own) := by
  have hstatements : shuffledList random (body.map own) = (shuffled random body).map (Prod.map own id) :=
    shuffledList_map own random body
  have hcases : ∀ (statements : List (Stmt E × Nat)) (j : Nat),
      caseNodes own ((statements.zipIdx j).map fun v => (v.2, [Code.own v.1.1, Code.cont])) =
        ((statements.map (Prod.map own id)).zipIdx j).map fun v => switchCase v.2 v.1.1 := by
    intro statements
    induction statements with
    | nil => exact fun _ => rfl
    | cons v statements ih => exact fun j => congrArg (switchCase j (own v.1) :: ·) (ih (j + 1))
  simp only [flattenBody, dispenser, dispenserStr, hstatements, dispenserArr_map, ← hcases]
  rfl

end Code

/-! ## The script -/

section Script

/-- What the traversal has found in a node or in a list of nodes. -/
inductive Visit (δ α : Type)
  /-- nothing -/
  | pass
  /-- the access, below no declaration so far -/
  | split (value : JsString)
  /-- the access, in a declaration -/
  | declared (place : δ) (value : JsString)
  /-- the loop is replaced, and the traversal stopped -/
  | done (result : α)
  /-- a `TypeError` -/
  | error

/-- `t.isStringLiteral(object) && t.isStringLiteral(property, {value: 'split'})`; the value of the object. -/
def splitValue : NodeType → List Node → Option JsString
  | .memberExpression _, [object, property] =>
    if property.stringValue = some (text "split") then object.stringValue else none
  | _, _ => none

/-- `p.test.value`, as a key. -/
def testValue : Node → Option JsString
  | .undefined => none
  | .node (.stringLiteral value) _ => some value
  | .node (.numericLiteral value) _ => some (numberText value)
  | _ => some (text "undefined")

/-- `myArr[p.test.value] = p.consequent[0]` -/
def readCase (myArr : JsString → Node) : Node → Option (JsString → Node)
  | .node .switchCase (test :: consequent) =>
    (testValue test).map fun key => Function.update myArr key (consequent.headD .undefined)
  | _ => none

/-- The body without the declaration and the loop behind it, and with the statements of the loop in the order of the
dispatch string. A sibling that is no loop with a `switch` is a `TypeError`. -/
def restoreBody (before : List Node) (value : JsString) : List Node → Option (List Node)
  | .node .whileStatement [_, .node .blockStatement (.node .switchStatement (_ :: cases) :: _)] :: after =>
    (cases.foldlM readCase fun _ => .undefined).map fun myArr => before ++ after ++ (splitOnSub separator value).map myArr
  | _ => none

/-- The statements of a body have been visited. -/
def leaveBody : Visit (List Node × List Node) (List Node) → Visit Unit (List Node)
  | .pass => .pass
  | .split value => .split value
  | .declared (before, after) value =>
    match restoreBody before value after with
    | some body => .done body
    | none => .error
  | .done body => .done body
  | .error => .error

/-- A list of nodes has been visited in which a declaration has no siblings. -/
def leaveFields : Visit (List Node × List Node) (List Node) → Visit Unit (List Node)
  | .pass => .pass
  | .split value => .split value
  | .declared _ _ => .error
  | .done children => .done children
  | .error => .error

/-- The children of a node have been visited. -/
def leaveNode (type : NodeType) : Visit Unit (List Node) → Visit Unit Node
  | .pass => .pass
  | .split value => if type.isVariableDeclaration then .declared () value else .split value
  | .declared _ value => .declared () value
  | .done children => .done (.node type children)
  | .error => .error

/-- The parameters and the body of a function have been visited. -/
def leaveFunction (params body : List Node) (visitedParams visitedBody : Visit Unit (List Node)) : Visit Unit Node :=
  match visitedParams with
  | .pass =>
    match visitedBody with
    | .pass => .pass
    | .split value => .split value
    | .declared _ value => .declared () value
    | .done body => .done (.functionExpression params body)
    | .error => .error
  | .split value => .split value
  | .declared _ value => .declared () value
  | .done params => .done (.functionExpression params body)
  | .error => .error

mutual
/-- The `MemberExpression` visitor, which stops the traversal at the first access that it handles. -/
def visit : Node → Visit Unit Node
  | .undefined => .pass
  | .node type children =>
    match splitValue type children with
    | some value => .split value
    | none =>
      leaveNode type (if type.hasBody then leaveBody (visitList children) else leaveFields (visitList children))
  | .functionExpression params body =>
    leaveFunction params body (leaveFields (visitList params)) (leaveBody (visitList body))

def visitList : List Node → Visit (List Node × List Node) (List Node)
  | [] => .pass
  | n :: ns =>
    match visit n with
    | .pass =>
      match visitList ns with
      | .pass => .pass
      | .split value => .split value
      | .declared (before, after) value => .declared (n :: before, after) value
      | .done ns => .done (n :: ns)
      | .error => .error
    | .split value => .split value
    | .declared _ value => .declared ([], ns) value
    | .done n => .done (n :: ns)
    | .error => .error
end

/-- One traversal; an access outside of every declaration is a `TypeError` too. -/
def restoreOnce (ast : Node) : Option Node :=
  match visit ast with
  | .pass => some ast
  | .done ast => some ast
  | _ => none

/-- `for (let i = 0; i < n; i++) { traverse(ast, …) }` -/
def restoreTimes : Nat → Node → Option Node
  | 0, ast => some ast
  | n + 1, ast => (restoreOnce ast).bind (restoreTimes n)

def restoreAll (ast : Node) : Option Node := restoreTimes 20 ast

end Script

/-! ## The loop of one function -/

section Body

variable {α β : Type}

theorem forall₂_some {R : α → β → Prop} {xs : List (Option α)} {ys : List β}
    (h : List.Forall₂ (fun x y => ∃ a, x = some a ∧ R a y) xs ys) : ∃ as, xs = as.map some ∧ List.Forall₂ R as ys := by
  induction h with
  | nil => exact ⟨[], rfl, .nil⟩
  | cons hx _ ih =>
    obtain ⟨a, rfl, ha⟩ := hx
    obtain ⟨as, rfl, has⟩ := ih
    exact ⟨a :: as, rfl, .cons ha has⟩

/-- The dispatch string has, for every place of the body, the position to which its statement has gone. -/
theorem dispatch_spec (random : Nat → Random) {body : List Node} (h : body ≠ []) :
    ∃ positions : List Nat, splitOnSub separator (dispenserStr (shuffledList random body)) = positions.map numberText ∧
      List.Forall₂ (fun p s => ∃ k, (shuffledList random body)[p]? = some (s, k)) positions body := by
  have hshuffled : shuffled random (body.map Stmt.expr) = (shuffledList random body).map (Prod.map Stmt.expr id) :=
    shuffledList_map Stmt.expr random body
  have hne : body.map Stmt.expr ≠ [] := fun hnil => h (List.map_eq_nil_iff.1 hnil)
  obtain ⟨hlen, hspec⟩ := dispenserArr_spec random (body.map Stmt.expr)
  have helements := elements_eq random hne
  unfold elements dispenserStr at helements
  rw [hshuffled, dispenserArr_map] at hlen hspec helements
  rw [List.length_map] at hlen
  have hentries : List.Forall₂ (fun i s => ∃ p : Nat, i = some p ∧ ∃ k, (shuffledList random body)[p]? = some (s, k))
      (dispenserArr (shuffledList random body)) body := by
    refine List.forall₂_iff_get.2 ⟨hlen, fun k hk hk' => ?_⟩
    obtain ⟨p, hp, harr⟩ := hspec k (.expr body[k]) (by rw [List.getElem?_map, List.getElem?_eq_getElem hk']; rfl)
    obtain ⟨⟨s, j⟩, hp, heq⟩ := Option.map_eq_some_iff.1 ((List.getElem?_map).symm.trans hp)
    obtain ⟨hs, -⟩ := Prod.mk.inj heq
    cases hs
    exact ⟨p, (List.getElem?_eq_some_iff.1 harr).2, j, hp⟩
  obtain ⟨positions, hpositions, hforall⟩ := forall₂_some hentries
  refine ⟨positions, ?_, hforall⟩
  unfold dispenserStr
  rw [helements, hpositions, List.map_map]
  rfl

theorem numberText_inj {m n : Nat} (h : numberText m = numberText n) : m = n := by
  have hnumber := toNumber_numberText m
  rw [h, toNumber_numberText] at hnumber
  exact (Option.some.inj hnumber).symm

/-- The cases make an array that has the statement of each case at its number, and nothing else. -/
theorem read_cases (statements : List (Node × Nat)) (j : Nat) (f : JsString → Node) :
    ∃ g, ((statements.zipIdx j).map fun v => switchCase v.2 v.1.1).foldlM readCase f = some g ∧
      (∀ p v, statements[p]? = some v → g (numberText (j + p)) = v.1) ∧
      ∀ key, (∀ p, j ≤ p → key ≠ numberText p) → g key = f key := by
  induction statements generalizing j f with
  | nil => exact ⟨f, rfl, nofun, fun _ _ => rfl⟩
  | cons v statements ih =>
    obtain ⟨g, hfold, hcases, hrest⟩ := ih (j + 1) (Function.update f (numberText j) v.1)
    refine ⟨g, hfold, fun p w hp => ?_, fun key hkey => ?_⟩
    · cases p with
      | zero =>
        obtain rfl := Option.some.inj hp
        rw [hrest _ fun p hp heq => absurd (numberText_inj heq) (by omega)]
        exact Function.update_self ..
      | succ p =>
        have hj : j + (p + 1) = j + 1 + p := by omega
        rw [hj]
        exact hcases p w hp
    · rw [hrest key fun p hp => hkey p (by omega)]
      exact Function.update_of_ne (hkey j le_rfl) ..

/-- What the script puts in the place of a body: an empty one gets the statement `undefined`. -/
def orUndefined (body : List Node) : List Node := if body.isEmpty then [.undefined] else body

/-- The statements of a flattened body are put in their order again. -/
theorem restoreBody_flattened (random : Nat → Random) (array index : JsString) (body : List Node) :
    restoreBody [] (dispenserStr (shuffledList random body))
      [whileNode array index ((shuffledList random body).zipIdx.map fun v => switchCase v.2 v.1.1)] =
        some (orUndefined body) := by
  obtain ⟨g, hfold, hcases, -⟩ := read_cases (shuffledList random body) 0 fun _ => .undefined
  have hrestore : restoreBody [] (dispenserStr (shuffledList random body))
      [whileNode array index ((shuffledList random body).zipIdx.map fun v => switchCase v.2 v.1.1)] =
        some ((splitOnSub separator (dispenserStr (shuffledList random body))).map g) :=
    congrArg (Option.map _) hfold
  rw [hrestore]
  by_cases h : body = []
  · subst h
    cases hfold
    rfl
  · obtain ⟨positions, hsplit, hpositions⟩ := dispatch_spec random h
    have hmap : ∀ {ps : List Nat} {ss : List Node},
        List.Forall₂ (fun p s => ∃ k, (shuffledList random body)[p]? = some (s, k)) ps ss →
          (ps.map numberText).map g = ss := by
      intro ps ss hps
      induction hps with
      | nil => rfl
      | cons hp _ ih =>
        obtain ⟨k, hp⟩ := hp
        have hg := hcases _ _ hp
        rw [Nat.zero_add] at hg
        rw [List.map_cons, List.map_cons, ih, hg]
    rw [hsplit, hmap hpositions]
    unfold orUndefined
    rw [if_neg (by rwa [List.isEmpty_iff])]

end Body

/-! ## Programs of which the first functions are restored -/

mutual
/-- No access to `split` of a string literal. -/
def SplitFree : Node → Prop
  | .undefined => True
  | .node type children => splitValue type children = none ∧ SplitFrees children
  | .functionExpression params body => SplitFrees params ∧ SplitFrees body

def SplitFrees : List Node → Prop
  | [] => True
  | n :: ns => SplitFree n ∧ SplitFrees ns
end

mutual
/-- The program with every function restored. -/
def restored : Node → Node
  | .undefined => .undefined
  | .node type children => .node type (restoredList children)
  | .functionExpression params body => .functionExpression (restoredList params) (orUndefined (restoredList body))

def restoredList : List Node → List Node
  | [] => []
  | n :: ns => restored n :: restoredList ns
end

section Partly

variable (draws : List Nat → Nat → Random) (names : List Nat → JsString × JsString)

mutual
/-- The flattened program with its first functions restored, and how many of them are to be found further on. The
parameters of a function come before the function itself. -/
def partly (place : List Nat) : Node → Nat → Node × Nat
  | .undefined, k => (.undefined, k)
  | .node type children, k => (.node type (partlyList place 0 children k).1, (partlyList place 0 children k).2)
  | .functionExpression params body, k =>
    let visited := partlyList place 0 params k
    match visited.2 with
    | 0 =>
      (.functionExpression visited.1 (flattenBody splitAccess (draws place) (names place)
        (flattenNodes splitAccess draws names place params.length body)), 0)
    | k + 1 =>
      (.functionExpression visited.1 (orUndefined (partlyList place params.length body k).1),
        (partlyList place params.length body k).2)

def partlyList (place : List Nat) (i : Nat) : List Node → Nat → List Node × Nat
  | [], k => ([], k)
  | n :: ns, k =>
    ((partly (i :: place) n k).1 :: (partlyList place (i + 1) ns (partly (i :: place) n k).2).1,
      (partlyList place (i + 1) ns (partly (i :: place) n k).2).2)
end

mutual
theorem partly_snd (place : List Nat) : ∀ (n : Node) (k : Nat), (partly draws names place n k).2 = k - n.functions
  | .undefined, k => (Nat.sub_zero k).symm
  | .node _ children, k => partlyList_snd place 0 children k
  | .functionExpression params body, k => by
    have hparams := partlyList_snd place 0 params k
    rw [partly, Node.functions]
    rcases h : (partlyList draws names place 0 params k).2 with _ | j
    · simp only
      omega
    · simp only
      rw [partlyList_snd]
      omega

theorem partlyList_snd (place : List Nat) (i : Nat) : ∀ (ns : List Node) (k : Nat),
    (partlyList draws names place i ns k).2 = k - Node.functionsIn ns
  | [], k => (Nat.sub_zero k).symm
  | n :: ns, k => by
    rw [partlyList, Node.functionsIn]
    simp only
    rw [partlyList_snd, partly_snd]
    omega
end

mutual
theorem partly_zero (place : List Nat) : ∀ n : Node,
    (partly draws names place n 0).1 = flattenNode splitAccess draws names place n
  | .undefined => rfl
  | .node type children => congrArg (Node.node type) (partlyList_zero place 0 children)
  | .functionExpression params body => by
    have hparams := partlyList_snd draws names place 0 params 0
    rw [Nat.zero_sub] at hparams
    rw [partly, flattenNode]
    simp only [hparams, partlyList_zero place 0 params]

theorem partlyList_zero (place : List Nat) (i : Nat) : ∀ ns : List Node,
    (partlyList draws names place i ns 0).1 = flattenNodes splitAccess draws names place i ns
  | [] => rfl
  | n :: ns => by
    have hn := partly_snd draws names (i :: place) n 0
    rw [Nat.zero_sub] at hn
    rw [partlyList, flattenNodes]
    simp only [hn, partly_zero (i :: place) n, partlyList_zero place (i + 1) ns]
end

mutual
theorem partly_all (place : List Nat) : ∀ {n : Node} {k : Nat}, n.functions ≤ k →
    (partly draws names place n k).1 = restored n
  | .undefined, _, _ => rfl
  | .node type _, _, h => congrArg (Node.node type) (partlyList_all place 0 h)
  | .functionExpression params body, k, h => by
    rw [Node.functions] at h
    have hparams := partlyList_snd draws names place 0 params k
    obtain ⟨j, hj⟩ : ∃ j, (partlyList draws names place 0 params k).2 = j + 1 :=
      ⟨k - Node.functionsIn params - 1, by omega⟩
    have hbody : Node.functionsIn body ≤ j := by omega
    have hleft : Node.functionsIn params ≤ k := by omega
    rw [partly, restored]
    simp only [hj, partlyList_all place 0 hleft, partlyList_all place params.length hbody]

theorem partlyList_all (place : List Nat) (i : Nat) : ∀ {ns : List Node} {k : Nat}, Node.functionsIn ns ≤ k →
    (partlyList draws names place i ns k).1 = restoredList ns
  | [], _, _ => rfl
  | n :: ns, k, h => by
    rw [Node.functionsIn] at h
    have hn := partly_snd draws names (i :: place) n k
    have hhead : n.functions ≤ k := by omega
    have htail : Node.functionsIn ns ≤ (partly draws names (i :: place) n k).2 := by omega
    rw [partlyList, restoredList]
    simp only [partly_all (i :: place) hhead, partlyList_all place (i + 1) htail]
end

theorem stringValue_partly (place : List Nat) (n : Node) (k : Nat) :
    (partly draws names place n k).1.stringValue = n.stringValue := by
  cases n with
  | undefined => rfl
  | node type children => cases type <;> rfl
  | functionExpression params body =>
    rw [partly]
    rcases (partlyList draws names place 0 params k).2 with _ | j <;> rfl

theorem splitValue_partlyList (place : List Nat) (type : NodeType) (ns : List Node) (k : Nat) :
    splitValue type (partlyList draws names place 0 ns k).1 = splitValue type ns := by
  rcases ns with _ | ⟨object, _ | ⟨property, _ | ⟨n, ns⟩⟩⟩
  · rfl
  · cases type <;> rfl
  · cases type with
    | memberExpression computed => simp only [partlyList, splitValue, stringValue_partly]
    | _ => rfl
  · cases type <;> rfl

theorem splitValue_restoredList (type : NodeType) (ns : List Node) :
    splitValue type (restoredList ns) = splitValue type ns := by
  have hvalue := splitValue_partlyList (fun _ _ => ⟨0, le_rfl, one_pos⟩) (fun _ => ([], [])) [] type ns
    (Node.functionsIn ns)
  rwa [partlyList_all _ _ _ _ le_rfl] at hvalue

end Partly

/-! ## One traversal restores the next function -/

theorem visitList_orUndefined {body : List Node} (h : visitList body = .pass) :
    visitList (orUndefined body) = .pass := by
  unfold orUndefined
  split_ifs
  · rfl
  · exact h

mutual
theorem visit_restored : ∀ {n : Node}, SplitFree n → visit (restored n) = .pass
  | .undefined, _ => rfl
  | .node type children, h => by
    have hvalue : splitValue type (restoredList children) = none := (splitValue_restoredList type children).trans h.1
    rw [restored, visit, hvalue]
    simp only [visitList_restoredList h.2]
    split_ifs <;> rfl
  | .functionExpression params body, h => by
    rw [restored, visit, visitList_restoredList h.1, visitList_orUndefined (visitList_restoredList h.2)]
    rfl

theorem visitList_restoredList : ∀ {ns : List Node}, SplitFrees ns → visitList (restoredList ns) = .pass
  | [], _ => rfl
  | n :: ns, h => by
    rw [restoredList, visitList, visit_restored h.1]
    simp only [visitList_restoredList h.2]
end

section Partly

variable (draws : List Nat → Nat → Random) (names : List Nat → JsString × JsString)

theorem splitValue_splitAccess (s : JsString) :
    splitValue (.memberExpression true) [.string s, .string (text "split")] = some s := by
  rw [splitValue]
  exact if_pos rfl

theorem visit_dispenser (array index : JsString) (statements : List (Node × Nat)) :
    visit (dispenser splitAccess array index statements) = .declared () (dispenserStr statements) := by
  have hcallee : visit (splitAccess (dispenserStr statements)) = .split (dispenserStr statements) := by
    rw [splitAccess, visit, splitValue_splitAccess]
  have hcall : visit (.node .callExpression [splitAccess (dispenserStr statements), .string separator]) =
      .split (dispenserStr statements) := by
    rw [visit, visitList, hcallee]
    rfl
  have hdeclarator : visit (.node .variableDeclarator
      [.ident array, .node .callExpression [splitAccess (dispenserStr statements), .string separator]]) =
        .split (dispenserStr statements) := by
    rw [visit, visitList, visitList, hcall]
    rfl
  rw [dispenser, visit, visitList, hdeclarator]
  rfl

/-- In a flattened body the traversal comes to the dispatch string, and the statements are put in order again. -/
theorem leaveBody_flattenBody (random : Nat → Random) (names : JsString × JsString) (body : List Node) :
    leaveBody (visitList (flattenBody splitAccess random names body)) = .done (orUndefined body) := by
  unfold flattenBody
  rw [visitList, visit_dispenser]
  simp only [leaveBody, restoreBody_flattened]

mutual
theorem visit_partly (place : List Nat) : ∀ {n : Node} {k : Nat}, SplitFree n → k < n.functions →
    visit (partly draws names place n k).1 = .done (partly draws names place n (k + 1)).1
  | .undefined, _, _, hk => absurd hk (Nat.not_lt_zero _)
  | .node type children, k, h, hk => by
    have hvalue : splitValue type (partlyList draws names place 0 children k).1 = none :=
      (splitValue_partlyList draws names place type children k).trans h.1
    have hchildren := visitList_partly place 0 h.2 hk
    rw [partly, visit, hvalue]
    simp only [hchildren]
    split_ifs <;> rfl
  | .functionExpression params body, k, h, hk => by
    rw [Node.functions] at hk
    have hleft := partlyList_snd draws names place 0 params k
    have hleft' := partlyList_snd draws names place 0 params (k + 1)
    rcases Nat.lt_or_ge k (Node.functionsIn params) with hlt | hge
    · -- the next function is in the parameters
      have hparams := visitList_partly place 0 h.1 hlt
      have hzero : k - Node.functionsIn params = 0 := by omega
      have hzero' : k + 1 - Node.functionsIn params = 0 := by omega
      rw [hzero] at hleft
      rw [hzero'] at hleft'
      rw [partly, partly]
      simp only [hleft, hleft']
      rw [visit, hparams]
      rfl
    · have hparams : visitList (partlyList draws names place 0 params k).1 = .pass := by
        rw [partlyList_all draws names place 0 hge]
        exact visitList_restoredList h.1
      have hsame : (partlyList draws names place 0 params (k + 1)).1 = (partlyList draws names place 0 params k).1 := by
        rw [partlyList_all draws names place 0 hge, partlyList_all draws names place 0 (by omega)]
      obtain ⟨j, rfl⟩ : ∃ j, k = Node.functionsIn params + j := ⟨k - Node.functionsIn params, by omega⟩
      have hj : Node.functionsIn params + j - Node.functionsIn params = j := by omega
      have hj' : Node.functionsIn params + j + 1 - Node.functionsIn params = j + 1 := by omega
      rw [hj] at hleft
      rw [hj'] at hleft'
      rw [partly, partly]
      cases j with
      | zero =>
        -- the next function is this one
        simp only [hleft, hleft', hsame]
        rw [visit, hparams, leaveBody_flattenBody, partlyList_zero]
        rfl
      | succ j =>
        -- the next function is in the body
        have hlt : j < Node.functionsIn body := by omega
        have hne : ∀ i, orUndefined (partlyList draws names place params.length body i).1 =
            (partlyList draws names place params.length body i).1 := by
          intro i
          cases body with
          | nil => exact absurd hlt (Nat.not_lt_zero _)
          | cons n ns => rfl
        have hbody := visitList_partly place params.length h.2 hlt
        simp only [hleft, hleft', hsame, hne]
        rw [visit, hparams, hbody]
        rfl

theorem visitList_partly (place : List Nat) (i : Nat) : ∀ {ns : List Node} {k : Nat}, SplitFrees ns →
    k < Node.functionsIn ns →
      visitList (partlyList draws names place i ns k).1 = .done (partlyList draws names place i ns (k + 1)).1
  | [], _, _, hk => absurd hk (Nat.not_lt_zero _)
  | n :: ns, k, h, hk => by
    rw [Node.functionsIn] at hk
    rw [partlyList, partlyList, visitList]
    rcases Nat.lt_or_ge k n.functions with hlt | hge
    · have hleft := partly_snd draws names (i :: place) n k
      have hleft' := partly_snd draws names (i :: place) n (k + 1)
      have hzero : k - n.functions = 0 := by omega
      have hzero' : k + 1 - n.functions = 0 := by omega
      rw [hzero] at hleft
      rw [hzero'] at hleft'
      simp only [visit_partly (i :: place) h.1 hlt, hleft, hleft']
    · have hhead : visit (partly draws names (i :: place) n k).1 = .pass := by
        rw [partly_all draws names (i :: place) hge]
        exact visit_restored h.1
      have hsame : (partly draws names (i :: place) n (k + 1)).1 = (partly draws names (i :: place) n k).1 := by
        rw [partly_all draws names (i :: place) hge, partly_all draws names (i :: place) (by omega)]
      have hsucc : k + 1 - n.functions = k - n.functions + 1 := by omega
      have htail := visitList_partly (i := i + 1) place h.2 (k := k - n.functions) (by omega)
      simp only [hhead, partly_snd, hsame, hsucc, htail]
end

/-- Each traversal restores one more function. -/
theorem restoreTimes_partly {t : Node} (h : SplitFree t) (place : List Nat) (n k : Nat) :
    restoreTimes n (partly draws names place t k).1 = some (partly draws names place t (k + n)).1 := by
  induction n generalizing k with
  | zero => rfl
  | succ n ih =>
    have hsucc : k + (n + 1) = k + 1 + n := by omega
    have hadd : restoreOnce (partly draws names place t k).1 = some (partly draws names place t (k + 1)).1 := by
      unfold restoreOnce
      rcases Nat.lt_or_ge k t.functions with hlt | hge
      · rw [visit_partly draws names place h hlt]
      · rw [partly_all draws names place hge, partly_all draws names place (by omega), visit_restored h]
    rw [restoreTimes, hadd, Option.bind_some, ih, hsucc]

/-- The script restores a flattened program, exactly if it has no more than twenty functions. -/
theorem restoreAll_flattenNode {t : Node} (h : SplitFree t) (place : List Nat) :
    (∃ r, restoreAll (flattenNode splitAccess draws names place t) = some r) ∧
      (restoreAll (flattenNode splitAccess draws names place t) = some (restored t) ↔ t.functions ≤ 20) := by
  have hrun : restoreAll (flattenNode splitAccess draws names place t) =
      some (partly draws names place t 20).1 := by
    have htimes := restoreTimes_partly draws names h place 20 0
    rw [partly_zero, Nat.zero_add] at htimes
    exact htimes
  refine ⟨⟨_, hrun⟩, fun heq => ?_, fun hle => ?_⟩
  · by_contra hlt
    have hvisit := visit_partly draws names place h (Nat.lt_of_not_le hlt)
    rw [hrun, Option.some_inj] at heq
    rw [heq, visit_restored h] at hvisit
    cases hvisit
  · rw [hrun, partly_all draws names place hle]

end Partly

/-! ## The accesses of the whole program -/

section Access

variable (draws : List Nat → Nat → Random) (names : List Nat → JsString × JsString)

theorem changeAccesses_eq_map : ∀ ns : List Node, changeAccesses ns = ns.map changeAccess
  | [] => rfl
  | n :: ns => congrArg (changeAccess n :: ·) (changeAccesses_eq_map ns)

theorem changeAccess_dispenser (array index : JsString) (statements : List (Node × Nat)) :
    changeAccess (dispenser dotSplit array index statements) = dispenser splitAccess array index statements := rfl

theorem changeAccess_whileNode (array index : JsString) (cases : List Node) :
    changeAccess (whileNode array index cases) = whileNode array index (changeAccesses cases) := rfl

/-- In a flattened body the access to `split` is changed, and those of the statements. -/
theorem changeAccesses_flattenBody (random : Nat → Random) (names : JsString × JsString) (body : List Node) :
    changeAccesses (flattenBody dotSplit random names body) =
      flattenBody splitAccess random names (changeAccesses body) := by
  have hstatements : shuffledList random (changeAccesses body) =
      (shuffledList random body).map (Prod.map changeAccess id) := by
    rw [changeAccesses_eq_map, shuffledList_map]
  have hstr : dispenserStr (shuffledList random (changeAccesses body)) = dispenserStr (shuffledList random body) := by
    unfold dispenserStr
    rw [hstatements, dispenserArr_map]
  have hcases : changeAccesses ((shuffledList random body).zipIdx.map fun v => switchCase v.2 v.1.1) =
      (shuffledList random (changeAccesses body)).zipIdx.map fun v => switchCase v.2 v.1.1 := by
    rw [changeAccesses_eq_map, hstatements, List.zipIdx_map, List.map_map, List.map_map]
    rfl
  simp only [flattenBody, changeAccesses, changeAccess_dispenser, changeAccess_whileNode, hcases]
  simp only [dispenser, hstr]

theorem flattenNodes_stringProperty (callee : JsString → Node) (place : List Nat) (ns : List Node) :
    stringProperty (flattenNodes callee draws names place 0 ns) =
      flattenNodes callee draws names place 0 (stringProperty ns) := by
  rcases ns with _ | ⟨object, _ | ⟨property, ns⟩⟩
  · rfl
  · rfl
  · rcases property with _ | ⟨type, children⟩ | ⟨params, body⟩
    · rfl
    · cases type with
      | identifier name => cases children <;> cases ns <;> rfl
      | _ => rfl
    · rfl

mutual
theorem changeAccess_flattenNode (place : List Nat) : ∀ n : Node,
    changeAccess (flattenNode dotSplit draws names place n) = flattenNode splitAccess draws names place (changeAccess n)
  | .undefined => rfl
  | .node type children => by
    have hchildren := changeAccesses_flattenNodes place 0 children
    cases type with
    | memberExpression computed =>
      rw [flattenNode, changeAccess, changeAccess, flattenNode, hchildren, flattenNodes_stringProperty]
    | _ => exact congrArg (Node.node _) hchildren
  | .functionExpression params body => by
    have hlen : (changeAccesses params).length = params.length := by
      rw [changeAccesses_eq_map, List.length_map]
    rw [flattenNode, changeAccess, changeAccess, flattenNode, changeAccesses_flattenNodes, changeAccesses_flattenBody,
      changeAccesses_flattenNodes, hlen]

theorem changeAccesses_flattenNodes (place : List Nat) (i : Nat) : ∀ ns : List Node,
    changeAccesses (flattenNodes dotSplit draws names place i ns) =
      flattenNodes splitAccess draws names place i (changeAccesses ns)
  | [] => rfl
  | n :: ns => by
    rw [flattenNodes, changeAccesses, changeAccesses, flattenNodes, changeAccess_flattenNode,
      changeAccesses_flattenNodes]
end

end Access

/-! ## The whole program -/

theorem functionsIn_stringProperty (ns : List Node) : Node.functionsIn (stringProperty ns) = Node.functionsIn ns := by
  unfold stringProperty
  split
  · rfl
  · rfl

mutual
theorem functions_changeAccess : ∀ n : Node, (changeAccess n).functions = n.functions
  | .undefined => rfl
  | .node type children => by
    have hchildren := functionsIn_changeAccesses children
    cases type with
    | memberExpression computed => exact (functionsIn_stringProperty (changeAccesses children)).trans hchildren
    | _ => exact hchildren
  | .functionExpression params body => by
    rw [changeAccess, Node.functions, Node.functions, functionsIn_changeAccesses, functionsIn_changeAccesses]

theorem functionsIn_changeAccesses : ∀ ns : List Node, Node.functionsIn (changeAccesses ns) = Node.functionsIn ns
  | [] => rfl
  | n :: ns => by
    rw [changeAccesses, Node.functionsIn, Node.functionsIn, functions_changeAccess, functionsIn_changeAccesses]
end

mutual
/-- Every function has a statement. -/
def HasStatements : Node → Prop
  | .undefined => True
  | .node _ children => AllHaveStatements children
  | .functionExpression params body => AllHaveStatements params ∧ body ≠ [] ∧ AllHaveStatements body

def AllHaveStatements : List Node → Prop
  | [] => True
  | n :: ns => HasStatements n ∧ AllHaveStatements ns
end

mutual
theorem restored_eq_self : ∀ {n : Node}, HasStatements n → restored n = n
  | .undefined, _ => rfl
  | .node type _, h => congrArg (Node.node type) (restoredList_eq_self h)
  | .functionExpression params body, h => by
    obtain ⟨hparams, hne, hbody⟩ := h
    rw [restored, restoredList_eq_self hparams, restoredList_eq_self hbody]
    unfold orUndefined
    rw [if_neg (by rwa [List.isEmpty_iff])]

theorem restoredList_eq_self : ∀ {ns : List Node}, AllHaveStatements ns → restoredList ns = ns
  | [], _ => rfl
  | n :: ns, h => by
    rw [restoredList, restored_eq_self h.1, restoredList_eq_self h.2]
end

/-- `x.f = function (a) { return a; };` -/
def assignsFunction : Node :=
  .node .program [.node (.other (text "AssignmentExpression"))
    [.node (.memberExpression false) [.ident (text "x"), .ident (text "f")],
      .functionExpression [.ident (text "a")] [.node (.other (text "ReturnStatement")) [.ident (text "a")]]]]

end GoodGoodStudy.Confound
