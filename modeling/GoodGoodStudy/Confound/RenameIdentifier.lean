/-
The renaming pass of the obfuscator as a whole: from the outermost scope inwards, the own bindings of the program and of
each function get new names, with all that belongs to them. A new name is none of the names that the scope only uses, so
that nothing is captured and the program means what it meant; that no binding has a name like the new ones has to be
given, since a new name may well be that of another own binding.
-/
import GoodGoodStudy.Confound.Identifier
import GoodGoodStudy.Lib.Scope

namespace GoodGoodStudy.Confound

open GoodGoodStudy.Js GoodGoodStudy.Lib ScopeTree

/-! ## The pass -/

/-- The node types that the traversal visits, and the other ones that have a scope. -/
inductive ScopeKind
  | program
  | functionExpression
  | functionDeclaration
  | other
  deriving DecidableEq

def ScopeKind.visited : ScopeKind → Bool
  | .other => false
  | _ => true

/-- A name that a function expression has for itself is one of its bindings; the `id` is that of a declaration. -/
abbrev ScopedProgram := ScopeTree ScopeKind JsString

namespace RenameIdentifier

mutual
/-- All nodes of type `Identifier`. -/
def identifiers : ScopedProgram → List JsString
  | .ident n => [n]
  | .key n => [n]
  | .scope id _ _ items => id.toList ++ identifiersIn items

def identifiersIn : List ScopedProgram → List JsString
  | [] => []
  | t :: ts => identifiers t ++ identifiersIn ts
end

/-- Those whose scope is the one itself. -/
def direct : List ScopedProgram → List JsString
  | [] => []
  | .ident n :: ts => n :: direct ts
  | .key n :: ts => n :: direct ts
  | .scope _ _ _ _ :: ts => direct ts

/-- Those whose scope lies further in. -/
def nested : List ScopedProgram → List JsString
  | [] => []
  | .scope id kind bs items :: ts => identifiers (.scope id kind bs items) ++ nested ts
  | _ :: ts => nested ts

/-- The keys of the two objects: `getOwnBinding` finds a binding, and it is one of the scope itself, or not. -/
def ownBinding (id : Option JsString) (bs : List JsString) (items : List ScopedProgram) : List JsString :=
  ((id.toList ++ direct items).filter (bs.contains ·)).eraseDups

def globalBinding (id : Option JsString) (bs : List JsString) (items : List ScopedProgram) : List JsString :=
  (id.toList ++ direct items).filter (!bs.contains ·) ++ nested items

/-- The `for` loop with `scope.rename`. -/
def renameAll (renamed : List (JsString × JsString)) (t : ScopedProgram) : ScopedProgram :=
  renamed.foldl (fun t p => t.rename p.1 p.2) t

variable (generate : ℕ → JsString)

def renameOwn (fuel : ℕ) : ScopedProgram → Option ScopedProgram
  | .scope id kind bs items => do
    let renamed ← renameOwnBinding generate (ownBinding id bs items) (globalBinding id bs items) fuel
    some (renameAll renamed (.scope id kind bs items))
  | t => some t

/-- The visitor, which is for three types only. -/
def enter (fuel : ℕ) : ScopedProgram → Option ScopedProgram
  | .scope id kind bs items =>
    if kind.visited then renameOwn generate fuel (.scope id kind bs items) else some (.scope id kind bs items)
  | t => some t

/-- The traversal goes on with the children that the visit has left. -/
def children (visit : ScopedProgram → Option ScopedProgram) : ScopedProgram → Option ScopedProgram
  | .scope id kind bs items => do some (.scope id kind bs (← items.mapM visit))
  | t => some t

def visit : ℕ → ScopedProgram → Option ScopedProgram
  | 0, _ => none
  | fuel + 1, t => do children (visit fuel) (← enter generate fuel t)

end RenameIdentifier

def renameIdentifier (generate : ℕ → JsString) (program : ScopedProgram) (fuel : ℕ) : Option ScopedProgram :=
  RenameIdentifier.visit generate fuel program

namespace RenameIdentifier

variable {generate}

/-- A name of the sequence. -/
def Generated (generate : ℕ → JsString) (n : JsString) : Prop := ∃ i, generate i = n

/-- The bindings of the scopes that are visited are not named like the sequence. -/
def Plain (generate : ℕ → JsString) : ScopedProgram → Prop :=
  Forall fun kind bs _ => kind.visited → ∀ b ∈ bs, ¬Generated generate b

/-- What a scope that is visited binds and uses itself is named by the sequence. -/
def Obfuscated (generate : ℕ → JsString) : ScopedProgram → Prop :=
  Forall fun kind bs items => kind.visited → ∀ n, .ident n ∈ items → n ∈ bs → Generated generate n

/-! ## The names of a scope -/

mutual
theorem mem_identifiers_of_names {n : JsString} : ∀ {t : ScopedProgram}, n ∈ t.names → n ∈ identifiers t
  | .ident _, h => h
  | .key _, h => by cases h
  | .scope id _ _ items, h => by
    rw [names, List.mem_append] at h
    rw [identifiers, List.mem_append]
    exact h.imp_right mem_identifiersIn_of_namesIn

theorem mem_identifiersIn_of_namesIn {n : JsString} : ∀ {ts : List ScopedProgram}, n ∈ namesIn ts → n ∈ identifiersIn ts
  | [], h => h
  | t :: ts, h => by
    rw [namesIn, List.mem_append] at h
    rw [identifiersIn, List.mem_append]
    exact h.imp mem_identifiers_of_names mem_identifiersIn_of_namesIn
end

theorem direct_or_nested {n : JsString} : ∀ {ts : List ScopedProgram}, n ∈ namesIn ts → n ∈ direct ts ∨ n ∈ nested ts
  | [], h => by cases h
  | t :: ts, h => by
    rw [namesIn, List.mem_append] at h
    have htail : n ∈ namesIn ts → n ∈ direct ts ∨ n ∈ nested ts := direct_or_nested
    cases t with
    | ident m =>
      rw [direct, List.mem_cons, nested]
      · rcases h with h | h
        · exact .inl (.inl (List.mem_singleton.1 h))
        · exact (htail h).imp_left .inr
      · rintro _ _ _ _ ⟨⟩
    | key m =>
      rw [direct, List.mem_cons, nested]
      · rcases h with h | h
        · cases h
        · exact (htail h).imp_left .inr
      · rintro _ _ _ _ ⟨⟩
    | scope id kind bs items =>
      rw [direct, nested, List.mem_append]
      rcases h with h | h
      · exact .inr (.inl (mem_identifiers_of_names h))
      · exact (htail h).imp_right .inr

theorem mem_direct_of_ident {n : JsString} : ∀ {ts : List ScopedProgram}, .ident n ∈ ts → n ∈ direct ts
  | t :: ts, h => by
    rcases List.mem_cons.1 h with rfl | htail
    · exact List.mem_cons_self
    · cases t with
      | ident m => exact List.mem_cons_of_mem _ (mem_direct_of_ident htail)
      | key m => exact List.mem_cons_of_mem _ (mem_direct_of_ident htail)
      | scope id kind bs items =>
        rw [direct]
        exact mem_direct_of_ident htail

theorem mem_namesIn_of_ident {n : JsString} : ∀ {ts : List ScopedProgram}, .ident n ∈ ts → n ∈ namesIn ts
  | t :: ts, h => by
    rw [namesIn, List.mem_append]
    rcases List.mem_cons.1 h with rfl | htail
    · exact .inl (List.mem_singleton_self n)
    · exact .inr (mem_namesIn_of_ident htail)

section Scope

variable {id : Option JsString} {kind : ScopeKind} {bs : List JsString} {items : List ScopedProgram}

theorem mem_ownBinding {n : JsString} (hn : .ident n ∈ items) (hbs : n ∈ bs) : n ∈ ownBinding id bs items := by
  rw [ownBinding, List.mem_eraseDups, List.mem_filter]
  exact ⟨List.mem_append_right _ (mem_direct_of_ident hn), List.contains_iff_mem.2 hbs⟩

/-- A name of the sequence that no other binding has is not used in the scope at all. -/
theorem fresh_of_notMem_global {m : JsString} (hplain : ∀ b ∈ bs, ¬Generated generate b) (hm : Generated generate m)
    (hglobal : m ∉ globalBinding id bs items) : m ∉ bs ∧ m ∉ namesIn items := by
  have hbs : m ∉ bs := fun h => hplain m h hm
  refine ⟨hbs, fun h => hglobal ?_⟩
  rw [globalBinding, List.mem_append]
  rcases direct_or_nested h with h | h
  · have hcontains : bs.contains m = false := Bool.eq_false_iff.2 fun h => hbs (List.contains_iff_mem.1 h)
    exact .inl (List.mem_filter.2 ⟨List.mem_append_right _ h, by rw [hcontains]; rfl⟩)
  · exact .inr h

/-! ## The renamings of one scope -/

theorem mem_map_sub_or {old new n : JsString} (h : n ∈ bs.map (sub old new)) : n ∈ bs ∨ n = new := by
  obtain ⟨m, hm, rfl⟩ := List.mem_map.1 h
  by_cases hold : m = old
  · rw [hold, sub_old]
    exact .inr rfl
  · rw [sub_of_ne hold]
    exact .inl hm

theorem ident_mem_renameRefsIn {old new n : JsString} :
    ∀ {ts : List ScopedProgram}, .ident n ∈ renameRefsIn old new ts → ∃ m, .ident m ∈ ts ∧ sub old new m = n
  | t :: ts, h => by
    rw [renameRefsIn, List.mem_cons] at h
    rcases h with h | h
    · cases t with
      | ident m =>
        rw [renameRefs, ident.injEq] at h
        exact ⟨m, List.mem_cons_self, h.symm⟩
      | key m => cases h
      | scope id kind bs items => cases h
    · obtain ⟨m, hm, hsub⟩ := ident_mem_renameRefsIn h
      exact ⟨m, List.mem_cons_of_mem t hm, hsub⟩

/-- What is asked of the names that are still to be given. -/
def Fresh (news : List JsString) (bs : List JsString) (items : List ScopedProgram) : Prop :=
  news.Nodup ∧ ∀ m ∈ news, m ∉ bs ∧ m ∉ namesIn items

theorem Fresh.rename {old new : JsString} {news : List JsString} (h : Fresh (new :: news) bs items) :
    Fresh news (bs.map (sub old new)) (renameRefsIn old new items) := by
  obtain ⟨hnodup, hfresh⟩ := h
  obtain ⟨hnew, hnodup⟩ := List.nodup_cons.1 hnodup
  refine ⟨hnodup, fun m hm => ?_⟩
  have hne : m ≠ new := fun h => hnew (h ▸ hm)
  obtain ⟨hbs, hitems⟩ := hfresh m (List.mem_cons_of_mem new hm)
  exact ⟨fun h => (mem_map_sub_or h).elim hbs hne, fun h => (mem_namesIn_renameRefsIn h).elim hitems hne⟩

/-- What renamings make of a scope. -/
structure Renamed (renamed : List (JsString × JsString)) (bs : List JsString) (items : List ScopedProgram)
    (bs' : List JsString) (items' : List ScopedProgram) : Prop where
  arity : bs'.length = bs.length
  resolve : ∀ env, resolveIn (bs' :: env) items' = resolveIn (bs :: env) items
  depth : depthIn items' = depthIn items
  inner : ∀ P : ScopeKind → List JsString → Prop, ForallIn (fun kind bs _ => P kind bs) items →
    ForallIn (fun kind bs _ => P kind bs) items'
  named : ∀ n, .ident n ∈ items' → n ∈ bs' →
    n ∈ renamed.map Prod.snd ∨ .ident n ∈ items ∧ n ∈ bs ∧ n ∉ renamed.map Prod.fst

theorem Renamed.trans {r₁ r₂ : List (JsString × JsString)} {bs₁ bs₂ : List JsString}
    {items₁ items₂ : List ScopedProgram}
    (h₁ : Renamed r₁ bs items bs₁ items₁) (h₂ : Renamed r₂ bs₁ items₁ bs₂ items₂) :
    Renamed (r₁ ++ r₂) bs items bs₂ items₂ := by
  refine ⟨h₂.arity.trans h₁.arity, fun env => (h₂.resolve env).trans (h₁.resolve env), h₂.depth.trans h₁.depth,
    fun P h => h₂.inner P (h₁.inner P h), fun n hn hb => ?_⟩
  rw [List.map_append, List.map_append, List.mem_append, List.mem_append, not_or]
  rcases h₂.named n hn hb with h | ⟨hn₁, hb₁, hr₂⟩
  · exact .inl (.inr h)
  · rcases h₁.named n hn₁ hb₁ with h | ⟨hn₀, hb₀, hr₁⟩
    · exact .inl (.inl h)
    · exact .inr ⟨hn₀, hb₀, hr₁, hr₂⟩

theorem renamed_nil : Renamed [] bs items bs items :=
  ⟨rfl, fun _ => rfl, rfl, fun _ h => h, fun _ hn hb => .inr ⟨hn, hb, List.not_mem_nil⟩⟩

/-- One renaming. -/
theorem renamed_rename {old new : JsString} (hdecl : DeclaredIn items) (hold : old ∈ bs) (hbs : new ∉ bs)
    (hitems : new ∉ namesIn items) :
    Renamed [(old, new)] bs items (bs.map (sub old new)) (renameRefsIn old new items) := by
  refine ⟨List.length_map _, fun env => ?_, depthIn_renameRefsIn items, fun P h => forallIn_renameRefsIn h,
    fun n hn hb => ?_⟩
  · have hpre : ∀ b ∈ ([] : List (List JsString)), old ∉ b ∧ new ∉ b := by nofun
    exact resolveIn_renameRefsIn hold hbs hpre hdecl hitems
  · obtain ⟨m, hm, rfl⟩ := ident_mem_renameRefsIn hn
    by_cases hmo : m = old
    · rw [hmo, sub_old]
      exact .inl List.mem_cons_self
    · have hmn : m ≠ new := fun h => hitems (h ▸ mem_namesIn_of_ident hm)
      rw [sub_of_ne hmo]
      rw [mem_map_sub hbs hmn] at hb
      exact .inr ⟨hm, hb, fun h => hmo (List.mem_singleton.1 h)⟩

theorem renameAll_spec : ∀ {renamed : List (JsString × JsString)} {bs : List JsString} {items : List ScopedProgram},
    (scope id kind bs items).Declared → Fresh (renamed.map Prod.snd) bs items →
      ∃ bs' items', renameAll renamed (.scope id kind bs items) = .scope id kind bs' items' ∧
        (scope id kind bs' items').Declared ∧ Renamed renamed bs items bs' items'
  | [], bs, items, hdecl, _ => ⟨bs, items, rfl, hdecl, renamed_nil⟩
  | (old, new) :: renamed, bs, items, hdecl, hfresh => by
    obtain ⟨hbs, hitems⟩ := hfresh.2 new List.mem_cons_self
    have hdecl' : ((scope id kind bs items).rename old new).Declared := declared_rename hdecl hitems
    rw [rename] at hdecl'
    rw [renameAll, List.foldl_cons, rename, ← renameAll]
    by_cases hold : old ∈ bs
    · rw [if_pos hold] at hdecl' ⊢
      obtain ⟨bs', items', heq, hdecl'', h⟩ := renameAll_spec hdecl' hfresh.rename
      exact ⟨bs', items', heq, hdecl'', (renamed_rename hdecl.2 hold hbs hitems).trans h⟩
    · have htail : Fresh (renamed.map Prod.snd) bs items :=
        ⟨(List.nodup_cons.1 hfresh.1).2, fun m hm => hfresh.2 m (List.mem_cons_of_mem new hm)⟩
      rw [if_neg hold]
      obtain ⟨bs', items', heq, hdecl'', h⟩ := renameAll_spec hdecl htail
      refine ⟨bs', items', heq, hdecl'', h.arity, h.resolve, h.depth, h.inner, fun n hn hb => ?_⟩
      rcases h.named n hn hb with hnew | ⟨hn₀, hb₀, hr⟩
      · exact .inl (List.mem_cons_of_mem new hnew)
      · have hne : n ≠ old := fun h => hold (h ▸ hb₀)
        exact .inr ⟨hn₀, hb₀, fun h => (List.mem_cons.1 h).elim hne hr⟩

/-- The bindings of a scope that is visited. -/
theorem renameOwn_returns (hgenerate : Function.Injective generate) (hdecl : (scope id kind bs items).Declared)
    (hplain : ∀ b ∈ bs, ¬Generated generate b) :
    ∃ renamed bs' items', Returns (fun fuel => renameOwn generate fuel (.scope id kind bs items))
      (.scope id kind bs' items') ∧
      (scope id kind bs' items').Declared ∧ Renamed renamed bs items bs' items' ∧
        ∀ n, .ident n ∈ items' → n ∈ bs' → Generated generate n := by
  obtain ⟨renamed, hreturns, hfst, hnodup, hnames⟩ :=
    renameOwnBinding_returns hgenerate (ownBinding id bs items) (globalBinding id bs items)
  have hfresh : Fresh (renamed.map Prod.snd) bs items :=
    ⟨hnodup, fun m hm => fresh_of_notMem_global hplain (hnames m hm).2 (hnames m hm).1⟩
  obtain ⟨bs', items', heq, hdecl', h⟩ := renameAll_spec hdecl hfresh
  refine ⟨renamed, bs', items', ?_, hdecl', h, fun n hn hb => ?_⟩
  · rw [← heq]
    exact hreturns.bind (g := fun renamed _ => some (renameAll renamed (.scope id kind bs items))) (Returns.pure _)
  · rcases h.named n hn hb with hnew | ⟨hn₀, hb₀, hr⟩
    · exact (hnames n hnew).2
    · exact absurd (hfst ▸ mem_ownBinding hn₀ hb₀) hr

/-- The step of the traversal at a scope of any kind. -/
theorem enter_returns (hgenerate : Function.Injective generate) (hdecl : (scope id kind bs items).Declared)
    (hplain : kind.visited → ∀ b ∈ bs, ¬Generated generate b) :
    ∃ renamed bs' items', Returns (fun fuel => enter generate fuel (.scope id kind bs items))
      (.scope id kind bs' items') ∧
      (scope id kind bs' items').Declared ∧ Renamed renamed bs items bs' items' ∧
        (kind.visited → ∀ n, .ident n ∈ items' → n ∈ bs' → Generated generate n) := by
  by_cases hvisited : kind.visited
  · simp only [enter, if_pos hvisited]
    obtain ⟨renamed, bs', items', hreturns, hdecl', h, hnamed⟩ := renameOwn_returns hgenerate hdecl (hplain hvisited)
    exact ⟨renamed, bs', items', hreturns, hdecl', h, fun _ => hnamed⟩
  · simp only [enter, if_neg hvisited]
    exact ⟨[], bs, items, Returns.pure _, hdecl, renamed_nil, fun h => absurd h hvisited⟩

end Scope

/-! ## The traversal -/

/-- What the traversal makes of a program. -/
structure Visited (generate : ℕ → JsString) (t t' : ScopedProgram) : Prop where
  resolve : ∀ env, ScopeTree.resolve env t' = ScopeTree.resolve env t
  obfuscated : Obfuscated generate t'
  ident : ∀ n, t' = .ident n → t = .ident n

theorem Visited.forall₂ {ts ts' : List ScopedProgram} (h : List.Forall₂ (Visited generate) ts ts') :
    (∀ env, resolveIn env ts' = resolveIn env ts) ∧
      ForallIn (fun kind bs items => kind.visited → ∀ n, .ident n ∈ items → n ∈ bs → Generated generate n) ts' ∧
        ∀ n, .ident n ∈ ts' → .ident n ∈ ts := by
  induction h with
  | nil => exact ⟨fun _ => rfl, trivial, fun n hn => by cases hn⟩
  | cons h _ ih =>
    refine ⟨fun env => by rw [resolveIn, resolveIn, h.resolve, ih.1], ⟨h.obfuscated, ih.2.1⟩, fun n hn => ?_⟩
    rcases List.mem_cons.1 hn with heq | hn
    · exact List.mem_cons.2 (.inl (h.ident n heq.symm).symm)
    · exact List.mem_cons_of_mem _ (ih.2.2 n hn)

theorem exists_of_declaredIn {P : ScopeKind → List JsString → List ScopedProgram → Prop} :
    ∀ {ts : List ScopedProgram}, DeclaredIn ts → ForallIn P ts →
      ∀ t ∈ ts, t.depth ≤ depthIn ts ∧ t.Declared ∧ t.Forall P
  | t :: ts, hdecl, hforall, t', ht' => by
    rw [depthIn]
    rcases List.mem_cons.1 ht' with rfl | ht'
    · exact ⟨Nat.le_max_left _ _, hdecl.1, hforall.1⟩
    · obtain ⟨hdepth, h⟩ := exists_of_declaredIn hdecl.2 hforall.2 t' ht'
      exact ⟨hdepth.trans (Nat.le_max_right _ _), h⟩

theorem visit_returns (hgenerate : Function.Injective generate) : ∀ (d : ℕ) {t : ScopedProgram}, t.depth ≤ d →
    t.Declared → Plain generate t → ∃ t', Returns (fun fuel => visit generate fuel t) t' ∧ Visited generate t t'
  | _, .ident n, _, _, _ =>
    ⟨.ident n, Returns.call (fun _ => rfl) (Returns.pure _), fun _ => rfl, trivial, fun _ h => h⟩
  | _, .key n, _, _, _ => ⟨.key n, Returns.call (fun _ => rfl) (Returns.pure _), fun _ => rfl, trivial, fun _ h => h⟩
  | 0, .scope _ _ _ _, hdepth, _, _ => by
    rw [depth] at hdepth
    cases hdepth
  | d + 1, .scope id kind bs items, hdepth, hdecl, hplain => by
    rw [depth] at hdepth
    obtain ⟨renamed, bs', items', henter, hdecl', h, hnamed⟩ := enter_returns hgenerate hdecl hplain.1
    have hmem := exists_of_declaredIn hdecl'.2 (h.inner (fun kind bs => kind.visited → ∀ b ∈ bs, ¬Generated generate b)
      hplain.2)
    obtain ⟨items'', hitems, hvisited⟩ := Returns.mapM (f := visit generate) (Q := Visited generate) fun t ht =>
      visit_returns hgenerate d (by have := (hmem t ht).1; have := h.depth; omega) (hmem t ht).2.1 (hmem t ht).2.2
    obtain ⟨hresolve, hobfuscated, hident⟩ := Visited.forall₂ hvisited
    refine ⟨.scope id kind bs' items'', ?_, fun env => ?_,
      ⟨fun hkind n hn hb => ?_, hobfuscated⟩, fun n h => by cases h⟩
    · have hchildren := hitems.bind (g := fun items _ => some (ScopeTree.scope id kind bs' items)) (Returns.pure _)
      exact Returns.call (fun _ => rfl) (henter.bind (g := fun t fuel => children (visit generate fuel) t) hchildren)
    · rw [resolve, resolve, hresolve, h.resolve, h.arity]
    · exact hnamed hkind n (hident n hn) hb

/-- A name of the sequence has only its three letters. -/
theorem not_generated {n : JsString} (hn : ¬n ⊆ text "Oo0") : ¬Generated generatorIdentifier n := by
  rintro ⟨i, rfl⟩
  exact hn (Identifier.legal_generate i).1

/-- The program that is given to the pass:
`const a = 1000; let b = 2000; let obj = { name: 'dali', add: function (a) { .. } }; obj.add(100)` -/
def demoProgram : ScopedProgram :=
  .scope none .program [text "a", text "b", text "obj"]
    [.ident (text "a"), .ident (text "b"), .ident (text "obj"), .key (text "name"), .key (text "add"),
      .scope none .functionExpression [text "a", text "e", text "demo"]
        [.ident (text "a"), .ident (text "a"), .ident (text "b"), .ident (text "e"),
          .scope (some (text "demo")) .functionDeclaration [text "d"] [.ident (text "d")], .ident (text "demo"),
          .ident (text "a"), .ident (text "a"), .ident (text "b"), .ident (text "obj"), .key (text "name")],
      .ident (text "obj"), .key (text "add")]

end RenameIdentifier

end GoodGoodStudy.Confound
