/-
Programs with names as far as scoping sees them: a scope binds names, and an identifier belongs to the innermost scope
around it that binds its name. `resolve` puts the place of the binding for the name, so that two programs with the same
nameless form differ in the names of their bindings only; a renaming of one binding keeps it as long as the new name is
not used inside of the scope.
-/
import Mathlib.Data.List.Basic

namespace GoodGoodStudy.Lib

/-- `ident` is a reference or a declaration of a variable, `key` a name that no scope binds (of a property, say). The
name `id` of a scope belongs to the scope around it. -/
inductive ScopeTree (κ α : Type)
  | ident (name : α)
  | key (name : α)
  | scope (id : Option α) (kind : κ) (bindings : List α) (items : List (ScopeTree κ α))

/-- Where a name is bound: so many scopes further out, at that place of the bindings. -/
inductive Ref (α : Type)
  | bound (level index : ℕ)
  | free (name : α)
  deriving DecidableEq

def Ref.shift {α : Type} : Ref α → Ref α
  | .bound level index => .bound (level + 1) index
  | .free name => .free name

inductive Nameless (κ α : Type)
  | ref (r : Ref α)
  | key (name : α)
  | scope (id : Option (Ref α)) (kind : κ) (arity : ℕ) (items : List (Nameless κ α))

variable {κ α : Type} [DecidableEq α]

namespace ScopeTree

def lookup : List (List α) → α → Ref α
  | [], n => .free n
  | bs :: env, n => if n ∈ bs then .bound 0 (bs.idxOf n) else (lookup env n).shift

mutual
def resolve (env : List (List α)) : ScopeTree κ α → Nameless κ α
  | ident n => .ref (lookup env n)
  | key n => .key n
  | scope id kind bs items => .scope (id.map (lookup env)) kind bs.length (resolveIn (bs :: env) items)

def resolveIn (env : List (List α)) : List (ScopeTree κ α) → List (Nameless κ α)
  | [] => []
  | t :: ts => resolve env t :: resolveIn env ts
end

mutual
/-- The nesting of the scopes. -/
def depth : ScopeTree κ α → ℕ
  | ident _ => 0
  | key _ => 0
  | scope _ _ _ items => depthIn items + 1

def depthIn : List (ScopeTree κ α) → ℕ
  | [] => 0
  | t :: ts => max t.depth (depthIn ts)
end

mutual
/-- What holds of every scope. -/
def Forall (P : κ → List α → List (ScopeTree κ α) → Prop) : ScopeTree κ α → Prop
  | ident _ => True
  | key _ => True
  | scope _ kind bs items => P kind bs items ∧ ForallIn P items

def ForallIn (P : κ → List α → List (ScopeTree κ α) → Prop) : List (ScopeTree κ α) → Prop
  | [] => True
  | t :: ts => t.Forall P ∧ ForallIn P ts
end

mutual
/-- All variables, bound or free. -/
def names : ScopeTree κ α → List α
  | ident n => [n]
  | key _ => []
  | scope id _ _ items => id.toList ++ namesIn items

def namesIn : List (ScopeTree κ α) → List α
  | [] => []
  | t :: ts => t.names ++ namesIn ts
end

mutual
/-- The variables that belong to a scope further out. -/
def free : ScopeTree κ α → List α
  | ident n => [n]
  | key _ => []
  | scope id _ bs items => id.toList ++ (freeIn items).filter (· ∉ bs)

def freeIn : List (ScopeTree κ α) → List α
  | [] => []
  | t :: ts => t.free ++ freeIn ts
end

mutual
/-- Every binding has its declaration in the scope. -/
def Declared : ScopeTree κ α → Prop
  | ident _ => True
  | key _ => True
  | scope _ _ bs items => (∀ b ∈ bs, b ∈ freeIn items) ∧ DeclaredIn items

def DeclaredIn : List (ScopeTree κ α) → Prop
  | [] => True
  | t :: ts => t.Declared ∧ DeclaredIn ts
end

def sub (old new n : α) : α := if n = old then new else n

mutual
/-- The variables that belong to a binding `old` further out get the name `new`. -/
def renameRefs (old new : α) : ScopeTree κ α → ScopeTree κ α
  | ident n => ident (sub old new n)
  | key n => key n
  | scope id kind bs items =>
    scope (id.map (sub old new)) kind bs (if old ∈ bs then items else renameRefsIn old new items)

def renameRefsIn (old new : α) : List (ScopeTree κ α) → List (ScopeTree κ α)
  | [] => []
  | t :: ts => t.renameRefs old new :: renameRefsIn old new ts
end

/-- The binding `old` of the scope, with all that belongs to it. -/
def rename (old new : α) : ScopeTree κ α → ScopeTree κ α
  | scope id kind bs items =>
    if old ∈ bs then scope id kind (bs.map (sub old new)) (renameRefsIn old new items) else scope id kind bs items
  | t => t

/-! ## What names a renaming leaves -/

section Names

variable {old new : α}

theorem sub_old : sub old new old = new := if_pos rfl

theorem sub_of_ne {n : α} (h : n ≠ old) : sub old new n = n := if_neg h

mutual
theorem mem_names_of_free {n : α} : ∀ {t : ScopeTree κ α}, n ∈ t.free → n ∈ t.names
  | ident _, h => h
  | key _, h => h
  | scope id _ bs items, h => by
    rw [free, List.mem_append, List.mem_filter] at h
    rw [names, List.mem_append]
    exact h.imp_right fun h => mem_namesIn_of_freeIn h.1

theorem mem_namesIn_of_freeIn {n : α} : ∀ {ts : List (ScopeTree κ α)}, n ∈ freeIn ts → n ∈ namesIn ts
  | [], h => h
  | t :: ts, h => by
    rw [freeIn, List.mem_append] at h
    rw [namesIn, List.mem_append]
    exact h.imp mem_names_of_free mem_namesIn_of_freeIn
end

theorem mem_option_map_sub {id : Option α} {n : α} (h : n ∈ (id.map (sub old new)).toList) :
    n ∈ id.toList ∨ n = new := by
  cases id with
  | none => cases h
  | some m =>
    rw [Option.map_some, Option.toList_some, List.mem_singleton] at h
    by_cases hm : m = old
    · rw [hm, sub_old] at h
      exact .inr h
    · rw [sub_of_ne hm] at h
      exact .inl (List.mem_singleton.2 h)

mutual
theorem mem_names_renameRefs {n : α} : ∀ {t : ScopeTree κ α}, n ∈ (t.renameRefs old new).names → n ∈ t.names ∨ n = new
  | ident m, h => by
    rw [renameRefs, names, List.mem_singleton] at h
    by_cases hm : m = old
    · rw [hm, sub_old] at h
      exact .inr h
    · rw [sub_of_ne hm] at h
      exact .inl (List.mem_singleton.2 h)
  | key _, h => .inl h
  | scope id _ bs items, h => by
    rw [renameRefs, names, List.mem_append] at h
    rw [names, List.mem_append]
    rcases h with h | h
    · exact (mem_option_map_sub h).imp_left .inl
    · split_ifs at h with hold
      · exact .inl (.inr h)
      · exact (mem_namesIn_renameRefsIn h).imp_left .inr

theorem mem_namesIn_renameRefsIn {n : α} :
    ∀ {ts : List (ScopeTree κ α)}, n ∈ namesIn (renameRefsIn old new ts) → n ∈ namesIn ts ∨ n = new
  | [], h => .inl h
  | t :: ts, h => by
    rw [renameRefsIn, namesIn, List.mem_append] at h
    rw [namesIn, List.mem_append]
    rcases h with h | h
    · exact (mem_names_renameRefs h).imp_left .inl
    · exact (mem_namesIn_renameRefsIn h).imp_left .inr
end

mutual
theorem depth_renameRefs : ∀ t : ScopeTree κ α, (t.renameRefs old new).depth = t.depth
  | ident _ => rfl
  | key _ => rfl
  | scope _ _ bs items => by
    rw [renameRefs, depth, depth]
    split_ifs with hold
    · rfl
    · rw [depthIn_renameRefsIn items]

theorem depthIn_renameRefsIn : ∀ ts : List (ScopeTree κ α), depthIn (renameRefsIn old new ts) = depthIn ts
  | [] => rfl
  | t :: ts => by rw [renameRefsIn, depthIn, depthIn, depth_renameRefs t, depthIn_renameRefsIn ts]
end

mutual
/-- The bindings of the scopes further in stay as they are. -/
theorem forall_renameRefs {P : κ → List α → Prop} :
    ∀ {t : ScopeTree κ α}, t.Forall (fun kind bs _ => P kind bs) →
      (t.renameRefs old new).Forall fun kind bs _ => P kind bs
  | ident _, _ => trivial
  | key _, _ => trivial
  | scope _ _ bs items, h => by
    rw [Forall] at h
    rw [renameRefs]
    split_ifs with hold
    · exact h
    · exact ⟨h.1, forallIn_renameRefsIn h.2⟩

theorem forallIn_renameRefsIn {P : κ → List α → Prop} :
    ∀ {ts : List (ScopeTree κ α)}, ForallIn (fun kind bs _ => P kind bs) ts →
      ForallIn (fun kind bs _ => P kind bs) (renameRefsIn old new ts)
  | [], _ => trivial
  | t :: ts, h => by
    rw [ForallIn] at h
    exact ⟨forall_renameRefs h.1, forallIn_renameRefsIn h.2⟩
end

/-! ## Where names are found -/

mutual
/-- Only what is looked up counts. -/
theorem resolve_congr {env env' : List (List α)} :
    ∀ {t : ScopeTree κ α}, (∀ n ∈ t.names, lookup env n = lookup env' n) → resolve env t = resolve env' t
  | ident n, h => by rw [resolve, resolve, h n (List.mem_singleton_self n)]
  | key _, _ => rfl
  | scope id kind bs items, h => by
    have hid : id.map (lookup env) = id.map (lookup env') := by
      cases id with
      | none => rfl
      | some m => rw [Option.map_some, Option.map_some, h m (by simp [names])]
    have hitems : resolveIn (bs :: env) items = resolveIn (bs :: env') items := by
      apply resolveIn_congr
      intro n hn
      rw [lookup, lookup, h n (List.mem_append_right _ hn)]
    rw [resolve, resolve, hid, hitems]

theorem resolveIn_congr {env env' : List (List α)} : ∀ {ts : List (ScopeTree κ α)},
    (∀ n ∈ namesIn ts, lookup env n = lookup env' n) → resolveIn env ts = resolveIn env' ts
  | [], _ => rfl
  | t :: ts, h => by
    rw [resolveIn, resolveIn, resolve_congr fun n hn => h n (List.mem_append_left _ hn),
      resolveIn_congr fun n hn => h n (List.mem_append_right _ hn)]
end

theorem sub_inj {m n : α} (hm : m ≠ new) (hn : n ≠ new) : sub old new m = sub old new n ↔ m = n := by
  unfold sub
  split_ifs with h₁ h₂ h₂
  · exact ⟨fun _ => h₁.trans h₂.symm, fun _ => rfl⟩
  · exact iff_of_false hn.symm fun h => h₂ (h ▸ h₁)
  · exact iff_of_false hm fun h => h₁ (h ▸ h₂)
  · rfl

/-- A list that has neither name. -/
theorem sub_mem_iff {bs : List α} {n : α} (hold : old ∉ bs) (hnew : new ∉ bs) : sub old new n ∈ bs ↔ n ∈ bs := by
  by_cases h : n = old
  · rw [h, sub_old]
    exact iff_of_false hnew hold
  · rw [sub_of_ne h]

theorem map_sub_of_notMem {bs : List α} (hold : old ∉ bs) : bs.map (sub old new) = bs := by
  refine (List.map_congr_left fun n hn => ?_).trans bs.map_id
  exact sub_of_ne fun h => hold (h ▸ hn)

theorem mem_map_sub {bs : List α} {n : α} (hnew : new ∉ bs) (hn : n ≠ new) :
    sub old new n ∈ bs.map (sub old new) ↔ n ∈ bs := by
  refine ⟨fun h => ?_, List.mem_map_of_mem⟩
  obtain ⟨m, hm, heq⟩ := List.mem_map.1 h
  have hmn : m ≠ new := fun h => hnew (h ▸ hm)
  exact (sub_inj hmn hn).1 heq ▸ hm

theorem idxOf_map_sub {n : α} (hn : n ≠ new) :
    ∀ {bs : List α}, new ∉ bs → (bs.map (sub old new)).idxOf (sub old new n) = bs.idxOf n
  | [], _ => rfl
  | b :: bs, hnew => by
    obtain ⟨hb, hbs⟩ := not_or.1 (mt List.mem_cons.2 hnew)
    have hsub : sub old new b = sub old new n ↔ b = n := sub_inj (Ne.symm hb) hn
    rw [List.map_cons, List.idxOf_cons, List.idxOf_cons, idxOf_map_sub hn hbs]
    simp only [beq_iff_eq, hsub, Bool.cond_eq_ite]

/-- The scopes between a reference and its binding know neither name. -/
theorem lookup_sub {bs : List α} {env : List (List α)} {n : α} (hold : old ∈ bs) (hnew : new ∉ bs) (hn : n ≠ new) :
    ∀ {pre : List (List α)}, (∀ b ∈ pre, old ∉ b ∧ new ∉ b) →
      lookup (pre ++ bs.map (sub old new) :: env) (sub old new n) = lookup (pre ++ bs :: env) n
  | [], _ => by
    rw [List.nil_append, List.nil_append, lookup, lookup, idxOf_map_sub hn hnew]
    by_cases hmem : n ∈ bs
    · rw [if_pos ((mem_map_sub hnew hn).2 hmem), if_pos hmem]
    · have hne : n ≠ old := fun h => hmem (h ▸ hold)
      rw [if_neg (mt (mem_map_sub hnew hn).1 hmem), if_neg hmem, sub_of_ne hne]
  | b :: pre, hpre => by
    obtain ⟨hb, hpre⟩ := List.forall_mem_cons.1 hpre
    have hmem : sub old new n ∈ b ↔ n ∈ b := sub_mem_iff hb.1 hb.2
    have hidx : sub old new n ∈ b → b.idxOf (sub old new n) = b.idxOf n := fun h => by
      have hne : n ≠ old := fun heq => hb.1 (heq ▸ hmem.1 h)
      rw [sub_of_ne hne]
    rw [List.cons_append, List.cons_append, lookup, lookup, lookup_sub hold hnew hn hpre]
    by_cases h : n ∈ b
    · rw [if_pos (hmem.2 h), if_pos h, hidx (hmem.2 h)]
    · rw [if_neg (mt hmem.1 h), if_neg h]

/-- Below a scope that binds the old name as well, nothing belongs to the binding. -/
theorem lookup_shadowed {bs shadow : List α} {env pre : List (List α)} {n : α} (hold : old ∈ bs) (hnew : new ∉ bs)
    (hn : n ≠ new) (hpre : ∀ b ∈ pre, old ∉ b ∧ new ∉ b) (hshadow : old ∈ shadow) :
    lookup (shadow :: (pre ++ bs.map (sub old new) :: env)) n = lookup (shadow :: (pre ++ bs :: env)) n := by
  rw [lookup, lookup]
  split_ifs with hmem
  · rfl
  · have hne : n ≠ old := fun h => hmem (h ▸ hshadow)
    have hsub : lookup (pre ++ bs.map (sub old new) :: env) (sub old new n) = lookup (pre ++ bs :: env) n :=
      lookup_sub hold hnew hn hpre
    rw [sub_of_ne hne] at hsub
    rw [hsub]

/-! ## A renaming keeps the nameless form -/

mutual
theorem resolve_renameRefs {bs : List α} {env : List (List α)} (hold : old ∈ bs) (hnew : new ∉ bs) :
    ∀ {t : ScopeTree κ α} {pre : List (List α)}, (∀ b ∈ pre, old ∉ b ∧ new ∉ b) → t.Declared → new ∉ t.names →
      resolve (pre ++ bs.map (sub old new) :: env) (t.renameRefs old new) = resolve (pre ++ bs :: env) t
  | ident n, pre, hpre, _, hn => by
    have hne : n ≠ new := fun h => hn (h ▸ List.mem_singleton_self n)
    rw [renameRefs, resolve, resolve, lookup_sub hold hnew hne hpre]
  | key _, _, _, _, _ => rfl
  | scope id kind inner items, pre, hpre, hdecl, hn => by
    rw [Declared] at hdecl
    rw [names, List.mem_append, not_or] at hn
    have hid : (id.map (sub old new)).map (lookup (pre ++ bs.map (sub old new) :: env)) =
        id.map (lookup (pre ++ bs :: env)) := by
      cases id with
      | none => rfl
      | some m =>
        have hne : m ≠ new := fun h => hn.1 (h ▸ by simp)
        rw [Option.map_some, Option.map_some, Option.map_some, lookup_sub hold hnew hne hpre]
    rw [renameRefs, resolve, resolve, hid]
    split_ifs with hshadow
    · rw [resolveIn_congr fun n hmem => lookup_shadowed hold hnew (fun h => hn.2 (h ▸ hmem)) hpre hshadow]
    · -- the new name is not bound here either, since it would be declared here
      have hinner : new ∉ inner := fun h => hn.2 (mem_namesIn_of_freeIn (hdecl.1 new h))
      have hpre' : ∀ b ∈ inner :: pre, old ∉ b ∧ new ∉ b := List.forall_mem_cons.2 ⟨⟨hshadow, hinner⟩, hpre⟩
      rw [← List.cons_append, ← List.cons_append, resolveIn_renameRefsIn hold hnew hpre' hdecl.2 hn.2]

theorem resolveIn_renameRefsIn {bs : List α} {env : List (List α)} (hold : old ∈ bs) (hnew : new ∉ bs) :
    ∀ {ts : List (ScopeTree κ α)} {pre : List (List α)}, (∀ b ∈ pre, old ∉ b ∧ new ∉ b) → DeclaredIn ts →
      new ∉ namesIn ts →
        resolveIn (pre ++ bs.map (sub old new) :: env) (renameRefsIn old new ts) = resolveIn (pre ++ bs :: env) ts
  | [], _, _, _, _ => rfl
  | t :: ts, pre, hpre, hdecl, hn => by
    rw [DeclaredIn] at hdecl
    rw [namesIn, List.mem_append, not_or] at hn
    rw [renameRefsIn, resolveIn, resolveIn, resolve_renameRefs hold hnew hpre hdecl.1 hn.1,
      resolveIn_renameRefsIn hold hnew hpre hdecl.2 hn.2]
end

mutual
theorem free_renameRefs : ∀ {t : ScopeTree κ α}, t.Declared → new ∉ t.names →
    (t.renameRefs old new).free = t.free.map (sub old new)
  | ident _, _, _ => rfl
  | key _, _, _ => rfl
  | scope id kind inner items, hdecl, hn => by
    rw [Declared] at hdecl
    rw [names, List.mem_append, not_or] at hn
    have hid : (id.map (sub old new)).toList = id.toList.map (sub old new) := by cases id <;> rfl
    rw [renameRefs, free, free, List.map_append, hid]
    congr 1
    split_ifs with hshadow
    · apply Eq.symm
      apply map_sub_of_notMem
      intro h
      exact of_decide_eq_true (List.mem_filter.1 h).2 hshadow
    · have hinner : new ∉ inner := fun h => hn.2 (mem_namesIn_of_freeIn (hdecl.1 new h))
      rw [freeIn_renameRefsIn hdecl.2 hn.2, List.filter_map]
      congr 1
      apply List.filter_congr
      intro n _
      exact decide_eq_decide.2 (not_congr (sub_mem_iff hshadow hinner))

theorem freeIn_renameRefsIn : ∀ {ts : List (ScopeTree κ α)}, DeclaredIn ts → new ∉ namesIn ts →
    freeIn (renameRefsIn old new ts) = (freeIn ts).map (sub old new)
  | [], _, _ => rfl
  | t :: ts, hdecl, hn => by
    rw [DeclaredIn] at hdecl
    rw [namesIn, List.mem_append, not_or] at hn
    rw [renameRefsIn, freeIn, freeIn, List.map_append, free_renameRefs hdecl.1 hn.1, freeIn_renameRefsIn hdecl.2 hn.2]
end

mutual
theorem declared_renameRefs : ∀ {t : ScopeTree κ α}, t.Declared → new ∉ t.names → (t.renameRefs old new).Declared
  | ident _, _, _ => trivial
  | key _, _, _ => trivial
  | scope id kind inner items, hdecl, hn => by
    rw [Declared] at hdecl
    rw [names, List.mem_append, not_or] at hn
    rw [renameRefs]
    split_ifs with hshadow
    · exact hdecl
    · refine ⟨fun b hb => ?_, declaredIn_renameRefsIn hdecl.2 hn.2⟩
      have hne : b ≠ old := fun h => hshadow (h ▸ hb)
      rw [freeIn_renameRefsIn hdecl.2 hn.2, ← sub_of_ne hne]
      exact List.mem_map_of_mem (hdecl.1 b hb)

theorem declaredIn_renameRefsIn :
    ∀ {ts : List (ScopeTree κ α)}, DeclaredIn ts → new ∉ namesIn ts → DeclaredIn (renameRefsIn old new ts)
  | [], _, _ => trivial
  | t :: ts, hdecl, hn => by
    rw [DeclaredIn] at hdecl
    rw [namesIn, List.mem_append, not_or] at hn
    rw [renameRefsIn, DeclaredIn]
    exact ⟨declared_renameRefs hdecl.1 hn.1, declaredIn_renameRefsIn hdecl.2 hn.2⟩
end

/-! ### The renaming of a scope -/

variable {id : Option α} {kind : κ} {bs : List α} {items : List (ScopeTree κ α)}

theorem resolve_rename (env : List (List α)) (hdecl : (scope id kind bs items).Declared) (hbs : new ∉ bs)
    (hitems : new ∉ namesIn items) :
    resolve env ((scope id kind bs items).rename old new) = resolve env (scope id kind bs items) := by
  rw [Declared] at hdecl
  rw [rename]
  split_ifs with hold
  · have hbody : resolveIn ([] ++ bs.map (sub old new) :: env) (renameRefsIn old new items) =
        resolveIn ([] ++ bs :: env) items := resolveIn_renameRefsIn hold hbs (by nofun) hdecl.2 hitems
    rw [List.nil_append, List.nil_append] at hbody
    rw [resolve, resolve, List.length_map, hbody]
  · rfl

theorem declared_rename (hdecl : (scope id kind bs items).Declared) (hitems : new ∉ namesIn items) :
    ((scope id kind bs items).rename old new).Declared := by
  rw [rename]
  split_ifs with hold
  · rw [Declared] at hdecl ⊢
    refine ⟨fun b hb => ?_, declaredIn_renameRefsIn hdecl.2 hitems⟩
    obtain ⟨b', hb', rfl⟩ := List.mem_map.1 hb
    rw [freeIn_renameRefsIn hdecl.2 hitems]
    exact List.mem_map_of_mem (hdecl.1 b' hb')
  · exact hdecl

end Names

end ScopeTree

end GoodGoodStudy.Lib
