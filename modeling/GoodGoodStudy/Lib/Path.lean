/-
Paths as an operating system resolves them. A path is a list of segments, each of which stays where
it is, goes up to the parent directory, or goes down to a name; a walk follows the segments through
a tree of directories and ends at a list of names from the root.

Without links the end of a walk does not depend on the tree: `resolve` computes it from the
segments. Relative to a directory a path has a normal form, some steps up and then some names, which
decides whether the path ends under a given directory.
-/
import Mathlib.Data.List.Infix

namespace GoodGoodStudy.Lib

inductive Seg (ν : Type*) where
  | here
  | up
  | name (n : ν)

namespace Seg

variable {ν : Type*}

/-- Where the segments lead from a directory. The root is its own parent. -/
def resolve : List ν → List (Seg ν) → List ν
  | dir, [] => dir
  | dir, here :: segs => resolve dir segs
  | dir, up :: segs => resolve dir.dropLast segs
  | dir, name n :: segs => resolve (dir ++ [n]) segs

/-- Follow the segments through a tree: what is left must be a directory, and names must exist. -/
def walk (isDir present : List ν → Bool) : List ν → List (Seg ν) → Option (List ν)
  | dir, [] => some dir
  | dir, seg :: segs =>
    if isDir dir then
      match seg with
      | here => walk isDir present dir segs
      | up => walk isDir present dir.dropLast segs
      | name n => if present (dir ++ [n]) then walk isDir present (dir ++ [n]) segs else none
    else none

theorem resolve_append (dir : List ν) (segs segs' : List (Seg ν)) :
    resolve dir (segs ++ segs') = resolve (resolve dir segs) segs' := by
  induction segs generalizing dir with
  | nil => rfl
  | cons seg segs ih => cases seg <;> exact ih _

theorem resolve_names (dir ns : List ν) : resolve dir (ns.map name) = dir ++ ns := by
  induction ns generalizing dir with
  | nil => simp [resolve]
  | cons n ns ih => simp [resolve, ih]

/-- A walk ends where its segments lead. -/
theorem walk_eq_resolve {isDir present : List ν → Bool} {dir p : List ν} {segs : List (Seg ν)}
    (h : walk isDir present dir segs = some p) : p = resolve dir segs := by
  induction segs generalizing dir with
  | nil => exact (Option.some.inj h).symm
  | cons seg segs ih =>
    simp only [walk] at h
    split at h
    · cases seg with
      | here => exact ih h
      | up => exact ih h
      | name n =>
        simp only at h
        split at h
        · exact ih h
        · cases h
    · cases h

/-! ## The normal form of a relative path -/

/-- The normal form of a path that begins with `ups` steps up and the names `ns`. -/
def normalFrom : Nat → List ν → List (Seg ν) → Nat × List ν
  | ups, ns, [] => (ups, ns)
  | ups, ns, here :: segs => normalFrom ups ns segs
  | ups, [], up :: segs => normalFrom (ups + 1) [] segs
  | ups, n :: ns, up :: segs => normalFrom ups (n :: ns).dropLast segs
  | ups, ns, name n :: segs => normalFrom ups (ns ++ [n]) segs

/-- The steps up and the names that a relative path amounts to. -/
def normal (segs : List (Seg ν)) : Nat × List ν := normalFrom 0 [] segs

theorem resolve_normalFrom (dir : List ν) (segs : List (Seg ν)) (ups : Nat) (ns : List ν) :
    resolve (dir.take (dir.length - ups) ++ ns) segs =
      dir.take (dir.length - (normalFrom ups ns segs).1) ++ (normalFrom ups ns segs).2 := by
  induction segs generalizing ups ns with
  | nil => rfl
  | cons seg segs ih =>
    cases seg with
    | here => exact ih ups ns
    | name n => rw [resolve, List.append_assoc]; exact ih ups (ns ++ [n])
    | up =>
      -- a step up takes back the last name; without names it is one more step up
      cases ns with
      | nil =>
        have h := ih (ups + 1) []
        rw [List.append_nil] at h
        have hk : min (min (dir.length - ups) dir.length - 1) (dir.length - ups) = dir.length - (ups + 1) := by omega
        rw [resolve, List.append_nil, List.dropLast_eq_take, List.length_take, List.take_take, hk]
        exact h
      | cons n ns =>
        rw [resolve, List.dropLast_append_of_ne_nil (by simp)]
        exact ih ups _

/-- A relative path leads up, but not above the root, and then down its names. -/
theorem resolve_normal (dir : List ν) (segs : List (Seg ν)) :
    resolve dir segs = dir.take (dir.length - (normal segs).1) ++ (normal segs).2 := by
  have h := resolve_normalFrom dir segs 0 []
  simpa [normal] using h

/-- From `dir`, a path ends under `dir ++ down` if its names go down again what it went up, and then
`down`. -/
theorem under_iff (dir down : List ν) (segs : List (Seg ν)) :
    dir ++ down <+: resolve dir segs ↔ dir.drop (dir.length - (normal segs).1) ++ down <+: (normal segs).2 := by
  have hdir : dir ++ down = dir.take (dir.length - (normal segs).1) ++
      (dir.drop (dir.length - (normal segs).1) ++ down) := by
    rw [← List.append_assoc, List.take_append_drop]
  rw [resolve_normal, hdir, List.prefix_append_right_inj]

end Seg

end GoodGoodStudy.Lib
