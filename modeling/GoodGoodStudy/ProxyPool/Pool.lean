/-
The proxy pool: one process tests the proxies, one adds crawled ones, and the requests of the web server read them.
They share a sorted set of scores in Redis and work on it with single commands, which may come in any order; `add`
and `decrease` are several commands. No order makes `decrease` fail or leaves a score outside of the range, a score
that a test has set may be overwritten by an `add` that is under way, and a proxy that has passed a test stays in the
pool for the next nine failures all the same.
-/
import GoodGoodStudy.Lib.Dict
import GoodGoodStudy.Lib.Run

namespace GoodGoodStudy.ProxyPool

open GoodGoodStudy.Lib

/-! ## The commands -/

/-- `PROXY_SCORE_MAX` -/
def scoreMax : ℤ := 100

/-- `PROXY_SCORE_MIN` -/
def scoreMin : ℤ := 0

/-- `PROXY_SCORE_INIT` -/
def scoreInit : ℤ := 10

variable {κ : Type} [DecidableEq κ]

/-- `zincrby(REDIS_KEY, -1, p)`; a member that is not there counts as zero. -/
def zdecr (db : Dict κ ℤ) (p : κ) : Dict κ ℤ := db.set p ((db.get? p).getD 0 - 1)

/-- `zrangebyscore(REDIS_KEY, lo, hi)`, without the order. -/
def zrangebyscore (db : Dict κ ℤ) (lo hi : ℤ) : List κ :=
  (db.items.filter fun m => lo ≤ m.2 ∧ m.2 ≤ hi).map Prod.fst

/-- `zrevrange(REDIS_KEY, first, last)`: the places in the order of falling scores, the last one included. -/
def zrevrange (db : Dict κ ℤ) (first last : Nat) : List κ :=
  (((db.items.mergeSort fun m n => n.2 ≤ m.2).drop first).take (last + 1 - first)).map Prod.fst

/-- `all` -/
def all (db : Dict κ ℤ) : List κ := zrangebyscore db scoreMin scoreMax

/-- `random`: the proxies of which `choice` takes one; if there are none, a `PoolEmptyException`. The set is read twice,
and may be another one the second time; `PROXY_SCORE_MIN` and `PROXY_SCORE_MAX` are places there. -/
def random (first second : Dict κ ℤ) : List κ :=
  let proxies := zrangebyscore first scoreMax scoreMax
  if proxies.isEmpty then zrevrange second scoreMin.toNat scoreMax.toNat else proxies

/-! ## The processes -/

/-- The tester in `max` or `decrease`: before a test, or in `decrease` behind `zincrby`, or behind `zscore`. -/
inductive Tester (κ : Type)
  | idle
  | decreased (p : κ)
  | scored (p : κ) (score : ℤ)
  /-- `score <= PROXY_SCORE_MIN` with `None` for the score -/
  | typeError
  deriving DecidableEq

/-- The getter before an `add`, or in one behind an `exists` that was false. -/
inductive Getter (κ : Type)
  | idle
  | missing (p : κ)
  deriving DecidableEq

structure State (κ : Type) where
  db : Dict κ ℤ
  tester : Tester κ
  getter : Getter κ

/-- The next command of a process. A test ends with `max` or begins a `decrease`; of which proxies, the crawlers and the
network decide. -/
inductive Command (κ : Type)
  | testValid (p : κ)
  | testInvalid (p : κ)
  | zscore
  | zrem
  /-- `exists`, at the beginning of an `add` -/
  | checkExists (p : κ)
  | zadd
  deriving DecidableEq

def step (s : State κ) : Command κ → Option (State κ)
  | .testValid p =>
    match s.tester with
    | .idle => some { s with db := s.db.set p scoreMax }
    | _ => none
  | .testInvalid p =>
    match s.tester with
    | .idle => some { s with db := zdecr s.db p, tester := .decreased p }
    | _ => none
  | .zscore =>
    match s.tester with
    | .decreased p =>
      match s.db.get? p with
      | some score => some { s with tester := if score ≤ scoreMin then .scored p score else .idle }
      | none => some { s with tester := .typeError }
    | _ => none
  | .zrem =>
    match s.tester with
    | .scored p _ => some { s with db := s.db.erase p, tester := .idle }
    | _ => none
  | .checkExists p =>
    match s.getter with
    | .idle => some { s with getter := if (s.db.get? p).isSome then .idle else .missing p }
    | _ => none
  | .zadd =>
    match s.getter with
    | .missing p => some { s with db := s.db.set p scoreInit, getter := .idle }
    | _ => none

/-- What a command can do. -/
theorem step_cases {s s' : State κ} {c : Command κ} (h : step s c = some s') :
    (∃ p, c = .testValid p ∧ s.tester = .idle ∧ s' = { s with db := s.db.set p scoreMax }) ∨
    (∃ p, c = .testInvalid p ∧ s.tester = .idle ∧ s' = { s with db := zdecr s.db p, tester := .decreased p }) ∨
    (∃ p, c = .zscore ∧ s.tester = .decreased p ∧
      ((∃ score, s.db.get? p = some score ∧
        s' = { s with tester := if score ≤ scoreMin then .scored p score else .idle }) ∨
      (s.db.get? p = none ∧ s' = { s with tester := .typeError }))) ∨
    (∃ p score, c = .zrem ∧ s.tester = .scored p score ∧ s' = { s with db := s.db.erase p, tester := .idle }) ∨
    (∃ p, c = .checkExists p ∧ s.getter = .idle ∧
      s' = { s with getter := if (s.db.get? p).isSome then .idle else .missing p }) ∨
    (∃ p, c = .zadd ∧ s.getter = .missing p ∧ s' = { s with db := s.db.set p scoreInit, getter := .idle }) := by
  cases c with
  | testValid p =>
    simp only [step] at h
    split at h
    · rename_i ht
      exact .inl ⟨p, rfl, ht, (Option.some.inj h).symm⟩
    · cases h
  | testInvalid p =>
    simp only [step] at h
    split at h
    · rename_i ht
      exact .inr (.inl ⟨p, rfl, ht, (Option.some.inj h).symm⟩)
    · cases h
  | zscore =>
    simp only [step] at h
    split at h
    · rename_i p ht
      refine .inr (.inr (.inl ⟨p, rfl, ht, ?_⟩))
      split at h
      · rename_i score hp
        exact .inl ⟨score, hp, (Option.some.inj h).symm⟩
      · rename_i hp
        exact .inr ⟨hp, (Option.some.inj h).symm⟩
    · cases h
  | zrem =>
    simp only [step] at h
    split at h
    · rename_i p score ht
      exact .inr (.inr (.inr (.inl ⟨p, score, rfl, ht, (Option.some.inj h).symm⟩)))
    · cases h
  | checkExists p =>
    simp only [step] at h
    split at h
    · rename_i hg
      exact .inr (.inr (.inr (.inr (.inl ⟨p, rfl, hg, (Option.some.inj h).symm⟩))))
    · cases h
  | zadd =>
    simp only [step] at h
    split at h
    · rename_i p hg
      exact .inr (.inr (.inr (.inr (.inr ⟨p, rfl, hg, (Option.some.inj h).symm⟩))))
    · cases h

/-! ## Every order of commands -/

/-- The proxy of the `decrease` that is under way. -/
def Tester.proxy : Tester κ → Option κ
  | .decreased p => some p
  | .scored p _ => some p
  | _ => none

/-- Scores are in the range, but for the proxy whose score is being decreased, which is there. -/
structure Sound (s : State κ) : Prop where
  noError : s.tester ≠ .typeError
  scores : ∀ p v, s.db.get? p = some v → v ≤ scoreMax ∧ (scoreMin < v ∨ s.tester.proxy = some p ∧ -1 ≤ v)
  there : ∀ p, s.tester.proxy = some p → (s.db.get? p).isSome

/-- A proxy that is no longer, or not yet, being decreased has a score in the range. -/
theorem Sound.inRange {s : State κ} (hs : Sound s) {p : κ} {v : ℤ} (hp : s.tester.proxy ≠ some p)
    (hv : s.db.get? p = some v) : scoreMin < v ∧ v ≤ scoreMax := by
  obtain ⟨hmax, hmin | ⟨hat, -⟩⟩ := hs.scores p v hv
  · exact ⟨hmin, hmax⟩
  · exact absurd hat hp

/-- A score in the range is set. -/
theorem scores_set {s : State κ} (hs : Sound s) (p : κ) {w : ℤ} (hmin : scoreMin < w) (hmax : w ≤ scoreMax) :
    ∀ q v, (s.db.set p w).get? q = some v → v ≤ scoreMax ∧ (scoreMin < v ∨ s.tester.proxy = some q ∧ -1 ≤ v) := by
  intro q v hv
  rw [Dict.get?_set] at hv
  split_ifs at hv with hq
  · obtain rfl := Option.some.inj hv
    exact ⟨hmax, .inl hmin⟩
  · exact hs.scores q v hv

theorem isSome_set {s : State κ} (hs : Sound s) (p : κ) (w : ℤ) :
    ∀ q, s.tester.proxy = some q → ((s.db.set p w).get? q).isSome := by
  intro q hq
  rw [Dict.get?_set]
  split_ifs
  · rfl
  · exact hs.there q hq

/-- Nothing was being decreased, so that the score was in the range, if there was one. -/
theorem sound_testInvalid {s : State κ} (hs : Sound s) {p : κ} (ht : s.tester = .idle) :
    Sound { s with db := zdecr s.db p, tester := .decreased p } := by
  have hne : ∀ q, s.tester.proxy ≠ some q := by
    rw [ht]
    exact fun _ hnone => by cases hnone
  refine ⟨fun herror => (by cases herror), fun q v hv => ?_, fun q hq => ?_⟩
  · rw [zdecr, Dict.get?_set] at hv
    split_ifs at hv with hq
    · subst hq
      obtain rfl := Option.some.inj hv
      cases hget : s.db.get? q with
      | none => exact ⟨by decide, .inr ⟨rfl, by decide⟩⟩
      | some w =>
        obtain ⟨hmin, hmax⟩ := hs.inRange (hne q) hget
        unfold scoreMin at hmin
        unfold scoreMax at hmax ⊢
        exact ⟨by simp only [Option.getD_some]; omega, .inr ⟨rfl, by simp only [Option.getD_some]; omega⟩⟩
    · obtain ⟨hmin, hmax⟩ := hs.inRange (hne q) hv
      exact ⟨hmax, .inl hmin⟩
  · obtain rfl : p = q := Option.some.inj hq
    rw [zdecr, Dict.get?_set, if_pos rfl]
    rfl

theorem sound_zscore {s : State κ} (hs : Sound s) {p : κ} {score : ℤ} (hproxy : s.tester.proxy = some p)
    (hp : s.db.get? p = some score) :
    Sound { s with tester := if score ≤ scoreMin then .scored p score else .idle } := by
  split_ifs with hmin
  · have hsame : ∀ q, (Tester.scored p score).proxy = some q ↔ s.tester.proxy = some q := by
      rw [hproxy]
      exact fun _ => Iff.rfl
    refine ⟨fun herror => (by cases herror), fun q v hv => ?_, fun q hq => hs.there q ((hsame q).1 hq)⟩
    obtain ⟨hmax, hrange⟩ := hs.scores q v hv
    exact ⟨hmax, hrange.imp_right fun hat => ⟨(hsame q).2 hat.1, hat.2⟩⟩
  · -- the score is in the range, and the call returns
    refine ⟨fun herror => (by cases herror), fun q v hv => ⟨(hs.scores q v hv).1, .inl ?_⟩, fun q hq => by cases hq⟩
    by_cases hq : p = q
    · subst hq
      obtain rfl := Option.some.inj (hp.symm.trans hv)
      omega
    · refine (hs.inRange (fun hat => hq ?_) hv).1
      exact Option.some.inj (hproxy.symm.trans hat)

theorem sound_zrem {s : State κ} (hs : Sound s) {p : κ} (hproxy : s.tester.proxy = some p) :
    Sound { s with db := s.db.erase p, tester := .idle } := by
  refine ⟨fun herror => (by cases herror), fun q v hv => ?_, fun q hq => by cases hq⟩
  rw [Dict.get?_erase] at hv
  split_ifs at hv with hq
  obtain ⟨hmin, hmax⟩ := hs.inRange (fun hat => hq (Option.some.inj (hat.symm.trans hproxy))) hv
  exact ⟨hmax, .inl hmin⟩

theorem sound_step {s s' : State κ} {c : Command κ} (hs : Sound s) (h : step s c = some s') : Sound s' := by
  obtain ⟨p, -, ht, rfl⟩ | ⟨p, -, ht, rfl⟩ | ⟨p, -, ht, hread⟩ | ⟨p, score, -, ht, rfl⟩ | ⟨p, -, -, rfl⟩ |
    ⟨p, -, -, rfl⟩ := step_cases h
  · exact ⟨hs.noError, scores_set hs p (by decide) (by decide), isSome_set hs p _⟩
  · exact sound_testInvalid hs ht
  · have hproxy : s.tester.proxy = some p := by
      rw [ht]
      rfl
    rcases hread with ⟨score, hp, rfl⟩ | ⟨hp, -⟩
    · exact sound_zscore hs hproxy hp
    · -- the score is there as long as it is being decreased
      have hthere := hs.there p hproxy
      rw [hp] at hthere
      cases hthere
  · apply sound_zrem hs
    rw [ht]
    rfl
  · exact ⟨hs.noError, hs.scores, hs.there⟩
  · exact ⟨hs.noError, scores_set hs p (by decide) (by decide), isSome_set hs p _⟩

theorem all_eq_keys {db : Dict κ ℤ} (h : ∀ p v, db.get? p = some v → scoreMin ≤ v ∧ v ≤ scoreMax) :
    all db = db.keys := by
  unfold all zrangebyscore
  rw [List.filter_eq_self.2 fun m hm => decide_eq_true (h m.1 m.2 (Dict.get?_eq_some.2 hm))]
  rfl

omit [DecidableEq κ] in
theorem random_eq_nil {first second : Dict κ ℤ} (h : random first second = []) : second.keys = [] := by
  unfold random at h
  simp only at h
  split_ifs at h with hfirst
  · have hsorted := List.map_eq_nil_iff.1 h
    rw [List.take_eq_nil_iff] at hsorted
    have hnil : (second.items.mergeSort fun m n => n.2 ≤ m.2) = [] := hsorted.resolve_left (by decide)
    have hlen := congrArg List.length hnil
    rw [List.length_mergeSort] at hlen
    unfold Dict.keys
    rw [List.eq_nil_of_length_eq_zero hlen]
    rfl
  · rw [h] at hfirst
    exact absurd rfl hfirst

/-- The proxy is there with at least this score, and no `decrease` is about to remove it. -/
structure Keeps (p : κ) (n : ℤ) (s : State κ) : Prop where
  score : ∃ v, s.db.get? p = some v ∧ n ≤ v
  notRemoved : ∀ v, s.tester ≠ .scored p v

/-- An `add` of the proxy ends. -/
def Adds (p : κ) (s : State κ) (c : Command κ) : Prop := c = .zadd ∧ s.getter = .missing p

theorem get?_set_of_ne {db : Dict κ ℤ} {p q : κ} (h : p ≠ q) (v : ℤ) : (db.set q v).get? p = db.get? p := by
  rw [Dict.get?_set, if_neg h]

/-- A command leaves the score, or sets it, or takes one off. -/
theorem keeps_step {p : κ} {n : ℤ} {s s' : State κ} {c : Command κ} (hs : Keeps p n s) (hn : 0 < n)
    (hmax : n ≤ scoreMax) (hadd : Adds p s c → n ≤ scoreInit) (h : step s c = some s') :
    Keeps p (if c = .testInvalid p then n - 1 else n) s' := by
  obtain ⟨⟨v, hv, hle⟩, hno⟩ := hs
  obtain ⟨q, rfl, ht, rfl⟩ | ⟨q, rfl, ht, rfl⟩ | ⟨q, rfl, ht, hread⟩ | ⟨q, score, rfl, ht, rfl⟩ |
    ⟨q, rfl, -, rfl⟩ | ⟨q, rfl, hg, rfl⟩ := step_cases h
  · rw [if_neg nofun]
    by_cases hq : p = q
    · subst hq
      exact ⟨⟨scoreMax, by rw [Dict.get?_set, if_pos rfl], hmax⟩, hno⟩
    · exact ⟨⟨v, (get?_set_of_ne hq _).trans hv, hle⟩, hno⟩
  · by_cases hq : p = q
    · subst hq
      rw [if_pos rfl]
      exact ⟨⟨v - 1, by rw [zdecr, hv, Dict.get?_set, if_pos rfl]; rfl, by omega⟩, fun _ => nofun⟩
    · rw [if_neg fun heq => hq (Command.testInvalid.inj heq).symm]
      exact ⟨⟨v, (get?_set_of_ne hq _).trans hv, hle⟩, fun _ => nofun⟩
  · rw [if_neg nofun]
    rcases hread with ⟨score, hq, rfl⟩ | ⟨hq, rfl⟩
    · refine ⟨⟨v, hv, hle⟩, fun w hw => ?_⟩
      split_ifs at hw with hmin
      obtain ⟨rfl, -⟩ := Tester.scored.inj hw
      -- the score that was read is that of the proxy
      obtain rfl := Option.some.inj (hv.symm.trans hq)
      unfold scoreMin at hmin
      omega
    · exact ⟨⟨v, hv, hle⟩, fun _ => nofun⟩
  · rw [if_neg nofun]
    have hq : p ≠ q := by
      rintro rfl
      exact hno score ht
    exact ⟨⟨v, by rw [Dict.get?_erase, if_neg hq, hv], hle⟩, fun _ => nofun⟩
  · rw [if_neg nofun]
    exact ⟨⟨v, hv, hle⟩, hno⟩
  · rw [if_neg nofun]
    by_cases hq : p = q
    · subst hq
      exact ⟨⟨scoreInit, by rw [Dict.get?_set, if_pos rfl], hadd ⟨rfl, hg⟩⟩, hno⟩
    · exact ⟨⟨v, (get?_set_of_ne hq _).trans hv, hle⟩, hno⟩

/-- Over a run the score falls by no more than the number of failed tests of the proxy. An `add` is allowed only where
it does not set a lower score. -/
theorem keeps_run {p : κ} {allowed : Prop} : ∀ {commands : List (Command κ)} {n : ℤ} {s s' : State κ}, Keeps p n s →
    n ≤ scoreMax → (allowed → n ≤ scoreInit) → (commands.count (.testInvalid p) : ℤ) < n →
      StepsOk step (fun s c => Adds p s c → allowed) s commands → run step s commands = some s' →
        Keeps p (n - commands.count (.testInvalid p)) s'
  | [], n, s, s', hs, _, _, _, _, h => by
    cases h
    simpa using hs
  | c :: commands, n, s, s', hs, hmax, hinit, hcount, hok, h => by
    obtain ⟨t, ht, hrest⟩ := run_cons_some.1 h
    have hstep := keeps_step hs (by omega) hmax (fun hadd => hinit (hok.1 hadd)) ht
    by_cases hc : c = .testInvalid p
    · subst hc
      rw [if_pos rfl] at hstep
      rw [List.count_cons_self, Int.natCast_add] at hcount ⊢
      have hrun := keeps_run hstep (by omega) (fun ha => by have := hinit ha; omega) (by omega) (hok.2 t ht) hrest
      have heq : n - ((commands.count (.testInvalid p) : ℤ) + (1 : ℕ)) =
        n - 1 - commands.count (.testInvalid p) := by omega
      rwa [heq]
    · rw [if_neg hc] at hstep
      rw [List.count_cons_of_ne hc] at hcount ⊢
      exact keeps_run hstep hmax hinit hcount (hok.2 t ht) hrest

/-- A proxy that has just passed a test is in the pool for as long as fewer than ten further tests of it fail, in every
order of the commands: an `add` that began before the proxy was there may set its score back to ten. If none does, it
is there for fewer than a hundred failures, with no more than these taken off. -/
theorem survives_failures {s s' : State κ} {p : κ} (hp : s.db.get? p = some scoreMax) (ht : s.tester = .idle)
    {commands : List (Command κ)} (hrun : run step s commands = some s') :
    (commands.count (.testInvalid p) < 10 →
      ∃ v, s'.db.get? p = some v ∧ scoreInit - commands.count (.testInvalid p) ≤ v) ∧
      (StepsOk step (fun s c => ¬ Adds p s c) s commands → commands.count (.testInvalid p) < 100 →
        ∃ v, s'.db.get? p = some v ∧ scoreMax - commands.count (.testInvalid p) ≤ v) := by
  have hno : ∀ v, s.tester ≠ .scored p v := by
    rw [ht]
    exact fun _ => nofun
  constructor
  · intro hcount
    have hs : Keeps p scoreInit s := ⟨⟨scoreMax, hp, by decide⟩, hno⟩
    have hok : StepsOk step (fun s c => Adds p s c → True) s commands := by
      apply stepsOk_of_forall
      exact fun _ _ _ _ => trivial
    exact (keeps_run hs (by decide) (fun _ => Int.le_refl _) (by unfold scoreInit; omega) hok hrun).score
  · intro hok hcount
    have hs : Keeps p scoreMax s := ⟨⟨scoreMax, hp, Int.le_refl _⟩, hno⟩
    exact (keeps_run hs (Int.le_refl _) False.elim (by unfold scoreMax; omega) hok hrun).score

theorem survives_failures_valid :
    ∃ v, ((Dict.empty.set 7 scoreMax).set 7 (99 : ℤ)).get? 7 = some v ∧ scoreInit - (1 : ℕ) ≤ v := by
  have hrun : run step (⟨Dict.empty.set 7 scoreMax, .idle, .missing 8⟩ : State ℕ) [.testInvalid 7, .zscore] =
      some ⟨(Dict.empty.set 7 scoreMax).set 7 99, .idle, .missing 8⟩ := by rfl
  exact (survives_failures (by decide) rfl hrun).1 (by decide)

/-- The getter has looked for a proxy that is not there; it passes a test before the getter adds it. -/
example : (run step ⟨Dict.empty, .idle, .idle⟩ [.checkExists 7, .testValid 7, .zadd]).map (fun s => s.db.get? 7) =
    some (some scoreInit) := by decide

end GoodGoodStudy.ProxyPool
