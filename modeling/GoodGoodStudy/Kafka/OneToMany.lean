/-
One Kafka consumer and many workers. The consumer thread polls, hands each batch to the pool, and commits what the
workers have published in a shared map, which it clears; a worker goes through its batch partition by partition and
publishes the offset behind the last record. The guard in the map keeps the larger of two offsets, but it knows only
what was published since the last commit, and nothing of batches that are still being processed. So a commit is safe,
and goes forward, in the runs in which the workers publish in order.
-/
import Mathlib.Tactic.SplitIfs
import GoodGoodStudy.Lib.Dict
import GoodGoodStudy.Lib.Run

namespace GoodGoodStudy.Kafka

open GoodGoodStudy.Lib

/-! ## Records -/

/-- The polled records of a partition, by their offsets. -/
structure PartitionRecords (P : Type) where
  partition : P
  offsets : List Nat
  nonempty : offsets ≠ []

/-- `partitionRecords.get(partitionRecords.size() - 1).offset()`. -/
def PartitionRecords.lastOffset {P : Type} (r : PartitionRecords P) : Nat := r.offsets.getLast r.nonempty

/-- The result of a poll. -/
structure ConsumerRecords (P : Type) where
  partitions : List (PartitionRecords P)
  nodup : (partitions.map PartitionRecords.partition).Nodup

/-- The partitions that a worker has still to publish, each with the records that it has not processed. -/
abbrev Todo (P : Type) := List (PartitionRecords P × List Nat)

def ConsumerRecords.todo {P : Type} (records : ConsumerRecords P) : Todo P :=
  records.partitions.map fun r => (r, r.offsets)

/-! ## States -/

/-- Where the consumer thread is in `consume`; `closing` is set in its `finally` block. -/
inductive Phase (P : Type)
  | poll
  | submit (records : ConsumerRecords P)
  | commitOffsets (closing : Bool)
  | commitSync (unmodfiedMap : Dict P Nat) (closing : Bool)
  | closed

structure State (P : Type) where
  phase : Phase P
  /-- The offset from which the next poll reads a partition. -/
  position : P → Nat
  workers : List (Todo P)
  offsets : Dict P Nat
  /-- What was committed, the oldest first. -/
  commits : List (Dict P Nat)

inductive Action (P : Type)
  | poll (records : ConsumerRecords P)
  | submit
  | commitOffsets
  | commitSync
  | wakeup
  | process (i : Nat)
  | publish (i : Nat)

section Step

variable {P : Type} [DecidableEq P]

/-- What a broker returns: records of a partition in their order, none before the position. -/
def Fetched (position : P → Nat) (records : ConsumerRecords P) : Prop :=
  ∀ r ∈ records.partitions, r.offsets.Pairwise (· < ·) ∧ ∀ o ∈ r.offsets, position r.partition ≤ o

instance (position : P → Nat) (records : ConsumerRecords P) : Decidable (Fetched position records) :=
  inferInstanceAs (Decidable (∀ r ∈ records.partitions, _ ∧ _))

/-- The next poll reads behind the last record. -/
def advance (position : P → Nat) (records : ConsumerRecords P) : P → Nat := fun p =>
  match records.partitions.find? fun r => r.partition = p with
  | some r => r.lastOffset + 1
  | none => position p

/-- Behind `commitOffsets` comes the next poll, or the end of `consume`. -/
def Phase.after (closing : Bool) : Phase P := if closing then .closed else .poll

/-- The synchronized block of a worker. -/
def report (offsets : Dict P Nat) (partition : P) (lastOffset : Nat) : Dict P Nat :=
  match offsets.get? partition with
  | none => offsets.set partition (lastOffset + 1)
  | some curr => if curr ≤ lastOffset + 1 then offsets.set partition (lastOffset + 1) else offsets

def step (s : State P) : Action P → Option (State P)
  | .poll records =>
    match s.phase with
    | .poll =>
      if Fetched s.position records then
        some { s with phase := .submit records, position := advance s.position records }
      else none
    | _ => none
  | .submit =>
    match s.phase with
    | .submit records =>
      let workers := if records.partitions.isEmpty then s.workers else s.workers ++ [records.todo]
      some { s with phase := .commitOffsets false, workers }
    | _ => none
  | .commitOffsets =>
    match s.phase with
    | .commitOffsets closing =>
      if s.offsets.items.isEmpty then some { s with phase := .after closing }
      else some { s with phase := .commitSync s.offsets closing, offsets := .empty }
    | _ => none
  | .commitSync =>
    match s.phase with
    | .commitSync unmodfiedMap closing =>
      some { s with phase := .after closing, commits := s.commits ++ [unmodfiedMap] }
    | _ => none
  | .wakeup =>
    -- the exception leaves the loop from a poll or from a commit
    match s.phase with
    | .poll => some { s with phase := .commitOffsets true }
    | .commitSync _ false => some { s with phase := .commitOffsets true }
    | _ => none
  | .process i =>
    match s.workers[i]? with
    | some ((r, _ :: left) :: todo) => some { s with workers := s.workers.set i ((r, left) :: todo) }
    | _ => none
  | .publish i =>
    match s.workers[i]? with
    | some ((r, []) :: todo) =>
      some { s with workers := s.workers.set i todo, offsets := report s.offsets r.partition r.lastOffset }
    | _ => none

/-- A group that has committed before, or reads a partition from its earliest record. -/
def init (committed : Dict P Nat) (earliest : P → Nat) : State P where
  phase := .poll
  position p := (committed.get? p).getD (earliest p)
  workers := []
  offsets := .empty
  commits := [committed]

/-! ## What a state says about a partition -/

/-- The batch between the poll and the pool. -/
def Phase.polled : Phase P → Todo P
  | .submit records => records.todo
  | _ => []

/-- The map between the synchronized block and the commit. -/
def Phase.pending : Phase P → Dict P Nat
  | .commitSync unmodfiedMap _ => unmodfiedMap
  | _ => .empty

def State.todo (s : State P) : Todo P := s.phase.polled ++ s.workers.flatten

/-- The polled records of a partition that have not been processed. -/
def State.unprocessed (s : State P) (p : P) : List Nat := (s.todo.filter fun c => c.1.partition = p).flatMap Prod.snd

/-- The offsets committed for a partition, one after the other. -/
def State.committedOffsets (s : State P) (p : P) : List Nat := s.commits.filterMap fun m => m.get? p

def State.committed (s : State P) (p : P) : Option Nat := (s.committedOffsets p).getLast?

/-- The partition whose offset the worker publishes next. -/
def State.finished (s : State P) (i : Nat) : Option (PartitionRecords P) :=
  match s.workers[i]? with
  | some ((r, []) :: _) => some r
  | _ => none

/-- The offsets of a partition on their way to the broker: committed, in the map that is being committed, published. -/
def State.announced (s : State P) (p : P) : List Nat :=
  s.committedOffsets p ++ ((s.phase.pending.get? p).toList ++ (s.offsets.get? p).toList)

theorem mem_unprocessed {s : State P} {p : P} {o : Nat} :
    o ∈ s.unprocessed p ↔ ∃ c ∈ s.todo, c.1.partition = p ∧ o ∈ c.2 := by
  simp only [State.unprocessed, List.mem_flatMap, List.mem_filter, decide_eq_true_eq, and_assoc]

theorem find?_partition {l : List (PartitionRecords P)} (hl : (l.map PartitionRecords.partition).Nodup)
    {r : PartitionRecords P} (hr : r ∈ l) : l.find? (fun q => q.partition = r.partition) = some r := by
  induction l with
  | nil => cases hr
  | cons q l ih =>
    rw [List.map_cons, List.nodup_cons] at hl
    rcases List.mem_cons.1 hr with rfl | hr
    · exact List.find?_cons_of_pos (decide_eq_true rfl)
    · have hne : q.partition ≠ r.partition := fun he => hl.1 (he ▸ List.mem_map_of_mem hr)
      rw [List.find?_cons_of_neg (by simpa using hne)]
      exact ih hl.2 hr

theorem advance_of_mem (position : P → Nat) {records : ConsumerRecords P} {r : PartitionRecords P}
    (hr : r ∈ records.partitions) : advance position records r.partition = r.lastOffset + 1 := by
  unfold advance
  rw [find?_partition records.nodup hr]

theorem le_advance {position : P → Nat} {records : ConsumerRecords P} (h : Fetched position records) (p : P) :
    position p ≤ advance position records p := by
  unfold advance
  split
  · rename_i r hfind
    have hp : r.partition = p := by simpa using List.find?_some hfind
    have hlast := (h r (List.mem_of_find?_eq_some hfind)).2 r.lastOffset (List.getLast_mem r.nonempty)
    rw [hp] at hlast
    exact Nat.le_succ_of_le hlast
  · exact Nat.le_refl _

/-! ## What a step does -/

/-- The steps, each with its condition. -/
inductive Steps (s : State P) : Action P → State P → Prop
  | poll {records : ConsumerRecords P} (hphase : s.phase = .poll) (hf : Fetched s.position records) :
    Steps s (.poll records) { s with phase := .submit records, position := advance s.position records }
  | submitNone {records : ConsumerRecords P} (hphase : s.phase = .submit records) (hr : records.partitions = []) :
    Steps s .submit { s with phase := .commitOffsets false }
  | submit {records : ConsumerRecords P} (hphase : s.phase = .submit records) :
    Steps s .submit { s with phase := .commitOffsets false, workers := s.workers ++ [records.todo] }
  | commitNone {closing : Bool} (hphase : s.phase = .commitOffsets closing) :
    Steps s .commitOffsets { s with phase := .after closing }
  | commitOffsets {closing : Bool} (hphase : s.phase = .commitOffsets closing) :
    Steps s .commitOffsets { s with phase := .commitSync s.offsets closing, offsets := .empty }
  | commitSync {m : Dict P Nat} {closing : Bool} (hphase : s.phase = .commitSync m closing) :
    Steps s .commitSync { s with phase := .after closing, commits := s.commits ++ [m] }
  | wakeupPoll (hphase : s.phase = .poll) : Steps s .wakeup { s with phase := .commitOffsets true }
  | wakeupCommit {m : Dict P Nat} (hphase : s.phase = .commitSync m false) :
    Steps s .wakeup { s with phase := .commitOffsets true }
  | process {i : Nat} {r : PartitionRecords P} {o : Nat} {left : List Nat} {todo : Todo P}
    (hw : s.workers[i]? = some ((r, o :: left) :: todo)) :
    Steps s (.process i) { s with workers := s.workers.set i ((r, left) :: todo) }
  | publish {i : Nat} {r : PartitionRecords P} {todo : Todo P} (hw : s.workers[i]? = some ((r, []) :: todo)) :
    Steps s (.publish i)
      { s with workers := s.workers.set i todo, offsets := report s.offsets r.partition r.lastOffset }

variable {s s' : State P} {a : Action P}

theorem step_cases (h : step s a = some s') : Steps s a s' := by
  cases a with
  | poll records =>
    simp only [step] at h
    split at h
    · split_ifs at h with hf
      exact Option.some.inj h ▸ .poll ‹_› hf
    · cases h
  | submit =>
    simp only [step] at h
    split at h
    · obtain rfl := Option.some.inj h
      split_ifs with hr
      · exact .submitNone ‹_› (List.isEmpty_iff.1 hr)
      · exact .submit ‹_›
    · cases h
  | commitOffsets =>
    simp only [step] at h
    split at h
    · split_ifs at h
      · exact Option.some.inj h ▸ .commitNone ‹_›
      · exact Option.some.inj h ▸ .commitOffsets ‹_›
    · cases h
  | commitSync =>
    simp only [step] at h
    split at h
    · exact Option.some.inj h ▸ .commitSync ‹_›
    · cases h
  | wakeup =>
    simp only [step] at h
    split at h
    · exact Option.some.inj h ▸ .wakeupPoll ‹_›
    · exact Option.some.inj h ▸ .wakeupCommit ‹_›
    · cases h
  | process i =>
    simp only [step] at h
    split at h
    · exact Option.some.inj h ▸ .process ‹_›
    · cases h
  | publish i =>
    simp only [step] at h
    split at h
    · exact Option.some.inj h ▸ .publish ‹_›
    · cases h

/-- A position only grows. -/
theorem step_position (h : step s a = some s') (p : P) : s.position p ≤ s'.position p := by
  rcases step_cases h with ⟨-, hf⟩ | _ | _ | _ | _ | _ | _ | _ | _ | _
  · exact le_advance hf p
  all_goals exact Nat.le_refl _

omit [DecidableEq P] in
theorem polled_after (closing : Bool) : (Phase.after (P := P) closing).polled = [] := by cases closing <;> rfl

omit [DecidableEq P] in
theorem pending_after (closing : Bool) : (Phase.after (P := P) closing).pending = .empty := by cases closing <;> rfl

omit [DecidableEq P] in
theorem mem_todo_of_worker {i : Nat} {todo : Todo P} (hw : s.workers[i]? = some todo)
    {c : PartitionRecords P × List Nat} (hc : c ∈ todo) : c ∈ s.todo :=
  List.mem_append_right _ (List.mem_flatten_of_mem (List.mem_of_getElem? hw) hc)

omit [DecidableEq P] in
/-- What replaces the work of a worker comes in addition. -/
theorem mem_todo_set {i : Nat} {todo : Todo P} {c : PartitionRecords P × List Nat}
    (hc : c ∈ s.phase.polled ++ (s.workers.set i todo).flatten) : c ∈ s.todo ∨ c ∈ todo := by
  rcases List.mem_append.1 hc with hc | hc
  · exact Or.inl (List.mem_append_left _ hc)
  · obtain ⟨w, hw, hcw⟩ := List.mem_flatten.1 hc
    rcases List.mem_or_eq_of_mem_set hw with hw | rfl
    · exact Or.inl (List.mem_append_right _ (List.mem_flatten_of_mem hw hcw))
    · exact Or.inr hcw

/-- What is to be done after a step was to be done before it, or lies between the old position of the partition and
the new one. -/
theorem step_todo (h : step s a = some s') {c : PartitionRecords P × List Nat} (hc : c ∈ s'.todo) :
    (∃ d ∈ s.todo, d.1 = c.1 ∧ c.2 ⊆ d.2) ∨
      (c.1.lastOffset < s'.position c.1.partition ∧ ∀ o ∈ c.2, s.position c.1.partition ≤ o) := by
  have hold : c ∈ s.todo → ∃ d ∈ s.todo, d.1 = c.1 ∧ c.2 ⊆ d.2 := fun hc => ⟨c, hc, rfl, List.Subset.refl _⟩
  rcases step_cases h with ⟨hphase, hf⟩ | ⟨hphase, -⟩ | ⟨hphase⟩ | ⟨-⟩ | ⟨-⟩ | ⟨-⟩ | ⟨-⟩ | ⟨-⟩ | ⟨hw⟩ | ⟨hw⟩
  · rcases List.mem_append.1 hc with hc | hc
    · obtain ⟨r, hr, rfl⟩ := List.mem_map.1 hc
      refine Or.inr ⟨?_, (hf r hr).2⟩
      show r.lastOffset < advance s.position _ r.partition
      rw [advance_of_mem s.position hr]
      exact Nat.lt_succ_self _
    · exact Or.inl (hold (List.mem_append_right _ hc))
  · exact Or.inl (hold (List.mem_append_right _ hc))
  · -- the batch goes to the pool
    refine Or.inl (hold ?_)
    unfold State.todo
    rw [hphase]
    have hc' : c ∈ (s.workers ++ [(_ : ConsumerRecords P).todo]).flatten := hc
    rw [List.flatten_concat] at hc'
    exact List.mem_append.2 (List.mem_append.1 hc').symm
  · exact Or.inl (hold (List.mem_append_right _ (by rwa [State.todo, polled_after] at hc)))
  · exact Or.inl (hold (List.mem_append_right _ hc))
  · exact Or.inl (hold (List.mem_append_right _ (by rwa [State.todo, polled_after] at hc)))
  · exact Or.inl (hold (List.mem_append_right _ hc))
  · exact Or.inl (hold (List.mem_append_right _ hc))
  · rcases mem_todo_set (s := s) hc with hc | hc
    · exact Or.inl (hold hc)
    · rcases List.mem_cons.1 hc with rfl | hc
      · exact Or.inl ⟨_, mem_todo_of_worker hw List.mem_cons_self, rfl, List.subset_cons_self _ _⟩
      · exact Or.inl (hold (mem_todo_of_worker hw (List.mem_cons_of_mem _ hc)))
  · rcases mem_todo_set (s := s) hc with hc | hc
    · exact Or.inl (hold hc)
    · exact Or.inl (hold (mem_todo_of_worker hw (List.mem_cons_of_mem _ hc)))

/-- The guard lets a publication through. -/
def Reports (offsets : Dict P Nat) (p : P) (lastOffset : Nat) : Prop := ∀ curr ∈ offsets.get? p, curr ≤ lastOffset + 1

instance (offsets : Dict P Nat) (p : P) (lastOffset : Nat) : Decidable (Reports offsets p lastOffset) :=
  inferInstanceAs (Decidable (∀ curr ∈ offsets.get? p, _))

theorem report_of_not_reports {offsets : Dict P Nat} {p : P} {lastOffset : Nat} (h : ¬ Reports offsets p lastOffset) :
    report offsets p lastOffset = offsets := by
  unfold report
  split
  · rename_i hnone
    exact absurd (fun curr hcurr => by rw [hnone] at hcurr; cases hcurr) h
  · rename_i curr hcurr
    refine if_neg fun hle => h fun c hc => ?_
    rw [hcurr] at hc
    exact Option.some.inj hc ▸ hle

theorem report_of_reports {offsets : Dict P Nat} {p : P} {lastOffset : Nat} (h : Reports offsets p lastOffset) :
    report offsets p lastOffset = offsets.set p (lastOffset + 1) := by
  unfold report
  split
  · rfl
  · rename_i curr hcurr
    exact if_pos (h curr hcurr)

theorem get?_report (offsets : Dict P Nat) (q p : P) (lastOffset : Nat) :
    (report offsets q lastOffset).get? p =
      if p = q ∧ Reports offsets q lastOffset then some (lastOffset + 1) else offsets.get? p := by
  by_cases h : Reports offsets q lastOffset
  · rw [report_of_reports h, Dict.get?_set]
    simp only [h, and_true]
  · rw [report_of_not_reports h, if_neg fun hq => h hq.2]

/-- Without a commit or a publication the announced offsets stay. -/
theorem announced_sublist {phase : Phase P} (hpending : phase.pending = s.phase.pending) (position : P → Nat)
    (workers : List (Todo P)) (p : P) :
    (State.announced ⟨phase, position, workers, s.offsets, s.commits⟩ p).Sublist (s.announced p) := by
  unfold State.announced State.committedOffsets
  rw [hpending]

/-- The announced offsets of a partition stay, but for one that `wakeup` keeps from being committed, or a worker
publishes the last of them. -/
theorem step_announced (h : step s a = some s') (p : P) :
    (s'.announced p).Sublist (s.announced p) ∨
      ∃ i r, a = .publish i ∧ s.finished i = some r ∧ r.partition = p ∧ Reports s.offsets p r.lastOffset ∧
        s'.announced p = s.committedOffsets p ++ ((s.phase.pending.get? p).toList ++ [r.lastOffset + 1]) := by
  rcases step_cases h with ⟨hphase, -⟩ | ⟨hphase, -⟩ | ⟨hphase⟩ | ⟨hphase⟩ | ⟨hphase⟩ | ⟨hphase⟩ | ⟨hphase⟩ | ⟨hphase⟩ |
    ⟨-⟩ | ⟨hw⟩
  · exact Or.inl (announced_sublist (by rw [hphase]; rfl) _ _ p)
  · exact Or.inl (announced_sublist (by rw [hphase]; rfl) _ _ p)
  · exact Or.inl (announced_sublist (by rw [hphase]; rfl) _ _ p)
  · exact Or.inl (announced_sublist (by rw [hphase, pending_after]; rfl) _ _ p)
  · -- the entry goes into the map that is committed
    left
    unfold State.announced
    rw [hphase]
    simp [Phase.pending, State.committedOffsets]
  · -- the map is committed
    left
    unfold State.announced State.committedOffsets
    rw [hphase, pending_after]
    rw [List.filterMap_append, List.append_assoc]
    refine List.Sublist.append_left ?_ _
    rename_i m _
    rcases hm : m.get? p with _ | v <;> simp [Phase.pending, hm]
  · exact Or.inl (announced_sublist (by rw [hphase]; rfl) _ _ p)
  · left
    unfold State.announced
    rw [hphase]
    exact List.Sublist.append_left (List.sublist_append_right _ _) _
  · exact Or.inl (List.Sublist.refl _)
  · rename_i i r todo
    by_cases hguard : p = r.partition ∧ Reports s.offsets r.partition r.lastOffset
    · obtain ⟨rfl, hreports⟩ := hguard
      refine Or.inr ⟨i, r, rfl, ?_, rfl, hreports, ?_⟩
      · unfold State.finished
        rw [hw]
      · unfold State.announced
        rw [get?_report, if_pos ⟨rfl, hreports⟩]
        rfl
    · left
      unfold State.announced
      rw [get?_report, if_neg hguard]
      exact List.Sublist.refl _

omit [DecidableEq P] in
theorem mem_todo_of_finished {i : Nat} {r : PartitionRecords P} (h : s.finished i = some r) : (r, []) ∈ s.todo := by
  unfold State.finished at h
  split at h
  · rename_i hw
    obtain rfl := Option.some.inj h
    exact mem_todo_of_worker hw List.mem_cons_self
  · cases h

/-! ## Commits of processed records only -/

/-- A worker publishes over no record of the partition that is still to be processed. -/
def PublishesInOrder (s : State P) : Action P → Prop
  | .publish i =>
    ∀ r ∈ s.finished i, Reports s.offsets r.partition r.lastOffset →
      ∀ o ∈ s.unprocessed r.partition, r.lastOffset < o
  | _ => True

instance (s : State P) : ∀ a, Decidable (PublishesInOrder s a)
  | .publish i => inferInstanceAs (Decidable (∀ r ∈ s.finished i, Reports s.offsets r.partition r.lastOffset → _))
  | .poll _ | .submit | .commitOffsets | .commitSync | .wakeup | .process _ => isTrue trivial

/-- What is announced lies between the processed records and the others. -/
structure Safe (s : State P) : Prop where
  announced : ∀ p, ∀ v ∈ s.announced p, v ≤ s.position p ∧ ∀ o ∈ s.unprocessed p, v ≤ o
  todo : ∀ c ∈ s.todo, c.1.lastOffset < s.position c.1.partition

theorem announced_init (committed : Dict P Nat) (earliest : P → Nat) (p : P) :
    (init committed earliest).announced p = (committed.get? p).toList := by
  have hone : (init committed earliest).committedOffsets p = (committed.get? p).toList := by
    unfold State.committedOffsets init
    rcases h : committed.get? p with _ | v <;> simp [h]
  unfold State.announced
  rw [hone]
  exact List.append_nil _

theorem safe_init (committed : Dict P Nat) (earliest : P → Nat) : Safe (init committed earliest) where
  announced p v hv := by
    rw [announced_init, Option.mem_toList] at hv
    refine ⟨?_, fun o ho => absurd ho List.not_mem_nil⟩
    show v ≤ (committed.get? p).getD (earliest p)
    rw [hv]
    exact Nat.le_refl v
  todo c hc := absurd hc List.not_mem_nil

/-- The step lemma. A new offset was safe before the step, and what the step adds lies behind all positions. -/
theorem step_safe (hs : Safe s) (hok : PublishesInOrder s a) (h : step s a = some s') : Safe s' := by
  constructor
  · intro p v hv
    have hbefore : v ≤ s.position p ∧ ∀ o ∈ s.unprocessed p, v ≤ o := by
      rcases step_announced h p with hsub | ⟨i, r, rfl, hr, rfl, hguard, he⟩
      · exact hs.announced p v (hsub.subset hv)
      · rw [he, ← List.append_assoc] at hv
        rcases List.mem_append.1 hv with hv | hv
        · refine hs.announced _ v ?_
          unfold State.announced
          rw [← List.append_assoc]
          exact List.mem_append_left _ hv
        · obtain rfl := List.mem_singleton.1 hv
          exact ⟨hs.todo _ (mem_todo_of_finished hr), hok r hr hguard⟩
    refine ⟨Nat.le_trans hbefore.1 (step_position h p), fun o ho => ?_⟩
    obtain ⟨c, hc, rfl, hoc⟩ := mem_unprocessed.1 ho
    rcases step_todo h hc with ⟨d, hd, hsame, hsub⟩ | ⟨-, hnew⟩
    · exact hbefore.2 o (mem_unprocessed.2 ⟨d, hd, congrArg PartitionRecords.partition hsame, hsub hoc⟩)
    · exact Nat.le_trans hbefore.1 (hnew o hoc)
  · intro c hc
    rcases step_todo h hc with ⟨d, hd, hsame, -⟩ | ⟨hnew, -⟩
    · exact Nat.lt_of_lt_of_le (hsame ▸ hs.todo d hd) (step_position h _)
    · exact hnew

/-- In every run in which the workers publish in order, the offset that is committed for a partition is not above an
unprocessed record. -/
theorem committed_le_unprocessed {committed : Dict P Nat} {earliest : P → Nat} {as : List (Action P)}
    (hok : StepsOk step PublishesInOrder (init committed earliest) as)
    (h : run step (init committed earliest) as = some s) :
    ∀ p, ∀ c ∈ s.committed p, ∀ o ∈ s.unprocessed p, c ≤ o := by
  have hsafe : Safe s := run_invariant (I := Safe) (fun _ _ _ hs hok h => step_safe hs hok h)
    (safe_init committed earliest) hok h
  intro p c hc o ho
  exact (hsafe.announced p c (List.mem_append_left _ (List.mem_of_getLast? hc))).2 o ho

/-- A poll of one record of the partition 0, or of nothing. -/
def batch : List Nat → ConsumerRecords Nat
  | [] => ⟨[], List.nodup_nil⟩
  | o :: os => ⟨[⟨0, o :: os, List.cons_ne_nil o os⟩], List.nodup_singleton _⟩

/-- A round of the loop of `consume` that finds nothing to commit. -/
def consumeRound (offsets : List Nat) : List (Action Nat) := [.poll (batch offsets), .submit, .commitOffsets]

/-- A new group, and two batches in the pool. -/
def twoBatches : List (Action Nat) := consumeRound [0] ++ consumeRound [1]

def start : State Nat := init .empty fun _ => 0

def inOrder : List (Action Nat) :=
  twoBatches ++ [.process 0, .publish 0, .process 1, .publish 1] ++ consumeRound [] ++ [.commitSync]

theorem inOrder_committed :
    ∃ s, run step start inOrder = some s ∧ s.committed 0 = some 2 ∧
      ∀ p, ∀ c ∈ s.committed p, ∀ o ∈ s.unprocessed p, c ≤ o := by
  have hok : StepsOk step PublishesInOrder start inOrder := by decide
  exact ⟨_, rfl, rfl, committed_le_unprocessed hok rfl⟩

/-- The second worker overtakes the first. -/
def overtaken : List (Action Nat) := twoBatches ++ [.process 1, .publish 1] ++ consumeRound [] ++ [.commitSync]

/-- The record 0 is still to be processed, and 2 is committed. -/
theorem overtaken_committed :
    ∃ s, run step start overtaken = some s ∧ s.committed 0 = some 2 ∧ s.unprocessed 0 = [0] ∧
      ¬ ∀ p, ∀ c ∈ s.committed p, ∀ o ∈ s.unprocessed p, c ≤ o :=
  ⟨_, rfl, rfl, rfl, fun h => absurd (h 0 2 rfl 0 (List.mem_singleton_self 0)) (by decide)⟩

/-! ## Commits that go forward -/

/-- A worker that finds no entry for the partition does not publish below what has left the map. -/
def PublishesForward (s : State P) : Action P → Prop
  | .publish i =>
    ∀ r ∈ s.finished i, s.offsets.get? r.partition = none →
      ∀ c ∈ s.committedOffsets r.partition ++ (s.phase.pending.get? r.partition).toList, c ≤ r.lastOffset + 1
  | _ => True

instance (s : State P) : ∀ a, Decidable (PublishesForward s a)
  | .publish i => inferInstanceAs (Decidable (∀ r ∈ s.finished i, s.offsets.get? r.partition = none → _))
  | .poll _ | .submit | .commitOffsets | .commitSync | .wakeup | .process _ => isTrue trivial

/-- On the way to the broker an offset is never overtaken by a smaller one. -/
def Forward (s : State P) : Prop := ∀ p, (s.announced p).Pairwise (· ≤ ·)

theorem forward_init (committed : Dict P Nat) (earliest : P → Nat) : Forward (init committed earliest) := by
  intro p
  rw [announced_init]
  cases committed.get? p <;> simp

theorem step_forward (hs : Forward s) (hok : PublishesForward s a) (h : step s a = some s') : Forward s' := by
  intro p
  rcases step_announced h p with hsub | ⟨i, r, rfl, hr, rfl, hguard, he⟩
  · exact (hs p).sublist hsub
  · have hp := hs r.partition
    unfold State.announced at hp
    rw [← List.append_assoc, List.pairwise_append] at hp
    rw [he, ← List.append_assoc, List.pairwise_append]
    refine ⟨hp.1, List.pairwise_singleton _ _, fun c hc v hv => ?_⟩
    obtain rfl := List.mem_singleton.1 hv
    rcases hentry : s.offsets.get? r.partition with _ | curr
    · exact hok r hr hentry c hc
    · -- the guard compares with the entry, which is above the rest
      exact Nat.le_trans (hp.2.2 c hc curr (by rw [hentry]; exact List.mem_singleton_self curr)) (hguard curr hentry)

/-- The first worker is done after the commit, and brings its offset back. -/
def fallsBack : List (Action Nat) := overtaken ++ [.process 0, .publish 0] ++ consumeRound [] ++ [.commitSync]

end Step

end GoodGoodStudy.Kafka
