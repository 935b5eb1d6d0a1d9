/-
The downloader with several threads. Every thread starts at offset 0 of the file and of the stream, reads one byte at
a time, and writes as many bytes of its buffer as the value of the byte says; the buffer is never filled, so these are
zeros. What the threads leave behind is therefore a run of zeros over what the file held before, the same for every
schedule.
-/
import Mathlib.Algebra.BigOperators.Group.List.Basic
import Mathlib.Data.PNat.Defs
import Mathlib.Order.Lattice
import GoodGoodStudy.Lib.Bytes
import GoodGoodStudy.Lib.Run

namespace GoodGoodStudy.MultiThreadDown

open GoodGoodStudy.Lib

/-- The value of an `int`. -/
def toInt32 (x : Int) : Int := x.bmod (2 ^ 32)

/-! ## The file -/

/-- The file with at least `n` bytes. The contents of the part by which it grows are not defined: `fill` gives them. -/
def extend (fill : Nat → UInt8) (n : Nat) (file : Bytes) : Bytes :=
  file ++ (List.range (n - file.length)).map fun i => fill (file.length + i)

/-- `RandomAccessFile.setLength`. -/
def setLength (fill : Nat → UInt8) (n : Nat) (file : Bytes) : Bytes := (extend fill n file).take n

/-- `RandomAccessFile.write` with the file pointer at `pos`. -/
def writeAt (fill : Nat → UInt8) (file : Bytes) (pos : Nat) (data : Bytes) : Bytes :=
  (extend fill pos file).take pos ++ data ++ file.drop (pos + data.length)

/-! ## A thread -/

/-- What is left of the stream, the file pointer, the field `length`, and the byte that was read and not yet written. -/
structure DownThread where
  inStream : Bytes
  currentPart : Nat
  length : Int
  hasRead : Option UInt8
  ended : Bool
  deriving DecidableEq, Repr

/-- A thread at the head of its loop. -/
def DownThread.new (content : Bytes) (startPos : Nat) : DownThread :=
  ⟨content.drop startPos, startPos, 0, none, false⟩

/-- The buffer, which nothing is ever read into. -/
def buf : Bytes := List.replicate 1024 0

/-- A step of a thread, with what it does to the file: it reads the next byte, or it writes. -/
def DownThread.step (fill : Nat → UInt8) (currentPartSize : Int) (file : Bytes) (t : DownThread) :
    Option (Bytes × DownThread) :=
  if t.ended then none else
  match t.hasRead with
  | some b =>
    some (writeAt fill file t.currentPart (buf.take b.toNat),
      { t with currentPart := t.currentPart + b.toNat, length := toInt32 (t.length + b.toNat), hasRead := none })
  | none =>
    if t.length < currentPartSize then
      match t.inStream with
      | [] => some (file, { t with ended := true })
      | b :: inStream => some (file, { t with inStream := inStream, hasRead := some b })
    else some (file, { t with ended := true })

/-! ## The download -/

/-- A thread that `start` has not been called on yet is one that has not taken a step. -/
structure Download where
  currentPartSize : Int
  file : Bytes
  threads : List DownThread
  deriving DecidableEq, Repr

namespace Download

/-- `getContentLength` is -1 for a length that is no `int`. -/
def getContentLength (content : Bytes) : Int := if content.length < 2 ^ 31 then content.length else -1

/-- `download` up to the steps of its threads; `setLength` raises for a negative length. -/
def start (fill : Nat → UInt8) (old content : Bytes) (threadNum : ℕ+) : Download :=
  let fileSize := getContentLength content
  let currentPartSize := toInt32 (toInt32 (fileSize.tdiv threadNum) + 1)
  if fileSize < 0 then ⟨currentPartSize, old, []⟩
  else ⟨currentPartSize, setLength fill fileSize.toNat old,
    (List.range threadNum).map fun _ => let startPos := 0; .new content startPos⟩

/-- A step of thread `i`. -/
def step (fill : Nat → UInt8) (s : Download) (i : Nat) : Option Download :=
  s.threads[i]?.bind fun t => (t.step fill s.currentPartSize s.file).map fun (file, t) =>
    { s with file := file, threads := s.threads.set i t }

/-- Whenever all threads have ended the file holds the content. -/
def Reproduces (fill : Nat → UInt8) (old content : Bytes) (threadNum : ℕ+) : Prop :=
  ∀ schedule s, run (step fill) (start fill old content threadNum) schedule = some s →
    (∀ t ∈ s.threads, t.ended) → s.file = content

/-! ## What the threads leave behind -/

/-- A file whose first `z` bytes are overwritten by zeros. -/
def zeroed (z : Nat) (base : Bytes) : Bytes := List.replicate z 0 ++ base.drop z

theorem length_zeroed (z : Nat) (base : Bytes) : (zeroed z base).length = max z base.length := by
  rw [zeroed, List.length_append, List.length_replicate, List.length_drop]
  omega

theorem zeroed_zero (base : Bytes) : zeroed 0 base = base := rfl

theorem buf_take (b : UInt8) : buf.take b.toNat = List.replicate b.toNat 0 := by
  have hb : b.toNat ≤ 1024 := le_trans (le_of_lt b.toNat_lt) (by decide)
  rw [buf, List.take_replicate, min_eq_left hb]

/-- Zeros written at a place up to which there are zeros already. -/
theorem writeAt_zeroed (fill : Nat → UInt8) {pos z : Nat} (base : Bytes) (n : Nat) (h : pos ≤ z) :
    writeAt fill (zeroed z base) pos (List.replicate n 0) = zeroed (max z (pos + n)) base := by
  have htake : (extend fill pos (zeroed z base)).take pos = List.replicate pos 0 := by
    rw [extend, List.take_append_of_le_length (by rw [length_zeroed]; omega), zeroed,
      List.take_append_of_le_length (by rwa [List.length_replicate]), List.take_replicate, min_eq_left h]
  have hdrop : (zeroed z base).drop (pos + n) =
      List.replicate (z - (pos + n)) 0 ++ base.drop (max z (pos + n)) := by
    rw [zeroed, List.drop_append, List.drop_replicate, List.length_replicate, List.drop_drop]
    congr 2
    omega
  rw [writeAt, htake, List.length_replicate, hdrop, ← List.append_assoc, List.replicate_append_replicate,
    List.replicate_append_replicate, zeroed]
  congr 2
  omega

/-- The number of zeros that a thread at the head of its loop still writes. -/
def zeros (currentPartSize : Int) : Int → Bytes → Nat
  | _, [] => 0
  | length, b :: inStream =>
    if length < currentPartSize then b.toNat + zeros currentPartSize (toInt32 (length + b.toNat)) inStream else 0

end Download

namespace DownThread

/-- The number of zeros that a thread still writes. -/
def left (currentPartSize : Int) (t : DownThread) : Nat :=
  if t.ended then 0 else
  match t.hasRead with
  | some b => b.toNat + Download.zeros currentPartSize (toInt32 (t.length + b.toNat)) t.inStream
  | none => Download.zeros currentPartSize t.length t.inStream

/-- An upper bound for the number of steps that a thread still takes. -/
def todo (t : DownThread) : Nat :=
  if t.ended then 0 else 2 * t.inStream.length + if t.hasRead.isSome then 2 else 1

/-- A thread that has not ended can take a step, which brings it nearer to its end and writes some of the zeros that
are left, if it writes at all. -/
theorem step_of_not_ended (fill : Nat → UInt8) (currentPartSize : Int) (file : Bytes) {t : DownThread}
    (h : t.ended = false) :
    ∃ file' t', t.step fill currentPartSize file = some (file', t') ∧ t'.todo < t.todo ∧
      ((file' = file ∧ t'.currentPart = t.currentPart ∧ t'.left currentPartSize = t.left currentPartSize) ∨
        ∃ n, file' = writeAt fill file t.currentPart (List.replicate n 0) ∧
          t'.currentPart = t.currentPart + n ∧ t.left currentPartSize = n + t'.left currentPartSize) := by
  obtain ⟨inStream, currentPart, length, hasRead, ended⟩ := t
  obtain rfl : ended = false := h
  cases hasRead with
  | some b =>
    refine ⟨_, _, rfl, ?_, Or.inr ⟨b.toNat, ?_, rfl, rfl⟩⟩
    · show 2 * inStream.length + 1 < 2 * inStream.length + 2
      omega
    · rw [Download.buf_take]
  | none =>
    by_cases hlt : length < currentPartSize
    · cases inStream with
      | nil =>
        refine ⟨file, ⟨[], currentPart, length, none, true⟩, ?_, ?_, Or.inl ⟨rfl, rfl, rfl⟩⟩
        · simp only [step, Bool.false_eq_true, if_false, if_pos hlt]
        · show 0 < 1
          decide
      | cons b inStream =>
        refine ⟨file, ⟨inStream, currentPart, length, some b, false⟩, ?_, ?_, Or.inl ⟨rfl, rfl, ?_⟩⟩
        · simp only [step, Bool.false_eq_true, if_false, if_pos hlt]
        · show 2 * inStream.length + 2 < 2 * (inStream.length + 1) + 1
          omega
        · show _ = Download.zeros currentPartSize length (b :: inStream)
          rw [Download.zeros, if_pos hlt]
          rfl
    · refine ⟨file, ⟨inStream, currentPart, length, none, true⟩, ?_, ?_, Or.inl ⟨rfl, rfl, ?_⟩⟩
      · simp only [step, Bool.false_eq_true, if_false, if_neg hlt]
      · show 0 < 2 * inStream.length + 1
        omega
      · show 0 = Download.zeros currentPartSize length inStream
        cases inStream with
        | nil => rfl
        | cons b inStream => rw [Download.zeros, if_neg hlt]

theorem not_ended_of_step {fill : Nat → UInt8} {currentPartSize : Int} {file : Bytes} {t : DownThread}
    {r : Bytes × DownThread} (h : t.step fill currentPartSize file = some r) : t.ended = false := by
  cases hended : t.ended with
  | false => rfl
  | true =>
    rw [step, if_pos hended] at h
    cases h

end DownThread

namespace Download

variable {fill : Nat → UInt8}

/-- The file is the first one under a run of zeros that no thread has got past, and that no thread will get past:
every thread writes as many zeros in all as every other. -/
structure Zeroing (base : Bytes) (total : Nat) (s : Download) : Prop where
  zeroed : ∃ z ≤ total, s.file = zeroed z base ∧ ∀ t ∈ s.threads, t.currentPart ≤ z
  left : ∀ t ∈ s.threads, t.currentPart + t.left s.currentPartSize = total
  threads : s.threads ≠ []

theorem step_some {s s' : Download} {i : Nat} (h : step fill s i = some s') :
    ∃ t file t', s.threads[i]? = some t ∧ t.step fill s.currentPartSize s.file = some (file, t') ∧
      s' = { s with file := file, threads := s.threads.set i t' } := by
  obtain ⟨t, ht, h⟩ := Option.bind_eq_some_iff.1 h
  obtain ⟨⟨file, t'⟩, hs, rfl⟩ := Option.map_eq_some_iff.1 h
  exact ⟨t, file, t', ht, hs, rfl⟩

theorem Zeroing.step {base : Bytes} {total : Nat} {s s' : Download} {i : Nat} (hs : Zeroing base total s)
    (h : step fill s i = some s') : Zeroing base total s' := by
  obtain ⟨t, file, t', ht, hstep, rfl⟩ := step_some h
  obtain ⟨z, hz, hfile, hpos⟩ := hs.zeroed
  have hmem : t ∈ s.threads := List.mem_of_getElem? ht
  have hleft := hs.left t hmem
  have hne : s.threads.set i t' ≠ [] := fun hnil => hs.threads ((List.set_eq_nil_iff i t').1 hnil)
  obtain ⟨file₁, t₁, hstep₁, -, heff⟩ :=
    DownThread.step_of_not_ended fill s.currentPartSize s.file (DownThread.not_ended_of_step hstep)
  obtain ⟨rfl, rfl⟩ : file₁ = file ∧ t₁ = t' := Prod.mk.inj (Option.some.inj (hstep₁.symm.trans hstep))
  rcases heff with ⟨rfl, hpart, hl⟩ | ⟨n, rfl, hpart, hl⟩
  · refine ⟨⟨z, hz, hfile, fun u hu => ?_⟩, fun u hu => ?_, hne⟩
    · rcases List.mem_or_eq_of_mem_set hu with hu | rfl
      · exact hpos u hu
      · exact hpart ▸ hpos t hmem
    · rcases List.mem_or_eq_of_mem_set hu with hu | rfl
      · exact hs.left u hu
      · show u.currentPart + u.left s.currentPartSize = total
        rw [hpart, hl, hleft]
  · refine ⟨⟨max z (t.currentPart + n), ?_, ?_, fun u hu => ?_⟩, fun u hu => ?_, hne⟩
    · omega
    · show writeAt fill s.file t.currentPart _ = _
      rw [hfile, writeAt_zeroed fill base n (hpos t hmem)]
    · rcases List.mem_or_eq_of_mem_set hu with hu | rfl
      · exact le_trans (hpos u hu) (le_max_left _ _)
      · exact hpart ▸ le_max_right _ _
    · rcases List.mem_or_eq_of_mem_set hu with hu | rfl
      · exact hs.left u hu
      · show u.currentPart + u.left s.currentPartSize = total
        omega

/-- When all threads have ended, every one has written all its zeros. -/
theorem Zeroing.file_eq {base : Bytes} {total : Nat} {s : Download} (hs : Zeroing base total s)
    (hended : ∀ t ∈ s.threads, t.ended) : s.file = Download.zeroed total base := by
  obtain ⟨z, hz, hfile, hpos⟩ := hs.zeroed
  obtain ⟨t, hmem⟩ := List.exists_mem_of_ne_nil _ hs.threads
  have hleft := hs.left t hmem
  rw [DownThread.left, if_pos (hended t hmem), Nat.add_zero] at hleft
  have htotal : z = total := le_antisymm hz (hleft ▸ hpos t hmem)
  rw [hfile, htotal]

/-- All threads can be brought to their ends. -/
theorem exists_run_ended (fill : Nat → UInt8) (s : Download) :
    ∃ schedule s', run (step fill) s schedule = some s' ∧ ∀ t ∈ s'.threads, t.ended := by
  induction hn : (s.threads.map DownThread.todo).sum using Nat.strong_induction_on generalizing s with
  | _ n ih =>
    by_cases hall : ∀ t ∈ s.threads, t.ended = true
    · exact ⟨[], s, rfl, hall⟩
    push Not at hall
    obtain ⟨t, hmem, hnot⟩ := hall
    obtain ⟨pre, post, hsplit⟩ := List.append_of_mem hmem
    obtain ⟨file, t', hthread, hlt, -⟩ := DownThread.step_of_not_ended fill s.currentPartSize s.file
      (Bool.eq_false_iff.2 hnot)
    have hget : s.threads[pre.length]? = some t := by rw [hsplit, List.getElem?_append_right le_rfl]; simp
    have hset : s.threads.set pre.length t' = pre ++ t' :: post := by rw [hsplit]; simp
    have hstep : step fill s pre.length = some ⟨s.currentPartSize, file, pre ++ t' :: post⟩ := by
      rw [← hset, step, hget, Option.bind_some, hthread]
      rfl
    have hsum : ((pre ++ t' :: post).map DownThread.todo).sum < n := by
      rw [← hn, hsplit]
      simp only [List.map_append, List.map_cons, List.sum_append, List.sum_cons]
      omega
    obtain ⟨schedule, s', hrun, hended⟩ := ih _ hsum ⟨s.currentPartSize, file, pre ++ t' :: post⟩ rfl
    exact ⟨pre.length :: schedule, s', run_cons_some.2 ⟨_, hstep, hrun⟩, hended⟩

theorem zeroing_start (fill : Nat → UInt8) (old content : Bytes) (threadNum : ℕ+) (h : content.length < 2 ^ 31) :
    Zeroing (setLength fill content.length old)
      (zeros (start fill old content threadNum).currentPartSize 0 content) (start fill old content threadNum) := by
  have hsize : getContentLength content = content.length := if_pos h
  have hstart : start fill old content threadNum = ⟨(start fill old content threadNum).currentPartSize,
      setLength fill content.length old, (List.range threadNum).map fun _ => .new content 0⟩ := by
    unfold start
    simp only [hsize, if_neg (Int.not_lt.2 (Int.natCast_nonneg _)), Int.toNat_natCast]
  rw [hstart]
  have hnew : ∀ t ∈ (List.range threadNum).map (fun _ => DownThread.new content 0), t = .new content 0 := by
    intro t ht
    obtain ⟨_, -, rfl⟩ := List.mem_map.1 ht
    rfl
  refine ⟨⟨0, Nat.zero_le _, rfl, fun t ht => ?_⟩, fun t ht => ?_, fun hnil => ?_⟩
  · rw [hnew t ht]
    exact le_rfl
  · rw [hnew t ht]
    exact Nat.zero_add _
  · have hlen := congrArg List.length hnil
    rw [List.length_map, List.length_range] at hlen
    exact absurd hlen threadNum.ne_zero

/-- The file once all threads have ended. -/
def result (fill : Nat → UInt8) (old content : Bytes) (threadNum : ℕ+) : Bytes :=
  if content.length < 2 ^ 31 then
    zeroed (zeros (start fill old content threadNum).currentPartSize 0 content) (setLength fill content.length old)
  else old

theorem file_eq_result {fill : Nat → UInt8} {old content : Bytes} {threadNum : ℕ+} {schedule : List Nat}
    {s : Download} (h : run (step fill) (start fill old content threadNum) schedule = some s)
    (hended : ∀ t ∈ s.threads, t.ended) : s.file = result fill old content threadNum := by
  by_cases hlen : content.length < 2 ^ 31
  · have hok : StepsOk (step fill) (fun _ _ => True) (start fill old content threadNum) schedule :=
      stepsOk_of_forall (fun _ _ _ => trivial) _
    have hs := run_invariant (fun _ _ _ hs _ hstep => Zeroing.step hs hstep)
      (zeroing_start fill old content threadNum hlen) hok h
    rw [result, if_pos hlen, hs.file_eq hended]
  · have hstart : start fill old content threadNum =
        ⟨(start fill old content threadNum).currentPartSize, old, []⟩ := by
      unfold start
      simp only [getContentLength, if_neg hlen]
      rfl
    rw [result, if_neg hlen]
    cases schedule with
    | nil =>
      rw [hstart] at h
      cases h
      rfl
    | cons i schedule =>
      obtain ⟨s', hstep, -⟩ := run_cons_some.1 h
      obtain ⟨t, _, _, ht, -⟩ := step_some hstep
      rw [hstart] at ht
      cases ht

theorem reproduces_iff_result {fill : Nat → UInt8} {old content : Bytes} {threadNum : ℕ+} :
    Reproduces fill old content threadNum ↔ result fill old content threadNum = content := by
  refine ⟨fun h => ?_, fun h schedule s hrun hended => (file_eq_result hrun hended).trans h⟩
  obtain ⟨schedule, s, hrun, hended⟩ := exists_run_ended fill (start fill old content threadNum)
  exact (file_eq_result hrun hended).symm.trans (h schedule s hrun hended)

/-! ## When the file is reproduced -/

theorem zeros_eq_zero {currentPartSize : Int} :
    ∀ {content : Bytes} (length : Int), (∀ b ∈ content, b = 0) → zeros currentPartSize length content = 0
  | [], _, _ => rfl
  | b :: content, length, h => by
    obtain rfl : b = 0 := h b List.mem_cons_self
    rw [zeros, zeros_eq_zero _ fun b hb => h b (List.mem_cons_of_mem _ hb)]
    exact ite_self 0

theorem setLength_length (fill : Nat → UInt8) (file : Bytes) : setLength fill file.length file = file := by
  rw [setLength, extend, Nat.sub_self]
  simp

theorem setLength_nil (n : Nat) : setLength (fun _ => 0) n [] = List.replicate n 0 := by
  rw [setLength, extend]
  simp

/-- Whatever a nonempty content is, there are files that the download does not turn into it. -/
theorem exists_result_ne {content : Bytes} (threadNum : ℕ+) (hne : content ≠ []) (fill : Nat → UInt8) :
    ∃ old, result fill old content threadNum ≠ content := by
  by_cases hlen : content.length < 2 ^ 31
  · have hpos : content.length - 1 < content.length :=
      Nat.sub_lt (List.length_pos_iff.2 hne) Nat.one_pos
    obtain ⟨c, hc⟩ : ∃ c : UInt8, c ≠ content[content.length - 1] := by
      by_cases h0 : content[content.length - 1] = 0
      · exact ⟨1, by rw [h0]; decide⟩
      · exact ⟨0, Ne.symm h0⟩
    refine ⟨List.replicate content.length c, fun h => ?_⟩
    rw [result, if_pos hlen] at h
    generalize hz : zeros _ 0 content = z at h
    have hbase : setLength fill content.length (List.replicate content.length c) =
        List.replicate content.length c := by
      have h := setLength_length fill (List.replicate content.length c)
      rwa [List.length_replicate] at h
    rw [hbase] at h
    have hlength := congrArg List.length h
    rw [length_zeroed, List.length_replicate] at hlength
    by_cases hlt : z < content.length
    · -- the last byte is the one that the file had before
      have hlast := congrArg (fun l : Bytes => l[content.length - 1]?) h
      simp only [zeroed, List.drop_replicate] at hlast
      rw [List.getElem?_append_right (by rw [List.length_replicate]; omega), List.length_replicate,
        List.getElem?_replicate, if_pos (by omega), List.getElem?_eq_getElem hpos] at hlast
      exact hc (Option.some.inj hlast)
    · -- all bytes are zeros, but then none is written
      have hzero : ∀ b ∈ content, b = 0 := by
        intro b hb
        rw [← h, zeroed, List.drop_replicate, Nat.sub_eq_zero_of_le (Nat.not_lt.1 hlt), List.replicate_zero,
          List.append_nil] at hb
        exact List.eq_of_mem_replicate hb
      rw [zeros_eq_zero 0 hzero] at hz
      omega
  · refine ⟨[], fun h => hne ?_⟩
    rw [result, if_neg hlen] at h
    exact h.symm

theorem result_nil (fill : Nat → UInt8) (old : Bytes) (threadNum : ℕ+) : result fill old [] threadNum = [] := rfl

theorem result_new_iff (content : Bytes) (threadNum : ℕ+) :
    result (fun _ => 0) [] content threadNum = content ↔ (∀ b ∈ content, b = 0) ∧ content.length < 2 ^ 31 := by
  by_cases hlen : content.length < 2 ^ 31
  · rw [result, if_pos hlen, setLength_nil, and_iff_left hlen]
    refine ⟨fun h b hb => ?_, fun h => ?_⟩
    · rw [← h, zeroed, List.drop_replicate, List.replicate_append_replicate] at hb
      exact List.eq_of_mem_replicate hb
    · rw [zeros_eq_zero 0 h, zeroed_zero]
      exact (List.eq_replicate_iff.2 ⟨rfl, h⟩).symm
  · rw [result, if_neg hlen]
    refine ⟨fun h => absurd ?_ hlen, fun h => absurd h.2 hlen⟩
    rw [← h]
    decide

/-- Whatever the number of threads and their schedule: the file comes out right over every file that was there before
if and only if the content is empty, and over no file, where the system puts zeros into the part by which a file
grows, if and only if the content is zeros and its length is an `int`. -/
theorem reproduces_iff (content : Bytes) (threadNum : ℕ+) :
    ((∀ fill old, Reproduces fill old content threadNum) ↔ content = []) ∧
      (Reproduces (fun _ => 0) [] content threadNum ↔ (∀ b ∈ content, b = 0) ∧ content.length < 2 ^ 31) := by
  refine ⟨⟨fun h => ?_, ?_⟩, reproduces_iff_result.trans (result_new_iff content threadNum)⟩
  · by_contra hne
    obtain ⟨old, hold⟩ := exists_result_ne threadNum hne fun _ => 0
    exact hold (reproduces_iff_result.1 (h _ old))
  · rintro rfl fill old
    exact reproduces_iff_result.2 (result_nil fill old threadNum)

theorem one_byte_not_reproduced : ¬ Reproduces (fun _ => 0) [] [5] 1 := by
  intro h
  have hrun : run (step fun _ => 0) (start (fun _ => 0) [] [5] 1) [0, 0, 0] =
      some ⟨2, [0, 0, 0, 0, 0], [⟨[], 5, 5, none, true⟩]⟩ := by decide
  exact absurd (h _ _ hrun (by decide)) (by decide)

end Download

end GoodGoodStudy.MultiThreadDown
