/-
The replication backlog: a circular buffer with the last bytes of the replication stream, from which a replica that
comes back gets what it has missed. The `while` loops have fuel for one round a byte, `none` says that a loop does not
end.
-/
import Mathlib.Data.List.Basic
import Mathlib.Tactic.Linarith

namespace GoodGoodStudy.Redis

/-- `repl_backlog` with `repl_backlog_size`, `_idx`, `_histlen` and `_off`. -/
structure Backlog where
  buf : List UInt8
  size : ℕ
  idx : ℕ
  histlen : ℕ
  /-- The offset of the first byte that is in the buffer. -/
  off : ℕ
  deriving DecidableEq, Repr

/-- `zmalloc` does not say what is in the buffer; it has `buf`. -/
def createReplicationBacklog (buf : List UInt8) (master_repl_offset : ℕ) : Backlog :=
  ⟨buf, buf.length, 0, 0, master_repl_offset + 1⟩

/-- The loop of `feedReplicationBacklog`. -/
def feedLoop : ℕ → List UInt8 → Backlog → Option Backlog
  | _, [], b => some b
  | 0, _ :: _, _ => none
  | fuel + 1, x :: p, b =>
    let thislen := min (b.size - b.idx) (x :: p).length
    let idx := b.idx + thislen
    feedLoop fuel ((x :: p).drop thislen)
      { b with
        buf := b.buf.take b.idx ++ (x :: p).take thislen ++ b.buf.drop idx
        idx := if idx = b.size then 0 else idx
        histlen := b.histlen + thislen }

/-- `master_repl_offset` is the offset with the bytes that are fed. -/
def feedReplicationBacklog (b : Backlog) (p : List UInt8) (master_repl_offset : ℕ) : Option Backlog :=
  (feedLoop p.length p b).map fun b =>
    { b with
      histlen := min b.histlen b.size
      off := master_repl_offset - min b.histlen b.size + 1 }

/-- The loop of `addReplyReplicationBacklog`. -/
def replyLoop (b : Backlog) : ℕ → ℕ → ℕ → Option (List UInt8)
  | _, _, 0 => some []
  | 0, _, _ + 1 => none
  | fuel + 1, j, len + 1 =>
    let thislen := min (b.size - j) (len + 1)
    (replyLoop b fuel 0 (len + 1 - thislen)).map fun reply => (b.buf.drop j).take thislen ++ reply

/-- What is sent to a replica that asks for the stream from `offset` on. -/
def addReplyReplicationBacklog (b : Backlog) (offset : ℕ) : Option (List UInt8) :=
  if b.histlen = 0 then some []
  else
    let skip := offset - b.off
    let j := (b.idx + (b.size - b.histlen)) % b.size
    replyLoop b (b.histlen - skip) ((j + skip) % b.size) (b.histlen - skip)

namespace Backlog

/-- The bytes of the buffer in the order in which they were written. -/
def written (b : Backlog) : List UInt8 := b.buf.drop b.idx ++ b.buf.take b.idx

/-- The bytes that are valid. -/
def content (b : Backlog) : List UInt8 := b.written.drop (b.size - b.histlen)

structure Ok (b : Backlog) : Prop where
  length : b.buf.length = b.size
  idx_lt : b.idx < b.size

theorem Ok.length_written {b : Backlog} (h : b.Ok) : b.written.length = b.size := by
  rw [written, List.length_append, List.length_drop, List.length_take, h.length]
  have := h.idx_lt
  omega

/-- A chunk that fits in front of the end of the buffer takes the place of the oldest bytes. -/
theorem written_chunk {b : Backlog} (h : b.Ok) {c : List UInt8} (hc : c.length ≤ b.size - b.idx) (histlen off : ℕ) :
    let b' : Backlog := ⟨b.buf.take b.idx ++ c ++ b.buf.drop (b.idx + c.length), b.size,
      if b.idx + c.length = b.size then 0 else b.idx + c.length, histlen, off⟩
    b'.Ok ∧ b'.written = (b.written ++ c).drop c.length := by
  have hidx := h.idx_lt
  have hlen := h.length
  have htake : (b.buf.take b.idx).length = b.idx := by
    rw [List.length_take]
    omega
  have hwritten : (b.written ++ c).drop c.length = b.buf.drop (b.idx + c.length) ++ (b.buf.take b.idx ++ c) := by
    rw [written, List.append_assoc, List.drop_append_of_le_length (by rw [List.length_drop]; omega), List.drop_drop]
  refine ⟨⟨?_, ?_⟩, ?_⟩
  · simp only [List.length_append, List.length_take, List.length_drop]
    omega
  · show (if b.idx + c.length = b.size then 0 else b.idx + c.length) < b.size
    split_ifs <;> omega
  · rw [hwritten]
    show List.drop (if b.idx + c.length = b.size then 0 else b.idx + c.length) _ ++ List.take _ _ = _
    split_ifs with heq
    · rw [List.drop_zero, List.take_zero, List.append_nil, heq, ← hlen, List.drop_length, List.append_nil,
        List.nil_append]
    · have hfront : (b.buf.take b.idx ++ c).length = b.idx + c.length := by rw [List.length_append, htake]
      rw [← hfront, List.drop_left, List.take_left]

/-- The loop writes the bytes over the oldest ones. -/
theorem feedLoop_spec {fuel : ℕ} {p : List UInt8} {b : Backlog} (h : b.Ok) (hfuel : p.length ≤ fuel) :
    ∃ b', feedLoop fuel p b = some b' ∧ b'.Ok ∧ b'.size = b.size ∧ b'.histlen = b.histlen + p.length ∧
      b'.written = (b.written ++ p).drop p.length := by
  induction fuel generalizing p b with
  | zero =>
    obtain rfl := List.length_eq_zero_iff.1 (Nat.le_zero.1 hfuel)
    exact ⟨b, by rw [feedLoop], h, rfl, rfl, by rw [List.append_nil]; rfl⟩
  | succ fuel ih =>
    rcases p with _ | ⟨x, p⟩
    · exact ⟨b, by rw [feedLoop], h, rfl, rfl, by rw [List.append_nil]; rfl⟩
    have hidx := h.idx_lt
    obtain ⟨n, hn⟩ : ∃ n, n = min (b.size - b.idx) (x :: p).length := ⟨_, rfl⟩
    have hpos : 0 < (x :: p).length := Nat.succ_pos p.length
    have hlen : ((x :: p).take n).length = n := by rw [List.length_take]; omega
    obtain ⟨hok, hwritten⟩ := written_chunk h (c := (x :: p).take n) (by omega) (b.histlen + n) b.off
    rw [hlen] at hok hwritten
    obtain ⟨b', hrun, hok', hsize, hhist, hwritten'⟩ := ih (p := (x :: p).drop n) hok (by rw [List.length_drop]; omega)
    refine ⟨b', ?_, hok', hsize, ?_, ?_⟩
    · rw [feedLoop, ← hn]
      exact hrun
    · rw [hhist, List.length_drop]
      show b.histlen + n + _ = _
      omega
    · have hle : n ≤ (b.written ++ (x :: p).take n).length := by
        rw [List.length_append, hlen]
        omega
      rw [hwritten', hwritten, ← List.drop_append_of_le_length hle, List.append_assoc, List.take_append_drop,
        List.drop_drop, List.length_drop]
      congr 1
      omega

theorem suffix_append_right {l l' : List UInt8} (h : l <:+ l') (p : List UInt8) : l ++ p <:+ l' ++ p := by
  obtain ⟨t, rfl⟩ := h
  exact ⟨t, (List.append_assoc t l p).symm⟩

/-- The buffer has the last bytes of a stream that ends at the offset. -/
structure Holds (b : Backlog) (stream : List UInt8) (offset : ℕ) : Prop where
  ok : b.Ok
  histlen_le : b.histlen ≤ b.size
  off_pos : 0 < b.off
  off_add : b.off + b.histlen = offset + 1
  suffix : b.content <:+ stream

theorem Ok.length_content {b : Backlog} (h : b.Ok) (hle : b.histlen ≤ b.size) : b.content.length = b.histlen := by
  rw [content, List.length_drop, h.length_written]
  omega

theorem holds_create {buf : List UInt8} (hbuf : buf ≠ []) (stream : List UInt8) (offset : ℕ) :
    (createReplicationBacklog buf offset).Holds stream offset where
  ok := ⟨rfl, List.length_pos_iff.2 hbuf⟩
  histlen_le := Nat.zero_le _
  off_pos := Nat.succ_pos offset
  off_add := rfl
  suffix := by
    have hnil : (createReplicationBacklog buf offset).content = [] := by
      rw [content, written, createReplicationBacklog]
      simp
    rw [hnil]
    exact List.nil_suffix

/-- Feeding the buffer goes on with the stream. -/
theorem Holds.feed {b : Backlog} {stream : List UInt8} {offset : ℕ} (h : b.Holds stream offset) (p : List UInt8) :
    ∃ b', feedReplicationBacklog b p (offset + p.length) = some b' ∧
      b'.Holds (stream ++ p) (offset + p.length) ∧ b'.size = b.size := by
  obtain ⟨b₁, hrun, hok, hsize, hhist, hwritten⟩ := feedLoop_spec h.ok (p := p) le_rfl
  have hadd := h.off_add
  have hpos := h.off_pos
  refine ⟨{ b₁ with
      histlen := min b₁.histlen b₁.size
      off := offset + p.length - min b₁.histlen b₁.size + 1 }, by rw [feedReplicationBacklog, hrun]; rfl,
    ⟨⟨hok.length, hok.idx_lt⟩, min_le_right _ _, Nat.succ_pos _, ?_, ?_⟩, hsize⟩
  · show offset + p.length - min b₁.histlen b₁.size + 1 + min b₁.histlen b₁.size = offset + p.length + 1
    omega
  · show b₁.written.drop (b₁.size - min b₁.histlen b₁.size) <:+ stream ++ p
    -- both are ends of the old bytes followed by the new ones
    have hnew : b₁.written.drop (b₁.size - min b₁.histlen b₁.size) <:+ b.written ++ p := by
      rw [hwritten]
      exact (List.drop_suffix _ _).trans (List.drop_suffix _ _)
    have hold : b.content ++ p <:+ b.written ++ p := suffix_append_right (List.drop_suffix _ _) p
    refine (List.suffix_of_suffix_length_le hnew hold ?_).trans (suffix_append_right h.suffix p)
    rw [List.length_drop, hok.length_written, List.length_append, h.ok.length_content h.histlen_le]
    omega

theorem replyLoop_step {b : Backlog} {fuel j len : ℕ} (hlen : len ≠ 0) :
    replyLoop b (fuel + 1) j len =
      (replyLoop b fuel 0 (len - min (b.size - j) len)).map fun reply =>
        (b.buf.drop j).take (min (b.size - j) len) ++ reply := by
  obtain ⟨len, rfl⟩ := Nat.exists_eq_succ_of_ne_zero hlen
  rfl

/-- A reply that begins at the beginning of the buffer. -/
theorem replyLoop_zero {b : Backlog} {fuel len : ℕ} (hle : len ≤ b.size) (hfuel : len ≠ 0 → fuel ≠ 0) :
    replyLoop b fuel 0 len = some (b.buf.take len) := by
  rcases Nat.eq_zero_or_pos len with rfl | hpos
  · rw [replyLoop, List.take_zero]
  · obtain ⟨fuel, rfl⟩ := Nat.exists_eq_succ_of_ne_zero (hfuel hpos.ne')
    rw [replyLoop_step hpos.ne', Nat.sub_zero, Nat.min_eq_right hle, Nat.sub_self, replyLoop, Option.map_some,
      List.drop_zero, List.append_nil]

/-- From the byte of any age on, the rest of the buffer is sent, in one piece or in two. -/
theorem replyLoop_spec {b : Backlog} (h : b.Ok) {age : ℕ} (hage : age ≤ b.size) :
    replyLoop b (b.size - age) ((b.idx + age) % b.size) (b.size - age) = some (b.written.drop age) := by
  have hidx := h.idx_lt
  have hlen := h.length
  rcases Nat.eq_or_lt_of_le hage with rfl | hlt
  · rw [Nat.sub_self, replyLoop, List.drop_eq_nil_of_le h.length_written.le]
  obtain ⟨fuel, hfuel⟩ := Nat.exists_eq_succ_of_ne_zero (Nat.sub_pos_of_lt hlt).ne'
  rw [hfuel, replyLoop_step (Nat.succ_ne_zero fuel), written]
  rcases Nat.lt_or_ge (b.idx + age) b.size with hin | hout
  · have hfirst : min (b.size - (b.idx + age)) (fuel + 1) = b.size - (b.idx + age) := by omega
    have hrest : fuel + 1 - (b.size - (b.idx + age)) = b.idx := by omega
    rw [Nat.mod_eq_of_lt hin, Nat.succ_eq_add_one, hfirst, hrest, replyLoop_zero hidx.le (by omega), Option.map_some,
      List.take_of_length_le (by rw [List.length_drop]; omega),
      List.drop_append_of_le_length (by rw [List.length_drop]; omega), List.drop_drop]
  · have hj : (b.idx + age) % b.size = b.idx + age - b.size := by
      rw [Nat.mod_eq_sub_mod hout, Nat.mod_eq_of_lt (by omega)]
    have hall : min (b.size - (b.idx + age - b.size)) (fuel + 1) = fuel + 1 := by omega
    have hpast : (b.buf.drop b.idx).drop age = [] := List.drop_eq_nil_of_le (by rw [List.length_drop]; omega)
    rw [hj, Nat.succ_eq_add_one, hall, Nat.sub_self, replyLoop, Option.map_some, List.append_nil, List.drop_append,
      hpast, List.nil_append, List.length_drop, List.drop_take]
    have hfrom : b.idx + age - b.size = age - (b.buf.length - b.idx) := by omega
    have hcount : fuel + 1 = b.idx - (age - (b.buf.length - b.idx)) := by omega
    rw [hfrom, hcount]

/-- A replica whose offset is in the buffer gets the rest of the stream. -/
theorem Holds.reply {b : Backlog} {stream : List UInt8} {offset : ℕ} (h : b.Holds stream offset) {psync_offset : ℕ}
    (hlo : b.off ≤ psync_offset) (hhi : psync_offset ≤ b.off + b.histlen) :
    ∃ reply, addReplyReplicationBacklog b psync_offset = some reply ∧ reply <:+ stream ∧
      psync_offset + reply.length = offset + 1 := by
  have hadd := h.off_add
  rw [addReplyReplicationBacklog]
  split_ifs with hz
  · exact ⟨[], rfl, List.nil_suffix, by rw [List.length_nil]; omega⟩
  have hle := h.histlen_le
  have hage : b.histlen - (psync_offset - b.off) = b.size - (b.size - b.histlen + (psync_offset - b.off)) := by omega
  have hj : ((b.idx + (b.size - b.histlen)) % b.size + (psync_offset - b.off)) % b.size =
      (b.idx + (b.size - b.histlen + (psync_offset - b.off))) % b.size := by rw [Nat.mod_add_mod, Nat.add_assoc]
  show ∃ reply, replyLoop b (b.histlen - (psync_offset - b.off))
    (((b.idx + (b.size - b.histlen)) % b.size + (psync_offset - b.off)) % b.size) (b.histlen - (psync_offset - b.off)) =
      some reply ∧ _
  rw [hage, hj]
  refine ⟨_, replyLoop_spec h.ok (by omega), ?_, ?_⟩
  · rw [← List.drop_drop]
    exact (List.drop_suffix _ _).trans h.suffix
  · rw [List.length_drop, h.ok.length_written]
    omega

end Backlog

end GoodGoodStudy.Redis
