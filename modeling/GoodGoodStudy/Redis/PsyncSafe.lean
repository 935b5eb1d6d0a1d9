/-
Replication loses and mixes up nothing. A replication id stands for one history: the servers that have it are at places
of this history, which their offsets tell. So a replica that is cut off, wherever it asks, is sent what it lacks, or
everything.
-/
import GoodGoodStudy.Redis.Psync

namespace GoodGoodStudy.Redis

open GoodGoodStudy.Lib

variable {Node : Type}

/-! ## Histories -/

/-- What the master of an id has written, with its offset, for the ids that have been given to replicas. -/
abbrev Hist := Replid → Option (List UInt8 × ℕ)

/-- The data is the history of the id up to the offset. -/
def Hist.At (H : Hist) (r : Replid) (offset : ℕ) (data : List UInt8) : Prop :=
  ∃ tail, H r = some (data ++ tail, offset + tail.length)

namespace Hist

variable {H H' : Hist} {r : Replid} {o o' : ℕ} {d d' bs : List UInt8}

theorem At.ne_none (h : H.At r o d) : H r ≠ none := by
  obtain ⟨tail, h⟩ := h
  rw [h]
  nofun

/-- Two places of a history: the data of the later one goes on from that of the earlier one. -/
theorem At.later (h : H.At r o d) (h' : H.At r o' d') (hle : o ≤ o') : ∃ bs, d' = d ++ bs ∧ o' = o + bs.length := by
  obtain ⟨tail, h⟩ := h
  obtain ⟨tail', h'⟩ := h'
  rw [h, Option.some.injEq, Prod.mk.injEq] at h'
  obtain ⟨hdata, hoff⟩ := h'
  have hlen := congrArg List.length hdata
  rw [List.length_append, List.length_append] at hlen
  obtain ⟨bs, rfl, rfl⟩ | ⟨bs, rfl, rfl⟩ := List.append_eq_append_iff.1 hdata
  · refine ⟨bs, rfl, ?_⟩
    rw [List.length_append] at hoff
    omega
  · rw [List.length_append] at hoff
    obtain rfl : bs = [] := List.length_eq_zero_iff.1 (by omega)
    exact ⟨[], by rw [List.append_nil, List.append_nil], by simp at hoff ⊢; omega⟩

theorem At.of_append (h : H.At r (o + bs.length) (d ++ bs)) : H.At r o d := by
  obtain ⟨tail, h⟩ := h
  exact ⟨bs ++ tail, by rw [h, List.append_assoc, List.length_append, Nat.add_assoc]⟩

theorem at_self (h : H r = some (d, o)) : H.At r o d := ⟨[], by rw [h, List.append_nil, List.length_nil, Nat.add_zero]⟩

/-- The history of one id goes on, or begins. -/
theorem At.update (h : H.At r o d) {r' : Replid} {D : List UInt8} {T : ℕ}
    (hext : H r' = none ∨ ∃ bs, H r' = some (D, T) ∧ d' = D ++ bs ∧ o' = T + bs.length) :
    Hist.At (Function.update H r' (some (d', o'))) r o d := by
  obtain ⟨tail, h⟩ := h
  rcases eq_or_ne r r' with rfl | hne
  · rcases hext with hnone | ⟨bs, hsome, rfl, rfl⟩
    · rw [hnone] at h
      cases h
    · rw [h, Option.some.injEq, Prod.mk.injEq] at hsome
      obtain ⟨rfl, rfl⟩ := hsome
      refine ⟨tail ++ bs, ?_⟩
      rw [Function.update_self, List.append_assoc, List.length_append, Nat.add_assoc]
  · exact ⟨tail, by rw [Function.update_of_ne hne, h]⟩

end Hist

/-! ## The invariant -/

/-- The replica still reads from the link. -/
def ReplState.Holds (state : ReplState) (l : ℕ) : Prop := state = .handshake l ∨ ∃ r o, state = .connected l r o

/-- One server, with the links. -/
structure ServerOk (H : Hist) (link : ℕ → Link Node) (nextLink : ℕ) (nextId : Replid) (n : Node) (s : Server Node) :
    Prop where
  size_pos : s.repl_backlog_size ≠ 0
  replid_lt : s.replid < nextId
  backlog : ∀ b, s.repl_backlog = some b →
    b.Holds s.data s.master_repl_offset ∧ H.At s.replid s.master_repl_offset s.data
  second : s.repl_backlog ≠ none → ∀ r o, s.replid2 = some (r, o) → ∃ d tail o', o = o' + 1 ∧ s.data = d ++ tail ∧
    s.master_repl_offset = o' + tail.length ∧ H.At r o' d
  cached : ∀ r o, s.cached_master = some (r, o) → r = s.replid ∧ o = s.master_repl_offset ∧ s.masterhost ≠ none ∧
    (s.repl_backlog = none → H r = none)
  master : s.masterhost = none → s.repl_state = .idle
  untracked : s.masterhost = none → s.repl_backlog = none → H s.replid = none
  writer : s.masterhost = none → s.repl_backlog ≠ none → H s.replid = some (s.data, s.master_repl_offset)
  slaves : s.slaves ≠ [] → s.repl_backlog ≠ none
  slaves_link : ∀ l ∈ s.slaves, l < nextLink ∧ (link l).master = n
  handshake : ∀ l, s.repl_state = .handshake l → l < nextLink ∧ (link l).slave = n ∧
    ∀ r buf, (link l).state = .online r buf → s.cached_master ≠ none ∧ s.repl_backlog ≠ none
  transfer : ∀ l r o, s.repl_state = .transfer l r o → l < nextLink ∧ (link l).slave = n ∧
    (∃ rdb buf, (link l).state = .waitBgsaveEnd r o rdb buf ∨ (link l).state = .sendBulk r o rdb buf) ∧
    s.slaves = [] ∧ s.repl_backlog = none ∧ s.cached_master = none
  connected : ∀ l r o, s.repl_state = .connected l r o → l < nextLink ∧ (link l).slave = n ∧
    (∃ buf, (link l).state = .online r buf) ∧ r = s.replid ∧ o = s.master_repl_offset ∧ s.repl_backlog ≠ none ∧
    s.cached_master = none

/-- What is on the link goes on from the data at the offset, and if the master still knows the link, up to its own
data. -/
def Flows (H : Hist) (m : Server Node) (l : ℕ) (r : Replid) (o : ℕ) (d buf : List UInt8) : Prop :=
  H.At r (o + buf.length) (d ++ buf) ∧
    (l ∈ m.slaves → m.replid = r ∧ m.master_repl_offset = o + buf.length ∧ m.data = d ++ buf)

/-- One link. -/
def LinkOk (H : Hist) (l : ℕ) (m s : Server Node) : SlaveState → Prop
  | .waitBgsaveStart => True
  | .waitBgsaveEnd r o rdb buf => Flows H m l r o rdb buf
  | .sendBulk r o rdb buf => Flows H m l r o rdb buf
  | .online r buf => (l ∈ m.slaves → m.replid = r) ∧
      (s.repl_state.Holds l → Flows H m l r s.master_repl_offset s.data buf)

structure NetOk (H : Hist) (net : Net Node) : Prop where
  server : ∀ n, ServerOk H net.link net.nextLink net.nextId n (net.server n)
  link : ∀ l < net.nextLink, (net.link l).master ≠ (net.link l).slave ∧
    LinkOk H l (net.server (net.link l).master) (net.server (net.link l).slave) (net.link l).state
  masters : ∀ n n', (net.server n).masterhost = none → (net.server n').masterhost = none →
    (net.server n).replid = (net.server n').replid → n = n'
  tracked_lt : ∀ r, H r ≠ none → r < net.nextId

/-- The history of `n` goes on, or a new one begins. -/
structure Extends (net : Net Node) (n : Node) (H H' : Hist) : Prop where
  mono : ∀ {r o d}, H.At r o d → H'.At r o d
  old : ∀ r < net.nextId, H r = none → H' r = none
  writers : ∀ n', n' ≠ n → (net.server n').masterhost = none →
    H' (net.server n').replid = H (net.server n').replid

theorem Extends.refl (net : Net Node) (n : Node) (H : Hist) : Extends net n H H :=
    ⟨id, fun _ _ h => h, fun _ _ _ => rfl⟩

theorem Extends.fresh {net : Net Node} {H : Hist} (h : NetOk H net) (n : Node) (x : List UInt8 × ℕ) :
    Extends net n H (Function.update H net.nextId (some x)) where
  mono hat :=
    hat.update (D := x.1) (T := x.2) (.inl (Classical.not_not.1 fun hne => Nat.lt_irrefl _ (h.tracked_lt _ hne)))
  old r hr hnone := by rw [Function.update_of_ne hr.ne, hnone]
  writers n' _ _ := Function.update_of_ne (h.server n').replid_lt.ne _ _

variable {H H' : Hist} {link link' : ℕ → Link Node} {nextLink nextId : ℕ} {n : Node} {s m : Server Node}

/-- What a step does to a link, as far as the replica has relied on it. -/
structure SlaveState.Goes (st st' : SlaveState) : Prop where
  online : ∀ r, (∃ buf, st' = .online r buf) ↔ ∃ buf, st = .online r buf
  wait : ∀ r o, (∃ rdb buf, st = .waitBgsaveEnd r o rdb buf ∨ st = .sendBulk r o rdb buf) →
    ∃ rdb buf, st' = .waitBgsaveEnd r o rdb buf ∨ st' = .sendBulk r o rdb buf

namespace SlaveState.Goes

theorem refl (st : SlaveState) : st.Goes st := ⟨fun _ => Iff.rfl, fun _ _ h => h⟩

theorem feed (bs : List UInt8) (st : SlaveState) : st.Goes (st.feed bs) := by
  cases st <;> constructor <;> simp [SlaveState.feed]

theorem bgsave {Node : Type} (s : Server Node) (st : SlaveState) : st.Goes (st.bgsave s) := by
  cases st <;> constructor <;> simp [SlaveState.bgsave]

theorem bgsaveDone (st : SlaveState) : st.Goes st.bgsaveDone := by
  cases st <;> constructor <;> simp [SlaveState.bgsaveDone]

end SlaveState.Goes

/-- What a step does to the links that a server reads. -/
def LinksGo (net : Net Node) (link' : ℕ → Link Node) (n : Node) : Prop :=
  ∀ l < net.nextLink, (link' l).master = (net.link l).master ∧ (link' l).slave = (net.link l).slave ∧
    ((net.link l).slave = n → (net.link l).state.Goes (link' l).state)

theorem LinksGo.refl (net : Net Node) (n : Node) : LinksGo net net.link n :=
  fun _ _ => ⟨rfl, rfl, fun _ => .refl _⟩

/-- A server that does not change. -/
theorem ServerOk.mono {net : Net Node} {n₀ : Node} (h : ServerOk H net.link net.nextLink net.nextId n (net.server n))
    (hext : Extends net n₀ H H') (hwriter : (net.server n).masterhost = none →
      H' (net.server n).replid = H (net.server n).replid)
    {nextLink' nextId' : ℕ} (hnl : net.nextLink ≤ nextLink') (hid : net.nextId ≤ nextId')
    (hlink : LinksGo net link' n) :
    ServerOk H' link' nextLink' nextId' n (net.server n) where
  size_pos := h.size_pos
  replid_lt := h.replid_lt.trans_le hid
  backlog b hb := ⟨(h.backlog b hb).1, hext.mono (h.backlog b hb).2⟩
  second hb r o hr := by
    obtain ⟨d, tail, o', ho, hd, hoff, hat⟩ := h.second hb r o hr
    exact ⟨d, tail, o', ho, hd, hoff, hext.mono hat⟩
  cached r o hc := by
    obtain ⟨rfl, ho, hm, hnone⟩ := h.cached r o hc
    exact ⟨rfl, ho, hm, fun hb => hext.old _ h.replid_lt (hnone hb)⟩
  master := h.master
  untracked hm hb := hext.old _ h.replid_lt (h.untracked hm hb)
  writer hm hb := (hwriter hm).trans (h.writer hm hb)
  slaves := h.slaves
  slaves_link l hl := by
    obtain ⟨hlt, hmaster⟩ := h.slaves_link l hl
    exact ⟨hlt.trans_le hnl, (hlink l hlt).1.trans hmaster⟩
  handshake l hl := by
    obtain ⟨hlt, hslave, honline⟩ := h.handshake l hl
    obtain ⟨-, hslave', hgoes⟩ := hlink l hlt
    refine ⟨hlt.trans_le hnl, hslave'.trans hslave, fun r buf hr => ?_⟩
    obtain ⟨buf', hr'⟩ := ((hgoes hslave).online r).1 ⟨buf, hr⟩
    exact honline r buf' hr'
  transfer l r o hl := by
    obtain ⟨hlt, hslave, hst, hrest⟩ := h.transfer l r o hl
    obtain ⟨-, hslave', hgoes⟩ := hlink l hlt
    exact ⟨hlt.trans_le hnl, hslave'.trans hslave, (hgoes hslave).wait r o hst, hrest⟩
  connected l r o hl := by
    obtain ⟨hlt, hslave, hst, hrest⟩ := h.connected l r o hl
    obtain ⟨-, hslave', hgoes⟩ := hlink l hlt
    exact ⟨hlt.trans_le hnl, hslave'.trans hslave, ((hgoes hslave).online r).2 hst, hrest⟩

/-- A link whose master and replica keep what they have. -/
theorem LinkOk.mono {l : ℕ} {m m' s s' : Server Node} {st : SlaveState} (h : LinkOk H l m s st)
    (hmono : ∀ {r o d}, H.At r o d → H'.At r o d)
    (hm : l ∈ m'.slaves → l ∈ m.slaves ∧ m'.replid = m.replid ∧ m'.master_repl_offset = m.master_repl_offset ∧
      m'.data = m.data)
    (hs : s'.repl_state.Holds l → s.repl_state.Holds l ∧ s'.master_repl_offset = s.master_repl_offset ∧
      s'.data = s.data) :
    LinkOk H' l m' s' st := by
  have hflows : ∀ {r o d buf}, Flows H m l r o d buf → Flows H' m' l r o d buf := by
    rintro r o d buf ⟨hat, hmem⟩
    refine ⟨hmono hat, fun hl => ?_⟩
    obtain ⟨hl, hr, ho, hd⟩ := hm hl
    rw [hr, ho, hd]
    exact hmem hl
  cases st with
  | waitBgsaveStart => exact trivial
  | waitBgsaveEnd r o rdb buf => exact hflows h
  | sendBulk r o rdb buf => exact hflows h
  | online r buf =>
    refine ⟨fun hl => ?_, fun hholds => ?_⟩
    · obtain ⟨hl, hr, -, -⟩ := hm hl
      exact hr.trans (h.1 hl)
    · obtain ⟨hholds, ho, hd⟩ := hs hholds
      rw [ho, hd]
      exact hflows (h.2 hholds)

/-- What is fed to a link. -/
theorem LinkOk.feed {l : ℕ} {m m' s : Server Node} {st : SlaveState} {bs : List UInt8} (h : LinkOk H l m s st)
    (hmem : l ∈ m.slaves) (hr : m'.replid = m.replid) (ho : m'.master_repl_offset = m.master_repl_offset + bs.length)
    (hd : m'.data = m.data ++ bs) (hat : H'.At m'.replid m'.master_repl_offset m'.data) :
    LinkOk H' l m' s (st.feed bs) := by
  have hflows : ∀ {r o d buf}, Flows H m l r o d buf → Flows H' m' l r o d (buf ++ bs) := by
    rintro r o d buf ⟨-, hflows⟩
    obtain ⟨rfl, hoff, hdata⟩ := hflows hmem
    have ho' : m'.master_repl_offset = o + (buf ++ bs).length := by rw [ho, hoff, List.length_append, Nat.add_assoc]
    have hd' : m'.data = d ++ (buf ++ bs) := by rw [hd, hdata, List.append_assoc]
    rw [hr, ho', hd'] at hat
    exact ⟨hat, fun _ => ⟨hr, ho', hd'⟩⟩
  cases st with
  | waitBgsaveStart => exact trivial
  | waitBgsaveEnd r o rdb buf => exact hflows h
  | sendBulk r o rdb buf => exact hflows h
  | online r buf => exact ⟨fun _ => hr.trans (h.1 hmem), fun hholds => hflows (h.2 hholds)⟩

/-- The replica takes the first bytes from its link. -/
theorem Flows.taken {m : Server Node} {l : ℕ} {r : Replid} {o : ℕ} {d bs rest : List UInt8}
    (h : Flows H m l r o d (bs ++ rest)) : Flows H m l r (o + bs.length) (d ++ bs) rest := by
  rw [Flows, List.length_append, ← Nat.add_assoc, ← List.append_assoc] at h
  exact h

/-- A link of a net in which one server changes. -/
theorem LinkOk.update [DecidableEq Node] {server : Node → Server Node} {l : ℕ} {lk : Link Node}
    (h : LinkOk H l (server lk.master) (server lk.slave) lk.state) (hmono : ∀ {r o d}, H.At r o d → H'.At r o d)
    (hslaves : lk.master = n → l ∈ s.slaves → l ∈ (server n).slaves ∧ s.replid = (server n).replid ∧
      s.master_repl_offset = (server n).master_repl_offset ∧ s.data = (server n).data)
    (hholds : lk.slave = n → s.repl_state.Holds l → (server n).repl_state.Holds l ∧
      s.master_repl_offset = (server n).master_repl_offset ∧ s.data = (server n).data) :
    LinkOk H' l (Function.update server n s lk.master) (Function.update server n s lk.slave) lk.state := by
  apply h.mono hmono
  · rcases eq_or_ne lk.master n with rfl | hm
    · rw [Function.update_self]
      exact hslaves rfl
    · rw [Function.update_of_ne hm]
      exact fun hl => ⟨hl, rfl, rfl, rfl⟩
  · rcases eq_or_ne lk.slave n with rfl | hm
    · rw [Function.update_self]
      exact hholds rfl
    · rw [Function.update_of_ne hm]
      exact fun hl => ⟨hl, rfl, rfl⟩

/-- A step that changes one server, and links. -/
theorem NetOk.change [DecidableEq Node] {net : Net Node} (h : NetOk H net) (hext : Extends net n H H')
    {nextLink' nextId' : ℕ} (hnl : net.nextLink ≤ nextLink') (hid : net.nextId ≤ nextId')
    (hserver : ServerOk H' link' nextLink' nextId' n s)
    (hlinks : ∀ n', n' ≠ n → LinksGo net link' n')
    (hlink : ∀ l < nextLink', (link' l).master ≠ (link' l).slave ∧
      LinkOk H' l (Function.update net.server n s (link' l).master) (Function.update net.server n s (link' l).slave)
        (link' l).state)
    (hmaster : s.masterhost = none → (net.server n).masterhost = none ∧ s.replid = (net.server n).replid ∨
      s.replid = net.nextId)
    (htracked : ∀ r, H' r ≠ none → r < nextId') :
    NetOk H' ⟨Function.update net.server n s, link', nextLink', nextId'⟩ where
  server n' := by
    show ServerOk H' link' nextLink' nextId' n' (Function.update net.server n s n')
    rcases eq_or_ne n' n with rfl | hne
    · rw [Function.update_self]
      exact hserver
    · rw [Function.update_of_ne hne]
      exact (h.server n').mono hext (hext.writers n' hne) hnl hid (hlinks n' hne)
  link := hlink
  masters := by
    -- a fresh id is no server's, and the others keep theirs
    have hone : ∀ n' ≠ n, s.masterhost = none → (net.server n').masterhost = none →
      s.replid ≠ (net.server n').replid := by
      intro n' hne hs hn' heq
      rcases hmaster hs with ⟨hold, hr⟩ | hr
      · exact hne (h.masters n n' hold hn' (hr.symm.trans heq)).symm
      · exact (h.server n').replid_lt.ne (heq.symm.trans hr)
    intro n₁ n₂
    show (Function.update net.server n s n₁).masterhost = none → (Function.update net.server n s n₂).masterhost = none →
      (Function.update net.server n s n₁).replid = (Function.update net.server n s n₂).replid → n₁ = n₂
    rcases eq_or_ne n n₁ with rfl | h₁ <;> rcases eq_or_ne n n₂ with rfl | h₂
    · intros
      rfl
    · rw [Function.update_self, Function.update_of_ne h₂.symm]
      intro hs hn' heq
      exact absurd heq (hone n₂ h₂.symm hs hn')
    · rw [Function.update_self, Function.update_of_ne h₁.symm]
      intro hn' hs heq
      exact absurd heq.symm (hone n₁ h₁.symm hs hn')
    · rw [Function.update_of_ne h₁.symm, Function.update_of_ne h₂.symm]
      exact h.masters n₁ n₂
  tracked_lt := htracked

/-- A step that changes one server, and no link. -/
theorem NetOk.setServer [DecidableEq Node] {net : Net Node} (h : NetOk H net) (hext : Extends net n H H')
    {nextId' : ℕ} (hid : net.nextId ≤ nextId') (hserver : ServerOk H' net.link net.nextLink nextId' n s)
    (hslaves : ∀ l ∈ s.slaves, l ∈ (net.server n).slaves ∧ s.replid = (net.server n).replid ∧
      s.master_repl_offset = (net.server n).master_repl_offset ∧ s.data = (net.server n).data)
    (hholds : ∀ l, s.repl_state.Holds l → (net.server n).repl_state.Holds l ∧
      s.master_repl_offset = (net.server n).master_repl_offset ∧ s.data = (net.server n).data)
    (hmaster : s.masterhost = none → (net.server n).masterhost = none ∧ s.replid = (net.server n).replid ∨
      s.replid = net.nextId)
    (htracked : ∀ r, H' r ≠ none → r < nextId') :
    NetOk H' { net.setServer n s with nextId := nextId' } := by
  refine h.change hext le_rfl hid hserver (fun _ _ => .refl _ _) (fun l hl => ?_) hmaster htracked
  obtain ⟨hne, hok⟩ := h.link l hl
  exact ⟨hne, hok.update hext.mono (fun _ => hslaves l) (fun _ => hholds l)⟩

end GoodGoodStudy.Redis
