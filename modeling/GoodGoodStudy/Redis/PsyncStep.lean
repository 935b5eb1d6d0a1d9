/-
What the steps of the replication keep: one lemma for each.
-/
import GoodGoodStudy.Redis.PsyncSafe

namespace GoodGoodStudy.Redis

open GoodGoodStudy.Lib

variable {Node : Type} {H H' : Hist} {link : ℕ → Link Node} {nextLink nextId : ℕ} {n : Node} {s : Server Node}

/-! ## One server -/

/-- The history of an id, if there is a backlog for it. -/
def Hist.record (H : Hist) (r : Replid) (bl : Option Backlog) (d : List UInt8) (o : ℕ) : Hist :=
  match bl with
  | none => H
  | some _ => Function.update H r (some (d, o))

theorem Hist.record_some {r : Replid} {bl : Option Backlog} (h : bl ≠ none) (d : List UInt8) (o : ℕ) :
    H.record r bl d o = Function.update H r (some (d, o)) := by
  obtain ⟨b, rfl⟩ := Option.ne_none_iff_exists'.1 h
  rfl

theorem NetOk.extends_record {net : Net Node} (h : NetOk H net) (n : Node) (bl : Option Backlog) (d : List UInt8)
    (o : ℕ) :
    Extends net n H (H.record net.nextId bl d o) := by
  cases bl with
  | none => exact .refl net n H
  | some b => exact .fresh h n _

theorem NetOk.record_lt {net : Net Node} (h : NetOk H net) (bl : Option Backlog) (d : List UInt8) (o : ℕ) {r : Replid}
    (hr : H.record net.nextId bl d o r ≠ none) : r < net.nextId + 1 := by
  rcases eq_or_ne r net.nextId with rfl | hne
  · exact Nat.lt_succ_self _
  · apply Nat.lt_succ_of_lt
    apply h.tracked_lt
    cases bl with
    | none => exact hr
    | some b => rwa [Hist.record, Function.update_of_ne hne] at hr

theorem NetOk.untracked_next {net : Net Node} (h : NetOk H net) : H net.nextId = none :=
  Classical.not_not.1 fun hne => Nat.lt_irrefl _ (h.tracked_lt _ hne)

namespace ServerOk

theorem idle (h : ServerOk H link nextLink nextId n s) :
    ServerOk H link nextLink nextId n { s with repl_state := .idle } :=
  { h with
    master := fun _ => rfl
    handshake := nofun
    transfer := nofun
    connected := nofun }

/-- The replica keeps its place in the history of its id. -/
theorem cacheMaster (h : ServerOk H link nextLink nextId n s) (hm : s.masterhost ≠ none)
    (hb : s.repl_backlog = none → H s.replid = none) :
    ServerOk H link nextLink nextId n
      { s with repl_state := .idle, cached_master := some (s.replid, s.master_repl_offset) } :=
  { h with
    cached := by
      rintro r o ⟨⟩
      exact ⟨rfl, rfl, hm, hb⟩
    master := fun _ => rfl
    handshake := nofun
    transfer := nofun
    connected := nofun }

theorem masterhost_ne_none (h : ServerOk H link nextLink nextId n s) (hs : s.repl_state ≠ .idle) :
    s.masterhost ≠ none :=
  fun hm => hs (h.master hm)

theorem dropMaster (h : ServerOk H link nextLink nextId n s) (cache : Bool) :
    ServerOk H link nextLink nextId n (s.dropMaster cache) := by
  rw [Server.dropMaster]
  split
  · next l r o heq =>
    obtain ⟨-, -, -, rfl, rfl, hb, -⟩ := h.connected l r o heq
    cases cache with
    | false => exact h.idle
    | true =>
      apply h.cacheMaster
      · apply h.masterhost_ne_none
        rw [heq]
        nofun
      · exact fun hnone => absurd hnone hb
  · exact h.idle

theorem dropMaster_repl_state (s : Server Node) (cache : Bool) : (s.dropMaster cache).repl_state = .idle := by
  rw [Server.dropMaster]
  split <;> rfl

theorem dropMaster_eq (s : Server Node) (cache : Bool) :
    s.dropMaster cache = { s with repl_state := .idle, cached_master := (s.dropMaster cache).cached_master } := by
  rw [Server.dropMaster]
  split <;> rfl

/-- A server that becomes a replica, without replicas. -/
theorem setHost (h : ServerOk H link nextLink nextId n s) (hs : s.repl_state = .idle) (host : Node) :
    ServerOk H link nextLink nextId n { s with masterhost := some host, slaves := [] } :=
  { h with
    cached := fun r o hc => by
      obtain ⟨hr, ho, -, hb⟩ := h.cached r o hc
      exact ⟨hr, ho, nofun, hb⟩
    master := nofun
    untracked := nofun
    writer := nofun
    slaves := fun hne => absurd rfl hne
    slaves_link := nofun
    transfer := fun l r o heq => by
      rw [show _ = s.repl_state from rfl, hs] at heq
      cases heq }

theorem setMaster (h : ServerOk H link nextLink nextId n s) (host : Node) (cache : Bool) :
    ServerOk H link nextLink nextId n (replicationSetMaster s host cache) := by
  have hdrop := (h.dropMaster cache).setHost (dropMaster_repl_state s cache) host
  rw [replicationSetMaster]
  split
  · next hm =>
    have heq := dropMaster_eq s cache
    refine cast ?_ (hdrop.cacheMaster nofun (fun hb => ?_))
    · rw [heq]
    · rw [heq] at hb ⊢
      exact h.untracked hm hb
  · exact hdrop

/-- A server without replicas that gives itself a new id, and with it a new history. -/
theorem restart (h : ServerOk H link nextLink nextId n s) (hnone : H nextId = none) {bl : Option Backlog}
    (hmono : ∀ {r o d}, H.At r o d → (H.record nextId bl s.data s.master_repl_offset).At r o d)
    (hbl : ∀ b, bl = some b → b.Holds s.data s.master_repl_offset) {replid2 : Option (Replid × ℕ)}
    (hsecond : bl ≠ none → ∀ r o, replid2 = some (r, o) →
      r = s.replid ∧ o = s.master_repl_offset + 1 ∧ s.repl_backlog ≠ none) :
    ServerOk (H.record nextId bl s.data s.master_repl_offset) link nextLink (nextId + 1) n
      { s with
        masterhost := none
        repl_state := .idle
        cached_master := none
        replid := nextId
        replid2 := replid2
        repl_backlog := bl
        slaves := [] } where
  size_pos := h.size_pos
  replid_lt := Nat.lt_succ_self nextId
  backlog b hb := by
    refine ⟨hbl b hb, Hist.at_self ?_⟩
    obtain rfl : bl = some b := hb
    exact Function.update_self _ _ _
  second hb r o hr := by
    obtain ⟨rfl, rfl, hold⟩ := hsecond hb r o hr
    obtain ⟨b, hold⟩ := Option.ne_none_iff_exists'.1 hold
    exact ⟨s.data, [], s.master_repl_offset, rfl, (List.append_nil _).symm, rfl, hmono (h.backlog b hold).2⟩
  cached := nofun
  master _ := rfl
  untracked _ hb := by
    obtain rfl : bl = none := hb
    exact hnone
  writer _ hb := by
    rw [Hist.record_some hb]
    exact Function.update_self _ _ _
  slaves hne := absurd rfl hne
  slaves_link := nofun
  handshake := nofun
  transfer := nofun
  connected := nofun

/-- What a master does not have. -/
theorem master_eq (h : ServerOk H link nextLink nextId n s) (hm : s.masterhost = none) :
    s = { s with masterhost := none, repl_state := .idle, cached_master := none } := by
  have hcached : s.cached_master = none := by
    rw [Option.eq_none_iff_forall_ne_some]
    rintro ⟨r, o⟩ hc
    exact (h.cached r o hc).2.2.1 hm
  rw [← hm, ← h.master hm, ← hcached]

/-- A master without replicas, under a new id. -/
theorem fresh_eq (h : ServerOk H link nextLink nextId n s) (hm : s.masterhost = none) (hslaves : s.slaves = [])
    (r : Replid) (bl : Option Backlog) :
    { s with replid := r, replid2 := none, repl_backlog := bl } =
      { s with
        masterhost := none
        repl_state := .idle
        cached_master := none
        replid := r
        replid2 := none
        repl_backlog := bl
        slaves := [] } := by
  conv_lhs => rw [h.master_eq hm]
  rw [← hslaves]

/-- A new backlog. -/
theorem holds_createBacklog (h : ServerOk H link nextLink nextId n s) :
    s.createBacklog.Holds s.data s.master_repl_offset :=
  Backlog.holds_create (mt (List.replicate_eq_nil_iff _).1 h.size_pos) _ _

theorem resize (h : ServerOk H link nextLink nextId n s) (newsize : ℕ) :
    ServerOk H link nextLink nextId n (resizeReplicationBacklog s newsize) := by
  have hpos : max newsize CONFIG_REPL_BACKLOG_MIN_SIZE ≠ 0 :=
    (lt_of_lt_of_le (by decide) (le_max_right newsize CONFIG_REPL_BACKLOG_MIN_SIZE)).ne'
  have hsize : ServerOk H link nextLink nextId n
      { s with repl_backlog_size := max newsize CONFIG_REPL_BACKLOG_MIN_SIZE } := { h with size_pos := hpos }
  rw [resizeReplicationBacklog]
  dsimp only
  split_ifs with heq
  · exact h
  · split
    · exact hsize
    · next b hb =>
      have hne : s.repl_backlog ≠ none := fun hnone => by
        rw [show s.repl_backlog = some b from hb] at hnone
        cases hnone
      exact
        { hsize with
          backlog := by
            rintro _ ⟨⟩
            exact ⟨hsize.holds_createBacklog, (h.backlog b hb).2⟩
          second := fun _ => h.second hne
          cached := fun r o hc => by
            obtain ⟨hr, ho, hm, -⟩ := h.cached r o hc
            exact ⟨hr, ho, hm, nofun⟩
          untracked := fun _ => nofun
          writer := fun hm _ => h.writer hm hne
          slaves := fun _ => nofun
          handshake := fun l hl => by
            obtain ⟨hlt, hslave, honline⟩ := h.handshake l hl
            exact ⟨hlt, hslave, fun r buf hr => ⟨(honline r buf hr).1, nofun⟩⟩
          transfer := fun l r o hl => absurd (h.transfer l r o hl).2.2.2.2.1 hne
          connected := fun l r o hl => by
            obtain ⟨hlt, hslave, hst, hr, ho, -, hc⟩ := h.connected l r o hl
            exact ⟨hlt, hslave, hst, hr, ho, nofun, hc⟩ }

theorem loseSlave (h : ServerOk H link nextLink nextId n s) (l : ℕ) :
    ServerOk H link nextLink nextId n { s with slaves := s.slaves.erase l } :=
  { h with
    slaves := fun hne => h.slaves fun hnil => hne (by rw [show s.slaves = [] from hnil]; rfl)
    slaves_link := fun l' hl' => h.slaves_link l' (List.mem_of_mem_erase hl')
    transfer := fun l' r o hl' => by
      obtain ⟨hlt, hslave, hst, hslaves, hrest⟩ := h.transfer l' r o hl'
      exact ⟨hlt, hslave, hst, by rw [hslaves]; rfl, hrest⟩ }

/-- One more replica. -/
theorem attach (h : ServerOk H link nextLink nextId n s) (hb : s.repl_backlog ≠ none)
    (hs : s.repl_state.isTransfer = false)
    {lk : Link Node} (hlk : lk.master = n) :
    ServerOk H (Function.update link nextLink lk) (nextLink + 1) nextId n { s with slaves := s.slaves ++ [nextLink] } :=
  have hold : ∀ {l}, l < nextLink → Function.update link nextLink lk l = link l :=
    fun hl => Function.update_of_ne hl.ne _ _
  { h with
    slaves := fun _ => hb
    slaves_link := fun l hl => by
      rcases List.mem_append.1 hl with hl | hl
      · obtain ⟨hlt, hmaster⟩ := h.slaves_link l hl
        rw [hold hlt]
        exact ⟨hlt.trans (Nat.lt_succ_self _), hmaster⟩
      · obtain rfl := List.mem_singleton.1 hl
        rw [Function.update_self]
        exact ⟨Nat.lt_succ_self _, hlk⟩
    handshake := fun l hl => by
      obtain ⟨hlt, hslave, honline⟩ := h.handshake l hl
      rw [hold hlt]
      exact ⟨hlt.trans (Nat.lt_succ_self _), hslave, honline⟩
    transfer := fun l r o hl => by
      rw [show s.repl_state = .transfer l r o from hl] at hs
      cases hs
    connected := fun l r o hl => by
      obtain ⟨hlt, hslave, hrest⟩ := h.connected l r o hl
      rw [hold hlt]
      exact ⟨hlt.trans (Nat.lt_succ_self _), hslave, hrest⟩ }

/-- The replica has asked for the stream. -/
theorem asked (h : ServerOk H link nextLink nextId n s) (hm : s.masterhost ≠ none) {l : ℕ} (hl : l < nextLink)
    (hslave : (link l).slave = n)
    (honline : ∀ r buf, (link l).state = .online r buf → s.cached_master ≠ none ∧ s.repl_backlog ≠ none) :
    ServerOk H link nextLink nextId n { s with repl_state := .handshake l } :=
  { h with
    master := fun hnone => absurd hnone hm
    handshake := by
      rintro _ ⟨⟩
      exact ⟨hl, hslave, honline⟩
    transfer := nofun
    connected := nofun }

/-- The replica waits for everything; what it has cannot be asked for any more. -/
theorem fullresync (h : ServerOk H link nextLink nextId n s) {l : ℕ} {r : Replid} {o : ℕ}
    (hs : s.repl_state = .handshake l)
    (hst : ∃ rdb buf, (link l).state = .waitBgsaveEnd r o rdb buf ∨ (link l).state = .sendBulk r o rdb buf) :
    ServerOk H link nextLink nextId n
      { s with repl_state := .transfer l r o, cached_master := none, slaves := [], repl_backlog := none } :=
  have hm : s.masterhost ≠ none := h.masterhost_ne_none (by rw [hs]; nofun)
  { h with
    backlog := nofun
    second := fun hne => absurd rfl hne
    cached := nofun
    master := fun hnone => absurd hnone hm
    untracked := fun hnone => absurd hnone hm
    writer := fun hnone => absurd hnone hm
    slaves := fun hne => absurd rfl hne
    slaves_link := nofun
    handshake := nofun
    transfer := by
      rintro _ _ _ ⟨⟩
      obtain ⟨hlt, hslave, -⟩ := h.handshake l hs
      exact ⟨hlt, hslave, hst, rfl, rfl, rfl⟩
    connected := nofun }

/-- The replica goes on under the id that it had. -/
theorem resume (h : ServerOk H link nextLink nextId n s) {l : ℕ} {buf : List UInt8} (hs : s.repl_state = .handshake l)
    (hst : (link l).state = .online s.replid buf) :
    ServerOk H link nextLink nextId n
      { s with repl_state := .connected l s.replid s.master_repl_offset, cached_master := none } :=
  have hm : s.masterhost ≠ none := h.masterhost_ne_none (by rw [hs]; nofun)
  { h with
    cached := nofun
    master := fun hnone => absurd hnone hm
    handshake := nofun
    transfer := nofun
    connected := by
      rintro _ _ _ ⟨⟩
      obtain ⟨hlt, hslave, honline⟩ := h.handshake l hs
      exact ⟨hlt, hslave, ⟨buf, hst⟩, rfl, rfl, (honline _ buf hst).2, rfl⟩ }

/-- The replica goes on under a new id, and remembers the old one up to here. -/
theorem changeId (h : ServerOk H link nextLink nextId n s) {l : ℕ} {r : Replid} {buf : List UInt8}
    (hs : s.repl_state = .handshake l) (hst : (link l).state = .online r buf) (hr : r < nextId)
    (hat : H.At r s.master_repl_offset s.data) :
    ServerOk H link nextLink nextId n
      { s with
        repl_state := .connected l r s.master_repl_offset
        cached_master := none
        replid := r
        replid2 := some (s.replid, s.master_repl_offset + 1)
        slaves := [] } :=
  have hm : s.masterhost ≠ none := h.masterhost_ne_none (by rw [hs]; nofun)
  { h with
    replid_lt := hr
    backlog := fun b hb => ⟨(h.backlog b hb).1, hat⟩
    second := by
      rintro hb _ _ ⟨⟩
      obtain ⟨b, hb⟩ := Option.ne_none_iff_exists'.1 hb
      exact ⟨s.data, [], s.master_repl_offset, rfl, (List.append_nil _).symm, rfl, (h.backlog b hb).2⟩
    cached := nofun
    master := fun hnone => absurd hnone hm
    untracked := fun hnone => absurd hnone hm
    writer := fun hnone => absurd hnone hm
    slaves := fun hne => absurd rfl hne
    slaves_link := nofun
    handshake := nofun
    transfer := nofun
    connected := by
      rintro _ _ _ ⟨⟩
      obtain ⟨hlt, hslave, honline⟩ := h.handshake l hs
      exact ⟨hlt, hslave, ⟨buf, hst⟩, rfl, rfl, (honline _ buf hst).2, rfl⟩ }

/-- The RDB file is loaded. -/
theorem loaded (h : ServerOk H link nextLink nextId n s) {l : ℕ} {r : Replid} {o : ℕ}
    (hs : s.repl_state = .transfer l r o)
    {rdb buf : List UInt8} (hr : r < nextId) (hat : H.At r o rdb) {link' : ℕ → Link Node} (hslave : (link' l).slave = n)
    (hst : (link' l).state = .online r buf) :
    ServerOk H link' nextLink nextId n
      { s with
        repl_state := .connected l r o
        replid := r
        replid2 := none
        master_repl_offset := o
        data := rdb : Server Node }.ensureBacklog := by
  obtain ⟨hlt, -, -, hslaves, hb, hc⟩ := h.transfer l r o hs
  have hm : s.masterhost ≠ none := h.masterhost_ne_none (by rw [hs]; nofun)
  rw [Server.ensureBacklog]
  split
  · next b hb' =>
    rw [show s.repl_backlog = some b from hb'] at hb
    cases hb
  · exact
      { size_pos := h.size_pos
        replid_lt := hr
        backlog := by
          rintro _ ⟨⟩
          exact ⟨Backlog.holds_create (mt (List.replicate_eq_nil_iff _).1 h.size_pos) _ _, hat⟩
        second := fun _ => nofun
        cached := fun r o hc' => by
          rw [show s.cached_master = some (r, o) from hc'] at hc
          cases hc
        master := fun hnone => absurd hnone hm
        untracked := fun hnone => absurd hnone hm
        writer := fun hnone => absurd hnone hm
        slaves := fun hne => absurd hslaves hne
        slaves_link := fun l' hl' => by
          rw [show _ = s.slaves from rfl, hslaves] at hl'
          cases hl'
        handshake := nofun
        transfer := nofun
        connected := by
          rintro _ _ _ ⟨⟩
          exact ⟨hlt, hslave, ⟨buf, hst⟩, rfl, rfl, nofun, hc⟩ }

/-- Loading the RDB file has failed. -/
theorem notLoaded (h : ServerOk H link nextLink nextId n s) {l : ℕ} {r : Replid} {o : ℕ}
    (hs : s.repl_state = .transfer l r o) :
    ServerOk H link nextLink nextId n { s with repl_state := .idle, data := [] } := by
  obtain ⟨-, -, -, -, hb, hc⟩ := h.transfer l r o hs
  exact
    { h.idle with
      backlog := fun b hb' => by
        rw [show s.repl_backlog = some b from hb'] at hb
        cases hb
      second := fun hb' => absurd hb hb'
      writer := fun _ hb' => absurd hb hb' }

/-- A server that nobody follows writes. -/
theorem written (h : ServerOk H link nextLink nextId n s) (hb : s.repl_backlog = none) (bs : List UInt8) :
    ServerOk H link nextLink nextId n { s with data := s.data ++ bs } :=
  { h with
    backlog := fun b hb' => by
      rw [show s.repl_backlog = some b from hb'] at hb
      cases hb
    second := fun hb' => absurd hb hb'
    writer := fun _ hb' => absurd hb hb' }

/-- A master, or a replica that is connected to its own, has cached none. -/
theorem idle_or_connected (h : ServerOk H link nextLink nextId n s)
    (hwho : s.masterhost = none ∨ s.repl_state.isConnected = true) :
    (s.repl_state = .idle ∨ ∃ l r o, s.repl_state = .connected l r o) ∧ s.cached_master = none := by
  rcases hwho with hm | hc
  · exact ⟨.inl (h.master hm), by rw [h.master_eq hm]⟩
  · cases hs : s.repl_state with
    | connected l r o => exact ⟨.inr ⟨l, r, o, rfl⟩, (h.connected l r o hs).2.2.2.2.2.2⟩
    | _ =>
      rw [hs] at hc
      cases hc

end ServerOk

/-- The master's offset in a replica that takes in bytes. -/
def ReplState.taken (bs : List UInt8) : ReplState → ReplState
  | .connected l r o => .connected l r (o + bs.length)
  | state => state

/-- A master writes, or a replica takes in what its master has written. -/
theorem ServerOk.fed (h : ServerOk H link nextLink nextId n s) (hb : s.repl_backlog ≠ none)
    (hwho : s.masterhost = none ∨ s.repl_state.isConnected = true) {bs : List UInt8} {b : Backlog}
    (hholds : b.Holds (s.data ++ bs) (s.master_repl_offset + bs.length)) (hmono : ∀ {r o d}, H.At r o d → H'.At r o d)
    (hat : H'.At s.replid (s.master_repl_offset + bs.length) (s.data ++ bs))
    (hwriter : s.masterhost = none → H' s.replid = some (s.data ++ bs, s.master_repl_offset + bs.length))
    (link' : ℕ → Link Node) (hmaster : ∀ l < nextLink, (link' l).master = (link l).master)
    (hconn : ∀ l r o, s.repl_state = .connected l r o → (link' l).slave = n ∧ ∃ buf, (link' l).state = .online r buf) :
    ServerOk H' link' nextLink nextId n
      { s with
        repl_state := s.repl_state.taken bs
        data := s.data ++ bs
        master_repl_offset := s.master_repl_offset + bs.length
        repl_backlog := some b } := by
  obtain ⟨hstate, hcached⟩ := h.idle_or_connected hwho
  constructor
  case size_pos => exact h.size_pos
  case replid_lt => exact h.replid_lt
  case backlog =>
    rintro _ ⟨⟩
    exact ⟨hholds, hat⟩
  case second =>
    intro _ r o hr
    obtain ⟨d, tail, o', ho, hd, hoff, hat'⟩ := h.second hb r o hr
    refine ⟨d, tail ++ bs, o', ho, ?_, ?_, hmono hat'⟩
    · show s.data ++ bs = _
      rw [hd, List.append_assoc]
    · show s.master_repl_offset + bs.length = _
      rw [hoff, List.length_append, Nat.add_assoc]
  case cached =>
    intro r o hc
    rw [show s.cached_master = some (r, o) from hc] at hcached
    cases hcached
  case master =>
    intro hm
    show s.repl_state.taken bs = .idle
    rw [h.master hm, ReplState.taken]
    nofun
  case untracked => exact fun _ => nofun
  case writer => exact fun hm _ => hwriter hm
  case slaves => exact fun _ => nofun
  case slaves_link =>
    intro l hl
    obtain ⟨hlt, hl⟩ := h.slaves_link l hl
    exact ⟨hlt, (hmaster l hlt).trans hl⟩
  all_goals
    rcases hstate with hs | ⟨l₀, r₀, o₀, hs⟩ <;> rw [hs]
  case connected.inr =>
    rintro _ _ _ ⟨⟩
    obtain ⟨hlt, -, -, rfl, rfl, -, -⟩ := h.connected l₀ r₀ o₀ hs
    obtain ⟨hslave, hst⟩ := hconn _ _ _ hs
    exact ⟨hlt, hslave, hst, rfl, rfl, nofun, hcached⟩
  all_goals nofun

end GoodGoodStudy.Redis
