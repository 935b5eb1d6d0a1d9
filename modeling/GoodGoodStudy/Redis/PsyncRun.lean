/-
Replication over whole runs.
-/
import GoodGoodStudy.Redis.PsyncStep

namespace GoodGoodStudy.Redis

open GoodGoodStudy.Lib

variable {Node : Type} [DecidableEq Node] {H H' : Hist} {net : Net Node} {n : Node}

namespace NetOk

/-! ## Steps of one server -/

/-- A server that loses replicas or its master, but keeps its history. -/
theorem keep (h : NetOk H net) {s : Server Node} (hserver : ServerOk H net.link net.nextLink net.nextId n s)
    (hslaves : ∀ l ∈ s.slaves, l ∈ (net.server n).slaves ∧ s.replid = (net.server n).replid ∧
      s.master_repl_offset = (net.server n).master_repl_offset ∧ s.data = (net.server n).data)
    (hholds : ∀ l, s.repl_state.Holds l → (net.server n).repl_state.Holds l ∧
      s.master_repl_offset = (net.server n).master_repl_offset ∧ s.data = (net.server n).data)
    (hmaster : s.masterhost = none → (net.server n).masterhost = none ∧ s.replid = (net.server n).replid) :
    NetOk H (net.setServer n s) :=
  h.setServer (.refl net n H) le_rfl hserver hslaves hholds (fun hs => .inl (hmaster hs)) h.tracked_lt

theorem not_holds_idle (l : ℕ) : ¬ ReplState.Holds .idle l := by
  rintro (hs | ⟨r, o, hs⟩) <;> cases hs

theorem loseMaster (h : NetOk H net) (n : Node) (cache : Bool) :
    NetOk H (net.setServer n ((net.server n).dropMaster cache)) := by
  apply h.keep ((h.server n).dropMaster cache)
  all_goals rw [ServerOk.dropMaster_eq]
  · exact fun l hl => ⟨hl, rfl, rfl, rfl⟩
  · exact fun l hl => absurd hl (not_holds_idle l)
  · exact fun hm => ⟨hm, rfl⟩

theorem replicaof (h : NetOk H net) (n host : Node) (cache : Bool) :
    NetOk H (net.setServer n (replicationSetMaster (net.server n) host cache)) := by
  have hslaves : (replicationSetMaster (net.server n) host cache).slaves = [] := by
    rw [replicationSetMaster]
    split <;> rfl
  have hstate : (replicationSetMaster (net.server n) host cache).repl_state = .idle := by
    rw [replicationSetMaster]
    split <;> exact ServerOk.dropMaster_repl_state _ cache
  have hhost : (replicationSetMaster (net.server n) host cache).masterhost = some host := by
    rw [replicationSetMaster]
    split <;> rfl
  apply h.keep ((h.server n).setMaster host cache)
  · rw [hslaves]
    exact fun l hl => absurd hl List.not_mem_nil
  · rw [hstate]
    exact fun l hl => absurd hl (not_holds_idle l)
  · rw [hhost]
    exact fun hnone => absurd hnone (Option.some_ne_none host)

theorem loseSlave (h : NetOk H net) (m : Node) (l : ℕ) :
    NetOk H (net.setServer m { net.server m with slaves := (net.server m).slaves.erase l }) :=
  h.keep ((h.server m).loseSlave l) (fun _ hl => ⟨List.mem_of_mem_erase hl, rfl, rfl, rfl⟩) (fun _ hl => ⟨hl, rfl, rfl⟩)
    (fun hm => ⟨hm, rfl⟩)

theorem resizeBacklog (h : NetOk H net) (n : Node) (size : ℕ) :
    NetOk H (net.setServer n (resizeReplicationBacklog (net.server n) size)) := by
  have heq : ∃ size' bl, resizeReplicationBacklog (net.server n) size =
      { net.server n with repl_backlog_size := size', repl_backlog := bl } := by
    rw [resizeReplicationBacklog]
    dsimp only
    split_ifs
    · exact ⟨_, _, rfl⟩
    · split <;> exact ⟨_, _, rfl⟩
  apply h.keep ((h.server n).resize size)
  all_goals
    obtain ⟨size', bl, heq⟩ := heq
    rw [heq]
  · exact fun l hl => ⟨hl, rfl, rfl, rfl⟩
  · exact fun l hl => ⟨hl, rfl, rfl⟩
  · exact fun hm => ⟨hm, rfl⟩

/-! ## A new id -/

/-- A server without replicas, that gets the next id. -/
theorem restart (h : NetOk H net) (n : Node) {s : Server Node} {bl : Option Backlog} {replid2 : Option (Replid × ℕ)}
    (hs : s =
      { net.server n with
        masterhost := none
        repl_state := .idle
        cached_master := none
        replid := net.nextId
        replid2 := replid2
        repl_backlog := bl
        slaves := [] })
    (hbl : ∀ b, bl = some b → b.Holds (net.server n).data (net.server n).master_repl_offset)
    (hsecond : bl ≠ none → ∀ r o, replid2 = some (r, o) → r = (net.server n).replid ∧
      o = (net.server n).master_repl_offset + 1 ∧ (net.server n).repl_backlog ≠ none) :
    NetOk (H.record net.nextId bl (net.server n).data (net.server n).master_repl_offset)
      { net.setServer n s with nextId := net.nextId + 1 } := by
  subst hs
  have hext := h.extends_record n bl (net.server n).data (net.server n).master_repl_offset
  apply h.setServer hext (Nat.le_succ _) ((h.server n).restart h.untracked_next hext.mono hbl hsecond)
  · nofun
  · exact fun l hl => absurd hl (not_holds_idle l)
  · exact fun _ => .inr rfl
  · exact fun r hr => h.record_lt bl _ _ hr

theorem replicaofNoOne (h : NetOk H net) (n : Node) :
    ∃ H', NetOk H'
      { net.setServer n (replicationUnsetMaster (net.server n) net.nextId) with nextId := net.nextId + 1 } := by
  refine ⟨_, h.restart n rfl (fun b hb => ((h.server n).backlog b hb).1) ?_⟩
  rintro hb _ _ ⟨⟩
  exact ⟨rfl, rfl, hb⟩

theorem freeBacklog (h : NetOk H net) (n : Node) (hm : (net.server n).masterhost = none)
    (hslaves : (net.server n).slaves = []) :
    NetOk H
      { net.setServer n { net.server n with replid := net.nextId, replid2 := none, repl_backlog := none } with
        nextId := net.nextId + 1 } :=
  h.restart n ((h.server n).fresh_eq hm hslaves _ _) (by nofun) (fun hne => absurd rfl hne)

/-! ## A replica asks for the stream -/

/-- The master takes the replica. -/
theorem addSlave (h : NetOk H net) {m : Node} (hne : m ≠ n) (hb : (net.server m).repl_backlog ≠ none)
    (hs : (net.server m).repl_state.isTransfer = false) {st : SlaveState}
    (hst : ∀ s : Server Node, ¬ s.repl_state.Holds net.nextLink →
      LinkOk H net.nextLink { net.server m with slaves := (net.server m).slaves ++ [net.nextLink] } s st) :
    NetOk H (addSlave net m n st) := by
  have hold : ∀ {l}, l < net.nextLink → Function.update net.link net.nextLink ⟨m, n, st⟩ l = net.link l :=
    fun hl => Function.update_of_ne hl.ne _ _
  refine h.change (.refl net m H) (Nat.le_succ _) le_rfl ((h.server m).attach hb hs rfl) ?_ ?_
    (fun hm => .inl ⟨hm, rfl⟩) h.tracked_lt
  · intro n' _ l hl
    rw [hold hl]
    exact ⟨rfl, rfl, fun _ => .refl _⟩
  · intro l hl
    rcases Nat.lt_succ_iff_lt_or_eq.1 hl with hl | rfl
    · rw [hold hl]
      obtain ⟨hne', hok⟩ := h.link l hl
      refine ⟨hne', hok.update id (fun _ hmem => ?_) (fun _ hholds => ⟨hholds, rfl, rfl⟩)⟩
      rcases List.mem_append.1 hmem with hmem | hmem
      · exact ⟨hmem, rfl, rfl, rfl⟩
      · exact absurd (List.mem_singleton.1 hmem) hl.ne
    · rw [Function.update_self]
      refine ⟨hne, ?_⟩
      show LinkOk H _ (Function.update net.server m _ m) (Function.update net.server m _ n) st
      rw [Function.update_self, Function.update_of_ne hne.symm]
      apply hst
      -- it is in no state with this link
      rintro (hl' | ⟨r, o, hl'⟩)
      · exact Nat.lt_irrefl _ ((h.server n).handshake _ hl').1
      · exact Nat.lt_irrefl _ ((h.server n).connected _ r o hl').1

/-- The replica waits for the answer. -/
theorem handshake (h : NetOk H net) {l : ℕ} (hl : l < net.nextLink) (hslave : (net.link l).slave = n)
    (hm : (net.server n).masterhost ≠ none)
    (honline : ∀ r buf, (net.link l).state = .online r buf →
      ((net.server n).cached_master ≠ none ∧ (net.server n).repl_backlog ≠ none) ∧
      Flows H (net.server (net.link l).master) l r (net.server n).master_repl_offset (net.server n).data buf) :
    NetOk H (handshake net n l) := by
  refine h.change (.refl net n H) le_rfl le_rfl
    ((h.server n).asked hm hl hslave fun r buf hr => (honline r buf hr).1) (fun _ _ => .refl _ _) (fun l' hl' => ?_)
    (fun hnone => absurd hnone hm) h.tracked_lt
  obtain ⟨hne, hok⟩ := h.link l' hl'
  refine ⟨hne, ?_⟩
  rcases eq_or_ne l' l with rfl | hne'
  · rw [hslave] at hne hok
    rw [hslave, Function.update_self, Function.update_of_ne hne]
    cases hst : (net.link l').state with
    | online r buf =>
      rw [hst] at hok
      exact ⟨hok.1, fun _ => (honline r buf hst).2⟩
    | _ =>
      rw [hst] at hok
      exact hok
  · refine hok.update id (fun _ hmem => ⟨hmem, rfl, rfl, rfl⟩) (fun _ hholds => ?_)
    rcases hholds with hholds | ⟨r, o, hholds⟩
    · cases hholds
      exact absurd rfl hne'
    · cases hholds

omit [DecidableEq Node] in
/-- The backlog has what the replica lacks. -/
theorem partialBacklog_spec (h : NetOk H net) {m : Node} {r : Replid} {o : ℕ} {b : Backlog} {d : List UInt8}
    (hb : partialBacklog (net.server m) r (o + 1) = some b) (hd : H r ≠ none → H.At r o d) :
    H r ≠ none ∧ (net.server m).repl_backlog = some b ∧ ∃ reply, addReplyReplicationBacklog b (o + 1) = some reply ∧
      (net.server m).data = d ++ reply ∧ (net.server m).master_repl_offset = o + reply.length := by
  have hm := h.server m
  rw [partialBacklog] at hb
  split at hb
  case isFalse => cases hb
  case isTrue hid =>
  split at hb
  case h_1 => cases hb
  case h_2 b' hb' =>
  split_ifs at hb with hrange
  obtain rfl : b' = b := Option.some.inj hb
  obtain ⟨hholds, hat⟩ := hm.backlog b' hb'
  -- in both ids the replica is at an earlier place
  have hbs : H r ≠ none ∧ ∃ bs, (net.server m).data = d ++ bs ∧ (net.server m).master_repl_offset = o + bs.length := by
    rcases hid with rfl | hid
    · have hadd := hholds.off_add
      exact ⟨hat.ne_none, (hd hat.ne_none).later hat (by omega)⟩
    · rw [isReplid2] at hid
      split at hid
      · cases hid
      · next r₂ o₂ hr₂ =>
        obtain ⟨rfl, hle⟩ := of_decide_eq_true hid
        obtain ⟨d', tail, o', rfl, hdata, hoff, hat'⟩ := hm.second (by rw [hb']; nofun) _ _ hr₂
        obtain ⟨bs, rfl, rfl⟩ := (hd hat'.ne_none).later hat' (by omega)
        refine ⟨hat'.ne_none, bs ++ tail, by rw [hdata, List.append_assoc], ?_⟩
        rw [hoff, List.length_append, Nat.add_assoc]
  obtain ⟨hne, bs, hdata, hoff⟩ := hbs
  obtain ⟨reply, hreply, hsuffix, hlen⟩ := hholds.reply (Nat.le_of_not_lt fun hlt => hrange (.inl hlt))
    (Nat.le_of_not_lt fun hlt => hrange (.inr hlt))
  obtain rfl : reply = bs := by
    rw [hdata] at hsuffix
    apply (List.suffix_of_suffix_length_le hsuffix (List.suffix_append d bs) (by omega)).eq_of_length
    omega
  exact ⟨hne, hb', reply, hreply, hdata, hoff⟩

/-- A master that can take a replica, and a replica without master that asks. -/
structure Asks (net : Net Node) (m n : Node) : Prop where
  ne : m ≠ n
  host : (net.server n).masterhost ≠ none
  idle : (net.server n).repl_state = .idle
  master : (net.server m).masterhost = none ∨ (net.server m).repl_state.isConnected = true

omit [DecidableEq Node] in
theorem isTransfer_eq_false (h : NetOk H net) {m : Node} (hask : Asks net m n) :
    (net.server m).repl_state.isTransfer = false := by
  rcases hask.master with hm | hc
  · rw [(h.server m).master hm]
    rfl
  · cases hs : (net.server m).repl_state with
    | transfer l r o =>
      rw [hs] at hc
      cases hc
    | _ => rfl

theorem startHistory (h : NetOk H net) {m : Node} (hask : Asks net m n) :
    (∃ H', NetOk H' (startHistory net m)) ∧ (Redis.startHistory net m).nextLink = net.nextLink ∧
      Asks (Redis.startHistory net m) m n ∧ ((Redis.startHistory net m).server m).repl_backlog ≠ none := by
  rw [Redis.startHistory]
  dsimp only
  split_ifs with hfresh
  · obtain ⟨hslaves, hb⟩ := hfresh
    have hm : (net.server m).masterhost = none := by
      rcases hask.master with hm | hc
      · exact hm
      · cases hs : (net.server m).repl_state with
        | connected l r o => exact absurd hb ((h.server m).connected l r o hs).2.2.2.2.2.1
        | _ =>
          rw [hs] at hc
          cases hc
    refine ⟨⟨_, h.restart m ((h.server m).fresh_eq hm hslaves _ _) ?_ (fun _ => nofun)⟩, rfl, ?_, ?_⟩
    · rintro _ ⟨⟩
      exact (h.server m).holds_createBacklog
    · have hn : ∀ s, Function.update net.server m s n = net.server n := fun s => Function.update_of_ne hask.ne.symm _ _
      refine ⟨hask.ne, ?_, ?_, .inl ?_⟩
      · exact (congrArg Server.masterhost (hn _)).trans_ne hask.host
      · exact (congrArg Server.repl_state (hn _)).trans hask.idle
      · show (Function.update net.server m _ m).masterhost = none
        rw [Function.update_self]
        exact hm
    · show (Function.update net.server m _ m).repl_backlog ≠ none
      rw [Function.update_self]
      nofun
  · refine ⟨⟨H, h⟩, rfl, hask, fun hb => hfresh ⟨?_, hb⟩⟩
    exact Classical.byContradiction fun hne => (h.server m).slaves hne hb

omit [DecidableEq Node] in
theorem shareBgsave_ok (h : NetOk H net) {m : Node} {l : ℕ} (attach : Option ℕ) (s : Server Node) :
    LinkOk H l { net.server m with slaves := (net.server m).slaves ++ [l] } s (shareBgsave net m attach) := by
  unfold shareBgsave
  split
  · exact trivial
  · next l' =>
    split_ifs with hmem
    · split
      · next r o rdb buf hst =>
        obtain ⟨hlt, hm⟩ := (h.server m).slaves_link l' hmem
        have hok := (h.link l' hlt).2
        rw [hm, hst] at hok
        obtain ⟨hat, hflows⟩ := hok
        obtain ⟨hr, ho, hd⟩ := hflows hmem
        rw [hr]
        exact ⟨hat, fun _ => ⟨hr, ho, hd⟩⟩
      · exact trivial
    · exact trivial

omit [DecidableEq Node] in
theorem shareBgsave_ne_online (net : Net Node) (m : Node) (attach : Option ℕ) (r : Replid) (buf : List UInt8) :
    shareBgsave net m attach ≠ .online r buf := by
  unfold shareBgsave
  split
  · nofun
  · split_ifs
    · split <;> nofun
    · nofun

/-- The replica with the new link. -/
theorem addSlave_handshake (h : NetOk H net) {m : Node} (hask : Asks net m n) (hb : (net.server m).repl_backlog ≠ none)
    {st : SlaveState}
    (hst : ∀ s : Server Node, ¬ s.repl_state.Holds net.nextLink →
      LinkOk H net.nextLink { net.server m with slaves := (net.server m).slaves ++ [net.nextLink] } s st)
    (honline : ∀ r buf, st = .online r buf →
      ((net.server n).cached_master ≠ none ∧ (net.server n).repl_backlog ≠ none) ∧
      Flows H { net.server m with slaves := (net.server m).slaves ++ [net.nextLink] } net.nextLink r
        (net.server n).master_repl_offset (net.server n).data buf) :
    NetOk H (Redis.handshake (Redis.addSlave net m n st) n net.nextLink) := by
  have hadd := h.addSlave hask.ne hb (h.isTransfer_eq_false hask) hst
  have hn : (Redis.addSlave net m n st).server n = net.server n := Function.update_of_ne hask.ne.symm _ _
  have hlink : (Redis.addSlave net m n st).link net.nextLink = ⟨m, n, st⟩ := Function.update_self _ _ _
  have hm : (Redis.addSlave net m n st).server m =
      { net.server m with slaves := (net.server m).slaves ++ [net.nextLink] } :=
    Function.update_self _ _ _
  apply hadd.handshake (Nat.lt_succ_self _)
  · rw [hlink]
  · rw [hn]
    exact hask.host
  · intro r buf hr
    rw [hlink] at hr
    rw [hn, hlink, hm]
    exact honline r buf hr

theorem fullResync (h : NetOk H net) {m : Node} (hask : Asks net m n) (attach : Option ℕ) :
    ∃ H', NetOk H' (Redis.handshake (fullResync net m n attach) n net.nextLink) := by
  obtain ⟨⟨H', h'⟩, hnext, hask', hb⟩ := h.startHistory hask
  refine ⟨H', ?_⟩
  rw [← hnext]
  exact h'.addSlave_handshake hask' hb (fun s _ => h'.shareBgsave_ok attach s)
    (fun r buf hr => absurd hr (shareBgsave_ne_online _ m attach r buf))

theorem partialResync (h : NetOk H net) {m : Node} (hask : Asks net m n) {r : Replid} {o : ℕ} {b : Backlog}
    (hc : (net.server n).cached_master = some (r, o)) (hb : partialBacklog (net.server m) r (o + 1) = some b) :
    ∃ reply, addReplyReplicationBacklog b (o + 1) = some reply ∧
      NetOk H (Redis.handshake (partialResync net m n reply) n net.nextLink) := by
  obtain ⟨rfl, rfl, -, hnone⟩ := (h.server n).cached r o hc
  have hbn : H (net.server n).replid ≠ none → ∃ b, (net.server n).repl_backlog = some b :=
    fun hne => Option.ne_none_iff_exists'.1 fun hb => hne (hnone hb)
  obtain ⟨hne, hbm, reply, hreply, hdata, hoff⟩ := h.partialBacklog_spec hb (d := (net.server n).data) fun hne => by
    obtain ⟨b, hb⟩ := hbn hne
    exact ((h.server n).backlog b hb).2
  refine ⟨reply, hreply, h.addSlave_handshake hask (by rw [hbm]; nofun) (fun s hs => ?_) ?_⟩
  · exact ⟨fun _ => rfl, fun hholds => absurd hholds hs⟩
  · rintro _ _ ⟨⟩
    obtain ⟨b, hb⟩ := hbn hne
    refine ⟨⟨by rw [hc]; nofun, by rw [hb]; nofun⟩, ?_, fun _ => ⟨rfl, hoff, hdata⟩⟩
    rw [← hdata, ← hoff]
    exact ((h.server m).backlog _ hbm).2

theorem psync (h : NetOk H net) (n : Node) (attach : Option ℕ) :
    ∃ net', psync net n attach = some net' ∧ ∃ H', NetOk H' net' := by
  rw [Redis.psync]
  split
  · next m hhost hidle =>
    dsimp only
    split_ifs with hrefuse
    · exact ⟨net, rfl, H, h⟩
    have hask : Asks net m n := by
      refine ⟨?_, by rw [hhost]; nofun, hidle, ?_⟩
      · rintro rfl
        exact hrefuse ⟨by rw [hhost]; nofun, by rw [hidle]; rfl⟩
      · by_cases hm : (net.server m).masterhost = none
        · exact .inl hm
        · refine .inr (Classical.byContradiction fun hc => hrefuse ⟨hm, ?_⟩)
          rw [Bool.eq_false_of_not_eq_true hc]
          rfl
    split
    · exact ⟨_, rfl, h.fullResync hask attach⟩
    · next r o hc =>
      split
      · exact ⟨_, rfl, h.fullResync hask attach⟩
      · next b hb =>
        obtain ⟨reply, hreply, hok⟩ := h.partialResync hask hc hb
        exact ⟨_, by rw [hreply]; rfl, H, hok⟩
  · exact ⟨net, rfl, H, h⟩

/-! ## The RDB file -/

omit [DecidableEq Node] in
/-- A step of a master that changes nothing but what its replicas get. -/
theorem mapLinks (h : NetOk H net) {m : Node} {f : SlaveState → SlaveState} (hgoes : ∀ st, SlaveState.Goes st (f st))
    (hok : ∀ l st s, H.At (net.server m).replid (net.server m).master_repl_offset (net.server m).data →
      LinkOk H l (net.server m) s st → LinkOk H l (net.server m) s (f st)) :
    NetOk H (net.mapLinks (net.server m).slaves f) := by
  have hmaster : ∀ l, ((net.mapLinks (net.server m).slaves f).link l).master = (net.link l).master := by
    intro l
    show (if l ∈ (net.server m).slaves then _ else _ : Link Node).master = _
    split_ifs <;> rfl
  have hslave : ∀ l, ((net.mapLinks (net.server m).slaves f).link l).slave = (net.link l).slave := by
    intro l
    show (if l ∈ (net.server m).slaves then _ else _ : Link Node).slave = _
    split_ifs <;> rfl
  have hstate : ∀ l, ((net.mapLinks (net.server m).slaves f).link l).state =
      if l ∈ (net.server m).slaves then f (net.link l).state else (net.link l).state := by
    intro l
    show (if l ∈ (net.server m).slaves then _ else _ : Link Node).state = _
    split_ifs <;> rfl
  refine ⟨fun n => ?_, fun l hl => ?_, h.masters, h.tracked_lt⟩
  · refine (h.server n).mono (.refl net n H) (fun _ => rfl) le_rfl le_rfl fun l _ => ⟨hmaster l, hslave l, fun _ => ?_⟩
    rw [hstate]
    split_ifs
    · exact hgoes _
    · exact .refl _
  · obtain ⟨hne, hlink⟩ := h.link l hl
    rw [hmaster, hslave, hstate]
    refine ⟨hne, ?_⟩
    split_ifs with hmem
    · obtain ⟨-, hm⟩ := (h.server m).slaves_link l hmem
      obtain ⟨b, hb⟩ := Option.ne_none_iff_exists'.1 ((h.server m).slaves (List.ne_nil_of_mem hmem))
      rw [hm] at hlink ⊢
      exact hok l _ _ ((h.server m).backlog b hb).2 hlink
    · exact hlink

omit [DecidableEq Node] in
theorem bgsave (h : NetOk H net) (m : Node) :
    NetOk H (net.mapLinks (net.server m).slaves (.bgsave (net.server m))) := by
  refine h.mapLinks (SlaveState.Goes.bgsave _) fun l st s hat hst => ?_
  cases st with
  | waitBgsaveStart =>
    refine ⟨?_, fun _ => ⟨rfl, rfl, (List.append_nil _).symm⟩⟩
    rw [List.append_nil]
    exact hat
  | _ => exact hst

omit [DecidableEq Node] in
theorem bgsaveDone (h : NetOk H net) (m : Node) : NetOk H (net.mapLinks (net.server m).slaves .bgsaveDone) := by
  refine h.mapLinks SlaveState.Goes.bgsaveDone fun l st s _ hst => ?_
  cases st <;> exact hst

omit [DecidableEq Node] in
theorem ensureBacklog_of_ne {s : Server Node} (hb : s.repl_backlog ≠ none) : s.ensureBacklog = s := by
  obtain ⟨b, hb⟩ := Option.ne_none_iff_exists'.1 hb
  rw [Server.ensureBacklog, hb]

theorem not_holds_transfer (l l' : ℕ) (r : Replid) (o : ℕ) : ¬ ReplState.Holds (.transfer l r o) l' := by
  rintro (hs | ⟨r, o, hs⟩) <;> cases hs

theorem readReply (h : NetOk H net) (n : Node) : ∃ net', readReply net n = some net' ∧ NetOk H net' := by
  have hn := h.server n
  have hfull : ∀ {l r o}, (net.server n).repl_state = .handshake l →
      (∃ rdb buf, (net.link l).state = .waitBgsaveEnd r o rdb buf ∨ (net.link l).state = .sendBulk r o rdb buf) →
      NetOk H (net.setServer n
        { net.server n with
          repl_state := .transfer l r o, cached_master := none, slaves := [], repl_backlog := none }) := by
    intro l r o hs hst
    apply h.keep (hn.fullresync hs hst) nofun (fun l' hl' => absurd hl' (not_holds_transfer l l' r o))
    exact fun hm => absurd hm (hn.masterhost_ne_none (by rw [hs]; nofun))
  rw [Redis.readReply]
  dsimp only
  split
  · next l hs =>
    have hholds : (net.server n).repl_state.Holds l := .inl hs
    split
    · exact ⟨net, rfl, h⟩
    · next r o rdb buf hst => exact ⟨_, rfl, hfull hs ⟨rdb, buf, .inl hst⟩⟩
    · next r o rdb buf hst => exact ⟨_, rfl, hfull hs ⟨rdb, buf, .inr hst⟩⟩
    · next r buf hst =>
      obtain ⟨hlt, hslave, honline⟩ := hn.handshake l hs
      obtain ⟨hc, hb⟩ := honline r buf hst
      have hat : H.At r (net.server n).master_repl_offset (net.server n).data := by
        have hlink := (h.link l hlt).2
        rw [hslave, hst] at hlink
        exact (hlink.2 hholds).1.of_append
      split
      · next hnone => exact absurd hnone hc
      · next r₀ o₀ hc₀ =>
        obtain ⟨rfl, rfl, -, -⟩ := hn.cached _ _ hc₀
        have hm := hn.masterhost_ne_none (by rw [hs]; nofun)
        have hheld : ∀ l' r o, ReplState.Holds (.connected l r o) l' → (net.server n).repl_state.Holds l' := by
          rintro l' r o (hl' | ⟨r', o', hl'⟩) <;> cases hl'
          exact hholds
        refine ⟨_, rfl, ?_⟩
        split_ifs with hr
        · rw [ensureBacklog_of_ne]
          · exact h.keep (hn.changeId hs hst (h.tracked_lt r hat.ne_none) hat) (by nofun)
              (fun l' hl' => ⟨hheld l' _ _ hl', rfl, rfl⟩) (fun hnone => absurd hnone hm)
          · exact hb
        · obtain rfl := Classical.not_not.1 hr
          rw [ensureBacklog_of_ne hb]
          exact h.keep (hn.resume hs hst) (fun _ hl' => ⟨hl', rfl, rfl, rfl⟩)
            (fun l' hl' => ⟨hheld l' _ _ hl', rfl, rfl⟩)
            (fun hnone => absurd hnone hm)
  · exact ⟨net, rfl, h⟩

/-- A replica that begins with the RDB file, and goes on with what has come after it. -/
theorem load (h : NetOk H net) {l : ℕ} {r : Replid} {o : ℕ} {rdb buf : List UInt8} (hlt : l < net.nextLink)
    (hslave : (net.link l).slave = n) (hst : (net.link l).state = .sendBulk r o rdb buf) {s : Server Node}
    (hserver : ServerOk H (net.setState l (.online r buf)).link net.nextLink net.nextId n s) (hslaves : s.slaves = [])
    (hs : s.repl_state = .connected l r o) (hoff : s.master_repl_offset = o) (hdata : s.data = rdb) :
    NetOk H ⟨Function.update net.server n s, (net.setState l (.online r buf)).link, net.nextLink, net.nextId⟩ := by
  obtain ⟨hne, hlink⟩ := h.link l hlt
  rw [hst] at hlink
  rw [hslave] at hne
  have hself : (net.setState l (.online r buf)).link l = ⟨(net.link l).master, (net.link l).slave, .online r buf⟩ :=
    Function.update_self _ _ _
  have hother : ∀ {l'}, l' ≠ l → (net.setState l (.online r buf)).link l' = net.link l' :=
    fun hl' => Function.update_of_ne hl' _ _
  refine h.change (.refl net n H) le_rfl le_rfl hserver (fun n' hn' l' _ => ?_) (fun l' hl' => ?_)
    (fun hm => absurd hm (hserver.masterhost_ne_none (by rw [hs]; nofun))) h.tracked_lt
  · rcases eq_or_ne l' l with rfl | hne'
    · rw [hself]
      exact ⟨rfl, rfl, fun heq => absurd (heq.symm.trans hslave) hn'⟩
    · rw [hother hne']
      exact ⟨rfl, rfl, fun _ => .refl _⟩
  · rcases eq_or_ne l' l with rfl | hne'
    · rw [hself, hslave]
      refine ⟨hne, ?_⟩
      show LinkOk H _ (Function.update net.server n s _) (Function.update net.server n s n) _
      rw [Function.update_self, Function.update_of_ne hne]
      refine ⟨fun hmem => (hlink.2 hmem).1, fun _ => ?_⟩
      rw [hoff, hdata]
      exact hlink
    · rw [hother hne']
      obtain ⟨hne, hlink⟩ := h.link l' hl'
      refine ⟨hne, hlink.update id (fun _ hmem => ?_) (fun _ hholds => ?_)⟩
      · rw [hslaves] at hmem
        cases hmem
      · rw [hs] at hholds
        rcases hholds with hholds | ⟨r, o, hholds⟩ <;> cases hholds
        exact absurd rfl hne'

omit [DecidableEq Node] in
theorem ensureBacklog_eq (s : Server Node) : ∃ bl, s.ensureBacklog = { s with repl_backlog := bl } := by
  rw [Server.ensureBacklog]
  split <;> exact ⟨_, rfl⟩

theorem loadRdb (h : NetOk H net) (n : Node) (ok : Bool) : NetOk H (loadRdb net n ok) := by
  have hn := h.server n
  rw [Redis.loadRdb]
  dsimp only
  split
  · next l r o hs =>
    obtain ⟨hlt, hslave, ⟨rdb₀, buf₀, hst₀⟩, hslaves, -⟩ := hn.transfer l r o hs
    split
    · next r' o' rdb buf hst =>
      split_ifs
      · -- it is the file that was announced
        obtain ⟨rfl, rfl⟩ : r' = r ∧ o' = o := by
          rcases hst₀ with hst₀ | hst₀ <;> rw [hst] at hst₀ <;> cases hst₀
          exact ⟨rfl, rfl⟩
        have hat : H.At r' (o' + buf.length) (rdb ++ buf) := by
          have hlink := (h.link l hlt).2
          rw [hst] at hlink
          exact hlink.1
        have hself : (net.setState l (.online r' buf)).link l =
            ⟨(net.link l).master, (net.link l).slave, .online r' buf⟩ :=
          Function.update_self _ _ _
        apply h.load hlt hslave hst (hn.loaded hs (h.tracked_lt r' hat.ne_none) hat.of_append (by rw [hself, hslave])
          (by rw [hself]))
        all_goals
          obtain ⟨bl, heq⟩ := ensureBacklog_eq
            ({ net.server n with
              repl_state := .connected l r' o', replid := r', replid2 := none, master_repl_offset := o', data := rdb } :
              Server Node)
          rw [heq]
        exact hslaves
      · exact h.keep (hn.notLoaded hs) (by rw [hslaves]; nofun) (fun l' hl' => absurd hl' (not_holds_idle l'))
          (fun hnone => absurd hnone (hn.masterhost_ne_none (by rw [hs]; nofun)))
    · exact h
  · exact h

/-! ## The stream -/

theorem takeIn_none {bs : List UInt8} (hb : (net.server n).repl_backlog = none) (hslaves : (net.server n).slaves = []) :
    takeIn net n bs = some (net.setServer n { net.server n with data := (net.server n).data ++ bs }) := by
  have hself : (net.setServer n { net.server n with data := (net.server n).data ++ bs }).server n =
      { net.server n with data := (net.server n).data ++ bs } := Function.update_self _ _ _
  rw [takeIn, replicationFeed]
  dsimp only
  rw [hself]
  dsimp only
  rw [hb, hslaves, if_pos rfl]

theorem takeIn_some {bs : List UInt8} {b b' : Backlog} (hb : (net.server n).repl_backlog = some b)
    (hfeed : feedReplicationBacklog b bs ((net.server n).master_repl_offset + bs.length) = some b') :
    takeIn net n bs = some
      ⟨Function.update net.server n
        { net.server n with
          data := (net.server n).data ++ bs
          master_repl_offset := (net.server n).master_repl_offset + bs.length
          repl_backlog := some b' },
        (net.mapLinks (net.server n).slaves (SlaveState.feed bs)).link, net.nextLink, net.nextId⟩ := by
  have hself : (net.setServer n { net.server n with data := (net.server n).data ++ bs }).server n =
      { net.server n with data := (net.server n).data ++ bs } := Function.update_self _ _ _
  rw [takeIn, replicationFeed]
  dsimp only
  rw [hself]
  dsimp only
  rw [hb]
  dsimp only
  rw [hfeed]
  simp only [Net.setServer, Net.mapLinks, Function.update_idem]

/-- A server takes in bytes and passes them on. The link that it reads itself may lose what it takes in. -/
theorem fed (h : NetOk H net) (hext : Extends net n H H') {s : Server Node} {bs : List UInt8} {link₁ : ℕ → Link Node}
    (hserver : ServerOk H' (fun l =>
      if l ∈ (net.server n).slaves then { link₁ l with state := (link₁ l).state.feed bs } else link₁ l)
      net.nextLink net.nextId n s)
    (hslaves : s.slaves = (net.server n).slaves) (hr : s.replid = (net.server n).replid)
    (hm : s.masterhost = (net.server n).masterhost)
    (ho : s.master_repl_offset = (net.server n).master_repl_offset + bs.length)
    (hd : s.data = (net.server n).data ++ bs)
    (hat : H'.At s.replid s.master_repl_offset s.data) (htracked : ∀ r, H' r ≠ none → r < net.nextId)
    (hends : ∀ l < net.nextLink, (link₁ l).master = (net.link l).master ∧ (link₁ l).slave = (net.link l).slave)
    (hkeep : ∀ l < net.nextLink, (net.link l).slave ≠ n → (link₁ l).state = (net.link l).state)
    (hheld : ∀ l < net.nextLink, (net.link l).slave = n →
      LinkOk H' l (net.server (net.link l).master) s (link₁ l).state) :
    NetOk H' ⟨Function.update net.server n s, fun l =>
      if l ∈ (net.server n).slaves then { link₁ l with state := (link₁ l).state.feed bs } else link₁ l,
      net.nextLink, net.nextId⟩ := by
  refine h.change hext le_rfl le_rfl hserver (fun n' hn' l hl => ?_) (fun l hl => ?_)
    (fun hs => .inl ⟨hm ▸ hs, hr⟩) htracked
  · obtain ⟨hmaster, hslave⟩ := hends l hl
    split_ifs
    · refine ⟨hmaster, hslave, fun heq => ?_⟩
      rw [hkeep l hl (heq.trans_ne hn')]
      exact .feed bs _
    · refine ⟨hmaster, hslave, fun heq => ?_⟩
      rw [hkeep l hl (heq.trans_ne hn')]
      exact .refl _
  · obtain ⟨hmaster, hslave⟩ := hends l hl
    obtain ⟨hne, hlink⟩ := h.link l hl
    split_ifs with hmem
    · -- a replica of `n`
      obtain ⟨-, heq⟩ := (h.server n).slaves_link l hmem
      rw [heq] at hne hlink hmaster
      refine ⟨by rw [hmaster, hslave]; exact hne, ?_⟩
      show LinkOk H' l (Function.update net.server n s (link₁ l).master)
        (Function.update net.server n s (link₁ l).slave) _
      rw [hmaster, hslave, Function.update_self, Function.update_of_ne hne.symm, hkeep l hl hne.symm]
      exact hlink.feed hmem hr ho hd hat
    · rw [hmaster, hslave]
      refine ⟨hne, ?_⟩
      by_cases heq : (net.link l).slave = n
      · rw [heq] at hne ⊢
        rw [Function.update_self, Function.update_of_ne hne]
        exact hheld l hl heq
      · rw [hkeep l hl heq]
        refine hlink.update hext.mono (fun _ hmem' => ?_) (fun heq' => absurd heq' heq)
        rw [hslaves] at hmem'
        exact absurd hmem' hmem

omit [DecidableEq Node] in
/-- The master's write goes on with the history of its id. -/
theorem extends_write (h : NetOk H net) (hm : (net.server n).masterhost = none)
    (hb : (net.server n).repl_backlog ≠ none)
    (bs : List UInt8) :
    Extends net n H (Function.update H (net.server n).replid
      (some ((net.server n).data ++ bs, (net.server n).master_repl_offset + bs.length))) where
  mono hat := hat.update (.inr ⟨bs, (h.server n).writer hm hb, rfl, rfl⟩)
  old r _ hnone := by
    rw [Function.update_of_ne _ _ _, hnone]
    rintro rfl
    rw [(h.server n).writer hm hb] at hnone
    cases hnone
  writers n' hn' hm' := Function.update_of_ne (fun heq => hn' (h.masters n' n hm' hm heq)) _ _

theorem write (h : NetOk H net) (hm : (net.server n).masterhost = none) (bs : List UInt8) :
    ∃ net', takeIn net n bs = some net' ∧ ∃ H', NetOk H' net' := by
  have hn := h.server n
  have hidle := hn.master hm
  cases hb : (net.server n).repl_backlog with
  | none =>
    have hslaves : (net.server n).slaves = [] := Classical.byContradiction fun hne => hn.slaves hne hb
    refine ⟨_, takeIn_none hb hslaves, H, h.keep (hn.written hb bs) (by rw [hslaves]; nofun) (fun l hl => ?_)
      (fun _ => ⟨hm, rfl⟩)⟩
    rw [show _ = (net.server n).repl_state from rfl, hidle] at hl
    exact absurd hl (not_holds_idle l)
  | some b =>
    have hb' : (net.server n).repl_backlog ≠ none := by rw [hb]; nofun
    obtain ⟨b', hfeed, hholds, -⟩ := (hn.backlog b hb).1.feed bs
    have hext := h.extends_write hm hb' bs
    have hself := Function.update_self (net.server n).replid
      (some ((net.server n).data ++ bs, (net.server n).master_repl_offset + bs.length)) H
    have htaken : (net.server n).repl_state.taken bs = (net.server n).repl_state := by
      rw [hidle]
      rfl
    have hserver := hn.fed hb' (.inl hm) hholds hext.mono (Hist.at_self hself) (fun _ => hself)
      (net.mapLinks (net.server n).slaves (SlaveState.feed bs)).link (fun l _ => ?_) (fun l r o hs => ?_)
    · rw [htaken] at hserver
      refine ⟨_, takeIn_some hb hfeed, _, h.fed hext hserver rfl rfl rfl rfl rfl (Hist.at_self hself) (fun r hr => ?_)
        (fun _ _ => ⟨rfl, rfl⟩) (fun _ _ _ => rfl) (fun l hl heq => ?_)⟩
      · rcases eq_or_ne r (net.server n).replid with rfl | hne
        · exact hn.replid_lt
        · rw [Function.update_of_ne hne] at hr
          exact h.tracked_lt r hr
      · obtain ⟨-, hlink⟩ := h.link l hl
        refine hlink.mono hext.mono (fun hmem => ⟨hmem, rfl, rfl, rfl⟩) (fun hholds => ?_)
        rw [show _ = (net.server n).repl_state from rfl, hidle] at hholds
        exact absurd hholds (not_holds_idle l)
    · show (if l ∈ (net.server n).slaves then _ else _ : Link Node).master = _
      split_ifs <;> rfl
    · rw [hidle] at hs
      cases hs

omit [DecidableEq Node] in
theorem setState_self {l : ℕ} (st : SlaveState) :
    (net.setState l st).link l = ⟨(net.link l).master, (net.link l).slave, st⟩ :=
  Function.update_self _ _ _

omit [DecidableEq Node] in
theorem setState_other {l l' : ℕ} (hl : l' ≠ l) (st : SlaveState) : (net.setState l st).link l' = net.link l' :=
  Function.update_of_ne hl _ _

omit [DecidableEq Node] in
theorem setState_ends (l l' : ℕ) (st : SlaveState) : ((net.setState l st).link l').master = (net.link l').master ∧
    ((net.setState l st).link l').slave = (net.link l').slave := by
  rcases eq_or_ne l' l with rfl | hl
  · rw [setState_self]
    exact ⟨rfl, rfl⟩
  · rw [setState_other hl]
    exact ⟨rfl, rfl⟩

/-- A replica takes in bytes of its link, and passes them on. -/
theorem take (h : NetOk H net) {l : ℕ} {bs rest : List UInt8} {b : Backlog}
    (hs : (net.server n).repl_state = .connected l (net.server n).replid (net.server n).master_repl_offset)
    (hst : (net.link l).state = .online (net.server n).replid (bs ++ rest))
    (hholds : b.Holds ((net.server n).data ++ bs) ((net.server n).master_repl_offset + bs.length)) :
    NetOk H
      ⟨Function.update net.server n
        { net.server n with
          repl_state := .connected l (net.server n).replid ((net.server n).master_repl_offset + bs.length)
          data := (net.server n).data ++ bs
          master_repl_offset := (net.server n).master_repl_offset + bs.length
          repl_backlog := some b },
        ((net.setState l (.online (net.server n).replid rest)).mapLinks (net.server n).slaves
          (SlaveState.feed bs)).link,
        net.nextLink, net.nextId⟩ := by
  have hn := h.server n
  obtain ⟨hlt, hslave, -, -, -, hb, -⟩ := hn.connected _ _ _ hs
  obtain ⟨hne, hlink⟩ := h.link l hlt
  rw [hst, hslave] at hlink
  have hflows := (hlink.2 (.inr ⟨_, _, hs⟩)).taken
  have hat := hflows.1.of_append
  have hmem : l ∉ (net.server n).slaves := fun hmem => hne ((hn.slaves_link l hmem).2.trans hslave.symm)
  have hserver := hn.fed hb (.inr (by rw [hs]; rfl)) hholds id hat
    (fun hm => absurd hm (hn.masterhost_ne_none (by rw [hs]; nofun)))
    ((net.setState l (.online (net.server n).replid rest)).mapLinks (net.server n).slaves (SlaveState.feed bs)).link
    (fun l' _ => ?_) (fun l' r o hs' => ?_)
  · have htaken : (net.server n).repl_state.taken bs =
        .connected l (net.server n).replid ((net.server n).master_repl_offset + bs.length) := by
      rw [hs]
      rfl
    rw [htaken] at hserver
    refine h.fed (.refl net n H) hserver rfl rfl rfl rfl rfl hat h.tracked_lt (fun l' _ => setState_ends l l' _)
      (fun l' _ hl' => ?_) (fun l' hl' hslave' => ?_)
    · rw [setState_other]
      rintro rfl
      exact hl' hslave
    · rcases eq_or_ne l' l with rfl | hne'
      · rw [setState_self]
        exact ⟨hlink.1, fun _ => hflows⟩
      · rw [setState_other hne']
        refine (h.link l' hl').2.mono id (fun hmem => ⟨hmem, rfl, rfl, rfl⟩) (fun hholds => ?_)
        -- the replica holds only `l`
        rcases hholds with hholds | ⟨r, o, hholds⟩ <;> cases hholds
        exact absurd rfl hne'
  · show (if l' ∈ (net.server n).slaves then _ else _ : Link Node).master = _
    split_ifs <;> exact (setState_ends l l' _).1
  · rw [hs] at hs'
    cases hs'
    show (if l ∈ (net.server n).slaves then _ else _ : Link Node).slave = n ∧
      ∃ buf, (if l ∈ (net.server n).slaves then _ else _ : Link Node).state = _
    rw [if_neg hmem, setState_self]
    exact ⟨hslave, rest, rfl⟩

theorem deliver (h : NetOk H net) (n : Node) (count : ℕ) : ∃ net', deliver net n count = some net' ∧ NetOk H net' := by
  have hn := h.server n
  rw [Redis.deliver]
  split
  · next l r o hs =>
    obtain ⟨-, -, ⟨buf₀, hst₀⟩, rfl, rfl, hb, -⟩ := hn.connected l r o hs
    split
    · next r' buf hst =>
      obtain rfl : r' = (net.server n).replid := by
        rw [hst] at hst₀
        cases hst₀
        rfl
      rw [← List.take_append_drop count buf] at hst
      obtain ⟨b, hb⟩ := Option.ne_none_iff_exists'.1 hb
      obtain ⟨b', hfeed, hholds, -⟩ := (hn.backlog b hb).1.feed (buf.take count)
      refine ⟨_, ?_, h.take hs hst hholds⟩
      have hself : ((net.setServer n
          { net.server n with
            repl_state := .connected l (net.server n).replid
              ((net.server n).master_repl_offset + (buf.take count).length) }).setState l
          (.online (net.server n).replid (buf.drop count))).server n = _ := Function.update_self _ _ _
      rw [takeIn_some (b := b) (by rw [hself]; exact hb) (by rw [hself]; exact hfeed), hself]
      simp only [Net.setServer, Net.setState, Net.mapLinks, Function.update_idem]
    · exact ⟨net, rfl, h⟩
  · exact ⟨net, rfl, h⟩

/-! ## Runs -/

theorem netStep_ok (h : NetOk H net) (e : NetEvent Node) : ∃ net', netStep net e = some net' ∧ ∃ H', NetOk H' net' := by
  cases e with
  | write n bs =>
    rw [netStep]
    split_ifs with hm
    · exact h.write hm bs
    · exact ⟨net, rfl, H, h⟩
  | replicaof n host cache =>
    rw [netStep]
    split_ifs
    · exact ⟨net, rfl, H, h⟩
    · exact ⟨_, rfl, H, h.replicaof n host cache⟩
  | replicaofNoOne n =>
    rw [netStep]
    split_ifs
    · exact ⟨net, rfl, H, h⟩
    · exact ⟨_, rfl, h.replicaofNoOne n⟩
  | psync n attach => exact h.psync n attach
  | bgsave m => exact ⟨_, rfl, H, h.bgsave m⟩
  | bgsaveDone m => exact ⟨_, rfl, H, h.bgsaveDone m⟩
  | readReply n =>
    obtain ⟨net', hnet, hok⟩ := h.readReply n
    exact ⟨net', hnet, H, hok⟩
  | loadRdb n ok => exact ⟨_, rfl, H, h.loadRdb n ok⟩
  | deliver n count =>
    obtain ⟨net', hnet, hok⟩ := h.deliver n count
    exact ⟨net', hnet, H, hok⟩
  | loseMaster n cache => exact ⟨_, rfl, H, h.loseMaster n cache⟩
  | loseSlave m link => exact ⟨_, rfl, H, h.loseSlave m link⟩
  | resizeBacklog n size => exact ⟨_, rfl, H, h.resizeBacklog n size⟩
  | freeBacklog n =>
    rw [netStep]
    dsimp only
    split_ifs with hfree
    · exact ⟨_, rfl, H, h.freeBacklog n hfree.1 hfree.2.1⟩
    · exact ⟨net, rfl, H, h⟩

omit [DecidableEq Node] in
theorem init {id : Node → Replid} {data : Node → List UInt8} {bound : Replid} (hid : Function.Injective id)
    (hbound : ∀ n, id n < bound) (n₀ : Node) : NetOk (fun _ => none) (Net.init id data bound n₀) where
  server n :=
    { size_pos := by nofun
      replid_lt := hbound n
      backlog := nofun
      second := fun hne => absurd rfl hne
      cached := nofun
      master := fun _ => rfl
      untracked := fun _ _ => rfl
      writer := fun _ hne => absurd rfl hne
      slaves := fun hne => absurd rfl hne
      slaves_link := nofun
      handshake := nofun
      transfer := nofun
      connected := nofun }
  link := nofun
  masters _ _ _ _ heq := hid heq
  tracked_lt _ hne := absurd rfl hne

omit [DecidableEq Node] in
/-- Servers with one id, with the data of the one that is ahead. -/
theorem same_history (h : NetOk H net) {n n' : Node} (hb : (net.server n).repl_backlog ≠ none)
    (hb' : (net.server n').repl_backlog ≠ none) (hr : (net.server n).replid = (net.server n').replid)
    (hle : (net.server n).master_repl_offset ≤ (net.server n').master_repl_offset) :
    ∃ bs, (net.server n').data = (net.server n).data ++ bs ∧
      (net.server n').master_repl_offset = (net.server n).master_repl_offset + bs.length := by
  obtain ⟨b, hb⟩ := Option.ne_none_iff_exists'.1 hb
  obtain ⟨b', hb'⟩ := Option.ne_none_iff_exists'.1 hb'
  have hat := ((h.server n).backlog b hb).2
  rw [hr] at hat
  exact hat.later ((h.server n').backlog b' hb').2 hle

omit [DecidableEq Node] in
/-- A master is ahead of all that have its id. -/
theorem master_ahead (h : NetOk H net) {m n : Node} (hm : (net.server m).masterhost = none)
    (hbm : (net.server m).repl_backlog ≠ none) (hb : (net.server n).repl_backlog ≠ none)
    (hr : (net.server n).replid = (net.server m).replid) :
    (net.server n).master_repl_offset ≤ (net.server m).master_repl_offset := by
  obtain ⟨b, hb⟩ := Option.ne_none_iff_exists'.1 hb
  obtain ⟨tail, hat⟩ := ((h.server n).backlog b hb).2
  rw [hr, (h.server m).writer hm hbm, Option.some.injEq, Prod.mk.injEq] at hat
  exact hat.2 ▸ Nat.le_add_right _ _

omit [DecidableEq Node] in
/-- What a replica has and what is still under way is what its master has. -/
theorem stream_complete (h : NetOk H net) {n : Node} {l : ℕ} {r : Replid} {o : ℕ}
    (hs : (net.server n).repl_state = .connected l r o) :
    ∃ buf, (net.link l).state = .online r buf ∧
      (l ∈ (net.server (net.link l).master).slaves →
        (net.server (net.link l).master).replid = (net.server n).replid ∧
        (net.server (net.link l).master).data = (net.server n).data ++ buf ∧
        (net.server (net.link l).master).master_repl_offset = (net.server n).master_repl_offset + buf.length) := by
  obtain ⟨hlt, hslave, ⟨buf, hst⟩, rfl, -⟩ := (h.server n).connected l r o hs
  have hlink := (h.link l hlt).2
  rw [hslave, hst] at hlink
  refine ⟨buf, hst, fun hmem => ?_⟩
  obtain ⟨hr, ho, hd⟩ := (hlink.2 (.inr ⟨_, _, hs⟩)).2 hmem
  exact ⟨hr, hd, ho⟩

end NetOk

/-- Whatever happens in whatever order, no server gets stuck. A replica that is connected has, with what is still under
way to it, what its master has. Of two servers with one id and a backlog, the one with the greater offset has the data
of the other and as many bytes more, and a master is never behind one that has its id. -/
theorem replication_safe (id : Node → Replid) (data : Node → List UInt8) (bound : Replid) (n₀ : Node)
    (hid : Function.Injective id) (hbound : ∀ n, id n < bound) (es : List (NetEvent Node)) :
    ∃ net, run netStep (Net.init id data bound n₀) es = some net ∧
      (∀ n l r o, (net.server n).repl_state = .connected l r o → ∃ buf, (net.link l).state = .online r buf ∧
        (l ∈ (net.server (net.link l).master).slaves →
          (net.server (net.link l).master).replid = (net.server n).replid ∧
          (net.server (net.link l).master).data = (net.server n).data ++ buf ∧
          (net.server (net.link l).master).master_repl_offset = (net.server n).master_repl_offset + buf.length)) ∧
      (∀ n n', (net.server n).repl_backlog ≠ none → (net.server n').repl_backlog ≠ none →
        (net.server n).replid = (net.server n').replid →
        ((net.server n).master_repl_offset ≤ (net.server n').master_repl_offset →
          ∃ bs, (net.server n').data = (net.server n).data ++ bs ∧
            (net.server n').master_repl_offset = (net.server n).master_repl_offset + bs.length) ∧
        ((net.server n').masterhost = none →
          (net.server n).master_repl_offset ≤ (net.server n').master_repl_offset)) := by
  obtain ⟨net, hrun, H, h⟩ := run_total (I := fun net => ∃ H, NetOk H net) (fun _ e ⟨_, h⟩ => h.netStep_ok e) es
    ⟨_, NetOk.init hid hbound n₀⟩
  refine ⟨net, hrun, fun n l r o hs => h.stream_complete hs,
    fun n n' hb hb' hr => ⟨h.same_history hb hb' hr, fun hm => ?_⟩⟩
  exact h.master_ahead hm hb' hb hr

/-- A replica that is cut off, and comes back under a new master. -/
theorem replication_safe_failover : ∃ net, run netStep (Net.init Bool.toNat (fun _ => []) 2 true)
    [.replicaof false true true, .psync false none, .bgsave true, .bgsaveDone true, .readReply false,
      .loadRdb false true, .write true [1, 2, 3], .deliver false 2, .loseMaster false true, .replicaofNoOne false,
      .replicaof true false true,
      .psync true none] = some net ∧
    (∀ n l r o, (net.server n).repl_state = .connected l r o → ∃ buf, (net.link l).state = .online r buf ∧
      (l ∈ (net.server (net.link l).master).slaves →
        (net.server (net.link l).master).replid = (net.server n).replid ∧
        (net.server (net.link l).master).data = (net.server n).data ++ buf ∧
        (net.server (net.link l).master).master_repl_offset = (net.server n).master_repl_offset + buf.length)) ∧
    (∀ n n', (net.server n).repl_backlog ≠ none → (net.server n').repl_backlog ≠ none →
      (net.server n).replid = (net.server n').replid →
      ((net.server n).master_repl_offset ≤ (net.server n').master_repl_offset →
        ∃ bs, (net.server n').data = (net.server n).data ++ bs ∧
          (net.server n').master_repl_offset = (net.server n).master_repl_offset + bs.length) ∧
      ((net.server n').masterhost = none →
        (net.server n).master_repl_offset ≤ (net.server n').master_repl_offset)) :=
  replication_safe Bool.toNat (fun _ => []) 2 true (by intro a b; revert a b; decide) (by decide) _

end GoodGoodStudy.Redis
