/-
A sentinel votes once an epoch, and who wins an epoch in it is the only one. The votes are counted in the epoch of the
counter, which can be later than the one of the failover.
-/
import GoodGoodStudy.Redis.Sentinel

namespace GoodGoodStudy.Redis.Sentinel

open GoodGoodStudy.Lib

variable {Node : Type}

/-! ## The invariant -/

/-- One sentinel, with all the votes that have ever been cast. -/
structure SentinelOk (b : Ballot Node Node) (n : Node) (s : SentinelState Node) : Prop where
  own : ∀ x, s.leader = some x → b n s.leader_epoch = some x
  last : ∀ e x, b n e = some x → e ≤ s.leader_epoch ∧ e ≤ s.config.2
  config : s.config.2 ≤ s.leader_epoch
  votes : ∀ v x, (s.sentinels v).leader = some x → b v (s.sentinels v).leader_epoch = some x

structure NetOk [Fintype Node] [DecidableEq Node] (b : Ballot Node Node) (net : Net Node) : Prop where
  sentinel : ∀ n, SentinelOk b n (net.sentinel n)
  replies : ∀ r ∈ net.replies, ∀ x, r.leader = some x → b r.sender r.leader_epoch = some x
  elected : ∀ e ∈ net.elected, e.current_epoch = e.failover_epoch → b.Won e.failover_epoch e.leader

variable {b b' : Ballot Node Node} {n : Node} {s : SentinelState Node}

theorem SentinelOk.mono (h : SentinelOk b n s) (hext : b.Extends b') (hn : b' n = b n) : SentinelOk b' n s where
  own x hx := hext _ _ _ (h.own x hx)
  last e x he := h.last e x (hn ▸ he)
  config := h.config
  votes v x hx := hext _ _ _ (h.votes v x hx)

theorem SentinelOk.flushConfig (h : SentinelOk b n s) : SentinelOk b n (sentinelFlushConfig s) :=
  { h with
    last := fun e x he => ⟨(h.last e x he).1, (h.last e x he).1⟩
    config := le_rfl }

theorem SentinelOk.newEpoch (h : SentinelOk b n s) (epoch : ℕ) : SentinelOk b n (newEpoch s epoch) := by
  rw [Sentinel.newEpoch]
  split_ifs
  · have h' : SentinelOk b n { s with current_epoch := epoch } := { h with }
    exact h'.flushConfig
  · exact h

theorem le_newEpoch (s : SentinelState Node) (epoch : ℕ) : epoch ≤ (newEpoch s epoch).current_epoch := by
  rw [newEpoch]
  split_ifs with h
  · exact le_rfl
  · exact Nat.le_of_not_lt h

/-- The vote is for an epoch in which the sentinel has not voted. -/
theorem SentinelOk.voteLeader [DecidableEq Node] (h : SentinelOk b n s) (req_epoch : ℕ) (req_runid : Node) :
    ∃ b', b.Extends b' ∧ (∀ v ≠ n, b' v = b v) ∧ SentinelOk b' n (sentinelVoteLeader s req_epoch req_runid) := by
  rw [sentinelVoteLeader]
  have hs := h.newEpoch req_epoch
  split_ifs with hvote
  · obtain ⟨hlt, hle⟩ := hvote
    have hepoch : (Sentinel.newEpoch s req_epoch).current_epoch = req_epoch := le_antisymm hle (le_newEpoch s req_epoch)
    have hnone : b n req_epoch = none := by
      rw [Option.eq_none_iff_forall_ne_some]
      exact fun x hx => Nat.lt_irrefl _ (hlt.trans_le ((hs.last _ x hx).1))
    have hext := Ballot.extends_cast (c := req_runid) hnone
    refine ⟨b.cast n req_epoch req_runid, hext, fun v hv => funext fun e => Ballot.cast_other (.inl hv), ?_⟩
    rw [hepoch]
    constructor
    · rintro _ ⟨⟩
      exact Ballot.cast_self b n req_epoch req_runid
    · intro e x he
      have hle : e ≤ req_epoch := by
        rcases eq_or_ne e req_epoch with rfl | hne
        · exact le_rfl
        · rw [Ballot.cast_other (.inr hne)] at he
          exact ((hs.last e x he).1).trans hlt.le
      exact ⟨hle, hle⟩
    · exact le_rfl
    · exact fun v x hx => hext _ _ _ (hs.votes v x hx)
  · exact ⟨b, .refl b, fun _ _ => rfl, hs⟩

/-! ## Counting -/

theorem mostVotes_spec (counters : Node → ℕ) (order : List Node) : ∀ x, (mostVotes counters order).1 = some x →
    (mostVotes counters order).2 = counters x := by
  have hfold : ∀ w : Option Node × ℕ, (∀ x, w.1 = some x → w.2 = counters x) → ∀ x,
      (order.foldl (fun w x => if w.2 < counters x then (some x, counters x) else w) w).1 = some x →
      (order.foldl (fun w x => if w.2 < counters x then (some x, counters x) else w) w).2 = counters x := by
    induction order with
    | nil => exact fun w hw => hw
    | cons y order ih =>
      intro w hw
      apply ih
      dsimp only
      split_ifs
      · rintro _ ⟨⟩
        rfl
      · exact hw
  exact hfold (none, 0) nofun

variable [Fintype Node] [DecidableEq Node]

/-- The winner has enough votes of the others, or with the own one. -/
theorem getLeader_spec {epoch : ℕ} {order : List Node} {x : Node}
    (h : (sentinelGetLeader s n epoch order).2 = some x) :
    Fintype.card Node / 2 + 1 ≤ counters s n x ∨
      Fintype.card Node / 2 + 1 ≤ counters s n x + 1 ∧ (sentinelGetLeader s n epoch order).1.leader = some x ∧
        (sentinelGetLeader s n epoch order).1.leader_epoch = epoch := by
  have hmost := mostVotes_spec (counters s n) order
  rw [sentinelGetLeader] at h ⊢
  dsimp only at h ⊢
  split at h
  · split_ifs at h with hfew
    left
    rw [← hmost x h]
    omega
  · next myvote hmy =>
    split_ifs at h with hown hfew hfew
    · obtain rfl := Option.some.inj h
      exact .inr ⟨by omega, hmy, hown.1⟩
    · left
      rw [← hmost x h]
      omega

theorem SentinelOk.won (h : SentinelOk b n s) {epoch : ℕ} {order : List Node} {x : Node}
    (hleader : (sentinelGetLeader s n epoch order).2 = some x) (hext : b.Extends b')
    (hs : SentinelOk b' n (sentinelGetLeader s n epoch order).1) (hepoch : s.current_epoch = epoch) :
    b'.Won epoch x := by
  have hothers : ∀ v ∈ Finset.univ.filter (fun v => v ≠ n ∧ (s.sentinels v).leader = some x ∧
      (s.sentinels v).leader_epoch = s.current_epoch), v ≠ n ∧ b' v epoch = some x := by
    intro v hv
    obtain ⟨-, hne, hx, he⟩ := Finset.mem_filter.1 hv
    have hvote := hext _ _ _ (h.votes v x hx)
    rw [he, hepoch] at hvote
    exact ⟨hne, hvote⟩
  rcases getLeader_spec hleader with hle | ⟨hle, hl, he⟩
  · apply hle.trans (Finset.card_le_card _)
    exact fun v hv => Finset.mem_filter.2 ⟨Finset.mem_univ v, (hothers v hv).2⟩
  · have hown := hs.own x hl
    rw [he] at hown
    have hnot : n ∉ Finset.univ.filter (fun v => v ≠ n ∧ (s.sentinels v).leader = some x ∧
        (s.sentinels v).leader_epoch = s.current_epoch) := fun hn => (hothers n hn).1 rfl
    rw [counters, ← Finset.card_insert_of_notMem hnot] at hle
    apply hle.trans (Finset.card_le_card _)
    intro v hv
    rcases Finset.mem_insert.1 hv with rfl | hv
    · exact Finset.mem_filter.2 ⟨Finset.mem_univ v, hown⟩
    · exact Finset.mem_filter.2 ⟨Finset.mem_univ v, (hothers v hv).2⟩

/-! ## Runs -/

namespace NetOk

variable {net : Net Node}

/-- A step of one sentinel, which may cast its vote. -/
theorem setSentinel (h : NetOk b net) (hext : b.Extends b') (hothers : ∀ v ≠ n, b' v = b v) (hs : SentinelOk b' n s) :
    NetOk b' (net.setSentinel n s) where
  sentinel n' := by
    rw [Net.setSentinel]
    dsimp only
    rcases eq_or_ne n' n with rfl | hne
    · rw [Function.update_self]
      exact hs
    · rw [Function.update_of_ne hne]
      exact (h.sentinel n').mono hext (hothers n' hne)
  replies r hr x hx := hext _ _ _ (h.replies r hr x hx)
  elected e he hepoch := (h.elected e he hepoch).mono hext

theorem keep (h : NetOk b net) (hs : SentinelOk b n s) : NetOk b (net.setSentinel n s) :=
  h.setSentinel (.refl b) (fun _ _ => rfl) hs

theorem receiveRequest (h : NetOk b net) (r : Request Node) : ∃ b', NetOk b' (net.receiveRequest r) := by
  rw [Net.receiveRequest]
  split_ifs
  · split
    · refine ⟨b, h.sentinel, fun r' hr' x hx => ?_, h.elected⟩
      rcases List.mem_cons.1 hr' with rfl | hr'
      · cases hx
      · exact h.replies r' hr' x hx
    · next runid _ =>
      obtain ⟨b', hext, hothers, hs⟩ := (h.sentinel r.receiver).voteLeader r.req_epoch runid
      have hset := h.setSentinel hext hothers hs
      refine ⟨b', hset.sentinel, fun r' hr' x hx => ?_, hset.elected⟩
      rcases List.mem_cons.1 hr' with rfl | hr'
      · exact hs.own x hx
      · exact hset.replies r' hr' x hx
  · exact ⟨b, h⟩

theorem receiveReply (h : NetOk b net) (r : Reply Node) : NetOk b (net.receiveReply r) := by
  rw [Net.receiveReply]
  by_cases hmem : r ∈ net.replies
  · rw [if_pos hmem]
    have hn := h.sentinel r.receiver
    refine h.keep { hn with votes := fun v x hx => ?_ }
    dsimp only at hx ⊢
    rcases eq_or_ne v r.sender with rfl | hne
    · rw [Function.update_self] at hx ⊢
      by_cases hnone : r.leader = none
      · rw [if_pos hnone] at hx ⊢
        exact hn.votes _ x hx
      · rw [if_neg hnone] at hx ⊢
        exact h.replies r hmem x hx
    · rw [Function.update_of_ne hne] at hx ⊢
      exact hn.votes v x hx
  · rw [if_neg hmem]
    exact h

theorem forget (h : NetOk b net) (n other : Node) : NetOk b (net.forget n other) := by
  have hn := h.sentinel n
  refine h.keep { hn with votes := fun v x hx => ?_ }
  dsimp only at hx ⊢
  rcases eq_or_ne v other with rfl | hne
  · rw [Function.update_self] at hx
    cases hx
  · rw [Function.update_of_ne hne] at hx ⊢
    exact hn.votes v x hx

theorem waitStart (h : NetOk b net) (n : Node) (order : List Node) (timeout : Bool) :
    ∃ b', NetOk b' (net.waitStart n order timeout) := by
  rw [Net.waitStart]
  dsimp only
  split_ifs with hwait hleader hforce
  all_goals
    obtain ⟨b', hext, hothers, hs⟩ := (h.sentinel n).voteLeader (net.sentinel n).failover_epoch
      ((mostVotes (counters (net.sentinel n) n) order).1.getD n)
  · have hset := h.setSentinel
      (s := { (sentinelGetLeader (net.sentinel n) n (net.sentinel n).failover_epoch order).1 with
      failover_state := .selectSlave }) hext hothers { hs with }
    refine ⟨b', hset.sentinel, hset.replies, fun e he hepoch => ?_⟩
    rcases List.mem_cons.1 he with rfl | he
    · exact (h.sentinel n).won hleader hext hs hepoch
    · exact hset.elected e he hepoch
  · exact ⟨b', h.setSentinel hext hothers { hs with }⟩
  · exact ⟨b', h.setSentinel hext hothers { hs with }⟩
  · exact ⟨b', h.setSentinel hext hothers hs⟩
  · exact ⟨b, h⟩

theorem step (h : NetOk b net) (e : Event Node) : ∃ b', NetOk b' (net.step e) := by
  cases e with
  | checkDown n down => exact ⟨b, h.keep { h.sentinel n with }⟩
  | start n force =>
    refine ⟨b, ?_⟩
    rw [Net.step, Net.start]
    dsimp only
    split_ifs
    · exact h.keep { h.sentinel n with }
    · exact h
  | forget n other => exact ⟨b, h.forget n other⟩
  | ask n other =>
    refine ⟨b, ?_⟩
    rw [Net.step, Net.ask]
    dsimp only
    split_ifs
    · exact { h with }
    · exact { h with }
    · exact h
  | receiveRequest r => exact h.receiveRequest r
  | receiveReply r => exact ⟨b, h.receiveReply r⟩
  | hello n epoch => exact ⟨b, h.keep ((h.sentinel n).newEpoch epoch)⟩
  | waitStart n order timeout => exact h.waitStart n order timeout
  | abort n => exact ⟨b, h.keep { h.sentinel n with }⟩
  | resetMaster n =>
    have hn : SentinelOk b n { net.sentinel n with
      s_down := false, o_down := false, leader := none, failover_state := .none, force_failover := false } :=
      { h.sentinel n with own := nofun }
    exact ⟨b, h.keep hn.flushConfig⟩
  | restart n =>
    have hn := h.sentinel n
    exact ⟨b, h.keep
      { own := nofun
        last := fun e x he => ⟨(hn.last e x he).2, (hn.last e x he).2⟩
        config := le_rfl
        votes := fun _ _ => nofun }⟩

theorem run (h : NetOk b net) (es : List (Event Node)) : ∃ b', NetOk b' (es.foldl Net.step net) := by
  induction es generalizing b net with
  | nil => exact ⟨b, h⟩
  | cons e es ih =>
    obtain ⟨b', h'⟩ := h.step e
    exact ih h'

end NetOk

theorem init_ok (quorum : Node → ℕ) : NetOk (fun _ _ => none) (Net.init quorum) where
  sentinel _ := ⟨nofun, nofun, le_rfl, fun _ _ => nofun⟩
  replies := nofun
  elected := nofun

/-- However the messages, the timers and the restarts fall, two sentinels that win the same failover epoch, and have
counted the votes while this was their current epoch, are the same. -/
theorem one_leader (quorum : Node → ℕ) (es : List (Event Node)) :
    ∀ e ∈ (es.foldl Net.step (Net.init quorum)).elected, ∀ e' ∈ (es.foldl Net.step (Net.init quorum)).elected,
      e.failover_epoch = e'.failover_epoch → e.current_epoch = e.failover_epoch → e'.current_epoch = e'.failover_epoch →
        e.leader = e'.leader := by
  obtain ⟨b, h⟩ := (init_ok quorum).run es
  intro e he e' he' heq hcur hcur'
  have hwon := h.elected e he hcur
  rw [heq] at hwon
  exact hwon.unique (h.elected e' he' hcur')

/-- Two of three sentinels find that the master is down and begin a failover; the third one votes for the second. -/
def twoFailovers (a b c : Node) : List (Event Node) :=
  [.checkDown a true, .checkDown b true, .ask a b, .receiveRequest ⟨a, b, 0, none⟩, .receiveReply ⟨b, a, true, none, 0⟩,
    .ask b a, .receiveRequest ⟨b, a, 0, none⟩, .receiveReply ⟨a, b, true, none, 0⟩, .checkDown a true,
    .checkDown b true, .start a false, .start b false, .ask b c, .receiveRequest ⟨b, c, 1, some b⟩,
    .receiveReply ⟨c, b, false, some b, 1⟩, .waitStart a [a, b, c] false, .waitStart b [a, b, c] false]

theorem one_leader_twoFailovers : (⟨1, 1, 1⟩ : Elected (Fin 3)).leader = 1 :=
  one_leader (fun _ => 2) (twoFailovers 0 1 2) ⟨1, 1, 1⟩ (by decide) ⟨1, 1, 1⟩ (by decide) rfl rfl rfl

/-- The epoch of another failover comes to the first one, and the third one votes again. -/
def laterEpoch (a b c : Node) : List (Event Node) :=
  [.hello a 2, .ask a c, .receiveRequest ⟨a, c, 2, some a⟩, .receiveReply ⟨c, a, false, some a, 2⟩,
    .waitStart a [a, b, c] false]

/-- The condition on the epochs is needed: here two sentinels win the failover of epoch 1. -/
theorem two_leaders :
    ((twoFailovers (0 : Fin 3) 1 2 ++ laterEpoch 0 1 2).foldl Net.step (Net.init fun _ => 2)).elected =
      [⟨0, 1, 2⟩, ⟨1, 1, 1⟩] := by
  decide

end GoodGoodStudy.Redis.Sentinel
