/-
Sentinels that watch one master and all know each other: how they agree that it is down and elect the one that does
the failover. Requests and answers may come late, more than once, in any order or never. What `sentinelFlushConfig`
has written outlasts a restart. The steps after the election, and commands that reconfigure a sentinel, are left out.
-/
import GoodGoodStudy.Lib.Ballot
import Mathlib.Data.Fintype.Basic

namespace GoodGoodStudy.Redis.Sentinel

inductive FailoverState
  | none
  | waitStart
  /-- `SENTINEL_FAILOVER_STATE_SELECT_SLAVE` and what comes after it. -/
  | selectSlave
  deriving DecidableEq, Repr

/-- What a sentinel knows of another one: its vote, and `SRI_MASTER_DOWN`. -/
structure SentinelInstance (Node : Type) where
  leader : Option Node
  leader_epoch : ℕ
  master_down : Bool

/-- `sentinelState`, and what it keeps of the master. -/
structure SentinelState (Node : Type) where
  current_epoch : ℕ
  s_down : Bool
  o_down : Bool
  /-- The own vote. -/
  leader : Option Node
  leader_epoch : ℕ
  failover_state : FailoverState
  failover_epoch : ℕ
  force_failover : Bool
  quorum : ℕ
  sentinels : Node → SentinelInstance Node
  /-- `current-epoch` and `leader-epoch` in the configuration file. -/
  config : ℕ × ℕ

/-- `SENTINEL IS-MASTER-DOWN-BY-ADDR`, with `none` for `*`. -/
structure Request (Node : Type) where
  sender : Node
  receiver : Node
  req_epoch : ℕ
  req_runid : Option Node
  deriving DecidableEq

structure Reply (Node : Type) where
  sender : Node
  receiver : Node
  isdown : Bool
  leader : Option Node
  leader_epoch : ℕ
  deriving DecidableEq

/-- `+elected-leader`, with the epoch of the failover and the one in which the votes were counted. -/
structure Elected (Node : Type) where
  leader : Node
  failover_epoch : ℕ
  current_epoch : ℕ
  deriving DecidableEq, Repr

structure Net (Node : Type) where
  sentinel : Node → SentinelState Node
  requests : List (Request Node)
  replies : List (Reply Node)
  elected : List (Elected Node)

variable {Node : Type} [Fintype Node] [DecidableEq Node]

def sentinelFlushConfig (s : SentinelState Node) : SentinelState Node :=
  { s with config := (s.current_epoch, s.leader_epoch) }

/-- `if (req_epoch > sentinel.current_epoch)` -/
def newEpoch (s : SentinelState Node) (epoch : ℕ) : SentinelState Node :=
  if s.current_epoch < epoch then sentinelFlushConfig { s with current_epoch := epoch } else s

def sentinelVoteLeader (s : SentinelState Node) (req_epoch : ℕ) (req_runid : Node) : SentinelState Node :=
  let s := newEpoch s req_epoch
  if s.leader_epoch < req_epoch ∧ s.current_epoch ≤ req_epoch then
    sentinelFlushConfig { s with leader := some req_runid, leader_epoch := s.current_epoch }
  else s

/-- The votes of the other sentinels for `x`. -/
def counters (s : SentinelState Node) (myid x : Node) : ℕ :=
  (Finset.univ.filter fun v => v ≠ myid ∧ (s.sentinels v).leader = some x ∧
    (s.sentinels v).leader_epoch = s.current_epoch).card

/-- The loop over `counters`, in the order of the hash table. -/
def mostVotes (counters : Node → ℕ) (order : List Node) : Option Node × ℕ :=
  order.foldl (fun w x => if w.2 < counters x then (some x, counters x) else w) (none, 0)

/-- The sentinel after its own vote, and the winner. -/
def sentinelGetLeader (s : SentinelState Node) (myid : Node) (epoch : ℕ) (order : List Node) :
    SentinelState Node × Option Node :=
  let (winner, max_votes) := mostVotes (counters s myid) order
  let s' := sentinelVoteLeader s epoch (winner.getD myid)
  let (winner, max_votes) := match s'.leader with
    | none => (winner, max_votes)
    | some myvote =>
      if s'.leader_epoch = epoch ∧ max_votes < counters s myid myvote + 1 then (some myvote, counters s myid myvote + 1)
      else (winner, max_votes)
  let voters_quorum := Fintype.card Node / 2 + 1
  (s', if max_votes < voters_quorum ∨ max_votes < s.quorum then none else winner)

def sentinelAbortFailover (s : SentinelState Node) : SentinelState Node :=
  { s with failover_state := .none, force_failover := false }

def sentinelStartFailover (s : SentinelState Node) : SentinelState Node :=
  { s with
    failover_state := .waitStart
    current_epoch := s.current_epoch + 1
    failover_epoch := s.current_epoch + 1 }

/-- `SRI_S_DOWN` by the times of the pings, and `sentinelCheckObjectivelyDown`. -/
def checkDown (s : SentinelState Node) (myid : Node) (down : Bool) : SentinelState Node :=
  let quorum := 1 + (Finset.univ.filter fun v => v ≠ myid ∧ (s.sentinels v).master_down = true).card
  { s with s_down := down, o_down := down && decide (s.quorum ≤ quorum) }

/-- `sentinelResetMaster` when the master is switched. -/
def resetMaster (s : SentinelState Node) : SentinelState Node :=
  sentinelFlushConfig
    { s with s_down := false, o_down := false, leader := none, failover_state := .none, force_failover := false }

/-- A sentinel starts with its configuration file. -/
def restart (s : SentinelState Node) : SentinelState Node :=
  ⟨s.config.1, false, false, none, s.config.2, .none, 0, false, s.quorum, fun _ => ⟨none, 0, false⟩, s.config⟩

/-! ## Runs -/

inductive Event (Node : Type)
  | checkDown (n : Node) (down : Bool)
  /-- `sentinelStartFailoverIfNeeded`, or the command `SENTINEL FAILOVER`. -/
  | start (n : Node) (force : Bool)
  /-- `sentinelAskMasterStateToOtherSentinels` for one of them: what it has said is too old, or it is asked. -/
  | forget (n other : Node)
  | ask (n other : Node)
  | receiveRequest (r : Request Node)
  | receiveReply (r : Reply Node)
  /-- The epoch of a hello message, also of one about another master. -/
  | hello (n : Node) (epoch : ℕ)
  /-- `sentinelFailoverWaitStart`, before or after the timeout. -/
  | waitStart (n : Node) (order : List Node) (timeout : Bool)
  | abort (n : Node)
  | resetMaster (n : Node)
  | restart (n : Node)

namespace Net

def setSentinel (net : Net Node) (n : Node) (s : SentinelState Node) : Net Node :=
  { net with sentinel := Function.update net.sentinel n s }

def ask (net : Net Node) (n other : Node) : Net Node :=
  let s := net.sentinel n
  if s.s_down = true ∧ other ≠ n then
    let runid := if s.failover_state = .none then none else some n
    { net with requests := ⟨n, other, s.current_epoch, runid⟩ :: net.requests }
  else net

def receiveRequest (net : Net Node) (r : Request Node) : Net Node :=
  if r ∈ net.requests then
    match r.req_runid with
    | none =>
      { net with replies := ⟨r.receiver, r.sender, (net.sentinel r.receiver).s_down, none, 0⟩ :: net.replies }
    | some runid =>
      let s := sentinelVoteLeader (net.sentinel r.receiver) r.req_epoch runid
      { net.setSentinel r.receiver s with
        replies := ⟨r.receiver, r.sender, s.s_down, s.leader, s.leader_epoch⟩ :: net.replies }
  else net

/-- `sentinelReceiveIsMasterDownReply` -/
def receiveReply (net : Net Node) (r : Reply Node) : Net Node :=
  if r ∈ net.replies then
    let s := net.sentinel r.receiver
    let ri := { s.sentinels r.sender with master_down := r.isdown }
    let ri := if r.leader = none then ri else { ri with leader := r.leader, leader_epoch := r.leader_epoch }
    net.setSentinel r.receiver { s with sentinels := Function.update s.sentinels r.sender ri }
  else net

def forget (net : Net Node) (n other : Node) : Net Node :=
  let s := net.sentinel n
  net.setSentinel n
    { s with
      sentinels := Function.update s.sentinels other
        { s.sentinels other with leader := none, master_down := false } }

def start (net : Net Node) (n : Node) (force : Bool) : Net Node :=
  let s := net.sentinel n
  if s.failover_state = .none ∧ (s.o_down = true ∨ force = true) then
    net.setSentinel n { sentinelStartFailover s with force_failover := force }
  else net

/-- `sentinelFailoverWaitStart` -/
def waitStart (net : Net Node) (n : Node) (order : List Node) (timeout : Bool) : Net Node :=
  let s := net.sentinel n
  if s.failover_state = .waitStart ∧ ∀ x, x ∈ order then
    let (s', leader) := sentinelGetLeader s n s.failover_epoch order
    if leader = some n then
      { net.setSentinel n { s' with failover_state := .selectSlave } with
        elected := ⟨n, s.failover_epoch, s.current_epoch⟩ :: net.elected }
    else if s'.force_failover = true then net.setSentinel n { s' with failover_state := .selectSlave }
    else if timeout then net.setSentinel n (sentinelAbortFailover s')
    else net.setSentinel n s'
  else net

def step (net : Net Node) : Event Node → Net Node
  | .checkDown n down => net.setSentinel n (Sentinel.checkDown (net.sentinel n) n down)
  | .start n force => net.start n force
  | .forget n other => net.forget n other
  | .ask n other => net.ask n other
  | .receiveRequest r => net.receiveRequest r
  | .receiveReply r => net.receiveReply r
  | .hello n epoch => net.setSentinel n (newEpoch (net.sentinel n) epoch)
  | .waitStart n order timeout => net.waitStart n order timeout
  | .abort n => net.setSentinel n (sentinelAbortFailover (net.sentinel n))
  | .resetMaster n => net.setSentinel n (Sentinel.resetMaster (net.sentinel n))
  | .restart n => net.setSentinel n (Sentinel.restart (net.sentinel n))

/-- New sentinels, each with its quorum. -/
def init (quorum : Node → ℕ) : Net Node where
  sentinel n := ⟨0, false, false, none, 0, .none, 0, false, quorum n, fun _ => ⟨none, 0, false⟩, (0, 0)⟩
  requests := []
  replies := []
  elected := []

end Net

end GoodGoodStudy.Redis.Sentinel
