/-
Replication: masters, replicas and replicas of replicas that are attached, cut off, promoted and attached again. A
server has its data as the bytes of the write stream that it has taken in; a link carries what its master still sends.
`none` is a failed assertion, a `NULL` that is followed or a loop that does not end. Restarts, the selected database,
and the transfer of the RDB file piece by piece are left out.
-/
import GoodGoodStudy.Redis.Backlog
import GoodGoodStudy.Lib.Run
import Mathlib.Logic.Function.Basic

namespace GoodGoodStudy.Redis

/-- The ids that `getRandomHexChars` makes; each new one is one that nobody has had. -/
abbrev Replid := ℕ

/-- The state of a replica, with the connection. -/
inductive ReplState
  /-- `REPL_STATE_NONE` of a master, `REPL_STATE_CONNECT` of a replica. -/
  | idle
  /-- PSYNC is sent. -/
  | handshake (link : ℕ)
  /-- The RDB file is awaited, with `master_replid` and `master_initial_offset`. -/
  | transfer (link : ℕ) (master_replid : Replid) (master_initial_offset : ℕ)
  /-- `server.master` with its `replid` and `reploff`. -/
  | connected (link : ℕ) (replid : Replid) (reploff : ℕ)
  deriving DecidableEq, Repr

structure Server (Node : Type) where
  masterhost : Option Node
  repl_state : ReplState
  /-- The `replid` and `reploff` of the cached client. -/
  cached_master : Option (Replid × ℕ)
  replid : Replid
  /-- The second id with its `second_replid_offset`, `none` when it is cleared. -/
  replid2 : Option (Replid × ℕ)
  master_repl_offset : ℕ
  repl_backlog_size : ℕ
  repl_backlog : Option Backlog
  /-- The links of the replicas. -/
  slaves : List ℕ
  data : List UInt8

/-- The master's side of a replica, with the answer to its PSYNC and its output buffer. -/
inductive SlaveState
  | waitBgsaveStart
  /-- `+FULLRESYNC replid offset`; the RDB file is made. -/
  | waitBgsaveEnd (replid : Replid) (psync_initial_offset : ℕ) (rdb buf : List UInt8)
  /-- The RDB file is sent. -/
  | sendBulk (replid : Replid) (psync_initial_offset : ℕ) (rdb buf : List UInt8)
  /-- `+CONTINUE replid`, or the RDB file is loaded. -/
  | online (replid : Replid) (buf : List UInt8)
  deriving DecidableEq, Repr

structure Link (Node : Type) where
  master : Node
  slave : Node
  state : SlaveState

structure Net (Node : Type) where
  server : Node → Server Node
  link : ℕ → Link Node
  nextLink : ℕ
  nextId : Replid

variable {Node : Type} [DecidableEq Node]

namespace Net

def setServer (net : Net Node) (n : Node) (s : Server Node) : Net Node :=
  { net with server := Function.update net.server n s }

def setState (net : Net Node) (link : ℕ) (state : SlaveState) : Net Node :=
  { net with link := Function.update net.link link { net.link link with state := state } }

end Net

/-- A new buffer; what `zmalloc` leaves in it is never read. -/
def Server.createBacklog (s : Server Node) : Backlog :=
  createReplicationBacklog (List.replicate s.repl_backlog_size 0) s.master_repl_offset

/-- `if (server.repl_backlog == NULL) createReplicationBacklog()` -/
def Server.ensureBacklog (s : Server Node) : Server Node :=
  match s.repl_backlog with
  | some _ => s
  | none => { s with repl_backlog := some s.createBacklog }

/-! ## The stream -/

/-- What is added to the output buffer of a replica. -/
def SlaveState.feed (bs : List UInt8) : SlaveState → SlaveState
  | .waitBgsaveStart => .waitBgsaveStart
  | .waitBgsaveEnd r o rdb buf => .waitBgsaveEnd r o rdb (buf ++ bs)
  | .sendBulk r o rdb buf => .sendBulk r o rdb (buf ++ bs)
  | .online r buf => .online r (buf ++ bs)

def Net.mapLinks (net : Net Node) (links : List ℕ) (f : SlaveState → SlaveState) : Net Node :=
  { net with link := fun l => if l ∈ links then { net.link l with state := f (net.link l).state } else net.link l }

/-- `replicationFeedSlaves` of a master and `replicationFeedSlavesFromMasterStream` of a replica: the bytes go into the
backlog and to the replicas. Without a backlog there must not be any. -/
def replicationFeed (net : Net Node) (n : Node) (bs : List UInt8) : Option (Net Node) :=
  let s := net.server n
  match s.repl_backlog with
  | none => if s.slaves = [] then some net else none
  | some b =>
    match feedReplicationBacklog b bs (s.master_repl_offset + bs.length) with
    | none => none
    | some b =>
      some ((net.setServer n
        { s with master_repl_offset := s.master_repl_offset + bs.length, repl_backlog := some b }).mapLinks
        s.slaves (SlaveState.feed bs))

/-- A server takes in bytes of the write stream and passes them on. -/
def takeIn (net : Net Node) (n : Node) (bs : List UInt8) : Option (Net Node) :=
  let s := net.server n
  replicationFeed (net.setServer n { s with data := s.data ++ bs }) n bs

/-! ## The commands -/

/-- Losing the master: its client is cached, unless it is being closed. -/
def Server.dropMaster (s : Server Node) (cache : Bool) : Server Node :=
  match s.repl_state with
  | .connected _ replid reploff =>
    { s with repl_state := .idle, cached_master := if cache then some (replid, reploff) else s.cached_master }
  | _ => { s with repl_state := .idle }

def replicationSetMaster (s : Server Node) (host : Node) (cache : Bool) : Server Node :=
  let s' := { s.dropMaster cache with masterhost := some host, slaves := [] }
  -- `replicationCacheMasterUsingMyself`
  if s.masterhost = none then { s' with cached_master := some (s.replid, s.master_repl_offset) } else s'

/-- `replicationUnsetMaster`, with the new id for `shiftReplicationId`. -/
def replicationUnsetMaster (s : Server Node) (newId : Replid) : Server Node :=
  { s with
    masterhost := none
    replid := newId
    replid2 := some (s.replid, s.master_repl_offset + 1)
    repl_state := .idle
    cached_master := none
    slaves := [] }

/-- `replid2` stands for the history up to `second_replid_offset`. -/
def isReplid2 (s : Server Node) (master_replid : Replid) (psync_offset : ℕ) : Bool :=
  match s.replid2 with
  | none => false
  | some (replid2, second_replid_offset) => master_replid = replid2 ∧ psync_offset ≤ second_replid_offset

/-- The test of `masterTryPartialResynchronization`: the backlog that has what is asked for. -/
def partialBacklog (s : Server Node) (master_replid : Replid) (psync_offset : ℕ) : Option Backlog :=
  if master_replid = s.replid ∨ isReplid2 s master_replid psync_offset = true then
    match s.repl_backlog with
    | none => none
    | some b => if psync_offset < b.off ∨ b.off + b.histlen < psync_offset then none else some b
  else none

/-- With the first replica of a master without backlog a new history begins. -/
def startHistory (net : Net Node) (m : Node) : Net Node :=
  let s := net.server m
  if s.slaves = [] ∧ s.repl_backlog = none then
    { net.setServer m { s with replid := net.nextId, replid2 := none, repl_backlog := some s.createBacklog } with
      nextId := net.nextId + 1 }
  else net

def addSlave (net : Net Node) (m n : Node) (state : SlaveState) : Net Node :=
  let s := net.server m
  { server := Function.update net.server m { s with slaves := s.slaves ++ [net.nextLink] }
    link := Function.update net.link net.nextLink ⟨m, n, state⟩
    nextLink := net.nextLink + 1
    nextId := net.nextId }

/-- A new replica can share the RDB file that is made for `attach`, and what is kept for it since. -/
def shareBgsave (net : Net Node) (m : Node) (attach : Option ℕ) : SlaveState :=
  match attach with
  | none => .waitBgsaveStart
  | some l =>
    if l ∈ (net.server m).slaves then
      match (net.link l).state with
      | .waitBgsaveEnd _ o rdb buf => .waitBgsaveEnd (net.server m).replid o rdb buf
      | _ => .waitBgsaveStart
    else .waitBgsaveStart

/-- `syncCommand`, where everything is sent. -/
def fullResync (net : Net Node) (m n : Node) (attach : Option ℕ) : Net Node :=
  addSlave (startHistory net m) m n (shareBgsave (startHistory net m) m attach)

def partialResync (net : Net Node) (m n : Node) (reply : List UInt8) : Net Node :=
  addSlave net m n (.online (net.server m).replid reply)

def handshake (net : Net Node) (n : Node) (link : ℕ) : Net Node :=
  net.setServer n { net.server n with repl_state := .handshake link }

def ReplState.isConnected : ReplState → Bool
  | .connected _ _ _ => true
  | _ => false

def ReplState.isTransfer : ReplState → Bool
  | .transfer _ _ _ => true
  | _ => false

/-- `connectWithMaster`, PSYNC and `syncCommand`. A master that is itself a replica without its master refuses. -/
def psync (net : Net Node) (n : Node) (attach : Option ℕ) : Option (Net Node) :=
  match (net.server n).masterhost, (net.server n).repl_state with
  | some m, .idle =>
    let s := net.server m
    if s.masterhost ≠ none ∧ !s.repl_state.isConnected then some net
    else
      match (net.server n).cached_master with
      -- `PSYNC ? -1`
      | none => some (handshake (fullResync net m n attach) n net.nextLink)
      | some (replid, reploff) =>
        match partialBacklog s replid (reploff + 1) with
        | none => some (handshake (fullResync net m n attach) n net.nextLink)
        | some b =>
          (addReplyReplicationBacklog b (reploff + 1)).map fun reply =>
            handshake (partialResync net m n reply) n net.nextLink
  | _, _ => some net

/-- `startBgsaveForReplication`: the RDB file has the data of now. -/
def SlaveState.bgsave (s : Server Node) : SlaveState → SlaveState
  | .waitBgsaveStart => .waitBgsaveEnd s.replid s.master_repl_offset s.data []
  | state => state

/-- `updateSlavesWaitingBgsave` -/
def SlaveState.bgsaveDone : SlaveState → SlaveState
  | .waitBgsaveEnd r o rdb buf => .sendBulk r o rdb buf
  | state => state

/-- The replica reads the answer to its PSYNC. -/
def readReply (net : Net Node) (n : Node) : Option (Net Node) :=
  let s := net.server n
  let fullresync (l : ℕ) (r : Replid) (o : ℕ) : Net Node :=
    net.setServer n
      { s with repl_state := .transfer l r o, cached_master := none, slaves := [], repl_backlog := none }
  match s.repl_state with
  | .handshake l =>
    match (net.link l).state with
    | .waitBgsaveStart => some net
    | .waitBgsaveEnd r o _ _ => some (fullresync l r o)
    | .sendBulk r o _ _ => some (fullresync l r o)
    | .online r _ =>
      match s.cached_master with
      | none => none
      | some (replid, reploff) =>
        let s := if r ≠ replid then
            { s with replid := r, replid2 := some (replid, s.master_repl_offset + 1), slaves := [] }
          else s
        some (net.setServer n { s.ensureBacklog with repl_state := .connected l r reploff, cached_master := none })
  | _ => some net

/-- The RDB file has arrived; loading it may fail when the old data is gone. -/
def loadRdb (net : Net Node) (n : Node) (ok : Bool) : Net Node :=
  let s := net.server n
  match s.repl_state with
  | .transfer l r o =>
    match (net.link l).state with
    | .sendBulk _ _ rdb buf =>
      if ok then
        let s := { s with
          repl_state := .connected l r o
          replid := r
          replid2 := none
          master_repl_offset := o
          data := rdb }
        (net.setServer n s.ensureBacklog).setState l (.online r buf)
      else net.setServer n { s with repl_state := .idle, data := [] }
    | _ => net
  | _ => net

/-- The replica processes bytes that its master has sent, and passes them on. -/
def deliver (net : Net Node) (n : Node) (count : ℕ) : Option (Net Node) :=
  let s := net.server n
  match s.repl_state with
  | .connected l r reploff =>
    match (net.link l).state with
    | .online r' buf =>
      takeIn ((net.setServer n { s with repl_state := .connected l r (reploff + (buf.take count).length) }).setState l
        (.online r' (buf.drop count))) n (buf.take count)
    | _ => some net
  | _ => some net

def CONFIG_REPL_BACKLOG_MIN_SIZE : ℕ := 1024 * 16

def resizeReplicationBacklog (s : Server Node) (newsize : ℕ) : Server Node :=
  let newsize := max newsize CONFIG_REPL_BACKLOG_MIN_SIZE
  if s.repl_backlog_size = newsize then s
  else
    let s := { s with repl_backlog_size := newsize }
    match s.repl_backlog with
    | none => s
    | some _ => { s with repl_backlog := some s.createBacklog }

/-! ## Runs -/

inductive NetEvent (Node : Type)
  /-- A client's write, or a PING to the replicas. -/
  | write (n : Node) (bs : List UInt8)
  | replicaof (n host : Node) (cache : Bool)
  | replicaofNoOne (n : Node)
  | psync (n : Node) (attach : Option ℕ)
  | bgsave (m : Node)
  | bgsaveDone (m : Node)
  | readReply (n : Node)
  | loadRdb (n : Node) (ok : Bool)
  | deliver (n : Node) (count : ℕ)
  /-- The replica loses its connection, the master the one of a replica. -/
  | loseMaster (n : Node) (cache : Bool)
  | loseSlave (m : Node) (link : ℕ)
  | resizeBacklog (n : Node) (size : ℕ)
  /-- `replicationCron` of a master that has had no replica for a long time. -/
  | freeBacklog (n : Node)

def netStep (net : Net Node) : NetEvent Node → Option (Net Node)
  | .write n bs => if (net.server n).masterhost = none then takeIn net n bs else some net
  | .replicaof n host cache =>
    if (net.server n).masterhost = some host then some net
    else some (net.setServer n (replicationSetMaster (net.server n) host cache))
  | .replicaofNoOne n =>
    if (net.server n).masterhost = none then some net
    else some { net.setServer n (replicationUnsetMaster (net.server n) net.nextId) with nextId := net.nextId + 1 }
  | .psync n attach => psync net n attach
  | .bgsave m => some (net.mapLinks (net.server m).slaves (SlaveState.bgsave (net.server m)))
  | .bgsaveDone m => some (net.mapLinks (net.server m).slaves SlaveState.bgsaveDone)
  | .readReply n => readReply net n
  | .loadRdb n ok => some (loadRdb net n ok)
  | .deliver n count => deliver net n count
  | .loseMaster n cache => some (net.setServer n ((net.server n).dropMaster cache))
  | .loseSlave m link => some (net.setServer m { net.server m with slaves := (net.server m).slaves.erase link })
  | .resizeBacklog n size => some (net.setServer n (resizeReplicationBacklog (net.server n) size))
  | .freeBacklog n =>
    let s := net.server n
    if s.masterhost = none ∧ s.slaves = [] ∧ s.repl_backlog ≠ none then
      some { net.setServer n { s with replid := net.nextId, replid2 := none, repl_backlog := none } with
        nextId := net.nextId + 1 }
    else some net

/-- Servers without replicas; each has an id of its own and any data. -/
def Net.init (id : Node → Replid) (data : Node → List UInt8) (bound : Replid) (n₀ : Node) : Net Node where
  server n := ⟨none, .idle, none, id n, none, 0, 1024 * 1024, none, [], data n⟩
  link _ := ⟨n₀, n₀, .waitBgsaveStart⟩
  nextLink := 0
  nextId := bound

end GoodGoodStudy.Redis
