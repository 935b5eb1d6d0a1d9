/-
The echo servers that wait for many sockets at once, with the kernel that tells them which are ready. A socket is
reported for as long as there is something to read (`select`, and `epoll` without `EPOLLET`), or only once after
something has come in (`EPOLLET`); a server reads once for an event, or until there is nothing left. A server that is
told only once has to read until there is nothing left: then, whatever the clients do and whatever order the kernel
reports in, every byte is echoed in its place, and a server that has to wait has nothing left to echo.
-/
import Mathlib.Logic.Function.Basic
import GoodGoodStudy.Lib.Bytes
import GoodGoodStudy.Lib.Run

namespace GoodGoodStudy.EchoServer

open GoodGoodStudy.Lib

/-! ## Servers and kernel -/

structure Server where
  /-- The sockets of clients are registered with `EPOLLET`. -/
  edge : Bool
  /-- Sockets do not block, and are read until `EAGAIN`. -/
  drain : Bool
  /-- `BUF_SIZE` -/
  bufSize : ℕ
  /-- The number of sockets that one call can report. -/
  maxEvents : ℕ

def echoEpetserv : Server := ⟨true, true, 4, 50⟩

def echoEpltserv : Server := ⟨false, false, 4, 50⟩

def echoEpollserv : Server := ⟨false, false, 100, 50⟩

/-- `select` reports every socket of an `fd_set`. -/
def echoSelectserv : Server := ⟨false, false, 100, 1024⟩

/-- A connection with the bytes that have come in and have not been read. -/
structure Conn where
  unread : Bytes
  /-- The client sends no more. -/
  eof : Bool
  /-- Something has come in since the socket was reported. -/
  pending : Bool
  echoed : Bytes
  /-- History: all bytes that have come in. -/
  received : Bytes
  deriving DecidableEq, Repr

/-- `read` would not block. -/
def Conn.readable (c : Conn) : Bool := !c.unread.isEmpty || c.eof

inductive Event
  | listen
  | conn (fd : ℕ)
  deriving DecidableEq, Repr

structure State where
  /-- Clients that wait for `accept`. -/
  backlog : ℕ
  conns : ℕ → Option Conn
  /-- The events that are still to be handled; with none the server is in `epoll_wait`, or in `select`. -/
  events : List Event
  /-- History: the connections that were closed. -/
  closed : List Conn

def start : State := ⟨0, fun _ => none, [], []⟩

/-- The kernel can report the event. -/
def State.ready (srv : Server) (s : State) : Event → Bool
  | .listen => 0 < s.backlog
  | .conn fd =>
    match s.conns fd with
    | some c => c.readable && (!srv.edge || c.pending)
    | none => false

/-- What the clients do, and the system calls of the server with what the kernel decides in them: the events, the
descriptor, and how much of the bytes is written. -/
inductive Label
  | connect
  | arrive (fd : ℕ) (bytes : Bytes)
  | shutdown (fd : ℕ)
  | wait (events : List Event)
  | accept (fd : ℕ)
  | read (written : ℕ)
  deriving DecidableEq, Repr

def Label.isServer : Label → Bool
  | .wait _ => true
  | .accept _ => true
  | .read _ => true
  | _ => false

/-- The socket has been reported. -/
def report (events : List Event) (conns : ℕ → Option Conn) : ℕ → Option Conn := fun fd =>
  (conns fd).map fun c => if .conn fd ∈ events then { c with pending := false } else c

/-- `str_len = read(fd, buf, BUF_SIZE)` and what the server does then. -/
def readStep (srv : Server) (s : State) (fd : ℕ) (events : List Event) (c : Conn) (written : ℕ) : Option State :=
  if c.unread = [] then
    if c.eof then some { s with conns := Function.update s.conns fd none, events, closed := c :: s.closed }
    else if srv.drain then some { s with events }  -- `EAGAIN`
    else none
  else
    let buf := c.unread.take srv.bufSize
    if written ≤ buf.length then
      some { s with
        conns := Function.update s.conns fd
          (some { c with unread := c.unread.drop srv.bufSize, echoed := c.echoed ++ buf.take written })
        events := if srv.drain then .conn fd :: events else events }
    else none

def step (srv : Server) (s : State) : Label → Option State
  | .connect => some { s with backlog := s.backlog + 1 }
  | .arrive fd bytes =>
    match s.conns fd with
    | some c =>
      if c.eof then none
      else some { s with
        conns := Function.update s.conns fd
          (some { c with unread := c.unread ++ bytes, pending := true, received := c.received ++ bytes }) }
    | none => none
  | .shutdown fd =>
    match s.conns fd with
    | some c =>
      if c.eof then none
      else some { s with conns := Function.update s.conns fd (some { c with eof := true, pending := true }) }
    | none => none
  | .wait events =>
    if s.events = [] ∧ events ≠ [] ∧ events.Nodup ∧ events.length ≤ srv.maxEvents ∧ ∀ e ∈ events, s.ready srv e then
      some { s with events, conns := report events s.conns }
    else none
  | .accept fd =>
    match s.events with
    | .listen :: events =>
      if 0 < s.backlog ∧ s.conns fd = none then
        some { s with
          backlog := s.backlog - 1
          conns := Function.update s.conns fd (some ⟨[], false, false, [], []⟩)
          events }
      else none
    | _ => none
  | .read written =>
    match s.events with
    | .conn fd :: events =>
      match s.conns fd with
      | some c => readStep srv s fd events c written
      | none => none
    | _ => none

/-! ## What a step does -/

section Cases

variable {srv : Server} {s s' : State}

theorem arrive_cases {fd : ℕ} {bytes : Bytes} (h : step srv s (.arrive fd bytes) = some s') :
    ∃ c, s.conns fd = some c ∧ c.eof = false ∧
      s' = { s with
        conns := Function.update s.conns fd
          (some { c with unread := c.unread ++ bytes, pending := true, received := c.received ++ bytes }) } := by
  simp only [step] at h
  split at h
  · rename_i c hc
    split_ifs at h with heof
    exact ⟨c, hc, Bool.eq_false_iff.2 heof, (Option.some.inj h).symm⟩
  · cases h

theorem shutdown_cases {fd : ℕ} (h : step srv s (.shutdown fd) = some s') :
    ∃ c, s.conns fd = some c ∧
      s' = { s with conns := Function.update s.conns fd (some { c with eof := true, pending := true }) } := by
  simp only [step] at h
  split at h
  · rename_i c hc
    split_ifs at h with heof
    exact ⟨c, hc, (Option.some.inj h).symm⟩
  · cases h

theorem wait_cases {events : List Event} (h : step srv s (.wait events) = some s') :
    s.events = [] ∧ events.Nodup ∧ (∀ e ∈ events, s.ready srv e) ∧
      s' = { s with events, conns := report events s.conns } := by
  simp only [step, Option.ite_none_right_eq_some, Option.some_inj] at h
  obtain ⟨⟨hnil, -, hnodup, -, hready⟩, rfl⟩ := h
  exact ⟨hnil, hnodup, hready, rfl⟩

theorem accept_cases {fd : ℕ} (h : step srv s (.accept fd) = some s') :
    ∃ events, s.events = .listen :: events ∧ s.conns fd = none ∧
      s' = { s with
        backlog := s.backlog - 1
        conns := Function.update s.conns fd (some ⟨[], false, false, [], []⟩)
        events } := by
  simp only [step] at h
  split at h
  · rename_i events hevents
    rw [Option.ite_none_right_eq_some] at h
    obtain ⟨⟨-, hnone⟩, h⟩ := h
    exact ⟨events, hevents, hnone, (Option.some.inj h).symm⟩
  · cases h

/-- The connection is closed, or there is nothing to read, or something is read and echoed. -/
theorem read_cases {written : ℕ} (h : step srv s (.read written) = some s') :
    ∃ fd events c, s.events = .conn fd :: events ∧ s.conns fd = some c ∧
      ((c.unread = [] ∧ c.eof = true ∧
        s' = { s with conns := Function.update s.conns fd none, events, closed := c :: s.closed }) ∨
      (c.unread = [] ∧ c.eof = false ∧ srv.drain = true ∧ s' = { s with events }) ∨
      (c.unread ≠ [] ∧ written ≤ (c.unread.take srv.bufSize).length ∧
        s' = { s with
          conns := Function.update s.conns fd (some { c with
            unread := c.unread.drop srv.bufSize
            echoed := c.echoed ++ (c.unread.take srv.bufSize).take written })
          events := if srv.drain then .conn fd :: events else events })) := by
  simp only [step] at h
  split at h
  · rename_i fd events hevents
    split at h
    · rename_i c hc
      refine ⟨fd, events, c, hevents, hc, ?_⟩
      unfold readStep at h
      by_cases hunread : c.unread = []
      · rw [if_pos hunread] at h
        split_ifs at h with heof hdrain
        · exact .inl ⟨hunread, heof, (Option.some.inj h).symm⟩
        · exact .inr (.inl ⟨hunread, Bool.eq_false_iff.2 heof, hdrain, (Option.some.inj h).symm⟩)
      · rw [if_neg hunread] at h
        dsimp only at h
        rw [Option.ite_none_right_eq_some] at h
        exact .inr (.inr ⟨hunread, h.1, (Option.some.inj h.2).symm⟩)
    · cases h
  · cases h

end Cases

/-! ## What holds in every run -/

section Invariant

variable {srv : Server} {s s' : State}

/-- Every write takes all of its bytes. -/
def complete (srv : Server) (s : State) : Label → Bool
  | .read written =>
    match s.events with
    | .conn fd :: _ => (s.conns fd).all fun c => written == (c.unread.take srv.bufSize).length
    | _ => true
  | _ => true

structure Inv (srv : Server) (s : State) : Prop where
  /-- What has come in is echoed, or is still to be read. -/
  echoed : ∀ fd c, s.conns fd = some c → c.echoed ++ c.unread = c.received
  closed : ∀ c ∈ s.closed, c.echoed = c.received
  nodup : s.events.Nodup
  /-- The sockets of the events are open, and a server that reads once has something to read. -/
  reported : ∀ fd, .conn fd ∈ s.events → ∃ c, s.conns fd = some c ∧ (srv.drain = false → c.readable = true)
  listen : .listen ∈ s.events → 0 < s.backlog
  /-- What is to be read will be reported, or has been. -/
  noticed : srv.edge = true → ∀ fd c, s.conns fd = some c → c.readable = true → c.pending = true ∨ .conn fd ∈ s.events
  finite : ∃ n, ∀ fd, n ≤ fd → s.conns fd = none

theorem inv_start : Inv srv start where
  echoed := nofun
  closed := nofun
  nodup := List.nodup_nil
  reported := nofun
  listen := nofun
  noticed := fun _ _ => nofun
  finite := ⟨0, fun _ _ => rfl⟩

theorem finite_update {conns : ℕ → Option Conn} (h : ∃ n, ∀ fd, n ≤ fd → conns fd = none) (fd : ℕ) (c : Option Conn) :
    ∃ n, ∀ fd', n ≤ fd' → Function.update conns fd c fd' = none := by
  obtain ⟨n, hn⟩ := h
  refine ⟨max n (fd + 1), fun fd' hle => ?_⟩
  rw [Function.update_of_ne (by omega)]
  exact hn fd' (by omega)

theorem update_some {conns : ℕ → Option Conn} {fd fd' : ℕ} {conn : Option Conn} {d : Conn}
    (h : Function.update conns fd conn fd' = some d) : fd' = fd ∧ conn = some d ∨ fd' ≠ fd ∧ conns fd' = some d := by
  by_cases hfd : fd' = fd
  · subst hfd
    rw [Function.update_self] at h
    exact .inl ⟨rfl, h⟩
  · rw [Function.update_of_ne hfd] at h
    exact .inr ⟨hfd, h⟩

/-- A client has sent something, or has come to its end. -/
theorem inv_arrived {fd : ℕ} {c c' : Conn} (hs : Inv srv s) (hc : s.conns fd = some c)
    (hecho : c'.echoed ++ c'.unread = c'.received) (hread : c.readable = true → c'.readable = true)
    (hpending : c'.pending = true) : Inv srv { s with conns := Function.update s.conns fd (some c') } where
  echoed := fun fd' d hd => by
    obtain ⟨rfl, hd'⟩ | ⟨hfd, hd'⟩ := update_some hd
    · obtain rfl := Option.some.inj hd'
      exact hecho
    · exact hs.echoed fd' d hd'
  closed := hs.closed
  nodup := hs.nodup
  reported := fun fd' hfd' => by
    obtain ⟨d, hd, hdread⟩ := hs.reported fd' hfd'
    dsimp only
    by_cases hfd : fd' = fd
    · subst hfd
      rw [Function.update_self]
      obtain rfl := Option.some.inj (hc.symm.trans hd)
      exact ⟨c', rfl, fun hdrain => hread (hdread hdrain)⟩
    · rw [Function.update_of_ne hfd]
      exact ⟨d, hd, hdread⟩
  listen := hs.listen
  noticed := fun hedge fd' d hd hdread => by
    obtain ⟨rfl, hd'⟩ | ⟨hfd, hd'⟩ := update_some hd
    · obtain rfl := Option.some.inj hd'
      exact .inl hpending
    · exact hs.noticed hedge fd' d hd' hdread
  finite := finite_update hs.finite fd _

theorem report_some {events : List Event} {conns : ℕ → Option Conn} {fd : ℕ} {d : Conn}
    (h : report events conns fd = some d) :
    ∃ c, conns fd = some c ∧ d = { c with pending := if .conn fd ∈ events then false else c.pending } := by
  obtain ⟨c, hc, rfl⟩ := Option.map_eq_some_iff.1 h
  refine ⟨c, hc, ?_⟩
  split_ifs <;> rfl

/-- Nothing was left to be handled, and the kernel reports. -/
theorem inv_wait {events : List Event} (hs : Inv srv s) (hnil : s.events = []) (hnodup : events.Nodup)
    (hready : ∀ e ∈ events, s.ready srv e) : Inv srv { s with events, conns := report events s.conns } where
  echoed := fun fd d hd => by
    obtain ⟨c, hc, rfl⟩ := report_some hd
    exact hs.echoed fd c hc
  closed := hs.closed
  nodup := hnodup
  reported := fun fd hfd => by
    have hfd' := hready _ hfd
    unfold State.ready at hfd'
    dsimp only at hfd'
    split at hfd'
    · rename_i c hc
      rw [Bool.and_eq_true] at hfd'
      dsimp only
      unfold report
      rw [hc, Option.map_some, if_pos hfd]
      exact ⟨_, rfl, fun _ => hfd'.1⟩
    · cases hfd'
  listen := fun hlisten => of_decide_eq_true (hready _ hlisten)
  noticed := fun hedge fd d hd hread => by
    obtain ⟨c, hc, rfl⟩ := report_some hd
    by_cases hfd : .conn fd ∈ events
    · exact .inr hfd
    · obtain hpending | hold := hs.noticed hedge fd c hc hread
      · refine .inl ?_
        dsimp only
        rw [if_neg hfd]
        exact hpending
      · rw [hnil] at hold
        cases hold
  finite := by
    obtain ⟨n, hn⟩ := hs.finite
    refine ⟨n, fun fd hfd => ?_⟩
    dsimp only
    unfold report
    rw [hn fd hfd]
    rfl

/-- A client is accepted, with a descriptor that no socket has. -/
theorem inv_accept {fd : ℕ} {events : List Event} (hs : Inv srv s) (hevents : s.events = .listen :: events)
    (hnone : s.conns fd = none) :
    Inv srv { s with
      backlog := s.backlog - 1
      conns := Function.update s.conns fd (some ⟨[], false, false, [], []⟩)
      events } := by
  have hnodup := hs.nodup
  rw [hevents, List.nodup_cons] at hnodup
  refine ⟨fun fd' d hd => ?_, hs.closed, hnodup.2, fun fd' hfd' => ?_, fun hlisten => absurd hlisten hnodup.1,
    fun hedge fd' d hd hread => ?_, finite_update hs.finite fd _⟩
  · obtain ⟨rfl, hd'⟩ | ⟨hfd, hd'⟩ := update_some hd
    · obtain rfl := Option.some.inj hd'
      rfl
    · exact hs.echoed fd' d hd'
  · obtain ⟨d, hd, hread⟩ := hs.reported fd' (hevents ▸ List.mem_cons_of_mem _ hfd')
    have hfd : fd' ≠ fd := by
      rintro rfl
      rw [hnone] at hd
      cases hd
    dsimp only
    rw [Function.update_of_ne hfd]
    exact ⟨d, hd, hread⟩
  · obtain ⟨rfl, hd'⟩ | ⟨hfd, hd'⟩ := update_some hd
    · obtain rfl := Option.some.inj hd'
      cases hread
    · refine (hs.noticed hedge fd' d hd' hread).imp_right fun hmem => ?_
      rw [hevents, List.mem_cons] at hmem
      exact hmem.resolve_left nofun

/-- The event of a connection is done with: another connection has its event still to come, or was never reported. -/
theorem inv_next {fd : ℕ} {events : List Event} {conn : Option Conn} {closed : List Conn} (hs : Inv srv s)
    (hevents : s.events = .conn fd :: events) (hclosed : ∀ c ∈ closed, c.echoed = c.received)
    (hconn : ∀ c ∈ conn, c.echoed ++ c.unread = c.received ∧ (srv.edge = true → c.readable = false)) :
    Inv srv { s with conns := Function.update s.conns fd conn, events, closed } := by
  have hnodup := hs.nodup
  rw [hevents, List.nodup_cons] at hnodup
  refine ⟨fun fd' d hd => ?_, hclosed, hnodup.2, fun fd' hfd' => ?_, fun hlisten => ?_,
    fun hedge fd' d hd hread => ?_, finite_update hs.finite fd _⟩
  · obtain ⟨rfl, hd'⟩ | ⟨hfd, hd'⟩ := update_some hd
    · exact (hconn d hd').1
    · exact hs.echoed fd' d hd'
  · have hfd : fd' ≠ fd := by
      rintro rfl
      exact hnodup.1 hfd'
    dsimp only
    rw [Function.update_of_ne hfd]
    exact hs.reported fd' (hevents ▸ List.mem_cons_of_mem _ hfd')
  · exact hs.listen (hevents ▸ List.mem_cons_of_mem _ hlisten)
  · obtain ⟨rfl, hd'⟩ | ⟨hfd, hd'⟩ := update_some hd
    · have hnot := (hconn d hd').2 hedge
      rw [hread] at hnot
      cases hnot
    · refine (hs.noticed hedge fd' d hd' hread).imp_right fun hmem => ?_
      rw [hevents, List.mem_cons] at hmem
      exact hmem.resolve_left fun heq => hfd (Event.conn.inj heq)

/-- A server that drains stays with the connection after reading from it. -/
theorem inv_again {fd : ℕ} {events : List Event} {c c' : Conn} (hs : Inv srv s) (hdrain : srv.drain = true)
    (hevents : s.events = .conn fd :: events) (hc : s.conns fd = some c)
    (hecho : c'.echoed ++ c'.unread = c'.received) :
    Inv srv { s with conns := Function.update s.conns fd (some c'), events := .conn fd :: events } := by
  refine ⟨fun fd' d hd => ?_, hs.closed, hevents ▸ hs.nodup, fun fd' hfd' => ?_,
    fun hlisten => hs.listen (hevents ▸ hlisten),
    fun hedge fd' d hd hread => ?_, finite_update hs.finite fd _⟩
  · obtain ⟨rfl, hd'⟩ | ⟨hfd, hd'⟩ := update_some hd
    · obtain rfl := Option.some.inj hd'
      exact hecho
    · exact hs.echoed fd' d hd'
  · dsimp only
    by_cases hfd : fd' = fd
    · subst hfd
      rw [Function.update_self]
      exact ⟨c', rfl, fun hno => absurd (hdrain.symm.trans hno) nofun⟩
    · rw [Function.update_of_ne hfd]
      exact hs.reported fd' (hevents ▸ hfd')
  · obtain ⟨rfl, -⟩ | ⟨hfd, hd'⟩ := update_some hd
    · exact .inr List.mem_cons_self
    · rw [← hevents]
      exact hs.noticed hedge fd' d hd' hread

theorem inv_step (hedge : srv.edge = true → srv.drain = true) {l : Label} (hs : Inv srv s)
    (hl : complete srv s l = true)
    (h : step srv s l = some s') : Inv srv s' := by
  cases l with
  | connect =>
    obtain rfl := Option.some.inj h
    exact ⟨hs.echoed, hs.closed, hs.nodup, hs.reported, fun _ => Nat.succ_pos _, hs.noticed, hs.finite⟩
  | arrive fd bytes =>
    obtain ⟨c, hc, -, rfl⟩ := arrive_cases h
    refine inv_arrived hs hc ?_ (fun hread => ?_) rfl
    · dsimp only
      rw [← hs.echoed fd c hc, List.append_assoc]
    · simp only [Conn.readable, Bool.or_eq_true, Bool.not_eq_true', List.isEmpty_eq_false_iff] at hread ⊢
      exact hread.imp_left fun hne heq => hne (List.append_eq_nil_iff.1 heq).1
  | shutdown fd =>
    obtain ⟨c, hc, rfl⟩ := shutdown_cases h
    exact inv_arrived hs hc (hs.echoed fd c hc) (fun _ => Bool.or_true _) rfl
  | wait events =>
    obtain ⟨hnil, hnodup, hready, rfl⟩ := wait_cases h
    exact inv_wait hs hnil hnodup hready
  | accept fd =>
    obtain ⟨events, hevents, hnone, rfl⟩ := accept_cases h
    exact inv_accept hs hevents hnone
  | read written =>
    obtain ⟨fd, events, c, hevents, hc, ⟨hunread, -, rfl⟩ | ⟨hunread, heof, -, rfl⟩ | ⟨-, -, rfl⟩⟩ := read_cases h
    · have hecho := hs.echoed fd c hc
      rw [hunread, List.append_nil] at hecho
      exact inv_next hs hevents (List.forall_mem_cons.2 ⟨hecho, hs.closed⟩) nofun
    · have hsame : Function.update s.conns fd (some c) = s.conns := by
        rw [← hc]
        exact Function.update_eq_self fd s.conns
      have hnext : Inv srv { s with conns := Function.update s.conns fd (some c), events, closed := s.closed } :=
        inv_next hs hevents hs.closed fun d hd => by
          obtain rfl := Option.some.inj hd
          exact ⟨hs.echoed fd c hc, fun _ => by rw [Conn.readable, hunread, heof]; rfl⟩
      rwa [hsame] at hnext
    · simp only [complete, hevents, hc, Option.all_some, beq_iff_eq] at hl
      subst hl
      have hecho : c.echoed ++ (c.unread.take srv.bufSize).take (c.unread.take srv.bufSize).length ++
          c.unread.drop srv.bufSize = c.received := by
        rw [List.take_length, List.append_assoc, List.take_append_drop]
        exact hs.echoed fd c hc
      split_ifs with hdrain
      · exact inv_again hs hdrain hevents hc hecho
      · refine inv_next hs hevents hs.closed fun d hd => ?_
        obtain rfl := Option.some.inj hd
        exact ⟨hecho, fun hno => absurd (hedge hno) hdrain⟩

/-- If the server can do nothing, it is waiting, and there is nothing to wait for. -/
theorem idle_of_blocked (hmax : 0 < srv.maxEvents) (hs : Inv srv s)
    (h : ∀ l : Label, l.isServer = true → step srv s l = none) :
    s.backlog = 0 ∧ ∀ fd c, s.conns fd = some c → c.readable = false := by
  have hevents : s.events = [] := by
    rcases hcases : s.events with _ | ⟨_ | fd, events⟩
    · rfl
    · -- there is a descriptor for the next client
      obtain ⟨n, hn⟩ := hs.finite
      have hpos := hs.listen (hcases ▸ List.mem_cons_self)
      have haccept := h (.accept n) rfl
      simp only [step, hcases] at haccept
      rw [if_pos ⟨hpos, hn n (Nat.le_refl n)⟩] at haccept
      cases haccept
    · obtain ⟨c, hc, hread⟩ := hs.reported fd (hcases ▸ List.mem_cons_self)
      have hblocked := h (.read 0) rfl
      simp only [step, hcases, hc, readStep] at hblocked
      rw [if_pos (Nat.zero_le _)] at hblocked
      split_ifs at hblocked with hunread heof hdrain
      rw [Bool.not_eq_true] at heof hdrain
      have hreadable := hread hdrain
      rw [Conn.readable, hunread, heof] at hreadable
      cases hreadable
  have hwait : ∀ e, s.ready srv e = false := by
    intro e
    by_contra hready
    rw [Bool.not_eq_false] at hready
    have hblocked := h (.wait [e]) rfl
    have hall : ∀ e' ∈ [e], s.ready srv e' = true := fun e' he' => List.mem_singleton.1 he' ▸ hready
    simp only [step] at hblocked
    rw [if_pos ⟨hevents, List.cons_ne_nil _ _, List.pairwise_singleton _ _, hmax, hall⟩] at hblocked
    cases hblocked
  constructor
  · have hlisten := hwait .listen
    exact Nat.eq_zero_of_not_pos (of_decide_eq_false hlisten)
  · intro fd c hc
    have hready := hwait (.conn fd)
    simp only [State.ready, hc] at hready
    by_contra hread
    rw [Bool.not_eq_false] at hread
    rw [hread, Bool.true_and] at hready
    by_cases hedge : srv.edge = true
    · obtain hpending | hmem := hs.noticed hedge fd c hc hread
      · rw [hpending, Bool.or_true] at hready
        cases hready
      · rw [hevents] at hmem
        cases hmem
    · rw [Bool.eq_false_iff.2 hedge] at hready
      cases hready

end Invariant

end GoodGoodStudy.EchoServer
