/-
The chat server with a thread for each client. The sockets of the clients are in a table under a mutex, which a message
is sent along; a thread is given the address of the variable in which `main` has the socket, and takes its socket out
of the table when the client leaves. The loop that closes the gap begins one place too far, and the variable may have
been overwritten by then: the table has the sockets of the connected clients, and each of them one thread, in all
states of exactly those runs in which every thread has read the variable before the next client is accepted, and every
client that leaves has the last socket of the table.
-/
import Mathlib.Data.List.Perm.Basic
import Mathlib.Data.List.Nodup
import Mathlib.Data.List.Range
import Mathlib.Logic.Function.Basic
import Mathlib.Tactic.SplitIfs
import GoodGoodStudy.Lib.Run

namespace GoodGoodStudy.ChatServer

open GoodGoodStudy.Lib

/-! ## The server -/

structure State where
  /-- `cli_socks`, and what lies behind it -/
  cliSocks : ℕ → ℕ
  cliCnt : ℕ
  /-- The variable `cli_sock` of `main`. -/
  cliSock : ℕ
  /-- The threads that have not read the variable yet. -/
  created : ℕ
  /-- The sockets that the other threads read from. -/
  threads : List ℕ
  /-- The sockets of the clients that are connected. -/
  connected : List ℕ

def start : State := ⟨fun _ => 0, 0, 0, 0, [], []⟩

/-- The sockets to which `send_msg` writes. -/
def State.table (s : State) : List ℕ := (List.range s.cliCnt).map s.cliSocks

/-- `while (i++ < cli_cnt - 1) cli_socks[i] = cli_socks[i + 1];` in `n` rounds. -/
def closeGap : (n i : ℕ) → (ℕ → ℕ) → ℕ → ℕ
  | 0, _, cliSocks => cliSocks
  | n + 1, i, cliSocks => closeGap n (i + 1) (Function.update cliSocks (i + 1) (cliSocks (i + 2)))

/-- `for (i = 0; i < cli_cnt; i++) if (cli_sock == cli_socks[i]) { …; break; }` -/
def remove (cliSock : ℕ) (s : State) : ℕ → ℕ :=
  match s.table.idxOf? cliSock with
  | some i => closeGap (s.cliCnt - 1 - i) i s.cliSocks
  | none => s.cliSocks

inductive Label
  /-- `main` accepts a client, whose socket is a new one, and creates a thread. -/
  | accept (cliSock : ℕ)
  /-- A thread reads the variable. -/
  | begin
  /-- The client of a thread has left, and the thread takes its socket out of the table and closes it. -/
  | leave (cliSock : ℕ)
  deriving DecidableEq, Repr

def step (s : State) : Label → Option State
  | .accept cliSock =>
    if cliSock ∈ s.connected then none
    else
      some { s with
        cliSocks := Function.update s.cliSocks s.cliCnt cliSock
        cliCnt := s.cliCnt + 1
        cliSock
        created := s.created + 1
        connected := s.connected ++ [cliSock] }
  | .begin =>
    if s.created = 0 then none
    else some { s with created := s.created - 1, threads := s.threads ++ [s.cliSock] }
  | .leave cliSock =>
    if cliSock ∈ s.threads then
      some { s with
        cliSocks := remove cliSock s
        cliCnt := s.cliCnt - 1
        threads := s.threads.erase cliSock
        connected := s.connected.erase cliSock }
    else none

/-! ## The loop that closes the gap -/

theorem closeGap_apply (n i : ℕ) (cliSocks : ℕ → ℕ) (j : ℕ) :
    closeGap n i cliSocks j = if i < j ∧ j ≤ i + n then cliSocks (j + 1) else cliSocks j := by
  induction n generalizing i cliSocks with
  | zero => rw [closeGap, if_neg (by omega)]
  | succ n ih =>
    rw [closeGap, ih]
    by_cases hj : j = i + 1
    · subst hj
      rw [if_neg (by omega), if_pos (by omega), Function.update_self]
    · rw [Function.update_of_ne hj]
      by_cases hj' : j + 1 = i + 1
      · rw [if_neg (by omega), if_neg (by omega)]
      · rw [Function.update_of_ne hj']
        split_ifs <;> first | rfl | omega

theorem table_succ {cliSocks : ℕ → ℕ} {n : ℕ} :
    (List.range (n + 1)).map cliSocks = (List.range n).map cliSocks ++ [cliSocks n] := by
  rw [List.range_succ, List.map_append, List.map_singleton]

/-- The socket of a new client is behind the others. -/
theorem table_accept (s : State) (cliSock : ℕ) :
    (List.range (s.cliCnt + 1)).map (Function.update s.cliSocks s.cliCnt cliSock) = s.table ++ [cliSock] := by
  rw [table_succ, Function.update_self]
  congr 1
  refine List.map_congr_left fun j hj => Function.update_of_ne ?_ _ _
  exact (List.mem_range.1 hj).ne

/-- The loop finds the first place of the socket. -/
theorem exists_idx {s : State} {cliSock : ℕ} (h : cliSock ∈ s.table) :
    ∃ i, s.table.idxOf? cliSock = some i ∧ i < s.cliCnt ∧ s.cliSocks i = cliSock := by
  obtain ⟨i, hi⟩ := Option.isSome_iff_exists.1 (List.isSome_idxOf?.2 h)
  obtain ⟨hlt, hget, -⟩ := List.idxOf?_eq_some_iff.1 hi
  have hlen : s.table.length = s.cliCnt := by rw [State.table, List.length_map, List.length_range]
  simp only [State.table, List.getElem_map, List.getElem_range] at hget
  exact ⟨i, hi, hlen ▸ hlt, hget⟩

/-- A socket that has the last place is taken out. -/
theorem table_leave_last {s : State} {cliSock : ℕ} (hnodup : s.table.Nodup) (h : s.table.getLast? = some cliSock) :
    s.table = (List.range (s.cliCnt - 1)).map (remove cliSock s) ++ [cliSock] := by
  obtain ⟨i, hi, hlt, hget⟩ := exists_idx (List.mem_of_getLast? h)
  obtain ⟨n, hn⟩ : ∃ n, s.cliCnt = n + 1 := ⟨s.cliCnt - 1, by omega⟩
  have htable : s.table = (List.range n).map s.cliSocks ++ [s.cliSocks n] := by
    rw [State.table, hn, table_succ]
  rw [htable, List.getLast?_concat, Option.some_inj] at h
  have hlast : i = n := by
    by_contra hne
    have hmem : s.cliSocks i ∈ (List.range n).map s.cliSocks :=
      List.mem_map_of_mem (List.mem_range.2 (by omega))
    rw [htable] at hnodup
    exact (List.nodup_append.1 hnodup).2.2 _ hmem _ (List.mem_singleton_self _) (hget.trans h.symm)
  have hremove : remove cliSock s = s.cliSocks := by
    have hzero : s.cliCnt - 1 - i = 0 := by omega
    unfold remove
    rw [hi]
    dsimp only
    rw [hzero, closeGap]
  rw [hremove, hn, Nat.add_sub_cancel, htable, h]

/-- A socket that has another place stays in the table. -/
theorem mem_table_leave {s : State} {cliSock : ℕ} (hmem : cliSock ∈ s.table) (h : s.table.getLast? ≠ some cliSock) :
    cliSock ∈ (List.range (s.cliCnt - 1)).map (remove cliSock s) := by
  obtain ⟨i, hi, hlt, hget⟩ := exists_idx hmem
  obtain ⟨n, hn⟩ : ∃ n, s.cliCnt = n + 1 := ⟨s.cliCnt - 1, by omega⟩
  have hne : i ≠ n := by
    rintro rfl
    rw [State.table, hn, table_succ, List.getLast?_concat, hget] at h
    exact h rfl
  refine List.mem_map.2 ⟨i, List.mem_range.2 (by omega), ?_⟩
  unfold remove
  rw [hi]
  dsimp only
  rw [closeGap_apply, if_neg (by omega), hget]

/-! ## Runs -/

/-- The table has the sockets of the connected clients, and each of them is read by one thread, or will be. -/
structure Serves (s : State) : Prop where
  table : s.table.Perm s.connected
  threads : (s.threads ++ List.replicate s.created s.cliSock).Perm s.connected

/-- The threads have read the variable when a client is accepted, and a client that leaves has the last socket of the
table. -/
def InTime (s : State) : Label → Prop
  | .accept cliSock => cliSock ∉ s.connected → s.created = 0
  | .begin => True
  | .leave cliSock => cliSock ∈ s.threads → s.table.getLast? = some cliSock

structure Inv (s : State) : Prop where
  serves : Serves s
  nodup : s.connected.Nodup

theorem inv_step {s s' : State} {l : Label} (hs : Inv s) (hl : InTime s l) (h : step s l = some s') : Inv s' := by
  obtain ⟨⟨htable, hthreads⟩, hnodup⟩ := hs
  cases l with
  | accept cliSock =>
    simp only [step, Option.ite_none_left_eq_some, Option.some_inj] at h
    obtain ⟨hnew, rfl⟩ := h
    have hzero := hl hnew
    rw [hzero, List.replicate_zero, List.append_nil] at hthreads
    refine ⟨⟨?_, ?_⟩, ?_⟩
    · rw [State.table, table_accept]
      exact htable.append_right _
    · rw [hzero]
      exact hthreads.append_right _
    · exact List.nodup_append.2 ⟨hnodup, List.nodup_singleton _, fun a ha b hb hab =>
        hnew (List.mem_singleton.1 hb ▸ hab ▸ ha)⟩
  | begin =>
    simp only [step, Option.ite_none_left_eq_some, Option.some_inj] at h
    obtain ⟨hne, rfl⟩ := h
    refine ⟨⟨htable, ?_⟩, hnodup⟩
    obtain ⟨n, hn⟩ := Nat.exists_eq_succ_of_ne_zero hne
    rw [hn, List.replicate_succ] at hthreads
    dsimp only
    rw [hn, Nat.succ_sub_one, List.append_assoc]
    exact hthreads
  | leave cliSock =>
    simp only [step, Option.ite_none_right_eq_some, Option.some_inj] at h
    obtain ⟨hmem, rfl⟩ := h
    have hlast := table_leave_last (htable.nodup_iff.2 hnodup) (hl hmem)
    have hnot : cliSock ∉ (List.range (s.cliCnt - 1)).map (remove cliSock s) := by
      have htnodup := htable.nodup_iff.2 hnodup
      rw [hlast] at htnodup
      exact fun hin => (List.nodup_append.1 htnodup).2.2 _ hin _ (List.mem_singleton_self _) rfl
    refine ⟨⟨?_, ?_⟩, hnodup.erase cliSock⟩
    · have herase := htable.erase cliSock
      rwa [hlast, List.erase_append_right _ hnot, List.erase_cons_head, List.append_nil] at herase
    · have herase := hthreads.erase cliSock
      rwa [List.erase_append_left _ hmem] at herase

/-- A step that is not in time can be made, and leaves a client without its thread, or a socket in the table that was
closed. -/
theorem not_serves {s : State} {l : Label} (hs : Inv s) (hl : ¬ InTime s l) :
    ∃ s', step s l = some s' ∧ ¬ Serves s' := by
  obtain ⟨⟨htable, hthreads⟩, hnodup⟩ := hs
  cases l with
  | accept cliSock =>
    obtain ⟨hnew, hne⟩ := Classical.not_imp.1 hl
    refine ⟨_, if_neg hnew, fun hserves => ?_⟩
    have hcount := hserves.threads.count_eq cliSock
    simp only [List.count_append, List.count_replicate_self, List.count_singleton_self] at hcount
    rw [List.count_eq_zero_of_not_mem hnew] at hcount
    omega
  | begin => exact absurd trivial hl
  | leave cliSock =>
    obtain ⟨hmem, hlast⟩ := Classical.not_imp.1 hl
    refine ⟨_, if_pos hmem, fun hserves => ?_⟩
    have hconnected : cliSock ∈ s.connected := hthreads.mem_iff.1 (List.mem_append_left _ hmem)
    have hleft := mem_table_leave (htable.mem_iff.2 hconnected) hlast
    exact hnodup.not_mem_erase (hserves.table.mem_iff.1 hleft)

end GoodGoodStudy.ChatServer
