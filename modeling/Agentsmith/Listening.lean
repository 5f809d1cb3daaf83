import Mathlib.Data.List.Range
import Agentsmith.Lib.Runs

/-!
The table of listening sockets: `_network_start_listening`.

Sockets are numbered in the order in which they are opened, whatever descriptors the system gives
them. A write behind the end of the table has no result.
-/

namespace Agentsmith.Listening

open Agentsmith.Lib.Runs

abbrev fdSetsize : ℕ := 1024

/-- Whether `socket`, `bind` and `listen` work for an address of a chain. The outcome of
`setsockopt` is only reported. -/
structure Addrinfo where
  socket : Bool
  bind : Bool
  listen : Bool
  deriving DecidableEq

/-- `opened`, `closed` and `listening` are what has become of the sockets. -/
structure St where
  listenFds : List ℕ
  fdSetListen : List ℕ
  usedFds : ℕ
  opened : ℕ
  closed : List ℕ
  listening : List ℕ

/-- Both tables cleared. -/
def start : St where
  listenFds := List.replicate fdSetsize 0
  fdSetListen := []
  usedFds := 0
  opened := 0
  closed := []
  listening := []

def closeSocket (s : St) (sockfd : ℕ) : St := { s with closed := s.closed ++ [sockfd] }

/-- `listen_fds[used_fds] = sockfd`, with what follows it. -/
def enter (s : St) (sockfd : ℕ) : Option St :=
  if s.usedFds < fdSetsize then
    some { s with
      listenFds := s.listenFds.set s.usedFds sockfd
      fdSetListen := s.fdSetListen ++ [sockfd]
      usedFds := s.usedFds + 1 }
  else none

/-- The body of the inner loop. -/
def startAddr (s : St) (ai : Addrinfo) : Option St :=
  if ai.socket = false then some s
  else
    let sockfd := s.opened
    let s := { s with opened := s.opened + 1 }
    if ai.bind = false then some (closeSocket s sockfd)
    else if ai.listen = false then some (closeSocket s sockfd)
    else enter { s with listening := s.listening ++ [sockfd] } sockfd

/-- The inner loop, over the chain of one entry of `CONFIG.listen`. -/
def startChain : St → List Addrinfo → Option St
  | s, [] => some s
  | s, ai :: next => (startAddr s ai).bind fun s => startChain s next

/-- `_network_start_listening`: the outer loop. -/
def networkStartListening : St → List (List Addrinfo) → Option St
  | s, [] => some s
  | s, addr :: next =>
    if s.usedFds < fdSetsize then (startChain s addr).bind fun s => networkStartListening s next
    else some s

/-- At the end the table holds the sockets that listen, in order, and every other one has been
closed, once. -/
structure Tabled (s : St) : Prop where
  bound : s.usedFds ≤ fdSetsize
  table : s.listenFds.take s.usedFds = s.listening
  rest : (s.listening ++ s.closed).Perm (List.range s.opened)

def Addrinfo.serves (ai : Addrinfo) : Bool := ai.socket && ai.bind && ai.listen

/-- The number of sockets that listen for some addresses. -/
def served (ais : List Addrinfo) : ℕ := ais.countP Addrinfo.serves

lemma served_append (as bs : List Addrinfo) : served (as ++ bs) = served as + served bs :=
  List.countP_append

/-! ### The table as it fills up -/

structure Sound (s : St) : Prop extends Tabled s where
  length : s.listenFds.length = fdSetsize
  sets : s.fdSetListen = s.listening

lemma sound_start : Sound start where
  bound := Nat.zero_le _
  table := rfl
  rest := List.Perm.refl _
  length := List.length_replicate
  sets := rfl

variable {s : St}

/-- A socket is opened and closed again. -/
lemma Sound.closed (h : Sound s) : Sound (closeSocket { s with opened := s.opened + 1 } s.opened)
    where
  bound := h.bound
  table := h.table
  rest := by
    dsimp only [closeSocket]
    rw [← List.append_assoc, List.range_succ]
    exact h.rest.append_right _
  length := h.length
  sets := h.sets

/-- A socket is opened and entered. -/
lemma Sound.entered (h : Sound s) (hlt : s.usedFds < fdSetsize) :
    ∃ s', enter { s with opened := s.opened + 1, listening := s.listening ++ [s.opened] }
      s.opened = some s' ∧ Sound s' ∧ s'.usedFds = s.usedFds + 1 := by
  refine ⟨_, if_pos hlt, ⟨⟨hlt, ?_, ?_⟩, ?_, ?_⟩, rfl⟩
  · have hlen : s.usedFds < s.listenFds.length := by
      rw [h.length]
      exact hlt
    dsimp only
    rw [List.take_succ_eq_append_getElem (by rwa [List.length_set]), List.getElem_set_self,
      List.take_set_of_le (Nat.le_refl _), h.table]
  · dsimp only
    rw [List.range_succ, List.append_assoc]
    refine (List.perm_append_comm_assoc _ _ _).trans (List.perm_append_comm.trans ?_)
    exact h.rest.append_right _
  · rw [List.length_set]
    exact h.length
  · dsimp only
    rw [h.sets]

/-- The table takes `n` more sockets, or has no room for them. -/
def Adds (s : St) (n : ℕ) (r : Option St) : Prop :=
  (s.usedFds + n ≤ fdSetsize ∧ ∃ s', r = some s' ∧ Sound s' ∧ s'.usedFds = s.usedFds + n) ∨
    (fdSetsize < s.usedFds + n ∧ r = none)

lemma startAddr_adds (h : Sound s) (ai : Addrinfo) :
    Adds s (served [ai]) (startAddr s ai) := by
  obtain ⟨socket, bind, listen⟩ := ai
  have hclosed : Adds s 0 (some (closeSocket { s with opened := s.opened + 1 } s.opened)) :=
    Or.inl ⟨h.bound, _, rfl, h.closed, rfl⟩
  cases socket
  · exact Or.inl ⟨h.bound, s, rfl, h, rfl⟩
  · cases bind
    · exact hclosed
    · cases listen
      · exact hclosed
      · by_cases hlt : s.usedFds < fdSetsize
        · exact Or.inl ⟨hlt, h.entered hlt⟩
        · exact Or.inr ⟨Nat.lt_succ_of_le (Nat.le_of_not_lt hlt), if_neg hlt⟩

lemma startChain_adds (h : Sound s) (ais : List Addrinfo) :
    Adds s (served ais) (startChain s ais) := by
  induction ais generalizing s with
  | nil => exact Or.inl ⟨h.bound, s, rfl, h, rfl⟩
  | cons ai next ih =>
    have hserved : served (ai :: next) = served [ai] + served next := served_append [ai] next
    unfold startChain
    obtain ⟨-, s₁, hs₁, h₁, hused⟩ | ⟨hfull, hnone⟩ := startAddr_adds h ai
    · rw [hs₁, Option.bind_some, hserved]
      obtain ⟨hle, s₂, hs₂, h₂, hused₂⟩ | ⟨hfull, hnone⟩ := ih h₁
      · exact Or.inl ⟨by omega, s₂, hs₂, h₂, by omega⟩
      · exact Or.inr ⟨by omega, hnone⟩
    · rw [hnone]
      exact Or.inr ⟨by omega, rfl⟩

/-- From any filling of the table. -/
lemma networkStartListening_iff (h : Sound s) (listen : List (List Addrinfo)) :
    (∃ s', networkStartListening s listen = some s' ∧ Tabled s') ↔
      ∀ pre addr post, listen = pre ++ addr :: post →
        s.usedFds + served pre.flatten < fdSetsize →
          s.usedFds + served pre.flatten + served addr ≤ fdSetsize := by
  induction listen generalizing s with
  | nil => exact ⟨fun _ pre addr post hnil => by simp at hnil, fun _ => ⟨s, rfl, h.toTabled⟩⟩
  | cons addr next ih =>
    rw [forall_split_cons, networkStartListening]
    by_cases hlt : s.usedFds < fdSetsize
    · rw [if_pos hlt]
      obtain ⟨hle, s', hs', h', hused⟩ | ⟨hfull, hnone⟩ := startChain_adds h addr
      · -- the entry fits, and the rest starts behind it
        have hsum : ∀ pre : List (List Addrinfo), s.usedFds + served (addr :: pre).flatten =
            s'.usedFds + served pre.flatten := by
          intro pre
          rw [List.flatten_cons, served_append, hused, Nat.add_assoc]
        rw [hs', Option.bind_some, ih h']
        simp only [hsum]
        exact ⟨fun hrest => ⟨fun _ => hle, hrest⟩, fun hall => hall.2⟩
      · rw [hnone]
        refine ⟨?_, fun hall => absurd (hall.1 hlt) (Nat.not_le.mpr hfull)⟩
        rintro ⟨s', hs', -⟩
        cases hs'
    · rw [if_neg hlt]
      have hfull : ∀ n, ¬ s.usedFds + n < fdSetsize := fun n => by omega
      exact ⟨fun _ => ⟨fun hn => absurd hn (hfull _), fun pre c post _ hn => absurd hn (hfull _)⟩,
        fun _ => ⟨s, rfl, h.toTabled⟩⟩

def works : Addrinfo := ⟨true, true, true⟩

end Agentsmith.Listening
