import Agentsmith.Config
import Agentsmith.ExcludeLines

/-!
The values of `listen` and `inform_agent`.

A value is tokens with blanks between them. Both callbacks take a token apart into a host and a
port, ask `getaddrinfo` for them, and put what it finds at the end of their list.
-/

namespace Agentsmith.ConfigAddresses

open Agentsmith.Lib.CStrings Agentsmith.Lib.Chunker
open Agentsmith.Globals Agentsmith.Exclude Agentsmith.ExcludeLines Agentsmith.Config

variable {α : Type*} {getaddrinfo : CStr → CStr → Option α} {ptr host port value : CStr}

/-- The forms of an address, with the host and the port in it. -/
inductive Form : CStr → CStr → CStr → Prop
  | host {host : CStr} : 58 ∉ host.1 → host.1.head? ≠ some 91 → Form host host defaultListenPort
  | hostPort {ptr host port : CStr} : ptr.1 = host.1 ++ 58 :: port.1 → 58 ∉ host.1 →
      host.1.head? ≠ some 91 → Form ptr host port
  | v6 {ptr host : CStr} : ptr.1 = 91 :: host.1 ++ [93] → 93 ∉ host.1 →
      Form ptr host defaultListenPort
  | v6Port {ptr host port : CStr} : ptr.1 = 91 :: host.1 ++ 93 :: 58 :: port.1 → 93 ∉ host.1 →
      Form ptr host port

/-- What is found for a token. -/
def found (getaddrinfo : CStr → CStr → Option α) (ptr : CStr) : Option α :=
  match splitAddress ptr with
  | some (some (host, port)) => getaddrinfo host port
  | _ => none

/-- What is found for the tokens of a value. -/
def resolved (getaddrinfo : CStr → CStr → Option α) (value : CStr) : List α :=
  (strtok value).filterMap (found getaddrinfo)

/-! ### Tokens -/

/-- A segment between two blanks is no longer than the text, and has no blank in it. -/
lemma splitOn_segment {c : UInt8} (s : List UInt8) :
    ∀ t ∈ s.splitOn c, t.length ≤ s.length ∧ c ∉ t ∧ t ⊆ s := by
  have hone : ∀ l : List UInt8, c ∉ l → l.splitOn c = [l] := by
    intro l hl
    exact List.splitOnP_eq_singleton fun d hd => beq_false_of_ne fun h => hl (h ▸ hd)
  induction s using segment_induction c with
  | nil => simp
  | last l hne hl =>
    rw [hone l hl, List.forall_mem_singleton]
    exact ⟨le_rfl, hl, List.Subset.refl l⟩
  | segment l r hl ih =>
    have hsplit : (l ++ c :: r).splitOn c = l :: r.splitOn c := by
      rw [List.splitOn, List.splitOnP_append_cons _ _ (by simp), ← List.splitOn, hone l hl]
      rfl
    rw [hsplit, List.forall_mem_cons]
    refine ⟨⟨by simp, hl, List.subset_append_left _ _⟩, fun t ht => ?_⟩
    obtain ⟨hlen, hno, hsub⟩ := ih t ht
    refine ⟨?_, hno, fun d hd => ?_⟩
    · rw [List.length_append, List.length_cons]
      omega
    · exact List.mem_append_right _ (List.mem_cons_of_mem _ (hsub hd))

/-- A token is not empty, has no blank in it, and is no longer than the value. -/
lemma mem_strtok (h : ptr ∈ strtok value) :
    ptr.1 ≠ [] ∧ 32 ∉ ptr.1 ∧ ptr.1.length ≤ value.1.length := by
  obtain ⟨t, ht, rfl⟩ := List.mem_map.mp h
  obtain ⟨hmem, hne⟩ := List.mem_filter.mp ht
  obtain ⟨hlen, hno, hsub⟩ := splitOn_segment value.1 t hmem
  rw [upToNul_of_notMem fun h0 => value.2 (hsub h0)]
  exact ⟨by simpa using hne, hno, hlen⟩

/-! ### Taking a token apart -/

lemma copyOut_some {n : ℕ} (h : n < buffSize) (s : CStr) : copyOut n s = some (upTo n s) :=
  if_pos h

lemma strchr_lt {c : UInt8} {i : ℕ} (h : strchr ptr c = some i) : i < ptr.1.length := by
  obtain ⟨hi, -⟩ := List.findIdx?_eq_some_iff_getElem.mp h
  exact hi

/-- The buffers have room for what is copied into them. -/
lemma splitAddress_fits (h : ptr.1.length < buffSize) : splitAddress ptr ≠ none := by
  unfold splitAddress
  split
  · split
    · exact Option.some_ne_none _
    · rename_i closing hclosing
      have hlt := strchr_lt hclosing
      split
      · rename_i n hn
        have hcolon := strchr_lt hn
        have hadv : (advance closing ptr).1.length = ptr.1.length - closing := List.length_drop
        dsimp only
        rw [copyOut_some (by omega), Option.bind_some, copyOut_some (by omega)]
        exact Option.some_ne_none _
      · rw [copyOut_some (by omega)]
        exact Option.some_ne_none _
  · split
    · rw [copyOut_some h]
      exact Option.some_ne_none _
    · rename_i colon hcolon
      have hlt := strchr_lt hcolon
      rw [copyOut_some (by omega), Option.bind_some, copyOut_some (by omega)]
      exact Option.some_ne_none _

/-- A token that begins like an IPv6 address and has no `]`. -/
lemma splitAddress_open (hhead : ptr.1.head? = some 91) (hno : 93 ∉ ptr.1) :
    splitAddress ptr = some none := by
  unfold splitAddress
  rw [if_pos hhead, strchr_none.mpr hno]

/-- An address in brackets. -/
lemma bracket {rest : List UInt8} (hptr : ptr.1 = 91 :: host.1 ++ 93 :: rest) (hno : 93 ∉ host.1) :
    ptr.1.head? = some 91 ∧ strchr ptr 93 = some (host.1.length + 1) ∧
      (advance (host.1.length + 1) ptr).1 = 93 :: rest ∧
      upTo host.1.length (advance 1 ptr) = host := by
  have hbefore : 93 ∉ 91 :: host.1 := by simp [hno]
  have hhost : (advance 1 ptr).1 = host.1 ++ 93 :: rest := by
    show ptr.1.drop 1 = _
    rw [hptr]
    rfl
  refine ⟨by rw [hptr]; rfl, strchr_append hptr hbefore, ?_, upTo_append hhost⟩
  show ptr.1.drop _ = _
  rw [hptr, List.drop_left' (by simp)]

/-- **A token in one of the forms** is taken apart as it should be. -/
lemma splitAddress_form (hlen : ptr.1.length < buffSize) (h : Form ptr host port) :
    splitAddress ptr = some (some (host, port)) := by
  unfold splitAddress
  cases h with
  | host hno hhead =>
    rw [if_neg hhead, strchr_none.mpr hno]
    dsimp only
    rw [copyOut_some hlen, upTo_self, Option.map_some]
  | hostPort hptr hno hhead =>
    have hhead' : ptr.1.head? ≠ some 91 := by
      rw [hptr]
      rcases hhost : host.1 with _ | ⟨c, l⟩
      · simp
      · rw [hhost] at hhead
        exact hhead
    have hsize : ptr.1.length = host.1.length + 1 + port.1.length := by
      rw [hptr, List.length_append, List.length_cons]
      omega
    have hport : advance (host.1.length + 1) ptr = port := by
      have hsplit : ptr.1 = (host.1 ++ [58]) ++ port.1 := by
        rw [hptr]
        simp
      rw [← advance_append hsplit, List.length_append, List.length_singleton]
    rw [if_neg hhead', strchr_append hptr hno]
    dsimp only
    rw [copyOut_some (by omega), upTo_append hptr, Option.bind_some, copyOut_some (by omega), hport,
      hsize, Nat.add_sub_cancel_left, upTo_self, Option.map_some]
  | v6 hptr hno =>
    obtain ⟨hhead, hclosing, hrest, hhost⟩ := bracket hptr hno
    have hsize : ptr.1.length = host.1.length + 2 := by
      rw [hptr]
      simp
    have hcolon : strchr (advance (host.1.length + 1) ptr) 58 = none := by
      rw [strchr_none, hrest]
      decide
    have hcut : ptr.1.length - 1 - 1 = host.1.length := by omega
    rw [if_pos hhead, hclosing]
    dsimp only
    rw [hcolon]
    dsimp only
    rw [hcut, copyOut_some (by omega), hhost, Option.map_some]
  | v6Port hptr hno =>
    obtain ⟨hhead, hclosing, hrest, hhost⟩ := bracket hptr hno
    have hsize : ptr.1.length = host.1.length + 3 + port.1.length := by
      rw [hptr, List.length_append, List.length_cons, List.length_cons, List.length_cons]
      omega
    have hcolon : strchr (advance (host.1.length + 1) ptr) 58 = some 1 :=
      strchr_append (show _ = [93] ++ 58 :: port.1 from hrest) (by decide)
    have hport : advance (host.1.length + 3) ptr = port := by
      have hsplit : ptr.1 = (91 :: host.1 ++ [93, 58]) ++ port.1 := by
        rw [hptr]
        simp
      rw [← advance_append hsplit]
      simp
    have hcut : host.1.length + 1 + 1 - 2 = host.1.length := by omega
    rw [if_pos hhead, hclosing]
    dsimp only
    rw [hcolon]
    dsimp only
    rw [copyOut_some (by omega), Option.bind_some, copyOut_some (by omega), hport, hsize,
      Nat.add_sub_cancel_left, upTo_self, hcut, hhost, Option.map_some]

/-! ### The list -/

/-- The tail pointer is at the last item. -/
def Linked (l : AddrinfoList α) : Prop := l.items ≠ [] → l.last = some (l.items.length - 1)

/-- An item is added at the end, and the tail pointer goes with it. -/
lemma add_linked {l : AddrinfoList α} (h : Linked l) (item : α) :
    ∃ l', l.add item = some l' ∧ l'.items = l.items ++ [item] ∧ Linked l' := by
  unfold AddrinfoList.add
  rcases hitems : l.items with _ | ⟨a, items⟩
  · exact ⟨_, rfl, rfl, fun _ => rfl⟩
  · have hne : l.items ≠ [] := by
      rw [hitems]
      exact List.cons_ne_nil a items
    rw [List.isEmpty_cons, if_neg Bool.false_ne_true, h hne, hitems]
    refine ⟨_, rfl, ?_, fun _ => ?_⟩
    · simp
    · simp

/-- At most so many items, if there is a limit. -/
def limited (limit : Option ℕ) (items : List α) : List α :=
  match limit with
  | none => items
  | some m => items.take m

/-- **The loop of a callback**: from any list that it has put together so far, what is found for
the tokens is added up to the limit. -/
lemma loop_found (limit : Option ℕ) {ptrs : List CStr}
    (hfits : ∀ ptr ∈ ptrs, splitAddress ptr ≠ none) {l : AddrinfoList α} (h : Linked l)
    (hlimit : ∀ m, limit = some m → l.items.length ≤ m) :
    ∃ l', callbackLoop getaddrinfo limit ptrs l.items.length l = some l' ∧
      l'.items = limited limit (l.items ++ ptrs.filterMap (found getaddrinfo)) := by
  induction ptrs generalizing l with
  | nil =>
    refine ⟨l, rfl, ?_⟩
    rw [List.filterMap_nil, List.append_nil]
    cases limit with
    | none => rfl
    | some m => exact (List.take_of_length_le (hlimit m rfl)).symm
  | cons ptr ptrs ih =>
    obtain ⟨hptr, hptrs⟩ := List.forall_mem_cons.mp hfits
    unfold callbackLoop
    by_cases hfull : limit.any (· ≤ l.items.length) = true
    · -- the limit has been reached
      rw [if_pos hfull]
      obtain ⟨m, hm, hle⟩ := (Option.any_eq_true _ _).mp hfull
      obtain rfl : l.items.length = m :=
        Nat.le_antisymm (hlimit m hm) (of_decide_eq_true hle)
      refine ⟨l, rfl, ?_⟩
      rw [hm]
      exact List.take_left.symm
    · rw [if_neg hfull]
      have hmore : ∀ m, limit = some m → l.items.length < m := by
        rintro m rfl
        simpa using hfull
      have hfound : found getaddrinfo ptr = match splitAddress ptr with
        | some (some (host, port)) => getaddrinfo host port
        | _ => none := rfl
      rcases hsplit : splitAddress ptr with _ | _ | ⟨host, port⟩
      · exact absurd hsplit hptr
      · rw [hsplit] at hfound
        rw [List.filterMap_cons_none hfound]
        exact ih hptrs h hlimit
      · rw [hsplit] at hfound
        dsimp only at hfound ⊢
        rcases hget : getaddrinfo host port with _ | tmp
        · rw [List.filterMap_cons_none (hfound.trans hget)]
          exact ih hptrs h hlimit
        · obtain ⟨l', hadd, hitems, hlinked⟩ := add_linked h tmp
          obtain ⟨l'', hloop, hend⟩ := ih hptrs hlinked fun m hm => by
            rw [hitems, List.length_append, List.length_singleton]
            exact hmore m hm
          refine ⟨l'', ?_, ?_⟩
          · rw [hitems, List.length_append, List.length_singleton] at hloop
            show (l.add tmp).bind _ = _
            rw [hadd, Option.bind_some, hloop]
          · rw [hend, hitems, List.filterMap_cons_some (hfound.trans hget), List.append_assoc,
              List.singleton_append]

/-- A callback with an empty list. -/
lemma callback_resolved (getaddrinfo : CStr → CStr → Option α) (limit : Option ℕ)
    (hlen : value.1.length < buffSize) : configCallback getaddrinfo limit value [] =
      some (limited limit (resolved getaddrinfo value)) := by
  have hfits : ∀ ptr ∈ strtok value, splitAddress ptr ≠ none := by
    intro ptr hptr
    obtain ⟨-, -, hle⟩ := mem_strtok hptr
    exact splitAddress_fits (Nat.lt_of_le_of_lt hle hlen)
  have hempty : Linked (⟨[], none⟩ : AddrinfoList α) := fun h => absurd rfl h
  obtain ⟨l, hloop, hitems⟩ : ∃ l, callbackLoop getaddrinfo limit (strtok value) 0 ⟨[], none⟩ =
      some l ∧ _ := loop_found limit hfits hempty fun m _ => Nat.zero_le m
  unfold configCallback
  rw [List.isEmpty_nil, if_pos rfl, hloop, Option.map_some, hitems]
  rfl

/-- **The addresses of a value**: with an empty list both callbacks take every token apart as its
form says, skip what has no closing bracket or is not found, and put the rest in the list, in its
order, `listen` up to its limit. -/
theorem addresses_split (getaddrinfo : CStr → CStr → Option α) (value : CStr)
    (hlen : value.1.length < buffSize) (cfg : ConfigT α) :
    (∀ ptr ∈ strtok value,
      (∀ host port, Form ptr host port → splitAddress ptr = some (some (host, port))) ∧
        (ptr.1.head? = some 91 → 93 ∉ ptr.1 → splitAddress ptr = some none)) ∧
      (cfg.listen = [] → configCallbackListen getaddrinfo value cfg =
        some { cfg with listen := (resolved getaddrinfo value).take maxListen }) ∧
      (cfg.informAgents = [] → configCallbackInform getaddrinfo value cfg =
        some { cfg with informAgents := resolved getaddrinfo value }) := by
  refine ⟨fun ptr hptr => ⟨fun host port hform => ?_, splitAddress_open⟩, fun h => ?_, fun h => ?_⟩
  · obtain ⟨-, -, hle⟩ := mem_strtok hptr
    exact splitAddress_form (Nat.lt_of_le_of_lt hle hlen) hform
  · rw [configCallbackListen, h, callback_resolved getaddrinfo _ hlen]
    rfl
  · rw [configCallbackInform, h, callback_resolved getaddrinfo _ hlen]
    rfl

/-- A resolver that knows every name but `localhost`, and gives back what it is asked for. -/
def asked (host port : CStr) : Option (CStr × CStr) :=
  if host = localhost then none else some (host, port)

/-- The four forms, a token without its bracket, and a name that is not found. -/
def sampleValue : CStr := ascii " 127.0.0.1  [::1]:4000 [::2 localhost [::3] a:5000"

theorem addresses_split_run : ((configCallbackInform asked sampleValue
      (initConfigT _ (ascii "/var/run/agentsmith.pid"))).map (·.informAgents)) =
    some [(ascii "127.0.0.1", ascii "48621"), (ascii "::1", ascii "4000"),
      (ascii "::3", ascii "48621"), (ascii "a", ascii "5000")] := by
  obtain ⟨-, -, hinform⟩ := addresses_split asked sampleValue (by decide +kernel)
    (initConfigT _ (ascii "/var/run/agentsmith.pid"))
  rw [hinform rfl]
  decide +kernel

end Agentsmith.ConfigAddresses
