import Mila.Proofs.FailingPrograms
import Mila.Proofs.Streaming

/-! # Call after call

A parser may be asked for one program after the other. Each call takes a run of tokens, whether it succeeds or fails,
and the next one goes on where it stopped. So the runs are the tokens of the lexer, one behind the other.
-/

namespace Mila

/-! ## 1. The tokens of a stream -/

namespace TokenStream

/-- The tokens of a stream by their number. There is no last one. -/
def nth (s : TokenStream) (k : Nat) : Token := s.pending[k]?.getD s.eof

theorem nth_zero (s : TokenStream) : s.nth 0 = s.head := by
  unfold nth head
  rw [List.headD_eq_head?_getD, List.head?_eq_getElem?]

theorem nth_succ (s : TokenStream) (k : Nat) : s.nth (k + 1) = s.tail.nth k := by
  unfold nth tail
  rw [List.getElem?_tail]
  rfl

namespace Opens

variable {s z u : TokenStream} {ts : List Token}

theorem nth_eq (h : s.Opens ts u) : ts = (List.range ts.length).map s.nth ∧ ∀ k, s.nth (ts.length + k) = u.nth k := by
  induction ts generalizing s with
  | nil =>
    obtain rfl : u = s := h
    refine ⟨rfl, fun k => ?_⟩
    rw [List.length_nil, Nat.zero_add]
  | cons t ts ih =>
    obtain ⟨hfront, hbehind⟩ := ih h.2
    have htail : s.nth ∘ Nat.succ = s.tail.nth := funext s.nth_succ
    constructor
    · rw [List.length_cons, List.range_succ_eq_map, List.map_cons, List.map_map, htail, nth_zero, h.1, ← hfront]
    · intro k
      rw [List.length_cons, Nat.add_right_comm, nth_succ, hbehind]

/-- Streams with the same tokens, though not the same number of pending ones. -/
theorem of_nth (h : s.Opens ts u) (hz : ∀ k, z.nth k = s.nth k) : ∃ v, z.Opens ts v ∧ ∀ k, v.nth k = u.nth k := by
  induction ts generalizing s z with
  | nil =>
    obtain rfl : u = s := h
    exact ⟨z, rfl, hz⟩
  | cons t ts ih =>
    obtain ⟨v, hv, hnth⟩ := ih (z := z.tail) h.2 fun k => by rw [← nth_succ, ← nth_succ, hz]
    refine ⟨v, ⟨?_, hv⟩, hnth⟩
    rw [← h.1, ← nth_zero, ← nth_zero, hz]

/-- Tokens that are all pending are the first pending ones. -/
theorem take_eq (h : s.Opens ts u) (hlength : ts.length ≤ s.pending.length) : s.pending.take ts.length = ts := by
  induction ts generalizing s with
  | nil => rfl
  | cons t ts ih =>
    obtain ⟨pending, last⟩ := s
    cases pending with
    | nil => exact absurd hlength (Nat.not_succ_le_zero _)
    | cons t' pending =>
      obtain rfl : t' = t := h.1
      exact congrArg (t' :: ·) (ih h.2 (Nat.le_of_succ_le_succ hlength))

/-- Tokens without an end of input are pending ones. -/
theorem length_le (h : s.Opens ts u) (heof : ∀ t ∈ ts, t.kind ≠ .eof) : ts.length ≤ s.pending.length := by
  induction ts generalizing s with
  | nil => exact Nat.zero_le _
  | cons t ts ih =>
    rw [List.forall_mem_cons] at heof
    have hlength := ih h.2 heof.2
    have hlt := (past_tail (s := s) (by rw [h.1]; exact heof.1)).lt
    rw [List.length_cons]
    omega

end Opens

/-- The same tokens, where the first end of input behind the pending ones is pending as well. -/
def spelledOut (s : TokenStream) : TokenStream := ⟨s.toList, s.last⟩

theorem nth_spelledOut (s : TokenStream) (k : Nat) : s.spelledOut.nth k = s.nth k := by
  unfold nth spelledOut toList
  dsimp only
  rcases Nat.lt_or_ge k s.pending.length with hk | hk
  · rw [List.getElem?_append_left hk]
    rfl
  · rw [List.getElem?_append_right hk, List.getElem?_eq_none hk, List.getElem?_singleton]
    split <;> rfl

theorem length_spelledOut (s : TokenStream) : s.spelledOut.pending.length = s.pending.length + 1 :=
  List.length_append

end TokenStream

/-- The calls of any lexer give the tokens of its stream, those that were handed back first. -/
theorem Lexer.nth_stream (l : Lexer) (calls : Nat) : l.nth calls = l.stream.nth calls := by
  obtain ⟨c, queue, finished⟩ := l
  induction queue generalizing calls with
  | nil => exact nth_eq c finished calls
  | cons t queue ih =>
    cases calls with
    | zero => rfl
    | succ calls => exact ih calls

namespace Parser

variable {α : Type}

/-! ## 2. Programs -/

/-- The tokens that are taken by a function which goes no further, and leaves `u`. -/
structure Closes (ts : List Token) (u : TokenStream) (r : Except ParseError α) : Prop where
  /-- An end of input is only taken as the last token. -/
  before : ∀ t ∈ ts.dropLast, t.kind ≠ .eof
  /-- Where the function succeeds, it takes the end of input. -/
  complete : ∀ a, r = .ok a → ∃ t ∈ ts.getLast?, t.kind = .eof
  /-- A failure is about the last token that was taken, about the next one, or about no token. -/
  blamed : ∀ e, r = .error e → e.cause.actual? = none ∨ e.Blames u.head ∨ ∃ t ∈ ts.getLast?, e.Blames t

variable {s₀ u s : TokenStream} {L : List Kind → Prop} {ts : List Token} {r : Except ParseError α} {looked : Prop}
  {n : Nat} {m : Parser α}

theorem Fault.actual_or {e : ParseError} {t : Token}
    (h : Fault s₀ L e ts t) : e.cause.actual? = none ∨ e.Blames t := by
  rcases h with (⟨low, high, hcause⟩ | ⟨hcause, -⟩) | ⟨hblames, -, -⟩
  · exact .inl (by rw [hcause]; rfl)
  · exact .inl (by rw [hcause]; rfl)
  · exact .inr hblames

theorem Ends.closes (h : Ends (fun ts _ _ => Complete ts) (Fault s₀ L) ts u r looked) : Closes ts u r := by
  cases h with
  | ok h =>
    obtain ⟨front, t, rfl, hfront, ht⟩ := h
    refine ⟨?_, fun _ _ => ⟨t, List.getLast?_concat, ht⟩, fun _ he => by cases he⟩
    rwa [List.dropLast_concat]
  | next heof h =>
    refine ⟨fun t ht => heof t (List.mem_of_mem_dropLast ht), nofun, fun e he => ?_⟩
    cases he
    exact h.actual_or.imp_right .inl
  | @last ts t _ _ heof h =>
    refine ⟨?_, nofun, fun e he => ?_⟩
    · rwa [List.dropLast_concat]
    · cases he
      exact h.actual_or.imp_right fun hblames => .inr ⟨t, List.getLast?_concat, hblames⟩

/-- The bound on the descent has no influence, if it is as large as it has to be. -/
theorem programOf_eq_program {z : TokenStream} (h : z.pending.length ≤ n) : programOf n z = program z := by
  have heq : ∀ n', z.pending.length ≤ n' → programOf n' z = programOf (z.pending.length + 1) z := by
    intro n' hn'
    obtain ⟨ts, u, r, looked, -, -, hway⟩ := programOf_way (Nat.le_succ z.pending.length) hn'
    rw [hway.run]
    exact hway.alike z u hway.opens (fun _ => rfl) (Nat.le_refl _)
  exact (heq n h).trans (heq z.pending.length (Nat.le_refl _)).symm

/-! ## 3. Calls -/

/-- The stream that a function leaves. -/
def leaves (m : Parser α) (s : TokenStream) : TokenStream :=
  match m s with
  | .ok _ u | .error _ u => u

/-- The tokens that a function takes: those that are no longer there when it is done. The first end of input is one of
them if it is gone as well, for which it has to be spelled out. -/
def taken (m : Parser α) (s : TokenStream) : List Token :=
  s.toList.take (s.toList.length - (m.leaves s.spelledOut).pending.length)

theorem leaves_eq (h : m s = outcome r u) : m.leaves s = u := by
  unfold leaves
  rw [h]
  cases r <;> rfl

theorem result_eq (h : m s = outcome r u) : m.result s = r := by
  unfold result EStateM.run
  rw [h]
  cases r <;> rfl

/-- What a call does. -/
structure Call (s : TokenStream) (ts : List Token) (u : TokenStream) (r : Except ParseError Program) : Prop where
  run : program s = outcome r u
  /-- The tokens that are taken are the first ones of the stream, and the others are left. -/
  opens : s.Opens ts u
  nonempty : ts ≠ []
  closes : Closes ts u r
  /-- Only the tokens that are taken and the next one have an influence. -/
  alike : ∀ z v : TokenStream, z.Opens ts v → v.head = u.head → program z = outcome r v

/-- An end of input that is only taken as the last token is the first one behind the pending tokens, or before it. -/
theorem Closes.length_le (h : Closes ts u r) (hopens : s.Opens ts u) : ts.length ≤ s.pending.length + 1 := by
  cases ts using List.reverseRecOn with
  | nil => exact Nat.zero_le _
  | append_singleton ts t =>
    obtain ⟨y, hy, -⟩ := hopens.of_append
    have hbefore := h.before
    rw [List.dropLast_concat] at hbefore
    rw [List.length_append, List.length_singleton]
    exact Nat.succ_le_succ (hy.length_le hbefore)

/-- The tokens on the way of a call are those that are found to be taken when the end of input is spelled out. -/
theorem Way.taken_eq {N : Nat} {r : Except ParseError Program}
    (h : Way N (programOf n) (programOf N) s ts u r looked) (hcloses : Closes ts u r) (hN : s.pending.length + 1 ≤ N) :
    program.taken s = ts := by
  have hlength := s.length_spelledOut
  obtain ⟨v, hv, hnth⟩ := h.opens.of_nth s.nth_spelledOut
  have hhead : v.head = u.head := by rw [← TokenStream.nth_zero, ← TokenStream.nth_zero, hnth]
  have hrun := h.alike s.spelledOut v hv (fun _ => hhead) (by omega)
  rw [programOf_eq_program (by omega)] at hrun
  have hle := hcloses.length_le h.opens
  have hcount : s.toList.length - (s.toList.length - ts.length) = ts.length := by
    have hlist : s.toList.length = s.pending.length + 1 := hlength
    omega
  unfold taken
  rw [leaves_eq hrun, hv.length_eq, show s.spelledOut.pending = s.toList from rfl, hcount]
  exact hv.take_eq (by omega)

theorem call (s : TokenStream) : Call s (program.taken s) (program.leaves s) (program.result s) := by
  -- room for the stream itself with its end of input spelled out, and for any other stream
  have hway : ∀ N, s.pending.length + 1 ≤ N → ∃ u r looked, program s = outcome r u ∧ program.taken s ≠ [] ∧
      Closes (program.taken s) u r ∧
        Way N (programOf (s.pending.length + 1)) (programOf N) s (program.taken s) u r looked := by
    intro N hN
    obtain ⟨ts, u, r, looked, hne, hends, hway⟩ := programOf_way (Nat.le_succ s.pending.length) (Nat.le_refl N)
    obtain rfl := hway.taken_eq hends.closes hN
    refine ⟨u, r, looked, ?_, hne, hends.closes, hway⟩
    rw [← programOf_eq_program (Nat.le_succ _), hway.run]
  obtain ⟨u, r, _, hrun, hne, hcloses, hfirst⟩ := hway _ (Nat.le_refl _)
  rw [leaves_eq hrun, result_eq hrun]
  refine ⟨hrun, hfirst.opens, hne, hcloses, fun z v hz hnext => ?_⟩
  obtain ⟨u', r', _, hrun', -, -, hlarge⟩ := hway (s.pending.length + 1 + z.pending.length) (Nat.le_add_right _ _)
  obtain rfl := (leaves_eq hrun').symm.trans (leaves_eq hrun)
  obtain rfl := (result_eq hrun').symm.trans (result_eq hrun)
  rw [← programOf_eq_program (n := s.pending.length + 1 + z.pending.length) (Nat.le_add_left _ _)]
  exact hlarge.alike z v hz (fun _ => hnext) (Nat.le_add_left _ _)

/-- The stream after a number of calls. -/
def streamAfter (s : TokenStream) : Nat → TokenStream
  | 0 => s
  | calls + 1 => program.leaves (streamAfter s calls)

/-- The tokens that a number of calls take, one run behind the other. -/
def takenBy (s : TokenStream) : Nat → List Token
  | 0 => []
  | calls + 1 => takenBy s calls ++ program.taken (streamAfter s calls)

theorem opens_takenBy (s : TokenStream) (calls : Nat) : s.Opens (takenBy s calls) (streamAfter s calls) := by
  induction calls with
  | zero => rfl
  | succ calls ih => exact ih.append (call (streamAfter s calls)).opens

/-- Any number of calls on the tokens of a lexer, those that were handed back first, take runs of tokens that adjoin.
Every call takes at least one token, and an end of input only as the last one. It takes the end of input if it
succeeds; and if it fails at a token that it has not taken, the next call starts with that token. What a call does is
decided by the tokens that it takes and the one behind them, and the bound on its descent has no part in it. -/
theorem program_calls (l : Lexer) (calls : Nat) :
    Call (streamAfter l.stream calls) (program.taken (streamAfter l.stream calls)) (streamAfter l.stream (calls + 1))
      (program.result (streamAfter l.stream calls)) ∧
    (∀ bound, (streamAfter l.stream calls).pending.length ≤ bound →
      programOf bound (streamAfter l.stream calls) = program (streamAfter l.stream calls)) ∧
    (program.taken (streamAfter l.stream calls)).head? = some (streamAfter l.stream calls).head ∧
    takenBy l.stream calls = (List.range (takenBy l.stream calls).length).map l.nth ∧
    ∀ k, (streamAfter l.stream calls).nth k = l.nth ((takenBy l.stream calls).length + k) := by
  have hcall := call (streamAfter l.stream calls)
  have hnth : l.nth = l.stream.nth := funext l.nth_stream
  obtain ⟨hfront, hbehind⟩ := (opens_takenBy l.stream calls).nth_eq
  refine ⟨hcall, fun bound hbound => programOf_eq_program hbound, ?_, ?_, fun k => ?_⟩
  · have hopens := hcall.opens
    obtain ⟨t, ts, hts⟩ := List.exists_cons_of_ne_nil hcall.nonempty
    rw [hts] at hopens ⊢
    exact congrArg some hopens.1.symm
  · rw [hnth, ← hfront]
  · rw [hnth, hbehind]

/-- An end of input was handed back, so that the first of four calls fails at once. The second one fails at a number
that it has not taken, and the third one takes it. -/
def interruptedSource : Lexer := (Lexer.ofInput (.ofString "program p; 7")).pushBack ⟨.eof, ⟨0, 0⟩⟩

theorem program_calls_interrupted :
    (takenBy interruptedSource.stream 4).map Token.kind = [.eof, .keyword .program, .identifier "p",
      .operator .semicolon, .integer 7, .eof] ∧
    (program.taken (streamAfter interruptedSource.stream 1)).length = 3 ∧
    takenBy interruptedSource.stream 4 = (List.range 6).map interruptedSource.nth ∧
    (program.taken (streamAfter interruptedSource.stream 2)).head? =
      some (streamAfter interruptedSource.stream 2).head := by
  have hkinds : (takenBy interruptedSource.stream 4).map Token.kind = [.eof, .keyword .program, .identifier "p",
      .operator .semicolon, .integer 7, .eof] := by decide +kernel
  have hlength : (takenBy interruptedSource.stream 4).length = 6 := by
    rw [← List.length_map, hkinds]
    rfl
  obtain ⟨-, -, -, htokens, -⟩ := program_calls interruptedSource 4
  obtain ⟨-, -, hhead, -, -⟩ := program_calls interruptedSource 2
  rw [hlength] at htokens
  exact ⟨hkinds, by decide +kernel, htokens, hhead⟩

end Parser

end Mila
