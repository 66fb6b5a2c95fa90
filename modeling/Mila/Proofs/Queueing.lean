import Mila.Proofs.Calls

/-! # Lexers as queues of tokens

A lexer looks ahead in its input and passes over blanks whenever it is asked something, in whichever order its client
asks. None of this shows. What the client is told comes from a queue of tokens in front of the tokens of the input,
and every token that goes through the queue is given out once.
-/

namespace Mila

/-! ## 1. Requests -/

/-- What the client of a lexer may ask for. -/
inductive Lexer.Request where
  | next
  | peek
  | pushBack (t : Token)
  | atEnd
  | iterate
  deriving DecidableEq, Repr

/-- The token that is handed back with a request. -/
def Lexer.Request.handed? : Lexer.Request → Option Token
  | pushBack t => some t
  | _ => none

/-- What the client is told. -/
inductive Lexer.Answer where
  | taken (t : Token)
  | shown (t : Token)
  | noted
  | flag (atEnd : Bool)
  | item (t : Option Token)
  deriving DecidableEq, Repr

/-- The token that is given out with an answer. One that is only shown is not given out. -/
def Lexer.Answer.given? : Lexer.Answer → Option Token
  | taken t => some t
  | item t => t
  | _ => none

/-- The answers to a number of requests, and the state in the end. -/
def serveAll {σ : Type} (serve : σ → Lexer.Request → Lexer.Answer × σ) (s : σ) :
    List Lexer.Request → List Lexer.Answer × σ
  | [] => ([], s)
  | r :: rs =>
    let later := serveAll serve (serve s r).2 rs
    ((serve s r).1 :: later.1, later.2)

def Lexer.serve (l : Lexer) : Lexer.Request → Lexer.Answer × Lexer
  | .next => (.taken l.next.1, l.next.2)
  | .peek => (.shown l.peek.1, l.peek.2)
  | .pushBack t => (.noted, l.pushBack t)
  | .atEnd => (.flag l.atEnd.1, l.atEnd.2)
  | .iterate => (.item l.iterate.1, l.iterate.2)

/-! ## 2. Queues -/

/-- Tokens that wait in a queue, and those behind them, of which there is no last one. -/
structure TokenQueue where
  queue : List Token
  rest : Nat → Token
  /-- Whether an iteration has given the end of input. -/
  finished : Bool

namespace TokenQueue

/-- Takes the first token of the queue, or else the first one behind it. -/
def next (q : TokenQueue) : Token × TokenQueue :=
  match q.queue with
  | t :: queue => (t, { q with queue })
  | [] => (q.rest 0, { q with rest := fun k => q.rest (k + 1) })

/-- Shows the first token of the queue, to which the first one behind it is moved if it is empty. -/
def peek (q : TokenQueue) : Token × TokenQueue :=
  match q.queue with
  | t :: _ => (t, q)
  | [] => (q.rest 0, { q with queue := [q.rest 0], rest := fun k => q.rest (k + 1) })

def pushBack (q : TokenQueue) (t : Token) : TokenQueue := { q with queue := q.queue ++ [t] }

/-- Whether the next token is an end of input that does not wait in the queue. -/
def atEnd (q : TokenQueue) : Bool := q.queue.isEmpty && (q.rest 0).kind == .eof

/-- Takes the next token, until an iteration has given the end of input. -/
def iterate (q : TokenQueue) : Option Token × TokenQueue :=
  if q.finished then (none, q) else (some q.next.1, { q.next.2 with finished := q.next.1.kind == .eof })

def serve (q : TokenQueue) : Lexer.Request → Lexer.Answer × TokenQueue
  | .next => (.taken q.next.1, q.next.2)
  | .peek => (.shown q.peek.1, q.peek.2)
  | .pushBack t => (.noted, q.pushBack t)
  | .atEnd => (.flag q.atEnd, q)
  | .iterate => (.item q.iterate.1, q.iterate.2)

end TokenQueue

/-- The tokens of an input by their number: those of its bytes, the report of the failure that ended it, and the end
of input for ever. -/
def Input.nthToken (input : Input) (k : Nat) : Token :=
  ((streamOf input.bytes).pending ++ (input.ending.map (ReadFailure.report input.bytes.length)).toList)[k]?.getD
    ⟨.eof, ⟨input.bytes.length, 0⟩⟩

/-! ## 3. Tokens at a cursor -/

/-- Behind a run of bytes there is none that it could go on with. -/
theorem Input.takeWhile_takeWhile (p : UInt8 → Bool) (input : Input) :
    takeWhile p (takeWhile p input).2 = ([], (takeWhile p input).2) := by
  fun_induction takeWhile p input with
  | case1 value rest hp taken left hrest ih =>
    rw [hrest] at ih
    exact ih
  | case2 value rest hp =>
    rw [takeWhile, if_neg hp]
  | case3 rest ih => exact ih
  | case4 input hbyte hinterrupted =>
    unfold takeWhile
    split
    · next value rest hinput => exact absurd hinput (hbyte value rest)
    · next rest hinput => exact absurd hinput (hinterrupted rest)
    · rfl

namespace Cursor

variable (c : Cursor)

theorem token_skipBlanks : c.skipBlanks.token = c.token := by
  have hskip : c.skipBlanks.skipBlanks = c.skipBlanks := by
    unfold skipBlanks
    dsimp only
    rw [Input.takeWhile_takeWhile]
    rfl
  unfold token
  rw [hskip]

theorem stream_skipBlanks : c.skipBlanks.stream = c.stream := by
  rw [stream, token_skipBlanks, ← stream]

theorem nth_zero_stream : c.stream.nth 0 = c.token.1 := (Lexer.nth_eq c false 0).symm

/-- Behind the next token come the others. -/
theorem nth_succ_stream (k : Nat) : c.stream.nth (k + 1) = c.token.2.stream.nth k :=
  (Lexer.nth_eq c false (k + 1)).symm.trans (Lexer.nth_eq c.token.2 false k)

theorem token_kind_eq_eof_iff : c.token.1.kind = .eof ↔ c.skipBlanks.input.next = .finished := by
  refine ⟨next_of_eof, fun h => ?_⟩
  change (scan c.skipBlanks.input).kind = .eof
  unfold scan
  rw [h]

end Cursor

/-! ## 4. One request -/

/-- A lexer stands where a queue stands. -/
structure Lexer.Represents (l : Lexer) (q : TokenQueue) : Prop where
  queue : q.queue = l.queue
  rest : q.rest = l.cursor.stream.nth
  finished : q.finished = l.finished

namespace Lexer.Represents

variable {l : Lexer} {q : TokenQueue} (h : l.Represents q)

include h

/-- The first token behind the queue is the one that the lexer scans. -/
theorem scanned : q.rest 0 = l.cursor.token.1 ∧ (fun k => q.rest (k + 1)) = l.cursor.token.2.stream.nth := by
  rw [h.rest, l.cursor.nth_zero_stream]
  exact ⟨rfl, funext l.cursor.nth_succ_stream⟩

theorem next : q.next.1 = l.next.1 ∧ l.next.2.Represents q.next.2 := by
  unfold TokenQueue.next Lexer.next
  rw [h.queue]
  cases hqueue : l.queue with
  | nil =>
    obtain ⟨hfirst, hothers⟩ := h.scanned
    exact ⟨hfirst, rfl, hothers, h.finished⟩
  | cons t queue => exact ⟨rfl, rfl, h.rest, h.finished⟩

theorem peek : q.peek.1 = l.peek.1 ∧ l.peek.2.Represents q.peek.2 := by
  unfold TokenQueue.peek Lexer.peek
  rw [h.queue]
  cases hqueue : l.queue with
  | nil =>
    obtain ⟨hfirst, hothers⟩ := h.scanned
    exact ⟨hfirst, congrArg ([·]) hfirst, hothers, h.finished⟩
  | cons t queue => exact ⟨rfl, h⟩

theorem pushBack (t : Token) : (l.pushBack t).Represents (q.pushBack t) :=
  ⟨congrArg (· ++ [t]) h.queue, h.rest, h.finished⟩

/-- The blanks that are passed over have no tokens in them. -/
theorem atEnd : q.atEnd = l.atEnd.1 ∧ l.atEnd.2.Represents q := by
  unfold TokenQueue.atEnd Lexer.atEnd
  rw [h.queue]
  cases hqueue : l.queue with
  | cons t queue => exact ⟨rfl, h⟩
  | nil =>
    have hmoved : Lexer.Represents { l with cursor := l.cursor.skipBlanks } q :=
      ⟨h.queue, by rw [h.rest, l.cursor.stream_skipBlanks], h.finished⟩
    rw [hqueue] at hmoved
    have heof := l.cursor.token_kind_eq_eof_iff
    rw [h.rest, l.cursor.nth_zero_stream]
    dsimp only
    split
    · next hnext => exact ⟨beq_iff_eq.mpr (heof.mpr hnext), hmoved⟩
    · next hnext => exact ⟨beq_eq_false_iff_ne.mpr fun hkind => hnext (heof.mp hkind), hmoved⟩

theorem iterate : q.iterate.1 = l.iterate.1 ∧ l.iterate.2.Represents q.iterate.2 := by
  obtain ⟨htoken, hnext⟩ := h.next
  unfold TokenQueue.iterate Lexer.iterate
  rw [h.finished]
  split
  · exact ⟨rfl, h⟩
  · exact ⟨congrArg some htoken, hnext.queue, hnext.rest, by rw [htoken]⟩

theorem serve (r : Lexer.Request) : (q.serve r).1 = (l.serve r).1 ∧ (l.serve r).2.Represents (q.serve r).2 := by
  cases r with
  | next => exact h.next.imp_left (congrArg Lexer.Answer.taken)
  | peek => exact h.peek.imp_left (congrArg Lexer.Answer.shown)
  | pushBack t => exact ⟨rfl, h.pushBack t⟩
  | atEnd => exact h.atEnd.imp_left (congrArg Lexer.Answer.flag)
  | iterate => exact h.iterate.imp_left (congrArg Lexer.Answer.item)

theorem serveAll (rs : List Lexer.Request) :
    (Mila.serveAll TokenQueue.serve q rs).1 = (Mila.serveAll Lexer.serve l rs).1 ∧
    (Mila.serveAll Lexer.serve l rs).2.Represents (Mila.serveAll TokenQueue.serve q rs).2 := by
  induction rs generalizing l q with
  | nil => exact ⟨rfl, h⟩
  | cons r rs ih =>
    obtain ⟨hanswer, hafter⟩ := h.serve r
    obtain ⟨hanswers, hend⟩ := ih hafter
    exact ⟨by rw [Mila.serveAll, Mila.serveAll, hanswer, hanswers], hend⟩

end Lexer.Represents

theorem Lexer.represents_ofInput (input : Input) : (ofInput input).Represents ⟨[], input.nthToken, false⟩ where
  queue := rfl
  rest := by
    funext k
    change _ = (Cursor.ofInput input).stream.nth k
    rw [Cursor.stream_ofInput]
    rfl
  finished := rfl

/-! ## 5. The way of the tokens -/

namespace TokenQueue

/-- The tokens that were given out and those in the queue are, in their order, the first tokens of `S` and the ones
that were handed back, each of which is there once. The other tokens of `S` come behind the queue. -/
def Accounts (S : Nat → Token) (handed given : List Token) (q : TokenQueue) : Prop :=
  ∃ (n : Nat) (entries : List (Token ⊕ Token)), entries.map (Sum.elim id id) = given ++ q.queue ∧
    entries.filterMap Sum.getLeft? = (List.range n).map S ∧ entries.filterMap Sum.getRight? = handed ∧
    q.rest = fun k => S (n + k)

namespace Accounts

variable {S : Nat → Token} {handed given : List Token} {q : TokenQueue}

/-- A token of `S` comes in, and is given out or queued. -/
theorem draw (h : Accounts S handed given q) {given' : List Token} {q' : TokenQueue}
    (hplace : given' ++ q'.queue = given ++ q.queue ++ [q.rest 0]) (hrest : q'.rest = fun k => q.rest (k + 1)) :
    Accounts S handed given' q' := by
  obtain ⟨n, entries, htokens, hscanned, hhanded, hahead⟩ := h
  refine ⟨n + 1, entries ++ [.inl (q.rest 0)], ?_, ?_, ?_, ?_⟩
  · rw [List.map_append, htokens, hplace]
    rfl
  · rw [List.filterMap_append, hscanned, List.range_succ, List.map_append, hahead]
    rfl
  · rw [List.filterMap_append, hhanded]
    exact List.append_nil _
  · funext k
    rw [hrest, hahead]
    exact congrArg S (by omega)

theorem next (h : Accounts S handed given q) : Accounts S handed (given ++ [q.next.1]) q.next.2 := by
  unfold TokenQueue.next
  split
  · next t queue hqueue =>
    obtain ⟨n, entries, htokens, hothers⟩ := h
    refine ⟨n, entries, ?_, hothers⟩
    rw [htokens, hqueue, List.append_assoc]
    rfl
  · next hqueue =>
    refine h.draw ?_ rfl
    rw [hqueue, List.append_nil, List.append_nil]

theorem peek (h : Accounts S handed given q) : Accounts S handed given q.peek.2 := by
  unfold TokenQueue.peek
  split
  · exact h
  · next hqueue =>
    refine h.draw ?_ rfl
    rw [hqueue, List.append_nil]

theorem pushBack (h : Accounts S handed given q) (t : Token) : Accounts S (handed ++ [t]) given (q.pushBack t) := by
  obtain ⟨n, entries, htokens, hscanned, hhanded, hahead⟩ := h
  refine ⟨n, entries ++ [.inr t], ?_, ?_, ?_, hahead⟩
  · rw [List.map_append, htokens, List.append_assoc]
    rfl
  · rw [List.filterMap_append, hscanned]
    exact List.append_nil _
  · rw [List.filterMap_append, hhanded]
    rfl

theorem serve (h : Accounts S handed given q) (r : Lexer.Request) :
    Accounts S (handed ++ r.handed?.toList) (given ++ (q.serve r).1.given?.toList) (q.serve r).2 := by
  have hnone : Accounts S (handed ++ []) (given ++ []) q := by rwa [List.append_nil, List.append_nil]
  cases r with
  | next =>
    have hnext := h.next
    rw [← List.append_nil handed] at hnext
    exact hnext
  | peek =>
    have hpeek := h.peek
    rw [← List.append_nil handed, ← List.append_nil given] at hpeek
    exact hpeek
  | pushBack t =>
    have hpush := h.pushBack t
    rw [← List.append_nil given] at hpush
    exact hpush
  | atEnd => exact hnone
  | iterate =>
    change Accounts S _ (given ++ q.iterate.1.toList) q.iterate.2
    unfold TokenQueue.iterate
    split
    · exact hnone
    · have hnext := h.next
      rw [← List.append_nil handed] at hnext
      exact hnext

theorem serveAll (h : Accounts S handed given q) (rs : List Lexer.Request) :
    Accounts S (handed ++ rs.filterMap Lexer.Request.handed?)
      (given ++ (Mila.serveAll TokenQueue.serve q rs).1.filterMap Lexer.Answer.given?)
      (Mila.serveAll TokenQueue.serve q rs).2 := by
  induction rs generalizing handed given q with
  | nil =>
    rw [List.filterMap_nil, List.append_nil]
    exact (List.append_nil given).symm ▸ h
  | cons r rs ih =>
    have hrest := ih (h.serve r)
    have hcons : ∀ {α β : Type} (f : α → Option β) (a : α) (l : List α),
        (a :: l).filterMap f = (f a).toList ++ l.filterMap f := by
      intro α β f a l
      rw [List.filterMap_cons]
      cases f a <;> rfl
    rw [Mila.serveAll, hcons, hcons, ← List.append_assoc, ← List.append_assoc]
    exact hrest

end Accounts

end TokenQueue

/-- Whatever is asked of a lexer, and in whichever order, it answers as a queue in front of the tokens of its input.
So each token of the input is given out once, as it is, behind those that were in the queue before it; and the tokens
that come next are the ones behind the last token that was scanned. -/
theorem Lexer.serveAll_ofInput (input : Input) (requests : List Lexer.Request) :
    (serveAll serve (ofInput input) requests).1 =
      (serveAll TokenQueue.serve ⟨[], input.nthToken, false⟩ requests).1 ∧
    ∃ (n : Nat) (entries : List (Token ⊕ Token)),
      entries.map (Sum.elim id id) = (serveAll serve (ofInput input) requests).1.filterMap Lexer.Answer.given? ++
        (serveAll serve (ofInput input) requests).2.queue ∧
      entries.filterMap Sum.getLeft? = (List.range n).map input.nthToken ∧
      entries.filterMap Sum.getRight? = requests.filterMap Lexer.Request.handed? ∧
      ∀ k, (serveAll serve (ofInput input) requests).2.cursor.stream.nth k = input.nthToken (n + k) := by
  obtain ⟨hanswers, hend⟩ := (represents_ofInput input).serveAll requests
  have hstart : TokenQueue.Accounts input.nthToken [] [] ⟨[], input.nthToken, false⟩ :=
    ⟨0, [], rfl, rfl, rfl, funext fun k => congrArg input.nthToken (Nat.zero_add k).symm⟩
  obtain ⟨n, entries, htokens, hscanned, hhanded, hahead⟩ := hstart.serveAll requests
  rw [hanswers, hend.queue] at htokens
  refine ⟨hanswers.symm, n, entries, htokens, hscanned, hhanded, fun k => ?_⟩
  rw [← hend.rest, hahead]

end Mila
