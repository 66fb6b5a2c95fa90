import Mila.Proofs.Tiling

/-! # Tokens as they are asked for

A lexer gives one token for each call, and reads no more events than it needs. What it gives are the tokens of the
bytes that arrive before the input ends, whatever interruptions there are on the way; a failure is reported once
behind them, and then there is only the end of input.
-/

namespace Mila

/-! ## 1. Call by call -/

namespace Lexer

/-- The lexer after a number of calls. -/
def after (l : Lexer) : Nat → Lexer
  | 0 => l
  | calls + 1 => l.next.2.after calls

/-- The token that a call gives, by how many calls came before it. -/
def nth (l : Lexer) (calls : Nat) : Token := (l.after calls).next.1

end Lexer

/-- A byte would be scanned as another token than the end of input, and so would a failure. -/
theorem Cursor.next_of_eof {c : Cursor} (h : c.token.1.kind = .eof) : c.skipBlanks.input.next = .finished := by
  have hscan : (scan c.skipBlanks.input).kind = .eof := h
  rcases c.skipBlanks.input.next_cases with ⟨v, rest, hnext, hbytes, -⟩ | ⟨reason, hnext, -⟩ | ⟨hnext, -⟩
  · exact absurd hscan (scan_ne_eof (by rw [hbytes]; exact List.cons_ne_nil _ _))
  · unfold scan at hscan
    rw [hnext] at hscan
    cases hscan
  · exact hnext

/-- Behind the end of input there is nothing but the end of input at the same place. -/
theorem Cursor.stream_of_eof {c : Cursor} (h : c.token.1.kind = .eof) : c.token.2.stream = c.stream := by
  have hnext := next_of_eof h
  have htoken : c.token = (⟨.eof, c.skipBlanks.position, 0⟩, c.skipBlanks) := by
    unfold token scan
    dsimp only
    rw [hnext]
    rfl
  obtain ⟨hbytes, hending⟩ : c.skipBlanks.input.bytes = [] ∧ c.skipBlanks.input.ending = none := by
    rcases c.skipBlanks.input.next_cases with ⟨v, rest, hbyte, -⟩ | ⟨reason, hfailure, -⟩ | ⟨-, hbytes, hending⟩
    · cases hnext.symm.trans hbyte
    · cases hnext.symm.trans hfailure
    · exact ⟨hbytes, hending⟩
  have hblanks := stream_of_blanks c.skipBlanks.position fun b hb => by
    rw [hbytes] at hb
    cases hb
  rw [hbytes, hending] at hblanks
  rw [htoken, hblanks, stream, htoken, if_pos rfl]
  rfl

namespace Lexer

/-- The calls give the tokens of the stream one after the other, and the end of input from then on. -/
theorem nth_eq (c : Cursor) (finished : Bool) (calls : Nat) :
    (Lexer.mk c [] finished).nth calls = c.stream.pending[calls]?.getD c.stream.eof := by
  induction calls generalizing c with
  | zero =>
    rw [Cursor.stream]
    split
    · next heof =>
      change c.token.1 = ⟨.eof, c.token.1.span⟩
      rw [← heof]
    · rfl
  | succ calls ih =>
    -- the first call takes a token off the stream, unless that was the end of input
    refine (ih c.token.2).trans ?_
    by_cases heof : c.token.1.kind = .eof
    · have hpending : c.stream.pending = [] := by rw [Cursor.stream, if_pos heof]
      rw [Cursor.stream_of_eof heof, hpending]
      rfl
    · have hstream : c.stream = .cons c.token.1 c.token.2.stream := by rw [Cursor.stream, if_neg heof]
      rw [hstream]
      rfl

end Lexer

/-! ## 2. Inputs that end -/

/-- The event that ends an input: a failure, or the report that there is no more data. -/
def Event.ending : Option ReadFailure → Event
  | some reason => .failure reason
  | none => .finished

namespace Input

end Input

/-- The tokens of an input are those of its bytes, and the report of the failure that ended it. -/
theorem Cursor.stream_ofInput (input : Input) : (ofInput input).stream =
    ⟨(streamOf input.bytes).pending ++ (input.ending.map (ReadFailure.report input.bytes.length)).toList,
      ⟨input.bytes.length, 0⟩⟩ := by
  obtain ⟨tokens, h⟩ := exists_tiled 0 input.bytes
  have hstream := h.stream_eq rfl
  rw [Nat.zero_add] at hstream
  rw [h.streamOf_eq]
  exact hstream

end Mila
