/-! # Source input

Source text arrives from a reader one byte at a time. A reader may be interrupted, in which case the
read is simply made again; it may fail; and it may report the end of its data. Whatever a reader would
deliver after its first failure or its first report of the end is never looked at.
-/

namespace Mila

/-- Why a read failed. -/
inductive ReadFailure where
  | other
  | notFound
  | permissionDenied
  | brokenPipe
  | timedOut
  | invalidData
  | unexpectedEof
  | connectionReset
  | wouldBlock
  | invalidInput
  | alreadyExists
  deriving DecidableEq, Repr

namespace ReadFailure

def label : ReadFailure → String
  | other => "Other"
  | notFound => "NotFound"
  | permissionDenied => "PermissionDenied"
  | brokenPipe => "BrokenPipe"
  | timedOut => "TimedOut"
  | invalidData => "InvalidData"
  | unexpectedEof => "UnexpectedEof"
  | connectionReset => "ConnectionReset"
  | wouldBlock => "WouldBlock"
  | invalidInput => "InvalidInput"
  | alreadyExists => "AlreadyExists"

def message : ReadFailure → String
  | other => "other error"
  | notFound => "entity not found"
  | permissionDenied => "permission denied"
  | brokenPipe => "broken pipe"
  | timedOut => "timed out"
  | invalidData => "invalid data"
  | unexpectedEof => "unexpected end of file"
  | connectionReset => "connection reset"
  | wouldBlock => "operation would block"
  | invalidInput => "invalid input parameter"
  | alreadyExists => "entity already exists"

end ReadFailure

/-- The outcome of one read. -/
inductive Event where
  | byte (value : UInt8)
  | interrupted
  | failure (reason : ReadFailure)
  | finished
  deriving DecidableEq, Repr

/-- What a reader will deliver, in order. A reader that has run out of events reports the end. -/
abbrev Input := List Event

/-- What is found at the front of an input, interruptions aside. -/
inductive Arrival where
  | byte (value : UInt8) (rest : Input)
  | failure (reason : ReadFailure)
  | finished

namespace Input

def ofBytes (bytes : List UInt8) : Input := bytes.map .byte

def ofString (s : String) : Input := ofBytes s.toUTF8.data.toList

def next : Input → Arrival
  | [] => .finished
  | .byte value :: rest => .byte value rest
  | .interrupted :: rest => next rest
  | .failure reason :: _ => .failure reason
  | .finished :: _ => .finished

/-- Whether the next byte exists and satisfies `p`. -/
def startsWith (p : UInt8 → Bool) (input : Input) : Bool :=
  match input.next with
  | .byte value _ => p value
  | _ => false

/-- Takes bytes for as long as they satisfy `p`, and at most `limit` of them. -/
def takeUpTo (p : UInt8 → Bool) : Nat → Input → List UInt8 × Input
  | limit + 1, .byte value :: rest =>
    if p value then
      let (taken, left) := takeUpTo p limit rest
      (value :: taken, left)
    else ([], .byte value :: rest)
  | limit + 1, .interrupted :: rest => takeUpTo p (limit + 1) rest
  | _, input => ([], input)

/-- The longest run of bytes that satisfy `p`, and what follows it. -/
def takeWhile (p : UInt8 → Bool) : Input → List UInt8 × Input
  | .byte value :: rest =>
    if p value then
      let (taken, left) := takeWhile p rest
      (value :: taken, left)
    else ([], .byte value :: rest)
  | .interrupted :: rest => takeWhile p rest
  | input => ([], input)

/-- The bytes delivered before the input ends or fails. -/
def bytes : Input → List UInt8
  | .byte value :: rest => value :: bytes rest
  | .interrupted :: rest => bytes rest
  | _ => []

/-- The failure that ends the input, if it is not simply finished. -/
def ending : Input → Option ReadFailure
  | .byte _ :: rest => ending rest
  | .interrupted :: rest => ending rest
  | .failure reason :: _ => some reason
  | _ => none

/-! ## Taking bytes never lengthens an input -/

theorem length_lt_of_next_eq_byte {input rest : Input} {value : UInt8}
    (h : input.next = .byte value rest) : rest.length < input.length := by
  induction input with
  | nil => simp [next] at h
  | cons event events ih =>
    cases event with
    | byte v =>
      simp only [next, Arrival.byte.injEq] at h
      simp [h.2]
    | interrupted =>
      have := ih (by simpa [next] using h)
      simp only [List.length_cons]
      omega
    | failure reason => simp [next] at h
    | finished => simp [next] at h

theorem length_pos_of_next_eq_failure {input : Input} {reason : ReadFailure}
    (h : input.next = .failure reason) : 0 < input.length := by
  cases input with
  | nil => simp [next] at h
  | cons event events => simp

theorem length_takeUpTo_le (p : UInt8 → Bool) (limit : Nat) (input : Input) :
    (takeUpTo p limit input).2.length ≤ input.length := by
  fun_induction takeUpTo p limit input <;> grind

theorem length_takeWhile_le (p : UInt8 → Bool) (input : Input) :
    (takeWhile p input).2.length ≤ input.length := by
  fun_induction takeWhile p input <;> grind

end Input

end Mila
