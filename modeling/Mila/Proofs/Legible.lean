import Mila.Code.Listing
import Mila.Proofs.Blocks
import Mila.Proofs.Cutting

/-! # Listings that can be read

A listing names the routines that are called by their names and blocks by their labels and numbers, and it does not
say how many registers a routine has. All the same there is only one code that it can be the listing of, as long as
names and labels are written with letters and digits, different routines have different names, references stay
within their routines, and registers are numbered as they are defined.
-/

namespace Mila

/-! ## 1. Routines that can be read -/

/-- How many registers the instructions of a block define. -/
def Block.definitions (b : Block) : Nat := b.body.toList.countP (·.target?.isSome)

/-- A routine with a name, parameters and labels that can be told from what stands around them. Every register is
defined by an instruction. -/
structure Routine.Plain (r : Routine) : Prop where
  name : PlainName r.name
  params : ∀ param ∈ r.params, PlainName param
  labels : ∀ b ∈ r.blocks, ∀ c ∈ b.label.toList, isLabelChar c = true
  registers : r.registers = (r.blocks.toList.map Block.definitions).sum

/-- Code that can be read off its listing. -/
structure Code.Legible (C : Code) : Prop where
  names : ∀ (g h : Nat) (r r' : Routine), C.routines[g]? = some r → C.routines[h]? = some r' →
    r.name = r'.name → g = h
  plain : ∀ (g : Nat) (r : Routine), C.routines[g]? = some r → r.Plain
  refers : ∀ (g : Nat) (r : Routine), C.routines[g]? = some r → ∀ b ∈ r.blocks,
    b.Refers C.routines.size g r.blocks.size

/-! ## 2. Instructions -/

/-- A number behind a point is what stands behind the last point. -/
theorem eq_of_behind_point {m n : Nat} {x y : List Char}
    (h : x ++ '.' :: (toString m).toList = y ++ '.' :: (toString n).toList) : m = n := by
  have hreverse := congrArg List.reverse h
  rw [List.reverse_append, List.reverse_append, List.reverse_cons, List.reverse_cons, List.append_assoc,
    List.append_assoc] at hreverse
  have hdigits := ((Cuts.run (p := Char.isDigit) (fun c hc => isDigit_of_mem_number (List.mem_reverse.mp hc))
    fun c hc => isDigit_of_mem_number (List.mem_reverse.mp hc)) _ _ (stops_cons (by decide) _)
    (stops_cons (by decide) _) hreverse).1
  exact Nat.repr_injective (String.toList_inj.mp (List.reverse_injective hdigits))

/-- The label that a block is written with. -/
def Routine.labelOf (r : Routine) (block : Nat) : String := (r.blocks[block]?.map Block.label).getD ""

theorem Routine.blockText_eq (r : Routine) (place : BlockRef) :
    r.blockText place = r.labelOf place.block ++ "." ++ toString place.block := by
  unfold blockText labelOf
  cases r.blocks[place.block]? with
  | none => rfl
  | some b => rfl

section

variable {r : Routine} (hr : r.Plain)

include hr

theorem Routine.Plain.isLabelChar_labelOf (n : Nat) : ∀ c ∈ (r.labelOf n).toList, isLabelChar c = true := by
  unfold labelOf
  cases h : r.blocks[n]? with
  | none => exact fun c hc => by cases hc
  | some b => exact hr.labels b (Array.mem_of_getElem? h)

theorem Routine.Plain.isLabelChar_blockText (place : BlockRef) :
    ∀ c ∈ (r.blockText place).toList, isLabelChar c = true := by
  intro c hc
  rw [r.blockText_eq, String.toList_append, String.toList_append, List.mem_append, List.mem_append] at hc
  rcases hc with (hc | hc) | hc
  · exact hr.isLabelChar_labelOf _ c hc
  · rw [List.mem_singleton.mp hc]
    rfl
  · exact isLabelChar_of_isNameChar (isNameChar_of_isDigit (isDigit_of_mem_number hc))

/-- Blocks are told by their numbers. -/
theorem Routine.Plain.cuts_block {a b : BlockRef} (h : a.routine = b.routine) :
    Cuts (a = b) (Stops isLabelChar) (r.blockText a).toList (r.blockText b).toList := by
  refine (Cuts.run (hr.isLabelChar_blockText a) (hr.isLabelChar_blockText b)).imp fun heq => ?_
  rw [r.blockText_eq, r.blockText_eq, String.toList_append, String.toList_append, String.toList_append,
    String.toList_append, List.append_assoc, List.append_assoc] at heq
  rcases a with ⟨g, m⟩
  rcases b with ⟨g', n⟩
  exact congrArg₂ BlockRef.mk h (eq_of_behind_point heq)

end

/-- What the text of an operation starts with. -/
inductive Operation.Form where
  | const | param | alloca | offset | load | compare | call | intrinsic | phi
  | arith (op : Arithmetic)
  deriving DecidableEq

namespace Operation

def form : Operation → Form
  | const _ => .const
  | param _ => .param
  | alloca _ => .alloca
  | offset _ _ => .offset
  | load _ => .load
  | arith op _ _ => .arith op
  | compare _ _ _ => .compare
  | call _ _ => .call
  | intrinsic _ _ => .intrinsic
  | phi _ => .phi

def Form.word : Form → String
  | const => "const"
  | param => "param"
  | alloca => "alloca"
  | offset => "offset"
  | load => "load"
  | compare => "cmp"
  | call => "call"
  | intrinsic => "intrinsic"
  | phi => "phi"
  | arith op => op.mnemonic

def Form.all : List Form := [.const, .param, .alloca, .offset, .load, .compare, .call, .intrinsic, .phi, .arith .add,
  .arith .sub, .arith .mul, .arith .div, .arith .rem, .arith .and, .arith .or]

/-- No two forms start with the same word. -/
theorem Form.word_injective : Function.Injective Form.word := by
  have hfind : ∀ f : Form, Form.all.find? (·.word == f.word) = some f := by
    intro f
    cases f with
    | arith op => cases op <;> decide
    | _ => decide
  intro a b h
  have ha := hfind a
  rw [h, hfind b] at ha
  exact (Option.some.inj ha).symm

theorem Form.cuts (a b : Form) : Cuts (a = b) (Stops (· != ' ')) a.word.toList b.word.toList := by
  refine cuts_word word_injective (fun f => ?_) a b
  cases f with
  | arith op => cases op <;> decide
  | _ => decide

end Operation

namespace Code

/-- What follows the first word in the text of an operation. -/
def operandsText (C : Code) (r : Routine) : Operation → String
  | .const value => toString value.toInt
  | .param index => toString index
  | .alloca count => toString count
  | .offset base distance => base.text ++ ", " ++ distance.text
  | .load address => address.text
  | .arith _ lhs rhs => lhs.text ++ ", " ++ rhs.text
  | .compare op lhs rhs => op.mnemonic ++ " " ++ (lhs.text ++ ", " ++ rhs.text)
  | .call callee args => C.routineText callee ++ "(" ++ (", ".intercalate (args.map Register.text) ++ ")")
  | .intrinsic which address => which.text ++ "(" ++ (address.text ++ ")")
  | .phi incoming => ", ".intercalate
      (incoming.map fun (value, origin) => "[" ++ value.text ++ ", " ++ r.blockText origin ++ "]")

theorem operationText_eq (C : Code) (r : Routine) (op : Operation) :
    C.operationText r op = op.form.word ++ (" " ++ C.operandsText r op) := by
  cases op with
  | arith a x y => simp only [operationText, operandsText, Operation.form, Operation.Form.word, String.append_assoc]
  | _ => simp only [operationText, operandsText, Operation.form, Operation.Form.word, String.append_assoc]; rfl

end Code

theorem Comparison.cuts_mnemonic (a b : Comparison) :
    Cuts (a = b) (Stops (· != ' ')) a.mnemonic.toList b.mnemonic.toList := by
  refine cuts_word (f := Comparison.mnemonic) (fun a b => ?_) (fun a => ?_) a b
  · cases a <;> cases b <;> decide
  · cases a <;> decide

theorem Intrinsic.cuts_text (a b : Intrinsic) : Cuts (a = b) (Stops (· != '(')) a.text.toList b.text.toList := by
  refine cuts_word (f := Intrinsic.text) (fun a b => ?_) (fun a => ?_) a b
  · cases a <;> cases b <;> decide
  · cases a <;> decide

theorem toList_around (a z b : String) : (a ++ z ++ b).toList = a.toList ++ (z.toList ++ b.toList) := by
  rw [String.toList_append, String.toList_append, List.append_assoc]

theorem cuts_registers (a b a' b' : Register) : Cuts (a = a' ∧ b = b') (Stops Char.isDigit)
    (a.text ++ ", " ++ b.text).toList (a'.text ++ ", " ++ b'.text).toList := by
  rw [toList_around, toList_around]
  exact (cuts_register a a').around (by decide) [' '] fun _ => cuts_register b b'

/-- What comes in front of a closing parenthesis. -/
def Closes (s : List Char) : Prop := s.head? = some ')'

variable {p : Char → Bool} {s : String} {ls : List String}

theorem Closes.stops {s : List Char} (h : Closes s) (hp : p ')' = false) : Stops p s ∧ s.head? ≠ some ',' := by
  refine ⟨fun c hc => ?_, fun hc => ?_⟩
  · rw [← Option.some.inj (h.symm.trans hc)]
    exact hp
  · cases h.symm.trans hc

theorem cuts_arguments (as bs : List Register) : Cuts (as = bs) Closes
    (", ".intercalate (as.map Register.text)).toList (", ".intercalate (bs.map Register.text)).toList := by
  have hstart : ∀ (a : Register) (s : List Char), ¬ Closes (a.text.toList ++ s) := by
    intro a s hs
    rw [Register.text, String.toList_append] at hs
    cases hs
  rw [String.toList_intercalate, String.toList_intercalate, List.map_map, List.map_map]
  exact Cuts.intercalate (fun a _ b _ => cuts_register a b) (by decide) (fun s hs => hs.stops (by decide))
    (fun a _ => hstart a) fun b _ => hstart b

theorem Routine.Plain.cuts_origin {r : Routine} (hr : r.Plain) {a b : Register × BlockRef}
    (h : a.2.routine = b.2.routine) : Cuts (a = b) (Stops fun _ => false)
      ("[" ++ a.1.text ++ ", " ++ r.blockText a.2 ++ "]").toList
      ("[" ++ b.1.text ++ ", " ++ r.blockText b.2 ++ "]").toList := by
  simp only [String.toList_append, List.append_assoc]
  have hblock := (hr.cuts_block h).before (F := Stops fun _ => false) [']'] fun s => stops_cons (by decide) s
  exact (((cuts_register a.1 b.1).around (c := ',') (by decide) [' '] fun _ => hblock).behind ['[']).imp fun heq =>
    Prod.ext heq.1 heq.2

theorem Routine.Plain.cuts_origins {r : Routine} (hr : r.Plain) {as bs : List (Register × BlockRef)}
    (h : ∀ a ∈ as, ∀ b ∈ bs, a.2.routine = b.2.routine) : Cuts (as = bs) (· = [])
      (", ".intercalate (as.map fun (value, origin) =>
        "[" ++ value.text ++ ", " ++ r.blockText origin ++ "]")).toList
      (", ".intercalate (bs.map fun (value, origin) =>
        "[" ++ value.text ++ ", " ++ r.blockText origin ++ "]")).toList := by
  have hstart : ∀ (a : Register × BlockRef) (s : List Char),
      ("[" ++ a.1.text ++ ", " ++ r.blockText a.2 ++ "]").toList ++ s ≠ [] := by
    intro a s heq
    simp only [String.toList_append, List.append_assoc] at heq
    cases heq
  rw [String.toList_intercalate, String.toList_intercalate, List.map_map, List.map_map]
  refine Cuts.intercalate (fun a ha b hb => hr.cuts_origin (h a ha b hb)) rfl (fun s hs => ⟨fun c _ => rfl, ?_⟩)
    (fun a _ => hstart a) fun b _ => hstart b
  rw [hs]
  exact Option.some_ne_none _ ∘ Eq.symm

namespace Code

section

variable {C : Code} {g m n : Nat} {r : Routine} (hC : C.Legible) (hr : r.Plain)

include hC in
theorem Legible.isNameChar_routineText (callee : Nat) : ∀ c ∈ (C.routineText callee).toList, isNameChar c = true := by
  unfold routineText
  cases h : C.routines[callee]? with
  | none => exact fun c hc => by cases hc
  | some r => exact (hC.plain callee r h).name.plain

variable {f f' : Nat} {a a' : Register} {op op' : Operation}

include hC in
theorem Legible.routineText_inj (hf : f < C.routines.size) (hf' : f' < C.routines.size)
    (h : C.routineText f = C.routineText f') : f = f' := by
  have hfound := Array.getElem?_eq_getElem hf
  have hfound' := Array.getElem?_eq_getElem hf'
  unfold routineText at h
  rw [hfound, hfound'] at h
  exact hC.names f f' _ _ hfound hfound' h

theorem compareText_inj {x x' : Comparison} {b b' : Register}
    (h : C.operandsText r (.compare x a b) = C.operandsText r (.compare x' a' b')) : x = x' ∧ a = a' ∧ b = b' := by
  have htext := congrArg String.toList h
  rw [operandsText, operandsText, toList_around x.mnemonic, toList_around x'.mnemonic] at htext
  have hcut := (x.cuts_mnemonic x').around (c := ' ') (by decide) [] fun _ => cuts_registers a b a' b'
  exact hcut.whole (stops_nil _) htext

include hC in
theorem Legible.callText_inj (hf : f < C.routines.size) (hf' : f' < C.routines.size)
    {as as' : List Register} (h : C.operandsText r (.call f as) = C.operandsText r (.call f' as')) :
    f = f' ∧ as = as' := by
  have htext := congrArg String.toList h
  rw [operandsText, operandsText, toList_around, toList_around, String.toList_append, String.toList_append] at htext
  have hargs := (cuts_arguments as as').before (F := fun _ => True) [')'] fun s => rfl
  have hcut := (cuts_name (hC.isNameChar_routineText f) (hC.isNameChar_routineText f')).around (c := '(')
    (by decide) [] fun _ => hargs
  obtain ⟨hname, hsame⟩ := hcut.whole trivial htext
  exact ⟨hC.routineText_inj hf hf' hname, hsame⟩

theorem intrinsicText_inj {w w' : Intrinsic}
    (h : C.operandsText r (.intrinsic w a) = C.operandsText r (.intrinsic w' a')) : w = w' ∧ a = a' := by
  have htext := congrArg String.toList h
  rw [operandsText, operandsText, toList_around, toList_around, String.toList_append, String.toList_append] at htext
  have haddress := (cuts_register a a').before (F := fun _ => True) [')'] fun s => stops_cons (by decide) s
  have hcut := (w.cuts_text w').around (c := '(') (by decide) [] fun _ => haddress
  exact hcut.whole trivial htext

include hC hr in
/-- Behind the first word, operations of one form are told by their operands. -/
theorem Legible.operandsText_inj (hform : op.form = op'.form)
    (hop : op.Refers C.routines.size g m) (hop' : op'.Refers C.routines.size g n)
    (h : C.operandsText r op = C.operandsText r op') : op = op' := by
  have htext := congrArg String.toList h
  -- the form is the same, so that only the operation of the same constructor is left on the right
  cases op with
  | const v =>
    cases op' with
    | const v' => exact congrArg Operation.const (Int32.toInt_inj.mp (Int.repr_injective h))
    | _ => cases hform
  | param n =>
    cases op' with
    | param n' => exact congrArg Operation.param (Nat.repr_injective h)
    | _ => cases hform
  | alloca n =>
    cases op' with
    | alloca n' => exact congrArg Operation.alloca (Nat.repr_injective h)
    | _ => cases hform
  | offset a b =>
    cases op' with
    | offset a' b' =>
      obtain ⟨rfl, rfl⟩ := (cuts_registers a b a' b').whole (stops_nil _) htext
      rfl
    | _ => cases hform
  | load a =>
    cases op' with
    | load a' => exact congrArg Operation.load ((cuts_register a a').whole (stops_nil _) htext)
    | _ => cases hform
  | arith x a b =>
    cases op' with
    | arith x' a' b' =>
      obtain ⟨rfl, rfl⟩ := (cuts_registers a b a' b').whole (stops_nil _) htext
      rw [Operation.Form.arith.inj hform]
    | _ => cases hform
  | compare x a b =>
    cases op' with
    | compare x' a' b' =>
      obtain ⟨rfl, rfl, rfl⟩ := compareText_inj h
      rfl
    | _ => cases hform
  | call f as =>
    cases op' with
    | call f' as' =>
      obtain ⟨rfl, rfl⟩ := hC.callText_inj (hop.callees f (List.mem_singleton_self f))
        (hop'.callees f' (List.mem_singleton_self f')) h
      rfl
    | _ => cases hform
  | intrinsic w a =>
    cases op' with
    | intrinsic w' a' =>
      obtain ⟨rfl, rfl⟩ := intrinsicText_inj h
      rfl
    | _ => cases hform
  | phi l =>
    cases op' with
    | phi l' =>
      -- a block is written without its routine: all the blocks are known to be in the same one
      refine congrArg Operation.phi ((hr.cuts_origins fun a ha b hb => ?_).whole rfl htext)
      exact (hop.sources _ (List.mem_map_of_mem ha)).1.trans (hop'.sources _ (List.mem_map_of_mem hb)).1.symm
    | _ => cases hform

include hC hr in
theorem Legible.operationText_inj (hop : op.Refers C.routines.size g m)
    (hop' : op'.Refers C.routines.size g n) (h : C.operationText r op = C.operationText r op') : op = op' := by
  rw [operationText_eq, operationText_eq, ← String.append_assoc, ← String.append_assoc] at h
  have htext := congrArg String.toList h
  rw [toList_around, toList_around] at htext
  have hcut := (op.form.cuts op'.form).around (c := ' ') (by decide) [] fun hform =>
    Cuts.ofEq fun heq => hC.operandsText_inj hr hform hop hop' (String.toList_inj.mp heq)
  exact (hcut.whole rfl htext).2

theorem instructionText_store (value address : Register) :
    C.instructionText r (.store value address) = "store " ++ (value.text ++ ", " ++ address.text) := by
  rw [instructionText, String.append_assoc, String.append_assoc, String.append_assoc]

/-- A store starts with a word, and not with a register. -/
theorem instructionText_define_ne (target : Register) (op : Operation) (value address : Register) :
    C.instructionText r (.define target op) ≠ C.instructionText r (.store value address) := by
  intro h
  have htext := congrArg String.toList h
  rw [instructionText_store, instructionText, toList_around, Register.text, String.toList_append,
    String.toList_append] at htext
  exact absurd (show some '%' = some 's' from congrArg List.head? htext) (by decide)

include hC hr in
theorem Legible.instructionText_inj {i i' : Instruction}
    (hi : ∀ target op, i = .define target op → op.Refers C.routines.size g m)
    (hi' : ∀ target op, i' = .define target op → op.Refers C.routines.size g n)
    (h : C.instructionText r i = C.instructionText r i') : i = i' := by
  cases i with
  | define target op =>
    cases i' with
    | define target' op' =>
      have htext := congrArg String.toList h
      rw [instructionText, instructionText, toList_around, toList_around] at htext
      have hcut := (cuts_register target target').around (c := ' ') (by decide) ['=', ' '] fun _ =>
        Cuts.ofEq fun heq => hC.operationText_inj hr (hi _ _ rfl) (hi' _ _ rfl) (String.toList_inj.mp heq)
      obtain ⟨rfl, rfl⟩ := hcut.whole rfl htext
      rfl
    | store value' address' => exact absurd h (instructionText_define_ne _ _ _ _)
  | store value address =>
    cases i' with
    | define target' op' => exact absurd h.symm (instructionText_define_ne _ _ _ _)
    | store value' address' =>
      rw [instructionText_store, instructionText_store, String.append_right_inj] at h
      have hcut := cuts_registers value address value' address'
      obtain ⟨rfl, rfl⟩ := hcut.whole (stops_nil _) (congrArg String.toList h)
      rfl

end

end Code

/-! ## 3. Exits -/

inductive Exit.Form where
  | jump | branch | ret
  deriving DecidableEq

namespace Exit

def form : Exit → Form
  | jump _ => .jump
  | branch _ _ _ => .branch
  | ret _ => .ret

/-- What the text of an exit starts with, or of a block without one. -/
def Form.letter : Option Form → Char
  | some .jump => 'j'
  | some .branch => 'b'
  | some .ret => 'r'
  | none => '<'

theorem Form.letter_injective : Function.Injective Form.letter := by
  rintro (_ | _ | _) (_ | _ | _) h <;> first | rfl | exact absurd h (by decide)

end Exit

namespace Routine

theorem exitText_branch (r : Routine) (condition : Register) (thenBlock elseBlock : BlockRef) :
    r.exitText (some (.branch condition thenBlock elseBlock)) =
      "branch " ++ (condition.text ++ ", " ++ (r.blockText thenBlock ++ ", " ++ r.blockText elseBlock)) := by
  simp only [exitText, String.append_assoc]

theorem head?_exitText (r : Routine) (e : Option Exit) :
    (r.exitText e).toList.head? = some (Exit.Form.letter (e.map Exit.form)) := by
  rcases e with _ | (target | ⟨condition, thenBlock, elseBlock⟩ | value)
  · rw [exitText]
    rfl
  · rw [exitText, String.toList_append]
    rfl
  · rw [exitText_branch, String.toList_append]
    rfl
  · rw [exitText, String.toList_append]
    rfl

theorem Plain.exitText_inj {r : Routine} (hr : r.Plain) {g m n : Nat} {e e' : Option Exit}
    (he : ∀ place ∈ Code.targets e, place.routine = g ∧ place.block < m)
    (he' : ∀ place ∈ Code.targets e', place.routine = g ∧ place.block < n)
    (h : r.exitText e = r.exitText e') : e = e' := by
  -- the first letter tells the form, and also that there is no exit
  have hform : e.map Exit.form = e'.map Exit.form := by
    have hhead := r.head?_exitText e'
    rw [← h, r.head?_exitText] at hhead
    exact Exit.Form.letter_injective (Option.some.inj hhead)
  have hblock : ∀ a ∈ Code.targets e, ∀ b ∈ Code.targets e',
      Cuts (a = b) (Stops isLabelChar) (r.blockText a).toList (r.blockText b).toList :=
    fun a ha b hb => hr.cuts_block ((he a ha).1.trans (he' b hb).1.symm)
  rcases e with _ | (a | ⟨c, a, b⟩ | v)
  · rcases e' with _ | _
    · rfl
    · cases hform
  · rcases e' with _ | (a' | _ | _)
    · cases hform
    · rw [exitText, exitText, String.append_right_inj] at h
      have htarget := hblock a (List.mem_singleton_self a) a' (List.mem_singleton_self a')
      rw [htarget.whole (stops_nil _) (congrArg String.toList h)]
    all_goals cases hform
  · rcases e' with _ | (_ | ⟨c', a', b'⟩ | _)
    · cases hform
    · cases hform
    · rw [exitText_branch, exitText_branch, String.append_right_inj] at h
      have htext := congrArg String.toList h
      rw [toList_around c.text, toList_around c'.text, toList_around, toList_around] at htext
      have hthen := hblock a List.mem_cons_self a' List.mem_cons_self
      have helse := hblock b (List.mem_cons_of_mem _ List.mem_cons_self) b'
        (List.mem_cons_of_mem _ List.mem_cons_self)
      have hcut := (cuts_register c c').around (c := ',') (by decide) [' '] fun _ =>
        hthen.around (c := ',') (by decide) [' '] fun _ => helse
      obtain ⟨rfl, rfl, rfl⟩ := hcut.whole (stops_nil _) htext
      rfl
    · cases hform
  · rcases e' with _ | (_ | _ | v')
    · cases hform
    · cases hform
    · cases hform
    · rw [exitText, exitText, String.append_right_inj] at h
      rw [(cuts_register v v').whole (stops_nil _) (congrArg String.toList h)]

end Routine

/-! ## 4. Lines -/

/-- A text without line breaks. -/
def OneLine (s : String) : Prop := '\n' ∉ s.toList

instance (s : String) : Decidable (OneLine s) := inferInstanceAs (Decidable ('\n' ∉ s.toList))

theorem oneLine_append {t : String} : OneLine (s ++ t) ↔ OneLine s ∧ OneLine t := by
  unfold OneLine
  rw [String.toList_append, List.mem_append, not_or]

theorem oneLine_of_chars (hp : p '\n' = false) (h : ∀ c ∈ s.toList, p c = true) :
    OneLine s := fun hbreak => Bool.false_ne_true (hp.symm.trans (h _ hbreak))

/-- A line ends at its line break, since it has none itself. -/
theorem join_lines_inj {ls' : List String} (hls : ∀ l ∈ ls, OneLine l) (hls' : ∀ l ∈ ls', OneLine l)
    (h : String.join (ls.map (· ++ "\n")) = String.join (ls'.map (· ++ "\n"))) : ls = ls' := by
  have htext := congrArg String.toList h
  rw [String.toList_join, String.toList_join, List.flatMap_map, List.flatMap_map] at htext
  -- line breaks stand only behind the lines
  have hrun : ∀ line : String, OneLine line → ∀ c ∈ line.toList, (c != '\n') = true := by
    intro line hline c hc
    refine bne_iff_ne.mpr ?_
    rintro rfl
    exact hline hc
  have hbreak : ∀ (line : String) (s : List Char), True ∧ ¬ (line ++ "\n").toList ++ s = [] := by
    intro line s
    rw [String.toList_append, List.append_assoc]
    exact ⟨trivial, List.append_ne_nil_of_right_ne_nil _ (List.cons_ne_nil _ _)⟩
  have hcut : Cuts (ls = ls') (· = []) (ls.flatMap fun line => (line ++ "\n").toList)
      (ls'.flatMap fun line => (line ++ "\n").toList) := by
    refine Cuts.flatMap (G := fun _ => True) (fun a ha b hb => ?_) (fun _ _ => trivial) (fun a _ => hbreak a)
      fun b _ => hbreak b
    rw [String.toList_append, String.toList_append]
    exact ((Cuts.run (hrun a (hls a ha)) (hrun b (hls' b hb))).imp String.toList_inj.mp).before ['\n']
      fun s => stops_cons (by decide) s
  exact hcut.whole rfl htext

theorem oneLine_number (n : Nat) : OneLine (toString n) :=
  oneLine_of_chars (p := Char.isDigit) (by decide) fun _ => isDigit_of_mem_number

theorem oneLine_integer (i : Int) : OneLine (toString i) := by
  rw [Int.toString_eq_repr, Int.repr_eq_if]
  split
  · exact oneLine_number _
  · exact oneLine_append.mpr ⟨by decide, oneLine_number _⟩

theorem oneLine_register (r : Register) : OneLine r.text :=
  oneLine_append.mpr ⟨by decide, oneLine_number r⟩

theorem mem_intercalate {τ : Type} {sep : List τ} {ls : List (List τ)} {c : τ} (h : c ∈ sep.intercalate ls) :
    c ∈ sep ∨ ∃ l ∈ ls, c ∈ l := by
  cases ls with
  | nil => cases h
  | cons l ls =>
    rw [intercalate_cons, List.mem_append, List.mem_flatMap] at h
    rcases h with h | ⟨l', hl', h⟩
    · exact .inr ⟨l, List.mem_cons_self, h⟩
    · rcases List.mem_append.mp h with h | h
      · exact .inl h
      · exact .inr ⟨l', List.mem_cons_of_mem _ hl', h⟩

theorem oneLine_intercalate (h : ∀ l ∈ ls, OneLine l) : OneLine (", ".intercalate ls) := by
  intro hbreak
  rw [String.toList_intercalate] at hbreak
  rcases mem_intercalate hbreak with hbreak | ⟨l, hl, hbreak⟩
  · exact absurd hbreak (by decide)
  · obtain ⟨s, hs, rfl⟩ := List.mem_map.mp hl
    exact h s hs hbreak

theorem Routine.Plain.oneLine_blockText {r : Routine} (hr : r.Plain) (place : BlockRef) :
    OneLine (r.blockText place) :=
  oneLine_of_chars (by decide) (hr.isLabelChar_blockText place)

section

variable {C : Code} {r : Routine}

theorem Code.Legible.oneLine_routineText (hC : C.Legible) (callee : Nat) : OneLine (C.routineText callee) :=
  oneLine_of_chars (by decide) (hC.isNameChar_routineText callee)

theorem Code.Legible.oneLine_operationText (hC : C.Legible) (hr : r.Plain) (op : Operation) :
    OneLine (C.operationText r op) := by
  cases op with
  | arith op a b =>
    simp only [operationText, oneLine_append, oneLine_register, and_true]
    cases op <;> decide
  | compare op a b =>
    simp only [operationText, oneLine_append, oneLine_register, and_true]
    cases op <;> decide
  | intrinsic which a =>
    simp only [operationText, oneLine_append, oneLine_register, and_true]
    cases which <;> decide
  | call callee args =>
    have hargs : OneLine (", ".intercalate (args.map Register.text)) := by
      refine oneLine_intercalate fun l hl => ?_
      obtain ⟨a, -, rfl⟩ := List.mem_map.mp hl
      exact oneLine_register a
    simp only [operationText, oneLine_append, hC.oneLine_routineText callee, hargs, and_true]
    decide
  | phi incoming =>
    refine oneLine_append.mpr ⟨by decide, oneLine_intercalate fun l hl => ?_⟩
    obtain ⟨a, -, rfl⟩ := List.mem_map.mp hl
    simp only [oneLine_append, oneLine_register, hr.oneLine_blockText a.2, and_true]
    decide
  | const | param | alloca | load | offset =>
    simp only [operationText, oneLine_append, oneLine_integer, oneLine_number, oneLine_register, and_true]
    decide

theorem Code.Legible.oneLine_instructionText (hC : C.Legible) (hr : r.Plain) (i : Instruction) :
    OneLine (C.instructionText r i) := by
  cases i with
  | define target op =>
    simp only [instructionText, oneLine_append, oneLine_register, hC.oneLine_operationText hr op, and_true]
    decide
  | store value address =>
    simp only [instructionText, oneLine_append, oneLine_register, and_true]
    decide

theorem Routine.Plain.oneLine_exitText (hr : r.Plain) (e : Option Exit) : OneLine (r.exitText e) := by
  rcases e with _ | (a | ⟨c, a, b⟩ | v)
  · rw [exitText]
    decide
  · simp only [exitText, oneLine_append, hr.oneLine_blockText a, and_true]
    decide
  · simp only [exitText, oneLine_append, oneLine_register, hr.oneLine_blockText a, hr.oneLine_blockText b, and_true]
    decide
  · simp only [exitText, oneLine_append, oneLine_register, and_true]
    decide

end

/-! ## 5. Blocks -/

def isIndented (line : String) : Bool := line.toList.head? == some ' '

/-- A line that is not indented, and indented ones behind it. -/
def IsParagraph (ls : List String) : Prop :=
  ∃ first rest, ls = first :: rest ∧ isIndented first = false ∧ ∀ line ∈ rest, isIndented line = true

theorem IsParagraph.cuts {x y : List String} (hx : IsParagraph x) (hy : IsParagraph y) :
    Cuts (x = y) (Stops isIndented) x y := by
  obtain ⟨first, rest, rfl, -, hrest⟩ := hx
  obtain ⟨first', rest', rfl, -, hrest'⟩ := hy
  intro s t hs ht heq
  obtain ⟨rfl, hbehind⟩ := List.cons.inj heq
  obtain ⟨rfl, hend⟩ := Cuts.run hrest hrest' s t hs ht hbehind
  exact ⟨rfl, hend⟩

/-- Paragraphs are told apart by their first lines. -/
theorem paragraphs_inj {xs ys : List (List String)} (hxs : ∀ x ∈ xs, IsParagraph x) (hys : ∀ y ∈ ys, IsParagraph y)
    (h : xs.flatten = ys.flatten) : xs = ys := by
  have hstart : ∀ x, IsParagraph x → ∀ s, Stops isIndented (id x ++ s) ∧ id x ++ s ≠ [] := by
    rintro x ⟨first, rest, rfl, hfirst, -⟩ s
    exact ⟨stops_cons hfirst _, List.cons_ne_nil _ _⟩
  have hcut : Cuts (xs = ys) (· = []) (xs.flatMap id) (ys.flatMap id) := by
    refine Cuts.flatMap (fun x hx y hy => (hxs x hx).cuts (hys y hy)) (fun s hs => ?_)
      (fun x hx => hstart x (hxs x hx)) fun y hy => hstart y (hys y hy)
    rw [hs]
    exact stops_nil _
  rw [List.flatMap_id, List.flatMap_id] at hcut
  exact hcut.whole rfl h

section

variable {C : Code} {r : Routine}

theorem isIndented_append (line : String) : isIndented ("  " ++ line) = true := by
  unfold isIndented
  rw [String.toList_append]
  rfl

theorem Routine.Plain.isParagraph_blockLines (hr : r.Plain) {b : Block} (hb : b ∈ r.blocks) (n : Nat) :
    IsParagraph (C.blockLines r (b, n)) := by
  refine ⟨_, _, rfl, ?_, fun line hline => ?_⟩
  · unfold isIndented
    rw [String.toList_append, toList_around]
    cases hlabel : b.label.toList with
    | nil => rfl
    | cons c rest =>
      have hc := hr.labels b hb c (by rw [hlabel]; exact List.mem_cons_self)
      refine beq_eq_false_iff_ne.mpr fun hblank => ?_
      rw [Option.some.inj hblank] at hc
      exact absurd hc (by decide)
  · rcases List.mem_append.mp hline with hline | hline
    · obtain ⟨i, -, rfl⟩ := List.mem_map.mp hline
      exact isIndented_append _
    · rw [List.mem_singleton.mp hline]
      exact isIndented_append _

/-- The same texts for routines and blocks make the same text for an instruction. -/
theorem Code.instructionText_congr {D : Code} {r' : Routine} (hcallee : C.routineText = D.routineText)
    (hblock : r.blockText = r'.blockText) : C.instructionText r = D.instructionText r' := by
  funext i
  cases i with
  | define target op => cases op <;> simp only [instructionText, operationText, hcallee, hblock]
  | store value address => rfl

theorem Routine.exitText_congr {r' : Routine} (hblock : r.blockText = r'.blockText) : r.exitText = r'.exitText := by
  funext e
  rcases e with _ | (a | ⟨c, a, b⟩ | v) <;> simp only [exitText, hblock]

end

/-- Lists whose elements are written differently, if at all. -/
theorem eq_of_map_eq {α β : Type} {f : α → β} {as bs : List α} (hf : ∀ a ∈ as, ∀ b ∈ bs, f a = f b → a = b)
    (h : as.map f = bs.map f) : as = bs := by
  induction as generalizing bs with
  | nil => exact (List.map_eq_nil_iff.mp h.symm).symm
  | cons a as ih =>
    cases bs with
    | nil => cases h
    | cons b bs =>
      obtain ⟨hfirst, hrest⟩ := List.cons.inj h
      rw [hf a List.mem_cons_self b List.mem_cons_self hfirst,
        ih (fun a ha b hb => hf a (List.mem_cons_of_mem _ ha) b (List.mem_cons_of_mem _ hb)) hrest]

namespace Code

variable {C D : Code} {r r' : Routine} {g : Nat}

theorem label_of_first {label label' : String} {n : Nat}
    (h : label ++ "." ++ toString n ++ ":" = label' ++ "." ++ toString n ++ ":") : label = label' := by
  rwa [String.append_left_inj, String.append_left_inj, String.append_left_inj] at h

/-- Blocks are the same if their lines are, once callees and blocks are named alike. -/
theorem Legible.block_eq (hC : C.Legible) (hr : r.Plain) (hsize : C.routines.size = D.routines.size)
    (hcallee : C.routineText = D.routineText) (hblock : r.blockText = r'.blockText) {b b' : Block}
    {m m' : Nat} (hb : b.Refers C.routines.size g m) (hb' : b'.Refers D.routines.size g m') {n : Nat}
    (h : C.blockLines r (b, n) = D.blockLines r' (b', n)) : b = b' := by
  obtain ⟨hlabel, hlines⟩ := List.cons.inj h
  obtain ⟨hbody, hexit⟩ := List.append_inj' hlines rfl
  -- the lines on both sides are written with the names of one of them
  rw [← instructionText_congr hcallee hblock] at hbody
  rw [← Routine.exitText_congr hblock] at hexit
  rw [← hsize] at hb'
  rcases b with ⟨label, body, e⟩
  rcases b' with ⟨label', body', e'⟩
  congr 1
  · exact label_of_first hlabel
  · refine Array.toList_inj.mp (eq_of_map_eq (fun i hi i' hi' heq => ?_) hbody)
    refine hC.instructionText_inj hr (fun target op hop => hb.operations target op ?_)
      (fun target op hop => hb'.operations target op ?_) ((String.append_right_inj _).mp heq)
    · rw [← hop]
      exact Array.mem_toList_iff.mp hi
    · rw [← hop]
      exact Array.mem_toList_iff.mp hi'
  · exact hr.exitText_inj hb.targets hb'.targets ((String.append_right_inj _).mp (List.cons.inj hexit).1)

/-- The labels of the blocks are what their first lines say. -/
theorem blockText_eq_of_lines (h : ∀ n : Nat, (r.blocks[n]?.map fun b => C.blockLines r (b, n)) =
      r'.blocks[n]?.map fun b => D.blockLines r' (b, n)) : r.blockText = r'.blockText := by
  have hlabel : ∀ n, r.labelOf n = r'.labelOf n := by
    intro n
    have hlines := h n
    unfold Routine.labelOf
    cases hb : r.blocks[n]? with
    | none =>
      rw [hb] at hlines
      rw [Option.map_eq_none_iff.mp hlines.symm]
    | some b =>
      rw [hb] at hlines
      obtain ⟨b', hb', hsame⟩ := Option.map_eq_some_iff.mp hlines.symm
      rw [hb']
      exact (label_of_first (List.cons.inj hsame).1).symm
  funext place
  rw [r.blockText_eq, r'.blockText_eq, hlabel]

/-- Routines are the same if their blocks have the same lines. -/
theorem Legible.blocks_eq (hC : C.Legible) (hD : D.Legible) (hsize : C.routines.size = D.routines.size)
    (hcallee : C.routineText = D.routineText) (hr : C.routines[g]? = some r) (hr' : D.routines[g]? = some r')
    (h : ∀ n : Nat, (r.blocks[n]?.map fun b => C.blockLines r (b, n)) =
      r'.blocks[n]?.map fun b => D.blockLines r' (b, n)) : r.blocks = r'.blocks := by
  refine Array.ext_getElem? fun n => ?_
  have hlines := h n
  cases hb : r.blocks[n]? with
  | none =>
    rw [hb] at hlines
    exact (Option.map_eq_none_iff.mp hlines.symm).symm
  | some b =>
    rw [hb] at hlines
    obtain ⟨b', hb', hsame⟩ := Option.map_eq_some_iff.mp hlines.symm
    rw [hb', hC.block_eq (hC.plain g r hr) hsize hcallee (blockText_eq_of_lines h)
      (hC.refers g r hr b (Array.mem_of_getElem? hb)) (hD.refers g r' hr' b' (Array.mem_of_getElem? hb')) hsame.symm]

end Code

/-! ## 6. Routines -/

/-- A routine as it is announced. -/
def Routine.headingText (r : Routine) : String := r.name ++ "(" ++ ", ".intercalate r.params ++ ")"

theorem cuts_params {as bs : List String} (has : ∀ a ∈ as, PlainName a) (hbs : ∀ b ∈ bs, PlainName b) :
    Cuts (as = bs) Closes (", ".intercalate as).toList (", ".intercalate bs).toList := by
  have hstart : ∀ a, PlainName a → ∀ s, ¬ Closes (a.toList ++ s) := by
    intro a ha s hs
    cases hchars : a.toList with
    | nil => exact ha.nonempty (String.toList_eq_nil_iff.mp hchars)
    | cons c rest =>
      have hc := ha.plain c (by rw [hchars]; exact List.mem_cons_self)
      rw [hchars] at hs
      rw [Option.some.inj hs] at hc
      exact absurd hc (by decide)
  rw [String.toList_intercalate, String.toList_intercalate]
  exact Cuts.intercalate (fun a ha b hb => cuts_name (has a ha).plain (hbs b hb).plain) (by decide)
    (fun s hs => hs.stops (by decide)) (fun a ha => hstart a (has a ha)) fun b hb => hstart b (hbs b hb)

namespace Routine.Plain

variable {r r' : Routine} (hr : r.Plain) (hr' : r'.Plain)

include hr hr' in
theorem headingText_inj (h : r.headingText = r'.headingText) : r.name = r'.name ∧ r.params = r'.params := by
  have htext := congrArg String.toList h
  simp only [headingText, String.toList_append, List.append_assoc] at htext
  have hparams := (cuts_params hr.params hr'.params).before (F := fun _ => True) [')'] fun s => rfl
  have hcut := (cuts_name hr.name.plain hr'.name.plain).around (c := '(') (by decide) [] fun _ => hparams
  exact hcut.whole trivial htext

include hr in
theorem oneLine_headingText : OneLine r.headingText := by
  have hname : ∀ name, PlainName name → OneLine name := fun name h => oneLine_of_chars (by decide) h.plain
  simp only [headingText, oneLine_append, hname _ hr.name, true_and, and_true,
    oneLine_intercalate fun param hparam => hname _ (hr.params param hparam)]
  decide

end Routine.Plain

namespace Code

variable {C D : Code} {r r' : Routine}

/-- The lines of each block of a routine. -/
def paragraphs (C : Code) (r : Routine) : List (List String) := r.blocks.toList.zipIdx.map (C.blockLines r)

theorem routineLines_external (h : r.isExternal = true) : C.routineLines r = ["declare " ++ r.headingText] := by
  unfold routineLines
  rw [if_pos h]
  rfl

theorem routineLines_defined (h : r.isExternal = false) : C.routineLines r =
    ("define " ++ r.headingText ++ " \x7b") :: (C.paragraphs r).flatten ++ ["\x7d"] := by
  unfold routineLines
  rw [if_neg (by rw [h]; exact Bool.false_ne_true)]
  rfl

theorem getElem?_paragraphs (C : Code) (r : Routine) (n : Nat) :
    (C.paragraphs r)[n]? = r.blocks[n]?.map fun b => C.blockLines r (b, n) := by
  unfold paragraphs
  rw [List.getElem?_map, List.getElem?_zipIdx, Option.map_map, Array.getElem?_toList, Nat.zero_add]
  rfl

theorem isParagraph_of_mem (hr : r.Plain) {x : List String} (hx : x ∈ C.paragraphs r) : IsParagraph x := by
  obtain ⟨⟨b, n⟩, hb, rfl⟩ := List.mem_map.mp hx
  exact hr.isParagraph_blockLines (Array.mem_toList_iff.mp (List.fst_mem_of_mem_zipIdx hb)) n

theorem paragraphs_external (h : r.isExternal = true) : C.paragraphs r = [] := by
  unfold paragraphs
  rw [Array.toList_eq_nil_iff.mpr (Array.isEmpty_iff.mp h)]
  rfl

/-- A routine that is only declared is written with another word than one that is defined. -/
theorem declare_ne_define (s t : String) : "declare " ++ s ≠ "define " ++ t := by
  intro h
  have htext := congrArg String.toList h
  rw [String.toList_append, String.toList_append] at htext
  cases htext

theorem routineLines_inj (hr : r.Plain) (hr' : r'.Plain) (h : C.routineLines r = D.routineLines r') :
    r.name = r'.name ∧ r.params = r'.params ∧ C.paragraphs r = D.paragraphs r' := by
  cases hexternal : r.isExternal with
  | true =>
    rw [routineLines_external hexternal] at h
    cases hexternal' : r'.isExternal with
    | true =>
      rw [routineLines_external hexternal', List.singleton_inj, String.append_right_inj] at h
      obtain ⟨hname, hparams⟩ := hr.headingText_inj hr' h
      exact ⟨hname, hparams, by rw [paragraphs_external hexternal, paragraphs_external hexternal']⟩
    | false =>
      rw [routineLines_defined hexternal', String.append_assoc] at h
      exact absurd (List.cons.inj h).1 (declare_ne_define _ _)
  | false =>
    rw [routineLines_defined hexternal] at h
    cases hexternal' : r'.isExternal with
    | true =>
      rw [routineLines_external hexternal', String.append_assoc] at h
      exact absurd (List.cons.inj h).1.symm (declare_ne_define _ _)
    | false =>
      rw [routineLines_defined hexternal'] at h
      -- off come the closing brace and the heading
      obtain ⟨hlines, -⟩ := List.append_inj' h rfl
      obtain ⟨hheading, hblocks⟩ := List.cons.inj hlines
      rw [String.append_left_inj, String.append_right_inj] at hheading
      obtain ⟨hname, hparams⟩ := hr.headingText_inj hr' hheading
      exact ⟨hname, hparams,
        paragraphs_inj (fun x => isParagraph_of_mem hr) (fun y => isParagraph_of_mem hr') hblocks⟩

variable {line : String}

theorem Legible.line_of_blockLines (hC : C.Legible) (hr : r.Plain) {b : Block} (hb : b ∈ r.blocks) {n : Nat}
    (h : line ∈ C.blockLines r (b, n)) : OneLine line ∧ line ≠ "" := by
  rcases List.mem_cons.mp h with rfl | h
  · refine ⟨?_, fun hempty => absurd (String.append_eq_empty_iff.mp hempty).2 (by decide)⟩
    simp only [oneLine_append, oneLine_number, oneLine_of_chars (by decide) (hr.labels b hb), true_and, and_true]
    decide
  have hindented : ∀ s, OneLine s → OneLine ("  " ++ s) ∧ "  " ++ s ≠ "" := fun s hs =>
    ⟨oneLine_append.mpr ⟨by decide, hs⟩, fun hempty => absurd (String.append_eq_empty_iff.mp hempty).1 (by decide)⟩
  rcases List.mem_append.mp h with h | h
  · obtain ⟨i, -, rfl⟩ := List.mem_map.mp h
    exact hindented _ (hC.oneLine_instructionText hr i)
  · rw [List.mem_singleton.mp h]
    exact hindented _ (hr.oneLine_exitText _)

/-- No line of a routine is empty or broken. -/
theorem Legible.line_of_routineLines (hC : C.Legible) (hr : r.Plain) (h : line ∈ C.routineLines r) :
    OneLine line ∧ line ≠ "" := by
  cases hexternal : r.isExternal with
  | true =>
    rw [routineLines_external hexternal] at h
    rw [List.mem_singleton.mp h]
    exact ⟨oneLine_append.mpr ⟨by decide, hr.oneLine_headingText⟩,
      fun hempty => absurd (String.append_eq_empty_iff.mp hempty).1 (by decide)⟩
  | false =>
    rw [routineLines_defined hexternal] at h
    rcases List.mem_append.mp h with h | h
    · rcases List.mem_cons.mp h with rfl | h
      · exact ⟨oneLine_append.mpr ⟨oneLine_append.mpr ⟨by decide, hr.oneLine_headingText⟩, by decide⟩,
          fun hempty => absurd (String.append_eq_empty_iff.mp hempty).2 (by decide)⟩
      · obtain ⟨x, hx, hline⟩ := List.mem_flatten.mp h
        obtain ⟨⟨b, n⟩, hb, rfl⟩ := List.mem_map.mp hx
        exact hC.line_of_blockLines hr (Array.mem_toList_iff.mp (List.fst_mem_of_mem_zipIdx hb)) hline
    · rw [List.mem_singleton.mp h]
      decide

theorem routineLines_ne_nil (C : Code) (r : Routine) : C.routineLines r ≠ [] := by
  cases hexternal : r.isExternal with
  | true =>
    rw [routineLines_external hexternal]
    exact List.cons_ne_nil _ _
  | false =>
    rw [routineLines_defined hexternal]
    exact List.cons_ne_nil _ _

/-! ## 7. The whole listing -/

theorem Legible.plain_of_mem (hC : C.Legible) (hr : r ∈ C.routines.toList) : r.Plain := by
  obtain ⟨g, hg⟩ := List.mem_iff_getElem?.mp hr
  rw [Array.getElem?_toList] at hg
  exact hC.plain g r hg

theorem Legible.oneLine_of_lines (hC : C.Legible) (h : line ∈ C.lines) : OneLine line := by
  rcases mem_intercalate h with h | ⟨ls, hls, h⟩
  · rw [List.mem_singleton.mp h]
    decide
  · obtain ⟨r, hr, rfl⟩ := List.mem_map.mp hls
    exact (hC.line_of_routineLines (hC.plain_of_mem hr) h).1

theorem Legible.lines_eq (hC : C.Legible) (hD : D.Legible) (h : C.listing = D.listing) : C.lines = D.lines :=
  join_lines_inj (fun _ => hC.oneLine_of_lines) (fun _ => hD.oneLine_of_lines) h

/-- Routines are separated by empty lines, and have none themselves. -/
theorem Legible.routineLines_eq (hC : C.Legible) (hD : D.Legible) (h : C.lines = D.lines) :
    C.routines.toList.map C.routineLines = D.routines.toList.map D.routineLines := by
  have hrun : ∀ {C : Code}, C.Legible → ∀ ls ∈ C.routines.toList.map C.routineLines,
      (∀ line ∈ ls, (line != "") = true) ∧ ls ≠ [] := by
    intro C hC ls hls
    obtain ⟨r, hr, rfl⟩ := List.mem_map.mp hls
    exact ⟨fun line hline => bne_iff_ne.mpr (hC.line_of_routineLines (hC.plain_of_mem hr) hline).2,
      routineLines_ne_nil C r⟩
  have hcut := Cuts.intercalate (F := (· = [])) (f := id) (c := "") (z := []) (p := (· != ""))
    (fun x hx y hy => Cuts.run (hrun hC x hx).1 (hrun hD y hy).1) (by decide) (fun s hs => ?_) (fun x hx s => ?_)
    fun y hy s => ?_
  · rw [List.map_id, List.map_id] at hcut
    exact hcut.whole rfl h
  · rw [hs]
    exact ⟨stops_nil _, fun hc => by cases hc⟩
  · exact List.append_ne_nil_of_left_ne_nil (hrun hC x hx).2 s
  · exact List.append_ne_nil_of_left_ne_nil (hrun hD y hy).2 s

/-- A routine is read off its lines, once all routines are known by their names. -/
theorem Legible.routine_eq (hC : C.Legible) (hD : D.Legible) (hsize : C.routines.size = D.routines.size)
    (hcallee : C.routineText = D.routineText) {g : Nat} (hr : C.routines[g]? = some r)
    (hr' : D.routines[g]? = some r') (h : C.routineLines r = D.routineLines r') : r = r' := by
  have hplain := hC.plain g r hr
  have hplain' := hD.plain g r' hr'
  obtain ⟨hname, hparams, hparagraphs⟩ := routineLines_inj hplain hplain' h
  have hblocks : r.blocks = r'.blocks := by
    refine hC.blocks_eq hD hsize hcallee hr hr' fun n => ?_
    rw [← getElem?_paragraphs, ← getElem?_paragraphs, hparagraphs]
  -- the number of registers is not written, but each of them is defined once
  have hregisters : r.registers = r'.registers := by rw [hplain.registers, hplain'.registers, hblocks]
  rcases r with ⟨name, params, blocks, registers⟩
  rcases r' with ⟨name', params', blocks', registers'⟩
  obtain rfl : name = name' := hname
  obtain rfl : params = params' := hparams
  obtain rfl : blocks = blocks' := hblocks
  obtain rfl : registers = registers' := hregisters
  rfl

/-- Code that can be read is determined by its listing. -/
theorem Legible.eq_of_listing (hC : C.Legible) (hD : D.Legible) (h : C.listing = D.listing) : C = D := by
  have hlines := hC.routineLines_eq hD (hC.lines_eq hD h)
  have hsize : C.routines.size = D.routines.size := by
    have hlength := congrArg List.length hlines
    rwa [List.length_map, List.length_map, Array.length_toList, Array.length_toList] at hlength
  -- the routines at the same place have the same lines
  have hroutines : ∀ g : Nat, C.routines[g]? = none ∧ D.routines[g]? = none ∨ ∃ r r', C.routines[g]? = some r ∧
      D.routines[g]? = some r' ∧ C.routineLines r = D.routineLines r' := by
    intro g
    have hat := congrArg (fun ls : List (List String) => ls[g]?) hlines
    rw [List.getElem?_map, List.getElem?_map, Array.getElem?_toList, Array.getElem?_toList] at hat
    cases hr : C.routines[g]? with
    | none =>
      rw [hr] at hat
      exact .inl ⟨rfl, Option.map_eq_none_iff.mp hat.symm⟩
    | some r =>
      rw [hr] at hat
      obtain ⟨r', hr', hsame⟩ := Option.map_eq_some_iff.mp hat.symm
      exact .inr ⟨r, r', rfl, hr', hsame.symm⟩
  -- the names have to be known before the blocks, since a routine may call one that comes later
  have hcallee : C.routineText = D.routineText := by
    funext g
    unfold routineText
    rcases hroutines g with ⟨hr, hr'⟩ | ⟨r, r', hr, hr', hsame⟩
    · rw [hr, hr']
    · rw [hr, hr']
      exact (routineLines_inj (hC.plain g r hr) (hD.plain g r' hr') hsame).1
  have heq : C.routines = D.routines := by
    refine Array.ext_getElem? fun g => ?_
    rcases hroutines g with ⟨hr, hr'⟩ | ⟨r, r', hr, hr', hsame⟩
    · rw [hr, hr']
    · rw [hr, hr', hC.routine_eq hD hsize hcallee hr hr' hsame]
  rcases C with ⟨routines⟩
  rcases D with ⟨routines'⟩
  exact congrArg Code.mk heq

end Code

end Mila
