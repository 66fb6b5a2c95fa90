import Mila.Proofs.Listings
import Mila.Proofs.Outlines
import Mila.Proofs.Safety
import Mila.Proofs.Writing

/-! # Trees from their outlines

Nothing marks where the nodes under a node end but the indentation: the next line that is not indented further stands
for a node that is not among them. The line of a node tells everything else about it, and so a program can be read
off its outline.
-/

namespace Mila

/-! ## 1. Nodes whose lines can be read -/

namespace Node

/-- The names in the line of a node are plain ones, and its variable is one that can be declared. -/
def Readable : Node → Prop
  | constantDecl name _ | ident name | element name _ | forLoop name _ _ _ _ | call name _ | intrinsic _ name =>
    PlainName name
  | variableDecl d => PlainName d.name ∧ Grammar.Declarable (· ≤ ·) d
  | forward p | subprogram p _ => PlainHeading p.name p.params
  | _ => True

/-- A node has a property, and so have all nodes under it. -/
inductive All (P : Node → Prop) : Node → Prop
  | mk {n : Node} (h : P n) (hchildren : ∀ m ∈ n.children, All P m) : All P n

theorem All.of_mem_walk {P : Node → Prop} {n : Node} (h : n.All P) (depth : Nat) : ∀ e ∈ n.walk depth, P e.2 := by
  induction h generalizing depth with
  | mk h _ ih =>
    intro e he
    rw [walk_eq] at he
    rcases List.mem_cons.mp he with rfl | he
    · exact h
    · obtain ⟨m, hm, he⟩ := List.mem_flatMap.mp he
      exact ih m hm _ e he

end Node

namespace Grammar

theorem inherits_readable : Inherits Kind.Proper (Node.All Node.Readable) (Node.All Node.Readable) where
  number _ _ := .mk trivial nofun
  ident hname := .mk (IsName.plainName hname) nofun
  element hname h := .mk (IsName.plainName hname) (List.forall_mem_singleton.mpr h)
  operand hname h := .mk (IsName.plainName hname) h
  binary _ hl hr := .mk trivial (List.forall_mem_cons.mpr ⟨hl, List.forall_mem_singleton.mpr hr⟩)
  assign ht hv := .mk trivial (List.forall_mem_cons.mpr ⟨ht, List.forall_mem_singleton.mpr hv⟩)
  call hname h := by
    refine .mk ?_ h
    rcases hname with hname | rfl
    · exact IsName.plainName hname
    · exact plainName_of_all (by decide) (by decide)
  exit := .mk trivial nofun
  intrinsic _ hname := .mk (IsName.plainName hname) nofun
  noElse := .mk trivial nofun
  conditional hc ht he := .mk trivial
    (List.forall_mem_cons.mpr ⟨hc, List.forall_mem_cons.mpr ⟨ht, List.forall_mem_singleton.mpr he⟩⟩)
  whileLoop hc hb := .mk trivial (List.forall_mem_cons.mpr ⟨hc, List.forall_mem_singleton.mpr hb⟩)
  forLoop hname hs hz hb := .mk (IsName.plainName hname)
    (List.forall_mem_cons.mpr ⟨hs, List.forall_mem_cons.mpr ⟨hz, List.forall_mem_singleton.mpr hb⟩⟩)
  block h := .mk trivial h

theorem hands_readable : Hands Kind.Proper (· ≤ ·) (Node.All Node.Readable)
    (fun d => PlainName d.name ∧ Declarable (· ≤ ·) d) (Node.All Node.Readable) where
  declared {name _ bounds} hname ht hts hrange := by
    refine ⟨?_, bounds, name, rfl, fun low high h => ⟨hrange low high h, ht.ne_least hts h⟩⟩
    rw [declared_name]
    exact IsName.plainName hname
  var hd := .mk hd nofun
  constant hname _ _ := .mk (IsName.plainName hname) nofun
  forward hp := .mk (plainHeading_of_proper hp) nofun
  subprogram {p decls block} hp hdecls hblock := by
    have hheading := plainHeading_of_proper hp
    refine .mk hheading (List.forall_mem_append.mpr ⟨fun n hn => ?_, ?_⟩)
    · obtain ⟨d, hd, rfl⟩ := List.mem_map.mp hn
      exact .mk (hdecls d hd) nofun
    · cases p.kind with
      | function =>
        exact List.forall_mem_cons.mpr ⟨.mk ⟨hheading.1, none, p.name, rfl, nofun⟩ nofun,
          List.forall_mem_cons.mpr ⟨hblock, List.forall_mem_singleton.mpr (.mk hheading.1 nofun)⟩⟩
      | procedure => exact List.forall_mem_cons.mpr ⟨hblock, List.forall_mem_singleton.mpr (.mk trivial nofun)⟩

end Grammar

/-! ## 2. The line of a node -/

/-- What the line of a node starts with. -/
inductive Node.Form where
  | int | const | var | ident | index | binary | conditional | whileLoop | forLoop | call | intrinsic | exit | forward
  | block
  | subprogram (kind : SubprogramKind)
  deriving DecidableEq

namespace Node

def form : Node → Form
  | number _ => .int
  | constantDecl _ _ => .const
  | variableDecl _ => .var
  | ident _ => .ident
  | element _ _ => .index
  | binary _ _ _ => .binary
  | conditional _ _ _ => .conditional
  | whileLoop _ _ => .whileLoop
  | forLoop _ _ _ _ _ => .forLoop
  | call _ _ => .call
  | intrinsic _ _ => .intrinsic
  | exit => .exit
  | forward _ => .forward
  | subprogram p _ => .subprogram p.kind
  | block _ => .block

def Form.word : Form → String
  | int => "int"
  | const => "const"
  | var => "var"
  | ident => "ident"
  | index => "index"
  | binary => "binary"
  | conditional => "if"
  | whileLoop => "while"
  | forLoop => "for"
  | call => "call"
  | intrinsic => "intrinsic"
  | exit => "exit"
  | forward => "forward"
  | block => "block"
  | subprogram kind => kind.text

def Form.all : List Form := [.int, .const, .var, .ident, .index, .binary, .conditional, .whileLoop, .forLoop, .call,
  .intrinsic, .exit, .forward, .block, .subprogram .function, .subprogram .procedure]

theorem Form.word_injective : Function.Injective Form.word := by
  have hfind : ∀ f : Form, Form.all.find? (·.word == f.word) = some f := by
    intro f
    cases f with
    | subprogram kind => cases kind <;> decide
    | _ => decide
  intro a b h
  have ha := hfind a
  rw [h, hfind b] at ha
  exact (Option.some.inj ha).symm

theorem Form.plainName_word (f : Form) : PlainName f.word := by
  cases f with
  | subprogram kind => cases kind <;> exact plainName_of_all (by decide) (by decide)
  | _ => exact plainName_of_all (by decide) (by decide)

end Node

/-- The indices of an array, as they stand behind its name. -/
def VariableDecl.extent (d : VariableDecl) : String :=
  if d.isArray then "[" ++ (toString d.bounds.1.toInt ++ (".." ++ (toString d.bounds.2.toInt ++ "]"))) else ""

/-- A name with parameters. -/
def Prototype.signature (p : Prototype) : String := p.name ++ ("(" ++ (", ".intercalate p.params ++ ")"))

namespace Node

/-- What follows the first word of a line. -/
def details : Node → String
  | number value => " " ++ toString value.toInt
  | constantDecl name value => " " ++ (name ++ (" = " ++ toString value.toInt))
  | variableDecl d => " " ++ (d.name ++ d.extent)
  | ident name | element name _ | call name _ => " " ++ name
  | binary op _ _ => " " ++ op.label
  | forLoop name direction _ _ _ => " " ++ (name ++ (" " ++ direction.text))
  | intrinsic which name => " " ++ (which.text ++ ("(" ++ (name ++ ")")))
  | forward p => " " ++ p.heading
  | subprogram p _ => " " ++ p.signature
  | _ => ""

theorem heading_eq (n : Node) : n.heading = n.form.word ++ n.details := by
  cases n with
  | variableDecl d =>
    simp only [heading, VariableDecl.heading, details, VariableDecl.extent]
    split <;> simp only [String.append_assoc, String.append_empty] <;> rfl
  | _ =>
    simp only [heading, Prototype.heading, details, Prototype.signature, form, Form.word, String.append_assoc] <;> rfl

theorem stops_details (n : Node) : Stops isNameChar n.details.toList := by
  cases n <;> first | exact stops_nil _ | (unfold details; rw [String.toList_append]; exact stops_cons (by decide) _)

end Node

/-! ## 3. What is read off a line -/

theorem cuts_value (v w : Word) :
    Cuts (v = w) (Stops fun c => c.isDigit || c == '-') (toString v.toInt).toList (toString w.toInt).toList := by
  have hchars : ∀ i : Int, ∀ c ∈ (toString i).toList, (c.isDigit || c == '-') = true := by
    intro i c hc
    rw [Int.toString_eq_repr, Int.repr_eq_if] at hc
    split at hc
    · rw [isDigit_of_mem_number hc, Bool.true_or]
    · rcases List.mem_append.mp (String.toList_append ▸ hc) with hc | hc
      · rw [List.mem_singleton.mp hc]
        rfl
      · rw [isDigit_of_mem_number hc, Bool.true_or]
  exact (Cuts.run (hchars _) (hchars _)).imp fun heq =>
    Int32.toInt_inj.mp (Int.repr_injective (String.toList_inj.mp heq))

variable {name name' : String} {d : VariableDecl}

theorem constant_inj {v w : Word} (hname : PlainName name) (hname' : PlainName name')
    (h : name ++ (" = " ++ toString v.toInt) = name' ++ (" = " ++ toString w.toInt)) : name = name' ∧ v = w := by
  have htext := congrArg String.toList h
  simp only [String.toList_append] at htext
  have hcut := (cuts_name hname.plain hname'.plain).around (c := ' ') (by decide) ['=', ' '] fun _ => cuts_value v w
  exact hcut.whole (stops_nil _) htext

theorem BinaryOperator.label_injective : Function.Injective label := by
  intro a b
  cases a <;> cases b <;> decide

theorem loop_inj {d d' : Direction} (hname : PlainName name) (hname' : PlainName name')
    (h : name ++ (" " ++ d.text) = name' ++ (" " ++ d'.text)) : name = name' ∧ d = d' := by
  have htext := congrArg String.toList h
  simp only [String.toList_append] at htext
  have hdirection : Cuts (d = d') (· = []) d.text.toList d'.text.toList := .ofEq fun heq => by
    revert heq
    cases d <;> cases d' <;> decide
  exact ((cuts_name hname.plain hname'.plain).around (c := ' ') (by decide) [] fun _ => hdirection).whole rfl htext

theorem intrinsic_inj {i i' : Intrinsic} (hname : PlainName name) (hname' : PlainName name')
    (h : i.text ++ ("(" ++ (name ++ ")")) = i'.text ++ ("(" ++ (name' ++ ")"))) : i = i' ∧ name = name' := by
  have htext := congrArg String.toList h
  simp only [String.toList_append] at htext
  have hcut := (cuts_name hname.plain hname'.plain).before (F := fun _ => True) [')'] fun s => stops_cons (by decide) s
  exact ((i.cuts_text i').around (c := '(') (by decide) [] fun _ => hcut).whole trivial htext

theorem PlainHeading.eq_of_signature {p q : Prototype} (hp : PlainHeading p.name p.params)
    (hq : PlainHeading q.name q.params) (hkind : p.kind = q.kind) (h : p.signature = q.signature) : p = q := by
  have htext := congrArg String.toList h
  simp only [Prototype.signature, String.toList_append] at htext
  have hparams := (cuts_params hp.2 hq.2).before (F := fun _ => True) [')'] fun s => rfl
  have hcut := (cuts_name hp.1.plain hq.1.plain).around (c := '(') (by decide) [] fun _ => hparams
  obtain ⟨hname, hparams⟩ := hcut.whole trivial htext
  rcases p with ⟨kind, name, params⟩
  rcases q with ⟨kind', name', params'⟩
  obtain ⟨rfl, rfl, rfl⟩ : kind = kind' ∧ name = name' ∧ params = params' := ⟨hkind, hname, hparams⟩
  rfl

/-- The indices between the given bounds, as they stand behind the name of an array. -/
def boundsText : Option (Word × Word) → String
  | none => ""
  | some (low, high) => "[" ++ (toString low.toInt ++ (".." ++ (toString high.toInt ++ "]")))

theorem boundsText_injective : Function.Injective boundsText := by
  intro b b' h
  have htext := congrArg String.toList h
  rcases b with _ | ⟨low, high⟩ <;> rcases b' with _ | ⟨low', high'⟩ <;>
    simp only [boundsText, String.toList_append] at htext
  · rfl
  · cases htext
  · cases htext
  · have hhigh := (cuts_value high high').before (F := fun _ => True) [']'] fun s => stops_cons (by decide) s
    have hlow := (cuts_value low low').around (c := '.') (by decide) ['.'] fun _ => hhigh
    obtain ⟨rfl, rfl⟩ := (hlow.behind ['[']).whole trivial htext
    rfl

/-- The bounds of an array that is declared are not cut down. -/
theorem Grammar.Declarable.eq_declared (h : Declarable (· ≤ ·) d) :
    ∃ bounds, d = declared bounds d.name ∧ d.extent = boundsText bounds := by
  obtain ⟨bounds, name, rfl, hbounds⟩ := h
  refine ⟨bounds, by rw [declared_name], ?_⟩
  rcases bounds with _ | ⟨low, high⟩
  · rfl
  · have hle := (hbounds low high rfl).1
    rw [VariableDecl.extent, declared_isArray hle, if_pos rfl, declared_bounds hle]
    rfl

theorem variable_inj {d' : VariableDecl} (hd : PlainName d.name ∧ Grammar.Declarable (· ≤ ·) d)
    (hd' : PlainName d'.name ∧ Grammar.Declarable (· ≤ ·) d') (h : d.name ++ d.extent = d'.name ++ d'.extent) :
    d = d' := by
  obtain ⟨bounds, heq, hextent⟩ := hd.2.eq_declared
  obtain ⟨bounds', heq', hextent'⟩ := hd'.2.eq_declared
  rw [hextent, hextent'] at h
  have htext := congrArg String.toList h
  rw [String.toList_append, String.toList_append] at htext
  have hstops : ∀ b, Stops isNameChar (boundsText b).toList := by
    rintro (_ | ⟨low, high⟩)
    · exact stops_nil _
    · rw [boundsText, String.toList_append]
      exact stops_cons (by decide) _
  obtain ⟨hname, hbounds⟩ := cuts_name hd.1.plain hd'.1.plain _ _ (hstops bounds) (hstops bounds') htext
  rw [heq, heq', hname, boundsText_injective (String.toList_inj.mp hbounds)]

namespace Node

theorem heading_inj {a b : Node} (h : a.heading = b.heading) : a.form = b.form ∧ a.details = b.details := by
  have htext := congrArg String.toList h
  rw [heading_eq, heading_eq, String.toList_append, String.toList_append] at htext
  obtain ⟨hword, hdetails⟩ := cuts_name a.form.plainName_word.plain b.form.plainName_word.plain _ _ a.stops_details b.stops_details htext
  exact ⟨Form.word_injective hword, String.toList_inj.mp hdetails⟩

/-- The line of a node tells everything about it but the nodes under it. -/
theorem eq_of_heading {a b : Node} (ha : a.Readable) (hb : b.Readable) (h : a.heading = b.heading)
    (hchildren : a.children = b.children) : a = b := by
  obtain ⟨hform, hdetails⟩ := heading_inj h
  have hbehind : ∀ {s t : String}, " " ++ s = " " ++ t → s = t := (String.append_right_inj " ").mp
  -- the form is the same, so that only the node of the same constructor is left on the right
  cases a with
  | number v =>
    cases b with
    | number w => rw [(cuts_value v w).whole (stops_nil _) (congrArg String.toList (hbehind hdetails))]
    | _ => cases hform
  | constantDecl name v =>
    cases b with
    | constantDecl name' w =>
      obtain ⟨rfl, rfl⟩ := constant_inj ha hb (hbehind hdetails)
      rfl
    | _ => cases hform
  | variableDecl d =>
    cases b with
    | variableDecl d' => rw [variable_inj ha hb (hbehind hdetails)]
    | _ => cases hform
  | ident name =>
    cases b with
    | ident name' => rw [hbehind hdetails]
    | _ => cases hform
  | element name index =>
    cases b with
    | element name' index' => rw [hbehind hdetails, (List.cons.inj hchildren).1]
    | _ => cases hform
  | binary op lhs rhs =>
    cases b with
    | binary op' lhs' rhs' =>
      have hop : op = op' := BinaryOperator.label_injective (hbehind hdetails)
      obtain ⟨rfl, hrest⟩ := List.cons.inj hchildren
      rw [hop, (List.cons.inj hrest).1]
    | _ => cases hform
  | conditional condition thenArm elseArm =>
    cases b with
    | conditional condition' thenArm' elseArm' =>
      obtain ⟨rfl, hrest⟩ := List.cons.inj hchildren
      obtain ⟨rfl, hlast⟩ := List.cons.inj hrest
      rw [(List.cons.inj hlast).1]
    | _ => cases hform
  | whileLoop condition body =>
    cases b with
    | whileLoop condition' body' =>
      obtain ⟨rfl, hrest⟩ := List.cons.inj hchildren
      rw [(List.cons.inj hrest).1]
    | _ => cases hform
  | forLoop name direction start stop body =>
    cases b with
    | forLoop name' direction' start' stop' body' =>
      obtain ⟨rfl, rfl⟩ := loop_inj ha hb (hbehind hdetails)
      obtain ⟨rfl, hrest⟩ := List.cons.inj hchildren
      obtain ⟨rfl, hlast⟩ := List.cons.inj hrest
      rw [(List.cons.inj hlast).1]
    | _ => cases hform
  | call name args =>
    cases b with
    | call name' args' => rw [hbehind hdetails, show args = args' from hchildren]
    | _ => cases hform
  | intrinsic which name =>
    cases b with
    | intrinsic which' name' =>
      obtain ⟨rfl, rfl⟩ := intrinsic_inj ha hb (hbehind hdetails)
      rfl
    | _ => cases hform
  | exit =>
    cases b with
    | exit => rfl
    | _ => cases hform
  | forward p =>
    cases b with
    | forward p' =>
      -- behind its first word, this is the line of a subprogram
      obtain ⟨hkind, hsignature⟩ := heading_inj (a := subprogram p []) (b := subprogram p' []) (hbehind hdetails)
      rw [ha.eq_of_signature hb (Form.subprogram.inj hkind) (hbehind hsignature)]
    | _ => cases hform
  | subprogram p body =>
    cases b with
    | subprogram p' body' =>
      rw [show body = body' from hchildren, ha.eq_of_signature hb (Form.subprogram.inj hform) (hbehind hdetails)]
    | _ => cases hform
  | block nodes =>
    cases b with
    | block nodes' => rw [show nodes = nodes' from hchildren]
    | _ => cases hform

end Node

/-! ## 4. Lines -/

namespace OutlineLine

/-- A line that does not start with a space or go on behind its end. -/
structure Readable (line : OutlineLine) : Prop where
  oneLine : OneLine line.text
  start : Stops (· == ' ') line.text.toList

def indent (line : OutlineLine) : String := String.ofList (List.replicate (line.depth * indentWidth) ' ')

theorem mem_indent (line : OutlineLine) : ∀ c ∈ line.indent.toList, (c == ' ') = true := by
  intro c hc
  rw [indent, String.toList_ofList] at hc
  exact beq_iff_eq.mpr (List.eq_of_mem_replicate hc)

/-- The indentation of a line ends where its text starts. -/
theorem Readable.eq_of_indented {a b : OutlineLine} (ha : a.Readable) (hb : b.Readable)
    (h : a.indent ++ a.text = b.indent ++ b.text) : a = b := by
  have htext := congrArg String.toList h
  rw [String.toList_append, String.toList_append] at htext
  obtain ⟨hindent, htext⟩ := Cuts.run a.mem_indent b.mem_indent _ _ ha.start hb.start htext
  have hlength := congrArg List.length hindent
  rw [indent, indent, String.toList_ofList, String.toList_ofList, List.length_replicate, List.length_replicate] at hlength
  exact congrArg₂ OutlineLine.mk (Nat.eq_of_mul_eq_mul_right (by decide) hlength) (String.toList_inj.mp htext)

theorem renderAll_inj {as bs : List OutlineLine} (has : ∀ a ∈ as, a.Readable) (hbs : ∀ b ∈ bs, b.Readable)
    (h : renderAll as = renderAll bs) : as = bs := by
  have honeLine : ∀ {lines : List OutlineLine}, (∀ l ∈ lines, l.Readable) →
      ∀ s ∈ lines.map (fun l => l.indent ++ l.text), OneLine s := by
    intro lines hlines s hs
    obtain ⟨line, hline, rfl⟩ := List.mem_map.mp hs
    exact oneLine_append.mpr ⟨oneLine_of_chars (by decide) line.mem_indent, (hlines line hline).oneLine⟩
  have hjoin : ∀ lines, renderAll lines =
      String.join ((lines.map fun l => l.indent ++ l.text).map (· ++ "\n")) := by
    intro lines
    rw [List.map_map]
    rfl
  rw [hjoin, hjoin] at h
  have hsame := join_lines_inj (honeLine has) (honeLine hbs) h
  rw [List.map_eq_flatMap, List.map_eq_flatMap] at hsame
  refine (Cuts.flatMap (F := (· = [])) (G := fun _ => True) (fun a ha b hb s t _ _ heq => ?_) (fun _ _ => trivial)
    (fun _ _ _ => ⟨trivial, List.cons_ne_nil _ _⟩) fun _ _ _ => ⟨trivial, List.cons_ne_nil _ _⟩).whole rfl hsame
  obtain ⟨hline, hrest⟩ := List.cons.inj heq
  exact ⟨(has a ha).eq_of_indented (hbs b hb) hline, hrest⟩

end OutlineLine

/-! ## 5. Trees -/

namespace Node

theorem Readable.oneLine {n : Node} (h : n.Readable) : OneLine n.heading := by
  have hname : ∀ {name : String}, PlainName name → OneLine name := fun h => oneLine_of_chars (by decide) h.plain
  have hsignature : ∀ {p : Prototype}, PlainHeading p.name p.params → OneLine p.signature := fun h => by
    simp only [Prototype.signature, oneLine_append, hname h.1, oneLine_intercalate fun param hp => hname (h.2 param hp)]
    decide
  -- names and numbers are all that varies in a line
  rw [heading_eq]
  refine oneLine_append.mpr ⟨oneLine_of_chars (by decide) n.form.plainName_word.plain, ?_⟩
  cases n with
  | number v => exact oneLine_append.mpr ⟨by decide, oneLine_integer _⟩
  | constantDecl name v =>
    simp only [details, oneLine_append, hname h, oneLine_integer]
    decide
  | variableDecl d =>
    obtain ⟨bounds, -, hextent⟩ := h.2.eq_declared
    simp only [details, oneLine_append, hname h.1, hextent]
    rcases bounds with _ | ⟨low, high⟩
    · decide
    · simp only [boundsText, oneLine_append, oneLine_integer]
      decide
  | ident name | element name _ | call name _ => exact oneLine_append.mpr ⟨by decide, hname h⟩
  | binary op _ _ =>
    change OneLine (" " ++ op.label)
    cases op <;> decide
  | forLoop name d _ _ _ => cases d <;> simp only [details, oneLine_append, hname h] <;> decide
  | intrinsic which name => cases which <;> simp only [details, oneLine_append, hname h] <;> decide
  | forward p =>
    have hline : p.heading = p.kind.text ++ (" " ++ p.signature) := heading_eq (subprogram p [])
    simp only [details, hline, oneLine_append, hsignature h]
    cases p.kind <;> decide
  | subprogram p _ => exact oneLine_append.mpr ⟨by decide, hsignature h⟩
  | _ =>
    change OneLine ""
    decide

theorem Readable.line {n : Node} (h : n.Readable) (depth : Nat) : (OutlineLine.ofNode (depth, n)).Readable := by
  refine ⟨h.oneLine, ?_⟩
  change Stops _ n.heading.toList
  rw [heading_eq, String.toList_append]
  cases hchars : n.form.word.toList with
  | nil => exact absurd (String.toList_eq_nil_iff.mp hchars) n.form.plainName_word.nonempty
  | cons c rest =>
    have hc := n.form.plainName_word.plain c (by rw [hchars]; exact List.mem_cons_self)
    refine stops_cons (p := (· == ' ')) (beq_eq_false_iff_ne.mpr ?_) _
    rintro rfl
    cases hc

/-- The lines from some node on, which is not under the nodes at the given depth. -/
def Above (depth : Nat) (lines : List OutlineLine) : Prop := ∀ line ∈ lines.head?, line.depth < depth

theorem outline_eq (depth : Nat) (n : Node) :
    n.outline depth = ⟨depth, n.heading⟩ :: n.children.flatMap (outline (depth + 1)) := by
  unfold outline
  rw [walk_eq, List.map_cons, List.map_flatMap]
  rfl

theorem cuts_forest {as bs : List Node} {depth : Nat}
    (h : ∀ a ∈ as, ∀ b ∈ bs, Cuts (a = b) (Above (depth + 1)) (a.outline depth) (b.outline depth)) :
    Cuts (as = bs) (Above depth) (as.flatMap (outline depth)) (bs.flatMap (outline depth)) := by
  have hstart : ∀ (n : Node) (s : List OutlineLine),
      Above (depth + 1) (n.outline depth ++ s) ∧ ¬ Above depth (n.outline depth ++ s) := by
    intro n s
    rw [outline_eq]
    refine ⟨fun line hline => ?_, fun habove => Nat.lt_irrefl depth (habove _ rfl)⟩
    rw [← Option.some.inj hline]
    exact Nat.lt_succ_self depth
  exact Cuts.flatMap h (fun s hs line hline => Nat.lt_succ_of_lt (hs line hline)) (fun a _ => hstart a)
    fun b _ => hstart b

/-- A tree is read off its outline, which ends before the next line that is not indented further. -/
theorem cuts_outline {a b : Node} (ha : a.All Readable) (hb : b.All Readable) (depth : Nat) :
    Cuts (a = b) (Above (depth + 1)) (a.outline depth) (b.outline depth) := by
  induction ha generalizing b depth with
  | @mk a ha _ ih =>
    rcases hb with ⟨hb, hchildren⟩
    have hline : Cuts (a.heading = b.heading) (fun _ => True) [OutlineLine.mk depth a.heading]
        [OutlineLine.mk depth b.heading] := by
      intro s t _ _ heq
      obtain ⟨hline, hrest⟩ := List.cons.inj heq
      exact ⟨congrArg OutlineLine.text hline, hrest⟩
    have hunder := cuts_forest fun a' ha' b' hb' => ih a' ha' (hchildren b' hb') (depth + 1)
    rw [outline_eq, outline_eq]
    exact (hline.append (fun _ _ => trivial) (fun _ _ => trivial) fun _ => hunder).imp fun hsame =>
      eq_of_heading ha hb hsame.1 hsame.2

end Node

/-! ## 6. Programs -/

namespace Program

/-- All lines of a program can be read. -/
structure Readable (p : Program) : Prop where
  name : PlainName p.name
  nodes : ∀ n ∈ p.declarations ++ [p.body], n.All Node.Readable

theorem outline_eq (p : Program) :
    p.outline = ⟨0, "program " ++ p.name⟩ :: (p.declarations ++ [p.body]).flatMap (Node.outline 1) := by
  unfold outline walk Node.outline
  rw [Node.walkAll_eq, List.map_append, List.flatMap_append, List.map_flatMap, List.flatMap_singleton]

theorem Readable.lines {p : Program} (h : p.Readable) : ∀ line ∈ p.outline, line.Readable := by
  refine List.forall_mem_cons.mpr ⟨⟨?_, ?_⟩, fun line hline => ?_⟩
  · exact oneLine_append.mpr ⟨by decide, oneLine_of_chars (by decide) h.name.plain⟩
  · rw [String.toList_append]
    exact stops_cons (p := (· == ' ')) (by decide) _
  · obtain ⟨e, he, rfl⟩ := List.mem_map.mp hline
    refine Node.Readable.line ?_ e.1
    rcases List.mem_append.mp he with he | he
    · obtain ⟨n, hn, he⟩ := Node.mem_walkAll.mp he
      exact (h.nodes n (List.mem_append_left _ hn)).of_mem_walk 1 e he
    · exact (h.nodes _ (List.mem_append_right _ List.mem_cons_self)).of_mem_walk 1 e he

theorem Readable.eq_of_outlineText {p q : Program} (hp : p.Readable) (hq : q.Readable)
    (h : p.outlineText = q.outlineText) : p = q := by
  have hlines := OutlineLine.renderAll_inj hp.lines hq.lines h
  rw [outline_eq, outline_eq] at hlines
  obtain ⟨hfirst, hrest⟩ := List.cons.inj hlines
  have hforest := Node.cuts_forest fun a ha b hb => Node.cuts_outline (hp.nodes a ha) (hq.nodes b hb) 1
  obtain ⟨hdecls, hbody⟩ := List.append_inj' (hforest.whole nofun hrest) rfl
  rcases p with ⟨name, decls, body⟩
  rcases q with ⟨name', decls', body'⟩
  obtain rfl : name = name' := (String.append_right_inj _).mp (congrArg OutlineLine.text hfirst)
  obtain rfl : decls = decls' := hdecls
  obtain rfl : body = body' := (List.cons.inj hbody).1
  rfl

end Program

theorem parseProgram_readable {source : String} {p : Program} (h : parseProgram source = .ok p) : p.Readable := by
  obtain ⟨ks, hderives, hks⟩ := parseProgram_derives h
  obtain ⟨hname, hdecls, hbody⟩ := hderives.has Grammar.hands_readable Grammar.inherits_readable hks
  exact ⟨IsName.plainName hname, List.forall_mem_append.mpr ⟨hdecls, List.forall_mem_singleton.mpr hbody⟩⟩

/-- A program that is read off a text can be read off its outline too: there is only one with that outline. -/
theorem parseProgram_eq_of_outlineText {source source' : String} {p q : Program} {text : String}
    (hp : parseProgram source = .ok p) (hq : parseProgram source' = .ok q) (h : p.outlineText? = some text)
    (h' : q.outlineText? = some text) : p = q := by
  have htext : ∀ {p : Program}, p.outlineText? = some text → p.outlineText = text := by
    intro p h
    unfold Program.outlineText? at h
    split at h
    · exact Option.some.inj h
    · cases h
  exact (parseProgram_readable hp).eq_of_outlineText (parseProgram_readable hq) ((htext h).trans (htext h').symm)

/-- Parentheses and semicolons leave no trace in an outline, and none in the program either. -/
theorem parseProgram_eq_of_outlineText_array :
    parseProgram "program p; var a: array [-1..2] of integer; begin a[0] := (1 + x); end." =
      parseProgram "program p; var a: array [-1..2] of integer; begin a[(0)] := 1 + (x) end." := by
  have hoption : ∀ {source text : String}, (parseProgram source).toOption.bind Program.outlineText? = some text →
      ∃ p, parseProgram source = .ok p ∧ p.outlineText? = some text := by
    intro source text h
    cases hparse : parseProgram source with
    | error e =>
      rw [hparse] at h
      cases h
    | ok p =>
      rw [hparse] at h
      exact ⟨p, rfl, h⟩
  let text := "program p\n  var a[-1..2]\n  block\n    binary Assign\n      index a\n        int 0\n" ++
    "      binary Add\n        int 1\n        ident x\n"
  obtain ⟨p, hp, htext⟩ := @hoption
    "program p; var a: array [-1..2] of integer; begin a[0] := (1 + x); end." text (by decide +kernel)
  obtain ⟨q, hq, htext'⟩ := @hoption
    "program p; var a: array [-1..2] of integer; begin a[(0)] := 1 + (x) end." text (by decide +kernel)
  rw [hp, hq, parseProgram_eq_of_outlineText hp hq htext htext']

end Mila
