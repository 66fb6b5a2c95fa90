import Mathlib
import Mila.Code

/-! # Cutting texts

When a text is put together from parts, and each part can be told from what may follow it, then the text has these
parts only. The parts may be letters that make up words, or lines that make up paragraphs.
-/

namespace Mila

/-! ## 1. Cutting texts -/

section

variable {τ : Type} {P Q : Prop} {F G : List τ → Prop} {p : τ → Bool} {x y x' y' : List τ}

/-- A text that starts with `x` or with `y` and goes on as it should can be cut behind that start in one way only,
and what stands before the cut tells `P`. -/
def Cuts (P : Prop) (F : List τ → Prop) (x y : List τ) : Prop :=
  ∀ s t, F s → F t → x ++ s = y ++ t → P ∧ s = t

/-- A text that does not start with something of a kind. -/
def Stops (p : τ → Bool) (s : List τ) : Prop := ∀ c ∈ s.head?, p c = false

theorem stops_nil (p : τ → Bool) : Stops p [] := fun _ hc => by cases hc

theorem stops_cons {c : τ} (h : p c = false) (s : List τ) : Stops p (c :: s) := fun _ hc => by
  rwa [← Option.some.inj hc]

theorem takeWhile_of_stops {s : List τ} (hx : ∀ c ∈ x, p c = true) (hs : Stops p s) : (x ++ s).takeWhile p = x := by
  rw [List.takeWhile_append_of_pos hx]
  cases s with
  | nil => rw [List.takeWhile_nil, List.append_nil]
  | cons c s => rw [List.takeWhile_cons_of_neg (by rw [hs c rfl]; exact Bool.false_ne_true), List.append_nil]

namespace Cuts

theorem whole (h : Cuts P F x y) (hnil : F []) (heq : x = y) : P := (h [] [] hnil hnil (by rw [heq])).1

theorem imp (h : Cuts P F x y) (hP : P → Q) : Cuts Q F x y := fun s t hs ht heq =>
  ⟨hP (h s t hs ht heq).1, (h s t hs ht heq).2⟩

/-- At the end of a text. -/
theorem ofEq (h : x = y → P) : Cuts P (· = []) x y := by
  intro s t hs ht heq
  rw [hs, ht, List.append_nil, List.append_nil] at heq
  exact ⟨h heq, hs.trans ht.symm⟩

/-- A run of things of a kind ends where the next thing is not of that kind. -/
theorem run (hx : ∀ c ∈ x, p c = true) (hy : ∀ c ∈ y, p c = true) : Cuts (x = y) (Stops p) x y := by
  intro s t hs ht heq
  -- both sides are cut where the run of the whole text ends
  have hrun := congrArg (List.takeWhile p) heq
  rw [takeWhile_of_stops hx hs, takeWhile_of_stops hy ht] at hrun
  rw [hrun] at heq
  exact ⟨hrun, List.append_cancel_left heq⟩

/-- The same text in front. -/
theorem behind (z : List τ) (h : Cuts P F x y) : Cuts P F (z ++ x) (z ++ y) := by
  intro s t hs ht heq
  rw [List.append_assoc, List.append_assoc] at heq
  exact h s t hs ht (List.append_cancel_left heq)

/-- One text after the other. -/
theorem append (h : Cuts P G x y) (hx : ∀ s, F s → G (x' ++ s)) (hy : ∀ s, F s → G (y' ++ s))
    (h' : P → Cuts Q F x' y') : Cuts (P ∧ Q) F (x ++ x') (y ++ y') := by
  intro s t hs ht heq
  rw [List.append_assoc, List.append_assoc] at heq
  obtain ⟨hP, hrest⟩ := h _ _ (hx s hs) (hy t ht) heq
  obtain ⟨hQ, hend⟩ := h' hP s t hs ht hrest
  exact ⟨⟨hP, hQ⟩, hend⟩

/-- The same text behind. -/
theorem before (h : Cuts P G x y) (z : List τ) (hz : ∀ s, G (z ++ s)) : Cuts P F (x ++ z) (y ++ z) := by
  intro s t _ _ heq
  rw [List.append_assoc, List.append_assoc] at heq
  obtain ⟨hP, hrest⟩ := h _ _ (hz s) (hz t) heq
  exact ⟨hP, List.append_cancel_left hrest⟩

/-- One text after the other, with the same text between them that stops the first one. -/
theorem around (h : Cuts P (Stops p) x y) {c : τ} (hc : p c = false) (z : List τ) (h' : P → Cuts Q F x' y') :
    Cuts (P ∧ Q) F (x ++ (c :: (z ++ x'))) (y ++ (c :: (z ++ y'))) :=
  h.append (fun s _ => stops_cons hc (z ++ x' ++ s)) (fun s _ => stops_cons hc (z ++ y' ++ s)) fun hP =>
    (h' hP).behind (c :: z)

end Cuts

/-- Parts one after the other. What follows the last one is not one more part. -/
theorem Cuts.flatMap {α : Type} {f : α → List τ} {as bs : List α}
    (hparts : ∀ a ∈ as, ∀ b ∈ bs, Cuts (a = b) G (f a) (f b)) (hlast : ∀ s, F s → G s)
    (has : ∀ a ∈ as, ∀ s, G (f a ++ s) ∧ ¬ F (f a ++ s)) (hbs : ∀ b ∈ bs, ∀ s, G (f b ++ s) ∧ ¬ F (f b ++ s)) :
    Cuts (as = bs) F (as.flatMap f) (bs.flatMap f) := by
  -- a part ends well before the next one and before what follows the last one
  have hfollow : ∀ as : List α, (∀ a ∈ as, ∀ s, G (f a ++ s) ∧ ¬ F (f a ++ s)) →
      ∀ s, F s → G (as.flatMap f ++ s) := by
    intro as has s hs
    cases as with
    | nil => exact hlast s hs
    | cons a as =>
      rw [List.flatMap_cons, List.append_assoc]
      exact (has a List.mem_cons_self _).1
  induction as generalizing bs with
  | nil =>
    cases bs with
    | nil => exact fun s t _ _ heq => ⟨rfl, heq⟩
    | cons b bs =>
      -- what follows the parts on the left would have to be a part on the right
      intro s t hs _ heq
      rw [List.flatMap_cons, List.append_assoc] at heq
      rw [List.flatMap_nil, List.nil_append] at heq
      rw [heq] at hs
      exact absurd hs (hbs b List.mem_cons_self _).2
  | cons a as ih =>
    cases bs with
    | nil =>
      intro s t _ ht heq
      rw [List.flatMap_cons, List.append_assoc, List.flatMap_nil, List.nil_append] at heq
      rw [← heq] at ht
      exact absurd ht (has a List.mem_cons_self _).2
    | cons b bs =>
      rw [List.forall_mem_cons] at has hbs
      rw [List.flatMap_cons, List.flatMap_cons]
      have hfirst := hparts a List.mem_cons_self b List.mem_cons_self
      have hrest := ih (fun a ha b hb => hparts a (List.mem_cons_of_mem _ ha) b (List.mem_cons_of_mem _ hb))
        has.2 hbs.2
      refine (hfirst.append (hfollow as has.2) (hfollow bs hbs.2) fun _ => hrest).imp fun heq => ?_
      rw [heq.1, heq.2]

theorem intercalate_cons (sep l : List τ) (ls : List (List τ)) :
    sep.intercalate (l :: ls) = l ++ ls.flatMap (sep ++ ·) := by
  induction ls generalizing l with
  | nil => rw [List.intercalate_singleton, List.flatMap_nil, List.append_nil]
  | cons l' ls ih => rw [List.intercalate_cons_cons, ih, List.flatMap_cons, List.append_assoc, List.append_assoc]

/-- Parts with separators between them, each of which the separator stops. What follows the last one is neither a
separator nor a part. -/
theorem Cuts.intercalate {α : Type} {f : α → List τ} {c : τ} {z : List τ} {as bs : List α}
    (hparts : ∀ a ∈ as, ∀ b ∈ bs, Cuts (a = b) (Stops p) (f a) (f b)) (hc : p c = false)
    (hstops : ∀ s, F s → Stops p s ∧ s.head? ≠ some c) (has : ∀ a ∈ as, ∀ s, ¬ F (f a ++ s))
    (hbs : ∀ b ∈ bs, ∀ s, ¬ F (f b ++ s)) :
    Cuts (as = bs) F ((c :: z).intercalate (as.map f)) ((c :: z).intercalate (bs.map f)) := by
  cases as with
  | nil =>
    cases bs with
    | nil => exact fun s t _ _ heq => ⟨rfl, heq⟩
    | cons b bs =>
      intro s t hs _ heq
      rw [List.map_cons, intercalate_cons, List.append_assoc] at heq
      rw [show s = _ from heq] at hs
      exact absurd hs (hbs b List.mem_cons_self _)
  | cons a as =>
    cases bs with
    | nil =>
      intro s t _ ht heq
      rw [List.map_cons, intercalate_cons, List.append_assoc] at heq
      rw [show t = _ from heq.symm] at ht
      exact absurd ht (has a List.mem_cons_self _)
    | cons b bs =>
      -- behind the first part, a separator and a part together are one part of `Cuts.flatMap`
      rw [List.map_cons, List.map_cons, intercalate_cons, intercalate_cons, List.flatMap_map, List.flatMap_map]
      have hsep : ∀ a s, Stops p (c :: z ++ f a ++ s) ∧ ¬ F (c :: z ++ f a ++ s) := fun a s =>
        ⟨stops_cons hc _, fun hs => (hstops _ hs).2 rfl⟩
      have hrest : Cuts (as = bs) F (as.flatMap fun a => c :: z ++ f a) (bs.flatMap fun b => c :: z ++ f b) := by
        refine Cuts.flatMap (fun a ha b hb => ?_) (fun s hs => (hstops s hs).1) (fun a _ => hsep a) fun b _ => hsep b
        exact (hparts a (List.mem_cons_of_mem _ ha) b (List.mem_cons_of_mem _ hb)).behind (c :: z)
      have hfollow : ∀ (l : List α) s, F s → Stops p (l.flatMap (fun a => c :: z ++ f a) ++ s) := by
        intro l s hs
        cases l with
        | nil => exact (hstops s hs).1
        | cons a l => exact stops_cons hc _
      have hfirst := hparts a List.mem_cons_self b List.mem_cons_self
      refine (hfirst.append (hfollow as) (hfollow bs) fun _ => hrest).imp fun heq => ?_
      rw [heq.1, heq.2]

end

/-! ## 2. Words and numbers -/

def isNameChar (c : Char) : Bool := c.isAlphanum || c == '_'

/-- Labels may have points in them. -/
def isLabelChar (c : Char) : Bool := isNameChar c || c == '.'

variable {c : Char}

theorem isNameChar_of_isDigit (h : c.isDigit = true) : isNameChar c = true := by
  unfold isNameChar Char.isAlphanum
  rw [h, Bool.or_true, Bool.true_or]

theorem isLabelChar_of_isNameChar (h : isNameChar c = true) : isLabelChar c = true := by
  unfold isLabelChar
  rw [h, Bool.true_or]

theorem isDigit_of_mem_number {n : Nat} (h : c ∈ (toString n).toList) : c.isDigit = true := by
  rw [Nat.toString_eq_repr, Nat.toList_repr] at h
  exact Nat.isDigit_of_mem_toDigits (by decide) (by decide) h

theorem cuts_number (m n : Nat) : Cuts (m = n) (Stops Char.isDigit) (toString m).toList (toString n).toList :=
  (Cuts.run (fun _ => isDigit_of_mem_number) fun _ => isDigit_of_mem_number).imp fun heq =>
    Nat.repr_injective (String.toList_inj.mp heq)

theorem cuts_register (a b : Register) : Cuts (a = b) (Stops Char.isDigit) a.text.toList b.text.toList := by
  unfold Register.text
  rw [String.toList_append, String.toList_append]
  exact (cuts_number a b).behind _

/-- A name that is written with letters, digits and underscores. -/
structure PlainName (name : String) : Prop where
  nonempty : name ≠ ""
  plain : ∀ c ∈ name.toList, isNameChar c = true

theorem cuts_name {a b : String} (ha : ∀ c ∈ a.toList, isNameChar c = true)
    (hb : ∀ c ∈ b.toList, isNameChar c = true) : Cuts (a = b) (Stops isNameChar) a.toList b.toList :=
  (Cuts.run ha hb).imp String.toList_inj.mp

/-- Words of a fixed choice end at something that is in none of them. -/
theorem cuts_word {α : Type} {f : α → String} {stop : Char} (hf : Function.Injective f)
    (hstop : ∀ a, (f a).toList.all (· != stop) = true) (a b : α) :
    Cuts (a = b) (Stops (· != stop)) (f a).toList (f b).toList :=
  (Cuts.run (List.all_eq_true.mp (hstop a)) (List.all_eq_true.mp (hstop b))).imp fun heq =>
    hf (String.toList_inj.mp heq)

end Mila
