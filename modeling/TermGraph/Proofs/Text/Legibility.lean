import TermGraph.Proofs.Polynomial.Literal
import TermGraph.Proofs.Store.Formation
import TermGraph.Proofs.Text.Outline

/-!
# Texts are unambiguous

Two formulas with one text are one node.  A text is read from the left: what may follow an atom is no
part of an atom, what may follow an item is no part of an item, and so on, hence an atom, an item or a
row of terms ends in only one place.  The bodies in parentheses are texts themselves.

* `Outline.chars_eq`: the outline can be read off the text, as far as the bodies can.
* `Expr.Legible.eq_of_outline`: the node can be read off the outline.
* `Store.Reachable.eq_of_text`: in every store that can be reached, formulas with one text are one node.
-/

namespace TermGraph

open Store (Knows)

namespace Outline

/-! ## Where a part ends -/

section Ends

variable {u v r r' : List Char}

/-- The characters that are no part of a numeral and of no name. -/
def marks : List Char :=
  [' ', '+', '-', '*', '^', '(', ')']

/-- Names consist of characters that are no marks and no digits, such as letters. -/
def IsWord (letters : List Char) : Prop :=
  letters ≠ [] ∧ ∀ c ∈ letters, c.isDigit = false ∧ c ∉ marks

instance : DecidablePred IsWord :=
  fun letters => @instDecidableAnd (letters ≠ []) _ inferInstance (List.decidableBAll _ letters)

/-- The next character, if there is one, is among `follow`. -/
def Stops (follow : List Char) (r : List Char) : Prop :=
  ∀ c ∈ r.head?, c ∈ follow

lemma Stops.nil (follow : List Char) : Stops follow [] := by
  intro c hc
  cases hc

lemma Stops.cons {follow : List Char} {c : Char} (h : c ∈ follow) (r : List Char) :
    Stops follow (c :: r) := by
  rintro d ⟨⟩
  exact h

lemma Stops.mono {follow wider : List Char} (h : Stops follow r) (hsub : follow ⊆ wider) :
    Stops wider r :=
  fun c hc => hsub (h c hc)

lemma Stops.not_cons {follow : List Char} {c : Char} (h : c ∉ follow) : ¬Stops follow (c :: r) :=
  fun hstops => h (hstops c rfl)

/-- A part without marks ends at the first mark. -/
lemma eq_of_append_eq (hu : ∀ c ∈ u, c ∉ marks) (hv : ∀ c ∈ v, c ∉ marks) (hr : Stops marks r)
    (hr' : Stops marks r') (h : u ++ r = v ++ r') : u = v ∧ r = r' := by
  induction u generalizing v with
  | nil =>
    cases v with
    | nil => exact ⟨rfl, h⟩
    | cons c v =>
      obtain rfl : r = c :: (v ++ r') := h
      exact absurd hr (Stops.not_cons (hv c (by simp)))
  | cons c u ih =>
    cases v with
    | nil =>
      obtain rfl : c :: (u ++ r) = r' := h
      exact absurd hr' (Stops.not_cons (hu c (by simp)))
    | cons d v =>
      rw [List.cons_append, List.cons_append, List.cons.injEq] at h
      obtain ⟨rfl, h⟩ := h
      obtain ⟨rfl, rfl⟩ := ih (fun d hd => hu d (by simp [hd])) (fun d hd => hv d (by simp [hd])) h
      exact ⟨rfl, rfl⟩

lemma toDigits_inj {m n : ℕ} (h : Nat.toDigits 10 m = Nat.toDigits 10 n) : m = n := by
  rw [← Nat.ofDigitChars_ten_toDigits (n := m), h, Nat.ofDigitChars_ten_toDigits]

lemma isWord_name (f : Builtin) : IsWord f.name.toList := by
  cases f <;> decide

lemma name_inj {f g : Builtin} (h : f.name.toList = g.name.toList) : f = g := by
  cases f <;> cases g <;> first | rfl | exact absurd h (by decide)

end Ends

/-! ## Reading an outline -/

/-- The name in an atom is a word, and the body is among `P`. -/
@[simp] def Atom.Within (P : Expr → Prop) : Atom → Prop
  | .numeral _ => True
  | .name letters => IsWord letters
  | .call _ body => P body
  | .group body => P body

/-- The bodies in an item are among `P`. -/
@[simp] def Item.Within (P : Expr → Prop) : Item → Prop
  | .atom a => a.Within P
  | .power base _ exponent => base.Within P ∧ exponent.Within P

/-- There are items in a term, and the bodies in them are among `P`. -/
structure Term.Within (P : Expr → Prop) (t : Term) : Prop where
  /-- There is a first item. -/
  ne_nil : t.items ≠ []
  /-- So it is with each item. -/
  items : ∀ i ∈ t.items, i.Within P

section Reading

variable {P Q : Expr → Prop} {r r' : List Char}

/-- The text of `e` in parentheses is not mistaken for that of another expression with `P`. -/
def Recognized (P : Expr → Prop) (e : Expr) : Prop :=
  ∀ e', P e' → ∀ r r', Stops [')'] r → Stops [')'] r' →
    e.text.toList ++ r = e'.text.toList ++ r' → e = e' ∧ r = r'

namespace Atom

/-- What is written in front of the parentheses. -/
def word : Atom → List Char
  | .numeral n => Nat.toDigits 10 n
  | .name letters => letters
  | .call f _ => f.name.toList
  | .group _ => []

/-- What is written in parentheses. -/
def body? : Atom → Option Expr
  | .numeral _ | .name _ => none
  | .call _ body | .group body => some body

/-- The parentheses with what is written in them. -/
def enclosure (a : Atom) : List Char :=
  match a.body? with
  | none => []
  | some body => '(' :: (body.text.toList ++ [')'])

lemma chars_eq_append (a : Atom) : a.chars = a.word ++ a.enclosure := by
  cases a <;> simp [chars, word, enclosure, body?]

lemma Within.word_unmarked {a : Atom} (h : a.Within P) : ∀ c ∈ a.word, c ∉ marks := by
  intro c hc
  cases a with
  | numeral n =>
    have hdigit := Nat.isDigit_of_mem_toDigits (by omega) (by omega) hc
    intro hmem
    simp only [marks, List.mem_cons, List.not_mem_nil, or_false] at hmem
    rcases hmem with rfl | rfl | rfl | rfl | rfl | rfl | rfl <;> cases hdigit
  | name letters => exact (h.2 c hc).2
  | call f body => exact ((isWord_name f).2 c hc).2
  | group body => cases hc

lemma Within.body {a : Atom} (h : a.Within P) : ∀ b ∈ a.body?, P b := by
  cases a with
  | numeral n | name letters =>
    intro b hb
    cases hb
  | call f body | group body =>
    rintro b ⟨⟩
    exact h

lemma Within.mono {a : Atom} (h : a.Within P) (hPQ : ∀ b, P b → Q b) : a.Within Q := by
  cases a with
  | numeral n => trivial
  | name letters => exact h
  | call f body | group body => exact hPQ body h

/-- Atoms are told apart by what is in front of the parentheses and in them: numerals begin with a
digit, and names do not. -/
lemma Within.eq_of_word_of_body {a b : Atom} (ha : a.Within P) (hb : b.Within Q)
    (hword : a.word = b.word) (hbody : a.body? = b.body?) : a = b := by
  have hdigits {n : ℕ} {letters : List Char} (hw : IsWord letters) : Nat.toDigits 10 n ≠ letters := by
    rintro rfl
    obtain ⟨c, hc⟩ := List.exists_mem_of_ne_nil _ hw.1
    have hdigit := Nat.isDigit_of_mem_toDigits (by omega) (by omega) hc
    rw [(hw.2 c hc).1] at hdigit
    cases hdigit
  cases a with
  | numeral n =>
    cases b with
    | numeral m => rw [toDigits_inj hword]
    | name letters => exact absurd hword (hdigits hb)
    | call _ _ | group _ => cases hbody
  | name letters =>
    cases b with
    | numeral n => exact absurd hword.symm (hdigits ha)
    | name letters' => exact congrArg Atom.name hword
    | call _ _ | group _ => cases hbody
  | call f body =>
    cases b with
    | numeral _ | name _ => cases hbody
    | call g body' =>
      cases hbody
      rw [name_inj hword]
    | group _ => exact absurd hword (isWord_name f).1
  | group body =>
    cases b with
    | numeral _ | name _ => cases hbody
    | call f _ => exact absurd hword.symm (isWord_name f).1
    | group body' =>
      cases hbody
      rfl

/-- An atom ends where something follows that cannot be part of it. -/
lemma chars_eq {a b : Atom} (ha : a.Within (Recognized P)) (hb : b.Within P)
    (hr : Stops ['^', '*', ' ', ')'] r) (hr' : Stops ['^', '*', ' ', ')'] r')
    (h : a.chars ++ r = b.chars ++ r') : a = b ∧ r = r' := by
  have hstops (c : Atom) {r : List Char} (hr : Stops ['^', '*', ' ', ')'] r) :
      Stops marks (c.enclosure ++ r) := by
    unfold enclosure
    split
    · exact hr.mono (by decide)
    · exact Stops.cons (by decide) _
  rw [chars_eq_append, chars_eq_append, List.append_assoc, List.append_assoc] at h
  obtain ⟨hword, htail⟩ := eq_of_append_eq ha.word_unmarked hb.word_unmarked (hstops a hr)
    (hstops b hr') h
  unfold enclosure at htail
  cases hbody : a.body? with
  | none =>
    cases hbody' : b.body? with
    | none =>
      rw [hbody, hbody'] at htail
      exact ⟨ha.eq_of_word_of_body hb hword (hbody.trans hbody'.symm), htail⟩
    | some body' =>
      rw [hbody, hbody'] at htail
      obtain rfl : r = '(' :: (body'.text.toList ++ [')'] ++ r') := htail
      exact absurd hr (Stops.not_cons (by decide))
  | some body =>
    cases hbody' : b.body? with
    | none =>
      rw [hbody, hbody'] at htail
      obtain rfl : '(' :: (body.text.toList ++ [')'] ++ r) = r' := htail
      exact absurd hr' (Stops.not_cons (by decide))
    | some body' =>
      rw [hbody, hbody'] at htail
      have htexts : body.text.toList ++ (')' :: r) = body'.text.toList ++ (')' :: r') := by
        simpa using htail
      obtain ⟨rfl, hrest⟩ := ha.body body hbody body' (hb.body body' hbody') _ _
        (Stops.cons (by decide) r) (Stops.cons (by decide) r') htexts
      exact ⟨ha.eq_of_word_of_body hb hword (hbody.trans hbody'.symm), (List.cons.inj hrest).2⟩

/-- An atom begins with no minus sign. -/
lemma Within.exists_cons {a : Atom} (h : a.Within P) : ∃ c cs, a.chars = c :: cs ∧ c ≠ '-' := by
  rw [chars_eq_append]
  cases hword : a.word with
  | cons c cs =>
    refine ⟨c, cs ++ a.enclosure, rfl, ?_⟩
    rintro rfl
    exact h.word_unmarked '-' (by simp [hword]) (by decide)
  | nil =>
    cases a with
    | numeral n => exact absurd hword Nat.toDigits_ne_nil
    | name letters => exact absurd hword h.1
    | call f body => exact absurd hword (isWord_name f).1
    | group body => exact ⟨'(', _, rfl, by decide⟩

end Atom

/-- A minus sign in front is seen, if what follows it begins with none. -/
lemma sign_append_eq {m n : Bool} {u v : List Char} (hu : ∃ c cs, u = c :: cs ∧ c ≠ '-')
    (hv : ∃ c cs, v = c :: cs ∧ c ≠ '-') (h : sign m ++ u = sign n ++ v) : m = n ∧ u = v := by
  obtain ⟨c, cs, rfl, hc⟩ := hu
  obtain ⟨d, ds, rfl, hd⟩ := hv
  cases m <;> cases n
  · exact ⟨rfl, h⟩
  · exact absurd (List.cons.inj h).1 hc
  · exact absurd (List.cons.inj h).1.symm hd
  · exact ⟨rfl, (List.cons.inj h).2⟩

namespace Item

lemma Within.exists_cons {i : Item} (h : i.Within P) : ∃ c cs, i.chars = c :: cs ∧ c ≠ '-' := by
  cases i with
  | atom a => exact Atom.Within.exists_cons h
  | power base negative exponent =>
    obtain ⟨c, cs, hchars, hc⟩ := Atom.Within.exists_cons h.1
    exact ⟨c, _, by rw [chars, hchars, List.cons_append], hc⟩

/-- An item ends where something follows that cannot be part of it. -/
lemma chars_eq {i j : Item} (hi : i.Within (Recognized P)) (hj : j.Within P)
    (hr : Stops ['*', ' ', ')'] r) (hr' : Stops ['*', ' ', ')'] r')
    (h : i.chars ++ r = j.chars ++ r') : i = j ∧ r = r' := by
  have hatom {r : List Char} (hr : Stops ['*', ' ', ')'] r) : Stops ['^', '*', ' ', ')'] r :=
    hr.mono (by decide)
  cases i with
  | atom a =>
    cases j with
    | atom b =>
      obtain ⟨rfl, rfl⟩ := Atom.chars_eq hi hj (hatom hr) (hatom hr') h
      exact ⟨rfl, rfl⟩
    | power base negative exponent =>
      rw [chars, chars, List.append_assoc] at h
      obtain ⟨-, rfl⟩ := Atom.chars_eq hi hj.1 (hatom hr) (Stops.cons (by decide) _) h
      exact absurd hr (Stops.not_cons (by decide))
  | power base negative exponent =>
    cases j with
    | atom b =>
      rw [chars, chars, List.append_assoc] at h
      obtain ⟨-, rfl⟩ := Atom.chars_eq hi.1 hj (Stops.cons (by decide) _) (hatom hr') h
      exact absurd hr' (Stops.not_cons (by decide))
    | power base' negative' exponent' =>
      rw [chars, chars, List.append_assoc, List.append_assoc] at h
      obtain ⟨rfl, hexponents⟩ := Atom.chars_eq hi.1 hj.1 (Stops.cons (by decide) _)
        (Stops.cons (by decide) _) h
      have hexponents' : sign negative ++ (exponent.chars ++ r) =
          sign negative' ++ (exponent'.chars ++ r') := by
        simpa using hexponents
      obtain ⟨c, cs, hc⟩ := hi.2.exists_cons
      obtain ⟨d, ds, hd⟩ := hj.2.exists_cons
      obtain ⟨rfl, hrest⟩ := sign_append_eq ⟨c, cs ++ r, by rw [hc.1, List.cons_append], hc.2⟩
        ⟨d, ds ++ r', by rw [hd.1, List.cons_append], hd.2⟩ hexponents'
      obtain ⟨rfl, rfl⟩ := Atom.chars_eq hi.2 hj.2 (hatom hr) (hatom hr') hrest
      exact ⟨rfl, rfl⟩

end Item

lemma row_singleton (i : Item) : row [i] = i.chars := by
  simp [row]

lemma row_cons_cons (i j : Item) (is : List Item) :
    row (i :: j :: is) = i.chars ++ '*' :: row (j :: is) := by
  simp [row, List.intercalate_cons_cons]

/-- A row of items ends where something follows that is no `*`. -/
lemma row_eq {is js : List Item} (hi : ∀ i ∈ is, i.Within (Recognized P)) (hj : ∀ j ∈ js, j.Within P)
    (hine : is ≠ []) (hjne : js ≠ []) (hr : Stops [' ', ')'] r) (hr' : Stops [' ', ')'] r')
    (h : row is ++ r = row js ++ r') : is = js ∧ r = r' := by
  have hitem {r : List Char} (hr : Stops [' ', ')'] r) : Stops ['*', ' ', ')'] r :=
    hr.mono (by decide)
  induction is generalizing js with
  | nil => exact absurd rfl hine
  | cons i is ih =>
    obtain ⟨j, js, rfl⟩ := List.exists_cons_of_ne_nil hjne
    rw [List.forall_mem_cons] at hi hj
    cases is with
    | nil =>
      cases js with
      | nil =>
        rw [row_singleton, row_singleton] at h
        obtain ⟨rfl, rfl⟩ := Item.chars_eq hi.1 hj.1 (hitem hr) (hitem hr') h
        exact ⟨rfl, rfl⟩
      | cons j' js =>
        rw [row_singleton, row_cons_cons, List.append_assoc] at h
        obtain ⟨-, rfl⟩ := Item.chars_eq hi.1 hj.1 (hitem hr) (Stops.cons (by decide) _) h
        exact absurd hr (Stops.not_cons (by decide))
    | cons i' is =>
      cases js with
      | nil =>
        rw [row_singleton, row_cons_cons, List.append_assoc] at h
        obtain ⟨-, rfl⟩ := Item.chars_eq hi.1 hj.1 (Stops.cons (by decide) _) (hitem hr') h
        exact absurd hr' (Stops.not_cons (by decide))
      | cons j' js =>
        rw [row_cons_cons, row_cons_cons, List.append_assoc, List.append_assoc] at h
        obtain ⟨rfl, hrest⟩ := Item.chars_eq hi.1 hj.1 (Stops.cons (by decide) _)
          (Stops.cons (by decide) _) h
        obtain ⟨hitems, rfl⟩ := ih hi.2 hj.2 (by simp) (by simp) (List.cons.inj hrest).2
        exact ⟨by rw [hitems], rfl⟩

/-- A row begins with no minus sign. -/
lemma Term.Within.exists_cons {t : Term} (h : t.Within P) (r : List Char) :
    ∃ c cs, row t.items ++ r = c :: cs ∧ c ≠ '-' := by
  obtain ⟨i, is, his⟩ := List.exists_cons_of_ne_nil h.ne_nil
  obtain ⟨c, cs, hchars, hc⟩ := (h.items i (by simp [his])).exists_cons
  rw [his]
  cases is with
  | nil => exact ⟨c, _, by rw [row_singleton, hchars, List.cons_append], hc⟩
  | cons j is => exact ⟨c, _, by rw [row_cons_cons, hchars, List.cons_append, List.cons_append], hc⟩

lemma stops_rest (ts : List Term) (hr : Stops [')'] r) : Stops [' ', ')'] (rest ts ++ r) := by
  cases ts with
  | nil => exact hr.mono (by decide)
  | cons t ts =>
    rw [rest]
    split <;> exact Stops.cons (by decide) _

/-- The terms behind the first one end where a parenthesis is closed. -/
lemma rest_eq {ts ts' : List Term} (ht : ∀ t ∈ ts, t.Within (Recognized P))
    (ht' : ∀ t ∈ ts', t.Within P) (hr : Stops [')'] r) (hr' : Stops [')'] r')
    (h : rest ts ++ r = rest ts' ++ r') : ts = ts' ∧ r = r' := by
  have hblank (t : Term) (ts : List Term) (r : List Char) :
      ∃ cs, rest (t :: ts) ++ r = ' ' :: cs := by
    rw [rest]
    split <;> exact ⟨_, rfl⟩
  induction ts generalizing ts' with
  | nil =>
    cases ts' with
    | nil => exact ⟨rfl, h⟩
    | cons t' ts' =>
      obtain ⟨cs, hcs⟩ := hblank t' ts' r'
      obtain rfl : r = ' ' :: cs := h.trans hcs
      exact absurd hr (Stops.not_cons (by decide))
  | cons t ts ih =>
    cases ts' with
    | nil =>
      obtain ⟨cs, hcs⟩ := hblank t ts r
      obtain rfl : r' = ' ' :: cs := h.symm.trans hcs
      exact absurd hr' (Stops.not_cons (by decide))
    | cons t' ts' =>
      rw [List.forall_mem_cons] at ht ht'
      obtain ⟨m, is⟩ := t
      obtain ⟨n, js⟩ := t'
      have hsigns : m = n ∧ row is ++ (rest ts ++ r) = row js ++ (rest ts' ++ r') := by
        cases m <;> cases n <;> simp_all [rest]
      obtain ⟨rfl, hrows⟩ := hsigns
      obtain ⟨rfl, hrest⟩ := row_eq ht.1.items ht'.1.items ht.1.ne_nil ht'.1.ne_nil
        (stops_rest ts hr) (stops_rest ts' hr') hrows
      obtain ⟨rfl, rfl⟩ := ih ht.2 ht'.2 hrest
      exact ⟨rfl, rfl⟩

/-- The outline can be read off the text, if the bodies in it can. -/
lemma chars_eq {ts ts' : List Term} (ht : ∀ t ∈ ts, t.Within (Recognized P))
    (ht' : ∀ t ∈ ts', t.Within P) (hne : ts ≠ []) (hne' : ts' ≠ []) (hr : Stops [')'] r)
    (hr' : Stops [')'] r') (h : chars ts ++ r = chars ts' ++ r') : ts = ts' ∧ r = r' := by
  obtain ⟨t, ts, rfl⟩ := List.exists_cons_of_ne_nil hne
  obtain ⟨t', ts', rfl⟩ := List.exists_cons_of_ne_nil hne'
  rw [List.forall_mem_cons] at ht ht'
  simp only [chars, List.append_assoc] at h
  obtain ⟨hsigns, hrows⟩ := sign_append_eq (ht.1.exists_cons _) (ht'.1.exists_cons _) h
  obtain ⟨hitems, hrest⟩ := row_eq ht.1.items ht'.1.items ht.1.ne_nil ht'.1.ne_nil
    (stops_rest ts hr) (stops_rest ts' hr') hrows
  obtain ⟨rfl, rfl⟩ := rest_eq ht.2 ht'.2 hr hr' hrest
  obtain ⟨m, is⟩ := t
  obtain ⟨n, js⟩ := t'
  obtain rfl : m = n := hsigns
  obtain rfl : is = js := hitems
  exact ⟨rfl, rfl⟩

end Reading

end Outline

namespace Expr

open Outline

variable {X P Q : Expr → Prop} {s : Store} {e e' t a b n : Expr}

/-! ## Outlines of legible expressions -/

/-- The symbols in `X` are named by words, each by its own. -/
structure IsAlphabet (X : Expr → Prop) : Prop where
  /-- Names are words. -/
  word : ∀ x name, X x → x.kind = .symbol name → IsWord name.toList
  /-- Names differ. -/
  unique : ∀ x y name, X x → X y → x.kind = .symbol name → y.kind = .symbol name → x = y

lemma outline_eq_term (h : ∀ terms, e.kind ≠ .sum terms) : e.outline = [e.term true] := by
  unfold outline
  split
  · exact absurd ‹_› (h _)
  · rfl

lemma outline_of_sum {first : Expr} {others : List Expr} (h : e.kind = .sum (first :: others)) :
    e.outline = first.term true :: others.map (term false) := by
  rw [outline, h]

lemma outline_ne_nil (e : Expr) : e.outline ≠ [] := by
  unfold outline
  split <;> simp

lemma item_eq_atom (h : e.power? = none) : e.item = .atom e.atom := by
  rw [item, h]

/-- The sign and the atom of an exponent. -/
def exponent (n : Expr) : Bool × Atom :=
  match n.number? with
  | some (.int m) => (m < 0, .numeral (magnitude true m))
  | _ => (false, n.atom)

lemma item_of_power (h : e.power? = some (b, n)) :
    e.item = .power b.atom n.exponent.1 n.exponent.2 := by
  simp only [item, h, exponent]
  cases n.number? with
  | none => rfl
  | some m => cases m <;> rfl

lemma exponent_of_number {m : Int64} (h : n.kind = .number (.int m)) :
    n.exponent = (decide (m < 0), .numeral (magnitude true m)) := by
  simp only [exponent, number?, h]

lemma exponent_eq_atom (h : n.number? = none) : n.exponent = (false, n.atom) := by
  rw [exponent, h]

/-- The bodies in each part of the outline of `e` are among `Q`. -/
structure Settled (Q : Expr → Prop) (e : Expr) : Prop where
  /-- So is `e` itself. -/
  self : Q e
  /-- The body of the atom. -/
  atom : e.atom.Within Q
  /-- The bodies in the item. -/
  item : e.item.Within Q
  /-- The bodies in the term. -/
  term : ∀ first, (e.term first).Within Q
  /-- The bodies in the outline. -/
  outline : ∀ t ∈ e.outline, t.Within Q

lemma Settled.of_item (hsum : ∀ terms, e.kind ≠ .sum terms) (hproduct : e.isProduct = false)
    (hnumber : e.number? = none) (hstep : (∀ t ∈ e.outline, t.Within Q) → Q e)
    (hitem : e.item.Within Q) (hatom : Q e → e.atom.Within Q) : Settled Q e := by
  have hterm : ∀ first, (e.term first).Within Q := by
    intro first
    rw [term_eq_item hnumber hproduct]
    exact ⟨by simp, by simpa using hitem⟩
  have houtline : ∀ t ∈ e.outline, t.Within Q := by simpa [outline_eq_term hsum] using hterm true
  exact ⟨hstep houtline, hatom (hstep houtline), hitem, hterm, houtline⟩

lemma Settled.of_term (hsum : ∀ terms, e.kind ≠ .sum terms) (hpower : e.power? = none)
    (hstep : (∀ t ∈ e.outline, t.Within Q) → Q e) (hterm : ∀ first, (e.term first).Within Q)
    (hatom : Q e → e.atom.Within Q) : Settled Q e := by
  have houtline : ∀ t ∈ e.outline, t.Within Q := by simpa [outline_eq_term hsum] using hterm true
  have hatom := hatom (hstep houtline)
  exact ⟨hstep houtline, hatom, by simpa [item_eq_atom hpower] using hatom, hterm, houtline⟩

/-- Induction over outlines: what holds of an expression if it holds of the bodies in its outline, holds
of all legible expressions. -/
lemma Legible.settled (hX : IsAlphabet X) (hs : s.WellFormed)
    (hstep : ∀ e, s.Knows e → Legible X e → (∀ t ∈ e.outline, t.Within Q) → Q e)
    (h : Legible X e) (he : s.Knows e) : Settled Q e := by
  induction h with
  | @symbol e name hkind hx =>
    have hatom : e.atom.Within Q := by simpa [atom, hkind] using hX.word e name hx hkind
    refine .of_item (by simp [hkind]) (by simp [isProduct, hkind]) (by simp [number?, hkind])
      (hstep e he (.symbol hkind hx)) ?_ fun _ => hatom
    rw [item_eq_atom (by simp [power?, hkind])]
    exact hatom
  | @literal e m hkind =>
    refine .of_term (by simp [hkind]) (by simp [power?, hkind]) (hstep e he (.literal hkind))
      (fun first => ?_) fun hQ => ?_
    · rw [term_of_number hkind]
      exact ⟨by simp, by simp⟩
    · simp only [atom, hkind]
      split
      · exact hQ
      · trivial
  | @sum e first others hkind hfirst hfirst' hothers hothers' hliterals ihfirst ihothers =>
    have hbelow := hs.children he
    simp only [children, hkind, Kind.children, Store.knows_cons] at hbelow
    have houtline : ∀ t ∈ e.outline, t.Within Q := by
      rw [outline_of_sum hkind]
      refine List.forall_mem_cons.2 ⟨(ihfirst hbelow.1).term true, ?_⟩
      rintro _ hmem
      obtain ⟨t, ht, rfl⟩ := List.mem_map.1 hmem
      exact (ihothers t ht (hbelow.2 t ht)).term false
    have hQ := hstep e he (.sum hkind hfirst hfirst' hothers hothers' hliterals) houtline
    have hatom : e.atom.Within Q := by simpa [atom, hkind] using hQ
    have hitem : e.item.Within Q := by simpa [item_eq_atom, power?, hkind] using hatom
    refine ⟨hQ, hatom, hitem, fun first => ?_, houtline⟩
    rw [term_eq_item (by simp [number?, hkind]) (by simp [isProduct, hkind])]
    exact ⟨by simp, by simpa using hitem⟩
  | @product e t a hkind hm ht hone ha haproduct hanumber iht iha =>
    obtain ⟨hknown, hknown'⟩ := hs.knows_of_apply he hkind
    have hitem := (iha hknown').item
    -- A product is no power, since a power is an application of a function.
    have hpower : e.power? = none := by
      refine Option.eq_none_iff_forall_ne_some.2 fun p hp => ?_
      have hproduct := isProduct_of_power? hp
      rw [isProduct_of_kind hkind, hm] at hproduct
      cases hproduct
    refine .of_term (by simp [hkind]) hpower
      (hstep e he (.product hkind hm ht hone ha haproduct hanumber)) (fun first => ?_) fun hQ => ?_
    · rw [term_of_product hkind hm]
      split
      · exact ⟨by simp, by simpa using hitem⟩
      · exact ⟨by simp, List.forall_mem_append.2
          ⟨((iht hknown).term first).items, by simpa using hitem⟩⟩
    · rw [atom_of_product hkind hm]
      exact hQ
  | @power e b n hpower hb hn ihb ihn =>
    obtain ⟨t, a, hkind, -⟩ := power?_eq_some.1 hpower
    obtain ⟨hbk, hnk⟩ := knows_power? hs he hpower
    refine .of_item (by simp [hkind]) (isProduct_of_power? hpower) (by simp [number?, hkind])
      (hstep e he (.power hpower hb hn)) ?_ fun hQ => ?_
    · rw [item_of_power hpower]
      refine ⟨(ihb hbk).atom, ?_⟩
      unfold exponent
      split
      · trivial
      · exact (ihn hnk).atom
    · rw [atom_of_power hpower]
      exact hQ
  | @call e t a f hkind ht hf ha iha =>
    have hatom : e.atom.Within Q := by
      rw [atom_of_call hkind ht hf]
      exact (iha (hs.knows_of_apply he hkind).2).self
    have hproduct : e.isProduct = false := by
      rw [isProduct_of_kind hkind, not_multiplies_of_function? (by simp [function?, ht])]
    refine .of_item (by simp [hkind]) hproduct (by simp [number?, hkind])
      (hstep e he (.call hkind ht hf ha)) ?_ fun _ => hatom
    rw [item_eq_atom (power?_of_call hkind ht hf)]
    exact hatom

/-! ## Nodes from their outlines -/

lemma eq_of_atom_group (h : e.atom = .group b) : e = b := by
  unfold atom at h
  repeat' split at h
  all_goals cases h
  all_goals rfl

lemma kind_of_atom_name {letters : List Char} (h : e.atom = .name letters) :
    ∃ name, e.kind = .symbol name ∧ name.toList = letters := by
  unfold atom at h
  repeat' split at h
  all_goals cases h
  exact ⟨_, ‹_›, rfl⟩

lemma kind_of_atom_numeral {k : ℕ} (h : e.atom = .numeral k) :
    ∃ m, e.kind = .number (.int m) ∧ ¬m < 0 ∧ magnitude true m = k := by
  unfold atom at h
  repeat' split at h
  all_goals cases h
  exact ⟨_, ‹_›, ‹_›, rfl⟩

lemma kind_of_atom_call {f : Builtin} (h : e.atom = .call f a) :
    ∃ t, e.kind = .apply t a ∧ t.kind = .function (.builtin f) := by
  unfold atom at h
  repeat' split at h
  all_goals cases h
  exact ⟨_, ‹_›, rfl⟩

/-- A literal is given by its sign and what is written for it without. -/
lemma magnitude_inj {first : Bool} {m k : Int64} (hsign : m < 0 ↔ k < 0)
    (h : magnitude first m = magnitude first k) : m = k := by
  have hmin : Int64.minValue.toInt = -2 ^ 63 := Int64.toInt_minValue
  have hmagnitude (m : Int64) : m.toInt = -2 ^ 63 ∧ magnitude first m = 9223372036854776000 ∨
      magnitude first m = m.toInt.natAbs := by
    unfold magnitude
    split
    case isTrue h => exact .inl ⟨by rw [h.2, hmin], rfl⟩
    case isFalse => exact .inr rfl
  have hm := m.le_toInt
  have hm' := m.toInt_lt
  have hk := k.le_toInt
  have hk' := k.toInt_lt
  rw [Int64.lt_iff_toInt_lt, Int64.lt_iff_toInt_lt, Int64.toInt_zero] at hsign
  refine Int64.toInt_inj.1 ?_
  rcases hmagnitude m with ⟨hm, hm'⟩ | hm' <;> rcases hmagnitude k with ⟨hk, hk'⟩ | hk' <;> omega

/-- A term has a factor. -/
lemma items_term_ne_nil (e : Expr) (first : Bool) : (e.term first).items ≠ [] := by
  rw [term.eq_def]
  split
  · simp
  · split
    · split <;> simp
    · simp
  · simp

/-- What stands in front of the last factor of a product. -/
def lead (first : Bool) (t : Expr) : Term :=
  if t.number? = some (.int (-1)) then ⟨true, []⟩ else t.term first

lemma term_eq_lead (hkind : e.kind = .apply t a) (hm : multiplies t a = true) (first : Bool) :
    e.term first = ⟨(t.lead first).negative, (t.lead first).items ++ [a.item]⟩ := by
  rw [term_of_product hkind hm, lead]
  split <;> rfl

lemma item_ne_numeral (h : e.number? = none) (k : ℕ) : e.item ≠ .atom (.numeral k) := by
  intro hitem
  unfold item at hitem
  split at hitem
  · split at hitem <;> cases hitem
  · obtain ⟨m, hkind, -⟩ := kind_of_atom_numeral (Item.atom.inj hitem)
    simp [number?, hkind] at h

namespace Legible

lemma of_symbol {name : String} (h : Legible X e) (hkind : e.kind = .symbol name) : X e := by
  cases h with
  | symbol _ hx => exact hx
  | literal hkind' | sum hkind' _ _ _ _ _ | product hkind' _ _ _ _ _ _ | call hkind' _ _ _ =>
    simp [hkind'] at hkind
  | power hpower _ _ =>
    obtain ⟨t, a, hkind', -⟩ := power?_eq_some.1 hpower
    simp [hkind'] at hkind

lemma of_power (h : Legible X e) (hpower : e.power? = some (b, n)) : Legible X b ∧ Legible X n := by
  obtain ⟨t, a, hkind, ht, -⟩ := power?_eq_some.1 hpower
  cases h with
  | symbol hkind' _ | literal hkind' | sum hkind' _ _ _ _ _ => simp [hkind'] at hkind
  | product hkind' hm _ _ _ _ _ =>
    have hproduct := isProduct_of_power? hpower
    rw [isProduct_of_kind hkind', hm] at hproduct
    cases hproduct
  | power hpower' hb hn =>
    rw [hpower] at hpower'
    cases hpower'
    exact ⟨hb, hn⟩
  | call hkind' ht' hf _ =>
    rw [power?_of_call hkind' ht' hf] at hpower
    cases hpower

lemma of_product (h : Legible X e) (hproduct : e.isProduct = true) :
    ∃ t a, e.kind = .apply t a ∧ multiplies t a = true ∧ Legible X t ∧ Legible X a ∧
      a.isProduct = false ∧ a.number? = none := by
  cases h with
  | symbol hkind _ | literal hkind | sum hkind _ _ _ _ _ => simp [isProduct, hkind] at hproduct
  | product hkind hm ht _ ha haproduct hanumber => exact ⟨_, _, hkind, hm, ht, ha, haproduct, hanumber⟩
  | power hpower _ _ => simp [isProduct_of_power? hpower] at hproduct
  | call hkind ht _ _ => simp [isProduct, hkind, multiplies, function?, ht] at hproduct

end Legible

namespace Legible

section Parts

variable (hs : s.WellFormed) (hX : IsAlphabet X) (h : Legible X e) (h' : Legible X e')
  (he : s.Knows e) (he' : s.Knows e')

include hs hX h h' he he'

/-- An expression is given by its atom. -/
lemma eq_of_atom (heq : e.atom = e'.atom) : e = e' := by
  cases hatom : e.atom with
  | numeral k =>
    obtain ⟨m, hkind, hsign, hm⟩ := kind_of_atom_numeral hatom
    obtain ⟨m', hkind', hsign', hm'⟩ := kind_of_atom_numeral (heq ▸ hatom)
    obtain rfl : m = m' := magnitude_inj (by simp [hsign, hsign']) (hm.trans hm'.symm)
    exact hs.eq_of_kind he he' hkind hkind' (by simp [Kind.code])
  | name letters =>
    obtain ⟨name, hkind, hname⟩ := kind_of_atom_name hatom
    obtain ⟨name', hkind', hname'⟩ := kind_of_atom_name (heq ▸ hatom)
    obtain rfl : name = name' := String.toList_inj.1 (hname.trans hname'.symm)
    exact hX.unique e e' name (h.of_symbol hkind) (h'.of_symbol hkind') hkind hkind'
  | call f a =>
    obtain ⟨t, hkind, ht⟩ := kind_of_atom_call hatom
    obtain ⟨t', hkind', ht'⟩ := kind_of_atom_call (heq ▸ hatom)
    obtain rfl : t = t' := hs.eq_of_kind (hs.knows_of_apply he hkind).1
      (hs.knows_of_apply he' hkind').1 ht ht' (by simp [Kind.code])
    exact hs.eq_of_kind he he' hkind hkind' (by simp [Kind.code])
  | group b => exact (eq_of_atom_group hatom).trans (eq_of_atom_group (heq ▸ hatom)).symm

/-- An exponent is given by its sign and its atom: the atom of what is no literal is no numeral. -/
lemma eq_of_exponent (heq : e.exponent = e'.exponent) : e = e' := by
  have hnumeral {n : Expr} (hn : n.number? = none) (k : ℕ) : n.atom ≠ .numeral k := fun hatom => by
    obtain ⟨m, hkind, -⟩ := kind_of_atom_numeral hatom
    simp [number?, hkind] at hn
  cases hnumber : e.number? with
  | none =>
    rw [exponent_eq_atom hnumber] at heq
    cases hnumber' : e'.number? with
    | none =>
      rw [exponent_eq_atom hnumber'] at heq
      exact eq_of_atom hs hX h h' he he' (Prod.mk.inj heq).2
    | some m =>
      obtain ⟨k, hkind⟩ := h'.exists_literal hnumber'
      rw [exponent_of_number hkind] at heq
      exact absurd (Prod.mk.inj heq).2 (hnumeral hnumber _)
  | some m =>
    obtain ⟨k, hkind⟩ := h.exists_literal hnumber
    rw [exponent_of_number hkind] at heq
    cases hnumber' : e'.number? with
    | none =>
      rw [exponent_eq_atom hnumber'] at heq
      exact absurd (Prod.mk.inj heq).2.symm (hnumeral hnumber' _)
    | some m' =>
      obtain ⟨k', hkind'⟩ := h'.exists_literal hnumber'
      rw [exponent_of_number hkind', Prod.mk.injEq, decide_eq_decide, Outline.Atom.numeral.injEq] at heq
      obtain rfl := magnitude_inj heq.1 heq.2
      exact hs.eq_of_kind he he' hkind hkind' (by simp [Kind.code])

/-- A factor is given by its item. -/
lemma eq_of_item (heq : e.item = e'.item) : e = e' := by
  cases hpower : e.power? with
  | none =>
    rw [item_eq_atom hpower] at heq
    cases hpower' : e'.power? with
    | none =>
      rw [item_eq_atom hpower', Item.atom.injEq] at heq
      exact eq_of_atom hs hX h h' he he' heq
    | some p =>
      rw [item_of_power hpower'] at heq
      cases heq
  | some p =>
    obtain ⟨b, n⟩ := p
    rw [item_of_power hpower] at heq
    cases hpower' : e'.power? with
    | none =>
      rw [item_eq_atom hpower'] at heq
      cases heq
    | some p' =>
      obtain ⟨b', n'⟩ := p'
      rw [item_of_power hpower', Item.power.injEq] at heq
      obtain ⟨hbase, hsign, hexponent⟩ := heq
      obtain ⟨hb, hn⟩ := h.of_power hpower
      obtain ⟨hb', hn'⟩ := h'.of_power hpower'
      obtain ⟨hbk, hnk⟩ := knows_power? hs he hpower
      obtain ⟨hbk', hnk'⟩ := knows_power? hs he' hpower'
      obtain rfl := eq_of_atom hs hX hb hb' hbk hbk' hbase
      obtain rfl := eq_of_exponent hs hX hn hn' hnk hnk' (Prod.ext hsign hexponent)
      exact eq_of_power? hs he he' hpower hpower'

end Parts

/-- A product is not mistaken for a factor or a literal. -/
lemma term_ne (h : Legible X e) (h' : Legible X e') (hproduct : e.isProduct = true)
    (hproduct' : e'.isProduct = false) (first : Bool) : e.term first ≠ e'.term first := by
  obtain ⟨t, a, hkind, hm, ht, ha, haproduct, hanumber⟩ := h.of_product hproduct
  have hlength : 2 ≤ ((t.term first).items ++ [a.item]).length := by
    have hpos := List.length_pos_of_ne_nil (items_term_ne_nil t first)
    rw [List.length_append, List.length_singleton]
    omega
  intro heq
  rw [term_of_product hkind hm] at heq
  cases hnumber' : e'.number? with
  | none =>
    rw [term_eq_item hnumber' hproduct'] at heq
    split at heq
    · cases heq
    · rw [(Term.mk.inj heq).2, List.length_singleton] at hlength
      omega
  | some m =>
    obtain ⟨k, hkind'⟩ := h'.exists_literal hnumber'
    rw [term_of_number hkind'] at heq
    split at heq
    · exact item_ne_numeral hanumber _ (List.cons.inj (Term.mk.inj heq).2).1
    · rw [(Term.mk.inj heq).2, List.length_singleton] at hlength
      omega

section Terms

variable (hs : s.WellFormed) (hX : IsAlphabet X)

include hs hX

/-- A term that is no product is given by its sign and its item. -/
lemma eq_of_term_single (h : Legible X e) (h' : Legible X e') (he : s.Knows e) (he' : s.Knows e')
    (hproduct : e.isProduct = false) (hproduct' : e'.isProduct = false) {first : Bool}
    (heq : e.term first = e'.term first) : e = e' := by
  cases hnumber : e.number? with
  | none =>
    rw [term_eq_item hnumber hproduct] at heq
    cases hnumber' : e'.number? with
    | none =>
      rw [term_eq_item hnumber' hproduct', Term.mk.injEq, List.cons.injEq] at heq
      exact eq_of_item hs hX h h' he he' heq.2.1
    | some m' =>
      obtain ⟨k', hkind'⟩ := h'.exists_literal hnumber'
      rw [term_of_number hkind', Term.mk.injEq, List.cons.injEq] at heq
      exact absurd heq.2.1 (item_ne_numeral hnumber _)
  | some m =>
    obtain ⟨k, hkind⟩ := h.exists_literal hnumber
    rw [term_of_number hkind] at heq
    cases hnumber' : e'.number? with
    | none =>
      rw [term_eq_item hnumber' hproduct', Term.mk.injEq, List.cons.injEq] at heq
      exact absurd heq.2.1.symm (item_ne_numeral hnumber' _)
    | some m' =>
      obtain ⟨k', hkind'⟩ := h'.exists_literal hnumber'
      rw [term_of_number hkind'] at heq
      simp only [Term.mk.injEq, decide_eq_decide, List.cons.injEq, Item.atom.injEq,
        Atom.numeral.injEq, and_true] at heq
      obtain rfl := magnitude_inj heq.1 heq.2
      exact hs.eq_of_kind he he' hkind hkind' (by simp [Kind.code])

/-- A term is given by its sign and its items: the last item of a product is that of its last factor, and
the sign and the other items are those of the other factors. -/
lemma eq_of_term (h : Legible X e) (h' : Legible X e') (he : s.Knows e) (he' : s.Knows e')
    {first : Bool} (heq : e.term first = e'.term first) : e = e' := by
  induction hsize : sizeOf e using Nat.strongRecOn generalizing e e' with
  | _ size ih =>
    subst hsize
    cases hproduct : e.isProduct with
    | false =>
      cases hproduct' : e'.isProduct with
      | false => exact eq_of_term_single hs hX h h' he he' hproduct hproduct' heq
      | true => exact absurd heq.symm (term_ne h' h hproduct' hproduct first)
    | true =>
      cases hproduct' : e'.isProduct with
      | false => exact absurd heq (term_ne h h' hproduct hproduct' first)
      | true =>
        obtain ⟨t, a, hkind, hm, ht, ha, -⟩ := h.of_product hproduct
        obtain ⟨t', a', hkind', hm', ht', ha', -⟩ := h'.of_product hproduct'
        obtain ⟨hknownt, hknowna⟩ := hs.knows_of_apply he hkind
        obtain ⟨hknownt', hknowna'⟩ := hs.knows_of_apply he' hkind'
        rw [term_eq_lead hkind hm, term_eq_lead hkind' hm', Term.mk.injEq] at heq
        obtain ⟨hitems, hlast⟩ := List.append_inj' heq.2 rfl
        obtain rfl := eq_of_item hs hX ha ha' hknowna hknowna' (List.cons.inj hlast).1
        have hleads : t.lead first = t'.lead first := by
          cases hlead : t.lead first
          cases hlead' : t'.lead first
          simp_all
        obtain rfl : t = t' := by
          unfold lead at hleads
          split at hleads
          case isTrue hone =>
            split at hleads
            case isTrue hone' =>
              exact hs.eq_of_kind hknownt hknownt' (kind_of_number? hone) (kind_of_number? hone')
                (by simp [Kind.code])
            case isFalse => exact absurd (congrArg Term.items hleads).symm (items_term_ne_nil t' first)
          case isFalse =>
            split at hleads
            case isTrue => exact absurd (congrArg Term.items hleads) (items_term_ne_nil t first)
            case isFalse =>
              exact ih _ (sizeOf_lt_of_mem_children (by simp [children, hkind, Kind.children])) ht ht'
                hknownt hknownt' hleads rfl
        exact hs.eq_of_kind he he' hkind hkind' (by simp [Kind.code])

lemma eq_of_terms {l l' : List Expr} (h : ∀ t ∈ l, Legible X t) (h' : ∀ t ∈ l', Legible X t)
    (hl : s.Knows l) (hl' : s.Knows l') {first : Bool} (heq : l.map (term first) = l'.map (term first)) :
    l = l' := by
  induction l generalizing l' with
  | nil => exact (List.map_eq_nil_iff.1 heq.symm).symm
  | cons t l ih =>
    cases l' with
    | nil => cases heq
    | cons t' l' =>
      rw [List.map_cons, List.map_cons, List.cons.injEq] at heq
      rw [List.forall_mem_cons] at h h'
      rw [Store.knows_cons] at hl hl'
      rw [eq_of_term hs hX h.1 h'.1 hl.1 hl'.1 heq.1, ih h.2 h'.2 hl.2 hl'.2 heq.2]

/-- A formula is given by its outline: there is more than one term for a sum only. -/
lemma eq_of_outline (hformed : s.Formed) (h : Legible X e) (h' : Legible X e') (he : s.Knows e)
    (he' : s.Knows e') (heq : e.outline = e'.outline) : e = e' := by
  have hshape {e : Expr} (h : Legible X e) (he : s.Knows e) :
      (∃ first others, e.kind = .sum (first :: others) ∧ others ≠ [] ∧ s.Knows (first :: others) ∧
        Legible X first ∧ ∀ t ∈ others, Legible X t) ∨ ∀ terms, e.kind ≠ .sum terms := by
    cases h with
    | sum hkind hfirst _ hothers _ _ =>
      have hne := hformed e he
      have hbelow := hs.children he
      simp only [hkind, Kind.isFormed, List.length_cons, decide_eq_true_eq] at hne
      rw [children, hkind, Kind.children] at hbelow
      exact .inl ⟨_, _, hkind, List.ne_nil_of_length_pos (by omega), hbelow, hfirst, hothers⟩
    | symbol hkind _ | literal hkind | product hkind _ _ _ _ _ _ | call hkind _ _ _ =>
      exact .inr fun terms => by simp [hkind]
    | power hpower _ _ =>
      obtain ⟨t, a, hkind, -⟩ := power?_eq_some.1 hpower
      exact .inr fun terms => by simp [hkind]
  rcases hshape h he with ⟨first, others, hkind, hne, hknown, hfirst, hothers⟩ | hsum
  · rcases hshape h' he' with ⟨first', others', hkind', hne', hknown', hfirst', hothers'⟩ | hsum'
    · rw [outline_of_sum hkind, outline_of_sum hkind', List.cons.injEq] at heq
      rw [Store.knows_cons] at hknown hknown'
      obtain rfl := eq_of_term hs hX hfirst hfirst' hknown.1 hknown'.1 heq.1
      obtain rfl := eq_of_terms hs hX hothers hothers' hknown.2 hknown'.2 heq.2
      exact hs.eq_of_kind he he' hkind hkind' (by simp [Kind.code])
    · rw [outline_of_sum hkind, outline_eq_term hsum', List.cons.injEq, List.map_eq_nil_iff] at heq
      exact absurd heq.2 hne
  · rcases hshape h' he' with ⟨first', others', hkind', hne', hknown', hfirst', hothers'⟩ | hsum'
    · rw [outline_eq_term hsum, outline_of_sum hkind', List.cons.injEq, eq_comm (a := []),
        List.map_eq_nil_iff] at heq
      exact absurd heq.2 hne'
    · rw [outline_eq_term hsum, outline_eq_term hsum', List.cons.injEq] at heq
      exact eq_of_term hs hX h h' he he' heq.1

/-- A formula is given by its text, and in parentheses the text ends in only one place. -/
lemma recognized (hformed : s.Formed) (h : Legible X e) (he : s.Knows e) :
    Recognized (fun b => s.Knows b ∧ Legible X b) e := by
  refine (settled hX hs (fun e he h hwithin => ?_) h he).self
  intro e' h' r r' hr hr' heq
  have hwithin' := (settled (Q := fun b => s.Knows b ∧ Legible X b) hX hs
    (fun e he h _ => ⟨he, h⟩) h'.2 h'.1).outline
  rw [h.toList_text, h'.2.toList_text] at heq
  obtain ⟨houtlines, rfl⟩ := Outline.chars_eq hwithin hwithin' (outline_ne_nil e) (outline_ne_nil e')
    hr hr' heq
  exact ⟨h.eq_of_outline hs hX hformed h'.2 he h'.1 houtlines, rfl⟩

end Terms

end Legible

end Expr

namespace Store.Reachable

variable {s : Store}

/-- **Texts are unambiguous.**  Let the symbols in `X` have names of their own that consist of letters, and
let `a` and `b` be formulas over them: built from integer literals too by flat sums with a literal at the
front at most, products that lean to the left with a literal at the front at most, which is not one, powers
and calls of built-in functions of one argument.  If `a` and `b` have one text, they are one node. -/
theorem eq_of_text (hs : s.Reachable) {X : Expr → Prop} (hX : Expr.IsAlphabet X) {a b : Expr}
    (ha : s.Knows a) (hb : s.Knows b) (hla : a.Legible X) (hlb : b.Legible X) (h : a.text = b.text) :
    a = b := by
  have hrecognized := hla.recognized hs.wellFormed hX hs.formed ha
  exact (hrecognized b ⟨hb, hlb⟩ [] [] (Outline.Stops.nil _) (Outline.Stops.nil _) (by rw [h])).1

/-- The sum of two symbols is asked for in either order, and the text is the same. -/
theorem eq_of_text_sum :
    let x : Expr := .node 50 .reals (.symbol "x")
    let y : Expr := .node 51 .reals (.symbol "y")
    let a : Expr := .node 52 .reals (.sum [x, y])
    let s := finalState ((Operation.sum [x, y]).run 9 (finalState ((Operation.symbol "y" .reals).run 9
      (finalState ((Operation.symbol "x" .reals).run 9 initial)))))
    initial.Reaches s ∧ Expr.IsAlphabet (fun e => e = x ∨ e = y) ∧ s.Knows a ∧
      a.Legible (fun e => e = x ∨ e = y) ∧
      ∃ b, Expr.sum [y, x] 9 s = .ok b s ∧ s.Knows b ∧ b.Legible (fun e => e = x ∨ e = y) ∧
        a.text = b.text ∧ a = b := by
  intro x y a s
  have hs : initial.Reaches s := by
    refine .step _ 9 (.step _ 9 (.step _ 9 .refl trivial) trivial) ?_
    simp only [Operation.KnownBy, knows_cons]
    exact ⟨rfl, rfl, by simp⟩
  have hX : Expr.IsAlphabet fun e => e = x ∨ e = y := by
    constructor
    · rintro e name (rfl | rfl) ⟨⟩ <;> decide
    · rintro e e' name (rfl | rfl) (rfl | rfl) ⟨⟩ h
      · rfl
      · simp [y, Expr.kind] at h
      · simp [x, Expr.kind] at h
      · rfl
  have ha : s.Knows a := by rfl
  have hlegible : a.Legible fun e => e = x ∨ e = y := by
    have hy : y.Legible fun e => e = x ∨ e = y := .symbol rfl (.inr rfl)
    refine .sum rfl (.symbol rfl (.inl rfl)) (by simp [x, Expr.kind]) ?_ ?_ ?_ <;>
      refine List.forall_mem_singleton.2 ?_
    · exact hy
    · simp [y, Expr.kind]
    · rfl
  exact ⟨hs, hX, ha, hlegible, a, rfl, ha, hlegible, rfl,
    eq_of_text hs.reachable hX ha ha hlegible hlegible rfl⟩

end Store.Reachable

end TermGraph
