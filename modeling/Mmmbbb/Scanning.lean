import Mmmbbb.Quoting

/-!
# Tokens

A text is cut into identifiers, quoted strings and single characters, with
blanks and comments left out, one character after the other. Numbers, character
literals and raw strings are refused: this scanner is for grammars in which no
place takes one.
-/

set_option autoImplicit false

namespace Scanning
open Runes Quoting

inductive Kind
  | ident
  | string
  | char
  deriving DecidableEq

structure Token where
  kind : Kind
  value : Bytes
  deriving DecidableEq

def identToken (name : List Char) : Token := ⟨.ident, encode name⟩
def stringToken (value : Bytes) : Token := ⟨.string, value⟩
def charToken (c : Char) : Token := ⟨.char, encode [c]⟩

def isIdentRune (u : Unicode) (c : Char) (first : Bool) : Bool :=
  c == '_' || u.isLetter c || (u.isDigit c && !first)

def isBlank (c : Char) : Bool := c == ' ' || c == '\t' || c == '\n' || c == '\r'

/-- Where the scanner is. A character of its own may still become a number or
a comment. -/
inductive State
  | ready
  | ident (name : List Char)
  | literal (value : Bytes) (place : Place)
  | dot
  | slash
  | lineComment
  | comment
  | star
  deriving DecidableEq

def start (u : Unicode) (c : Char) : Option (List Token × State) :=
  if isBlank c then some ([], .ready)
  else if isIdentRune u c true then some ([], .ident [c])
  else if c.isDigit then none
  else if c = '"' then some ([], .literal [] .plain)
  else if c = '\'' ∨ c = '\x60' then none
  else if c = '.' then some ([], .dot)
  else if c = '/' then some ([], .slash)
  else some ([charToken c], .ready)

def after (t : Token) (r : Option (List Token × State)) : Option (List Token × State) :=
  r.map (fun x => (t :: x.1, x.2))

def step (u : Unicode) : State → Char → Option (List Token × State)
  | .ready, c => start u c
  | .ident name, c =>
    if isIdentRune u c false then some ([], .ident (name ++ [c]))
    else after (identToken name) (start u c)
  | .literal value place, c =>
    if place = .plain ∧ c = '"' then some ([stringToken value], .ready)
    else (readChar place c).map (fun x => ([], .literal (value ++ x.1) x.2))
  | .dot, c => if c.isDigit then none else after (charToken '.') (start u c)
  | .slash, c =>
    if c = '/' then some ([], .lineComment)
    else if c = '*' then some ([], .comment)
    else after (charToken '/') (start u c)
  | .lineComment, c => some ([], if c = '\n' then .ready else .lineComment)
  | .comment, c => some ([], if c = '*' then .star else .comment)
  | .star, c => some ([], if c = '/' then .ready else if c = '*' then .star else .comment)

def run (u : Unicode) : State → List Char → Option (List Token × State)
  | st, [] => some ([], st)
  | st, c :: cs => do
    let (ts, st) ← step u st c
    let (us, st) ← run u st cs
    pure (ts ++ us, st)

def finish : State → Option (List Token)
  | .ready => some []
  | .ident name => some [identToken name]
  | .literal _ _ => none
  | .dot => some [charToken '.']
  | .slash => some [charToken '/']
  | .lineComment => some []
  | .comment => none
  | .star => none

def scan (u : Unicode) (cs : List Char) : Option (List Token) := do
  let (ts, st) ← run u .ready cs
  let us ← finish st
  pure (ts ++ us)

def byteOrderMark : Char := Char.ofNat 0xFEFF

/-- The tokens of a string. It may begin with a byte order mark; a zero byte
is refused, and so is what is not a character. -/
def tokens (u : Unicode) (bs : Bytes) : Option (List Token) := do
  let cs ← text bs
  if '\x00' ∈ cs then none
  else scan u (if cs.head? = some byteOrderMark then cs.tail else cs)

section
variable {u : Unicode} {st st' st'' : State} {c : Char} {cs ds : List Char} {ts us : List Token}

theorem run_cons (h : step u st c = some (ts, st')) (h' : run u st' cs = some (us, st'')) :
    run u st (c :: cs) = some (ts ++ us, st'') := by
  rw [run, h]
  change (run u st' cs).bind _ = _
  rw [h']
  rfl

theorem run_append (h : run u st cs = some (ts, st')) (h' : run u st' ds = some (us, st'')) :
    run u st (cs ++ ds) = some (ts ++ us, st'') := by
  induction cs generalizing st ts with
  | nil =>
    cases h
    exact h'
  | cons c cs ih =>
    rw [run] at h
    cases hc : step u st c with
    | none => simp [hc] at h
    | some x =>
      cases hcs : run u x.2 cs with
      | none => simp [hc, hcs] at h
      | some y =>
        simp only [hc, hcs, Option.bind_eq_bind, Option.bind_some, Option.pure_def,
          Option.some.injEq, Prod.mk.injEq] at h
        obtain ⟨rfl, rfl⟩ := h
        rw [List.cons_append, run_cons hc (ih hcs), List.append_assoc]

theorem run_after {t : Token} (hstep : step u st c = after t (start u c))
    (h : run u .ready (c :: cs) = some (ts, st')) :
    run u st (c :: cs) = some (t :: ts, st') := by
  rw [run] at h ⊢
  rw [hstep]
  cases hc : start u c with
  | none => simp [step, hc] at h
  | some x =>
    cases hcs : run u x.2 cs with
    | none => simp [step, hc, hcs] at h
    | some y =>
      simp only [step, hc, hcs, Option.bind_eq_bind, Option.bind_some, Option.pure_def,
        Option.some.injEq, Prod.mk.injEq] at h
      obtain ⟨rfl, rfl⟩ := h
      simp [after, hcs]

end

section
variable {u : Unicode} {c : Char} {cs ds name : List Char} {ts us : List Token}

def Closed (u : Unicode) (cs : List Char) (ts : List Token) : Prop :=
  run u .ready cs = some (ts, .ready)

/-- The text is read as these tokens, the last of which may be an identifier
that has not ended. -/
def Reads (u : Unicode) (cs : List Char) (ts : List Token) : Prop :=
  Closed u cs ts ∨ ∃ us name, ts = us ++ [identToken name] ∧
    run u .ready cs = some (us, .ident name)

theorem Closed.reads (h : Closed u cs ts) : Reads u cs ts := Or.inl h

theorem closed_nil : Closed u [] [] := rfl

theorem Closed.append (h : Closed u cs ts) (h' : Closed u ds us) :
    Closed u (cs ++ ds) (ts ++ us) := run_append h h'

theorem Closed.append_reads (h : Closed u cs ts) (h' : Reads u ds us) :
    Reads u (cs ++ ds) (ts ++ us) := by
  cases h' with
  | inl hclosed => exact (h.append hclosed).reads
  | inr hopen =>
    obtain ⟨vs, name, rfl, hrun⟩ := hopen
    exact Or.inr ⟨ts ++ vs, name, by rw [List.append_assoc], run_append h hrun⟩

theorem Reads.run (h : Reads u cs ts) (hc : isIdentRune u c false = false) {st : State}
    (h' : Scanning.run u .ready (c :: ds) = some (us, st)) :
    Scanning.run u .ready (cs ++ c :: ds) = some (ts ++ us, st) := by
  cases h with
  | inl hclosed => exact run_append hclosed h'
  | inr hopen =>
    obtain ⟨vs, name, rfl, hrun⟩ := hopen
    have hstep : step u (.ident name) c = after (identToken name) (start u c) := by
      simp [step, hc]
    rw [List.append_assoc]
    exact run_append hrun (run_after hstep h')

theorem Reads.append_closed (h : Reads u cs ts) (hc : isIdentRune u c false = false)
    (h' : Closed u (c :: ds) us) : Closed u (cs ++ c :: ds) (ts ++ us) := h.run hc h'

theorem Reads.append (h : Reads u cs ts) (hc : isIdentRune u c false = false)
    (h' : Reads u (c :: ds) us) : Reads u (cs ++ c :: ds) (ts ++ us) := by
  cases h' with
  | inl hclosed => exact (h.append_closed hc hclosed).reads
  | inr hopen =>
    obtain ⟨vs, name, rfl, hrun⟩ := hopen
    exact Or.inr ⟨ts ++ vs, name, by rw [List.append_assoc], h.run hc hrun⟩

theorem Reads.scan (h : Reads u cs ts) : Scanning.scan u cs = some ts := by
  cases h with
  | inl hclosed =>
    rw [Scanning.scan, show Scanning.run u .ready cs = _ from hclosed]
    simp [finish]
  | inr hopen =>
    obtain ⟨vs, name, rfl, hrun⟩ := hopen
    rw [Scanning.scan, hrun]
    simp [finish]

theorem Reads.dot (h : Reads u (c :: cs) ts) (hc : c.isDigit = false) :
    Reads u ('.' :: c :: cs) (charToken '.' :: ts) := by
  have hdot : step u .ready '.' = some ([], .dot) := by
    simp [step, start, isBlank, isIdentRune, u.letter_ascii '.' (by decide)]
  have hstep : step u .dot c = after (charToken '.') (start u c) := by
    simp [step, hc]
  cases h with
  | inl hclosed => exact Or.inl (run_cons hdot (run_after hstep hclosed))
  | inr hopen =>
    obtain ⟨vs, name, rfl, hrun⟩ := hopen
    exact Or.inr ⟨charToken '.' :: vs, name, rfl, run_cons hdot (run_after hstep hrun)⟩

end

section
variable {u : Unicode} {c : Char} {cs : List Char}

theorem isIdentRune_ascii (h : c.toNat < 128) (first : Bool) :
    isIdentRune u c first = (c == '_' || c.isAlpha || (c.isDigit && !first)) := by
  rw [isIdentRune, u.letter_ascii c h, u.digit_ascii c h]

theorem isIdentRune_rest (h : isIdentRune u c true = true) : isIdentRune u c false = true := by
  simp only [isIdentRune, Bool.not_true, Bool.and_false, Bool.or_false] at h
  simp [isIdentRune, h]

theorem isIdentRune_not_blank {first : Bool} (h : isIdentRune u c first = true) :
    isBlank c = false := by
  have hblank : ∀ b ∈ [' ', '\t', '\n', '\r'], isIdentRune u b first = false := by
    intro b hb
    have hascii : [' ', '\t', '\n', '\r'].all (fun b => decide (b.toNat < 128) &&
        !(b == '_' || b.isAlpha || b.isDigit)) = true := by decide
    have hb := List.all_eq_true.mp hascii b hb
    simp only [Bool.and_eq_true, decide_eq_true_eq, Bool.not_eq_true', Bool.or_eq_false_iff] at hb
    rw [isIdentRune_ascii hb.1, hb.2.1.1, hb.2.1.2, hb.2.2]
    rfl
  by_contra hb
  have hb : isBlank c = true := by
    simpa using hb
  have hmem : c ∈ [' ', '\t', '\n', '\r'] := by
    simpa [isBlank, or_assoc] using hb
  rw [hblank c hmem] at h
  cases h

theorem isIdentRune_not_digit (h : isIdentRune u c true = true) : c.isDigit = false := by
  by_contra hdigit
  have hdigit : c.isDigit = true := by
    simpa using hdigit
  have hlow : c.toNat < 128 := by
    simp only [Char.isDigit, Bool.and_eq_true, decide_eq_true_eq] at hdigit
    have hmax : c.val.toNat ≤ 57 := hdigit.2
    have hval : c.toNat = c.val.toNat := rfl
    omega
  have hnot : ∀ n < 128, (Char.ofNat n).isDigit = true →
      (Char.ofNat n == '_' || (Char.ofNat n).isAlpha) = false := by decide
  have hother := hnot c.toNat hlow
  rw [Char.ofNat_toNat] at hother
  rw [isIdentRune_ascii hlow, Bool.not_true, Bool.and_false, Bool.or_false, hother hdigit] at h
  cases h

theorem run_ident {name : List Char} (h : ∀ c ∈ cs, isIdentRune u c false = true) :
    run u (.ident name) cs = some ([], .ident (name ++ cs)) := by
  induction cs generalizing name with
  | nil => simp [run]
  | cons c cs ih =>
    have hstep : step u (.ident name) c = some ([], .ident (name ++ [c])) := by
      simp [step, h c (by simp)]
    have hrest := @ih (name ++ [c]) (fun d hd => h d (by simp [hd]))
    rw [run_cons hstep hrest]
    simp

theorem reads_ident (hc : isIdentRune u c true = true)
    (hcs : ∀ d ∈ cs, isIdentRune u d false = true) :
    Reads u (c :: cs) [identToken (c :: cs)] := by
  have hstep : step u .ready c = some ([], .ident [c]) := by
    simp [step, start, isIdentRune_not_blank hc, hc]
  exact Or.inr ⟨[], c :: cs, rfl, run_cons hstep (run_ident hcs)⟩

theorem reads_word {w : List Char} (hw : w ≠ [])
    (hall : w.all (fun d => decide (d.toNat < 128) && d.isAlpha) = true) :
    Reads u w [identToken w] := by
  have hrune : ∀ d ∈ w, ∀ first, isIdentRune u d first = true := by
    intro d hd first
    have hd := List.all_eq_true.mp hall d hd
    simp only [Bool.and_eq_true, decide_eq_true_eq] at hd
    rw [isIdentRune_ascii hd.1, hd.2]
    simp
  cases w with
  | nil => exact absurd rfl hw
  | cons c cs =>
    exact reads_ident (hrune c (by simp) true) (fun d hd => hrune d (by simp [hd]) false)

def Ordinary (c : Char) : Prop :=
  c.toNat < 128 ∧ (c == '_' || c.isAlphanum) = false ∧ isBlank c = false ∧
    c ∉ ['"', '\'', '\x60', '.', '/']

instance (c : Char) : Decidable (Ordinary c) := inferInstanceAs (Decidable (_ ∧ _ ∧ _ ∧ _))

theorem Ordinary.not_ident (h : Ordinary c) (first : Bool) : isIdentRune u c first = false := by
  obtain ⟨hlow, hnot, -, -⟩ := h
  rw [isIdentRune_ascii hlow]
  simp only [Char.isAlphanum, Bool.or_eq_false_iff] at hnot
  simp [hnot]

theorem Ordinary.not_digit (h : Ordinary c) : c.isDigit = false := by
  obtain ⟨-, hnot, -, -⟩ := h
  simp only [Char.isAlphanum, Bool.or_eq_false_iff] at hnot
  exact hnot.2.2

theorem closed_char (h : Ordinary c) : Closed u [c] [charToken c] := by
  have hident := h.not_ident (u := u) true
  have hdigit := h.not_digit
  obtain ⟨-, hnot, hblank, hspecial⟩ := h
  simp only [List.mem_cons, List.not_mem_nil, or_false, not_or] at hspecial
  have hstep : step u .ready c = some ([charToken c], .ready) := by
    simp [step, start, hblank, hident, hdigit, hspecial]
  exact run_cons hstep rfl

theorem closed_space : Closed u [' '] [] := by
  have hstep : step u .ready ' ' = some ([], .ready) := rfl
  exact run_cons hstep rfl

theorem space_not_ident : isIdentRune u ' ' false = false := by
  rw [isIdentRune_ascii (by decide)]
  rfl

theorem run_literal {value b : Bytes} {p q : Place} (h : read p cs = some (b, q)) :
    run u (.literal value p) cs = some ([], .literal (value ++ b) q) := by
  induction cs generalizing value p b with
  | nil =>
    cases h
    simp [run]
  | cons c cs ih =>
    obtain ⟨x, p', y, hc, hcs, rfl⟩ := read_cons_some h
    have hend : ¬ (p = .plain ∧ c = '"') := by
      rintro ⟨rfl, rfl⟩
      cases hc
    have hstep : step u (.literal value p) c = some ([], .literal (value ++ x) p') := by
      simp [step, hend, hc]
    rw [run_cons hstep (ih hcs), List.append_assoc]
    rfl

theorem closed_quote (bs : Bytes) : Closed u (quote u bs) [stringToken bs] := by
  have hopen : step u .ready '"' = some ([], .literal [] .plain) := by
    simp [step, start, isIdentRune_ascii (u := u) (c := '"') (by decide) true]
    decide
  have hbody := @run_literal u _ [] _ _ _ (read_quote u bs)
  have hclose : run u (.literal bs .plain) ['"'] = some ([stringToken bs], .ready) := rfl
  exact run_cons hopen (run_append hbody hclose)

end

end Scanning
