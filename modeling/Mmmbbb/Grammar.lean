import Mmmbbb.Filter
import Mmmbbb.Scanning

/-!
# The filter grammar

The grammar that the tags of the syntax tree give, as a relation between trees
and tokens, and the parser that reads it. The parser accepts what the grammar
derives and nothing else.
-/

set_option autoImplicit false

namespace Mmmbbb.Grammar
open Runes Quoting Scanning Mmmbbb.Filter

def Lit (s : String) (t : Token) : Prop := t.value = bytes s

def Name (t : Token) : Prop := t.kind = .ident ∨ t.kind = .string

inductive Operator : AttributeOperator → List Token → Prop
  | equal {e : Token} (he : Lit "=" e) : Operator .opEqual [e]
  | notEqual {n e : Token} (hn : Lit "!" n) (he : Lit "=" e) : Operator .opNotEqual [n, e]

inductive Basic : BasicExpression → List Token → Prop
  | has {a c t : Token} (ha : Lit "attributes" a) (hc : Lit ":" c) (ht : Name t) :
      Basic ⟨some ⟨t.value⟩, none, none⟩ [a, c, t]
  | value {a d t v : Token} {op : AttributeOperator} {os : List Token}
      (ha : Lit "attributes" a) (hd : Lit "." d) (ht : Name t) (ho : Operator op os)
      (hv : v.kind = .string) :
      Basic ⟨none, some ⟨t.value, op, v.value⟩, none⟩ (a :: d :: t :: (os ++ [v]))
  | predicate {p l a d t c v r : Token} (hp : Lit "hasPrefix" p) (hl : Lit "(" l)
      (ha : Lit "attributes" a) (hd : Lit "." d) (ht : Name t) (hc : Lit "," c)
      (hv : v.kind = .string) (hr : Lit ")" r) :
      Basic ⟨none, none, some ⟨.predicateHasPrefix, t.value, v.value⟩⟩ [p, l, a, d, t, c, v, r]

inductive Negation : Bool → List Token → Prop
  | absent : Negation false []
  | present {t : Token} (h : Lit "NOT" t ∨ Lit "-" t) : Negation true [t]

mutual

inductive Conditions : Condition → List Token → Prop
  | alone {t : Term} {us : List Token} (ht : Terms t us) : Conditions (.mk t none none) us
  | and {t s : Term} {ss : List Term} {us vs : List Token} (ht : Terms t us)
      (hs : Sequence "AND" (s :: ss) vs) : Conditions (.mk t (some (s :: ss)) none) (us ++ vs)
  | or {t s : Term} {ss : List Term} {us vs : List Token} (ht : Terms t us)
      (hs : Sequence "OR" (s :: ss) vs) : Conditions (.mk t none (some (s :: ss))) (us ++ vs)

inductive Terms : Term → List Token → Prop
  | basic {not : Bool} {b : BasicExpression} {ns us : List Token} (hn : Negation not ns)
      (hb : Basic b us) : Terms (.mk not (some b) none) (ns ++ us)
  | sub {not : Bool} {c : Condition} {l r : Token} {ns us : List Token} (hn : Negation not ns)
      (hl : Lit "(" l) (hc : Conditions c us) (hr : Lit ")" r) :
      Terms (.mk not none (some c)) (ns ++ l :: (us ++ [r]))

inductive Sequence : String → List Term → List Token → Prop
  | nil {op : String} : Sequence op [] []
  | cons {op : String} {o : Token} {t : Term} {ts : List Term} {us vs : List Token}
      (ho : Lit op o) (ht : Terms t us) (hs : Sequence op ts vs) :
      Sequence op (t :: ts) (o :: (us ++ vs))

end

abbrev Parse (α : Type) := StateT (List Token) Option α

def literal (s : String) : Parse Unit
  | [] => none
  | t :: ts => if t.value = bytes s then some ((), ts) else none

def name : Parse Bytes
  | [] => none
  | t :: ts => if t.kind = .ident ∨ t.kind = .string then some (t.value, ts) else none

def string : Parse Bytes
  | [] => none
  | t :: ts => if t.kind = .string then some (t.value, ts) else none

def parseOperator : Parse AttributeOperator :=
  (do
    literal "="
    pure .opEqual) <|>
  (do
    literal "!"
    literal "="
    pure .opNotEqual)

def parseHasAttribute : Parse HasAttribute := do
  literal "attributes"
  literal ":"
  let name ← name
  pure ⟨name⟩

def parseHasAttributeValue : Parse HasAttributeValue := do
  literal "attributes"
  literal "."
  let name ← name
  let op ← parseOperator
  let value ← string
  pure ⟨name, op, value⟩

def parseHasAttributePredicate : Parse HasAttributePredicate := do
  literal "hasPrefix"
  literal "("
  literal "attributes"
  literal "."
  let name ← name
  literal ","
  let value ← string
  literal ")"
  pure ⟨.predicateHasPrefix, name, value⟩

def parseBasicExpression : Parse BasicExpression :=
  (do
    let has ← parseHasAttribute
    pure ⟨some has, none, none⟩) <|>
  (do
    let value ← parseHasAttributeValue
    pure ⟨none, some value, none⟩) <|>
  (do
    let predicate ← parseHasAttributePredicate
    pure ⟨none, none, some predicate⟩)

def parseNot : Parse Bool :=
  (do
    literal "NOT" <|> literal "-"
    pure true) <|>
  pure false

mutual

def parseCondition : ℕ → Parse Condition
  | 0 => failure
  | n + 1 => do
    let term ← parseTerm n
    let and ← parseSequence "AND" n
    if and.isEmpty then
      let or ← parseSequence "OR" n
      pure (.mk term none (if or.isEmpty then none else some or))
    else pure (.mk term (some and) none)

def parseTerm : ℕ → Parse Term
  | 0 => failure
  | n + 1 => do
    let not ← parseNot
    (do
      let basic ← parseBasicExpression
      pure (.mk not (some basic) none)) <|>
    (do
      literal "("
      let sub ← parseCondition n
      literal ")"
      pure (.mk not none (some sub)))

def parseSequence (op : String) : ℕ → Parse (List Term)
  | 0 => pure []
  | n + 1 =>
    (do
      literal op
      let t ← parseTerm n
      let ts ← parseSequence op n
      pure (t :: ts)) <|>
    pure []

end

def parse (ts : List Token) : Option Condition :=
  match parseCondition (2 * ts.length) ts with
  | some (f, []) => some f
  | _ => none

def parseString (u : Unicode) (bs : Bytes) : Option Condition := tokens u bs >>= parse

section
variable {α β : Type} {p q : Parse α} {k : α → Parse β} {a b : α} {x : α × List Token}
  {y : β} {ts mid rest : List Token}

@[simp] theorem bind_run (p : Parse α) (k : α → Parse β) (ts : List Token) :
    (p >>= k) ts = (p ts).bind (fun x => k x.1 x.2) := rfl

@[simp] theorem map_run (g : α → β) (p : Parse α) (ts : List Token) :
    (g <$> p) ts = (p ts).map (fun x => (g x.1, x.2)) := by
  change (p ts).bind _ = _
  cases p ts <;> rfl

@[simp] theorem orElse_run (p q : Parse α) (ts : List Token) :
    (p <|> q) ts = (p ts).or (q ts) := by
  change (p ts).orElse _ = _
  rw [Option.orElse_eq_or]

@[simp] theorem pure_run (a : α) (ts : List Token) : (pure a : Parse α) ts = some (a, ts) := rfl

theorem bind_some : (p >>= k) ts = some (y, rest) ↔
    ∃ a mid, p ts = some (a, mid) ∧ k a mid = some (y, rest) := by
  change (p ts).bind _ = _ ↔ _
  rw [Option.bind_eq_some_iff]
  constructor
  · rintro ⟨⟨a, mid⟩, hp, hk⟩
    exact ⟨a, mid, hp, hk⟩
  · rintro ⟨a, mid, hp, hk⟩
    exact ⟨(a, mid), hp, hk⟩

theorem orElse_some (h : (p <|> q) ts = some x) : p ts = some x ∨ q ts = some x := by
  rw [orElse_run, Option.or_eq_some_iff] at h
  cases h with
  | inl hp => exact Or.inl hp
  | inr hq => exact Or.inr hq.2

theorem pure_some : (pure a : Parse α) ts = some (b, rest) ↔ a = b ∧ ts = rest := by
  change some (a, ts) = some (b, rest) ↔ _
  rw [Option.some_inj, Prod.mk.injEq]

end

section
variable {s s' : String} {t : Token} {n : Bytes} {ts rest : List Token}

theorem literal_ok (h : Lit s t) : literal s (t :: ts) = some ((), ts) := by
  exact if_pos h

theorem literal_none (s' : String) (ts : List Token) (h : Lit s t) (hne : bytes s ≠ bytes s') :
    literal s' (t :: ts) = none := by
  have hval : t.value ≠ bytes s' := by
    intro h'
    exact hne (h.symm.trans h')
  rw [literal, if_neg hval]

theorem literal_some {x : Unit} (h : literal s ts = some (x, rest)) :
    ∃ t, Lit s t ∧ ts = t :: rest := by
  cases ts with
  | nil => cases h
  | cons t ts =>
    rw [literal] at h
    split at h
    · rename_i hval
      cases h
      exact ⟨t, hval, rfl⟩
    · cases h

theorem name_ok (h : Name t) : name (t :: ts) = some (t.value, ts) := by
  exact if_pos h

theorem name_some (h : name ts = some (n, rest)) : ∃ t, Name t ∧ t.value = n ∧ ts = t :: rest := by
  cases ts with
  | nil => cases h
  | cons t ts =>
    rw [name] at h
    split at h
    · rename_i hkind
      cases h
      exact ⟨t, hkind, rfl, rfl⟩
    · cases h

theorem string_ok (h : t.kind = .string) : string (t :: ts) = some (t.value, ts) := by
  exact if_pos h

theorem string_some (h : string ts = some (n, rest)) :
    ∃ t, t.kind = .string ∧ t.value = n ∧ ts = t :: rest := by
  cases ts with
  | nil => cases h
  | cons t ts =>
    rw [string] at h
    split at h
    · rename_i hkind
      cases h
      exact ⟨t, hkind, rfl, rfl⟩
    · cases h

end

section
variable {ts rest : List Token}

theorem parseOperator_sound {op : AttributeOperator} (h : parseOperator ts = some (op, rest)) :
    ∃ us, Operator op us ∧ ts = us ++ rest := by
  cases orElse_some h with
  | inl h =>
    simp only [bind_some, pure_some] at h
    obtain ⟨_, _, he', rfl, rfl⟩ := h
    obtain ⟨e, he, rfl⟩ := literal_some he'
    exact ⟨[e], .equal he, rfl⟩
  | inr h =>
    simp only [bind_some, pure_some] at h
    obtain ⟨_, _, hn', _, _, he', rfl, rfl⟩ := h
    obtain ⟨n, hn, rfl⟩ := literal_some hn'
    obtain ⟨e, he, rfl⟩ := literal_some he'
    exact ⟨[n, e], .notEqual hn he, rfl⟩

theorem parseBasicExpression_sound {b : BasicExpression}
    (h : parseBasicExpression ts = some (b, rest)) : ∃ us, Basic b us ∧ ts = us ++ rest := by
  cases orElse_some h with
  | inl h =>
    simp only [parseHasAttribute, bind_some, pure_some] at h
    obtain ⟨_, _, ⟨_, _, ha', _, _, hc', _, _, ht', rfl, rfl⟩, rfl, rfl⟩ := h
    obtain ⟨a, ha, rfl⟩ := literal_some ha'
    obtain ⟨c, hc, rfl⟩ := literal_some hc'
    obtain ⟨t, ht, rfl, rfl⟩ := name_some ht'
    exact ⟨[a, c, t], .has ha hc ht, rfl⟩
  | inr h =>
    cases orElse_some h with
    | inl h =>
      simp only [parseHasAttributeValue, bind_some, pure_some] at h
      obtain ⟨_, _, ⟨_, _, ha', _, _, hd', _, _, ht', op, _, ho', _, _, hv', rfl, rfl⟩, rfl,
        rfl⟩ := h
      obtain ⟨a, ha, rfl⟩ := literal_some ha'
      obtain ⟨d, hd, rfl⟩ := literal_some hd'
      obtain ⟨t, ht, rfl, rfl⟩ := name_some ht'
      obtain ⟨os, ho, rfl⟩ := parseOperator_sound ho'
      obtain ⟨v, hv, rfl, rfl⟩ := string_some hv'
      exact ⟨a :: d :: t :: (os ++ [v]), .value ha hd ht ho hv, by simp⟩
    | inr h =>
      simp only [parseHasAttributePredicate, bind_some, pure_some] at h
      obtain ⟨_, _, ⟨_, _, hp', _, _, hl', _, _, ha', _, _, hd', _, _, ht', _, _, hc', _, _, hv',
        _, _, hr', rfl, rfl⟩, rfl, rfl⟩ := h
      obtain ⟨p, hp, rfl⟩ := literal_some hp'
      obtain ⟨l, hl, rfl⟩ := literal_some hl'
      obtain ⟨a, ha, rfl⟩ := literal_some ha'
      obtain ⟨d, hd, rfl⟩ := literal_some hd'
      obtain ⟨t, ht, rfl, rfl⟩ := name_some ht'
      obtain ⟨c, hc, rfl⟩ := literal_some hc'
      obtain ⟨v, hv, rfl, rfl⟩ := string_some hv'
      obtain ⟨r, hr, rfl⟩ := literal_some hr'
      exact ⟨[p, l, a, d, t, c, v, r], .predicate hp hl ha hd ht hc hv hr, rfl⟩

theorem parseNot_sound {not : Bool} (h : parseNot ts = some (not, rest)) :
    ∃ us, Negation not us ∧ ts = us ++ rest := by
  cases orElse_some h with
  | inl h =>
    simp only [bind_some, pure_some] at h
    obtain ⟨_, _, hn, rfl, rfl⟩ := h
    cases orElse_some hn with
    | inl hn =>
      obtain ⟨t, ht, rfl⟩ := literal_some hn
      exact ⟨[t], .present (Or.inl ht), rfl⟩
    | inr hn =>
      obtain ⟨t, ht, rfl⟩ := literal_some hn
      exact ⟨[t], .present (Or.inr ht), rfl⟩
  | inr h =>
    obtain ⟨rfl, rfl⟩ := pure_some.mp h
    exact ⟨[], .absent, rfl⟩

mutual

theorem parseCondition_sound (n : ℕ) {ts rest : List Token} {f : Condition}
    (h : parseCondition n ts = some (f, rest)) : ∃ us, Conditions f us ∧ ts = us ++ rest := by
  cases n with
  | zero => cases h
  | succ n =>
    rw [parseCondition, bind_some] at h
    obtain ⟨t, _, ht', h⟩ := h
    rw [bind_some] at h
    obtain ⟨and, _, hand', h⟩ := h
    obtain ⟨us, ht, rfl⟩ := parseTerm_sound n ht'
    obtain ⟨vs, hand, rfl⟩ := parseSequence_sound n hand'
    cases and with
    | cons s ss =>
      obtain ⟨rfl, rfl⟩ := pure_some.mp h
      exact ⟨us ++ vs, .and ht hand, (List.append_assoc us vs _).symm⟩
    | nil =>
      cases hand
      rw [List.isEmpty_nil, if_pos rfl, bind_some] at h
      obtain ⟨or, _, hor', h⟩ := h
      obtain ⟨ws, hor, rfl⟩ := parseSequence_sound n hor'
      obtain ⟨rfl, rfl⟩ := pure_some.mp h
      cases or with
      | nil =>
        cases hor
        exact ⟨us, .alone ht, rfl⟩
      | cons s ss => exact ⟨us ++ ws, .or ht hor, (List.append_assoc us ws _).symm⟩

theorem parseTerm_sound (n : ℕ) {ts rest : List Token} {t : Term}
    (h : parseTerm n ts = some (t, rest)) : ∃ us, Terms t us ∧ ts = us ++ rest := by
  cases n with
  | zero => cases h
  | succ n =>
    rw [parseTerm, bind_some] at h
    obtain ⟨not, _, hn', h⟩ := h
    obtain ⟨ns, hn, rfl⟩ := parseNot_sound hn'
    cases orElse_some h with
    | inl h =>
      simp only [bind_some, pure_some] at h
      obtain ⟨b, _, hb', rfl, rfl⟩ := h
      obtain ⟨us, hb, rfl⟩ := parseBasicExpression_sound hb'
      exact ⟨ns ++ us, .basic hn hb, (List.append_assoc ns us _).symm⟩
    | inr h =>
      simp only [bind_some, pure_some] at h
      obtain ⟨_, _, hl', c, _, hc', _, _, hr', rfl, rfl⟩ := h
      obtain ⟨l, hl, rfl⟩ := literal_some hl'
      obtain ⟨us, hc, rfl⟩ := parseCondition_sound n hc'
      obtain ⟨r, hr, rfl⟩ := literal_some hr'
      exact ⟨ns ++ l :: (us ++ [r]), .sub hn hl hc hr, by simp⟩

theorem parseSequence_sound (n : ℕ) {op : String} {ts rest : List Token} {ss : List Term}
    (h : parseSequence op n ts = some (ss, rest)) : ∃ us, Sequence op ss us ∧ ts = us ++ rest := by
  cases n with
  | zero =>
    rw [parseSequence] at h
    obtain ⟨rfl, rfl⟩ := pure_some.mp h
    exact ⟨[], .nil, rfl⟩
  | succ n =>
    rw [parseSequence] at h
    cases orElse_some h with
    | inl h =>
      simp only [bind_some, pure_some] at h
      obtain ⟨_, _, ho', t, _, ht', ss', _, hs', rfl, rfl⟩ := h
      obtain ⟨o, ho, rfl⟩ := literal_some ho'
      obtain ⟨us, ht, rfl⟩ := parseTerm_sound n ht'
      obtain ⟨vs, hs, rfl⟩ := parseSequence_sound n hs'
      exact ⟨o :: (us ++ vs), .cons ho ht hs, by simp⟩
    | inr h =>
      obtain ⟨rfl, rfl⟩ := pure_some.mp h
      exact ⟨[], .nil, rfl⟩

end

end

section
variable {ts us ns rest : List Token} {t : Token}

theorem parseOperator_complete {op : AttributeOperator} (h : Operator op us) :
    parseOperator (us ++ rest) = some (op, rest) := by
  cases h with
  | equal he => simp [parseOperator, literal_ok he]
  | @notEqual n e hn he =>
    have hequal := literal_none "=" (e :: rest) hn (by decide)
    simp [parseOperator, literal_ok he, literal_ok hn, hequal]

theorem Basic.head {b : BasicExpression} (h : Basic b us) :
    ∃ t vs, us = t :: vs ∧ (Lit "attributes" t ∨ Lit "hasPrefix" t) := by
  cases h with
  | has ha => exact ⟨_, _, rfl, Or.inl ha⟩
  | value ha => exact ⟨_, _, rfl, Or.inl ha⟩
  | predicate hp => exact ⟨_, _, rfl, Or.inr hp⟩

theorem parseBasicExpression_complete {b : BasicExpression} (rest : List Token)
    (h : Basic b us) :
    parseBasicExpression (us ++ rest) = some (b, rest) := by
  cases h with
  | has ha hc ht =>
    simp [parseBasicExpression, parseHasAttribute, literal_ok ha, literal_ok hc, name_ok ht]
  | @value a d t v op os ha hd ht ho hv =>
    have hcolon := literal_none ":" (t :: (os ++ v :: rest)) hd (by decide)
    simp [parseBasicExpression, parseHasAttribute, parseHasAttributeValue, literal_ok ha, hcolon,
      literal_ok hd, name_ok ht, parseOperator_complete ho, string_ok hv]
  | @predicate p l a d t c v r hp hl ha hd ht hc hv hr =>
    have hattributes := literal_none "attributes" (l :: a :: d :: t :: c :: v :: r :: rest) hp
      (by decide)
    simp [parseBasicExpression, parseHasAttribute, parseHasAttributeValue,
      parseHasAttributePredicate, hattributes, literal_ok hp, literal_ok hl, literal_ok ha,
      literal_ok hd, name_ok ht, literal_ok hc, string_ok hv, literal_ok hr]

theorem parseBasicExpression_none (ts : List Token) (h : Lit "(" t) :
    parseBasicExpression (t :: ts) = none := by
  have hattributes := literal_none "attributes" ts h (by decide)
  have hword := literal_none "hasPrefix" ts h (by decide)
  simp [parseBasicExpression, parseHasAttribute, parseHasAttributeValue,
    parseHasAttributePredicate, hattributes, hword]

theorem parseNot_complete {not : Bool} {s : String} (rest : List Token) (h : Negation not ns)
    (ht : Lit s t) (hs : s = "attributes" ∨ s = "hasPrefix" ∨ s = "(") :
    parseNot (ns ++ t :: rest) = some (not, t :: rest) := by
  cases h with
  | absent =>
    have hne : bytes s ≠ bytes "NOT" ∧ bytes s ≠ bytes "-" := by
      rcases hs with rfl | rfl | rfl <;> decide
    have hword := literal_none "NOT" rest ht hne.1
    have hsign := literal_none "-" rest ht hne.2
    simp [parseNot, hword, hsign]
  | @present n hn =>
    cases hn with
    | inl hn => simp [parseNot, literal_ok hn]
    | inr hn =>
      have hword := literal_none "NOT" (t :: rest) hn (by decide)
      simp [parseNot, literal_ok hn, hword]

theorem parseSequence_none {op : String} (n : ℕ) (h : literal op ts = none) :
    parseSequence op n ts = some ([], ts) := by
  cases n with
  | zero => rfl
  | succ n => simp [parseSequence, h]

theorem Basic.pos {b : BasicExpression} (h : Basic b us) : 0 < us.length := by
  cases h <;> simp

theorem Terms.pos {t : Term} (h : Terms t us) : 0 < us.length := by
  cases h with
  | basic hn hb =>
    have hpos := hb.pos
    rw [List.length_append]
    omega
  | sub => simp

def Ends (ts : List Token) : Prop := literal "AND" ts = none ∧ literal "OR" ts = none

theorem ends_nil : Ends [] := ⟨rfl, rfl⟩

theorem ends_close (h : Lit ")" t) : Ends (t :: ts) :=
  ⟨literal_none "AND" ts h (by decide), literal_none "OR" ts h (by decide)⟩

end

mutual

theorem parseCondition_complete (n : ℕ) {us : List Token} {f : Condition}
    (rest : List Token) (h : Conditions f us) (hn : 2 * us.length ≤ n) (hrest : Ends rest) :
    parseCondition n (us ++ rest) = some (f, rest) := by
  cases h with
  | alone ht =>
    have hpos := ht.pos
    obtain ⟨n, rfl⟩ := Nat.exists_eq_succ_of_ne_zero (by omega : n ≠ 0)
    have hterm := parseTerm_complete n rest ht (by omega)
    simp [parseCondition, hterm, parseSequence_none n hrest.1, parseSequence_none n hrest.2]
  | @and t s ss us vs ht hs =>
    have hpos := ht.pos
    rw [List.length_append] at hn
    obtain ⟨n, rfl⟩ := Nat.exists_eq_succ_of_ne_zero (by omega : n ≠ 0)
    have hterm := parseTerm_complete n (vs ++ rest) ht (by omega)
    have hand := parseSequence_complete n rest hs (by omega) hrest.1
    simp [parseCondition, hterm, hand]
  | @or t s ss us vs ht hs =>
    have hpos := ht.pos
    rw [List.length_append] at hn
    obtain ⟨n, rfl⟩ := Nat.exists_eq_succ_of_ne_zero (by omega : n ≠ 0)
    have hterm := parseTerm_complete n (vs ++ rest) ht (by omega)
    have hor := parseSequence_complete n rest hs (by omega) hrest.2
    have hand : literal "AND" (vs ++ rest) = none := by
      cases hs with
      | cons ho => exact literal_none "AND" _ ho (by decide)
    simp [parseCondition, hterm, parseSequence_none n hand, hor]

theorem parseTerm_complete (n : ℕ) {us : List Token} {t : Term} (rest : List Token) (h : Terms t us)
    (hn : 2 * us.length ≤ n + 1) : parseTerm n (us ++ rest) = some (t, rest) := by
  cases h with
  | @basic not b ns us hneg hb =>
    have hpos := hb.pos
    rw [List.length_append] at hn
    obtain ⟨n, rfl⟩ := Nat.exists_eq_succ_of_ne_zero (by omega : n ≠ 0)
    have hbasic := parseBasicExpression_complete rest hb
    obtain ⟨t, vs, rfl, ht⟩ := hb.head
    have hnot : parseNot (ns ++ t :: (vs ++ rest)) = some (not, t :: (vs ++ rest)) := by
      cases ht with
      | inl ht => exact parseNot_complete _ hneg ht (Or.inl rfl)
      | inr ht => exact parseNot_complete _ hneg ht (Or.inr (Or.inl rfl))
    rw [List.cons_append] at hbasic
    simp [parseTerm, hnot, hbasic]
  | @sub not c l r ns us hneg hl hc hr =>
    rw [List.length_append, List.length_cons, List.length_append, List.length_singleton] at hn
    obtain ⟨n, rfl⟩ := Nat.exists_eq_succ_of_ne_zero (by omega : n ≠ 0)
    have hnot := parseNot_complete (us ++ r :: rest) hneg hl (Or.inr (Or.inr rfl))
    have hbasic := parseBasicExpression_none (us ++ r :: rest) hl
    have hcondition := parseCondition_complete n (r :: rest) hc (by omega) (ends_close hr)
    simp [parseTerm, hnot, hbasic, literal_ok hl, hcondition, literal_ok hr]

theorem parseSequence_complete (n : ℕ) {op : String} {us : List Token} {ss : List Term}
    (rest : List Token) (h : Sequence op ss us) (hn : 2 * us.length ≤ n)
    (hrest : literal op rest = none) :
    parseSequence op n (us ++ rest) = some (ss, rest) := by
  cases h with
  | nil => exact parseSequence_none n hrest
  | @cons _ o t ts us vs ho ht hs =>
    rw [List.length_cons, List.length_append] at hn
    obtain ⟨n, rfl⟩ := Nat.exists_eq_succ_of_ne_zero (by omega : n ≠ 0)
    have hterm := parseTerm_complete n (vs ++ rest) ht (by omega)
    have hrec := parseSequence_complete n rest hs (by omega) hrest
    simp [parseSequence, literal_ok ho, hterm, hrec]

end

/-- The parser accepts what the grammar derives. -/
theorem parse_iff {ts : List Token} {f : Condition} : parse ts = some f ↔ Conditions f ts := by
  constructor
  · intro h
    rw [parse] at h
    split at h
    · rename_i f' hf
      cases h
      obtain ⟨us, hus, rfl⟩ := parseCondition_sound _ hf
      rw [List.append_nil]
      exact hus
    · cases h
  · intro h
    have hf := parseCondition_complete _ [] h le_rfl ends_nil
    rw [List.append_nil] at hf
    rw [parse, hf]

example : (parse [identToken "attributes".toList, charToken ':', identToken "x".toList]).isSome =
    true := by decide

end Mmmbbb.Grammar
