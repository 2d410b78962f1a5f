import Mmmbbb.Grammar

/-!
# Writing filters

A filter is written back as text. What is written for a parsed filter is read
as the same filter, except that nothing at all is written for an attribute name
that is empty.
-/

set_option autoImplicit false

namespace Mmmbbb.Filter
open Runes Quoting Scanning Grammar

def runeValue : Rune → Char
  | .char c => c
  | .bad _ => replacementChar

def isIdent (u : Unicode) (name : Bytes) : Bool :=
  match runes name with
  | [] => true
  | r :: rs =>
    isIdentRune u (runeValue r) true && rs.all (fun r => isIdentRune u (runeValue r) false)

def formatAttrName (u : Unicode) (name : Bytes) : Bytes :=
  if isIdent u name then name else encode (quote u name)

def AttributeOperator.text : AttributeOperator → String
  | .opEqual => "="
  | .opNotEqual => "!="
  | .other op => op

def AttributePredicate.text : AttributePredicate → String
  | .predicateHasPrefix => "hasPrefix"
  | .other predicate => predicate

def HasAttribute.asFilter (u : Unicode) (e : HasAttribute) : Bytes :=
  bytes "attributes:" ++ formatAttrName u e.name

def HasAttributeValue.asFilter (u : Unicode) (e : HasAttributeValue) : Bytes :=
  bytes "attributes." ++ formatAttrName u e.name ++ bytes e.op.text ++ encode (quote u e.value)

def HasAttributePredicate.asFilter (u : Unicode) (e : HasAttributePredicate) : Bytes :=
  bytes e.predicate.text ++ bytes "(attributes." ++ formatAttrName u e.name ++ bytes "," ++
    encode (quote u e.value) ++ bytes ")"

def BasicExpression.asFilter (u : Unicode) (e : BasicExpression) : Except String Bytes :=
  match e.has, e.value, e.predicate with
  | some has, _, _ => .ok (has.asFilter u)
  | none, some value, _ => .ok (value.asFilter u)
  | none, none, some predicate => .ok (predicate.asFilter u)
  | none, none, none => .error "unpopulated BasicExpression"

def appendTerm (op : String) (text : Except String Bytes) : Except String Bytes :=
  match text with
  | .ok text => .ok (bytes (" " ++ op ++ " ") ++ text)
  | .error e => .error ("error in " ++ op ++ " sequence Term: " ++ e)

mutual

/-- The text that reaches the writer; what is written before an error is left
out, and the writer itself does not fail. -/
def Condition.asFilter (u : Unicode) : Condition → Except String Bytes
  | .mk term and or => do
    let text ← term.asFilter u
    match and, or with
    | some terms, _ => return text ++ (← appendTerms u "AND" terms)
    | none, some terms => return text ++ (← appendTerms u "OR" terms)
    | none, none => return text

def Term.asFilter (u : Unicode) : Term → Except String Bytes
  | .mk not (some basic) _ => return bytes (if not then "NOT " else "") ++ (← basic.asFilter u)
  | .mk not none (some sub) =>
    return bytes (if not then "NOT " else "") ++ bytes "(" ++ (← sub.asFilter u) ++ bytes ")"
  | .mk _ none none => .error "unpopulated Term"

def appendTerms (u : Unicode) (op : String) : List Term → Except String Bytes
  | [] => .error ("unpopulated " ++ op ++ " sequence")
  | [t] => appendTerm op (t.asFilter u)
  | t :: ts => return (← appendTerm op (t.asFilter u)) ++ (← appendTerms u op ts)

end

def BasicExpression.names (e : BasicExpression) : List Bytes :=
  e.has.toList.map HasAttribute.name ++ e.value.toList.map HasAttributeValue.name ++
    e.predicate.toList.map HasAttributePredicate.name

mutual

def Condition.names : Condition → List Bytes
  | .mk term and or =>
    term.names ++
      (match and with
      | some terms => namesOf terms
      | none => []) ++
      (match or with
      | some terms => namesOf terms
      | none => [])

def Term.names : Term → List Bytes
  | .mk _ basic sub =>
    (match basic with
    | some basic => basic.names
    | none => []) ++
    (match sub with
    | some sub => sub.names
    | none => [])

def namesOf : List Term → List Bytes
  | [] => []
  | t :: ts => t.names ++ namesOf ts

end

section
variable {u : Unicode} {n : Bytes} {c : Char} {cs ds : List Char} {ts : List Token}

def nameChars (u : Unicode) (n : Bytes) : List Char :=
  if isIdent u n then (runes n).map runeValue else quote u n

def nameTokens (u : Unicode) (n : Bytes) : List Token :=
  if n = [] then [] else if isIdent u n then [⟨.ident, n⟩] else [stringToken n]

theorem replacement_not_ident (first : Bool) : isIdentRune u replacementChar first = false := by
  have hunder : (replacementChar == '_') = false := by decide
  simp [isIdentRune, hunder, u.letter_replacement, u.digit_replacement]

theorem isIdent_runes (h : isIdent u n = true) :
    ∀ r ∈ runes n, isIdentRune u (runeValue r) false = true := by
  rw [isIdent] at h
  intro r hr
  cases hn : runes n with
  | nil => simp [hn] at hr
  | cons r' rs =>
    rw [hn] at h hr
    simp only [Bool.and_eq_true, List.all_eq_true] at h
    cases List.mem_cons.mp hr with
    | inl heq => exact heq ▸ isIdentRune_rest h.1
    | inr hmem => exact h.2 r hmem

theorem isIdent_bytes (h : isIdent u n = true) : encode ((runes n).map runeValue) = n := by
  have hchar : ∀ r ∈ runes n, String.utf8EncodeChar (runeValue r) = r.bytes := by
    intro r hr
    have hident := isIdent_runes h r hr
    cases r with
    | char c => rfl
    | bad b =>
      rw [runeValue, replacement_not_ident] at hident
      cases hident
  rw [encode, List.flatMap_map]
  calc (runes n).flatMap (fun r => String.utf8EncodeChar (runeValue r))
      = (runes n).flatMap Rune.bytes := List.flatMap_congr hchar
    _ = n := bytes_runes n

theorem encode_nameChars (u : Unicode) (n : Bytes) :
    encode (nameChars u n) = formatAttrName u n := by
  rw [nameChars, formatAttrName]
  split
  · rename_i h
    exact isIdent_bytes h
  · rfl

theorem runes_eq_nil (h : runes n = []) : n = [] := by
  rw [← bytes_runes n, h]
  rfl

theorem nameChars_cases (u : Unicode) (n : Bytes) :
    n = [] ∧ nameChars u n = [] ∨
      n ≠ [] ∧ ∃ c cs, nameChars u n = c :: cs ∧ c.isDigit = false ∧
        Reads u (c :: cs) (nameTokens u n) := by
  by_cases hnil : n = []
  · subst hnil
    exact Or.inl ⟨rfl, rfl⟩
  · refine Or.inr ⟨hnil, ?_⟩
    rw [nameChars, nameTokens, if_neg hnil]
    by_cases hident : isIdent u n = true
    · rw [if_pos hident, if_pos hident]
      have hbytes := isIdent_bytes hident
      have hrest := isIdent_runes hident
      cases hn : runes n with
      | nil => exact absurd (runes_eq_nil hn) hnil
      | cons r rs =>
        rw [hn] at hbytes hrest
        have hfirst : isIdentRune u (runeValue r) true = true := by
          simp only [isIdent, hn, Bool.and_eq_true] at hident
          exact hident.1
        have hafter : ∀ d ∈ rs.map runeValue, isIdentRune u d false = true := by
          intro d hd
          obtain ⟨x, hx, rfl⟩ := List.mem_map.mp hd
          exact hrest x (by simp [hx])
        have hreads := reads_ident hfirst hafter
        rw [identToken, ← List.map_cons, hbytes] at hreads
        exact ⟨_, _, rfl, isIdentRune_not_digit hfirst, hreads⟩
    · rw [if_neg hident, if_neg hident]
      exact ⟨_, _, rfl, by decide, (closed_quote n).reads⟩

end

theorem nameChars_no_zero (u : Unicode) (n : Bytes) : '\x00' ∉ nameChars u n := by
  rw [nameChars]
  split
  · rename_i h
    rw [List.mem_map]
    rintro ⟨r, hr, hzero⟩
    have hident := isIdent_runes h r hr
    rw [hzero, isIdentRune_ascii (by decide)] at hident
    cases hident
  · exact quote_no_zero u n

theorem nameTokens_length (u : Unicode) (n : Bytes) :
    (nameTokens u n).length + [n].count [] = 1 := by
  rw [nameTokens]
  by_cases hnil : n = []
  · simp [hnil]
  · rw [if_neg hnil]
    split <;> simp [hnil]

theorem nameTokens_name {n : Bytes} (u : Unicode) (h : n ≠ []) :
    ∃ t, nameTokens u n = [t] ∧ Name t ∧ t.value = n := by
  rw [nameTokens, if_neg h]
  split
  · exact ⟨⟨.ident, n⟩, rfl, Or.inl rfl, rfl⟩
  · exact ⟨stringToken n, rfl, Or.inr rfl, rfl⟩

section
variable {u : Unicode} {c : Char} {cs ds : List Char} {ts : List Token}

def attributesToken : Token := identToken "attributes".toList

theorem reads_attributes : Reads u "attributes".toList [attributesToken] :=
  reads_word (by decide) (by decide)

theorem reads_has (u : Unicode) (n : Bytes) :
    Reads u ("attributes:".toList ++ nameChars u n)
      (attributesToken :: charToken ':' :: nameTokens u n) := by
  have hcolon : Ordinary ':' := by decide
  have hhead : Closed u ("attributes".toList ++ [':']) ([attributesToken] ++ [charToken ':']) :=
    reads_attributes.append_closed (hcolon.not_ident false) (closed_char hcolon)
  have hname : Reads u (nameChars u n) (nameTokens u n) := by
    rcases nameChars_cases u n with ⟨rfl, hnil⟩ | ⟨hne, c, cs, hchars, -, hreads⟩
    · rw [hnil]
      exact closed_nil.reads
    · rw [hchars]
      exact hreads
  exact hhead.append_reads hname

theorem reads_attribute {ws : List Char} (n : Bytes) (h : Reads u ws ts)
    (hfirst : ∃ c ds, ws = c :: ds ∧ Ordinary c) :
    Reads u ("attributes.".toList ++ (nameChars u n ++ ws))
      (attributesToken :: charToken '.' :: (nameTokens u n ++ ts)) := by
  obtain ⟨c, ds, rfl, hc⟩ := hfirst
  have hname : Reads u ('.' :: (nameChars u n ++ c :: ds))
      (charToken '.' :: (nameTokens u n ++ ts)) := by
    rcases nameChars_cases u n with ⟨rfl, hnil⟩ | ⟨hne, d, es, hchars, hd, hreads⟩
    · rw [hnil]
      exact h.dot hc.not_digit
    · rw [hchars]
      exact (hreads.append (hc.not_ident false) h).dot hd
  have hdot : isIdentRune u '.' false = false := by
    rw [isIdentRune_ascii (by decide)]
    rfl
  exact reads_attributes.append hdot hname

theorem closed_operator {op : AttributeOperator} {os : List Token} (h : Operator op os)
    (u : Unicode) : ∃ c ds us, op.text.toList = c :: ds ∧ Closed u (c :: ds) us ∧
      Operator op us ∧ us.length = os.length ∧ Ordinary c ∧ '\x00' ∉ c :: ds := by
  have hequal : Ordinary '=' := by decide
  have hnot : Ordinary '!' := by decide
  cases h with
  | equal =>
    have hclosed : Closed u ['='] [charToken '='] := closed_char hequal
    exact ⟨'=', [], _, rfl, hclosed, .equal rfl, rfl, hequal, by decide⟩
  | notEqual =>
    have hclosed : Closed u (['!'] ++ ['=']) ([charToken '!'] ++ [charToken '=']) :=
      (closed_char hnot).append (closed_char hequal)
    exact ⟨'!', ['='], _, rfl, hclosed, .notEqual rfl rfl, rfl, hnot, by decide⟩

end

structure Text (u : Unicode) (first : Char → Prop) (cs : List Char) (us : List Token) : Prop where
  reads : Reads u cs us
  zero : '\x00' ∉ cs
  first : ∃ c ds, cs = c :: ds ∧ first c

def Written (u : Unicode) (first : Char → Prop) (r : Except String Bytes) (names : List Bytes)
    (ts : List Token) (Derived : List Token → Prop) : Prop :=
  ∃ cs us, r = .ok (encode cs) ∧ Text u first cs us ∧
    us.length + names.count [] = ts.length ∧ ([] ∉ names → Derived us)

def NotMark (c : Char) : Prop := c ≠ byteOrderMark

section
variable {u : Unicode} {ts : List Token}

theorem name_of_names {n : Bytes} (u : Unicode) (h : [] ∉ [n]) :
    ∃ t, nameTokens u n = [t] ∧ Name t ∧ t.value = n := by
  have hne : n ≠ [] := by
    intro hnil
    exact h (by simp [hnil])
  exact nameTokens_name u hne

theorem written_has (u : Unicode) (n : Bytes) :
    Written u NotMark (.ok (HasAttribute.asFilter u ⟨n⟩)) [n]
      [attributesToken, charToken ':', ⟨.ident, n⟩] (Basic ⟨some ⟨n⟩, none, none⟩) := by
  refine ⟨"attributes:".toList ++ nameChars u n, _, ?_, ⟨reads_has u n, ?_, ?_⟩, ?_, ?_⟩
  · rw [HasAttribute.asFilter, encode_append, encode_nameChars]
    rfl
  · rw [List.mem_append, not_or]
    exact ⟨by decide, nameChars_no_zero u n⟩
  · exact ⟨'a', _, rfl, by unfold NotMark; decide⟩
  · have hname := nameTokens_length u n
    simp only [List.length_cons, List.length_nil]
    omega
  · intro hnames
    obtain ⟨t, htok, hname, rfl⟩ := name_of_names u hnames
    rw [htok]
    exact .has rfl rfl hname

theorem written_value {op : AttributeOperator} {os : List Token} (u : Unicode) (n v : Bytes)
    (ho : Operator op os) :
    Written u NotMark (.ok (HasAttributeValue.asFilter u ⟨n, op, v⟩)) [n]
      (attributesToken :: charToken '.' :: ⟨.ident, n⟩ :: (os ++ [stringToken v]))
      (Basic ⟨none, some ⟨n, op, v⟩, none⟩) := by
  obtain ⟨c, ds, us, hop, hclosed, hus, hlen, hc, hzero⟩ := closed_operator ho u
  rw [← hop] at hclosed hzero
  have htail := hclosed.append (closed_quote v)
  have hfirst : op.text.toList ++ quote u v = c :: (ds ++ quote u v) := by
    rw [hop, List.cons_append]
  have hreads := reads_attribute n htail.reads ⟨c, _, hfirst, hc⟩
  refine ⟨_, _, ?_, ⟨hreads, ?_, ?_⟩, ?_, ?_⟩
  · simp only [HasAttributeValue.asFilter, bytes, encode_append, encode_nameChars,
      List.append_assoc]
  · simp only [List.mem_append, not_or]
    exact ⟨by decide, nameChars_no_zero u n, hzero, quote_no_zero u v⟩
  · exact ⟨'a', _, rfl, by unfold NotMark; decide⟩
  · have hname := nameTokens_length u n
    simp only [List.length_cons, List.length_append, List.length_nil]
    omega
  · intro hnames
    obtain ⟨t, htok, hname, rfl⟩ := name_of_names u hnames
    rw [htok, List.singleton_append]
    exact .value (a := attributesToken) (d := charToken '.') (v := stringToken v) rfl rfl hname
      hus rfl

theorem written_predicate (u : Unicode) (n v : Bytes) :
    Written u NotMark (.ok (HasAttributePredicate.asFilter u ⟨.predicateHasPrefix, n, v⟩)) [n]
      [identToken "hasPrefix".toList, charToken '(', attributesToken, charToken '.', ⟨.ident, n⟩,
        charToken ',', stringToken v, charToken ')']
      (Basic ⟨none, none, some ⟨.predicateHasPrefix, n, v⟩⟩) := by
  have hopen : Ordinary '(' := by decide
  have hcomma : Ordinary ',' := by decide
  have hclose : Ordinary ')' := by decide
  have hword : Reads u "hasPrefix".toList [identToken "hasPrefix".toList] :=
    reads_word (by decide) (by decide)
  have hhead : Closed u ("hasPrefix".toList ++ ['('])
      ([identToken "hasPrefix".toList] ++ [charToken '(']) :=
    hword.append_closed (hopen.not_ident false) (closed_char hopen)
  have htail : Closed u ([','] ++ (quote u v ++ [')']))
      ([charToken ','] ++ ([stringToken v] ++ [charToken ')'])) :=
    (closed_char hcomma).append ((closed_quote v).append (closed_char hclose))
  have hreads := hhead.append_reads (reads_attribute n htail.reads ⟨',', _, rfl, hcomma⟩)
  have htext : bytes "(attributes." = encode ['('] ++ encode "attributes.".toList := rfl
  refine ⟨_, _, ?_, ⟨hreads, ?_, ?_⟩, ?_, ?_⟩
  · simp only [HasAttributePredicate.asFilter, htext, encode_append, encode_nameChars,
      List.append_assoc]
    rfl
  · simp only [List.mem_append, not_or]
    exact ⟨⟨by decide, by decide⟩, by decide, nameChars_no_zero u n, by decide,
      quote_no_zero u v, by decide⟩
  · exact ⟨'h', _, rfl, by unfold NotMark; decide⟩
  · have hname := nameTokens_length u n
    simp only [List.length_cons, List.length_append, List.length_nil]
    omega
  · intro hnames
    obtain ⟨t, htok, hname, rfl⟩ := name_of_names u hnames
    rw [htok]
    exact .predicate (p := identToken "hasPrefix".toList) (l := charToken '(')
      (a := attributesToken) (d := charToken '.') (c := charToken ',')
      (v := stringToken v) (r := charToken ')')
      rfl rfl rfl rfl hname rfl rfl rfl

theorem Written.of_length {first : Char → Prop} {r : Except String Bytes} {names : List Bytes}
    {us : List Token} {Derived : List Token → Prop} (h : Written u first r names us Derived)
    (hlen : us.length = ts.length) : Written u first r names ts Derived := by
  obtain ⟨cs, vs, hr, htext, hcount, hderived⟩ := h
  exact ⟨cs, vs, hr, htext, hcount.trans hlen, hderived⟩

theorem written_basic {b : BasicExpression} (h : Basic b ts) :
    Written u NotMark (b.asFilter u) b.names ts (Basic b) := by
  cases h with
  | has => exact (written_has u _).of_length rfl
  | value _ _ _ ho => exact (written_value u _ _ ho).of_length (by simp)
  | predicate => exact (written_predicate u _ _).of_length rfl

theorem not_mark {c : Char} (h : c.toNat < 128) : NotMark c := by
  rintro rfl
  revert h
  decide

theorem closed_not {not : Bool} {ns : List Token} (u : Unicode) (h : Negation not ns) :
    ∃ us, Closed u (if not then "NOT " else "").toList us ∧ Negation not us ∧
      us.length = ns.length := by
  cases h with
  | absent => exact ⟨[], closed_nil, .absent, rfl⟩
  | present =>
    have hword : Reads u "NOT".toList [identToken "NOT".toList] :=
      reads_word (by decide) (by decide)
    exact ⟨[identToken "NOT".toList], hword.append_closed space_not_ident closed_space,
      .present (Or.inl rfl), rfl⟩

theorem Text.after_not {not : Bool} {us vs : List Token} {cs : List Char}
    (hnot : Closed u (if not then "NOT " else "").toList us) (h : Text u NotMark cs vs) :
    Text u NotMark ((if not then "NOT " else "").toList ++ cs) (us ++ vs) := by
  refine ⟨hnot.append_reads h.reads, ?_, ?_⟩
  · rw [List.mem_append, not_or]
    refine ⟨?_, h.zero⟩
    cases not <;> decide
  · cases not with
    | false => exact h.first
    | true => exact ⟨'N', _, rfl, not_mark (by decide)⟩

theorem Written.mono {first : Char → Prop} {r : Except String Bytes} {names : List Bytes}
    {Derived Derived' : List Token → Prop} (h : Written u first r names ts Derived)
    (hmono : ∀ us, Derived us → Derived' us) : Written u first r names ts Derived' := by
  obtain ⟨cs, us, hr, htext, hcount, hderived⟩ := h
  exact ⟨cs, us, hr, htext, hcount, fun hnames => hmono us (hderived hnames)⟩

theorem Written.append {first : Char → Prop} {r s : Except String Bytes} {names more : List Bytes}
    {us vs : List Token} {Derived Derived' : List Token → Prop}
    (h : Written u first r names us Derived) (h' : Written u (· = ' ') s more vs Derived') :
    Written u first (r >>= fun text => s >>= fun rest => pure (text ++ rest)) (names ++ more)
      (us ++ vs) (fun ts => ∃ us vs, ts = us ++ vs ∧ Derived us ∧ Derived' vs) := by
  obtain ⟨cs, us, rfl, htext, hcount, hderived⟩ := h
  obtain ⟨ds, vs, rfl, hrest, hcount', hderived'⟩ := h'
  obtain ⟨c, es, rfl, rfl⟩ := hrest.first
  obtain ⟨d, fs, rfl, hd⟩ := htext.first
  refine ⟨_, _, ?_, ⟨htext.reads.append space_not_ident hrest.reads, ?_, ?_⟩, ?_, ?_⟩
  · rw [encode_append]
    rfl
  · rw [List.mem_append, not_or]
    exact ⟨htext.zero, hrest.zero⟩
  · exact ⟨d, _, rfl, hd⟩
  · rw [List.count_append, List.length_append, List.length_append]
    omega
  · intro hnames
    rw [List.mem_append, not_or] at hnames
    exact ⟨us, vs, rfl, hderived hnames.1, hderived' hnames.2⟩

theorem written_appendTerm {op : String} {r : Except String Bytes} {names : List Bytes}
    {o : Token} {Derived : List Token → Prop} (hop : op = "AND" ∨ op = "OR")
    (h : Written u NotMark r names ts Derived) :
    Written u (· = ' ') (appendTerm op r) names (o :: ts)
      (fun us => ∃ vs, us = identToken op.toList :: vs ∧ Derived vs) := by
  obtain ⟨cs, us, rfl, htext, hcount, hderived⟩ := h
  have hword : Reads u op.toList [identToken op.toList] := by
    rcases hop with rfl | rfl <;> exact reads_word (by decide) (by decide)
  have hhead : Closed u ([' '] ++ (op.toList ++ [' '])) ([] ++ ([identToken op.toList] ++ [])) :=
    closed_space.append (hword.append_closed space_not_ident closed_space)
  have hchars : (" " ++ op ++ " ").toList = [' '] ++ (op.toList ++ [' ']) := by
    rcases hop with rfl | rfl <;> decide
  refine ⟨_, _, ?_, ⟨hhead.append_reads htext.reads, ?_, ?_⟩, ?_, ?_⟩
  · rw [encode_append, ← hchars]
    rfl
  · rw [List.mem_append, not_or]
    refine ⟨?_, htext.zero⟩
    rcases hop with rfl | rfl <;> decide
  · exact ⟨' ', _, rfl, rfl⟩
  · simp only [List.nil_append, List.append_nil, List.length_append, List.length_cons,
      List.length_nil]
    omega
  · intro hnames
    exact ⟨us, rfl, hderived hnames⟩

theorem written_sub {c : Condition} {not : Bool} {ns : List Token} {l r : Token}
    (hn : Negation not ns) (h : Written u NotMark (c.asFilter u) c.names ts (Conditions c)) :
    Written u NotMark (Term.asFilter u (.mk not none (some c))) (Term.names (.mk not none (some c)))
      (ns ++ l :: (ts ++ [r])) (Terms (.mk not none (some c))) := by
  obtain ⟨ns, hnot, hneg, hnlen⟩ := closed_not u hn
  obtain ⟨cs, us, hr, htext, hcount, hderived⟩ := h
  have hopen : Ordinary '(' := by decide
  have hclose : Ordinary ')' := by decide
  have hreads : Closed u (['('] ++ (cs ++ [')'])) ([charToken '('] ++ (us ++ [charToken ')'])) :=
    (closed_char hopen).append
      (htext.reads.append_closed (hclose.not_ident false) (closed_char hclose))
  have hparens : Text u NotMark (['('] ++ (cs ++ [')']))
      ([charToken '('] ++ (us ++ [charToken ')'])) := by
    refine ⟨hreads.reads, ?_, ⟨'(', _, rfl, not_mark (by decide)⟩⟩
    simp only [List.mem_append, not_or]
    exact ⟨by decide, htext.zero, by decide⟩
  refine ⟨_, _, ?_, hparens.after_not hnot, ?_, ?_⟩
  · have hwrite : Term.asFilter u (.mk not none (some c)) =
        .ok (bytes (if not then "NOT " else "") ++ bytes "(" ++ encode cs ++ bytes ")") := by
      rw [Term.asFilter, hr]
      rfl
    rw [hwrite]
    simp only [encode_append, List.append_assoc]
    rfl
  · rw [Term.names]
    simp only [List.nil_append, List.length_append, List.length_cons, List.length_nil]
    omega
  · intro hnames
    have hsub : [] ∉ c.names := by
      simpa [Term.names] using hnames
    exact .sub hneg rfl (hderived hsub) rfl

theorem written_term_basic {b : BasicExpression} {not : Bool} {ns : List Token}
    (hn : Negation not ns) (h : Basic b ts) :
    Written u NotMark (Term.asFilter u (.mk not (some b) none)) (Term.names (.mk not (some b) none))
      (ns ++ ts) (Terms (.mk not (some b) none)) := by
  obtain ⟨ns, hnot, hneg, hnlen⟩ := closed_not u hn
  obtain ⟨cs, us, hr, htext, hcount, hderived⟩ := written_basic (u := u) h
  refine ⟨_, _, ?_, htext.after_not hnot, ?_, ?_⟩
  · rw [Term.asFilter, hr, encode_append]
    rfl
  · rw [Term.names, List.append_nil, List.length_append, List.length_append]
    omega
  · intro hnames
    have hbasic : [] ∉ b.names := by
      simpa [Term.names] using hnames
    exact .basic hneg (hderived hbasic)

mutual

theorem written_condition {u : Unicode} {f : Condition} {ts : List Token} (h : Conditions f ts) :
    Written u NotMark (f.asFilter u) f.names ts (Conditions f) := by
  cases h with
  | @alone t us ht =>
    have hterm := written_term (u := u) ht
    rw [Condition.asFilter, Condition.names, List.append_nil, List.append_nil]
    simp only [bind_pure]
    exact hterm.mono (fun us hus => .alone hus)
  | @and t s ss us vs ht hs =>
    have hboth := (written_term (u := u) ht).append
      (written_sequence (Or.inl rfl) hs (List.cons_ne_nil s ss))
    rw [Condition.asFilter, Condition.names, List.append_nil]
    apply hboth.mono
    rintro _ ⟨us, vs, rfl, hus, hvs⟩
    exact .and hus hvs
  | @or t s ss us vs ht hs =>
    have hboth := (written_term (u := u) ht).append
      (written_sequence (Or.inr rfl) hs (List.cons_ne_nil s ss))
    rw [Condition.asFilter, Condition.names, List.append_nil]
    apply hboth.mono
    rintro _ ⟨us, vs, rfl, hus, hvs⟩
    exact .or hus hvs

theorem written_term {u : Unicode} {t : Term} {ts : List Token} (h : Terms t ts) :
    Written u NotMark (t.asFilter u) t.names ts (Terms t) := by
  cases h with
  | basic hn hb => exact written_term_basic hn hb
  | sub hn _ hc _ => exact written_sub hn (written_condition hc)

theorem written_sequence {u : Unicode} {op : String} {ss : List Term} {ts : List Token}
    (hop : op = "AND" ∨ op = "OR") (h : Sequence op ss ts) (hne : ss ≠ []) :
    Written u (· = ' ') (appendTerms u op ss) (namesOf ss) ts (Sequence op ss) := by
  cases h with
  | nil => exact absurd rfl hne
  | @cons _ o t ss us vs ho ht hs =>
    have hfirst := written_appendTerm (o := o) hop (written_term (u := u) ht)
    by_cases hlast : ss = []
    · subst hlast
      cases hs
      rw [appendTerms, namesOf, namesOf, List.append_nil, List.append_nil]
      apply hfirst.mono
      rintro _ ⟨vs, rfl, hvs⟩
      have hseq : Sequence op [t] (identToken op.toList :: (vs ++ [])) := .cons rfl hvs .nil
      rw [List.append_nil] at hseq
      exact hseq
    · have hboth := hfirst.append (written_sequence hop hs hlast)
      rw [appendTerms.eq_3 u op t ss hlast, namesOf]
      apply hboth.mono
      rintro _ ⟨_, vs, rfl, ⟨us, rfl, hus⟩, hvs⟩
      exact .cons rfl hus hvs

end

theorem Text.tokens {cs : List Char} {us : List Token} (h : Text u NotMark cs us) :
    tokens u (encode cs) = some us := by
  obtain ⟨c, ds, hcs, hc⟩ := h.first
  have hmark : ¬ cs.head? = some byteOrderMark := by
    rw [hcs, List.head?_cons]
    intro heq
    exact hc (Option.some.inj heq)
  rw [Scanning.tokens, text_encode]
  change (if '\x00' ∈ cs then none else
    scan u (if cs.head? = some byteOrderMark then cs.tail else cs)) = _
  rw [if_neg h.zero, if_neg hmark]
  exact h.reads.scan

theorem parseString_tokens {s : Bytes} {f : Condition} (h : parseString u s = some f) :
    ∃ ts, tokens u s = some ts ∧ Conditions f ts := by
  obtain ⟨ts, htokens, hparse⟩ := Option.bind_eq_some_iff.mp h
  exact ⟨ts, htokens, parse_iff.mp hparse⟩

/-- Every parsed filter is written, and what is written is read as the same
filter exactly if none of its attribute names is empty. -/
theorem parse_asFilter {s : Bytes} {f : Condition} (h : parseString u s = some f) :
    (∃ text, f.asFilter u = .ok text) ∧
      ((∃ text, f.asFilter u = .ok text ∧ parseString u text = some f) ↔ [] ∉ f.names) := by
  obtain ⟨ts, -, hts⟩ := parseString_tokens h
  obtain ⟨cs, us, htext, hcs, hlen, hderived⟩ := written_condition (u := u) hts
  refine ⟨⟨encode cs, htext⟩, ?_, ?_⟩
  · rintro ⟨text, htext', hparse⟩
    have heq : text = encode cs := by
      rw [htext] at htext'
      exact (Except.ok.inj htext').symm
    obtain ⟨us', htokens, hus⟩ := parseString_tokens hparse
    have hsame : us' = us := by
      rw [heq, hcs.tokens] at htokens
      exact (Option.some.inj htokens).symm
    -- The text has as many tokens as any derivation, short of the empty names.
    obtain ⟨cs', vs, htext'', hcs', hlen', -⟩ := written_condition (u := u) (hsame ▸ hus)
    have hchars : encode cs' = encode cs := by
      rw [htext] at htext''
      exact (Except.ok.inj htext'').symm
    have hvs : vs = us := by
      have htokens' := hcs'.tokens
      rw [hchars, hcs.tokens] at htokens'
      exact (Option.some.inj htokens').symm
    rw [hvs] at hlen'
    have hcount : f.names.count [] = 0 := by omega
    exact List.count_eq_zero.mp hcount
  · intro hnames
    refine ⟨encode cs, htext, ?_⟩
    rw [parseString, hcs.tokens]
    exact parse_iff.mpr (hderived hnames)

end

def parsedName (n : Bytes) : Condition :=
  .mk (.mk false (some ⟨some ⟨n⟩, none, none⟩) none) none none

theorem parsedName_parse {n s : Bytes} {t : Token} (ht : Name t) (hn : t.value = n)
    (htokens : tokens ascii s = some [attributesToken, charToken ':', t]) :
    parseString ascii s = some (parsedName n) := by
  have hderived : Conditions (parsedName t.value) [attributesToken, charToken ':', t] :=
    .alone (.basic .absent (.has rfl rfl ht))
  rw [parseString, htokens, ← hn]
  exact parse_iff.mpr hderived

theorem parse_asFilter_name : (∃ text, (parsedName (bytes "x")).asFilter ascii = .ok text) ∧
    ((∃ text, (parsedName (bytes "x")).asFilter ascii = .ok text ∧
      parseString ascii text = some (parsedName (bytes "x"))) ↔
        [] ∉ (parsedName (bytes "x")).names) := by
  have htokens : tokens ascii (bytes "attributes:x") =
      some [attributesToken, charToken ':', identToken "x".toList] := by
    decide +kernel
  have hname : Name (identToken "x".toList) := Or.inl rfl
  exact parse_asFilter (parsedName_parse hname rfl htokens)

/-- The text of `attributes:""` does not parse. -/
theorem parse_asFilter_empty : ∃ s f text, parseString ascii s = some f ∧
    f.asFilter ascii = .ok text ∧ parseString ascii text ≠ some f := by
  have htokens : tokens ascii (bytes "attributes:\"\"") =
      some [attributesToken, charToken ':', stringToken []] := by
    decide +kernel
  have hname : Name (stringToken []) := Or.inr rfl
  have htext : (parsedName []).asFilter ascii = .ok (bytes "attributes:") := by
    have hbytes : HasAttribute.asFilter ascii ⟨[]⟩ = bytes "attributes:" := by
      decide +kernel
    simp only [parsedName, Condition.asFilter, Term.asFilter, BasicExpression.asFilter, hbytes]
    rfl
  have hnone : (parseString ascii (bytes "attributes:")).isNone = true := by
    decide +kernel
  refine ⟨_, _, _, parsedName_parse hname rfl htokens, htext, ?_⟩
  rw [Option.isNone_iff_eq_none.mp hnone]
  exact (Option.some_ne_none _).symm

end Mmmbbb.Filter
