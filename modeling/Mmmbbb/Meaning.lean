import Mmmbbb.Grammar

/-!
# The meaning of a filter

What a filter says of the attributes of a message: a condition is the
conjunction or the disjunction of all its terms, and a negation is of its own
term only. A filter that the grammar allows evaluates to this, whichever terms
the loops leave out and in whichever order they come.
-/

set_option autoImplicit false

namespace Mmmbbb.Filter
open Runes Quoting Scanning Grammar

inductive BasicExpression.WellFormed : BasicExpression → Prop
  | has (has : HasAttribute) : WellFormed ⟨some has, none, none⟩
  | value {value : HasAttributeValue} (h : value.op = .opEqual ∨ value.op = .opNotEqual) :
      WellFormed ⟨none, some value, none⟩
  | predicate {predicate : HasAttributePredicate}
      (h : predicate.predicate = .predicateHasPrefix) : WellFormed ⟨none, none, some predicate⟩

mutual

inductive Condition.WellFormed : Condition → Prop
  | alone {t : Term} (ht : Term.WellFormed t) : Condition.WellFormed (.mk t none none)
  | and {t : Term} {ts : List Term} (ht : Term.WellFormed t) (hne : ts ≠ [])
      (hts : ∀ s ∈ ts, Term.WellFormed s) : Condition.WellFormed (.mk t (some ts) none)
  | or {t : Term} {ts : List Term} (ht : Term.WellFormed t) (hne : ts ≠ [])
      (hts : ∀ s ∈ ts, Term.WellFormed s) : Condition.WellFormed (.mk t none (some ts))

inductive Term.WellFormed : Term → Prop
  | basic {b : BasicExpression} (not : Bool) (hb : b.WellFormed) :
      Term.WellFormed (.mk not (some b) none)
  | sub {c : Condition} (not : Bool) (hc : Condition.WellFormed c) :
      Term.WellFormed (.mk not none (some c))

end

def HasAttribute.Holds (attrs : Attributes) (e : HasAttribute) : Prop :=
  ∃ v, attrs.lookup e.name = some v

def HasAttributeValue.Holds (attrs : Attributes) (e : HasAttributeValue) : Prop :=
  ∃ v, attrs.lookup e.name = some v ∧
    (e.op = .opEqual ∧ v = e.value ∨ e.op = .opNotEqual ∧ v ≠ e.value)

def HasAttributePredicate.Holds (attrs : Attributes) (e : HasAttributePredicate) : Prop :=
  ∃ v, attrs.lookup e.name = some v ∧ e.predicate = .predicateHasPrefix ∧ e.value <+: v

def BasicExpression.Holds (attrs : Attributes) (e : BasicExpression) : Prop :=
  (∃ has, e.has = some has ∧ has.Holds attrs) ∨
    (∃ value, e.value = some value ∧ value.Holds attrs) ∨
    ∃ predicate, e.predicate = some predicate ∧ predicate.Holds attrs

mutual

def Condition.Holds (attrs : Attributes) : Condition → Prop
  | .mk term none none => term.Holds attrs
  | .mk term (some terms) _ => term.Holds attrs ∧ ∀ t, t ∈ terms → t.Holds attrs
  | .mk term none (some terms) => term.Holds attrs ∨ ∃ t, ∃ _ : t ∈ terms, t.Holds attrs

def Term.Holds (attrs : Attributes) : Term → Prop
  | .mk false (some basic) _ => basic.Holds attrs
  | .mk true (some basic) _ => ¬basic.Holds attrs
  | .mk false none (some sub) => sub.Holds attrs
  | .mk true none (some sub) => ¬sub.Holds attrs
  | .mk _ none none => False

end

mutual

def Condition.evaluateAll (attrs : Attributes) : Condition → Except EvaluateError Bool
  | .mk term and or => do
    let result ← term.evaluateAll attrs
    match and, or with
    | some terms, _ =>
      let results ← evaluateEach attrs terms
      pure (result && results.all id)
    | none, some terms =>
      let results ← evaluateEach attrs terms
      pure (result || results.any id)
    | none, none => pure result

def Term.evaluateAll (attrs : Attributes) : Term → Except EvaluateError Bool
  | .mk not (some basic) _ => (basic.evaluate attrs).map (· != not)
  | .mk not none (some sub) => (sub.evaluateAll attrs).map (· != not)
  | .mk _ none none => .error .unpopulatedTerm

def evaluateEach (attrs : Attributes) : List Term → Except EvaluateError (List Bool)
  | [] => pure []
  | t :: ts => do
    let result ← t.evaluateAll attrs
    let results ← evaluateEach attrs ts
    pure (result :: results)

end

mutual

inductive Condition.Rearranged : Condition → Condition → Prop
  | alone {t t' : Term} (h : Term.Rearranged t t') :
      Condition.Rearranged (.mk t none none) (.mk t' none none)
  | and {t t' : Term} {ts ts' : List Term} (h : TermsRearranged (t :: ts) (t' :: ts')) :
      Condition.Rearranged (.mk t (some ts) none) (.mk t' (some ts') none)
  | or {t t' : Term} {ts ts' : List Term} (h : TermsRearranged (t :: ts) (t' :: ts')) :
      Condition.Rearranged (.mk t none (some ts)) (.mk t' none (some ts'))

inductive Term.Rearranged : Term → Term → Prop
  | same (t : Term) : Term.Rearranged t t
  | sub {c c' : Condition} (not : Bool) (h : Condition.Rearranged c c') :
      Term.Rearranged (.mk not none (some c)) (.mk not none (some c'))

inductive TermsRearranged : List Term → List Term → Prop
  | nil : TermsRearranged [] []
  | cons {t t' : Term} {ts ts' : List Term} (h : Term.Rearranged t t')
      (hs : TermsRearranged ts ts') : TermsRearranged (t :: ts) (t' :: ts')
  | swap (s t : Term) (ts : List Term) : TermsRearranged (s :: t :: ts) (t :: s :: ts)
  | trans {ts us vs : List Term} (h : TermsRearranged ts us) (h' : TermsRearranged us vs) :
      TermsRearranged ts vs

end

theorem TermsRearranged.length : ∀ {ts ts' : List Term}, TermsRearranged ts ts' →
    ts.length = ts'.length
  | _, _, .nil => rfl
  | _, _, .cons _ hs => by rw [List.length_cons, List.length_cons, hs.length]
  | _, _, .swap _ _ _ => rfl
  | _, _, .trans h h' => h.length.trans h'.length

theorem TermsRearranged.tail_ne {t t' : Term} {ts ts' : List Term}
    (h : TermsRearranged (t :: ts) (t' :: ts')) (hne : ts ≠ []) : ts' ≠ [] := by
  intro hnil
  have hlength := h.length
  rw [hnil, List.length_cons, List.length_cons, List.length_nil] at hlength
  exact hne (List.length_eq_zero_iff.mp (by omega))

def Decides {ε : Type} (r : Except ε Bool) (P : Prop) : Prop := ∃ b, r = .ok b ∧ (b = true ↔ P)

section
variable {ε : Type} {r r' : Except ε Bool} {P Q : Prop}

theorem Decides.congr (h : Decides r P) (hiff : P ↔ Q) : Decides r Q := by
  obtain ⟨b, hr, hb⟩ := h
  exact ⟨b, hr, hb.trans hiff⟩

theorem Decides.unique (h : Decides r P) (h' : Decides r' P) : r = r' := by
  obtain ⟨b, hr, hb⟩ := h
  obtain ⟨b', hr', hb'⟩ := h'
  have heq : b = b' := Bool.eq_iff_iff.mpr (hb.trans hb'.symm)
  rw [hr, hr', heq]

theorem Decides.negate (h : Decides r P) : Decides (r.map (· != true)) (¬P) := by
  obtain ⟨b, rfl, hb⟩ := h
  exact ⟨b != true, rfl, by simp [← hb]⟩

theorem Decides.keep (h : Decides r P) : Decides (r.map (· != false)) P := by
  obtain ⟨b, rfl, hb⟩ := h
  exact ⟨b != false, rfl, by simp [← hb]⟩

end

section
variable {attrs : Attributes}

theorem HasAttribute.decides (e : HasAttribute) : Decides (e.evaluate attrs) (e.Holds attrs) := by
  exact ⟨_, rfl, Option.isSome_iff_exists⟩

theorem HasAttributeValue.decides {e : HasAttributeValue}
    (h : e.op = .opEqual ∨ e.op = .opNotEqual) : Decides (e.evaluate attrs) (e.Holds attrs) := by
  rw [HasAttributeValue.evaluate]
  cases hv : attrs.lookup e.name with
  | none => exact ⟨false, rfl, by simp [HasAttributeValue.Holds, hv]⟩
  | some v =>
    cases h with
    | inl h => exact ⟨decide (v = e.value), by rw [h], by simp [HasAttributeValue.Holds, hv, h]⟩
    | inr h => exact ⟨decide (v ≠ e.value), by rw [h], by simp [HasAttributeValue.Holds, hv, h]⟩

theorem HasAttributePredicate.decides {e : HasAttributePredicate}
    (h : e.predicate = .predicateHasPrefix) : Decides (e.evaluate attrs) (e.Holds attrs) := by
  rw [HasAttributePredicate.evaluate]
  cases hv : attrs.lookup e.name with
  | none => exact ⟨false, rfl, by simp [HasAttributePredicate.Holds, hv]⟩
  | some v =>
    exact ⟨e.value.isPrefixOf v, by rw [h], by simp [HasAttributePredicate.Holds, hv, h]⟩

theorem BasicExpression.WellFormed.decides {e : BasicExpression} (h : e.WellFormed) :
    Decides (e.evaluate attrs) (e.Holds attrs) := by
  cases h with
  | has has => exact has.decides.congr (by simp [BasicExpression.Holds])
  | value h => exact (HasAttributeValue.decides h).congr (by simp [BasicExpression.Holds])
  | predicate h => exact (HasAttributePredicate.decides h).congr (by simp [BasicExpression.Holds])

variable {ts : List Term}

theorem andTerms_decides (hne : ts ≠ [])
    (h : ∀ t ∈ ts, Decides (t.evaluate attrs) (t.Holds attrs)) :
    Decides (andTerms attrs ts) (∀ t ∈ ts, t.Holds attrs) := by
  induction ts with
  | nil => exact absurd rfl hne
  | cons t ts ih =>
    have hhead := h t List.mem_cons_self
    cases ts with
    | nil => exact hhead.congr (by simp)
    | cons s ss =>
      have hrest := ih (List.cons_ne_nil s ss) (fun t ht => h t (List.mem_cons_of_mem _ ht))
      obtain ⟨b, hb, hiff⟩ := hhead
      simp only [andTerms, hb]
      cases b with
      | false =>
        have hfails : ¬t.Holds attrs := by simp [← hiff]
        exact ⟨false, rfl, by simp [hfails]⟩
      | true =>
        have hholds : t.Holds attrs := hiff.mp rfl
        exact hrest.congr (by rw [List.forall_mem_cons]; simp [hholds])

theorem orTerms_decides (hne : ts ≠ [])
    (h : ∀ t ∈ ts, Decides (t.evaluate attrs) (t.Holds attrs)) :
    Decides (orTerms attrs ts) (∃ t ∈ ts, t.Holds attrs) := by
  induction ts with
  | nil => exact absurd rfl hne
  | cons t ts ih =>
    have hhead := h t List.mem_cons_self
    cases ts with
    | nil => exact hhead.congr (by simp)
    | cons s ss =>
      have hrest := ih (List.cons_ne_nil s ss) (fun t ht => h t (List.mem_cons_of_mem _ ht))
      obtain ⟨b, hb, hiff⟩ := hhead
      simp only [orTerms, hb]
      cases b with
      | true =>
        have hholds : t.Holds attrs := hiff.mp rfl
        exact ⟨true, rfl, by simp [hholds]⟩
      | false =>
        have hfails : ¬t.Holds attrs := by simp [← hiff]
        exact hrest.congr (by rw [List.exists_mem_cons_iff]; simp [hfails])

theorem evaluateEach_decides (h : ∀ t ∈ ts, Decides (t.evaluateAll attrs) (t.Holds attrs)) :
    ∃ results, evaluateEach attrs ts = .ok results ∧
      (results.all id = true ↔ ∀ t ∈ ts, t.Holds attrs) ∧
      (results.any id = true ↔ ∃ t ∈ ts, t.Holds attrs) := by
  induction ts with
  | nil => exact ⟨[], rfl, by simp, by simp⟩
  | cons t ts ih =>
    obtain ⟨b, hb, hiff⟩ := h t List.mem_cons_self
    obtain ⟨results, hresults, hall, hany⟩ := ih (fun t ht => h t (List.mem_cons_of_mem _ ht))
    refine ⟨b :: results, ?_, ?_, ?_⟩
    · rw [evaluateEach, hb, hresults]
      rfl
    · rw [List.all_cons, Bool.and_eq_true, hall, List.forall_mem_cons, id, hiff]
    · rw [List.any_cons, Bool.or_eq_true, hany, List.exists_mem_cons_iff, id, hiff]

theorem evaluate_mk (t : Term) (and or : Option (List Term)) :
    (Condition.mk t and or).evaluate attrs =
      match t.evaluate attrs with
      | .error e => .error e
      | .ok result =>
        match and, or with
        | some terms, _ => if result then andTerms attrs terms else .ok result
        | none, some terms => if result then .ok result else orTerms attrs terms
        | none, none => .ok result := by
  cases and <;> cases or <;> rfl

theorem evaluate_alone (t : Term) :
    (Condition.mk t none none).evaluate attrs = t.evaluate attrs := by
  rw [evaluate_mk]
  cases t.evaluate attrs <;> rfl

theorem evaluate_and (t : Term) (ts : List Term) (or : Option (List Term)) :
    (Condition.mk t (some ts) or).evaluate attrs =
      t.evaluate attrs >>= fun result => if result then andTerms attrs ts else .ok result := by
  rw [evaluate_mk]
  cases t.evaluate attrs <;> rfl

theorem evaluate_or (t : Term) (ts : List Term) :
    (Condition.mk t none (some ts)).evaluate attrs =
      t.evaluate attrs >>= fun result => if result then .ok result else orTerms attrs ts := by
  rw [evaluate_mk]
  cases t.evaluate attrs <;> rfl

theorem decides_not {r : Except EvaluateError Bool} {P : Prop} (not : Bool) (h : Decides r P) :
    Decides (r.map (· != not)) (if not then ¬P else P) := by
  cases not with
  | false => exact h.keep
  | true => exact h.negate

theorem holds_basic (not : Bool) (b : BasicExpression) : (Term.mk not (some b) none).Holds attrs ↔
    if not then ¬b.Holds attrs else b.Holds attrs := by
  cases not <;> simp [Term.Holds]

theorem holds_sub (not : Bool) (c : Condition) : (Term.mk not none (some c)).Holds attrs ↔
    if not then ¬c.Holds attrs else c.Holds attrs := by
  cases not <;> simp [Term.Holds]

theorem holds_and {t : Term} : (Condition.mk t (some ts) none).Holds attrs ↔
    ∀ s ∈ t :: ts, s.Holds attrs := by
  rw [Condition.Holds, List.forall_mem_cons]

theorem holds_or {t : Term} : (Condition.mk t none (some ts)).Holds attrs ↔
    ∃ s ∈ t :: ts, s.Holds attrs := by
  rw [Condition.Holds, List.exists_mem_cons_iff]
  simp

end

section
variable (attrs : Attributes)

mutual

theorem Condition.WellFormed.decides : ∀ {f : Condition}, f.WellFormed →
    Decides (f.evaluate attrs) (f.Holds attrs)
  | _, .alone ht => by
    rw [evaluate_alone]
    exact ht.decides.congr (by rw [Condition.Holds])
  | _, @Condition.WellFormed.and t ts ht hne hts => by
    obtain ⟨b, hb, hiff⟩ := ht.decides
    have hlist := andTerms_decides hne (fun s hs => (hts s hs).decides)
    rw [evaluate_and, hb]
    cases b with
    | false =>
      have hfails : ¬t.Holds attrs := by simp [← hiff]
      exact ⟨false, rfl, by simp [holds_and, hfails]⟩
    | true =>
      have hholds : t.Holds attrs := hiff.mp rfl
      exact hlist.congr (by rw [holds_and, List.forall_mem_cons]; simp [hholds])
  | _, @Condition.WellFormed.or t ts ht hne hts => by
    obtain ⟨b, hb, hiff⟩ := ht.decides
    have hlist := orTerms_decides hne (fun s hs => (hts s hs).decides)
    rw [evaluate_or, hb]
    cases b with
    | true =>
      have hholds : t.Holds attrs := hiff.mp rfl
      exact ⟨true, rfl, by simp [holds_or, hholds]⟩
    | false =>
      have hfails : ¬t.Holds attrs := by simp [← hiff]
      exact hlist.congr (by rw [holds_or, List.exists_mem_cons_iff]; simp [hfails])

theorem Term.WellFormed.decides : ∀ {t : Term}, t.WellFormed →
    Decides (t.evaluate attrs) (t.Holds attrs)
  | _, @Term.WellFormed.basic b not hb => by
    rw [Term.evaluate]
    exact (decides_not not hb.decides).congr (holds_basic not b).symm
  | _, @Term.WellFormed.sub c not hc => by
    rw [Term.evaluate]
    exact (decides_not not hc.decides).congr (holds_sub not c).symm

end

mutual

theorem Condition.WellFormed.decidesAll : ∀ {f : Condition}, f.WellFormed →
    Decides (f.evaluateAll attrs) (f.Holds attrs)
  | _, .alone ht => by
    obtain ⟨b, hb, hiff⟩ := ht.decidesAll
    rw [Condition.evaluateAll, hb]
    exact ⟨b, rfl, by rw [hiff, Condition.Holds]⟩
  | _, .and ht hne hts => by
    obtain ⟨b, hb, hiff⟩ := ht.decidesAll
    obtain ⟨results, hresults, hall, -⟩ :=
      evaluateEach_decides (fun s hs => (hts s hs).decidesAll)
    rw [Condition.evaluateAll, hb]
    simp only [hresults]
    exact ⟨b && results.all id, rfl,
      by rw [Bool.and_eq_true, hiff, hall, holds_and, List.forall_mem_cons]⟩
  | _, .or ht hne hts => by
    obtain ⟨b, hb, hiff⟩ := ht.decidesAll
    obtain ⟨results, hresults, -, hany⟩ :=
      evaluateEach_decides (fun s hs => (hts s hs).decidesAll)
    rw [Condition.evaluateAll, hb]
    simp only [hresults]
    exact ⟨b || results.any id, rfl,
      by rw [Bool.or_eq_true, hiff, hany, holds_or, List.exists_mem_cons_iff]⟩

theorem Term.WellFormed.decidesAll : ∀ {t : Term}, t.WellFormed →
    Decides (t.evaluateAll attrs) (t.Holds attrs)
  | _, @Term.WellFormed.basic b not hb => by
    rw [Term.evaluateAll]
    exact (decides_not not hb.decides).congr (holds_basic not b).symm
  | _, @Term.WellFormed.sub c not hc => by
    rw [Term.evaluateAll]
    exact (decides_not not hc.decidesAll).congr (holds_sub not c).symm

end

mutual

theorem Condition.Rearranged.holds : ∀ {f f' : Condition}, f.Rearranged f' →
    (f.Holds attrs ↔ f'.Holds attrs)
  | _, _, .alone h => by
    rw [Condition.Holds, Condition.Holds]
    exact h.holds
  | _, _, .and h => by
    rw [holds_and, holds_and]
    exact h.holds.1
  | _, _, .or h => by
    rw [holds_or, holds_or]
    exact h.holds.2

theorem Term.Rearranged.holds : ∀ {t t' : Term}, t.Rearranged t' → (t.Holds attrs ↔ t'.Holds attrs)
  | _, _, .same _ => Iff.rfl
  | _, _, .sub _ h => by
    have hsub := h.holds
    rw [holds_sub, holds_sub, hsub]

theorem TermsRearranged.holds : ∀ {ts ts' : List Term}, TermsRearranged ts ts' →
    ((∀ t ∈ ts, t.Holds attrs) ↔ ∀ t ∈ ts', t.Holds attrs) ∧
      ((∃ t ∈ ts, t.Holds attrs) ↔ ∃ t ∈ ts', t.Holds attrs)
  | _, _, .nil => ⟨Iff.rfl, Iff.rfl⟩
  | _, _, .cons h hs => by
    have hhead := h.holds
    obtain ⟨hall, hany⟩ := hs.holds
    constructor
    · rw [List.forall_mem_cons, List.forall_mem_cons, hhead, hall]
    · rw [List.exists_mem_cons_iff, List.exists_mem_cons_iff, hhead, hany]
  | _, _, .swap s t ts => by
    constructor
    · rw [List.forall_mem_cons, List.forall_mem_cons, List.forall_mem_cons, List.forall_mem_cons]
      exact and_left_comm
    · rw [List.exists_mem_cons_iff, List.exists_mem_cons_iff, List.exists_mem_cons_iff,
        List.exists_mem_cons_iff]
      exact or_left_comm
  | _, _, .trans h h' => by
    have hfirst := h.holds
    have hthen := h'.holds
    exact ⟨hfirst.1.trans hthen.1, hfirst.2.trans hthen.2⟩

end

end

mutual

theorem Condition.Rearranged.wellFormed : ∀ {f f' : Condition}, f.Rearranged f' →
    f.WellFormed → f'.WellFormed
  | _, _, .alone h, .alone ht => .alone (h.wellFormed ht)
  | _, _, .and h, .and ht hne hts => by
    have hall := h.wellFormed (List.forall_mem_cons.mpr ⟨ht, hts⟩)
    rw [List.forall_mem_cons] at hall
    exact .and hall.1 (h.tail_ne hne) hall.2
  | _, _, .or h, .or ht hne hts => by
    have hall := h.wellFormed (List.forall_mem_cons.mpr ⟨ht, hts⟩)
    rw [List.forall_mem_cons] at hall
    exact .or hall.1 (h.tail_ne hne) hall.2

theorem Term.Rearranged.wellFormed : ∀ {t t' : Term}, t.Rearranged t' → t.WellFormed → t'.WellFormed
  | _, _, .same _, ht => ht
  | _, _, .sub _ h, .sub _ hc => .sub _ (h.wellFormed hc)

theorem TermsRearranged.wellFormed : ∀ {ts ts' : List Term}, TermsRearranged ts ts' →
    (∀ t ∈ ts, t.WellFormed) → ∀ t ∈ ts', t.WellFormed
  | _, _, .nil, hts => hts
  | _, _, .cons h hs, hts => by
    rw [List.forall_mem_cons] at hts ⊢
    exact ⟨h.wellFormed hts.1, hs.wellFormed hts.2⟩
  | _, _, .swap s t ts, hts => by
    rw [List.forall_mem_cons, List.forall_mem_cons] at hts ⊢
    exact ⟨hts.2.1, hts.1, hts.2.2⟩
  | _, _, .trans h h', hts => h'.wellFormed (h.wellFormed hts)

end

theorem TermsRearranged.of_perm {ts ts' : List Term} (h : ts.Perm ts') : TermsRearranged ts ts' := by
  induction h with
  | nil => exact .nil
  | cons t _ ih => exact .cons (.same t) ih
  | swap s t ts => exact .swap t s ts
  | trans _ _ ih ih' => exact .trans ih ih'

theorem basic_wellFormed {b : BasicExpression} {us : List Token} (h : Basic b us) :
    b.WellFormed := by
  cases h with
  | has => exact .has _
  | value _ _ _ ho _ =>
    cases ho with
    | equal => exact .value (Or.inl rfl)
    | notEqual => exact .value (Or.inr rfl)
  | predicate => exact .predicate rfl

mutual

theorem conditions_wellFormed : ∀ {f : Condition} {us : List Token}, Conditions f us → f.WellFormed
  | _, _, .alone ht => .alone (terms_wellFormed ht)
  | _, _, .and ht hs => .and (terms_wellFormed ht) (List.cons_ne_nil _ _) (sequence_wellFormed hs)
  | _, _, .or ht hs => .or (terms_wellFormed ht) (List.cons_ne_nil _ _) (sequence_wellFormed hs)

theorem terms_wellFormed : ∀ {t : Term} {us : List Token}, Terms t us → t.WellFormed
  | _, _, .basic _ hb => .basic _ (basic_wellFormed hb)
  | _, _, .sub _ _ hc _ => .sub _ (conditions_wellFormed hc)

theorem sequence_wellFormed : ∀ {op : String} {ts : List Term} {us : List Token},
    Sequence op ts us → ∀ t ∈ ts, t.WellFormed
  | _, _, _, .nil => by simp
  | _, _, _, .cons _ ht hs => by
    rw [List.forall_mem_cons]
    exact ⟨terms_wellFormed ht, sequence_wellFormed hs⟩

end

theorem parsed_wellFormed {u : Unicode} {bs : Bytes} {f : Condition}
    (h : parseString u bs = some f) : f.WellFormed := by
  rw [parseString, Option.bind_eq_bind, Option.bind_eq_some_iff] at h
  obtain ⟨ts, -, hparse⟩ := h
  exact conditions_wellFormed (parse_iff.mp hparse)

/-- Evaluation gives the meaning of the filter, without an error; it is the
evaluation of every term, and no order of the terms changes it. -/
theorem evaluate_meaning :
    (∀ (u : Unicode) (bs : Bytes) (f : Condition), parseString u bs = some f → f.WellFormed) ∧
      ∀ f : Condition, f.WellFormed → ∀ attrs : Attributes,
        (∃ result, f.evaluate attrs = .ok result ∧ (result = true ↔ f.Holds attrs)) ∧
          f.evaluate attrs = f.evaluateAll attrs ∧
          ∀ f', f.Rearranged f' → f'.evaluate attrs = f.evaluate attrs := by
  constructor
  · intro u bs f h
    exact parsed_wellFormed h
  · intro f h attrs
    have hdecides := h.decides attrs
    constructor
    · exact hdecides
    · constructor
      · exact hdecides.unique (h.decidesAll attrs)
      · intro f' hf'
        have hother := (hf'.wellFormed h).decides attrs
        exact hother.unique (hdecides.congr (hf'.holds attrs))

def present (name : String) : BasicExpression := ⟨some ⟨bytes name⟩, none, none⟩

def bothFilter : Condition :=
  .mk (.mk false (some (present "a")) none) (some [.mk true (some (present "b")) none]) none

def turnedFilter : Condition :=
  .mk (.mk true (some (present "b")) none) (some [.mk false (some (present "a")) none]) none

theorem bothFilter_wellFormed : bothFilter.WellFormed := by
  apply Condition.WellFormed.and (.basic _ (.has _)) (List.cons_ne_nil _ _)
  intro t ht
  rw [List.mem_singleton] at ht
  rw [ht]
  exact .basic _ (.has _)

theorem bothFilter_turned : bothFilter.Rearranged turnedFilter := by
  exact .and (.of_perm (List.Perm.swap _ _ _))

theorem evaluate_meaning_both : turnedFilter.evaluate [(bytes "a", [])] = .ok true ∧
    bothFilter.Holds [(bytes "a", [])] := by
  obtain ⟨⟨result, hresult, hholds⟩, -, hturned⟩ :=
    evaluate_meaning.2 bothFilter bothFilter_wellFormed [(bytes "a", [])]
  have htrue : bothFilter.evaluate [(bytes "a", [])] = .ok true := by decide
  rw [htrue] at hresult
  cases hresult
  constructor
  · rw [hturned turnedFilter bothFilter_turned]
    exact htrue
  · exact hholds.mp rfl

end Mmmbbb.Filter
