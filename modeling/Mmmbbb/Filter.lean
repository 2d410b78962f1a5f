import Mmmbbb.Runes

/-!
# Subscription filters

The syntax tree of a message filter and its evaluation over the attributes of
a message. Every alternative of a node is a nillable pointer in the source, so
a tree may be unpopulated; evaluation reports that as an error. Strings are
bytes: an escape in a filter may stand for any of them.
-/

set_option autoImplicit false

namespace Mmmbbb.Filter
open Runes

abbrev Attributes := List (Bytes × Bytes)

inductive AttributeOperator
  | opEqual
  | opNotEqual
  | other (op : String)
  deriving DecidableEq, Repr

inductive AttributePredicate
  | predicateHasPrefix
  | other (predicate : String)
  deriving DecidableEq, Repr

structure HasAttribute where
  name : Bytes
  deriving DecidableEq, Repr

structure HasAttributeValue where
  name : Bytes
  op : AttributeOperator
  value : Bytes
  deriving DecidableEq, Repr

structure HasAttributePredicate where
  predicate : AttributePredicate
  name : Bytes
  value : Bytes
  deriving DecidableEq, Repr

structure BasicExpression where
  has : Option HasAttribute
  value : Option HasAttributeValue
  predicate : Option HasAttributePredicate
  deriving DecidableEq, Repr

mutual

inductive Condition
  | mk (term : Term) (and : Option (List Term)) (or : Option (List Term))

inductive Term
  | mk (not : Bool) (basic : Option BasicExpression) (sub : Option Condition)

end

inductive EvaluateError
  | unpopulatedBasicExpression
  | unpopulatedTerm
  | invalidOp (op : String)
  | invalidPredicate (predicate : String)
  | andRequiresTerms
  | orRequiresTerms
  deriving DecidableEq, Repr

def HasAttribute.evaluate (e : HasAttribute) (attrs : Attributes) : Except EvaluateError Bool :=
  .ok (attrs.lookup e.name).isSome

def HasAttributeValue.evaluate (e : HasAttributeValue) (attrs : Attributes) :
    Except EvaluateError Bool :=
  match attrs.lookup e.name with
  | none => .ok false
  | some v =>
    match e.op with
    | .opEqual => .ok (decide (v = e.value))
    | .opNotEqual => .ok (decide (v ≠ e.value))
    | .other op => .error (.invalidOp op)

def HasAttributePredicate.evaluate (e : HasAttributePredicate) (attrs : Attributes) :
    Except EvaluateError Bool :=
  match attrs.lookup e.name with
  | none => .ok false
  | some v =>
    match e.predicate with
    | .predicateHasPrefix => .ok (e.value.isPrefixOf v)
    | .other predicate => .error (.invalidPredicate predicate)

def BasicExpression.evaluate (e : BasicExpression) (attrs : Attributes) :
    Except EvaluateError Bool :=
  match e.has, e.value, e.predicate with
  | some has, _, _ => has.evaluate attrs
  | none, some value, _ => value.evaluate attrs
  | none, none, some predicate => predicate.evaluate attrs
  | none, none, none => .error .unpopulatedBasicExpression

mutual

def Condition.evaluate (attrs : Attributes) : Condition → Except EvaluateError Bool
  | .mk term and or =>
    match term.evaluate attrs with
    | .error e => .error e
    | .ok result =>
      match and, or with
      | some terms, _ => if result then andTerms attrs terms else .ok result
      | none, some terms => if result then .ok result else orTerms attrs terms
      | none, none => .ok result

def Term.evaluate (attrs : Attributes) : Term → Except EvaluateError Bool
  | .mk not (some basic) _ => (basic.evaluate attrs).map (· != not)
  | .mk not none (some sub) => (sub.evaluate attrs).map (· != not)
  | .mk _ none none => .error .unpopulatedTerm

/-- The loop of the source keeps the last result, and stops at the first
error or the first `false`. -/
def andTerms (attrs : Attributes) : List Term → Except EvaluateError Bool
  | [] => .error .andRequiresTerms
  | [t] => t.evaluate attrs
  | t :: ts =>
    match t.evaluate attrs with
    | .error e => .error e
    | .ok false => .ok false
    | .ok true => andTerms attrs ts

def orTerms (attrs : Attributes) : List Term → Except EvaluateError Bool
  | [] => .error .orRequiresTerms
  | [t] => t.evaluate attrs
  | t :: ts =>
    match t.evaluate attrs with
    | .error e => .error e
    | .ok true => .ok true
    | .ok false => orTerms attrs ts

end

end Mmmbbb.Filter
