import Mmmbbb.Programs

/-!
# Leases

What is given to someone is not given again before its lease has run out, and
what has been finished is not given at all. A lease may be moved at any time.
-/

set_option autoImplicit false

namespace Leasing
open Programs

structure Lease (τ : Type) where
  count : ℕ
  due : τ
  finished : Bool
  deriving DecidableEq

inductive Op (τ : Type)
  | create (l : Lease τ)
  | give (asked due : τ) (count : ℕ)
  | move (due : τ)
  | finish
  deriving DecidableEq

variable {τ : Type}

def after : Option (Lease τ) → Op τ → Option (Lease τ)
  | l, .create new => l <|> some new
  | l, .give _ due _ => l.map (fun x => { x with count := x.count + 1, due := due })
  | l, .move due => l.map (fun x => { x with due := due })
  | l, .finish => l.map (fun x => { x with finished := true })

def Op.isGive : Op τ → Bool
  | .give _ _ _ => true
  | _ => false

def gives (ops : List (Op τ)) : ℕ := ops.countP Op.isGive

theorem gives_give (asked due : τ) (count : ℕ) (ops : List (Op τ)) :
    gives (.give asked due count :: ops) = gives ops + 1 :=
  List.countP_cons_of_pos rfl

theorem gives_other {op : Op τ} (h : op.isGive = false) (ops : List (Op τ)) :
    gives (op :: ops) = gives ops :=
  List.countP_cons_of_neg (by simp [h])

def Op.Sets : Op τ → Prop
  | .give _ _ _ | .move _ => True
  | _ => False

variable [LE τ]

def Allowed (l : Option (Lease τ)) (op : Op τ) (_ : Option (Lease τ)) : Prop :=
  match l, op with
  | none, .create _ => True
  | some x, .give asked _ count => x.finished = false ∧ x.due ≤ asked ∧ count = x.count + 1
  | some _, .move _ | some _, .finish => True
  | _, _ => False

def Lawful (l : Option (Lease τ)) (ops : List (Op τ)) : Prop := Throughout after Allowed l ops

theorem lawful_append {l : Option (Lease τ)} {ops ops' : List (Op τ)} :
    Lawful l (ops ++ ops') ↔ Lawful l ops ∧ Lawful (ops.foldl after l) ops' := throughout_append

theorem lawful_some {x : Lease τ} {ops : List (Op τ)} (h : Lawful (some x) ops) :
    ∃ y, ops.foldl after (some x) = some y ∧ y.count = x.count + gives ops ∧
      (x.finished = true ∨ .finish ∈ ops → y.finished = true) ∧
      ((∀ op ∈ ops, ¬ op.Sets) → y.due = x.due) := by
  induction ops generalizing x with
  | nil => exact ⟨x, rfl, rfl, by simp, fun _ => rfl⟩
  | cons op ops ih =>
    obtain ⟨hfirst, hrest⟩ := h
    cases op with
    | create l => exact hfirst.elim
    | give asked due count =>
      obtain ⟨y, hy, hcount, hfinished, -⟩ := ih hrest
      refine ⟨y, hy, ?_, fun hor => hfinished ?_, fun hno => ?_⟩
      · rw [hcount, gives_give]
        show x.count + 1 + gives ops = x.count + (gives ops + 1)
        omega
      · simpa using hor
      · exact (hno (.give asked due count) List.mem_cons_self trivial).elim
    | move due =>
      obtain ⟨y, hy, hcount, hfinished, -⟩ := ih hrest
      refine ⟨y, hy, ?_, fun hor => hfinished ?_, fun hno => ?_⟩
      · rw [hcount, gives_other rfl]
      · simpa using hor
      · exact (hno (.move due) List.mem_cons_self trivial).elim
    | finish =>
      obtain ⟨y, hy, hcount, hfinished, hdue⟩ := ih hrest
      refine ⟨y, hy, ?_, fun _ => hfinished (Or.inl rfl), fun hno => hdue fun op hop => ?_⟩
      · rw [hcount, gives_other rfl]
      · exact hno op (List.mem_cons_of_mem _ hop)

theorem allowed_give {l l' : Option (Lease τ)} {asked due : τ} {count : ℕ}
    (h : Allowed l (.give asked due count) l') :
    ∃ x, l = some x ∧ x.finished = false ∧ x.due ≤ asked ∧ count = x.count + 1 := by
  cases l with
  | none => exact h.elim
  | some x => exact ⟨x, rfl, h⟩

theorem finish_not_mem {l : Option (Lease τ)} {ops : List (Op τ)} {x : Lease τ}
    (h : Lawful l ops) (hx : ops.foldl after l = some x) (hopen : x.finished = false) :
    .finish ∉ ops := by
  intro hmem
  obtain ⟨pre, post, rfl⟩ := List.append_of_mem hmem
  obtain ⟨-, hfinish, hpost⟩ := lawful_append.mp h
  rw [List.foldl_append, List.foldl_cons] at hx
  cases hbefore : pre.foldl after l with
  | none =>
    rw [hbefore] at hfinish
    exact hfinish
  | some z =>
    rw [hbefore] at hpost hx
    obtain ⟨y, hy, -, hfinished, -⟩ := lawful_some hpost
    obtain rfl := Option.some.inj (hy.symm.trans hx)
    have hdone : y.finished = true := hfinished (Or.inl rfl)
    rw [hdone] at hopen
    cases hopen

/-- Of two that are given, the later one has the higher number, and nothing was
finished before it; it was asked for when the first one had run out, unless
that was changed in between. -/
theorem given_apart {l : Option (Lease τ)} {pre mid post : List (Op τ)} {asked asked' due due' : τ}
    {count count' : ℕ}
    (h : Lawful l (pre ++ .give asked due count :: mid ++ .give asked' due' count' :: post)) :
    count' = count + gives mid + 1 ∧ .finish ∉ pre ∧ .finish ∉ mid ∧
      ((∀ op ∈ mid, ¬ op.Sets) → due ≤ asked') := by
  obtain ⟨hboth, hsecond⟩ := lawful_append.mp h
  obtain ⟨-, hfirst⟩ := lawful_append.mp hboth
  obtain ⟨x, hx, hopen, -, rfl⟩ := allowed_give hfirst.1
  obtain ⟨y, hy, hopen', hasked, rfl⟩ := allowed_give hsecond.1
  have hnone := finish_not_mem hboth hy hopen'
  have hmid := hfirst.2
  rw [List.foldl_append, List.foldl_cons] at hy
  rw [hx] at hmid hy
  obtain ⟨z, hz, hcount, -, hdue⟩ := lawful_some hmid
  obtain rfl := Option.some.inj (hz.symm.trans hy)
  refine ⟨by rw [hcount], fun hin => hnone ?_, fun hin => hnone ?_, fun hno => ?_⟩
  · exact List.mem_append_left _ hin
  · exact List.mem_append_right _ (List.mem_cons_of_mem _ hin)
  · have hsame : z.due = due := hdue hno
    exact hsame ▸ hasked

end Leasing
