import Mmmbbb.ReadCommitted

/-!
# Transactions in the order of their commits

Sessions that run at once leave what their transactions leave one after
another, in the order of their commits, if each transaction would do again what
it has done so far once another one has committed.
-/

set_option autoImplicit false

namespace Serials
open Programs ReadCommitted

structure Trace (n : ℕ) (α : Type) where
  underWay : Fin n → List α
  done : List (List α)

section
variable {n : ℕ} {α σ ω π ε : Type}

def Trace.none : Trace n α := ⟨fun _ => [], []⟩

def Trace.set (T : Trace n α) (i : Fin n) (as : List α) : Trace n α :=
  { T with underWay := Function.update T.underWay i as }

def Trace.after (T : Trace n α) : Event n α → Trace n α
  | .run i a => T.set i (T.underWay i ++ [a])
  | .commit i => { T.set i [] with done := T.done ++ [T.underWay i] }
  | .rollback i => T.set i []

def trace (es : List (Event n α)) : Trace n α := es.foldl Trace.after .none

variable (P : Program α σ ω π ε)

inductive Serial : σ → List (List α) → σ → Prop
  | nil (t : σ) : Serial t [] t
  | next {t t' : σ} {as : List α} {rest : List (List α)} {s : Session ω π} :
      P.solo t as P.fresh = .ok s → P.ready s.point = true →
      Serial (s.log.foldl P.apply t) rest t' → Serial t (as :: rest) t'

/-- No transaction disturbs another one. `I` is about the committed database,
`X` about two sessions at once. -/
structure Undisturbed (n : ℕ) (ok : State n σ ω π → Event n α → State n σ ω π → Prop)
    (allowed : α → Prop) (I : σ → Prop) (X : Session ω π → Session ω π → Prop) : Prop where
  allow : ∀ (st st' : State n σ ω π) (i : Fin n) (a : α), ok st (.run i a) st' → allowed a
  symm : ∀ s s', X s s' → X s' s
  apart : ∀ s, X P.fresh s
  run : ∀ (st : State n σ ω π) (i : Fin n) (a : α) (ws : List ω) (q : π), I st.committed →
    (∀ j k, j ≠ k → X (st.session j) (st.session k)) →
    P.statement a (st.session i).point (P.view st i) = .ok (ws, q) → ¬ P.Blocked st i ws →
    ok st (.run i a) (st.set i ⟨(st.session i).log ++ ws, q⟩) →
    ∀ j, j ≠ i → X ⟨(st.session i).log ++ ws, q⟩ (st.session j)
  replay : ∀ (t : σ) (as bs : List α) (s s' : Session ω π), I t →
    (∀ a ∈ as, allowed a) → (∀ b ∈ bs, allowed b) → P.solo t as P.fresh = .ok s →
    P.solo t bs P.fresh = .ok s' → X s s' → P.solo (s.log.foldl P.apply t) bs P.fresh = .ok s'
  keep : ∀ (t : σ) (as : List α) (s : Session ω π), I t → (∀ a ∈ as, allowed a) →
    P.solo t as P.fresh = .ok s → P.ready s.point = true → I (s.log.foldl P.apply t)

end

section
variable {n : ℕ} {α σ ω π ε : Type} {P : Program α σ ω π ε}

theorem Serial.snoc {t t' : σ} {done : List (List α)} {as : List α} {s : Session ω π}
    (h : Serial P t done t') (hsolo : P.solo t' as P.fresh = .ok s)
    (hready : P.ready s.point = true) : Serial P t (done ++ [as]) (s.log.foldl P.apply t') := by
  induction h with
  | nil t => exact .next hsolo hready (.nil _)
  | next hfirst hdone _ ih => exact .next hfirst hdone (ih hsolo)

/-- What follows each transaction follows all of them, one after another. -/
theorem Serial.follows {τ β : Type} {step : τ → β → τ} {events : α → List β} {R : τ → σ → Prop}
    {allowed : α → Prop} (hfollow : ∀ w t as s, R w t → (∀ a ∈ as, allowed a) →
      P.solo t as P.fresh = .ok s → P.ready s.point = true →
      R ((as.flatMap events).foldl step w) (s.log.foldl P.apply t))
    {t t' : σ} {done : List (List α)} {w : τ} (hw : R w t)
    (hdone : ∀ as ∈ done, ∀ a ∈ as, allowed a) (h : Serial P t done t') :
    R ((done.flatten.flatMap events).foldl step w) t' := by
  induction h generalizing w with
  | nil t => exact hw
  | @next t t' as rest s hsolo hready hrest ih =>
    have hfirst := hfollow w t as s hw (hdone as (by simp)) hsolo hready
    have hall := ih hfirst fun bs hbs => hdone bs (by simp [hbs])
    rw [List.flatten_cons, List.flatMap_append, List.foldl_append]
    exact hall

theorem solo_one {t : σ} {a : α} {s s' : Session ω π} {as : List α}
    (h : P.solo t as s = .ok s') {ws : List ω} {q : π}
    (ha : P.statement a s'.point (s'.log.foldl P.apply t) = .ok (ws, q)) :
    P.solo t (as ++ [a]) s = .ok ⟨s'.log ++ ws, q⟩ := by
  rw [solo_append h, solo_cons ha]
  rfl

theorem solo_keeps {t : σ} {as : List α} {s s' : Session ω π} {J : Session ω π → Prop}
    {allowed : α → Prop} (hallowed : ∀ a ∈ as, allowed a)
    (hstep : ∀ s a ws q, J s → allowed a →
      P.statement a s.point (s.log.foldl P.apply t) = .ok (ws, q) → J ⟨s.log ++ ws, q⟩)
    (hs : J s) (h : P.solo t as s = .ok s') : J s' := by
  induction as generalizing s with
  | nil =>
    cases h
    exact hs
  | cons a as ih =>
    rw [Program.solo] at h
    split at h
    · cases h
    · rename_i ws q hst
      have hnext := hstep s a ws q hs (hallowed a (by simp)) hst
      exact ih (fun b hb => hallowed b (by simp [hb])) hnext h

/-- To do on `t'` what was done on `t` it is enough that each statement does
so, given what is still to come. -/
theorem solo_replay {t t' : σ} {bs : List α} {s s' : Session ω π} {J : Session ω π → Prop}
    {allowed : α → Prop} (hallowed : ∀ b ∈ bs, allowed b)
    (hstep : ∀ s a ws q, J s → allowed a →
      P.statement a s.point (s.log.foldl P.apply t) = .ok (ws, q) → J ⟨s.log ++ ws, q⟩)
    (hsame : ∀ s a ws q rest, J s → allowed a →
      P.statement a s.point (s.log.foldl P.apply t) = .ok (ws, q) →
      P.solo t rest ⟨s.log ++ ws, q⟩ = .ok s' →
      P.statement a s.point (s.log.foldl P.apply t') = .ok (ws, q))
    (hs : J s) (h : P.solo t bs s = .ok s') : P.solo t' bs s = .ok s' := by
  induction bs generalizing s with
  | nil => exact h
  | cons b bs ih =>
    rw [Program.solo] at h
    split at h
    · cases h
    · rename_i ws q hst
      rw [solo_cons (hsame s b ws q bs hs (hallowed b (by simp)) hst h)]
      have hnext := hstep s b ws q hs (hallowed b (by simp)) hst
      exact ih (fun b hb => hallowed b (by simp [hb])) hnext h

section
variable {ok : State n σ ω π → Event n α → State n σ ω π → Prop} {allowed : α → Prop}
  {I : σ → Prop} {X : Session ω π → Session ω π → Prop} {start : σ} {T : Trace n α}
  {st st' : State n σ ω π}

theorem Trace.set_self (T : Trace n α) (i : Fin n) (as : List α) :
    (T.set i as).underWay i = as := by simp [Trace.set]

theorem Trace.set_other (T : Trace n α) {i j : Fin n} (as : List α) (h : j ≠ i) :
    (T.set i as).underWay j = T.underWay j := by simp [Trace.set, h]

structure Tracks (P : Program α σ ω π ε) (allowed : α → Prop) (I : σ → Prop)
    (X : Session ω π → Session ω π → Prop) (start : σ) (T : Trace n α) (st : State n σ ω π) :
    Prop where
  serial : Serial P start T.done st.committed
  done : ∀ as ∈ T.done, ∀ a ∈ as, allowed a
  committed : I st.committed
  allow : ∀ i, ∀ a ∈ T.underWay i, allowed a
  alone : ∀ i, P.solo st.committed (T.underWay i) P.fresh = .ok (st.session i)
  apart : ∀ i j, i ≠ j → X (st.session i) (st.session j)

theorem Tracks.ended (h : Tracks P allowed I X start T st) (hund : Undisturbed P n ok allowed I X)
    (i : Fin n) : Tracks P allowed I X start (T.set i []) (st.set i P.fresh) where
  serial := h.serial
  done := h.done
  committed := h.committed
  allow := by
    intro j a ha
    by_cases hj : j = i
    · rw [hj, Trace.set_self] at ha
      cases ha
    · rw [Trace.set_other T [] hj] at ha
      exact h.allow j a ha
  alone := by
    intro j
    by_cases hj : j = i
    · rw [hj, Trace.set_self, set_self]
      rfl
    · rw [Trace.set_other T [] hj, set_other hj]
      exact h.alone j
  apart := apart_set hund.symm h.apart fun _ _ => hund.apart _

theorem Tracks.step {e : Event n α} (h : Tracks P allowed I X start T st)
    (hund : Undisturbed P n ok allowed I X) (hs : Stepped P st e st') (hok : ok st e st') :
    Tracks P allowed I X start (T.after e) st' := by
  cases hs with
  | @run i a ws q hst hfree =>
    refine ⟨h.serial, h.done, h.committed, fun j b hb => ?_, fun j => ?_,
      apart_set hund.symm h.apart (hund.run st i a ws q h.committed h.apart hst hfree hok)⟩
    · by_cases hj : j = i
      · rw [Trace.after, hj, Trace.set_self] at hb
        rcases List.mem_append.mp hb with hb | hb
        · exact h.allow i b hb
        · rw [List.mem_singleton.mp hb]
          exact hund.allow _ _ _ _ hok
      · rw [Trace.after, Trace.set_other T _ hj] at hb
        exact h.allow j b hb
    · by_cases hj : j = i
      · rw [Trace.after, hj, Trace.set_self, set_self]
        exact solo_one (h.alone i) hst
      · rw [Trace.after, Trace.set_other T _ hj, set_other hj]
        exact h.alone j
  | @commit i hready =>
    have hended := h.ended hund i
    have hsolo := h.alone i
    refine ⟨h.serial.snoc hsolo hready, fun as has => ?_,
      hund.keep _ _ _ h.committed (h.allow i) hsolo hready, hended.allow, fun j => ?_,
      hended.apart⟩
    · rcases List.mem_append.mp has with has | has
      · exact h.done as has
      · rw [List.mem_singleton.mp has]
        exact h.allow i
    · by_cases hj : j = i
      · subst hj
        have hfresh := hended.alone j
        rw [Trace.set_self] at hfresh
        show P.solo _ ((T.set j []).underWay j) _ = _
        rw [Trace.set_self, commit_self]
        rfl
      · show P.solo _ ((T.set i []).underWay j) _ = _
        rw [Trace.set_other T [] hj, commit_other hj]
        exact hund.replay _ _ _ _ _ h.committed (h.allow i) (h.allow j) hsolo (h.alone j)
          (h.apart i j (Ne.symm hj))
  | @rollback i => exact h.ended hund i

theorem Tracks.runs [∀ st e st', Decidable (ok st e st')] {es : List (Event n α)}
    (h : Tracks P allowed I X start T st) (hund : Undisturbed P n ok allowed I X)
    (hrun : P.runs ok st es = some st') :
    Tracks P allowed I X start (es.foldl Trace.after T) st' := by
  induction es generalizing st T with
  | nil =>
    cases hrun
    exact h
  | cons e es ih =>
    rw [Program.runs] at hrun
    split at hrun
    · cases hrun
    · rename_i mid hmid
      split at hrun
      · rename_i hok
        exact ih (h.step hund (step_cases hmid) hok) hrun
      · cases hrun

/-- Transactions that do not disturb one another leave what they leave in the
order of their commits. -/
theorem serial_of_runs [∀ st e st', Decidable (ok st e st')] {es : List (Event n α)}
    (hund : Undisturbed P n ok allowed I X) (hst : ∀ i, st.session i = P.fresh)
    (hstart : I st.committed) (hrun : P.runs ok st es = some st') :
    Serial P st.committed (trace es).done st'.committed ∧
      ∀ as ∈ (trace es).done, ∀ a ∈ as, allowed a := by
  have htracks : Tracks P allowed I X st.committed (.none : Trace n α) st := by
    refine ⟨.nil _, by simp [Trace.none], hstart, by simp [Trace.none], fun i => ?_,
      fun i j _ => ?_⟩
    · rw [hst i]
      rfl
    · rw [hst i]
      exact hund.apart _
  have hend := htracks.runs hund hrun
  exact ⟨hend.serial, hend.done⟩

end

end

end Serials
