import Mmmbbb.Faults

/-!
# Faults fire as configured

However the calls interleave, a fault is executed at most as often as it was
added for, and a check that executes nothing has found nothing to execute.
-/

set_option autoImplicit false

namespace Mmmbbb.Firing
open KeyedRows Programs Threads Mmmbbb.Faults

structure Spent (f f' : Fault) : Prop where
  operation : f'.operation = f.operation
  parameters : f'.parameters = f.parameters
  initial : f'.initial = f.initial
  count : f'.count ≤ f.count

theorem Spent.refl (f : Fault) : Spent f f := ⟨rfl, rfl, rfl, le_refl _⟩

theorem Spent.fits {f f' : Fault} (h : Spent f f') (op : String) (params : Parameters) :
    f'.fits op params = f.fits op params := by
  simp [Description.fits, h.operation, h.parameters]

def Later (heap heap' : List Fault) : Prop :=
  ∀ (a : ℕ) (f : Fault), heap[a]? = some f → ∃ f', heap'[a]? = some f' ∧ Spent f f'

theorem Later.refl (heap : List Fault) : Later heap heap := fun _ f hf => ⟨f, hf, .refl f⟩

theorem later_append (heap : List Fault) (f : Fault) : Later heap (heap ++ [f]) := by
  intro a g hg
  have ha : a < heap.length := (List.getElem?_eq_some_iff.mp hg).1
  exact ⟨g, by rw [List.getElem?_append_left ha, hg], .refl g⟩

theorem later_decrement {heap : List Fault} {d : ℕ} {f : Fault} (hf : heap[d]? = some f) :
    Later heap (heap.set d f.decrement) := by
  intro a g hg
  by_cases ha : d = a
  · subst ha
    obtain rfl : f = g := Option.some.inj (hf.symm.trans hg)
    have hlen : d < heap.length := (List.getElem?_eq_some_iff.mp hf).1
    refine ⟨f.decrement, by simp [hlen], rfl, rfl, rfl, ?_⟩
    have hcount : f.decrement.count = f.count - 1 := rfl
    omega
  · exact ⟨g, by rw [List.getElem?_set_ne ha, hg], .refl g⟩

def Exhausted (heap : List Fault) (op : String) (params : Parameters) (a : ℕ) : Prop :=
  ∃ f, heap[a]? = some f ∧ (f.fits op params = true → f.count ≤ 0)

def Expired (heap : List Fault) (a : ℕ) : Prop := ∃ f, heap[a]? = some f ∧ f.count ≤ 0

def Fits (heap : List Fault) (op : String) (params : Parameters) (a : ℕ) : Prop :=
  ∃ f, heap[a]? = some f ∧ f.fits op params = true

section
variable {heap heap' : List Fault} {op : String} {params : Parameters} {a : ℕ}

theorem Exhausted.later (h : Exhausted heap op params a) (hl : Later heap heap') :
    Exhausted heap' op params a := by
  obtain ⟨f, hf, hc⟩ := h
  obtain ⟨f', hf', hs⟩ := hl a f hf
  refine ⟨f', hf', fun hfits => ?_⟩
  have h0 := hc (by rw [← hs.fits, hfits])
  exact hs.count.trans h0

theorem Expired.later (h : Expired heap a) (hl : Later heap heap') : Expired heap' a := by
  obtain ⟨f, hf, hc⟩ := h
  obtain ⟨f', hf', hs⟩ := hl a f hf
  exact ⟨f', hf', hs.count.trans hc⟩

theorem Fits.later (h : Fits heap op params a) (hl : Later heap heap') :
    Fits heap' op params a := by
  obtain ⟨f, hf, hfits⟩ := h
  obtain ⟨f', hf', hs⟩ := hl a f hf
  exact ⟨f', hf', by rw [hs.fits, hfits]⟩

end

def Known (heap : List Fault) (list : String → List ℕ) : Call → Prop
  | .check op params _ (.scanning rest) =>
    ∀ a ∈ list op, a ∈ rest ∨ Exhausted heap op params a
  | .check op params _ (.matched d) => Fits heap op params d
  | .check op params _ (.firing d _) => Fits heap op params d
  | .prune (.visiting op kept rest _) =>
    (kept ++ rest).Sublist (list op) ∧ ∀ a ∈ list op, a ∈ kept ++ rest ∨ Expired heap a
  | _ => True

theorem known_later {heap heap' : List Fault} {list : String → List ℕ} {c : Call}
    (h : Known heap list c) (hl : Later heap heap') : Known heap' list c := by
  cases c with
  | check op params toPrune here =>
    cases here with
    | scanning rest => exact fun a ha => (h a ha).imp_right (fun he => he.later hl)
    | matched d => exact Fits.later h hl
    | firing d remaining => exact Fits.later h hl
    | _ => trivial
  | prune here =>
    cases here with
    | visiting op kept rest ops =>
      exact ⟨h.1, fun a ha => (h.2 a ha).imp_right (fun he => he.later hl)⟩
    | _ => trivial
  | _ => trivial

theorem known_outside {heap : List Fault} {list list' : String → List ℕ} {c : Call}
    (h : Known heap list c) (hm : c.mode = .outside) : Known heap list' c := by
  cases c with
  | check op params toPrune here =>
    cases here with
    | scanning rest => cases hm
    | _ => exact h
  | prune here =>
    cases here with
    | visiting op kept rest ops => cases hm
    | _ => exact h
  | _ => trivial

structure Sound (s : State) : Prop where
  exclusive : Exclusive Call.mode s.calls
  listed : ∀ op, ∀ a ∈ s.list op, ∃ f, s.heap[a]? = some f ∧ f.operation = op
  known : ∀ (i : ℕ) (c : Call), s.calls[i]? = some c → Known s.heap s.list c

theorem sound_initial : Sound initial where
  exclusive := exclusive_nil
  listed := by
    intro op a ha
    simp [State.list, initial] at ha
  known := by
    intro i c hc
    simp [initial] at hc

section
variable {s s' : State} {i : ℕ} {c c' : Call}

theorem Sound.move (h : Sound s) (hc : s.calls[i]? = some c) (hcalls : s'.calls = s.calls.set i c')
    (hadm : Admitted Call.mode s.calls c c') (hheap : Later s.heap s'.heap)
    (hlist : s'.list = s.list ∨
      ∀ (j : ℕ) (b : Call), j ≠ i → s.calls[j]? = some b → b.mode = .outside)
    (hlisted : ∀ op, ∀ a ∈ s'.list op, ∃ f, s'.heap[a]? = some f ∧ f.operation = op)
    (hknown : Known s'.heap s'.list c') : Sound s' where
  exclusive := by
    rw [hcalls]
    exact h.exclusive.set hc hadm
  listed := hlisted
  known := by
    intro j b hb
    rw [hcalls] at hb
    rcases set_at hb with ⟨rfl, rfl⟩ | ⟨hj, hb'⟩
    · exact hknown
    · have hold := known_later (h.known j b hb') hheap
      rcases hlist with hlist | hout
      · rw [hlist]
        exact hold
      · exact known_outside hold (hout j b hj hb')

theorem Sound.listed_later (h : Sound s) (hheap : Later s.heap s'.heap) (hlist : s'.list = s.list) :
    ∀ op, ∀ a ∈ s'.list op, ∃ f, s'.heap[a]? = some f ∧ f.operation = op := by
  intro op a ha
  rw [hlist] at ha
  obtain ⟨f, hf, hop⟩ := h.listed op a ha
  obtain ⟨f', hf', hs⟩ := hheap a f hf
  exact ⟨f', hf', hs.operation.trans hop⟩

theorem Sound.goto (h : Sound s) (hc : s.calls[i]? = some c)
    (hadm : Admitted Call.mode s.calls c c') (hknown : Known s.heap s.list c') :
    Sound (s.goto i c') :=
  h.move hc rfl hadm (.refl _) (Or.inl rfl) h.listed hknown

theorem Sound.append (h : Sound s) {b : Call} (hmode : b.mode = .outside)
    (hknown : Known s.heap s.list b) : Sound { s with calls := s.calls ++ [b] } where
  exclusive := h.exclusive.append (fun t ht => List.mem_singleton.mp ht ▸ hmode)
  listed := h.listed
  known := by
    intro j x hx
    rcases append_at hx with hx | hx
    · exact h.known j x hx
    · exact List.mem_singleton.mp hx ▸ hknown

theorem admitted_outside (h : c'.mode = .outside) : Admitted Call.mode s.calls c c' := Or.inl h

theorem admitted_stays (h : c'.mode = c.mode) : Admitted Call.mode s.calls c c' := Or.inr (Or.inl h)

theorem known_drop {op : String} {kept rest : List ℕ} {ops : List String} {d : ℕ}
    (hk : Known s.heap s.list (.prune (.visiting op kept (d :: rest) ops)))
    (hd : Expired s.heap d) : Known s.heap s.list (.prune (.visiting op kept rest ops)) := by
  obtain ⟨hsub, hall⟩ := hk
  constructor
  · exact ((List.sublist_cons_self d rest).append_left kept).trans hsub
  · intro a ha
    rcases hall a ha with hin | hex
    · by_cases had : a = d
      · rw [had]
        exact Or.inr hd
      · have hin' : a ∈ kept ++ rest := by
          rcases List.mem_append.mp hin with hin | hin
          · exact List.mem_append_left _ hin
          · exact List.mem_append_right _ ((List.mem_cons.mp hin).resolve_left had)
        exact Or.inl hin'
    · exact Or.inr hex

theorem Sound.takes (h : Sound s) (hc : s.calls[i]? = some c) (ht : Takes s i c c' s') :
    Sound s' := by
  have hk := h.known i c hc
  cases ht with
  | start hfree =>
    exact h.goto hc (Or.inr (Or.inr (Or.inl ⟨rfl, hfree⟩))) (fun a ha => Or.inl ha)
  | pass => exact h.goto hc (admitted_outside rfl) trivial
  | hit hf hpos hfits => exact h.goto hc (admitted_outside rfl) ⟨_, hf, hfits⟩
  | miss hf hno =>
    refine h.goto hc (admitted_stays rfl) fun a ha => ?_
    rcases hk a ha with hin | hex
    · rcases List.mem_cons.mp hin with rfl | hin
      · exact Or.inr ⟨_, hf, hno⟩
      · exact Or.inl hin
    · exact Or.inr hex
  | lose hf hspent =>
    have hl := later_decrement hf
    exact h.move hc rfl (admitted_outside rfl) hl (Or.inl rfl) (h.listed_later hl rfl) trivial
  | win hf hpos hprune =>
    have hl := later_decrement hf
    exact h.move hc rfl (admitted_outside rfl) hl (Or.inl rfl) (h.listed_later hl rfl)
      (Fits.later hk hl)
  | fire => exact h.move hc rfl (admitted_outside rfl) (.refl _) (Or.inl rfl) h.listed trivial
  | leave => exact h.goto hc (admitted_outside rfl) trivial
  | @leavePruning op params err =>
    have hret : Sound (s.goto i (.check op params true (.returned err))) :=
      h.goto hc (admitted_outside rfl) trivial
    exact hret.append rfl trivial
  | lock hfree => exact h.goto hc (Or.inr (Or.inr (Or.inr ⟨rfl, hfree⟩))) trivial
  | unlock => exact h.goto hc (admitted_outside rfl) trivial
  | visit =>
    exact h.goto hc (admitted_stays rfl) ⟨List.Sublist.refl _, fun a ha => Or.inl ha⟩
  | keep =>
    obtain ⟨hsub, hall⟩ := hk
    exact h.goto hc (admitted_stays rfl)
      ⟨by simpa using hsub, fun a ha => by simpa using hall a ha⟩
  | @drop op kept rest ops d f hf hspent =>
    exact h.goto hc (admitted_stays rfl) (known_drop hk ⟨f, hf, hspent⟩)
  | store =>
    have hout : ∀ (j : ℕ) (b : Call), j ≠ i → s.calls[j]? = some b → b.mode = .outside :=
      fun _ _ hj hb => h.exclusive.others hc rfl hj hb
    obtain ⟨hsub, -⟩ := hk
    rw [List.append_nil] at hsub
    refine h.move hc rfl (admitted_stays rfl) (.refl _) (Or.inr hout) ?_ trivial
    intro op' a ha
    rw [list_store (s := s) rfl] at ha
    split at ha
    · rename_i heq
      subst heq
      exact h.listed op' a (hsub.subset ha)
    · exact h.listed op' a ha
  | @add d hfree =>
    have hout : ∀ (j : ℕ) (b : Call), j ≠ i → s.calls[j]? = some b → b.mode = .outside :=
      fun _ b _ hb => hfree b (List.mem_of_getElem? hb)
    have hold : ∀ op, ∀ a ∈ s.list op, ∃ f, (s.heap ++ [⟨d, d.count⟩])[a]? = some f ∧
        f.operation = op :=
      @Sound.listed_later _ { s with heap := s.heap ++ [⟨d, d.count⟩] } h (later_append _ _) rfl
    refine h.move hc rfl (admitted_outside rfl) (later_append _ _) (Or.inr hout) ?_ trivial
    intro op a ha
    rw [list_insert (s := s) rfl] at ha
    split at ha
    · rename_i hop
      subst hop
      rcases List.mem_append.mp ha with ha | ha
      · exact hold _ a ha
      · rw [List.mem_singleton.mp ha]
        exact ⟨⟨d, d.count⟩, by simp, rfl⟩
    · exact hold op a ha

theorem Sound.step (h : Sound s) {e : Event} (hs : step s e = some s') : Sound s' := by
  rcases step_takes hs with ⟨r, rfl⟩ | ⟨i, choice, c, c', -, hc, ht⟩
  · exact h.append (by cases r <;> rfl) (by cases r <;> trivial)
  · exact h.takes hc ht

theorem reachable_sound (h : faults.Reachable s) : Sound s :=
  h.invariant (fun _ hi => hi ▸ sound_initial) (fun _ _ _ hs hst => hs.step hst)

end

def runs : Call → ℕ
  | .check _ _ _ (.ran _) | .check _ _ _ (.returned _) => 1
  | _ => 0

def fires (a : ℕ) : Call → Bool
  | .check _ _ _ (.firing d _) => decide (d = a)
  | _ => false

def KeepsCheck (c c' : Call) : Prop :=
  ∀ op params toPrune here, c = .check op params toPrune here →
    ∃ toPrune' here', c' = .check op params toPrune' here'

theorem keeps_check {op : String} {params : Parameters} {toPrune toPrune' : Bool}
    {here here' : CheckAt} :
    KeepsCheck (.check op params toPrune here) (.check op params toPrune' here') := by
  intro op' params' toPrune'' here'' he
  cases he
  exact ⟨_, _, rfl⟩

structure Accounted (s : State) : Prop where
  once : ∀ (i : ℕ) (c : Call), s.calls[i]? = some c →
    s.fired.countP (fun r => decide (r.call = i)) = runs c
  fits : ∀ r ∈ s.fired, ∃ op params toPrune here,
    s.calls[r.call]? = some (.check op params toPrune here) ∧ Fits s.heap op params r.fault
  counted : ∀ (a : ℕ) (f : Fault), s.heap[a]? = some f →
    (s.fired.countP (fun r => decide (r.fault = a)) + s.calls.countP (fires a) : ℤ) =
      max f.initial 0 - max f.count 0

theorem accounted_initial : Accounted initial where
  once := by
    intro i c hc
    simp [initial] at hc
  fits := by
    intro r hr
    cases hr
  counted := by
    intro a f hf
    simp [initial] at hf

section
variable {s s' : State} {i : ℕ} {c c' : Call}

theorem fits_move (h : Accounted s) (hc : s.calls[i]? = some c)
    (hcalls : s'.calls = s.calls.set i c') (hkeep : KeepsCheck c c')
    (hheap : Later s.heap s'.heap) {r : Firing} (hr : r ∈ s.fired) :
    ∃ op params toPrune here, s'.calls[r.call]? = some (.check op params toPrune here) ∧
      Fits s'.heap op params r.fault := by
  obtain ⟨op, params, toPrune, here, hcheck, hfits⟩ := h.fits r hr
  have hi : i < s.calls.length := (List.getElem?_eq_some_iff.mp hc).1
  by_cases hri : i = r.call
  · subst hri
    obtain ⟨toPrune', here', rfl⟩ := hkeep _ _ _ _ (Option.some.inj (hc.symm.trans hcheck))
    refine ⟨op, params, toPrune', here', ?_, hfits.later hheap⟩
    rw [hcalls, List.getElem?_set_self hi]
  · refine ⟨op, params, toPrune, here, ?_, hfits.later hheap⟩
    rw [hcalls, List.getElem?_set_ne hri, hcheck]

theorem once_move (h : Accounted s) (hc : s.calls[i]? = some c)
    (hcalls : s'.calls = s.calls.set i c') (hruns : runs c' = runs c) {j : ℕ} {b : Call}
    (hb : s'.calls[j]? = some b) : s.fired.countP (fun r => decide (r.call = j)) = runs b := by
  rw [hcalls] at hb
  rcases set_at hb with ⟨rfl, rfl⟩ | ⟨-, hb'⟩
  · rw [hruns]
    exact h.once j c hc
  · exact h.once j b hb'

theorem fires_move (hc : s.calls[i]? = some c) (hcalls : s'.calls = s.calls.set i c') (a : ℕ) :
    s'.calls.countP (fires a) + (if fires a c = true then 1 else 0) =
      s.calls.countP (fires a) + (if fires a c' = true then 1 else 0) := by
  rw [hcalls]
  exact countP_set hc

theorem Accounted.move (h : Accounted s) (hc : s.calls[i]? = some c)
    (hcalls : s'.calls = s.calls.set i c') (hkeep : KeepsCheck c c') (hheap : s'.heap = s.heap)
    (hfired : s'.fired = s.fired) (hruns : runs c' = runs c)
    (hfires : ∀ a, fires a c' = fires a c) : Accounted s' where
  once := by
    intro j b hb
    rw [hfired]
    exact once_move h hc hcalls hruns hb
  fits := by
    intro r hr
    rw [hfired] at hr
    exact fits_move h hc hcalls hkeep (hheap ▸ .refl _) hr
  counted := by
    intro a f hf
    have hcount := fires_move hc hcalls a
    rw [hfires a] at hcount
    have hold := h.counted a f (hheap ▸ hf)
    rw [hfired]
    omega

theorem Accounted.append (h : Accounted s) {b : Call} (hruns : runs b = 0)
    (hfires : ∀ a, fires a b = false) : Accounted { s with calls := s.calls ++ [b] } where
  once := by
    intro j c hc
    by_cases hj : j < s.calls.length
    · rw [List.getElem?_append_left hj] at hc
      exact h.once j c hc
    · have hb : c = b := by
        rcases append_at hc with hc' | hc'
        · exact absurd (List.getElem?_eq_some_iff.mp hc').1 hj
        · exact List.mem_singleton.mp hc'
      rw [hb, hruns, List.countP_eq_zero]
      intro r hr
      obtain ⟨op, params, toPrune, here, hcheck, -⟩ := h.fits r hr
      have hlt := (List.getElem?_eq_some_iff.mp hcheck).1
      simp only [decide_eq_true_eq]
      omega
  fits := by
    intro r hr
    obtain ⟨op, params, toPrune, here, hcheck, hfits⟩ := h.fits r hr
    have hlt := (List.getElem?_eq_some_iff.mp hcheck).1
    exact ⟨op, params, toPrune, here, by rw [List.getElem?_append_left hlt, hcheck], hfits⟩
  counted := by
    intro a f hf
    have hold := h.counted a f hf
    rw [List.countP_append, List.countP_singleton, hfires a]
    simpa using hold

theorem Accounted.decrement (h : Accounted s) {op : String} {params : Parameters}
    {toPrune toPrune' : Bool} {here' : CheckAt} {d : ℕ} {f : Fault}
    (hc : s.calls[i]? = some (.check op params toPrune (.matched d))) (hf : s.heap[d]? = some f)
    (hcalls : s'.calls = s.calls.set i (.check op params toPrune' here'))
    (hheap : s'.heap = s.heap.set d f.decrement) (hfired : s'.fired = s.fired)
    (hruns : runs (.check op params toPrune' here') = 0)
    (hfires : ∀ a, fires a (.check op params toPrune' here') = true ↔ a = d ∧ 0 < f.count) :
    Accounted s' where
  once := by
    intro j b hb
    rw [hfired]
    exact once_move h hc hcalls hruns hb
  fits := by
    intro r hr
    rw [hfired] at hr
    exact fits_move h hc hcalls keeps_check (hheap ▸ later_decrement hf) hr
  counted := by
    intro a g hg
    have hlen : d < s.heap.length := (List.getElem?_eq_some_iff.mp hf).1
    have hcount := fires_move hc hcalls a
    have hno : fires a (.check op params toPrune (.matched d)) = false := rfl
    simp only [hno, hfires a] at hcount
    rw [hfired]
    rw [hheap] at hg
    by_cases had : d = a
    · subst had
      rw [List.getElem?_set_self hlen] at hg
      obtain rfl := Option.some.inj hg
      have hold := h.counted d f hf
      have hdec : f.decrement.count = f.count - 1 := rfl
      have hini : f.decrement.initial = f.initial := rfl
      rw [hdec, hini]
      by_cases hpos : 0 < f.count
      · simp only [hpos, and_self, if_true] at hcount
        simp at hcount
        omega
      · simp only [hpos, and_false, if_false] at hcount
        simp at hcount
        omega
    · rw [List.getElem?_set_ne had] at hg
      have hold := h.counted a g hg
      have hne : ¬ (a = d ∧ 0 < f.count) := fun hand => had hand.1.symm
      rw [if_neg hne] at hcount
      simp at hcount
      omega

theorem Accounted.fire (h : Accounted s) (hs : Sound s) {op : String} {params : Parameters}
    {toPrune : Bool} {d : ℕ} {remaining : ℤ} {err : Option String}
    (hc : s.calls[i]? = some (.check op params toPrune (.firing d remaining)))
    (hcalls : s'.calls = s.calls.set i (.check op params toPrune (.ran err)))
    (hheap : s'.heap = s.heap) (hfired : s'.fired = s.fired ++ [⟨i, d, remaining⟩]) :
    Accounted s' where
  once := by
    intro j b hb
    rw [hfired, List.countP_append, List.countP_singleton]
    rw [hcalls] at hb
    rcases set_at hb with ⟨rfl, rfl⟩ | ⟨hj, hb'⟩
    · have hold := h.once j _ hc
      rw [hold]
      simp [runs]
    · rw [h.once j b hb']
      simpa using Ne.symm hj
  fits := by
    intro r hr
    rw [hfired] at hr
    rcases List.mem_append.mp hr with hr | hr
    · exact fits_move h hc hcalls keeps_check (hheap ▸ .refl _) hr
    · obtain rfl := List.mem_singleton.mp hr
      have hlen : i < s.calls.length := (List.getElem?_eq_some_iff.mp hc).1
      have hfits : Fits s.heap op params d := hs.known i _ hc
      refine ⟨op, params, toPrune, .ran err, ?_, hheap ▸ hfits⟩
      rw [hcalls, List.getElem?_set_self hlen]
  counted := by
    intro a f hf
    have hold := h.counted a f (hheap ▸ hf)
    have hcount := fires_move hc hcalls a
    rw [hfired, List.countP_append, List.countP_singleton]
    have hran : fires a (.check op params toPrune (.ran err)) = false := rfl
    have hfir : fires a (.check op params toPrune (.firing d remaining)) = decide (d = a) := rfl
    rw [hran, hfir] at hcount
    by_cases had : d = a
    · simp [had] at hcount ⊢
      omega
    · simp [had] at hcount ⊢
      omega

theorem Accounted.add (h : Accounted s) (hs : Sound s) {d : Description}
    (hc : s.calls[i]? = some (.add d)) (hcalls : s'.calls = s.calls.set i .added)
    (hheap : s'.heap = s.heap ++ [⟨d, d.count⟩]) (hfired : s'.fired = s.fired) :
    Accounted s' where
  once := by
    intro j b hb
    rw [hfired]
    exact once_move h hc hcalls rfl hb
  fits := by
    intro r hr
    rw [hfired] at hr
    exact fits_move h hc hcalls (fun _ _ _ _ he => by cases he)
      (hheap ▸ later_append _ _) hr
  counted := by
    intro a f hf
    have hcount := fires_move hc hcalls a
    rw [hfired]
    rw [hheap] at hf
    simp only [fires] at hcount
    by_cases ha : a < s.heap.length
    · rw [List.getElem?_append_left ha] at hf
      have hold := h.counted a f hf
      simp only [Bool.false_eq_true, if_false] at hcount
      omega
    · -- a new address: no execution of it, and no right to one
      have hnone : ∀ op params, ¬ Fits s.heap op params a := by
        rintro op params ⟨g, hg, -⟩
        exact ha (List.getElem?_eq_some_iff.mp hg).1
      have hfired0 : s.fired.countP (fun r => decide (r.fault = a)) = 0 := by
        rw [List.countP_eq_zero]
        intro r hr hra
        obtain ⟨op, params, -, -, -, hfits⟩ := h.fits r hr
        exact hnone op params (of_decide_eq_true hra ▸ hfits)
      have hfires0 : s.calls.countP (fires a) = 0 := by
        rw [List.countP_eq_zero]
        intro b hb hba
        obtain ⟨j, hj⟩ := List.mem_iff_getElem?.mp hb
        have hk := hs.known j b hj
        unfold fires at hba
        split at hba
        · exact hnone _ _ (of_decide_eq_true hba ▸ hk)
        · cases hba
      have hnew : f = ⟨d, d.count⟩ := by
        rcases append_at hf with hf | hf
        · exact absurd (List.getElem?_eq_some_iff.mp hf).1 ha
        · exact List.mem_singleton.mp hf
      subst hnew
      simp only [Bool.false_eq_true, if_false] at hcount
      rw [hfired0]
      have hzero : s'.calls.countP (fires a) = 0 := by omega
      rw [hzero]
      simp

theorem Accounted.takes (h : Accounted s) (hs : Sound s) (hc : s.calls[i]? = some c)
    (ht : Takes s i c c' s') : Accounted s' := by
  have hquiet : ∀ {t : State} {here : PruneAt}, c = .prune here → runs c' = 0 →
      (∀ a, fires a c' = false) → t.calls = s.calls.set i c' → t.heap = s.heap →
      t.fired = s.fired → Accounted t := by
    rintro t here rfl hruns hfires hcalls hheap hfired
    exact h.move hc hcalls (fun _ _ _ _ he => by cases he) hheap hfired hruns hfires
  cases ht with
  | start | pass | hit | miss | leave =>
    exact h.move hc rfl keeps_check rfl rfl rfl (fun _ => rfl)
  | lose hf hspent =>
    refine h.decrement hc hf rfl rfl rfl rfl fun a => ?_
    simp only [fires, Bool.false_eq_true, false_iff, not_and, not_lt]
    exact fun _ => hspent
  | win hf hpos hprune =>
    refine h.decrement hc hf rfl rfl rfl rfl fun a => ?_
    simp [fires, hpos, eq_comm]
  | fire => exact h.fire hs hc rfl rfl rfl
  | @leavePruning op params err =>
    have hret : Accounted (s.goto i (.check op params true (.returned err))) :=
      h.move hc rfl keeps_check rfl rfl rfl (fun _ => rfl)
    exact hret.append rfl (fun _ => rfl)
  | lock | unlock | visit | keep | drop | store =>
    exact hquiet rfl rfl (fun _ => rfl) rfl rfl rfl
  | add => exact h.add hs hc rfl rfl rfl

theorem Accounted.step (h : Accounted s) (hs : Sound s) {e : Event}
    (hst : step s e = some s') : Accounted s' := by
  rcases step_takes hst with ⟨r, rfl⟩ | ⟨i, choice, c, c', -, hc, ht⟩
  · exact h.append (by cases r <;> rfl) (by cases r <;> exact fun _ => rfl)
  · exact h.takes hs hc ht

theorem reachable_accounted (h : faults.Reachable s) : Accounted s :=
  h.invariant_from (fun _ hi => hi ▸ accounted_initial)
    (fun _ _ _ hr ha hst => ha.step (reachable_sound hr) hst)

def Pruned (s s' : State) : Prop :=
  ∀ op, (s'.list op).Sublist (s.list op) ∧
    ∀ a ∈ s.list op, a ∉ s'.list op → Expired s'.heap a

theorem takes_map (h : Sound s) (hc : s.calls[i]? = some c) (ht : Takes s i c c' s') :
    (∀ op, s.list op <+: s'.list op) ∨ (∃ here, c = .prune here) ∧ Pruned s s' := by
  have hk := h.known i c hc
  cases ht with
  | store =>
    obtain ⟨hsub, hall⟩ := hk
    rw [List.append_nil] at hsub hall
    refine Or.inr ⟨⟨_, rfl⟩, fun op' => ?_⟩
    rw [list_store (s := s) rfl]
    split
    · rename_i heq
      subst heq
      exact ⟨hsub, fun a ha hout => (hall a ha).resolve_left hout⟩
    · exact ⟨List.Sublist.refl _, fun a ha hout => absurd ha hout⟩
  | add => exact Or.inl (list_insert_append rfl)
  | _ => exact Or.inl fun op => List.prefix_refl _

/-- Only `prune` takes faults out; what comes in comes in last. -/
theorem step_map (h : Sound s) {e : Event} (hst : step s e = some s') :
    (∀ op, s.list op <+: s'.list op) ∨
      (∃ i choice here, e = .advance i choice ∧ s.calls[i]? = some (.prune here)) ∧
        Pruned s s' := by
  rcases step_takes hst with ⟨r, rfl⟩ | ⟨i, choice, c, c', rfl, hc, ht⟩
  · exact Or.inl fun op => List.prefix_refl _
  · rcases takes_map h hc ht with hin | ⟨⟨here, rfl⟩, hout⟩
    · exact Or.inl hin
    · exact Or.inr ⟨⟨i, choice, here, rfl, hc⟩, hout⟩

theorem to_passed {choice : Choice} {op : String} {params : Parameters} {prune : Bool}
    (hst : step s (.advance i choice) = some s')
    (hpass : s'.calls[i]? = some (.check op params prune .passed)) :
    s.calls[i]? = some (.check op params prune (.scanning [])) ∧
      s' = s.goto i (.check op params prune .passed) := by
  obtain ⟨c, c', hc, ht⟩ := advance_takes hst
  have hself := (takes_self hc ht).symm.trans hpass
  cases ht with
  | pass =>
    cases hself
    exact ⟨hc, rfl⟩
  | _ => cases hself

/-- A check that gives up has executed nothing, and has seen every fault it
might have executed at nought or less. -/
theorem passed_exhausted (h : Sound s) (hacc : Accounted s) {choice : Choice} {op : String}
    {params : Parameters} {toPrune : Bool} (hst : step s (.advance i choice) = some s')
    (hpass : s'.calls[i]? = some (.check op params toPrune .passed)) :
    (∀ r ∈ s'.fired, r.call ≠ i) ∧
      ∀ op', ∀ a ∈ s'.list op', ∀ f, s'.heap[a]? = some f → f.fits op params = true →
        f.count ≤ 0 := by
  obtain ⟨hc, rfl⟩ := to_passed hst hpass
  constructor
  · intro r hr hri
    have hzero := hacc.once i _ hc
    rw [show runs (.check op params toPrune (.scanning [])) = 0 from rfl,
      List.countP_eq_zero] at hzero
    exact hzero r hr (decide_eq_true hri)
  · intro op' a ha f hf hfits
    obtain ⟨g, hg, hop⟩ := h.listed op' a ha
    obtain rfl : f = g := Option.some.inj (hf.symm.trans hg)
    have hsame : f.operation = op := by
      simp only [Description.fits, Bool.and_eq_true, decide_eq_true_eq] at hfits
      exact hfits.1
    subst hop
    rw [hsame] at ha
    rcases h.known i _ hc a ha with hin | ⟨g, hg, hcount⟩
    · cases hin
    · obtain rfl : f = g := Option.some.inj (hf.symm.trans hg)
      exact hcount hfits

/-- In every state that some interleaving leads to: a fault has been executed
no more often than it was added for; a check has executed one fault at most,
and one that fits it; `prune` takes out expired faults only and keeps the
others in order; and a check that gives up finds no fault left that it might
have executed. -/
theorem fires_as_configured (h : faults.Reachable s) :
    (∀ (a : ℕ) (f : Fault), s.heap[a]? = some f →
      (s.fired.countP (fun r => decide (r.fault = a)) : ℤ) ≤ max f.initial 0) ∧
    (∀ i : ℕ, s.fired.countP (fun r => decide (r.call = i)) ≤ 1) ∧
    (∀ r ∈ s.fired, ∃ op params toPrune here f,
      s.calls[r.call]? = some (.check op params toPrune here) ∧ s.heap[r.fault]? = some f ∧
        f.fits op params = true) ∧
    (∀ e s', step s e = some s' → (∀ op, s.list op <+: s'.list op) ∨
      (∃ i choice here, e = .advance i choice ∧ s.calls[i]? = some (.prune here)) ∧
        Pruned s s') ∧
    ∀ (i : ℕ) (choice : Choice) (s' : State) (op : String) (params : Parameters) (toPrune : Bool),
      step s (.advance i choice) = some s' →
      s'.calls[i]? = some (.check op params toPrune .passed) →
      (∀ r ∈ s'.fired, r.call ≠ i) ∧
        ∀ op', ∀ a ∈ s'.list op', ∀ f, s'.heap[a]? = some f → f.fits op params = true →
          f.count ≤ 0 := by
  have hsound := reachable_sound h
  have hacc := reachable_accounted h
  refine ⟨fun a f hf => ?_, fun i => ?_, fun r hr => ?_, fun e s' hst => step_map hsound hst,
    fun i choice s' op params toPrune hst hpass => passed_exhausted hsound hacc hst hpass⟩
  · have hcount := hacc.counted a f hf
    omega
  · by_cases hi : i < s.calls.length
    · rw [hacc.once i _ (List.getElem?_eq_getElem hi)]
      unfold runs
      split <;> omega
    · have hnone : s.fired.countP (fun r => decide (r.call = i)) = 0 := by
        rw [List.countP_eq_zero]
        intro r hr hri
        obtain ⟨op, params, toPrune, here, hc, -⟩ := hacc.fits r hr
        have hlt := (List.getElem?_eq_some_iff.mp hc).1
        exact hi (of_decide_eq_true hri ▸ hlt)
      omega
  · obtain ⟨op, params, toPrune, here, hc, f, hf, hfits⟩ := hacc.fits r hr
    exact ⟨op, params, toPrune, here, f, hc, hf, hfits⟩

end

def once : Description := ⟨"op", ∅, 1, "grpc.NotFound"⟩

def after (events : List Event) : Option State := events.foldlM step initial

theorem reachable_foldlM {events : List Event} {s t : State} (hs : faults.Reachable s)
    (h : events.foldlM step s = some t) : faults.Reachable t :=
  hs.foldlM (fun _ _ _ hstep => hstep) h

def go (i : ℕ) : Event := .advance i ⟨.insertion _, some "not found"⟩

def race : List Event :=
  [.call (.add once), go 0, .call (.check "op" ∅), .call (.check "op" ∅), go 1, go 2, go 1, go 2,
    go 1, go 2, go 1, go 1, go 2, go 2, go 2, go 3, go 3, go 3, go 3, go 3]

def raced : State := (after race).getD initial

theorem fires_as_configured_raced :
    raced.fired.length = 1 ∧ raced.list "op" = [] ∧
      (raced.fired.countP (fun r => decide (r.fault = 0)) : ℤ) ≤ max 1 0 := by
  have hrun : after race = some raced := rfl
  have hreach : faults.Reachable raced := reachable_foldlM (.start rfl) hrun
  refine ⟨by decide +kernel, by decide +kernel, ?_⟩
  exact (fires_as_configured hreach).1 0 ⟨{ once with count := -1 }, 1⟩ rfl

end Mmmbbb.Firing
