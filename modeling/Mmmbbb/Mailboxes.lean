import Mathlib.Data.Set.Function
import Mathlib.Logic.Relation

/-!
# Mailboxes

A broker in the abstract. Letters lie in boxes, and some of them wait there.
What is posted on a topic is copied into each box of its audience; a letter
that is spent leaves its box, and its content is posted on another topic.
-/

set_option autoImplicit false

namespace Mailboxes
open Relation

structure Letter (ι σ μ : Type) where
  id : ι
  box : σ
  content : μ

/-- The letters that are known, and those of them that wait. -/
@[ext] structure Mail (ι σ μ : Type) where
  known : Set (Letter ι σ μ)
  waiting : Set (Letter ι σ μ)
  waiting_known : waiting ⊆ known
  single : Set.InjOn Letter.id known

/-- What a broker goes by: the boxes that get what is posted on a topic, the
boxes in which a new letter waits at all, those that are closed, the topic that
a letter goes to when it is spent, the letters whose time has come, and those
that have to wait for another one. -/
structure Office (ι σ μ τ : Type) where
  audience : τ → μ → Set σ
  keeps : Set σ
  closed : Set σ
  spent : Letter ι σ μ → τ → Prop
  due : Set (Letter ι σ μ)
  held : Set (Letter ι σ μ)

section
variable {ι σ μ τ : Type}

structure Copies (b : Mail ι σ μ) (x : μ) (target : Set σ) (new : Set (Letter ι σ μ)) : Prop where
  fresh : ∀ l ∈ new, ∀ k ∈ b.known, l.id ≠ k.id
  content : ∀ l ∈ new, l.content = x
  boxes : Set.BijOn Letter.box new target

def Sends (o : Office ι σ μ τ) (t : τ) (x : μ) (gone : Set (Letter ι σ μ)) (b b' : Mail ι σ μ) :
    Prop :=
  ∃ new, Copies b x (o.audience t x) new ∧ b'.known = b.known ∪ new ∧
    b'.waiting = (b.waiting \ gone) ∪ {l ∈ new | l.box ∈ o.keeps}

/-- A spent letter of `among` is forwarded. -/
def Forwards (o : Office ι σ μ τ) (among : Set (Letter ι σ μ)) (b b' : Mail ι σ μ) : Prop :=
  ∃ l t, l ∈ among ∧ o.spent l t ∧ l ∈ b.waiting ∧ Sends o t l.content {l} b b'

/-- The letters of a box that can be handed out. -/
def Office.ripe (o : Office ι σ μ τ) (b : Mail ι σ μ) (k : σ) : Set (Letter ι σ μ) :=
  {l ∈ b.waiting | l.box = k ∧ l ∈ o.due ∧ l ∉ o.held}

def Office.stuck (o : Office ι σ μ τ) (b : Mail ι σ μ) : Set (Letter ι σ μ) :=
  {l ∈ b.waiting | l ∈ o.due ∧ l.box ∉ o.closed ∧ ∃ t, o.spent l t}

inductive Request (ι σ μ τ : Type)
  | post (t : τ) (x : μ)
  | settle (ids : Set ι)
  | retire (ids : Set ι)
  /-- A lenient one never leaves with nothing when there is something ripe. -/
  | fetch (k : σ) (lenient : Bool)
  | sweep (n : ℕ)
  /-- In a box, `past` is settled and `back` waits again. -/
  | reset (k : σ) (past back : Set ι)
  | tidy

/-- What a broker does about a request, and the letters it hands out. -/
inductive Serves (o : Office ι σ μ τ) (b : Mail ι σ μ) :
    Request ι σ μ τ → Set (Letter ι σ μ) → Mail ι σ μ → Prop
  | post {t : τ} {x : μ} {b' : Mail ι σ μ} : Sends o t x ∅ b b' → Serves o b (.post t x) ∅ b'
  | settle {ids : Set ι} {b' : Mail ι σ μ} : b'.known = b.known →
      b'.waiting = {l ∈ b.waiting | l.id ∉ ids} → Serves o b (.settle ids) ∅ b'
  | retire {ids : Set ι} {b' : Mail ι σ μ} :
      ReflTransGen (Forwards o {l ∈ b.waiting | l.id ∈ ids}) b b' →
      (∀ l ∈ b.waiting, l.id ∈ ids → ∀ t, o.spent l t → l ∉ b'.waiting) →
      Serves o b (.retire ids) ∅ b'
  | fetch {k : σ} {lenient : Bool} {out : Set (Letter ι σ μ)} {b' : Mail ι σ μ} :
      ReflTransGen (Forwards o (o.ripe b k)) b b' →
      (∀ l ∈ out, l ∈ o.ripe b k ∧ l ∈ b'.waiting ∧ ∀ t, ¬ o.spent l t) →
      (lenient = true → (o.ripe b k).Nonempty → ∃ l ∈ o.ripe b k, l ∈ out ∨ l ∉ b'.waiting) →
      Serves o b (.fetch k lenient) out b'
  | sweep {n : ℕ} {b' : Mail ι σ μ} : ReflTransGen (Forwards o (o.stuck b)) b b' →
      ((∀ l ∈ o.stuck b, l ∉ b'.waiting) ∨ ∃ ls : List (Letter ι σ μ), ls.Nodup ∧
        ls.length = n ∧ ∀ l ∈ ls, l ∈ o.stuck b ∧ l ∉ b'.waiting) →
      Serves o b (.sweep n) ∅ b'
  | reset {k : σ} {past back : Set ι} {b' : Mail ι σ μ} : b'.known = b.known →
      b'.waiting = {l ∈ b.waiting | l.box = k → l.id ∉ past} ∪
        {l ∈ b.known | l.box = k ∧ l.id ∈ back ∧ k ∈ o.keeps} →
      Serves o b (.reset k past back) ∅ b'
  | tidy (gone : Set (Letter ι σ μ)) {b' : Mail ι σ μ} :
      (∀ l ∈ gone, l ∈ b.waiting → l.box ∈ o.closed) → b'.known = b.known \ gone →
      b'.waiting = b.waiting \ gone → Serves o b .tidy ∅ b'

variable {o : Office ι σ μ τ} {b b' c : Mail ι σ μ} {t : τ} {x : μ}
  {gone among : Set (Letter ι σ μ)}

theorem serves_still (h : b' = b) : Serves o b .tidy ∅ b' := by
  rw [h]
  exact .tidy ∅ (fun l hl => hl.elim) (Set.sdiff_empty).symm (Set.sdiff_empty).symm

inductive Occasion (ι σ μ τ γ : Type)
  | lapse (gone : Set (Letter ι σ μ))
  | serve (o : Office ι σ μ τ) (r : Request ι σ μ τ) (g : γ)

/-- A course of occasions, each request with what was seen of the letters
handed out. -/
inductive Course {γ : Type} (Shown : γ → Set (Letter ι σ μ) → Prop) :
    Mail ι σ μ → List (Occasion ι σ μ τ γ) → Mail ι σ μ → Prop
  | done (b : Mail ι σ μ) : Course Shown b [] b
  | lapse {gone : Set (Letter ι σ μ)} {b b' c : Mail ι σ μ} {es : List (Occasion ι σ μ τ γ)} :
      b'.known = b.known → b'.waiting = b.waiting \ gone → Course Shown b' es c →
      Course Shown b (.lapse gone :: es) c
  | serve {o : Office ι σ μ τ} {r : Request ι σ μ τ} {out : Set (Letter ι σ μ)} {g : γ}
      {b b' c : Mail ι σ μ} {es : List (Occasion ι σ μ τ γ)} : Serves o b r out b' →
      Shown g out → Course Shown b' es c → Course Shown b (.serve o r g :: es) c

theorem Sends.origin (h : Sends o t x gone b b') {l : Letter ι σ μ} (hl : l ∈ b'.known) :
    l ∈ b.known ∨ l.content = x ∧ l.box ∈ o.audience t x := by
  obtain ⟨new, hnew, hknown, -⟩ := h
  rw [hknown] at hl
  rcases hl with hl | hl
  · exact Or.inl hl
  · exact Or.inr ⟨hnew.content l hl, hnew.boxes.mapsTo hl⟩

theorem Sends.known (h : Sends o t x gone b b') : b.known ⊆ b'.known := by
  obtain ⟨new, -, hknown, -⟩ := h
  rw [hknown]
  exact Set.subset_union_left

theorem Sends.waiting (h : Sends o t x gone b b') {l : Letter ι σ μ} (hl : l ∈ b.known) :
    l ∈ b'.waiting ↔ l ∈ b.waiting ∧ l ∉ gone := by
  obtain ⟨new, hnew, -, hwaiting⟩ := h
  have hold : l ∉ new := fun hmem => hnew.fresh l hmem l hl rfl
  rw [hwaiting]
  constructor
  · rintro (hw | hw)
    · exact hw
    · exact absurd hw.1 hold
  · exact Or.inl

theorem forwards_known (h : ReflTransGen (Forwards o among) b b') : b.known ⊆ b'.known := by
  induction h with
  | refl => exact subset_rfl
  | tail _ hstep ih =>
    obtain ⟨l, t, -, -, -, hsends⟩ := hstep
    exact ih.trans hsends.known

theorem forwards_origin (h : ReflTransGen (Forwards o among) b b') {l : Letter ι σ μ}
    (hl : l ∈ b'.known) :
    l ∈ b.known ∨ ∃ k ∈ among, ∃ t, o.spent k t ∧ l.content = k.content ∧
      l.box ∈ o.audience t k.content := by
  induction h with
  | refl => exact Or.inl hl
  | tail _ hstep ih =>
    obtain ⟨k, t, hk, hspent, -, hsends⟩ := hstep
    rcases hsends.origin hl with hl | ⟨hcontent, hbox⟩
    · exact ih hl
    · exact Or.inr ⟨k, hk, t, hspent, hcontent, hbox⟩

/-- Forwarding takes away nothing but spent letters, and brings nothing back. -/
theorem forwards_waiting (h : ReflTransGen (Forwards o among) b b') {l : Letter ι σ μ}
    (hl : l ∈ b.known) :
    (l ∈ b'.waiting → l ∈ b.waiting) ∧
      (l ∈ b.waiting → l ∈ b'.waiting ∨ l ∈ among ∧ ∃ t, o.spent l t) := by
  induction h with
  | refl => exact ⟨id, Or.inl⟩
  | tail hpre hstep ih =>
    obtain ⟨k, t, hk, hspent, -, hsends⟩ := hstep
    have hiff := hsends.waiting (forwards_known hpre hl)
    constructor
    · intro hw
      exact ih.1 (hiff.mp hw).1
    · intro hw
      rcases ih.2 hw with hw | hw
      · by_cases hlk : l = k
        · exact Or.inr ⟨hlk ▸ hk, t, hlk ▸ hspent⟩
        · exact Or.inl (hiff.mpr ⟨hw, hlk⟩)
      · exact Or.inr hw

/-- A letter comes from the post, or is the copy of a spent one. -/
theorem Serves.origin {r : Request ι σ μ τ} {out : Set (Letter ι σ μ)} (h : Serves o b r out b')
    {l : Letter ι σ μ} (hl : l ∈ b'.known) :
    l ∈ b.known ∨ (∃ t, r = .post t l.content ∧ l.box ∈ o.audience t l.content) ∨
      ∃ k ∈ b.known, ∃ t, o.spent k t ∧ l.content = k.content ∧ l.box ∈ o.audience t k.content := by
  have hforwarded : ∀ {among : Set (Letter ι σ μ)}, among ⊆ b.waiting →
      ReflTransGen (Forwards o among) b b' → l ∈ b.known ∨
        ∃ k ∈ b.known, ∃ t, o.spent k t ∧ l.content = k.content ∧
          l.box ∈ o.audience t k.content := by
    intro among hsub hrun
    rcases forwards_origin hrun hl with hl | ⟨k, hk, hrest⟩
    · exact Or.inl hl
    · exact Or.inr ⟨k, b.waiting_known (hsub hk), hrest⟩
  cases h with
  | post hsends =>
    rcases hsends.origin hl with hl | ⟨rfl, hbox⟩
    · exact Or.inl hl
    · exact Or.inr (Or.inl ⟨_, rfl, hbox⟩)
  | settle hknown => exact Or.inl (hknown ▸ hl)
  | retire hrun => exact (hforwarded (Set.sep_subset _ _) hrun).imp_right Or.inr
  | fetch hrun => exact (hforwarded (Set.sep_subset _ _) hrun).imp_right Or.inr
  | sweep hrun => exact (hforwarded (Set.sep_subset _ _) hrun).imp_right Or.inr
  | reset hknown => exact Or.inl (hknown ▸ hl)
  | tidy _ _ hknown =>
    rw [hknown] at hl
    exact Or.inl hl.1

theorem Serves.out_known {r : Request ι σ μ τ} {out : Set (Letter ι σ μ)}
    (h : Serves o b r out b') : out ⊆ b.known := by
  cases h with
  | fetch _ hout => exact fun l hl => b.waiting_known (hout l hl).1.1
  | _ => exact Set.empty_subset _

end

end Mailboxes
