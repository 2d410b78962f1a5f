import Mmmbbb.Changes
import Mmmbbb.LinkedRows

/-!
# The notBefore links

Whatever the bus does, a link names an earlier delivery of the same
subscription. So an ordered subscription never stalls: of what is outstanding
something may always be handed out.
-/

set_option autoImplicit false

namespace Mmmbbb.Links
open KeyedRows LinkedRows Programs Relation Mmmbbb.Schema Mmmbbb.Database Mmmbbb.Delivering
open Mmmbbb.Consuming Mmmbbb.Runs Mmmbbb.Writes Mmmbbb.Changes

abbrev LinksBack (rows : List Delivery) : Prop :=
  Linked Delivery.id Delivery.notBeforeID Delivery.subscriptionID rows

abbrev NotBefore (rows : List Delivery) (a b : Delivery) : Prop :=
  Follows Delivery.id Delivery.notBeforeID rows a b

section
variable {e : Event} {w w' : World} {r : Delivery}

theorem added_link (h : Added e w r) {k : UUID} (hk : r.notBeforeID = some k) :
    ∃ p ∈ w.db.deliveries, p.id = k ∧ p.subscriptionID = r.subscriptionID := by
  obtain ⟨s, hs, m, hm, n, -, -, -, rfl⟩ := h
  simp only [DeliveryCreate.row, setUpDelivery] at hk ⊢
  split at hk
  · obtain ⟨p, hp, hid⟩ := Option.map_eq_some_iff.mp hk
    obtain ⟨hmem, hpred, -⟩ := lastDelivery_some hp
    simp only [predecessorOf, Bool.and_eq_true, decide_eq_true_eq] at hpred
    exact ⟨p, hmem, hid, hpred.1.1⟩
  · cases hk

theorem write_linksBack {o : World} (h : Write e o w w') (hl : LinksBack w.db.deliveries) :
    LinksBack w'.db.deliveries := by
  rcases h.deliveries with heq | ⟨r, hr, heq⟩ | ⟨p, u, heq⟩
  · rw [heq]
    exact hl
  · rw [heq]
    exact hl.append_one fun k hk => added_link hr hk
  · rw [heq]
    exact hl.map (setWhere_id p) (setWhere_notBeforeID p) (setWhere_subscriptionID p)

theorem delete_linksBack {rows : List Delivery} (hl : LinksBack rows) (p : Delivery → Bool) :
    LinksBack (deliveriesWithout p rows) := by
  refine hl.delete (fun _ => rfl) (fun _ => rfl) fun r k hk => ?_
  have hk := Delivery.forget_notBefore.mp hk
  refine ⟨hk.1, fun x hx hid => ?_⟩
  have hgone : k ∉ (rows.filter p).map Delivery.id := hk.2
  by_contra hpx
  have hpx : p x = true := by simpa using hpx
  exact hgone (List.mem_map.mpr ⟨x, List.mem_filter.mpr ⟨hx, hpx⟩, hid⟩)

theorem step_linksBack (hl : LinksBack w.db.deliveries) : LinksBack (w.after e).db.deliveries := by
  have hchange := change_after (e := e) w
  generalize w.after e = w' at hchange ⊢
  cases hchange
  case write h =>
    exact steps_invariant (I := fun v : World => LinksBack v.db.deliveries)
      (fun _ _ hw hv => write_linksBack hw hv) h hl
  case prune p hp => exact delete_linksBack hl p
  case quiet db hq => exact hq.deliveries ▸ hl

end

theorem reachable_linksBack {w : World} (h : bus.Reachable w) : LinksBack w.db.deliveries := by
  refine h.invariant (I := fun v : World => LinksBack v.db.deliveries) (fun v hv => ?_)
    (fun v e v' hl hs => ?_)
  · have hempty : v.db.deliveries = [] := by rw [hv.1]; rfl
    rw [hempty]
    exact linked_nil
  · have hs : v' = v.after e := hs
    rw [hs]
    exact step_linksBack hl

theorem orderingCondition_of_link {now : Time} {db : DB} {d : Delivery}
    (h : ∀ k, d.notBeforeID = some k → ∃ p ∈ db.deliveries, p.id = k ∧ ¬ p.Outstanding now) :
    orderingCondition now db.toTables d = true := by
  unfold orderingCondition
  split
  · rfl
  · rename_i k hk
    obtain ⟨p, hp, hid, hnot⟩ := h k hk
    rw [← hid, fetch_of_mem db.sound.delivery_pk hp]
    change (p.completedAt.isSome || decide (p.expiresAt ≤ now)) = true
    cases hc : p.completedAt with
    | some t => rfl
    | none =>
      have hle : p.expiresAt ≤ now := by
        by_contra hlt
        exact hnot ⟨hc, not_le.mp hlt⟩
      simpa using hle

/-- The links never deadlock a subscription: each names an earlier delivery of
the same subscription, they have no cycle, and at every instant an ordered
subscription with something outstanding has something to hand out. -/
theorem never_deadlocked {w : World} (h : bus.Reachable w) :
    (∀ d ∈ w.db.deliveries, ∀ k, d.notBeforeID = some k →
      ∃ p, Before p d w.db.deliveries ∧ p.id = k ∧ p.subscriptionID = d.subscriptionID) ∧
    (∀ d, ¬ TransGen (NotBefore w.db.deliveries) d d) ∧
    ∀ now, ∀ s ∈ w.db.subscriptions, s.orderedDelivery = true →
      (∃ d ∈ w.db.deliveries, d.subscriptionID = s.id ∧ d.Outstanding now) →
      ∃ d ∈ w.db.deliveries, d.subscriptionID = s.id ∧ d.Outstanding now ∧
        orderingCondition now w.db.toTables d = true := by
  have hl := reachable_linksBack h
  have hu := w.db.sound.delivery_pk
  refine ⟨hl, acyclic hl hu, fun now s _ _ hopen => ?_⟩
  obtain ⟨d, hd, hsub, ho, hlink⟩ := exists_unblocked hl hu hopen
  exact ⟨d, hd, hsub, ho, orderingCondition_of_link hlink⟩

def chainBus : World := World.initial.run [
  Sample.ordersTopic 1 10,
  Sample.orderedWorker 2 20,
  Sample.publish "" "k" 3 30,
  Sample.publish "" "k" 4 40]

def chainSubscription : Subscription :=
  ⟨20, 10, "worker", 1002, none, 1000, 1000, true, [], none, none, none, none, none, none, 0⟩

theorem never_deadlocked_chain :
    ∃ d ∈ chainBus.db.deliveries, d.subscriptionID = 20 ∧ d.Outstanding 5 ∧
      orderingCondition 5 chainBus.db.toTables d = true :=
  (never_deadlocked (initial_reachable _)).2.2 5 chainSubscription (by decide +kernel) rfl
    (by decide +kernel)

end Mmmbbb.Links
