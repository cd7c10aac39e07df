import FiberStacks.Machine
import FiberStacks.Proofs.Locks.Body
import Mathlib.Data.List.Flatten

/-!
# The locks of all domains

Domains share the platform locks.  The lock records of every domain are in order at all times, whatever the other
domains take and give back in between.

* `Machine.Numbered` — domains have different numbers;
* `Machine.Reached` — the machines that domains lead to by running bodies, in any order;
* `Machine.LocksInOrder` — the invariant of all domains together;
* `Reached.locksInOrder` — **it holds of every machine reached**;
* `LocksInOrder.acting` — what it says of a domain about to act.
-/

namespace FiberStacks.Machine

/-- **Machines reached** from one without domains, by creating domains and by letting them run bodies. -/
inductive Reached : Machine → Prop where
  | initial (w : World) : Reached (initial w)
  | create {m : Machine} (h : Reached m) : Reached m.create.2
  | act {m m' : Machine} {d : DomainId} {b : Body} {r : Except Word Word} (h : Reached m)
      (hr : m.act d b.script = some (.ok r, m')) : Reached m'

/-- The platform locks that domains have records of. -/
def recorded (ds : List Domain) : List Lock :=
  platformLocks ((ds.flatMap fun d => d.frames.records).map LockRecord.lock)

theorem recorded_append (as bs : List Domain) : recorded (as ++ bs) = recorded as ++ recorded bs := by
  simp [recorded]

theorem recorded_cons (x : Domain) (ds : List Domain) :
    recorded (x :: ds) = platformLocks (x.frames.records.map LockRecord.lock) ++ recorded ds := by
  simp [recorded]

theorem recorded_perm (as bs : List Domain) (x : Domain) :
    (platformLocks (x.frames.records.map LockRecord.lock) ++ recorded (as ++ bs)).Perm
      (recorded (as ++ x :: bs)) := by
  rw [recorded_append, recorded_append, recorded_cons, ← List.append_assoc, ← List.append_assoc]
  exact List.perm_append_comm.append_right _

theorem recorded_filter_subperm (p : Domain → Bool) (ds : List Domain) :
    (recorded (ds.filter p)).Subperm (recorded ds) :=
  (((List.filter_sublist.flatMap _).map _).filter _).subperm

/-- **The locks of all domains are in order**: the domains are distinct, the records of each are numbered in the order
of acquisition, and all platform locks they name are held, once for each record. -/
structure LocksInOrder (m : Machine) : Prop where
  distinct : m.domains.Pairwise fun a b => a.id ≠ b.id
  created : ∀ d ∈ m.domains, d.id.number ≤ m.world.domainsCreated
  increasing : ∀ d ∈ m.domains, d.frames.records.Pairwise fun a b => a.id.number < b.id.number
  counted : ∀ d ∈ m.domains, ∀ r ∈ d.frames.records, r.id.number ≤ m.world.locksTaken
  held : (recorded m.domains).Subperm m.world.locks.held

theorem domain?_eq_some {m : Machine} {d : DomainId} {x : Domain} (h : m.domain? d = some x) :
    ∃ as bs, m.domains = as ++ x :: bs := by
  obtain ⟨-, as, bs, hm, -⟩ := List.find?_eq_some_iff_append.1 h
  exact ⟨as, bs, hm⟩

theorem domains_setDomain {m : Machine} {as bs : List Domain} {x y : Domain} (hm : m.domains = as ++ x :: bs)
    (hd : m.domains.Pairwise fun a b => a.id ≠ b.id) (hy : y.id = x.id) :
    (m.setDomain y).domains = as ++ y :: bs := by
  rw [hm] at hd
  obtain ⟨-, hxs, has⟩ := List.pairwise_append.1 hd
  have hbs := (List.pairwise_cons.1 hxs).1
  have keep : ∀ ds : List Domain, (∀ z ∈ ds, z.id ≠ y.id) →
      ds.map (fun z => if z.id = y.id then y else z) = ds := by
    intro ds h
    refine (List.map_congr_left fun z hz => ?_).trans (List.map_id ds)
    rw [if_neg (h z hz)]
    rfl
  unfold setDomain
  simp only
  rw [hm, List.map_append, List.map_cons, if_pos hy.symm, keep as, keep bs]
  · intro z hz he
    exact hbs z hz (hy.symm.trans he.symm)
  · intro z hz he
    exact has z hz x List.mem_cons_self (he.trans hy)

/-! ### Numbers of domains -/

/-- **Different domains have different numbers**, none beyond the number of domains created. -/
structure Numbered (m : Machine) : Prop where
  distinct : m.domains.Pairwise fun a b => a.id ≠ b.id
  created : ∀ d ∈ m.domains, d.id.number ≤ m.world.domainsCreated

namespace Numbered

variable {m : Machine} {as bs : List Domain} {x : Domain}

theorem create (h : m.Numbered) : m.create.2.Numbered := by
  have hd : m.create.2.domains = m.domains ++ [.fresh ⟨m.world.domainsCreated + 1⟩ m.world.config.maxStackWords] := rfl
  refine ⟨?_, ?_⟩
  · rw [hd]
    refine List.pairwise_append.2 ⟨h.distinct, List.pairwise_singleton .., fun a ha b hb he => ?_⟩
    obtain rfl := List.mem_singleton.1 hb
    have := h.created a ha
    rw [he] at this
    exact absurd this (Nat.not_succ_le_self _)
  · rw [hd]
    intro a ha
    rcases List.mem_append.1 ha with ha | ha
    · exact (h.created a ha).trans (Nat.le_succ _)
    · obtain rfl := List.mem_singleton.1 ha
      exact le_rfl

/-- A domain has acted and kept its number. -/
theorem acted {t : Active} (h : m.Numbered) (hm : m.domains = as ++ x :: bs) (hid : t.domain.id = x.id)
    (hcreated : t.world.domainsCreated = m.world.domainsCreated) :
    Numbered { m.setDomain t.domain with world := t.world } := by
  have hd : (m.setDomain t.domain).domains = as ++ t.domain :: bs := domains_setDomain hm h.distinct hid
  refine ⟨?_, ?_⟩ <;> simp only [hd]
  · have hids : (as ++ t.domain :: bs).map Domain.id = m.domains.map Domain.id := by
      rw [hm]
      simp [hid]
    rw [← List.pairwise_map, hids, List.pairwise_map]
    exact h.distinct
  · intro a ha
    rw [hcreated]
    rcases List.mem_append.1 ha with ha | ha
    · exact h.created a (by simp [hm, ha])
    · rcases List.mem_cons.1 ha with rfl | ha
      · rw [hid]
        exact h.created x (by simp [hm])
      · exact h.created a (by simp [hm, ha])

end Numbered

namespace LocksInOrder

variable {m m' : Machine} {as bs : List Domain} {x : Domain}

/-- **A domain about to act has its locks in order**, beside those of the other domains. -/
theorem acting (h : m.LocksInOrder) (hm : m.domains = as ++ x :: bs) :
    Active.LocksInOrder (recorded (as ++ bs)) ⟨x, m.world⟩ where
  increasing := h.increasing x (by simp [hm])
  counted := h.counted x (by simp [hm])
  held := by
    have hheld := h.held
    rw [hm] at hheld
    exact (recorded_perm as bs x).subperm.trans hheld

theorem numbered (h : m.LocksInOrder) : m.Numbered := ⟨h.distinct, h.created⟩

theorem create (h : m.LocksInOrder) : m.create.2.LocksInOrder := by
  have hd : m.create.2.domains = m.domains ++ [.fresh ⟨m.world.domainsCreated + 1⟩ m.world.config.maxStackWords] := rfl
  refine ⟨h.numbered.create.distinct, h.numbered.create.created, ?_, ?_, ?_⟩ <;> rw [hd]
  · intro a ha
    rcases List.mem_append.1 ha with ha | ha
    · exact h.increasing a ha
    · obtain rfl := List.mem_singleton.1 ha
      exact List.Pairwise.nil
  · intro a ha
    rcases List.mem_append.1 ha with ha | ha
    · exact h.counted a ha
    · obtain rfl := List.mem_singleton.1 ha
      intro r hr
      cases hr
  · rw [recorded_append]
    exact (List.append_nil _).symm ▸ h.held

/-- A domain that has acted, and kept its locks in order beside those of the others. -/
theorem acted {t : Active} (h : m.LocksInOrder) (hm : m.domains = as ++ x :: bs)
    (ht : t.LocksInOrder (recorded (as ++ bs))) (hid : t.domain.id = x.id)
    (hcreated : t.world.domainsCreated = m.world.domainsCreated) (htaken : m.world.locksTaken ≤ t.world.locksTaken) :
    LocksInOrder { m.setDomain t.domain with world := t.world } := by
  have hd : (m.setDomain t.domain).domains = as ++ t.domain :: bs := domains_setDomain hm h.distinct hid
  have hmem : ∀ a ∈ as ++ t.domain :: bs, a = t.domain ∨ a ∈ m.domains := by
    intro a ha
    rw [hm]
    simp only [List.mem_append, List.mem_cons] at ha ⊢
    tauto
  have hnumbered := h.numbered.acted hm hid hcreated
  refine ⟨hnumbered.distinct, hnumbered.created, ?_, ?_, ?_⟩ <;> simp only [hd]
  · intro a ha
    rcases hmem a ha with rfl | ha
    · exact ht.increasing
    · exact h.increasing a ha
  · intro a ha r hr
    rcases hmem a ha with rfl | ha
    · exact ht.counted r hr
    · exact (h.counted a ha r hr).trans htaken
  · exact (recorded_perm as bs t.domain).symm.subperm.trans ht.held

/-- Some domains are gone. -/
theorem filter (h : m.LocksInOrder) (p : Domain → Bool) :
    LocksInOrder { m with domains := m.domains.filter p } where
  distinct := h.distinct.filter p
  created := fun d hd => h.created d (List.mem_of_mem_filter hd)
  increasing := fun d hd => h.increasing d (List.mem_of_mem_filter hd)
  counted := fun d hd => h.counted d (List.mem_of_mem_filter hd)
  held := (recorded_filter_subperm p m.domains).trans h.held

end LocksInOrder

/-- **In every machine reached the locks of all domains are in order.** -/
theorem Reached.locksInOrder {m : Machine} (h : m.Reached) : m.LocksInOrder := by
  induction h with
  | initial w =>
    exact ⟨.nil, by simp [Machine.initial], by simp [Machine.initial], by simp [Machine.initial], List.nil_subperm⟩
  | create _ ih => exact ih.create
  | @act m m' d b r _ hr ih =>
    obtain ⟨x, hx, hr⟩ := Option.map_eq_some_iff.1 hr
    obtain ⟨as, bs, hm⟩ := domain?_eq_some hx
    obtain ⟨hout, rfl⟩ := Prod.mk.inj hr
    have hb := Body.script_keeps b (ih.acting hm)
    rcases hrun : b.script ⟨x, m.world⟩ with ⟨e | r', t⟩
    · rw [hrun] at hout
      cases hout
    · have hk := (Action.wp_of_ok hrun).1 hb
      exact ih.acted hm hk.order hk.id hk.created hk.taken

end FiberStacks.Machine
