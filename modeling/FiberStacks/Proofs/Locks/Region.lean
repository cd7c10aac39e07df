import FiberStacks.Proofs.Locks.Order

/-!
# Protected regions

How the operations on locks, frames and protected regions end, on a domain whose lock records are in order.

* `Active.LocksInOrder` — the records of the acting domain are in order;
* `wp_acquire`, `wp_release`, `wp_enterFrame`, `wp_leaveFrame` — the operations of a body, with all their ends;
* `raise_apply` — a raise inside a region unwinds completely, and what it unlocks;
* `protect_of_ok`, `protect_of_raised`, `protect_of_stop` — what a region makes of the end of its body.
-/

namespace FiberStacks

/-- The lock records of the acting domain are in order, beside the platform locks of other domains. -/
def Active.LocksInOrder (others : List Lock) (s : Active) : Prop :=
  InOrder s.domain.frames.records s.world.locksTaken others s.world.locks.held

/-- The acting domain has just entered a protected region. -/
def Active.entered (s : Active) : Active := { s with domain := s.domain.enterRegion }

/-- The unwinding to a protected region is done, with some lock state, and an exception is pending. -/
def Active.unwound (s : Active) (c : HandlerContext) (locks : Locks) (bucket : Word) : Active where
  domain :=
    { s.domain with
      frames := (s.domain.frames.unwind c.frames c.records).2
      blocking := c.blocking
      pending := some bucket }
  world := { s.world with locks }

/-- The innermost protected region is left, and an exception raised in it is no longer pending. -/
def Active.caught (s : Active) : Active :=
  { s with domain := { s.domain with handlers := s.domain.handlers.tail, pending := none } }

/-- The locks an unwinding to a protected region releases, in the order of release. -/
def Active.cutOff (s : Active) (c : HandlerContext) : List LockRecord :=
  (s.domain.frames.unwind c.frames c.records).1

namespace Act

open FiberStacks.Action

variable {α : Type} {s t : Active} {others : List Lock}

section Steps

variable {E : Stop → Active → Prop}

/-! ### The operations of a body -/

theorem wp_acquire {l : Lock} {Q : Option LockId → Active → Prop} :
    (acquire l).wp s Q E ↔ match s.world.locks.lock? l with
      | none => Q none s
      | some locks => Q (some ⟨s.world.locksTaken + 1⟩)
          { domain := { s.domain with frames := s.domain.frames.addLock ⟨⟨s.world.locksTaken + 1⟩, l⟩ }
            world := { s.world with locks, locksTaken := s.world.locksTaken + 1 } } := by
  unfold acquire
  simp only [wp_bind, wp_view]
  cases s.world.locks.lock? l <;> rfl

theorem wp_unlockAll {ls : List Lock} {Q : Unit → Active → Prop} (locks : Locks)
    (h : s.world.locks.unlockAll ls = .ok locks) (hQ : Q () { s with world := { s.world with locks } }) :
    (unlockAll ls).wp s Q E := by
  unfold unlockAll
  simp only [wp_bind, wp_view, h, wp_check_ok, wp_modifyWorld]
  exact hQ

/-- Giving a lock back: nothing, if no frame has a record of that number, or else the record goes and its lock is
unlocked. -/
theorem wp_release {id : LockId} {Q : Bool → Active → Prop} (hs : s.LocksInOrder others)
    (hnone : s.domain.frames.remove? id = none → Q false s)
    (hsome : ∀ r frames locks, s.domain.frames.remove? id = some (r, frames) →
      InOrder frames.records s.world.locksTaken others locks.held →
      Q true { domain := { s.domain with frames }, world := { s.world with locks } }) :
    (release id).wp s Q E := by
  unfold release
  simp only [wp_bind, wp_domain]
  cases hr : s.domain.frames.remove? id with
  | none => exact hnone hr
  | some p =>
    obtain ⟨r, frames⟩ := p
    obtain ⟨as, bs, h1, h2, -⟩ := LocalFrames.records_remove? hr
    unfold Active.LocksInOrder at hs
    rw [h1] at hs
    obtain ⟨locks, hu, hi, -⟩ := hs.remove
    simp only [wp_bind, wp_modifyDomain, wp_pure]
    exact wp_unlockAll locks hu (hsome r frames locks hr (h2 ▸ hi))

theorem wp_enterFrame {roots : List Word} {Q : Nat → Active → Prop} :
    (enterFrame roots).wp s Q E ↔ Q s.domain.frames.depth
      { s with domain := { s.domain with frames := s.domain.frames.push (.ofRoots roots) } } := by
  unfold enterFrame
  simp only [wp_bind, wp_domain, wp_modifyDomain, wp_pure]

theorem wp_leaveFrame {marker : Nat} {Q : List Word → Active → Prop}
    (hQ : ∀ x frames, s.domain.frames.pop? = some (x, frames) → x.ledger.isEmpty = true →
      Q x.roots { s with domain := { s.domain with frames } })
    (hE : E (.fault (.notInnermost marker)) s)
    (hE' : ∀ x frames, s.domain.frames.pop? = some (x, frames) →
      E (.fault (.locksHeld x.ledger.size)) { s with domain := { s.domain with frames } }) :
    (leaveFrame marker).wp s Q E := by
  unfold leaveFrame
  simp only [wp_bind, wp_domain, wp_require]
  refine ⟨fun _ => ?_, fun _ => hE⟩
  cases hp : s.domain.frames.pop? with
  | none => exact hE
  | some p =>
    obtain ⟨x, frames⟩ := p
    simp only [wp_bind, wp_modifyDomain, wp_require, wp_pure]
    exact ⟨fun hx => hQ x frames hp hx, fun _ => hE' x frames hp⟩

theorem wp_enterBlocking {Q : Unit → Active → Prop} :
    enterBlocking.wp s Q E ↔ Q () { s with domain := { s.domain with blocking := s.domain.blocking + 1 } } := Iff.rfl

theorem wp_leaveBlocking {Q : Unit → Active → Prop}
    (hQ : Q () { s with domain := { s.domain with blocking := s.domain.blocking - 1 } })
    (hE : E (.fault .notBlocking) s) : leaveBlocking.wp s Q E := by
  unfold leaveBlocking
  simp only [wp_bind, wp_domain, wp_require, wp_modifyDomain]
  exact ⟨fun _ => hQ, fun _ => hE⟩

end Steps

/-! ### Raising -/

/-- **A raise inside a region unwinds completely**: the locks it cuts off are unlocked in that order, and the records
left are in order. -/
theorem raise_apply {c : HandlerContext} {hs : List HandlerContext} {w : Word} (ht : t.LocksInOrder others)
    (hc : t.domain.handlers = c :: hs) :
    ∃ locks, (raise w : Act α) t = (.error .raised, t.unwound c locks w) ∧ (t.unwound c locks w).LocksInOrder others ∧
      locks.journal = t.world.locks.journal ++ (t.cutOff c).map fun r => .unlocked r.lock := by
  obtain ⟨locks, hu, hi, hj⟩ := InOrder.cut ht (LocalFrames.records_unwind t.domain.frames c.frames c.records)
  refine ⟨locks, ?_, hi, hj⟩
  have h : (raise w : Act α).wp t (fun _ _ => False) fun e u => e = .raised ∧ u = t.unwound c locks w := by
    unfold raise unwindTo
    simp only [wp_bind, wp_modifyDomain, wp_domain]
    split
    · next hnil => rw [hc] at hnil; cases hnil
    · next hcons =>
      rw [hc] at hcons
      obtain ⟨rfl, rfl⟩ := List.cons.inj hcons
      simp only [wp_bind, wp_domain, wp_modifyDomain]
      exact wp_unlockAll locks hu ⟨rfl, rfl⟩
  obtain ⟨e, u, hr, rfl, rfl⟩ := exists_error_of_wp h
  exact hr

/-! ### Regions -/

section Protect

variable {body : Act α}

theorem protect_of_ok {a : α} (h : body s.entered = (.ok a, t)) (ht : t.domain.handlers = s.entered.domain.handlers) :
    protect body s = (.ok (.ok a), { t with domain := { t.domain with handlers := s.domain.handlers } }) := by
  have hlen : t.domain.handlers.length = s.domain.handlers.length + 1 := by rw [ht]; rfl
  have htail : t.domain.handlers.tail = s.domain.handlers := by rw [ht]; rfl
  have h' : (protect body).wp s
      (fun r u => r = .ok a ∧ u = { t with domain := { t.domain with handlers := s.domain.handlers } })
      fun _ _ => False := by
    unfold protect enterRegion leaveRegion
    simp only [wp_bind, wp_domain, wp_modifyDomain, wp_pure, wp_attempt]
    refine (wp_of_ok h).2 ?_
    simp only [wp_require]
    exact ⟨fun _ => ⟨trivial, by rw [htail]⟩, fun hn => hn hlen⟩
  obtain ⟨r, u, hr, rfl, rfl⟩ := exists_of_wp h'
  exact hr

theorem protect_of_raised {w : Word} (h : body s.entered = (.error .raised, t))
    (ht : t.domain.handlers = s.entered.domain.handlers) (hw : t.domain.pending = some w) :
    protect body s = (.ok (.error w), t.caught) := by
  have hlen : t.domain.handlers.length = s.domain.handlers.length + 1 := by rw [ht]; rfl
  have h' : (protect body).wp s (fun r u => r = .error w ∧ u = t.caught) fun _ _ => False := by
    unfold protect enterRegion leaveRegion takePending
    simp only [wp_bind, wp_domain, wp_modifyDomain, wp_pure, wp_attempt]
    refine (wp_of_error h).2 ?_
    simp only [wp_bind, wp_domain, wp_require, wp_modifyDomain, hw, wp_pure]
    exact ⟨fun _ => ⟨trivial, rfl⟩, fun hn => hn hlen⟩
  obtain ⟨r, u, hr, rfl, rfl⟩ := exists_of_wp h'
  exact hr

theorem protect_of_stop {e : Stop} (h : body s.entered = (.error e, t)) (he : e ≠ .raised) :
    protect body s = (.error e, t) := by
  have h' : (protect body).wp s (fun _ _ => False) fun e' u => e' = e ∧ u = t := by
    unfold protect enterRegion
    simp only [wp_bind, wp_domain, wp_modifyDomain, wp_pure, wp_attempt]
    refine (wp_of_error h).2 ?_
    cases e with
    | raised => exact absurd rfl he
    | fault f => exact ⟨rfl, rfl⟩
    | fatal x => exact ⟨rfl, rfl⟩
  obtain ⟨e', u, hr, rfl, rfl⟩ := exists_error_of_wp h'
  exact hr

end Protect

end Act

end FiberStacks
