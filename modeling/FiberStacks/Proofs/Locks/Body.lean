import FiberStacks.Proofs.Locks.Region

/-!
# Bodies of protected regions

What a domain does inside a protected region, as a tree: each operation on locks, frames, blocking sections and
nested regions is followed by what its result leads to.

* `Body.script` — the operations of a body, up to the value it returns or the exception it raises;
* `Body.act` — the body itself;
* `script_keeps` — a body keeps the lock records in order and the regions as they are, and goes wrong only by misuse;
* `unlocked_eq_taken_iff` — **which locks an unwinding releases**, and when they are the right ones.

The mark of a region is a number of records of one frame.  A body that gives back a lock taken before the region, or
leaves a frame older than the region, moves later records below the mark or older ones above it;
`unlocked_eq_taken_iff` says exactly when that does harm, and `swapLock` is the smallest such body.
-/

namespace FiberStacks

/-- Work on everything but frames, locks, regions, blocking sections, the pending exception and which domains there
are. -/
def Active.work (f : Active → Active) (s : Active) : Active where
  domain :=
    { (f s).domain with
      id := s.domain.id
      frames := s.domain.frames
      handlers := s.domain.handlers
      blocking := s.domain.blocking
      pending := s.domain.pending }
  world :=
    { (f s).world with
      locks := s.world.locks
      domainsCreated := s.world.domainsCreated
      locksTaken := s.world.locksTaken }

/-- What is done inside a protected region, and what each result leads to. -/
inductive Body where
  /-- Return a value, or raise an exception. -/
  | finish (r : Except Word Word)
  | acquire (l : Lock) (next : Option LockId → Body)
  | release (id : LockId) (next : Bool → Body)
  | enterFrame (roots : List Word) (next : Nat → Body)
  | leaveFrame (marker : Nat) (next : List Word → Body)
  | enterBlocking (next : Body)
  | leaveBlocking (next : Body)
  /-- A nested region; what follows sees the value or the exception it ends with. -/
  | protect (inner : Body) (next : Except Word Word → Body)
  /-- Anything else; what follows sees the state it leads to. -/
  | work (f : Active → Active) (next : Active → Body)

namespace Body

def conclude : Except Word Word → Act Word
  | .ok v => pure v
  | .error w => Act.raise w

/-- The operations of a body, up to the value it returns or the exception it raises. -/
def script : Body → Act (Except Word Word)
  | finish r => pure r
  | acquire l next => do (next (← Act.acquire l)).script
  | release id next => do (next (← Act.release id)).script
  | enterFrame roots next => do (next (← Act.enterFrame roots)).script
  | leaveFrame marker next => do (next (← Act.leaveFrame marker)).script
  | enterBlocking next => do
    Act.enterBlocking
    next.script
  | leaveBlocking next => do
    Act.leaveBlocking
    next.script
  | protect inner next => do (next (← Act.protect (inner.script >>= conclude))).script
  | work f next => do
    Action.modify (Active.work f)
    (next (← Action.state)).script

/-- **A body of a protected region.** -/
def act (b : Body) : Act Word := b.script >>= conclude

end Body

/-- The misuses of frames and blocking sections. -/
inductive Stop.Misuse : Stop → Prop where
  | notInnermost (marker : Nat) : Misuse (.fault (.notInnermost marker))
  | locksHeld (count : Nat) : Misuse (.fault (.locksHeld count))
  | notBlocking : Misuse (.fault .notBlocking)

theorem Stop.Misuse.ne_raised {e : Stop} (he : e.Misuse) : e ≠ .raised := by
  cases he <;> simp

/-- The context a region entered now records. -/
def Active.context (s : Active) : HandlerContext :=
  ⟨s.domain.frames.depth, s.domain.frames.innermost.ledger.size, s.domain.blocking⟩

/-- The records made after the first `n`, oldest first. -/
def Active.takenSince (s : Active) (n : Nat) : List LockRecord :=
  s.domain.frames.records.filter fun r => n < r.id.number

/-- The records still there of the first `n` made, oldest first. -/
def Active.takenUpTo (s : Active) (n : Nat) : List LockRecord :=
  s.domain.frames.records.filter fun r => r.id.number ≤ n

theorem handlers_entered (s : Active) : s.entered.domain.handlers = s.context :: s.domain.handlers := rfl

theorem Active.LocksInOrder.entered {others : List Lock} {s : Active} (hs : s.LocksInOrder others) :
    s.entered.LocksInOrder others := hs

namespace Body

open FiberStacks.Action

/-! ### The end of a body and of its region -/

section Ends

variable {b : Body} {s t : Active} {others : List Lock}

theorem protect_act_of_ok {v : Word} (hb : b.script s.entered = (.ok (.ok v), t))
    (ht : t.domain.handlers = s.entered.domain.handlers) :
    Act.protect b.act s = (.ok (.ok v), { t with domain := { t.domain with handlers := s.domain.handlers } }) := by
  refine Act.protect_of_ok ?_ ht
  unfold act
  rw [bind_of_ok hb]
  rfl

theorem protect_act_of_raise {w : Word} (hb : b.script s.entered = (.ok (.error w), t)) (hi : t.LocksInOrder others)
    (ht : t.domain.handlers = s.entered.domain.handlers) :
    ∃ locks, Act.protect b.act s = (.ok (.error w), (t.unwound s.context locks w).caught) ∧
      (t.unwound s.context locks w).LocksInOrder others ∧
      locks.journal = t.world.locks.journal ++ (t.cutOff s.context).map fun r => .unlocked r.lock := by
  obtain ⟨locks, hr, h, hj⟩ := Act.raise_apply (α := Word) (w := w) hi (ht.trans (handlers_entered s))
  refine ⟨locks, Act.protect_of_raised ?_ ht rfl, h, hj⟩
  unfold act
  rw [bind_of_ok hb]
  exact hr

theorem protect_act_of_error {e : Stop} (hb : b.script s.entered = (.error e, t)) (he : e ≠ .raised) :
    Act.protect b.act s = (.error e, t) := by
  refine Act.protect_of_stop ?_ he
  unfold act
  rw [bind_of_error hb]

end Ends

/-! ### What a body keeps -/

/-- **Kept by a body**: the lock records are still in order, the protected regions are the same, and so are the
domains. -/
structure Keeps (others : List Lock) (s t : Active) : Prop where
  order : t.LocksInOrder others
  handlers : t.domain.handlers = s.domain.handlers
  id : t.domain.id = s.domain.id
  created : t.world.domainsCreated = s.world.domainsCreated
  taken : s.world.locksTaken ≤ t.world.locksTaken

section Steps

variable {s : Active} {others : List Lock} {E : Stop → Active → Prop} (hs : s.LocksInOrder others)
include hs

theorem acquire_keeps (l : Lock) : (Act.acquire l).wp s (fun _ t => Keeps others s t) E := by
  rw [Act.wp_acquire]
  cases hl : s.world.locks.lock? l with
  | none => exact ⟨hs, rfl, rfl, rfl, le_rfl⟩
  | some locks =>
    refine ⟨?_, rfl, rfl, rfl, Nat.le_succ _⟩
    unfold Active.LocksInOrder
    rw [LocalFrames.records_addLock]
    exact hs.append hl

theorem release_keeps (id : LockId) : (Act.release id).wp s (fun _ t => Keeps others s t) E :=
  Act.wp_release hs (fun _ => ⟨hs, rfl, rfl, rfl, le_rfl⟩) fun _ _ _ _ hi => ⟨hi, rfl, rfl, rfl, le_rfl⟩

theorem enterFrame_keeps (roots : List Word) : (Act.enterFrame roots).wp s (fun _ t => Keeps others s t) E := by
  rw [Act.wp_enterFrame]
  refine ⟨?_, rfl, rfl, rfl, le_rfl⟩
  unfold Active.LocksInOrder
  rw [LocalFrames.records_push]
  exact hs

theorem leaveFrame_ends (marker : Nat) :
    (Act.leaveFrame marker).wp s (fun _ t => Keeps others s t) fun e t => Keeps others s t ∧ e.Misuse := by
  have popped : ∀ x frames, s.domain.frames.pop? = some (x, frames) →
      Keeps others s { s with domain := { s.domain with frames } } := by
    intro x frames hp
    unfold Active.LocksInOrder at hs
    rw [LocalFrames.records_pop? hp] at hs
    exact ⟨hs.sublist (List.sublist_append_left ..), rfl, rfl, rfl, le_rfl⟩
  exact Act.wp_leaveFrame (fun x frames hp _ => popped x frames hp) ⟨⟨hs, rfl, rfl, rfl, le_rfl⟩, .notInnermost _⟩
    fun x frames hp => ⟨popped x frames hp, .locksHeld _⟩

theorem leaveFrame_keeps (marker : Nat) :
    (Act.leaveFrame marker).wp s (fun _ t => Keeps others s t) fun e _ => e.Misuse :=
  wp_mono (leaveFrame_ends hs marker) (fun _ _ h => h) fun _ _ h => h.2

theorem enterBlocking_keeps : Act.enterBlocking.wp s (fun _ t => Keeps others s t) E :=
  Act.wp_enterBlocking.2 ⟨hs, rfl, rfl, rfl, le_rfl⟩

theorem leaveBlocking_ends :
    Act.leaveBlocking.wp s (fun _ t => Keeps others s t) fun e t => Keeps others s t ∧ e.Misuse :=
  Act.wp_leaveBlocking ⟨hs, rfl, rfl, rfl, le_rfl⟩ ⟨⟨hs, rfl, rfl, rfl, le_rfl⟩, .notBlocking⟩

theorem leaveBlocking_keeps : Act.leaveBlocking.wp s (fun _ t => Keeps others s t) fun e _ => e.Misuse :=
  wp_mono (leaveBlocking_ends hs) (fun _ _ h => h) fun _ _ h => h.2

omit hs in
theorem protect_keeps {b : Body}
    (hb : b.script.wp s.entered (fun _ t => Keeps others s.entered t) fun e _ => e.Misuse) :
    (Act.protect b.act).wp s (fun _ t => Keeps others s t) fun e _ => e.Misuse := by
  unfold wp at hb
  rcases h : b.script s.entered with ⟨e | w | v, t⟩ <;> simp only [h] at hb
  · rw [wp_of_error (protect_act_of_error h hb.ne_raised)]
    exact hb
  · obtain ⟨locks, hp, hi, -⟩ := protect_act_of_raise h hb.order hb.handlers
    rw [wp_of_ok hp]
    refine ⟨hi, ?_, hb.id, hb.created, hb.taken⟩
    change t.domain.handlers.tail = _
    rw [hb.handlers]
    rfl
  · rw [wp_of_ok (protect_act_of_ok h hb.handlers)]
    exact ⟨hb.order, rfl, hb.id, hb.created, hb.taken⟩

end Steps

theorem Keeps.trans {others : List Lock} {s t u : Active} (h : Keeps others s t) (h' : Keeps others t u) :
    Keeps others s u :=
  ⟨h'.order, h'.handlers.trans h.handlers, h'.id.trans h.id, h'.created.trans h.created, h.taken.trans h'.taken⟩

/-- **What a body keeps**: the order of the lock records and the regions around it.  It goes wrong only by misuse of
frames or blocking sections; no unlocking fails, and no region is left unbalanced or without its exception. -/
theorem script_keeps {others : List Lock} (b : Body) : ∀ {s : Active}, s.LocksInOrder others →
    b.script.wp s (fun _ t => Keeps others s t) fun e _ => e.Misuse := by
  -- every operation keeps the order, and what follows it keeps what it left
  have next : ∀ {α : Type} {a : Act α} {s : Active} {f : α → Body},
      a.wp s (fun _ t => Keeps others s t) (fun e _ => e.Misuse) →
      (∀ x {t}, t.LocksInOrder others → (f x).script.wp t (fun _ u => Keeps others t u) fun e _ => e.Misuse) →
      (a >>= fun x => (f x).script).wp s (fun _ u => Keeps others s u) fun e _ => e.Misuse := by
    intro α a s f ha hf
    rw [wp_bind]
    exact wp_mono ha (fun x t ht => wp_mono (hf x ht.order) (fun _ u hu => ht.trans hu) fun _ _ h => h) fun _ _ h => h
  induction b with
  | finish r => intro s hs; exact ⟨hs, rfl, rfl, rfl, le_rfl⟩
  | acquire l f ih => intro s hs; exact next (acquire_keeps hs l) ih
  | release id f ih => intro s hs; exact next (release_keeps hs id) ih
  | enterFrame roots f ih => intro s hs; exact next (enterFrame_keeps hs roots) ih
  | leaveFrame marker f ih => intro s hs; exact next (leaveFrame_keeps hs marker) ih
  | enterBlocking f ih => intro s hs; exact next (f := fun _ => f) (enterBlocking_keeps hs) fun _ => ih
  | leaveBlocking f ih => intro s hs; exact next (f := fun _ => f) (leaveBlocking_keeps hs) fun _ => ih
  | protect inner f ihi ihf => intro s hs; exact next (protect_keeps (ihi hs.entered)) ihf
  | work f g ih =>
    intro s hs
    rw [script, wp_bind, wp_modify, wp_bind, wp_state]
    have hwork : Keeps others s (s.work f) := ⟨hs, rfl, rfl, rfl, le_rfl⟩
    exact wp_mono (ih _ hwork.order) (fun _ t ht => hwork.trans ht) fun _ _ h => h

/-! ### The locks an unwinding releases -/

/-- **Which locks an unwinding releases.**  A body that ends by raising has its exception returned.  The locks unlocked
by the unwinding are an end of the records, newest first.  They are the locks taken inside the region and not given
back exactly if as many records stand below the mark of the region as locks from before the region are still held, and
then those are the ones left. -/
theorem unlocked_eq_taken_iff (b : Body) {s t : Active} {others : List Lock} {w : Word} (hs : s.LocksInOrder others)
    (hb : b.script s.entered = (.ok (.error w), t)) :
    ∃ s', Act.protect b.act s = (.ok (.error w), s') ∧
      s'.world.locks.journal = t.world.locks.journal ++ (t.cutOff s.context).map (fun r => .unlocked r.lock) ∧
      s'.domain.frames.records ++ (t.cutOff s.context).reverse = t.domain.frames.records ∧
      (t.cutOff s.context = (t.takenSince s.world.locksTaken).reverse ↔
        t.domain.frames.standing s.context.frames s.context.records = (t.takenUpTo s.world.locksTaken).length) ∧
      (t.cutOff s.context = (t.takenSince s.world.locksTaken).reverse →
        s'.domain.frames.records = t.takenUpTo s.world.locksTaken) := by
  have hk := (wp_of_ok hb).1 (script_keeps b hs.entered)
  obtain ⟨locks, hp, -, hj⟩ := protect_act_of_raise hb hk.order hk.handlers
  have hcut := LocalFrames.records_unwind t.domain.frames s.context.frames s.context.records
  have hsplit := InOrder.filter_le_append_filter_lt hk.order s.world.locksTaken
  -- both splits of the records have parts of the same lengths
  have hkept : t.cutOff s.context = (t.takenSince s.world.locksTaken).reverse →
      (t.unwound s.context locks w).domain.frames.records = t.takenUpTo s.world.locksTaken := by
    intro h
    unfold Active.cutOff at h
    rw [h, List.reverse_reverse] at hcut
    exact List.append_cancel_right (hcut.trans hsplit.symm)
  refine ⟨_, hp, hj, hcut, ⟨fun h => ?_, fun hlen => ?_⟩, hkept⟩
  · rw [← LocalFrames.length_records_unwind]
    exact congrArg List.length (hkept h)
  · rw [← LocalFrames.length_records_unwind] at hlen
    rw [← List.reverse_inj, List.reverse_reverse]
    exact (List.append_inj (hcut.trans hsplit.symm) hlen).2

/-- A domain that has taken one lock, in an empty world. -/
def oneLockHeld : Active where
  domain := { Domain.fresh ⟨1⟩ 0 with frames := LocalFrames.initial.addLock ⟨⟨1⟩, ⟨"a", .foreign⟩⟩ }
  world := { World.initial {} .bytecode (.empty 0 0) with locks := ⟨[], [.locked ⟨"a", .foreign⟩]⟩, locksTaken := 1 }

theorem locksInOrder_oneLockHeld : oneLockHeld.LocksInOrder [] where
  increasing := List.pairwise_singleton ..
  counted := by decide
  held := List.nil_subperm

def takeTwo : Body :=
  .acquire ⟨"b", .foreign⟩ fun _ => .acquire ⟨"c", .platform⟩ fun _ => .finish (.error .unit)

theorem unlocked_eq_taken_iff_takeTwo :
    oneLockHeld.LocksInOrder [] ∧ ∃ t s', takeTwo.script oneLockHeld.entered = (.ok (.error .unit), t) ∧
      Act.protect takeTwo.act oneLockHeld = (.ok (.error .unit), s') ∧
      (t.cutOff oneLockHeld.context = (t.takenSince 1).reverse ↔
        t.domain.frames.standing 1 1 = (t.takenUpTo 1).length) := by
  obtain ⟨s', h1, -, -, h4, -⟩ := unlocked_eq_taken_iff takeTwo locksInOrder_oneLockHeld rfl
  exact ⟨locksInOrder_oneLockHeld, _, s', rfl, h1, h4⟩

/-- Give back the lock held, take another one and raise. -/
def swapLock : Body := .release ⟨1⟩ fun _ => .acquire ⟨"b", .foreign⟩ fun _ => .finish (.error .unit)

/-- **A lock taken inside a region can stay held**: giving back an older lock moves it below the mark. -/
theorem not_unlocked_eq_taken :
    ¬ ∀ (b : Body) (s t : Active) (w : Word), s.LocksInOrder [] → b.script s.entered = (.ok (.error w), t) →
      t.cutOff s.context = (t.takenSince s.world.locksTaken).reverse := by
  intro h
  have hcut := h swapLock oneLockHeld _ .unit locksInOrder_oneLockHeld rfl
  exact absurd hcut (by decide)

end Body

end FiberStacks
