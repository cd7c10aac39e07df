import FiberStacks.Proofs.Locks.Body

/-!
# Bodies, one operation at a time

A body of a protected region is one action, but a domain carries it out operation by operation: it enters a region,
does what the body of the region says, raises or not, leaves the region and takes the exception.  So every state in
between, inside nested regions too, is one that single operations lead to.

* `Operation`, `Active.does` — the operations, and where each of them leads;
* `Active.operate` — where a list of operations leads;
* `Body.steps`, `Body.region`, `Body.deeds` — **the operations of a body** along its run, of a region, and up to the
  raise a body ends with;
* `Body.script_eq_operate`, `Body.act_eq_operate` — **a body is carried out by its operations**.
-/

namespace FiberStacks

/-- One operation of a domain on locks, frames, blocking sections and regions, or any other work. -/
inductive Operation where
  | acquire (l : Lock)
  | release (id : LockId)
  | enterFrame (roots : List Word)
  | leaveFrame (marker : Nat)
  | enterBlocking
  | leaveBlocking
  | enterRegion
  | leaveRegion (depth : Nat)
  | takePending
  | raise (w : Word)
  | work (f : Active → Active)

namespace Active

/-- The state an operation leads to, whatever it comes to. -/
def does (s : Active) : Operation → Active
  | .acquire l => (Act.acquire l s).2
  | .release id => (Act.release id s).2
  | .enterFrame roots => (Act.enterFrame roots s).2
  | .leaveFrame marker => (Act.leaveFrame marker s).2
  | .enterBlocking => (Act.enterBlocking s).2
  | .leaveBlocking => (Act.leaveBlocking s).2
  | .enterRegion => (Act.enterRegion s).2
  | .leaveRegion depth => (Act.leaveRegion depth s).2
  | .takePending => (Act.takePending s).2
  | .raise w => ((Act.raise w : Act Word) s).2
  | .work f => s.work f

/-- The state operations lead to, one after another. -/
def operate (s : Active) (os : List Operation) : Active := os.foldl does s

theorem operate_cons (s : Active) (o : Operation) (os : List Operation) :
    s.operate (o :: os) = (s.does o).operate os := rfl

theorem operate_append (s : Active) (os os' : List Operation) : s.operate (os ++ os') = (s.operate os).operate os' :=
  List.foldl_append

end Active

/-- What is done after an action that returns. -/
def Act.onReturn {α : Type} (a : Act α) (s : Active) (f : α → Active → List Operation) : List Operation :=
  match a s with
  | (.ok x, t) => f x t
  | (.error _, _) => []

namespace Body

open FiberStacks.Action

/-- How a region is left: an exception is raised first, and taken at the end. -/
def leaving (depth : Nat) : Except Word Word → List Operation
  | .ok _ => [.leaveRegion depth]
  | .error w => [.raise w, .leaveRegion depth, .takePending]

/-- **The operations of a body**, along its run from a state, up to the value it returns or the exception it raises. -/
def steps : Body → Active → List Operation
  | finish _, _ => []
  | acquire l next, s => .acquire l :: (Act.acquire l).onReturn s fun id t => (next id).steps t
  | release id next, s => .release id :: (Act.release id).onReturn s fun b t => (next b).steps t
  | enterFrame roots next, s =>
    .enterFrame roots :: (Act.enterFrame roots).onReturn s fun marker t => (next marker).steps t
  | leaveFrame marker next, s =>
    .leaveFrame marker :: (Act.leaveFrame marker).onReturn s fun roots t => (next roots).steps t
  | enterBlocking next, s => .enterBlocking :: Act.enterBlocking.onReturn s fun _ t => next.steps t
  | leaveBlocking next, s => .leaveBlocking :: Act.leaveBlocking.onReturn s fun _ t => next.steps t
  | protect inner next, s =>
    .enterRegion :: (inner.steps s.entered ++
      inner.script.onReturn s.entered fun r _ => leaving s.domain.handlers.length r) ++
      (Act.protect inner.act).onReturn s fun r t => (next r).steps t
  | work f next, s => .work f :: (next (s.work f)).steps (s.work f)

def region (b : Body) (s : Active) : List Operation :=
  .enterRegion :: (b.steps s.entered ++ b.script.onReturn s.entered fun r _ => leaving s.domain.handlers.length r)

/-- The operations of a body and the raise it ends with, if it does. -/
def deeds (b : Body) (s : Active) : List Operation :=
  b.steps s ++ b.script.onReturn s fun r _ =>
    match r with
    | .ok _ => []
    | .error w => [.raise w]

variable {b : Body} {s : Active} {others : List Lock}

theorem bind_eq_operate {α : Type} {a : Act α} {f : α → Body} {os : List Operation} (ha : (a s).2 = s.operate os)
    (hf : ∀ x t, a s = (.ok x, t) → ((f x).script t).2 = t.operate ((f x).steps t)) :
    ((a >>= fun x => (f x).script) s).2 = s.operate (os ++ a.onReturn s fun x t => (f x).steps t) := by
  rw [Active.operate_append, ← ha]
  unfold Act.onReturn
  rcases h : a s with ⟨e | x, t⟩
  · rw [bind_of_error h]
    rfl
  · rw [bind_of_ok h]
    exact hf x t h

theorem does_leaveRegion {t : Active} (ht : t.domain.handlers = s.entered.domain.handlers) :
    t.does (.leaveRegion s.domain.handlers.length) =
      { t with domain := { t.domain with handlers := s.domain.handlers } } := by
  have hlen : t.domain.handlers.length = s.domain.handlers.length + 1 := by rw [ht]; rfl
  have htail : t.domain.handlers.tail = s.domain.handlers := by rw [ht]; rfl
  refine Act.wp_iff_snd (P := (· = { t with domain := { t.domain with handlers := s.domain.handlers } })).1 ?_
  simp only [Act.leaveRegion, wp_bind, Act.wp_domain, Act.wp_require, Act.wp_modifyDomain, htail]
  exact ⟨fun _ => trivial, fun hn => absurd hlen hn⟩

theorem does_takePending {t : Active} {w : Word} (ht : t.domain.pending = some w) :
    t.does .takePending = { t with domain := { t.domain with pending := none } } := by
  refine Act.wp_iff_snd (P := (· = { t with domain := { t.domain with pending := none } })).1 ?_
  simp only [Act.takePending, wp_bind, Act.wp_domain, ht, Act.wp_modifyDomain, wp_pure]

theorem region_eq_operate (hs : s.LocksInOrder others)
    (hb : (b.script s.entered).2 = s.entered.operate (b.steps s.entered)) :
    (Act.protect b.act s).2 = s.operate (b.region s) := by
  have hk := script_keeps b hs.entered
  have hentered : s.does .enterRegion = s.entered := rfl
  rw [region, Active.operate_cons, hentered, Active.operate_append, ← hb]
  unfold Act.onReturn
  unfold wp at hk
  rcases h : b.script s.entered with ⟨e | w | v, t⟩ <;> simp only [h] at hk ⊢
  · rw [protect_act_of_error h hk.ne_raised]
    rfl
  · obtain ⟨locks, hr, -, -⟩ := Act.raise_apply (α := Word) (w := w) hk.order (hk.handlers.trans (handlers_entered s))
    have hbody : b.act s.entered = (.error .raised, t.unwound s.context locks w) := by
      unfold act
      rw [bind_of_ok h]
      exact hr
    have hraise : t.does (.raise w) = t.unwound s.context locks w := congrArg Prod.snd hr
    rw [Act.protect_of_raised hbody hk.handlers rfl, leaving, Active.operate_cons, hraise, Active.operate_cons,
      does_leaveRegion (t := t.unwound s.context locks w) hk.handlers, Active.operate_cons, does_takePending rfl]
    have htail : t.domain.handlers.tail = s.domain.handlers := by rw [hk.handlers]; rfl
    unfold Active.caught
    rw [← htail]
    rfl
  · rw [protect_act_of_ok h hk.handlers, leaving, Active.operate_cons, does_leaveRegion hk.handlers]
    rfl

/-- **A body is carried out by its operations**, up to the value it returns or the exception it raises. -/
theorem script_eq_operate (b : Body) : ∀ {s : Active}, s.LocksInOrder others →
    (b.script s).2 = s.operate (b.steps s) := by
  -- what an operation returns with leads on from a state in order
  have next : ∀ {α : Type} {a : Act α} {s : Active} {f : α → Body} (os : List Operation), (a s).2 = s.operate os →
      a.wp s (fun _ t => Keeps others s t) (fun e _ => e.Misuse) →
      (∀ x {t}, t.LocksInOrder others → ((f x).script t).2 = t.operate ((f x).steps t)) →
      ((a >>= fun x => (f x).script) s).2 = s.operate (os ++ a.onReturn s fun x t => (f x).steps t) :=
    fun _ ha hk hf => bind_eq_operate ha fun x t h => hf x ((wp_of_ok h).1 hk).order
  induction b with
  | finish r => intro s _; rfl
  | acquire l f ih => intro s hs; exact next [.acquire l] rfl (acquire_keeps hs l) ih
  | release id f ih => intro s hs; exact next [.release id] rfl (release_keeps hs id) ih
  | enterFrame roots f ih => intro s hs; exact next [.enterFrame roots] rfl (enterFrame_keeps hs roots) ih
  | leaveFrame marker f ih => intro s hs; exact next [.leaveFrame marker] rfl (leaveFrame_keeps hs marker) ih
  | enterBlocking f ih =>
    intro s hs
    exact next (f := fun _ => f) [.enterBlocking] rfl (enterBlocking_keeps hs) fun _ => ih
  | leaveBlocking f ih =>
    intro s hs
    exact next (f := fun _ => f) [.leaveBlocking] rfl (leaveBlocking_keeps hs) fun _ => ih
  | protect inner f ihi ihf =>
    intro s hs
    exact next _ (region_eq_operate hs (ihi hs.entered)) (protect_keeps (script_keeps inner hs.entered)) ihf
  | work f g ih => intro s hs; exact ih _ (s := s.work f) hs

/-- **So is a body with the raise it may end with.** -/
theorem act_eq_operate (b : Body) (hs : s.LocksInOrder others) : (b.act s).2 = s.operate (b.deeds s) := by
  rw [deeds, Active.operate_append, ← script_eq_operate b hs]
  unfold act Act.onReturn
  rcases h : b.script s with ⟨e | w | v, t⟩
  · rw [bind_of_error h]
    rfl
  · rw [bind_of_ok h]
    rfl
  · rw [bind_of_ok h]
    rfl

end Body

end FiberStacks
