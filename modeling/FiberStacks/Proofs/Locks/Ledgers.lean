import FiberStacks.Proofs.Lists.Machine
import FiberStacks.Proofs.Locks.Above
import FiberStacks.Proofs.Locks.Held
import FiberStacks.Proofs.Locks.Operations

/-!
# The order of the ledgers

Records stand in the ledgers of frames, and no ledger tells how they stand to those of other frames.  Read from the base
frame to the innermost one they are nevertheless one list, in the order in which the locks were taken, at every point of
whatever a domain does: a lock taken goes to the end of it, a lock given back leaves the rest in place, and an unwinding
cuts off an end, also where fewer frames are left than there were at the entry to the region.

* `LocalFrames.toList_unwind` — the frames an unwinding leaves;
* `Active.Ledgered`, `Active.Onward` — the invariant, and what keeps it;
* `Active.GivesBack`, `Active.CutsBack` — what comes of giving back a lock, and of a raise;
* `Active.Ledgered.does`, `Active.Ledgered.operate` — **one operation, and any number of them**;
* `Locking.Errand.single`, `Locking.Ledgered.run_single` — operations as moves of their own;
* `Locking.ledgers_in_order` — **what holds of every domain at all times**.
-/

namespace FiberStacks

/-- **The frames an unwinding leaves** are the first of those that were there, and the innermost one of these loses the
records above the mark. -/
theorem LocalFrames.toList_unwind (f : LocalFrames) {depth : Nat} (h : 1 ≤ depth) (mark : Nat) :
    ∃ xs x, f.toList.take depth = xs ++ [x] ∧
      (f.unwind depth mark).2.toList = xs ++ [{ x with ledger := (x.ledger.cut mark).2 }] := by
  refine ⟨(f.upTo depth).outer, (f.upTo depth).innermost, ?_, ?_⟩
  · rw [← toList_upTo h, toList_eq]
  · rw [unwind_eq, toList_setInnermost]

namespace Active

open FiberStacks.Action

/-- **The ledgers of the acting domain are in order**, and each of its regions was entered with some frame open. -/
structure Ledgered (others : List Lock) (s : Active) : Prop where
  order : s.LocksInOrder others
  framed : ∀ c ∈ s.domain.handlers, 1 ≤ c.frames

/-- A state further on, with the ledgers in order, and the same domains. -/
structure Onward (others : List Lock) (s t : Active) : Prop where
  ledgered : t.Ledgered others
  id : t.domain.id = s.domain.id
  created : t.world.domainsCreated = s.world.domainsCreated
  taken : s.world.locksTaken ≤ t.world.locksTaken

variable {others : List Lock} {s t u : Active}

theorem Ledgered.onward (h : s.Ledgered others) : s.Onward others s := ⟨h, rfl, rfl, le_rfl⟩

theorem Onward.trans (h : s.Onward others t) (h' : t.Onward others u) : s.Onward others u :=
  ⟨h'.ledgered, h'.id.trans h.id, h'.created.trans h.created, h.taken.trans h'.taken⟩

theorem Ledgered.onward_of_keeps (h : s.Ledgered others) (hk : Body.Keeps others s t) : s.Onward others t :=
  ⟨⟨hk.order, by rw [hk.handlers]; exact h.framed⟩, hk.id, hk.created, hk.taken⟩

/-! ### Giving back a lock -/

/-- **What comes of giving back a lock**: nothing, where no record has the number, or else one record has it, which
goes, and its lock is unlocked. -/
def GivesBack (s : Active) (id : LockId) : Prop :=
  ((∀ r ∈ s.domain.frames.records, r.id ≠ id) ∧ Act.release id s = (.ok false, s)) ∨
    ∃ as r bs t, s.domain.frames.records = as ++ r :: bs ∧ r.id = id ∧ (∀ r' ∈ as ++ bs, r'.id ≠ id) ∧
      Act.release id s = (.ok true, t) ∧ t.domain.frames.records = as ++ bs ∧
      t.world.locks.journal = s.world.locks.journal ++ [.unlocked r.lock]

theorem Ledgered.givesBack (h : s.Ledgered others) (id : LockId) : s.GivesBack id := by
  cases hr : s.domain.frames.remove? id with
  | none =>
    refine .inl ⟨LocalFrames.ne_of_remove?_eq_none hr, ?_⟩
    have hrun : (Act.release id).wp s (fun x t => x = false ∧ t = s) fun _ _ => False := by
      simp only [Act.release, wp_bind, Act.wp_domain, hr, wp_pure, and_self]
    obtain ⟨x, t, hrun, rfl, rfl⟩ := exists_of_wp hrun
    exact hrun
  | some p =>
    obtain ⟨r, frames⟩ := p
    obtain ⟨as, bs, hbefore, hafter, hid⟩ := LocalFrames.records_remove? hr
    have horder := h.order
    unfold LocksInOrder at horder
    rw [hbefore] at horder
    obtain ⟨locks, hunlock, -, hjournal⟩ := horder.remove
    have hrun : (Act.release id).wp s
        (fun x t => x = true ∧ t = ⟨{ s.domain with frames }, { s.world with locks }⟩) fun _ _ => False := by
      simp only [Act.release, wp_bind, Act.wp_domain, hr, Act.wp_modifyDomain, wp_pure]
      exact Act.wp_unlockAll locks hunlock ⟨trivial, rfl⟩
    obtain ⟨x, t, hrun, rfl, rfl⟩ := exists_of_wp hrun
    refine .inr ⟨as, r, bs, _, hbefore, hid, fun r' hr' he => ?_, hrun, hafter, hjournal⟩
    -- the records on both sides have smaller and greater numbers
    obtain ⟨-, hright, hleft⟩ := List.pairwise_append.1 horder.increasing
    have heq : r'.id.number = r.id.number := by rw [he, hid]
    rcases List.mem_append.1 hr' with hr' | hr'
    · exact absurd (hleft r' hr' r List.mem_cons_self) (by omega)
    · exact absurd ((List.pairwise_cons.1 hright).1 r' hr') (by omega)

/-! ### Raising -/

/-- **What comes of a raise**: an end of the records goes, and its locks are unlocked in the opposite order, so that the
numbers of the records fall.  Inside a region, the frames left are those that were there when the region was entered, or
as many of them as there still are, with the innermost ledger cut to its mark; outside of all regions the process ends
with nothing unlocked. -/
def CutsBack (s : Active) (w : Word) : Prop :=
  ∃ e t cut, (Act.raise w : Act Word) s = (.error e, t) ∧
    t.domain.frames.records ++ cut = s.domain.frames.records ∧
    cut.reverse.Pairwise (fun a b => b.id.number < a.id.number) ∧
    t.world.locks.journal = s.world.locks.journal ++ cut.reverse.map (fun r => .unlocked r.lock) ∧
    match s.domain.handlers with
    | [] => (∃ x, e = .fatal x) ∧ t.domain.frames = s.domain.frames
    | c :: _ => e = .raised ∧ ∃ xs x, s.domain.frames.toList.take c.frames = xs ++ [x] ∧
        t.domain.frames.toList = xs ++ [{ x with ledger := (x.ledger.cut c.records).2 }]

theorem raise_of_handlers_eq_nil {w : Word} (hs : s.domain.handlers = []) :
    ∃ x, (Act.raise w : Act Word) s =
      (.error (.fatal x), ⟨{ s.domain with pending := some w }, s.world.note (.processEnded x)⟩) := by
  have hrun : (Act.raise w : Act Word).wp s (fun _ _ => False) fun e t => ∃ x, e = .fatal x ∧
      t = ⟨{ s.domain with pending := some w }, s.world.note (.processEnded x)⟩ := by
    simp only [Act.raise, wp_bind, Act.wp_modifyDomain, Act.wp_domain, hs, Act.wp_heap, Act.wp_die]
    exact ⟨_, rfl, rfl⟩
  obtain ⟨e, t, hrun, x, rfl, rfl⟩ := exists_error_of_wp hrun
  exact ⟨x, hrun⟩

theorem Ledgered.cutsBack (h : s.Ledgered others) (w : Word) : s.CutsBack w := by
  unfold CutsBack
  cases hs : s.domain.handlers with
  | nil =>
    obtain ⟨x, hrun⟩ := raise_of_handlers_eq_nil (w := w) hs
    exact ⟨_, _, [], hrun, List.append_nil _, .nil, (List.append_nil _).symm, ⟨x, rfl⟩, rfl⟩
  | cons c cs =>
    obtain ⟨locks, hrun, -, hjournal⟩ := Act.raise_apply (α := Word) (w := w) h.order hs
    have hcut := LocalFrames.records_unwind s.domain.frames c.frames c.records
    have hframed : 1 ≤ c.frames := h.framed c (by simp [hs])
    refine ⟨_, _, (s.cutOff c).reverse, hrun, hcut, ?_, by rw [List.reverse_reverse]; exact hjournal, rfl,
      LocalFrames.toList_unwind s.domain.frames hframed c.records⟩
    have hincreasing := h.order.increasing
    rw [← hcut] at hincreasing
    exact List.pairwise_reverse.2 (List.pairwise_append.1 hincreasing).2.1

/-! ### Operations -/

/-- **One operation**, whatever it comes to. -/
theorem Ledgered.does (h : s.Ledgered others) (o : Operation) : s.Onward others (s.does o) := by
  have kept : ∀ {α : Type} {a : Act α}, a.wp s (fun _ t => Body.Keeps others s t) (fun _ t => Body.Keeps others s t) →
      s.Onward others (a s).2 := fun hk => h.onward_of_keeps (Act.wp_iff_snd.1 hk)
  cases o with
  | acquire l => exact kept (Body.acquire_keeps h.order l)
  | release id => exact kept (Body.release_keeps h.order id)
  | enterFrame roots => exact kept (Body.enterFrame_keeps h.order roots)
  | leaveFrame marker => exact kept (wp_mono (Body.leaveFrame_ends h.order marker) (fun _ _ h => h) fun _ _ h => h.1)
  | enterBlocking => exact kept (Body.enterBlocking_keeps h.order)
  | leaveBlocking => exact kept (wp_mono (Body.leaveBlocking_ends h.order) (fun _ _ h => h) fun _ _ h => h.1)
  | enterRegion =>
    refine ⟨⟨h.order, fun c hc => ?_⟩, rfl, rfl, le_rfl⟩
    rcases List.mem_cons.1 hc with rfl | hc
    · exact s.domain.frames.one_le_depth
    · exact h.framed c hc
  | leaveRegion depth =>
    refine (Act.wp_iff_snd (P := s.Onward others)).1 ?_
    simp only [Act.leaveRegion, wp_bind, Act.wp_domain, Act.wp_require, Act.wp_modifyDomain]
    exact ⟨fun _ => ⟨⟨h.order, fun c hc => h.framed c (List.mem_of_mem_tail hc)⟩, rfl, rfl, le_rfl⟩, fun _ => h.onward⟩
  | takePending =>
    refine (Act.wp_iff_snd (P := s.Onward others)).1 ?_
    simp only [Act.takePending, wp_bind, Act.wp_domain]
    cases s.domain.pending with
    | none => exact h.onward
    | some w => exact ⟨⟨h.order, h.framed⟩, rfl, rfl, le_rfl⟩
  | raise w =>
    cases hs : s.domain.handlers with
    | nil =>
      obtain ⟨x, hrun⟩ := raise_of_handlers_eq_nil (w := w) hs
      have hdoes : s.does (.raise w) = _ := congrArg Prod.snd hrun
      rw [hdoes]
      exact ⟨⟨h.order, h.framed⟩, rfl, rfl, le_rfl⟩
    | cons c cs =>
      obtain ⟨locks, hrun, horder, -⟩ := Act.raise_apply (α := Word) (w := w) h.order hs
      have hdoes : s.does (.raise w) = s.unwound c locks w := congrArg Prod.snd hrun
      rw [hdoes]
      exact ⟨⟨horder, h.framed⟩, rfl, rfl, le_rfl⟩
  | work f => exact ⟨⟨h.order, h.framed⟩, rfl, rfl, le_rfl⟩

/-- **Any number of operations**: the ledgers stay in order. -/
theorem Ledgered.operate (h : s.Ledgered others) (os : List Operation) : s.Onward others (s.operate os) := by
  induction os generalizing s with
  | nil => exact h.onward
  | cons o os ih =>
    have hone := h.does o
    exact hone.trans (ih hone.ledgered)

end Active

/-! ### All domains -/

namespace Locking

open FiberStacks.Machine

section Errands

variable {α : Type} {others : List Lock} {s : Active}

theorem snd_void (a : Act α) : ((do let _ ← a : Act Unit) s).2 = (a s).2 := by
  rcases h : a s with ⟨e | x, t⟩
  · rw [Action.bind_of_error h]
  · rw [Action.bind_of_ok h]
    rfl

def Errand.operations : Errand → Active → List Operation
  | body b, s => b.deeds s
  | enterRegion, _ => [.enterRegion]
  | leaveRegion depth, _ => [.leaveRegion depth]
  | takePending, _ => [.takePending]

theorem Errand.act_eq_operate (e : Errand) (hs : s.LocksInOrder others) : (e.act s).2 = s.operate (e.operations s) := by
  cases e with
  | body b => exact (snd_void b.act).trans (Body.act_eq_operate b hs)
  | enterRegion => exact snd_void Act.enterRegion
  | leaveRegion depth => rfl
  | takePending => exact snd_void Act.takePending

def Errand.single : Operation → Errand
  | .acquire l => .body (.acquire l fun _ => .finish (.ok .unit))
  | .release id => .body (.release id fun _ => .finish (.ok .unit))
  | .enterFrame roots => .body (.enterFrame roots fun _ => .finish (.ok .unit))
  | .leaveFrame marker => .body (.leaveFrame marker fun _ => .finish (.ok .unit))
  | .enterBlocking => .body (.enterBlocking (.finish (.ok .unit)))
  | .leaveBlocking => .body (.leaveBlocking (.finish (.ok .unit)))
  | .enterRegion => .enterRegion
  | .leaveRegion depth => .leaveRegion depth
  | .takePending => .takePending
  | .raise w => .body (.finish (.error w))
  | .work f => .body (.work f fun _ => .finish (.ok .unit))

theorem Errand.act_single (o : Operation) (s : Active) : ((single o).act s).2 = s.does o := by
  -- an operation with nothing after it
  have alone : ∀ {α : Type} (a : Act α),
      ((do let _ ← (a >>= fun _ => pure (.ok .unit)) >>= Body.conclude : Act Unit) s).2 = (a s).2 := by
    intro α a
    rw [snd_void, Action.bind_apply, Action.bind_apply]
    rcases a s with ⟨e | x, t⟩ <;> rfl
  cases o with
  | acquire l => exact alone (Act.acquire l)
  | release id => exact alone (Act.release id)
  | enterFrame roots => exact alone (Act.enterFrame roots)
  | leaveFrame marker => exact alone (Act.leaveFrame marker)
  | enterBlocking => exact alone Act.enterBlocking
  | leaveBlocking => exact alone Act.leaveBlocking
  | enterRegion => exact snd_void Act.enterRegion
  | leaveRegion depth => rfl
  | takePending => exact snd_void Act.takePending
  | raise w => exact snd_void (Act.raise w : Act Word)
  | work f => rfl

end Errands

def acted (m : Machine) (t : Active) : Machine := { m.setDomain t.domain with world := t.world }

theorem acted_acted (m : Machine) {t u : Active} (h : u.domain.id = t.domain.id) :
    acted (acted m t) u = acted m u :=
  congrArg (fun k : Machine => { k with world := u.world }) (m.setDomain_setDomain h)

variable {m : Machine} {d : DomainId} {x : Domain} {t : Active}

theorem domain?_acted (hx : m.domain? d = some x) (ht : t.domain.id = x.id) :
    (acted m t).domain? d = some t.domain := by
  have hid := id_of_domain? hx
  subst hid
  exact (domain?_setDomain (y := t.domain) (ht ▸ hx) x.id).trans (if_pos ht.symm)

theorem step_ask (hx : m.domain? d = some x) (e : Errand) : step m (.ask d e) = acted m (e.act ⟨x, m.world⟩).2 := by
  change ((m.act d e.act).map Prod.snd).getD m = _
  unfold Machine.act
  rw [hx]
  rfl

/-- **The ledgers of all domains are in order.** -/
structure Ledgered (m : Machine) : Prop where
  order : m.LocksInOrder
  framed : ∀ x ∈ m.domains, ∀ c ∈ x.handlers, 1 ≤ c.frames

namespace Ledgered

theorem initial (w : World) : Ledgered (Machine.initial w) :=
  ⟨(Reached.initial w).locksInOrder, by simp [Machine.initial]⟩

/-- A domain about to act, beside the locks of the others, and what may come of it. -/
theorem acting (h : Ledgered m) (hx : m.domain? d = some x) :
    ∃ others, Active.Ledgered others ⟨x, m.world⟩ ∧
      ∀ {t}, Active.Onward others ⟨x, m.world⟩ t → Ledgered (acted m t) := by
  obtain ⟨as, bs, hm⟩ := domain?_eq_some hx
  refine ⟨recorded (as ++ bs), ⟨h.order.acting hm, h.framed x (by simp [hm])⟩, fun {t} ht => ?_⟩
  refine ⟨h.order.acted hm ht.ledgered.order ht.id ht.created ht.taken, fun y hy => ?_⟩
  have hd : (acted m t).domains = as ++ t.domain :: bs := domains_setDomain hm h.order.distinct ht.id
  rw [hd, List.mem_append, List.mem_cons] at hy
  rcases hy with hy | rfl | hy
  · exact h.framed y (by simp [hm, hy])
  · exact ht.ledgered.framed
  · exact h.framed y (by simp [hm, hy])

theorem create (h : Ledgered m) : Ledgered m.create.2 := by
  refine ⟨h.order.create, fun y hy => ?_⟩
  rcases List.mem_append.1 hy with hy | hy
  · exact h.framed y hy
  · -- a new domain is in no region
    obtain rfl := List.mem_singleton.1 hy
    intro c hc
    cases hc

theorem terminate (h : Ledgered m) (d : DomainId) : Ledgered (Locking.step m (.terminate d)) := by
  change Ledgered (((m.terminate d).map Prod.snd).getD m)
  unfold Machine.terminate Machine.act
  cases hx : m.domain? d with
  | none => exact h
  | some x =>
    obtain ⟨others, hs, hacted⟩ := h.acting hx
    obtain ⟨hlocks, hcreated, htaken⟩ := Act.terminate_locks ⟨x, m.world⟩
    have horder : (Act.terminate ⟨x, m.world⟩).2.LocksInOrder others := by
      unfold Active.LocksInOrder
      rw [hlocks, htaken]
      exact hs.order
    have hend := hacted ⟨⟨horder, hs.framed⟩, rfl, hcreated, htaken.ge⟩
    exact ⟨hend.order.filter _, fun y hy => hend.framed y (List.mem_of_mem_filter hy)⟩

/-- **One move**, whatever it comes to. -/
theorem step (h : Ledgered m) (e : Move) : Ledgered (step m e) := by
  cases e with
  | create => exact h.create
  | ask d e =>
    cases hx : m.domain? d with
    | none =>
      change Ledgered (((m.act d e.act).map Prod.snd).getD m)
      unfold Machine.act
      rw [hx]
      exact h
    | some x =>
      obtain ⟨others, hs, hacted⟩ := h.acting hx
      rw [step_ask hx, e.act_eq_operate hs.order]
      exact hacted (hs.operate _)
  | terminate d => exact h.terminate d

theorem run (h : Ledgered m) (es : List Move) : Ledgered (run m es) := by
  induction es generalizing m with
  | nil => exact h
  | cons e es ih => exact ih (h.step e)

/-- **Operations of a domain, one move for each**, come to what they come to together. -/
theorem run_single (h : Ledgered m) (hx : m.domain? d = some x) (os : List Operation) :
    Locking.run m (os.map fun o => .ask d (.single o)) = acted m (Active.operate ⟨x, m.world⟩ os) := by
  induction os generalizing m x with
  | nil =>
    obtain ⟨as, bs, hm⟩ := domain?_eq_some hx
    have hd : (m.setDomain x).domains = m.domains := (domains_setDomain hm h.order.distinct rfl).trans hm.symm
    exact congrArg (Machine.mk m.world) hd.symm
  | cons o os ih =>
    obtain ⟨others, hs, hacted⟩ := h.acting hx
    have hone := hs.does o
    have hstep : Locking.step m (.ask d (.single o)) = acted m (Active.does ⟨x, m.world⟩ o) := by
      rw [step_ask hx, Errand.act_single]
    have hrest := ih (hacted hone) (domain?_acted hx hone.id)
    rw [List.map_cons, Active.operate_cons]
    change Locking.run (Locking.step m _) _ = _
    rw [hstep, hrest]
    exact acted_acted m (hone.ledgered.operate os).id

end Ledgered

/-- **The ledgers are in order at all times.**  Whatever domains have done with locks, frames and regions, in any order,
with raises at any point and however it ended, of every domain it holds: there is a frame, and there was one whenever a
region was entered that is not left yet; the records of all frames, from the base frame to the innermost one, have
rising numbers; giving back a lock takes the one record of its number away; and a raise cuts off an end of the records,
and unlocks it from the greatest number down.  Bodies, with all the regions nested in them, are no exception, since they
come to what their operations come to, one move for each. -/
theorem ledgers_in_order (w : World) (es : List Move) {m : Machine} (hm : run (.initial w) es = m) {d : DomainId}
    {x : Domain} (hx : m.domain? d = some x) :
    (1 ≤ x.frames.toList.length ∧ ∀ c ∈ x.handlers, 1 ≤ c.frames) ∧
    x.frames.records.Pairwise (fun a b => a.id.number < b.id.number) ∧
    (∀ id, Active.GivesBack ⟨x, m.world⟩ id) ∧
    (∀ bucket, Active.CutsBack ⟨x, m.world⟩ bucket) ∧
    ∀ b : Body, step m (.ask d (.body b)) = run m ((b.deeds ⟨x, m.world⟩).map fun o => .ask d (.single o)) := by
  have h : Ledgered m := hm ▸ (Ledgered.initial w).run es
  obtain ⟨others, hs, -⟩ := h.acting hx
  refine ⟨⟨?_, hs.framed⟩, hs.order.increasing, hs.givesBack, hs.cutsBack, fun b => ?_⟩
  · rw [LocalFrames.length_toList]
    exact LocalFrames.one_le_depth _
  · rw [step_ask hx, Errand.act_eq_operate (.body b) hs.order]
    exact (h.run_single hx _).symm

/-- One domain: a lock in the base frame, a region, and a lock in a frame of the region. -/
def twoFrames : List Move :=
  [.create, .ask ⟨1⟩ (.single (.acquire ⟨"a", .foreign⟩)), .ask ⟨1⟩ .enterRegion,
    .ask ⟨1⟩ (.single (.enterFrame [])), .ask ⟨1⟩ (.single (.acquire ⟨"b", .platform⟩))]

def inTwoFrames : Domain :=
  { Domain.fresh ⟨1⟩ ({} : Config).maxStackWords with
    handlers := [⟨1, 1, 0⟩]
    frames := ⟨[⟨[], ⟨[⟨⟨2⟩, ⟨"b", .platform⟩⟩]⟩⟩], ⟨[], ⟨[⟨⟨1⟩, ⟨"a", .foreign⟩⟩]⟩⟩⟩ }

theorem ledgers_in_order_twoFrames :
    (run (.initial (.initial {} .bytecode (.empty 0 0))) twoFrames).domain? ⟨1⟩ = some inTwoFrames ∧
      inTwoFrames.frames.records.map (fun r => r.id.number) = [1, 2] ∧
      Active.CutsBack ⟨inTwoFrames, (run (.initial (.initial {} .bytecode (.empty 0 0))) twoFrames).world⟩ .unit := by
  have hx : (run (.initial (.initial {} .bytecode (.empty 0 0))) twoFrames).domain? ⟨1⟩ = some inTwoFrames := by decide
  exact ⟨hx, rfl, (ledgers_in_order _ twoFrames rfl hx).2.2.2.1 .unit⟩

end Locking

end FiberStacks
