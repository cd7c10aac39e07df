import FiberStacks.Proofs.Locks.Domains
import FiberStacks.Proofs.Runs.Capsules

/-!
# What happens to a machine, and what comes of it

Domains are asked to work on stacks and to resume and clone chains; capsules are filled and emptied beside them, and the
collector allocates, frees and promotes blocks.

* `Machine.Errand`, `Machine.Event` — what a domain can be asked to do, and what can happen;
* `Machine.perform` — an event and its outcome;
* `Machine.chronicle` — **the records of events, one after another**;
* `Machine.Upright` — heap and registers of all domains are in order;
* `Upright.perform` — every event leaves them so, and `Upright.chronicle`.
-/

namespace FiberStacks

open FiberStacks.Action

namespace Machine

/-! ### Events -/

/-- **What a domain can be asked to do.** -/
inductive Errand where
  /-- Get a main stack, and be ready from then on. -/
  | start
  | newMainStack (words : Nat)
  | initMainStack
  | newStack (words : Nat) (handlers : Handlers)
  | call (c : StackCall)
  /-- Grow, and return the failure if there is one. -/
  | tryGrow (required : Nat) (saved : List Word)
  | changeLimit (limit : Nat)
  | load (b : BlockId)
  | restore
  | clone (k : BlockId)
  | resume (k : BlockId)
  | resumeCloned (k : BlockId)
  | findPerformer (b : BlockId)
  | raise (bucket : Word)
  | raiseExn (e : Exn)
  | raiseWith (tag : Word) (args : List Word)
  | raiseText (tag : Word) (s : String)
  | raiseFailure (f : Failure)
  | enterRegion
  | leaveRegion (depth : Nat)
  | takePending
deriving DecidableEq

namespace Errand

/-- What is done, and the block it comes to if there is one. -/
def act : Errand → Act (Option BlockId)
  | start => Except.toOption <$> Act.start
  | newMainStack words => Except.toOption <$> Act.newMainStack words
  | initMainStack => Except.toOption <$> Act.initMainStack
  | newStack words handlers => some <$> Act.newStackOf words handlers
  | call c => (fun _ => none) <$> c.act
  | tryGrow required saved => (fun p => p.1.toOption) <$> Act.tryGrow required saved
  | changeLimit limit => (fun _ => none) <$> Act.changeLimit limit
  | load b => (fun _ => none) <$> Act.loadStack b
  | restore => (fun _ => none) <$> Act.restoreStack
  | clone k => some <$> Act.cloneContinuation k
  | resume k => some <$> Act.resume k
  | resumeCloned k => some <$> Act.resumeCloned k
  | findPerformer b => some <$> Act.findPerformer b
  | raise bucket => Act.raise bucket
  | raiseExn e => Act.raiseExn e
  | raiseWith tag args => Act.raiseWith tag args
  | raiseText tag s => Act.raiseText tag s
  | raiseFailure f => Act.raiseFailure f
  | enterRegion => (fun _ => none) <$> Act.enterRegion
  | leaveRegion depth => (fun _ => none) <$> Act.leaveRegion depth
  | takePending => (fun _ => none) <$> Act.takePending

end Errand

/-- **What can happen to a machine.** -/
inductive Event where
  | createTable
  | create
  | ask (d : DomainId) (e : Errand)
  /-- A stack is put into a new capsule. -/
  | capture (head : BlockId)
  /-- A capsule that is there is filled. -/
  | put (k head : BlockId)
  | take (k : BlockId)
  /-- The chain in a capsule is copied, beside all domains. -/
  | clone (k : BlockId)
  | alloc (o : Object) (path : AllocPath)
  | free (b : BlockId)
  | promote (b : BlockId)
  | markReady
deriving DecidableEq

inductive Outcome where
  | done (result : Option BlockId)
  | failed (f : Failure)
  | stopped (e : Stop)
deriving DecidableEq, Repr

namespace Outcome

def ofResult : Except Stop (Option BlockId) → Outcome
  | .ok b => done b
  | .error e => stopped e

/-- The machine goes on, unless an assertion was violated or the process has ended. -/
def goesOn : Outcome → Bool
  | done _ | failed _ | stopped .raised => true
  | stopped (.fault _) | stopped (.fatal _) => false

end Outcome

/-- A block and the heap that has it, or a failure that has changed nothing. -/
def conclude (m : Machine) : Except Failure (BlockId × Heap) → Outcome × Machine
  | .ok (b, h) => (.done (some b), m.setHeap h)
  | .error f => (.failed f, m)

theorem conclude_ne_stopped (m : Machine) (r : Except Failure (BlockId × Heap)) (stop : Stop) :
    (m.conclude r).1 ≠ .stopped stop := by
  rcases r with f | ⟨b, h⟩ <;> exact nofun

/-- **An event and its outcome**; only a domain that is there can be asked, and only a capsule can be filled. -/
def perform (m : Machine) : Event → Option (Outcome × Machine)
  | .createTable =>
    let r := m.world.createTable
    some (match r.1 with | .ok _ => .done none | .error f => .failed f, { m with world := r.2 })
  | .create => some (.done none, m.create.2)
  | .ask d e => (m.act d e.act).map fun r => (.ofResult r.1, r.2)
  | .capture head => some (m.conclude (m.world.heap.capture head))
  | .put k head => (m.world.heap.capsule? k).map fun c =>
    match c.put head with
    | .ok c' => (.done none, m.setHeap (m.world.heap.set k (.capsule c')))
    | .error x => (.failed x.toFailure, m)
  | .take k => some (m.conclude (m.world.heap.takeHead k))
  | .clone k => some <|
    match m.world.heap.cloneChain k with
    | .ok (.ok k', h) => (.done (some k'), m.setHeap h)
    | .ok (.error f, h) => (.failed f, m.setHeap h)
    | .error f => (.stopped (.fault f), m)
  | .alloc o path => some (m.conclude ((m.world.heap.alloc o path).mapError AllocError.toFailure))
  | .free b => some (.done none, m.setHeap (m.world.heap.discard b))
  | .promote b => some (.done none, m.setHeap (m.world.heap.promote b))
  | .markReady => some (.done none, m.setHeap m.world.heap.markReady)

/-- Something that has happened. -/
structure Record where
  before : Machine
  event : Event
  outcome : Outcome
  after : Machine

/-- **The records of events, one after another**, and the machine they come to, if it goes on after each of them. -/
def chronicle (m : Machine) : List Event → Option (List Record × Machine)
  | [] => some ([], m)
  | e :: es =>
    match m.perform e with
    | none => none
    | some (out, m') => if out.goesOn then (m'.chronicle es).map fun p => (⟨m, e, out, m'⟩ :: p.1, p.2) else none

/-- What is put into the heap from outside is charged for and carries no mark, and no stack is freed that a domain runs
on. -/
def Event.Fair (m : Machine) : Event → Prop
  | alloc o _ => 0 < o.size ∧ o.Unmarked
  | free b => ∀ x ∈ m.domains, x.current? ≠ some b
  | _ => True

def Record.Fair (r : Record) : Prop := r.event.Fair r.before

theorem chronicle_cons {m m' : Machine} {e : Event} {es : List Event} {rs : List Record}
    (h : m.chronicle (e :: es) = some (rs, m')) : ∃ out m₁ rs', m.perform e = some (out, m₁) ∧ out.goesOn = true ∧
      m₁.chronicle es = some (rs', m') ∧ rs = ⟨m, e, out, m₁⟩ :: rs' := by
  rw [chronicle] at h
  split at h
  · cases h
  · next out m₁ hp =>
    split at h
    · next hgo =>
      obtain ⟨⟨rs', m₂⟩, hrest, hr⟩ := Option.map_eq_some_iff.1 h
      obtain ⟨rfl, rfl⟩ := Prod.mk.inj hr
      exact ⟨out, m₁, rs', hp, hgo, hrest, rfl⟩
    · cases h

theorem map_event_chronicle {es : List Event} : ∀ {m m' : Machine} {rs : List Record},
    m.chronicle es = some (rs, m') → rs.map Record.event = es := by
  induction es with
  | nil =>
    intro m m' rs h
    obtain ⟨rfl, -⟩ := Prod.mk.inj (Option.some.inj h)
    rfl
  | cons e es ih =>
    intro m m' rs h
    obtain ⟨out, m₁, rs', -, -, hrest, rfl⟩ := chronicle_cons h
    rw [List.map_cons, ih hrest]

theorem fair_of_events {m m' : Machine} {es : List Event} {rs : List Record} (h : m.chronicle es = some (rs, m'))
    (he : ∀ e ∈ es, ∀ m, e.Fair m) : ∀ r ∈ rs, r.Fair := fun r hr =>
  he r.event (map_event_chronicle h ▸ List.mem_map_of_mem hr) r.before

/-! ### What errands leave -/

/-- The capsule that an errand spends if it succeeds. -/
def Errand.Spends (e : Errand) (k : BlockId) : Prop := e = resume k

/-- **What holds of all errands**: a property of handling stacks and of making new ones that also holds of entries about
the limit, of growth, of storing words, and of resuming, cloning and turning chains round. -/
theorem Errand.of_founding {P : ∀ {α : Type}, Act α → Prop} (hP : Act.Founding @P) (e : Errand)
    (hnote : ∀ words, P (Act.noteSize .limitChanged words))
    (hgrow : ∀ required saved, P (Act.tryGrow required saved)) (hpush : ∀ w, P (Act.push w)) (hpop : P Act.pop)
    (hclone : ∀ k, P (Act.cloneContinuation k)) (hresume : ∀ k, e = resume k → P (Act.resume k))
    (hresumeCloned : ∀ k, P (Act.resumeCloned k)) (hturn : ∀ b, P (Act.findPerformer b)) : P e.act := by
  cases e with
  | start => exact hP.map hP.start _
  | newMainStack words => exact hP.map (hP.newMainStack words) _
  | initMainStack => exact hP.map hP.initMainStack _
  | newStack words handlers => exact hP.map (hP.newStackOf words handlers) _
  | call c => exact hP.map (c.of_handling hP.toHandling hgrow hpush hpop) _
  | tryGrow required saved => exact hP.map (hgrow required saved) _
  | changeLimit limit => exact hP.map (hP.changeLimit hnote limit) _
  | load b => exact hP.map (hP.loadStack b) _
  | restore => exact hP.map hP.restoreStack _
  | clone k => exact hP.map (hclone k) _
  | resume k => exact hP.map (hresume k rfl) _
  | resumeCloned k => exact hP.map (hresumeCloned k) _
  | findPerformer b => exact hP.map (hturn b) _
  | raise bucket => exact hP.beside (Act.beside_raise bucket)
  | raiseExn e => exact hP.beside (Act.beside_raiseExn e)
  | raiseWith tag args => exact hP.beside (Act.beside_raiseWith tag args)
  | raiseText tag s => exact hP.beside (Act.beside_raiseText tag s)
  | raiseFailure f => exact hP.beside (Act.beside_raiseFailure f)
  | enterRegion => exact hP.map (hP.beside Act.beside_enterRegion) _
  | leaveRegion depth => exact hP.map (hP.beside (Act.beside_leaveRegion depth)) _
  | takePending => exact hP.map (hP.beside Act.beside_takePending) _

/-- **What an errand leaves**, however it ends: all that lasts, but for the capsule it spends.  It hits no assertion
about places. -/
theorem Errand.lasts (e : Errand) {s : Active} (hs : s.Settled) :
    e.act.wp s (fun _ t => s.Lasts e.Spends t) fun stop t => s.Lasts e.Spends t ∧
      ¬ stop.Misplaced ∧ (stop = .raised → s.Lasts (fun _ => False) t) := by
  by_cases he : ∃ k, e = resume k
  · obtain ⟨k, rfl⟩ := he
    have hspends : ∀ j, j = k → (Errand.resume k).Spends j := fun j hj => congrArg Errand.resume hj.symm
    exact (wp_map ..).2 (wp_mono (Act.resume_lasts k hs) (fun _ _ h => h.1.mono hspends) fun _ _ h =>
      ⟨h.1.mono hspends, h.2.1, h.2.2⟩)
  · have hsettles : e.act.Settles fun _ => False :=
      e.of_founding Act.founding_settles (Act.settles_noteSize _) Act.settles_tryGrow Act.settles_push Act.settles_pop
        Act.settles_cloneContinuation (fun k hk => absurd ⟨k, hk⟩ he) Act.settles_resumeCloned Act.settles_findPerformer
    exact wp_mono (hsettles s hs) (fun _ _ h => h.of_none) fun _ _ h => ⟨h.1.of_none, h.2, fun _ => h.1⟩

/-! ### Machines in order -/

/-- **Heap and registers are in order**, for all domains at once; no domain has recorded a lock. -/
structure Upright (m : Machine) : Prop where
  numbered : m.Numbered
  heap : m.world.heap.InOrder
  seated : ∀ x ∈ m.domains, x.Seated m.world.heap
  unlocked : ∀ x ∈ m.domains, x.frames.records = []

/-- **What is left**: a machine in order, and the capsules with their states, but for some. -/
structure Keeps (altered : BlockId → Prop) (m m' : Machine) : Prop where
  upright : m'.Upright
  capsules : ∀ k c, ¬ altered k → m.world.heap.capsule? k = some c → m'.world.heap.capsule? k = some c

/-- The event fills, spends or frees the capsule. -/
def Event.Alters (k : BlockId) : Event → Outcome → Prop
  | put j _, .done _ | take j, .done _ => j = k
  | ask _ (.resume j), out => j = k ∧ out ≠ .stopped .raised
  | free j, _ => j = k
  | _, _ => False

namespace Upright

variable {m m' : Machine} {d : DomainId} {b : BlockId} {e : Event} {out : Outcome} {altered : BlockId → Prop}

theorem initial {w : World} (hw : w.heap.InOrder) : (Machine.initial w).Upright :=
  ⟨⟨.nil, nofun⟩, hw, nofun, nofun⟩

theorem keeps (h : m.Upright) : m.Keeps altered m := ⟨h, fun _ _ _ hc => hc⟩

/-- **The heap changes beside all domains.** -/
theorem of_lasts {w : World} (h : m.Upright) (hl : m.world.heap.Lasts altered w.heap)
    (hcreated : w.domainsCreated = m.world.domainsCreated) : m.Keeps altered { m with world := w } where
  upright := ⟨⟨h.numbered.distinct, hcreated ▸ h.numbered.created⟩, hl.inOrder,
    fun x hx => (h.seated x hx).of_lasts hl, h.unlocked⟩
  capsules := hl.capsules

theorem create (h : m.Upright) : m.Keeps altered m.create.2 := by
  have hd : m.create.2.domains = m.domains ++ [.fresh ⟨m.world.domainsCreated + 1⟩ m.world.config.maxStackWords] := rfl
  refine ⟨⟨h.numbered.create, h.heap, fun x hx => ?_, fun x hx => ?_⟩, fun _ _ _ hc => hc⟩ <;> rw [hd] at hx <;>
    rcases List.mem_append.1 hx with hx | hx
  · exact h.seated x hx
  · obtain rfl := List.mem_singleton.1 hx
    exact nofun
  · exact h.unlocked x hx
  · obtain rfl := List.mem_singleton.1 hx
    rfl

/-- **A domain acts**: it is in order before, and if it is so afterwards, so are all. -/
theorem act {α : Type} {a : Act α} {r : Except Stop α} (h : m.Upright) (ha : m.act d a = some (r, m')) :
    ∃ x t, m.domain? d = some x ∧ Active.Settled ⟨x, m.world⟩ ∧ a ⟨x, m.world⟩ = (r, t) ∧ m'.world = t.world ∧
      ∀ spent, Active.Lasts spent ⟨x, m.world⟩ t → m.Keeps spent m' ∧ m'.domain? d = some t.domain := by
  obtain ⟨x, t, hx, hrun, rfl⟩ := act_eq_some ha
  obtain ⟨as, bs, hm⟩ := domain?_eq_some hx
  have hmem : x ∈ m.domains := by simp [hm]
  refine ⟨x, t, hx, ⟨h.heap, h.seated x hmem⟩, hrun, rfl, fun spent hl => ?_⟩
  have hd : (m.setDomain t.domain).domains = as ++ t.domain :: bs := domains_setDomain hm h.numbered.distinct hl.id
  -- the domain itself, or one of the others, for which the stacks have lasted
  have heach : ∀ y ∈ (m.setDomain t.domain).domains, y = t.domain ∨ y ∈ m.domains := by
    intro y hy
    rw [hd] at hy
    rw [hm]
    rcases List.mem_append.1 hy with hy | hy
    · exact .inr (List.mem_append_left _ hy)
    · exact (List.mem_cons.1 hy).imp_right fun hy => List.mem_append_right _ (List.mem_cons_of_mem _ hy)
  have hnumbered := h.numbered.acted hm hl.id hl.created
  refine ⟨⟨⟨hnumbered, hl.heap.inOrder, fun y hy => ?_, fun y hy => ?_⟩, hl.heap.capsules⟩, ?_⟩
  · rcases heach y hy with rfl | hy
    · exact hl.seated
    · exact (h.seated y hy).of_lasts hl.heap
  · rcases heach y hy with rfl | hy
    · exact List.eq_nil_iff_forall_not_mem.2 fun q hq => by simpa [h.unlocked x hmem] using hl.records hq
    · exact h.unlocked y hy
  · have hid := hl.id.trans (id_of_domain? hx)
    exact (domain?_setDomain (y := t.domain) (hid ▸ hx) d).trans (if_pos hid.symm)

/-- A stack is freed that no domain runs on. -/
theorem discard (h : m.Upright) (hb : ∀ x ∈ m.domains, x.current? ≠ some b) :
    m.Keeps (b = ·) (m.setHeap (m.world.heap.discard b)) where
  upright := by
    refine ⟨⟨h.numbered.distinct, h.numbered.created⟩, Heap.inOrder_discard h.heap b, fun x hx r hr => ?_, h.unlocked⟩
    obtain ⟨y, hy, hcap, hused⟩ := h.seated x hx r hr
    have hne : r.current ≠ b := by
      rintro rfl
      exact hb x hx (Domain.current?_of_registers hr)
    refine ⟨y, ?_, hcap, hused⟩
    rw [setHeap, World.heap_adopt, Heap.stack?, Heap.get?_discard_of_ne hne]
    exact hy
  capsules k c hk hc := by
    rw [setHeap, World.heap_adopt, Heap.capsule?, Heap.get?_discard_of_ne fun hkb => hk hkb.symm]
    exact hc

/-- A block beside all domains, or a failure. -/
theorem conclude {r : Except Failure (BlockId × Heap)} (h : m.Upright)
    (hr : ∀ b h', r = .ok (b, h') → m.world.heap.Lasts altered h') : m.Keeps altered (m.conclude r).2 := by
  rcases r with f | ⟨b, h'⟩
  · exact h.keeps
  · exact h.of_lasts (hr b h' rfl) rfl

/-- **A domain runs an errand**: the capsule it spends is the one resumed, unless it was raised that it cannot be. -/
theorem ask {errand : Errand} (h : m.Upright) (hp : m.perform (.ask d errand) = some (out, m')) :
    m.Keeps (fun k => (Event.ask d errand).Alters k out) m' ∧
      ∀ stop, out = .stopped stop → ¬ stop.Misplaced := by
  obtain ⟨⟨r, m₁⟩, ha, hr⟩ := Option.map_eq_some_iff.1 hp
  obtain ⟨rfl, rfl⟩ := Prod.mk.inj hr
  obtain ⟨x, t, -, hs, hrun, -, hafter⟩ := h.act ha
  have hend := errand.lasts hs
  have halters : ∀ {out : Outcome}, out ≠ .stopped .raised →
      ∀ k, errand.Spends k → (Event.ask d errand).Alters k out := by
    rintro out hout k rfl
    exact ⟨rfl, hout⟩
  cases r with
  | ok b =>
    have hend := (wp_of_ok hrun).1 hend
    have hdone : Outcome.done b ≠ .stopped .raised := nofun
    exact ⟨(hafter _ (hend.mono (halters hdone))).1, nofun⟩
  | error stop =>
    have hend := (wp_of_error hrun).1 hend
    refine ⟨?_, fun stop' hs' => Outcome.stopped.inj hs' ▸ hend.2.1⟩
    by_cases hraised : stop = .raised
    · exact (hafter _ (hend.2.2 hraised).of_none).1
    · exact (hafter _ (hend.1.mono (halters fun ho => hraised (Outcome.stopped.inj ho)))).1

/-- A chain is copied beside all domains. -/
theorem clone {k : BlockId} (h : m.Upright) (hp : m.perform (.clone k) = some (out, m')) :
    m.Keeps altered m' ∧ ∀ stop, out = .stopped stop → ¬ stop.Misplaced := by
  replace hp := Option.some.inj hp
  split at hp
  · next hr =>
    obtain ⟨rfl, rfl⟩ := Prod.mk.inj hp
    exact ⟨h.of_lasts (Heap.lasts_cloneChain h.heap hr) rfl, nofun⟩
  · next hr =>
    obtain ⟨rfl, rfl⟩ := Prod.mk.inj hp
    exact ⟨h.of_lasts (Heap.lasts_cloneChain h.heap hr) rfl, nofun⟩
  · next f hr =>
    obtain ⟨rfl, rfl⟩ := Prod.mk.inj hp
    refine ⟨h.keeps, fun stop hs => ?_⟩
    rw [← Outcome.stopped.inj hs]
    exact Heap.placed_cloneChain _ _ f hr

/-- **Whatever happens**, heap and registers stay in order, no capsule changes its state but one that is filled, spent
or freed, and no assertion about places is violated. -/
theorem perform (h : m.Upright) (he : e.Fair m) (hp : m.perform e = some (out, m')) :
    m.Keeps (fun k => e.Alters k out) m' ∧ ∀ stop, out = .stopped stop → ¬ stop.Misplaced := by
  cases e with
  | createTable =>
    obtain ⟨rfl, rfl⟩ := Prod.mk.inj (Option.some.inj hp)
    refine ⟨h.of_lasts (lasts_createTable h.heap) (keepsMarks_createTable h.heap.freeListed).2, fun stop hs => ?_⟩
    split at hs <;> cases hs
  | create =>
    obtain ⟨rfl, rfl⟩ := Prod.mk.inj (Option.some.inj hp)
    exact ⟨h.create, nofun⟩
  | ask d errand => exact h.ask hp
  | capture head =>
    obtain ⟨rfl, rfl⟩ := Prod.mk.inj (Option.some.inj hp)
    refine ⟨h.conclude fun b h' hr => ?_, fun stop hs => absurd hs (m.conclude_ne_stopped _ stop)⟩
    exact Heap.lasts_alloc (o := .capsule (.full head)) h.heap (Nat.succ_pos 1) (Object.unmarked_of_ne (by simp))
      (Heap.capture_eq_ok_iff.1 hr).2
  | put k head =>
    obtain ⟨c, hk, hr⟩ := Option.map_eq_some_iff.1 hp
    split at hr
    · obtain ⟨rfl, rfl⟩ := Prod.mk.inj hr
      exact ⟨h.of_lasts (Heap.lasts_setCapsule h.heap hk rfl) rfl, nofun⟩
    · obtain ⟨rfl, rfl⟩ := Prod.mk.inj hr
      exact ⟨h.keeps, nofun⟩
  | take k =>
    obtain ⟨rfl, rfl⟩ := Prod.mk.inj (Option.some.inj hp)
    refine ⟨?_, fun stop hs => absurd hs (m.conclude_ne_stopped _ stop)⟩
    rcases hr : m.world.heap.takeHead k with f | ⟨b, h'⟩
    · exact h.keeps
    · obtain ⟨hk, rfl⟩ := Heap.takeHead_eq_ok_iff.1 hr
      exact h.of_lasts (Heap.lasts_setCapsule h.heap hk rfl) rfl
  | clone k => exact h.clone hp
  | alloc o path =>
    obtain ⟨rfl, rfl⟩ := Prod.mk.inj (Option.some.inj hp)
    refine ⟨h.conclude fun b h' hr => ?_, fun stop hs => absurd hs (m.conclude_ne_stopped _ stop)⟩
    exact Heap.lasts_alloc h.heap he.1 he.2 (Heap.mapError_eq_ok_iff.1 hr)
  | free b =>
    obtain ⟨rfl, rfl⟩ := Prod.mk.inj (Option.some.inj hp)
    exact ⟨h.discard he, nofun⟩
  | promote b =>
    obtain ⟨rfl, rfl⟩ := Prod.mk.inj (Option.some.inj hp)
    exact ⟨h.of_lasts (Heap.lasts_promote h.heap b) rfl, nofun⟩
  | markReady =>
    obtain ⟨rfl, rfl⟩ := Prod.mk.inj (Option.some.inj hp)
    exact ⟨h.of_lasts (Heap.lasts_markReady h.heap) rfl, nofun⟩

end Upright

/-- **All that has happened, if it was fair, has left the machine in order.** -/
theorem Upright.chronicle {es : List Event} : ∀ {m m' : Machine} {rs : List Record}, m.Upright →
    m.chronicle es = some (rs, m') → (∀ r ∈ rs, r.Fair) → m'.Upright := by
  induction es with
  | nil =>
    intro m m' rs h hc _
    obtain ⟨-, rfl⟩ := Prod.mk.inj (Option.some.inj hc)
    exact h
  | cons e es ih =>
    intro m m' rs h hc hfair
    obtain ⟨out, m₁, rs', hp, -, hrest, rfl⟩ := chronicle_cons hc
    obtain ⟨hfirst, hlater⟩ := List.forall_mem_cons.1 hfair
    exact ih (h.perform hfirst hp).1.upright hrest hlater

end Machine

end FiberStacks
