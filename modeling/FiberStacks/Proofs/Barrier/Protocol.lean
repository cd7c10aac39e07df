import FiberStacks.Proofs.Barrier.Calls
import FiberStacks.Proofs.Barrier.Sweep

/-!
# The protocol of dirty marks

Domains are created, act and end, marks are cleared, and the collector allocates, frees and promotes blocks, in any
order.  Only old stacks are marked, every mark is that of a domain that has queued the stack, and no mark passes from
one domain to another.

* `Machine.Entry`, `Machine.Move` — what a domain can be asked to do, and what can happen to a machine;
* `Machine.run` — moves one after another, until the process stops;
* `Machine.Orderly` — the invariant;
* `Orderly.step` — **every move keeps it**, if no marked stack is put into the heap;
* `run_marks` — so do all moves together.
-/

namespace FiberStacks

open FiberStacks.Action

namespace Machine

/-! ### Moves -/

/-- **What a domain can be asked to do.** -/
inductive Entry : Type 1 where
  /-- Get a main stack. -/
  | start
  | call (c : StackCall)
  | load (b : BlockId)
  | newStack (words : Nat) (handlers : Handlers)
  | clone (k : BlockId)
  | resume (k : BlockId)
  | resumeCloned (k : BlockId)
  | findPerformer (b : BlockId)
  /-- A minor pass over the queued stacks. -/
  | scanRemembered {τ : Type} (v : Visitor τ) (t : τ)
  | enterRegion
  | leaveRegion (depth : Nat)
  | takePending

namespace Entry

/-- What is done; the result is not looked at. -/
def act : Entry → Act Unit
  | start => do let _ ← Act.start
  | call c => c.act
  | load b => Act.loadStack b
  | newStack words handlers => do let _ ← Act.newStackOf words handlers
  | clone k => do let _ ← Act.cloneContinuation k
  | resume k => do let _ ← Act.resume k
  | resumeCloned k => do let _ ← Act.resumeCloned k
  | findPerformer b => do let _ ← Act.findPerformer b
  | scanRemembered v t => do let _ ← Act.scanRemembered v t
  | enterRegion => do let _ ← Act.enterRegion
  | leaveRegion depth => Act.leaveRegion depth
  | takePending => do let _ ← Act.takePending

end Entry

/-- **What can happen to a machine.** -/
inductive Move : Type 1 where
  | createTable
  | create
  | ask (d : DomainId) (e : Entry)
  | terminate (d : DomainId)
  /-- Clear the mark of a stack if it is that of a domain. -/
  | clean (d : DomainId) (b : BlockId)
  | alloc (o : Object) (path : AllocPath)
  | free (b : BlockId)
  | promote (b : BlockId)
  | markReady

/-- The machine goes on after a call that returned or raised. -/
def continued {α : Type} : Except Stop α × Machine → Option Machine
  | (.ok _, m) | (.error .raised, m) => some m
  | (.error (.fault _), _) | (.error (.fatal _), _) => none

def setHeap (m : Machine) (h : Heap) : Machine := { m with world := m.world.adopt h }

/-- **One move.**  Nothing is left after a violated assertion or the end of the process. -/
def step (m : Machine) : Move → Option Machine
  | .createTable => some { m with world := m.world.createTable.2 }
  | .create => some m.create.2
  | .ask d e => (m.act d e.act).bind continued
  | .terminate d => (m.terminate d).bind continued
  | .clean d b => (m.world.heap.clean d b).toOption.map fun r => m.setHeap r.2
  | .alloc o path => some (((m.world.heap.alloc o path).toOption.map fun r => m.setHeap r.2).getD m)
  | .free b => some (m.setHeap (m.world.heap.discard b))
  | .promote b => some (m.setHeap (m.world.heap.promote b))
  | .markReady => some (m.setHeap m.world.heap.markReady)

def run (m : Machine) : List Move → Option Machine
  | [] => some m
  | e :: es => (m.step e).bind fun m' => m'.run es

/-- The move puts no marked stack into the heap. -/
def Move.Unmarked : Move → Prop
  | alloc o _ => o.Unmarked
  | _ => True

/-! ### What calls do to marks -/

/-- **Whatever a domain is asked to do**, the marks are those of before or own ones on old stacks that are queued. -/
theorem Entry.marked (e : Entry) {s : Active} (hf : s.world.heap.FreeListed) :
    e.act.wp s (fun _ t => Marked s t) fun stop t => stop = .raised → Marked s t := by
  have of_marks : ∀ {α : Type} {a : Act α}, a.Marks →
      a.wp s (fun _ t => Marked s t) fun stop t => stop = .raised → Marked s t := fun ha =>
    wp_mono (ha s) (fun _ _ h => (h hf).marked) fun _ _ h _ => h hf
  have of_advances : ∀ {α : Type} {a : Act α}, a.Relates Act.Advances →
      a.wp s (fun _ t => Marked s t) fun stop t => stop = .raised → Marked s t := fun ha =>
    of_marks (Act.marks_of_advances ha)
  cases e with
  | start => exact (wp_bind ..).2 (of_advances Act.founding_advances.start)
  | call c => exact of_advances c.advances
  | load b => exact of_advances (Act.advances_loadStack b)
  | newStack words handlers => exact (wp_bind ..).2 (of_advances (Act.founding_advances.newStackOf words handlers))
  | clone k => exact (wp_bind ..).2 (of_marks (Act.marks_cloneContinuation k))
  | resume k => exact (wp_bind ..).2 (of_advances (Act.advances_resume k))
  | resumeCloned k => exact (wp_bind ..).2 (of_marks (Act.marks_resumeCloned k))
  | findPerformer b => exact (wp_bind ..).2 (of_advances (Act.advances_findPerformer b))
  | scanRemembered v t =>
    exact (wp_bind ..).2 (wp_mono (Act.marked_scanRemembered v t hf) (fun _ _ h => h) fun _ _ hne he => absurd he hne)
  | enterRegion => exact (wp_bind ..).2 (of_advances (Act.advances_of_beside Act.beside_enterRegion))
  | leaveRegion depth => exact of_advances (Act.advances_of_beside (Act.beside_leaveRegion depth))
  | takePending => exact (wp_bind ..).2 (of_advances (Act.advances_of_beside Act.beside_takePending))

/-! ### The invariant -/

/-- Only old stacks are marked. -/
def MarksOld (m : Machine) : Prop := ∀ b o, m.world.heap.owner? b = some o → m.world.heap.generation? b = some .old

/-- **The marks are in order**: they are on old stacks, and of domains that have queued them. -/
structure Orderly (m : Machine) : Prop extends Sound m where
  numbered : ∀ x ∈ m.domains, x.id.number ≤ m.world.domainsCreated
  old : m.MarksOld
  queued : m.MarksQueued

/-- **No mark has passed from one domain to another.** -/
def MarksStay (m m' : Machine) : Prop :=
  ∀ b o o', m.world.heap.owner? b = some o → m'.world.heap.owner? b = some o' → o' = o

variable {m m' : Machine} {d : DomainId}

namespace Orderly

theorem initial {w : World} {maxWords minorLimit : Nat} (hw : w.heap = .empty maxWords minorLimit) :
    (Machine.initial w).Orderly := by
  have hnone : ∀ b, (Machine.initial w).world.heap.owner? b = none := fun b => by
    refine Heap.owner?_of_cell?_eq_none ?_
    change w.heap.cell? b = none
    simp [hw, Heap.cell?, Heap.empty]
  refine ⟨⟨?_, .nil⟩, by simp [Machine.initial], fun b o hb => ?_, fun b o hb => ?_⟩
  · change w.heap.FreeListed
    rw [hw]
    exact ⟨List.nodup_nil, by simp [Heap.empty]⟩
  · cases (hnone b).symm.trans hb
  · cases (hnone b).symm.trans hb

/-- **Marks only go**, and the domains are the same. -/
theorem of_loses {w : World} (h : m.Orderly) (hl : m.world.heap.LosesMarks w.heap)
    (hcreated : w.domainsCreated = m.world.domainsCreated) :
    Orderly { m with world := w } ∧ m.MarksStay { m with world := w } := by
  refine ⟨⟨⟨hl.freeListed, h.distinct⟩, hcreated ▸ h.numbered, fun b o hb => ?_, fun b o hb => ?_⟩,
    fun b o o' ho ho' => ?_⟩
  · obtain ⟨hm, hg⟩ := hl.marks b o hb
    exact hg (h.old b o hm)
  · exact h.queued b o (hl.marks b o hb).1
  · exact Option.some.inj ((hl.marks b o' ho').1.symm.trans ho)

/-- **A domain has acted.** -/
theorem of_acting {α : Type} {a : Act α} {r : Except Stop α} {x : Domain} {others : List Domain} {t : Active}
    (h : m.Orderly) (hact : Acting m m' a r x others t) (ht : Marked ⟨x, m.world⟩ t) : m'.Orderly ∧ m.MarksStay m' := by
  have hdomains := hact.domains ht.id
  have hids : (t.domain :: others).map Domain.id = (x :: others).map Domain.id := by
    rw [List.map_cons, ht.id]
    rfl
  have hdistinct : m'.domains.Pairwise fun a b => a.id ≠ b.id := by
    have hold := hact.perm.pairwise h.distinct Ne.symm
    rw [← List.pairwise_map (R := (· ≠ ·)), ← hids, List.pairwise_map] at hold
    exact hdomains.symm.pairwise hold Ne.symm
  refine ⟨⟨⟨hact.world ▸ ht.freeListed, hdistinct⟩, fun y hy => ?_, fun b o hb => ?_,
    hact.marksQueued h.queued ht⟩, fun b o o' ho ho' => ?_⟩
  · rw [hact.world, ht.created]
    rcases List.mem_cons.1 (hdomains.mem_iff.1 hy) with rfl | hy
    · exact ht.id ▸ h.numbered x (hact.perm.mem_iff.2 List.mem_cons_self)
    · exact h.numbered y (hact.perm.mem_iff.2 (List.mem_cons_of_mem _ hy))
  · rw [hact.world] at hb ⊢
    rcases ht.marks b o hb with ⟨hs, hg⟩ | ⟨-, -, -, hg⟩
    · exact hg (h.old b o hs)
    · exact hg
  · rw [hact.world] at ho'
    rcases ht.marks b o' ho' with ⟨hs, -⟩ | ⟨hs, -⟩
    · exact Option.some.inj (hs.symm.trans ho)
    · cases hs.symm.trans ho

theorem create (h : m.Orderly) : m.create.2.Orderly := by
  have hd : m.create.2.domains = m.domains ++ [.fresh ⟨m.world.domainsCreated + 1⟩ m.world.config.maxStackWords] := rfl
  refine ⟨⟨h.freeListed, ?_⟩, fun y hy => ?_, h.old, fun b o hb => ?_⟩
  · rw [hd]
    refine List.pairwise_append.2 ⟨h.distinct, List.pairwise_singleton .., fun a ha b hb he => ?_⟩
    obtain rfl := List.mem_singleton.1 hb
    have hle := h.numbered a ha
    rw [he] at hle
    exact absurd hle (Nat.not_succ_le_self _)
  · rw [hd] at hy
    rcases List.mem_append.1 hy with hy | hy
    · exact (h.numbered y hy).trans (Nat.le_succ _)
    · obtain rfl := List.mem_singleton.1 hy
      exact le_rfl
  · obtain ⟨y, hy, hq⟩ := h.queued b o hb
    exact ⟨y, hd ▸ List.mem_append_left _ hy, hq⟩

/-- **A domain is asked something**, and returns or raises. -/
theorem ask {e : Entry} (h : m.Orderly) (hm : (m.act d e.act).bind continued = some m') :
    m'.Orderly ∧ m.MarksStay m' := by
  obtain ⟨⟨r, m₁⟩, hact, hr⟩ := Option.bind_eq_some_iff.1 hm
  obtain ⟨x, others, t, -, hacting⟩ := acting h.toSound hact
  have hmarked := e.marked (s := ⟨x, m.world⟩) h.freeListed
  cases r with
  | ok _ =>
    obtain rfl := Option.some.inj hr
    exact h.of_acting hacting ((wp_of_ok hacting.run).1 hmarked)
  | error stop =>
    cases stop with
    | raised =>
      obtain rfl := Option.some.inj hr
      exact h.of_acting hacting ((wp_of_error hacting.run).1 hmarked rfl)
    | fault f => cases hr
    | fatal f => cases hr

/-- **A domain ends.**  It has left no mark, so that those of the others are still queued. -/
theorem terminate (h : m.Orderly) (hm : (m.terminate d).bind continued = some m') : m'.Orderly ∧ m.MarksStay m' := by
  obtain ⟨⟨r, m₁⟩, hend, hr⟩ := Option.bind_eq_some_iff.1 hm
  obtain ⟨⟨r', m₂⟩, hact, he⟩ := Option.map_eq_some_iff.1 hend
  obtain ⟨rfl, rfl⟩ := Prod.mk.inj he
  obtain ⟨x, others, t, hx, hacting⟩ := acting h.toSound hact
  have hspec := Act.marked_terminate (s := ⟨x, m.world⟩) h.freeListed
  cases r' with
  | error stop => exact ((wp_of_error hacting.run).1 hspec).elim
  | ok n =>
    obtain ⟨hmarked, hgone⟩ := (wp_of_ok hacting.run).1 hspec
    obtain ⟨hm₂, hstay⟩ := h.of_acting hacting hmarked
    obtain rfl := Option.some.inj hr
    refine ⟨⟨⟨hm₂.freeListed, hm₂.distinct.filter _⟩, fun y hy => hm₂.numbered y (List.mem_of_mem_filter hy), hm₂.old,
      fun b o hb => ?_⟩, hstay⟩
    obtain ⟨y, hy, hid, hq⟩ := hm₂.queued b o hb
    refine ⟨y, List.mem_filter.2 ⟨hy, ?_⟩, hid, hq⟩
    have hne : o ≠ x.id := fun ho => hgone b (ho ▸ hacting.world ▸ hb)
    rw [id_of_domain? hx] at hne
    simpa [hid] using hne

end Orderly

/-! ### The table of exceptions -/

theorem keepsMarks_allocate {w w' : World} {o : Object} {path : AllocPath} {b : BlockId} (hf : w.heap.FreeListed)
    (ho : o.Unmarked) (ha : w.allocate o path = .ok (b, w')) :
    w.heap.KeepsMarks w'.heap ∧ w'.domainsCreated = w.domainsCreated := by
  unfold World.allocate at ha
  rcases hh : w.heap.alloc o path with e | ⟨c, h'⟩
  · simp [hh, Except.map] at ha
  · rw [hh] at ha
    obtain ⟨rfl, rfl⟩ := Prod.mk.inj (Except.ok.inj ha)
    exact ⟨Heap.keepsMarks_alloc hf ho hh, rfl⟩

theorem keepsMarks_allocateIdentifiers : ∀ (es : List Exn) (w : World) (place : Nat), w.heap.FreeListed →
    w.heap.KeepsMarks (w.allocateIdentifiers place es).2.heap ∧
      (w.allocateIdentifiers place es).2.domainsCreated = w.domainsCreated
  | [], w, place, hf => ⟨.refl hf, rfl⟩
  | e :: es, w, place, hf => by
    unfold World.allocateIdentifiers
    split
    · exact ⟨.refl hf, rfl⟩
    · next name w₁ h₁ =>
      obtain ⟨hk₁, hc₁⟩ := keepsMarks_allocate hf (Object.unmarked_of_ne (by simp)) h₁
      split
      · exact ⟨hk₁, hc₁⟩
      · next b w₂ h₂ =>
        obtain ⟨hk₂, hc₂⟩ := keepsMarks_allocate hk₁.freeListed (Object.unmarked_of_ne (by simp [World.identifier])) h₂
        obtain ⟨hk₃, hc₃⟩ := keepsMarks_allocateIdentifiers es w₂ (place + 1) hk₂.freeListed
        have hall := And.intro ((hk₁.trans hk₂).trans hk₃) (hc₃.trans (hc₂.trans hc₁))
        split <;> next heq => rw [heq] at hall; exact hall

theorem keepsMarks_createTable {w : World} (hf : w.heap.FreeListed) :
    w.heap.KeepsMarks w.createTable.2.heap ∧ w.createTable.2.domainsCreated = w.domainsCreated := by
  unfold World.createTable
  split
  · exact ⟨.refl hf, rfl⟩
  · have hall := keepsMarks_allocateIdentifiers Exn.all w 0 hf
    split <;> next heq => rw [heq] at hall; exact hall

/-! ### Runs -/

/-- **Every move keeps the marks in order**, and where they are. -/
theorem Orderly.step {e : Move} (h : m.Orderly) (he : e.Unmarked) (hm : m.step e = some m') :
    m'.Orderly ∧ m.MarksStay m' := by
  cases e with
  | createTable =>
    obtain rfl := Option.some.inj hm
    obtain ⟨hkeeps, hcreated⟩ := keepsMarks_createTable h.freeListed
    exact h.of_loses hkeeps.loses hcreated
  | create =>
    obtain rfl := Option.some.inj hm
    exact ⟨h.create, fun b o o' ho ho' => Option.some.inj (ho'.symm.trans ho)⟩
  | ask d e => exact h.ask hm
  | terminate d => exact h.terminate hm
  | clean d b =>
    cases hc : m.world.heap.clean d b with
    | error f => simp [Machine.step, hc, Except.toOption] at hm
    | ok r =>
      simp only [Machine.step, hc] at hm
      obtain rfl := Option.some.inj hm
      exact h.of_loses (Heap.losesMarks_clean h.freeListed hc).1 rfl
  | alloc o path =>
    cases ha : m.world.heap.alloc o path with
    | error e =>
      simp only [Machine.step, ha] at hm
      obtain rfl := Option.some.inj hm
      exact h.of_loses (Heap.KeepsMarks.refl h.freeListed).loses rfl
    | ok p =>
      simp only [Machine.step, ha] at hm
      obtain rfl := Option.some.inj hm
      exact h.of_loses (Heap.keepsMarks_alloc h.freeListed he ha).loses rfl
  | free b =>
    obtain rfl := Option.some.inj hm
    exact h.of_loses (Heap.losesMarks_discard h.freeListed b) rfl
  | promote b =>
    obtain rfl := Option.some.inj hm
    exact h.of_loses (Heap.losesMarks_promote h.freeListed b) rfl
  | markReady =>
    obtain rfl := Option.some.inj hm
    exact h.of_loses (Heap.losesMarks_markReady h.freeListed) rfl

/-- **All moves together** keep the marks in order. -/
theorem Orderly.run : ∀ {es : List Move} {m : Machine}, m.Orderly → (∀ e ∈ es, e.Unmarked) → m.run es = some m' →
    m'.Orderly
  | [], m, h, _, hm => Option.some.inj hm ▸ h
  | e :: es, m, h, he, hm => by
    obtain ⟨m₁, hstep, hrun⟩ := Option.bind_eq_some_iff.1 hm
    have hm₁ := (h.step (he e List.mem_cons_self) hstep).1
    exact Orderly.run hm₁ (fun e' he' => he e' (List.mem_cons_of_mem _ he')) hrun

/-- **The protocol of dirty marks.**  Whatever happens to a machine, as long as no marked stack is put into the heap:
every marked stack is old, its mark is that of a domain that has not ended and has queued it, and nothing that can
happen next moves a mark from one domain to another. -/
theorem run_marks {config : Config} {layout : Layout} {maxWords minorLimit : Nat} {verbose : Bool} {es : List Move}
    (he : ∀ e ∈ es, e.Unmarked)
    (hrun : (Machine.initial { World.initial config layout (.empty maxWords minorLimit) with verbose }).run es =
      some m) :
    (∀ b s o, m.world.heap.stack? b = some s → s.owner = some o → m.world.heap.generation? b = some .old ∧
      ∃ x, m.domain? o = some x ∧ b ∈ x.remembered.queue) ∧
    ∀ e m', e.Unmarked → m.step e = some m' → m.MarksStay m' := by
  have hm : m.Orderly := (Orderly.initial rfl).run he hrun
  refine ⟨fun b s o hs ho => ?_, fun e m' he' hstep => (hm.step he' hstep).2⟩
  have hb : m.world.heap.owner? b = some o := Heap.owner?_eq_some_iff.2 ⟨s, hs, ho⟩
  obtain ⟨x, hx, rfl, hq⟩ := hm.queued b o hb
  exact ⟨hm.old b _ hb, x, hm.domain?_of_mem hx, hq⟩

/-- A machine before start-up, with small main stacks. -/
def small : Machine := .initial (.initial { initStackWords := 16 } .bytecode (.empty 100 100))

/-- Two domains save their main stacks, one of them ends, and the mark of the other is left. -/
theorem run_marks_small : ∃ m, small.run [.create, .ask ⟨1⟩ .start, .create, .ask ⟨2⟩ .start, .ask ⟨2⟩ (.call .save),
      .ask ⟨1⟩ (.call .save), .terminate ⟨2⟩, .alloc (.block 0 [.unit]) .normal, .promote ⟨2⟩] = some m ∧
    m.world.heap.owner? ⟨0⟩ = some ⟨1⟩ ∧
    (∀ b s o, m.world.heap.stack? b = some s → s.owner = some o → m.world.heap.generation? b = some .old ∧
      ∃ x, m.domain? o = some x ∧ b ∈ x.remembered.queue) ∧
    ∀ e m', e.Unmarked → m.step e = some m' → m.MarksStay m' := by
  have hseen : (small.run [.create, .ask ⟨1⟩ .start, .create, .ask ⟨2⟩ .start, .ask ⟨2⟩ (.call .save),
      .ask ⟨1⟩ (.call .save), .terminate ⟨2⟩, .alloc (.block 0 [.unit]) .normal, .promote ⟨2⟩]).map
        (fun m => m.world.heap.owner? ⟨0⟩) = some (some ⟨1⟩) := by decide +kernel
  obtain ⟨m, hrun, hm⟩ := Option.map_eq_some_iff.1 hseen
  exact ⟨m, hrun, hm, run_marks (by simp [Move.Unmarked, Object.Unmarked]) hrun⟩

/-- **A marked stack that is freed and put back** into the heap keeps its mark, but is young. -/
theorem not_run_marks : ¬ ∀ (config : Config) (layout : Layout) (maxWords minorLimit : Nat) (es : List Move)
    (m : Machine), maxWords < 2 ^ 32 →
      (Machine.initial (.initial config layout (.empty maxWords minorLimit))).run es = some m →
      ∀ b s o, m.world.heap.stack? b = some s → s.owner = some o → m.world.heap.generation? b = some .old := by
  intro h
  let es : List Move := [.create, .ask ⟨1⟩ .start, .ask ⟨1⟩ (.call .save), .free ⟨0⟩,
    .alloc (.stack { Segment.blank 16 .zero with owner := some ⟨1⟩ }) .normal]
  have hseen : (small.run es).map (fun m => (m.world.heap.owner? ⟨0⟩, m.world.heap.generation? ⟨0⟩)) =
      some (some ⟨1⟩, some .young) := by decide +kernel
  obtain ⟨m, hrun, hm⟩ := Option.map_eq_some_iff.1 hseen
  obtain ⟨howner, hyoung⟩ := Prod.mk.inj hm
  obtain ⟨s, hs, ho⟩ := Heap.owner?_eq_some_iff.1 howner
  cases hyoung.symm.trans (h _ _ 100 100 es m (by decide) hrun ⟨0⟩ s ⟨1⟩ hs ho)

end Machine

end FiberStacks
