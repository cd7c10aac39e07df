import FiberStacks.Proofs.Drain.Exact

/-!
# Queued identifiers used again

A queue holds bare identifiers, and the block of one may be freed and its cell given to something else.  A minor pass
passes over blocks that are gone and over stacks that carry no mark of the domain.  It does not pass over a block that
is there and is no stack.

* `Heap.reused` — a block that is there and is no stack;
* `scanQueued_reused` — serving a queue stops at the first such block, by induction on the queue;
* `scanRemembered_reused` — so does the pass;
* `Machine.scanRemembered_completes` — **and at nothing else**.
-/

namespace FiberStacks

open FiberStacks.Action

variable {τ : Type} {v : Visitor τ} {t : τ} {s : Active} {b : BlockId}

namespace Heap

/-- **The block is there and is no stack.** -/
def reused (h : Heap) (b : BlockId) : Bool := h.contains b && (h.stack? b).isNone

variable {h h' : Heap}

theorem reused_eq_true_iff : h.reused b = true ↔ h.contains b = true ∧ h.stack? b = none := by
  simp [reused]

theorem reused_eq_false_iff : h.reused b = false ↔ (h.contains b = true → ∃ x, h.stack? b = some x) := by
  rw [← Option.isSome_iff_exists, reused]
  cases h.contains b <;> cases h.stack? b <;> simp

theorem reused_setStack {x y : Segment} (hx : h.stack? b = some x) : (h.setStack b y).reused = h.reused := by
  funext c
  by_cases hc : c = b
  · simp [reused, hc, hx, stack?_setStack hx]
  · simp [reused, stack?_setStack_of_ne hc]

end Heap

namespace Act

/-- **Serving a queue stops at the first block that is there and is no stack.** -/
theorem scanQueued_reused (v : Visitor τ) (queue : List BlockId) : ∀ (t : τ) (s : Active),
    s.world.layout = .bytecode → queue.find? s.world.heap.reused = some b →
    (scanQueued v queue t).wp s (fun _ _ => False) fun e _ => e = .fault (.notStack b) := by
  induction queue with
  | nil => exact nofun
  | cons c queue ih =>
    intro t s hlayout hfind
    unfold scanQueued
    simp only [wp_bind, wp_heap]
    cases hc : s.world.heap.reused c with
    | true =>
      rw [List.find?_cons_of_pos hc] at hfind
      obtain rfl := Option.some.inj hfind
      obtain ⟨hlive, hstack⟩ := Heap.reused_eq_true_iff.1 hc
      have hstop : s.world.heap.scanIfDirty s.world.layout v s.domain.id c t = .error (.notStack c) := by
        simp [Heap.scanIfDirty, Heap.stack, hstack, bind, Except.bind]
      rw [if_pos hlive]
      simp only [wp_bind, wp_domain, wp_layout, hstop, wp_check_error]
    | false =>
      rw [List.find?_cons_of_neg (by simp [hc])] at hfind
      split
      · next hlive =>
        obtain ⟨x, hx⟩ := Heap.reused_eq_false_iff.1 hc hlive
        simp only [wp_bind, wp_domain, wp_layout, hlayout]
        by_cases ho : x.owner = some s.domain.id
        · obtain ⟨y, z, hshow, hclean, -⟩ := Heap.serve_marked v t hx ho
          rw [hshow, wp_check_ok]
          simp only [wp_setHeap, if_true, wp_bind]
          rw [hclean, wp_check_ok]
          simp only [wp_pure, World.adopt_setStack]
          exact ih _ (s.put c z) hlayout (by rw [Active.put, World.heap_adopt, Heap.reused_setStack hx, hfind])
        · rw [Heap.serve_unmarked v t hx ho, wp_check_ok]
          simp only [wp_setHeap, World.adopt_heap]
          exact ih t s hlayout hfind
      · exact ih t s hlayout hfind

theorem WrittenBack.reused {m : Active} (h : WrittenBack s m) : m.world.heap.reused = s.world.heap.reused := by
  funext b
  rw [Heap.reused, Heap.reused, h.contains]
  cases hx : s.world.heap.stack? b with
  | none => rw [h.stack?_eq_none hx]
  | some x =>
    obtain ⟨hle, hm⟩ := h.stack? hx
    rw [hm]
    rfl

/-- **A minor pass stops at the first queued block that is there and is no stack.** -/
theorem scanRemembered_reused (v : Visitor τ) (t : τ) (hs : s.domain.Seated s.world.heap)
    (hlayout : s.world.layout = .bytecode) (hfind : s.domain.remembered.queue.find? s.world.heap.reused = some b) :
    (scanRemembered v t).wp s (fun _ _ => False) fun e _ => e = .fault (.notStack b) := by
  unfold scanRemembered
  refine wp_bind_of_returns (syncStack_writtenBack hs) ?_
  rintro - m hm
  simp only [wp_bind, wp_domain, wp_modifyDomain]
  refine scanQueued_reused v _ t _ (by rw [hm.world]; exact hlayout) ?_
  rw [hm.reused, hm.domain, hfind]

end Act

namespace Machine

variable {m : Machine} {d : DomainId} {x : Domain}

theorem scanRemembered_stops {τ : Type} (v : Visitor τ) (t : τ) (hx : m.domain? d = some x)
    (hseated : x.Seated m.world.heap) (hlayout : m.world.layout = .bytecode)
    (hb : x.remembered.queue.find? m.world.heap.reused = some b) :
    ∃ m', m.act d (Act.scanRemembered v t) = some (.error (.fault (.notStack b)), m') := by
  obtain ⟨e, u, hrun, rfl⟩ := exists_error_of_wp
    (Act.scanRemembered_reused (s := ⟨x, m.world⟩) v t hseated hlayout hb)
  exact ⟨_, by rw [act, hx, Option.map_some, hrun]⟩

/-- **When a minor pass completes.**  Whatever has been done to a machine, under the bytecode layout a pass over a queue
with no block that is there and is no stack shows the stacks that carry the mark of the domain and passes over the
others, and over blocks that are gone.  If there is such a block on the queue, the pass stops at the first one with the
assertion that it is no live stack.  This takes registers that describe the current stack, and within a budget they
always do. -/
theorem scanRemembered_completes {config : Config} {layout : Layout} {maxWords minorLimit : Nat}
    (hm : Arises config layout maxWords minorLimit m) (hx : m.domain? d = some x)
    (hlayout : m.world.layout = .bytecode) :
    (maxWords < 2 ^ 32 → x.Seated m.world.heap) ∧ (x.Seated m.world.heap → ∀ (τ : Type) (v : Visitor τ) (t : τ),
      (x.remembered.queue.find? m.world.heap.reused = none →
        ∃ l t' m', m.act d (Act.scanRemembered v t) = some (.ok (l.length, t'), m') ∧ Drained d v l t t' m m') ∧
      ∀ b, x.remembered.queue.find? m.world.heap.reused = some b →
        ∃ m', m.act d (Act.scanRemembered v t) = some (.error (.fault (.notStack b)), m')) := by
  refine ⟨fun hbudget => (hm.inPlace hbudget).seated x (List.mem_of_find?_eq_some hx), fun hseated τ v t =>
    ⟨fun hnone => ?_, fun b hb => scanRemembered_stops v t hx hseated hlayout hb⟩⟩
  refine scanRemembered_drained v t hm.orderly hx hseated hlayout fun b hb hlive => ?_
  exact Heap.reused_eq_false_iff.1 (by simpa using List.find?_eq_none.1 hnone b hb) hlive

/-- A domain runs for a while on a stack that is freed later, and its cell is given to something else. -/
def freedAndGiven (o : Object) : List Event :=
  [.create, .ask ⟨1⟩ .start, .alloc (.stack (.blank 8 .zero)) .quiet, .ask ⟨1⟩ (.call (.switch ⟨1⟩)),
    .ask ⟨1⟩ (.call (.switch ⟨0⟩)), .free ⟨1⟩, .alloc o .normal]

theorem exists_freedAndGiven {o : Object} {r : Option BlockId}
    (h : (small.chronicle (freedAndGiven o)).map (fun p => (decide (∀ r ∈ p.1, r.Fair),
      (p.2.domain? ⟨1⟩).map fun x => x.remembered.queue.find? p.2.world.heap.reused, p.2.world.layout)) =
      some (true, some r, .bytecode)) :
    ∃ m x, Arises { initStackWords := 16 } .bytecode 100 100 m ∧ m.domain? ⟨1⟩ = some x ∧
      m.world.layout = .bytecode ∧ x.remembered.queue.find? m.world.heap.reused = r := by
  obtain ⟨⟨rs, m⟩, hc, hm⟩ := Option.map_eq_some_iff.1 h
  obtain ⟨hfair, hm⟩ := Prod.mk.inj hm
  obtain ⟨hdomain, hlayout⟩ := Prod.mk.inj hm
  obtain ⟨x, hx, hfind⟩ := Option.map_eq_some_iff.1 hdomain
  exact ⟨m, x, ⟨false, follows_of_chronicle hc (of_decide_eq_true hfair)⟩, hx, hlayout, hfind⟩

theorem exists_givenToBlock : ∃ m x, Arises { initStackWords := 16 } .bytecode 100 100 m ∧ m.domain? ⟨1⟩ = some x ∧
    m.world.layout = .bytecode ∧ x.remembered.queue.find? m.world.heap.reused = some ⟨1⟩ :=
  exists_freedAndGiven (o := .block 0 [.unit]) (by rfl)

/-- A pass over the cell of a stack that another stack is in, and one over a cell that a block is in. -/
theorem scanRemembered_completes_freedAndGiven :
    (∃ m x, Arises { initStackWords := 16 } .bytecode 100 100 m ∧ m.domain? ⟨1⟩ = some x ∧
      m.world.layout = .bytecode ∧ x.remembered.queue.find? m.world.heap.reused = none ∧
      ∀ (τ : Type) (v : Visitor τ) (t : τ), ∃ l t' m',
        m.act ⟨1⟩ (Act.scanRemembered v t) = some (.ok (l.length, t'), m') ∧ Drained ⟨1⟩ v l t t' m m') ∧
    ∃ m x, Arises { initStackWords := 16 } .bytecode 100 100 m ∧ m.domain? ⟨1⟩ = some x ∧
      m.world.layout = .bytecode ∧ x.remembered.queue.find? m.world.heap.reused = some ⟨1⟩ ∧
      ∀ (τ : Type) (v : Visitor τ) (t : τ), ∃ m',
        m.act ⟨1⟩ (Act.scanRemembered v t) = some (.error (.fault (.notStack ⟨1⟩)), m') := by
  constructor
  · obtain ⟨m, x, harises, hx, hlayout, hfind⟩ :=
      exists_freedAndGiven (o := .stack (.blank 8 .zero)) (r := none) (by rfl)
    have hpass := scanRemembered_completes harises hx hlayout
    exact ⟨m, x, harises, hx, hlayout, hfind, fun τ v t => (hpass.2 (hpass.1 (by decide)) τ v t).1 hfind⟩
  · obtain ⟨m, x, harises, hx, hlayout, hfind⟩ := exists_givenToBlock
    have hpass := scanRemembered_completes harises hx hlayout
    exact ⟨m, x, harises, hx, hlayout, hfind, fun τ v t => (hpass.2 (hpass.1 (by decide)) τ v t).2 _ hfind⟩

/-- **A queued stack can be freed and its cell given to a block**, and the next minor pass stops there. -/
theorem not_scanRemembered_tolerant :
    ¬ ∀ (config : Config) (maxWords minorLimit : Nat) (m : Machine) (d : DomainId) (x : Domain), maxWords < 2 ^ 32 →
      Arises config .bytecode maxWords minorLimit m → m.domain? d = some x → m.world.layout = .bytecode →
      ∀ (τ : Type) (v : Visitor τ) (t : τ), ∃ r m', m.act d (Act.scanRemembered v t) = some (.ok r, m') := by
  intro h
  obtain ⟨m, x, harises, hx, hlayout, hfind⟩ := exists_givenToBlock
  have hseated := (harises.inPlace (by decide)).seated x (List.mem_of_find?_eq_some hx)
  obtain ⟨r, m', hreturns⟩ := h _ _ _ m ⟨1⟩ x (by decide) harises hx hlayout Unit (fun w t => (w, t)) ()
  obtain ⟨m'', hstops⟩ := scanRemembered_stops (fun w t => (w, t)) () hx hseated hlayout hfind
  cases hreturns.symm.trans hstops

end Machine

end FiberStacks
