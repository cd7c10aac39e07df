import FiberStacks.Proofs.Barrier.Sweep
import FiberStacks.Proofs.Growth.Steps
import FiberStacks.Proofs.Heap.Reachable

/-!
# A queue served to the letter

The queue of a minor pass may name a stack more than once, stacks that carry no mark any more, and blocks that are no
longer there.  Serving it under the bytecode layout shows the stacks that carry the mark of the domain, each once, since
the mark is cleared with the first visit.

* `Segment.Shown` — a segment whose roots were shown, and replaced by what the visitor stored;
* `Drains` — **what serving a queue does**: the stacks shown, the words shown and stored, and the marks cleared;
* `Drains.cons` — one more stack shown before;
* `scanQueued_drains` — a queue served, by induction on the queue.
-/

namespace FiberStacks

open FiberStacks.Action

variable {τ : Type} {v : Visitor τ} {t t' : τ}

/-! ### One stack -/

/-- **A segment after its roots were shown**: apart from them and from the mark, nothing is different. -/
structure Segment.Shown (y x : Segment) : Prop where
  used : y.used = x.used
  rest : y.slots.drop x.used = x.slots.drop x.used

/-- **Showing the roots of a segment** under the bytecode layout: handlers and link first, then the used words. -/
theorem Segment.scan_bytecode (v : Visitor τ) (x : Segment) (t : τ) :
    ∃ y, Segment.scan .bytecode v (x, t) = (.ok (), y, (v.visitAll x.roots t).2) ∧
      y.roots = (v.visitAll x.roots t).1 ∧ y.Shown x ∧ y.owner = x.owner := by
  have hmeta : (x.visitMetadata v t).2 = (v.visitAll x.metadata t).2 := rfl
  have hroots : (x.visitMetadata v t).1.metadata = (v.visitAll x.metadata t).1 := rfl
  have hall : v.visitAll x.roots t = _ := v.visitAll_append x.metadata x.usedRegion t
  have hlength : (v.visitAll x.usedRegion (v.visitAll x.metadata t).2).1.length = x.used := by
    rw [Visitor.length_visitAll, length_usedRegion]
  refine ⟨((x.visitMetadata v t).1.visitUsed v (x.visitMetadata v t).2).1, ?_, ?_, ⟨rfl, ?_⟩, rfl⟩
  · show (Except.ok (), (x.visitMetadata v t).1.visitUsed v (x.visitMetadata v t).2) = _
    rw [hall, ← hmeta]
    rfl
  · rw [hall, ← hmeta, ← hroots]
    exact congrArg (_ ++ ·) (usedRegion_setUsedRegion _ _ hlength)
  · have hslots : ((x.visitMetadata v t).1.visitUsed v (x.visitMetadata v t).2).1.slots =
        (v.visitAll x.usedRegion (v.visitAll x.metadata t).2).1.reverse ++ x.slots.drop x.used := rfl
    rw [hslots, List.drop_left' (by rw [List.length_reverse, hlength])]

namespace Heap

variable {h : Heap} {b : BlockId} {d : DomainId} {x : Segment}

/-- **A stack that carries the mark of the domain** is shown, and its mark is cleared. -/
theorem serve_marked (v : Visitor τ) (t : τ) (hx : h.stack? b = some x) (ho : x.owner = some d) :
    ∃ y z, h.scanIfDirty .bytecode v d b t = .ok (true, h.setStack b y, (v.visitAll x.roots t).2) ∧
      (h.setStack b y).clean d b = .ok (true, h.setStack b z) ∧
      z.roots = (v.visitAll x.roots t).1 ∧ z.Shown x ∧ z.owner = none := by
  obtain ⟨y, hscan, hroots, hshown, howner⟩ := Segment.scan_bytecode v x t
  have hy : (h.setStack b y).stack? b = some y := (stack?_setStack hx b).trans (if_pos rfl)
  refine ⟨y, { y with owner := none }, ?_, ?_, hroots, ⟨hshown.used, hshown.rest⟩, rfl⟩
  · simp only [scanIfDirty, scanStack, stack, hx, bind, Except.bind, if_pos ho, hscan]
    rfl
  · simp only [clean, stack, hy, bind, Except.bind, if_pos (howner.trans ho), setStack_setStack]

theorem serve_unmarked (v : Visitor τ) (t : τ) (hx : h.stack? b = some x) (ho : x.owner ≠ some d) :
    h.scanIfDirty .bytecode v d b t = .ok (false, h, t) := by
  simp only [scanIfDirty, stack, hx, bind, Except.bind, if_neg ho]

theorem rootsOf_congr {h' : Heap} (hcell : h'.cell? b = h.cell? b) : h'.rootsOf b = h.rootsOf b := by
  unfold rootsOf stack? get?
  rw [hcell]

theorem rootsOf_of_cell? {g : Generation} (hc : h.cell? b = some ⟨g, .stack x⟩) : h.rootsOf b = x.roots := by
  rw [rootsOf, stack?_of_cell? hc]
  rfl

end Heap

/-! ### A queue -/

/-- **What serving a queue does**: the stacks `l` are those on it that carry the mark of the domain.  Each is shown
once, in the order of the queue, and gets what the visitor stores; its mark is cleared.  Nothing else is different. -/
structure Drains (v : Visitor τ) (queue l : List BlockId) (t t' : τ) (s u : Active) : Prop where
  nodup : l.Nodup
  sublist : l.Sublist queue
  mem : ∀ b, b ∈ l ↔ b ∈ queue ∧ s.world.heap.owner? b = some s.domain.id
  shown : v.visitAll (l.flatMap s.world.heap.rootsOf) t = (l.flatMap u.world.heap.rootsOf, t')
  cleaned : ∀ b ∈ l, ∃ g x y, s.world.heap.cell? b = some ⟨g, .stack x⟩ ∧ u.world.heap.cell? b = some ⟨g, .stack y⟩ ∧
    y.Shown x ∧ y.owner = none
  others : ∀ b ∉ l, u.world.heap.cell? b = s.world.heap.cell? b
  domain : u.domain = s.domain
  heap : u.world.heap = { s.world.heap with cells := u.world.heap.cells }
  world : u.world = { s.world with heap := u.world.heap }

namespace Drains

variable {s u : Active} {queue l : List BlockId} {b : BlockId} {x z : Segment}

theorem nil (v : Visitor τ) (t : τ) (s : Active) : Drains v [] [] t t s s :=
  ⟨.nil, .slnil, by simp, rfl, by simp, fun _ _ => rfl, rfl, rfl, rfl⟩

/-- A block that does not carry the mark of the domain is left out. -/
theorem skip (h : Drains v queue l t t' s u) (hb : s.world.heap.owner? b ≠ some s.domain.id) :
    Drains v (b :: queue) l t t' s u :=
  { h with
    sublist := h.sublist.cons b
    mem := fun c => by
      rw [h.mem, List.mem_cons]
      refine and_congr_left fun ho => ⟨.inr, fun hc => hc.resolve_left ?_⟩
      rintro rfl
      exact hb ho }

/-- **One more stack is shown before the others.**  It is not among them, since its mark is gone by then. -/
theorem cons (hx : s.world.heap.stack? b = some x) (ho : x.owner = some s.domain.id)
    (hroots : z.roots = (v.visitAll x.roots t).1) (hz : z.Shown x) (hclean : z.owner = none)
    (h : Drains v queue l (v.visitAll x.roots t).2 t' (s.put b z) u) : Drains v (b :: queue) (b :: l) t t' s u := by
  obtain ⟨g, hcell⟩ := Heap.cell?_of_stack? hx
  have hput : ∀ c, (s.put b z).world.heap.cell? c = if c = b then some ⟨g, .stack z⟩ else s.world.heap.cell? c :=
    Heap.cell?_setStack hcell
  have hown : s.world.heap.owner? b = some s.domain.id := (Heap.owner?_of_stack? hx).trans ho
  have hgone : (s.put b z).world.heap.owner? b = none := (Heap.owner?_setStack_self hx).trans hclean
  have hb : b ∉ l := fun hb => by
    have := ((h.mem b).1 hb).2
    simp [hgone] at this
  have hother : ∀ {c}, c ≠ b → (s.put b z).world.heap.cell? c = s.world.heap.cell? c := fun hc =>
    (hput _).trans (if_neg hc)
  have hself : u.world.heap.cell? b = some ⟨g, .stack z⟩ := (h.others b hb).trans ((hput b).trans (if_pos rfl))
  refine ⟨List.nodup_cons.2 ⟨hb, h.nodup⟩, h.sublist.cons_cons b, fun c => ?_, ?_, fun c hc => ?_, fun c hc => ?_,
    h.domain, ?_, ?_⟩
  · by_cases hc : c = b
    · subst hc
      simp [hown]
    · have howner : (s.put b z).world.heap.owner? c = s.world.heap.owner? c := Heap.owner?_congr (hother hc)
      rw [List.mem_cons, List.mem_cons, or_iff_right hc, or_iff_right hc, h.mem, howner]
      rfl
  · have hrest : l.flatMap s.world.heap.rootsOf = l.flatMap (s.put b z).world.heap.rootsOf := by
      refine List.flatMap_congr fun c hc => (Heap.rootsOf_congr (hother ?_)).symm
      rintro rfl
      exact hb hc
    rw [List.flatMap_cons, List.flatMap_cons, Heap.rootsOf_of_cell? hcell, Heap.rootsOf_of_cell? hself,
      v.visitAll_append, hrest, h.shown, hroots]
  · rcases List.mem_cons.1 hc with rfl | hc
    · exact ⟨g, x, z, hcell, hself, hz, hclean⟩
    · have hne : c ≠ b := fun he => hb (he ▸ hc)
      obtain ⟨g', x', y, hx', hy⟩ := h.cleaned c hc
      exact ⟨g', x', y, (hother hne).symm.trans hx', hy⟩
  · obtain ⟨hne, hc⟩ := not_or.1 (mt List.mem_cons.2 hc)
    exact (h.others c hc).trans (hother hne)
  · rw [h.heap]
    rfl
  · rw [h.world, Active.put, World.adopt_setStack]

end Drains

namespace Act

/-- **A queue of stacks and of blocks that are gone is served** without a stop, and every stack on it is shown that
carries the mark of the domain. -/
theorem scanQueued_drains (v : Visitor τ) (queue : List BlockId) : ∀ (t : τ) (s : Active),
    s.world.layout = .bytecode → (∀ b ∈ queue, s.world.heap.contains b = true → ∃ x, s.world.heap.stack? b = some x) →
    (scanQueued v queue t).wp s (fun r u => ∃ l, r.1 = l.length ∧ Drains v queue l t r.2 s u) fun _ _ => False := by
  induction queue with
  | nil => exact fun t s _ _ => ⟨[], rfl, .nil v t s⟩
  | cons b queue ih =>
    intro t s hlayout hstacks
    obtain ⟨hb, hqueue⟩ := List.forall_mem_cons.1 hstacks
    -- the block is left out
    have hskip : s.world.heap.owner? b ≠ some s.domain.id → (scanQueued v queue t).wp s
        (fun r u => ∃ l, r.1 = l.length ∧ Drains v (b :: queue) l t r.2 s u) fun _ _ => False := fun ho =>
      wp_of_returns (ih t s hlayout hqueue) fun _ _ ⟨l, hl, h⟩ => ⟨l, hl, h.skip ho⟩
    unfold scanQueued
    simp only [wp_bind, wp_heap]
    split
    · next hlive =>
      obtain ⟨x, hx⟩ := hb hlive
      simp only [wp_bind, wp_domain, wp_layout, hlayout]
      by_cases ho : x.owner = some s.domain.id
      · obtain ⟨y, z, hshow, hclean, hroots, hz, hzclean⟩ := Heap.serve_marked v t hx ho
        have hqueue' : ∀ c ∈ queue, (s.put b z).world.heap.contains c = true →
            ∃ x', (s.put b z).world.heap.stack? c = some x' := fun c hc hlive => by
          obtain ⟨x', hx'⟩ := hqueue c hc (Heap.contains_setStack .. ▸ hlive)
          rw [stack?_put hx]
          split
          · exact ⟨z, rfl⟩
          · exact ⟨x', hx'⟩
        rw [hshow, wp_check_ok]
        simp only [wp_setHeap, if_true, wp_bind]
        rw [hclean, wp_check_ok]
        simp only [wp_pure, World.adopt_setStack]
        refine wp_of_returns (ih _ (s.put b z) hlayout hqueue') ?_
        rintro ⟨n, t'⟩ u ⟨l, rfl, hdrains⟩
        exact ⟨b :: l, rfl, hdrains.cons hx ho hroots hz hzclean⟩
      · rw [Heap.serve_unmarked v t hx ho, wp_check_ok]
        simp only [wp_setHeap, World.adopt_heap]
        exact hskip (by rwa [Heap.owner?_of_stack? hx])
    · next hdead =>
      refine hskip ?_
      rw [Heap.owner?_of_cell?_eq_none (by simpa [Heap.contains] using hdead)]
      simp

end Act

end FiberStacks
