import FiberStacks.Proofs.Barrier.Calls
import FiberStacks.Proofs.Chains.MultiShot

/-!
# Captured stacks that grow

A domain goes on working on a stack that a capsule holds or that other stacks have as their parent.  Growth moves it to
a new stack and retires the old one, which capsule and parent links still name.

* `Worked` — what work on the current stack leaves of the heap;
* `StackCall.worked`, `forM_worked` — **what calls on the current stack do**, one of them and one after another;
* `cloneContinuation_head` — what the head of a clone holds;
* `clone_current_iff` — **a capsule over the current stack stays attached to it exactly as long as the stack was not
  replaced**, or holds no words, and so do the parent links.
-/

namespace FiberStacks

open FiberStacks.Action

variable {s t u : Active} {b c k p q new : BlockId} {r : Registers} {x y z : Segment} {saved : List Word} {n m : Nat}

theorem Running.current? (h : Running s r x) : s.domain.current? = some r.current :=
  Domain.current?_of_registers h.registers

theorem Running.contains (h : Running s r x) : s.world.heap.contains r.current = true :=
  Heap.contains_of_stack? h.stack

theorem Heap.ne_of_fresh {h : Heap} (hn : h.contains new = false) (hc : h.contains c = true) : c ≠ new := by
  rintro rfl
  rw [hn] at hc
  cases hc

theorem Heap.words_setStack {h : Heap} (hx : h.stack? b = some x) (hsize : y.size = x.size) (l : List BlockId) :
    (h.setStack b y).words l = h.words l := by
  unfold Heap.words
  congr 1
  refine List.map_congr_left fun c _ => ?_
  rw [Heap.stack?_setStack hx]
  by_cases hc : c = b
  · rw [if_pos hc, hc, hx, Option.map_some, Option.map_some, hsize]
  · rw [if_neg hc]

/-- **What work on the stack `p` leaves**: the domain still runs on it, with its parent, or on a new stack, with the old
one retired; all other blocks are as they were. -/
structure Worked (p : BlockId) (s t : Active) : Prop where
  running : ∃ r x, Running t r x
  budgeted : t.world.heap.Budgeted
  others : ∀ c, s.world.heap.contains c = true → c ≠ p → t.world.heap.cell? c = s.world.heap.cell? c
  current : (t.domain.current? = some p ∧ t.world.heap.links p = s.world.heap.links p) ∨
    ∃ n x, t.domain.current? = some n ∧ s.world.heap.contains n = false ∧
      t.world.heap.stack? p = some (Segment.retire x)

namespace Worked

/-- The stack itself is live. -/
theorem contains (h : Worked p s t) : t.world.heap.contains p = true := by
  rcases h.current with ⟨hcur, -⟩ | ⟨_, _, -, -, hx⟩
  · obtain ⟨r, x, hr⟩ := h.running
    obtain rfl := Option.some.inj (hcur.symm.trans hr.current?)
    exact hr.contains
  · exact Heap.contains_of_stack? hx

theorem contains_of_contains (h : Worked p s t) (hc : s.world.heap.contains c = true) :
    t.world.heap.contains c = true := by
  by_cases hcp : c = p
  · exact hcp ▸ h.contains
  · rw [Heap.contains_congr (h.others c hc hcp), hc]

theorem fresh_of_fresh (h : Worked p s t) (hn : t.world.heap.contains new = false) :
    s.world.heap.contains new = false := by
  refine Bool.eq_false_iff.2 fun hs => ?_
  rw [h.contains_of_contains hs] at hn
  cases hn

theorem trans (h : Worked p s t) (hq : t.domain.current? = some q) (h' : Worked q t u)
    (hp : s.world.heap.contains p = true) : Worked p s u := by
  refine ⟨h'.running, h'.budgeted, fun c hc hcp => ?_, ?_⟩
  · have hcq : c ≠ q := by
      rintro rfl
      rcases h.current with ⟨hcur, -⟩ | ⟨n, _, hcur, hfresh, -⟩
      · exact hcp (Option.some.inj (hq.symm.trans hcur))
      · exact Heap.ne_of_fresh hfresh hc (Option.some.inj (hq.symm.trans hcur))
    exact (h'.others c (h.contains_of_contains hc) hcq).trans (h.others c hc hcp)
  · rcases h.current with ⟨hcur, hlink⟩ | ⟨n, x, hcur, hfresh, hx⟩
    · -- not replaced before
      obtain rfl := Option.some.inj (hq.symm.trans hcur)
      rcases h'.current with ⟨hcur', hlink'⟩ | ⟨m, y, hcur', hfresh', hy⟩
      · exact .inl ⟨hcur', hlink'.trans hlink⟩
      · exact .inr ⟨m, y, hcur', h.fresh_of_fresh hfresh', hy⟩
    · -- replaced before, and retired since
      obtain rfl := Option.some.inj (hq.symm.trans hcur)
      have hpq : p ≠ q := Heap.ne_of_fresh hfresh hp
      have hx' : u.world.heap.stack? p = some x.retire := (Heap.stack?_congr (h'.others p h.contains hpq)).trans hx
      rcases h'.current with ⟨hcur', -⟩ | ⟨m, y, hcur', hfresh', -⟩
      · exact .inr ⟨q, x, hcur', hfresh, hx'⟩
      · exact .inr ⟨m, x, hcur', h.fresh_of_fresh hfresh', hx'⟩

/-- What is beside the stacks does not count. -/
theorem alike (h : Worked p s t) (hu : Act.Alike t u) : Worked p s u := by
  obtain ⟨r, x, hr⟩ := h.running
  have hcur : u.domain.current? = t.domain.current? := by rw [Domain.current?, Domain.current?, hu.registers]
  refine ⟨⟨r, x, hu.registers.trans hr.registers, hu.heap ▸ hr.stack, hr.capacity, hr.used_le⟩, hu.heap ▸ h.budgeted,
    hu.heap ▸ h.others, ?_⟩
  rw [hu.heap, hcur]
  exact h.current

end Worked

/-- **Work that only changes the segment of the stack.** -/
theorem Running.worked (hr : Running s r x) (hr' : Running t ⟨r.current, n, m⟩ y) (hb : t.world.heap.Budgeted)
    (hlink : y.parent? = x.parent?)
    (hothers : ∀ c, c ≠ r.current → t.world.heap.cell? c = s.world.heap.cell? c) : Worked r.current s t :=
  ⟨⟨_, y, hr'⟩, hb, fun c _ hc => hothers c hc, .inl ⟨hr'.current?, by
    rw [Heap.links_of_stack? hr'.stack, Heap.links_of_stack? hr.stack, hlink]⟩⟩

/-- Nothing done. -/
theorem Running.idle (hr : Running s r x) (hb : s.world.heap.Budgeted) : Worked r.current s s :=
  hr.worked (n := r.used) (m := r.capacity) hr hb rfl fun _ _ => rfl

/-- A word written next to the used ones, and the live stack pointer moved over it. -/
theorem Running.written {w : Word} (hr : Running s r x) (hb : s.world.heap.Budgeted)
    (hset : x.setWord ({ r with used := r.used + 1 } : Registers).pointer w = .ok y) :
    Worked r.current s
      ⟨{ s.domain with registers := some { r with used := r.used + 1 } },
        s.world.adopt (s.world.heap.setStack r.current y)⟩ := by
  have hcap := Segment.capacity_setWord hset
  have hroom : r.used + 1 ≤ x.capacity := by
    have hin := (Segment.inside_of_setWord hset).2
    simp only [Registers.pointer, Int.natAbs_neg, Int.natAbs_natCast] at hin
    exact hin
  obtain ⟨k, rfl⟩ := Segment.setWord_eq_ok hset
  obtain ⟨g, hg⟩ := Heap.cell?_of_stack? hr.stack
  refine hr.worked (y := x.setSlot k w) ⟨rfl, ?_, hr.capacity.trans hcap.symm, hcap ▸ hroom⟩ (hb.setStack hr.stack ?_)
    rfl fun c hc => ?_
  · rw [World.heap_adopt, Heap.stack?_setStack hr.stack, if_pos rfl]
  · rw [Segment.size, Segment.size, hcap]
  · rw [World.heap_adopt, Heap.cell?_setStack hg, if_neg hc]

namespace Act

/-! ### Growing -/

theorem Saved.worked (ht : Saved s t p) (hr : Running s r x) (hb : s.world.heap.Budgeted) :
    p = r.current ∧ Worked r.current s t := by
  obtain ⟨r', x', y, hr', rfl, hx', hy, hseen⟩ := ht.pointer
  obtain rfl := Option.some.inj (hr'.symm.trans hr.registers)
  obtain rfl := Option.some.inj (hx'.symm.trans hr.stack)
  obtain ⟨z, hz, hzy⟩ := Option.map_eq_some_iff.1 hseen
  have hcap : z.capacity = x'.capacity := by
    rw [← Segment.capacity_setPointer hy]
    show z.deepCopy.capacity = y.deepCopy.capacity
    rw [hzy]
  have hlink : z.parent? = x'.parent? := by
    rw [← parent?_setPointer hy]
    show z.deepCopy.parent? = y.deepCopy.parent?
    rw [hzy]
  refine ⟨rfl, hr.worked (y := z) ⟨ht.registers.trans hr', hz, hr.capacity.trans hcap.symm, ?_⟩
    (ht.budgeted hb) hlink ht.others⟩
  exact hcap ▸ hr.used_le

/-- **A new stack is there**, and the old one is still the current one. -/
structure Prepared (p new : BlockId) (s u : Active) : Prop where
  budgeted : u.world.heap.Budgeted
  fresh : s.world.heap.contains new = false
  others : ∀ c, s.world.heap.contains c = true → c ≠ p → u.world.heap.cell? c = s.world.heap.cell? c

theorem prepared_of_alloc {h : Heap} (ht : Worked p s t) (ha : t.world.heap.alloc (.stack y) .normal = .ok (new, h))
    (hu : Alike { t with world := t.world.adopt h } u) : Prepared p new s u := by
  have hfits : t.world.heap.Fits (.stack y) := .inl (Nat.succ_pos _)
  obtain ⟨hnew, hcell⟩ := ht.budgeted.balanced.alloc_cell? hfits ha
  have hheap : u.world.heap = h := hu.heap
  have hfresh : ∀ c, s.world.heap.contains c = true → c ≠ new := by
    rintro c hc rfl
    have hlive := ht.contains_of_contains hc
    rw [Heap.contains, hnew] at hlive
    cases hlive
  refine ⟨hheap ▸ ht.budgeted.alloc hfits ha, Bool.eq_false_iff.2 fun hc => hfresh new hc rfl, fun c hc hcp => ?_⟩
  rw [hheap, hcell, if_neg (hfresh c hc)]
  exact ht.others c hc hcp

/-- Marking the new stack changes no other. -/
theorem Prepared.markDirty (hu : Prepared p new s u) :
    (Act.markDirty new).wp u (fun _ v => Prepared p new s v) fun _ _ => True := by
  refine wp_markDirty_of hu (fun x _ hx _ => ?_) fun _ => trivial
  obtain ⟨g, hg⟩ := Heap.cell?_of_stack? hx
  refine ⟨hu.budgeted.setStack hx rfl, hu.fresh, fun c hc hcp => ?_⟩
  have hcn : c ≠ new := Heap.ne_of_fresh hu.fresh hc
  show (u.world.heap.setStack new _).cell? c = _
  rw [Heap.cell?_setStack hg, if_neg hcn]
  exact hu.others c hc hcp

/-- **The domain runs on the new stack, and the old one is retired.** -/
theorem Prepared.moveTo (hu : Prepared p new s u) (hp : s.world.heap.contains p = true) :
    (Act.moveTo p new saved).wp u (fun _ t => Worked p s t) fun _ _ => True := by
  have hne : new ≠ p := (Heap.ne_of_fresh hu.fresh hp).symm
  refine wp_moveTo.2 ⟨fun y hy => ⟨fun x hx => ?_, fun _ => trivial⟩, fun _ => trivial⟩
  obtain ⟨g, hg⟩ := Heap.cell?_of_stack? hx
  refine ⟨⟨⟨new, y.used, y.capacity⟩, y, rfl, ?_, rfl, y.used_le⟩, hu.budgeted.setStack hx rfl, fun c hc hcp => ?_,
    .inr ⟨new, x, rfl, hu.fresh, ?_⟩⟩
  · show (u.world.heap.setStack p _).stack? new = _
    rw [Heap.stack?_setStack hx, if_neg hne, hy]
  · show (u.world.heap.setStack p _).cell? c = _
    rw [Heap.cell?_setStack hg, if_neg hcp]
    exact hu.others c hc hcp
  · show (u.world.heap.setStack p _).stack? p = _
    rw [Heap.stack?_setStack hx, if_pos rfl]

theorem tryGrow_worked (required : Nat) (saved : List Word) (hr : Running s r x) (hb : s.world.heap.Budgeted) :
    (tryGrow required saved).wp s (fun _ t => Worked r.current s t) fun _ _ => True := by
  refine wp_tryGrow (fun _ _ => trivial) (wp_mono (saveStack_saved s) ?_ fun _ _ _ => trivial)
  intro p t ht
  obtain ⟨rfl, hw⟩ := ht.worked hr hb
  refine ⟨fun _ _ _ _ => trivial, fun _ u hu => hw.alike hu, fun x y new h u _ _ _ _ ha hu => ?_,
    fun x y new h u _ _ _ _ ha hu => ?_, fun _ _ _ _ _ _ _ _ _ _ _ _ => trivial⟩
  · exact (prepared_of_alloc hw ha hu).moveTo hr.contains
  · exact wp_bind_of (prepared_of_alloc hw ha hu).markDirty (fun _ _ hv => hv.moveTo hr.contains) fun _ _ _ => trivial

theorem grow_worked (required : Nat) (saved : List Word) (hr : Running s r x) (hb : s.world.heap.Budgeted) :
    (grow required saved).wp s (fun _ t => Worked r.current s t) fun _ _ => True := by
  unfold grow
  refine wp_bind_of (tryGrow_worked required saved hr hb) ?_ fun _ _ _ => trivial
  rintro ⟨e | b, saved⟩ t ht
  · exact wp_bind_of (raiseFailure_keepsLinks e) (fun _ _ hf => hf.elim) fun _ _ _ => trivial
  · exact ht

theorem ensure_worked (required : Nat) (hr : Running s r x) (hb : s.world.heap.Budgeted) :
    (ensure required).wp s (fun _ t => Worked r.current s t) fun _ _ => True := by
  unfold ensure
  simp only [wp_bind, wp_domain]
  split
  · exact wp_bind_of (grow_worked required [] hr hb) (fun _ _ ht => ht) fun _ _ _ => trivial
  · exact hr.idle hb

/-! ### The words of the stack -/

/-- **A push** works on the stack, which it may have replaced. -/
theorem push_worked (w : Word) (hr : Running s r x) (hb : s.world.heap.Budgeted) :
    (push w).wp s (fun _ t => Worked r.current s t) fun _ _ => True := by
  unfold push guardBlocking
  simp only [wp_bind, wp_domain, wp_require]
  refine ⟨fun _ => wp_mono (ensure_worked 1 hr hb) ?_ fun _ _ _ => trivial, fun _ => trivial⟩
  rintro - t ht
  obtain ⟨r', y, hr'⟩ := ht.running
  simp only [wp_registers, wp_stack, wp_check, wp_setStack, wp_modifyDomain]
  refine ⟨fun q hq => ⟨fun z hz => ⟨fun z' hz' => ?_, fun _ _ => trivial⟩, fun _ => trivial⟩, fun _ => trivial⟩
  obtain rfl := Option.some.inj (hr'.registers.symm.trans hq)
  obtain rfl := Option.some.inj (hr'.stack.symm.trans hz)
  exact ht.trans hr'.current? (hr'.written ht.budgeted hz') hr.contains

theorem pop_worked (hr : Running s r x) (hb : s.world.heap.Budgeted) :
    pop.wp s (fun _ t => Worked r.current s t) fun _ _ => True := by
  unfold pop guardBlocking
  simp only [wp_bind, wp_domain, wp_require, hr.registers]
  refine ⟨fun _ => ?_, fun _ => trivial⟩
  split
  · exact hr.idle hb
  · simp only [wp_bind, wp_stack, wp_modifyDomain, wp_pure]
    refine ⟨fun y hy => ?_, fun _ => trivial⟩
    have hle : r.used - 1 ≤ x.capacity := Nat.le_trans (Nat.sub_le _ _) hr.used_le
    exact hr.worked (y := x) ⟨rfl, hr.stack, hr.capacity, hle⟩ hb rfl fun _ _ => rfl

/-! ### Saving and loading -/

theorem saveStack_worked (hr : Running s r x) (hb : s.world.heap.Budgeted) :
    saveStack.wp s (fun _ t => Worked r.current s t) fun _ _ => True :=
  wp_mono (saveStack_saved s) (fun _ _ ht => (ht.worked hr hb).2) fun _ _ _ => trivial

theorem syncStack_worked (hr : Running s r x) (hb : s.world.heap.Budgeted) :
    syncStack.wp s (fun _ t => Worked r.current s t) fun _ _ => True := by
  refine wp_mono (syncStack_put hr) ?_ fun _ _ _ => trivial
  rintro - _ rfl
  obtain ⟨g, hg⟩ := Heap.cell?_of_stack? hr.stack
  refine hr.worked (y := { x with used := r.used, used_le := hr.used_le })
    ⟨hr.registers, ?_, hr.capacity, hr.used_le⟩ (hb.setStack hr.stack rfl) rfl fun c hc => ?_
  · rw [stack?_put hr.stack, if_pos rfl]
  · exact (Heap.cell?_setStack hg c).trans (if_neg hc)

theorem restoreStack_worked (hr : Running s r x) (hb : s.world.heap.Budgeted) :
    restoreStack.wp s (fun _ t => Worked r.current s t) fun _ _ => True := by
  unfold restoreStack
  simp only [wp_bind, wp_registers, wp_loadStack]
  refine ⟨fun q hq => ⟨fun y hy => ?_, fun _ => trivial⟩, fun _ => trivial⟩
  obtain rfl := Option.some.inj (hr.registers.symm.trans hq)
  obtain rfl := Option.some.inj (hr.stack.symm.trans hy)
  exact hr.worked (y := x) ⟨rfl, hr.stack, rfl, x.used_le⟩ hb rfl fun _ _ => rfl

end Act

namespace StackCall

/-- The domain stays on its stack, or moves to the one that replaces it. -/
def Stays : StackCall → Prop
  | switch _ => False
  | _ => True

/-- **A call on the current stack.** -/
theorem worked {e : StackCall} (he : e.Stays) (hr : Running s r x) (hb : s.world.heap.Budgeted) :
    e.act.wp s (fun _ t => Worked r.current s t) fun _ _ => True := by
  have discard : ∀ {α : Type} {a : Act α}, a.wp s (fun _ t => Worked r.current s t) (fun _ _ => True) →
      (do let _ ← a : Act Unit).wp s (fun _ t => Worked r.current s t) fun _ _ => True := fun ha =>
    wp_bind_of ha (fun _ _ ht => ht) fun _ _ _ => trivial
  cases e with
  | push w => exact Act.push_worked w hr hb
  | pop => exact discard (Act.pop_worked hr hb)
  | ensure required => exact Act.ensure_worked required hr hb
  | grow required saved => exact discard (Act.grow_worked required saved hr hb)
  | maybeExpand registers =>
    refine discard ?_
    unfold Act.maybeExpand
    simp only [wp_bind, Act.wp_domain, Act.wp_config, Act.wp_check_double]
    refine ⟨fun _ => ?_, fun _ => trivial⟩
    split
    · exact wp_bind_of (Act.grow_worked 0 registers hr hb) (fun _ _ ht => ht) fun _ _ _ => trivial
    · exact hr.idle hb
  | save => exact discard (Act.saveStack_worked hr hb)
  | sync => exact Act.syncStack_worked hr hb
  | saveForCollection =>
    simp only [act, Act.saveForCollection, wp_bind, Act.wp_domain, Act.wp_require, Act.wp_modifyDomain]
    refine ⟨fun _ => wp_mono (Act.saveStack_worked hr hb) ?_ fun _ _ _ => trivial, fun _ => trivial⟩
    exact fun _ _ ht => ht.alike (Act.alike_of_eq rfl rfl rfl rfl rfl rfl)
  | restoreForCollection =>
    simp only [act, Act.restoreForCollection, wp_bind, Act.wp_domain]
    split
    · simp only [wp_bind, Act.wp_modifyDomain]
      refine wp_mono (Act.restoreStack_worked hr hb) ?_ fun _ _ _ => trivial
      exact fun _ _ ht => ht.alike (Act.alike_of_eq rfl rfl rfl rfl rfl rfl)
    · exact (hr.idle hb).alike (Act.alike_of_eq rfl rfl rfl rfl rfl rfl)
  | switch target => exact he.elim

/-- **Calls on the current stack, one after another.** -/
theorem forM_worked {es : List StackCall} (he : ∀ e ∈ es, e.Stays) (hr : Running s r x) (hb : s.world.heap.Budgeted) :
    (es.forM act : Act Unit).wp s (fun _ t => Worked r.current s t) fun _ _ => True := by
  induction es generalizing s r x with
  | nil => exact hr.idle hb
  | cons e es ih =>
    show (e.act >>= fun _ => es.forM act).wp _ _ _
    refine wp_bind_of (worked (he e List.mem_cons_self) hr hb) ?_ fun _ _ _ => trivial
    rintro - t ht
    obtain ⟨r', y, hr'⟩ := ht.running
    refine wp_mono (ih (fun e hmem => he e (List.mem_cons_of_mem _ hmem)) hr' ht.budgeted) ?_ fun _ _ _ => trivial
    exact fun _ _ hu => ht.trans hr'.current? hu hr.contains

end StackCall

namespace Act

/-! ### Clones of the stack -/

/-- **The head of a clone** holds what the head of the captured chain holds, as the domain sees it. -/
theorem cloneContinuation_head (hb : s.world.heap.Budgeted) (hk : s.world.heap.capsule? k = some (.full b)) :
    (cloneContinuation k).wp s (fun k' u => ∃ c y z, u.world.heap.capsule? k' = some (.full c) ∧
      u.world.heap.stack? c = some y ∧ s.segment? b = some z ∧ y.usedRegion = z.usedRegion) fun _ _ => True := by
  unfold cloneContinuation
  refine wp_bind_of (wp_and (syncStack_synced s) (syncStack_segment? s)) ?_ fun _ _ _ => trivial
  rintro - t ⟨ht, hseen⟩
  simp only [wp_bind, wp_heap, wp_check, wp_setHeap]
  refine ⟨?_, fun _ _ => trivial⟩
  rintro ⟨e | k', h⟩ hr
  · exact wp_mono (raiseFailure_keepsLinks e) (fun _ _ hf => hf.elim) fun _ _ _ => trivial
  · obtain ⟨head, l, copies, h₁, hk', hl, hc, -⟩ := Heap.cloneChain_clone (ht.budgeted hb) hr
    obtain rfl : b = head := Capsule.full.inj (Option.some.inj (hk.symm.trans ((ht.capsule? k).symm.trans hk')))
    obtain ⟨c, hcopy, hfull⟩ := hc.capsule?_clone
    have hhead : l[0]? = some b := by rw [← List.head?_eq_getElem?, hl.head?]
    obtain ⟨z, c', hz, hc', hstack, -⟩ := hc.stack?_copy hhead
    rw [← List.head?_eq_getElem?, hcopy] at hc'
    obtain rfl := Option.some.inj hc'
    obtain ⟨hslots, hused, -⟩ := z.copyTo_fields copies[1]?
    refine ⟨c, _, z, hfull, hstack, (hseen b).symm.trans hz, ?_⟩
    rw [Segment.usedRegion, Segment.usedRegion, hslots, hused]

/-- **There is a clone if there is room for it.** -/
theorem cloneContinuation_returns {l : List BlockId} (hr : Running s r x) (hb : s.world.heap.Budgeted)
    (hk : s.world.heap.capsule? k = some (.full b)) (hl : s.world.heap.chain b = .ok l)
    (hroom : s.world.heap.words l + Capsule.size ≤ s.world.heap.available) :
    ∃ k' u, cloneContinuation k s = (.ok k', u) := by
  obtain ⟨_, t, hsync, ht⟩ := exists_of_wp (syncStack_put hr)
  have hsynced : Synced s t := (wp_of_ok hsync).1 (syncStack_synced s)
  have hheap : t.world.heap = s.world.heap.setStack r.current _ := congrArg (fun a => a.world.heap) ht
  have hwords : t.world.heap.words l = s.world.heap.words l := by
    rw [hheap]
    refine Heap.words_setStack hr.stack ?_ l
    rfl
  have havailable : t.world.heap.available = s.world.heap.available := by
    rw [hheap]
    rfl
  have hchain : t.world.heap.links.IsChain b l := hsynced.links.symm ▸ Heap.chain_eq_ok_iff.1 hl
  obtain ⟨k', h', _, _, hclone, -⟩ | ⟨_, -, hless, -⟩ :=
    Heap.cloneChain_paid (hsynced.budgeted hb) ((hsynced.capsule? k).trans hk) hchain
  case inr =>
    rw [hwords, havailable] at hless
    omega
  have hreturns : (cloneContinuation k).wp s (fun _ _ => True) fun _ _ => False := by
    unfold cloneContinuation
    rw [wp_bind, wp_of_ok hsync]
    simp only [wp_bind, wp_heap, hclone, wp_check_ok, wp_setHeap]
    exact trivial
  obtain ⟨k', u, hrun, -⟩ := exists_of_wp hreturns
  exact ⟨k', u, hrun⟩

end Act

theorem Running.segment?_current (hr : Running s r x) :
    s.segment? r.current = some { x with used := r.used, used_le := hr.used_le } := by
  obtain ⟨_, t, hrun, rfl⟩ := exists_of_wp (Act.syncStack_put hr)
  rw [Active.segment?, hrun, stack?_put hr.stack, if_pos rfl]

theorem Running.segment?_of_ne (hr : Running s r x) (hb : b ≠ r.current) : s.segment? b = s.world.heap.stack? b := by
  obtain ⟨_, t, hrun, rfl⟩ := exists_of_wp (Act.syncStack_put hr)
  rw [Active.segment?, hrun, stack?_put hr.stack, if_neg hb]

/-- **What the domain sees of the stack** that it worked on: the words of its current stack, exactly if it was not
replaced or there are none. -/
theorem Worked.usedRegion_iff (h : Worked p s t) (hp : s.world.heap.contains p = true) :
    ∃ n z y, t.domain.current? = some n ∧ t.segment? n = some z ∧ t.segment? p = some y ∧
      (y.usedRegion = z.usedRegion ↔ n = p ∨ z.usedRegion = []) := by
  obtain ⟨r, x, hr⟩ := h.running
  rcases h.current with ⟨hcur, -⟩ | ⟨n, y, hcur, hfresh, hy⟩
  · obtain rfl := Option.some.inj (hcur.symm.trans hr.current?)
    exact ⟨_, _, _, hcur, hr.segment?_current, hr.segment?_current, iff_of_true rfl (.inl rfl)⟩
  · obtain rfl := Option.some.inj (hcur.symm.trans hr.current?)
    have hne : p ≠ r.current := Heap.ne_of_fresh hfresh hp
    have hnil : y.retire.usedRegion = [] := rfl
    refine ⟨_, _, _, hcur, hr.segment?_current, (hr.segment?_of_ne hne).trans hy, ?_⟩
    rw [hnil]
    exact ⟨fun he => .inr he.symm, fun he => (he.resolve_left hne.symm).symm⟩

/-- **A capsule over the current stack stays attached to it exactly as long as it is not replaced**, or holds no words.
After calls on the current stack the capsule is still full of the block it was filled with, and a clone of it, which
there is if there is room, starts with the words of the current stack only then.  In the same way parent links name the
block they named, which holds the words of the current stack only then. -/
theorem clone_current_iff {es : List StackCall} (hr : Running s r x) (hb : s.world.heap.Budgeted)
    (hk : s.world.heap.capsule? k = some (.full r.current)) (he : ∀ e ∈ es, e.Stays)
    (hrun : es.forM StackCall.act s = (.ok (), t)) :
    ∃ n z y, t.domain.current? = some n ∧ t.segment? n = some z ∧ t.segment? r.current = some y ∧
      t.world.heap.capsule? k = some (.full r.current) ∧
      (∀ k' u, Act.cloneContinuation k t = (.ok k', u) → ∃ c w, u.world.heap.capsule? k' = some (.full c) ∧
        u.world.heap.stack? c = some w ∧ (w.usedRegion = z.usedRegion ↔ n = r.current ∨ z.usedRegion = [])) ∧
      (∀ l, t.world.heap.chain r.current = .ok l → t.world.heap.words l + Capsule.size ≤ t.world.heap.available →
        ∃ k' u, Act.cloneContinuation k t = (.ok k', u)) ∧
      ∀ c, c ≠ r.current → s.world.heap.links c = some (some r.current) →
        t.world.heap.links c = some (some r.current) ∧
          (y.usedRegion = z.usedRegion ↔ n = r.current ∨ z.usedRegion = []) := by
  have hw : Worked r.current s t := (wp_of_ok hrun).1 (StackCall.forM_worked he hr hb)
  obtain ⟨n, z, y, hcur, hz, hy, hiff⟩ := hw.usedRegion_iff hr.contains
  obtain ⟨r', x', hr'⟩ := hw.running
  have hcapsule : t.world.heap.capsule? k = some (.full r.current) := by
    have hcell := hw.others k (Heap.contains_iff.2 ⟨_, Heap.get?_of_capsule? hk⟩) (Heap.ne_of_capsule? hk hr.stack).symm
    rw [← hk, Heap.capsule?, Heap.capsule?, Heap.get?, Heap.get?, hcell]
  refine ⟨n, z, y, hcur, hz, hy, hcapsule, fun k' u hclone => ?_, fun l hl hroom => ?_, fun c hc hlink => ⟨?_, hiff⟩⟩
  · obtain ⟨c, w, y', hfull, hw', hy', hsame⟩ := (wp_of_ok hclone).1 (Act.cloneContinuation_head hw.budgeted hcapsule)
    obtain rfl := Option.some.inj (hy.symm.trans hy')
    exact ⟨c, w, hfull, hw', hsame ▸ hiff⟩
  · exact Act.cloneContinuation_returns hr' hw.budgeted hcapsule hl hroom
  · obtain ⟨v, hv, -⟩ := Heap.stack?_of_links hlink
    rw [Heap.links_congr (hw.others c (Heap.contains_of_stack? hv) hc), hlink]

/-- Two words more than are on the current stack. -/
def twoPushes : List StackCall := [.push (.ofInt 7), .push (.ofInt 8)]

/-- The domain runs on the captured stack, which has room for one word. -/
def onGrown : Active := (twoPushes.forM StackCall.act Act.onPair).2

theorem onGrown_spec :
    Running Act.onPair ⟨.ofIndex 1, 0, 1⟩ ((Segment.blank 1 .zero).setParent (some (.ofIndex 0))) ∧
      Act.onPair.world.heap.Budgeted ∧ Act.onPair.world.heap.capsule? (.ofIndex 2) = some (.full (.ofIndex 1)) ∧
      (∀ e ∈ twoPushes, e.Stays) ∧ twoPushes.forM StackCall.act Act.onPair = (.ok (), onGrown) ∧
      onGrown.domain.current? = some (.ofIndex 3) ∧
      (onGrown.segment? (.ofIndex 3)).map Segment.usedRegion = some [.ofInt 8, .ofInt 7] :=
  ⟨⟨rfl, by decide, rfl, Nat.zero_le _⟩, Heap.budgeted_capturedPair (by decide), by decide,
    by simp [twoPushes, StackCall.Stays], Prod.ext (by decide +kernel) rfl, by decide +kernel, by decide +kernel⟩

/-- **A stack replaced**: a clone of the capsule over it starts without words. -/
theorem clone_current_iff_replaced :
    ∃ k' u c w z, twoPushes.forM StackCall.act Act.onPair = (.ok (), onGrown) ∧
      onGrown.domain.current? = some (.ofIndex 3) ∧ onGrown.segment? (.ofIndex 3) = some z ∧
      z.usedRegion = [.ofInt 8, .ofInt 7] ∧ Act.cloneContinuation (.ofIndex 2) onGrown = (.ok k', u) ∧
      u.world.heap.capsule? k' = some (.full c) ∧ u.world.heap.stack? c = some w ∧ w.usedRegion ≠ z.usedRegion := by
  obtain ⟨hr, hb, hk, he, hrun, hcur, hwords⟩ := onGrown_spec
  obtain ⟨n, z, y, hn, hz, -, -, hclone, hreturns, -⟩ := clone_current_iff hr hb hk he hrun
  obtain rfl := Option.some.inj (hcur.symm.trans hn)
  obtain ⟨k', u, hku⟩ := hreturns [.ofIndex 1] (by decide +kernel) (by decide +kernel)
  obtain ⟨c, w, hfull, hw, hiff⟩ := hclone k' u hku
  rw [hz] at hwords
  have hz' : z.usedRegion = [.ofInt 8, .ofInt 7] := Option.some.inj hwords
  refine ⟨k', u, c, w, z, hrun, hcur, hz, hz', hku, hfull, hw, fun hsame => ?_⟩
  rcases hiff.1 hsame with hkept | hnil
  · revert hkept
    decide
  · rw [hz'] at hnil
    cases hnil

/-- The domain runs on the parent of the captured stack, which has room for one word. -/
def underPair : Active := { Act.onPair with domain.registers := some ⟨.ofIndex 0, 0, 1⟩ }

def underGrown : Active := (twoPushes.forM StackCall.act underPair).2

/-- **Growth detaches the captured stack**: a clone can start with other words than are on the current stack, and a
parent link of another stack can name one with other words. -/
theorem not_clone_current :
    (¬ ∀ (s t u : Active) (r : Registers) (x w z : Segment) (k k' c n : BlockId) (es : List StackCall),
      Running s r x → s.world.heap.Budgeted → s.world.heap.capsule? k = some (.full r.current) →
      (∀ e ∈ es, e.Stays) → es.forM StackCall.act s = (.ok (), t) → t.domain.current? = some n →
      t.segment? n = some z → Act.cloneContinuation k t = (.ok k', u) → u.world.heap.capsule? k' = some (.full c) →
      u.world.heap.stack? c = some w → w.usedRegion = z.usedRegion) ∧
    ¬ ∀ (s t : Active) (r : Registers) (x z : Segment) (c n : BlockId) (es : List StackCall),
      Running s r x → s.world.heap.Budgeted → c ≠ r.current → s.world.heap.links c = some (some r.current) →
      (∀ e ∈ es, e.Stays) → es.forM StackCall.act s = (.ok (), t) → t.domain.current? = some n →
      t.segment? n = some z →
      ∃ p y, t.world.heap.links c = some (some p) ∧ t.segment? p = some y ∧ y.usedRegion = z.usedRegion := by
  obtain ⟨hr, hb, hk, he, hrun, hcur, hwords⟩ := onGrown_spec
  constructor
  · intro h
    obtain ⟨z, hz, hz'⟩ := Option.map_eq_some_iff.1 hwords
    have hclone : Act.cloneContinuation (.ofIndex 2) onGrown =
        (.ok (.ofIndex 5), (Act.cloneContinuation (.ofIndex 2) onGrown).2) := Prod.ext (by decide +kernel) rfl
    have hempty : ((Act.cloneContinuation (.ofIndex 2) onGrown).2.world.heap.stack? (.ofIndex 4)).map
        Segment.usedRegion = some [] := by decide +kernel
    obtain ⟨w, hw, hw'⟩ := Option.map_eq_some_iff.1 hempty
    have hsame := h _ _ _ _ _ w z _ _ (.ofIndex 4) _ _ hr hb hk he hrun hcur hz hclone (by decide +kernel) hw
    rw [hz', hw'] at hsame
    cases hsame
  · intro h
    have hr' : Running underPair ⟨.ofIndex 0, 0, 1⟩ (.blank 1 .zero) := ⟨rfl, by decide, rfl, Nat.zero_le _⟩
    have hrun' : twoPushes.forM StackCall.act underPair = (.ok (), underGrown) := Prod.ext (by decide +kernel) rfl
    have hwords' : (underGrown.segment? (.ofIndex 3)).map Segment.usedRegion = some [.ofInt 8, .ofInt 7] := by
      decide +kernel
    have hlink : underGrown.world.heap.links (.ofIndex 1) = some (some (.ofIndex 0)) := by decide +kernel
    have hempty : (underGrown.segment? (.ofIndex 0)).map Segment.usedRegion = some [] := by decide +kernel
    obtain ⟨z, hz, hz'⟩ := Option.map_eq_some_iff.1 hwords'
    obtain ⟨p, y, hp, hy, hsame⟩ := h underPair underGrown _ _ z (.ofIndex 1) (.ofIndex 3) _ hr' hb (by decide)
      (by decide) he hrun' (by decide +kernel) hz
    obtain rfl := Option.some.inj (Option.some.inj (hlink.symm.trans hp))
    rw [hy, Option.map_some, hsame, hz'] at hempty
    cases hempty

end FiberStacks
