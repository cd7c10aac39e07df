import FiberStacks.Proofs.Barrier.Marks
import FiberStacks.Proofs.Chains.Replicas

/-!
# Resuming, stack by stack

What resuming a captured chain does to each stack: the last one of the chain gets the stack left as its parent, that one
gets its live stack pointer written back, and all others stay.

* `Active.segment?` — a stack as its domain sees it, with the live stack pointer;
* `syncStack_synced`, `saveStack_saved` — the stack pointer written back, and the stack marked;
* `Heap.Hangs` — a chain taken out of its capsule and hung under a stack;
* `resume_eq_switchStack` — resuming is that, and a switch to the head;
* `resume_hung` — **resuming**.
-/

namespace FiberStacks

open FiberStacks.Action

variable {s t u : Active} {r : Registers} {b k p head : BlockId} {x y : Segment} {l : List BlockId}

/-- The segment of a stack as a domain sees it: its live stack pointer is written back. -/
def Active.segment? (a : Active) (b : BlockId) : Option Segment := (Act.syncStack a).2.world.heap.stack? b

namespace Heap

variable {h : Heap}

theorem capsule?_setStack (hx : h.stack? b = some x) (k : BlockId) : (h.setStack b y).capsule? k = h.capsule? k := by
  have ho := get?_of_stack? hx
  unfold capsule? setStack
  rw [get?_set]
  by_cases hk : k = b
  · rw [if_pos hk, hk, ho]
    rfl
  · rw [if_neg hk]

theorem contains_of_stack? (hx : h.stack? b = some x) : h.contains b = true :=
  contains_iff.2 ⟨_, get?_of_stack? hx⟩

theorem contains_of_isChain {head : BlockId} (hl : h.links.IsChain head l) : ∀ b ∈ l, h.contains b = true := by
  intro b hb
  obtain ⟨x, hx⟩ := Option.isSome_iff_exists.1 (isSome_stack?_of_isChain hl b hb)
  exact contains_of_stack? hx

theorem get?_of_capsule? {c : Capsule} (hk : h.capsule? k = some c) : h.get? k = some (.capsule c) := by
  unfold capsule? at hk
  split at hk
  · next ho => rw [ho, Option.some.inj hk]
  · cases hk

theorem ne_of_capsule? {c : Capsule} (hk : h.capsule? k = some c) (hx : h.stack? b = some x) : b ≠ k := by
  rintro rfl
  have hne := (get?_of_stack? hx).symm.trans (get?_of_capsule? hk)
  cases hne

theorem takeHead_of_full (hk : h.capsule? k = some (.full head)) :
    h.takeHead k = .ok (head, h.set k (.capsule .taken)) := by
  rw [takeHead, hk]
  rfl

end Heap

namespace Act

/-! ### Writing the stack pointer back -/

/-- **The live stack pointer is written back**, if the domain runs on a stack. -/
structure Synced (s t : Active) : Prop where
  domain : t.domain = s.domain
  heap : s.domain.registers = none ∧ t.world.heap = s.world.heap ∨ ∃ r x y, s.domain.registers = some r ∧
    s.world.heap.stack? r.current = some x ∧ x.setPointer r.pointer = .ok y ∧
    t.world.heap = s.world.heap.setStack r.current y

theorem syncStack_synced (s : Active) : syncStack.wp s (fun _ t => Synced s t) fun _ _ => True :=
  wp_syncStack_of (fun hr => ⟨rfl, .inl ⟨hr, rfl⟩⟩) (fun r x y hr hx hy => ⟨rfl, .inr ⟨r, x, y, hr, hx, hy, rfl⟩⟩)
    fun _ => trivial

theorem syncStack_segment? (s : Active) :
    syncStack.wp s (fun _ t => ∀ b, t.world.heap.stack? b = s.segment? b) fun _ _ => True :=
  wp_mono (wp_iff_snd.2 fun _ => rfl : syncStack.wp s (fun _ t => ∀ b, t.world.heap.stack? b = s.segment? b)
    fun _ t => ∀ b, t.world.heap.stack? b = s.segment? b) (fun _ _ h => h) fun _ _ _ => trivial

namespace Synced

theorem cell? (h : Synced s t) (hb : s.domain.current? ≠ some b) : t.world.heap.cell? b = s.world.heap.cell? b := by
  rcases h.heap with ⟨-, hheap⟩ | ⟨r, x, y, hr, hx, -, hheap⟩
  · rw [hheap]
  · have hne : b ≠ r.current := by
      rintro rfl
      exact hb (Domain.current?_of_registers hr)
    obtain ⟨g, hc⟩ := Heap.cell?_of_stack? hx
    rw [hheap, Heap.cell?_setStack hc, if_neg hne]

theorem capsule? (h : Synced s t) (k : BlockId) : t.world.heap.capsule? k = s.world.heap.capsule? k := by
  rcases h.heap with ⟨-, hheap⟩ | ⟨r, x, y, -, hx, -, hheap⟩
  · rw [hheap]
  · rw [hheap, Heap.capsule?_setStack hx]

theorem links (h : Synced s t) : t.world.heap.links = s.world.heap.links := by
  rcases h.heap with ⟨-, hheap⟩ | ⟨r, x, y, -, hx, hy, hheap⟩
  · rw [hheap]
  · rw [hheap, Heap.links_setStack hx]
    funext b
    by_cases hb : b = r.current
    · rw [hb, Links.set_self, Heap.links_of_stack? hx, parent?_setPointer hy]
    · rw [Links.set_of_ne hb]

theorem contains (h : Synced s t) (b : BlockId) : t.world.heap.contains b = s.world.heap.contains b := by
  rcases h.heap with ⟨-, hheap⟩ | ⟨r, x, y, -, -, -, hheap⟩
  · rw [hheap]
  · rw [hheap, Heap.contains_setStack]

theorem budgeted (h : Synced s t) (hb : s.world.heap.Budgeted) : t.world.heap.Budgeted := by
  rcases h.heap with ⟨-, hheap⟩ | ⟨r, x, y, -, hx, hy, hheap⟩
  · exact hheap ▸ hb
  · rw [hheap]
    apply hb.setStack hx
    rw [Segment.size, Segment.size, Segment.capacity_setPointer hy]

end Synced

/-! ### Saving the current stack -/

/-- **The current stack is saved**: its stack pointer is written back and it may be marked. -/
structure Saved (s t : Active) (p : BlockId) : Prop where
  registers : t.domain.registers = s.domain.registers
  pointer : ∃ r x y, s.domain.registers = some r ∧ r.current = p ∧ s.world.heap.stack? p = some x ∧
    x.setPointer r.pointer = .ok y ∧ (t.world.heap.stack? p).map Segment.deepCopy = some y.deepCopy
  others : ∀ b, b ≠ p → t.world.heap.cell? b = s.world.heap.cell? b
  budgeted : s.world.heap.Budgeted → t.world.heap.Budgeted

theorem saveStack_saved (s : Active) : saveStack.wp s (fun p t => Saved s t p) fun _ _ => True := by
  unfold saveStack
  simp only [wp_bind, wp_registers]
  refine ⟨fun r hr => ?_, fun _ => trivial⟩
  refine wp_mono (syncStack_synced s) ?_ fun _ _ _ => trivial
  rintro - t ht
  obtain ⟨hnone, -⟩ | ⟨r', x, y, hr', hx, hy, hheap⟩ := ht.heap
  · rw [hr] at hnone
    cases hnone
  · obtain rfl := Option.some.inj (hr.symm.trans hr')
    have hyt : t.world.heap.stack? r.current = some y := by
      rw [hheap, Heap.stack?_setStack hx, if_pos rfl]
    have hcurrent : ∀ b, b ≠ r.current → s.domain.current? ≠ some b := by
      intro b hb hc
      rw [Domain.current?, hr] at hc
      exact hb (Option.some.inj hc).symm
    have hregisters := congrArg Domain.registers ht.domain
    simp only [wp_pure]
    refine wp_markDirty_of ?_ (fun z _ hz _ => ?_) fun _ => trivial
    · refine ⟨hregisters, ⟨r, x, y, hr, rfl, hx, hy, ?_⟩, fun b hb => ht.cell? (hcurrent b hb), ht.budgeted⟩
      rw [hyt]
      rfl
    · -- marking changes nothing but the mark
      obtain rfl := Option.some.inj (hyt.symm.trans hz)
      refine ⟨hregisters, ⟨r, x, y, hr, rfl, hx, hy, ?_⟩, fun b hb => ?_, fun hbud => ?_⟩
      · show ((t.world.heap.setStack r.current _).stack? r.current).map Segment.deepCopy = _
        rw [Heap.stack?_setStack hyt, if_pos rfl]
        rfl
      · obtain ⟨g, hc⟩ := Heap.cell?_of_stack? hyt
        show (t.world.heap.setStack r.current _).cell? b = _
        rw [Heap.cell?_setStack hc, if_neg hb]
        exact ht.cell? (hcurrent b hb)
      · exact (ht.budgeted hbud).setStack hyt rfl

end Act

/-! ### Resuming -/

namespace Heap

variable {h h' : Heap}

/-- **A chain is taken out of its capsule and hung under a stack.** -/
structure Hangs (h : Heap) (k head : BlockId) (l : List BlockId) (p : BlockId) (h' : Heap) : Prop where
  taken : ∃ g, h.cell? k = some ⟨g, .capsule (.full head)⟩ ∧ h'.cell? k = some ⟨g, .capsule .taken⟩
  /-- The last stack has another parent, and all else it had. -/
  hung : ∃ last g z, l.getLast? = some last ∧ h.cell? last = some ⟨g, .stack z⟩ ∧
    h'.cell? last = some ⟨g, .stack (z.setParent (some p))⟩
  others : ∀ b, b ≠ k → l.getLast? ≠ some b → h'.cell? b = h.cell? b
  heap : h' = { h with cells := h'.cells }
  budgeted : h.Budgeted → h'.Budgeted

theorem exists_hangs (hk : h.capsule? k = some (.full head)) (hl : h.links.IsChain head l) (p : BlockId) :
    ∃ h₁ last h₂, h.takeHead k = .ok (head, h₁) ∧ h₁.chain head = .ok l ∧ l.getLast? = some last ∧
      h₁.relink last (some p) = .ok h₂ ∧ h₁.requests = h.requests ∧ h.Hangs k head l p h₂ := by
  have hlast := hl.getLast?_eq_some p
  generalize l.getLastD p = last at hlast
  obtain ⟨z, hz⟩ := Option.isSome_iff_exists.1 (isSome_stack?_of_isChain hl last (List.mem_of_getLast? hlast))
  -- the capsule is spent, and the stacks are as before
  have htaken : ∀ b, (h.set k (.capsule .taken)).stack? b = h.stack? b := stack?_setCapsule hk
  have hlinks : (h.set k (.capsule .taken)).links = h.links := by
    funext b
    rw [links, links, htaken]
  obtain ⟨g, hg⟩ := cell?_of_stack? ((htaken last).trans hz)
  obtain ⟨c, hc, hcapsule⟩ := Option.map_eq_some_iff.1 (get?_of_capsule? hk)
  have hlastk : last ≠ k := ne_of_capsule? hk hz
  have hg' : h.cell? last = some ⟨g, .stack z⟩ := by rwa [cell?_set, if_neg hlastk] at hg
  refine ⟨_, last, _, takeHead_of_full hk, chain_eq_ok_iff.2 (hlinks.symm ▸ hl), hlast,
    relink_of_stack? ((htaken last).trans hz) (some p), rfl, ⟨c.generation, ?_, ?_⟩, ⟨last, g, z, hlast, hg', ?_⟩,
    fun b hbk hbl => ?_, rfl, fun hbudgeted => ?_⟩
  · rw [hc, ← hcapsule]
  · rw [cell?_setStack hg, if_neg hlastk.symm, cell?_set, if_pos rfl, hc]
    rfl
  · rw [cell?_setStack hg, if_pos rfl]
  · have hb : b ≠ last := fun he => hbl (he ▸ hlast)
    rw [cell?_setStack hg, if_neg hb, cell?_set, if_neg hbk]
  · have hspent : (h.set k (.capsule .taken)).Budgeted := hbudgeted.set (get?_of_capsule? hk) rfl
    exact hspent.setStack ((htaken last).trans hz) rfl

theorem Hangs.stack?_of_ne (hh : h.Hangs k head l p h') (hb : l.getLast? ≠ some b) : h'.stack? b = h.stack? b := by
  by_cases hbk : b = k
  · obtain ⟨g, hk, hk'⟩ := hh.taken
    simp [hbk, stack?, get?, hk, hk']
  · exact stack?_congr (hh.others b hbk hb)

end Heap

namespace Act

/-- **Resuming a full capsule** is a switch to the head, once the chain hangs under the current stack. -/
theorem resume_eq_switchStack (hr : s.domain.registers = some r) (hk : s.world.heap.capsule? k = some (.full head))
    (hl : s.world.heap.links.IsChain head l) :
    ∃ h, s.world.heap.Hangs k head l r.current h ∧
      resume k s = switchStack head { s with world := { s.world with heap := h } } := by
  obtain ⟨h₁, last, h₂, htake, hchain, hlast, hrelink, hreq, hhangs⟩ := Heap.exists_hangs hk hl r.current
  refine ⟨h₂, hhangs, ?_⟩
  have hreq₂ : h₂.requests = h₁.requests := by rw [hhangs.heap, hreq]
  have hadopt : (s.world.adopt h₁).adopt h₂ = { s.world with heap := h₂ } := by
    rw [World.adopt_of_requests hreq, World.adopt_of_requests hreq₂]
  unfold resume takeHead registers setHeap modifyWorld
  simp only [bind_apply, heap, domain, view, Action.modify, pure_apply, htake, hr, World.heap_adopt, hchain, check,
    hlast, hrelink, hadopt]

/-- **A captured chain is resumed**: its last stack has the stack left as its parent, and its first one is the current
one. -/
structure Hung (s t : Active) (k : BlockId) (l : List BlockId) (p : BlockId) : Prop where
  previous : ∃ r x y, s.domain.registers = some r ∧ r.current = p ∧ s.world.heap.stack? p = some x ∧
    x.setPointer r.pointer = .ok y ∧ (t.world.heap.stack? p).map Segment.deepCopy = some y.deepCopy
  loaded : ∃ c x, l.head? = some c ∧ t.world.heap.stack? c = some x ∧
    t.domain.registers = some ⟨c, x.used, x.capacity⟩
  last : ∀ c, l.getLast? = some c → ∃ x, s.world.heap.stack? c = some x ∧
    t.world.heap.stack? c = some (x.setParent (some p))
  others : ∀ b, b ≠ k → b ≠ p → l.getLast? ≠ some b → t.world.heap.cell? b = s.world.heap.cell? b
  budgeted : s.world.heap.Budgeted → t.world.heap.Budgeted

theorem resume_hung (hk : s.world.heap.capsule? k = some (.full head))
    (hl : s.world.heap.links.IsChain head l) :
    (resume k).wp s (fun p t => s.domain.current? = some p ∧ (l.getLast? ≠ some p → Hung s t k l p))
      fun _ _ => True := by
  cases hr : s.domain.registers with
  | none =>
    unfold resume takeHead
    simp only [wp_bind, wp_heap, Heap.takeHead_of_full hk, wp_setHeap, wp_pure, wp_registers]
    exact ⟨fun r hr' => absurd (hr.symm.trans hr') (by simp), fun _ => trivial⟩
  | some r =>
    obtain ⟨h, hh, hresume⟩ := resume_eq_switchStack hr hk hl
    rw [wp_congr hresume]
    unfold switchStack guardBlocking
    simp only [wp_bind, wp_domain, wp_require, wp_loadStack, wp_pure]
    refine ⟨fun _ => wp_mono (saveStack_saved _) ?_ fun _ _ _ => trivial, fun _ => trivial⟩
    refine fun p t ht => ⟨fun x hx => ?_, fun _ => trivial⟩
    obtain ⟨r', v, y, hr', rfl, hv, hy, hseen⟩ := ht.pointer
    obtain rfl : r = r' := Option.some.inj (hr.symm.trans hr')
    refine ⟨Domain.current?_of_registers hr, fun hp => ?_⟩
    obtain ⟨last, g, z, hlast, hz, hz'⟩ := hh.hung
    have hv' : s.world.heap.stack? r.current = some v := (hh.stack?_of_ne hp).symm.trans hv
    refine ⟨⟨r, v, y, hr, rfl, hv', hy, hseen⟩, ⟨head, x, hl.head?, hx, rfl⟩, fun c hc => ?_, fun b hbk hbp hbl => ?_,
      fun hb => ht.budgeted (hh.budgeted hb)⟩
    · obtain rfl := Option.some.inj (hlast.symm.trans hc)
      have hne : last ≠ r.current := fun he => hp (he ▸ hlast)
      exact ⟨z, Heap.stack?_of_cell? hz, Heap.stack?_of_cell? ((ht.others last hne).trans hz')⟩
    · exact (ht.others b hbp).trans (hh.others b hbk hbl)

end Act

end FiberStacks
