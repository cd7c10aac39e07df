import FiberStacks.Proofs.Barrier.Marks

/-!
# Leaving a stack

A domain writes to its current stack without telling the collector.  Before it runs on another one it saves the stack:
what it leaves is young, or marked and queued.

* `Elsewhere` — what saving leaves alone, everything but the stack saved;
* `Steady` — what a domain relies on while it acts;
* `Seen` — a stack that may be left;
* `saveStack_seen` — **a stack that was saved may be left**;
* `safeAt_load` — running on another stack changes what is seen of the stack left alone.
-/

namespace FiberStacks

open FiberStacks.Action

variable {others : List Domain} {s t u : Active} {b c : BlockId} {x y : Segment}

/-! ### Changes of one stack -/

/-- **Nothing changed but one stack** and its place in the queue. -/
structure Elsewhere (b : BlockId) (s t : Active) : Prop where
  id : t.domain.id = s.domain.id
  registers : t.domain.registers = s.domain.registers
  generation : ∀ c, t.world.heap.generation? c = s.world.heap.generation? c
  stack : ∀ c, c ≠ b → t.world.heap.stack? c = s.world.heap.stack? c
  queue : ∀ c, c ≠ b → (c ∈ t.domain.remembered.queue ↔ c ∈ s.domain.remembered.queue)

namespace Elsewhere

theorem refl (b : BlockId) (s : Active) : Elsewhere b s s :=
  ⟨rfl, rfl, fun _ => rfl, fun _ _ => rfl, fun _ _ => Iff.rfl⟩

theorem trans (h₁ : Elsewhere b s t) (h₂ : Elsewhere b t u) : Elsewhere b s u where
  id := h₂.id.trans h₁.id
  registers := h₂.registers.trans h₁.registers
  generation c := (h₂.generation c).trans (h₁.generation c)
  stack c hc := (h₂.stack c hc).trans (h₁.stack c hc)
  queue c hc := (h₂.queue c hc).trans (h₁.queue c hc)

theorem current? (h : Elsewhere b s t) : t.domain.current? = s.domain.current? := by
  rw [Domain.current?, h.registers]
  rfl

theorem runOn (h : Elsewhere b s t) (c : BlockId) :
    Heap.RunOn (t.domain :: others) c ↔ Heap.RunOn (s.domain :: others) c :=
  Heap.runOn_acting h.current?

theorem isYoung (h : Elsewhere b s t) (c : BlockId) : t.world.heap.isYoung c = s.world.heap.isYoung c := by
  rw [Heap.isYoung, h.generation]
  rfl

theorem safeAt (h : Elsewhere b s t) (hc : c ≠ b) :
    t.world.heap.SafeAt (t.domain :: others) c ↔ s.world.heap.SafeAt (s.domain :: others) c := by
  rw [Heap.safeAt_congr h.generation (h.stack c hc)]
  simp only [Heap.SafeAt, h.runOn, Heap.queued_cons, h.id, h.queue c hc]

theorem contains (h : Elsewhere b s t) (c : BlockId) : t.world.heap.contains c = s.world.heap.contains c := by
  rw [Heap.contains_eq_isSome, Heap.contains_eq_isSome, h.generation]

theorem closedAt (h : Elsewhere b s t) (hc : c ≠ b) : t.world.heap.ClosedAt c ↔ s.world.heap.ClosedAt c := by
  simp only [Heap.ClosedAt, h.stack c hc, h.contains]

end Elsewhere

/-! ### What is relied on beside the other domains -/

/-- The domain at work dropped nothing from its queue and runs on the same stack. -/
theorem Heap.Safe.acting {h : Heap} {d d' : Domain} (hs : h.Safe (d :: others)) (hid : d'.id = d.id)
    (hqueue : d.remembered.queue ⊆ d'.remembered.queue) (hcur : d'.current? = d.current?) :
    h.Safe (d' :: others) := fun b => (hs b).acting hid (@hqueue b) fun h => hcur.trans h

/-- **No old stack is exposed unseen**, and no stack left alone refers to a freed block. -/
structure Steady (others : List Domain) (s : Active) : Prop where
  freeListed : s.world.heap.FreeListed
  safe : s.world.heap.Safe (s.domain :: others)
  closed : ∀ b, ¬ Heap.RunOn (s.domain :: others) b → s.world.heap.ClosedAt b

namespace Steady

/-- **The current stack is changed.** -/
theorem of_elsewhere (h : Steady others s) (hb : s.domain.current? = some b) (hf : t.world.heap.FreeListed)
    (he : Elsewhere b s t) : Steady others t where
  freeListed := hf
  safe c := by
    by_cases hc : c = b
    · exact .of_runOn ((he.runOn c).2 ⟨_, List.mem_cons_self, hc ▸ hb⟩)
    · exact (he.safeAt hc).2 (h.safe c)
  closed c hc := by
    have hc := fun hr => hc ((he.runOn c).2 hr)
    have hcb : c ≠ b := fun heq => hc ⟨_, List.mem_cons_self, heq ▸ hb⟩
    exact (he.closedAt hcb).2 (h.closed c hc)

/-- **A new block that is no stack.** -/
theorem alloc {o : Object} {path : AllocPath} {h' : Heap} (h : Steady others s) (ho : ∀ x, o ≠ .stack x)
    (ha : s.world.heap.alloc o path = .ok (b, h')) : Steady others { s with world := s.world.adopt h' } where
  freeListed := h.freeListed.alloc ha
  safe c := (h.safe c).alloc h.freeListed (or_iff_not_imp_left.2 (h.closed c)) ha (.inr ho)
  closed c hc := (h.closed c hc).alloc h.freeListed ha (.inr ho)

theorem of_cells {h' : Heap} (h : Steady others s) (hf : h'.FreeListed)
    (hcell : ∀ b, h'.cell? b = s.world.heap.cell? b) : Steady others { s with world := s.world.adopt h' } where
  freeListed := hf
  safe b := (Heap.safeAt_congr (fun c => by rw [World.heap_adopt, Heap.generation?, hcell]; rfl)
    (by rw [World.heap_adopt, Heap.stack?, Heap.get?, hcell]; rfl)).2 (h.safe b)
  closed b hb x hx c hc := by
    simp only [World.heap_adopt, Heap.stack?, Heap.get?, Heap.contains, hcell] at hx ⊢
    exact h.closed b hb x hx c hc

theorem of_alike (h : Steady others s) (ht : Act.Alike s t) : Steady others t := by
  obtain ⟨hheap, -, hid, hreg, hrem, -⟩ := ht
  have hcur : t.domain.current? = s.domain.current? := by rw [Domain.current?, hreg]; rfl
  refine ⟨?_, ?_, fun b hb => ?_⟩ <;> rw [hheap] at *
  · exact h.freeListed
  · exact h.safe.acting hid (hrem ▸ List.Subset.refl _) hcur
  · exact h.closed b fun hr => hb ((Heap.runOn_acting hcur).2 hr)

end Steady

namespace Act

theorem bookkeeping_steady (others : List Domain) : Bookkeeping fun s t => Steady others s → Steady others t where
  trans h h' := h' ∘ h
  of_alike h hs := hs.of_alike h
  alloc ho _ ha hs := hs.alloc ho ha

/-! ### Saving -/

theorem elsewhere_put (y : Segment) : Elsewhere b s { s with world := s.world.adopt (s.world.heap.setStack b y) } :=
  ⟨rfl, rfl, fun c => Heap.generation?_setStack _ b c y, fun _ hc => Heap.stack?_setStack_of_ne hc, fun _ _ => Iff.rfl⟩

theorem syncStack_elsewhere (hb : ∀ c, s.domain.current? = some c → c = b) :
    syncStack.wp s (fun _ t => Elsewhere b s t ∧ t.domain = s.domain) fun e _ => e ≠ .raised := by
  refine wp_syncStack_of (fun _ => ⟨.refl b s, rfl⟩) (fun r x y hr _ _ => ?_) fun _ => by simp
  obtain rfl : r.current = b := hb r.current (Domain.current?_of_registers hr)
  exact ⟨elsewhere_put y, rfl⟩

theorem syncStack_contains :
    syncStack.wp s (fun _ t => t.domain = s.domain ∧ ∀ c, t.world.heap.contains c = s.world.heap.contains c)
      fun e _ => e ≠ .raised := by
  have hcur : ∀ c, s.domain.current? = some c → c = s.domain.current?.getD default := fun c hc => by rw [hc]; rfl
  exact wp_mono (syncStack_elsewhere hcur) (fun _ t ht => ⟨ht.2, ht.1.contains⟩) fun _ _ h => h

theorem syncStack_steady (h : Steady others s) :
    syncStack.wp s (fun _ t => Steady others t) fun e _ => e ≠ .raised := by
  cases hb : s.domain.current? with
  | none =>
    refine wp_syncStack.2 ⟨fun _ => h, fun r hr => ?_⟩
    cases hb.symm.trans (Domain.current?_of_registers hr)
  | some b =>
    refine wp_mono (wp_and (advances_syncStack s) (syncStack_elsewhere (b := b) (by simp [hb]))) ?_ fun _ _ h => h.2
    rintro - t ⟨hadv, he, -⟩
    exact h.of_elsewhere hb (hadv h.freeListed).freeListed he

/-- **A stack that may be left**: it is young, or marked and queued. -/
def Seen (others : List Domain) (s : Active) (b : BlockId) : Prop :=
  s.world.heap.isYoung b = true ∨ s.world.heap.Queued (s.domain :: others) b

/-- **Marking a stack.**  It may be left then, if all own marks are queued. -/
theorem markDirty_elsewhere (others : List Domain) (b : BlockId) : (markDirty b).wp s (fun _ t => Elsewhere b s t ∧
    ((∀ c, s.world.heap.owner? c = some s.domain.id → c ∈ s.domain.remembered.queue) → Seen others t b))
    fun e _ => e ≠ .raised := by
  refine wp_markDirty.2 ⟨fun hyoung => ⟨.refl b s, fun _ => .inl hyoung⟩, fun _ => ⟨fun x hx => ⟨fun _ => ?_,
    fun ho => ⟨.refl b s, fun hown => ?_⟩, fun _ _ _ => by simp⟩, fun _ => by simp⟩⟩
  · -- the mark is new, and so is the place in the queue
    refine ⟨⟨rfl, rfl, fun c => Heap.generation?_setStack _ b c _, fun c hc => Heap.stack?_setStack_of_ne hc,
      fun c hc => ?_⟩, fun _ => .inr ⟨_, List.mem_cons_self, Heap.owner?_setStack_self hx, ?_⟩⟩
    · change c ∈ _ ++ [b] ↔ _
      simp [hc]
    · exact List.mem_append_right _ (List.mem_singleton.2 rfl)
  · have hb : s.world.heap.owner? b = some s.domain.id := (Heap.owner?_of_stack? hx).trans ho
    exact .inr ⟨_, List.mem_cons_self, hb, hown b hb⟩

/-- **Saving the current stack**: no other one changes, and it may be left. -/
theorem saveStack_seen (others : List Domain) (hf : s.world.heap.FreeListed)
    (hown : ∀ c, s.world.heap.owner? c = some s.domain.id → c ∈ s.domain.remembered.queue) :
    saveStack.wp s (fun b t => s.domain.current? = some b ∧ Elsewhere b s t ∧ Seen others t b)
      fun e _ => e ≠ .raised := by
  unfold saveStack
  simp only [wp_bind, wp_registers]
  refine ⟨fun r hr => ?_, fun _ => by simp⟩
  have hcur : s.domain.current? = some r.current := Domain.current?_of_registers hr
  refine wp_mono (wp_and (advances_syncStack s) (syncStack_elsewhere fun c hc => Option.some.inj (hc.symm.trans hcur)))
    ?_ fun _ _ h => h.2
  rintro - t ⟨hadv, ht, hd⟩
  refine wp_mono (markDirty_elsewhere others r.current) ?_ fun _ _ h => h
  rintro - u ⟨hu, hseen⟩
  refine ⟨hcur, ht.trans hu, hseen fun c hc => ?_⟩
  have hmarking := hadv hf
  rcases hmarking.own c (hmarking.id ▸ hc) with hs | ⟨hq, -⟩
  · exact hmarking.queue (hown c hs)
  · exact hq

/-! ### Running on another stack -/

theorem safeAt_load {h : Heap} {d : Domain} {r : Registers} (hc : d.current? ≠ some c) :
    h.SafeAt ({ d with registers := some r } :: others) c ↔ c = r.current ∨ h.SafeAt (d :: others) c := by
  have hrun : Heap.RunOn ({ d with registers := some r } :: others) c ↔ c = r.current ∨ Heap.RunOn (d :: others) c := by
    rw [Heap.runOn_cons, Heap.runOn_cons, or_iff_right hc, eq_comm (a := c)]
    simp [Domain.current?]
  simp only [Heap.SafeAt, hrun, Heap.queued_cons]
  tauto

theorem Seen.safeAt_load {r : Registers} (h : Seen others s b) :
    s.world.heap.SafeAt ({ s.domain with registers := some r } :: others) b := by
  rcases h with hyoung | hq
  · refine .of_not_exposed fun ⟨y, hy, _⟩ => ?_
    simp [Heap.isYoung, Heap.generation?, hy] at hyoung
  · exact .of_queued (hq.acting rfl id)

end Act

end FiberStacks
