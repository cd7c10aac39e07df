import FiberStacks.Proofs.Lists.Owned

/-!
# Saving and switching

Saving writes the live stack pointer back and may mark the segment, loading reads the pointer of the segment: neither
changes the words of a fiber, and neither fails on the fibers of a domain.

* `saveStack_spec` — the segment of the current fiber counts afterwards;
* `loadStack_spec` — another fiber is the current one;
* `switchStack_spec`, `collect_spec` — a switch, and a save and restore around a collection.
-/

namespace FiberStacks

open FiberStacks.Action

variable {f : List BlockId} {n : Nat} {a t : Active} {b : BlockId} {r : Registers} {x : Segment}

/-- The segment of the current stack counts: its pointer is the live one. -/
structure Saved (a : Active) (r : Registers) (x : Segment) : Prop extends Running a r x where
  used_eq : x.used = r.used

namespace Act

theorem wp_stack_of {Q : Segment → Active → Prop} {E : Stop → Active → Prop} (hx : a.world.heap.stack? b = some x)
    (hQ : Q x a) : (stack b).wp a Q E := by
  unfold stack
  simp only [wp_bind, wp_heap, Heap.stack, hx, wp_check_ok]
  exact hQ

theorem wp_loadStack_of {Q : Unit → Active → Prop} {E : Stop → Active → Prop} (hx : a.world.heap.stack? b = some x)
    (hQ : Q () { a with domain := { a.domain with registers := some ⟨b, x.used, x.capacity⟩ } }) :
    (loadStack b).wp a Q E := by
  rw [wp_loadStack, hx]
  exact ⟨fun y hy => Option.some.inj hy ▸ hQ, nofun⟩

theorem wp_registers_of {Q : Registers → Active → Prop} {E : Stop → Active → Prop} (hr : a.domain.registers = some r)
    (hQ : Q r a) : registers.wp a Q E := by
  unfold registers
  simp only [wp_bind, wp_domain, hr, wp_pure]
  exact hQ

theorem setPointer_pointer_of_le (hr : r.used ≤ x.capacity) :
    x.setPointer r.pointer = .ok { x with used := r.used, used_le := hr } := by
  have h : r.pointer ≤ 0 ∧ r.pointer.natAbs ≤ x.capacity := by
    unfold Registers.pointer
    omega
  simp only [Segment.setPointer, dif_pos h]
  simp [Registers.pointer]

theorem syncStack_put (hr : Running a r x) :
    syncStack.wp a (fun _ t => t = a.put r.current { x with used := r.used, used_le := hr.used_le })
      fun _ _ => False := by
  rw [wp_syncStack]
  simp [hr.registers, hr.stack, setPointer_pointer_of_le hr.used_le, Active.put]

/-- **Writing the stack pointer back.** -/
theorem syncStack_spec (h : Owns f n a) (hr : Running a r x) :
    syncStack.wp a (fun _ t => Idle f n a t ∧ t.domain = a.domain ∧
      ∃ x', Saved t r x' ∧ x'.slots = x.slots ∧ x'.owner = x.owner) fun _ _ => False := by
  refine wp_of_returns (syncStack_put hr) ?_
  rintro - _ rfl
  have hmine := h.mine (h.mem_running hr) hr.stack
  have hidle := h.idle_put { x with used := r.used, used_le := hr.used_le } (h.mem_running hr) hr.stack rfl
    hmine.owner (by simp only [Active.usedOf_current hr.registers])
  refine ⟨hidle, rfl, { x with used := r.used, used_le := hr.used_le },
    ⟨⟨hr.registers, ?_, hr.capacity, hr.used_le⟩, rfl⟩, rfl, rfl⟩
  exact (stack?_put hr.stack _).trans (if_pos rfl)

theorem markDirty_spec (h : Owns f n a) (hb : b ∈ f) (hx : a.world.heap.stack? b = some x) :
    (markDirty b).wp a (fun _ t => Idle f n a t ∧ t.domain.registers = a.domain.registers ∧
      (∀ c, c ≠ b → t.world.heap.stack? c = a.world.heap.stack? c) ∧
      ∃ x', t.world.heap.stack? b = some x' ∧ x'.slots = x.slots ∧ x'.used = x.used) fun _ _ => False := by
  have hmine := h.mine hb hx
  -- the queue of marked stacks is beside the stacks
  have aside : ∀ (u : Active) q, Aside u { u with domain := { u.domain with remembered := q } } := fun u q =>
    ⟨rfl, rfl, rfl, rfl, rfl, rfl, fun hc => ⟨hc.frames, hc.handlers, hc.blocking, hc.saved⟩⟩
  have hsame : Idle f n a a := (aside a a.domain.remembered).idle h
  have hidle := h.idle_put { x with owner := some a.domain.id } hb hx rfl (.inr rfl) rfl
  rw [wp_markDirty]
  refine ⟨fun _ => ⟨hsame, rfl, fun _ _ => rfl, x, hx, rfl, rfl⟩, fun _ => ⟨fun y hy => ?_, fun hgone => ?_⟩⟩
  · obtain rfl := Option.some.inj (hx.symm.trans hy)
    refine ⟨fun _ => ?_, fun _ => ⟨hsame, rfl, fun _ _ => rfl, x, hx, rfl, rfl⟩, fun o ho hforeign => ?_⟩
    · exact ⟨hidle.trans ((aside _ _).idle hidle.acts.owns), rfl, fun c hc => (stack?_put hx c).trans (if_neg hc),
        _, (stack?_put hx b).trans (if_pos rfl), rfl, rfl⟩
    · rcases hmine.owner with hnone | hown
      · cases ho.symm.trans hnone
      · exact hforeign (Option.some.inj (ho.symm.trans hown))
  · cases hx.symm.trans hgone

/-- **Saving the current stack.** -/
theorem saveStack_spec (h : Owns f n a) (hr : Running a r x) :
    saveStack.wp a (fun b t => b = r.current ∧ Idle f n a t ∧
      ∃ x', Saved t r x' ∧ x'.slots = x.slots) fun _ _ => False := by
  unfold saveStack
  rw [wp_bind]
  refine wp_registers_of hr.registers (wp_bind_of_returns (syncStack_spec h hr) ?_)
  rintro - t ⟨hidle, -, x₁, hs₁, hslots₁, -⟩
  refine wp_bind_of_returns (markDirty_spec hidle.acts.owns (h.mem_running hr) hs₁.stack) ?_
  rintro - u ⟨hidle₂, hreg, -, x₂, hx₂, hslots₂, hused₂⟩
  have hcap : r.capacity = x₂.capacity := by
    rw [hs₁.capacity]
    unfold Segment.capacity
    rw [hslots₂]
  refine ⟨rfl, hidle.trans hidle₂, x₂, ⟨⟨hreg.trans hs₁.registers, hx₂, hcap, ?_⟩, hused₂.trans hs₁.used_eq⟩,
    hslots₂.trans hslots₁⟩
  rw [← hcap, hs₁.capacity]
  exact hs₁.used_le

/-- **Loading a fiber**, once the current one is saved. -/
theorem loadStack_spec {k : Nat} (h : Owns f n a) (hs : Saved a r x) (hk : f[k]? = some b) :
    (loadStack b).wp a (fun _ t => Idle f k a t ∧ t.world = a.world ∧ ∃ y, Running t ⟨b, y.used, y.capacity⟩ y)
      fun _ _ => False := by
  obtain ⟨y, hy, hm⟩ := h.segments b (List.mem_of_getElem? hk)
  refine wp_loadStack_of hy ?_
  have hrun : Running { a with domain := { a.domain with registers := some ⟨b, y.used, y.capacity⟩ } }
      ⟨b, y.used, y.capacity⟩ y := ⟨rfl, hy, rfl, y.used_le⟩
  refine ⟨⟨⟨⟨⟨h.calm.frames, h.calm.handlers, h.calm.blocking, h.calm.saved⟩, h.growing, h.layout, h.nodup,
    fun c hc => ?_, _, _, hrun, hk⟩, rfl, rfl, rfl, fun _ _ _ hx => hx, fun _ hc => .inl hc⟩, fun c _ => ?_⟩, rfl, y,
    hrun⟩
  · obtain ⟨z, hz, hmz⟩ := h.segments c hc
    exact ⟨z, hz, hmz.owner, hmz.small⟩
  · -- the pointer of every segment is the one that counts, before and after
    unfold Active.words
    cases hz : a.world.heap.stack? c with
    | none => rfl
    | some z =>
      simp only
      have hbefore : a.usedOf c z = z.used := by
        by_cases hcr : c = r.current
        · subst hcr
          rw [Active.usedOf_current hs.registers, ← hs.used_eq, Option.some.inj (hz.symm.trans hs.stack)]
        · exact Active.usedOf_of_ne hs.registers hcr z
      have hafter : Active.usedOf { a with domain := { a.domain with registers := some ⟨b, y.used, y.capacity⟩ } } c z =
          z.used := by
        by_cases hcb : c = b
        · subst hcb
          rw [Option.some.inj (hz.symm.trans hy)]
          exact Active.usedOf_current hrun.registers y
        · exact Active.usedOf_of_ne hrun.registers hcb z
      rw [hbefore, hafter]

theorem wp_guardBlocking {g : Guarded} {Q : Unit → Active → Prop} {E : Stop → Active → Prop} (h : Owns f n a)
    (hQ : Q () a) : (guardBlocking g).wp a Q E := by
  unfold guardBlocking
  simp only [wp_bind, wp_domain, wp_require]
  exact ⟨fun _ => hQ, fun hne => absurd h.calm.blocking hne⟩

/-- **Switching** to the fiber number `k`. -/
theorem switchStack_spec {k : Nat} (h : Owns f n a) (hk : f[k]? = some b) :
    (switchStack b).wp a (fun p t => f[n]? = some p ∧ Idle f k a t) fun _ _ => False := by
  obtain ⟨r, x, hr, hn⟩ := h.running
  unfold switchStack
  rw [wp_bind]
  refine wp_guardBlocking h ?_
  refine wp_bind_of_returns (saveStack_spec h hr) ?_
  rintro p t ⟨hp, hidle, x', hs, -⟩
  refine wp_bind_of_returns (loadStack_spec hidle.acts.owns hs hk) ?_
  rintro - u ⟨hload, -⟩
  exact ⟨hp ▸ hn, hidle.trans hload⟩

/-- **Saving for a collection and restoring** after it. -/
theorem collect_spec (h : Owns f n a) :
    (saveForCollection >>= fun _ => restoreForCollection).wp a (fun _ t => Idle f n a t) fun _ _ => False := by
  obtain ⟨r, x, hr, hn⟩ := h.running
  unfold saveForCollection restoreForCollection restoreStack
  simp only [wp_bind, wp_domain, wp_require]
  refine ⟨fun _ => ?_, fun hne => absurd h.calm.saved hne⟩
  refine wp_of_returns (saveStack_spec h hr) ?_
  rintro - t ⟨-, hidle, x', hs, -⟩
  simp only [wp_modifyDomain, if_true, wp_bind]
  refine wp_registers_of (r := r) hs.registers ?_
  refine wp_loadStack_of (x := x') hs.stack ?_
  -- what is loaded is what was saved
  have hreg : some (⟨r.current, x'.used, x'.capacity⟩ : Registers) = t.domain.registers := by
    rw [hs.registers, hs.used_eq, ← hs.capacity]
  refine hidle.trans (Aside.idle ⟨rfl, rfl, rfl, rfl, hreg, rfl, fun hc => ?_⟩ hidle.acts.owns)
  exact ⟨hc.frames, hc.handlers, hc.blocking, rfl⟩

end Act

end FiberStacks
