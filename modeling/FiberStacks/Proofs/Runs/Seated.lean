import FiberStacks.Proofs.Handling
import FiberStacks.Proofs.Runs.Lasting

/-!
# Registers that describe their stack

The registers of a domain are a copy of three fields of its current stack.  Actions refresh them in many places; what
all have in common is stated once, as what an action leaves of a state in order, however it ends.

* `Domain.Seated` — **the registers describe the current stack**;
* `Active.Settled`, `Active.Lasts` — a state in order, and what an action leaves of it;
* `Act.Settles` — the actions that leave it so, and hit no assertion about places;
* `settles_of_beside`, `founding_settles` — **all that is done beside the stacks, and all that handles them**.
-/

namespace FiberStacks

open FiberStacks.Action

variable {spent spent' : BlockId → Prop}

/-- **The registers describe the current stack**: it is live, it has the capacity they name, and the stack pointer is
inside. -/
def Domain.Seated (x : Domain) (h : Heap) : Prop :=
  ∀ r, x.registers = some r → ∃ y, h.stack? r.current = some y ∧ r.capacity = y.capacity ∧ r.used ≤ y.capacity

theorem Domain.Seated.of_lasts {x : Domain} {h h' : Heap} (hx : x.Seated h) (hl : h.Lasts spent h') : x.Seated h' := by
  intro r hr
  obtain ⟨y, hy, hcap, hused⟩ := hx r hr
  obtain ⟨z, hz, hzy⟩ := hl.segments _ y hy
  exact ⟨z, hz, hcap.trans hzy.symm, hzy ▸ hused⟩

namespace Active

variable {s t u : Active}

/-- **A domain in order**: so is the heap, and the registers describe the current stack. -/
structure Settled (s : Active) : Prop where
  heap : s.world.heap.InOrder
  seated : s.domain.Seated s.world.heap

/-- **What an action leaves** of a domain in order. -/
structure Lasts (spent : BlockId → Prop) (s t : Active) : Prop where
  heap : s.world.heap.Lasts spent t.world.heap
  seated : t.domain.Seated t.world.heap
  id : t.domain.id = s.domain.id
  created : t.world.domainsCreated = s.world.domainsCreated
  records : t.domain.frames.records ⊆ s.domain.frames.records

namespace Lasts

theorem settled (h : s.Lasts spent t) : t.Settled := ⟨h.heap.inOrder, h.seated⟩

theorem refl (hs : s.Settled) : s.Lasts spent s := ⟨.refl hs.heap, hs.seated, rfl, rfl, List.Subset.refl _⟩

theorem trans (h₁ : s.Lasts spent t) (h₂ : t.Lasts spent u) : s.Lasts spent u :=
  ⟨h₁.heap.trans h₂.heap, h₂.seated, h₂.id.trans h₁.id, h₂.created.trans h₁.created,
    List.Subset.trans h₂.records h₁.records⟩

theorem mono (h : s.Lasts spent t) (hspent : ∀ k, spent k → spent' k) : s.Lasts spent' t :=
  ⟨h.heap.mono hspent, h.seated, h.id, h.created, h.records⟩

theorem of_none (h : s.Lasts (fun _ => False) t) : s.Lasts spent t := h.mono fun _ hf => hf.elim

theorem of_alike (hs : s.Settled) (h : Act.Alike s t) : s.Lasts spent t := by
  obtain ⟨hheap, hcreated, hid, hregisters, -, hrecords⟩ := h
  refine ⟨?_, fun r hr => ?_, hid, hcreated, hrecords⟩
  · rw [hheap]
    exact .refl hs.heap
  · rw [hheap]
    exact hs.seated r (hregisters ▸ hr)

/-- **A change of the heap alone.** -/
theorem adopt {h : Heap} (hs : s.Settled) (hl : s.world.heap.Lasts spent h) :
    s.Lasts spent { s with world := s.world.adopt h } :=
  ⟨hl, hs.seated.of_lasts hl, rfl, rfl, List.Subset.refl _⟩

end Lasts

theorem Settled.running (hs : s.Settled) {r : Registers} (hr : s.domain.registers = some r) : ∃ x, Running s r x := by
  obtain ⟨x, hx, hcap, hused⟩ := hs.seated r hr
  exact ⟨x, hr, hx, hcap, hused⟩

end Active

namespace Act

variable {α β : Type} {s t : Active} {b k : BlockId} {x y : Segment}

/-- **The action leaves a domain in order**, and all that lasts, however it ends.  It hits no assertion about places. -/
def Settles (spent : BlockId → Prop) (a : Act α) : Prop :=
  ∀ s, s.Settled → a.wp s (fun _ t => s.Lasts spent t) fun e t => s.Lasts spent t ∧ ¬ e.Misplaced

namespace Settles

theorem bind {a : Act β} {f : β → Act α} (ha : a.Settles spent) (hf : ∀ x, (f x).Settles spent) :
    (a >>= f).Settles spent := by
  intro s hs
  refine wp_bind_of (ha s hs) (fun x t ht => ?_) fun _ _ h => h
  exact wp_mono (hf x t ht.settled) (fun _ _ hu => ht.trans hu) fun _ _ hu => ⟨ht.trans hu.1, hu.2⟩

theorem wp_of {a : Act α} (ha : a.Settles spent) (h : s.Lasts spent t) :
    a.wp t (fun _ u => s.Lasts spent u) fun e u => s.Lasts spent u ∧ ¬ e.Misplaced :=
  wp_mono (ha t h.settled) (fun _ _ hu => h.trans hu) fun _ _ hu => ⟨h.trans hu.1, hu.2⟩

theorem mono {a : Act α} (ha : a.Settles spent) (hspent : ∀ k, spent k → spent' k) : a.Settles spent' := fun s hs =>
  wp_mono (ha s hs) (fun _ _ h => h.mono hspent) fun _ _ h => ⟨h.1.mono hspent, h.2⟩

end Settles

theorem bookkeeping_lasts (spent : BlockId → Prop) : Bookkeeping fun s t => s.Settled → s.Lasts spent t where
  trans h₁ h₂ hs := (h₁ hs).trans (h₂ (h₁ hs).settled)
  of_alike h hs := .of_alike hs h
  alloc ho hsize ha hs := .adopt hs (Heap.lasts_alloc hs.heap hsize (Object.unmarked_of_ne ho) ha)

theorem settles_of {a : Act α} (hl : a.Relates fun s t => s.Settled → s.Lasts spent t) (hp : a.Placed) :
    a.Settles spent := fun s hs =>
  wp_mono (wp_and (hl s) (hp s)) (fun _ _ h => h.1 hs) fun _ _ h => ⟨h.1 hs, h.2⟩

theorem settles_of_beside {a : Act α} (ha : a.Beside) : a.Settles spent :=
  settles_of ((bookkeeping_lasts spent).relates ha) ha.placed

theorem settles_noteSize (entry : Nat → Notice) (words : Nat) : (noteSize entry words).Settles spent :=
  settles_of ((bookkeeping_lasts spent).noteSize entry words) (placed_noteSize entry words)

theorem settles_allocate {o : Object} (hsize : 0 < o.size) (ho : o.Unmarked) (path : AllocPath) :
    (allocate o path).Settles spent := by
  intro s hs
  rw [wp_allocate]
  exact ⟨fun _ _ => .refl hs, fun _ _ ha => .adopt hs (Heap.lasts_alloc hs.heap hsize ho ha)⟩

/-! ### Saving and loading -/

/-- **The stack pointer is written back**: it is inside the segment.  Nothing but the heap changes, and the room in it
does not. -/
theorem syncStack_returns (hs : s.Settled) :
    syncStack.wp s (fun _ t => s.Lasts (fun _ => False) t ∧ ∃ h, t = { s with world := s.world.adopt h } ∧
      h.available = s.world.heap.available) fun _ _ => False := by
  cases hr : s.domain.registers with
  | none =>
    refine wp_syncStack.2 ⟨fun _ => ⟨.refl hs, s.world.heap, by rw [World.adopt_heap], rfl⟩, ?_⟩
    simp [hr]
  | some r =>
    obtain ⟨x, hx⟩ := hs.running hr
    refine wp_of_returns (syncStack_put hx) ?_
    rintro - _ rfl
    exact ⟨.adopt hs (Heap.lasts_setStack_of_owner hs.heap hx.stack rfl rfl), _, rfl, rfl⟩

theorem settles_syncStack : syncStack.Settles spent := fun _ hs =>
  wp_of_returns (syncStack_returns hs) fun _ _ h => h.1.of_none

/-- **A stack is marked**, which is old if it had no mark. -/
theorem settles_markDirty (b : BlockId) : (markDirty b).Settles spent := by
  intro s hs
  refine wp_markDirty.2 ⟨fun _ => .refl hs, fun hold => ⟨fun x hx => ⟨fun _ => ?_, fun _ => .refl hs,
    fun _ _ _ => ⟨.refl hs, id⟩⟩, fun _ => ⟨.refl hs, id⟩⟩⟩
  have hh : s.world.heap.Lasts spent (s.world.heap.setStack b { x with owner := some s.domain.id }) :=
    Heap.lasts_setStack hs.heap hx rfl fun _ _ => .inr (Heap.generation?_eq_old hx hold)
  exact ⟨hh, hs.seated.of_lasts hh, rfl, rfl, List.Subset.refl _⟩

/-- **A stack is loaded**: the registers are read off it. -/
theorem settles_loadStack (b : BlockId) : (loadStack b).Settles spent := by
  intro s hs
  refine wp_loadStack.2 ⟨fun x hx => ⟨.refl hs.heap, ?_, rfl, rfl, List.Subset.refl _⟩, fun _ => ⟨.refl hs, id⟩⟩
  intro r hr
  obtain rfl := Option.some.inj hr
  exact ⟨x, hx, rfl, x.used_le⟩

/-- **Saving, loading and switching stacks, and making new ones.** -/
theorem founding_settles : Founding fun {α} (a : Act α) => a.Settles spent where
  bind := Settles.bind
  beside := settles_of_beside
  syncStack := settles_syncStack
  markDirty := settles_markDirty
  loadStack := settles_loadStack
  allocate {x} path hx := settles_allocate (o := .stack x) (Nat.succ_pos _) (Object.unmarked_stack hx) path

theorem handling_settles : Handling fun {α} (a : Act α) => a.Settles spent := founding_settles.toHandling

end Act

end FiberStacks
