import FiberStacks.Act.Stack
import FiberStacks.Proofs.Heap.Budget
import FiberStacks.Proofs.Outcome

/-!
# The fibers of a domain

A domain runs on its own fibers: its main stack and those it allocated.  The words of a fiber are a list, of which the
live stack pointer tells the length where the domain runs on the fiber, and the segment where it does not.

* `Active.words` — the words on a stack, as the acting domain sees them, oldest first;
* `Owns` — the invariant of a domain and its fibers;
* `Acts` — what an action of the domain may change: its own fibers, and blocks nobody has;
* `Idle` — an action that changes no words;
* `Idle.of_setStack` — a segment of a fiber replaced by one with the same words.
-/

namespace FiberStacks

/-- **A domain between calls**: no frame, no lock, no blocking section, no collection, and every protected region
entered in that state. -/
structure Domain.Calm (d : Domain) : Prop where
  frames : d.frames = .initial
  handlers : ∀ c ∈ d.handlers, c = ⟨1, 0, 0⟩
  blocking : d.blocking = 0
  saved : d.stackSaved = false

namespace Active

/-- The words used of a stack: the live stack pointer counts on the current one. -/
def usedOf (a : Active) (b : BlockId) (x : Segment) : Nat :=
  if a.domain.current? = some b then a.domain.used else x.used

/-- **The words on a stack**, oldest first. -/
def words (a : Active) (b : BlockId) : List Word :=
  match a.world.heap.stack? b with
  | some x => x.slots.take (a.usedOf b x)
  | none => []

theorem words_eq {a : Active} {b : BlockId} {x : Segment} (hx : a.world.heap.stack? b = some x) :
    a.words b = x.slots.take (a.usedOf b x) := by
  unfold words
  rw [hx]

theorem usedOf_current {a : Active} {r : Registers} (hr : a.domain.registers = some r) (x : Segment) :
    a.usedOf r.current x = r.used := by
  simp [usedOf, Domain.current?, Domain.used, hr]

theorem usedOf_of_ne {a : Active} {r : Registers} {b : BlockId} (hr : a.domain.registers = some r)
    (hb : b ≠ r.current) (x : Segment) : a.usedOf b x = x.used := by
  simp [usedOf, Domain.current?, hr, hb.symm]

end Active

/-- A segment that the acting domain may mark dirty, small enough for the heap. -/
structure Mine (a : Active) (x : Segment) : Prop where
  owner : x.owner = none ∨ x.owner = some a.domain.id
  small : x.capacity < 2 ^ 32

/-- The acting domain runs on the stack that its registers describe. -/
structure Running (a : Active) (r : Registers) (x : Segment) : Prop where
  registers : a.domain.registers = some r
  stack : a.world.heap.stack? r.current = some x
  capacity : r.capacity = x.capacity
  used_le : r.used ≤ x.capacity

/-- **A domain and its fibers**: all are stacks it may mark, none is there twice, and it runs on the fiber number
`n`. -/
structure Owns (fibers : List BlockId) (n : Nat) (a : Active) : Prop where
  calm : a.domain.Calm
  growing : a.world.heap.Growing
  layout : a.world.layout = .bytecode
  nodup : fibers.Nodup
  segments : ∀ b ∈ fibers, ∃ x, a.world.heap.stack? b = some x ∧ Mine a x
  running : ∃ r x, Running a r x ∧ fibers[n]? = some r.current

/-- **What an action of a domain may change**: the stacks of its fibers, and blocks that were no stacks. -/
structure Acts (fibers : List BlockId) (fibers' : List BlockId) (n' : Nat) (a t : Active) : Prop where
  owns : Owns fibers' n' t
  id : t.domain.id = a.domain.id
  created : t.world.domainsCreated = a.world.domainsCreated
  config : t.world.config = a.world.config
  others : ∀ b ∉ fibers, ∀ x, a.world.heap.stack? b = some x → t.world.heap.stack? b = some x
  fresh : ∀ b ∈ fibers', b ∈ fibers ∨ a.world.heap.stack? b = none

/-- An action that changes no words of fibers. -/
structure Idle (fibers : List BlockId) (n' : Nat) (a t : Active) : Prop where
  acts : Acts fibers fibers n' a t
  words : ∀ b ∈ fibers, t.words b = a.words b

namespace Owns

variable {fibers : List BlockId} {n : Nat} {a : Active}

theorem acts (h : Owns fibers n a) : Acts fibers fibers n a a :=
  ⟨h, rfl, rfl, rfl, fun _ _ _ hx => hx, fun _ hb => .inl hb⟩

theorem idle (h : Owns fibers n a) : Idle fibers n a a := ⟨h.acts, fun _ _ => rfl⟩

theorem mem_running {r : Registers} {x : Segment} (h : Owns fibers n a) (hr : Running a r x) : r.current ∈ fibers := by
  obtain ⟨r', x', hr', hn⟩ := h.running
  obtain rfl := Option.some.inj (hr.registers.symm.trans hr'.registers)
  exact List.mem_of_getElem? hn

/-- The segment of a fiber may be marked. -/
theorem mine {b : BlockId} {x : Segment} (h : Owns fibers n a) (hb : b ∈ fibers)
    (hx : a.world.heap.stack? b = some x) : Mine a x := by
  obtain ⟨y, hy, hm⟩ := h.segments b hb
  exact Option.some.inj (hy.symm.trans hx) ▸ hm

end Owns

section Trans

variable {f f' f'' : List BlockId} {n n' n'' : Nat} {a t u : Active}

theorem Acts.trans (h : Acts f f' n' a t) (h' : Acts f' f'' n'' t u) : Acts f f'' n'' a u where
  owns := h'.owns
  id := h'.id.trans h.id
  created := h'.created.trans h.created
  config := h'.config.trans h.config
  others b hb x hx := by
    refine h'.others b (fun hmem => ?_) x (h.others b hb x hx)
    rcases h.fresh b hmem with hmem | hnone
    · exact hb hmem
    · simp [hnone] at hx
  fresh b hb := by
    rcases h'.fresh b hb with hmem | hnone
    · exact h.fresh b hmem
    · by_cases hmem : b ∈ f
      · exact .inl hmem
      · refine .inr (Option.eq_none_iff_forall_ne_some.2 fun x hx => ?_)
        simp [h.others b hmem x hx] at hnone

theorem Idle.trans (h : Idle f n' a t) (h' : Idle f n'' t u) : Idle f n'' a u :=
  ⟨h.acts.trans h'.acts, fun b hb => (h'.words b hb).trans (h.words b hb)⟩

theorem Owns.of_subset {a : Active} (h : Owns f n a) (hnodup : f'.Nodup) (hsub : ∀ b ∈ f', b ∈ f)
    (hn : f'[n']? = f[n]?) : Owns f' n' a := by
  obtain ⟨r, x, hr, hrn⟩ := h.running
  exact ⟨h.calm, h.growing, h.layout, hnodup, fun b hb => h.segments b (hsub b hb), r, x, hr, hn.trans hrn⟩

theorem Acts.of_subset (h : Acts f f' n' a t) (hnodup : f''.Nodup) (hsub : ∀ b ∈ f'', b ∈ f')
    (hn : f''[n'']? = f'[n']?) : Acts f f'' n'' a t :=
  ⟨h.owns.of_subset hnodup hsub hn, h.id, h.created, h.config, h.others, fun b hb => h.fresh b (hsub b hb)⟩

end Trans

/-! ### Changes beside the stacks -/

/-- What an action changed is beside the stacks and the registers. -/
structure Aside (a t : Active) : Prop where
  heap : t.world.heap = a.world.heap
  layout : t.world.layout = a.world.layout
  config : t.world.config = a.world.config
  created : t.world.domainsCreated = a.world.domainsCreated
  registers : t.domain.registers = a.domain.registers
  id : t.domain.id = a.domain.id
  calm : a.domain.Calm → t.domain.Calm

section Aside

variable {f : List BlockId} {n : Nat} {a t u : Active}

theorem Aside.trans (h : Aside a t) (h' : Aside t u) : Aside a u :=
  ⟨h'.heap.trans h.heap, h'.layout.trans h.layout, h'.config.trans h.config, h'.created.trans h.created,
    h'.registers.trans h.registers, h'.id.trans h.id, fun hc => h'.calm (h.calm hc)⟩

theorem Aside.running {r : Registers} {x : Segment} (h : Aside a t) (hr : Running a r x) : Running t r x :=
  ⟨h.registers.trans hr.registers, h.heap ▸ hr.stack, hr.capacity, hr.used_le⟩

theorem Aside.words (h : Aside a t) (b : BlockId) : t.words b = a.words b := by
  unfold Active.words Active.usedOf Domain.current? Domain.used
  rw [h.heap, h.registers]

theorem Aside.idle (h : Aside a t) (ho : Owns f n a) : Idle f n a t := by
  refine ⟨⟨⟨h.calm ho.calm, h.heap ▸ ho.growing, h.layout.trans ho.layout, ho.nodup, fun b hb => ?_, ?_⟩,
    h.id, h.created, h.config, fun b _ x hx => h.heap ▸ hx, fun b hb => .inl hb⟩, fun b _ => h.words b⟩
  · obtain ⟨x, hx, hm⟩ := ho.segments b hb
    exact ⟨x, h.heap ▸ hx, h.id ▸ hm.owner, hm.small⟩
  · obtain ⟨r, x, hr, hn⟩ := ho.running
    exact ⟨r, x, h.running hr, hn⟩

end Aside

/-! ### Segments replaced -/

section Replace

variable {f : List BlockId} {n : Nat} {a : Active} {b : BlockId} {x x' : Segment}

/-- The acting domain replaces the segment of a stack. -/
def Active.put (a : Active) (b : BlockId) (x : Segment) : Active :=
  { a with world := a.world.adopt (a.world.heap.setStack b x) }

theorem stack?_put (hx : a.world.heap.stack? b = some x) (c : BlockId) :
    (a.put b x').world.heap.stack? c = if c = b then some x' else a.world.heap.stack? c :=
  Heap.stack?_setStack hx c

theorem words_put_of_ne {c : BlockId} (hx : a.world.heap.stack? b = some x) (hc : c ≠ b) :
    (a.put b x').words c = a.words c := by
  unfold Active.words
  rw [stack?_put hx, if_neg hc]
  rfl

theorem words_put_self (hx : a.world.heap.stack? b = some x) :
    (a.put b x').words b = x'.slots.take (a.usedOf b x') := by
  unfold Active.words
  rw [stack?_put hx, if_pos rfl]
  rfl

/-- **The segment of a fiber replaced** by one of the same size. -/
theorem Owns.acts_put (h : Owns f n a) (x' : Segment) (hb : b ∈ f) (hx : a.world.heap.stack? b = some x)
    (hcap : x'.capacity = x.capacity) (howner : x'.owner = none ∨ x'.owner = some a.domain.id) :
    Acts f f n a (a.put b x') := by
  have hm := h.mine hb hx
  refine ⟨⟨h.calm, h.growing.set b _, h.layout, h.nodup, fun c hc => ?_, ?_⟩, rfl, rfl, rfl, fun c hc y hy => ?_,
    fun c hc => .inl hc⟩
  · by_cases hcb : c = b
    · exact ⟨x', by rw [stack?_put hx, if_pos hcb], howner, hcap ▸ hm.small⟩
    · obtain ⟨y, hy, hm⟩ := h.segments c hc
      exact ⟨y, by rw [stack?_put hx, if_neg hcb, hy], hm.owner, hm.small⟩
  · obtain ⟨r, y, hr, hn⟩ := h.running
    by_cases hrb : r.current = b
    · obtain rfl := Option.some.inj ((hrb ▸ hr.stack).symm.trans hx)
      exact ⟨r, x', ⟨hr.registers, by rw [stack?_put hx, if_pos hrb], hr.capacity.trans hcap.symm,
        hcap ▸ hr.used_le⟩, hn⟩
    · exact ⟨r, y, ⟨hr.registers, by rw [stack?_put hx, if_neg hrb, hr.stack], hr.capacity, hr.used_le⟩, hn⟩
  · rw [stack?_put hx, if_neg (fun hcb : c = b => hc (hcb ▸ hb)), hy]

theorem Owns.idle_put (h : Owns f n a) (x' : Segment) (hb : b ∈ f) (hx : a.world.heap.stack? b = some x)
    (hcap : x'.capacity = x.capacity) (howner : x'.owner = none ∨ x'.owner = some a.domain.id)
    (hwords : x'.slots.take (a.usedOf b x') = x.slots.take (a.usedOf b x)) : Idle f n a (a.put b x') := by
  refine ⟨h.acts_put x' hb hx hcap howner, fun c _ => ?_⟩
  by_cases hcb : c = b
  · rw [hcb, words_put_self hx, hwords, Active.words_eq hx]
  · exact words_put_of_ne hx hcb

end Replace

end FiberStacks
