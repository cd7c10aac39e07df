import FiberStacks.Proofs.Runs.Events

/-!
# The registers always describe the current stack

Several domains may run on one stack, and one of them may grow it under the others; all of them go on with registers
that describe a live stack.  So no stack pointer and no word is ever outside its segment, words in use always fit where
they are copied, and nobody grows a stack that another domain has marked.

* `Machine.Described` — what this comes to, field by field;
* `registers_describe` — **it holds whatever has happened**;
* `registers_describe_shared` — two domains on one stack, which one of them grows.
-/

namespace FiberStacks

open FiberStacks.Action

namespace Machine

variable {m : Machine}

/-- **Registers describe the current stacks.** -/
structure Described (m : Machine) : Prop where
  /-- A current stack is live and has the capacity the registers name, the stack pointer is inside, and the words in use
  and the headroom make up the capacity. -/
  registers : ∀ x ∈ m.domains, ∀ r, x.registers = some r → ∃ y, m.world.heap.stack? r.current = some y ∧
    r.capacity = y.capacity ∧ -(r.capacity : Int) ≤ r.pointer ∧ r.pointer ≤ 0 ∧ r.used + r.headroom = r.capacity
  /-- Whatever happens next violates no assertion about places. -/
  places : ∀ e out m', e.Fair m → m.perform e = some (out, m') → ∀ stop, out = .stopped stop → ¬ stop.Misplaced
  /-- A push that returns has written its word on top of the current stack. -/
  push : ∀ d w m', m.act d (Act.push w) = some (.ok (), m') →
    ∃ x, m'.domain? d = some x ∧ Active.top? ⟨x, m'.world⟩ = some w
  /-- A pop finds no word only where none is in use. -/
  pop : ∀ d m', m.act d Act.pop = some (.ok none, m') → ∃ x, m.domain? d = some x ∧ x.used = 0

theorem Upright.described (h : m.Upright) : m.Described where
  registers x hx r hr := by
    obtain ⟨y, hy, hcap, hused⟩ := h.seated x hx r hr
    refine ⟨y, hy, hcap, ?_⟩
    unfold Registers.pointer Registers.headroom
    omega
  places _ _ _ he hp := (h.perform he hp).2
  push d w m' hp := by
    obtain ⟨x, t, -, hs, hrun, hworld, hafter⟩ := h.act hp
    obtain ⟨hl, htop⟩ := (wp_of_ok hrun).1 (Act.push_lasts w hs)
    exact ⟨t.domain, (hafter _ hl).2, hworld ▸ htop⟩
  pop d m' hp := by
    obtain ⟨x, t, hx, hs, hrun, -, -⟩ := h.act hp
    exact ⟨x, hx, ((wp_of_ok hrun).1 (Act.pop_lasts hs)).2 rfl⟩

/-- **Registers describe the current stacks, whatever has happened** in a heap with a budget, if no stack was freed that
a domain ran on. -/
theorem registers_describe {config : Config} {layout : Layout} {maxWords minorLimit : Nat} {verbose : Bool}
    {es : List Event} {rs : List Record} (hm : maxWords < 2 ^ 32)
    (hc : (initial { World.initial config layout (.empty maxWords minorLimit) with verbose }).chronicle es =
      some (rs, m))
    (hfair : ∀ r ∈ rs, r.Fair) : m.Described :=
  ((Upright.initial (Heap.InOrder.empty minorLimit hm)).chronicle hc hfair).described

/-- A machine before start-up, with main stacks of two words. -/
def tight : Machine := .initial (.initial { initStackWords := 2 } .bytecode (.empty 100 100))

/-- Two domains run on one stack of two words, and one of them grows it under the other. -/
theorem registers_describe_shared : ∃ rs m,
    tight.chronicle [.create, .ask ⟨1⟩ .initMainStack, .ask ⟨1⟩ (.call (.push .unit)), .create, .ask ⟨2⟩ (.load ⟨0⟩),
      .ask ⟨2⟩ (.call (.push .unit)), .ask ⟨2⟩ (.call (.push .unit)), .ask ⟨2⟩ (.call (.push .unit))] = some (rs, m) ∧
    m.domains.map Domain.registers = [some ⟨⟨0⟩, 1, 2⟩, some ⟨⟨1⟩, 3, 4⟩] ∧ (∀ r ∈ rs, r.Fair) ∧ m.Described := by
  have hseen : (tight.chronicle [.create, .ask ⟨1⟩ .initMainStack, .ask ⟨1⟩ (.call (.push .unit)), .create,
      .ask ⟨2⟩ (.load ⟨0⟩), .ask ⟨2⟩ (.call (.push .unit)), .ask ⟨2⟩ (.call (.push .unit)),
      .ask ⟨2⟩ (.call (.push .unit))]).map (fun p => p.2.domains.map Domain.registers) =
        some [some ⟨⟨0⟩, 1, 2⟩, some ⟨⟨1⟩, 3, 4⟩] := by decide +kernel
  obtain ⟨⟨rs, m⟩, hc, hm⟩ := Option.map_eq_some_iff.1 hseen
  have hfair : ∀ r ∈ rs, r.Fair := fair_of_events hc (by simp [Event.Fair])
  exact ⟨rs, m, hc, hm, hfair, registers_describe (by decide) hc hfair⟩

end Machine

end FiberStacks
