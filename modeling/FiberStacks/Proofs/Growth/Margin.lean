import FiberStacks.Proofs.Growth.Limit

/-!
# The margin of an expansion

Compiled code asks for twice the threshold and gets one doubling: the stack is replaced if less is free, by one of
twice the size, whatever the threshold is.  So the margin is there afterwards exactly if one doubling has room for it.

* `Growth.of_double` — one doubling has room for the words in use;
* `Act.Regrown` — **the registers after growth**: the same words used, and the size that was found;
* `Act.maybeExpand_expanded` — the stack stays, or is doubled once;
* `Act.maybeExpand_margin_iff` — **when the margin is there afterwards**.
-/

namespace FiberStacks

open FiberStacks.Action

theorem Growth.of_double {limit needed c n : Nat} (hneeded : needed ≤ c) (h : of limit needed c = .reaches n) :
    n = max (2 * c) 1 :=
  (eq_of_reaches h).resolve_right (by omega)

namespace Act

variable {s t u : Active} {r r' : Registers} {x z : Segment} {old new : BlockId} {ws ws' saved : List Word}

/-- **The registers after growth**, if there are no more cells than identifiers: a block of the size that was found,
with the same words used. -/
def Regrown (s : Active) (r : Registers) (required : Nat) (new : BlockId) (t : Active) : Prop :=
  t.world.heap.capacity ≤ 2 ^ 32 → ∃ n, Growth.of s.domain.limit (r.used + required) r.capacity = .reaches n ∧
    t.domain.registers = some ⟨new, r.used, n⟩

theorem markDirty_fills (new : BlockId) (u : Active) : (markDirty new).wp u
    (fun _ t => t.world.heap.capacity = u.world.heap.capacity ∧ ∀ z, u.world.heap.stack? new = some z →
      ∃ o, t.world.heap.stack? new = some { z with owner := o }) fun _ _ => True := by
  refine wp_markDirty_of ⟨rfl, fun z hz => ⟨z.owner, hz⟩⟩ (fun y _ hy _ => ?_) fun _ => trivial
  refine ⟨Heap.capacity_setStack .., fun z hz => ⟨some u.domain.id, ?_⟩⟩
  obtain rfl := Option.some.inj (hz.symm.trans hy)
  exact (Heap.stack?_setStack hz _).trans (if_pos rfl)

theorem moveTo_registers (old new : BlockId) (saved : List Word) (u : Active) : (moveTo old new saved).wp u
    (fun p t => p = (.ok new, saved) ∧ t.world.heap.capacity = u.world.heap.capacity ∧ ∀ z,
      u.world.heap.stack? new = some z → t.domain.registers = some ⟨new, z.used, z.capacity⟩) fun _ _ => True := by
  refine wp_moveTo.2 ⟨fun y hy => ⟨fun _ _ => ⟨rfl, Heap.capacity_setStack .., fun z hz => ?_⟩, fun _ => trivial⟩,
    fun _ => trivial⟩
  obtain rfl := Option.some.inj (hy.symm.trans hz)
  rfl

theorem settle_registers (old : BlockId) (o : Option DomainId) (d : DomainId) (new : BlockId) (saved : List Word)
    (u : Active) : (settle old o d new saved).wp u
      (fun p t => p = (.ok new, saved) ∧ t.world.heap.capacity = u.world.heap.capacity ∧ ∀ z,
        u.world.heap.stack? new = some z → t.domain.registers = some ⟨new, z.used, z.capacity⟩) fun _ _ => True := by
  unfold settle
  cases o with
  | none => exact moveTo_registers old new saved u
  | some o =>
    simp only [wp_bind, wp_require]
    refine ⟨fun _ => wp_mono (markDirty_fills new u) ?_ fun _ _ _ => trivial, fun _ => trivial⟩
    rintro _ t ⟨hcap, hfills⟩
    refine wp_mono (moveTo_registers old new saved t) ?_ fun _ _ _ => trivial
    rintro p v ⟨hp, hcap', hreg⟩
    refine ⟨hp, hcap'.trans hcap, fun z hz => ?_⟩
    obtain ⟨o', hz'⟩ := hfills z hz
    have hmoved := hreg _ hz'
    exact hmoved

/-- **Growth that returns** leaves the words to keep, and a new stack has the size that was found. -/
theorem tryGrow_regrown (required : Nat) (saved : List Word) (hf : s.world.heap.FreeListed) (hr : Running s r x) :
    (tryGrow required saved).wp s
      (fun p t => p.2 = saved ∧ ∀ new, p.1 = .ok new → Regrown s r required new t) fun _ _ => True := by
  refine wp_mono (tryGrow_ends required saved s) ?_ fun _ _ _ => trivial
  rintro ⟨res, saved'⟩ t ⟨r', x', y, q, hs, hend⟩
  obtain rfl := Option.some.inj (hs.registers.symm.trans hr.registers)
  obtain rfl := Option.some.inj (hs.stack.symm.trans hr.stack)
  cases hend with
  | overLimit h => exact ⟨rfl, fun new hnew => by cases hnew⟩
  | full h hn hfull => exact ⟨rfl, fun new hnew => by cases hnew⟩
  | @fits n z new h' _ _ h hn hz ha hrun =>
    obtain ⟨hp, hcap, hreg⟩ := (wp_of_ok hrun).1 (settle_registers ..)
    obtain ⟨rfl, rfl⟩ := Prod.mk.inj hp
    refine ⟨rfl, fun new' hnew hids => ⟨n, ?_, ?_⟩⟩
    · rw [hr.capacity, ← hs.growth_eq]
      exact h
    · obtain rfl := Except.ok.inj hnew
      -- an identifier that is new denotes the new stack
      have hself : h'.stack? new = some z := by
        have hf' : (s.world.heap.setStack r'.current y).FreeListed := hf.set _ _
        rcases Heap.alloc_cell? hf' ha with ⟨-, g, hcells⟩ | ⟨hmany, -⟩
        · exact Heap.stack?_of_cell? ((hcells new).trans (if_pos rfl))
        · have hcap' : t.world.heap.capacity = h'.capacity := hcap
          omega
      rw [hreg z hself, hz.used, hs.used, hz.capacity]

/-- **The stack stays where the margin is, and is doubled once where it is not.** -/
theorem maybeExpand_expanded (hf : s.world.heap.FreeListed) (hr : Running s r x) (ws : List Word) :
    (maybeExpand ws).wp s
      (fun ws' t => ws' = ws ∧ (t.world.heap.capacity ≤ 2 ^ 32 → ∃ r', t.domain.registers = some r' ∧
        r'.used = r.used ∧ r'.capacity = if r.headroom < 2 * s.world.config.stackThresholdWords
          then max (2 * r.capacity) 1 else r.capacity)) fun _ _ => True := by
  have hused : r.used ≤ r.capacity := hr.capacity ▸ hr.used_le
  have hfree : s.domain.headroom = r.headroom := Domain.headroom_of_registers hr.registers
  unfold maybeExpand
  simp only [wp_bind, wp_domain, wp_config, wp_check_double, hfree]
  refine ⟨fun _ => ?_, fun _ => trivial⟩
  split
  · next hlt =>
    unfold grow
    refine (wp_bind ..).2 (wp_bind_of (tryGrow_regrown 0 ws hf hr) ?_ fun _ _ _ => trivial)
    rintro ⟨res, saved⟩ u ⟨hsaved, hregrown⟩
    cases res with
    | error e =>
      refine (wp_bind ..).2 ?_
      exact wp_mono (stops_raiseFailure e u) (fun _ _ h => h.elim) fun _ _ _ => trivial
    | ok new =>
      refine ⟨hsaved, fun hids => ?_⟩
      obtain ⟨n, hn, hreg⟩ := hregrown new rfl hids
      exact ⟨_, hreg, rfl, Growth.of_double hused hn⟩
  · exact ⟨rfl, fun _ => ⟨r, hr.registers, rfl, rfl⟩⟩

/-- **When the margin is there afterwards.**  An expansion that returns leaves the words to keep and the words in use;
the capacity is doubled once if less than twice the threshold was free, and stays otherwise.  So twice the threshold is
free afterwards exactly if one doubling has room for it beside the words in use, which it has wherever the capacity was
twice the threshold. -/
theorem maybeExpand_margin_iff (hf : s.world.heap.FreeListed) (hr : Running s r x)
    (hrun : maybeExpand ws s = (.ok ws', t)) (hids : t.world.heap.capacity ≤ 2 ^ 32) :
    let threshold := s.world.config.stackThresholdWords
    ws' = ws ∧ t.domain.used = r.used ∧
      (∃ r', t.domain.registers = some r' ∧ r'.capacity =
        if r.headroom < 2 * threshold then max (2 * r.capacity) 1 else r.capacity) ∧
      (2 * threshold ≤ t.domain.headroom ↔ 2 * threshold + r.used ≤ max (2 * r.capacity) 1) ∧
      (2 * threshold ≤ r.capacity → 2 * threshold ≤ t.domain.headroom) := by
  intro threshold
  obtain ⟨hws, hexpanded⟩ := (wp_of_ok hrun).1 (maybeExpand_expanded hf hr ws)
  obtain ⟨r', hr', hused', hcap'⟩ := hexpanded hids
  have hused : r.used ≤ r.capacity := hr.capacity ▸ hr.used_le
  have hmargin : 2 * threshold ≤ r'.headroom ↔ 2 * threshold + r.used ≤ max (2 * r.capacity) 1 := by
    unfold Registers.headroom
    rw [hused', hcap']
    split
    · omega
    · next hfree =>
      -- twice the threshold was free
      unfold Registers.headroom at hfree
      omega
  rw [Domain.headroom_of_registers hr']
  refine ⟨hws, ?_, ⟨r', hr', hcap'⟩, hmargin, fun hle => hmargin.2 (by omega)⟩
  exact (Domain.used_of_registers hr').trans hused'

/-- A main stack of sixteen words with two words on it is doubled once, under the default threshold of thirty-two. -/
theorem maybeExpand_margin_iff_sixteen : ∃ t, maybeExpand [.ofInt 1] (onMainOfTwo 400) = (.ok [.ofInt 1], t) ∧
    t.domain.used = 2 ∧ ¬ 64 ≤ t.domain.headroom := by
  obtain ⟨t, hrun⟩ := exists_of_fst (show
    (maybeExpand [.ofInt 1] (onMainOfTwo 400)).1 = .ok [.ofInt 1] by decide +kernel)
  have hcells : t.world.heap.capacity ≤ 2 ^ 32 := by
    rw [show t = (maybeExpand [.ofInt 1] (onMainOfTwo 400)).2 by rw [hrun]]
    decide +kernel
  obtain ⟨-, hused, -, hmargin, -⟩ := maybeExpand_margin_iff (budgeted_onMainOfTwo 400).balanced.toFreeListed
    (running_onMainOfTwo 400) hrun hcells
  exact ⟨t, hrun, hused, fun hle => absurd (hmargin.1 hle) (by decide)⟩

/-- **An expansion need not make its margin**, under the default settings. -/
theorem not_maybeExpand_margin : ¬ ∀ (s t : Active) (r : Registers) (x : Segment) (ws ws' : List Word),
    s.world.config.validate = .ok () → s.domain.blocking = 0 → s.world.heap.Budgeted → Running s r x →
    maybeExpand ws s = (.ok ws', t) → 2 * s.world.config.stackThresholdWords ≤ t.domain.headroom ∧ ws' = ws := by
  intro h
  have hfst : (maybeExpand [.ofInt 1] (onMainOfTwo 400)).1 = .ok [.ofInt 1] := by decide +kernel
  have hfree : (maybeExpand [.ofInt 1] (onMainOfTwo 400)).2.domain.headroom = 30 := by decide +kernel
  obtain ⟨t, hrun⟩ := exists_of_fst hfst
  have hmargin := (h (onMainOfTwo 400) t _ mainOfTwo [.ofInt 1] [.ofInt 1] (by decide +kernel) rfl
    (budgeted_onMainOfTwo 400) (running_onMainOfTwo 400) hrun).1
  rw [hrun] at hfree
  rw [hfree] at hmargin
  exact absurd hmargin (by decide)

end Act

end FiberStacks
