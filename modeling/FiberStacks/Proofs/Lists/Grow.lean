import FiberStacks.Proofs.Growth.Ends
import FiberStacks.Proofs.Lists.Fresh
import FiberStacks.Proofs.Lists.Switch
import Mathlib.Data.List.Nodup

/-!
# Growth

Growing the current fiber moves its words to a larger block, which takes the place of the old one.  Where there is no
memory for it, or the stack is at its limit, every list is as it was.

* `Moved` — the current fiber may be another block, with the same words;
* `tryGrow_spec` — **growth**, with all its ends;
* `grow_spec`, `ensure_spec`, `maybeExpand_spec` — growth that raises, and growth when needed.
-/

namespace FiberStacks

open FiberStacks.Action

/-- The stops of growth: no stack is that large. -/
def Stop.Unbounded (e : Stop) : Prop :=
  e = .fault .sizeTooLarge ∨ e = .fault .sumTooLarge ∨ e = .fault .productTooLarge

/-- The stops of growth by so many words: it is raised that there is no room, or no stack is that large. -/
def Stop.Cramped (r : Registers) (required : Nat) (e : Stop) : Prop :=
  e.Raising ∨ (e.Unbounded ∧ max (2 * r.capacity) 1 < r.used + required)

/-- The domain runs on a block with room for so many words, of which some are used. -/
def Roomy (b : BlockId) (used needed : Nat) (t : Active) : Prop :=
  ∃ x size, Running t ⟨b, used, size⟩ x ∧ needed ≤ size

section Moved

variable {f : List BlockId} {n : Nat} {a t : Active} {b : BlockId}

/-- **The fiber number `n` may be another block**, with the same words. -/
structure Moved (f : List BlockId) (n : Nat) (b : BlockId) (a t : Active) : Prop where
  acts : Acts f (f.set n b) n a t
  words : (f.set n b).map t.words = f.map a.words

theorem map_words_set {old : BlockId} (hn : f[n]? = some old) (hnodup : f.Nodup)
    (hold : ∀ c ∈ f, c ≠ old → t.words c = a.words c) :
    (f.set n b).map t.words = (f.map a.words).set n (t.words b) := by
  have hlt : n < f.length := (List.getElem?_eq_some_iff.1 hn).1
  refine List.ext_getElem? fun i => ?_
  rw [List.getElem?_map]
  by_cases hi : n = i
  · rw [← hi, List.getElem?_set_self hlt, List.getElem?_set_self (by simpa using hlt)]
    rfl
  · rw [List.getElem?_set_ne hi, List.getElem?_set_ne hi, List.getElem?_map]
    cases hc : f[i]? with
    | none => rfl
    | some c =>
      refine congrArg some (hold c (List.mem_of_getElem? hc) fun he => hi ?_)
      exact (List.getElem?_inj hlt hnodup).1 (hn.trans (he ▸ hc.symm))

theorem set_self {old : BlockId} (hn : f[n]? = some old) : f.set n old = f := by
  obtain ⟨_, hold⟩ := List.getElem?_eq_some_iff.1 hn
  rw [← hold, List.set_getElem_self]

theorem set_words {old : BlockId} (hn : f[n]? = some old) : (f.map a.words).set n (a.words old) = f.map a.words := by
  rw [← List.map_set, set_self hn]

theorem Moved.of_words {old : BlockId} (h : Acts f (f.set n b) n a t) (hn : f[n]? = some old)
    (hb : t.words b = a.words old) (hold : ∀ c ∈ f, c ≠ old → t.words c = a.words c) (hnodup : f.Nodup) :
    Moved f n b a t := by
  refine ⟨h, ?_⟩
  rw [map_words_set hn hnodup hold, hb, set_words hn]

theorem Idle.moved (h : Idle f n a t) (hn : f[n]? = some b) : Moved f n b a t := by
  refine ⟨(set_self hn).symm ▸ h.acts, ?_⟩
  rw [set_self hn]
  exact List.map_congr_left h.words

theorem Moved.after {m : Nat} {u : Active} (h : Moved f n b t u) (hi : Idle f m a t) : Moved f n b a u :=
  ⟨hi.acts.trans h.acts, h.words.trans (List.map_congr_left hi.words)⟩

end Moved

namespace Act

variable {f : List BlockId} {n : Nat} {a t : Active} {b : BlockId}

/-! ### The replacement -/

/-- **The domain runs on a new fiber, and the old one is retired.** -/
theorem moveTo_spec {r : Registers} {x y : Segment} (saved : List Word) (h : Owns (f ++ [b]) n a) (hs : Saved a r x)
    (hn : f[n]? = some r.current) (hy : a.world.heap.stack? b = some y) :
    (moveTo r.current b saved).wp a
      (fun p t => p = (.ok b, saved) ∧ Acts (f ++ [b]) (f.set n b) n a t ∧ Running t ⟨b, y.used, y.capacity⟩ y ∧
        ∀ c ∈ f ++ [b], c ≠ r.current → t.words c = a.words c) fun _ _ => False := by
  have hlast : (f ++ [b])[f.length]? = some b := by simp
  have hlt : n < f.length := (List.getElem?_eq_some_iff.1 hn).1
  have hmem : r.current ∈ f := List.mem_of_getElem? hn
  obtain ⟨hf, -, hdisjoint⟩ := List.nodup_append.1 h.nodup
  have hb : b ∉ f := fun hb => hdisjoint b hb b (List.mem_singleton.2 rfl) rfl
  have hne : b ≠ r.current := fun he => hb (he ▸ hmem)
  refine wp_bind_of_returns (loadStack_spec h hs hlast) ?_
  rintro - t ⟨hidle, hw, z, hz⟩
  have hold : t.world.heap.stack? r.current = some x := by rw [hw]; exact hs.stack
  obtain rfl : z = y := Option.some.inj (hz.stack.symm.trans (by rw [hw]; exact hy))
  rw [wp_bind]
  refine wp_stack_of hold ?_
  rw [wp_bind, wp_setStack, wp_pure]
  have hput := hidle.acts.owns.acts_put x.retire (List.mem_append_left _ hmem) hold rfl (.inl rfl)
  refine ⟨rfl, (hidle.acts.trans hput).of_subset (hf.set hb) (fun c hc => ?_) ?_,
    ⟨hz.registers, ?_, rfl, z.used_le⟩, fun c hc hcr => ?_⟩
  · exact (List.mem_or_eq_of_mem_set hc).elim (List.mem_append_left _) fun he => by simp [he]
  · rw [hlast, List.getElem?_set_self hlt]
  · exact (stack?_put hold _).trans ((if_neg hne).trans hz.stack)
  · exact (words_put_of_ne hold hcr).trans (hidle.words c hc)

/-! ### Growth -/

theorem settle_spec {r : Registers} {x y : Segment} {h' : Heap} {path : AllocPath} (saved : List Word)
    (h : Owns f n a) (hs : Saved a r x) (hn : f[n]? = some r.current) (hused : y.used = x.used)
    (hslots : y.slots.take x.used = x.slots.take x.used) (howner : y.owner = none)
    (ha : a.world.heap.alloc (.stack y) path = .ok (b, h')) :
    (settle r.current x.owner a.domain.id b saved).wp { a with world := a.world.adopt h' }
      (fun p t => p = (.ok b, saved) ∧ Moved f n b a t ∧
        ∃ z, Running t ⟨b, r.used, y.capacity⟩ z) fun _ _ => False := by
  have hpos : 0 < (Object.stack y).size := Nat.succ_pos _
  obtain ⟨hacts, hold, hnew⟩ := acts_alloc h ha howner
  obtain ⟨hnone, hstack⟩ := h.growing.stack?_alloc hpos ha
  have hne : r.current ≠ b := by
    rintro rfl
    simp [hs.stack] at hnone
  have hs₁ : Saved { a with world := a.world.adopt h' } r x :=
    ⟨⟨hs.registers, (hstack _ hne).trans hs.stack, hs.capacity, hs.used_le⟩, hs.used_eq⟩
  -- whatever follows, the words of the new block are those of the old one
  have finish : ∀ u : Active, Idle (f ++ [b]) n { a with world := a.world.adopt h' } u → Saved u r x →
      (∃ z, u.world.heap.stack? b = some z ∧ z.slots = y.slots ∧ z.used = y.used) →
      (moveTo r.current b saved).wp u
        (fun p t => p = (.ok b, saved) ∧ Moved f n b a t ∧ ∃ z, Running t ⟨b, r.used, y.capacity⟩ z)
        fun _ _ => False := by
    rintro u hidle hsu ⟨z, hz, hzslots, hzused⟩
    refine wp_of_returns (moveTo_spec saved hidle.acts.owns hsu hn hz) ?_
    rintro p t ⟨hp, ht, hrun, hwords⟩
    have hmem : r.current ∈ f := List.mem_of_getElem? hn
    refine ⟨hp, .of_words (hacts.trans (hidle.acts.trans ht)) hn ?_ (fun c hc hcr => ?_) h.nodup, z, ?_⟩
    · have hb := (hwords b (by simp) hne.symm).trans (hidle.words b (by simp))
      rw [hb, hnew, hused, hslots, Active.words_eq hs.stack, Active.usedOf_current hs.registers, hs.used_eq]
    · have hc' : c ∈ f ++ [b] := List.mem_append_left _ hc
      exact (hwords c hc' hcr).trans ((hidle.words c hc').trans (hold c hc))
    · have hcap : z.capacity = y.capacity := congrArg List.length hzslots
      rw [hzused, hused, hs.used_eq, hcap] at hrun
      exact hrun
  have hself := h.growing.stack?_alloc_self ha
  have hmine := h.mine (List.mem_of_getElem? hn) hs.stack
  unfold settle
  rcases hmine.owner with ho | ho
  · rw [ho]
    exact finish _ hacts.owns.idle hs₁ ⟨y, hself, rfl, rfl⟩
  · rw [ho]
    simp only
    rw [wp_bind, wp_require]
    refine ⟨fun _ => ?_, fun hne => absurd rfl hne⟩
    refine wp_bind_of_returns (markDirty_spec hacts.owns (by simp) hself) ?_
    rintro - u ⟨hidle, hreg, hother, hu⟩
    refine finish u hidle ⟨⟨hreg.trans hs₁.registers, ?_, hs.capacity, hs.used_le⟩, hs.used_eq⟩ hu
    exact (hother _ hne).trans hs₁.stack

/-- **Growth**: the current fiber moves to a larger block, or nothing changes. -/
theorem tryGrow_spec {r : Registers} {x : Segment} (required : Nat) (saved : List Word) (h : Owns f n a)
    (hr : Running a r x) (hn : f[n]? = some r.current) :
    (tryGrow required saved).wp a
      (fun p t => p.2 = saved ∧ (∀ e, p.1 = .error e → Idle f n a t ∧ ∀ s, e ≠ .invalidArgument s) ∧
        ∀ b, p.1 = .ok b → Moved f n b a t ∧ Roomy b r.used (r.used + required) t)
      fun e t => Idle f n a t ∧ e.Unbounded ∧ max (2 * r.capacity) 1 < r.used + required := by
  refine wp_tryGrow_of_ends required saved (fun hblock => absurd h.calm.blocking hblock) ?_
  refine wp_of_returns (saveStack_spec h hr) ?_
  rintro _ t ⟨rfl, hidle, y, hs, -⟩
  refine ⟨fun hgone => absurd (hs.stack.symm.trans hgone) nofun, fun y' hy => ?_⟩
  obtain rfl := Option.some.inj (hs.stack.symm.trans hy)
  have hused : y.used = r.used := hs.used_eq
  have hcap : y.capacity = r.capacity := hs.capacity.symm
  have hsmall : r.capacity < 2 ^ 32 := hr.capacity ▸ (h.mine (h.mem_running hr) hr.stack).small
  have hle : r.used ≤ r.capacity := hr.capacity ▸ hr.used_le
  have hnoted : ∀ size, Idle f n t (t.noted (.growing size)) := fun _ =>
    Aside.idle ⟨rfl, rfl, rfl, rfl, rfl, rfl, id⟩ hidle.acts.owns
  have hs' : ∀ size, Saved (t.noted (.growing size)) r y := fun _ =>
    ⟨⟨hs.registers, hs.stack, hs.capacity, hs.used_le⟩, hs.used_eq⟩
  -- a size beyond one doubling was needed
  have hdoubled : ∀ {size}, Growth.of t.domain.limit (y.used + required) y.capacity = .reaches size →
      2 ^ 60 ≤ size → max (2 * r.capacity) 1 < r.used + required := fun hsize hlarge => by
    rw [hused, hcap] at hsize
    exact (Growth.eq_of_reaches hsize).resolve_left fun he => by omega
  refine ⟨fun p u hend => ?_, fun e u hend => ?_⟩
  · cases hend with
    | overLimit hof =>
      refine ⟨rfl, fun e he => ?_, nofun⟩
      obtain rfl := Except.error.inj he
      exact ⟨hidle, fun s => by simp⟩
    | full hof hsize hfull =>
      refine ⟨rfl, fun e he => ?_, nofun⟩
      obtain rfl := Except.error.inj he
      exact ⟨hidle.trans (hnoted _), fun s => by simp⟩
    | @fits size z new h' _ _ hof hsize hz ha hrun =>
      obtain ⟨rfl, hmoved, w, hw⟩ := (wp_of_ok hrun).1
        (settle_spec saved (hnoted size).acts.owns (hs' size) hn hz.used hz.slots hz.owner ha)
      refine ⟨rfl, nofun, fun b hb => ?_⟩
      obtain rfl := Except.ok.inj hb
      rw [hz.capacity] at hw
      exact ⟨hmoved.after (hidle.trans (hnoted size)), w, size, hw, hused ▸ Growth.needed_le_of_reaches hof⟩
  · cases hend with
    | sumTooLarge hlarge =>
      rw [Size.bound_eq] at hlarge
      exact ⟨hidle, .inr (.inl rfl), by omega⟩
    | tooLarge hof =>
      rw [hused, hcap] at hof
      refine ⟨hidle, .inr (.inr rfl), Growth.lt_of_tooLarge hof ?_⟩
      rw [Size.bound_eq]
      omega
    | unwritten hof hnote =>
      refine ⟨hidle, .inr (.inr rfl), hdoubled hof (Nat.le_of_not_lt fun hlt => hnote fun _ => ?_)⟩
      rw [Size.bound_eq, wordBytes]
      omega
    | huge hof _ hsize =>
      rw [Size.allocatable_eq] at hsize
      exact ⟨hidle.trans (hnoted _), .inl rfl, hdoubled hof (by omega)⟩
    | @fits size z new h' _ _ hof hsize hz ha hrun =>
      exact ((wp_of_error hrun).1
        (settle_spec saved (hnoted size).acts.owns (hs' size) hn hz.used hz.slots hz.owner ha)).elim

/-- **Growth that raises.** -/
theorem grow_spec {r : Registers} {x : Segment} (required : Nat) (saved : List Word) (h : Owns f n a)
    (hr : Running a r x) (hn : f[n]? = some r.current) :
    (grow required saved).wp a
      (fun p t => p.2 = saved ∧ Moved f n p.1 a t ∧ Roomy p.1 r.used (r.used + required) t)
      fun e t => Idle f n a t ∧ e.Cramped r required := by
  unfold grow
  refine wp_bind_of (tryGrow_spec required saved h hr hn) ?_ fun e t he => ⟨he.1, .inr he.2⟩
  rintro ⟨p, saved⟩ t ⟨hp, herror, hok⟩
  cases p with
  | error e =>
    obtain ⟨ht, he⟩ := herror e rfl
    rw [wp_bind]
    refine wp_of_stops (raiseFailure_spec he ht.acts.owns.calm) ?_
    rintro e u ⟨he, hu⟩
    exact ⟨ht.trans (hu.idle ht.acts.owns), .inl he⟩
  | ok b => exact ⟨hp, hok b rfl⟩

theorem roomy_of_headroom {r : Registers} {x : Segment} {required : Nat} (hr : Running a r x)
    (h : ¬ a.domain.headroom < required) : Roomy r.current r.used (r.used + required) a := by
  have hle : r.used ≤ r.capacity := hr.capacity ▸ hr.used_le
  have hfree : required ≤ r.capacity - r.used := by
    simpa [Domain.headroom, hr.registers, Registers.headroom] using h
  exact ⟨x, r.capacity, hr, by omega⟩

/-- **Room made where there is none.** -/
theorem ensure_spec {r : Registers} {x : Segment} (required : Nat) (h : Owns f n a) (hr : Running a r x)
    (hn : f[n]? = some r.current) :
    (ensure required).wp a (fun _ t => ∃ b, Moved f n b a t ∧ Roomy b r.used (r.used + required) t)
      fun e t => Idle f n a t ∧ e.Cramped r required := by
  unfold ensure
  simp only [wp_bind, wp_domain]
  split
  · exact wp_bind_of (grow_spec required [] h hr hn) (fun p t ht => ⟨p.1, ht.2⟩) fun _ _ he => he
  · next hfree => exact ⟨r.current, h.idle.moved hn, roomy_of_headroom hr hfree⟩

theorem maybeExpand_spec {r : Registers} {x : Segment} (ws : List Word) (h : Owns f n a) (hr : Running a r x)
    (hn : f[n]? = some r.current) :
    (maybeExpand ws).wp a (fun ws' t => ws' = ws ∧ ∃ b, Moved f n b a t ∧ Roomy b r.used r.used t)
      fun e t => Idle f n a t ∧ (e.Raising ∨
        e = .fault .productTooLarge ∧ Size.bound ≤ 2 * a.world.config.stackThresholdWords) := by
  have hle : r.used ≤ r.capacity := hr.capacity ▸ hr.used_le
  unfold maybeExpand
  simp only [wp_bind, wp_domain, wp_config, wp_check_double]
  refine ⟨fun _ => ?_, fun hlarge => ⟨h.idle, .inr ⟨trivial, hlarge⟩⟩⟩
  split
  · refine wp_bind_of (grow_spec 0 ws h hr hn) ?_ ?_
    · rintro p t ⟨hp, ht, hroom⟩
      exact ⟨hp, p.1, ht, hroom⟩
    · rintro e t ⟨ht, he | ⟨-, hlt⟩⟩
      · exact ⟨ht, .inl he⟩
      · omega
  · exact ⟨rfl, r.current, h.idle.moved hn, x, r.capacity, hr, hle⟩

end Act

end FiberStacks
