import FiberStacks.Proofs.Runs.Seated

/-!
# Growth, pushes and pops

Growth replaces the current segment under the registers by one that has room for the words in use and for as many as
were asked for.  So a push that returns has a place for its word, and a pop finds the word on top.

* `saveStack_owner` — why growth finds no foreign mark;
* `tryGrow_lasts`, `ensure_lasts` — **growth leaves a domain in order**, with room where it succeeds;
* `push_lasts`, `pop_lasts` — what a push and a pop leave.
-/

namespace FiberStacks

open FiberStacks.Action

def Active.top? (s : Active) : Option Word :=
  s.domain.registers.bind fun r => (s.world.heap.stack? r.current).bind fun x => x.word? r.pointer

namespace Act

variable {spent : BlockId → Prop} {s t u : Active} {b old new : BlockId} {x y : Segment}
  {required : Nat} {saved : List Word}

theorem markDirty_owner (hs : s.world.heap.MarksOld) (b : BlockId) :
    (markDirty b).wp s (fun _ t => ∀ o, t.world.heap.owner? b = some o → o = t.domain.id) fun _ _ => True := by
  refine wp_markDirty.2 ⟨fun hyoung o ho => ?_, fun _ => ⟨fun x hx => ⟨fun _ o ho => ?_, fun hown o ho => ?_,
    fun _ _ _ => trivial⟩, fun _ => trivial⟩⟩
  · -- a young stack has no mark at all
    rw [Heap.isYoung, hs b o ho] at hyoung
    cases hyoung
  · rw [World.heap_adopt, Heap.owner?_setStack_self hx] at ho
    exact (Option.some.inj ho).symm
  · rw [Heap.owner?_of_stack? hx, hown] at ho
    exact (Option.some.inj ho).symm

/-- **A stack that was saved** carries no foreign mark. -/
theorem saveStack_owner (hs : s.Settled) :
    saveStack.wp s (fun b t => ∀ o, t.world.heap.owner? b = some o → o = t.domain.id) fun _ _ => True := by
  unfold saveStack
  simp only [wp_bind, wp_registers]
  refine ⟨fun r _ => ?_, fun _ => trivial⟩
  refine wp_of_returns (syncStack_returns hs) ?_
  rintro - t ⟨ht, -⟩
  exact wp_mono (markDirty_owner ht.heap.inOrder.marksOld r.current) (fun _ _ h => h) fun _ _ _ => trivial

theorem markDirty_pointer (hx : s.world.heap.stack? b = some x) :
    (markDirty b).wp s (fun _ t => ∃ y, t.world.heap.stack? b = some y ∧ y.used = x.used ∧ y.capacity = x.capacity)
      fun _ _ => True := by
  refine wp_markDirty_of ⟨x, hx, rfl, rfl⟩ (fun z _ hz _ => ?_) fun _ => trivial
  obtain rfl := Option.some.inj (hx.symm.trans hz)
  exact ⟨_, (Heap.stack?_setStack hx _).trans (if_pos rfl), rfl, rfl⟩

/-! ### Growing -/

/-- There is room for so many more words on the current stack. -/
def Room (n : Nat) (t : Active) : Prop := ∃ r, t.domain.registers = some r ∧ r.used + n ≤ r.capacity

theorem moveTo_lasts (hu : s.Lasts spent u) (hy : u.world.heap.stack? new = some y)
    (hroom : y.used + required ≤ y.capacity) :
    (moveTo old new saved).wp u (fun _ t => s.Lasts spent t ∧ Room required t)
      fun e t => s.Lasts spent t ∧ ¬ e.Misplaced := by
  unfold moveTo
  rw [wp_bind]
  refine wp_mono (wp_and ((settles_loadStack new).wp_of hu) (?_ : (loadStack new).wp u (fun _ t =>
    t.domain.registers = some ⟨new, y.used, y.capacity⟩) fun _ _ => True)) ?_ fun _ _ h => h.1
  · exact wp_loadStack_of hy rfl
  · rintro - t ⟨ht, hr⟩
    simp only [wp_bind, wp_stack, wp_setStack, wp_pure]
    refine ⟨fun x hx => ⟨?_, _, hr, hroom⟩, fun _ => ⟨ht, id⟩⟩
    have howner : ∀ o, x.retire.owner ≠ some o := fun o => by simp [Segment.retire]
    exact ht.trans (.adopt ht.settled (Heap.lasts_setStack ht.heap.inOrder hx (Segment.capacity_retire x)
      fun o ho => absurd ho (howner o)))

/-- **Growth**: it fails with the old stack in place, or there is room on the new one. -/
theorem tryGrow_lasts (required : Nat) (saved : List Word) (hs : s.Settled) :
    (tryGrow required saved).wp s (fun p t => s.Lasts spent t ∧ ∀ b, p.1 = .ok b → Room required t)
      fun e t => s.Lasts spent t ∧ ¬ e.Misplaced := by
  refine wp_tryGrow (fun f hf => ⟨.refl hs, hf⟩)
    (wp_mono (wp_and (handling_settles.saveStack s hs) (saveStack_owner hs)) ?_ fun _ _ h => h.1)
  rintro old t ⟨ht, howner⟩
  -- the new stack is allocated beside the others
  have hgrown : ∀ {x y : Segment} {new h} {u : Active}, y.Replaces x →
      t.world.heap.alloc (.stack y) .normal = .ok (new, h) → Alike { t with world := t.world.adopt h } u →
      s.Lasts spent u ∧ u.world.heap.stack? new = some y := by
    intro x y new h u hy ha hu
    have hsize : 0 < (Object.stack y).size := Nat.succ_pos _
    have hnew : t.Lasts spent { t with world := t.world.adopt h } :=
      .adopt ht.settled (Heap.lasts_alloc ht.heap.inOrder hsize (Object.unmarked_stack hy.owner) ha)
    refine ⟨(ht.trans hnew).trans (.of_alike hnew.settled hu), ?_⟩
    obtain ⟨-, hcell⟩ := ht.heap.inOrder.budgeted.balanced.alloc_cell? (.inl hsize) ha
    have hheap : u.world.heap = h := hu.heap
    rw [hheap]
    exact Heap.stack?_of_cell? (by rw [hcell, if_pos rfl])
  have hused : ∀ {x y : Segment}, y.Replaces x → y.used = x.used := fun hy => by
    have hlen := congrArg List.length hy.usedRegion
    rwa [Segment.length_usedRegion, Segment.length_usedRegion] at hlen
  have finish : ∀ {y : Segment} {new : BlockId} {u : Active}, s.Lasts spent u →
      u.world.heap.stack? new = some y → y.used + required ≤ y.capacity →
      (moveTo old new saved).wp u (fun p v => s.Lasts spent v ∧ ∀ b, p.1 = .ok b → Room required v)
        fun e v => s.Lasts spent v ∧ ¬ e.Misplaced := fun hu hy hroom =>
    wp_mono (moveTo_lasts hu hy hroom) (fun _ _ h => ⟨h.1, fun _ _ => h.2⟩) fun _ _ h => h
  refine ⟨fun f u hf hu => ?_, fun e u hu => ⟨ht.trans (.of_alike ht.settled hu), nofun⟩,
    fun x y new h u hx ho hy hroom ha hu => ?_, fun x y new h u hx ho hy hroom ha hu => ?_,
    fun x y new h u o hx ho hne hy ha hu => ?_⟩
  · exact ⟨ht.trans (.of_alike ht.settled hu), hf⟩
  · obtain ⟨hu, hstack⟩ := hgrown hy ha hu
    exact finish hu hstack ((hused hy).symm ▸ hroom)
  · obtain ⟨hu, hstack⟩ := hgrown hy ha hu
    refine wp_bind_of (wp_and ((settles_markDirty new).wp_of hu) (markDirty_pointer hstack)) ?_ fun _ _ h => h.1
    rintro - v ⟨hv, z, hz, hzused, hzcap⟩
    refine finish hv hz ?_
    rw [hzused, hzcap, hused hy]
    exact hroom
  · exact absurd (howner o ((Heap.owner?_of_stack? hx).trans ho)) hne

theorem settles_tryGrow (required : Nat) (saved : List Word) : (tryGrow required saved).Settles spent := fun _ hs =>
  wp_mono (tryGrow_lasts required saved hs) (fun _ _ h => h.1) fun _ _ h => h

/-- **Growth that raises.** -/
theorem grow_lasts (required : Nat) (saved : List Word) (hs : s.Settled) :
    (grow required saved).wp s (fun _ t => s.Lasts spent t ∧ Room required t)
      fun e t => s.Lasts spent t ∧ ¬ e.Misplaced := by
  unfold grow
  refine wp_bind_of (tryGrow_lasts required saved hs) ?_ fun _ _ h => h
  rintro ⟨r, ws⟩ t ⟨ht, hroom⟩
  cases r with
  | ok b => exact ⟨ht, hroom b rfl⟩
  | error f =>
    rw [wp_bind]
    exact wp_mono (wp_and ((settles_of_beside (beside_raiseFailure f)).wp_of ht) (stops_raiseFailure f t))
      (fun _ _ h => h.2.elim) fun _ _ h => h.1

/-- **There is room** for the words that were to fit. -/
theorem ensure_lasts (hpos : 0 < required) (hs : s.Settled) :
    (ensure required).wp s (fun _ t => s.Lasts spent t ∧ Room required t)
      fun e t => s.Lasts spent t ∧ ¬ e.Misplaced := by
  unfold ensure
  simp only [wp_bind, wp_domain]
  split
  · rw [wp_bind]
    exact grow_lasts required [] hs
  · next hroom =>
    refine ⟨.refl hs, ?_⟩
    unfold Domain.headroom at hroom
    cases hr : s.domain.registers with
    | none =>
      rw [hr] at hroom
      exact absurd hpos hroom
    | some r =>
      rw [hr] at hroom
      obtain ⟨x, hx⟩ := hs.running hr
      have hused := hx.used_le
      refine ⟨r, hr, ?_⟩
      rw [hx.capacity]
      change ¬ r.capacity - r.used < required at hroom
      rw [hx.capacity] at hroom
      omega

/-! ### Words -/

/-- **A push** that returns has written its word, on top of the current stack. -/
theorem push_lasts (w : Word) (hs : s.Settled) :
    (push w).wp s (fun _ t => s.Lasts (fun _ => False) t ∧ t.top? = some w)
      fun e t => s.Lasts (fun _ => False) t ∧ ¬ e.Misplaced := by
  unfold push
  refine wp_bind_of (settles_of_beside (beside_guardBlocking .push) s hs) (fun _ t ht => ?_) fun _ _ h => h
  refine wp_bind_of (ensure_lasts Nat.one_pos ht.settled) ?_ fun _ _ h => ⟨ht.trans h.1, h.2⟩
  rintro - u ⟨hu, r, hr, hroom⟩
  obtain ⟨x, hx⟩ := hu.settled.running hr
  have hlt : r.used < x.capacity := by
    rw [hx.capacity] at hroom
    exact hroom
  have hset := Segment.setWord_of_lt (o := Registers.pointer { r with used := r.used + 1 }) w
    (by simp only [Registers.pointer]; omega) hlt
  have hput : u.world.heap.Lasts (fun _ => False) (u.world.heap.setStack r.current (x.setSlot r.used w)) :=
    Heap.lasts_setStack_of_owner hu.heap.inOrder hx.stack (x.capacity_setSlot _ _) rfl
  have hself : (u.world.heap.setStack r.current (x.setSlot r.used w)).stack? r.current = some (x.setSlot r.used w) :=
    (Heap.stack?_setStack hx.stack _).trans (if_pos rfl)
  rw [wp_bind]
  refine wp_registers_of hr ?_
  rw [wp_bind]
  refine wp_stack_of hx.stack ?_
  rw [hset, wp_bind, wp_check_ok, wp_bind, wp_setStack, wp_modifyDomain]
  refine ⟨(ht.trans hu).trans ⟨hput, fun r' hr' => ?_, rfl, rfl, List.Subset.refl _⟩, ?_⟩
  · obtain rfl := Option.some.inj hr'
    exact ⟨_, hself, hx.capacity.trans (x.capacity_setSlot _ _).symm, (x.capacity_setSlot r.used w).symm ▸ hlt⟩
  · unfold Active.top?
    simp only [World.heap_adopt, Option.bind_some]
    rw [hself, Option.bind_some, Segment.word?_of_lt (k := r.used) (by simp only [Registers.pointer]; omega)
      ((x.capacity_setSlot r.used w).symm ▸ hlt)]
    exact List.getElem?_set_self hlt

theorem settles_push (w : Word) : (push w).Settles spent := fun _ hs =>
  wp_mono (push_lasts w hs) (fun _ _ h => h.1.of_none) fun _ _ h => ⟨h.1.of_none, h.2⟩

/-- **A pop** finds a word unless none is in use. -/
theorem pop_lasts (hs : s.Settled) :
    pop.wp s (fun w t => s.Lasts (fun _ => False) t ∧ (w = none → s.domain.used = 0))
      fun e t => s.Lasts (fun _ => False) t ∧ ¬ e.Misplaced := by
  unfold pop guardBlocking
  simp only [wp_bind, wp_domain, wp_require]
  refine ⟨fun _ => ?_, fun _ => ⟨.refl hs, id⟩⟩
  cases hr : s.domain.registers with
  | none => exact ⟨.refl hs, fun _ => by rw [Domain.used, hr]; rfl⟩
  | some r =>
    obtain ⟨x, hx⟩ := hs.running hr
    have hused := hx.used_le
    simp only
    split
    · next hzero => exact ⟨.refl hs, fun _ => (Domain.used_of_registers hr).trans hzero⟩
    · next hpos =>
      rw [wp_bind]
      refine wp_stack_of hx.stack ?_
      rw [wp_bind, wp_modifyDomain, wp_pure]
      refine ⟨⟨.refl hs.heap, fun r' hr' => ?_, rfl, rfl, List.Subset.refl _⟩, fun hnone => ?_⟩
      · obtain rfl := Option.some.inj hr'
        exact ⟨x, hx.stack, hx.capacity, (Nat.sub_le _ _).trans hused⟩
      · have hlt : r.used - 1 < x.slots.length := by
          change r.used ≤ x.slots.length at hused
          omega
        rw [Segment.word?_of_lt (k := r.used - 1) (by unfold Registers.pointer; omega) hlt,
          List.getElem?_eq_getElem hlt] at hnone
        cases hnone

theorem settles_pop : pop.Settles spent := fun _ hs =>
  wp_mono (pop_lasts hs) (fun _ _ h => h.1.of_none) fun _ _ h => ⟨h.1.of_none, h.2⟩

end Act

end FiberStacks
