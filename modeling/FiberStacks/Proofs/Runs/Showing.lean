import FiberStacks.Proofs.Runs.Seated

/-!
# What a collector leaves

A collector is shown the roots of stacks, stores others in their place and has marks cleared.  It puts no mark, frees
no block and changes no capacity, so that the registers of all domains go on describing their stacks.

* `Heap.Tended` — no mark is put, and all that lasts is left;
* `tended_scanStack`, `tended_clean` — one stack shown, one mark cleared;
* `tended_cleanAll`, `tended_scanFrom` — and those made of them, by induction;
* `Act.Tends` — **an action that tends the heap** and leaves registers and queue alone;
* `tends_scanRoots`, `tends_scanAll`, `tends_scanQueued` — the passes of a domain.
-/

namespace FiberStacks

open FiberStacks.Action

variable {τ : Type}

/-! ### Heaps -/

namespace Heap

variable {h h' h'' : Heap} {b : BlockId} {d : DomainId} {x y : Segment} {v : Visitor τ} {t t' : τ} {layout : Layout}

/-- **No mark is put, and all that lasts is left.** -/
structure Tended (h h' : Heap) : Prop where
  loses : h.FreeListed → h.LosesMarks h'
  lasts : h.InOrder → h.Lasts (fun _ => False) h'

namespace Tended

theorem refl (h : Heap) : h.Tended h := ⟨fun hf => KeepsMarks.loses (.refl hf), .refl⟩

theorem trans (h₁ : h.Tended h') (h₂ : h'.Tended h'') : h.Tended h'' where
  loses hf := (h₁.loses hf).trans (h₂.loses (h₁.loses hf).freeListed)
  lasts hh := (h₁.lasts hh).trans (h₂.lasts (h₁.lasts hh).inOrder)

end Tended

theorem tended_setStack (hx : h.stack? b = some x) (hcap : y.capacity = x.capacity)
    (hy : ∀ o, y.owner = some o → x.owner = some o) : h.Tended (h.setStack b y) :=
  ⟨fun hf => losesMarks_setStack hf hx hy, fun hh => lasts_setStack hh hx hcap fun o ho => .inl (hy o ho)⟩

theorem tended_clean {r : Bool} (hc : h.clean d b = .ok (r, h')) : h.Tended h' := by
  obtain ⟨x, hx, ⟨-, rfl⟩ | ⟨-, rfl⟩⟩ := clean_eq_ok hc
  · exact tended_setStack hx rfl (by simp)
  · exact .refl _

theorem tended_cleanAll (h : Heap) (d : DomainId) : h.Tended (h.cleanAll d) := by
  have heach : ∀ (l : List BlockId) (h : Heap),
      h.Tended (l.foldl (fun h b => ((h.clean d b).map Prod.snd).toOption.getD h) h) := by
    intro l
    induction l with
    | nil => exact .refl
    | cons b l ih =>
      intro h
      rw [List.foldl_cons]
      refine Tended.trans ?_ (ih _)
      cases hc : h.clean d b with
      | error f => exact .refl h
      | ok p => exact tended_clean hc
  exact heach _ h

/-! ### Roots shown -/

def SameCapacity (s t : Segment × τ) : Prop := t.1.capacity = s.1.capacity

theorem keptByScan_sameCapacity : KeptByScan (SameCapacity : Segment × τ → Segment × τ → Prop) where
  refl _ := rfl
  trans h h' := Eq.trans h' h
  word x _ _ _ _ := x.capacity_setSlot _ _
  used x ws h _ _ := by
    have hused := x.used_le
    simp only [SameCapacity, Segment.capacity, Segment.setUsedRegion, List.length_append, List.length_reverse,
      List.length_drop]
    omega
  control _ _ _ _ _ := rfl

/-- **The roots of a stack are shown.** -/
theorem tended_scanStack (hr : h.scanStack layout v b t = .ok (h', t')) : h.Tended h' := by
  obtain ⟨x, hx, hr⟩ := bind_eq_ok_iff.1 hr
  have howner := Segment.owner_scan layout v (x, t)
  have hcap := keptByScan_sameCapacity.scan layout v (x, t)
  rcases hs : Segment.scan layout v (x, t) with ⟨_ | _, y, u⟩
  · simp [hs] at hr
  · simp only [hs, Except.ok.injEq, Prod.mk.injEq] at hr
    rw [wp_of_ok hs] at howner hcap
    exact hr.1 ▸ tended_setStack (stack_eq_ok_iff.1 hx) hcap fun o ho => howner.symm.trans ho

theorem tended_scanIfDirty {dirty : Bool} (hr : h.scanIfDirty layout v d b t = .ok (dirty, h', t')) : h.Tended h' := by
  obtain ⟨x, -, hr⟩ := bind_eq_ok_iff.1 hr
  split at hr
  · cases hp : h.scanStack layout v b t with
    | error e => simp [hp, Except.map] at hr
    | ok p =>
      simp only [hp, Except.map, Except.ok.injEq, Prod.mk.injEq] at hr
      obtain ⟨-, rfl, -⟩ := hr
      exact tended_scanStack hp
  · obtain ⟨-, rfl, -⟩ := by simpa only [Except.ok.injEq, Prod.mk.injEq] using hr
    exact .refl _

theorem tended_scanQueue {n : Nat} : ∀ {scans : Nat} {h h' : Heap} {queue seen : List BlockId} {t t' : τ},
    scanQueue layout v scans h queue seen t = .ok (n, h', t') → h.Tended h' := by
  intro scans
  induction scans with
  | zero =>
    intro h h' queue seen t t' hr
    obtain ⟨-, rfl, -⟩ := by simpa only [scanQueue, Except.ok.injEq, Prod.mk.injEq] using hr
    exact .refl _
  | succ scans ih =>
    intro h h' queue seen t t' hr
    unfold scanQueue at hr
    split at hr
    · obtain ⟨-, rfl, -⟩ := by simpa only [Except.ok.injEq, Prod.mk.injEq] using hr
      exact .refl _
    · obtain ⟨⟨h₁, t₁, found⟩, hscan, hr⟩ := bind_eq_ok_iff.1 hr
      exact (tended_scanStack hscan).trans (ih hr)

/-- **Every stack that can be reached is shown.** -/
theorem tended_scanFrom {n : Nat} {roots : List BlockId} (hr : h.scanFrom layout v roots t = .ok (n, h', t')) :
    h.Tended h' := tended_scanQueue hr

end Heap

/-! ### Actions -/

namespace Act

variable {α β : Type} {s t u : Active} {v : Visitor τ}

/-- **An action that tends the heap** and leaves number, registers and queue of the domain alone. -/
structure Tends (s t : Active) : Prop where
  heap : s.world.heap.Tended t.world.heap
  created : t.world.domainsCreated = s.world.domainsCreated
  id : t.domain.id = s.domain.id
  registers : t.domain.registers = s.domain.registers
  remembered : t.domain.remembered = s.domain.remembered

namespace Tends

theorem refl (s : Active) : Tends s s := ⟨.refl _, rfl, rfl, rfl, rfl⟩

theorem trans (h₁ : Tends s t) (h₂ : Tends t u) : Tends s u :=
  ⟨h₁.heap.trans h₂.heap, h₂.created.trans h₁.created, h₂.id.trans h₁.id, h₂.registers.trans h₁.registers,
    h₂.remembered.trans h₁.remembered⟩

theorem adopt {h : Heap} (hh : s.world.heap.Tended h) : Tends s { s with world := s.world.adopt h } :=
  ⟨hh, rfl, rfl, rfl, rfl⟩

theorem of_eq (hheap : t.world.heap = s.world.heap) (hcreated : t.world.domainsCreated = s.world.domainsCreated)
    (hid : t.domain.id = s.domain.id) (hregisters : t.domain.registers = s.domain.registers)
    (hremembered : t.domain.remembered = s.domain.remembered) : Tends s t :=
  ⟨hheap ▸ .refl _, hcreated, hid, hregisters, hremembered⟩

/-- **The marks after it** are marks of before. -/
theorem marked (h : Tends s t) (hf : s.world.heap.FreeListed) : Marked s t :=
  (h.heap.loses hf).marked h.id h.created fun _ _ hq => h.remembered ▸ hq

end Tends

theorem bookkeeping_tends : Bookkeeping Tends where
  trans h h' := h.trans h'
  of_alike h := .of_eq h.heap h.created h.id h.registers h.remembered
  alloc ho hsize ha := .adopt ⟨fun hf => (Heap.keepsMarks_alloc hf (Object.unmarked_of_ne ho) ha).loses,
    fun hh => Heap.lasts_alloc hh hsize (Object.unmarked_of_ne ho) ha⟩

theorem tends_bind {a : Act β} {f : β → Act α} (ha : a.Relates Tends) (hf : ∀ x, (f x).Relates Tends) :
    (a >>= f).Relates Tends :=
  bookkeeping_tends.bind ha hf

theorem tends_of_beside {a : Act α} (ha : a.Beside) : a.Relates Tends := bookkeeping_tends.relates ha

theorem tends_pure (a : α) : (pure a : Act α).Relates Tends := tends_of_beside (beside_pure a)

/-! ### Locks -/

theorem tends_modifyDomain {f : Domain → Domain} (hid : ∀ d, (f d).id = d.id)
    (hregisters : ∀ d, (f d).registers = d.registers) (hremembered : ∀ d, (f d).remembered = d.remembered) :
    (modifyDomain f).Relates Tends := fun s =>
  .of_eq rfl rfl (hid s.domain) (hregisters s.domain) (hremembered s.domain)

theorem tends_modifyWorld {f : World → World} (hheap : ∀ w, (f w).heap = w.heap)
    (hcreated : ∀ w, (f w).domainsCreated = w.domainsCreated) : (modifyWorld f).Relates Tends := fun s =>
  .of_eq (hheap s.world) (hcreated s.world) rfl rfl rfl

theorem tends_acquire (l : Lock) : (acquire l).Relates Tends := by
  refine tends_bind (relates_iff.2 fun s => .refl s) fun w => ?_
  split
  · exact tends_pure _
  · exact tends_bind (tends_modifyWorld (fun _ => rfl) fun _ => rfl) fun _ =>
      tends_bind (tends_modifyDomain (fun _ => rfl) (fun _ => rfl) fun _ => rfl) fun _ => tends_pure _

theorem tends_release (id : LockId) : (release id).Relates Tends := by
  refine tends_bind (tends_of_beside beside_domain) fun d => ?_
  split
  · exact tends_pure _
  · exact tends_bind (tends_modifyDomain (fun _ => rfl) (fun _ => rfl) fun _ => rfl) fun _ =>
      tends_bind (tends_of_beside (beside_unlockAll _)) fun _ => tends_pure _

/-! ### Words and roots of the stacks -/

theorem tends_setStack {b : BlockId} {f : Segment → Except Fault Segment}
    (hf : ∀ x y, f x = .ok y → y.capacity = x.capacity ∧ y.owner = x.owner) :
    (do setStack b (← check (f (← stack b))) : Act Unit).Relates Tends := by
  intro s
  simp only [wp_bind, wp_stack, wp_check, wp_setStack]
  refine ⟨fun x hx => ⟨fun y hy => ?_, fun _ _ => .refl s⟩, fun _ => .refl s⟩
  obtain ⟨hcap, howner⟩ := hf x y hy
  exact .adopt (Heap.tended_setStack hx hcap fun o ho => howner ▸ ho)

theorem tends_syncStack : syncStack.Relates Tends := by
  refine tends_bind (tends_of_beside beside_domain) fun d => ?_
  split
  · exact tends_pure _
  · exact tends_setStack fun x y hy => ⟨Segment.capacity_setPointer hy, Segment.owner_setPointer hy⟩

theorem tends_setRegisterSlot (offset : Option Int) : (setRegisterSlot offset).Relates Tends := by
  refine tends_bind (tends_of_beside beside_registers) fun r =>
    tends_bind (tends_of_beside (beside_require id _)) fun _ =>
    tends_setStack fun x y hy => ⟨Segment.capacity_setWord hy, Segment.owner_setWord hy⟩

theorem tends_scanStack (v : Visitor τ) (b : BlockId) (t : τ) : (scanStack v b t).Relates Tends := by
  intro s
  unfold scanStack
  simp only [wp_bind, wp_heap, wp_layout, wp_check, wp_setHeap, wp_pure]
  exact ⟨fun p hp => .adopt (Heap.tended_scanStack hp), fun _ _ => .refl s⟩

theorem tends_scanLocals (v : Visitor τ) (t : τ) : (scanLocals v t).Relates Tends :=
  tends_bind (tends_of_beside beside_domain) fun _ =>
    tends_bind (tends_modifyDomain (fun _ => rfl) (fun _ => rfl) fun _ => rfl) fun _ =>
      tends_pure _

theorem tends_scanPending (v : Visitor τ) (t : τ) : (scanPending v t).Relates Tends := by
  refine tends_bind (tends_of_beside beside_domain) fun d => ?_
  split
  · exact tends_pure _
  · exact tends_bind (tends_modifyDomain (fun _ => rfl) (fun _ => rfl) fun _ => rfl) fun _ =>
      tends_pure _

/-- **Showing the roots of a domain.** -/
theorem tends_scanRoots (v : Visitor τ) (t : τ) : (scanRoots v t).Relates Tends := by
  have hrest : ∀ t : τ, (scanLocals v t >>= scanPending v).Relates Tends := fun t =>
    tends_bind (tends_scanLocals v t) (tends_scanPending v)
  refine tends_bind tends_syncStack fun _ => tends_bind (tends_of_beside beside_domain) fun d => ?_
  simp only
  split
  · exact tends_bind (tends_scanStack v _ t) hrest
  · exact tends_bind (tends_pure _) hrest

/-- **Showing all stacks a domain can reach.** -/
theorem tends_scanAll (v : Visitor τ) (t : τ) : (scanAll v t).Relates Tends := by
  refine tends_bind tends_syncStack fun _ s => ?_
  simp only [wp_bind, wp_domain, wp_heap, wp_layout, wp_check, wp_setHeap, wp_pure]
  exact ⟨fun p hp => .adopt (Heap.tended_scanFrom hp), fun _ _ => .refl s⟩

/-- **Serving a queue**, by induction on it. -/
theorem tends_scanQueued (v : Visitor τ) (queue : List BlockId) : ∀ t : τ, (scanQueued v queue t).Relates Tends := by
  induction queue with
  | nil => exact fun t => tends_pure _
  | cons b queue ih =>
    intro t s
    have hrest : ∀ {t : τ} {m : Active}, Tends s m →
        (scanQueued v queue t).wp m (fun _ u => Tends s u) fun _ u => Tends s u := fun hm =>
      wp_mono (ih _ _) (fun _ _ hu => hm.trans hu) fun _ _ hu => hm.trans hu
    unfold scanQueued
    simp only [wp_bind, wp_heap]
    split
    · simp only [wp_bind, wp_domain, wp_layout, wp_check, wp_setHeap]
      refine ⟨?_, fun _ _ => .refl s⟩
      rintro ⟨dirty, h, t'⟩ hscan
      have hshown := Heap.tended_scanIfDirty hscan
      cases dirty with
      | false => exact hrest (.adopt hshown)
      | true =>
        simp only [if_true, wp_bind, wp_check, wp_setHeap, wp_pure]
        refine ⟨?_, fun _ _ => .adopt hshown⟩
        rintro ⟨r, h'⟩ hclean
        exact hrest ((Tends.adopt hshown).trans (.adopt (Heap.tended_clean hclean)))
    · exact hrest (.refl s)

end Act

end FiberStacks
