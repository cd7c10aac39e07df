import FiberStacks.Proofs.Lists.Owned

/-!
# New fibers

Allocating a fiber puts a list with the trap sentinel beside the others.  Where there is no memory for it, every list
is as it was.

* `raiseExn_spec` — raising an exception between calls changes nothing but domain and log;
* `acts_alloc` — a new stack becomes a fiber;
* `newStackOf_spec` — a new fiber with the trap sentinel.
-/

namespace FiberStacks

open FiberStacks.Action

/-- The stops of a raise: an exception is pending, or the process has ended. -/
def Stop.Raising : Stop → Prop
  | .raised | .fatal _ => True
  | .fault _ => False

/-- The stops of a new fiber: it is raised that memory ran out, or there is no stack of that size. -/
def Stop.NewFiber (e : Stop) : Prop := e.Raising ∨ e = .fault .sizeTooLarge ∨ e = .fault .sumTooLarge

namespace Act

variable {α : Type} {f : List BlockId} {n : Nat} {a t : Active} {b : BlockId}

/-! ### Raising -/

theorem raise_spec (w : Word) (hc : a.domain.Calm) :
    (raise w : Act α).wp a (fun _ _ => False) fun e t => e.Raising ∧ Aside a t := by
  unfold raise unwindTo unlockAll
  simp only [wp_bind, wp_modifyDomain, wp_domain]
  split
  · simp only [wp_bind, wp_heap, wp_die]
    exact ⟨trivial, rfl, rfl, rfl, rfl, rfl, rfl, fun hc => ⟨hc.frames, hc.handlers, hc.blocking, hc.saved⟩⟩
  · next c cs hcs =>
    obtain rfl := hc.handlers c (by rw [hcs]; exact List.mem_cons_self)
    simp only [wp_bind, wp_domain, wp_modifyDomain, wp_view, hc.frames]
    exact ⟨trivial, rfl, rfl, rfl, rfl, rfl, rfl, fun hc => ⟨rfl, hc.handlers, rfl, hc.saved⟩⟩

/-- **Raising a predefined exception between calls** changes nothing but domain and log. -/
theorem raiseExn_spec (x : Exn) (hc : a.domain.Calm) :
    (raiseExn x : Act α).wp a (fun _ _ => False) fun e t => e.Raising ∧ Aside a t := by
  unfold raiseExn exception
  simp only [wp_bind, wp_state]
  split
  · exact raise_spec _ hc
  · rw [wp_die]
    exact ⟨trivial, rfl, rfl, rfl, rfl, rfl, rfl, id⟩

theorem raiseFailure_spec {x : Failure} (hx : ∀ s, x ≠ .invalidArgument s) (hc : a.domain.Calm) :
    (raiseFailure x : Act α).wp a (fun _ _ => False) fun e t => e.Raising ∧ Aside a t := by
  cases x with
  | outOfMemory => exact raiseExn_spec .outOfMemory hc
  | stackOverflow required limit =>
    unfold raiseFailure
    rw [wp_bind, wp_note]
    have haside : Aside a { a with world := a.world.note (.overflow required limit) } :=
      ⟨rfl, rfl, rfl, rfl, rfl, rfl, id⟩
    refine wp_of_stops (raiseExn_spec .stackOverflow hc) ?_
    rintro e t ⟨he, ht⟩
    exact ⟨he, haside.trans ht⟩
  | invalidArgument s => exact absurd rfl (hx s)

/-! ### New stacks -/

/-- **A new stack becomes a fiber** beside the others. -/
theorem acts_alloc {s : Segment} {h' : Heap} {path : AllocPath} (h : Owns f n a)
    (ha : a.world.heap.alloc (.stack s) path = .ok (b, h')) (howner : s.owner = none) :
    Acts f (f ++ [b]) n a { a with world := a.world.adopt h' } ∧
      (∀ c ∈ f, Active.words { a with world := a.world.adopt h' } c = a.words c) ∧
      Active.words { a with world := a.world.adopt h' } b = s.slots.take s.used := by
  have hpos : 0 < (Object.stack s).size := Nat.succ_pos _
  obtain ⟨hg, -, hsize, -⟩ := h.growing.alloc hpos ha
  obtain ⟨hnone, hstack⟩ := h.growing.stack?_alloc hpos ha
  have hself := h.growing.stack?_alloc_self ha
  have hb : b ∉ f := by
    intro hmem
    obtain ⟨x, hx, -⟩ := h.segments b hmem
    simp [hnone] at hx
  have hold : ∀ c ∈ f, h'.stack? c = a.world.heap.stack? c := fun c hc => hstack c fun he => hb (he ▸ hc)
  have hsmall : s.capacity < 2 ^ 32 := by
    have hbudget := h.growing.budget
    change s.capacity + headerWords ≤ _ at hsize
    unfold headerWords at hsize
    omega
  obtain ⟨r, x, hr, hn⟩ := h.running
  have hmem := h.mem_running hr
  refine ⟨⟨⟨h.calm, hg, h.layout, ?_, fun c hc => ?_, r, x, ?_, ?_⟩, rfl, rfl, rfl, fun c hc y hy => ?_,
    fun c hc => ?_⟩,
    fun c hc => ?_, ?_⟩
  · exact List.nodup_append.2 ⟨h.nodup, by simp, fun c hc d hd he => hb (List.mem_singleton.1 hd ▸ he ▸ hc)⟩
  · rcases List.mem_append.1 hc with hc | hc
    · obtain ⟨y, hy, hm⟩ := h.segments c hc
      exact ⟨y, (hold c hc).trans hy, hm.owner, hm.small⟩
    · obtain rfl := List.mem_singleton.1 hc
      exact ⟨s, hself, .inl howner, hsmall⟩
  · exact ⟨hr.registers, (hold _ hmem).trans hr.stack, hr.capacity, hr.used_le⟩
  · rw [List.getElem?_append_left (List.getElem?_eq_some_iff.1 hn).1, hn]
  · exact (hstack c fun he => by simp [he ▸ hnone] at hy).trans hy
  · rcases List.mem_append.1 hc with hc | hc
    · exact .inl hc
    · exact .inr (List.mem_singleton.1 hc ▸ hnone)
  · unfold Active.words Active.usedOf
    simp only [World.heap_adopt]
    rw [hold c hc]
  · have hne : b ≠ r.current := fun he => hb (he ▸ hmem)
    rw [Active.words_eq (x := s) hself,
      Active.usedOf_of_ne (a := { a with world := a.world.adopt h' }) (r := r) hr.registers hne]

theorem fiber_cases (words : Nat) (hs : Handlers) :
    (∃ s, Segment.fiber .bytecode words hs = .ok s ∧ s.owner = none ∧ s.slots.take s.used = [trapSentinel]) ∨
      Segment.fiber .bytecode words hs = .error .sizeTooLarge ∨
      Segment.fiber .bytecode words hs = .error .sumTooLarge := by
  unfold Segment.fiber Segment.make Size.add
  by_cases hsum : contextWords + words < Size.bound
  · rw [Size.fit_of_lt hsum]
    simp only [bind, Except.bind]
    by_cases hsize : contextWords + words ≤ Size.allocatable
    · rw [if_pos hsize]
      obtain ⟨m, hm⟩ : ∃ m, contextWords + words = m + 1 := ⟨words + 15, Nat.add_comm ..⟩
      left
      simp [hm, Segment.setWord, Segment.setWord?, Segment.depth?, Segment.blank, Segment.capacity, Segment.setPointer,
        Segment.setSlot, List.replicate_succ]
    · rw [if_neg hsize]
      exact .inr (.inl rfl)
  · rw [Size.fit_of_le (Nat.le_of_not_lt hsum)]
    exact .inr (.inr rfl)

/-- **A new fiber** starts with the trap sentinel. -/
theorem newStackOf_spec (words : Nat) (hs : Handlers) (h : Owns f n a) :
    (newStackOf words hs).wp a
      (fun b t => Acts f (f ++ [b]) n a t ∧ (∀ c ∈ f, t.words c = a.words c) ∧ t.words b = [trapSentinel])
      fun e t => Idle f n a t ∧ e.NewFiber := by
  unfold newStackOf
  simp only [wp_bind, wp_layout, h.layout]
  rcases fiber_cases words hs with ⟨s, hs, howner, hwords⟩ | he | he
  · rw [hs]
    simp only [wp_check_ok, wp_bind, wp_allocate]
    refine ⟨fun e _ => ?_, fun b h' ha => ?_⟩
    · refine wp_of_stops (raiseExn_spec .outOfMemory h.calm) ?_
      rintro e t ⟨he, ht⟩
      exact ⟨ht.idle h, .inl he⟩
    · obtain ⟨hacts, hold, hnew⟩ := acts_alloc h ha howner
      rw [wp_note, wp_pure]
      have haside : Aside { a with world := a.world.adopt h' }
          { a with world := (a.world.adopt h').note (.stackAllocated b s.capacity) } :=
        ⟨rfl, rfl, rfl, rfl, rfl, rfl, id⟩
      have hidle := haside.idle hacts.owns
      exact ⟨hacts.trans hidle.acts, fun c hc => (haside.words c).trans (hold c hc),
        (haside.words b).trans (hnew.trans hwords)⟩
  · rw [he, wp_check_error]
    exact ⟨h.idle, .inr (.inl rfl)⟩
  · rw [he, wp_check_error]
    exact ⟨h.idle, .inr (.inr rfl)⟩

end Act

end FiberStacks
