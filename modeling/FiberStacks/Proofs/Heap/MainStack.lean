import FiberStacks.Machine
import FiberStacks.Proofs.Outcome

/-!
# Room for the main stack

A valid configuration has a heap of at least as many words as the main stack has.  The heap also charges the control
fields of a segment, so that a heap can pass the check and still be up to `headerWords` words too small.

* `start_of_room`, `start_of_short`, `start_of_huge` — how the start of a domain ends on a fresh heap;
* `start_validated` — **which end it has**, under a configuration that passes the check;
* `not_start_validated` — passing the check is not enough.
-/

namespace FiberStacks

theorem Heap.alloc_empty {maxWords : Nat} (minorLimit : Nat) {o : Object} (ho : o.size ≤ maxWords) :
    ∃ h, (empty maxWords minorLimit).alloc o .quiet = .ok (.ofIndex 0, h) ∧ h.get? (.ofIndex 0) = some o ∧
      h.liveWords = o.size := by
  have hroom : ¬ (empty maxWords minorLimit).available < o.size := by
    rw [available_empty]
    exact Nat.not_lt.2 ho
  refine ⟨_, by rw [alloc, reserve, if_neg hroom, if_pos (.inl rfl)]; rfl, rfl, ?_⟩
  exact Nat.zero_add _

namespace Act

open FiberStacks.Action

variable {s t : Active} {b : BlockId}

/-- **A domain that has been started**: it runs on an unused main stack of the configured size, the only block of the
heap. -/
structure Started (s t : Active) (b : BlockId) : Prop where
  ready : t.domain.ready = true
  registers : t.domain.registers = some ⟨b, 0, s.world.config.initStackWords⟩
  stack : t.world.heap.stack? b = some (.blank s.world.config.initStackWords .zero)
  live : t.world.heap.liveWords = s.world.config.initStackWords + headerWords

section Fresh

variable (hh : s.world.heap = World.defaultHeap s.world.config)
include hh

/-- **There is room** for the words of the main stack and its control fields. -/
theorem start_of_room (hsize : s.world.config.initStackWords ≤ Size.allocatable)
    (hroom : s.world.config.initStackWords + headerWords ≤ s.world.config.maxHeapWords) :
    ∃ b t, start s = (.ok (.ok b), t) ∧ Started s t b := by
  have ho : (Object.stack (.blank s.world.config.initStackWords .zero)).size ≤ s.world.config.maxHeapWords := by
    simpa [Object.size, Segment.size] using hroom
  obtain ⟨h, ha, hget, hlive⟩ := Heap.alloc_empty s.world.config.minorHeapWords ho
  have hstack : h.stack? (.ofIndex 0) = some (.blank s.world.config.initStackWords .zero) := by
    rw [Heap.stack?, hget]
  have hstart : start.wp s (fun r t => r = .ok (.ofIndex 0) ∧ Started s t (.ofIndex 0)) fun _ _ => False := by
    unfold start initMainStack newMainStack
    simp only [wp_bind, wp_config, Segment.make, if_pos hsize, wp_check_ok, wp_allocate, hh, World.defaultHeap, ha]
    refine ⟨by simp, fun b h' he => ?_⟩
    obtain ⟨rfl, rfl⟩ := Prod.mk.inj (Except.ok.inj he)
    simp only [wp_bind, wp_note, wp_pure, wp_loadStack, wp_domain, wp_modifyWorld]
    refine ⟨fun x hx => ⟨trivial, rfl, ?_, hstack, ?_⟩, fun hn => ?_⟩
    · obtain rfl := Option.some.inj (hx.symm.trans hstack)
      simp [Segment.blank, Segment.capacity]
    · exact hlive.trans (by simp [Object.size, Segment.size])
    · cases hn.symm.trans hstack
  obtain ⟨r, t, hr, rfl, ht⟩ := exists_of_wp hstart
  exact ⟨_, t, hr, ht⟩

/-- **The control fields do not fit.** -/
theorem start_of_short (hsize : s.world.config.initStackWords ≤ Size.allocatable)
    (hshort : s.world.config.maxHeapWords < s.world.config.initStackWords + headerWords) :
    start s = (.ok (.error .outOfMemory), s) := by
  have ho : s.world.heap.available < (Object.stack (.blank s.world.config.initStackWords .zero)).size := by
    rw [hh]
    simpa [Object.size, Segment.size, World.defaultHeap] using hshort
  have ha := Heap.alloc_eq_error_iff (p := .quiet).2 ⟨ho, rfl⟩
  have hstart : start.wp s (fun r t => r = .error .outOfMemory ∧ t = s) fun _ _ => False := by
    unfold start initMainStack newMainStack
    simp only [wp_bind, wp_config, Segment.make, if_pos hsize, wp_check_ok, wp_allocate, ha]
    exact ⟨fun _ _ => ⟨rfl, rfl⟩, by simp⟩
  obtain ⟨r, t, hr, rfl, rfl⟩ := exists_of_wp hstart
  exact hr

omit hh in
/-- **No machine has so much memory.** -/
theorem start_of_huge (hsize : Size.allocatable < s.world.config.initStackWords) :
    start s = (.error (.fault .sizeTooLarge), s) := by
  have hstart : start.wp s (fun _ _ => False) fun e t => e = .fault .sizeTooLarge ∧ t = s := by
    unfold start initMainStack newMainStack
    simp only [wp_bind, wp_config, Segment.make, if_neg (Nat.not_le.2 hsize), wp_check_error, and_self]
  obtain ⟨e, t, hr, rfl, rfl⟩ := exists_error_of_wp hstart
  exact hr

/-- **How the start of a domain ends**, on a fresh heap under a configuration that passes the check.  The domain is
started if the heap has room for the control fields of the main stack besides its words.  It fails and changes nothing
if the heap is up to `headerWords` words too small for that, which the check does not see, and a main stack larger
than any machine's memory violates an assertion. -/
theorem start_validated (hc : s.world.config.validate = .ok ()) :
    ((∃ b t, start s = (.ok (.ok b), t) ∧ Started s t b) ↔ s.world.config.initStackWords ≤ Size.allocatable ∧
      s.world.config.initStackWords + headerWords ≤ s.world.config.maxHeapWords) ∧
    (start s = (.ok (.error .outOfMemory), s) ↔ s.world.config.initStackWords ≤ Size.allocatable ∧
      ∃ k < headerWords, s.world.config.maxHeapWords = s.world.config.initStackWords + k) ∧
    (start s = (.error (.fault .sizeTooLarge), s) ↔ Size.allocatable < s.world.config.initStackWords) := by
  obtain ⟨-, -, hheap⟩ := Config.validate_eq_ok_iff.1 hc
  -- the three conditions exclude each other, and leave no configuration out
  rcases Nat.lt_or_ge Size.allocatable s.world.config.initStackWords with hhuge | hsize
  · have hend := start_of_huge hhuge
    simp [hend, hhuge, Nat.not_le.2 hhuge]
  · rcases Nat.lt_or_ge s.world.config.maxHeapWords (s.world.config.initStackWords + headerWords) with hshort | hroom
    · have hend := start_of_short hh hsize hshort
      obtain ⟨k, hk⟩ := Nat.exists_eq_add_of_le hheap
      have hlt : k < headerWords := by omega
      simp [hend, hsize, Nat.not_lt.2 hsize, hk, hlt]
    · obtain ⟨b, t, hend, ht⟩ := start_of_room hh hsize hroom
      refine ⟨⟨fun _ => ⟨hsize, hroom⟩, fun _ => ⟨b, t, hend, ht⟩⟩, ⟨fun h => ?_, ?_⟩, ⟨fun h => ?_, fun h => ?_⟩⟩
      · simp [hend] at h
      · rintro ⟨-, k, hk, he⟩
        omega
      · simp [hend] at h
      · omega

end Fresh

/-- A domain before its start, with a main stack of 16 words and a heap of so many words. -/
def beforeStart (heapWords : Nat) : Active where
  domain := .fresh ⟨1⟩ 100
  world :=
    let c : Config := { initStackWords := 16, maxHeapWords := heapWords }
    .initial c .bytecode (World.defaultHeap c)

/-- A heap that holds the main stack and nothing else. -/
theorem start_validated_exactly : (beforeStart 22).world.config.validate = .ok () ∧
    ∃ b t, start (beforeStart 22) = (.ok (.ok b), t) ∧ Started (beforeStart 22) t b :=
  ⟨rfl, (start_validated (s := beforeStart 22) rfl rfl).1.2 ⟨by decide, by decide⟩⟩

/-- **A heap of as many words as the main stack passes the check and cannot hold it.** -/
theorem not_start_validated : ¬ ∀ s : Active, s.world.config.validate = .ok () →
    s.world.heap = World.defaultHeap s.world.config → ∃ b t, start s = (.ok (.ok b), t) := by
  intro h
  obtain ⟨b, t, hend⟩ := h (beforeStart 16) rfl rfl
  rw [start_of_short (s := beforeStart 16) rfl (by decide) (by decide)] at hend
  simp at hend

end Act

end FiberStacks
