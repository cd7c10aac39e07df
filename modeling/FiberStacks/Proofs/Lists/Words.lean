import FiberStacks.Proofs.Lists.Grow

/-!
# The words of the current fiber

A push appends to the list of the current fiber, after growth if need be, a pop takes its last word off, and a peek
counts from its end.  All other lists are as they were.

* `words_current`, `word?_of_lt` — the list of the current fiber, and the word at an offset;
* `push_spec`, `pop_spec`, `peek_spec` — what the three do.
-/

namespace FiberStacks

open FiberStacks.Action

variable {f : List BlockId} {n : Nat} {a t : Active} {b : BlockId} {r : Registers} {x : Segment}

/-- The words of the current fiber. -/
theorem Running.words (h : Running a r x) : a.words r.current = x.slots.take r.used := by
  rw [Active.words_eq h.stack, Active.usedOf_current h.registers]

theorem Running.length_words (h : Running a r x) : (a.words r.current).length = r.used := by
  rw [h.words, List.length_take]
  exact Nat.min_eq_left h.used_le

theorem Segment.word?_of_lt {k : Nat} {o : Int} (ho : o = -(k + 1 : Int)) (hk : k < x.capacity) :
    x.word? o = x.slots[k]? := by
  have hin : o < 0 ∧ o.natAbs ≤ x.capacity := by omega
  have hindex : o.natAbs - 1 = k := by omega
  simp only [Segment.word?, Segment.depth?, if_pos hin, hindex, Option.bind_some]

theorem Segment.setWord_of_lt {k : Nat} {o : Int} (w : Word) (ho : o = -(k + 1 : Int)) (hk : k < x.capacity) :
    x.setWord o w = .ok (x.setSlot k w) := by
  have hin : o < 0 ∧ o.natAbs ≤ x.capacity := by omega
  have hindex : o.natAbs - 1 = k := by omega
  simp only [Segment.setWord, Segment.setWord?, Segment.depth?, if_pos hin, hindex, Option.map_some]

/-- **Only the stack pointer moved.** -/
theorem acts_used {k : Nat} (h : Owns f n a) (hr : Running a r x) (hk : k ≤ x.capacity) :
    let t : Active := { a with domain := { a.domain with registers := some { r with used := k } } }
    Acts f f n a t ∧ t.words r.current = x.slots.take k ∧ ∀ c ∈ f, c ≠ r.current → t.words c = a.words c := by
  intro t
  have hrun : Running t { r with used := k } x := ⟨rfl, hr.stack, hr.capacity, hk⟩
  obtain ⟨r', x', hr', hn⟩ := h.running
  obtain rfl := Option.some.inj (hr.registers.symm.trans hr'.registers)
  refine ⟨⟨⟨⟨h.calm.frames, h.calm.handlers, h.calm.blocking, h.calm.saved⟩, h.growing, h.layout, h.nodup,
    fun c hc => ?_, _, _, hrun, hn⟩, rfl, rfl, rfl, fun _ _ _ hx => hx, fun _ hc => .inl hc⟩, hrun.words,
    fun c _ hcr => ?_⟩
  · obtain ⟨y, hy, hm⟩ := h.segments c hc
    exact ⟨y, hy, hm.owner, hm.small⟩
  · unfold Active.words
    cases hy : a.world.heap.stack? c with
    | none => rfl
    | some y =>
      simp only [t]
      rw [Active.usedOf_of_ne hr.registers hcr, Active.usedOf_of_ne hrun.registers hcr]

theorem Moved.words_eq {old : BlockId} (h : Moved f n b a t) (hn : f[n]? = some old) :
    t.words b = a.words old := by
  have hlt : n < f.length := (List.getElem?_eq_some_iff.1 hn).1
  have hentry := congrArg (fun l => l[n]?) h.words
  simp only [List.getElem?_map, List.getElem?_set_self hlt, hn, Option.map_some] at hentry
  exact Option.some.inj hentry

namespace Act

theorem write_spec {w : Word} (h : Owns f n a) (hr : Running a r x) (hn : f[n]? = some r.current)
    (hroom : r.used < x.capacity) :
    (do
      setStack r.current (← check ((← stack r.current).setWord ({ r with used := r.used + 1 } : Registers).pointer w))
      modifyDomain fun d => { d with registers := some { r with used := r.used + 1 } } : Act Unit).wp a
      (fun _ t => Acts f f n a t ∧ f.map t.words = (f.map a.words).set n (a.words r.current ++ [w]))
      fun _ _ => False := by
  have hmem := h.mem_running hr
  rw [wp_bind]
  refine wp_stack_of hr.stack ?_
  rw [Segment.setWord_of_lt w (by unfold Registers.pointer; simp only; omega) hroom]
  rw [wp_bind, wp_check_ok, wp_bind, wp_setStack, wp_modifyDomain]
  have hput := h.acts_put (x.setSlot r.used w) hmem hr.stack (x.capacity_setSlot _ _)
    (h.mine hmem hr.stack).owner
  have hr' : Running (a.put r.current (x.setSlot r.used w)) r (x.setSlot r.used w) :=
    ⟨hr.registers, (stack?_put hr.stack _).trans (if_pos rfl), hr.capacity.trans (x.capacity_setSlot _ _).symm,
      (x.capacity_setSlot r.used w).symm ▸ hr.used_le⟩
  obtain ⟨hacts, hwords, hold⟩ := acts_used hput.owns hr' (k := r.used + 1) ((x.capacity_setSlot _ _).symm ▸ hroom)
  refine ⟨hput.trans hacts, ?_⟩
  have hmap := map_words_set (b := r.current) hn h.nodup fun c hc hcr =>
    (hold c hc hcr).trans (words_put_of_ne hr.stack hcr)
  rw [set_self hn] at hmap
  refine hmap.trans (congrArg _ (hwords.trans ?_))
  change (x.slots.set r.used w).take (r.used + 1) = a.words r.current ++ [w]
  rw [hr.words, List.take_add_one, List.getElem?_set_self hroom, List.take_set_of_le (Nat.le_refl _)]
  rfl

/-- **A push** appends, or nothing changes. -/
theorem push_spec (w : Word) (h : Owns f n a) (hr : Running a r x) (hn : f[n]? = some r.current) :
    (push w).wp a (fun _ t => ∃ b, Acts f (f.set n b) n a t ∧
      (f.set n b).map t.words = (f.map a.words).set n (a.words r.current ++ [w]))
      fun e t => Idle f n a t ∧ e.Raising := by
  have hle : r.used ≤ r.capacity := hr.capacity ▸ hr.used_le
  have hsmall : r.capacity < 2 ^ 32 := hr.capacity ▸ (h.mine (h.mem_running hr) hr.stack).small
  unfold push
  rw [wp_bind]
  refine wp_guardBlocking h ?_
  refine wp_bind_of (ensure_spec 1 h hr hn) ?_ ?_
  case refine_2 =>
    rintro e t ⟨ht, he | ⟨-, hlt⟩⟩
    · exact ⟨ht, he⟩
    · omega
  rintro - t ⟨b, hmoved, y, size, hy, hroom⟩
  rw [wp_bind]
  refine wp_registers_of hy.registers ?_
  have hn' : (f.set n b)[n]? = some b := List.getElem?_set_self (List.getElem?_eq_some_iff.1 hn).1
  have hfree : r.used < y.capacity := by
    have := hy.capacity
    simp only at this
    omega
  refine wp_of_returns (write_spec hmoved.acts.owns hy hn' hfree) ?_
  rintro - u ⟨hacts, hwords⟩
  refine ⟨b, hmoved.acts.trans hacts, ?_⟩
  rw [hwords, hmoved.words, hmoved.words_eq hn]

/-- **A pop** takes the last word off. -/
theorem pop_spec (h : Owns f n a) (hr : Running a r x) (hn : f[n]? = some r.current) :
    pop.wp a (fun w t => w = (a.words r.current).getLast? ∧ Acts f f n a t ∧
      f.map t.words = (f.map a.words).set n (a.words r.current).dropLast) fun _ _ => False := by
  unfold pop
  rw [wp_bind]
  refine wp_guardBlocking h ?_
  simp only [wp_bind, wp_domain, hr.registers]
  split
  · next hzero =>
    have hnil : a.words r.current = [] := by rw [← List.length_eq_zero_iff, hr.length_words, hzero]
    refine ⟨by rw [hnil]; rfl, h.acts, ?_⟩
    rw [hnil, List.dropLast_nil, ← hnil, set_words hn]
  · next hpos =>
    rw [wp_bind]
    refine wp_stack_of hr.stack ?_
    rw [wp_bind, wp_modifyDomain, wp_pure]
    obtain ⟨hacts, hwords, hold⟩ := acts_used h hr (k := r.used - 1) (by have := hr.used_le; omega)
    have hlen : (x.slots.take r.used).length = r.used := by rw [← hr.words, hr.length_words]
    refine ⟨?_, hacts, ?_⟩
    · rw [Segment.word?_of_lt (k := r.used - 1) (by unfold Registers.pointer; omega)
        (by have := hr.used_le; omega), hr.words, List.getLast?_eq_getElem?, hlen, List.getElem?_take_of_lt (by omega)]
    · have hmap := map_words_set (b := r.current) hn h.nodup hold
      rw [set_self hn] at hmap
      rw [hmap, hwords, hr.words, List.dropLast_eq_take, hlen, List.take_take,
        Nat.min_eq_left (Nat.sub_le _ _)]

/-- **A peek** counts from the end. -/
theorem peek_spec (depth : Nat) (hr : Running a r x) :
    (peek depth).wp a (fun w t => w = (a.words r.current).reverse[depth]? ∧ t = a) fun _ _ => False := by
  unfold peek
  simp only [wp_bind, wp_domain, hr.registers]
  split
  · next hle =>
    refine ⟨?_, rfl⟩
    rw [List.getElem?_eq_none (by simpa [hr.length_words] using hle)]
  · next hlt =>
    rw [wp_bind]
    refine wp_stack_of hr.stack ?_
    have hk : r.used - 1 - depth < x.capacity := by
      have := hr.used_le
      omega
    refine ⟨?_, rfl⟩
    rw [Segment.word?_of_lt (k := r.used - 1 - depth) (by unfold Registers.pointer; omega) hk, hr.words]
    have hlen : (x.slots.take r.used).length = r.used := by rw [← hr.words, hr.length_words]
    rw [List.getElem?_reverse (by omega), hlen, List.getElem?_take_of_lt (by omega)]

end Act

end FiberStacks
