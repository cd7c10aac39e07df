import FiberStacks.Proofs.Growth.Steps
import FiberStacks.Proofs.Heap.Books

/-!
# What growth returns

The size of the new stack is the least one that doubling leads to and that has room for what is needed.  From it and
the size before the limit of the domain, the memory that can be asked for and the budget of the heap tell how growth
ends, and all it changes.

* `Segment.Continues` — the new segment, from the old one;
* `Grown` — **what growth leaves**: another current stack, and the old one retired;
* `Housed` — the new stack beside the saved one, before the domain moves;
* `settle_grown` — the new stack marked and loaded, the old one retired;
* `tryGrow_exact` — **growth to the letter**.
-/

namespace FiberStacks

open FiberStacks.Action

/-- **The segment that continues another one** of which so many words are used: the same word at every offset in use,
the same handlers and parent. -/
structure Segment.Continues (z x : Segment) (n size : Nat) : Prop where
  capacity : z.capacity = size
  used : z.used = n
  handlers : z.handlers = x.handlers
  link : z.link = x.link
  words : ∀ o : Int, -↑n ≤ o → o < 0 → z.word? o = x.word? o

/-- The mark a stack carries once the domain has saved it. -/
def Active.savedOwner (s : Active) (b : BlockId) (x : Segment) : Option DomainId :=
  if s.world.heap.isYoung b then x.owner else some s.domain.id

/-- **What growth leaves**: the domain runs on a new stack of `size` words that continues the old one, and the old one
is retired. -/
structure Grown (s : Active) (r : Registers) (x : Segment) (size : Nat) (new : BlockId) (t : Active) : Prop where
  fresh : s.world.heap.cell? new = none
  /-- An old new stack carries the mark of the one it replaces. -/
  stack : ∃ z, t.world.heap.cell? new = some ⟨Heap.birth .normal (size + headerWords), .stack z⟩ ∧
    z.Continues x r.used size ∧
    z.owner = if Heap.birth .normal (size + headerWords) = .old then s.savedOwner r.current x else none
  retired : ∃ g, s.world.heap.cell? r.current = some ⟨g, .stack x⟩ ∧
    t.world.heap.cell? r.current = some ⟨g, .stack x.retire⟩
  others : ∀ b, b ≠ new → b ≠ r.current → t.world.heap.cell? b = s.world.heap.cell? b
  liveWords : t.world.heap.liveWords = s.world.heap.liveWords + size + headerWords
  queue : t.domain.remembered.queue = s.domain.remembered.queue ++
    (if s.world.heap.isYoung r.current = false ∧ x.owner = none then [r.current] else []) ++
    if Heap.birth .normal (size + headerWords) = .old ∧ (s.savedOwner r.current x).isSome then [new] else []
  domain : t.domain = { s.domain with registers := some ⟨new, r.used, size⟩, remembered := t.domain.remembered }
  world : t.world = { s.world with heap := t.world.heap, log := t.world.log }

variable {s t u : Active} {r : Registers} {x y z : Segment} {q : Remembered} {old new : BlockId} {n : Nat}
  {saved : List Word}

/-! ### The new segment -/

theorem Segment.word?_eq_take {o : Int} {used : Nat} (hused : used ≤ x.capacity) (ho : -↑used ≤ o) (ho' : o < 0) :
    x.word? o = (x.slots.take used)[o.natAbs - 1]? := by
  have hdepth : o < 0 ∧ o.natAbs ≤ x.capacity := ⟨ho', by omega⟩
  have hlt : o.natAbs - 1 < used := by omega
  simp only [word?, depth?, if_pos hdepth, Option.bind_some]
  rw [List.getElem?_take, if_pos hlt]

theorem Saves.continues (hs : Saves s r x y q) (hz : z.Enlarges y n) (hn : r.used ≤ n) : z.Continues x r.used n where
  capacity := hz.capacity
  used := hz.used.trans hs.used
  handlers := hz.handlers.trans hs.handlers
  link := hz.link.trans hs.link
  words o ho ho' := by
    have htake : z.slots.take r.used = x.slots.take r.used := by
      rw [← hs.used, hz.slots, hs.slots]
    rw [Segment.word?_eq_take (hz.capacity ▸ hn) ho ho', Segment.word?_eq_take hs.used_le ho ho', htake]

theorem Saves.retire (hs : Saves s r x y q) : y.retire = x.retire := by
  simp only [Segment.retire, hs.slots]

theorem Saves.owner (hs : Saves s r x y q) : y.owner = s.savedOwner r.current x := by
  unfold Active.savedOwner
  rcases hs.mark with ⟨hyoung | hown, hy, -⟩ | ⟨hold, -, hy, -⟩
  · rw [if_pos hyoung, hy]
  · rw [hy, hown, ite_self]
  · rw [if_neg (by simp [hold]), hy]

theorem Saves.queue (hs : Saves s r x y q) : q.queue = s.domain.remembered.queue ++
    if s.world.heap.isYoung r.current = false ∧ x.owner = none then [r.current] else [] := by
  rcases hs.mark with ⟨hclean, -, rfl⟩ | ⟨hold, hx, -, rfl⟩
  · rw [if_neg, List.append_nil]
    rintro ⟨hold, hx⟩
    rcases hclean with hyoung | hown
    · simp [hold] at hyoung
    · simp [hx] at hown
  · rw [if_pos ⟨hold, hx⟩]
    rfl

theorem Saves.owner_eq {o : DomainId} (hs : Saves s r x y q) (hx : x.owner = none ∨ x.owner = some s.domain.id)
    (ho : y.owner = some o) : o = s.domain.id := by
  have hsaved : s.savedOwner r.current x = some o := hs.owner.symm.trans ho
  unfold Active.savedOwner at hsaved
  split at hsaved
  · simpa [hsaved] using hx
  · exact (Option.some.inj hsaved).symm

/-! ### The new block -/

/-- **The new stack is there**, beside the saved one; the domain has not moved to it. -/
structure Housed (s : Active) (r : Registers) (x y z : Segment) (q : Remembered) (n : Nat) (new : BlockId)
    (u : Active) : Prop where
  fresh : s.world.heap.cell? new = none
  cells : ∃ g, s.world.heap.cell? r.current = some ⟨g, .stack x⟩ ∧ ∀ b, u.world.heap.cell? b =
    if b = new then some ⟨Heap.birth .normal (n + headerWords), .stack z⟩
    else if b = r.current then some ⟨g, .stack y⟩ else s.world.heap.cell? b
  liveWords : u.world.heap.liveWords = s.world.heap.liveWords + n + headerWords
  domain : u.domain = { s.domain with remembered := q }
  world : u.world = { s.world with heap := u.world.heap, log := u.world.log }

theorem Saves.housed (hs : Saves s r x y q) (hb : s.world.heap.Balanced) (hz : z.Enlarges y n)
    (ha : (s.world.heap.setStack r.current y).alloc (.stack z) .normal = .ok (new, u.world.heap))
    (hd : u.domain = { s.domain with remembered := q })
    (hw : u.world = { s.world with heap := u.world.heap, log := u.world.log }) : Housed s r x y z q n new u := by
  obtain ⟨g, hold, hstored⟩ := hs.cell?
  have hsize : (Object.stack y).size = (Object.stack x).size := congrArg (· + headerWords) hs.capacity
  have hzsize : (Object.stack z).size = n + headerWords := congrArg (· + headerWords) hz.capacity
  have hb' : (s.world.heap.setStack r.current y).Balanced := hb.set (by rw [Heap.get?, hold]; rfl) hsize
  obtain ⟨hnew, hcells⟩ := hb'.alloc_cell? (o := .stack z) (.inl (Nat.succ_pos _)) ha
  have hne : new ≠ r.current := by
    rintro rfl
    simp [hstored] at hnew
  rw [hstored, if_neg hne] at hnew
  simp only [hzsize, hstored] at hcells
  refine ⟨hnew, ⟨g, hold, hcells⟩, ?_, hd, hw⟩
  rw [(Heap.alloc_words ha).1, hzsize, Nat.add_assoc]
  rfl

namespace Housed

theorem stack?_new (h : Housed s r x y z q n new u) : u.world.heap.stack? new = some z ∧
    u.world.heap.isYoung new = (Heap.birth .normal (n + headerWords) == .young) := by
  obtain ⟨g, -, hcells⟩ := h.cells
  have hself := (hcells new).trans (if_pos rfl)
  exact ⟨Heap.stack?_of_cell? hself, by simp [Heap.isYoung, Heap.generation?, hself]⟩

/-- The new stack gets a mark, and another queue has it. -/
theorem mark {o : DomainId} {q' : Remembered} (h : Housed s r x y z q n new u) :
    Housed s r x y { z with owner := some o } q' n new (u.stored new { z with owner := some o } q') := by
  obtain ⟨g, hold, hcells⟩ := h.cells
  refine ⟨h.fresh, ⟨g, hold, fun b => ?_⟩, h.liveWords, by simp only [Active.stored, h.domain], ?_⟩
  · refine (Heap.cell?_setStack ((hcells new).trans (if_pos rfl)) b).trans ?_
    rw [hcells]
    split <;> rfl
  · simp only [Active.stored]
    rw [h.world]

end Housed

namespace Act

/-! ### Marking and moving -/

theorem moveTo_eq (hnew : u.world.heap.stack? new = some z) (hold : u.world.heap.stack? old = some y) :
    moveTo old new saved u = (.ok (.ok new, saved),
      ⟨{ u.domain with registers := some ⟨new, z.used, z.capacity⟩ },
        { u.world with heap := u.world.heap.setStack old y.retire }⟩) := by
  have hrun : (moveTo old new saved).wp u (fun p t => p = (.ok new, saved) ∧
      t = ⟨{ u.domain with registers := some ⟨new, z.used, z.capacity⟩ },
        { u.world with heap := u.world.heap.setStack old y.retire }⟩) fun _ _ => False := by
    simp [wp_moveTo, hnew, hold, World.adopt_setStack]
  obtain ⟨_, _, hrun, rfl, rfl⟩ := exists_of_wp hrun
  exact hrun

theorem markDirty_clean (hx : u.world.heap.stack? new = some z) (hclean : z.owner = none) :
    markDirty new u = (.ok (), if u.world.heap.isYoung new then u
      else u.stored new { z with owner := some u.domain.id } (u.domain.remembered.push new)) := by
  have hrun : (markDirty new).wp u (fun _ t => t = if u.world.heap.isYoung new then u
      else u.stored new { z with owner := some u.domain.id } (u.domain.remembered.push new)) fun _ _ => False := by
    rw [wp_markDirty]
    cases hyoung : u.world.heap.isYoung new with
    | true => simp
    | false => simp [hx, hclean, World.adopt_setStack, Active.stored]
  obtain ⟨_, _, hrun, rfl⟩ := exists_of_wp hrun
  exact hrun

theorem settle_own (d : DomainId) :
    settle old (some d) d new saved = markDirty new >>= fun _ => moveTo old new saved := by
  funext u
  simp only [settle, require, if_true]
  rfl

/-- **Growth once the new stack carries its mark**: the domain moves to it, and the old one is retired. -/
theorem grown_moveTo {q' : Remembered} (h : Housed s r x y z q' n new u) (hs : Saves s r x y q)
    (hz : z.Continues x r.used n)
    (howner : z.owner = if Heap.birth .normal (n + headerWords) = .old then s.savedOwner r.current x else none)
    (hq : q'.queue = q.queue ++
      if Heap.birth .normal (n + headerWords) = .old ∧ (s.savedOwner r.current x).isSome then [new] else []) :
    ∃ t, moveTo r.current new saved u = (.ok (.ok new, saved), t) ∧ Grown s r x n new t := by
  obtain ⟨g, hold, hcells⟩ := h.cells
  have hne : r.current ≠ new := by
    rintro he
    rw [he, h.fresh] at hold
    cases hold
  have hnew := (hcells new).trans (if_pos rfl)
  have hcur : u.world.heap.cell? r.current = some ⟨g, .stack y⟩ := by rw [hcells, if_neg hne, if_pos rfl]
  refine ⟨_, moveTo_eq (Heap.stack?_of_cell? hnew) (Heap.stack?_of_cell? hcur), ?_⟩
  have hafter : ∀ b, (u.world.heap.setStack r.current y.retire).cell? b =
      if b = r.current then some ⟨g, .stack y.retire⟩ else u.world.heap.cell? b := Heap.cell?_setStack hcur
  rw [h.domain, hs.retire] at *
  refine ⟨h.fresh, ⟨z, ?_, hz, howner⟩, ⟨g, hold, ?_⟩, fun b hb hb' => ?_, h.liveWords, ?_, ?_, ?_⟩
  · rw [hafter, if_neg hne.symm, hnew]
  · rw [hafter, if_pos rfl]
  · rw [hafter, if_neg hb', hcells, if_neg hb, if_neg hb']
  · rw [hq, hs.queue]
  · rw [hz.used, hz.capacity]
  · rw [h.world]

/-- **Growth where there is room.** -/
theorem settle_grown (hs : Saves s r x y q) (hb : s.world.heap.Balanced)
    (hx : x.owner = none ∨ x.owner = some s.domain.id) (hz : z.Enlarges y n) (hn : r.used ≤ n)
    (ha : (s.world.heap.setStack r.current y).alloc (.stack z) .normal = .ok (new, u.world.heap))
    (hd : u.domain = { s.domain with remembered := q })
    (hw : u.world = { s.world with heap := u.world.heap, log := u.world.log }) :
    ∃ t, settle r.current y.owner s.domain.id new saved u = (.ok (.ok new, saved), t) ∧ Grown s r x n new t := by
  have hhoused := hs.housed hb hz ha hd hw
  have hcont := hs.continues hz hn
  have hclean : z.owner = none := hz.owner
  cases hmark : y.owner with
  | none =>
    -- a clean stack is replaced by a clean one
    have hsaved : s.savedOwner r.current x = none := hs.owner.symm.trans hmark
    refine grown_moveTo hhoused hs hcont ?_ ?_
    · rw [hclean, hsaved, ite_self]
    · simp [hsaved]
  | some o =>
    obtain rfl := hs.owner_eq hx hmark
    have hsaved : s.savedOwner r.current x = some s.domain.id := hs.owner.symm.trans hmark
    obtain ⟨hself, hyoung⟩ := hhoused.stack?_new
    rw [settle_own, bind_of_ok (markDirty_clean hself hclean), hyoung]
    cases hbirth : Heap.birth .normal (n + headerWords) with
    | young =>
      rw [if_pos (beq_self_eq_true _)]
      refine grown_moveTo hhoused hs hcont ?_ ?_
      · rw [hclean, hbirth]
        rfl
      · simp [hbirth]
    | old =>
      rw [if_neg (by decide)]
      have hmarked : Segment.Continues { z with owner := some u.domain.id } x r.used n :=
        ⟨hcont.capacity, hcont.used, hcont.handlers, hcont.link, hcont.words⟩
      refine grown_moveTo hhoused.mark hs hmarked ?_ ?_
      · rw [if_pos hbirth, hsaved, hd]
      · rw [if_pos ⟨hbirth, by rw [hsaved]; rfl⟩, hd]
        rfl

/-! ### The ends -/

theorem exists_growthEnd (required : Nat) (saved : List Word) (hblock : s.domain.blocking = 0) (hr : Running s r x)
    (hx : x.owner = none ∨ x.owner = some s.domain.id) : ∃ y q res t, Saves s r x y q ∧
      tryGrow required saved s = (res, t) ∧ GrowthEnd (s.stored r.current y q) r.current y required saved res t := by
  have same : ∀ {res t}, (∃ r x y q, Saves s r x y q ∧
        GrowthEnd (s.stored r.current y q) r.current y required saved res t) →
      ∃ y q, Saves s r x y q ∧ GrowthEnd (s.stored r.current y q) r.current y required saved res t := by
    rintro res t ⟨r', x', y, q, hs, hend⟩
    obtain rfl := Option.some.inj (hs.registers.symm.trans hr.registers)
    obtain rfl := Option.some.inj (hs.stack.symm.trans hr.stack)
    exact ⟨y, q, hs, hend⟩
  have hends := tryGrow_ends required saved s
  rcases hrun : tryGrow required saved s with ⟨e | p, t⟩
  · rcases (wp_of_error hrun).1 hends with hend | ⟨-, hblock' | hforeign⟩
    · obtain ⟨y, q, hs, hend⟩ := same hend
      exact ⟨y, q, _, t, hs, rfl, hend⟩
    · exact absurd hblock hblock'
    · obtain ⟨hne, hne'⟩ := hforeign r x hr
      exact (hx.elim hne hne').elim
  · obtain ⟨y, q, hs, hend⟩ := same ((wp_of_ok hrun).1 hends)
    exact ⟨y, q, _, t, hs, rfl, hend⟩

/-- **Growth to the letter.**  Let `k` be the least number of doublings, from one on, after which the used words and
the required ones fit, and let that size fit in 64 bits.  If the size before the last doubling is at the limit, growth
returns an overflow; otherwise, if no memory of the last size can be asked for, it stops, and does so over the entry in
the log if its figure cannot be worked out; otherwise, if the budget has no room for it, it returns that memory is out;
otherwise it returns a new stack, and what it changed is what `Grown` says. -/
theorem tryGrow_exact {required k : Nat} (hb : s.world.heap.Budgeted) (hblock : s.domain.blocking = 0)
    (hr : Running s r x) (hx : x.owner = none ∨ x.owner = some s.domain.id)
    (hk : Growth.Enough r.capacity (r.used + required) k) (hsize : Growth.size r.capacity k < Size.bound) :
    (s.domain.limit ≤ Growth.size r.capacity (k - 1) →
      ∃ t, tryGrow required saved s = (.ok (.error (.stackOverflow (r.used + required) s.domain.limit), saved), t)) ∧
    (Growth.size r.capacity (k - 1) < s.domain.limit → Size.allocatable < Growth.size r.capacity k →
      (s.world.CanNote (Growth.size r.capacity k) →
        ∃ t, tryGrow required saved s = (.error (.fault .sizeTooLarge), t)) ∧
      (¬ s.world.CanNote (Growth.size r.capacity k) →
        ∃ t, tryGrow required saved s = (.error (.fault .productTooLarge), t))) ∧
    (Growth.size r.capacity (k - 1) < s.domain.limit → Growth.size r.capacity k ≤ Size.allocatable →
      s.world.heap.available < Growth.size r.capacity k + headerWords →
      ∃ t, tryGrow required saved s = (.ok (.error .outOfMemory, saved), t)) ∧
    (Growth.size r.capacity (k - 1) < s.domain.limit → Growth.size r.capacity k ≤ Size.allocatable →
      Growth.size r.capacity k + headerWords ≤ s.world.heap.available →
      ∃ new t, tryGrow required saved s = (.ok (.ok new, saved), t) ∧
        Grown s r x (Growth.size r.capacity k) new t) := by
  obtain ⟨j, rfl⟩ := Nat.exists_eq_add_of_le' hk.pos
  rw [Nat.add_sub_cancel]
  obtain ⟨y, q, res, t, hs, hrun, hend⟩ := exists_growthEnd required saved hblock hr hx
  rw [hrun]
  have hof : Growth.of (s.stored r.current y q).domain.limit (y.used + required) y.capacity =
      if s.domain.limit ≤ Growth.size r.capacity j then .overLimit else .reaches (Growth.size r.capacity (j + 1)) := by
    rw [hs.growth_eq, ← hr.capacity]
    exact Growth.of_eq hk hsize
  -- the size that was found, if one was
  have hreach : ∀ {n}, Growth.of (s.stored r.current y q).domain.limit (y.used + required) y.capacity = .reaches n →
      Growth.size r.capacity j < s.domain.limit ∧ n = Growth.size r.capacity (j + 1) := by
    intro n h
    rw [hof] at h
    split at h
    · cases h
    · next hlt => exact ⟨Nat.lt_of_not_le hlt, (Growth.reaches.inj h).symm⟩
  cases hend with
  | sumTooLarge h => exact absurd (hk.fits.trans_lt hsize) (Nat.not_lt_of_le (hs.used ▸ h))
  | overLimit h =>
    have hover : s.domain.limit ≤ Growth.size r.capacity j := by
      by_contra hlt
      rw [hof, if_neg hlt] at h
      cases h
    rw [hs.used]
    exact ⟨fun _ => ⟨_, rfl⟩, fun hlt => absurd hover (Nat.not_le_of_lt hlt),
      fun hlt => absurd hover (Nat.not_le_of_lt hlt), fun hlt => absurd hover (Nat.not_le_of_lt hlt)⟩
  | tooLarge h =>
    rw [hof] at h
    split at h <;> cases h
  | unwritten h hn =>
    obtain ⟨hlt, rfl⟩ := hreach h
    have hhuge : ¬ Growth.size r.capacity (j + 1) ≤ Size.allocatable := fun hle => hn (World.canNote_of_le hle)
    exact ⟨fun hover => absurd hover (Nat.not_le_of_lt hlt),
      fun _ _ => ⟨fun hnote => absurd hnote hn, fun _ => ⟨_, rfl⟩⟩, fun _ hle => absurd hle hhuge,
      fun _ hle => absurd hle hhuge⟩
  | huge h hnote hn =>
    obtain ⟨hlt, rfl⟩ := hreach h
    exact ⟨fun hover => absurd hover (Nat.not_le_of_lt hlt),
      fun _ _ => ⟨fun _ => ⟨_, rfl⟩, fun hnot => absurd hnote hnot⟩,
      fun _ hle => absurd hle (Nat.not_le_of_lt hn), fun _ hle => absurd hle (Nat.not_le_of_lt hn)⟩
  | full h hn hfull =>
    obtain ⟨hlt, rfl⟩ := hreach h
    exact ⟨fun hover => absurd hover (Nat.not_le_of_lt hlt), fun _ hhuge => absurd hn (Nat.not_le_of_lt hhuge),
      fun _ _ _ => ⟨_, rfl⟩, fun _ _ hroom => absurd hroom (Nat.not_le_of_lt hfull)⟩
  | @fits n _ _ h' _ _ h hn hz ha hset =>
    obtain ⟨hlt, rfl⟩ := hreach h
    have hused : r.used ≤ Growth.size r.capacity (j + 1) := (Nat.le_add_right ..).trans hk.fits
    let u := ((s.stored r.current y q).noted (.growing (Growth.size r.capacity (j + 1)))).adopted h'
    obtain ⟨t', hset', hgrown⟩ := settle_grown (u := u) hs hb.balanced hx hz hused ha rfl rfl
    obtain ⟨rfl, rfl⟩ := Prod.mk.inj (hset.symm.trans hset')
    -- the new stack was charged to the budget
    have hroom := (Heap.alloc_words ha).2.2
    rw [Object.size, Segment.size, hz.capacity] at hroom
    exact ⟨fun hover => absurd hover (Nat.not_le_of_lt hlt), fun _ hhuge => absurd hn (Nat.not_le_of_lt hhuge),
      fun _ _ hfull => absurd hroom (Nat.not_le_of_lt hfull), fun _ _ _ => ⟨_, _, rfl, hgrown⟩⟩

/-! ### Growth of a main stack -/

/-- A main stack of sixteen words with two words on it. -/
def mainOfTwo : Segment :=
  { Segment.blank 16 .zero with
    slots := .ofInt 5 :: .ofInt 7 :: List.replicate 14 .null
    used_le := Nat.zero_le _ }

/-- The registers of the domain that has pushed them. -/
def registersOfTwo : Registers := ⟨⟨0⟩, 2, 16⟩

/-- The domain, which has not saved its stack, in a heap of a thousand words. -/
def onMainOfTwo (limit : Nat) : Active :=
  ⟨{ Domain.fresh ⟨1⟩ limit with registers := some registersOfTwo },
    .initial {} .bytecode
      { Heap.empty 1000 1000 with cells := [some ⟨.old, .stack mainOfTwo⟩], liveWords := 22 }⟩

theorem budgeted_onMainOfTwo (limit : Nat) : (onMainOfTwo limit).world.heap.Budgeted := by
  have halloc : (Heap.empty 1000 1000).alloc (.stack mainOfTwo) .quiet =
      .ok (⟨0⟩, (onMainOfTwo limit).world.heap) := rfl
  exact .alloc (.empty 1000 (by decide)) (.inl (by decide)) halloc

theorem running_onMainOfTwo (limit : Nat) : Running (onMainOfTwo limit) registersOfTwo mainOfTwo :=
  ⟨rfl, rfl, rfl, by decide⟩

/-- The main stack is doubled five times, and its mark passes to the new one. -/
theorem tryGrow_exact_five : ∃ new t,
    tryGrow 300 [.ofInt 1] (onMainOfTwo 400) = (.ok (.ok new, [.ofInt 1]), t) ∧
      Grown (onMainOfTwo 400) registersOfTwo mainOfTwo 512 new t := by
  have hk : Growth.Enough registersOfTwo.capacity (registersOfTwo.used + 300) 5 := .of_lt (by decide) (by decide)
  exact (tryGrow_exact (budgeted_onMainOfTwo 400) rfl (running_onMainOfTwo 400) (.inl rfl) hk (by decide)).2.2.2
    (by decide) (by decide) (by decide)

/-- **Growth to a size that no memory can have** stops, where it might be asked to say that memory is out. -/
theorem not_tryGrow_outOfMemory : ¬ ∀ (s : Active) (r : Registers) (x : Segment) (saved : List Word) (required k : Nat),
    s.world.heap.Budgeted → s.domain.blocking = 0 → Running s r x → (x.owner = none ∨ x.owner = some s.domain.id) →
    Growth.Enough r.capacity (r.used + required) k → Growth.size r.capacity k < Size.bound →
    Growth.size r.capacity (k - 1) < s.domain.limit →
    s.world.heap.available < Growth.size r.capacity k + headerWords →
      ∃ t, tryGrow required saved s = (.ok (.error .outOfMemory, saved), t) := by
  intro h
  have hk : Growth.Enough registersOfTwo.capacity (registersOfTwo.used + (2 ^ 60 - 2)) 56 :=
    .of_lt (by decide +kernel) (by decide +kernel)
  obtain ⟨t, hrun⟩ := h (onMainOfTwo (2 ^ 63 - 1)) _ mainOfTwo [] _ _ (budgeted_onMainOfTwo _) rfl
    (running_onMainOfTwo _) (.inl rfl) hk (by decide +kernel) (by decide +kernel) (by decide +kernel)
  have hstops : (tryGrow (2 ^ 60 - 2) [] (onMainOfTwo (2 ^ 63 - 1))).1 = .error (.fault .sizeTooLarge) := by
    decide +kernel
  rw [hrun] at hstops
  cases hstops

end Act

end FiberStacks
