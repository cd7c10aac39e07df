import FiberStacks.Proofs.Growth.Exact

/-!
# Growth that fails

When a stack cannot be grown it has been saved already, and the words to keep have been through a local frame.  What is
left of that is the live stack pointer in the segment, and the mark of an old stack that was clean.

* `Spared` — **what a failed growth leaves**;
* `tryGrow_spared` — every error of growth leaves that;
* `KeepsWords` — every stack has the words it had, and the registers are the same;
* `wp_ensure_of_grow`, `wp_push_of_ensure` — the calls that make room, from growing;
* `grow_raised` — growing that raises;
* `failed_growth_spares` — **the old stack is authoritative after a failed growth**.
-/

namespace FiberStacks

open FiberStacks.Action

/-- **What a failed growth leaves**: everything but the stack pointer of the current segment, and its mark if it is old
and was clean. -/
structure Spared (s t : Active) : Prop where
  domain : t.domain = { s.domain with remembered := t.domain.remembered }
  world : t.world = { s.world with heap := t.world.heap, log := t.world.log }
  heap : t.world.heap = { s.world.heap with cells := t.world.heap.cells }
  others : ∀ b, s.domain.current? ≠ some b → t.world.heap.cell? b = s.world.heap.cell? b
  /-- The current segment has its words, handlers and parent, and the live stack pointer. -/
  current : ∃ r g x y, s.domain.registers = some r ∧ s.world.heap.cell? r.current = some ⟨g, .stack x⟩ ∧
    t.world.heap.cell? r.current = some ⟨g, .stack y⟩ ∧ y.slots = x.slots ∧ y.handlers = x.handlers ∧
    y.link = x.link ∧ y.used = r.used ∧
    if g = .old ∧ x.owner = none then
      y.owner = some s.domain.id ∧ t.domain.remembered.queue = s.domain.remembered.queue ++ [r.current]
    else y.owner = x.owner ∧ t.domain.remembered = s.domain.remembered
  log : t.world.log = s.world.log ∨ ∃ n, t.world.log = s.world.log ++ [.growing n]

def Failure.EndsGrowth (limit : Nat) (e : Failure) : Prop :=
  e = .outOfMemory ∨ ∃ needed, e = .stackOverflow needed limit

variable {s t u : Active} {r : Registers} {x y : Segment} {q : Remembered}

theorem Saves.spared (hs : Saves s r x y q) : Spared s (s.stored r.current y q) := by
  obtain ⟨g, hg, hcells⟩ := hs.cell?
  have hgen : s.world.heap.generation? r.current = some g := by rw [Heap.generation?, hg]; rfl
  refine ⟨rfl, rfl, rfl, fun b hb => (hcells b).trans (if_neg ?_),
    ⟨r, g, x, y, hs.registers, hg, (hcells _).trans (if_pos rfl), hs.slots, hs.handlers, hs.link, hs.used, ?_⟩,
    .inl rfl⟩
  · rintro rfl
    exact hb (Domain.current?_of_registers hs.registers)
  · rcases hs.mark with ⟨hclean, howner, hq⟩ | ⟨hold, hx, howner, rfl⟩
    · rw [if_neg]
      · exact ⟨howner, hq⟩
      · rintro ⟨rfl, hx⟩
        rcases hclean with hyoung | hown
        · simp [Heap.isYoung, hgen] at hyoung
        · simp [hx] at hown
    · have hg' : g = .old := by
        cases g with
        | old => rfl
        | young => simp [Heap.isYoung, hgen] at hold
      rw [if_pos ⟨hg', hx⟩]
      exact ⟨howner, rfl⟩

theorem Saves.spared_noted (hs : Saves s r x y q) (n : Nat) :
    Spared s ((s.stored r.current y q).noted (.growing n)) :=
  have h := hs.spared
  ⟨h.domain, rfl, h.heap, h.others, h.current, .inr ⟨n, rfl⟩⟩

namespace Act

/-- **Every error of growth leaves the old stack.** -/
theorem tryGrow_spared (required : Nat) (saved : List Word) (s : Active) : (tryGrow required saved).wp s
    (fun p t => ∀ e, p.1 = .error e → p.2 = saved ∧ e.EndsGrowth s.domain.limit ∧ Spared s t)
    fun e _ => e ≠ .raised := by
  refine wp_mono (tryGrow_ends required saved s) ?_ ?_
  · rintro ⟨res, saved'⟩ t ⟨r, x, y, q, hs, hend⟩ e rfl
    cases hend with
    | overLimit h => exact ⟨rfl, .inr ⟨_, rfl⟩, hs.spared⟩
    | full h hn hfull => exact ⟨rfl, .inl rfl, hs.spared_noted _⟩
    | fits h hn hz ha hrun =>
      -- the new stack is there, so that growth succeeds
      have hok := (wp_of_ok hrun).1 (settle_unraised ..)
      cases hok
  · rintro e t (⟨r, x, y, q, hs, hend⟩ | ⟨he, -⟩)
    · cases hend with
      | sumTooLarge h => exact Stop.fault_ne_raised _
      | tooLarge h => exact Stop.fault_ne_raised _
      | unwritten h hn => exact Stop.fault_ne_raised _
      | huge h hnote hn => exact Stop.fault_ne_raised _
      | fits h hn hz ha hrun => exact (wp_of_error hrun).1 (settle_unraised ..)
    · exact he

end Act

/-! ### Words -/

/-- **Every stack has the words it had**, and the registers are the same. -/
structure KeepsWords (s t : Active) : Prop where
  freeListed : t.world.heap.FreeListed
  registers : t.domain.registers = s.domain.registers
  slots : ∀ b x, s.world.heap.stack? b = some x → ∃ y, t.world.heap.stack? b = some y ∧ y.slots = x.slots

theorem KeepsWords.trans (h₁ : KeepsWords s t) (h₂ : KeepsWords t u) : KeepsWords s u := by
  refine ⟨h₂.freeListed, h₂.registers.trans h₁.registers, fun b x hx => ?_⟩
  obtain ⟨y, hy, hyx⟩ := h₁.slots b x hx
  obtain ⟨z, hz, hzy⟩ := h₂.slots b y hy
  exact ⟨z, hz, hzy.trans hyx⟩

def Active.OnStack (s : Active) : Prop :=
  ∃ r x, s.domain.registers = some r ∧ s.world.heap.stack? r.current = some x

theorem Spared.keepsWords (h : Spared s t) (hf : t.world.heap.FreeListed) : KeepsWords s t := by
  obtain ⟨r, g, x, y, hr, hx, hy, hslots, -⟩ := h.current
  refine ⟨hf, by rw [h.domain], fun b z hz => ?_⟩
  by_cases hb : b = r.current
  · subst hb
    obtain rfl := Option.some.inj ((Heap.stack?_of_cell? hx).symm.trans hz)
    exact ⟨y, Heap.stack?_of_cell? hy, hslots⟩
  · have hcell := h.others b (by simpa [Domain.current?, hr] using Ne.symm hb)
    exact ⟨z, (Heap.stack?_congr hcell).trans hz, rfl⟩

theorem Spared.onStack (h : Spared s t) : s.OnStack := by
  obtain ⟨r, g, x, y, hr, hx, -⟩ := h.current
  exact ⟨r, x, hr, Heap.stack?_of_cell? hx⟩

theorem Segment.word?_congr (h : y.slots = x.slots) (o : Int) : y.word? o = x.word? o := by
  unfold word? depth? capacity
  rw [h]

namespace Act

theorem bookkeeping_keepsWords : Bookkeeping fun s t => s.world.heap.FreeListed → KeepsWords s t where
  trans h₁ h₂ hf := (h₁ hf).trans (h₂ (h₁ hf).freeListed)
  of_alike h hf := by
    refine ⟨?_, h.registers, fun b x hx => ⟨x, ?_, rfl⟩⟩
    · rwa [h.heap]
    · rwa [h.heap]
  alloc {s o path new h} ho _ ha hf := by
    refine ⟨hf.alloc ha, rfl, fun b x hx => ⟨x, ?_, rfl⟩⟩
    rcases Heap.alloc_cell? hf ha with ⟨hnone, g, hcell⟩ | ⟨-, hcell⟩
    · have hne : b ≠ new := by
        rintro rfl
        simp [Heap.stack?, Heap.get?, hnone] at hx
      have hsame : h.get? b = s.world.heap.get? b := Heap.get?_congr (by rw [hcell, if_neg hne])
      rwa [World.heap_adopt, Heap.stack?, hsame]
    · have hsame : h.get? b = s.world.heap.get? b := Heap.get?_congr (hcell b)
      rwa [World.heap_adopt, Heap.stack?, hsame]

theorem peek_fst (hr : s.domain.registers = some r) (hx : s.world.heap.stack? r.current = some x) (depth : Nat) :
    (peek depth s).1 = .ok (if r.used ≤ depth then none else x.word? (r.pointer + depth)) := by
  have hpeek : (peek depth).wp s (fun w _ => w = if r.used ≤ depth then none else x.word? (r.pointer + depth))
      fun _ _ => False := by
    unfold peek
    simp only [wp_bind, wp_domain, hr]
    split
    · rfl
    · exact (wp_bind ..).2 (wp_stack_of hx rfl)
  obtain ⟨_, _, hrun, rfl⟩ := exists_of_wp hpeek
  rw [hrun]

/-- **A peek sees the same words**, wherever the stacks have theirs. -/
theorem peek_of_keepsWords (h : KeepsWords s t) (hon : s.OnStack) (depth : Nat) :
    (peek depth t).1 = (peek depth s).1 := by
  obtain ⟨r, x, hr, hx⟩ := hon
  obtain ⟨y, hy, hslots⟩ := h.slots _ x hx
  rw [peek_fst hr hx, peek_fst (h.registers.trans hr) hy, Segment.word?_congr hslots]

/-! ### Calls that make room -/

section

variable {P Q : Active → Prop} {E : Stop → Active → Prop}

theorem wp_ensure_of_grow {required : Nat} (hgrow : (grow required []).wp s (fun _ t => P t) E) (hstay : P s) :
    (ensure required).wp s (fun _ t => P t) E := by
  unfold ensure
  simp only [wp_bind, wp_domain]
  split
  · exact (wp_bind ..).2 hgrow
  · exact hstay

theorem wp_maybeExpand_of_grow {ws : List Word} (hgrow : (grow 0 ws).wp s (fun _ t => P t) E) (hstay : P s)
    (hstop : ∀ e t, e ≠ .raised → E e t) : (maybeExpand ws).wp s (fun _ t => P t) E := by
  unfold maybeExpand
  simp only [wp_bind, wp_domain, wp_config, wp_check_double]
  refine ⟨fun _ => ?_, fun _ => hstop _ s (Stop.fault_ne_raised _)⟩
  split
  · exact (wp_bind ..).2 hgrow
  · exact hstay

theorem wp_push_of_ensure {w : Word} (hensure : (ensure 1).wp s (fun _ t => P t) E)
    (hput : ∀ t u r, P t → t.domain.registers = some r → u.domain.registers = some { r with used := r.used + 1 } → Q u)
    (hstop : ∀ e t, e ≠ .raised → E e t) : (push w).wp s (fun _ u => Q u) E := by
  unfold push guardBlocking
  simp only [wp_bind, wp_domain, wp_require]
  have hfault : ∀ f t, E (.fault f) t := fun f t => hstop _ t (Stop.fault_ne_raised f)
  refine ⟨fun _ => wp_mono hensure (fun _ t ht => ?_) fun _ _ h => h, fun _ => hfault _ _⟩
  simp only [wp_registers, wp_stack, wp_check, wp_setStack, wp_modifyDomain]
  exact ⟨fun r hr => ⟨fun _ _ => ⟨fun _ _ => hput t _ r ht hr rfl, fun _ _ => hfault _ _⟩, fun _ => hfault _ _⟩,
    fun _ => hfault _ _⟩

end

/-- What an action leaves that raises because a stack could not be grown. -/
def Spares (s : Active) (e : Stop) (t : Active) : Prop :=
  e = .raised → s.world.heap.FreeListed → KeepsWords s t ∧ s.OnStack

theorem grow_raised (required : Nat) (saved : List Word) (s : Active) :
    (grow required saved).wp s (fun _ _ => True) (Spares s) := by
  unfold grow
  refine wp_bind_of (wp_and (tryGrow_spared required saved s) (advances_tryGrow required saved s)) ?_
    fun e t h he => absurd he h.1
  rintro ⟨res, saved'⟩ u ⟨hspared, hadvances⟩
  cases res with
  | ok b => trivial
  | error e =>
    obtain ⟨-, -, hu⟩ := hspared e rfl
    refine (wp_bind ..).2 ?_
    refine wp_mono (bookkeeping_keepsWords.relates (beside_raiseFailure e) u) (fun _ _ _ => trivial)
      fun e' t ht _ hf => ?_
    have hfu : u.world.heap.FreeListed := (hadvances hf).freeListed
    exact ⟨(hu.keepsWords hfu).trans (ht hfu), hu.onStack⟩

theorem ensure_raised (required : Nat) (s : Active) : (ensure required).wp s (fun _ _ => True) (Spares s) :=
  wp_ensure_of_grow (grow_raised required [] s) trivial

theorem maybeExpand_raised (ws : List Word) (s : Active) : (maybeExpand ws).wp s (fun _ _ => True) (Spares s) :=
  wp_maybeExpand_of_grow (grow_raised 0 ws s) trivial fun _ _ hne he => absurd he hne

theorem push_raised (w : Word) (s : Active) : (push w).wp s (fun _ _ => True) (Spares s) :=
  wp_push_of_ensure (ensure_raised 1 s) (fun _ _ _ _ _ _ => trivial) fun _ _ hne he => absurd he hne

/-- **A failed growth leaves the old stack authoritative.**  Whatever is required and whatever words are to be kept, an
error says that the limit is reached or that memory is out, the words to keep are the same, and the state is what
`Spared` says.  A push and the checks for room that raise leave every word where a peek sees it. -/
theorem failed_growth_spares (s : Active) :
    (∀ required saved e saved' t, tryGrow required saved s = (.ok (.error e, saved'), t) →
      saved' = saved ∧ e.EndsGrowth s.domain.limit ∧ Spared s t) ∧
    (s.world.heap.FreeListed → ∀ t, (∃ w, push w s = (.error .raised, t)) ∨
        (∃ required, ensure required s = (.error .raised, t)) ∨ (∃ ws, maybeExpand ws s = (.error .raised, t)) →
      ∀ depth, (peek depth t).1 = (peek depth s).1) := by
  refine ⟨fun required saved e saved' t hrun => (wp_of_ok hrun).1 (tryGrow_spared required saved s) e rfl,
    fun hf t hraised depth => ?_⟩
  have hspares : Spares s .raised t := by
    rcases hraised with ⟨w, hrun⟩ | ⟨required, hrun⟩ | ⟨ws, hrun⟩
    · exact (wp_of_error hrun).1 (push_raised w s)
    · exact (wp_of_error hrun).1 (ensure_raised required s)
    · exact (wp_of_error hrun).1 (maybeExpand_raised ws s)
  obtain ⟨hkeeps, hon⟩ := hspares rfl hf
  exact peek_of_keepsWords hkeeps hon depth

/-- The domain on a main stack of sixteen words at its limit, in a protected region. -/
def onMainAtLimit : Active :=
  { onMainOfTwo 16 with
    domain := { (onMainOfTwo 16).domain with ready := true, handlers := [⟨1, 0, 0⟩] }
    world := { (onMainOfTwo 16).world with table := some (Exn.all.map fun _ => .ofInt 9) } }

/-- A growth beyond the limit, one beyond the budget, and a check for room that raises. -/
theorem failed_growth_spares_main :
    (∃ t, tryGrow 300 [.ofInt 1] (onMainOfTwo 16) = (.ok (.error (.stackOverflow 302 16), [.ofInt 1]), t) ∧
      Spared (onMainOfTwo 16) t) ∧
    (∃ t, tryGrow 900 [.ofInt 1] (onMainOfTwo 2000) = (.ok (.error .outOfMemory, [.ofInt 1]), t) ∧
      Spared (onMainOfTwo 2000) t) ∧
    ∃ t, ensure 15 onMainAtLimit = (.error .raised, t) ∧ ∀ depth, (peek depth t).1 = (peek depth onMainAtLimit).1 := by
  obtain ⟨t, hover⟩ := exists_of_fst (show
    (tryGrow 300 [.ofInt 1] (onMainOfTwo 16)).1 = .ok (.error (.stackOverflow 302 16), [.ofInt 1]) by decide +kernel)
  obtain ⟨u, hfull⟩ := exists_of_fst (show
    (tryGrow 900 [.ofInt 1] (onMainOfTwo 2000)).1 = .ok (.error .outOfMemory, [.ofInt 1]) by decide +kernel)
  obtain ⟨v, hraised⟩ := exists_of_fst (show (ensure 15 onMainAtLimit).1 = .error .raised by decide +kernel)
  have hf : onMainAtLimit.world.heap.FreeListed := (budgeted_onMainOfTwo 16).balanced.toFreeListed
  refine ⟨⟨t, hover, ?_⟩, ⟨u, hfull, ?_⟩, v, hraised, ?_⟩
  · exact ((failed_growth_spares _).1 _ _ _ _ _ hover).2.2
  · exact ((failed_growth_spares _).1 _ _ _ _ _ hfull).2.2
  · exact (failed_growth_spares _).2 hf _ (.inr (.inl ⟨15, hraised⟩))

end Act

end FiberStacks
