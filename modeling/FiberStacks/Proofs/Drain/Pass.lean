import FiberStacks.Proofs.Chains.Detached
import FiberStacks.Proofs.Drain.Queue

/-!
# A minor pass of one domain

Before the queue is served the live stack pointer is written back, so that the words pushed since the last save are
shown.  Where every stack that carries the mark of the domain is queued, all of them are shown, and nothing is left for
a second pass.

* `Active.rootsOf` — the roots of a stack as a domain sees it;
* `Act.WrittenBack` — the stack pointer written back, and nothing else;
* `MinorPass` — **what a pass shows, and what it leaves**;
* `scanRemembered_minorPass` — serving the queue is such a pass;
* `MinorPass.again` — the next one shows nothing.
-/

namespace FiberStacks

open FiberStacks.Action

variable {τ : Type} {s m u : Active} {b : BlockId} {r : Registers} {x : Segment}

/-- **The roots of a stack as a domain sees it**: handlers and link, then the words in use, newest first.  Of its own
current stack these are the words up to the live stack pointer. -/
def Active.rootsOf (s : Active) (b : BlockId) : List Word :=
  ((s.world.heap.stack? b).map fun x => x.metadata ++ (s.words b).reverse).getD []

theorem Active.rootsOf_of_stack? (hx : s.world.heap.stack? b = some x) :
    s.rootsOf b = x.metadata ++ (x.slots.take (s.usedOf b x)).reverse := by
  rw [rootsOf, words_eq hx, hx]
  rfl

theorem Heap.setStack_of_stack? {h : Heap} (hx : h.stack? b = some x) : h.setStack b x = h := by
  obtain ⟨g, hc⟩ := cell?_of_stack? hx
  have hplace : h.cells[b.index]? = some (some ⟨g, .stack x⟩) := Option.join_eq_some_iff.1 hc
  have hcells : h.cells.modify b.index (Option.map fun c => { c with object := .stack x }) = h.cells := by
    refine List.ext_getElem? fun i => ?_
    rw [List.getElem?_modify]
    by_cases hi : b.index = i
    · rw [← hi, hplace]
      simp
    · simp [hi]
  rw [setStack, set, hcells]

/-! ### The stack pointer -/

namespace Act

/-- **The live stack pointer is written back**, and nothing else. -/
structure WrittenBack (s m : Active) : Prop where
  domain : m.domain = s.domain
  heap : m.world.heap = { s.world.heap with cells := m.world.heap.cells }
  world : m.world = { s.world with heap := m.world.heap }
  others : ∀ b, s.domain.current? ≠ some b → m.world.heap.cell? b = s.world.heap.cell? b
  current : ∀ b, s.domain.current? = some b → ∃ g x h, s.world.heap.cell? b = some ⟨g, .stack x⟩ ∧
    m.world.heap.cell? b = some ⟨g, .stack { x with used := s.domain.used, used_le := h }⟩

theorem syncStack_writtenBack (hs : s.domain.Seated s.world.heap) :
    syncStack.wp s (fun _ m => WrittenBack s m) fun _ _ => False := by
  cases hr : s.domain.registers with
  | none =>
    refine wp_syncStack.2 ⟨fun _ => ⟨rfl, rfl, rfl, fun _ _ => rfl, ?_⟩, ?_⟩
    · simp [Domain.current?, hr]
    · simp [hr]
  | some r =>
    obtain ⟨x, hx, hcap, hused⟩ := hs r hr
    have hcurrent : s.domain.current? = some r.current := Domain.current?_of_registers hr
    have hword : s.domain.used = r.used := Domain.used_of_registers hr
    refine wp_of_returns (syncStack_put ⟨hr, hx, hcap, hused⟩) ?_
    rintro - _ rfl
    obtain ⟨g, hg⟩ := Heap.cell?_of_stack? hx
    refine ⟨rfl, rfl, World.adopt_setStack .., fun b hb => (Heap.cell?_setStack hg b).trans (if_neg ?_),
      fun b hb => ?_⟩
    · rintro rfl
      exact hb hcurrent
    · obtain rfl := Option.some.inj (hcurrent.symm.trans hb)
      simp only [hword]
      exact ⟨g, x, hused, hg, (Heap.cell?_setStack hg _).trans (if_pos rfl)⟩

namespace WrittenBack

/-- **A stack afterwards**: its pointer is the one the domain counts by. -/
theorem cell? {g : Generation} (h : WrittenBack s m) (hx : s.world.heap.cell? b = some ⟨g, .stack x⟩) :
    ∃ h, m.world.heap.cell? b = some ⟨g, .stack { x with used := s.usedOf b x, used_le := h }⟩ := by
  by_cases hb : s.domain.current? = some b
  · obtain ⟨g', x', h', hs, hm⟩ := h.current b hb
    obtain ⟨rfl, hobject⟩ := Cell.mk.inj (Option.some.inj (hx.symm.trans hs))
    obtain rfl := Object.stack.inj hobject
    have hused : s.usedOf b x = s.domain.used := if_pos hb
    simp only [hused]
    exact ⟨h', hm⟩
  · have hused : s.usedOf b x = x.used := if_neg hb
    simp only [hused]
    exact ⟨x.used_le, (h.others b hb).trans hx⟩

theorem stack? (h : WrittenBack s m) (hx : s.world.heap.stack? b = some x) :
    ∃ h, m.world.heap.stack? b = some { x with used := s.usedOf b x, used_le := h } := by
  obtain ⟨g, hg⟩ := Heap.cell?_of_stack? hx
  obtain ⟨hle, hm⟩ := h.cell? hg
  exact ⟨hle, Heap.stack?_of_cell? hm⟩

theorem stack?_eq_none (h : WrittenBack s m) (hx : s.world.heap.stack? b = none) : m.world.heap.stack? b = none := by
  have hb : s.domain.current? ≠ some b := fun hb => by
    obtain ⟨g, x, -, hs, -⟩ := h.current b hb
    cases hx.symm.trans (Heap.stack?_of_cell? hs)
  exact (Heap.stack?_congr (h.others b hb)).trans hx

theorem rootsOf (h : WrittenBack s m) (b : BlockId) : m.world.heap.rootsOf b = s.rootsOf b := by
  cases hx : s.world.heap.stack? b with
  | none => rw [Heap.rootsOf, h.stack?_eq_none hx, Active.rootsOf, hx]; rfl
  | some x =>
    obtain ⟨hle, hm⟩ := h.stack? hx
    rw [Heap.rootsOf, hm, Active.rootsOf_of_stack? hx]
    rfl

theorem owner? (h : WrittenBack s m) (b : BlockId) : m.world.heap.owner? b = s.world.heap.owner? b := by
  cases hx : s.world.heap.stack? b with
  | none => rw [Heap.owner?, h.stack?_eq_none hx, Heap.owner?, hx]
  | some x =>
    obtain ⟨hle, hm⟩ := h.stack? hx
    rw [Heap.owner?_of_stack? hm, Heap.owner?_of_stack? hx]

theorem contains (h : WrittenBack s m) (b : BlockId) : m.world.heap.contains b = s.world.heap.contains b := by
  by_cases hb : s.domain.current? = some b
  · obtain ⟨g, x, h', hs, hm⟩ := h.current b hb
    rw [Heap.contains, Heap.contains, hs, hm]
    rfl
  · rw [Heap.contains, Heap.contains, h.others b hb]

end WrittenBack

end Act

/-! ### The pass -/

/-- **What a minor pass of a domain does**, which shows the stacks `l`.  No block and no mark of another domain is
touched, but the stack pointer of the current stack is written back. -/
structure MinorPass (v : Visitor τ) (l : List BlockId) (t t' : τ) (s u : Active) : Prop where
  /-- Each stack is shown once. -/
  nodup : l.Nodup
  /-- Those are shown that carry the mark of the domain. -/
  mem : ∀ b, b ∈ l ↔ s.world.heap.owner? b = some s.domain.id
  /-- Their roots are shown as the domain sees them, and become what the visitor stores. -/
  shown : v.visitAll (l.flatMap s.rootsOf) t = (l.flatMap u.rootsOf, t')
  /-- No stack carries the mark of the domain any more. -/
  clean : ∀ b, u.world.heap.owner? b ≠ some s.domain.id
  /-- All other marks stay. -/
  foreign : ∀ b o, o ≠ s.domain.id → (u.world.heap.owner? b = some o ↔ s.world.heap.owner? b = some o)
  /-- A stack shown keeps its generation, the number of its words, and what lies beyond them. -/
  kept : ∀ b ∈ l, ∃ g x y, s.world.heap.cell? b = some ⟨g, .stack x⟩ ∧ u.world.heap.cell? b = some ⟨g, .stack y⟩ ∧
    y.used = s.usedOf b x ∧ y.slots.drop y.used = x.slots.drop y.used
  others : ∀ b ∉ l, s.domain.current? ≠ some b → u.world.heap.cell? b = s.world.heap.cell? b
  current : ∀ b ∉ l, s.domain.current? = some b → ∃ g x h, s.world.heap.cell? b = some ⟨g, .stack x⟩ ∧
    u.world.heap.cell? b = some ⟨g, .stack { x with used := s.domain.used, used_le := h }⟩
  /-- The queue is empty. -/
  domain : u.domain = { s.domain with remembered := .empty }
  heap : u.world.heap = { s.world.heap with cells := u.world.heap.cells }
  world : u.world = { s.world with heap := u.world.heap }

theorem Active.rootsOf_eq (hx : s.world.heap.stack? b = some x) (hused : x.used = s.usedOf b x) :
    s.rootsOf b = s.world.heap.rootsOf b := by
  rw [rootsOf_of_stack? hx, ← hused, Heap.rootsOf, hx]
  rfl

namespace Act

variable {v : Visitor τ} {t t' : τ} {l queue : List BlockId}

/-- **The queue is served after the stack pointer was written back.**  It has all the stacks that carry the mark. -/
theorem minorPass_of_drains (hown : ∀ b, s.world.heap.owner? b = some s.domain.id → b ∈ queue) (hm : WrittenBack s m)
    (hu : Drains v queue l t t' { m with domain := { m.domain with remembered := .empty } } u) :
    MinorPass v l t t' s u := by
  have hdomain : u.domain = { s.domain with remembered := .empty } := by rw [hu.domain, hm.domain]
  have husedOf : ∀ b y, u.usedOf b y = if s.domain.current? = some b then s.domain.used else y.used := fun b y => by
    rw [Active.usedOf, hdomain]
    rfl
  have hmem : ∀ b, b ∈ l ↔ s.world.heap.owner? b = some s.domain.id := fun b => by
    rw [hu.mem, hm.owner?]
    simp only [hm.domain]
    exact and_iff_right_of_imp (hown b)
  have hkept : ∀ b ∈ l, ∃ g x y, s.world.heap.cell? b = some ⟨g, .stack x⟩ ∧
      u.world.heap.cell? b = some ⟨g, .stack y⟩ ∧ y.used = s.usedOf b x ∧
      y.slots.drop y.used = x.slots.drop y.used ∧ y.owner = none := fun b hb => by
    obtain ⟨g, x', y, hx', hy, hshown, hclean⟩ := hu.cleaned b hb
    obtain ⟨x, hx, ho⟩ := Heap.owner?_eq_some_iff.1 ((hmem b).1 hb)
    obtain ⟨g', hg'⟩ := Heap.cell?_of_stack? hx
    obtain ⟨hle, hback⟩ := hm.cell? hg'
    obtain ⟨rfl, hobject⟩ := Cell.mk.inj (Option.some.inj (hx'.symm.trans hback))
    obtain rfl := Object.stack.inj hobject
    exact ⟨g, x, y, hg', hy, hshown.used, hshown.used ▸ hshown.rest, hclean⟩
  -- what is seen of the stacks shown
  have hbefore : l.flatMap m.world.heap.rootsOf = l.flatMap s.rootsOf := List.flatMap_congr fun b _ => hm.rootsOf b
  have hafter : l.flatMap u.world.heap.rootsOf = l.flatMap u.rootsOf := List.flatMap_congr fun b hb => by
    obtain ⟨g, x, y, -, hy, hused, -⟩ := hkept b hb
    refine (Active.rootsOf_eq (Heap.stack?_of_cell? hy) ?_).symm
    rw [husedOf]
    split
    · next hcur => rw [hused, Active.usedOf, if_pos hcur]
    · rfl
  have howner : ∀ b ∉ l, u.world.heap.owner? b = s.world.heap.owner? b := fun b hb =>
    (Heap.owner?_congr (hu.others b hb)).trans (hm.owner? b)
  refine ⟨hu.nodup, hmem, ?_, fun b => ?_, fun b o ho => ?_, fun b hb => ?_, fun b hb hcur => ?_, fun b hb hcur => ?_,
    hdomain, ?_, ?_⟩
  · rw [← hbefore, ← hafter]
    exact hu.shown
  · by_cases hb : b ∈ l
    · obtain ⟨g, x, y, -, hy, -, -, hclean⟩ := hkept b hb
      rw [Heap.owner?_of_stack? (Heap.stack?_of_cell? hy), hclean]
      exact (Option.some_ne_none _).symm
    · rw [howner b hb]
      exact fun ho => hb ((hmem b).2 ho)
  · by_cases hb : b ∈ l
    · obtain ⟨g, x, y, -, hy, -, -, hclean⟩ := hkept b hb
      rw [Heap.owner?_of_stack? (Heap.stack?_of_cell? hy), hclean, (hmem b).1 hb]
      exact iff_of_false (Option.some_ne_none _).symm fun h => ho (Option.some.inj h).symm
    · rw [howner b hb]
  · obtain ⟨g, x, y, hx, hy, hused, hrest, -⟩ := hkept b hb
    exact ⟨g, x, y, hx, hy, hused, hrest⟩
  · exact (hu.others b hb).trans (hm.others b hcur)
  · obtain ⟨g, x, hle, hx, hy⟩ := hm.current b hcur
    exact ⟨g, x, hle, hx, (hu.others b hb).trans hy⟩
  · exact hu.heap.trans (by rw [hm.heap])
  · exact hu.world.trans (by rw [hm.world])

/-- **Serving the queue** shows all stacks that carry the mark of the domain, if they are queued and nothing else is
queued but blocks that are gone and stacks. -/
theorem scanRemembered_minorPass (v : Visitor τ) (t : τ) (hs : s.domain.Seated s.world.heap)
    (hlayout : s.world.layout = .bytecode)
    (hown : ∀ b, s.world.heap.owner? b = some s.domain.id → b ∈ s.domain.remembered.queue)
    (hqueue : ∀ b ∈ s.domain.remembered.queue, s.world.heap.contains b = true →
      ∃ x, s.world.heap.stack? b = some x) :
    (scanRemembered v t).wp s (fun r u => ∃ l, r.1 = l.length ∧ MinorPass v l t r.2 s u) fun _ _ => False := by
  unfold scanRemembered
  refine wp_bind_of_returns (syncStack_writtenBack hs) ?_
  rintro - m hm
  simp only [wp_bind, wp_domain, wp_modifyDomain]
  rw [hm.domain]
  have hlayout' : m.world.layout = .bytecode := by rw [hm.world]; exact hlayout
  refine wp_of_returns (scanQueued_drains v _ t ⟨{ s.domain with remembered := .empty }, m.world⟩ hlayout'
    fun b hb hlive => ?_) ?_
  · obtain ⟨x, hx⟩ := hqueue b hb (hm.contains b ▸ hlive)
    obtain ⟨hle, hx'⟩ := hm.stack? hx
    exact ⟨_, hx'⟩
  · rintro ⟨n, t'⟩ u ⟨l, rfl, hu⟩
    exact ⟨l, rfl, minorPass_of_drains hown hm (by rw [hm.domain]; exact hu)⟩

end Act

namespace MinorPass

variable {v : Visitor τ} {t t' : τ} {l : List BlockId}

/-- **The stack pointer has been written back.** -/
theorem current? (h : MinorPass v l t t' s u) (hb : u.domain.current? = some b) :
    ∃ y, u.world.heap.stack? b = some y ∧ y.used = u.domain.used := by
  have hcur : s.domain.current? = some b := by rw [h.domain] at hb; exact hb
  have hword : u.domain.used = s.domain.used := by rw [h.domain]; rfl
  by_cases hmem : b ∈ l
  · obtain ⟨g, x, y, -, hy, hused, -⟩ := h.kept b hmem
    exact ⟨y, Heap.stack?_of_cell? hy, hused.trans ((if_pos hcur).trans hword.symm)⟩
  · obtain ⟨g, x, hle, -, hy⟩ := h.current b hmem hcur
    exact ⟨_, Heap.stack?_of_cell? hy, hword.symm⟩

theorem syncStack_again (h : MinorPass v l t t' s u) : Act.syncStack.wp u (fun _ m => m = u) fun _ _ => False := by
  refine Act.wp_syncStack.2 ⟨fun _ => rfl, fun r hr => ?_⟩
  obtain ⟨y, hy, hused⟩ := h.current? (Domain.current?_of_registers hr)
  rw [Domain.used_of_registers hr] at hused
  have hle : r.used ≤ y.capacity := hused ▸ y.used_le
  have hsame : ({ y with used := r.used, used_le := hle } : Segment) = y := by
    simp only [← hused]
  simp [hy, Act.setPointer_pointer_of_le hle, hsame, Heap.setStack_of_stack? hy]

/-- **A second pass shows nothing** and changes nothing. -/
theorem again {ρ : Type} (h : MinorPass v l t t' s u) (w : Visitor ρ) (q : ρ) :
    Act.scanRemembered w q u = (.ok (0, q), u) := by
  obtain ⟨_, m, hsync, rfl⟩ := exists_of_wp h.syncStack_again
  have hempty : ({ m.domain with remembered := .empty } : Domain) = m.domain := by rw [h.domain]
  have hqueue : m.domain.remembered.queue = [] := by rw [h.domain]; rfl
  have hrest : (do
      let queue := (← Act.domain).remembered.queue
      Act.modifyDomain fun d => { d with remembered := .empty }
      Act.scanQueued w queue q : Act (Nat × ρ)) m = Act.scanQueued w m.domain.remembered.queue q
        { m with domain := { m.domain with remembered := .empty } } := rfl
  rw [Act.scanRemembered, bind_of_ok hsync, hrest, hempty, hqueue]
  rfl

end MinorPass

end FiberStacks
