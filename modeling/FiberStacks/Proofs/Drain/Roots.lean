import FiberStacks.Proofs.Drain.Exact
import FiberStacks.Proofs.Growth.Exact

/-!
# The roots of a domain, as a collector and as its code sees them

The code of a domain reads its stack by the live stack pointer, a collector by the one in the segment.  The first is
written back before the roots are shown, so both see the same words, whatever was pushed and popped since the last save,
and what the collector stores is what is read afterwards.

* `Active.Peeks` — the words that peeks see;
* `Domain.roots` — **the roots of a domain, in the order in which they are shown**;
* `Domain.mapRoots`, `Segment.rewrite` — other words in their place;
* `Replaced`, `Collected` — **what showing them does**, where the visitor stores `f` of every word, and where a
  collection saves the stack before;
* `Act.scanRoots_apply`, `Act.collectRoots_apply` — the roots shown, alone and between saving and loading the stack;
* `Machine.scanRoots_exact` — **whatever has been done before**.
-/

namespace FiberStacks

open FiberStacks.Action

variable {τ : Type} {v : Visitor τ} {f : Word → Word} {s u : Active} {t : τ} {r : Registers} {x y : Segment}
  {b : BlockId} {q : Remembered}

/-! ### Words replaced -/

/-- Other roots in a local frame; its locks stay. -/
def LocalFrame.mapRoots (f : Word → Word) (x : LocalFrame) : LocalFrame := { x with roots := x.roots.map f }

namespace LocalFrames

def mapRoots (f : Word → Word) (fs : LocalFrames) : LocalFrames :=
  ⟨fs.inner.map (LocalFrame.mapRoots f), fs.base.mapRoots f⟩

theorem ofList_map (f : Word → Word) (fs : LocalFrames) :
    ofList (fs.toList.map (LocalFrame.mapRoots f)) = fs.mapRoots f := by
  simp [ofList, toList, mapRoots]

theorem scan_go (hv : ∀ w t, (v w t).1 = f w) (xs : List LocalFrame) (t : τ) :
    scan.go v xs t = (xs.map (LocalFrame.mapRoots f), (v.visitAll (xs.flatMap LocalFrame.roots) t).2) := by
  induction xs generalizing t with
  | nil => rfl
  | cons x xs ih =>
    simp only [scan.go, ih, Visitor.visitAll_fst hv, List.map_cons, List.flatMap_cons, Visitor.visitAll_append]
    rfl

/-- **The local roots shown**, frame by frame from the oldest on. -/
theorem scan_mapRoots (hv : ∀ w t, (v w t).1 = f w) (fs : LocalFrames) (t : τ) :
    fs.scan v t = (fs.mapRoots f, (v.visitAll (fs.toList.flatMap LocalFrame.roots) t).2) := by
  simp only [scan, scan_go hv, ofList_map]

end LocalFrames

namespace Domain

/-- **The roots of a domain in order**: handlers and link of the stack it runs on, the words in use there, the local
roots from the oldest frame on, and the pending exception. -/
def roots (d : Domain) (x : Segment) (ws : List Word) : List Word :=
  x.metadata ++ ws ++ d.frames.toList.flatMap LocalFrame.roots ++ d.pending.toList

/-- Other words in place of the roots that the domain itself holds. -/
def mapRoots (f : Word → Word) (d : Domain) : Domain :=
  { d with frames := d.frames.mapRoots f, pending := d.pending.map f }

end Domain

/-! ### The words in use -/

/-- **The words that peeks see**, the one on top first. -/
def Active.Peeks (s : Active) (ws : List Word) : Prop := ∀ depth, Act.peek depth s = (.ok ws[depth]?, s)

theorem Running.peeks (h : Running s r x) : s.Peeks (s.words r.current).reverse := by
  intro depth
  obtain ⟨_, _, hrun, rfl, rfl⟩ := exists_of_wp (Act.peek_spec depth h)
  exact hrun

/-- The segment with another stack pointer and another mark. -/
def Segment.pointed (x : Segment) (n : Nat) (h : n ≤ x.capacity) (o : Option DomainId) : Segment :=
  { x with used := n, owner := o, used_le := h }

theorem Running.roots_pointed (h : Running s r x) (o : Option DomainId) :
    (x.pointed r.used h.used_le o).roots = x.metadata ++ (s.words r.current).reverse := by
  rw [h.words]
  rfl

/-! ### The roots shown -/

theorem Active.put_put (s : Active) (b : BlockId) (x y : Segment) : (s.put b x).put b y = s.put b y := by
  unfold put
  rw [World.adopt_setStack, World.adopt_setStack, World.adopt_setStack, Heap.setStack_setStack]

/-- The state with the segment `y` at a place, other words in place of its roots and of those of the domain, and
another queue. -/
def Active.rewritten (s : Active) (f : Word → Word) (b : BlockId) (y : Segment) (q : Remembered) : Active :=
  { s.put b (y.rewrite f) with domain := { s.domain.mapRoots f with remembered := q } }

namespace Act

theorem syncStack_apply (hr : Running s r x) :
    syncStack s = (.ok (), s.put r.current (x.pointed r.used hr.used_le x.owner)) := by
  obtain ⟨_, _, hrun, rfl⟩ := exists_of_wp (syncStack_put hr)
  exact hrun

theorem scanStack_apply (hv : ∀ w t, (v w t).1 = f w) (t : τ) (hlayout : s.world.layout = .bytecode)
    (hx : s.world.heap.stack? b = some x) :
    scanStack v b t s = (.ok (v.visitAll x.roots t).2, s.put b (x.rewrite f)) := by
  have hrun : (scanStack v b t).wp s (fun k u => k = (v.visitAll x.roots t).2 ∧ u = s.put b (x.rewrite f))
      fun _ _ => False := by
    unfold scanStack
    simp only [wp_bind, wp_heap, wp_layout, hlayout, Heap.scanStack_rewrite hv hx]
    exact ⟨rfl, rfl⟩
  obtain ⟨_, _, hrun, rfl, rfl⟩ := exists_of_wp hrun
  exact hrun

theorem scanLocals_apply (hv : ∀ w t, (v w t).1 = f w) (t : τ) (s : Active) :
    scanLocals v t s = (.ok (v.visitAll (s.domain.frames.toList.flatMap LocalFrame.roots) t).2,
      { s with domain := { s.domain with frames := s.domain.frames.mapRoots f } }) := by
  have hrun : scanLocals v t s = (.ok (s.domain.frames.scan v t).2,
      { s with domain := { s.domain with frames := (s.domain.frames.scan v t).1 } }) := rfl
  rw [hrun, LocalFrames.scan_mapRoots hv]

theorem scanPending_apply (hv : ∀ w t, (v w t).1 = f w) (t : τ) (s : Active) :
    scanPending v t s = (.ok (v.visitAll s.domain.pending.toList t).2,
      { s with domain := { s.domain with pending := s.domain.pending.map f } }) := by
  have hrun : (scanPending v t).wp s (fun k u => k = (v.visitAll s.domain.pending.toList t).2 ∧
      u = { s with domain := { s.domain with pending := s.domain.pending.map f } }) fun _ _ => False := by
    unfold scanPending
    simp only [wp_bind, wp_domain]
    cases hp : s.domain.pending with
    | none => exact ⟨rfl, by rw [Option.map_none, ← hp]⟩
    | some w => exact ⟨rfl, by rw [Option.map_some, ← hv w t]⟩
  obtain ⟨_, _, hrun, rfl, rfl⟩ := exists_of_wp hrun
  exact hrun

/-- **The roots of a domain are shown**: the stack pointer is written back first. -/
theorem scanRoots_apply (hv : ∀ w t, (v w t).1 = f w) (t : τ) (hr : Running s r x)
    (hlayout : s.world.layout = .bytecode) :
    scanRoots v t s = (.ok (v.visitAll (s.domain.roots x (s.words r.current).reverse) t).2,
      s.rewritten f r.current (x.pointed r.used hr.used_le x.owner) s.domain.remembered) := by
  have hx : (s.put r.current (x.pointed r.used hr.used_le x.owner)).world.heap.stack? r.current =
      some (x.pointed r.used hr.used_le x.owner) := (stack?_put hr.stack _).trans (if_pos rfl)
  have hcur : domain (s.put r.current (x.pointed r.used hr.used_le x.owner)) =
      (.ok s.domain, s.put r.current (x.pointed r.used hr.used_le x.owner)) := rfl
  unfold scanRoots
  rw [bind_of_ok (syncStack_apply hr), bind_of_ok hcur, hr.current?]
  simp only
  rw [bind_of_ok (scanStack_apply (s := s.put _ _) hv t hlayout hx), Active.put_put,
    bind_of_ok (scanLocals_apply hv _ _), scanPending_apply hv, Domain.roots, ← hr.roots_pointed x.owner,
    Visitor.visitAll_append, Visitor.visitAll_append]
  rfl

end Act

/-! ### Words replaced where they are read -/

theorem Segment.capacity_rewrite (f : Word → Word) (x : Segment) : (x.rewrite f).capacity = x.capacity := by
  have hle := x.used_le
  simp only [capacity, rewrite, List.length_append, List.length_map, List.length_take, List.length_drop]
  omega

theorem Segment.take_slots_rewrite (f : Word → Word) (x : Segment) :
    (x.rewrite f).slots.take x.used = (x.slots.take x.used).map f := by
  have hle := x.used_le
  simp [rewrite, Nat.min_eq_left hle]

/-- **The roots of a domain replaced by `f` of them**, in the registers `r` and the segment `x` of its current stack.
The stack is left with the mark `o`, the domain with the queue `q`, and nothing else is different. -/
structure Replaced (f : Word → Word) (r : Registers) (x : Segment) (o : Option DomainId) (q : Remembered)
    (s u : Active) : Prop where
  /-- Handlers and link of the current stack. -/
  stack : ∃ g y, s.world.heap.cell? r.current = some ⟨g, .stack x⟩ ∧ u.world.heap.cell? r.current = some ⟨g, .stack y⟩ ∧
    y.metadata = x.metadata.map f ∧ y.owner = o
  /-- The words in use. -/
  peek : ∀ depth, ∃ w, Act.peek depth s = (.ok w, s) ∧ Act.peek depth u = (.ok (w.map f), u)
  others : ∀ b, b ≠ r.current → u.world.heap.cell? b = s.world.heap.cell? b
  /-- Local roots and pending exception; the registers stay. -/
  domain : u.domain = { s.domain.mapRoots f with remembered := q }
  heap : u.world.heap = { s.world.heap with cells := u.world.heap.cells }
  world : u.world = { s.world with heap := u.world.heap }

/-- The domain still runs on its stack. -/
theorem Running.rewritten (hr : Running s r x) (f : Word → Word) (o : Option DomainId) (q : Remembered) :
    Running (s.rewritten f r.current (x.pointed r.used hr.used_le o) q) r
      ((x.pointed r.used hr.used_le o).rewrite f) where
  registers := hr.registers
  stack := (stack?_put hr.stack _).trans (if_pos rfl)
  capacity := hr.capacity.trans (Segment.capacity_rewrite f (x.pointed r.used hr.used_le o)).symm
  used_le := (Segment.capacity_rewrite f (x.pointed r.used hr.used_le o)).symm ▸ hr.used_le

theorem Running.replaced (hr : Running s r x) (f : Word → Word) (o : Option DomainId) (q : Remembered) :
    Replaced f r x o q s (s.rewritten f r.current (x.pointed r.used hr.used_le o) q) := by
  obtain ⟨g, hg⟩ := Heap.cell?_of_stack? hr.stack
  have hput : ∀ b, (s.rewritten f r.current (x.pointed r.used hr.used_le o) q).world.heap.cell? b =
      if b = r.current then some ⟨g, .stack ((x.pointed r.used hr.used_le o).rewrite f)⟩ else s.world.heap.cell? b :=
    Heap.cell?_setStack hg
  refine ⟨⟨g, _, hg, (hput _).trans (if_pos rfl), rfl, rfl⟩, fun depth => ⟨_, hr.peeks depth, ?_⟩,
    fun b hb => (hput b).trans (if_neg hb), rfl, rfl, ?_⟩
  · have hwords : (s.rewritten f r.current (x.pointed r.used hr.used_le o) q).words r.current =
        (s.words r.current).map f := by
      rw [(hr.rewritten f o q).words, hr.words]
      exact Segment.take_slots_rewrite f (x.pointed r.used hr.used_le o)
    rw [(hr.rewritten f o q).peeks depth, hwords, ← List.map_reverse, List.getElem?_map]
  · show s.world.adopt _ = _
    rw [World.adopt_setStack]
    rfl

/-! ### Between saving and loading the stack -/

/-- The queue of a domain that has saved its current stack. -/
def Active.savedQueue (s : Active) (b : BlockId) (x : Segment) : Remembered :=
  if s.world.heap.isYoung b = false ∧ x.owner = none then s.domain.remembered.push b else s.domain.remembered

/-- The state of a domain that has saved a stack for a collection. -/
def Active.atCollection (s : Active) (b : BlockId) (y : Segment) (q : Remembered) : Active :=
  { s.put b y with domain := { s.domain with remembered := q, stackSaved := true } }

theorem Saves.eq_pointed (hs : Saves s r x y q) : y = x.pointed r.used hs.used_le (s.savedOwner r.current x) := by
  obtain ⟨used, owner, handlers, link, slots, hle⟩ := y
  have hused : used = r.used := hs.used
  have howner : owner = s.savedOwner r.current x := hs.owner
  have hhandlers : handlers = x.handlers := hs.handlers
  have hlink : link = x.link := hs.link
  have hslots : slots = x.slots := hs.slots
  subst hused howner hhandlers hlink hslots
  rfl

theorem Saves.eq_savedQueue (hs : Saves s r x y q) : q = s.savedQueue r.current x := by
  unfold Active.savedQueue
  rcases hs.mark with ⟨hclean, -, rfl⟩ | ⟨hold, hx, -, rfl⟩
  · rw [if_neg]
    rintro ⟨hold, hx⟩
    simp [hold, hx] at hclean
  · rw [if_pos ⟨hold, hx⟩]

/-- **The roots of a domain replaced in a collection**, which saves the current stack first: an old one then carries the
mark of the domain and is queued by it. -/
def Collected (f : Word → Word) (r : Registers) (x : Segment) (s u : Active) : Prop :=
  ∃ o q, Replaced f r x o q s u ∧
    if s.world.heap.isYoung r.current then o = x.owner ∧ q = s.domain.remembered
    else o = some s.domain.id ∧ r.current ∈ q.queue ∧
      (q = s.domain.remembered ∨ q = s.domain.remembered.push r.current)

theorem Running.collected (hr : Running s r x) (f : Word → Word)
    (hx : x.owner = none ∨ x.owner = some s.domain.id ∧ r.current ∈ s.domain.remembered.queue) :
    Collected f r x s (s.rewritten f r.current (x.pointed r.used hr.used_le (s.savedOwner r.current x))
      (s.savedQueue r.current x)) := by
  refine ⟨_, _, hr.replaced f _ _, ?_⟩
  cases hyoung : s.world.heap.isYoung r.current with
  | true => exact ⟨if_pos hyoung, if_neg (by simp [hyoung])⟩
  | false =>
    refine ⟨if_neg (by simp [hyoung]), ?_⟩
    rcases hx with hclean | ⟨hown, hqueued⟩
    · have hpush : s.savedQueue r.current x = s.domain.remembered.push r.current := if_pos ⟨hyoung, hclean⟩
      exact ⟨by simp [hpush, Remembered.push], .inr hpush⟩
    · have hkeep : s.savedQueue r.current x = s.domain.remembered := if_neg (by simp [hown])
      exact ⟨hkeep ▸ hqueued, .inl hkeep⟩

namespace Act

/-- **The roots of a domain are shown to a collection**: the current stack is saved before and loaded afterwards. -/
def collectRoots (v : Visitor τ) (t : τ) : Act τ := do
  saveForCollection
  let t ← scanRoots v t
  restoreForCollection
  return t

theorem saveForCollection_apply (hr : Running s r x) (hx : x.owner = none ∨ x.owner = some s.domain.id)
    (hsaved : s.domain.stackSaved = false) :
    saveForCollection s = (.ok (), s.atCollection r.current
      (x.pointed r.used hr.used_le (s.savedOwner r.current x)) (s.savedQueue r.current x)) := by
  have hrun : saveForCollection.wp s (fun _ u => u = s.atCollection r.current
      (x.pointed r.used hr.used_le (s.savedOwner r.current x)) (s.savedQueue r.current x)) fun _ _ => False := by
    unfold saveForCollection
    simp only [wp_bind, wp_domain, wp_require, hsaved, not_true_eq_false, false_implies, and_true, forall_const]
    refine wp_mono (saveStack_saves s) ?_ fun _ _ h => (hx.elim (h.2 r x hr).1 (h.2 r x hr).2).elim
    rintro _ _ ⟨r', x', y, q, hsaves, rfl, rfl⟩
    obtain rfl := Option.some.inj (hsaves.registers.symm.trans hr.registers)
    obtain rfl := Option.some.inj (hsaves.stack.symm.trans hr.stack)
    obtain rfl := hsaves.eq_savedQueue
    rw [wp_modifyDomain, hsaves.eq_pointed, Active.stored, Active.atCollection, Active.put, World.adopt_setStack]
  obtain ⟨_, _, hrun, rfl⟩ := exists_of_wp hrun
  exact hrun

theorem restoreForCollection_apply (hr : Running s r x) (hused : x.used = r.used)
    (hsaved : s.domain.stackSaved = true) :
    restoreForCollection s = (.ok (), { s with domain := { s.domain with stackSaved := false } }) := by
  have hrun : restoreForCollection.wp s (fun _ u => u = { s with domain := { s.domain with stackSaved := false } })
      fun _ _ => False := by
    unfold restoreForCollection restoreStack
    simp only [wp_bind, wp_domain, hsaved, if_true]
    refine wp_registers_of hr.registers (wp_loadStack_of hr.stack ?_)
    have hregisters : s.domain.registers = some ⟨r.current, x.used, x.capacity⟩ := by
      rw [hr.registers, hused, ← hr.capacity]
    simp only [wp_modifyDomain, ← hregisters]
  obtain ⟨_, _, hrun, rfl⟩ := exists_of_wp hrun
  exact hrun

/-- **The roots are shown to a collection** as they are otherwise; only mark and queue are those of a stack saved. -/
theorem collectRoots_apply (hv : ∀ w t, (v w t).1 = f w) (t : τ) (hr : Running s r x)
    (hlayout : s.world.layout = .bytecode) (hx : x.owner = none ∨ x.owner = some s.domain.id)
    (hsaved : s.domain.stackSaved = false) :
    collectRoots v t s = (.ok (v.visitAll (s.domain.roots x (s.words r.current).reverse) t).2,
      s.rewritten f r.current (x.pointed r.used hr.used_le (s.savedOwner r.current x)) (s.savedQueue r.current x)) := by
  let y := x.pointed r.used hr.used_le (s.savedOwner r.current x)
  let m := s.atCollection r.current y (s.savedQueue r.current x)
  have hm : Running m r y := ⟨hr.registers, (stack?_put hr.stack _).trans (if_pos rfl), hr.capacity, hr.used_le⟩
  have hwords : m.words r.current = s.words r.current := by
    rw [hm.words, hr.words]
    rfl
  have hroots : m.domain.roots y (m.words r.current).reverse = s.domain.roots x (s.words r.current).reverse := by
    rw [hwords]
    rfl
  have hscan := scanRoots_apply hv t hm hlayout
  rw [hroots] at hscan
  have hu := hm.rewritten f y.owner m.domain.remembered
  unfold collectRoots
  rw [bind_of_ok (saveForCollection_apply hr hx hsaved), bind_of_ok hscan,
    bind_of_ok (restoreForCollection_apply hu rfl rfl), pure_apply]
  have hdomain : ({ m.domain.mapRoots f with stackSaved := false } : Domain) =
      { s.domain.mapRoots f with remembered := s.savedQueue r.current x } := by
    rw [← hsaved]
    rfl
  have hworld := congrArg Active.world (Active.put_put s r.current y (y.rewrite f))
  exact congrArg₂ (fun d w => (Except.ok _, Active.mk d w)) hdomain hworld

theorem collectRoots_saved (v : Visitor τ) (t : τ) (hsaved : s.domain.stackSaved = true) :
    collectRoots v t s = (.error (.fault .alreadySaved), s) := by
  have hsave : saveForCollection s = (.error (.fault .alreadySaved), s) := by
    unfold saveForCollection
    rw [bind_of_ok (show domain s = (.ok s.domain, s) from rfl), require, if_neg (by simp [hsaved])]
    rfl
  exact bind_of_error hsave

/-- **An old stack with the mark of another domain** is not saved. -/
theorem collectRoots_foreign {o : DomainId} (v : Visitor τ) (t : τ) (hr : Running s r x)
    (hold : s.world.heap.isYoung r.current = false) (ho : x.owner = some o) (hne : o ≠ s.domain.id)
    (hsaved : s.domain.stackSaved = false) :
    ∃ u, collectRoots v t s = (.error (.fault (.foreignMark r.current o s.domain.id)), u) := by
  have hsave : saveForCollection.wp s (fun _ _ => False)
      fun e _ => e = .fault (.foreignMark r.current o s.domain.id) := by
    unfold saveForCollection saveStack
    simp only [wp_bind, wp_domain, wp_require, hsaved, not_true_eq_false, false_implies, and_true, forall_const]
    refine wp_registers_of hr.registers (wp_of_returns (syncStack_put hr) ?_)
    rintro - _ rfl
    have hyoung := (Heap.isYoung_setStack s.world.heap r.current r.current
      { x with used := r.used, used_le := hr.used_le }).trans hold
    refine wp_markDirty.2 ⟨fun h => ?_, fun _ => ⟨fun z hz => ?_, fun hgone => ?_⟩⟩
    · cases hyoung.symm.trans h
    · obtain rfl := Option.some.inj (((stack?_put hr.stack _).trans (if_pos rfl)).symm.trans hz)
      refine ⟨fun h => ?_, fun h => ?_, fun o' ho' _ => ?_⟩
      · cases ho.symm.trans h
      · exact hne (Option.some.inj (ho.symm.trans h))
      · obtain rfl := Option.some.inj (ho.symm.trans ho')
        rfl
    · cases ((stack?_put hr.stack _).trans (if_pos rfl)).symm.trans hgone
  obtain ⟨_, u, hrun, rfl⟩ := exists_error_of_wp hsave
  exact ⟨u, bind_of_error hrun⟩

/-- **Where a collection gets to see the roots**, the stack was not saved and carries no foreign mark. -/
theorem unmarked_of_collectRoots {k : τ} (hr : Running s r x)
    (hold : ∀ o, x.owner = some o → s.world.heap.isYoung r.current = false)
    (hrun : collectRoots v t s = (.ok k, u)) :
    s.domain.stackSaved = false ∧ ∀ o, x.owner = some o → o = s.domain.id := by
  have hsaved : s.domain.stackSaved = false := by
    by_contra hsaved
    rw [Bool.not_eq_false] at hsaved
    cases (collectRoots_saved v _ hsaved).symm.trans hrun
  refine ⟨hsaved, fun o ho => ?_⟩
  by_contra hne
  obtain ⟨_, hstop⟩ := collectRoots_foreign v _ hr (hold o ho) ho hne hsaved
  cases hstop.symm.trans hrun

end Act

namespace Machine

variable {m m' : Machine} {d e : DomainId} {z : Domain} {layout : Layout} {config : Config} {maxWords minorLimit : Nat}

/-- **A domain has come to a state**, and the other domains are where they were. -/
structure Reaches (m : Machine) (d : DomainId) (u : Active) (m' : Machine) : Prop where
  domain : m'.domain? d = some u.domain
  world : m'.world = u.world
  others : ∀ e, e ≠ d → m'.domain? e = m.domain? e

theorem exists_act {α : Type} {a : Act α} {k : Except Stop α} (hz : m.domain? d = some z)
    (hrun : a ⟨z, m.world⟩ = (k, u)) (hid : u.domain.id = z.id) :
    ∃ m', m.act d a = some (k, m') ∧ m.Reaches d u m' := by
  have hud : u.domain.id = d := hid.trans (id_of_domain? hz)
  have hlookup : ∀ e, (m.setDomain u.domain).domain? e = if e = d then some u.domain else m.domain? e := fun e => by
    rw [domain?_setDomain (hud ▸ hz), hud]
  refine ⟨{ m.setDomain u.domain with world := u.world }, ?_, (hlookup d).trans (if_pos rfl), rfl,
    fun e he => (hlookup e).trans (if_neg he)⟩
  rw [act, hz, Option.map_some, hrun]

theorem Orderly.isYoung_of_owner? {o : DomainId} (h : m.Orderly) (hb : m.world.heap.owner? b = some o) :
    m.world.heap.isYoung b = false := by
  simp [Heap.isYoung, h.old b o hb]

/-- **The roots of a domain as a collector sees them are those its code sees.**  Whatever has been done to a machine,
under the bytecode layout, a domain with registers shows handlers and link of its current stack, then the words that
peeks see, and then its local roots and the pending exception, each once and in this order.  A visitor that stores `f`
of every word leaves `f` of each of them where it is read: `Replaced` says so, and that nothing else is different.
Where the stack is saved before and loaded afterwards, the same holds but for mark and queue of an old stack.  This
stops if and only if the stack is saved already or carries the mark of another domain. -/
theorem scanRoots_exact (hm : Arises config layout maxWords minorLimit m) (hz : m.domain? d = some z)
    (hr : z.registers = some r) (hlayout : m.world.layout = .bytecode) :
    (maxWords < 2 ^ 32 → z.Seated m.world.heap) ∧ (z.Seated m.world.heap → ∃ x ws,
      m.world.heap.stack? r.current = some x ∧ ws.length = r.used ∧ Active.Peeks ⟨z, m.world⟩ ws ∧
      ∀ (τ : Type) (v : Visitor τ) (f : Word → Word) (t : τ), (∀ w t, (v w t).1 = f w) →
        (∃ u m', m.act d (Act.scanRoots v t) = some (.ok (v.visitAll (z.roots x ws) t).2, m') ∧ m.Reaches d u m' ∧
          Replaced f r x x.owner z.remembered ⟨z, m.world⟩ u) ∧
        (z.stackSaved = false → (∀ o, x.owner = some o → o = d) → ∃ u m',
          m.act d (Act.collectRoots v t) = some (.ok (v.visitAll (z.roots x ws) t).2, m') ∧ m.Reaches d u m' ∧
          Collected f r x ⟨z, m.world⟩ u) ∧
        ((∃ k m', m.act d (Act.collectRoots v t) = some (.ok k, m')) →
          z.stackSaved = false ∧ ∀ o, x.owner = some o → o = d)) := by
  refine ⟨fun hbudget => (hm.inPlace hbudget).seated z (List.mem_of_find?_eq_some hz), fun hseated => ?_⟩
  obtain ⟨x, hx, hcap, hused⟩ := hseated r hr
  have hrun : FiberStacks.Running ⟨z, m.world⟩ r x := ⟨hr, hx, hcap, hused⟩
  have hid : z.id = d := id_of_domain? hz
  have howner : m.world.heap.owner? r.current = x.owner := Heap.owner?_of_stack? hx
  refine ⟨x, _, hx, by rw [List.length_reverse, hrun.length_words], hrun.peeks, fun τ v f t hv => ⟨?_, ?_, ?_⟩⟩
  · obtain ⟨m', hact, hreach⟩ := exists_act hz (Act.scanRoots_apply hv t hrun hlayout) rfl
    exact ⟨_, m', hact, hreach, hrun.replaced f _ _⟩
  · intro hsaved hown
    have hmark : x.owner = none ∨ x.owner = some z.id ∧ r.current ∈ z.remembered.queue := by
      cases ho : x.owner with
      | none => exact .inl rfl
      | some o =>
        obtain rfl : o = z.id := (hown o ho).trans hid.symm
        exact .inr ⟨rfl, hm.orderly.mem_queue hz (howner.trans ho)⟩
    obtain ⟨m', hact, hreach⟩ :=
      exists_act hz (Act.collectRoots_apply hv t hrun hlayout (hmark.imp_right And.left) hsaved) rfl
    exact ⟨_, m', hact, hreach, hrun.collected f hmark⟩
  · rintro ⟨k, m', hact⟩
    obtain ⟨z', u, hz', hcollect, -⟩ := act_eq_some hact
    obtain rfl := Option.some.inj (hz.symm.trans hz')
    obtain ⟨hsaved, hown⟩ := Act.unmarked_of_collectRoots hrun
      (fun o ho => hm.orderly.isYoung_of_owner? (howner.trans ho)) hcollect
    exact ⟨hsaved, fun o ho => (hown o ho).trans hid⟩

/-- A main stack with two words is replaced by a larger one, which grows old; another word is pushed onto that, and one
more that is popped again. -/
def grownSince : List Event :=
  [.create, .ask ⟨1⟩ .start, .ask ⟨1⟩ (.call (.push (.ofInt 5))), .ask ⟨1⟩ (.call (.push (.ofInt 7))),
    .ask ⟨1⟩ (.call (.grow 20 [])), .promote ⟨1⟩, .ask ⟨1⟩ (.call (.push (.ofInt 8))),
    .ask ⟨1⟩ (.call (.push (.ofInt 9))), .ask ⟨1⟩ (.call .pop)]

/-- A local frame is opened on top of that.  Three words are in use where the segment counts two. -/
theorem scanRoots_exact_grownSince : ∃ m z x ws, Arises { initStackWords := 16 } .bytecode 100 100 m ∧
    m.domain? ⟨1⟩ = some z ∧ z.registers = some ⟨⟨1⟩, 3, 32⟩ ∧ m.world.layout = .bytecode ∧
    m.world.heap.stack? ⟨1⟩ = some x ∧ x.used = 2 ∧ ws.length = 3 ∧ Active.Peeks ⟨z, m.world⟩ ws ∧
    ∀ f : Word → Word,
      (∃ u m', m.act ⟨1⟩ (Act.scanRoots (.recording f) []) = some (.ok (z.roots x ws), m') ∧ m.Reaches ⟨1⟩ u m' ∧
        Replaced f ⟨⟨1⟩, 3, 32⟩ x none z.remembered ⟨z, m.world⟩ u) ∧
      ∃ q u m', m.act ⟨1⟩ (Act.collectRoots (.recording f) []) = some (.ok (z.roots x ws), m') ∧
        m.Reaches ⟨1⟩ u m' ∧ Replaced f ⟨⟨1⟩, 3, 32⟩ x (some ⟨1⟩) q ⟨z, m.world⟩ u ∧ ⟨1⟩ ∈ q.queue := by
  have hseen : ((small.chronicle grownSince).bind fun p =>
      ((p.2.act ⟨1⟩ (Task.enterFrame [.ofInt 4]).act).bind continued).map fun m =>
        (decide (∀ r ∈ p.1, r.Fair), (m.domain? ⟨1⟩).map fun z => (z.registers, z.stackSaved), m.world.layout,
          (m.world.heap.stack? ⟨1⟩).map fun x => (x.used, x.owner), m.world.heap.isYoung ⟨1⟩)) =
      some (true, some (some ⟨⟨1⟩, 3, 32⟩, false), .bytecode, some (2, none), false) := by
    rfl
  obtain ⟨⟨rs, m₀⟩, hc, hm⟩ := Option.bind_eq_some_iff.1 hseen
  obtain ⟨m, htask, hm⟩ := Option.map_eq_some_iff.1 hm
  obtain ⟨hfair, hm⟩ := Prod.mk.inj hm
  obtain ⟨hdomain, hm⟩ := Prod.mk.inj hm
  obtain ⟨hlayout, hm⟩ := Prod.mk.inj hm
  obtain ⟨hstack, hold⟩ := Prod.mk.inj hm
  obtain ⟨z, hz, hzr⟩ := Option.map_eq_some_iff.1 hdomain
  obtain ⟨hr, hsaved⟩ := Prod.mk.inj hzr
  obtain ⟨x, hx, hxo⟩ := Option.map_eq_some_iff.1 hstack
  obtain ⟨hused, howner⟩ := Prod.mk.inj hxo
  have harises : Arises { initStackWords := 16 } .bytecode 100 100 m :=
    ⟨false, (follows_of_chronicle hc (of_decide_eq_true hfair)).tail (.task htask)⟩
  obtain ⟨hseated, hexact⟩ := scanRoots_exact harises hz hr hlayout
  obtain ⟨x', ws, hx', hlen, hpeeks, hshown⟩ := hexact (hseated (by decide))
  obtain rfl := Option.some.inj (hx.symm.trans hx')
  refine ⟨m, z, x, ws, harises, hz, hr, hlayout, hx, hused, hlen, hpeeks, fun f => ?_⟩
  obtain ⟨hplain, hcollected, -⟩ := hshown _ (.recording f) f [] fun _ _ => rfl
  obtain ⟨u, m', hact, hreach, o, q, hreplaced, hdirty⟩ := hcollected hsaved (by simp [howner])
  rw [if_neg (by simp [hold])] at hdirty
  obtain ⟨rfl, hqueued, -⟩ := hdirty
  rw [id_of_domain? hz] at hreplaced
  simp only [Visitor.visitAll_recording, List.nil_append, howner] at hplain hact
  exact ⟨hplain, q, u, m', hact, hreach, hreplaced, hqueued⟩

/-- Two domains start, the first one saves its main stack, and the second one goes over to it and pushes a word. -/
def sharedStack : List Event :=
  [.create, .ask ⟨1⟩ .start, .create, .ask ⟨2⟩ .start, .ask ⟨1⟩ (.call .save), .ask ⟨2⟩ (.call (.switch ⟨0⟩)),
    .ask ⟨2⟩ (.call (.push (.ofInt 7)))]

/-- **A stack with the mark of another domain** cannot be saved, so that its roots are not shown. -/
theorem not_collectRoots_returns : ¬ ∀ (config : Config) (layout : Layout) (maxWords minorLimit : Nat) (m : Machine)
    (d : DomainId) (z : Domain) (r : Registers), maxWords < 2 ^ 32 → Arises config layout maxWords minorLimit m →
    m.domain? d = some z → z.registers = some r → m.world.layout = .bytecode → z.stackSaved = false →
    ∀ (τ : Type) (v : Visitor τ) (f : Word → Word) (t : τ), (∀ w t, (v w t).1 = f w) →
      ∃ k m', m.act d (Act.collectRoots v t) = some (.ok k, m') := by
  intro h
  have hseen : (small.chronicle sharedStack).map (fun p => (decide (∀ r ∈ p.1, r.Fair),
      (p.2.domain? ⟨2⟩).map fun z => (z.registers, z.stackSaved), p.2.world.layout,
      (p.2.act ⟨2⟩ (Act.collectRoots (.recording id) [])).map Prod.fst)) =
      some (true, some (some ⟨⟨0⟩, 1, 16⟩, false), .bytecode, some (.error (.fault (.foreignMark ⟨0⟩ ⟨1⟩ ⟨2⟩)))) := by
    rfl
  obtain ⟨⟨rs, m⟩, hc, hm⟩ := Option.map_eq_some_iff.1 hseen
  obtain ⟨hfair, hm⟩ := Prod.mk.inj hm
  obtain ⟨hdomain, hm⟩ := Prod.mk.inj hm
  obtain ⟨hlayout, hstops⟩ := Prod.mk.inj hm
  obtain ⟨z, hz, hzr⟩ := Option.map_eq_some_iff.1 hdomain
  obtain ⟨hr, hsaved⟩ := Prod.mk.inj hzr
  have harises : Arises { initStackWords := 16 } .bytecode 100 100 m :=
    ⟨false, follows_of_chronicle hc (of_decide_eq_true hfair)⟩
  obtain ⟨k, m', hact⟩ := h _ _ _ _ m ⟨2⟩ z _ (by decide) harises hz hr hlayout hsaved _ (.recording id) id []
    fun _ _ => rfl
  rw [hact] at hstops
  cases hstops

end Machine

end FiberStacks
