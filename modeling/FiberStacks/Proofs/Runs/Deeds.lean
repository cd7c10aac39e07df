import FiberStacks.Proofs.Runs.Events
import FiberStacks.Proofs.Runs.Showing
import Mathlib.Logic.Relation

/-!
# All that can be done to a machine

Besides running errands, domains open and close local frames, take and give back locks, enter and leave blocking
sections, name the place of saved registers, show their roots to a collector and end; marks are cleared beside them.
What is said of marks and of registers holds of every machine that comes about in this way, in any order of deeds.

* `Machine.Task` — what else a domain can be asked to do;
* `Machine.Follows`, `Machine.Arises` — **one machine after another**, and those that come about;
* `Machine.Beside` — what is done beside all domains;
* `Arises.orderly` — marks are on old stacks, and of domains that have queued them;
* `Arises.inPlace` — **within a budget registers describe their stacks**.
-/

namespace FiberStacks

open FiberStacks.Action

namespace Machine

/-! ### Deeds -/

/-- **What a domain can be asked to do** besides its errands. -/
inductive Task : Type 1 where
  | enterFrame (roots : List Word)
  | leaveFrame (marker : Nat)
  | acquire (l : Lock)
  | release (id : LockId)
  | enterBlocking
  | leaveBlocking
  | setRegisterSlot (offset : Option Int)
  | scanRoots {τ : Type} (v : Visitor τ) (t : τ)
  /-- A minor pass. -/
  | scanRemembered {τ : Type} (v : Visitor τ) (t : τ)
  /-- A major pass. -/
  | scanAll {τ : Type} (v : Visitor τ) (t : τ)

/-- What is done; the result is not looked at. -/
def Task.act : Task → Act Unit
  | enterFrame roots => do let _ ← Act.enterFrame roots
  | leaveFrame marker => do let _ ← Act.leaveFrame marker
  | acquire l => do let _ ← Act.acquire l
  | release id => do let _ ← Act.release id
  | enterBlocking => Act.enterBlocking
  | leaveBlocking => Act.leaveBlocking
  | setRegisterSlot offset => Act.setRegisterSlot offset
  | scanRoots v t => do let _ ← Act.scanRoots v t
  | scanRemembered v t => do let _ ← Act.scanRemembered v t
  | scanAll v t => do let _ ← Act.scanAll v t

/-- **One thing more is done**, and the machine goes on. -/
inductive Follows (m : Machine) : Machine → Prop where
  | event {e : Event} {out : Outcome} {m' : Machine} (hfair : e.Fair m) (hp : m.perform e = some (out, m'))
      (hgo : out.goesOn = true) : Follows m m'
  | task {d : DomainId} {k : Task} {m' : Machine} (hm : (m.act d k.act).bind continued = some m') : Follows m m'
  | terminate {d : DomainId} {m' : Machine} (hm : (m.terminate d).bind continued = some m') : Follows m m'
  /-- Clear the mark of a stack if it is that of a domain. -/
  | clean {d : DomainId} {b : BlockId} {r : Bool} {h : Heap} (hc : m.world.heap.clean d b = .ok (r, h)) :
      Follows m (m.setHeap h)
  /-- Clear all marks of a domain. -/
  | cleanAll (d : DomainId) : Follows m { m with world := (m.world.cleanAll d).2 }

/-- **The machines that come about** from one before start-up, whether it writes entries of the level debug or not. -/
def Arises (config : Config) (layout : Layout) (maxWords minorLimit : Nat) (m : Machine) : Prop :=
  ∃ verbose, Relation.ReflTransGen Follows
    (initial { World.initial config layout (.empty maxWords minorLimit) with verbose }) m

variable {m m' : Machine} {d : DomainId} {e : Event} {out : Outcome}

theorem follows_of_chronicle {es : List Event} : ∀ {m m' : Machine} {rs : List Record},
    m.chronicle es = some (rs, m') → (∀ r ∈ rs, r.Fair) → Relation.ReflTransGen Follows m m' := by
  induction es with
  | nil =>
    intro m m' rs h _
    obtain ⟨-, rfl⟩ := Prod.mk.inj (Option.some.inj h)
    exact .refl
  | cons e es ih =>
    intro m m' rs h hfair
    obtain ⟨out, m₁, rs', hp, hgo, hrest, rfl⟩ := chronicle_cons h
    obtain ⟨hfirst, hlater⟩ := List.forall_mem_cons.1 hfair
    exact .head (.event hfirst hp hgo) (ih hrest hlater)

instance (o : Object) : Decidable o.Unmarked :=
  match o with
  | .stack s => decidable_of_iff (s.owner = none) ⟨Object.unmarked_stack, fun h => h s rfl⟩
  | .block _ _ | .text _ | .capsule _ => isTrue (Object.unmarked_of_ne nofun)

instance : ∀ e : Event, Decidable (e.Fair m)
  | .alloc o _ => inferInstanceAs (Decidable (0 < o.size ∧ o.Unmarked))
  | .free b => inferInstanceAs (Decidable (∀ x ∈ m.domains, x.current? ≠ some b))
  | .createTable | .create | .ask _ _ | .capture _ | .put _ _ | .take _ | .clone _ | .promote _ | .markReady =>
    isTrue trivial

instance (r : Record) : Decidable r.Fair := inferInstanceAs (Decidable (r.event.Fair r.before))

/-! ### Beside all domains -/

/-- **Something is done beside all domains**: no mark is put, a heap in order stays so, and the registers of the
domains that described their stacks still do. -/
structure Beside (m m' : Machine) : Prop where
  domains : m'.domains = m.domains
  created : m'.world.domainsCreated = m.world.domainsCreated
  loses : m.world.heap.LosesMarks m'.world.heap
  inOrder : m.world.heap.InOrder → m'.world.heap.InOrder
  seated : m.world.heap.InOrder → ∀ x ∈ m.domains, x.Seated m.world.heap → x.Seated m'.world.heap

namespace Beside

/-- Nothing is done. -/
theorem refl (hf : m.world.heap.FreeListed) : Beside m m :=
  ⟨rfl, rfl, Heap.KeepsMarks.loses (.refl hf), id, fun _ _ _ h => h⟩

theorem of_lasts {w : World} (hcreated : w.domainsCreated = m.world.domainsCreated)
    (hloses : m.world.heap.LosesMarks w.heap)
    (hlasts : m.world.heap.InOrder → m.world.heap.Lasts (fun _ => True) w.heap) : Beside m { m with world := w } :=
  ⟨rfl, hcreated, hloses, fun hh => (hlasts hh).inOrder, fun hh _ _ hx => hx.of_lasts (hlasts hh)⟩

theorem of_tended {w : World} (hf : m.world.heap.FreeListed) (hcreated : w.domainsCreated = m.world.domainsCreated)
    (ht : m.world.heap.Tended w.heap) : Beside m { m with world := w } :=
  of_lasts hcreated (ht.loses hf) fun hh => (ht.lasts hh).mono fun _ hf => hf.elim

/-- A block is allocated that carries no mark. -/
theorem alloc {o : Object} {path : AllocPath} {b : BlockId} {h : Heap} (hf : m.world.heap.FreeListed)
    (hsize : 0 < o.size) (ho : o.Unmarked) (ha : m.world.heap.alloc o path = .ok (b, h)) : Beside m (m.setHeap h) :=
  of_lasts rfl (Heap.keepsMarks_alloc hf ho ha).loses fun hh => Heap.lasts_alloc hh hsize ho ha

theorem setCapsule {k : BlockId} {c c' : Capsule} (hf : m.world.heap.FreeListed)
    (hk : m.world.heap.capsule? k = some c) : Beside m (m.setHeap (m.world.heap.set k (.capsule c'))) :=
  of_lasts rfl (Heap.keepsMarks_setCapsule hf hk).loses fun hh => Heap.lasts_setCapsule hh hk trivial

/-- A block is freed that no domain runs on. -/
theorem discard {b : BlockId} (hf : m.world.heap.FreeListed) (hb : ∀ x ∈ m.domains, x.current? ≠ some b) :
    Beside m (m.setHeap (m.world.heap.discard b)) where
  domains := rfl
  created := rfl
  loses := Heap.losesMarks_discard hf b
  inOrder hh := Heap.inOrder_discard hh b
  seated _ x hx hseat r hr := by
    obtain ⟨y, hy, hcap, hused⟩ := hseat r hr
    have hne : r.current ≠ b := by
      rintro rfl
      exact hb x hx (Domain.current?_of_registers hr)
    refine ⟨y, ?_, hcap, hused⟩
    rw [setHeap, World.heap_adopt, Heap.stack?, Heap.get?_discard_of_ne hne]
    exact hy

/-- A block beside all domains, or a failure. -/
theorem conclude {r : Except Failure (BlockId × Heap)} (hf : m.world.heap.FreeListed)
    (hr : ∀ b h, r = .ok (b, h) → Beside m (m.setHeap h)) : Beside m (m.conclude r).2 := by
  rcases r with f | ⟨b, h⟩
  · exact .refl hf
  · exact hr b h rfl

/-- **Every event beside all domains.** -/
theorem perform (hf : m.world.heap.FreeListed) (hcreate : e ≠ .create) (hask : ∀ d errand, e ≠ .ask d errand)
    (hfair : e.Fair m) (hp : m.perform e = some (out, m')) : Beside m m' := by
  cases e with
  | create => exact absurd rfl hcreate
  | ask d errand => exact absurd rfl (hask d errand)
  | createTable =>
    obtain ⟨-, rfl⟩ := Prod.mk.inj (Option.some.inj hp)
    obtain ⟨hkeeps, hcreated⟩ := keepsMarks_createTable hf
    exact of_lasts hcreated hkeeps.loses lasts_createTable
  | capture head =>
    obtain ⟨-, rfl⟩ := Prod.mk.inj (Option.some.inj hp)
    refine conclude hf fun b h hr => ?_
    exact alloc (o := .capsule (.full head)) hf (Nat.succ_pos 1) (Object.unmarked_of_ne (by simp))
      (Heap.capture_eq_ok_iff.1 hr).2
  | put k head =>
    obtain ⟨c, hk, hr⟩ := Option.map_eq_some_iff.1 hp
    split at hr
    · obtain ⟨-, rfl⟩ := Prod.mk.inj hr
      exact setCapsule hf hk
    · obtain ⟨-, rfl⟩ := Prod.mk.inj hr
      exact .refl hf
  | take k =>
    obtain ⟨-, rfl⟩ := Prod.mk.inj (Option.some.inj hp)
    refine conclude hf fun b h hr => ?_
    obtain ⟨hk, rfl⟩ := Heap.takeHead_eq_ok_iff.1 hr
    exact setCapsule hf hk
  | clone k =>
    have hclone : ∀ r h, m.world.heap.cloneChain k = .ok (r, h) → Beside m (m.setHeap h) := fun r h hr =>
      of_lasts rfl (Heap.marks_cloneChain hf hr).1 fun hh => Heap.lasts_cloneChain hh hr
    replace hp := Option.some.inj hp
    split at hp
    · next hr =>
      obtain ⟨-, rfl⟩ := Prod.mk.inj hp
      exact hclone _ _ hr
    · next hr =>
      obtain ⟨-, rfl⟩ := Prod.mk.inj hp
      exact hclone _ _ hr
    · obtain ⟨-, rfl⟩ := Prod.mk.inj hp
      exact .refl hf
  | alloc o path =>
    obtain ⟨-, rfl⟩ := Prod.mk.inj (Option.some.inj hp)
    exact conclude hf fun b h hr => alloc hf hfair.1 hfair.2 (Heap.mapError_eq_ok_iff.1 hr)
  | free b =>
    obtain ⟨-, rfl⟩ := Prod.mk.inj (Option.some.inj hp)
    exact discard hf hfair
  | promote b =>
    obtain ⟨-, rfl⟩ := Prod.mk.inj (Option.some.inj hp)
    exact of_lasts rfl (Heap.losesMarks_promote hf b) fun hh => Heap.lasts_promote hh b
  | markReady =>
    obtain ⟨-, rfl⟩ := Prod.mk.inj (Option.some.inj hp)
    exact of_lasts rfl (Heap.losesMarks_markReady hf) Heap.lasts_markReady

end Beside

/-! ### What domains leave -/

/-- **What an errand does to marks.** -/
theorem Errand.marked (e : Errand) {s : Active} (hf : s.world.heap.FreeListed) :
    e.act.wp s (fun _ t => Marked s t) fun stop t => stop = .raised → Marked s t := by
  have hmarks : e.act.Marks :=
    e.of_founding Act.founding_marks (fun n => Act.marks_of_advances (Act.bookkeeping_advances.noteSize _ n))
      (fun n ws => Act.marks_of_advances (Act.advances_tryGrow n ws))
      (fun w => Act.marks_of_advances (Act.advances_push w)) (Act.marks_of_advances Act.advances_pop)
      Act.marks_cloneContinuation (fun k _ => Act.marks_of_advances (Act.advances_resume k)) Act.marks_resumeCloned
      fun b => Act.marks_of_advances (Act.advances_findPerformer b)
  exact wp_mono (hmarks s) (fun _ _ h => (h hf).marked) fun _ _ h _ => h hf

/-- **What a domain leaves** after something it was asked to do: its marks are in order, the heap lasts, and its
registers describe the current stack. -/
structure Leaves (s t : Active) : Prop where
  marked : s.world.heap.FreeListed → Marked s t
  heap : s.Settled → s.world.heap.Lasts (fun _ => True) t.world.heap
  seated : s.Settled → t.domain.Seated t.world.heap

theorem Leaves.of_tended {s t : Active} (hmarked : s.world.heap.FreeListed → Marked s t)
    (hheap : s.world.heap.Tended t.world.heap) (hregisters : t.domain.registers = s.domain.registers) :
    Leaves s t where
  marked := hmarked
  heap hs := (hheap.lasts hs.heap).mono fun _ hf => hf.elim
  seated hs r hr := hs.seated.of_lasts (hheap.lasts hs.heap) r (hregisters ▸ hr)

theorem Leaves.of_tends {s t : Active} (h : Act.Tends s t) : Leaves s t :=
  .of_tended h.marked h.heap h.registers

/-- **An errand that goes on**, whether it returns or raises. -/
theorem Errand.leaves (e : Errand) (s : Active) :
    e.act.wp s (fun _ t => Leaves s t) fun stop t => stop = .raised → Leaves s t := by
  have of_lasts : ∀ {t : Active}, (s.world.heap.FreeListed → Marked s t) → (s.Settled → s.Lasts e.Spends t) →
      Leaves s t := fun hmarked hlasts =>
    ⟨hmarked, fun hs => (hlasts hs).heap.mono fun _ _ => trivial, fun hs => (hlasts hs).seated⟩
  rcases hrun : e.act s with ⟨stop | b, t⟩
  · refine (wp_of_error hrun).2 fun hraised => of_lasts (fun hf => ?_) fun hs => ?_
    · exact (wp_of_error hrun).1 (e.marked hf) hraised
    · exact ((wp_of_error hrun).1 (e.lasts hs)).1
  · refine (wp_of_ok hrun).2 (of_lasts (fun hf => ?_) fun hs => ?_)
    · exact (wp_of_ok hrun).1 (e.marked hf)
    · exact (wp_of_ok hrun).1 (e.lasts hs)

/-- **A minor pass** empties the queue, but leaves no mark of the domain out of it. -/
theorem scanRemembered_leaves {τ : Type} (v : Visitor τ) (t : τ) (s : Active) :
    (Act.scanRemembered v t).wp s (fun _ u => Leaves s u) fun stop u => stop = .raised → Leaves s u := by
  have htended : (Act.scanRemembered v t).Relates fun s u =>
      s.world.heap.Tended u.world.heap ∧ u.domain.registers = s.domain.registers := by
    intro s
    unfold Act.scanRemembered
    refine wp_bind_of (Act.tends_syncStack s) ?_ fun _ _ h => ⟨h.heap, h.registers⟩
    rintro - m hm
    simp only [wp_bind, Act.wp_domain, Act.wp_modifyDomain]
    exact wp_mono (Act.tends_scanQueued v _ t _)
      (fun _ _ hu => ⟨hm.heap.trans hu.heap, hu.registers.trans hm.registers⟩)
      fun _ _ hu => ⟨hm.heap.trans hu.heap, hu.registers.trans hm.registers⟩
  have hend := htended s
  rcases hrun : Act.scanRemembered v t s with ⟨stop | r, u⟩
  · obtain ⟨hheap, hregisters⟩ := (wp_of_error hrun).1 hend
    refine (wp_of_error hrun).2 fun hraised => .of_tended (fun hf => ?_) hheap hregisters
    exact absurd hraised ((wp_of_error hrun).1 (Act.marked_scanRemembered v t hf))
  · obtain ⟨hheap, hregisters⟩ := (wp_of_ok hrun).1 hend
    have hmarked := fun hf => (wp_of_ok hrun).1 (Act.marked_scanRemembered v t hf)
    exact (wp_of_ok hrun).2 (.of_tended hmarked hheap hregisters)

/-- **Whatever else a domain is asked to do.** -/
theorem Task.leaves (k : Task) (s : Active) :
    k.act.wp s (fun _ t => Leaves s t) fun stop t => stop = .raised → Leaves s t := by
  have of_tends : ∀ {α : Type} {a : Act α}, a.Relates Act.Tends →
      a.wp s (fun _ t => Leaves s t) fun stop t => stop = .raised → Leaves s t := fun ha =>
    wp_mono (ha s) (fun _ _ h => .of_tends h) fun _ _ h _ => .of_tends h
  cases k with
  | enterFrame roots => exact (wp_bind ..).2 (of_tends (Act.tends_of_beside (Act.beside_enterFrame roots)))
  | leaveFrame marker => exact (wp_bind ..).2 (of_tends (Act.tends_of_beside (Act.beside_leaveFrame marker)))
  | acquire l => exact (wp_bind ..).2 (of_tends (Act.tends_acquire l))
  | release id => exact (wp_bind ..).2 (of_tends (Act.tends_release id))
  | enterBlocking => exact of_tends (Act.tends_of_beside Act.beside_enterBlocking)
  | leaveBlocking => exact of_tends (Act.tends_of_beside Act.beside_leaveBlocking)
  | setRegisterSlot offset => exact of_tends (Act.tends_setRegisterSlot offset)
  | scanRoots v t => exact (wp_bind ..).2 (of_tends (Act.tends_scanRoots v t))
  | scanRemembered v t => exact (wp_bind ..).2 (scanRemembered_leaves v t s)
  | scanAll v t => exact (wp_bind ..).2 (of_tends (Act.tends_scanAll v t))

/-! ### Machines in order -/

/-- **Heap and registers are in order**, for all domains at once, and so are the marks. -/
structure InPlace (m : Machine) : Prop extends Orderly m where
  heap : m.world.heap.InOrder
  seated : ∀ x ∈ m.domains, x.Seated m.world.heap

theorem Orderly.beside (h : m.Orderly) (hb : Beside m m') : m'.Orderly := by
  obtain ⟨w, ds⟩ := m'
  obtain rfl := hb.domains
  exact (h.of_loses hb.loses hb.created).1

theorem InPlace.beside (h : m.InPlace) (hb : Beside m m') : m'.InPlace where
  toOrderly := h.toOrderly.beside hb
  heap := hb.inOrder h.heap
  seated x hx := hb.seated h.heap x (hb.domains ▸ hx) (h.seated x (hb.domains ▸ hx))

/-- **A domain has acted**, and the others were left where they were. -/
theorem InPlace.of_acting {α : Type} {a : Act α} {r : Except Stop α} {x : Domain} {others : List Domain} {t : Active}
    (h : m.InPlace) (hact : Acting m m' a r x others t) (ht : Leaves ⟨x, m.world⟩ t) : m'.InPlace := by
  have hmem : ∀ y ∈ x :: others, y ∈ m.domains := fun y => hact.perm.mem_iff.2
  have hs : Active.Settled ⟨x, m.world⟩ := ⟨h.heap, h.seated x (hmem x List.mem_cons_self)⟩
  have hmarked := ht.marked h.freeListed
  refine ⟨(h.toOrderly.of_acting hact hmarked).1, hact.world ▸ (ht.heap hs).inOrder, fun y hy => ?_⟩
  rw [hact.world]
  rcases List.mem_cons.1 ((hact.domains hmarked.id).mem_iff.1 hy) with rfl | hy
  · exact ht.seated hs
  · exact (h.seated y (hmem y (List.mem_cons_of_mem _ hy))).of_lasts (ht.heap hs)

/-- **A domain does something that goes on**, whether it returns or raises. -/
theorem exists_acting {α : Type} {a : Act α} {P : Domain → Active → Prop} (hs : m.Sound)
    (ha : ∀ x, m.domain? d = some x → a.wp ⟨x, m.world⟩ (fun _ t => P x t) fun stop t => stop = .raised → P x t)
    (hm : (m.act d a).bind continued = some m') :
    ∃ r x others t, m.domain? d = some x ∧ Acting m m' a r x others t ∧ P x t := by
  obtain ⟨⟨r, m₁⟩, hact, hr⟩ := Option.bind_eq_some_iff.1 hm
  obtain ⟨x, others, t, hx, hacting⟩ := acting hs hact
  cases r with
  | ok a =>
    obtain rfl := Option.some.inj hr
    exact ⟨_, x, others, t, hx, hacting, (wp_of_ok hacting.run).1 (ha x hx)⟩
  | error stop =>
    cases stop with
    | raised =>
      obtain rfl := Option.some.inj hr
      exact ⟨_, x, others, t, hx, hacting, (wp_of_error hacting.run).1 (ha x hx) rfl⟩
    | fault f => cases hr
    | fatal f => cases hr

theorem continued_of_perform {errand : Errand} (hp : m.perform (.ask d errand) = some (out, m'))
    (hgo : out.goesOn = true) : (m.act d errand.act).bind continued = some m' := by
  obtain ⟨⟨r, m₁⟩, hact, hr⟩ := Option.map_eq_some_iff.1 hp
  obtain ⟨rfl, rfl⟩ := Prod.mk.inj hr
  rw [hact, Option.bind_some]
  cases r with
  | ok b => rfl
  | error stop =>
    cases stop with
    | raised => rfl
    | fault f => cases hgo
    | fatal f => cases hgo

theorem InPlace.create (h : m.InPlace) : m.create.2.InPlace where
  toOrderly := h.toOrderly.create
  heap := h.heap
  seated x hx := by
    have hd : m.create.2.domains = m.domains ++ [.fresh ⟨m.world.domainsCreated + 1⟩ m.world.config.maxStackWords] :=
      rfl
    rw [hd] at hx
    rcases List.mem_append.1 hx with hx | hx
    · exact h.seated x hx
    · obtain rfl := List.mem_singleton.1 hx
      exact nofun

theorem terminate_tended (s : Active) : Act.terminate.wp s
    (fun _ u => s.world.heap.Tended u.world.heap ∧ u.domain.id = s.domain.id ∧
      u.domain.registers = s.domain.registers) fun _ _ => False := by
  have hheap := (Act.cleanAll_fields s.world s.domain.id).1
  exact ⟨hheap.symm ▸ Heap.tended_cleanAll _ _, rfl, rfl⟩

/-- **A domain ends.** -/
theorem InPlace.terminate (h : m.InPlace) (hm : (m.terminate d).bind continued = some m') : m'.InPlace := by
  have horderly := (h.toOrderly.terminate hm).1
  obtain ⟨⟨r, m₁⟩, hend, hr⟩ := Option.bind_eq_some_iff.1 hm
  obtain ⟨⟨r', m₂⟩, hact, he⟩ := Option.map_eq_some_iff.1 hend
  obtain ⟨rfl, rfl⟩ := Prod.mk.inj he
  obtain ⟨x, others, t, -, hacting⟩ := acting h.toSound hact
  cases r' with
  | error stop => exact ((wp_of_error hacting.run).1 (terminate_tended _)).elim
  | ok n =>
    obtain ⟨hheap, hid, hregisters⟩ := (wp_of_ok hacting.run).1 (terminate_tended _)
    obtain rfl := Option.some.inj hr
    have hlasts := hheap.lasts h.heap
    refine ⟨horderly, hacting.world ▸ hlasts.inOrder, fun y hy => ?_⟩
    -- the domain is the one that ended, with registers of before, or one of the others
    have hseat : ∀ z ∈ x :: others, z.Seated t.world.heap := fun z hz =>
      (h.seated z (hacting.perm.mem_iff.2 hz)).of_lasts hlasts
    show y.Seated m₂.world.heap
    rw [hacting.world]
    rcases List.mem_cons.1 ((hacting.domains hid).mem_iff.1 (List.mem_of_mem_filter hy)) with rfl | hy
    · exact fun r hr => hseat x List.mem_cons_self r (hregisters ▸ hr)
    · exact hseat y (List.mem_cons_of_mem _ hy)

/-! ### Whatever is done -/

/-- **What can be done to a machine**: something beside all domains, a new one, the end of one, or an action of one. -/
inductive Done (m m' : Machine) : Prop where
  | beside (hb : Beside m m')
  | create (hm : m' = m.create.2)
  | terminate {d : DomainId} (hm : (m.terminate d).bind continued = some m')
  | acted {α : Type} {a : Act α} {r : Except Stop α} {x : Domain} {others : List Domain} {t : Active}
      (hact : Acting m m' a r x others t) (ht : Leaves ⟨x, m.world⟩ t)

theorem Follows.done (h : Follows m m') (hs : m.Sound) : Done m m' := by
  cases h with
  | @event e out _ hfair hp hgo =>
    by_cases hcreate : e = .create
    · subst hcreate
      exact .create (Prod.mk.inj (Option.some.inj hp)).2.symm
    · by_cases hask : ∃ d errand, e = .ask d errand
      · obtain ⟨d, errand, rfl⟩ := hask
        have hm := continued_of_perform hp hgo
        obtain ⟨r, x, others, t, -, hact, ht⟩ := exists_acting hs (fun x _ => errand.leaves ⟨x, m.world⟩) hm
        exact .acted hact ht
      · exact .beside (.perform hs.freeListed hcreate (fun d errand he => hask ⟨d, errand, he⟩) hfair hp)
  | @task d k _ hm =>
    obtain ⟨r, x, others, t, -, hact, ht⟩ := exists_acting hs (fun x _ => k.leaves ⟨x, m.world⟩) hm
    exact .acted hact ht
  | terminate hm => exact .terminate hm
  | clean hc => exact .beside (.of_tended hs.freeListed rfl (Heap.tended_clean hc))
  | cleanAll d =>
    obtain ⟨hheap, hcreated⟩ := Act.cleanAll_fields m.world d
    exact .beside (.of_tended hs.freeListed hcreated (hheap.symm ▸ Heap.tended_cleanAll _ d))

/-- **Whatever is done keeps the marks in order.** -/
theorem Orderly.follows (h : m.Orderly) (hm : Follows m m') : m'.Orderly := by
  cases hm.done h.toSound with
  | beside hb => exact h.beside hb
  | create hm => exact hm ▸ h.create
  | terminate hm => exact (h.terminate hm).1
  | acted hact ht => exact (h.of_acting hact (ht.marked h.freeListed)).1

/-- **Whatever is done leaves registers that describe their stacks**, in a heap in order. -/
theorem InPlace.follows (h : m.InPlace) (hm : Follows m m') : m'.InPlace := by
  cases hm.done h.toSound with
  | beside hb => exact h.beside hb
  | create hm => exact hm ▸ h.create
  | terminate hm => exact h.terminate hm
  | acted hact ht => exact h.of_acting hact ht

namespace Arises

variable {config : Config} {layout : Layout} {maxWords minorLimit : Nat}

theorem orderly (h : Arises config layout maxWords minorLimit m) : m.Orderly := by
  obtain ⟨verbose, h⟩ := h
  induction h with
  | refl => exact .initial rfl
  | tail _ hm ih => exact ih.follows hm

theorem inPlace (h : Arises config layout maxWords minorLimit m) (hbudget : maxWords < 2 ^ 32) : m.InPlace := by
  obtain ⟨verbose, h⟩ := h
  induction h with
  | refl => exact ⟨.initial rfl, .empty minorLimit hbudget, nofun⟩
  | tail _ hm ih => exact ih.follows hm

end Arises

end Machine

end FiberStacks
