import FiberStacks.Machine
import FiberStacks.Proofs.Lists.Request

/-!
# Domains side by side

Domains share one heap.  Another domain that allocates there, or changes stacks of its own, leaves the fibers of a
domain and their words alone.

* `Machine.act_eq_some`, `Machine.domain?_setDomain` — a domain acts, the others stay;
* `World.Extends` — the stacks there were are still there, as they were;
* `extends_createTable` — the table of exceptions is put beside the stacks;
* `Settled`, `Settled.elsewhere` — a domain keeps its fibers and their words whatever another one does;
* `Act.start_spec` — a domain starts on an empty list.
-/

namespace FiberStacks

open FiberStacks.Action

namespace Machine

variable {m m' : Machine} {d : DomainId} {x y : Domain}

theorem id_of_domain? (h : m.domain? d = some x) : x.id = d := by
  simpa using List.find?_some h

theorem domain?_setDomain (h : m.domain? y.id = some x) (e : DomainId) :
    (m.setDomain y).domain? e = if e = y.id then some y else m.domain? e := by
  have hid : ∀ z : Domain, (if z.id = y.id then y else z).id = z.id := by
    intro z
    split
    · next hz => exact hz.symm
    · rfl
  have hfind : (m.setDomain y).domain? e = (m.domain? e).map fun z => if z.id = y.id then y else z := by
    unfold domain? setDomain
    rw [List.find?_map]
    congr 2
    funext z
    simp only [Function.comp_apply, hid]
  rw [hfind]
  split
  · next he =>
    subst he
    rw [h, Option.map_some, if_pos (id_of_domain? h)]
  · next he =>
    cases hz : m.domain? e with
    | none => rfl
    | some z => rw [Option.map_some, if_neg fun hzy => he ((id_of_domain? hz).symm.trans hzy)]

theorem setDomain_setDomain (m : Machine) (h : y.id = x.id) : (m.setDomain x).setDomain y = m.setDomain y := by
  unfold setDomain
  simp only [List.map_map, h]
  congr 1
  refine List.map_congr_left fun z _ => ?_
  rw [Function.comp_apply]
  split <;> simp_all

theorem act_eq_some {α : Type} {a : Act α} {r : Except Stop α} (h : m.act d a = some (r, m')) :
    ∃ x t, m.domain? d = some x ∧ a ⟨x, m.world⟩ = (r, t) ∧ m' = { m.setDomain t.domain with world := t.world } := by
  obtain ⟨x, hx, hr⟩ := Option.map_eq_some_iff.1 h
  obtain ⟨rfl, rfl⟩ := Prod.mk.inj hr
  exact ⟨x, _, hx, rfl, rfl⟩

theorem domain?_create (m : Machine) (e : DomainId) :
    m.create.2.domain? e = (m.domain? e).or
      (if ⟨m.world.domainsCreated + 1⟩ = e then some (.fresh ⟨m.world.domainsCreated + 1⟩ m.world.config.maxStackWords)
        else none) := by
  unfold domain? create
  simp only [List.find?_append]
  congr 1
  simp [World.createDomain, Domain.fresh]

end Machine

/-! ### Worlds that grow -/

/-- **The stacks there were are as they were**, and nothing was freed. -/
structure World.Extends (w w' : World) : Prop where
  growing : w'.heap.Growing
  segments : ∀ b x, w.heap.stack? b = some x → w'.heap.stack? b = some x
  layout : w'.layout = w.layout
  config : w'.config = w.config
  created : w.domainsCreated ≤ w'.domainsCreated

namespace World

variable {w w' w'' : World}

theorem Extends.refl (h : w.heap.Growing) : w.Extends w := ⟨h, fun _ _ hx => hx, rfl, rfl, Nat.le_refl _⟩

theorem Extends.trans (h : w.Extends w') (h' : w'.Extends w'') : w.Extends w'' :=
  ⟨h'.growing, fun b x hx => h'.segments b x (h.segments b x hx), h'.layout.trans h.layout,
    h'.config.trans h.config, Nat.le_trans h.created h'.created⟩

theorem extends_allocate {o : Object} {path : AllocPath} {b : BlockId} (h : w.heap.Growing) (ho : 0 < o.size)
    (ha : w.allocate o path = .ok (b, w')) : w.Extends w' := by
  unfold allocate at ha
  rcases hh : w.heap.alloc o path with e | ⟨c, h'⟩
  · simp [hh, Except.map] at ha
  · rw [hh] at ha
    obtain ⟨rfl, rfl⟩ := Prod.mk.inj (Except.ok.inj ha)
    obtain ⟨hnone, hstack⟩ := h.stack?_alloc ho hh
    refine ⟨(h.alloc ho hh).1, fun b x hx => (hstack b fun he => ?_).trans hx, rfl, rfl, Nat.le_refl _⟩
    simp [he ▸ hnone] at hx

theorem extends_allocateIdentifiers (es : List Exn) :
    ∀ (w : World) (place : Nat), w.heap.Growing → w.Extends (w.allocateIdentifiers place es).2 := by
  induction es with
  | nil => exact fun w place h => .refl h
  | cons e es ih =>
    intro w place h
    unfold allocateIdentifiers
    split
    · exact .refl h
    · next name w₁ h₁ =>
      have hname : 0 < (Object.text e.name).size := Nat.succ_pos _
      have he₁ := extends_allocate h hname h₁
      split
      · exact he₁
      · next b w₂ h₂ =>
        have hid : 0 < (identifier name place).size := Nat.succ_pos 1
        have he₂ := he₁.trans (extends_allocate he₁.growing hid h₂)
        have he₃ := he₂.trans (ih w₂ (place + 1) he₂.growing)
        split <;> next heq => rw [heq] at he₃; exact he₃

/-- **The table of exceptions** is put beside the stacks. -/
theorem extends_createTable (h : w.heap.Growing) : w.Extends w.createTable.2 := by
  unfold createTable
  split
  · exact ⟨h, fun _ _ hx => hx, rfl, rfl, Nat.le_refl _⟩
  · have he := extends_allocateIdentifiers Exn.all w 0 h
    split <;> next heq => rw [heq] at he; exact ⟨he.growing, he.segments, he.layout, he.config, he.created⟩

theorem extends_markReady (h : w.heap.Growing) : w.Extends (w.adopt w.heap.markReady) :=
  ⟨⟨h.noneFree, h.charged, h.within, h.budget⟩, fun _ _ hx => hx, rfl, rfl, Nat.le_refl _⟩

end World

/-! ### What another domain has done -/

/-- **A domain keeps its fibers and their words** where they are left alone. -/
theorem Owns.elsewhere {f : List BlockId} {n : Nat} {x : Domain} {w w' : World} (h : Owns f n ⟨x, w⟩)
    (hg : w'.heap.Growing) (hl : w'.layout = .bytecode)
    (hs : ∀ b ∈ f, ∀ y, w.heap.stack? b = some y → w'.heap.stack? b = some y) :
    Owns f n ⟨x, w'⟩ ∧ ∀ b ∈ f, Active.words ⟨x, w'⟩ b = Active.words ⟨x, w⟩ b := by
  refine ⟨⟨h.calm, hg, hl, h.nodup, fun b hb => ?_, ?_⟩, fun b hb => ?_⟩
  · obtain ⟨y, hy, hm⟩ := h.segments b hb
    exact ⟨y, hs b hb y hy, hm.owner, hm.small⟩
  · obtain ⟨r, y, hr, hn⟩ := h.running
    exact ⟨r, y, ⟨hr.registers, hs _ (h.mem_running hr) y hr.stack, hr.capacity, hr.used_le⟩, hn⟩
  · obtain ⟨y, hy, -⟩ := h.segments b hb
    rw [Active.words_eq (a := ⟨x, w⟩) hy, Active.words_eq (a := ⟨x, w'⟩) (hs b hb y hy)]
    rfl

def Lists.none : Lists := ⟨[], 0⟩

def Fibers.seen (fs : Fibers) (w : World) : Option Domain → Lists
  | some x => fs.lists ⟨x, w⟩
  | Option.none => .none

/-- **A domain that is there is between calls**, and owns its fibers once it has started. -/
def Settled (fs : Fibers) (w : World) : Option Domain → Prop
  | some x => x.Calm ∧ x.id.number ≤ w.domainsCreated ∧ (fs ≠ .none → Owns fs.blocks fs.running ⟨x, w⟩)
  | none => fs = .none

theorem Fibers.seen_none (w : World) (x : Option Domain) : Fibers.none.seen w x = .none := by
  cases x <;> rfl

theorem Settled.owns {fs : Fibers} {w : World} {x : Option Domain} (h : Settled fs w x) (hne : fs ≠ .none) :
    ∃ y, x = some y ∧ Owns fs.blocks fs.running ⟨y, w⟩ := by
  cases x with
  | none => exact absurd h hne
  | some y => exact ⟨y, rfl, h.2.2 hne⟩

theorem Settled.elsewhere {fs : Fibers} {w w' : World} {x : Option Domain} (h : Settled fs w x)
    (hg : w'.heap.Growing) (hl : w'.layout = .bytecode) (hc : w.domainsCreated ≤ w'.domainsCreated)
    (hs : ∀ b ∈ fs.blocks, ∀ y, w.heap.stack? b = some y → w'.heap.stack? b = some y) :
    Settled fs w' x ∧ fs.seen w' x = fs.seen w x := by
  cases x with
  | none => exact ⟨h, rfl⟩
  | some x =>
    obtain ⟨hcalm, hid, ho⟩ := h
    refine ⟨⟨hcalm, Nat.le_trans hid hc, fun hne => ((ho hne).elsewhere hg hl hs).1⟩, ?_⟩
    by_cases hne : fs = .none
    · rw [hne, Fibers.seen_none, Fibers.seen_none]
    · exact congrArg (Lists.mk · _) (List.map_congr_left ((ho hne).elsewhere hg hl hs).2)

/-! ### Starting -/

/-- **A domain starts on an empty list**, or is as it was. -/
theorem Act.start_spec {a : Active} (hc : a.domain.Calm) (hg : a.world.heap.Growing)
    (hl : a.world.layout = .bytecode) :
    start.wp a (fun r t => (∀ b, r = .ok b → Acts [] [b] 0 a t ∧ t.words b = []) ∧ ∀ e, r = .error e → t = a)
      fun _ t => t = a := by
  unfold start initMainStack newMainStack
  simp only [wp_bind, wp_config]
  have hmake : ∀ words, Segment.make words .zero = .ok (.blank words .zero) ∨
      Segment.make words .zero = .error .sizeTooLarge := by
    intro words
    unfold Segment.make
    split
    · exact .inl rfl
    · exact .inr rfl
  rcases hmake a.world.config.initStackWords with hmake | hmake
  · rw [hmake, wp_check_ok, wp_allocate]
    refine ⟨fun e _ => ?_, fun b h' ha => ?_⟩
    · simp only [wp_pure]
      exact ⟨fun b hb => (by cases hb), fun _ _ => trivial⟩
    · have hpos : 0 < (Object.stack (.blank a.world.config.initStackWords .zero)).size := Nat.succ_pos _
      have hself := hg.stack?_alloc_self ha
      obtain ⟨hg', -, hsize, -⟩ := hg.alloc hpos ha
      obtain ⟨hnone, hstack⟩ := hg.stack?_alloc hpos ha
      simp only [wp_bind, wp_note, wp_pure]
      refine wp_loadStack_of hself ?_
      simp only [wp_domain, wp_modifyWorld]
      have hsmall : (Segment.blank a.world.config.initStackWords .zero).capacity < 2 ^ 32 := by
        have hbudget := hg.budget
        change _ + headerWords ≤ _ at hsize
        unfold headerWords at hsize
        omega
      refine ⟨fun c hb => ?_, fun e he => by cases he⟩
      obtain rfl := Except.ok.inj hb
      refine ⟨⟨⟨⟨hc.frames, hc.handlers, hc.blocking, hc.saved⟩, hg', hl, List.nodup_singleton _, fun c hc => ?_,
        _, _, ⟨rfl, hself, rfl, Nat.zero_le _⟩, rfl⟩, rfl, rfl, rfl, fun c _ x hx => ?_, fun c hc => ?_⟩, ?_⟩
      · obtain rfl := List.mem_singleton.1 hc
        exact ⟨_, hself, .inl rfl, hsmall⟩
      · exact (hstack c fun he => by simp [he ▸ hnone] at hx).trans hx
      · exact .inr (List.mem_singleton.1 hc ▸ hnone)
      · exact (Running.words (r := ⟨b, 0, _⟩) ⟨rfl, hself, rfl, Nat.zero_le _⟩).trans List.take_zero
  · rw [hmake, wp_check_error]

end FiberStacks
