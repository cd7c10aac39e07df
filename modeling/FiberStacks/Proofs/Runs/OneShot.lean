import FiberStacks.Proofs.Runs.Misuse

/-!
# Capsules serve once

A capsule is empty at first, is filled once and spent once.  It is spent by whoever takes its head or resumes the chain
in it, whichever comes first; cloning it, resuming a clone, what fails and what is done to other capsules leaves it as
it is.

* `Capsule.Older`, `Machine.Ages` — the order in which a capsule goes through its states;
* `Record.Fills`, `Record.Spends`, `Record.head?` — what a record does to a capsule, and the head it gave;
* `Record.states` — **what one event can do to a capsule**;
* `chronicle_ages` — from event to event capsules only age;
* `capsules_serve_once` — **each is spent once, for the head it was filled with, and refused from then on**.
-/

namespace FiberStacks

open FiberStacks.Action

/-! ### Ages -/

/-- **The states of a capsule in their order**: empty, full, taken. -/
def Capsule.Older (c c' : Capsule) : Prop := c = c' ∨ c = .empty ∨ c' = .taken

theorem Capsule.Older.trans {c c' c'' : Capsule} (h₁ : c.Older c') (h₂ : c'.Older c'') : c.Older c'' := by
  rcases h₁ with rfl | rfl | rfl
  · exact h₂
  · exact .inr (.inl rfl)
  · rcases h₂ with rfl | h₂ | rfl
    · exact .inr (.inr rfl)
    · cases h₂
    · exact .inr (.inr rfl)

namespace Machine

variable {m m' m'' : Machine} {e : Event} {out : Outcome} {k head : BlockId} {r : Record} {rs : List Record}

/-- **No capsule is gone, and none has become younger.** -/
def Ages (m m' : Machine) : Prop :=
  ∀ k c, m.world.heap.capsule? k = some c → ∃ c', m'.world.heap.capsule? k = some c' ∧ c.Older c'

theorem Ages.refl (m : Machine) : m.Ages m := fun _ c hc => ⟨c, hc, .inl rfl⟩

theorem Ages.trans (h₁ : m.Ages m') (h₂ : m'.Ages m'') : m.Ages m'' := fun k c hc => by
  obtain ⟨c', hc', hold⟩ := h₁ k c hc
  obtain ⟨c'', hc'', hold'⟩ := h₂ k c' hc'
  exact ⟨c'', hc'', hold.trans hold'⟩

/-! ### Events that fill or spend a capsule -/

theorem perform_take_done {b : Option BlockId} (hp : m.perform (.take k) = some (.done b, m')) :
    ∃ head, b = some head ∧ m.world.heap.capsule? k = some (.full head) ∧ m'.world.heap.capsule? k = some .taken := by
  rw [perform] at hp
  rcases ht : m.world.heap.takeHead k with f | ⟨head, h'⟩ <;> rw [ht] at hp
  · cases hp
  · obtain ⟨hk, rfl⟩ := Heap.takeHead_eq_ok_iff.1 ht
    obtain ⟨rfl, rfl⟩ : some head = b ∧ m.setHeap (m.world.heap.set k (.capsule .taken)) = m' := by
      simpa [conclude] using hp
    exact ⟨head, rfl, hk, Heap.capsule?_set_self hk⟩

theorem perform_put_done {b : Option BlockId} (hp : m.perform (.put k head) = some (.done b, m')) :
    b = none ∧ m.world.heap.capsule? k = some .empty ∧ m'.world.heap.capsule? k = some (.full head) := by
  obtain ⟨c, hk, hr⟩ := Option.map_eq_some_iff.1 hp
  split at hr
  · next c' hc' =>
    obtain ⟨hb, rfl⟩ := Prod.mk.inj hr
    obtain ⟨rfl, rfl⟩ := Capsule.put_eq_ok_iff.1 hc'
    exact ⟨(Outcome.done.inj hb).symm, hk, Heap.capsule?_set_self hk⟩
  · cases (Prod.mk.inj hr).1

theorem Upright.perform_capture_done (h : m.Upright) (hp : m.perform (.capture head) = some (.done (some k), m')) :
    m.world.heap.capsule? k = none ∧ m'.world.heap.capsule? k = some (.full head) := by
  rw [Machine.perform] at hp
  rcases hc : m.world.heap.capture head with f | ⟨b, h'⟩ <;> rw [hc] at hp
  · cases hp
  · obtain ⟨rfl, rfl⟩ : b = k ∧ m.setHeap h' = m' := by simpa [Machine.conclude] using hp
    have hpos : 0 < (Object.capsule (.full head)).size := Nat.succ_pos 1
    obtain ⟨hnew, hcell⟩ := h.heap.budgeted.balanced.alloc_cell? (.inl hpos) (Heap.capture_eq_ok_iff.1 hc).2
    refine ⟨by rw [Heap.capsule?, Heap.get?, hnew]; rfl, ?_⟩
    rw [setHeap, World.heap_adopt, Heap.capsule?, Heap.get?, hcell, if_pos rfl]
    rfl

theorem Upright.perform_resume_done {d : DomainId} {b : Option BlockId} (h : m.Upright)
    (hp : m.perform (.ask d (.resume k)) = some (.done b, m')) :
    ∃ head, (m'.domain? d).bind Domain.current? = some head ∧ m.world.heap.capsule? k = some (.full head) ∧
      m'.world.heap.capsule? k = some .taken := by
  obtain ⟨⟨res, m₁⟩, ha, hr⟩ := Option.map_eq_some_iff.1 hp
  obtain ⟨hres, rfl⟩ := Prod.mk.inj hr
  obtain ⟨x, t, -, hs, hrun, hworld, hafter⟩ := h.act ha
  cases res with
  | error stop => cases hres
  | ok b' =>
    have hend : (Errand.resume k).act.wp ⟨x, m.world⟩
        (fun _ t => Active.Lasts (· = k) ⟨x, m.world⟩ t ∧ ∃ head, m.world.heap.capsule? k = some (.full head) ∧
          t.world.heap.capsule? k = some .taken ∧ t.domain.current? = some head) fun _ _ => True :=
      (wp_map ..).2 (wp_mono (Act.resume_lasts k hs) (fun _ _ h => h) fun _ _ _ => trivial)
    obtain ⟨hl, head, hfull, htaken, hcurrent⟩ := (wp_of_ok hrun).1 hend
    exact ⟨head, by rw [(hafter _ hl).2]; exact hcurrent, hfull, hworld ▸ htaken⟩

theorem perform_ask_ne_failed {d : DomainId} {errand : Errand} (f : Failure) :
    m.perform (.ask d errand) ≠ some (.failed f, m') := by
  intro hp
  obtain ⟨⟨_ | _, _⟩, -, hr⟩ := Option.map_eq_some_iff.1 hp <;> cases (Prod.mk.inj hr).1

/-! ### What a record does to a capsule -/

namespace Record

/-- The capsule is full with a head, and was not before. -/
def Fills (r : Record) (k head : BlockId) : Prop :=
  r.before.world.heap.capsule? k ≠ some (.full head) ∧ r.after.world.heap.capsule? k = some (.full head)

/-- **The capsule is spent**: its head was taken, or the chain in it resumed, with success. -/
def Spends (r : Record) (k : BlockId) : Prop :=
  (r.event = .take k ∨ ∃ d, r.event = .ask d (.resume k)) ∧ ∃ b, r.outcome = .done b

def Puts (r : Record) (k head : BlockId) : Prop := r.event = .put k head ∧ r.outcome = .done none

/-- The head that was returned, or that the domain runs on from then on. -/
def head? (r : Record) : Option BlockId :=
  match r.event, r.outcome with
  | .take _, .done b => b
  | .ask d (.resume _), .done _ => (r.after.domain? d).bind Domain.current?
  | _, _ => none

/-- **It happened** to a machine in order, and was fair. -/
structure Happened (r : Record) : Prop where
  upright : r.before.Upright
  fair : r.Fair
  performed : r.before.perform r.event = some (r.outcome, r.after)
  goesOn : r.outcome.goesOn = true

namespace Happened

/-- What a spent capsule was and is. -/
theorem spends (h : r.Happened) (hs : r.Spends k) : ∃ head, r.head? = some head ∧
    r.before.world.heap.capsule? k = some (.full head) ∧ r.after.world.heap.capsule? k = some .taken := by
  have hp := h.performed
  obtain ⟨he | ⟨d, he⟩, b, ho⟩ := hs <;> rw [he, ho] at hp
  · obtain ⟨head, hb, hk⟩ := perform_take_done hp
    exact ⟨head, by simp [head?, he, ho, hb], hk⟩
  · obtain ⟨head, hb, hk⟩ := h.upright.perform_resume_done hp
    exact ⟨head, by simp [head?, he, ho, hb], hk⟩

theorem puts (h : r.Happened) (hp : r.Puts k head) :
    r.before.world.heap.capsule? k = some .empty ∧ r.after.world.heap.capsule? k = some (.full head) := by
  have hperf := h.performed
  rw [hp.1, hp.2] at hperf
  exact (perform_put_done hperf).2

/-- **What one event can do to a capsule**, unless it is freed: fill it by hand, or spend it. -/
theorem states (h : r.Happened) (hfree : ∀ b, r.event = .free b → r.before.world.heap.capsule? b = none)
    {c : Capsule} (hk : r.before.world.heap.capsule? k = some c) :
    r.after.world.heap.capsule? k = some c ∨ r.Spends k ∨ ∃ head, r.Puts k head := by
  by_cases halters : r.event.Alters k r.outcome
  · right
    have hp := h.performed
    have hgo := h.goesOn
    cases he : r.event <;> cases ho : r.outcome <;> rw [he, ho] at halters hp <;> rw [ho] at hgo
    case put.done j b b' =>
      obtain rfl : j = k := halters
      obtain ⟨rfl, -⟩ := perform_put_done hp
      exact .inr ⟨b, he, ho⟩
    case take.done j b =>
      obtain rfl : j = k := halters
      exact .inl ⟨.inl he, b, ho⟩
    case ask.done d errand b =>
      cases errand <;> try exact halters.elim
      obtain ⟨rfl, -⟩ := halters
      exact .inl ⟨.inr ⟨d, he⟩, b, ho⟩
    case ask.failed d errand f => exact absurd hp (perform_ask_ne_failed f)
    case ask.stopped d errand stop =>
      cases errand <;> try exact halters.elim
      cases stop
      case raised => exact absurd rfl halters.2
      all_goals cases hgo
    case free.done b _ | free.failed b _ | free.stopped b _ =>
      obtain rfl : b = k := halters
      cases hk.symm.trans (hfree b he)
    all_goals exact halters.elim
  · exact .inl ((h.upright.perform h.fair h.performed).1.capsules k c halters hk)

theorem ages (h : r.Happened) (hfree : ∀ b, r.event = .free b → r.before.world.heap.capsule? b = none) :
    r.before.Ages r.after := by
  intro k c hk
  obtain hsame | hspends | ⟨head, hputs⟩ := h.states hfree hk
  · exact ⟨c, hsame, .inl rfl⟩
  · obtain ⟨-, -, -, htaken⟩ := h.spends hspends
    exact ⟨.taken, htaken, .inr (.inr rfl)⟩
  · obtain ⟨hempty, hfull⟩ := h.puts hputs
    exact ⟨.full head, hfull, .inr (.inl (Option.some.inj (hk.symm.trans hempty)))⟩

/-- A capsule filled by hand, or by capturing a stack in it, was not full before. -/
theorem fills (h : r.Happened) (hf : r.Puts k head ∨ r.event = .capture head ∧ r.outcome = .done (some k)) :
    r.Fills k head := by
  obtain hputs | ⟨he, ho⟩ := hf
  · obtain ⟨hempty, hfull⟩ := h.puts hputs
    exact ⟨by simp [hempty], hfull⟩
  · have hp := h.performed
    rw [he, ho] at hp
    obtain ⟨hnone, hfull⟩ := h.upright.perform_capture_done hp
    exact ⟨by simp [hnone], hfull⟩

end Happened

end Record

/-! ### From the first event to the last -/

theorem Upright.happened {es : List Event} : ∀ {m m' : Machine} {rs : List Record}, m.Upright →
    m.chronicle es = some (rs, m') → (∀ r ∈ rs, r.Fair) → ∀ r ∈ rs, r.Happened := by
  induction es with
  | nil =>
    intro m m' rs h hc _
    obtain ⟨rfl, -⟩ := Prod.mk.inj (Option.some.inj hc)
    exact List.forall_mem_nil _
  | cons e es ih =>
    intro m m' rs h hc hfair
    obtain ⟨out, m₁, rs', hp, hgo, hrest, rfl⟩ := chronicle_cons hc
    obtain ⟨hfirst, hlater⟩ := List.forall_mem_cons.1 hfair
    have hup := (h.perform hfirst hp).1.upright
    exact List.forall_mem_cons.2 ⟨⟨h, hfirst, hp, hgo⟩, ih hup hrest hlater⟩

/-- **From event to event capsules only age.** -/
theorem chronicle_ages {es : List Event} : ∀ {m m' : Machine} {rs : List Record},
    m.chronicle es = some (rs, m') → (∀ r ∈ rs, r.before.Ages r.after) →
      (∀ r ∈ rs, m.Ages r.before) ∧ rs.Pairwise fun q r => q.after.Ages r.before := by
  induction es with
  | nil =>
    intro m m' rs hc _
    obtain ⟨rfl, -⟩ := Prod.mk.inj (Option.some.inj hc)
    exact ⟨List.forall_mem_nil _, .nil⟩
  | cons e es ih =>
    intro m m' rs hc hages
    obtain ⟨out, m₁, rs', -, -, hrest, rfl⟩ := chronicle_cons hc
    obtain ⟨hfirst, hlater⟩ := List.forall_mem_cons.1 hages
    obtain ⟨hfrom, hpairs⟩ := ih hrest hlater
    exact ⟨List.forall_mem_cons.2 ⟨.refl m, fun r hr => hfirst.trans (hfrom r hr)⟩, .cons hfrom hpairs⟩

theorem chronicle_fills {qs ps : List Record} : ∀ {m : Machine} {es : List Event},
    m.chronicle es = some (qs ++ r :: ps, m') → r.before.world.heap.capsule? k = some (.full head) →
      m.world.heap.capsule? k = some (.full head) ∨ ∃ q ∈ qs, q.Fills k head := by
  induction qs with
  | nil =>
    intro m es hc hfull
    cases es with
    | nil => cases hc
    | cons e es =>
      obtain ⟨out, m₁, rs', -, -, -, hr⟩ := chronicle_cons hc
      obtain ⟨rfl, -⟩ := List.cons.inj hr
      exact .inl hfull
  | cons q qs ih =>
    intro m es hc hfull
    cases es with
    | nil => cases hc
    | cons e es =>
      obtain ⟨out, m₁, rs', -, -, hrest, hr⟩ := chronicle_cons hc
      obtain ⟨rfl, rfl⟩ := List.cons.inj hr
      by_cases hbefore : m.world.heap.capsule? k = some (.full head)
      · exact .inl hbefore
      obtain hafter | ⟨q, hq, hfills⟩ := ih hrest hfull
      · exact .inr ⟨_, List.mem_cons_self, hbefore, hafter⟩
      · exact .inr ⟨q, List.mem_cons_of_mem _ hq, hfills⟩

/-- **Capsules serve once.** -/
structure OneShot (rs : List Record) : Prop where
  /-- No capsule is spent twice. -/
  once : ∀ k, rs.Pairwise fun q r => ¬ (q.Spends k ∧ r.Spends k)
  /-- Whoever spends a capsule gets the head it was filled with, and it was filled with no other. -/
  head : ∀ qs r ps k, rs = qs ++ r :: ps → r.Spends k → ∃ head, r.head? = some head ∧
    (∃ q ∈ qs, q.Fills k head) ∧ ∀ q ∈ qs, ∀ head', q.Fills k head' → head' = head
  /-- A capsule is filled by hand, or by capturing a stack in it. -/
  fills : ∀ r ∈ rs, ∀ k head, r.Puts k head ∨ r.event = .capture head ∧ r.outcome = .done (some k) → r.Fills k head
  /-- A capsule keeps its state, unless it is spent or filled by hand. -/
  states : ∀ r ∈ rs, ∀ k c, r.before.world.heap.capsule? k = some c →
    r.after.world.heap.capsule? k = some c ∨ r.Spends k ∨ ∃ head, r.Puts k head

theorem oneShot_of_happened {es : List Event} (hc : m.chronicle es = some (rs, m'))
    (hnone : ∀ k, m.world.heap.capsule? k = none) (hrs : ∀ r ∈ rs, r.Happened)
    (hfree : ∀ r ∈ rs, ∀ b, r.event = .free b → r.before.world.heap.capsule? b = none) : OneShot rs where
  once k := by
    have hpairs := (chronicle_ages hc fun r hr => (hrs r hr).ages (hfree r hr)).2
    refine hpairs.imp_of_mem fun {q r} hq hr hages hboth => ?_
    obtain ⟨-, -, -, htaken⟩ := (hrs q hq).spends hboth.1
    obtain ⟨head, -, hfull, -⟩ := (hrs r hr).spends hboth.2
    obtain ⟨c, hc, hold⟩ := hages k _ htaken
    obtain rfl := Option.some.inj (hc.symm.trans hfull)
    obtain he | he | he := hold <;> cases he
  head qs r ps k hsplit hspends := by
    subst hsplit
    obtain ⟨head, hhead, hfull, -⟩ := (hrs r (by simp)).spends hspends
    refine ⟨head, hhead, (chronicle_fills hc hfull).resolve_left (by simp [hnone]), fun q hq head' hfills => ?_⟩
    have hpairs := (chronicle_ages hc fun r hr => (hrs r hr).ages (hfree r hr)).2
    obtain ⟨c, hc, hold⟩ := (List.pairwise_append.1 hpairs).2.2 q hq r List.mem_cons_self k _ hfills.2
    obtain rfl := Option.some.inj (hc.symm.trans hfull)
    obtain he | he | he := hold
    · exact Capsule.full.inj he
    · cases he
    · cases he
  fills r hr k head := (hrs r hr).fills
  states r hr k c hk := (hrs r hr).states (hfree r hr) hk

/-- **Capsules serve once**, whatever happens in a heap with a budget in which no capsule is freed, and no stack that a
domain runs on: each is spent at most once, for the head it was filled with, and nothing but filling and spending it
changes its state.  Whoever asks for the head of an empty or spent one is refused. -/
theorem capsules_serve_once {config : Config} {layout : Layout} {maxWords minorLimit : Nat} {verbose : Bool}
    {es : List Event} (hm : maxWords < 2 ^ 32)
    (hc : (initial { World.initial config layout (.empty maxWords minorLimit) with verbose }).chronicle es =
      some (rs, m))
    (hfair : ∀ r ∈ rs, r.Fair)
    (hkept : ∀ r ∈ rs, ∀ b, r.event = .free b → r.before.world.heap.capsule? b = none) :
    OneShot rs ∧ ∀ k c x, m.world.heap.capsule? k = some c → c.Misused x → m.Refuses k x := by
  have h : (initial { World.initial config layout (.empty maxWords minorLimit) with verbose }).Upright :=
    .initial (Heap.InOrder.empty minorLimit hm)
  refine ⟨oneShot_of_happened hc (fun _ => rfl) (h.happened hc hfair) hkept, fun k c x => ?_⟩
  exact (h.chronicle hc hfair).refuses

/-- A machine before start-up, with main stacks of four words. -/
def roomy : Machine := .initial (.initial { initStackWords := 4 } .bytecode (.empty 200 100))

/-- A fiber is captured, cloned and resumed, and a capsule is filled by hand; what comes too late is refused. -/
theorem capsules_serve_once_mixed : ∃ rs m,
    roomy.chronicle [.create, .ask ⟨1⟩ .initMainStack, .ask ⟨1⟩ (.newStack 2 .zero), .capture ⟨1⟩, .clone ⟨2⟩,
      .ask ⟨1⟩ (.resume ⟨2⟩), .alloc (.capsule .empty) .normal, .put ⟨5⟩ ⟨0⟩, .put ⟨5⟩ ⟨1⟩, .take ⟨5⟩, .take ⟨5⟩,
      .take ⟨4⟩] = some (rs, m) ∧
    (rs.drop 5).map Record.outcome = [.done (some ⟨0⟩), .done (some ⟨5⟩), .done none,
      .failed CapsuleMisuse.alreadyFull.toFailure, .done (some ⟨0⟩), .failed CapsuleMisuse.alreadyTaken.toFailure,
      .done (some ⟨3⟩)] ∧
    OneShot rs ∧ m.Refuses ⟨2⟩ .alreadyTaken := by
  have hseen : (roomy.chronicle [.create, .ask ⟨1⟩ .initMainStack, .ask ⟨1⟩ (.newStack 2 .zero), .capture ⟨1⟩,
      .clone ⟨2⟩, .ask ⟨1⟩ (.resume ⟨2⟩), .alloc (.capsule .empty) .normal, .put ⟨5⟩ ⟨0⟩, .put ⟨5⟩ ⟨1⟩, .take ⟨5⟩,
      .take ⟨5⟩, .take ⟨4⟩]).map
        (fun p => ((p.1.drop 5).map Record.outcome, p.2.world.heap.capsule? ⟨2⟩)) =
      some ([.done (some ⟨0⟩), .done (some ⟨5⟩), .done none, .failed CapsuleMisuse.alreadyFull.toFailure,
        .done (some ⟨0⟩), .failed CapsuleMisuse.alreadyTaken.toFailure, .done (some ⟨3⟩)], some .taken) := by
    decide +kernel
  obtain ⟨⟨rs, m⟩, hc, hm⟩ := Option.map_eq_some_iff.1 hseen
  obtain ⟨houtcomes, htaken⟩ := Prod.mk.inj hm
  have hevents := map_event_chronicle hc
  have hfair : ∀ r ∈ rs, r.Fair := fair_of_events hc (by simp [Event.Fair, Object.size, Capsule.size, Object.Unmarked])
  have hkept : ∀ r ∈ rs, ∀ b, r.event = .free b → r.before.world.heap.capsule? b = none := by
    intro r hr b he
    have hmem : r.event ∈ rs.map Record.event := List.mem_map_of_mem hr
    simp [hevents, he] at hmem
  obtain ⟨honce, hrefused⟩ := capsules_serve_once (by decide) hc hfair hkept
  exact ⟨rs, m, hc, houtcomes, honce, hrefused ⟨2⟩ .taken .alreadyTaken htaken .taken⟩

/-- **Where the heap has no room for it**, a domain does not raise what is wrong with a capsule. -/
theorem not_refused_with_text : ¬ ∀ (config : Config) (layout : Layout) (maxWords minorLimit : Nat) (es : List Event)
    (rs : List Record) (m : Machine), maxWords < 2 ^ 32 →
      (initial (.initial config layout (.empty maxWords minorLimit))).chronicle es = some (rs, m) →
      (∀ r ∈ rs, r.Fair) → (∀ r ∈ rs, ∀ b, r.event ≠ .free b) →
      ∀ k d y ws m' y' w, m.world.heap.capsule? k = some .taken → m.domain? d = some y → y.ready = true →
        y.handlers ≠ [] → m.world.table = some ws → m.perform (.ask d (.resume k)) = some (.stopped .raised, m') →
        m'.domain? d = some y' → y'.pending = some w →
        m'.world.heap.Carries w (Exn.invalidArgument.identifier ws) CapsuleMisuse.alreadyTaken.message := by
  intro h
  let full : Machine := .initial (.initial { initStackWords := 16 } .bytecode (.empty 79 1000))
  let es : List Event :=
    [.createTable, .create, .ask ⟨1⟩ .start, .capture ⟨26⟩, .take ⟨27⟩, .ask ⟨1⟩ .enterRegion]
  have hseen : (full.chronicle es).bind (fun p => (p.2.perform (.ask ⟨1⟩ (.resume ⟨27⟩))).bind fun q =>
      (p.2.domain? ⟨1⟩).bind fun y => p.2.world.table.bind fun _ => (q.2.domain? ⟨1⟩).bind fun y' =>
        y'.pending.map fun w => (p.2.world.heap.capsule? ⟨27⟩, y.ready, y.handlers.isEmpty, q.1,
          w.block?.bind q.2.world.heap.tag?)) =
      some (some .taken, true, false, .stopped .raised, some identifierTag) := by decide +kernel
  obtain ⟨⟨rs, m⟩, hc, hseen⟩ := Option.bind_eq_some_iff.1 hseen
  obtain ⟨⟨out, m'⟩, hp, hseen⟩ := Option.bind_eq_some_iff.1 hseen
  obtain ⟨y, hy, hseen⟩ := Option.bind_eq_some_iff.1 hseen
  obtain ⟨ws, hws, hseen⟩ := Option.bind_eq_some_iff.1 hseen
  obtain ⟨y', hy', hseen⟩ := Option.bind_eq_some_iff.1 hseen
  obtain ⟨w, hw, hseen⟩ := Option.map_eq_some_iff.1 hseen
  simp only [Prod.mk.injEq] at hseen
  obtain ⟨htaken, hready, hwithin, rfl, htag⟩ := hseen
  have hfair : ∀ r ∈ rs, r.Fair := fair_of_events hc (by simp [es, Event.Fair])
  have hkept : ∀ r ∈ rs, ∀ b, r.event ≠ .free b := by
    intro r hr b he
    have hmem : r.event ∈ rs.map Record.event := List.mem_map_of_mem hr
    rw [map_event_chronicle hc, he] at hmem
    simp [es] at hmem
  obtain ⟨b, n, rfl, hb, -⟩ := h _ _ 79 1000 es rs m (by decide) hc hfair hkept ⟨27⟩ ⟨1⟩ y ws m' y' w htaken hy hready
    (by simpa using hwithin) hws hp hy' hw
  -- what is pending is an identifier, not an exception with arguments
  rw [Word.block?_ofBlock, Option.bind_some, Heap.tag?, hb] at htag
  cases htag

end Machine

end FiberStacks
