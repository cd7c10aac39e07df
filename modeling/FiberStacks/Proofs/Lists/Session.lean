import FiberStacks.Proofs.Lists.Machine

/-!
# Sessions of many domains

Domains come, start on main stacks and send requests, in any order.  What they are answered is what one list of words
for each fiber answers.

* `Order`, `Session.step`, `Session.run` — the interleavings of requests, with what is seen of each;
* `Event.replay` — whether lists agree with what was seen, and the lists afterwards;
* `Session.Valid` — the invariant: every domain owns its fibers, and no two domains share one;
* `Session.run_replay` — **all answers are those of the lists**.
-/

namespace FiberStacks

open FiberStacks.Action

/-- What is seen of a step: a domain has started on its main stack, a request of a domain was answered or stopped, or
something happened beside all stacks.  Fibers are seen by number. -/
inductive Event where
  | beside
  | started (d : DomainId)
  | called (d : DomainId) (q : Request Nat) (r : Except Stop (Reply Nat))
deriving DecidableEq

/-- A step of a session: something beside all stacks, a domain starts on its main stack, or a domain sends a request. -/
inductive Order where
  | createTable
  | markReady
  | create
  | start (d : DomainId)
  | call (d : DomainId) (q : Request BlockId)
deriving DecidableEq

instance : DecidablePred Stop.Raising
  | .raised | .fatal _ => .isTrue trivial
  | .fault _ => .isFalse id

instance : DecidablePred Stop.Unbounded := fun _ => inferInstanceAs (Decidable (_ ∨ _ ∨ _))

instance : DecidablePred Stop.NewFiber := fun _ => inferInstanceAs (Decidable (_ ∨ _))

instance {β : Type} (threshold : Nat) (e : Stop) : (q : Request β) → Decidable (q.MayStop threshold e)
  | .alloc .. => inferInstanceAs (Decidable e.NewFiber)
  | .push _ => inferInstanceAs (Decidable e.Raising)
  | .maybeExpand _ => inferInstanceAs (Decidable (e.Raising ∨ _ ∧ _))
  | .ensure _ | .grow .. => inferInstanceAs (Decidable (e.Raising ∨ e.Unbounded))
  | .leaveRegion _ | .takePending => inferInstanceAs (Decidable (e = _))
  | .pop | .peek _ | .used | .switch _ | .save | .sync | .collect | .enterRegion => .isFalse id

/-- **The lists after a step, if they agree with what was seen**: an answer is theirs, and a stop is one that there is
under the threshold, and leaves them alone. -/
def Event.replay (threshold : Nat) (ls : DomainId → Lists) : Event → Option (DomainId → Lists)
  | .beside => some ls
  | .started d => some (Function.update ls d ⟨[[]], 0⟩)
  | .called d q (.ok r) =>
    if r = ((ls d).answer q).1 then some (Function.update ls d ((ls d).answer q).2) else Option.none
  | .called _ q (.error e) => if q.MayStop threshold e then some ls else Option.none

structure Session where
  machine : Machine
  fibers : DomainId → Fibers

namespace Session

/-- Before any domain. -/
def initial (w : World) : Session := ⟨.initial w, fun _ => .none⟩

/-- The threshold that all domains are under. -/
def threshold (s : Session) : Nat := s.machine.world.config.stackThresholdWords

def lists (s : Session) (d : DomainId) : Lists := (s.fibers d).seen s.machine.world (s.machine.domain? d)

def started (s : Session) (d : DomainId) : Except Stop (Except Failure BlockId) × Machine → Event × Session
  | (.ok (.ok b), m) => (.started d, ⟨m, Function.update s.fibers d ⟨[b], 0⟩⟩)
  | (_, m) => (.beside, { s with machine := m })

def called (s : Session) (d : DomainId) (q : Request BlockId) : Except Stop (Reply BlockId) × Machine → Event × Session
  | (.ok r, m) =>
    let fs := (s.fibers d).after q r ((m.domain? d).bind Domain.current?)
    (.called d (q.map (s.fibers d).number) (.ok (r.map fs.number)), ⟨m, Function.update s.fibers d fs⟩)
  | (.error e, m) => (.called d (q.map (s.fibers d).number) (.error e), { s with machine := m })

/-- The domain has started, and the request names no fiber but its own. -/
def Admits (s : Session) (d : DomainId) (q : Request BlockId) : Prop := s.fibers d ≠ .none ∧ q.Within (s.fibers d)

instance (s : Session) (d : DomainId) (q : Request BlockId) : Decidable (s.Admits d q) :=
  inferInstanceAs (Decidable (_ ∧ _))

/-- **One step**, with what is seen of it.  A domain starts once, and runs on its own fibers only. -/
def step (s : Session) : Order → Option (Event × Session)
  | .createTable =>
    some (.beside, { s with machine := { s.machine with world := s.machine.world.createTable.2 } })
  | .markReady =>
    some (.beside,
      { s with machine := { s.machine with world := s.machine.world.adopt s.machine.world.heap.markReady } })
  | .create => some (.beside, { s with machine := s.machine.create.2 })
  | .start d => if s.fibers d = .none then (s.machine.act d Act.start).map (s.started d) else none
  | .call d q => if s.Admits d q then (s.machine.act d q.run).map (s.called d q) else none

def run (s : Session) : List Order → Option (List Event × Session)
  | [] => some ([], s)
  | o :: os => (s.step o).bind fun p => (p.2.run os).map fun r => (p.1 :: r.1, r.2)

/-- **Every domain owns its fibers, and no two domains share one.** -/
structure Valid (s : Session) : Prop where
  growing : s.machine.world.heap.Growing
  layout : s.machine.world.layout = .bytecode
  settled : ∀ d, Settled (s.fibers d) s.machine.world (s.machine.domain? d)
  apart : ∀ d d', d ≠ d' → ∀ b ∈ (s.fibers d).blocks, b ∉ (s.fibers d').blocks

variable {s s' : Session} {d : DomainId} {x : Domain}

theorem valid_initial {config : Config} {maxWords minorLimit : Nat} {verbose : Bool} (hmax : maxWords < 2 ^ 32) :
    (initial { World.initial config .bytecode (.empty maxWords minorLimit) with verbose }).Valid where
  growing := Heap.growing_empty minorLimit hmax
  layout := rfl
  settled _ := rfl
  apart _ _ _ _ hb := by cases hb

theorem Valid.calm (h : s.Valid) (hx : s.machine.domain? d = some x) : x.Calm := by
  have hd := h.settled d
  rw [hx] at hd
  exact hd.1

theorem Valid.owns (h : s.Valid) (hx : s.machine.domain? d = some x) (hne : s.fibers d ≠ .none) :
    Owns (s.fibers d).blocks (s.fibers d).running ⟨x, s.machine.world⟩ := by
  have hd := h.settled d
  rw [hx] at hd
  exact hd.2.2 hne

theorem Valid.stack? {b : BlockId} (h : s.Valid) (hb : b ∈ (s.fibers d).blocks) :
    ∃ y, s.machine.world.heap.stack? b = some y := by
  have hne : s.fibers d ≠ .none := by
    intro he
    rw [he] at hb
    cases hb
  obtain ⟨x, -, ho⟩ := (h.settled d).owns hne
  obtain ⟨y, hy, -⟩ := ho.segments b hb
  exact ⟨y, hy⟩

theorem lists_of_some (hx : s.machine.domain? d = some x) :
    s.lists d = (s.fibers d).lists ⟨x, s.machine.world⟩ := by
  unfold lists
  rw [hx]
  rfl

/-- Domains keep their lists where another machine has their stacks. -/
theorem Valid.extended (h : s.Valid) (m : Machine) (he : s.machine.world.Extends m.world)
    (hm : ∀ d, m.domain? d = s.machine.domain? d ∨
      s.machine.domain? d = none ∧ Settled .none m.world (m.domain? d)) :
    Valid { s with machine := m } ∧ lists { s with machine := m } = s.lists := by
  have hl : m.world.layout = .bytecode := he.layout.trans h.layout
  have hkeep : ∀ d, Settled (s.fibers d) m.world (m.domain? d) ∧
      (s.fibers d).seen m.world (m.domain? d) = s.lists d := by
    intro d
    rcases hm d with hd | ⟨hnone, hd⟩
    · rw [hd]
      exact (h.settled d).elsewhere he.growing hl he.created fun b _ => he.segments b
    · have hs := h.settled d
      rw [hnone] at hs
      unfold lists
      rw [hs, Fibers.seen_none, Fibers.seen_none]
      exact ⟨hd, rfl⟩
  exact ⟨⟨he.growing, hl, fun d => (hkeep d).1, h.apart⟩, funext fun d => (hkeep d).2⟩

/-! ### A domain has acted -/

/-- A domain has acted, and has other fibers. -/
def acted (s : Session) (d : DomainId) (t : Active) (fs : Fibers) : Session :=
  ⟨{ s.machine.setDomain t.domain with world := t.world }, Function.update s.fibers d fs⟩

section Acted

variable {t : Active} {fs : Fibers}

theorem domain?_acted (fs : Fibers) (hx : s.machine.domain? d = some x) (ht : t.domain.id = x.id) (e : DomainId) :
    (s.acted d t fs).machine.domain? e = if e = d then some t.domain else s.machine.domain? e := by
  have hid : t.domain.id = d := ht.trans (Machine.id_of_domain? hx)
  have hset := Machine.domain?_setDomain (y := t.domain) (by rw [hid]; exact hx) e
  rw [hid] at hset
  exact hset

theorem Valid.not_mem_of_acts {f : List BlockId} {n : Nat} {e : DomainId} {b : BlockId} (h : s.Valid)
    (ht : Acts (s.fibers d).blocks f n ⟨x, s.machine.world⟩ t) (he : e ≠ d) (hb : b ∈ (s.fibers e).blocks) :
    b ∉ f := by
  intro hmem
  rcases ht.fresh b hmem with hmem | hnone
  · exact h.apart e d he b hb hmem
  · obtain ⟨y, hy⟩ := h.stack? hb
    simp [hnone] at hy

/-- Another domain and its lists. -/
theorem Valid.elsewhere {f : List BlockId} {n : Nat} {e : DomainId} (h : s.Valid)
    (ht : Acts (s.fibers d).blocks f n ⟨x, s.machine.world⟩ t) (he : e ≠ d) :
    Settled (s.fibers e) t.world (s.machine.domain? e) ∧
      (s.fibers e).seen t.world (s.machine.domain? e) = s.lists e :=
  (h.settled e).elsewhere ht.owns.growing ht.owns.layout (Nat.le_of_eq ht.created.symm) fun b hb =>
    ht.others b (h.apart e d he b hb)

/-- **A domain that has changed its own fibers only** keeps the invariant. -/
theorem Valid.acted (h : s.Valid) (hx : s.machine.domain? d = some x)
    (ht : Acts (s.fibers d).blocks fs.blocks fs.running ⟨x, s.machine.world⟩ t) : (s.acted d t fs).Valid := by
  refine ⟨ht.owns.growing, ht.owns.layout, fun e => ?_, fun e e' hee b hb => ?_⟩
  · rw [domain?_acted fs hx ht.id]
    rcases eq_or_ne e d with rfl | he
    · have hcreated : t.domain.id.number ≤ t.world.domainsCreated := by
        have hd := h.settled e
        rw [hx] at hd
        rw [ht.id, ht.created]
        exact hd.2.1
      rw [if_pos rfl]
      exact ⟨ht.owns.calm, hcreated, fun _ => by simpa [Session.acted] using ht.owns⟩
    · rw [if_neg he]
      simpa [Session.acted, he] using (h.elsewhere ht he).1
  · simp only [Session.acted] at hb ⊢
    rcases eq_or_ne e d with rfl | he
    · rw [Function.update_self] at hb
      rw [Function.update_of_ne hee.symm]
      exact fun hb' => h.not_mem_of_acts ht hee.symm hb' hb
    · rw [Function.update_of_ne he] at hb
      rcases eq_or_ne e' d with rfl | he'
      · rw [Function.update_self]
        exact h.not_mem_of_acts ht he hb
      · rw [Function.update_of_ne he']
        exact h.apart e e' hee b hb

/-- **Only its own lists are others.** -/
theorem Valid.lists_acted (h : s.Valid) (hx : s.machine.domain? d = some x)
    (ht : Acts (s.fibers d).blocks fs.blocks fs.running ⟨x, s.machine.world⟩ t) :
    (s.acted d t fs).lists = Function.update s.lists d (fs.lists t) := by
  funext e
  unfold lists
  rw [domain?_acted fs hx ht.id]
  rcases eq_or_ne e d with rfl | he
  · rw [if_pos rfl, Function.update_self]
    simp [Session.acted, Fibers.seen]
  · rw [if_neg he, Function.update_of_ne he]
    have hkeep := (h.elsewhere ht he).2
    unfold lists at hkeep
    simpa [Session.acted, he] using hkeep

/-- A domain that has changed none of its words. -/
theorem Valid.idle (h : s.Valid) (hx : s.machine.domain? d = some x)
    (ht : Idle (s.fibers d).blocks (s.fibers d).running ⟨x, s.machine.world⟩ t) :
    Valid { s with machine := { s.machine.setDomain t.domain with world := t.world } } ∧
      lists { s with machine := { s.machine.setDomain t.domain with world := t.world } } = s.lists := by
  have hsame : s.acted d t (s.fibers d) =
      { s with machine := { s.machine.setDomain t.domain with world := t.world } } := by
    unfold Session.acted
    rw [Function.update_eq_self]
  rw [← hsame]
  refine ⟨h.acted hx ht.acts, (h.lists_acted hx ht.acts).trans ?_⟩
  rw [Function.update_eq_self_iff, lists_of_some hx]
  exact congrArg (Lists.mk · _) (List.map_congr_left ht.words)

end Acted

/-! ### Steps -/

/-- **A step that the lists agree with**: the session is valid as before, under the same threshold. -/
structure Agrees (s : Session) (e : Event) (s' : Session) : Prop where
  valid : s'.Valid
  threshold : s'.threshold = s.threshold
  replay : e.replay s.threshold s.lists = some s'.lists

/-- A step beside all stacks. -/
theorem Agrees.beside (h : s'.Valid ∧ s'.lists = s.lists) (ht : s'.machine.world.config = s.machine.world.config) :
    s.Agrees .beside s' :=
  ⟨h.1, congrArg Config.stackThresholdWords ht, congrArg some h.2.symm⟩

theorem mayStop_map {β γ : Type} (g : β → γ) (q : Request β) (threshold : Nat) (e : Stop) :
    (q.map g).MayStop threshold e ↔ q.MayStop threshold e := by
  cases q <;> rfl

theorem Valid.create (h : s.Valid) :
    Valid { s with machine := s.machine.create.2 } ∧ lists { s with machine := s.machine.create.2 } = s.lists := by
  refine h.extended s.machine.create.2 ⟨h.growing, fun _ _ hx => hx, rfl, rfl, Nat.le_succ _⟩ fun d => ?_
  rw [s.machine.domain?_create]
  cases hy : s.machine.domain? d with
  | some y => exact .inl rfl
  | none =>
    rw [Option.none_or]
    split
    · exact .inr ⟨rfl, ⟨rfl, fun c hc => (by cases hc), rfl, rfl⟩, Nat.le_refl _, fun hne => absurd rfl hne⟩
    · exact .inl rfl

theorem Valid.same (h : s.Valid) (hx : s.machine.domain? d = some x) :
    Valid { s with machine := { s.machine.setDomain x with world := s.machine.world } } ∧
      lists { s with machine := { s.machine.setDomain x with world := s.machine.world } } = s.lists := by
  have hid := Machine.id_of_domain? hx
  refine h.extended { s.machine.setDomain x with world := s.machine.world } (.refl h.growing) fun e => .inl ?_
  rw [show Machine.domain? { s.machine.setDomain x with world := s.machine.world } e = _ from
    Machine.domain?_setDomain (by rw [hid]; exact hx) e]
  split
  · next he => rw [he, hid, hx]
  · rfl

/-- A domain has started, or failed to. -/
theorem Valid.start {r : Except Stop (Except Failure BlockId)} {m : Machine} {e : Event} (h : s.Valid)
    (hs : s.fibers d = .none) (hm : s.machine.act d Act.start = some (r, m)) (hr : s.started d (r, m) = (e, s')) :
    s.Agrees e s' := by
  obtain ⟨x, t, hx, hrun, rfl⟩ := Machine.act_eq_some hm
  have hstart := Act.start_spec (a := ⟨x, s.machine.world⟩) (h.calm hx) h.growing h.layout
  rcases r with stop | failure | b
  · obtain ⟨rfl, rfl⟩ := Prod.mk.inj hr
    obtain rfl := (wp_of_error hrun).1 hstart
    exact .beside (h.same hx) rfl
  · obtain ⟨rfl, rfl⟩ := Prod.mk.inj hr
    obtain rfl := ((wp_of_ok hrun).1 hstart).2 failure rfl
    exact .beside (h.same hx) rfl
  · obtain ⟨rfl, rfl⟩ := Prod.mk.inj hr
    obtain ⟨hacts, hnil⟩ := ((wp_of_ok hrun).1 hstart).1 b rfl
    have ht : Acts (s.fibers d).blocks (Fibers.mk [b] 0).blocks 0 ⟨x, s.machine.world⟩ t := by
      rw [hs]
      exact hacts
    have hl := h.lists_acted hx ht
    refine ⟨h.acted hx ht, congrArg Config.stackThresholdWords ht.config, ?_⟩
    unfold Session.acted at hl
    rw [hl]
    simp [Event.replay, Fibers.lists, hnil]

/-- A domain has carried out a request. -/
theorem Valid.call {q : Request BlockId} {r : Except Stop (Reply BlockId)} {m : Machine} {e : Event} (h : s.Valid)
    (hs : s.Admits d q) (hm : s.machine.act d q.run = some (r, m)) (hr : s.called d q (r, m) = (e, s')) :
    s.Agrees e s' := by
  obtain ⟨x, t, hx, hrun, rfl⟩ := Machine.act_eq_some hm
  have hspec := q.run_spec hs.2 (h.owns hx hs.1)
  cases r with
  | error stop =>
    obtain ⟨rfl, rfl⟩ := Prod.mk.inj hr
    obtain ⟨ht, he⟩ := (wp_of_error hrun).1 hspec
    obtain ⟨hv, hl⟩ := h.idle hx ht
    refine ⟨hv, congrArg Config.stackThresholdWords ht.acts.config, ?_⟩
    rw [hl, Event.replay]
    exact if_pos ((mayStop_map ..).2 he)
  | ok r =>
    have ha := (wp_of_ok hrun).1 hspec
    have hself : Machine.domain? { s.machine.setDomain t.domain with world := t.world } d = some t.domain :=
      (domain?_acted .none hx ha.acts.id d).trans (if_pos rfl)
    simp only [called] at hr
    rw [hself, Option.bind_some] at hr
    obtain ⟨rfl, rfl⟩ := Prod.mk.inj hr
    have hl := h.lists_acted hx ha.acts
    have hanswer := ha.answer
    unfold Session.acted at hl
    rw [← lists_of_some hx] at hanswer
    refine ⟨h.acted hx ha.acts, congrArg Config.stackThresholdWords ha.acts.config, ?_⟩
    rw [hl, Event.replay, ← hanswer]
    exact if_pos rfl

/-- **A step keeps the invariant, and the lists agree with what is seen of it.** -/
theorem Valid.step {o : Order} {e : Event} (h : s.Valid) (hstep : s.step o = some (e, s')) : s.Agrees e s' := by
  cases o with
  | createTable =>
    obtain ⟨rfl, rfl⟩ := Prod.mk.inj (Option.some.inj hstep)
    have hextends := World.extends_createTable h.growing
    exact .beside (h.extended { s.machine with world := _ } hextends fun _ => .inl rfl) hextends.config
  | markReady =>
    obtain ⟨rfl, rfl⟩ := Prod.mk.inj (Option.some.inj hstep)
    exact .beside (h.extended { s.machine with world := _ } (World.extends_markReady h.growing) fun _ => .inl rfl) rfl
  | create =>
    obtain ⟨rfl, rfl⟩ := Prod.mk.inj (Option.some.inj hstep)
    exact .beside h.create rfl
  | start d =>
    simp only [Session.step] at hstep
    split at hstep
    · next hs =>
      obtain ⟨⟨r, m⟩, hm, hr⟩ := Option.map_eq_some_iff.1 hstep
      exact h.start hs hm hr
    · cases hstep
  | call d q =>
    simp only [Session.step] at hstep
    split at hstep
    · next hs =>
      obtain ⟨⟨r, m⟩, hm, hr⟩ := Option.map_eq_some_iff.1 hstep
      exact h.call hs hm hr
    · cases hstep

/-- **Every request of a domain on its own fibers is carried out.** -/
theorem Valid.isSome_step {q : Request BlockId} (h : s.Valid) (hq : s.Admits d q) : (s.step (.call d q)).isSome := by
  obtain ⟨x, hx, -⟩ := (h.settled d).owns hq.1
  simp [Session.step, hq, Machine.act, hx]

theorem Valid.run {os : List Order} : ∀ {s : Session} {es : List Event}, s.Valid → s.run os = some (es, s') →
    s'.Valid ∧ es.foldlM (Event.replay s.threshold) s.lists = some s'.lists := by
  induction os with
  | nil =>
    intro s es h hrun
    obtain ⟨rfl, rfl⟩ := Prod.mk.inj (Option.some.inj hrun)
    exact ⟨h, rfl⟩
  | cons o os ih =>
    intro s es h hrun
    obtain ⟨⟨e, t⟩, hstep, hmap⟩ := Option.bind_eq_some_iff.1 hrun
    obtain ⟨⟨es', u⟩, hrest, heq⟩ := Option.map_eq_some_iff.1 hmap
    obtain ⟨rfl, rfl⟩ := Prod.mk.inj heq
    obtain ⟨hv, hthreshold, hl⟩ := h.step hstep
    obtain ⟨hv', hl'⟩ := ih hv hrest
    refine ⟨hv', ?_⟩
    rw [List.foldlM_cons, hl]
    exact hthreshold ▸ hl'

/-- **Stacks are lists**: in every session of any number of domains on a heap of less than `2 ^ 32` words from which
nothing is freed, all answers are those of one list of words for each fiber, and every stop leaves all lists as they
were; and every further request of a domain that has started is answered or stopped. -/
theorem run_replay {config : Config} {maxWords minorLimit : Nat} {verbose : Bool} {os : List Order} {es : List Event}
    (hmax : maxWords < 2 ^ 32)
    (hrun : (initial { World.initial config .bytecode (.empty maxWords minorLimit) with verbose }).run os =
      some (es, s)) :
    es.foldlM (Event.replay config.stackThresholdWords) (fun _ => .none) = some s.lists ∧
      ∀ d q, s.Admits d q → (s.step (.call d q)).isSome := by
  obtain ⟨hv, hl⟩ := (valid_initial hmax).run hrun
  exact ⟨hl, fun d q => hv.isSome_step⟩

/-- A main stack grows, the growth of a fiber is refused, and the main stack has its words. -/
theorem run_replay_overflow :
    ∃ os es s, (initial (.initial { initStackWords := 1, maxStackWords := 8 } .bytecode (.empty 200 50))).run os =
        some (es, s) ∧
      es[8]? = some (.called ⟨1⟩ (.grow 1000 []) (.error .raised)) ∧
      es[10]? = some (.called ⟨1⟩ .pop (.ok (.word (some (.ofInt 2))))) ∧
      es.foldlM (Event.replay 32) (fun _ => .none) = some s.lists ∧
      ∀ d q, s.Admits d q → (s.step (.call d q)).isSome := by
  have hmax : 200 < 2 ^ 32 := by decide
  have hseen : ((initial (.initial { initStackWords := 1, maxStackWords := 8 } .bytecode (.empty 200 50))).run
      [.createTable, .create, .start ⟨1⟩, .call ⟨1⟩ .enterRegion, .call ⟨1⟩ (.push (.ofInt 1)),
        .call ⟨1⟩ (.push (.ofInt 2)), .call ⟨1⟩ (.alloc 4 .zero), .call ⟨1⟩ (.switch (.ofIndex 28)),
        .call ⟨1⟩ (.grow 1000 []), .call ⟨1⟩ (.switch (.ofIndex 27)), .call ⟨1⟩ .pop]).map
      (fun r => (r.1[8]?, r.1[10]?)) = some (some (.called ⟨1⟩ (.grow 1000 []) (.error .raised)),
        some (.called ⟨1⟩ .pop (.ok (.word (some (.ofInt 2)))))) := by decide +kernel
  obtain ⟨⟨es, s⟩, hrun, hr⟩ := Option.map_eq_some_iff.1 hseen
  obtain ⟨hgrow, hpop⟩ := Prod.mk.inj hr
  exact ⟨_, es, s, hrun, hgrow, hpop, run_replay hmax hrun⟩

end Session

end FiberStacks
