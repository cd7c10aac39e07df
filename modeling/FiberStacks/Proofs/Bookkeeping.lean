import FiberStacks.Proofs.Locks.Records
import FiberStacks.Proofs.Outcome
import FiberStacks.Proofs.Placed

/-!
# Bookkeeping

Much of what an action does is beside the stacks: it looks at the state, writes to the log, opens and closes local
frames, and a raise unwinds and may allocate its message.  What such a step does is said once, and what is true of all
of it follows.

* `Alike` — the stacks, the registers and the queue of the domain are the same, and no lock is recorded;
* `SameStacks` — the same up to new blocks that are no stacks;
* `Placed`, `Unread` — no assertion about places is hit, and nobody reads the log;
* `Beside` — **all of this at once**, with one lemma for each step: `beside_raise`, `beside_leaveFrame`;
* `Bookkeeping` — relations that hold of all that is done beside the stacks.
-/

namespace FiberStacks

open FiberStacks.Action

/-- The state with other entries in the log, and with entries of the level debug written or not. -/
def Active.logging (s : Active) (verbose : Bool) (log : List Notice) : Active :=
  { s with world := { s.world with verbose, log } }

/-- The size that an entry shows in kibibytes. -/
def Notice.size? : Notice → Option Nat
  | growing words | limitChanged words => some words
  | _ => none

namespace Act

variable {α β : Type} {s t u : Active}

/-! ### What is said of a step -/

/-- **The same heap**, and a domain with the same number, registers and queue that has recorded no lock. -/
structure Alike (s t : Active) : Prop where
  heap : t.world.heap = s.world.heap
  created : t.world.domainsCreated = s.world.domainsCreated
  id : t.domain.id = s.domain.id
  registers : t.domain.registers = s.domain.registers
  remembered : t.domain.remembered = s.domain.remembered
  records : t.domain.frames.records ⊆ s.domain.frames.records

theorem alike_of_eq (hheap : t.world.heap = s.world.heap) (hcreated : t.world.domainsCreated = s.world.domainsCreated)
    (hid : t.domain.id = s.domain.id) (hregisters : t.domain.registers = s.domain.registers)
    (hremembered : t.domain.remembered = s.domain.remembered) (hframes : t.domain.frames = s.domain.frames) :
    Alike s t :=
  ⟨hheap, hcreated, hid, hregisters, hremembered, hframes ▸ List.Subset.refl _⟩

theorem Alike.refl (s : Active) : Alike s s := alike_of_eq rfl rfl rfl rfl rfl rfl

/-- **The same stacks**, and new blocks that are none. -/
inductive SameStacks : Active → Active → Prop where
  | alike {s t : Active} (h : Alike s t) : SameStacks s t
  | alloc {s : Active} {o : Object} {path : AllocPath} {b : BlockId} {h : Heap} (ho : ∀ x, o ≠ .stack x)
      (hsize : 0 < o.size) (ha : s.world.heap.alloc o path = .ok (b, h)) :
      SameStacks s { s with world := s.world.adopt h }
  | trans {s t u : Active} (h₁ : SameStacks s t) (h₂ : SameStacks t u) : SameStacks s u

/-- **The action hits no assertion about places**, whatever the state. -/
def Placed (a : Act α) : Prop := ∀ s, a.wp s (fun _ _ => True) fun e _ => ¬ e.Misplaced

/-- **Nobody reads the log**: with other entries before, an action returns the same, leaves the same state and adds the
same entries, none of which shows a size. -/
def Unread (a : Act α) : Prop :=
  ∀ s : Active, ∃ (r : Except Stop α) (t : Active) (new : List Notice), (∀ n ∈ new, n.size? = none) ∧
    ∀ verbose log, a (s.logging verbose log) = (r, t.logging verbose (log ++ new))

/-- An action that hits no assertion about places and does not read the log. -/
structure Plain (a : Act α) : Prop where
  placed : a.Placed
  unread : a.Unread

/-- **An action beside the stacks.** -/
structure Beside (a : Act α) : Prop extends Plain a where
  relates : a.Relates SameStacks

/-- What is made of actions that do not read the log. -/
theorem Unread.bind {a : Act β} {f : β → Act α} (ha : a.Unread) (hf : ∀ x, (f x).Unread) : (a >>= f).Unread := by
  intro s
  obtain ⟨r, t, new, hnew, ht⟩ := ha s
  cases r with
  | error e => exact ⟨.error e, t, new, hnew, fun v l => bind_of_error (ht v l)⟩
  | ok x =>
    obtain ⟨r, u, new', hnew', hu⟩ := hf x t
    exact ⟨r, u, new ++ new', fun n hn => (List.mem_append.1 hn).elim (hnew n) (hnew' n),
      fun v l => by rw [bind_of_ok (ht v l), hu, List.append_assoc]⟩

theorem unread_of_silent {a : Act α} (h : ∀ s : Active, ∃ (r : Except Stop α) (t : Active), ∀ verbose log,
    a (s.logging verbose log) = (r, t.logging verbose log)) : a.Unread := by
  intro s
  obtain ⟨r, t, ht⟩ := h s
  exact ⟨r, t, [], by simp, fun v l => (List.append_nil l).symm ▸ ht v l⟩

theorem Plain.bind {a : Act β} {f : β → Act α} (ha : a.Plain) (hf : ∀ x, (f x).Plain) : (a >>= f).Plain where
  placed s := wp_bind_of (ha.placed s) (fun x t _ => (hf x).placed t) fun _ _ h => h
  unread := ha.unread.bind fun x => (hf x).unread

theorem Beside.bind {a : Act β} {f : β → Act α} (ha : a.Beside) (hf : ∀ x, (f x).Beside) : (a >>= f).Beside where
  toPlain := ha.toPlain.bind fun x => (hf x).toPlain
  relates := ha.relates.bind .trans fun x => (hf x).relates

/-! ### Looking at the state -/

theorem beside_look {f : Active → Except Stop α} (hplaced : ∀ s e, f s = .error e → ¬ e.Misplaced)
    (hunread : ∀ s v l, f (s.logging v l) = f s) : Beside fun s => (f s, s) where
  placed s := by
    cases hr : f s with
    | error e => exact (wp_of_error (congrArg (·, s) hr)).2 (hplaced s e hr)
    | ok x => exact (wp_of_ok (congrArg (·, s) hr)).2 trivial
  unread := unread_of_silent fun s => ⟨f s, s, fun v l => congrArg (·, s.logging v l) (hunread s v l)⟩
  relates := relates_iff.2 fun s => .alike (.refl s)

theorem beside_pure (a : α) : (pure a : Act α).Beside := beside_look (fun _ _ => nofun) fun _ _ _ => rfl

theorem beside_domain : domain.Beside := beside_look (fun _ _ => nofun) fun _ _ _ => rfl

theorem beside_heap : Act.heap.Beside := beside_look (fun _ _ => nofun) fun _ _ _ => rfl

theorem beside_config : config.Beside := beside_look (fun _ _ => nofun) fun _ _ _ => rfl

theorem beside_layout : layout.Beside := beside_look (fun _ _ => nofun) fun _ _ _ => rfl

theorem beside_stop {e : Stop} (he : ¬ e.Misplaced) : Beside (Action.stop e : Act α) :=
  beside_look (f := fun _ => .error e) (fun _ _ h => Except.error.inj h ▸ he) fun _ _ _ => rfl

theorem beside_fault {f : Fault} (hf : ¬ f.Misplaced) : (fault f : Act α).Beside :=
  beside_stop (e := .fault f) hf

theorem beside_check {x : Except Fault α} (hx : Fault.Placed x) : (check x).Beside := by
  cases x with
  | error f => exact beside_fault (hx f rfl)
  | ok a => exact beside_pure a

theorem beside_require {f : Fault} (hf : ¬ f.Misplaced) (p : Prop) [Decidable p] : (require p f).Beside := by
  unfold require
  split
  · exact beside_pure ()
  · exact beside_fault hf

theorem relates_require (p : Prop) [Decidable p] (f : Fault) : (require p f).Relates SameStacks :=
  relates_iff.2 fun s => by unfold require; split <;> exact .alike (.refl s)

theorem beside_registers : registers.Beside := by
  refine beside_domain.bind fun d => ?_
  split
  · exact beside_pure _
  · exact beside_fault id

theorem beside_stack (b : BlockId) : (stack b).Beside := beside_heap.bind fun h => beside_check (h.placed_stack b)

theorem beside_guardBlocking (g : Guarded) : (guardBlocking g).Beside :=
  beside_domain.bind fun _ => beside_require id _

/-! ### The domain, the locks and the log -/

theorem plain_modifyDomain (f : Domain → Domain) : (modifyDomain f).Plain :=
  ⟨fun _ => trivial, unread_of_silent fun s => ⟨.ok (), { s with domain := f s.domain }, fun _ _ => rfl⟩⟩

theorem beside_modifyDomain {f : Domain → Domain} (hf : ∀ s : Active, Alike s { s with domain := f s.domain }) :
    (modifyDomain f).Beside :=
  ⟨plain_modifyDomain f, relates_iff.2 fun s => .alike (hf s)⟩

theorem beside_modifyWorld {f : World → World} (hf : ∀ s : Active, Alike s { s with world := f s.world })
    (hlog : ∀ (w : World) (verbose log), f { w with verbose, log } = { f w with verbose, log }) :
    (modifyWorld f).Beside where
  placed _ := trivial
  unread := unread_of_silent fun s => ⟨.ok (), { s with world := f s.world }, fun v l =>
    congrArg (fun w : World => (Except.ok (), ({ s with world := w } : Active))) (hlog s.world v l)⟩
  relates := relates_iff.2 fun s => .alike (hf s)

theorem beside_note {n : Notice} (hn : n.size? = none) : (note n).Beside where
  placed _ := trivial
  unread s := ⟨.ok (), s, [n], by simpa using hn, fun _ _ => rfl⟩
  relates := relates_iff.2 fun _ => .alike (alike_of_eq rfl rfl rfl rfl rfl rfl)

theorem relates_noteSize (entry : Nat → Notice) (words : Nat) : (noteSize entry words).Relates SameStacks := by
  intro s
  rw [wp_noteSize]
  exact ⟨fun _ => .alike (alike_of_eq rfl rfl rfl rfl rfl rfl), fun _ => .alike (.refl s)⟩

theorem placed_noteSize (entry : Nat → Notice) (words : Nat) : (noteSize entry words).Placed := by
  intro s
  rw [wp_noteSize]
  exact ⟨fun _ => trivial, fun _ => id⟩

theorem beside_die (x : Fatal) : (die x : Act α).Beside :=
  (beside_note rfl).bind fun _ => beside_stop (e := .fatal x) id

theorem unlockAll_eq (ls : List Lock) (s : Active) :
    unlockAll ls s = match s.world.locks.unlockAll ls with
      | .ok locks => (.ok (), { s with world := { s.world with locks } })
      | .error f => (.error (.fault f), s) := by
  change (check (s.world.locks.unlockAll ls) >>= _) s = _
  cases s.world.locks.unlockAll ls <;> rfl

theorem beside_unlockAll (ls : List Lock) : (unlockAll ls).Beside where
  placed s := by
    unfold wp
    rw [unlockAll_eq]
    cases hl : s.world.locks.unlockAll ls with
    | ok locks => trivial
    | error f => exact Locks.placed_unlockAll ls _ f hl
  unread := unread_of_silent fun s => by
    have hlocks : ∀ v l, (s.logging v l).world.locks = s.world.locks := fun _ _ => rfl
    simp only [unlockAll_eq, hlocks]
    cases s.world.locks.unlockAll ls with
    | ok locks => exact ⟨_, { s with world := { s.world with locks } }, fun _ _ => rfl⟩
    | error f => exact ⟨_, s, fun _ _ => rfl⟩
  relates := relates_iff.2 fun s => by
    rw [unlockAll_eq]
    cases s.world.locks.unlockAll ls <;> exact .alike (alike_of_eq rfl rfl rfl rfl rfl rfl)

theorem beside_enterBlocking : enterBlocking.Beside :=
  beside_modifyDomain fun _ => alike_of_eq rfl rfl rfl rfl rfl rfl

theorem beside_leaveBlocking : leaveBlocking.Beside :=
  beside_domain.bind fun _ => (beside_require id _).bind fun _ =>
    beside_modifyDomain fun _ => alike_of_eq rfl rfl rfl rfl rfl rfl

/-! ### Local frames -/

theorem beside_enterFrame (roots : List Word) : (enterFrame roots).Beside :=
  beside_domain.bind fun _ => Beside.bind (beside_modifyDomain fun s =>
    ⟨rfl, rfl, rfl, rfl, rfl, (s.domain.frames.records_push roots) ▸ List.Subset.refl _⟩) fun _ => beside_pure _

theorem beside_leaveFrame (marker : Nat) : (leaveFrame marker).Beside where
  toPlain := by
    refine beside_domain.toPlain.bind fun d => (beside_require id _).toPlain.bind fun _ => ?_
    split
    · exact (beside_fault id).toPlain
    · exact (plain_modifyDomain _).bind fun _ => ((beside_require id _).bind fun _ => beside_pure _).toPlain
  relates s := by
    unfold leaveFrame
    simp only [wp_bind, wp_domain, wp_require]
    refine ⟨fun _ => ?_, fun _ => .alike (.refl s)⟩
    split
    · exact .alike (.refl s)
    · next x frames hpop =>
      have hrecords : frames.records ⊆ s.domain.frames.records :=
        LocalFrames.records_pop? hpop ▸ List.subset_append_left ..
      have hleft : SameStacks s { s with domain := { s.domain with frames } } :=
        .alike ⟨rfl, rfl, rfl, rfl, rfl, hrecords⟩
      simp only [wp_bind, wp_modifyDomain, wp_require, wp_pure]
      exact ⟨fun _ => hleft, fun _ => hleft⟩

/-! ### Raising -/

theorem beside_exception (e : Exn) : (exception e).Beside where
  placed s := by
    rcases h : s.exception e with f | w
    · exact (wp_congr (exception_of_error h)).2 ((beside_die _).placed s)
    · exact (wp_of_ok (exception_of_ok h)).2 trivial
  unread s := by
    -- entries of the log make no difference to what it finds
    rcases h : s.exception e with f | w
    · simp only [fun v l => exception_of_error (s := s.logging v l) (e := e) (f := f) h]
      exact (beside_die _).unread s
    · exact ⟨.ok w, s, [], by simp, fun v l => by rw [exception_of_ok (s := s.logging v l) h, List.append_nil]⟩
  relates s := by
    rcases h : s.exception e with f | w
    · exact (wp_congr (exception_of_error h)).2 ((beside_die _).relates s)
    · exact (wp_of_ok (exception_of_ok h)).2 (.alike (.refl s))

/-- **A raise.**  Unwinding drops records, and adds none. -/
theorem beside_raise (w : Word) : (raise w : Act α).Beside where
  toPlain := by
    refine (plain_modifyDomain _).bind fun _ => beside_domain.toPlain.bind fun d => ?_
    split
    · exact (beside_heap.bind fun _ => beside_die _).toPlain
    · exact (beside_domain.toPlain.bind fun _ => (plain_modifyDomain _).bind fun _ =>
        (beside_unlockAll _).toPlain).bind fun _ => (beside_stop (e := .raised) id).toPlain
  relates s := by
    unfold raise
    simp only [wp_bind, wp_modifyDomain, wp_domain]
    split
    · exact .alike (alike_of_eq rfl rfl rfl rfl rfl rfl)
    · next c _ _ =>
      have hrecords : (s.domain.frames.unwind c.frames c.records).2.records ⊆ s.domain.frames.records := by
        rw [← LocalFrames.records_unwind s.domain.frames c.frames c.records]
        exact List.subset_append_left ..
      unfold unwindTo
      simp only [wp_bind, wp_domain, wp_modifyDomain, wp_stop]
      refine wp_mono ((beside_unlockAll _).relates _) (fun _ _ h => .trans (.alike ?_) h)
        fun _ _ h => .trans (.alike ?_) h <;> exact ⟨rfl, rfl, rfl, rfl, rfl, hrecords⟩

theorem beside_raiseExn (e : Exn) : (raiseExn e : Act α).Beside := (beside_exception e).bind beside_raise

theorem exists_adopt (w : World) (h : Heap) : ∃ asked : List Notice, (∀ n ∈ asked, n.size? = none) ∧
    ∀ verbose log, { w with verbose, log }.adopt h = { w with heap := h, verbose, log := log ++ asked } := by
  refine ⟨(h.requests.drop w.heap.requests.length).zipIdx.map fun p =>
    .collectionDue (w.heap.requests.length + p.2 + 1) p.1, fun n hn => ?_, fun _ _ => rfl⟩
  obtain ⟨p, -, rfl⟩ := List.mem_map.1 hn
  rfl

/-- **An allocation** of whatever does not look at the log. -/
theorem unread_allocate (o : Object) (path : AllocPath) : (allocate o path).Unread := by
  intro s
  have hheap : ∀ v l, (s.logging v l).world.heap = s.world.heap := fun _ _ => rfl
  unfold allocate World.allocate
  simp only [hheap]
  cases s.world.heap.alloc o path with
  | error e => exact ⟨_, s, [], by simp, fun v l => by rw [List.append_nil]; rfl⟩
  | ok p =>
    obtain ⟨asked, hasked, hadopt⟩ := exists_adopt s.world p.2
    exact ⟨.ok (.ok p.1), { s with world := { s.world with heap := p.2 } }, asked, hasked, fun v l =>
      congrArg (fun w : World => (Except.ok (Except.ok p.1), ({ s with world := w } : Active))) (hadopt v l)⟩

theorem placed_allocate (o : Object) (path : AllocPath) : (allocate o path).Placed := by
  intro s
  rw [wp_allocate]
  exact ⟨fun _ _ => trivial, fun _ _ _ => trivial⟩

theorem beside_allocate {o : Object} (ho : ∀ x, o ≠ .stack x) (hsize : 0 < o.size) (path : AllocPath) :
    (allocate o path).Beside where
  placed := placed_allocate o path
  unread := unread_allocate o path
  relates s := by
    rw [wp_allocate]
    exact ⟨fun _ _ => .alike (.refl s), fun _ _ ha => .alloc ho hsize ha⟩

theorem beside_raiseWith (tag : Word) (args : List Word) : (raiseWith tag args : Act α).Beside := by
  refine (beside_require id _).bind fun _ =>
    (beside_allocate (o := .block 0 (tag :: args)) (by simp) (Nat.succ_pos _) _).bind fun r => ?_
  split
  · exact beside_raise _
  · exact beside_raiseExn _

theorem beside_raiseText (tag : Word) (x : String) : (raiseText tag x : Act α).Beside := by
  refine (beside_allocate (o := .text x) (by simp) (Nat.succ_pos _) _).bind fun r => ?_
  split
  · exact beside_raiseWith _ _
  · exact beside_raiseExn _

theorem beside_raiseFailure (f : Failure) : (raiseFailure f : Act α).Beside := by
  cases f with
  | outOfMemory => exact beside_raiseExn _
  | stackOverflow r l => exact (beside_note rfl).bind fun _ => beside_raiseExn _
  | invalidArgument x => exact (beside_exception _).bind fun _ => beside_raiseText _ x

theorem beside_orRaise (r : Except Failure α) : (orRaise r).Beside := by
  cases r with
  | ok a => exact beside_pure a
  | error f => exact beside_raiseFailure f

theorem beside_enterRegion : enterRegion.Beside :=
  beside_domain.bind fun _ =>
    (beside_modifyDomain fun _ => alike_of_eq rfl rfl rfl rfl rfl rfl).bind fun _ => beside_pure _

theorem beside_leaveRegion (depth : Nat) : (leaveRegion depth).Beside :=
  beside_domain.bind fun _ => (beside_require id _).bind fun _ =>
    beside_modifyDomain fun _ => alike_of_eq rfl rfl rfl rfl rfl rfl

theorem beside_takePending : takePending.Beside := by
  refine beside_domain.bind fun d => ?_
  split
  · exact beside_fault id
  · exact (beside_modifyDomain fun _ => alike_of_eq rfl rfl rfl rfl rfl rfl).bind fun _ => beside_pure _

/-! ### Raising does not return -/

/-- The action does not return. -/
def Stops (a : Act α) : Prop := ∀ s, a.wp s (fun _ _ => False) fun _ _ => True

theorem stops_bind {a : Act β} {f : β → Act α} (hf : ∀ x, (f x).Stops) : (a >>= f).Stops := by
  intro s
  rw [wp_bind]
  unfold wp
  rcases a s with ⟨_ | x, t⟩
  · trivial
  · exact hf x t

theorem stops_raise (w : Word) : (raise w : Act α).Stops := by
  refine stops_bind fun _ => stops_bind fun d => ?_
  split
  · exact stops_bind fun _ => stops_bind fun _ _ => trivial
  · exact stops_bind fun _ _ => trivial

theorem stops_raiseExn (e : Exn) : (raiseExn e : Act α).Stops := stops_bind fun _ => stops_raise _

theorem stops_raiseWith (tag : Word) (args : List Word) : (raiseWith tag args : Act α).Stops := by
  refine stops_bind fun _ => stops_bind fun r => ?_
  split
  · exact stops_raise _
  · exact stops_raiseExn _

theorem stops_raiseFailure (f : Failure) : (raiseFailure f : Act α).Stops := by
  cases f with
  | outOfMemory => exact stops_raiseExn _
  | stackOverflow r l => exact stops_bind fun _ => stops_raiseExn _
  | invalidArgument x =>
    refine stops_bind fun _ => stops_bind fun r => ?_
    split
    · exact stops_raiseWith _ _
    · exact stops_raiseExn _

/-! ### Relations -/

/-- **A relation that holds of everything beside the stacks.** -/
structure Bookkeeping (R : Active → Active → Prop) : Prop where
  trans : ∀ {s t u}, R s t → R t u → R s u
  of_alike : ∀ {s t}, Alike s t → R s t
  alloc : ∀ {s : Active} {o : Object} {path : AllocPath} {b : BlockId} {h : Heap}, (∀ x, o ≠ .stack x) → 0 < o.size →
    s.world.heap.alloc o path = .ok (b, h) → R s { s with world := s.world.adopt h }

namespace Bookkeeping

variable {R : Active → Active → Prop}

theorem of_sameStacks (hR : Bookkeeping R) (h : SameStacks s t) : R s t := by
  induction h with
  | alike h => exact hR.of_alike h
  | alloc ho hsize ha => exact hR.alloc ho hsize ha
  | trans _ _ ih₁ ih₂ => exact hR.trans ih₁ ih₂

theorem relates (hR : Bookkeeping R) {a : Act α} (ha : a.Beside) : a.Relates R := ha.relates.mono hR.of_sameStacks

theorem noteSize (hR : Bookkeeping R) (entry : Nat → Notice) (words : Nat) : (noteSize entry words).Relates R :=
  (relates_noteSize entry words).mono hR.of_sameStacks

theorem bind (hR : Bookkeeping R) {a : Act β} {f : β → Act α} (ha : a.Relates R) (hf : ∀ x, (f x).Relates R) :
    (a >>= f).Relates R :=
  Relates.bind (R := R) hR.trans ha hf

theorem wp_of (hR : Bookkeeping R) {a : Act α} (ha : a.Relates R) (h : R s t) :
    a.wp t (fun _ u => R s u) fun _ u => R s u :=
  wp_mono (ha t) (fun _ _ hu => hR.trans h hu) fun _ _ hu => hR.trans h hu

end Bookkeeping

end Act

end FiberStacks
