import FiberStacks.Act.Stack

/-!
# Outcomes of actions

`Action.wp a s Q E` says how the action `a` ends when it is run on `s`: a returned value and the state reached then
satisfy `Q`, a cause to stop and the state reached by then satisfy `E`.  The equations below compute it for the
actions all others are made of, so that a statement about a composed action is opened by `simp only`.
-/

namespace FiberStacks

theorem bind_eq_ok_iff {ε α β : Type} {x : Except ε α} {f : α → Except ε β} {b : β} :
    x >>= f = .ok b ↔ ∃ a, x = .ok a ∧ f a = .ok b := by
  cases x with
  | error e => exact iff_of_false (by simp [bind, Except.bind]) (by simp)
  | ok a => exact ⟨fun h => ⟨a, rfl, h⟩, fun ⟨_, h, h'⟩ => Except.ok.inj h ▸ h'⟩

namespace Action

variable {ε σ α β : Type}

/-- **How an action ends**: it returns as `Q` says, or stops as `E` says. -/
def wp (a : Action ε σ α) (s : σ) (Q : α → σ → Prop) (E : ε → σ → Prop) : Prop :=
  match a s with
  | (.ok x, t) => Q x t
  | (.error e, t) => E e t

section Equations

variable {s t : σ} {Q : α → σ → Prop} {E : ε → σ → Prop}

theorem wp_of_ok {a : Action ε σ α} {x : α} (h : a s = (.ok x, t)) : a.wp s Q E ↔ Q x t := by
  unfold wp; rw [h]

theorem wp_of_error {a : Action ε σ α} {e : ε} (h : a s = (.error e, t)) : a.wp s Q E ↔ E e t := by
  unfold wp; rw [h]

theorem wp_congr {a b : Action ε σ α} (h : a s = b t) : a.wp s Q E ↔ b.wp t Q E := by
  unfold wp; rw [h]

@[simp] theorem wp_pure (x : α) : (pure x : Action ε σ α).wp s Q E ↔ Q x s := Iff.rfl

@[simp] theorem wp_bind (a : Action ε σ β) (f : β → Action ε σ α) :
    (a >>= f).wp s Q E ↔ a.wp s (fun y u => (f y).wp u Q E) E := by
  unfold wp
  rw [bind_apply]
  rcases a s with ⟨_ | _, _⟩ <;> rfl

@[simp] theorem wp_map (g : β → α) (a : Action ε σ β) :
    (g <$> a).wp s Q E ↔ a.wp s (fun y u => Q (g y) u) E := by
  rw [← bind_pure_comp, wp_bind]
  rfl

@[simp] theorem wp_state {Q : σ → σ → Prop} : (state : Action ε σ σ).wp s Q E ↔ Q s s := Iff.rfl

@[simp] theorem wp_view (f : σ → α) : (view f : Action ε σ α).wp s Q E ↔ Q (f s) s := Iff.rfl

@[simp] theorem wp_modify {Q : Unit → σ → Prop} (f : σ → σ) :
    (modify f : Action ε σ Unit).wp s Q E ↔ Q () (f s) := Iff.rfl

@[simp] theorem wp_stop (e : ε) : (stop e : Action ε σ α).wp s Q E ↔ E e s := Iff.rfl

@[simp] theorem wp_attempt {ε' : Type} {Q : Except ε α → σ → Prop} {E : ε' → σ → Prop} (a : Action ε σ α) :
    (attempt a : Action ε' σ (Except ε α)).wp s Q E ↔ a.wp s (fun x t => Q (.ok x) t) fun e t => Q (.error e) t := by
  unfold wp attempt
  rcases a s with ⟨_ | _, _⟩ <;> rfl

@[simp] theorem wp_ite (p : Prop) [Decidable p] (a b : Action ε σ α) :
    (if p then a else b).wp s Q E ↔ if p then a.wp s Q E else b.wp s Q E := by
  split <;> rfl

end Equations

theorem wp_mono {a : Action ε σ α} {s : σ} {Q Q' : α → σ → Prop} {E E' : ε → σ → Prop} (h : a.wp s Q E)
    (hQ : ∀ x t, Q x t → Q' x t) (hE : ∀ e t, E e t → E' e t) : a.wp s Q' E' := by
  unfold wp at h ⊢
  rcases ha : a s with ⟨_ | _, _⟩ <;> simp only [ha] at h ⊢
  · exact hE _ _ h
  · exact hQ _ _ h

theorem wp_and {a : Action ε σ α} {s : σ} {Q Q' : α → σ → Prop} {E E' : ε → σ → Prop} (h : a.wp s Q E)
    (h' : a.wp s Q' E') : a.wp s (fun x t => Q x t ∧ Q' x t) (fun e t => E e t ∧ E' e t) := by
  unfold wp at h h' ⊢
  rcases ha : a s with ⟨_ | _, _⟩ <;> simp only [ha] at h h' ⊢ <;> exact ⟨h, h'⟩

theorem wp_of_returns {a : Action ε σ α} {s : σ} {P Q : α → σ → Prop} {E : ε → σ → Prop}
    (h : a.wp s P fun _ _ => False) (hQ : ∀ x t, P x t → Q x t) : a.wp s Q E :=
  wp_mono h hQ fun _ _ hf => hf.elim

theorem wp_of_stops {a : Action ε σ α} {s : σ} {Q : α → σ → Prop} {E F : ε → σ → Prop}
    (h : a.wp s (fun _ _ => False) F) (hE : ∀ e t, F e t → E e t) : a.wp s Q E :=
  wp_mono h (fun _ _ hf => hf.elim) hE

theorem wp_bind_of {a : Action ε σ β} {f : β → Action ε σ α} {s : σ} {P : β → σ → Prop} {Q : α → σ → Prop}
    {E F : ε → σ → Prop} (ha : a.wp s P F) (hf : ∀ y t, P y t → (f y).wp t Q E) (he : ∀ e t, F e t → E e t) :
    (a >>= f).wp s Q E :=
  (wp_bind a f).2 (wp_mono ha hf he)

theorem wp_bind_of_returns {a : Action ε σ β} {f : β → Action ε σ α} {s : σ} {P : β → σ → Prop} {Q : α → σ → Prop}
    {E : ε → σ → Prop} (ha : a.wp s P fun _ _ => False) (hf : ∀ y t, P y t → (f y).wp t Q E) : (a >>= f).wp s Q E :=
  wp_bind_of ha hf fun _ _ hf => hf.elim

theorem exists_error_of_wp {a : Action ε σ α} {s : σ} {E : ε → σ → Prop} (h : a.wp s (fun _ _ => False) E) :
    ∃ e t, a s = (.error e, t) ∧ E e t := by
  unfold wp at h
  rcases ha : a s with ⟨e | _, t⟩ <;> rw [ha] at h
  · exact ⟨e, t, rfl, h⟩
  · exact h.elim

theorem exists_of_wp {a : Action ε σ α} {s : σ} {Q : α → σ → Prop} (h : a.wp s Q fun _ _ => False) :
    ∃ x t, a s = (.ok x, t) ∧ Q x t := by
  unfold wp at h
  rcases ha : a s with ⟨_ | x, t⟩ <;> rw [ha] at h
  · exact h.elim
  · exact ⟨x, t, rfl, h⟩

/-- **However the action ends**, the states before and after it are related. -/
def Relates (a : Action ε σ α) (R : σ → σ → Prop) : Prop := ∀ s, a.wp s (fun _ t => R s t) fun _ t => R s t

theorem relates_iff {a : Action ε σ α} {R : σ → σ → Prop} : a.Relates R ↔ ∀ s, R s (a s).2 := by
  refine forall_congr' fun s => ?_
  unfold wp
  rcases a s with ⟨_ | _, _⟩ <;> rfl

theorem Relates.bind {R : σ → σ → Prop} (hR : ∀ {s t u}, R s t → R t u → R s u) {a : Action ε σ β}
    {f : β → Action ε σ α} (ha : a.Relates R) (hf : ∀ x, (f x).Relates R) : (a >>= f).Relates R := fun s =>
  wp_bind_of (ha s) (fun x t ht => wp_mono (hf x t) (fun _ _ hu => hR ht hu) fun _ _ hu => hR ht hu) fun _ _ h => h

theorem Relates.mono {R R' : σ → σ → Prop} (h : ∀ {s t}, R s t → R' s t) {a : Action ε σ α} (ha : a.Relates R) :
    a.Relates R' := fun s =>
  wp_mono (ha s) (fun _ _ ht => h ht) fun _ _ ht => h ht

end Action

@[simp] theorem World.heap_adopt (w : World) (h : Heap) : (w.adopt h).heap = h := rfl

/-- The figure of an entry about so many words fits in 64 bits, if it is worked out at all. -/
def World.CanNote (w : World) (words : Nat) : Prop := w.verbose = true → words * wordBytes < Size.bound

theorem World.canNote_of_le {w : World} {words : Nat} (h : words ≤ Size.allocatable) : w.CanNote words := fun _ =>
  Nat.lt_of_le_of_lt (Nat.mul_le_mul_right _ h) (by decide)

theorem World.adopt_of_requests {w : World} {h : Heap} (hreq : h.requests = w.heap.requests) :
    w.adopt h = { w with heap := h } := by
  simp [World.adopt, hreq]

@[simp] theorem World.adopt_heap (w : World) : w.adopt w.heap = w := World.adopt_of_requests rfl

theorem World.adopt_setStack (w : World) (b : BlockId) (y : Segment) :
    w.adopt (w.heap.setStack b y) = { w with heap := w.heap.setStack b y } := World.adopt_of_requests rfl

namespace Act

open FiberStacks.Action

variable {α : Type} {s : Active} {Q : α → Active → Prop} {E : Stop → Active → Prop}

theorem wp_iff_snd {a : Act α} {P : Active → Prop} : a.wp s (fun _ t => P t) (fun _ t => P t) ↔ P (a s).2 := by
  unfold wp
  rcases a s with ⟨_ | _, _⟩ <;> rfl

@[simp] theorem wp_domain {Q : Domain → Active → Prop} : domain.wp s Q E ↔ Q s.domain s := Iff.rfl

@[simp] theorem wp_heap {Q : Heap → Active → Prop} : heap.wp s Q E ↔ Q s.world.heap s := Iff.rfl

@[simp] theorem wp_config {Q : Config → Active → Prop} : config.wp s Q E ↔ Q s.world.config s := Iff.rfl

@[simp] theorem wp_layout {Q : Layout → Active → Prop} : layout.wp s Q E ↔ Q s.world.layout s := Iff.rfl

section Units

variable {Q : Unit → Active → Prop}

@[simp] theorem wp_modifyDomain (f : Domain → Domain) :
    (modifyDomain f).wp s Q E ↔ Q () { s with domain := f s.domain } := Iff.rfl

@[simp] theorem wp_modifyWorld (f : World → World) :
    (modifyWorld f).wp s Q E ↔ Q () { s with world := f s.world } := Iff.rfl

@[simp] theorem wp_setHeap (h : Heap) :
    (setHeap h).wp s Q E ↔ Q () { s with world := s.world.adopt h } := Iff.rfl

@[simp] theorem wp_note (n : Notice) : (note n).wp s Q E ↔ Q () { s with world := s.world.note n } := Iff.rfl

@[simp] theorem wp_require (p : Prop) [Decidable p] (f : Fault) :
    (require p f).wp s Q E ↔ (p → Q () s) ∧ (¬ p → E (.fault f) s) := by
  unfold require fault
  split <;> simp_all

end Units

@[simp] theorem wp_fault (f : Fault) : (fault f : Act α).wp s Q E ↔ E (.fault f) s := Iff.rfl

theorem wp_check (x : Except Fault α) :
    (check x).wp s Q E ↔ (∀ a, x = .ok a → Q a s) ∧ ∀ f, x = .error f → E (.fault f) s := by
  cases x <;> simp [check]

@[simp] theorem wp_check_ok (a : α) : (check (.ok a)).wp s Q E ↔ Q a s := Iff.rfl

@[simp] theorem wp_check_error (f : Fault) : (check (.error f : Except Fault α)).wp s Q E ↔ E (.fault f) s := Iff.rfl

theorem wp_check_fit (f : Fault) (n : Nat) {Q : Nat → Active → Prop} : (check (Size.fit f n)).wp s Q E ↔
    (n < Size.bound → Q n s) ∧ (Size.bound ≤ n → E (.fault f) s) := by
  by_cases hn : n < Size.bound
  · simp [Size.fit_of_lt hn, hn, Nat.not_le_of_lt hn]
  · simp [Size.fit_of_le (Nat.le_of_not_lt hn), hn, Nat.le_of_not_lt hn]

@[simp] theorem wp_check_add (a b : Nat) {Q : Nat → Active → Prop} : (check (Size.add a b)).wp s Q E ↔
    (a + b < Size.bound → Q (a + b) s) ∧ (Size.bound ≤ a + b → E (.fault .sumTooLarge) s) := wp_check_fit ..

@[simp] theorem wp_check_double (a : Nat) {Q : Nat → Active → Prop} : (check (Size.double a)).wp s Q E ↔
    (2 * a < Size.bound → Q (2 * a) s) ∧ (Size.bound ≤ 2 * a → E (.fault .productTooLarge) s) := wp_check_fit ..

@[simp] theorem wp_noteSize {entry : Nat → Notice} {words : Nat} {Q : Unit → Active → Prop} :
    (noteSize entry words).wp s Q E ↔ (s.world.CanNote words → Q () { s with world := s.world.note (entry words) }) ∧
      (¬ s.world.CanNote words → E (.fault .productTooLarge) s) := by
  unfold noteSize World.CanNote Size.bytes Size.fit
  simp only [wp_bind, wp_view, wp_ite, wp_note]
  by_cases hv : s.world.verbose = true <;> by_cases hw : words * wordBytes < Size.bound <;> simp [hv, hw]

@[simp] theorem wp_die (x : Fatal) :
    (die x : Act α).wp s Q E ↔ E (.fatal x) { s with world := s.world.note (.processEnded x) } := Iff.rfl

theorem exception_of_ok {e : Exn} {w : Word} (h : s.exception e = .ok w) :
    exception e s = (.ok w, s) := by
  unfold exception
  rw [bind_of_ok (show Action.state s = (.ok s, s) from rfl), h]
  rfl

theorem exception_of_error {e : Exn} {f : BootFault} (h : s.exception e = .error f) :
    exception e s = die (.boot f) s := by
  unfold exception
  rw [bind_of_ok (show Action.state s = (.ok s, s) from rfl), h]

/-! ### Stacks -/

@[simp] theorem wp_stack {b : BlockId} {Q : Segment → Active → Prop} {E : Stop → Active → Prop} :
    (stack b).wp s Q E ↔ (∀ x, s.world.heap.stack? b = some x → Q x s) ∧
      (s.world.heap.stack? b = none → E (.fault (.notStack b)) s) := by
  unfold stack
  simp only [wp_bind, wp_heap, Heap.stack]
  cases s.world.heap.stack? b <;> simp

@[simp] theorem wp_setStack {b : BlockId} {x : Segment} {Q : Unit → Active → Prop} {E : Stop → Active → Prop} :
    (setStack b x).wp s Q E ↔ Q () { s with world := s.world.adopt (s.world.heap.setStack b x) } := Iff.rfl

theorem wp_allocate {o : Object} {path : AllocPath} {Q : Except AllocError BlockId → Active → Prop}
    {E : Stop → Active → Prop} : (allocate o path).wp s Q E ↔
      (∀ e, s.world.heap.alloc o path = .error e → Q (.error e) s) ∧
        ∀ b h, s.world.heap.alloc o path = .ok (b, h) → Q (.ok b) { s with world := s.world.adopt h } := by
  unfold wp allocate World.allocate
  rcases s.world.heap.alloc o path with e | ⟨b, h⟩
  · simp [Except.map]
  · simp only [Except.map, reduceCtorEq, false_implies, implies_true, true_and, Except.ok.injEq, Prod.mk.injEq]
    exact ⟨fun hQ _ _ he => he.1 ▸ he.2 ▸ hQ, fun hQ => hQ b h ⟨rfl, rfl⟩⟩

@[simp] theorem wp_registers {Q : Registers → Active → Prop} {E : Stop → Active → Prop} :
    registers.wp s Q E ↔ (∀ r, s.domain.registers = some r → Q r s) ∧
      (s.domain.registers = none → E (.fault (.noCurrentStack s.domain.id)) s) := by
  unfold registers
  simp only [wp_bind, wp_domain]
  cases s.domain.registers <;> simp

/-! ### Writing back, marking and loading

Whatever else is proved of the three follows from these equations, or from the two rules after them where nothing
depends on why an action faults. -/

/-- **The live stack pointer is written back**, where there is a current stack. -/
theorem wp_syncStack {Q : Unit → Active → Prop} {E : Stop → Active → Prop} : syncStack.wp s Q E ↔
    (s.domain.registers = none → Q () s) ∧ ∀ r, s.domain.registers = some r →
      (∀ x, s.world.heap.stack? r.current = some x →
        (∀ y, x.setPointer r.pointer = .ok y →
          Q () { s with world := s.world.adopt (s.world.heap.setStack r.current y) }) ∧
        ∀ f, x.setPointer r.pointer = .error f → E (.fault f) s) ∧
      (s.world.heap.stack? r.current = none → E (.fault (.notStack r.current)) s) := by
  unfold syncStack
  simp only [wp_bind, wp_domain]
  cases s.domain.registers with
  | none => simp
  | some r => simp [wp_check]

/-- **A stack is marked and queued** if it is old and carries no mark. -/
theorem wp_markDirty {b : BlockId} {Q : Unit → Active → Prop} {E : Stop → Active → Prop} : (markDirty b).wp s Q E ↔
    (s.world.heap.isYoung b = true → Q () s) ∧ (s.world.heap.isYoung b = false →
      (∀ x, s.world.heap.stack? b = some x →
        (x.owner = none → Q () ⟨{ s.domain with remembered := s.domain.remembered.push b },
          s.world.adopt (s.world.heap.setStack b { x with owner := some s.domain.id })⟩) ∧
        (x.owner = some s.domain.id → Q () s) ∧
        ∀ o, x.owner = some o → o ≠ s.domain.id → E (.fault (.foreignMark b o s.domain.id)) s) ∧
      (s.world.heap.stack? b = none → E (.fault (.notStack b)) s)) := by
  unfold markDirty
  simp only [wp_bind, wp_domain, wp_heap, wp_setHeap, wp_modifyDomain]
  cases hyoung : s.world.heap.isYoung b with
  | true =>
    rw [Heap.markDirty, if_pos hyoung, wp_check_ok, World.adopt_heap]
    simp
  | false =>
    cases hx : s.world.heap.stack? b with
    | none =>
      have hgone : s.world.heap.markDirty s.domain.id s.domain.remembered b = .error (.notStack b) := by
        rw [Heap.markDirty, if_neg (by simp [hyoung]), Heap.stack, hx]
        rfl
      rw [hgone, wp_check_error]
      simp
    | some x =>
      rw [Heap.markDirty_eq _ _ hx, hyoung, if_neg Bool.false_ne_true]
      cases ho : x.owner with
      | none => simp [ho]
      | some o =>
        by_cases hod : o = s.domain.id
        · simp [ho, hod]
        · simp [ho, hod]

@[simp] theorem wp_loadStack {b : BlockId} {Q : Unit → Active → Prop} {E : Stop → Active → Prop} :
    (loadStack b).wp s Q E ↔ (∀ x, s.world.heap.stack? b = some x →
        Q () { s with domain := { s.domain with registers := some ⟨b, x.used, x.capacity⟩ } }) ∧
      (s.world.heap.stack? b = none → E (.fault (.notStack b)) s) := by
  unfold loadStack
  simp only [wp_bind, wp_stack, wp_modifyDomain]

theorem wp_syncStack_of {Q : Unit → Active → Prop} {E : Stop → Active → Prop}
    (hnone : s.domain.registers = none → Q () s)
    (hput : ∀ r x y, s.domain.registers = some r → s.world.heap.stack? r.current = some x →
      x.setPointer r.pointer = .ok y → Q () { s with world := s.world.adopt (s.world.heap.setStack r.current y) })
    (hfault : ∀ f, E (.fault f) s) : syncStack.wp s Q E :=
  wp_syncStack.2 ⟨hnone, fun r hr => ⟨fun x hx => ⟨fun y hy => hput r x y hr hx hy, fun _ _ => hfault _⟩,
    fun _ => hfault _⟩⟩

theorem wp_markDirty_of {b : BlockId} {Q : Unit → Active → Prop} {E : Stop → Active → Prop} (hsame : Q () s)
    (hmark : ∀ x, s.world.heap.isYoung b = false → s.world.heap.stack? b = some x → x.owner = none →
      Q () ⟨{ s.domain with remembered := s.domain.remembered.push b },
        s.world.adopt (s.world.heap.setStack b { x with owner := some s.domain.id })⟩)
    (hfault : ∀ f, E (.fault f) s) : (markDirty b).wp s Q E :=
  wp_markDirty.2 ⟨fun _ => hsame, fun hold => ⟨fun x hx => ⟨hmark x hold hx, fun _ => hsame, fun _ _ _ => hfault _⟩,
    fun _ => hfault _⟩⟩

end Act

end FiberStacks
