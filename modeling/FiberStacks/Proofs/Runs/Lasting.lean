import FiberStacks.Proofs.Barrier.Protocol
import FiberStacks.Proofs.Chains.Resume

/-!
# What lasts in a heap

Stacks are allocated, written to, linked, marked and replaced, but only freeing one takes it away, and none ever changes
its capacity.  A capsule changes its state when it is filled or spent, and not otherwise.

* `Heap.InOrder` — a heap that came about within its budget and has marks on old stacks only;
* `Heap.Lasts` — **the live stacks keep their capacities, and the capsules that are not spent their states**;
* `lasts_of_get?` — so it is where no block of before was touched;
* `lasts_setStack`, `lasts_setCapsule`, `lasts_alloc` — the single changes;
* `lasts_relink`, `lasts_reverseWithin`, `lasts_cloneChain`, `lasts_createTable` — and those made of them.
-/

namespace FiberStacks

namespace Heap

variable {h h' h'' : Heap} {b k : BlockId} {x y : Segment} {o : Object} {c c' : Capsule} {path : AllocPath}
  {spent spent' : BlockId → Prop}

/-- Only old stacks are marked. -/
def MarksOld (h : Heap) : Prop := ∀ b o, h.owner? b = some o → h.generation? b = some .old

/-- **A heap in order**: it came about within its budget, and only old stacks are marked. -/
structure InOrder (h : Heap) : Prop where
  budgeted : h.Budgeted
  marksOld : h.MarksOld

/-- **What lasts.**  The live stacks are still there, with their capacities, and so are the capsules that are not spent,
with their states. -/
structure Lasts (spent : BlockId → Prop) (h h' : Heap) : Prop where
  inOrder : h'.InOrder
  segments : ∀ b x, h.stack? b = some x → ∃ y, h'.stack? b = some y ∧ y.capacity = x.capacity
  capsules : ∀ k c, ¬ spent k → h.capsule? k = some c → h'.capsule? k = some c

theorem InOrder.freeListed (hh : h.InOrder) : h.FreeListed := hh.budgeted.balanced.toFreeListed

theorem MarksOld.of_loses (hm : h.MarksOld) (hl : h.LosesMarks h') : h'.MarksOld := fun b o hb =>
  (hl.marks b o hb).2 (hm b o (hl.marks b o hb).1)

theorem InOrder.empty {maxWords : Nat} (minorLimit : Nat) (hm : maxWords < 2 ^ 32) :
    (empty maxWords minorLimit).InOrder := by
  refine ⟨.empty minorLimit hm, fun b o hb => ?_⟩
  rw [owner?_of_cell?_eq_none] at hb
  · cases hb
  · rfl

namespace Lasts

theorem refl (hh : h.InOrder) : Lasts spent h h :=
  ⟨hh, fun _ x hx => ⟨x, hx, rfl⟩, fun _ _ _ hk => hk⟩

theorem trans (h₁ : Lasts spent h h') (h₂ : Lasts spent h' h'') : Lasts spent h h'' where
  inOrder := h₂.inOrder
  segments b x hx := by
    obtain ⟨y, hy, hyx⟩ := h₁.segments b x hx
    obtain ⟨z, hz, hzy⟩ := h₂.segments b y hy
    exact ⟨z, hz, hzy.trans hyx⟩
  capsules k c hk hc := h₂.capsules k c hk (h₁.capsules k c hk hc)

theorem mono (hl : Lasts spent h h') (hspent : ∀ k, spent k → spent' k) : Lasts spent' h h' :=
  ⟨hl.inOrder, hl.segments, fun k c hk => hl.capsules k c fun hs => hk (hspent k hs)⟩

end Lasts

/-- **No block of before was touched**, apart from its generation. -/
theorem lasts_of_get? (hh : h'.InOrder) (hget : ∀ b, h.contains b = true → h'.get? b = h.get? b) :
    Lasts spent h h' where
  inOrder := hh
  segments b x hx := by
    have hsame := hget b (contains_of_stack? hx)
    refine ⟨x, ?_, rfl⟩
    rwa [stack?, hsame]
  capsules k c _ hc := by
    have hsame := hget k (contains_iff.2 ⟨_, get?_of_capsule? hc⟩)
    rwa [capsule?, hsame]

/-! ### Single changes -/

/-- **A stack is changed**: it keeps its capacity, and if it is marked it was marked before or is old. -/
theorem lasts_setStack (hh : h.InOrder) (hx : h.stack? b = some x) (hcap : y.capacity = x.capacity)
    (hmark : ∀ o, y.owner = some o → x.owner = some o ∨ h.generation? b = some .old) :
    Lasts spent h (h.setStack b y) where
  inOrder := by
    refine ⟨hh.budgeted.setStack hx (congrArg (· + headerWords) hcap), fun a o ha => ?_⟩
    rw [generation?_setStack]
    by_cases hab : a = b
    · subst hab
      rw [owner?_setStack_self hx] at ha
      rcases hmark o ha with ho | hold
      · exact hh.marksOld a o ((owner?_of_stack? hx).trans ho)
      · exact hold
    · exact hh.marksOld a o (owner?_setStack_of_ne hab ▸ ha)
  segments a z hz := by
    rw [stack?_setStack hx]
    split
    · next hab =>
      subst hab
      obtain rfl := Option.some.inj (hx.symm.trans hz)
      exact ⟨y, rfl, hcap⟩
    · exact ⟨z, hz, rfl⟩
  capsules k c _ hc := (capsule?_setStack hx k).trans hc

theorem lasts_setStack_of_owner (hh : h.InOrder) (hx : h.stack? b = some x) (hcap : y.capacity = x.capacity)
    (howner : y.owner = x.owner) : Lasts spent h (h.setStack b y) :=
  lasts_setStack hh hx hcap fun _ ho => .inl (howner ▸ ho)

/-- **A capsule is changed.** -/
theorem lasts_setCapsule (hh : h.InOrder) (hk : h.capsule? k = some c) (hspent : spent k) :
    Lasts spent h (h.set k (.capsule c')) where
  inOrder := ⟨hh.budgeted.set (get?_of_capsule? hk) rfl,
    hh.marksOld.of_loses (keepsMarks_setCapsule hh.freeListed hk).loses⟩
  segments b x hx := ⟨x, (stack?_setCapsule hk b).trans hx, rfl⟩
  capsules a d ha hd := by
    have hne : a ≠ k := fun he => ha (he ▸ hspent)
    unfold capsule?
    rw [get?_set, if_neg hne]
    exact hd

theorem capsule?_set_self (hk : h.capsule? k = some c) : (h.set k (.capsule c')).capsule? k = some c' := by
  rw [capsule?, get?_set, if_pos rfl, get?_of_capsule? hk]
  rfl

/-- **A block is allocated** that is charged for and carries no mark. -/
theorem lasts_alloc (hh : h.InOrder) (hsize : 0 < o.size) (ho : o.Unmarked) (ha : h.alloc o path = .ok (b, h')) :
    Lasts spent h h' := by
  obtain ⟨hnew, hcell⟩ := hh.budgeted.balanced.alloc_cell? (.inl hsize) ha
  refine lasts_of_get? ⟨hh.budgeted.alloc (.inl hsize) ha, hh.marksOld.of_loses ?_⟩ fun a hlive => ?_
  · exact (keepsMarks_alloc hh.freeListed ho ha).loses
  · have hne : a ≠ b := by
      rintro rfl
      simp [contains, hnew] at hlive
    exact get?_congr (by rw [hcell, if_neg hne])

theorem lasts_promote (hh : h.InOrder) (b : BlockId) : Lasts spent h (h.promote b) := by
  refine lasts_of_get? ⟨hh.budgeted.promote b, hh.marksOld.of_loses (losesMarks_promote hh.freeListed b)⟩ fun a _ => ?_
  rw [get?, cell?_promote]
  split
  · next hab =>
    subst hab
    rw [Option.map_map]
    rfl
  · rfl

theorem lasts_markReady (hh : h.InOrder) : Lasts spent h h.markReady :=
  lasts_of_get? ⟨hh.budgeted.markReady, hh.marksOld.of_loses (losesMarks_markReady hh.freeListed)⟩ fun _ _ => rfl

theorem inOrder_discard (hh : h.InOrder) (b : BlockId) : (h.discard b).InOrder :=
  ⟨hh.budgeted.discard b, hh.marksOld.of_loses (losesMarks_discard hh.freeListed b)⟩

theorem get?_discard_of_ne {a : BlockId} (hab : a ≠ b) : (h.discard b).get? a = h.get? a :=
  get?_congr (by rw [cell?_discard, if_neg hab])

/-! ### Capsules -/

theorem mapError_eq_ok_iff {ε ε' α : Type} {e : Except ε α} {f : ε → ε'} {a : α} :
    e.mapError f = .ok a ↔ e = .ok a := by
  cases e <;> simp [Except.mapError]

/-- **A stack is captured** in a new capsule. -/
theorem capture_eq_ok_iff {head : BlockId} : h.capture head = .ok (k, h') ↔
    (∃ x, h.stack? head = some x) ∧ h.alloc (.capsule (.full head)) .normal = .ok (k, h') := by
  unfold capture
  cases h.stack? head with
  | none => simp
  | some x => exact mapError_eq_ok_iff.trans (by simp)

/-- **The head of a full capsule is taken.** -/
theorem takeHead_eq_ok_iff {head : BlockId} : h.takeHead k = .ok (head, h') ↔
    h.capsule? k = some (.full head) ∧ h' = h.set k (.capsule .taken) := by
  refine ⟨fun ht => ?_, fun h => h.2 ▸ takeHead_of_full h.1⟩
  have hk := fullHead_eq_ok_iff.1 (Act.takeHead_eq_ok ht).1
  obtain ⟨-, rfl⟩ := Prod.mk.inj (Except.ok.inj (ht.symm.trans (takeHead_of_full hk)))
  exact ⟨hk, rfl⟩

/-! ### Chains -/

theorem lasts_relink {p : Option BlockId} (hh : h.InOrder) (hr : h.relink b p = .ok h') : Lasts spent h h' := by
  obtain ⟨s, hs, rfl⟩ := relink_eq_ok hr
  exact lasts_setStack_of_owner hh hs rfl rfl

theorem lasts_reverseWithin {stack : BlockId} : ∀ {n : Nat} {h h' : Heap} {p last : BlockId} {next : Option BlockId},
    h.InOrder → reverseWithin stack n h p next = .ok (last, h') → Lasts spent h h' := by
  intro n
  induction n with
  | zero =>
    intro h h' p last next hh hr
    cases next with
    | none =>
      obtain ⟨-, rfl⟩ := Prod.mk.inj (Except.ok.inj hr)
      exact .refl hh
    | some b => cases hr
  | succ n ih =>
    intro h h' p last next hh hr
    cases next with
    | none =>
      obtain ⟨-, rfl⟩ := Prod.mk.inj (Except.ok.inj hr)
      exact .refl hh
    | some b =>
      obtain ⟨s, hs, hr⟩ := bind_eq_ok_iff.1 hr
      have hset : Lasts spent h (h.setStack b (s.setParent (some p))) :=
        lasts_setStack_of_owner hh (stack_eq_ok_iff.1 hs) rfl rfl
      exact hset.trans (ih hset.inOrder hr)

/-- **A clone** touches nothing of before, whether it succeeds or not. -/
theorem lasts_cloneChain {r : Except Failure BlockId} (hh : h.InOrder) (hr : h.cloneChain k = .ok (r, h')) :
    Lasts spent h h' := by
  have hmarks : h'.MarksOld := hh.marksOld.of_loses (marks_cloneChain hh.freeListed hr).1
  cases r with
  | error e =>
    obtain ⟨_, -, he⟩ | ⟨head, l, hk, hl⟩ := cloneChain_eq_ok hr
    · obtain ⟨-, rfl⟩ := Prod.mk.inj he
      exact lasts_of_get? ⟨hh.budgeted, hmarks⟩ fun _ _ => rfl
    · obtain ⟨k', h₁, copies, h₂, hok, -⟩ | ⟨h₁, herr, -, hb, hcell⟩ := cloneChain_paid hh.budgeted hk hl
      · cases (Prod.mk.inj (Except.ok.inj (hr.symm.trans hok))).1
      · obtain ⟨-, rfl⟩ := Prod.mk.inj (Except.ok.inj (hr.symm.trans herr))
        exact lasts_of_get? ⟨hb, hmarks⟩ fun b _ => get?_congr (hcell b)
  | ok k' =>
    obtain ⟨head, l, copies, h₁, -, -, hclone, -, -, hb⟩ := cloneChain_clone hh.budgeted hr
    exact lasts_of_get? ⟨hb, hmarks⟩ fun b hc => get?_congr (hclone.cell?_of_contains hc)

theorem cloneChain_fresh {k' : BlockId} (hh : h.InOrder) (hr : h.cloneChain k = .ok (.ok k', h')) :
    h.contains k' = false ∧ ∃ head, h'.capsule? k' = some (.full head) := by
  obtain ⟨head, l, copies, h₁, -, -, hclone, -⟩ := cloneChain_clone hh.budgeted hr
  obtain ⟨head', -, hfull⟩ := hclone.capsule?_clone
  exact ⟨hclone.contains_fresh k' List.mem_cons_self, head', hfull⟩

end Heap

/-! ### The table of exceptions -/

open Heap

variable {spent : BlockId → Prop}

theorem lasts_allocate {w w' : World} {o : Object} {path : AllocPath} {b : BlockId} (hh : w.heap.InOrder)
    (hsize : 0 < o.size) (ho : o.Unmarked) (ha : w.allocate o path = .ok (b, w')) : Lasts spent w.heap w'.heap := by
  unfold World.allocate at ha
  rcases hr : w.heap.alloc o path with e | ⟨c, h'⟩
  · simp [hr, Except.map] at ha
  · rw [hr] at ha
    obtain ⟨rfl, rfl⟩ := Prod.mk.inj (Except.ok.inj ha)
    exact lasts_alloc hh hsize ho hr

theorem lasts_allocateIdentifiers (es : List Exn) : ∀ (w : World) (place : Nat), w.heap.InOrder →
    Lasts spent w.heap (w.allocateIdentifiers place es).2.heap := by
  induction es with
  | nil => exact fun w place hh => .refl hh
  | cons e es ih =>
    intro w place hh
    unfold World.allocateIdentifiers
    split
    · exact .refl hh
    · next name w₁ h₁ =>
      have hname : Lasts spent w.heap w₁.heap :=
        lasts_allocate (o := .text e.name) hh (Nat.succ_pos _) (Object.unmarked_of_ne (by simp)) h₁
      split
      · exact hname
      · next b w₂ h₂ =>
        have hid : Lasts spent w₁.heap w₂.heap :=
          lasts_allocate (o := World.identifier name place) hname.inOrder (Nat.succ_pos _)
            (Object.unmarked_of_ne (by simp [World.identifier])) h₂
        have hall := (hname.trans hid).trans (ih w₂ (place + 1) hid.inOrder)
        split <;> next heq => rw [heq] at hall; exact hall

theorem lasts_createTable {w : World} (hh : w.heap.InOrder) : Lasts spent w.heap w.createTable.2.heap := by
  unfold World.createTable
  split
  · exact .refl hh
  · have hall : Lasts spent w.heap _ := lasts_allocateIdentifiers Exn.all w 0 hh
    split <;> next heq => rw [heq] at hall; exact hall

end FiberStacks
