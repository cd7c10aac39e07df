import FiberStacks.Proofs.Chains.Stacks
import FiberStacks.Proofs.Locks.Above
import FiberStacks.Proofs.Runs.Lasting
import FiberStacks.Proofs.Runs.Raising

/-!
# What a protected raise yields

A raise right inside a protected region has nothing to unwind: the region hands back what was raised, and the domain is
as it was.  So what a member of the raise family yields is what it allocates, or the identifier of `Out_of_memory`,
which no block allocated after the table can be taken for.

* `Act.protect_raise` — **a raise in a region of its own**;
* `Act.raiseWith_apply`, `Act.raiseText_apply` — the raise a call comes down to;
* `Heap.Payload` — a new block with an identifier and arguments;
* `World.Tabled`, `Tabled.identifier_inj` — **the table of identifiers**, which are thirteen different blocks;
* `Act.protect_delivers` — **the payload or `Out_of_memory`**, exactly as the budget allows.
-/

namespace FiberStacks

open FiberStacks.Action

variable {α : Type} {s : Active} {ws : List Word} {h h' : Heap} {w w' : World} {b n : BlockId} {bucket tag : Word}
  {args : List Word}

/-! ### A raise in a region of its own -/

theorem LocalFrames.unwind_self (f : LocalFrames) : f.unwind f.depth f.innermost.ledger.size = ([], f) := by
  refine Prod.ext ?_ (above_self (P := fun _ => True) f).unwind_eq
  simp [unwind, Ledger.cut, Ledger.size]

/-- The domain with nothing pending, in another world. -/
def Active.after (s : Active) (w : World) : Active := ⟨{ s.domain with pending := none }, w⟩

namespace Act

theorem raise_entered (s : Active) (w : World) (bucket : Word) : (raise bucket : Act α) { s.entered with world := w } =
    (.error .raised, ⟨{ s.entered.domain with pending := some bucket }, w⟩) := by
  have hraise : (raise bucket : Act α).wp { s.entered with world := w } (fun _ _ => False)
      fun e t => e = .raised ∧ t = ⟨{ s.entered.domain with pending := some bucket }, w⟩ := by
    unfold raise unwindTo
    simp only [wp_bind, wp_modifyDomain, wp_domain, Active.entered, Domain.enterRegion, LocalFrames.unwind_self,
      List.map_nil]
    exact wp_unlockAll w.locks rfl ⟨rfl, rfl⟩
  obtain ⟨e, t, hrun, rfl, rfl⟩ := exists_error_of_wp hraise
  exact hrun

/-- **A raise in a region of its own** is handed back, and the domain is as it was, with nothing pending. -/
theorem protect_raise {body : Act α} (hbody : body s.entered = raise bucket { s.entered with world := w }) :
    protect body s = (.ok (.error bucket), s.after w) :=
  protect_of_raised (hbody.trans (raise_entered s w bucket)) rfl rfl

theorem protect_of_entered {body body' : Act α}
    (hbody : body s.entered = body' ({ s with world := w } : Active).entered) :
    protect body s = protect body' { s with world := w } := by
  have hattempt : (attempt body : Act (Except Stop α)) s.entered =
      attempt body' ({ s with world := w } : Active).entered := by
    rw [attempt, hbody]
    rfl
  unfold protect
  rw [bind_of_ok (show enterRegion s = (.ok s.domain.handlers.length, s.entered) from rfl),
    bind_of_ok (show enterRegion { s with world := w } =
      (.ok s.domain.handlers.length, ({ s with world := w } : Active).entered) from rfl), bind_apply, hattempt]
  rfl

/-! ### What is raised -/

theorem raiseExn_apply (e : Exn) (htable : s.world.table = some ws) (hready : s.domain.ready = true) :
    (raiseExn e : Act α) s = raise (e.identifier ws) s := by
  have hexn : exception e s = (.ok (e.identifier ws), s) := by
    have hwp := (wp_exception_iff (Q := fun w t => w = e.identifier ws ∧ t = s) (E := fun _ _ => False) e htable
      hready).2 ⟨rfl, rfl⟩
    obtain ⟨_, _, hrun, rfl, rfl⟩ := exists_of_wp hwp
    exact hrun
  exact bind_of_ok hexn

theorem allocate_of_ok {o : Object} {path : AllocPath} (ha : s.world.heap.alloc o path = .ok (b, h)) :
    allocate o path s = (.ok (.ok b), { s with world := s.world.adopt h }) := by
  unfold allocate World.allocate
  rw [ha]
  rfl

theorem allocate_of_error {o : Object} {path : AllocPath} {e : AllocError} (ha : s.world.heap.alloc o path = .error e) :
    allocate o path s = (.ok (.error e), s) := by
  unfold allocate World.allocate
  rw [ha]
  rfl

theorem raiseWith_apply (tag : Word) (hargs : args.length ≤ 255) : (raiseWith tag args : Act α) s =
    match s.world.heap.alloc (.block 0 (tag :: args)) .normal with
    | .ok (b, h) => raise (.ofBlock b) { s with world := s.world.adopt h }
    | .error _ => raiseExn .outOfMemory s := by
  have hfits : 1 + args.length ≤ maxYoungWords := by
    unfold maxYoungWords
    omega
  unfold raiseWith require
  rw [if_pos hfits, bind_of_ok (show (pure () : Act Unit) s = (.ok (), s) from rfl)]
  rcases ha : s.world.heap.alloc (.block 0 (tag :: args)) .normal with e | ⟨b, h⟩
  · exact bind_of_ok (allocate_of_error ha)
  · exact bind_of_ok (allocate_of_ok ha)

theorem raiseText_apply (tag : Word) (x : String) : (raiseText tag x : Act α) s =
    match s.world.heap.alloc (.text x) .normal with
    | .ok (n, h) => raiseWith tag [.ofBlock n] { s with world := s.world.adopt h }
    | .error _ => raiseExn .outOfMemory s := by
  unfold raiseText
  rcases ha : s.world.heap.alloc (.text x) .normal with e | ⟨b, h⟩
  · exact bind_of_ok (allocate_of_error ha)
  · exact bind_of_ok (allocate_of_ok ha)

end Act

/-! ### The payload -/

namespace Heap

def Spares (h h' : Heap) : Prop := ∀ b, h.contains b = true → h'.cell? b = h.cell? b

/-- **The payload of an exception**: a new block of tag zero, with the identifier and the arguments. -/
def Payload (h : Heap) (bucket tag : Word) (args : List Word) (h' : Heap) : Prop :=
  ∃ b, bucket = .ofBlock b ∧ h.contains b = false ∧ h'.get? b = some (.block 0 (tag :: args)) ∧
    h'.exceptionTag bucket = tag

theorem Spares.refl (h : Heap) : h.Spares h := fun _ _ => rfl

theorem Spares.contains (hs : h.Spares h') (hb : h.contains b = true) : h'.contains b = true := by
  rw [Heap.contains, hs b hb]
  exact hb

theorem Spares.fresh (hs : h.Spares h') (hb : h'.contains b = false) : h.contains b = false := by
  by_contra hlive
  rw [Bool.not_eq_false] at hlive
  simp [hs.contains hlive] at hb

theorem Spares.trans {h'' : Heap} (h₁ : h.Spares h') (h₂ : h'.Spares h'') : h.Spares h'' := fun b hb =>
  (h₂ b (h₁.contains hb)).trans (h₁ b hb)

theorem exceptionTag_of_get? (hb : h.get? b = some (.block 0 (tag :: args))) : h.exceptionTag (.ofBlock b) = tag := by
  simp [exceptionTag, bucketFields?, Word.block?_ofBlock, tag?, fields?, hb]

/-- **An allocation** spares all blocks of before and has a new one. -/
theorem Balanced.alloc_spares {o : Object} {path : AllocPath} (hb : h.Balanced) (ho : 0 < o.size)
    (ha : h.alloc o path = .ok (b, h')) : h.Spares h' ∧ h.contains b = false ∧ h'.get? b = some o := by
  obtain ⟨hnew, hcell⟩ := hb.alloc_cell? (.inl ho) ha
  refine ⟨fun c hc => ?_, by rw [contains, hnew]; rfl, by rw [get?, hcell, if_pos rfl]; rfl⟩
  have hne : c ≠ b := by
    rintro rfl
    simp [contains, hnew] at hc
  rw [hcell, if_neg hne]

theorem Payload.of_spares {h₀ : Heap} (hp : h.Payload bucket tag args h') (hs : h₀.Spares h) :
    h₀.Payload bucket tag args h' := by
  obtain ⟨b, hbucket, hnew, hget, htag⟩ := hp
  exact ⟨b, hbucket, hs.fresh hnew, hget, htag⟩

end Heap

/-! ### The table -/

namespace World

theorem allocate_eq_ok {o : Object} {path : AllocPath} (ha : w.allocate o path = .ok (b, w')) :
    ∃ h', w.heap.alloc o path = .ok (b, h') ∧ w' = w.adopt h' := by
  unfold allocate at ha
  rcases hr : w.heap.alloc o path with e | ⟨c, h'⟩
  · simp [hr, Except.map] at ha
  · rw [hr] at ha
    obtain ⟨rfl, rfl⟩ := Prod.mk.inj (Except.ok.inj ha)
    exact ⟨h', rfl, rfl⟩

/-- **The blocks of a table of identifiers** are new and all different. -/
theorem allocateIdentifiers_blocks (es : List Exn) : ∀ {w w' : World} {place : Nat} {ws : List Word},
    w.heap.Balanced → w.allocateIdentifiers place es = (.ok ws, w') →
      w.heap.Spares w'.heap ∧ ∃ bs : List BlockId, ws = bs.map .ofBlock ∧ bs.length = es.length ∧ bs.Nodup ∧
        ∀ b ∈ bs, w.heap.contains b = false ∧ w'.heap.contains b = true := by
  induction es with
  | nil =>
    intro w w' place ws hb hr
    obtain ⟨hws, rfl⟩ := Prod.mk.inj hr
    exact ⟨.refl _, [], (Except.ok.inj hws).symm, rfl, List.nodup_nil, fun b hb => absurd hb List.not_mem_nil⟩
  | cons e es ih =>
    intro w w' place ws hb hr
    unfold allocateIdentifiers at hr
    split at hr
    · cases hr
    · next name w₁ htext =>
      obtain ⟨h₁, ha₁, rfl⟩ := allocate_eq_ok htext
      have hpos₁ : 0 < (Object.text e.name).size := Nat.succ_pos _
      have hb₁ := hb.alloc (.inl hpos₁) ha₁
      obtain ⟨hs₁, -, -⟩ := hb.alloc_spares hpos₁ ha₁
      split at hr
      · cases hr
      · next b w₂ hid =>
        obtain ⟨h₂, ha₂, rfl⟩ := allocate_eq_ok hid
        have hpos₂ : 0 < (identifier name place).size := Nat.succ_pos 1
        have hb₂ := hb₁.alloc (.inl hpos₂) ha₂
        obtain ⟨hs₂, hnew, hget⟩ := hb₁.alloc_spares hpos₂ ha₂
        split at hr
        · next ws' w₃ hrest =>
          obtain ⟨hws, rfl⟩ := Prod.mk.inj hr
          obtain rfl := Except.ok.inj hws
          obtain ⟨hs₃, bs, rfl, hlen, hnodup, hbs⟩ := ih hb₂ hrest
          have hs : w.heap.Spares h₂ := hs₁.trans hs₂
          have hlive : h₂.contains b = true := Heap.contains_iff.2 ⟨_, hget⟩
          refine ⟨hs.trans hs₃, b :: bs, rfl, congrArg (· + 1) hlen, List.nodup_cons.2 ⟨fun hmem => ?_, hnodup⟩, ?_⟩
          · exact absurd (hbs b hmem).1 (by simp [hlive])
          · intro c hc
            rcases List.mem_cons.1 hc with rfl | hc
            · exact ⟨hs₁.fresh hnew, hs₃.contains hlive⟩
            · exact ⟨hs.fresh (hbs c hc).1, (hbs c hc).2⟩
        · cases hr

/-- **A world with its table of identifiers**: start-up made it in a heap within its budget, and its blocks are live in
the heap as it is, which is within its budget too. -/
structure Tabled (w : World) (ws : List Word) : Prop where
  table : w.table = some ws
  heap : w.heap.Budgeted
  created : ∃ w₀ w₁ : World, w₀.heap.Budgeted ∧ w₀.table = none ∧ w₀.createTable = (.ok (), w₁) ∧ w₁.table = some ws
  live : ∀ e b, Exn.identifier ws e = .ofBlock b → w.heap.contains b = true

namespace Tabled

/-- The identifiers are as many different blocks as there are exceptions. -/
theorem blocks (ht : w.Tabled ws) : ∃ bs : List BlockId, ws = bs.map .ofBlock ∧ bs.length = 13 ∧ bs.Nodup := by
  obtain ⟨w₀, w₁, hb, hnone, hcreate, hws⟩ := ht.created
  unfold createTable at hcreate
  rw [hnone] at hcreate
  simp only at hcreate
  split at hcreate
  · cases hcreate
  · next ws' w₂ hids =>
    obtain ⟨-, rfl⟩ := Prod.mk.inj hcreate
    obtain rfl := Option.some.inj hws
    obtain ⟨-, bs, hmap, hlen, hnodup, -⟩ := allocateIdentifiers_blocks Exn.all hb.balanced hids
    exact ⟨bs, hmap, hlen, hnodup⟩

/-- **The identifiers are pairwise different**, and live. -/
theorem identifier_eq (ht : w.Tabled ws) : ∃ f : Exn → BlockId, Function.Injective f ∧
    ∀ e, Exn.identifier ws e = .ofBlock (f e) ∧ w.heap.contains (f e) = true := by
  obtain ⟨bs, rfl, hlen, hnodup⟩ := ht.blocks
  have hindex : ∀ e : Exn, e.index < bs.length := fun e => by
    rw [hlen]
    cases e <;> decide
  have hid : ∀ e, Exn.identifier (bs.map .ofBlock) e = .ofBlock (bs.get ⟨e.index, hindex e⟩) := fun e => by
    simp [Exn.identifier, hindex e]
  refine ⟨fun e => bs.get ⟨e.index, hindex e⟩, fun e e' he => ?_, fun e => ⟨hid e, ht.live e _ (hid e)⟩⟩
  have hsame : e.index = e'.index := Fin.mk.inj (List.nodup_iff_injective_get.1 hnodup he)
  have hlookup := Exn.all_getElem?_index e
  rw [hsame, Exn.all_getElem?_index e'] at hlookup
  exact (Option.some.inj hlookup).symm

theorem identifier_inj (ht : w.Tabled ws) {e e' : Exn} (he : e.identifier ws = e'.identifier ws) : e = e' := by
  obtain ⟨f, hinj, hid⟩ := ht.identifier_eq
  rw [(hid e).1, (hid e').1] at he
  exact hinj (Word.ofBlock_inj he)

/-- The blocks of the table are spared. -/
theorem adopt (ht : w.Tabled ws) (hs : w.heap.Spares h) (hb : h.Budgeted) : (w.adopt h).Tabled ws where
  table := ht.table
  heap := hb
  created := ht.created
  live e b he := hs.contains (ht.live e b he)

theorem ne_identifier (ht : w.Tabled ws) (hp : w.heap.Payload bucket tag args h') (e : Exn) :
    bucket ≠ e.identifier ws := by
  obtain ⟨b, rfl, hnew, -⟩ := hp
  obtain ⟨f, -, hid⟩ := ht.identifier_eq
  obtain ⟨he, hlive⟩ := hid e
  rw [he]
  intro hsame
  obtain rfl := Word.ofBlock_inj hsame
  simp [hnew] at hlive

end Tabled

end World

/-! ### What a protected raise yields -/

namespace Act

theorem protect_raiseExn (ht : s.world.Tabled ws) (hready : s.domain.ready = true) (e : Exn) :
    protect (raiseExn e : Act α) s = (.ok (.error (e.identifier ws)), s.after s.world) :=
  protect_raise (raiseExn_apply e ht.table hready)

/-- **Arguments**: a block with them, or `Out_of_memory` if it does not fit. -/
theorem protect_raiseWith (ht : s.world.Tabled ws) (hready : s.domain.ready = true) (tag : Word)
    (hargs : args.length ≤ 255) :
    ∃ bucket w', protect (raiseWith tag args : Act α) s = (.ok (.error bucket), s.after w') ∧
      s.world.heap.Spares w'.heap ∧
      if args.length + 1 ≤ s.world.heap.available then s.world.heap.Payload bucket tag args w'.heap
      else bucket = Exn.outOfMemory.identifier ws := by
  have happly := raiseWith_apply (α := α) (s := s.entered) tag hargs
  rcases ha : s.world.heap.alloc (.block 0 (tag :: args)) .normal with e | ⟨b, h⟩
  · rw [show s.entered.world.heap.alloc (.block 0 (tag :: args)) .normal = .error e from ha] at happly
    have hfull : s.world.heap.available < args.length + 1 := (Heap.alloc_eq_error_iff.1 ha).1
    refine ⟨_, s.world, protect_raise (happly.trans (raiseExn_apply .outOfMemory ht.table hready)), .refl _, ?_⟩
    rw [if_neg (Nat.not_le_of_lt hfull)]
  · rw [show s.entered.world.heap.alloc (.block 0 (tag :: args)) .normal = .ok (b, h) from ha] at happly
    have hfits : args.length + 1 ≤ s.world.heap.available := (Heap.alloc_words ha).2.2
    have hpos : 0 < (Object.block 0 (tag :: args)).size := Nat.succ_pos _
    obtain ⟨hspares, hnew, hget⟩ := ht.heap.balanced.alloc_spares hpos ha
    refine ⟨.ofBlock b, s.world.adopt h, protect_raise happly, hspares, ?_⟩
    rw [if_pos hfits]
    exact ⟨b, rfl, hnew, hget, Heap.exceptionTag_of_get? hget⟩

/-- **A text**: a block with it and another one with that, or `Out_of_memory` if they do not both fit. -/
theorem protect_raiseText (ht : s.world.Tabled ws) (hready : s.domain.ready = true) (tag : Word) (x : String) :
    ∃ bucket w', protect (raiseText tag x : Act α) s = (.ok (.error bucket), s.after w') ∧
      s.world.heap.Spares w'.heap ∧
      if (Object.text x).size + 2 ≤ s.world.heap.available then
        ∃ n, s.world.heap.contains n = false ∧ w'.heap.get? n = some (.text x) ∧
          s.world.heap.Payload bucket tag [.ofBlock n] w'.heap
      else bucket = Exn.outOfMemory.identifier ws := by
  have happly := raiseText_apply (α := α) (s := s.entered) tag x
  rcases ha : s.world.heap.alloc (.text x) .normal with e | ⟨n, h⟩
  · rw [show s.entered.world.heap.alloc (.text x) .normal = .error e from ha] at happly
    have hfull := (Heap.alloc_eq_error_iff.1 ha).1
    refine ⟨_, s.world, protect_raise (happly.trans (raiseExn_apply .outOfMemory ht.table hready)), .refl _, ?_⟩
    rw [if_neg (by omega)]
  · rw [show s.entered.world.heap.alloc (.text x) .normal = .ok (n, h) from ha] at happly
    have hpos : 0 < (Object.text x).size := Nat.succ_pos _
    obtain ⟨hspares, hnew, hget⟩ := ht.heap.balanced.alloc_spares hpos ha
    have hroom : h.available = s.world.heap.available - (Object.text x).size ∧
        (Object.text x).size ≤ s.world.heap.available := by
      obtain ⟨hlive, hmax, hsize⟩ := Heap.alloc_words ha
      unfold Heap.available at hsize ⊢
      omega
    -- what is left to raise is a block with one argument, in the heap with the text
    have ht' : (s.world.adopt h).Tabled ws := ht.adopt hspares (ht.heap.alloc (.inl hpos) ha)
    have hargs : [Word.ofBlock n].length ≤ 255 := Nat.le_add_left 1 254
    obtain ⟨bucket, w', hrun, hspares', hpayload⟩ :=
      protect_raiseWith (s := { s with world := s.world.adopt h }) ht' hready tag hargs
    refine ⟨bucket, w', (protect_of_entered happly).trans hrun, hspares.trans hspares', ?_⟩
    split at hpayload
    · next hfits =>
      have hfits' : 2 ≤ h.available := hfits
      rw [if_pos (by omega)]
      have hlive : h.contains n = true := Heap.contains_iff.2 ⟨_, hget⟩
      exact ⟨n, hnew, (Heap.get?_congr (hspares' n hlive)).trans hget, hpayload.of_spares hspares⟩
    · next hfull =>
      have hfull' : ¬ 2 ≤ h.available := hfull
      rw [if_neg (by omega), hpayload]

/-- **The raise family delivers its payload or `Out_of_memory`**, and nothing else.  In a domain that can raise, with
any budget left, a protected raise returns what was raised, leaves the domain as it was with nothing pending, and
changes no block that was live.

With arguments, what was raised is a new block of the identifier and the arguments if it fits, and the identifier of
`Out_of_memory` otherwise; with a text it is such a block with a new block of the text, if both fit.  The identifiers
are pairwise different, no payload is one of them, and each is delivered whatever the budget is. -/
theorem protect_delivers (ht : s.world.Tabled ws) (hready : s.domain.ready = true) :
    (∀ (tag : Word) (args : List Word), args.length ≤ 255 →
      ∃ bucket w', protect (raiseWith tag args : Act α) s = (.ok (.error bucket), s.after w') ∧
        s.world.heap.Spares w'.heap ∧
        if args.length + 1 ≤ s.world.heap.available then s.world.heap.Payload bucket tag args w'.heap
        else bucket = Exn.outOfMemory.identifier ws) ∧
    (∀ (tag : Word) (x : String),
      ∃ bucket w', protect (raiseText tag x : Act α) s = (.ok (.error bucket), s.after w') ∧
        s.world.heap.Spares w'.heap ∧
        if (Object.text x).size + 2 ≤ s.world.heap.available then
          ∃ n, s.world.heap.contains n = false ∧ w'.heap.get? n = some (.text x) ∧
            s.world.heap.Payload bucket tag [.ofBlock n] w'.heap
        else bucket = Exn.outOfMemory.identifier ws) ∧
    (∀ e e', Exn.identifier ws e = Exn.identifier ws e' → e = e') ∧
    (∀ bucket tag args h' e, s.world.heap.Payload bucket tag args h' → bucket ≠ Exn.identifier ws e) ∧
    ∀ e, protect (raiseExn e : Act α) s = (.ok (.error (e.identifier ws)), s.after s.world) :=
  ⟨fun tag _ hargs => protect_raiseWith ht hready tag hargs, fun tag x => protect_raiseText ht hready tag x,
    fun _ _ he => ht.identifier_inj he, fun _ _ _ _ e hp => ht.ne_identifier hp e,
    fun e => protect_raiseExn ht hready e⟩

/-- The world after start-up, with so many words in all. -/
def worldOf (maxWords : Nat) : World := .initial {} .bytecode (.empty maxWords 100)

/-- The table takes fifty-five words of fifty-eight, and the domain is inside a protected region. -/
def threeLeft : Active :=
  ⟨{ Domain.fresh ⟨1⟩ 400 with ready := true, handlers := [⟨1, 0, 0⟩] }, (worldOf 58).createTable.2⟩

/-- Every identifier is the block after that of its name. -/
def identifiers : List Word := (List.range 13).map fun i => .ofBlock (.ofIndex (2 * i + 1))

theorem tabled_threeLeft : threeLeft.world.Tabled identifiers := by
  have htable : threeLeft.world.table = some identifiers := by decide +kernel
  have hcreated : (worldOf 58).createTable.1 = .ok () := by decide +kernel
  have hempty : (worldOf 58).heap.Budgeted := .empty 100 (by decide)
  refine ⟨htable, ?_, ⟨worldOf 58, _, hempty, rfl, Prod.ext hcreated rfl, htable⟩, fun e b he => ?_⟩
  · have hlasts : Heap.Lasts (fun _ => True) (worldOf 58).heap _ := lasts_createTable (.empty 100 (by decide))
    exact hlasts.inOrder.budgeted
  · have hid : e.identifier identifiers = .ofBlock (.ofIndex (2 * e.index + 1)) := by cases e <;> decide +kernel
    obtain rfl := Word.ofBlock_inj (hid.symm.trans he)
    cases e <;> decide +kernel

/-- Two arguments fit, and a short text with its exception; a longer text does not. -/
theorem protect_delivers_threeLeft :
    (∃ bucket w', protect (raiseWith .unit [.unit, .unit] : Act Unit) threeLeft =
      (.ok (.error bucket), threeLeft.after w') ∧
        threeLeft.world.heap.Payload bucket .unit [.unit, .unit] w'.heap) ∧
    (∃ bucket w' n, protect (raiseText .unit "seven" : Act Unit) threeLeft =
      (.ok (.error bucket), threeLeft.after w') ∧ w'.heap.get? n = some (.text "seven") ∧
        threeLeft.world.heap.Payload bucket .unit [.ofBlock n] w'.heap) ∧
    ∃ w', protect (raiseText .unit "twelve words" : Act Unit) threeLeft =
      (.ok (.error (Exn.outOfMemory.identifier identifiers)), threeLeft.after w') := by
  obtain ⟨hwith, htext, -⟩ := protect_delivers (α := Unit) tabled_threeLeft rfl
  obtain ⟨bucket, w', hrun, -, hpayload⟩ := hwith .unit [.unit, .unit] (by decide)
  obtain ⟨bucket₁, w₁, hrun₁, -, hpayload₁⟩ := htext .unit "seven"
  obtain ⟨bucket₂, w₂, hrun₂, -, hpayload₂⟩ := htext .unit "twelve words"
  rw [if_pos (by decide +kernel)] at hpayload hpayload₁
  rw [if_neg (by decide +kernel)] at hpayload₂
  obtain ⟨n, -, hn, hpayload₁⟩ := hpayload₁
  exact ⟨⟨bucket, w', hrun, hpayload⟩, ⟨bucket₁, w₁, n, hrun₁, hn, hpayload₁⟩, w₂, hpayload₂ ▸ hrun₂⟩

end Act

end FiberStacks
