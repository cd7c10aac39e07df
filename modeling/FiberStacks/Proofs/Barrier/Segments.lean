import FiberStacks.Act.Stack
import FiberStacks.Proofs.Chains.Stacks
import FiberStacks.Proofs.Outcome

/-!
# What segments refer to

* `Segment.references` — **the blocks a stack refers to**, by its handlers, its parent link and its used words;
* `Segment.Replaces` — the copy that growth makes;
* `Segment.Bare` — a new segment, which refers to what its handlers name.
-/

namespace FiberStacks

namespace Segment

variable {s t : Segment} {c : BlockId} {n : Nat} {hs : Handlers}

/-- What a stack refers to apart from its parent: the blocks in its handlers and its used words. -/
def held (s : Segment) : List BlockId :=
  ([s.handlers.value, s.handlers.exception, s.handlers.effect] ++ s.usedRegion).filterMap Word.block?

/-- **The blocks a stack refers to**, by its handlers, its parent link and its used words. -/
def references (s : Segment) : List BlockId := (s.metadata ++ s.usedRegion).filterMap Word.block?

theorem mem_references : c ∈ s.references ↔ c ∈ s.held ∨ s.parent? = some c := by
  simp only [references, metadata, held, parent?, List.filterMap_append, List.mem_append, List.mem_filterMap,
    List.mem_cons, List.not_mem_nil, or_false, exists_eq_or_imp, exists_eq_left, or_assoc]
  rw [or_comm (a := ∃ w, w ∈ s.usedRegion ∧ w.block? = some c)]

@[simp] theorem held_setParent (s : Segment) (p : Option BlockId) : (s.setParent p).held = s.held := rfl

@[simp] theorem references_retire (s : Segment) : s.retire.references = [] := by
  simp [references, metadata, retire, usedRegion, Handlers.zero, show Word.unit.block? = none from rfl]

theorem make_eq_ok (h : make n hs = .ok s) : s = blank n hs := by
  unfold make at h
  split at h
  · exact (Except.ok.inj h).symm
  · cases h

theorem setWord_eq_ok {o : Int} {w : Word} (h : s.setWord o w = .ok t) : ∃ k, t = s.setSlot k w := by
  unfold setWord setWord? at h
  cases hd : s.depth? o with
  | none => simp [hd] at h
  | some k =>
    simp only [hd, Option.map_some, Except.ok.injEq] at h
    exact ⟨k, h.symm⟩

theorem inside_of_setWord {o : Int} {w : Word} (h : s.setWord o w = .ok t) : o < 0 ∧ o.natAbs ≤ s.capacity := by
  refine Decidable.byContradiction fun hout => ?_
  simp only [setWord, setWord?, depth?, if_neg hout, Option.map_none] at h
  cases h

theorem setPointer_eq_ok {p : Int} (h : s.setPointer p = .ok t) : ∃ k hk, t = { s with used := k, used_le := hk } := by
  unfold setPointer at h
  split at h
  · exact ⟨_, _, (Except.ok.inj h).symm⟩
  · cases h

theorem owner_setWord {o : Int} {w : Word} (h : s.setWord o w = .ok t) : t.owner = s.owner := by
  obtain ⟨k, rfl⟩ := setWord_eq_ok h
  rfl

theorem owner_setPointer {p : Int} (h : s.setPointer p = .ok t) : t.owner = s.owner := by
  obtain ⟨k, hk, rfl⟩ := setPointer_eq_ok h
  rfl

/-! ### Copies that growth makes -/

/-- A segment with the used words, the handlers and the parent link of another one, and no mark. -/
structure Replaces (y x : Segment) : Prop where
  owner : y.owner = none
  handlers : y.handlers = x.handlers
  link : y.link = x.link
  usedRegion : y.usedRegion = x.usedRegion

theorem owner_copyUsed {source : Segment} (h : s.copyUsed source = .ok t) : t.owner = s.owner := by
  unfold copyUsed at h
  split at h
  · rw [← Except.ok.inj h]
  · cases h

theorem replaces_copy {v x y z : Segment} (hv : make n .zero = .ok v) (hy : v.copyUsed x = .ok y)
    (hz : y.copyMetadata x = .ok z) : z.Replaces x := by
  obtain ⟨-, -, hhandlers, hlink, howner⟩ := copyMetadata_fields hz
  refine ⟨?_, hhandlers, hlink, usedRegion_copy hy hz⟩
  rw [howner, owner_copyUsed hy, make_eq_ok hv]
  rfl

/-! ### New segments -/

/-- **A segment with control data at most**: no mark, no parent, and no reference in a slot. -/
structure Bare (n : Nat) (hs : Handlers) (s : Segment) : Prop where
  capacity : s.capacity = n
  owner : s.owner = none
  handlers : s.handlers = hs
  link : s.link = .unit
  slots : ∀ w ∈ s.slots, w.block? = none

theorem bare_make (h : make n hs = .ok s) : s.Bare n hs := by
  obtain rfl := make_eq_ok h
  refine ⟨capacity_blank n hs, rfl, rfl, rfl, fun w hw => ?_⟩
  rw [List.eq_of_mem_replicate hw]
  rfl

namespace Bare

theorem setWord {o : Int} {w : Word} (hb : s.Bare n hs) (hw : w.block? = none) (h : s.setWord o w = .ok t) :
    t.Bare n hs := by
  obtain ⟨k, rfl⟩ := setWord_eq_ok h
  refine ⟨(capacity_setSlot ..).trans hb.capacity, hb.owner, hb.handlers, hb.link, fun v hv => ?_⟩
  rcases List.mem_or_eq_of_mem_set hv with hv | rfl
  · exact hb.slots v hv
  · exact hw

theorem setPointer {p : Int} (hb : s.Bare n hs) (h : s.setPointer p = .ok t) : t.Bare n hs := by
  obtain ⟨k, hk, rfl⟩ := setPointer_eq_ok h
  exact ⟨hb.capacity, hb.owner, hb.handlers, hb.link, hb.slots⟩

theorem mem_references (hb : s.Bare n hs) :
    c ∈ s.references ↔ c ∈ [hs.value, hs.exception, hs.effect].filterMap Word.block? := by
  have hwords : s.usedRegion.filterMap Word.block? = [] := by
    rw [List.filterMap_eq_nil_iff]
    exact fun w hw => hb.slots w (List.mem_of_mem_take (List.mem_reverse.1 hw))
  have hparent : s.parent? = none := by
    rw [parent?, hb.link]
    rfl
  rw [Segment.mem_references, hparent, or_iff_left (by simp), held, List.filterMap_append, hwords, List.append_nil,
    hb.handlers]

end Bare

/-- **A new fiber.** -/
theorem bare_fiber {layout : Layout} {words : Nat} (h : fiber layout words hs = .ok s) :
    s.Bare (contextWords + words) hs := by
  unfold fiber at h
  obtain ⟨n, hn, h⟩ := bind_eq_ok_iff.1 h
  obtain rfl := (Size.fit_eq_ok_iff.1 hn).2
  obtain ⟨v, hv, h⟩ := bind_eq_ok_iff.1 h
  have hv := bare_make hv
  cases layout with
  | bytecode =>
    obtain ⟨w, hw, h⟩ := bind_eq_ok_iff.1 h
    exact (hv.setWord rfl hw).setPointer h
  | native table =>
    simp only [bind_eq_ok_iff] at h
    obtain ⟨w₁, h₁, w₂, h₂, w₃, h₃, w₄, h₄, w₅, h₅, h⟩ := h
    exact (((((hv.setWord rfl h₁).setWord rfl h₂).setWord rfl h₃).setWord rfl h₄).setWord rfl h₅).setPointer h

end Segment

end FiberStacks
