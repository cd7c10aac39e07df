import FiberStacks.Proofs.Chains.Resume

/-!
# Resuming a chain more than once

A clone of a captured chain is resumed, and the chain stays captured: every time the domain runs on new stacks, with
what the captured ones hold at that moment.

* `Segment.content`, `Active.content?` — what a stack holds, apart from its mark and its link;
* `Resumed` — a domain that runs on copies of a chain, above the stack it left;
* `Kept` — the blocks of before;
* `resumeCloned_resumed` — **what resuming a clone does**;
* `resumeCloned_multiShot` — **the chain can be resumed again**, and starts with the same contents if nobody wrote to
  it.
-/

namespace FiberStacks

open FiberStacks.Action

variable {s t u v : Active} {b c k p head : BlockId} {x y : Segment} {l lp copies : List BlockId} {i : Nat}

/-! ### Contents -/

namespace Segment

/-- What a stack holds: its words, its stack pointer and its handlers. -/
def content (s : Segment) : Segment := { s with owner := none, link := .unit }

@[simp] theorem content_setParent (s : Segment) (p : Option BlockId) : (s.setParent p).content = s.content := rfl

@[simp] theorem content_copyTo (s : Segment) (p : Option BlockId) : (s.copyTo p).content = s.content := by
  cases p <;> rfl

theorem content_congr {x y : Option Segment} (h : x.map deepCopy = y.map deepCopy) : x.map content = y.map content := by
  have hmap := congrArg (Option.map content) h
  rw [Option.map_map, Option.map_map] at hmap
  exact hmap

theorem parent?_congr {x y : Option Segment} (h : x.map deepCopy = y.map deepCopy) :
    x.map parent? = y.map parent? := by
  have hmap := congrArg (Option.map parent?) h
  rw [Option.map_map, Option.map_map] at hmap
  exact hmap

theorem setPointer_self {n : Int} (h : x.setPointer n = .ok y) : y.setPointer n = .ok y := by
  unfold setPointer at h ⊢
  split at h
  · next hn =>
    obtain rfl := Except.ok.inj h
    exact dif_pos hn
  · cases h

end Segment

namespace Active

def content? (a : Active) (b : BlockId) : Option Segment := (a.segment? b).map Segment.content

theorem links_segment? (hf : s.world.heap.FreeListed) (b : BlockId) :
    (s.segment? b).map Segment.parent? = s.world.heap.links b := by
  have hquiet : (Act.syncStack s).2.world.heap.links = s.world.heap.links :=
    (Act.wp_iff_snd.1 (Act.handling_quiet.syncStack s) : Act.KeepsLinks s (Act.syncStack s).2).links hf
  rw [← hquiet]
  rfl

theorem segment?_of_loaded (hx : t.world.heap.stack? c = some x)
    (hr : t.domain.registers = some ⟨c, x.used, x.capacity⟩) (b : BlockId) :
    t.segment? b = t.world.heap.stack? b := by
  refine (Act.wp_iff_snd (P := fun u => u.world.heap.stack? b = t.world.heap.stack? b)).1 ?_
  refine wp_of_returns (Act.syncStack_put ⟨hr, hx, rfl, x.used_le⟩) ?_
  rintro - _ rfl
  refine (stack?_put hx b).trans ?_
  by_cases hb : b = c
  · rw [if_pos hb, hb, hx]
  · rw [if_neg hb]

end Active

theorem getLast?_eq_some_iff_of_nodup {α : Type} {l : List α} {a : α} (hl : l.Nodup) (hi : l[i]? = some a) :
    l.getLast? = some a ↔ l[i + 1]? = none := by
  have hlt := (List.getElem?_eq_some_iff.1 hi).1
  rw [List.getLast?_eq_getElem?, List.getElem?_eq_none_iff]
  constructor
  · intro hlast
    have hsame := (List.getElem?_inj hlt hl).1 (hi.trans hlast.symm)
    omega
  · intro hle
    rw [show l.length - 1 = i by omega]
    exact hi

theorem Links.isChain_append {L : Links} (hp : L.IsChain p lp) : ∀ c, copies.head? = some c →
    (∀ i x, copies[i]? = some x → L x = some (some (copies[i + 1]?.getD p))) → L.IsChain c (copies ++ lp) := by
  induction copies with
  | nil =>
    intro c hc
    cases hc
  | cons a rest ih =>
    intro c hc hlinks
    obtain rfl := Option.some.inj hc
    have hlink := hlinks 0 a rfl
    cases rest with
    | nil => exact .cons hlink hp
    | cons a' rest =>
      apply IsChain.cons hlink
      apply ih a' rfl
      intro i x hx
      exact hlinks (i + 1) x hx

namespace Act

/-! ### What resuming a clone does -/

/-- **A domain runs on copies of a chain**: new stacks, each linked to the next one and the last to the stack left,
which hold what the stacks of the chain held. -/
structure Resumed (s t : Active) (l : List BlockId) (p : BlockId) (copies : List BlockId) : Prop where
  previous : s.domain.current? = some p
  current : t.domain.current? = copies.head?
  nodup : copies.Nodup
  fresh : ∀ c ∈ copies, s.world.heap.contains c = false
  linked : ∀ i c, copies[i]? = some c → t.world.heap.links c = some (some (copies[i + 1]?.getD p))
  contents : copies.map t.content? = l.map s.content?

/-- **The blocks of before** are as they were, but for the stack left, which is seen as it was. -/
structure Kept (s t : Active) (p : BlockId) : Prop where
  live : ∃ x, s.world.heap.stack? p = some x
  cell : ∀ b, s.world.heap.contains b = true → b ≠ p → t.world.heap.cell? b = s.world.heap.cell? b
  seen : ∀ b, s.world.heap.contains b = true → (t.segment? b).map Segment.deepCopy = (s.segment? b).map Segment.deepCopy

theorem cloneContinuation_cloned (hb : s.world.heap.Budgeted) (hk : s.world.heap.capsule? k = some (.full head))
    (hl : s.world.heap.links.IsChain head l) :
    (cloneContinuation k).wp s (fun k' t => ∃ u copies h₁, Synced s u ∧ (∀ b, u.world.heap.stack? b = s.segment? b) ∧
      t.domain = s.domain ∧ Heap.Clone u.world.heap t.world.heap k k' l copies h₁ ∧ t.world.heap.Budgeted)
      fun _ _ => True := by
  unfold cloneContinuation
  refine wp_bind_of (wp_and (syncStack_synced s) (syncStack_segment? s)) ?_ fun _ _ _ => trivial
  rintro - u ⟨hu, hseen⟩
  have hk' := (hu.capsule? k).trans hk
  have hl' := hu.links.symm ▸ hl
  simp only [wp_bind, wp_heap]
  obtain ⟨k', h', copies, h₁, hr, hc, -, -, hb'⟩ | ⟨h', hr, -⟩ := Heap.cloneChain_paid (hu.budgeted hb) hk' hl'
  · simp only [hr, wp_check_ok, wp_setHeap]
    exact ⟨u, copies, h₁, hu, hseen, hu.domain, hc, hb'⟩
  · simp only [hr, wp_check_ok, wp_setHeap]
    exact wp_of_stops (raiseFailure_keepsLinks .outOfMemory) fun _ _ _ => trivial

theorem Synced.stack?_current (hu : Synced s u) (hp : s.domain.current? = some p) :
    ∃ x, s.world.heap.stack? p = some x := by
  rw [Domain.current?] at hp
  rcases hu.heap with ⟨hnone, -⟩ | ⟨r, z, y, hr, hz, -, -⟩
  · rw [hnone] at hp
    cases hp
  · rw [hr] at hp
    obtain rfl := Option.some.inj hp
    exact ⟨z, hz⟩

section Shot

variable {k' : BlockId} {h₁ : Heap} (hu : Synced s u) (hseen : ∀ b, u.world.heap.stack? b = s.segment? b)
  (hdomain : v.domain = s.domain) (hc : Heap.Clone u.world.heap v.world.heap k k' l copies h₁)
  (ht : Hung v t k' copies p) (hp : s.domain.current? = some p)

include hu hc in
theorem notMem_of_contains (hb : s.world.heap.contains b = true) : b ∉ k' :: copies := by
  intro hmem
  rw [← hu.contains, hc.contains_fresh b hmem] at hb
  cases hb

include hu hc ht hp in
/-- **The copies** hold what the domain saw in the stacks of the chain, and are linked up to the stack left. -/
theorem stack?_copy (hb : l[i]? = some b) :
    ∃ y c w, u.world.heap.stack? b = some y ∧ copies[i]? = some c ∧ t.world.heap.stack? c = some w ∧
      w.content = y.content ∧ w.parent? = some (copies[i + 1]?.getD p) := by
  obtain ⟨y, c, hy, hcopy, hstack, hparent⟩ := hc.stack?_copy hb
  have hmem := List.mem_of_getElem? hcopy
  have hlast := getLast?_eq_some_iff_of_nodup hc.copies.nodup hcopy
  cases hnext : copies[i + 1]? with
  | none =>
    obtain ⟨w, hw, hw'⟩ := ht.last c (hlast.2 hnext)
    obtain rfl := Option.some.inj (hstack.symm.trans hw)
    refine ⟨y, c, _, hy, hcopy, hw', ?_, Segment.parent?_setParent ..⟩
    rw [Segment.content_setParent, Segment.content_copyTo]
  | some n =>
    have hlast' : copies.getLast? ≠ some c := fun he => by
      rw [hlast.1 he] at hnext
      cases hnext
    have hck : c ≠ k' := ne_of_mem_of_not_mem hmem hc.notMem
    have hcp : c ≠ p := by
      rintro rfl
      obtain ⟨z, hz⟩ := hu.stack?_current hp
      exact notMem_of_contains hu hc (Heap.contains_of_stack? hz) (List.mem_cons_of_mem _ hmem)
    obtain ⟨g, hcell⟩ := Heap.cell?_of_stack? hstack
    refine ⟨y, c, _, hy, hcopy, Heap.stack?_of_cell? ((ht.others c hck hcp hlast').trans hcell), ?_, ?_⟩
    · rw [Segment.content_copyTo]
    · rw [hparent, hnext]
      rfl

include hu hseen hdomain hc ht hp in
/-- **The blocks of before** stay, and the stack left has its live stack pointer. -/
theorem kept_of_hung : Kept s t p := by
  obtain ⟨z, hz⟩ := hu.stack?_current hp
  have hlive := Heap.contains_of_stack? hz
  have hloaded : ∀ b, t.segment? b = t.world.heap.stack? b := by
    obtain ⟨c, x, -, hx, hreg⟩ := ht.loaded
    exact Active.segment?_of_loaded hx hreg
  have hold : ∀ b, s.world.heap.contains b = true → v.world.heap.cell? b = u.world.heap.cell? b := fun b hb =>
    hc.cell?_of_contains ((hu.contains b).trans hb)
  have hafter : ∀ b, s.world.heap.contains b = true → b ≠ p → t.world.heap.cell? b = u.world.heap.cell? b := by
    intro b hb hne
    have hnot := notMem_of_contains hu hc hb
    have hlast : copies.getLast? ≠ some b := fun he => hnot (List.mem_cons_of_mem _ (List.mem_of_getLast? he))
    rw [ht.others b (fun he => hnot (he ▸ List.mem_cons_self)) hne hlast, hold b hb]
  refine ⟨⟨z, hz⟩, fun b hb hne => ?_, fun b hb => ?_⟩
  · rw [hafter b hb hne]
    apply hu.cell?
    intro he
    exact hne (Option.some.inj (he.symm.trans hp))
  · rw [hloaded, ← hseen]
    by_cases hne : b = p
    · -- the stack pointer is written back twice
      subst hne
      obtain ⟨r, x, y, hr, rfl, hx, hy, hty⟩ := ht.previous
      rw [hdomain] at hr
      have hxu : u.world.heap.stack? r.current = some x := by
        rw [Heap.stack?, Heap.get?, ← hold r.current hlive]
        exact hx
      rcases hu.heap with ⟨hnone, -⟩ | ⟨r', z, y', hr', hz, hy', hheap⟩
      · rw [hnone] at hr
        cases hr
      · obtain rfl := Option.some.inj (hr.symm.trans hr')
        rw [hheap, Heap.stack?_setStack hz, if_pos rfl] at hxu
        obtain rfl := Option.some.inj hxu
        rw [hty, hheap, Heap.stack?_setStack hz, if_pos rfl]
        obtain rfl := Except.ok.inj (hy.symm.trans (Segment.setPointer_self hy'))
        rfl
    · rw [Heap.stack?_congr (hafter b hb hne)]

end Shot

/-- **Resuming a clone.** -/
theorem resumeCloned_resumed (hb : s.world.heap.Budgeted) (hk : s.world.heap.capsule? k = some (.full head))
    (hl : s.world.heap.links.IsChain head l) :
    (resumeCloned k).wp s (fun p t => ∃ copies, Resumed s t l p copies ∧ Kept s t p ∧ t.world.heap.Budgeted)
      fun _ _ => True := by
  unfold resumeCloned
  refine wp_bind_of (cloneContinuation_cloned hb hk hl) ?_ fun _ _ _ => trivial
  rintro k' v ⟨u, copies, h₁, hu, hseen, hdomain, hc, hbv⟩
  obtain ⟨c₀, hhead, hfull⟩ := hc.capsule?_clone
  refine wp_mono (resume_hung hfull (hc.isChain hhead)) ?_ fun _ _ _ => trivial
  rintro p t ⟨hp, ht⟩
  rw [hdomain] at hp
  obtain ⟨z, hz⟩ := hu.stack?_current hp
  have hnot := notMem_of_contains hu hc (Heap.contains_of_stack? hz)
  have hung := ht fun he => hnot (List.mem_cons_of_mem _ (List.mem_of_getLast? he))
  obtain ⟨c, x, hc₀, hx, hreg⟩ := hung.loaded
  refine ⟨copies, ⟨hp, ?_, hc.copies.nodup, ?_, ?_, ?_⟩, kept_of_hung hu hseen hdomain hc hung hp, hung.budgeted hbv⟩
  · rw [Domain.current?, hreg, hc₀]
    rfl
  · intro c hc'
    rw [← hu.contains]
    exact hc.contains_fresh c (List.mem_cons_of_mem _ hc')
  · intro i c hi
    have hlt : i < l.length := hc.copies.length ▸ (List.getElem?_eq_some_iff.1 hi).1
    obtain ⟨y, c', w, -, hc', hw, -, hparent⟩ := stack?_copy hu hc hung hp (List.getElem?_eq_getElem hlt)
    obtain rfl := Option.some.inj (hi.symm.trans hc')
    rw [Heap.links_of_stack? hw, hparent]
  · apply List.ext_getElem?
    intro i
    rw [List.getElem?_map, List.getElem?_map]
    cases hb : l[i]? with
    | none =>
      have hnone : copies[i]? = none := by
        rw [List.getElem?_eq_none_iff, hc.copies.length]
        exact List.getElem?_eq_none_iff.1 hb
      rw [hnone]
      rfl
    | some b =>
      obtain ⟨y, c', w, hy, hc', hw, hcontent, -⟩ := stack?_copy hu hc hung hp hb
      rw [hc', Option.map_some, Option.map_some, Active.content?, Active.content?, Active.segment?_of_loaded hx hreg,
        hw, ← hseen, hy, Option.map_some, Option.map_some, hcontent]

/-! ### Again and again -/

/-- The links of the blocks of before are as they were. -/
theorem Kept.links (h : Kept s t p) (hf : s.world.heap.FreeListed) (hf' : t.world.heap.FreeListed)
    (hb : s.world.heap.contains b = true) : t.world.heap.links b = s.world.heap.links b := by
  rw [← Active.links_segment? hf', ← Active.links_segment? hf]
  exact Segment.parent?_congr (h.seen b hb)

/-- A chain of before is still one. -/
theorem Kept.isChain (h : Kept s t p) (hf : s.world.heap.FreeListed) (hf' : t.world.heap.FreeListed)
    (hl : s.world.heap.links.IsChain b l) : t.world.heap.links.IsChain b l := by
  apply hl.congr
  intro x hx
  exact h.links hf hf' (Heap.contains_of_isChain hl x hx)

/-- What was captured is seen as before. -/
theorem Kept.contents (h : Kept s t p) (hl : s.world.heap.links.IsChain head l) :
    l.map t.content? = l.map s.content? := by
  apply List.map_congr_left
  intro x hx
  exact Segment.content_congr (h.seen x (Heap.contains_of_isChain hl x hx))

/-- **None of these stacks was written**: as the domains at work see them, their words, stack pointers, handlers and
links are the same, and only marks may differ.  The live stack pointer is part of the stack, which a pop moves as a
push does. -/
def Unwritten (l : List BlockId) (s t : Active) : Prop :=
  ∀ b ∈ l, (t.segment? b).map Segment.deepCopy = (s.segment? b).map Segment.deepCopy

/-- **A captured chain can be resumed again and again.**  The domain runs on new stacks that hold what the captured ones
held, above the chain of the stack it left, which may itself be a captured one; all chains still end, and the capsule is
still full.  Whatever happens then, if none of the captured stacks is written, the next one who resumes a clone of the
capsule starts with the same contents. -/
theorem resumeCloned_multiShot (hb : s.world.heap.Budgeted) (hends : s.world.heap.ChainsEnd)
    (hk : s.world.heap.capsule? k = some (.full head)) (hl : s.world.heap.chain head = .ok l)
    (hr : resumeCloned k s = (.ok p, t)) :
    ∃ copies, Resumed s t l p copies ∧
      (∃ c lp, t.domain.current? = some c ∧ s.world.heap.chain p = .ok lp ∧ t.world.heap.chain c = .ok (copies ++ lp)) ∧
      t.world.heap.ChainsEnd ∧ t.world.heap.capsule? k = some (.full head) ∧ t.world.heap.Budgeted ∧
      (p ∉ l → ∀ b ∈ l, t.world.heap.cell? b = s.world.heap.cell? b) ∧
      ∀ (u v : Active) (q : BlockId), u.world.heap.Budgeted → u.world.heap.capsule? k = some (.full head) →
        Unwritten l t u → resumeCloned k u = (.ok q, v) →
          ∃ copies', Resumed u v l q copies' ∧ copies'.map v.content? = copies.map t.content? := by
  have hl := Heap.chain_eq_ok_iff.1 hl
  have hL := Heap.chainsEnd_iff.1 hends
  have hf := hb.balanced.toFreeListed
  obtain ⟨copies, hres, hkept, hbt⟩ := (wp_of_ok hr).1 (resumeCloned_resumed hb hk hl)
  have hft := hbt.balanced.toFreeListed
  obtain ⟨z, hz⟩ := hkept.live
  refine ⟨copies, hres, ?_, ?_, ?_, hbt, ?_, ?_⟩
  · obtain ⟨lp, hlp⟩ := hL p (by rw [Heap.links_of_stack? hz]; rfl)
    have hne : copies ≠ [] := by
      rintro rfl
      have hnil := List.map_eq_nil_iff.1 hres.contents.symm
      exact List.ne_nil_of_mem hl.mem hnil
    obtain ⟨c, hc⟩ := Option.isSome_iff_exists.1 (List.isSome_head?.2 hne)
    refine ⟨c, lp, hres.current.trans hc, Heap.chain_eq_ok_iff.2 hlp, Heap.chain_eq_ok_iff.2 ?_⟩
    exact Links.isChain_append (hkept.isChain hf hft hlp) c hc hres.linked
  · have hcap : (resumeCloned k s).2.world.heap.capacity ≤ 2 ^ 32 := by
      rw [hr]
      exact hbt.balanced.capacity_le
    have hending := resumeCloned_spec k hf hL hcap
    rw [hr] at hending
    exact Heap.chainsEnd_iff.2 hending
  · have hkp := Heap.ne_of_capsule? hk hz
    have hcell := hkept.cell k (Heap.contains_iff.2 ⟨_, Heap.get?_of_capsule? hk⟩) hkp.symm
    rw [← hk, Heap.capsule?, Heap.capsule?, Heap.get?, Heap.get?, hcell]
  · intro hp b hb'
    exact hkept.cell b (Heap.contains_of_isChain hl b hb') fun he => hp (he ▸ hb')
  · intro u v q hbu hku hsame hru
    have hfu := hbu.balanced.toFreeListed
    have hlu : u.world.heap.links.IsChain head l := by
      apply (hkept.isChain hf hft hl).congr
      intro b hb'
      rw [← Active.links_segment? hfu, ← Active.links_segment? hft]
      exact Segment.parent?_congr (hsame b hb')
    obtain ⟨copies', hres', -⟩ := (wp_of_ok hru).1 (resumeCloned_resumed hbu hku hlu)
    refine ⟨copies', hres', ?_⟩
    calc copies'.map v.content? = l.map u.content? := hres'.contents
      _ = l.map t.content? := List.map_congr_left fun b hb' => Segment.content_congr (hsame b hb')
      _ = l.map s.content? := hkept.contents hl
      _ = copies.map t.content? := hres.contents.symm

/-- A domain on the upper one of two captured stacks. -/
def onPair : Active where
  domain := { Domain.fresh ⟨1⟩ 100 with registers := some ⟨.ofIndex 1, 0, 1⟩ }
  world := .initial {} .bytecode (Heap.capturedPair 100)

/-- A chain is resumed twice: from a stack of its own, and from the first copy. -/
theorem resumeCloned_multiShot_twice :
    ∃ t v copies copies', resumeCloned (.ofIndex 2) onPair = (.ok (.ofIndex 1), t) ∧
      Resumed onPair t [.ofIndex 1, .ofIndex 0] (.ofIndex 1) copies ∧
      resumeCloned (.ofIndex 2) t = (.ok (.ofIndex 3), v) ∧
      Resumed t v [.ofIndex 1, .ofIndex 0] (.ofIndex 3) copies' ∧ copies'.map v.content? = copies.map t.content? := by
  have hb : onPair.world.heap.Budgeted := Heap.budgeted_capturedPair (by decide)
  have hends : onPair.world.heap.ChainsEnd := by decide
  have hk : onPair.world.heap.capsule? (.ofIndex 2) = some (.full (.ofIndex 1)) := by decide
  have hl : onPair.world.heap.chain (.ofIndex 1) = .ok [.ofIndex 1, .ofIndex 0] := by decide
  have hr : resumeCloned (.ofIndex 2) onPair = (.ok (.ofIndex 1), (resumeCloned (.ofIndex 2) onPair).2) := rfl
  have hr' : resumeCloned (.ofIndex 2) (resumeCloned (.ofIndex 2) onPair).2 =
      (.ok (.ofIndex 3), (resumeCloned (.ofIndex 2) (resumeCloned (.ofIndex 2) onPair).2).2) := rfl
  obtain ⟨copies, hres, -, -, hfull, hbt, -, hagain⟩ := resumeCloned_multiShot hb hends hk hl hr
  obtain ⟨copies', hres', hsame⟩ := hagain _ _ _ hbt hfull (fun _ _ => rfl) hr'
  exact ⟨_, _, copies, copies', hr, hres, hr', hres', hsame⟩

end Act

end FiberStacks
