import FiberStacks.Word
import Mathlib.Data.List.Basic
import Mathlib.Data.List.Infix

/-!
# Parent links

The parent links of stacks, apart from the heap that holds them: for every stack whether it has a parent, and which.

* `IsChain` — following the links from a stack gives this list, which ends in a stack without parent;
* `Ending` — from every stack the links can be followed to an end;
* `ending_fresh`, `ending_cut` — a new stack on top of a chain, and a link cut, keep that;
* `ending_graft_iff` — a link set keeps it exactly if the new parent does not lead back;
* `Reversed.ending_iff` — a chain turned round onto a stack keeps it exactly if the chains are apart.
-/

namespace FiberStacks

/-- For every stack its parent link, and nothing for any other block. -/
abbrev Links := BlockId → Option (Option BlockId)

namespace Links

variable {L L' : Links} {a b p x : BlockId} {l l' lp : List BlockId}

/-- **A chain**: the stacks met on the way along the links, up to one without parent. -/
inductive IsChain (L : Links) : BlockId → List BlockId → Prop where
  | last {b : BlockId} (hb : L b = some none) : IsChain L b [b]
  | cons {b p : BlockId} {l : List BlockId} (hb : L b = some (some p)) (hp : IsChain L p l) : IsChain L b (b :: l)

/-- **From every stack the links lead to an end.** -/
def Ending (L : Links) : Prop := ∀ b, (L b).isSome → ∃ l, L.IsChain b l

/-! ### Chains -/

theorem IsChain.mem (h : L.IsChain b l) : b ∈ l := by
  cases h <;> simp

theorem IsChain.head? (h : L.IsChain b l) : l.head? = some b := by
  cases h <;> rfl

theorem IsChain.live (h : L.IsChain b l) : ∀ x ∈ l, (L x).isSome := by
  induction h with
  | last hb => simp [hb]
  | cons hb _ ih => simpa [hb] using ih

theorem IsChain.link_getElem? (h : L.IsChain b l) : ∀ {i : Nat}, l[i]? = some x → L x = some l[i + 1]? := by
  induction h with
  | last hb =>
    intro i hx
    cases i with
    | zero => exact Option.some.inj hx ▸ hb
    | succ i => cases hx
  | cons hb hp ih =>
    intro i hx
    cases i with
    | zero =>
      rw [← Option.some.inj hx, hb, List.getElem?_cons_succ, ← hp.head?, List.head?_eq_getElem?]
    | succ i => exact ih hx

theorem IsChain.unique (h : L.IsChain b l) : ∀ {l'}, L.IsChain b l' → l = l' := by
  induction h with
  | last hb =>
    intro l' h'
    cases h' with
    | last _ => rfl
    | cons hb' _ => simp [hb] at hb'
  | cons hb _ ih =>
    intro l' h'
    cases h' with
    | last hb' => simp [hb] at hb'
    | cons hb' hp' =>
      obtain rfl := Option.some.inj (Option.some.inj (hb.symm.trans hb'))
      rw [ih hp']

theorem IsChain.of_mem (h : L.IsChain b l) (hx : x ∈ l) : ∃ as bs, l = as ++ bs ∧ L.IsChain x bs := by
  induction h with
  | @last b hb =>
    obtain rfl := List.mem_singleton.1 hx
    exact ⟨[], _, rfl, .last hb⟩
  | @cons b p l hb hp ih =>
    rcases List.mem_cons.1 hx with rfl | hx
    · exact ⟨[], _, rfl, .cons hb hp⟩
    · obtain ⟨as, bs, rfl, h⟩ := ih hx
      exact ⟨b :: as, bs, rfl, h⟩

theorem IsChain.nodup (h : L.IsChain b l) : l.Nodup := by
  induction h with
  | last _ => simp
  | @cons b p l hb hp ih =>
    refine List.nodup_cons.2 ⟨fun hmem => ?_, ih⟩
    -- the chain from the second meeting on would be as long as the whole
    obtain ⟨as, bs, hl, h⟩ := hp.of_mem hmem
    have hlen := congrArg List.length ((IsChain.cons hb hp).unique h)
    rw [hl] at hlen
    simp only [List.length_cons, List.length_append] at hlen
    omega

/-- A chain depends only on the links of its stacks. -/
theorem IsChain.congr (h : L.IsChain b l) (heq : ∀ x ∈ l, L' x = L x) : L'.IsChain b l := by
  induction h with
  | last hb => exact .last ((heq _ (by simp)).trans hb)
  | cons hb _ ih => exact .cons ((heq _ (by simp)).trans hb) (ih fun x hx => heq x (List.mem_cons_of_mem _ hx))

theorem IsChain.getLast?_eq (h : L.IsChain b l) (h' : L.IsChain a l') (hx : x ∈ l) (hx' : x ∈ l') :
    l.getLast? = l'.getLast? := by
  obtain ⟨as, bs, rfl, h1⟩ := h.of_mem hx
  obtain ⟨as', bs', rfl, h2⟩ := h'.of_mem hx'
  have hne : bs ≠ [] := fun hnil => by simpa [hnil] using h1.mem
  rw [h1.unique h2] at hne ⊢
  rw [List.getLast?_append_of_ne_nil _ hne, List.getLast?_append_of_ne_nil _ hne]

/-! ### Links changed -/

def set (L : Links) (b : BlockId) (p : Option BlockId) : Links := fun x => if x = b then some p else L x

@[simp] theorem set_self (L : Links) (b : BlockId) (p : Option BlockId) : L.set b p b = some p := if_pos rfl

theorem set_of_ne (h : x ≠ b) (p : Option BlockId) : L.set b p x = L x := if_neg h

theorem IsChain.set_of_notMem (h : L.IsChain b l) (ha : a ∉ l) (p : Option BlockId) : (L.set a p).IsChain b l :=
  h.congr fun _ hx => set_of_ne (ne_of_mem_of_not_mem hx ha) p

theorem IsChain.exists_of_eq_or (h : L.IsChain b l) (heq : ∀ x, L' x = L x ∨ ∃ l, L'.IsChain x l) :
    ∃ l', L'.IsChain b l' := by
  induction h with
  | last hb => exact (heq _).elim (fun he => ⟨_, .last (he.trans hb)⟩) id
  | cons hb _ ih =>
    obtain ⟨l', h'⟩ := ih
    exact (heq _).elim (fun he => ⟨_, .cons (he.trans hb) h'⟩) id

theorem Ending.of_eq_or (h : L.Ending) (heq : ∀ x, L' x = L x ∨ ∃ l, L'.IsChain x l) : L'.Ending := by
  intro x hx
  rcases heq x with he | hc
  · obtain ⟨l, hl⟩ := h x (he ▸ hx)
    exact hl.exists_of_eq_or heq
  · exact hc

theorem Ending.set_of_isChain (h : L.Ending) {q : Option BlockId} (hb : ∃ l, (L.set b q).IsChain b l) :
    (L.set b q).Ending := by
  refine h.of_eq_or fun x => ?_
  by_cases hx : x = b
  · exact .inr (hx ▸ hb)
  · exact .inl (set_of_ne hx q)

theorem Ending.cut (h : L.Ending) (b : BlockId) : (L.set b none).Ending :=
  h.set_of_isChain ⟨_, .last (set_self L b none)⟩

/-- A new stack on top of a chain. -/
theorem Ending.fresh (h : L.Ending) (hb : L b = none) (hp : L.IsChain p lp) : (L.set b (some p)).Ending := by
  have hmem : b ∉ lp := fun hmem => by simpa [hb] using hp.live b hmem
  exact h.set_of_isChain ⟨_, .cons (set_self L b _) (hp.set_of_notMem hmem _)⟩

theorem ending_graft_iff (h : L.Ending) : (L.set b (some p)).Ending ↔ ∃ lp, L.IsChain p lp ∧ b ∉ lp := by
  constructor
  · intro h'
    obtain ⟨l, hl⟩ := h' b (by simp)
    have hnodup := hl.nodup
    cases hl with
    | last hb => simp at hb
    | cons hb hp =>
      obtain rfl : p = _ := by simpa using hb
      have hmem := (List.nodup_cons.1 hnodup).1
      exact ⟨_, hp.congr fun x hx => (set_of_ne (ne_of_mem_of_not_mem hx hmem) _).symm, hmem⟩
  · rintro ⟨lp, hp, hmem⟩
    exact h.set_of_isChain ⟨_, .cons (set_self L b _) (hp.set_of_notMem hmem _)⟩

/-- **A chain hung under a stack**: its chain has to be apart from the one hung. -/
theorem ending_hang_iff (h : L.Ending) (hl : L.IsChain b l) (hlast : l.getLast? = some x) :
    (L.set x (some p)).Ending ↔ ∃ lp, L.IsChain p lp ∧ lp.Disjoint l := by
  rw [ending_graft_iff h]
  refine exists_congr fun lp => and_congr_right fun hp => ⟨fun hx y hy hy' => hx ?_, fun hd hx => ?_⟩
  · -- chains that meet have the same end
    exact List.mem_of_getLast? ((hp.getLast?_eq hl hy hy').trans hlast)
  · exact hd hx (List.mem_of_getLast? hlast)

/-- The chain of a stack before the one that is hung elsewhere. -/
theorem IsChain.graft {as bs : List BlockId} (h : L.IsChain a (as ++ b :: bs)) (hp : L.IsChain p lp) (hb : b ∉ lp) :
    (L.set b (some p)).IsChain a (as ++ b :: lp) := by
  induction as generalizing a with
  | nil =>
    have ha : a = b := by
      cases h <;> rfl
    subst ha
    exact .cons (set_self L a _) (hp.set_of_notMem hb _)
  | cons x as ih =>
    have hne : x ≠ b := by
      rintro rfl
      exact (List.nodup_cons.1 h.nodup).1 (by simp)
    generalize hl : x :: as ++ b :: bs = l at h
    cases h with
    | last _ => simp at hl
    | cons ha hc =>
      obtain ⟨rfl, rfl⟩ := List.cons.inj hl
      exact .cons ((set_of_ne hne _).trans ha) (ih hc)

/-! ### Chains turned round -/

/-- The links of these stacks lead from each to the one before it, and from the first to `p`. -/
def Reversed (L : Links) : BlockId → List BlockId → Prop
  | _, [] => True
  | p, b :: rest => L b = some (some p) ∧ Reversed L b rest

theorem Reversed.exists_isChain (h : L.IsChain p lp) (hr : L.Reversed p l) : ∀ x ∈ l, ∃ l', L.IsChain x l' := by
  induction l generalizing p lp with
  | nil => simp
  | cons b rest ih =>
    have hb := IsChain.cons hr.1 h
    intro x hx
    rcases List.mem_cons.1 hx with rfl | hx
    · exact ⟨_, hb⟩
    · exact ih hb hr.2 x hx

theorem IsChain.mem_of_link (h : L.IsChain b l) (hb : L b = some (some p)) : p ∈ l := by
  cases h with
  | last hb' => simp [hb] at hb'
  | cons hb' hp =>
    obtain rfl := Option.some.inj (Option.some.inj (hb.symm.trans hb'))
    exact List.mem_cons_of_mem _ hp.mem

/-- The stacks of a chain turned round lead to the stack it was turned onto. -/
theorem Reversed.mem (hr : L.Reversed p l) (hx : x ∈ l) {lx : List BlockId} (h : L.IsChain x lx) : p ∈ lx := by
  induction l generalizing p with
  | nil => cases hx
  | cons b rest ih =>
    rcases List.mem_cons.1 hx with rfl | hx
    · exact h.mem_of_link hr.1
    · obtain ⟨as, bs, rfl, hb⟩ := h.of_mem (ih hr.2 hx)
      exact List.mem_append_right as (hb.mem_of_link hr.1)

/-- **A chain turned round onto a stack**: the chain of that stack has to be apart from it. -/
theorem Reversed.ending_iff (h : L.Ending) (hl : L.IsChain b l) (hr : L'.Reversed p l)
    (hoff : ∀ x ∉ l, L' x = L x) : L'.Ending ↔ ∃ lp, L.IsChain p lp ∧ lp.Disjoint l := by
  constructor
  · intro h'
    obtain ⟨rest, rfl⟩ : ∃ rest, l = b :: rest := by
      cases hl <;> exact ⟨_, rfl⟩
    obtain ⟨lb, hlb⟩ := h' b (by simp [hr.1])
    have hnodup := hlb.nodup
    cases hlb with
    | last hb => simp [hr.1] at hb
    | @cons _ q lp hb hp =>
      obtain rfl := Option.some.inj (Option.some.inj (hr.1.symm.trans hb))
      have hmem := (List.nodup_cons.1 hnodup).1
      have hdisj : lp.Disjoint (b :: rest) := by
        intro x hx hx'
        rcases List.mem_cons.1 hx' with rfl | hx'
        · exact hmem hx
        · -- a stack that was above `b` leads to `b` now
          obtain ⟨as, bs, rfl, hc⟩ := hp.of_mem hx
          exact hmem (List.mem_append_right as (hr.2.mem hx' hc))
      exact ⟨lp, hp.congr fun x hx => (hoff x (hdisj hx)).symm, hdisj⟩
  · rintro ⟨lp, hp, hdisj⟩
    have hp' : L'.IsChain p lp := hp.congr fun x hx => hoff x (hdisj hx)
    refine h.of_eq_or fun x => ?_
    by_cases hx : x ∈ l
    · exact .inr (hr.exists_isChain hp' x hx)
    · exact .inl (hoff x hx)

end Links

end FiberStacks
