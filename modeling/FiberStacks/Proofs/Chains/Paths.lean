import FiberStacks.Proofs.Chains.Links

/-!
# Walks along links

Following parent links from a stack one meets a list of stacks.  The walk comes to an end, or to something that is no
stack, or never stops.  In a world of finitely many stacks a walk that never stops enters a cycle.

* `Leads` — the stacks met on the way from one place to another;
* `Reaches`, `Endless` — one stack reached from another; **a walk that never stops**;
* `Leads.nodup` — a walk that stops meets no stack twice;
* `endless_or_stops` — there are no other walks;
* `Lasso`, `Endless.exists_lasso` — **a walk that never stops passes some stacks and then goes round a cycle**;
* `IsChain.hang`, `Reversed.leads` — a chain hung under a stack, and one turned round, as walks.
-/

namespace FiberStacks.Links

variable {L L' : Links} {a b c p q x : BlockId} {next rest last : Option BlockId} {l l' lp as cs : List BlockId}

/-- **Following the links** from `next` one meets these stacks, and comes to `rest`. -/
inductive Leads (L : Links) : Option BlockId → List BlockId → Option BlockId → Prop where
  | nil (p : Option BlockId) : Leads L p [] p
  | cons {b : BlockId} {q rest : Option BlockId} {l : List BlockId} (hb : L b = some q) (hq : Leads L q l rest) :
      Leads L (some b) (b :: l) rest

/-- **One stack is reached from another** along the links. -/
def Reaches (L : Links) (a b : BlockId) : Prop := ∃ l, L.Leads (some a) l (some b)

/-- **The links can be followed for ever**: all that is reached are stacks with a parent. -/
def Endless (L : Links) (b : BlockId) : Prop := ∀ x, L.Reaches b x → ∃ p, L x = some (some p)

/-- Where a walk stops: at the end of a chain, or at something that is no stack. -/
def Stop (L : Links) (rest : Option BlockId) : Prop := ∀ x, rest = some x → L x = none

/-! ### Walks -/

namespace Leads

theorem live (h : L.Leads next l rest) : ∀ x ∈ l, (L x).isSome := by
  induction h with
  | nil => simp
  | cons hb _ ih => simpa [hb] using ih

theorem congr (h : L.Leads next l rest) (heq : ∀ x ∈ l, L' x = L x) : L'.Leads next l rest := by
  induction h with
  | nil p => exact .nil p
  | cons hb _ ih =>
    exact .cons ((heq _ List.mem_cons_self).trans hb) (ih fun x hx => heq x (List.mem_cons_of_mem _ hx))

theorem append (h : L.Leads next l rest) (h' : L.Leads rest l' last) : L.Leads next (l ++ l') last := by
  induction h with
  | nil => exact h'
  | cons hb _ ih => exact .cons hb (ih h')

theorem of_append (h : L.Leads next (l ++ l') last) : ∃ rest, L.Leads next l rest ∧ L.Leads rest l' last := by
  induction l generalizing next with
  | nil => exact ⟨next, .nil next, h⟩
  | cons b l ih =>
    cases h with
    | cons hb hq =>
      obtain ⟨rest, h₁, h₂⟩ := ih hq
      exact ⟨rest, .cons hb h₁, h₂⟩

/-- One stack more. -/
theorem snoc (h : L.Leads next l (some b)) (hb : L b = some rest) : L.Leads next (l ++ [b]) rest :=
  h.append (.cons hb (.nil rest))

theorem next_eq (h : L.Leads next (b :: l) rest) : next = some b := by
  cases h
  rfl

/-- The link of a stack met leads to another one, or to where the walk comes to. -/
theorem link (h : L.Leads next l rest) (hx : x ∈ l) : ∃ q, L x = some q ∧ (q = rest ∨ ∃ y ∈ l, q = some y) := by
  induction h with
  | nil => cases hx
  | @cons b q rest l hb hq ih =>
    rcases List.mem_cons.1 hx with rfl | hx
    · cases hq with
      | nil => exact ⟨_, hb, .inl rfl⟩
      | cons => exact ⟨_, hb, .inr ⟨_, by simp, rfl⟩⟩
    · obtain ⟨q', hq', hend⟩ := ih hx
      exact ⟨q', hq', hend.imp_right fun ⟨y, hy, he⟩ => ⟨y, List.mem_cons_of_mem _ hy, he⟩⟩

theorem of_mem (h : L.Leads next l rest) (hx : x ∈ l) :
    ∃ as bs, l = as ++ x :: bs ∧ L.Leads next as (some x) ∧ L.Leads (some x) (x :: bs) rest := by
  obtain ⟨as, bs, rfl⟩ := List.append_of_mem hx
  obtain ⟨q, h₁, h₂⟩ := h.of_append
  obtain rfl := h₂.next_eq
  exact ⟨as, bs, rfl, h₁, h₂⟩

/-- Walks that stop are determined by where they begin. -/
theorem unique (h : L.Leads next l rest) (hrest : L.Stop rest) :
    ∀ {l' last}, L.Leads next l' last → L.Stop last → l = l' ∧ rest = last := by
  induction h with
  | nil p =>
    intro l' last h' _
    cases h' with
    | nil => exact ⟨rfl, rfl⟩
    | cons hb _ => cases (hrest _ rfl).symm.trans hb
  | cons hb hq ih =>
    intro l' last h' hlast
    cases h' with
    | nil => cases (hlast _ rfl).symm.trans hb
    | cons hb' hq' =>
      obtain rfl := Option.some.inj (hb.symm.trans hb')
      obtain ⟨rfl, rfl⟩ := ih hrest hq' hlast
      exact ⟨rfl, rfl⟩

/-- **A walk that stops meets no stack twice.** -/
theorem nodup (h : L.Leads next l rest) (hrest : L.Stop rest) : l.Nodup := by
  induction h with
  | nil => exact .nil
  | @cons b q rest l hb hq ih =>
    refine List.nodup_cons.2 ⟨fun hmem => ?_, ih hrest⟩
    -- the walk from the second meeting on would be as long as the whole
    obtain ⟨as, bs, rfl, -, h⟩ := hq.of_mem hmem
    have hlen := congrArg List.length ((Leads.cons hb hq).unique hrest h hrest).1
    simp only [List.length_cons, List.length_append] at hlen
    omega

end Leads

theorem isChain_iff_leads : L.IsChain b l ↔ L.Leads (some b) l none := by
  constructor
  · intro h
    induction h with
    | last hb => exact .cons hb (.nil none)
    | cons hb _ ih => exact .cons hb ih
  · intro h
    generalize hnext : some b = next, hrest : none = rest at h
    induction h generalizing b with
    | nil => cases hnext.trans hrest.symm
    | @cons b' q rest l hb hq ih =>
      obtain rfl := Option.some.inj hnext
      cases q with
      | some p => exact .cons hb (ih rfl hrest)
      | none =>
        cases hq
        exact .last hb

theorem stop_none : L.Stop none := nofun

theorem IsChain.getLast?_eq_some (h : L.IsChain b l) (p : BlockId) : l.getLast? = some (l.getLastD p) := by
  cases h <;> simp [List.getLast?_cons]

/-! ### Stacks reached -/

theorem Reaches.refl (L : Links) (b : BlockId) : L.Reaches b b := ⟨[], .nil _⟩

theorem Reaches.head (hb : L a = some (some b)) (h : L.Reaches b c) : L.Reaches a c :=
  h.imp' (a :: ·) fun _ h => .cons hb h

theorem IsChain.mem_of_reaches (h : L.IsChain b l) (hx : L.Reaches b x) : x ∈ l := by
  obtain ⟨as, hl⟩ := hx
  induction h generalizing as with
  | last hb =>
    cases hl with
    | nil => simp
    | cons hb' hq =>
      obtain rfl := Option.some.inj (hb.symm.trans hb')
      cases hq
  | cons hb _ ih =>
    cases hl with
    | nil => simp
    | cons hb' hq =>
      obtain rfl := Option.some.inj (hb.symm.trans hb')
      exact List.mem_cons_of_mem _ (ih _ hq)

theorem Leads.reaches (h : L.Leads (some b) l rest) (hx : x ∈ l) : L.Reaches b x := by
  obtain ⟨as, -, -, has, -⟩ := h.of_mem hx
  exact ⟨as, has⟩

/-- **What is reached from a stack whose chain ends** are the stacks of the chain. -/
theorem IsChain.reaches_iff (h : L.IsChain b l) : L.Reaches b x ↔ x ∈ l :=
  ⟨h.mem_of_reaches, (isChain_iff_leads.1 h).reaches⟩

/-! ### Walks that never stop -/

theorem Endless.link (h : L.Endless b) : ∃ p, L b = some (some p) ∧ L.Endless p := by
  obtain ⟨p, hp⟩ := h b (.refl L b)
  exact ⟨p, hp, fun x hx => h x (hx.head hp)⟩

/-- **It is enough to stay among some stacks** that have their parents there. -/
theorem Endless.of_closed {S : BlockId → Prop} (hS : ∀ x, S x → ∃ p, L x = some (some p) ∧ S p) (hb : S b) :
    L.Endless b := by
  rintro x ⟨l, hl⟩
  induction l generalizing b with
  | nil =>
    cases hl
    exact (hS _ hb).imp fun _ h => h.1
  | cons _ l ih =>
    cases hl with
    | cons hb' hq =>
      obtain ⟨p, hp, hSp⟩ := hS _ hb
      obtain rfl := Option.some.inj (hp.symm.trans hb')
      exact ih hSp hq

theorem Endless.of_link (hb : L a = some (some b)) (h : L.Endless b) : L.Endless a := by
  refine .of_closed (S := fun x => x = a ∨ L.Endless x) ?_ (.inl rfl)
  rintro x (rfl | hx)
  · exact ⟨b, hb, .inr h⟩
  · obtain ⟨p, hp, hend⟩ := hx.link
    exact ⟨p, hp, .inr hend⟩

theorem Leads.not_endless (h : L.Leads next l rest) (hrest : L.Stop rest) (hx : x ∈ l) : ¬ L.Endless x := by
  intro hend
  induction h generalizing x with
  | nil => cases hx
  | @cons b q rest l hb hq ih =>
    rcases List.mem_cons.1 hx with rfl | hx
    · obtain ⟨p, hp, hend⟩ := hend.link
      obtain rfl := Option.some.inj (hb.symm.trans hp)
      cases hq with
      | nil =>
        obtain ⟨p', hp', -⟩ := hend.link
        cases (hrest p rfl).symm.trans hp'
      | cons => exact ih hrest List.mem_cons_self hend
    · exact ih hrest hx hend

/-- **A walk goes on for ever, or it stops.** -/
theorem endless_or_stops (L : Links) (b : BlockId) : L.Endless b ∨ ∃ l rest, L.Leads (some b) l rest ∧ L.Stop rest := by
  by_cases h : L.Endless b
  · exact .inl h
  · obtain ⟨x, ⟨l, hl⟩, hx⟩ := by simpa only [Endless, not_forall] using h
    cases hlink : L x with
    | none => exact .inr ⟨l, some x, hl, fun y hy => Option.some.inj hy ▸ hlink⟩
    | some p =>
      cases p with
      | none => exact .inr ⟨l ++ [x], none, hl.snoc hlink, stop_none⟩
      | some p => exact absurd ⟨p, hlink⟩ hx

/-- **A walk into a cycle**: it passes the stacks `as` and goes round `c` and `cs` from then on. -/
structure Lasso (L : Links) (b : BlockId) (as : List BlockId) (c : BlockId) (cs : List BlockId) : Prop where
  tail : L.Leads (some b) as (some c)
  cycle : L.Leads (some c) (c :: cs) (some c)
  nodup : (as ++ c :: cs).Nodup

namespace Lasso

theorem congr (h : L.Lasso b as c cs) (heq : ∀ x ∈ as ++ c :: cs, L' x = L x) : L'.Lasso b as c cs where
  tail := h.tail.congr fun x hx => heq x (List.mem_append_left _ hx)
  cycle := h.cycle.congr fun x hx => heq x (List.mem_append_right _ hx)
  nodup := h.nodup

theorem leads (h : L.Lasso b as c cs) : L.Leads (some b) (as ++ c :: cs) (some c) := h.tail.append h.cycle

theorem endless_of_mem (h : L.Lasso b as c cs) (hx : x ∈ as ++ c :: cs) : L.Endless x := by
  refine .of_closed (S := (· ∈ as ++ c :: cs)) (fun y hy => ?_) hx
  obtain ⟨q, hq, rfl | ⟨z, hz, rfl⟩⟩ := h.leads.link hy
  · exact ⟨c, hq, by simp⟩
  · exact ⟨z, hq, hz⟩

theorem mem (h : L.Lasso b as c cs) : b ∈ as ++ c :: cs := by
  have hleads := h.leads
  cases hl : as ++ c :: cs with
  | nil => simp at hl
  | cons x l =>
    rw [hl] at hleads
    obtain rfl := Option.some.inj hleads.next_eq
    exact List.mem_cons_self

theorem endless (h : L.Lasso b as c cs) : L.Endless b := h.endless_of_mem h.mem

end Lasso

/-- **Among finitely many stacks a walk that never stops enters a cycle.** -/
theorem Endless.exists_lasso {n : Nat} (h : L.Endless b)
    (hfinite : ∀ l : List BlockId, l.Nodup → (∀ x ∈ l, (L x).isSome) → l.length ≤ n) :
    ∃ as c cs, L.Lasso b as c cs := by
  -- the walk is followed until it comes to a stack it has met
  have hgo : ∀ k l p, L.Leads (some b) l (some p) → l.Nodup → n < l.length + k → ∃ as c cs, L.Lasso b as c cs := by
    intro k
    induction k with
    | zero =>
      intro l p hl hnodup hlong
      exact absurd (hfinite l hnodup hl.live) (Nat.not_le_of_lt hlong)
    | succ k ih =>
      intro l p hl hnodup hlong
      by_cases hp : p ∈ l
      · obtain ⟨as, cs, rfl, hastail, hcycle⟩ := hl.of_mem hp
        exact ⟨as, p, cs, hastail, hcycle, hnodup⟩
      · obtain ⟨q, hq⟩ := h p ⟨l, hl⟩
        refine ih (l ++ [p]) q (hl.snoc hq) ?_ (by simp only [List.length_append, List.length_singleton]; omega)
        exact List.nodup_append.2 ⟨hnodup, by simp, by grind⟩
  exact hgo (n + 1) [] b (.nil _) .nil (by simp)

/-! ### Walks on -/

/-- **A chain hung under a stack** goes on as the links from there do. -/
theorem IsChain.hang (h : L.IsChain b l) (hlast : l.getLast? = some x) (hp : L.Leads (some p) lp rest) (hx : x ∉ lp) :
    (L.set x (some p)).Leads (some b) (l ++ lp) rest := by
  have hp' : (L.set x (some p)).Leads (some p) lp rest :=
    hp.congr fun y hy => set_of_ne (ne_of_mem_of_not_mem hy hx) _
  induction h with
  | last hb =>
    obtain rfl := Option.some.inj hlast
    exact .cons (set_self L _ _) hp'
  | @cons b q l hb hq ih =>
    have hlast' : l.getLast? = some x := by
      rw [← hlast, List.getLast?_cons_of_ne_nil (List.ne_nil_of_mem hq.mem)]
    have hne : b ≠ x := by
      rintro rfl
      exact (List.nodup_cons.1 (IsChain.cons hb hq).nodup).1 (List.mem_of_getLast? hlast')
    exact .cons ((set_of_ne hne _).trans hb) (ih hlast')

/-! ### Walks back -/

/-- **Links turned round lead back**, from the last stack to where they were turned to. -/
theorem Reversed.leads (h : L.Reversed p l) : L.Leads (some (l.getLastD p)) l.reverse (some p) := by
  induction l generalizing p with
  | nil => exact .nil _
  | cons b l ih =>
    rw [List.getLastD_cons, List.reverse_cons]
    exact (ih h.2).snoc h.1

end FiberStacks.Links
