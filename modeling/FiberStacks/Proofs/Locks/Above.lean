import FiberStacks.Proofs.Locks.Records

/-!
# Frames above frames

`Above f₀ f` says that the frames `f` are the frames `f₀`, with possibly more records at the end of the innermost
ledger and more frames above.  Every operation that spares the frames and the records of `f₀` keeps this, and an
unwinding to `f₀` ends with `f₀` itself.

* `above_addLock`, `above_push`, `above_pop?`, `above_remove?` — the operations on locks and frames;
* `above_unwind` — an unwinding that stops above `f₀`;
* `Above.unwind_eq` — **an unwinding to the frames of some time restores them**.
-/

namespace FiberStacks

/-- A frame with more records at the end of its ledger. -/
def LocalFrame.grown (x : LocalFrame) (kept : List LockRecord) : LocalFrame :=
  { x with ledger := ⟨x.ledger.records ++ kept⟩ }

theorem append_cons_eq_append_of_notMem {α : Type} {as bs cs ds : List α} {x : α} (h : as ++ x :: bs = cs ++ ds)
    (hx : x ∉ cs) : ∃ es, as = cs ++ es ∧ ds = es ++ x :: bs := by
  rcases List.append_eq_append_iff.1 h with ⟨es, rfl, hes⟩ | h
  · cases es with
    | nil => exact ⟨[], by simp, by simpa using hes.symm⟩
    | cons y es =>
      obtain rfl := List.head_eq_of_cons_eq hes
      exact absurd (by simp) hx
  · exact h

namespace LocalFrames

/-! ### The frames as a list -/

theorem length_toList (f : LocalFrames) : f.toList.length = f.depth := by
  simp [toList, depth]

theorem length_outer (f : LocalFrames) : f.outer.length + 1 = f.depth := by
  rw [← length_toList, toList_eq, List.length_append, List.length_singleton]

theorem toList_inj {f g : LocalFrames} : f.toList = g.toList ↔ f = g := by
  refine ⟨fun h => ?_, congrArg _⟩
  rw [← ofList_toList f, h, ofList_toList]

theorem toList_push (f : LocalFrames) (x : LocalFrame) : (f.push x).toList = f.toList ++ [x] := by
  simp [toList, push]

theorem toList_pop? {f f' : LocalFrames} {x : LocalFrame} (h : f.pop? = some (x, f')) :
    f.toList = f'.toList ++ [x] := by
  obtain ⟨inner, base⟩ := f
  cases inner with
  | nil => cases h
  | cons y rest =>
    obtain ⟨rfl, rfl⟩ := Prod.mk.inj (Option.some.inj h)
    simp [toList]

theorem toList_remove?_go {id : LockId} {r : LockRecord} : ∀ {inner inner' : List LocalFrame},
    remove?.go id inner = some (r, inner') →
    ∃ as x l bs, inner = as ++ x :: bs ∧ inner' = as ++ { x with ledger := l } :: bs ∧
      x.ledger.remove? id = some (r, l) := by
  intro inner
  induction inner with
  | nil => intro inner' h; cases h
  | cons x rest ih =>
    intro inner' h
    rw [remove?.go] at h
    split at h
    · next l hx =>
      obtain ⟨rfl, rfl⟩ := Prod.mk.inj (Option.some.inj h)
      exact ⟨[], x, l, rest, rfl, rfl, hx⟩
    · obtain ⟨p, hp, he⟩ := Option.map_eq_some_iff.1 h
      obtain ⟨rfl, rfl⟩ := Prod.mk.inj he
      obtain ⟨as, y, l, bs, rfl, h2, h3⟩ := ih hp
      exact ⟨x :: as, y, l, bs, rfl, by rw [h2]; rfl, h3⟩

theorem toList_remove? {f f' : LocalFrames} {id : LockId} {r : LockRecord} (h : f.remove? id = some (r, f')) :
    ∃ as x l bs, f.toList = as ++ x :: bs ∧ f'.toList = as ++ { x with ledger := l } :: bs ∧
      x.ledger.remove? id = some (r, l) := by
  obtain ⟨inner, base⟩ := f
  unfold remove? at h
  split at h
  · next hgo =>
    obtain ⟨rfl, rfl⟩ := Prod.mk.inj (Option.some.inj h)
    obtain ⟨as, x, l, bs, rfl, rfl, h3⟩ := toList_remove?_go hgo
    exact ⟨base :: bs.reverse, x, l, as.reverse, by simp [toList], by simp [toList], h3⟩
  · obtain ⟨p, hp, he⟩ := Option.map_eq_some_iff.1 h
    obtain ⟨rfl, rfl⟩ := Prod.mk.inj he
    exact ⟨[], base, p.2, inner.reverse, rfl, rfl, hp⟩

theorem depth_pop? {f f' : LocalFrames} {x : LocalFrame} (h : f.pop? = some (x, f')) : f.depth = f'.depth + 1 := by
  rw [← length_toList, ← length_toList, toList_pop? h, List.length_append, List.length_singleton]

theorem depth_remove? {f f' : LocalFrames} {id : LockId} {r : LockRecord} (h : f.remove? id = some (r, f')) :
    f'.depth = f.depth := by
  obtain ⟨as, x, l, bs, h1, h2, -⟩ := toList_remove? h
  rw [← length_toList, ← length_toList, h1, h2]
  simp

/-! ### Above -/

/-- The frames `f` are the frames `f₀`, with the records `kept` added to the innermost one of them and the frames
`rest` on top. -/
def Over (f₀ f : LocalFrames) (kept : List LockRecord) (rest : List LocalFrame) : Prop :=
  f.toList = f₀.outer ++ f₀.innermost.grown kept :: rest

/-- The frames `f` are the frames `f₀` but for additions at the end, and all records added satisfy `P`. -/
def Above (P : LockRecord → Prop) (f₀ f : LocalFrames) : Prop :=
  ∃ kept rest, f₀.Over f kept rest ∧ ∀ r ∈ kept ++ rest.flatMap fun x => x.ledger.records, P r

variable {P : LockRecord → Prop} {f₀ f f' : LocalFrames} {kept : List LockRecord} {rest : List LocalFrame}

theorem over_self (f : LocalFrames) : f.Over f [] [] := by
  unfold Over LocalFrame.grown
  rw [List.append_nil]
  exact f.toList_eq

theorem above_self (f : LocalFrames) : f.Above P f := ⟨[], [], over_self f, by simp⟩

theorem Over.depth (h : f₀.Over f kept rest) : f.depth = f₀.depth + rest.length := by
  rw [← length_toList, h, ← length_outer]
  simp
  omega

theorem Over.records (h : f₀.Over f kept rest) :
    f.records = f₀.records ++ (kept ++ rest.flatMap fun x => x.ledger.records) := by
  unfold LocalFrames.records
  rw [h, f₀.toList_eq]
  simp [LocalFrame.grown]

theorem Above.depth_le (h : f₀.Above P f) : f₀.depth ≤ f.depth := by
  obtain ⟨kept, rest, h, -⟩ := h
  rw [h.depth]
  omega

theorem Above.records (h : f₀.Above P f) : ∃ added, f.records = f₀.records ++ added ∧ ∀ r ∈ added, P r := by
  obtain ⟨kept, rest, h, hP⟩ := h
  exact ⟨_, h.records, hP⟩

theorem Over.eq_nil_or_concat (h : f₀.Over f kept rest) :
    rest = [] ∧ f.outer = f₀.outer ∧ f.innermost = f₀.innermost.grown kept ∨
      ∃ rest', rest = rest' ++ [f.innermost] ∧ f.outer = f₀.outer ++ f₀.innermost.grown kept :: rest' := by
  unfold Over at h
  rw [toList_eq] at h
  rcases List.eq_nil_or_concat rest with rfl | ⟨rest', x, rfl⟩
  · obtain ⟨h1, h2⟩ := List.append_inj' h rfl
    exact .inl ⟨rfl, h1, List.head_eq_of_cons_eq h2⟩
  · rw [List.concat_eq_append] at h ⊢
    rw [← List.cons_append, ← List.append_assoc] at h
    obtain ⟨h1, h2⟩ := List.append_inj' h rfl
    obtain rfl := List.head_eq_of_cons_eq h2
    exact .inr ⟨rest', rfl, h1⟩

theorem Above.size_le (h : f₀.Above P f) (hd : f.depth = f₀.depth) :
    f₀.innermost.ledger.size ≤ f.innermost.ledger.size := by
  obtain ⟨kept, rest, h, -⟩ := h
  have hlen := h.depth
  rcases h.eq_nil_or_concat with ⟨-, -, hin⟩ | ⟨rest', rfl, -⟩
  · rw [hin]
    simp [LocalFrame.grown, Ledger.size]
  · simp only [List.length_append, List.length_singleton] at hlen
    omega

theorem Above.setInnermost {x : LocalFrame} (h : f₀.Above P f)
    (hgrown : f.depth = f₀.depth → ∀ kept, f.innermost = f₀.innermost.grown kept → (∀ r ∈ kept, P r) →
      ∃ kept', x = f₀.innermost.grown kept' ∧ ∀ r ∈ kept', P r)
    (hx : (∀ r ∈ f.innermost.ledger.records, P r) → ∀ r ∈ x.ledger.records, P r) :
    f₀.Above P (f.setInnermost x) := by
  obtain ⟨kept, rest, h, hP⟩ := h
  rcases h.eq_nil_or_concat with ⟨rfl, h1, h2⟩ | ⟨rest', rfl, h1⟩
  · obtain ⟨kept', rfl, hk⟩ := hgrown h.depth kept h2 fun r hr => hP r (by simp [hr])
    refine ⟨kept', [], ?_, by simpa using hk⟩
    unfold Over
    rw [toList_setInnermost, h1]
  · refine ⟨kept, rest' ++ [x], ?_, fun r hr => ?_⟩
    · unfold Over
      rw [toList_setInnermost, h1, List.append_assoc]
      rfl
    · rw [List.flatMap_append] at hP hr
      simp only [List.flatMap_singleton, List.mem_append] at hP hr
      rcases hr with hr | hr | hr
      · exact hP r (.inl hr)
      · exact hP r (.inr (.inl hr))
      · exact hx (fun r hr => hP r (.inr (.inr hr))) r hr

/-! ### The operations -/

theorem above_addLock {r : LockRecord} (h : f₀.Above P f) (hr : P r) : f₀.Above P (f.addLock r) := by
  refine h.setInnermost (fun _ kept hk hP => ⟨kept ++ [r], ?_, ?_⟩) fun hP r' hr' => ?_
  · rw [hk]
    simp [LocalFrame.grown, Ledger.push]
  · rintro r' hr'
    rcases List.mem_append.1 hr' with hr' | hr'
    · exact hP r' hr'
    · obtain rfl := List.mem_singleton.1 hr'
      exact hr
  · rcases List.mem_append.1 hr' with hr' | hr'
    · exact hP r' hr'
    · obtain rfl := List.mem_singleton.1 hr'
      exact hr

theorem above_push {roots : List Word} (h : f₀.Above P f) : f₀.Above P (f.push (.ofRoots roots)) := by
  obtain ⟨kept, rest, h, hP⟩ := h
  refine ⟨kept, rest ++ [.ofRoots roots], ?_, by simpa [LocalFrame.ofRoots, Ledger.empty] using hP⟩
  unfold Over
  rw [toList_push, h, List.append_assoc]
  rfl

theorem above_pop? {x : LocalFrame} (h : f₀.Above P f) (hd : f₀.depth < f.depth) (hp : f.pop? = some (x, f')) :
    f₀.Above P f' := by
  obtain ⟨kept, rest, h, hP⟩ := h
  have hlen := h.depth
  rcases List.eq_nil_or_concat rest with rfl | ⟨rest', y, rfl⟩
  · simp only [List.length_nil] at hlen
    omega
  · rw [List.concat_eq_append] at h hP
    refine ⟨kept, rest', ?_, fun r hr => hP r ?_⟩
    · unfold Over at h ⊢
      rw [toList_pop? hp, ← List.cons_append, ← List.append_assoc] at h
      exact (List.append_inj' h rfl).1
    · rw [List.flatMap_append, ← List.append_assoc]
      exact List.mem_append_left _ hr

theorem above_remove? {id : LockId} {r : LockRecord} (h : f₀.Above P f) (hid : ∀ r ∈ f₀.records, r.id ≠ id)
    (hr : f.remove? id = some (r, f')) : f₀.Above P f' := by
  obtain ⟨kept, rest, h, hP⟩ := h
  obtain ⟨as, x, l, bs, h1, h2, hl⟩ := toList_remove? hr
  obtain ⟨cs, ds, hx, hl', rfl⟩ := Ledger.records_remove? hl
  have hmem : ∀ y ∈ f₀.toList, r ∉ y.ledger.records := fun y hy hry =>
    hid r (List.mem_flatMap.2 ⟨y, hy, hry⟩) rfl
  rw [f₀.toList_eq] at hmem
  have hout : x ∉ f₀.outer := fun hxo => hmem x (by simp [hxo]) (by simp [hx])
  obtain ⟨es, rfl, hes⟩ := append_cons_eq_append_of_notMem (h1.symm.trans h) hout
  cases es with
  | nil =>
    -- the record is one of those added to the innermost frame
    obtain ⟨rfl, rfl⟩ := List.cons.inj hes
    obtain ⟨k, rfl, rfl⟩ := append_cons_eq_append_of_notMem hx.symm (hmem _ (by simp))
    refine ⟨k ++ ds, rest, ?_, fun r' hr' => hP r' ?_⟩
    · have hl : l = ⟨f₀.innermost.ledger.records ++ (k ++ ds)⟩ := by
        rw [← List.append_assoc, ← hl']
      unfold Over
      rw [h2, hl]
      simp [LocalFrame.grown]
    · simp only [List.append_assoc, List.mem_append, List.mem_cons] at hr' ⊢
      tauto
  | cons y es =>
    obtain rfl := List.head_eq_of_cons_eq hes
    obtain rfl : rest = es ++ x :: bs := List.tail_eq_of_cons_eq hes
    refine ⟨kept, es ++ { x with ledger := l } :: bs, by simp [Over, h2], fun r' hr' => hP r' ?_⟩
    simp only [List.flatMap_append, List.flatMap_cons, List.mem_append, hx, hl', List.mem_cons] at hr' ⊢
    tauto

/-! ### Unwinding -/

theorem depth_upTo {depth : Nat} (h1 : 1 ≤ depth) (h2 : depth ≤ f.depth) : (f.upTo depth).depth = depth := by
  rw [← length_toList, toList_upTo h1, List.length_take, length_toList]
  omega

theorem one_le_depth (f : LocalFrames) : 1 ≤ f.depth := Nat.le_add_left 1 _

theorem Over.upTo {depth : Nat} (h : f₀.Over f kept rest) (hd : f₀.depth ≤ depth) :
    f₀.Over (f.upTo depth) kept (rest.take (depth - f₀.depth)) := by
  have h1 := f₀.one_le_depth
  have hlen := f₀.length_outer
  unfold Over at h ⊢
  obtain ⟨n, rfl⟩ := Nat.exists_eq_add_of_le hd
  have hn : f₀.depth + n - f₀.outer.length = n + 1 := by omega
  rw [toList_upTo (by omega), h, List.take_append, List.take_of_length_le (by omega), hn, List.take_succ_cons,
    Nat.add_sub_cancel_left]

theorem depth_unwind {depth mark : Nat} (h1 : 1 ≤ depth) (h2 : depth ≤ f.depth) :
    (f.unwind depth mark).2.depth = depth := by
  rw [LocalFrames.unwind_eq, depth_setInnermost, depth_upTo h1 h2]

theorem above_unwind {depth mark : Nat} (h : f₀.Above P f) (h1 : f₀.depth ≤ depth) (h2 : depth ≤ f.depth)
    (hm : depth = f₀.depth → f₀.innermost.ledger.size ≤ mark) : f₀.Above P (f.unwind depth mark).2 := by
  have hup : f₀.Above P (f.upTo depth) := by
    obtain ⟨kept, rest, h, hP⟩ := h
    refine ⟨kept, _, h.upTo h1, fun r hr => hP r ?_⟩
    rcases List.mem_append.1 hr with hr | hr
    · exact List.mem_append_left _ hr
    · obtain ⟨x, hx, hr⟩ := List.mem_flatMap.1 hr
      exact List.mem_append_right _ (List.mem_flatMap.2 ⟨x, List.mem_of_mem_take hx, hr⟩)
  have hd : (f.upTo depth).depth = depth := depth_upTo (f₀.one_le_depth.trans h1) h2
  rw [unwind_eq]
  refine hup.setInnermost (fun hd' kept hk hP => ?_) fun hP r hr => hP r (List.mem_of_mem_take hr)
  -- the mark is not below the records of `f₀`
  refine ⟨kept.take (mark - f₀.innermost.ledger.size), ?_, fun r hr => hP r (List.mem_of_mem_take hr)⟩
  have hmark := hm (hd.symm.trans hd')
  unfold Ledger.size at hmark
  rw [hk]
  simp [LocalFrame.grown, Ledger.cut, Ledger.size, List.take_append, List.take_of_length_le hmark]

/-- **An unwinding to the frames of some time restores them.** -/
theorem Above.unwind_eq (h : f₀.Above P f) : (f.unwind f₀.depth f₀.innermost.ledger.size).2 = f₀ := by
  obtain ⟨kept, rest, h, -⟩ := h
  have hup := h.upTo le_rfl
  rw [Nat.sub_self, List.take_zero] at hup
  rcases hup.eq_nil_or_concat with ⟨-, hout, hin⟩ | ⟨rest', hnil, -⟩
  · have hcut : ((f₀.innermost.grown kept).ledger.cut f₀.innermost.ledger.size).2 = f₀.innermost.ledger := by
      simp [LocalFrame.grown, Ledger.cut, Ledger.size]
    rw [LocalFrames.unwind_eq, ← toList_inj, toList_setInnermost, hout, hin, hcut, f₀.toList_eq]
    rfl
  · simp at hnil

end LocalFrames

end FiberStacks
