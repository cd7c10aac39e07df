import FiberStacks.Domain
import Mathlib.Algebra.Ring.Nat
import Mathlib.Data.List.Infix
import Mathlib.Data.List.Perm.Subperm

/-!
# Lock records

The records of all frames of a domain, read from the base frame up and oldest lock first, are one list.  Each
operation on frames is a small change of it:

* `records_push`, `records_pop?` — a frame without locks comes or goes without a trace;
* `records_addLock` — a lock taken goes to the end;
* `records_remove?` — a lock given back leaves its place;
* `records_unwind` — an unwinding cuts off an end, and releases what it cuts off from the end on.
-/

namespace FiberStacks

namespace Ledger

theorem records_remove? {l l' : Ledger} {id : LockId} {r : LockRecord} (h : l.remove? id = some (r, l')) :
    ∃ as bs, l.records = as ++ r :: bs ∧ l'.records = as ++ bs ∧ r.id = id := by
  unfold remove? at h
  rw [List.findRev?_eq_find?_reverse] at h
  obtain ⟨r', hr, he⟩ := Option.map_eq_some_iff.1 h
  obtain ⟨rfl, rfl⟩ := Prod.mk.inj he
  obtain ⟨hid, as, bs, hl, has⟩ := List.find?_eq_some_iff_append.1 hr
  refine ⟨bs.reverse, as.reverse, ?_, ?_, by simpa using hid⟩
  · rw [← List.reverse_reverse l.records, hl]
    simp
  · have he : l.records.reverse.eraseP (fun r => r.id == id) = as ++ bs := by
      rw [hl, List.eraseP_append_right _ fun b hb => by simpa using has b hb]
      simp [hid]
    simp [he]

theorem ne_of_remove?_eq_none {l : Ledger} {id : LockId} (h : l.remove? id = none) : ∀ r ∈ l.records, r.id ≠ id := by
  unfold remove? at h
  rw [List.findRev?_eq_find?_reverse] at h
  simpa using h

end Ledger

namespace LocalFrames

def addLock (f : LocalFrames) (r : LockRecord) : LocalFrames :=
  f.setInnermost { f.innermost with ledger := f.innermost.ledger.push r }

/-! ### The frames as a list -/

/-- All frames but the innermost, oldest first. -/
def outer (f : LocalFrames) : List LocalFrame :=
  match f.inner with
  | [] => []
  | _ :: rest => f.base :: rest.reverse

theorem toList_eq (f : LocalFrames) : f.toList = f.outer ++ [f.innermost] := by
  obtain ⟨inner, base⟩ := f
  cases inner with
  | nil => rfl
  | cons x rest => simp [outer, toList, innermost]

theorem toList_setInnermost (f : LocalFrames) (x : LocalFrame) : (f.setInnermost x).toList = f.outer ++ [x] := by
  obtain ⟨inner, base⟩ := f
  cases inner with
  | nil => rfl
  | cons y rest => simp [outer, toList, setInnermost]

theorem records_eq (f : LocalFrames) :
    f.records = (f.outer.flatMap fun x => x.ledger.records) ++ f.innermost.ledger.records := by
  simp [records, toList_eq]

theorem records_setInnermost (f : LocalFrames) (x : LocalFrame) :
    (f.setInnermost x).records = (f.outer.flatMap fun x => x.ledger.records) ++ x.ledger.records := by
  simp [records, toList_setInnermost]

/-- The records of the frames above the base frame, innermost frame first, come after those of the base frame. -/
theorem records_mk (inner : List LocalFrame) (base : LocalFrame) :
    records ⟨inner, base⟩ = base.ledger.records ++ inner.reverse.flatMap fun x => x.ledger.records := rfl

/-! ### What the operations do -/

theorem records_push (f : LocalFrames) (roots : List Word) : (f.push (.ofRoots roots)).records = f.records := by
  simp [records, toList, push, LocalFrame.ofRoots, Ledger.empty]

theorem records_pop? {f f' : LocalFrames} {x : LocalFrame} (h : f.pop? = some (x, f')) :
    f.records = f'.records ++ x.ledger.records := by
  obtain ⟨inner, base⟩ := f
  cases inner with
  | nil => cases h
  | cons y rest =>
    obtain ⟨rfl, rfl⟩ := Prod.mk.inj (Option.some.inj h)
    simp [records_mk]

theorem records_addLock (f : LocalFrames) (r : LockRecord) : (f.addLock r).records = f.records ++ [r] := by
  rw [addLock, records_setInnermost, records_eq f, List.append_assoc]
  rfl

theorem records_remove?_go {id : LockId} {r : LockRecord} : ∀ {inner inner' : List LocalFrame},
    remove?.go id inner = some (r, inner') →
    ∃ as bs, (inner.reverse.flatMap fun x => x.ledger.records) = as ++ r :: bs ∧
      (inner'.reverse.flatMap fun x => x.ledger.records) = as ++ bs ∧ r.id = id := by
  intro inner
  induction inner with
  | nil => intro inner' h; cases h
  | cons x rest ih =>
    intro inner' h
    rw [remove?.go] at h
    split at h
    · next hx =>
      obtain ⟨rfl, rfl⟩ := Prod.mk.inj (Option.some.inj h)
      obtain ⟨as, bs, h1, h2, h3⟩ := Ledger.records_remove? hx
      exact ⟨(rest.reverse.flatMap fun x => x.ledger.records) ++ as, bs, by simp [h1], by simp [h2], h3⟩
    · obtain ⟨p, hp, he⟩ := Option.map_eq_some_iff.1 h
      obtain ⟨rfl, rfl⟩ := Prod.mk.inj he
      obtain ⟨as, bs, h1, h2, h3⟩ := ih hp
      exact ⟨as, bs ++ x.ledger.records, by simp [h1], by simp [h2], h3⟩

theorem records_remove? {f f' : LocalFrames} {id : LockId} {r : LockRecord} (h : f.remove? id = some (r, f')) :
    ∃ as bs, f.records = as ++ r :: bs ∧ f'.records = as ++ bs ∧ r.id = id := by
  obtain ⟨inner, base⟩ := f
  unfold remove? at h
  split at h
  · next hgo =>
    obtain ⟨rfl, rfl⟩ := Prod.mk.inj (Option.some.inj h)
    obtain ⟨as, bs, h1, h2, h3⟩ := records_remove?_go hgo
    exact ⟨base.ledger.records ++ as, bs, by simp [records_mk, h1], by simp [records_mk, h2], h3⟩
  · obtain ⟨p, hp, he⟩ := Option.map_eq_some_iff.1 h
    obtain ⟨rfl, rfl⟩ := Prod.mk.inj he
    obtain ⟨as, bs, h1, h2, h3⟩ := Ledger.records_remove? hp
    refine ⟨as, bs ++ inner.reverse.flatMap fun x => x.ledger.records, ?_, ?_, h3⟩
    · rw [records_mk, h1]; simp
    · rw [records_mk, h2]; simp

theorem ne_of_remove?_go_eq_none {id : LockId} : ∀ {inner : List LocalFrame}, remove?.go id inner = none →
    ∀ x ∈ inner, ∀ r ∈ x.ledger.records, r.id ≠ id := by
  intro inner
  induction inner with
  | nil => intro _ x hx; cases hx
  | cons y rest ih =>
    intro h
    rw [remove?.go] at h
    split at h
    · cases h
    · next hy =>
      intro x hx
      rcases List.mem_cons.1 hx with rfl | hx
      · exact Ledger.ne_of_remove?_eq_none hy
      · exact ih (Option.map_eq_none_iff.1 h) x hx

theorem ne_of_remove?_eq_none {f : LocalFrames} {id : LockId} (h : f.remove? id = none) :
    ∀ r ∈ f.records, r.id ≠ id := by
  obtain ⟨inner, base⟩ := f
  unfold remove? at h
  split at h
  · cases h
  · next hgo =>
    have hbase := Ledger.ne_of_remove?_eq_none (Option.map_eq_none_iff.1 h)
    have hinner := ne_of_remove?_go_eq_none hgo
    intro r hr
    rw [records_mk] at hr
    rcases List.mem_append.1 hr with hr | hr
    · exact hbase r hr
    · obtain ⟨x, hx, hr⟩ := List.mem_flatMap.1 hr
      exact hinner x (List.mem_reverse.1 hx) r hr

/-! ### Unwinding -/

/-- The frames up to a depth, the base frame always among them. -/
def upTo (f : LocalFrames) (depth : Nat) : LocalFrames := { f with inner := f.inner.drop (f.depth - depth) }

theorem unwind_eq (f : LocalFrames) (depth mark : Nat) :
    (f.unwind depth mark).2 = (f.upTo depth).setInnermost
      { (f.upTo depth).innermost with ledger := ((f.upTo depth).innermost.ledger.cut mark).2 } := rfl

theorem toList_upTo {f : LocalFrames} {depth : Nat} (h : 1 ≤ depth) : (f.upTo depth).toList = f.toList.take depth := by
  obtain ⟨inner, base⟩ := f
  obtain ⟨d, rfl⟩ : ∃ d, depth = d + 1 := ⟨depth - 1, by omega⟩
  simp only [upTo, toList, LocalFrames.depth, List.take_succ_cons, List.take_reverse, List.cons.injEq,
    List.reverse_inj, true_and]
  congr 1
  omega

theorem records_upTo (f : LocalFrames) (depth : Nat) :
    f.records = (f.upTo depth).records ++
      (f.inner.take (f.depth - depth)).reverse.flatMap fun x => x.ledger.records := by
  obtain ⟨inner, base⟩ := f
  rw [upTo, records_mk, records_mk, List.append_assoc, ← List.flatMap_append, ← List.reverse_append,
    List.take_append_drop]

/-- **An unwinding cuts off an end of the records.** -/
theorem records_unwind (f : LocalFrames) (depth mark : Nat) :
    (f.unwind depth mark).2.records ++ (f.unwind depth mark).1.reverse = f.records := by
  have hcut := Ledger.cut_append (f.upTo depth).innermost.ledger mark
  have hreleased : (f.unwind depth mark).1.reverse = ((f.upTo depth).innermost.ledger.cut mark).1.reverse ++
      (f.inner.take (f.depth - depth)).reverse.flatMap fun x => x.ledger.records := by
    unfold unwind
    rw [List.reverse_append, List.reverse_flatMap]
    simp [Function.comp_def, upTo]
  rw [hreleased, unwind_eq, records_setInnermost, records_upTo f depth, records_eq (f.upTo depth),
    List.append_assoc, List.append_assoc]
  congr 1
  rw [← List.append_assoc, hcut]

/-- The number of records an unwinding leaves: those of the frames below, and those up to the mark. -/
def standing (f : LocalFrames) (depth mark : Nat) : Nat :=
  ((f.upTo depth).outer.map fun x => x.ledger.size).sum + min mark (f.upTo depth).innermost.ledger.size

theorem length_records_unwind (f : LocalFrames) (depth mark : Nat) :
    (f.unwind depth mark).2.records.length = f.standing depth mark := by
  rw [unwind_eq, records_setInnermost, List.length_append, List.length_flatMap]
  have h := Ledger.size_cut (f.upTo depth).innermost.ledger mark
  unfold Ledger.size at h
  rw [h]
  rfl

end LocalFrames

end FiberStacks
