import FiberStacks.Proofs.Documents.Numerals
import FiberStacks.Toml.Document
import FiberStacks.Toml.Write

/-!
# Lines of a flat document

A line of a key and a value, `key = value`, is read as what it spells, whatever follows it, and a document of such
lines is read as the table of its entries.

* `SpellsKey`, `SpellsValue` — how keys, integers and texts are written;
* `Writes` — a text is the line of an entry, in front of any document;
* `writes_of_spells` — **what is spelled is written**;
* `read_join` — **a document of lines is the table of their entries**;
* `exists_write` — **a table of integers and texts is written as such lines**.
-/

namespace FiberStacks.Toml

open Text (signed)

variable {c d e : Char} {cs k v rest rest' : List Char} {key s : String} {node : Node} {n : Nat}

/-! ### Texts in double quotes -/

theorem readBasic_plain (hquote : c ≠ '\"') (hescape : c ≠ '\\') (htext : isTextChar c = true) :
    readBasic (n + 1) (c :: rest) = (readBasic n rest).map fun r => (c :: r.1, r.2) := by
  rw [readBasic, if_neg hquote, if_neg hescape, if_pos htext]
  cases readBasic n rest <;> rfl

theorem readBasic_escape (h : readEscape rest = some (e, rest')) :
    readBasic (n + 1) ('\\' :: rest) = (readBasic n rest').map fun r => (e :: r.1, r.2) := by
  rw [readBasic, if_neg (by decide), if_pos rfl, h]
  show (readBasic n rest').bind _ = _
  cases readBasic n rest' <;> rfl

theorem readEscape_code {a b c d : Char} (h : codePoint? [a, b, c, d] = some e) :
    readEscape ('u' :: a :: b :: c :: d :: rest) = some (e, rest) := by
  have hlen : ¬ (a :: b :: c :: d :: rest).length < 4 := Nat.not_lt_of_le (Nat.le_add_left 4 rest.length)
  show (if (a :: b :: c :: d :: rest).length < 4 then none else (codePoint? [a, b, c, d]).map _) = _
  rw [if_neg hlen, h]
  rfl

theorem lt_of_not_isTextChar (h : ¬ isTextChar c = true) : c.toNat < 128 := by
  simp only [isTextChar, Bool.or_eq_true, Bool.and_eq_true, decide_eq_true_eq] at h
  omega

theorem codePoint?_digits : ∀ n < 128,
    codePoint? ['0', '0', (n / 16).digitChar, (n % 16).digitChar] = some (Char.ofNat n) := by
  decide

/-- **A character that is written is read.** -/
theorem readBasic_basicChar (c : Char) (n : Nat) (rest : List Char) :
    readBasic (n + 1) (basicChar c ++ rest) = (readBasic n rest).map fun r => (c :: r.1, r.2) := by
  unfold basicChar
  split
  · next h =>
    rcases h with rfl | rfl
    · exact readBasic_escape rfl
    · exact readBasic_escape rfl
  · next h =>
    obtain ⟨hquote, hescape⟩ := not_or.1 h
    split
    · next htext => exact readBasic_plain hquote hescape htext
    · next htext =>
      have hcode := codePoint?_digits c.toNat (lt_of_not_isTextChar htext)
      rw [Char.ofNat_toNat] at hcode
      exact readBasic_escape (readEscape_code hcode)

/-- **A text that is written is read.** -/
theorem readBasic_flatMap : ∀ (cs : List Char) {n : Nat}, cs.length < n → ∀ rest,
    readBasic n (cs.flatMap basicChar ++ '\"' :: rest) = some (cs, rest)
  | [], n + 1, _, rest => rfl
  | c :: cs, n + 1, h, rest => by
    rw [List.flatMap_cons, List.append_assoc, readBasic_basicChar, readBasic_flatMap cs (Nat.lt_of_succ_lt_succ h)]
    rfl

theorem basicChar_ne (c : Char) : ∃ d ds, basicChar c = d :: ds ∧ d ≠ '\"' := by
  unfold basicChar
  split
  · exact ⟨'\\', [c], rfl, by decide⟩
  · next h =>
    split
    · exact ⟨c, [], rfl, fun hc => h (.inl hc)⟩
    · exact ⟨'\\', _, rfl, by decide⟩

theorem length_le_flatMap (cs : List Char) : cs.length ≤ (cs.flatMap basicChar).length := by
  induction cs with
  | nil => exact Nat.le_refl 0
  | cons c cs ih =>
    obtain ⟨d, ds, hd, -⟩ := basicChar_ne c
    rw [List.flatMap_cons, List.length_append, hd, List.length_cons, List.length_cons]
    omega

theorem basicText_append (cs rest : List Char) :
    basicText cs ++ rest = '\"' :: (cs.flatMap basicChar ++ '\"' :: rest) := by
  rw [basicText, List.cons_append, List.append_assoc, List.singleton_append]

theorem readShortText_basicText (cs rest : List Char) :
    readShortText (basicText cs ++ rest) = some (String.ofList cs, rest) := by
  have hlen := length_le_flatMap cs
  have hread := readBasic_flatMap cs (n := (cs.flatMap basicChar ++ '\"' :: rest).length + 1)
    (by rw [List.length_append]; omega) rest
  rw [basicText_append, readShortText]
  simp only [if_true, hread, Option.map_some]

theorem readText_eq (h : c ≠ d) : readText (c :: d :: rest) = readShortText (c :: d :: rest) := by
  cases rest with
  | nil => rfl
  | cons e rest => rw [readText, if_neg fun hsame => h hsame.1]

theorem readText_basicText (cs rest : List Char) (hc : c ≠ '\"') :
    readText (basicText cs ++ c :: rest) = some (String.ofList cs, c :: rest) := by
  rw [← readShortText_basicText]
  cases cs with
  | nil => exact if_neg fun hsame => hc hsame.2.1.symm
  | cons x xs =>
    obtain ⟨d, ds, hd, hne⟩ := basicChar_ne x
    rw [basicText_append, List.flatMap_cons, hd]
    exact readText_eq hne.symm

/-! ### Keys and values -/

/-- How a key is written: bare, or in double quotes. -/
inductive SpellsKey : List Char → String → Prop
  | bare {k : List Char} (hne : k ≠ []) (h : ∀ c ∈ k, isBareChar c = true) : SpellsKey k (String.ofList k)
  | quoted (s : String) : SpellsKey (basicText s.toList) s

/-- How an integer of 64 bits and a text are written. -/
inductive SpellsValue : List Char → Node → Prop
  | integer {n : Int} (hlow : -2 ^ 63 ≤ n) (hhigh : n < 2 ^ 63) : SpellsValue (signed n).toList (.integer n)
  | text (s : String) : SpellsValue (basicText s.toList) (.text s)

theorem takeWhile_append_cons {p : Char → Bool} (h : ∀ c ∈ cs, p c = true) (hd : p d = false) (rest : List Char) :
    (cs ++ d :: rest).takeWhile p = cs ∧ (cs ++ d :: rest).dropWhile p = d :: rest := by
  rw [List.takeWhile_append_of_pos h, List.dropWhile_append_of_pos h, List.takeWhile_cons_of_neg (by simp [hd]),
    List.dropWhile_cons_of_neg (by simp [hd]), List.append_nil]
  exact ⟨rfl, rfl⟩

theorem readSimpleKey_of_spells (h : SpellsKey k key) :
    readSimpleKey (k ++ ' ' :: rest) = some (key, ' ' :: rest) := by
  unfold readSimpleKey
  cases h with
  | bare hne hbare =>
    obtain ⟨htake, hdrop⟩ := takeWhile_append_cons hbare (show isBareChar ' ' = false by decide) rest
    rw [htake, hdrop]
    split
    · exact absurd rfl hne
    · rfl
  | quoted =>
    rw [show (basicText key.toList ++ ' ' :: rest).takeWhile isBareChar = [] from rfl]
    exact (readShortText_basicText ..).trans (by rw [String.ofList_toList])

theorem readToken_signed {n : Int} (hlow : -2 ^ 63 ≤ n) (hhigh : n < 2 ^ 63) (rest : List Char) :
    readToken ((signed n).toList ++ '\n' :: rest) = some (.integer n, '\n' :: rest) := by
  obtain ⟨htake, hdrop⟩ :=
    takeWhile_append_cons (isTokenChar_signed n) (show isTokenChar '\n' = false by decide) rest
  unfold readToken
  rw [htake, hdrop]
  simp only [integer?_signed hlow hhigh]

/-- A character that opens a key: neither blank nor the start of a comment, of a header or of the next line. -/
structure Opens (c : Char) : Prop where
  blank : isBlank c = false
  comment : c ≠ '#'
  newline : c ≠ '\n'
  carriage : c ≠ '\r'
  bracket : c ≠ '['

theorem opens_of_isBareChar (h : isBareChar c = true) : Opens c := by
  have hne : ∀ d, isBareChar d = false → c ≠ d := fun d hd hcd => by rw [hcd, hd] at h; cases h
  refine ⟨?_, hne '#' (by decide), hne '\n' (by decide), hne '\r' (by decide), hne '[' (by decide)⟩
  rw [isBlank, Bool.or_eq_false_iff]
  exact ⟨beq_eq_false_iff_ne.2 (hne ' ' (by decide)), beq_eq_false_iff_ne.2 (hne '\t' (by decide))⟩

theorem opens_quote : Opens '\"' := ⟨by decide, by decide, by decide, by decide, by decide⟩

theorem SpellsKey.head (h : SpellsKey k key) : ∃ c cs, k = c :: cs ∧ Opens c := by
  cases h with
  | bare hne hbare =>
    obtain ⟨c, cs, rfl⟩ := List.exists_cons_of_ne_nil hne
    exact ⟨c, cs, rfl, opens_of_isBareChar (hbare c List.mem_cons_self)⟩
  | quoted => exact ⟨'\"', _, rfl, opens_quote⟩

theorem skipBlanks_cons (h : isBlank c = false) : skipBlanks (c :: rest) = c :: rest :=
  List.dropWhile_cons_of_neg (by simp [h])

theorem readKey_of_spells (h : SpellsKey k key) :
    readKey (k ++ ' ' :: '=' :: rest) = some ([], key, '=' :: rest) := by
  obtain ⟨c, cs, rfl, hc⟩ := h.head
  unfold readKey readKeys
  rw [show skipBlanks (c :: cs ++ ' ' :: '=' :: rest) = c :: cs ++ ' ' :: '=' :: rest from skipBlanks_cons hc.blank,
    readSimpleKey_of_spells h]
  rfl

theorem head_signed (n : Int) :
    ∃ c cs, (signed n).toList = c :: cs ∧ ∀ d, d ≠ '-' → d.isDigit = false → c ≠ d := by
  rw [toList_signed]
  split
  · exact ⟨'-', _, rfl, fun d hd _ => hd.symm⟩
  · obtain ⟨c, cs, hcs⟩ := List.exists_cons_of_ne_nil (Nat.toDigits_ne_nil (n := n.natAbs) (b := 10))
    have hc : c.isDigit := Text.isDigit_of_mem_toDigits (hcs ▸ List.mem_cons_self)
    refine ⟨c, cs, hcs, fun d _ hd hcd => ?_⟩
    rw [hcd, hd] at hc
    cases hc

theorem SpellsValue.head (h : SpellsValue v node) : ∃ c cs, v = c :: cs ∧ isBlank c = false := by
  cases h with
  | @integer m =>
    obtain ⟨c, cs, hcs, hne⟩ := head_signed m
    refine ⟨c, cs, hcs, Bool.or_eq_false_iff.2 ⟨?_, ?_⟩⟩
    · exact beq_eq_false_iff_ne.2 (hne ' ' (by decide) (by decide))
    · exact beq_eq_false_iff_ne.2 (hne '\t' (by decide) (by decide))
  | text s => exact ⟨'\"', _, rfl, rfl⟩

/-- **A value that is spelled is read.** -/
theorem readValue_of_spells (h : SpellsValue v node) (n depth : Nat) :
    readValue (n + 1) depth (v ++ '\n' :: rest) = some (node, '\n' :: rest) := by
  cases h with
  | @integer m hlow hhigh =>
    obtain ⟨c, cs, hcs, hne⟩ := head_signed m
    have hquote : ¬ (c = '\"' ∨ c = apostrophe) :=
      not_or.2 ⟨hne '\"' (by decide) (by decide), hne apostrophe (by decide) (by decide)⟩
    have hread := readToken_signed hlow hhigh rest
    rw [hcs] at hread ⊢
    rw [List.cons_append, readValue, if_neg hquote, if_neg (hne '[' (by decide) (by decide)),
      if_neg (hne '\x7b' (by decide) (by decide))]
    exact hread
  | text s =>
    have hread := readText_basicText s.toList rest (show '\n' ≠ '\"' by decide)
    rw [String.ofList_toList] at hread
    rw [basicText, List.cons_append] at hread ⊢
    rw [readValue, if_pos (.inl rfl), hread]
    rfl

/-! ### Lines -/

theorem lineOf_append (k v rest : List Char) :
    lineOf k v ++ rest = k ++ ' ' :: '=' :: ' ' :: (v ++ '\n' :: rest) := by
  simp [lineOf]

theorem readPair_of_spells (hk : SpellsKey k key) (hv : SpellsValue v node) (rest : List Char) :
    readPair (lineOf k v ++ rest) = some (.pair [] key node, '\n' :: rest) := by
  obtain ⟨c, cs, hcs, hc⟩ := hv.head
  have hskip : skipBlanks (' ' :: (v ++ '\n' :: rest)) = v ++ '\n' :: rest := by
    rw [hcs]
    exact skipBlanks_cons hc
  unfold readPair
  rw [lineOf_append, readKey_of_spells hk]
  show (readValue ((skipBlanks (' ' :: (v ++ '\n' :: rest))).length + 1) 0 _).bind _ = _
  rw [hskip, readValue_of_spells hv]
  rfl

/-- **A text is the line of an entry**: in front of any document, it is read as the entry. -/
def Writes (line : String) (e : String × Node) : Prop :=
  ∀ n rest, readLines (n + 1) (line.toList ++ rest) = (readLines n rest).map (.pair [] e.1 e.2 :: ·)

theorem skipLines_of_opens (h : Opens c) : ∀ n, skipLines n (c :: rest) = c :: rest
  | 0 => rfl
  | n + 1 => by
    have hcomment : skipComment (c :: rest) = c :: rest := by
      unfold skipComment
      split
      · next hcons => exact absurd (List.cons.inj hcons).1 h.comment
      · rfl
    have hnewline : afterNewline? (c :: rest) = none := by
      unfold afterNewline?
      split
      · next hcons => exact absurd (List.cons.inj hcons).1 h.newline
      · next hcons => exact absurd (List.cons.inj hcons).1 h.carriage
      · rfl
    simp only [skipLines, skipBlanks_cons h.blank, hcomment, hnewline]

/-- **What is spelled is written.** -/
theorem writes_of_spells (hk : SpellsKey k key) (hv : SpellsValue v node) :
    Writes (String.ofList (lineOf k v)) (key, node) := by
  intro n rest
  obtain ⟨c, cs, hcs, hc⟩ := hk.head
  have hread := readPair_of_spells hk hv rest
  obtain ⟨cs', hcs'⟩ : ∃ cs', lineOf k v ++ rest = c :: cs' := ⟨_, by rw [hcs]; rfl⟩
  rw [String.toList_ofList]
  rw [hcs'] at hread ⊢
  rw [readLines, skipLines_of_opens hc]
  simp only [if_neg hc.bracket, hread]
  show (readLines n rest).bind _ = _
  cases readLines n rest <;> rfl

/-! ### Documents -/

variable {lines : List String} {es : Entries} {b : Builder}

/-- No line is empty, and none begins with a byte order mark. -/
theorem Writes.head {line : String} {e : String × Node} (h : Writes line e) :
    ∃ c cs, line.toList = c :: cs ∧ c ≠ '\ufeff' := by
  have hone := h 1 []
  rw [List.append_nil] at hone
  cases hline : line.toList with
  | nil =>
    rw [hline] at hone
    cases hone
  | cons c cs =>
    refine ⟨c, cs, rfl, ?_⟩
    rintro rfl
    rw [hline] at hone
    cases hone

/-- **The lines of a document**, with more rounds than lines. -/
theorem readLines_flatMap (h : List.Forall₂ Writes lines es) (n : Nat) :
    readLines (lines.length + n + 1) (lines.flatMap String.toList) =
      some (es.map fun e => .pair [] e.1 e.2) := by
  induction h with
  | nil => rfl
  | @cons line e lines es hline _ ih =>
    rw [List.flatMap_cons, List.length_cons, Nat.add_right_comm lines.length 1 n, hline, ih]
    rfl

theorem length_le_of_writes (h : List.Forall₂ Writes lines es) :
    lines.length ≤ (lines.flatMap String.toList).length := by
  induction h with
  | nil => exact Nat.le_refl 0
  | cons hline _ ih =>
    obtain ⟨c, cs, hc, -⟩ := hline.head
    rw [List.flatMap_cons, List.length_append, hc, List.length_cons, List.length_cons]
    omega

theorem statements_join (h : List.Forall₂ Writes lines es) :
    statements (String.join lines) = some (es.map fun e => .pair [] e.1 e.2) := by
  obtain ⟨n, hn⟩ := Nat.exists_eq_add_of_le (length_le_of_writes h)
  have hread := readLines_flatMap h n
  rw [← hn] at hread
  unfold statements
  rw [String.toList_join]
  split
  · next hmark =>
    cases h with
    | nil => cases hmark
    | cons hline =>
      obtain ⟨c, cs, hc, hne⟩ := hline.head
      rw [List.flatMap_cons, hc] at hmark
      exact absurd (List.cons.inj hmark).1 hne
  · exact hread

theorem add_pair {e : String × Node} (h : e.1 ∉ b.current.map Prod.fst) :
    b.add (.pair [] e.1 e.2) = some { b with current := b.current ++ [e] } := by
  have hnone : b.current.lookup e.1 = none := List.lookup_eq_none_iff.2 fun p hp =>
    bne_iff_ne.2 fun hkey => h (hkey ▸ List.mem_map_of_mem hp)
  unfold Builder.add
  simp only [Entries.visit, Entries.define, hnone]
  rfl

theorem foldlM_add : ∀ {es : Entries} {b : Builder}, ((b.current ++ es).map Prod.fst).Nodup →
    (es.map fun e => Statement.pair [] e.1 e.2).foldlM Builder.add b = some { b with current := b.current ++ es }
  | [], b, _ => by rw [List.append_nil]; rfl
  | e :: es, b, hkeys => by
    rw [List.append_cons] at hkeys ⊢
    have hnew : e.1 ∉ b.current.map Prod.fst := by
      rw [List.map_append, List.map_append, List.nodup_append, List.nodup_append] at hkeys
      exact fun hmem => hkeys.1.2.2 _ hmem _ (List.mem_singleton_self _) rfl
    rw [List.map_cons, List.foldlM_cons, add_pair hnew]
    exact foldlM_add (b := { b with current := b.current ++ [e] }) hkeys

/-- **A document of lines is the table of their entries.** -/
theorem read_join (h : List.Forall₂ Writes lines es) (hkeys : (es.map Prod.fst).Nodup) :
    read (String.join lines) = some es := by
  have hadd := foldlM_add (b := .empty) hkeys
  rw [read, statements_join h, Option.bind_some, build, hadd]
  rfl

/-! ### Writing -/

theorem spells_keyText (key : String) : SpellsKey (keyText key) key := by
  unfold keyText
  split
  · next h =>
    have hspells := SpellsKey.bare h.1 (List.all_eq_true.1 h.2)
    rwa [String.ofList_toList] at hspells
  · exact .quoted key

theorem valueText?_of_spells (h : SpellsValue v node) : valueText? node = some v := by
  cases h with
  | integer hlow hhigh => exact if_pos (int64_of_bounds hlow hhigh)
  | text s => rfl

/-- **A table of integers and texts is written as lines.** -/
theorem exists_write : ∀ {es : Entries}, (∀ e ∈ es, ∃ v, SpellsValue v e.2) →
    ∃ lines, List.Forall₂ Writes lines es ∧ write es = some (String.join lines)
  | [], _ => ⟨[], .nil, rfl⟩
  | e :: es, h => by
    obtain ⟨lines, hlines, hwrite⟩ := exists_write fun e he => h e (List.mem_cons_of_mem _ he)
    obtain ⟨ls, hls, hjoin⟩ := Option.map_eq_some_iff.1 hwrite
    obtain ⟨v, hv⟩ := h e List.mem_cons_self
    have hline : line? e = some (String.ofList (lineOf (keyText e.1) v)) := by
      rw [line?, valueText?_of_spells hv]
      rfl
    refine ⟨_ :: lines, .cons (writes_of_spells (spells_keyText e.1) hv) hlines, ?_⟩
    rw [write, List.mapM_cons, hline, hls, String.join_cons, ← hjoin, ← String.join_cons]
    rfl

end FiberStacks.Toml
