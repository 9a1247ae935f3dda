import DepAtlas.Proofs.NumberText

/-! # Reading back what was written

The compact text of a value is read back as the value, with what follows it left to read, if the
value is legible: it is nested no deeper than the reader goes, and each of its numbers is read back
from its own text.
-/

namespace DepAtlas.Json

variable {i : Input} {c : Char} {cs rest : List Char}

/-! ## Words and texts -/

theorem readWord_append (ws : List Char) (h : i.rest = ws ++ rest) :
    ∃ j, readWord ws i = .ok j ∧ j.rest = rest := by
  induction ws generalizing i with
  | nil => exact ⟨i, rfl, h⟩
  | cons w ws ih =>
    obtain ⟨j, hj, hrest⟩ := ih (Input.rest_next h)
    refine ⟨j, ?_, hrest⟩
    simp only [readWord, h, List.cons_append, if_true, hj]

/-- A character as it is written inside of quotes. -/
def escaped (c : Char) : List Char := (escape? c).getD [c]

theorem toList_quote (s : String) :
    (quote s).toList = '\x22' :: (s.toList.flatMap escaped ++ ['\x22']) := by
  simp only [quote, String.toList_append, String.toList_ofList]
  rfl

theorem hexValue?_digitChar : ∀ n < 16, hexValue? (Nat.digitChar n) = some n := by decide

theorem hexValue?_hexDigit (n : Nat) : hexValue? (hexDigit n) = some (n % 16) :=
  hexValue?_digitChar _ (Nat.mod_lt _ (by decide))

theorem readUnicode_escape (hc : c.toNat < 0x20)
    (h : i.rest = '0' :: '0' :: hexDigit (c.toNat / 16) :: hexDigit c.toNat :: rest) :
    Reads (readUnicode i) c rest := by
  have hvalue : ((0 * 16 + 0) * 16 + c.toNat / 16 % 16) * 16 + c.toNat % 16 = c.toNat := by omega
  have hzero : hexValue? '0' = some 0 := by decide
  have hread : readHex i = .ok (c.toNat, i.next.next.next.next) := by
    simp only [readHex, h, hzero, hexValue?_hexDigit, hvalue]
  refine ⟨i.next.next.next.next, ?_, ?_⟩
  · simp only [readUnicode, hread, bind, Except.bind]
    rw [if_neg (by simp; omega), if_pos (by simp; omega), Char.ofNat_toNat]
  · exact Input.rest_next (Input.rest_next (Input.rest_next (Input.rest_next h)))

theorem readText_plain (n : Nat) (acc : List Char) (h : i.rest = c :: rest) (hquote : c ≠ '\x22')
    (hslash : c ≠ '\\') (hc : ¬ c.toNat < 0x20) :
    readText (n + 1) i acc = readText n i.next (c :: acc) := by
  rw [readText, h]
  split
  · contradiction
  · rename_i heq
    cases heq
    exact absurd rfl hquote
  · rename_i heq
    cases heq
    exact absurd rfl hslash
  · rename_i heq
    cases heq
    rw [if_neg hc]

/-- A character that was written inside of quotes is read as one. -/
theorem readText_escaped (n : Nat) (acc : List Char) (h : i.rest = escaped c ++ rest) :
    ∃ j, readText (n + 1) i acc = readText n j (c :: acc) ∧ j.rest = rest := by
  unfold escaped escape? at h
  split at h
  case h_8 =>
    split at h
    · rename_i hc
      have h₁ := Input.rest_next h
      obtain ⟨j, hj, hrest⟩ := readUnicode_escape hc (Input.rest_next h₁)
      refine ⟨j, ?_, hrest⟩
      simp [readText, h, h₁, hj]
    · rename_i hc
      simp only [Option.getD_none, List.cons_append, List.nil_append] at h
      exact ⟨i.next, readText_plain n acc h (by assumption) (by assumption) hc, Input.rest_next h⟩
  all_goals
    have h₁ := Input.rest_next h
    refine ⟨i.next.next, ?_, Input.rest_next h₁⟩
    simp [readText, h, h₁]

theorem readText_quoted (cs : List Char) {n : Nat} (acc : List Char) (hn : cs.length < n)
    (h : i.rest = cs.flatMap escaped ++ '\x22' :: rest) :
    Reads (readText n i acc) (String.ofList (acc.reverse ++ cs)) rest := by
  induction cs generalizing i n acc with
  | nil =>
    obtain ⟨n, rfl⟩ := Nat.exists_eq_succ_of_ne_zero (Nat.ne_of_gt hn)
    refine ⟨i.next, ?_, Input.rest_next h⟩
    simp only [List.flatMap_nil, List.nil_append] at h
    simp [readText, h]
  | cons c cs ih =>
    obtain ⟨n, rfl⟩ := Nat.exists_eq_succ_of_ne_zero (Nat.ne_of_gt (Nat.zero_lt_of_lt hn))
    rw [List.flatMap_cons, List.append_assoc] at h
    obtain ⟨j, hj, hrest⟩ := readText_escaped n acc h
    have hmore := ih (c :: acc) (Nat.lt_of_succ_lt_succ hn) hrest
    rw [List.reverse_cons, List.append_assoc, List.singleton_append] at hmore
    rwa [hj]

theorem length_le_flatMap_escaped (cs : List Char) : cs.length ≤ (cs.flatMap escaped).length := by
  induction cs with
  | nil => simp
  | cons c cs ih =>
    have hone : 0 < (escaped c).length := by
      unfold escaped escape?
      split <;> [skip; skip; skip; skip; skip; skip; skip; split] <;> simp
    rw [List.flatMap_cons, List.length_append, List.length_cons]
    omega

theorem readString_quoted (s : String) (h : i.rest = s.toList.flatMap escaped ++ '\x22' :: rest) :
    Reads (readString i) s rest := by
  have hlen : s.toList.length < i.rest.length + 1 := by
    have := length_le_flatMap_escaped s.toList
    simp only [h, List.length_append, List.length_cons]
    omega
  simpa [readString] using readText_quoted s.toList [] hlen h

/-! ## Values -/

mutual

/-- Whether a value is nested at most so deep and all its numbers are read back from their texts. -/
def Legible : Json → Nat → Prop
  | num n, _ => n.Legible
  | arr xs, depth => 0 < depth ∧ LegibleItems xs (depth - 1)
  | obj fs, depth => 0 < depth ∧ LegibleFields fs (depth - 1)
  | _, _ => True

def LegibleItems : List Json → Nat → Prop
  | [], _ => True
  | x :: xs, depth => Legible x depth ∧ LegibleItems xs depth

def LegibleFields : List (String × Json) → Nat → Prop
  | [], _ => True
  | (_, v) :: fs, depth => Legible v depth ∧ LegibleFields fs depth

end

/-- The text of a value starts with a character that is no blank and closes nothing. -/
theorem exists_toList_compact (j : Json) :
    ∃ c cs, j.compact.toList = c :: cs ∧ isJsonBlank c = false ∧ c ≠ ']' := by
  match j with
  | null => exact ⟨'n', "ull".toList, rfl, by decide, by decide⟩
  | bool true => exact ⟨'t', "rue".toList, rfl, by decide, by decide⟩
  | bool false => exact ⟨'f', "alse".toList, rfl, by decide, by decide⟩
  | num v =>
    obtain ⟨c, cs, hcs, hc⟩ := exists_toList_text v
    refine ⟨c, cs, hcs, ?_⟩
    rcases hc with hd | rfl
    · refine ⟨not_isJsonBlank_of_isDigit hd, ?_⟩
      rintro rfl
      exact absurd hd (by decide)
    · exact ⟨by decide, by decide⟩
  | str s => exact ⟨'\x22', _, toList_quote s, by decide, by decide⟩
  | arr xs =>
    exact ⟨'[', (compactItems true xs).toList ++ [']'], by simp [compact], by decide, by decide⟩
  | obj fs =>
    exact ⟨'\x7b', (compactFields true fs).toList ++ ['\x7d'], by simp [compact], by decide,
      by decide⟩

/-! ### The steps of the reader -/

variable {n depth : Nat}

theorem readValue_null (hi : i.rest = 'n' :: cs) :
    readValue (n + 1) depth i = (readWord "ull".toList i.next).map fun i => (null, i) := by
  unfold readValue
  simp [Input.skipBlanks_of_cons hi (by decide), hi]

theorem readValue_true (hi : i.rest = 't' :: cs) :
    readValue (n + 1) depth i = (readWord "rue".toList i.next).map fun i => (bool true, i) := by
  unfold readValue
  simp [Input.skipBlanks_of_cons hi (by decide), hi]

theorem readValue_false (hi : i.rest = 'f' :: cs) :
    readValue (n + 1) depth i = (readWord "alse".toList i.next).map fun i => (bool false, i) := by
  unfold readValue
  simp [Input.skipBlanks_of_cons hi (by decide), hi]

theorem readValue_quote (hi : i.rest = '\x22' :: cs) :
    readValue (n + 1) depth i = (readString i.next).map fun (s, i) => (str s, i) := by
  unfold readValue
  simp [Input.skipBlanks_of_cons hi (by decide), hi]

theorem readValue_list (hi : i.rest = '[' :: cs) :
    readValue (n + 1) (depth + 1) i =
      (readItems n depth true i.next []).map fun (xs, i) => (arr xs, i) := by
  unfold readValue
  simp [Input.skipBlanks_of_cons hi (by decide), hi]

theorem readValue_object (hi : i.rest = '\x7b' :: cs) :
    readValue (n + 1) (depth + 1) i =
      (readFields n depth true i.next []).map fun (fs, i) => (obj fs, i) := by
  unfold readValue
  simp [Input.skipBlanks_of_cons hi (by decide), hi]

/-- What stands before an element of a list or a field of an object. -/
def separator (first : Bool) : List Char := if first then [] else [',']

/-- Where an element or a field starts. -/
def Input.element (first : Bool) (i : Input) : Input := if first then i else i.next

theorem Input.rest_element {first : Bool} (h : i.rest = separator first ++ cs) :
    (i.element first).rest = cs := by
  cases first with
  | true => exact h
  | false => exact Input.rest_next h

theorem toList_compactItems_cons (first : Bool) (x : Json) (xs : List Json) :
    (compactItems first (x :: xs)).toList =
      separator first ++ (x.compact.toList ++ (compactItems false xs).toList) := by
  cases first <;> simp [compactItems, separator]

theorem toList_compactFields_cons (first : Bool) (k : String) (v : Json)
    (fs : List (String × Json)) :
    (compactFields first ((k, v) :: fs)).toList = separator first ++ '\x22' ::
      (k.toList.flatMap escaped ++ '\x22' :: ':' ::
        (v.compact.toList ++ (compactFields false fs).toList)) := by
  cases first <;> simp [compactFields, separator, toList_quote]

/-- The key of a field is read up to the colon after it. -/
theorem exists_readString_key (first : Bool) (k : String) (v : Json) (fs : List (String × Json))
    (hi : i.rest = (compactFields first ((k, v) :: fs)).toList ++ '\x7d' :: rest) :
    ∃ cs j, i.rest = separator first ++ '\x22' :: cs ∧
      readString (i.element first).next = .ok (k, j) ∧
      j.rest = ':' :: (v.compact.toList ++ ((compactFields false fs).toList ++ '\x7d' :: rest)) ∧
      j.next.rest.length + 2 ≤ i.rest.length := by
  have hi' : i.rest = separator first ++ '\x22' :: (k.toList.flatMap escaped ++ '\x22' :: ':' ::
      (v.compact.toList ++ ((compactFields false fs).toList ++ '\x7d' :: rest))) := by
    rw [hi, toList_compactFields_cons]
    simp
  obtain ⟨j, hj, hcolon⟩ := readString_quoted k (Input.rest_next (Input.rest_element hi'))
  refine ⟨_, j, hi', hj, hcolon, ?_⟩
  rw [hi', Input.rest_next hcolon]
  simp
  omega

theorem readItems_close (first : Bool) (acc : List Json) (hi : i.rest = ']' :: cs) :
    readItems (n + 1) depth first i acc = .ok (acc.reverse, i.next) := by
  unfold readItems
  simp [Input.skipBlanks_of_cons hi (by decide), hi]

theorem readItems_step (first : Bool) (acc : List Json) (hi : i.rest = separator first ++ c :: cs)
    (hb : isJsonBlank c = false) (hc : c ≠ ']') {v : Json} {j : Input}
    (hv : readValue n depth (i.element first) = .ok (v, j)) :
    readItems (n + 1) depth first i acc = readItems n depth false j (v :: acc) := by
  rw [readItems.eq_def]
  cases first with
  | true =>
    have hi' : i.rest = c :: cs := hi
    have hv' : readValue n depth i = .ok (v, j) := hv
    simp [Input.skipBlanks_of_cons hi' hb, hi', hv']
  | false =>
    have hi' : i.rest = ',' :: c :: cs := hi
    have hv' : readValue n depth i.next = .ok (v, j) := hv
    have hnext := Input.rest_next hi'
    simp [Input.skipBlanks_of_cons hi' (by decide), hi', Input.skipBlanks_of_cons hnext hb, hnext,
      hv']

theorem readFields_close (first : Bool) (acc : List (String × Json)) (hi : i.rest = '\x7d' :: cs) :
    readFields (n + 1) depth first i acc = .ok (acc.reverse, i.next) := by
  unfold readFields
  simp [Input.skipBlanks_of_cons hi (by decide), hi]

theorem readFields_step (first : Bool) (acc : List (String × Json))
    (hi : i.rest = separator first ++ '\x22' :: cs) {k : String} {v : Json} {j l : Input}
    (hk : readString (i.element first).next = .ok (k, j)) (hj : j.rest = ':' :: rest)
    (hv : readValue n depth j.next = .ok (v, l)) :
    readFields (n + 1) depth first i acc = readFields n depth false l ((k, v) :: acc) := by
  have hcolon := Input.skipBlanks_of_cons hj (by decide)
  rw [readFields.eq_def]
  cases first with
  | true =>
    have hi' : i.rest = '\x22' :: cs := hi
    have hk' : readString i.next = .ok (k, j) := hk
    simp [Input.skipBlanks_of_cons hi' (by decide), hi', hk', hcolon, hj, hv]
  | false =>
    have hi' : i.rest = ',' :: '\x22' :: cs := hi
    have hk' : readString i.next.next = .ok (k, j) := hk
    have hnext := Input.rest_next hi'
    simp [Input.skipBlanks_of_cons hi' (by decide), hi', Input.skipBlanks_of_cons hnext (by decide),
      hnext, hk', hcolon, hj, hv]

theorem closing_compactItems (xs : List Json) (rest : List Char) :
    Closing ((compactItems false xs).toList ++ ']' :: rest) := by
  cases xs with
  | nil => simp [compactItems, Closing]
  | cons x xs => simp [compactItems, Closing]

theorem closing_compactFields (fs : List (String × Json)) (rest : List Char) :
    Closing ((compactFields false fs).toList ++ '\x7d' :: rest) := by
  cases fs with
  | nil => simp [compactFields, Closing]
  | cons f fs => simp [compactFields, Closing]

/-! ### Reading back -/

theorem readValue_word (w : List Char) {j : Json} (hi : i.rest = c :: (w ++ rest))
    (h : readValue n depth i = (readWord w i.next).map fun i => (j, i)) :
    Reads (readValue n depth i) j rest := by
  obtain ⟨k, hk, hrest⟩ := readWord_append w (Input.rest_next hi)
  refine ⟨k, ?_, hrest⟩
  rw [h, hk]
  rfl

theorem Reads.map {ε α β : Type} {r : Except ε (α × Input)} {a : α} (h : Reads r a rest)
    (f : α → β) :
    Reads (r.map fun (a, i) => (f a, i)) (f a) rest := by
  obtain ⟨i, rfl, hi⟩ := h
  exact ⟨i, rfl, hi⟩

mutual

/-- A value is read back from its text, with what follows left to read. -/
theorem readValue_compact (j : Json) {n depth : Nat} {i : Input} {rest : List Char}
    (h : j.Legible depth) (hr : Closing rest) (hn : 2 * i.rest.length + 2 ≤ n)
    (hi : i.rest = j.compact.toList ++ rest) : Reads (readValue n depth i) j rest := by
  obtain ⟨n, rfl⟩ : ∃ m, n = m + 1 := ⟨n - 1, by omega⟩
  cases j with
  | null =>
    have hi' : i.rest = 'n' :: ("ull".toList ++ rest) := hi
    exact readValue_word "ull".toList hi' (readValue_null hi')
  | bool b =>
    cases b with
    | true =>
      have hi' : i.rest = 't' :: ("rue".toList ++ rest) := hi
      exact readValue_word "rue".toList hi' (readValue_true hi')
    | false =>
      have hi' : i.rest = 'f' :: ("alse".toList ++ rest) := hi
      exact readValue_word "alse".toList hi' (readValue_false hi')
  | num v => exact (Number.Legible.restored h).readValue hr n depth hi
  | str s =>
    have hi' : i.rest = '\x22' :: (s.toList.flatMap escaped ++ '\x22' :: rest) := by
      rw [hi, compact, toList_quote]
      simp
    rw [readValue_quote hi']
    exact (readString_quoted s (Input.rest_next hi')).map str
  | arr xs =>
    obtain ⟨hdepth, hxs⟩ := h
    obtain ⟨depth, rfl⟩ : ∃ d, depth = d + 1 := ⟨depth - 1, by omega⟩
    have hi' : i.rest = '[' :: ((compactItems true xs).toList ++ ']' :: rest) := by
      rw [hi, compact]
      simp
    have hnext := Input.rest_next hi'
    rw [hi', List.length_cons, ← hnext] at hn
    have hitems : Reads (readItems n depth true i.next []) xs rest :=
      readItems_compact xs true [] hxs (by omega) hnext
    rw [readValue_list hi']
    exact hitems.map arr
  | obj fs =>
    obtain ⟨hdepth, hfs⟩ := h
    obtain ⟨depth, rfl⟩ : ∃ d, depth = d + 1 := ⟨depth - 1, by omega⟩
    have hi' : i.rest = '\x7b' :: ((compactFields true fs).toList ++ '\x7d' :: rest) := by
      rw [hi, compact]
      simp
    have hnext := Input.rest_next hi'
    rw [hi', List.length_cons, ← hnext] at hn
    have hfields : Reads (readFields n depth true i.next []) fs rest :=
      readFields_compact fs true [] hfs (by omega) hnext
    rw [readValue_object hi']
    exact hfields.map obj

theorem readItems_compact (xs : List Json) (first : Bool) {n depth : Nat} {i : Input}
    {rest : List Char} (acc : List Json) (h : LegibleItems xs depth)
    (hn : 2 * i.rest.length + 3 ≤ n)
    (hi : i.rest = (compactItems first xs).toList ++ ']' :: rest) :
    Reads (readItems n depth first i acc) (acc.reverse ++ xs) rest := by
  obtain ⟨n, rfl⟩ : ∃ m, n = m + 1 := ⟨n - 1, by omega⟩
  cases xs with
  | nil =>
    have hi' : i.rest = ']' :: rest := hi
    rw [readItems_close first acc hi', List.append_nil]
    exact ⟨i.next, rfl, Input.rest_next hi'⟩
  | cons x xs =>
    obtain ⟨hx, hxs⟩ := h
    obtain ⟨c, cs, hcs, hb, hc⟩ := exists_toList_compact x
    have hi' : i.rest = separator first ++
        (x.compact.toList ++ ((compactItems false xs).toList ++ ']' :: rest)) := by
      rw [hi, toList_compactItems_cons]
      simp
    have hhead : i.rest = separator first ++
        c :: (cs ++ ((compactItems false xs).toList ++ ']' :: rest)) := by
      rw [hi', hcs, List.cons_append]
    have hvalue := Input.rest_element hi'
    have hlength : (i.element first).rest.length ≤ i.rest.length := by
      rw [hi', List.length_append, ← hvalue]
      omega
    obtain ⟨j, hj, hrest⟩ :=
      readValue_compact x (n := n) hx (closing_compactItems xs rest) (by omega) hvalue
    rw [readItems_step first acc hhead hb hc hj]
    have hmore := readItems_compact xs false (n := n) (x :: acc) hxs ?_ hrest
    · simpa using hmore
    · rw [hvalue, hcs, List.cons_append, List.length_cons, List.length_append, ← hrest] at hlength
      omega

theorem readFields_compact (fs : List (String × Json)) (first : Bool) {n depth : Nat} {i : Input}
    {rest : List Char} (acc : List (String × Json)) (h : LegibleFields fs depth)
    (hn : 2 * i.rest.length + 3 ≤ n)
    (hi : i.rest = (compactFields first fs).toList ++ '\x7d' :: rest) :
    Reads (readFields n depth first i acc) (acc.reverse ++ fs) rest := by
  obtain ⟨n, rfl⟩ : ∃ m, n = m + 1 := ⟨n - 1, by omega⟩
  cases fs with
  | nil =>
    have hi' : i.rest = '\x7d' :: rest := hi
    rw [readFields_close first acc hi', List.append_nil]
    exact ⟨i.next, rfl, Input.rest_next hi'⟩
  | cons f fs =>
    obtain ⟨k, v⟩ := f
    obtain ⟨hv, hfs⟩ := h
    obtain ⟨cs, j, hi', hj, hcolon, hlength⟩ := exists_readString_key first k v fs hi
    have hvalue := Input.rest_next hcolon
    obtain ⟨l, hl, hrest⟩ :=
      readValue_compact v (n := n) hv (closing_compactFields fs rest) (by omega) hvalue
    rw [readFields_step first acc hi' hj hcolon hl]
    have hmore := readFields_compact fs false (n := n) ((k, v) :: acc) hfs ?_ hrest
    · simpa using hmore
    · rw [hvalue, List.length_append, ← hrest] at hlength
      omega

end

/-- A value that is not nested too deep is read back from its text. -/
theorem readWritten_compact {j : Json} (h : j.Legible maxDepth) :
    readWritten j.compact = .ok j := by
  have hi : (Input.ofText j.compact).rest = j.compact.toList ++ [] := (List.append_nil _).symm
  obtain ⟨i, hread, hend⟩ := readValue_compact j h closing_nil (Nat.le_refl _) hi
  simp only [readWritten, hread, bind, Except.bind, Input.skipBlanks_of_nil hend, hend]

end DepAtlas.Json
