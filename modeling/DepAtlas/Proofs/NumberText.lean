import DepAtlas.Json.Printer
import DepAtlas.Json.Reader
import Mathlib.Data.List.Basic

/-! # Numbers read back

A number in a text ends where a character comes that no number has, so it is read in the same way
whatever follows it. Integers of 64 bits are read back from their texts. A floating point number is
computed from its digits with roundings and may come out as a neighbour of what was written.
-/

namespace DepAtlas.Json

/-! ## Inputs -/

/-- A read that succeeds with a value and leaves a rest. -/
def Reads {ε α : Type} (r : Except ε (α × Input)) (a : α) (rest : List Char) : Prop :=
  ∃ i, r = .ok (a, i) ∧ i.rest = rest

variable {i : Input} {c : Char} {cs rest : List Char}

theorem Input.rest_next (h : i.rest = c :: cs) : i.next.rest = cs := by
  unfold next
  split <;> simp_all

theorem Input.skipBlanks_of_cons (h : i.rest = c :: cs) (hc : isJsonBlank c = false) :
    i.skipBlanks = i := by
  simp [skipBlanks, h, skipBlanksFrom, hc]

theorem Input.skipBlanks_of_nil (h : i.rest = []) : i.skipBlanks = i := by
  simp [skipBlanks, h, skipBlanksFrom]

/-! ## What follows a number -/

/-- What may follow a value inside of another, or at the end. -/
def Closing (rest : List Char) : Prop := ∀ c ∈ rest.head?, c = ',' ∨ c = ']' ∨ c = '\x7d'

theorem closing_nil : Closing [] := by simp [Closing]

theorem Closing.not_isDigit (h : Closing (c :: cs)) : c.isDigit = false := by
  rcases h c rfl with rfl | rfl | rfl <;> rfl

theorem startsWithDigit_append (h : Closing rest) (cs : List Char) :
    startsWithDigit (cs ++ rest) = startsWithDigit cs := by
  cases cs with
  | nil =>
    cases rest with
    | nil => rfl
    | cons c cs => exact h.not_isDigit
  | cons c cs => rfl

theorem Closing.numberPart (h : Closing rest) : numberPart rest = .ended := by
  cases rest with
  | nil => rfl
  | cons c cs => rcases h c rfl with rfl | rfl | rfl <;> rfl

/-- The same input, with more to come. -/
def Extends (rest : List Char) (i i' : Input) : Prop := i'.rest = i.rest ++ rest

/-- A read that comes to the same with more to come, which it leaves to read. -/
def Carries (rest : List Char) (r r' : Except ReadError (Number × Input)) : Prop :=
  ∀ n j, r = .ok (n, j) → ∃ j', r' = .ok (n, j') ∧ Extends rest j j'

variable {i' : Input} {positive : Bool} {significand : Nat} {e : Int}

theorem Extends.next (h : Extends rest i i') (hi : i.rest = c :: cs) :
    Extends rest i.next i'.next := by
  have hi' : i'.rest = c :: (cs ++ rest) := by rw [h, hi, List.cons_append]
  rw [Extends, Input.rest_next hi, Input.rest_next hi']

theorem carries_ok {n : Number} (h : Extends rest i i') :
    Carries rest (.ok (n, i)) (.ok (n, i')) := by
  rintro m j ⟨⟩
  exact ⟨i', rfl, h⟩

theorem carries_error {e : ReadError} {r : Except ReadError (Number × Input)} :
    Carries rest (.error e) r := by
  rintro n j ⟨⟩

theorem Carries.ite {p : Prop} [Decidable p] {r r' s s' : Except ReadError (Number × Input)}
    (hr : Carries rest r r') (hs : Carries rest s s') :
    Carries rest (if p then r else s) (if p then r' else s') := by
  split
  · exact hr
  · exact hs

theorem readDigits_append (hr : Closing rest) (h : Extends rest i i') (hi : i.rest = cs)
    {v n : Nat} {k : Input} {x : Nat × Nat} (hx : readDigits cs i v n = (k, x)) :
    ∃ k', readDigits (cs ++ rest) i' v n = (k', x) ∧ Extends rest k k' := by
  induction cs generalizing i i' v n with
  | nil =>
    cases hx
    cases rest with
    | nil => exact ⟨i', rfl, h⟩
    | cons c cs => exact ⟨i', by simp [readDigits, hr.not_isDigit], h⟩
  | cons c cs ih =>
    simp only [List.cons_append, readDigits] at hx ⊢
    split at hx
    · rename_i hd
      rw [if_pos hd]
      exact ih (h.next hi) (Input.rest_next hi) hx
    · rename_i hd
      rw [if_neg hd]
      cases hx
      exact ⟨i', rfl, h⟩

theorem passDigits_append (hr : Closing rest) (h : Extends rest i i') (hi : i.rest = cs)
    {n m : Nat} {k : Input} (hx : passDigits cs i n = (k, m)) :
    ∃ k', passDigits (cs ++ rest) i' n = (k', m) ∧ Extends rest k k' := by
  induction cs generalizing i i' n with
  | nil =>
    cases hx
    cases rest with
    | nil => exact ⟨i', rfl, h⟩
    | cons c cs => exact ⟨i', by simp [passDigits, hr.not_isDigit], h⟩
  | cons c cs ih =>
    simp only [List.cons_append, passDigits] at hx ⊢
    split at hx
    · rename_i hd
      rw [if_pos hd]
      exact ih (h.next hi) (Input.rest_next hi) hx
    · rename_i hd
      rw [if_neg hd]
      cases hx
      exact ⟨i', rfl, h⟩

theorem readExponentDigits_append (hr : Closing rest) (h : Extends rest i i') (hi : i.rest = cs)
    {v : Nat} {k : Input} {x : Option Nat} (hx : readExponentDigits cs i v = (x, k)) :
    ∃ k', readExponentDigits (cs ++ rest) i' v = (x, k') ∧ Extends rest k k' := by
  induction cs generalizing i i' v with
  | nil =>
    cases hx
    cases rest with
    | nil => exact ⟨i', rfl, h⟩
    | cons c cs => exact ⟨i', by simp [readExponentDigits, hr.not_isDigit], h⟩
  | cons c cs ih =>
    simp only [List.cons_append, readExponentDigits] at hx ⊢
    split at hx
    · rename_i hd
      rw [if_pos hd]
      split at hx
      · rename_i hv
        rw [if_pos hv]
        exact ih (h.next hi) (Input.rest_next hi) hx
      · rename_i hv
        rw [if_neg hv]
        cases hx
        exact ⟨i'.next, rfl, h.next hi⟩
    · rename_i hd
      rw [if_neg hd]
      cases hx
      exact ⟨i', rfl, h⟩

theorem exponentSign_append (h : Extends rest i i') {up : Bool} {k : Input}
    (hx : exponentSign i = (up, k)) (hk : k.rest = c :: cs) :
    ∃ k', exponentSign i' = (up, k') ∧ Extends rest k k' := by
  cases hi : i.rest with
  | nil =>
    simp only [exponentSign, hi] at hx
    cases hx
    rw [hi] at hk
    cases hk
  | cons d ds =>
    have hi' : i'.rest = d :: (ds ++ rest) := by rw [h, hi, List.cons_append]
    by_cases hplus : d = '+'
    · subst hplus
      simp only [exponentSign, hi] at hx
      cases hx
      exact ⟨i'.next, by simp only [exponentSign, hi'], h.next hi⟩
    · by_cases hminus : d = '-'
      · subst hminus
        simp only [exponentSign, hi] at hx
        cases hx
        exact ⟨i'.next, by simp only [exponentSign, hi'], h.next hi⟩
      · simp [exponentSign, hi, hplus, hminus] at hx
        obtain ⟨rfl, rfl⟩ := hx
        exact ⟨i', by simp [exponentSign, hi', hplus, hminus], h⟩

theorem numberPart_append (hr : Closing rest) (cs : List Char) :
    numberPart (cs ++ rest) = numberPart cs := by
  cases cs with
  | nil => exact hr.numberPart
  | cons c cs =>
    by_cases hpoint : c = '.'
    · subst hpoint
      rfl
    · by_cases he : c = 'e'
      · subst he
        rfl
      · by_cases hE : c = 'E'
        · subst hE
          rfl
        · simp [numberPart, hpoint, he, hE]

theorem cons_of_numberPart (h : numberPart i.rest ≠ .ended) : ∃ c cs, i.rest = c :: cs := by
  cases hi : i.rest with
  | nil => simp [hi, numberPart] at h
  | cons c cs => exact ⟨c, cs, rfl⟩

theorem floatNumber_carries (h : Extends rest i i') :
    Carries rest (floatNumber i positive significand e)
      (floatNumber i' positive significand e) := by
  unfold floatNumber
  split
  · exact carries_error
  · exact carries_ok h

theorem readExponent_carries (hr : Closing rest) (h : Extends rest i i') (hi : i.rest = c :: cs) :
    Carries rest (readExponent i positive significand e)
      (readExponent i' positive significand e) := by
  unfold readExponent
  rcases hsign : exponentSign i.next with ⟨up, k⟩
  dsimp only
  cases hfirst : k.rest with
  | nil => exact carries_error
  | cons d ds =>
    obtain ⟨k', hsign', hk⟩ := exponentSign_append (h.next hi) hsign hfirst
    have hfirst' : k'.rest = d :: (ds ++ rest) := by rw [hk, hfirst, List.cons_append]
    rcases hx : readExponentDigits ds k.next (digitValue d) with ⟨value, l⟩
    obtain ⟨l', hx', hl⟩ :=
      readExponentDigits_append hr (hk.next hfirst) (Input.rest_next hfirst) hx
    simp only [hsign', hfirst', Input.rest_next hfirst, Input.rest_next hfirst', hx, hx']
    apply Carries.ite carries_error
    cases value with
    | some v => exact floatNumber_carries hl
    | none =>
      rcases hp : passDigits l.rest l 0 with ⟨m, passed⟩
      obtain ⟨m', hp', hm⟩ := passDigits_append hr hl rfl hp
      rw [← show l'.rest = l.rest ++ rest from hl] at hp'
      simp only [hp, hp']
      exact .ite carries_error (carries_ok hm)

theorem readFraction_carries (hr : Closing rest) (h : Extends rest i i') (hi : i.rest = c :: cs) :
    Carries rest (readFraction i positive significand e)
      (readFraction i' positive significand e) := by
  have hnext := h.next hi
  rcases hx : readDigits i.next.rest i.next significand 0 with ⟨k, v, count⟩
  obtain ⟨k', hx', hk⟩ := readDigits_append hr hnext rfl hx
  rcases hp : passDigits k.rest k 0 with ⟨l, passed⟩
  obtain ⟨l', hp', hl⟩ := passDigits_append hr hk rfl hp
  rw [← show i'.next.rest = i.next.rest ++ rest from hnext] at hx'
  rw [← show k'.rest = k.rest ++ rest from hk] at hp'
  have hpart : numberPart l'.rest = numberPart l.rest := by rw [hl, numberPart_append hr]
  simp only [readFraction, hx, hp, hx', hp', hpart]
  apply Carries.ite
  · cases l.rest with
    | nil => exact carries_error
    | cons d ds => exact carries_error
  · cases hend : numberPart l.rest with
    | exponent =>
      obtain ⟨d, ds, hd⟩ := cons_of_numberPart (i := l) (by simp [hend])
      exact readExponent_carries hr hl hd
    | fraction => exact floatNumber_carries hl
    | ended => exact floatNumber_carries hl

/-- A number is read in the same way before anything that may follow it. -/
theorem readNumber_carries (hr : Closing rest) (h : Extends rest i i') :
    Carries rest (readNumber i positive) (readNumber i' positive) := by
  cases hi : i.rest with
  | nil =>
    simp only [readNumber, hi]
    exact carries_error
  | cons c cs =>
    have hi' : i'.rest = c :: (cs ++ rest) := by rw [h, hi, List.cons_append]
    rcases hx : readDigits (c :: cs) i 0 0 with ⟨k, v, count⟩
    obtain ⟨k', hx', hk⟩ := readDigits_append hr h hi hx
    rcases hp : passDigits k.rest k 0 with ⟨l, passed⟩
    obtain ⟨l', hp', hl⟩ := passDigits_append hr hk rfl hp
    rw [List.cons_append] at hx'
    rw [← show k'.rest = k.rest ++ rest from hk] at hp'
    have hpart : numberPart l'.rest = numberPart l.rest := by rw [hl, numberPart_append hr]
    simp only [readNumber, hi, hi', hx, hp, hx', hp', hpart, startsWithDigit_append hr]
    refine .ite carries_error (.ite carries_error ?_)
    cases hend : numberPart l.rest with
    | fraction =>
      obtain ⟨d, ds, hd⟩ := cons_of_numberPart (i := l) (by simp [hend])
      exact readFraction_carries hr hl hd
    | exponent =>
      obtain ⟨d, ds, hd⟩ := cons_of_numberPart (i := l) (by simp [hend])
      exact readExponent_carries hr hl hd
    | ended =>
      apply Carries.ite (floatNumber_carries hl)
      exact .ite (carries_ok hl) (.ite (carries_ok hl) (carries_ok hl))

/-! ### Integers -/

theorem le_ofDigitChars (cs : List Char) (v : Nat) : v ≤ Nat.ofDigitChars 10 cs v := by
  induction cs generalizing v with
  | nil => simp
  | cons c cs ih =>
    rw [Nat.ofDigitChars_cons]
    have := ih (10 * v + (c.toNat - '0'.toNat))
    omega

theorem readDigits_all (hd : ∀ c ∈ cs, c.isDigit = true) (hi : i.rest = cs) {v n : Nat}
    (hv : Nat.ofDigitChars 10 cs v < limit64) :
    ∃ k count, readDigits cs i v n = (k, Nat.ofDigitChars 10 cs v, count) ∧ k.rest = [] := by
  induction cs generalizing i v n with
  | nil => exact ⟨i, n, rfl, hi⟩
  | cons c cs ih =>
    obtain ⟨hc, hcs⟩ := List.forall_mem_cons.mp hd
    rw [Nat.ofDigitChars_cons] at hv ⊢
    have hvalue : v * 10 + digitValue c = 10 * v + (c.toNat - '0'.toNat) := by
      rw [Nat.mul_comm]
      rfl
    have hfits : v * 10 + digitValue c < limit64 := by
      rw [hvalue]
      exact Nat.lt_of_le_of_lt (le_ofDigitChars cs _) hv
    simp only [readDigits, hc, hfits, decide_true, Bool.and_self, if_true]
    rw [hvalue]
    exact ih hcs (Input.rest_next hi) hv

/-- No number starts with a needless zero. -/
theorem ne_zero_of_toDigits {n : Nat} (hn : 0 < n) (h : Nat.toDigits 10 n = c :: cs) : c ≠ '0' := by
  induction n using Nat.strongRecOn generalizing c cs with
  | ind n ih =>
    rcases Nat.lt_or_ge n 10 with hlt | hge
    · rw [Nat.toDigits_of_lt_base hlt] at h
      cases h
      have hall : ∀ m < 10, 0 < m → Nat.digitChar m ≠ '0' := by decide
      exact hall n hlt hn
    · rw [Nat.toDigits_of_base_le (by decide) hge] at h
      cases hd : Nat.toDigits 10 (n / 10) with
      | nil => exact absurd hd Nat.toDigits_ne_nil
      | cons d ds =>
        rw [hd] at h
        cases h
        exact ih (n / 10) (by omega) (by omega) hd

theorem readNumber_toDigits (positive : Bool) {n : Nat} (hn : n < limit64)
    (hi : i.rest = Nat.toDigits 10 n) :
    ∃ k, k.rest = [] ∧ readNumber i positive =
      if positive then .ok (.int n, k)
      else if n = 0 || n > 0x8000000000000000 then
        .ok (.float (-(UInt64.ofNat n).toFloat).toBits, k)
      else .ok (.int (-(n : Int)), k) := by
  have hdigits : ∀ c ∈ Nat.toDigits 10 n, c.isDigit = true := fun c hc =>
    Nat.isDigit_of_mem_toDigits (by decide) (by decide) hc
  have hvalue : Nat.ofDigitChars 10 (Nat.toDigits 10 n) 0 = n := Nat.ofDigitChars_ten_toDigits
  obtain ⟨k, count, hx, hk⟩ := readDigits_all (i := i) (v := 0) (n := 0) hdigits hi
    (by rw [hvalue]; exact hn)
  rw [hvalue] at hx
  refine ⟨k, hk, ?_⟩
  cases hcs : Nat.toDigits 10 n with
  | nil => exact absurd hcs Nat.toDigits_ne_nil
  | cons c cs =>
    have hlead : ¬ (decide (c = '0') && startsWithDigit cs) = true := by
      rcases Nat.eq_zero_or_pos n with rfl | hpos
      · cases hcs
        simp [startsWithDigit]
      · simp [ne_zero_of_toDigits hpos hcs]
    have hc : c.isDigit = true := hdigits c (by simp [hcs])
    rw [hcs] at hi hx
    simp [readNumber, hi, hc, hlead, hx, passDigits, hk, numberPart]

/-! ## Numbers as values -/

/-- Whether a number is read back from its own text. -/
def Number.Restored (n : Number) : Prop := Reads (readValue 1 0 (.ofText n.text)) (.num n) []

instance (v : Number) : Decidable v.Restored :=
  match h : readValue 1 0 (.ofText v.text) with
  | .error _ => isFalse fun ⟨_, hread, _⟩ => by simp [h] at hread
  | .ok (.num w, i) =>
    decidable_of_iff (w = v ∧ i.rest = []) (by simp [Number.Restored, Reads, h, eq_comm])
  | .ok (null, _) | .ok (bool _, _) | .ok (str _, _) | .ok (arr _, _) | .ok (obj _, _) =>
    isFalse fun ⟨_, hread, _⟩ => by simp [h] at hread

theorem exists_toList_toString (n : Nat) :
    ∃ c cs, (toString n).toList = c :: cs ∧ c.isDigit = true := by
  have htext : (toString n).toList = Nat.toDigits 10 n := by simp
  cases hcs : Nat.toDigits 10 n with
  | nil => exact absurd hcs Nat.toDigits_ne_nil
  | cons c cs =>
    refine ⟨c, cs, htext.trans hcs, ?_⟩
    exact Nat.isDigit_of_mem_toDigits (b := 10) (n := n) (by decide) (by decide) (by simp [hcs])

theorem head?_decimalText (d : Decimal.Scaled) :
    ∃ c, (decimalText d).toList.head? = some c ∧ c.isDigit = true := by
  obtain ⟨c, cs, hcs, hc⟩ := exists_toList_toString d.digits
  unfold decimalText
  dsimp only
  rw [hcs]
  split_ifs with hwhole hpoint hsmall
  · exact ⟨c, by simp, hc⟩
  · simp only [Bool.and_eq_true, decide_eq_true_eq] at hpoint
    obtain ⟨m, hm⟩ : ∃ m, (((c :: cs).length : Int) + d.exponent).toNat = m + 1 :=
      ⟨_, (Nat.succ_pred_eq_of_pos (by omega)).symm⟩
    rw [hm]
    exact ⟨c, by simp, hc⟩
  · exact ⟨'0', by simp, by decide⟩
  all_goals
    cases cs with
    | nil => exact ⟨c, by simp, hc⟩
    | cons d ds => exact ⟨c, by simp, hc⟩

/-- The text of a number starts with a digit or a minus sign. -/
theorem exists_toList_text (v : Number) :
    ∃ c cs, v.text.toList = c :: cs ∧ (c.isDigit = true ∨ c = '-') := by
  cases v with
  | int z =>
    cases z with
    | ofNat n =>
      obtain ⟨c, cs, hcs, hc⟩ := exists_toList_toString n
      exact ⟨c, cs, hcs, Or.inl hc⟩
    | negSucc n =>
      have htext : (Number.int (.negSucc n)).text = "-" ++ toString (n + 1) := rfl
      exact ⟨'-', (toString (n + 1)).toList, by rw [htext]; simp, Or.inr rfl⟩
  | float bits =>
    obtain ⟨c, hc, hdigit⟩ := head?_decimalText (Decimal.Binary.ofBits bits).shortest
    obtain ⟨cs, hcs⟩ := List.head?_eq_some_iff.mp hc
    rw [Number.text]
    split
    · exact ⟨'-', c :: cs, by simp [hcs], Or.inr rfl⟩
    · exact ⟨c, cs, by simpa using hcs, Or.inl hdigit⟩

theorem not_isJsonBlank_of_isDigit (h : c.isDigit = true) : isJsonBlank c = false := by
  by_contra hb
  simp only [isJsonBlank, Bool.not_eq_false, Bool.or_eq_true, decide_eq_true_eq] at hb
  rcases hb with ((rfl | rfl) | rfl) | rfl <;> exact absurd h (by decide)

theorem readValue_digit (n depth : Nat) (hi : i.rest = c :: cs) (hc : c.isDigit = true) :
    readValue (n + 1) depth i = (readNumber i true).map fun (v, i) => (num v, i) := by
  have hne : c ≠ 'n' ∧ c ≠ 't' ∧ c ≠ 'f' ∧ c ≠ '-' := by
    refine ⟨?_, ?_, ?_, ?_⟩ <;>
    · rintro rfl
      exact absurd hc (by decide)
  unfold readValue
  simp [Input.skipBlanks_of_cons hi (not_isJsonBlank_of_isDigit hc), hi, hne, hc]

theorem readValue_minus (n depth : Nat) (hi : i.rest = '-' :: cs) :
    readValue (n + 1) depth i = (readNumber i.next false).map fun (v, i) => (num v, i) := by
  unfold readValue
  simp [Input.skipBlanks_of_cons hi (by decide), hi]

theorem restored_int {z : Int} (hmin : -0x8000000000000000 ≤ z) (hmax : z < 0x10000000000000000) :
    (Number.int z).Restored := by
  cases z with
  | ofNat n =>
    have htext : (Input.ofText (Number.int (.ofNat n)).text).rest = Nat.toDigits 10 n := by
      show (toString n).toList = _
      simp
    obtain ⟨c, cs, hcs, hc⟩ := exists_toList_toString n
    obtain ⟨k, hk, hread⟩ := readNumber_toDigits true (Int.ofNat_lt.mp hmax) htext
    refine ⟨k, ?_, hk⟩
    rw [readValue_digit 0 0 hcs hc, hread]
    rfl
  | negSucc n =>
    have htext : (Input.ofText (Number.int (.negSucc n)).text).rest =
        '-' :: Nat.toDigits 10 (n + 1) := by
      show ("-" ++ toString (n + 1)).toList = _
      simp
    have hsmall : n + 1 ≤ 0x8000000000000000 := by omega
    obtain ⟨k, hk, hread⟩ := readNumber_toDigits false
      (Nat.lt_of_le_of_lt hsmall (by decide)) (Input.rest_next htext)
    have hrange : ¬ ((n + 1 = 0 || n + 1 > 0x8000000000000000) = true) := by
      simp only [Bool.or_eq_true, decide_eq_true_eq]
      omega
    refine ⟨k, ?_, hk⟩
    rw [readValue_minus 0 0 htext, hread, if_neg (by decide), if_neg hrange]
    rfl

theorem map_eq_ok {ε α β : Type} {f : α → β} {r : Except ε α} {b : β} (h : r.map f = .ok b) :
    ∃ a, r = .ok a ∧ f a = b := by
  cases r with
  | error e => cases h
  | ok a => exact ⟨a, rfl, Except.ok.inj h⟩

/-- A number that is read back from its own text is read back wherever it is written. -/
theorem Number.Restored.readValue {v : Number} (h : v.Restored) (hr : Closing rest) (n depth : Nat)
    (hi : i.rest = v.text.toList ++ rest) : Reads (readValue (n + 1) depth i) (num v) rest := by
  obtain ⟨j, hj, hend⟩ := h
  obtain ⟨c, cs, hcs, hc⟩ := exists_toList_text v
  have hext : Extends rest (.ofText v.text) i := hi
  rw [hcs, List.cons_append] at hi
  rcases hc with hd | rfl
  · rw [readValue_digit 0 0 hcs hd] at hj
    obtain ⟨⟨_, _⟩, hread, heq⟩ := map_eq_ok hj
    cases heq
    obtain ⟨j', hj', hrest⟩ := readNumber_carries hr hext _ _ hread
    refine ⟨j', ?_, by rw [hrest, hend, List.nil_append]⟩
    rw [readValue_digit n depth hi hd, hj']
    rfl
  · rw [readValue_minus 0 0 hcs] at hj
    obtain ⟨⟨_, _⟩, hread, heq⟩ := map_eq_ok hj
    cases heq
    obtain ⟨j', hj', hrest⟩ := readNumber_carries hr (hext.next hcs) _ _ hread
    refine ⟨j', ?_, by rw [hrest, hend, List.nil_append]⟩
    rw [readValue_minus n depth hi, hj']
    rfl

/-- Integers are to fit in 64 bits. Of a floating point number it is asked that it is read back,
since not every one is. -/
def Number.Legible : Number → Prop
  | .int z => -0x8000000000000000 ≤ z ∧ z < 0x10000000000000000
  | .float bits => Number.Restored (.float bits)

theorem Number.Legible.restored {v : Number} (h : v.Legible) : v.Restored := by
  cases v with
  | int z => exact restored_int h.1 h.2
  | float bits => exact h

end DepAtlas.Json
