import DepAtlas.Text.Utf8
import Mathlib.Tactic.Common

/-! # Bytes that spell a text

The strict reading of bytes succeeds exactly for the bytes of a text, and gives this text back. Both
directions go through the ways in which one character is spelled.
-/

namespace DepAtlas.Text

/-! ## One character -/

/-- The bytes spell the character with the given number: the first one tells how many there are, the
others give six bits each, and no shorter spelling would do. -/
inductive Spells : Nat → List UInt8 → Prop
  | one {b : UInt8} {x : Nat} (hb : b.toNat = x) (hx : x < 0x80) : Spells x [b]
  | two {b b₁ : UInt8} {x x₁ : Nat} (hb : b.toNat = 0xC0 + x) (h₁ : b₁.toNat = 0x80 + x₁)
      (hx : x < 0x20) (hx₁ : x₁ < 0x40) (hleast : 0x80 ≤ x * 64 + x₁) :
      Spells (x * 64 + x₁) [b, b₁]
  | three {b b₁ b₂ : UInt8} {x x₁ x₂ : Nat} (hb : b.toNat = 0xE0 + x) (h₁ : b₁.toNat = 0x80 + x₁)
      (h₂ : b₂.toNat = 0x80 + x₂) (hx : x < 0x10) (hx₁ : x₁ < 0x40) (hx₂ : x₂ < 0x40)
      (hleast : 0x800 ≤ (x * 64 + x₁) * 64 + x₂)
      (hgap : (x * 64 + x₁) * 64 + x₂ < 0xD800 ∨ 0xDFFF < (x * 64 + x₁) * 64 + x₂) :
      Spells ((x * 64 + x₁) * 64 + x₂) [b, b₁, b₂]
  | four {b b₁ b₂ b₃ : UInt8} {x x₁ x₂ x₃ : Nat} (hb : b.toNat = 0xF0 + x)
      (h₁ : b₁.toNat = 0x80 + x₁) (h₂ : b₂.toNat = 0x80 + x₂) (h₃ : b₃.toNat = 0x80 + x₃)
      (hx : x < 0x8) (hx₁ : x₁ < 0x40) (hx₂ : x₂ < 0x40) (hx₃ : x₃ < 0x40)
      (hleast : 0x10000 ≤ ((x * 64 + x₁) * 64 + x₂) * 64 + x₃)
      (hgreatest : ((x * 64 + x₁) * 64 + x₂) * 64 + x₃ < 0x110000) :
      Spells (((x * 64 + x₁) * 64 + x₂) * 64 + x₃) [b, b₁, b₂, b₃]

theorem ofNat_eq {n : Nat} {b : UInt8} (h : b.toNat = n) : UInt8.ofNat n = b := by
  rw [← h, UInt8.ofNat_toNat]

theorem Spells.isValidChar {v : Nat} {bs : List UInt8} (h : Spells v bs) : v.isValidChar := by
  unfold Nat.isValidChar
  cases h <;> omega

theorem Spells.utf8EncodeChar_eq {v : Nat} {bs : List UInt8} (h : Spells v bs) :
    String.utf8EncodeChar (Char.ofNat v) = bs := by
  have hv : (Char.ofNat v).val.toNat = v := by
    rw [Char.ofNat, dif_pos h.isValidChar]
    rfl
  unfold String.utf8EncodeChar
  rw [hv]
  clear hv
  cases h with
  | one hb hx => rw [if_pos (by omega), ofNat_eq hb]
  | @two b b₁ x x₁ hb h₁ =>
    rw [if_neg (by omega), if_pos (by omega), @ofNat_eq _ b (by omega), @ofNat_eq _ b₁ (by omega)]
  | @three b b₁ b₂ x x₁ x₂ hb h₁ h₂ =>
    rw [if_neg (by omega), if_neg (by omega), if_pos (by omega), @ofNat_eq _ b (by omega),
      @ofNat_eq _ b₁ (by omega), @ofNat_eq _ b₂ (by omega)]
  | @four b b₁ b₂ b₃ x x₁ x₂ x₃ hb h₁ h₂ h₃ =>
    rw [if_neg (by omega), if_neg (by omega), if_neg (by omega), @ofNat_eq _ b (by omega),
      @ofNat_eq _ b₁ (by omega), @ofNat_eq _ b₂ (by omega), @ofNat_eq _ b₃ (by omega)]

theorem spells_utf8EncodeChar (c : Char) : Spells c.toNat (String.utf8EncodeChar c) := by
  have hvalid : c.val.toNat < 0xD800 ∨ 0xDFFF < c.val.toNat ∧ c.val.toNat < 0x110000 := c.valid
  have htoNat {n m : Nat} (hn : n < 256) (h : n = m) : (UInt8.ofNat n).toNat = m :=
    (UInt8.toNat_ofNat_of_lt' hn).trans h
  unfold String.utf8EncodeChar Char.toNat
  generalize c.val.toNat = v at hvalid ⊢
  dsimp only
  split
  · exact .one (htoNat (by omega) rfl) (by omega)
  split
  · have hv : v = v / 64 % 32 * 64 + v % 64 := by omega
    conv_lhs => rw [hv]
    refine .two (htoNat ?_ ?_) (htoNat ?_ ?_) ?_ ?_ ?_ <;> omega
  split
  · have hv : v = (v / 4096 % 16 * 64 + v / 64 % 64) * 64 + v % 64 := by omega
    conv_lhs => rw [hv]
    refine .three (htoNat ?_ ?_) (htoNat ?_ ?_) (htoNat ?_ ?_) ?_ ?_ ?_ ?_ ?_ <;> omega
  · have hv : v = ((v / 262144 % 8 * 64 + v / 4096 % 64) * 64 + v / 64 % 64) * 64 + v % 64 := by
      omega
    conv_lhs => rw [hv]
    refine .four (htoNat ?_ ?_) (htoNat ?_ ?_) (htoNat ?_ ?_) (htoNat ?_ ?_) ?_ ?_ ?_ ?_ ?_ ?_ <;>
      omega

/-! ## Reading one character -/

/-- The first byte of a character by its number: how many bytes follow, and the range of the next. -/
theorem lead?_eq (b : UInt8) : lead? b =
    if b.toNat < 0x80 then some (0, 0, 0)
    else if b.toNat < 0xC2 then none
    else if b.toNat < 0xE0 then some (1, 0x80, 0xBF)
    else if b.toNat < 0xF0 then
      some (2, if b.toNat = 0xE0 then 0xA0 else 0x80, if b.toNat = 0xED then 0x9F else 0xBF)
    else if b.toNat ≤ 0xF4 then
      some (3, if b.toNat = 0xF0 then 0x90 else 0x80, if b.toNat = 0xF4 then 0x8F else 0xBF)
    else none := by
  revert b
  suffices h : ∀ n : Fin 256, lead? (.ofFin n) =
      if n.val < 0x80 then some (0, 0, 0)
      else if n.val < 0xC2 then none
      else if n.val < 0xE0 then some (1, 0x80, 0xBF)
      else if n.val < 0xF0 then
        some (2, if n.val = 0xE0 then 0xA0 else 0x80, if n.val = 0xED then 0x9F else 0xBF)
      else if n.val ≤ 0xF4 then
        some (3, if n.val = 0xF0 then 0x90 else 0x80, if n.val = 0xF4 then 0x8F else 0xBF)
      else none from fun b => h b.toFin
  decide +kernel

/-- A byte that follows the first one gives its last six bits. -/
theorem followers_eq_some {n taken v value : Nat} {lo hi : UInt8} {bs : List UInt8}
    (hlo : 0x80 ≤ lo.toNat) (hhi : hi.toNat ≤ 0xBF)
    (h : followers (n + 1) lo hi value bs = (taken, some v)) :
    ∃ b x rest k, bs = b :: rest ∧ taken = k + 1 ∧ b.toNat = 0x80 + x ∧ x < 0x40 ∧
      lo.toNat ≤ 0x80 + x ∧ 0x80 + x ≤ hi.toNat ∧
      followers n 0x80 0xBF (value * 64 + x) rest = (k, some v) := by
  cases bs with
  | nil => simp [followers] at h
  | cons b rest =>
    simp only [followers] at h
    split at h
    · rename_i hb
      simp only [Bool.and_eq_true, decide_eq_true_eq, UInt8.le_iff_toNat_le] at hb
      have hbits : b.toNat % 64 = b.toNat - 0x80 := by omega
      obtain ⟨rfl, hv⟩ := Prod.mk.inj h
      refine ⟨b, b.toNat - 0x80, rest, _, rfl, rfl, ?_, ?_, ?_, ?_, ?_⟩
      any_goals omega
      rw [← hbits]
      exact Prod.ext rfl hv
    · simp at h

theorem followers_cons {n value x : Nat} {lo hi b : UInt8} {rest : List UInt8}
    (hb : b.toNat = 0x80 + x) (hx : x < 0x40) (hlo : lo.toNat ≤ 0x80 + x)
    (hhi : 0x80 + x ≤ hi.toNat) :
    followers (n + 1) lo hi value (b :: rest) =
      ((followers n 0x80 0xBF (value * 64 + x) rest).1 + 1,
        (followers n 0x80 0xBF (value * 64 + x) rest).2) := by
  have hbits : b.toNat % 64 = x := by omega
  rw [followers, if_pos, hbits]
  simpa [UInt8.le_iff_toNat_le, hb] using ⟨hlo, hhi⟩

theorem followers_tail {n value x : Nat} {b : UInt8} {rest : List UInt8}
    (hb : b.toNat = 0x80 + x) (hx : x < 0x40) :
    followers (n + 1) 0x80 0xBF value (b :: rest) =
      ((followers n 0x80 0xBF (value * 64 + x) rest).1 + 1,
        (followers n 0x80 0xBF (value * 64 + x) rest).2) :=
  followers_cons hb hx (Nat.le_add_right _ _) (show 0x80 + x ≤ 0xBF by omega)

theorem spells_of_character {b : UInt8} {bs : List UInt8} {c : Char} {n : Nat}
    (h : character b bs = (some c, n)) : ∃ v, Spells v (b :: bs.take n) ∧ c = Char.ofNat v := by
  unfold character at h
  split at h
  · cases h
  · rename_i k lo hi hlead
    obtain ⟨hc, rfl⟩ := Prod.mk.inj h
    obtain ⟨v, hv, rfl⟩ := Option.map_eq_some_iff.mp hc
    refine ⟨v, ?_, rfl⟩
    have hfollow : followers k lo hi (leadBits k b) bs =
      ((followers k lo hi (leadBits k b) bs).1, some v) := Prod.ext rfl hv
    generalize (followers k lo hi (leadBits k b) bs).1 = taken at hfollow ⊢
    clear hc hv h
    rw [lead?_eq] at hlead
    split at hlead
    · cases hlead
      obtain ⟨rfl, hv⟩ := Prod.mk.inj hfollow
      obtain rfl := Option.some.inj hv
      exact .one rfl ‹_›
    split at hlead
    · cases hlead
    split at hlead
    · cases hlead
      have hbits : leadBits 1 b = b.toNat - 0xC0 := by
        change b.toNat % 32 = _
        omega
      rw [hbits] at hfollow
      obtain ⟨b₁, x₁, rest, j, rfl, rfl, h₁, hx₁, hlo, hhi, hrest⟩ :=
        followers_eq_some (by decide) (by decide) hfollow
      obtain ⟨rfl, hv⟩ := Prod.mk.inj hrest
      obtain rfl := Option.some.inj hv
      refine .two ?_ h₁ ?_ hx₁ ?_ <;> omega
    split at hlead
    · cases hlead
      have hbits : leadBits 2 b = b.toNat - 0xE0 := by
        change b.toNat % 16 = _
        omega
      rw [hbits] at hfollow
      obtain ⟨b₁, x₁, rest, j, rfl, rfl, h₁, hx₁, hlo, hhi, hrest⟩ :=
        followers_eq_some (by split <;> decide) (by split <;> decide) hfollow
      obtain ⟨b₂, x₂, rest, j, rfl, rfl, h₂, hx₂, -, -, hrest⟩ :=
        followers_eq_some (by decide) (by decide) hrest
      obtain ⟨rfl, hv⟩ := Prod.mk.inj hrest
      obtain rfl := Option.some.inj hv
      have hleast (h : b.toNat = 0xE0) : 0xA0 ≤ 0x80 + x₁ := by rwa [if_pos h] at hlo
      have hgap (h : b.toNat = 0xED) : 0x80 + x₁ ≤ 0x9F := by rwa [if_pos h] at hhi
      refine .three ?_ h₁ h₂ ?_ hx₁ hx₂ ?_ ?_ <;> omega
    split at hlead
    · cases hlead
      have hbits : leadBits 3 b = b.toNat - 0xF0 := by
        change b.toNat % 8 = _
        omega
      rw [hbits] at hfollow
      obtain ⟨b₁, x₁, rest, j, rfl, rfl, h₁, hx₁, hlo, hhi, hrest⟩ :=
        followers_eq_some (by split <;> decide) (by split <;> decide) hfollow
      obtain ⟨b₂, x₂, rest, j, rfl, rfl, h₂, hx₂, -, -, hrest⟩ :=
        followers_eq_some (by decide) (by decide) hrest
      obtain ⟨b₃, x₃, rest, j, rfl, rfl, h₃, hx₃, -, -, hrest⟩ :=
        followers_eq_some (by decide) (by decide) hrest
      obtain ⟨rfl, hv⟩ := Prod.mk.inj hrest
      obtain rfl := Option.some.inj hv
      have hleast (h : b.toNat = 0xF0) : 0x90 ≤ 0x80 + x₁ := by rwa [if_pos h] at hlo
      have hgreatest (h : b.toNat = 0xF4) : 0x80 + x₁ ≤ 0x8F := by rwa [if_pos h] at hhi
      refine .four ?_ h₁ h₂ h₃ ?_ hx₁ hx₂ hx₃ ?_ ?_ <;> omega
    · cases hlead

theorem Spells.character_eq {v : Nat} {b : UInt8} {bs : List UInt8} (h : Spells v (b :: bs))
    (rest : List UInt8) : character b (bs ++ rest) = (some (Char.ofNat v), bs.length) := by
  unfold character
  rw [lead?_eq]
  cases h with
  | one hb hx =>
    rw [if_pos (by omega), ← hb]
    rfl
  | @two _ _ x _ hb h₁ hx hx₁ hleast =>
    have hbits : leadBits 1 b = x := (congrArg (· % 32) hb).trans (by omega)
    rw [if_neg (by omega), if_neg (by omega), if_pos (by omega)]
    simp only [List.cons_append, hbits]
    rw [followers_tail h₁ hx₁]
    rfl
  | @three _ _ _ x _ _ hb h₁ h₂ hx hx₁ hx₂ hleast hgap =>
    have hbits : leadBits 2 b = x := (congrArg (· % 16) hb).trans (by omega)
    rw [if_neg (by omega), if_neg (by omega), if_neg (by omega), if_pos (by omega)]
    simp only [List.cons_append, hbits]
    rw [followers_cons h₁ hx₁, followers_tail h₂ hx₂]
    · rfl
    all_goals split <;> simp only [UInt8.reduceToNat] <;> omega
  | @four _ _ _ _ x _ _ _ hb h₁ h₂ h₃ hx hx₁ hx₂ hx₃ hleast hgreatest =>
    have hbits : leadBits 3 b = x := (congrArg (· % 8) hb).trans (by omega)
    rw [if_neg (by omega), if_neg (by omega), if_neg (by omega), if_neg (by omega), if_pos (by omega)]
    simp only [List.cons_append, hbits]
    rw [followers_cons h₁ hx₁, followers_tail h₂ hx₂, followers_tail h₃ hx₃]
    · rfl
    all_goals split <;> simp only [UInt8.reduceToNat] <;> omega

/-! ## Whole texts -/

theorem toList_eq_data (bytes : ByteArray) : bytes.toList = bytes.data.toList := by
  have hloop (n i : Nat) (hn : n = bytes.size - i) (acc : List UInt8) :
      ByteArray.toList.loop bytes i acc = acc.reverse ++ bytes.data.toList.drop i := by
    induction n generalizing i acc with
    | zero =>
      have hi : bytes.data.toList.length ≤ i := by
        change bytes.size ≤ i
        omega
      rw [ByteArray.toList.loop, if_neg (by omega), List.drop_eq_nil_of_le hi, List.append_nil]
    | succ n ih =>
      have hi : i < bytes.size := by omega
      have hget : bytes.get! i = bytes.data.toList.get ⟨i, hi⟩ := getElem!_pos bytes.data i hi
      rw [ByteArray.toList.loop, if_pos hi, ih (i + 1) (by omega), hget, List.reverse_cons,
        List.append_assoc, List.singleton_append, List.get_eq_getElem, List.getElem_cons_drop]
  simpa [ByteArray.toList] using hloop bytes.size 0 rfl []

theorem encode_eq_flatMap (s : String) : encode s = s.toList.flatMap String.utf8EncodeChar := by
  rw [encode, toList_eq_data, String.toUTF8_eq_toByteArray, ← String.utf8Encode_toList, List.utf8Encode]
  simp

theorem characters_utf8EncodeChar_append (c : Char) (rest : List UInt8) :
    characters (String.utf8EncodeChar c ++ rest) = some c :: characters rest := by
  have hspells := spells_utf8EncodeChar c
  cases hbytes : String.utf8EncodeChar c with
  | nil => exact absurd hbytes String.utf8EncodeChar_ne_nil
  | cons b bs =>
    rw [hbytes] at hspells
    rw [List.cons_append, characters, hspells.character_eq, Char.ofNat_toNat, List.drop_left]

theorem characters_flatMap (cs : List Char) :
    characters (cs.flatMap String.utf8EncodeChar) = cs.map some := by
  induction cs with
  | nil => rw [List.flatMap_nil, characters, List.map_nil]
  | cons c cs ih => rw [List.flatMap_cons, characters_utf8EncodeChar_append, ih, List.map_cons]

theorem eq_flatMap_of_characters {bytes : List UInt8} {cs : List Char}
    (h : characters bytes = cs.map some) : bytes = cs.flatMap String.utf8EncodeChar := by
  fun_induction characters bytes generalizing cs with
  | case1 => simp_all
  | case2 b bs ih =>
    cases cs with
    | nil => cases h
    | cons c cs =>
      obtain ⟨hc, hrest⟩ := List.cons.inj h
      obtain ⟨v, hspells, rfl⟩ := spells_of_character (Prod.ext hc rfl)
      rw [List.flatMap_cons, hspells.utf8EncodeChar_eq, ← ih hrest, List.cons_append, List.take_append_drop]

theorem mapM_id_eq_some_iff {α : Type} {xs : List (Option α)} {ys : List α} :
    xs.mapM id = some ys ↔ xs = ys.map some := by
  induction xs generalizing ys with
  | nil => cases ys <;> simp
  | cons x xs ih =>
    cases ys with
    | nil => simp [List.mapM_cons, Option.bind_eq_some_iff]
    | cons y ys => simp [List.mapM_cons, Option.bind_eq_some_iff, ih]

/-- The strict reading accepts the bytes of a text, and no others. -/
theorem decode?_eq_some_iff {bytes : List UInt8} {s : String} :
    decode? bytes = some s ↔ encode s = bytes := by
  rw [encode_eq_flatMap, decode?, Option.map_eq_some_iff]
  constructor
  · rintro ⟨cs, hcs, rfl⟩
    rw [String.toList_ofList, ← eq_flatMap_of_characters (mapM_id_eq_some_iff.mp hcs)]
  · rintro rfl
    exact ⟨s.toList, mapM_id_eq_some_iff.mpr (characters_flatMap _), String.ofList_toList⟩

end DepAtlas.Text
