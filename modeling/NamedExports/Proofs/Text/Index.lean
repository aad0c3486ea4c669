import Mathlib.Algebra.GroupWithZero.Nat
import Mathlib.Data.List.TakeWhile
import Mathlib.Tactic.Common
import NamedExports.Text.Digits
import NamedExports.Text.Dotted

/-!
# Written indices

The index of an entry is written in decimal digits as one part of a dotted path.  This file shows
that such a part is read as the index it was written for (`readIndex_toString`), and that the path
of an entry has exactly the two parts that name the list and the index (`dotted_entry`).

Only so many digits are read as a number, so the index is required to stay below the power of ten
that `maxDigits` allows; no list that can be held has entries beyond it.  Digits that are too many,
or that have no place value, are illegible (`Illegible`): any other text is read as the number that it
spells, if it spells one (`readIndex_of_legible`).
-/

namespace NamedExports.Text

/-! ### Reading written numbers -/

/-- A decimal digit of the first run has the place value that its code point gives. -/
theorem decimalValue?_of_isDigit {c : Char} (h : c.isDigit = true) :
    decimalValue? c = some (c.toNat - '0'.toNat) := by
  have hlow : 0x30 ≤ c.toNat ∧ c.toNat < 0x30 + 10 := by
    rw [Char.isDigit_iff_toNat] at h
    exact ⟨h.1, Nat.lt_succ_of_le h.2⟩
  unfold decimalValue? decimalZeros
  rw [List.find?_cons_of_pos (by simpa using hlow)]
  rfl

/-- A decimal digit of the first run counts as a digit. -/
theorem isDigit_of_isDigit {c : Char} (h : c.isDigit = true) : isDigit c = true := by
  unfold isDigit
  rw [decimalValue?_of_isDigit h]
  rfl

/-- Decimal digits of the first run spell the number that they have as digits to the base ten. -/
theorem foldlM_decimalValue? (cs : List Char) (h : ∀ c ∈ cs, c.isDigit = true) (n : Nat) :
    cs.foldlM (fun n c => (decimalValue? c).map (10 * n + ·)) n =
      some (Nat.ofDigitChars 10 cs n) := by
  induction cs generalizing n with
  | nil => rfl
  | cons c cs ih =>
    have hc : decimalValue? c = some (c.toNat - '0'.toNat) :=
      decimalValue?_of_isDigit (h c List.mem_cons_self)
    rw [List.foldlM_cons, hc, Nat.ofDigitChars_cons]
    exact ih (fun d hd => h d (List.mem_cons_of_mem c hd)) _

/-- The digits of a number spell it. -/
theorem decimalNumber?_toDigits (n : Nat) : decimalNumber? (Nat.toDigits 10 n) = some n := by
  unfold decimalNumber?
  rw [foldlM_decimalValue? _ fun c hc => Nat.isDigit_of_mem_toDigits (by decide) (by decide) hc,
    Nat.ofDigitChars_ten_toDigits]

/-- Different numbers are written differently. -/
theorem eq_of_toString_eq {m n : Nat} (h : toString m = toString n) : m = n := by
  have hdigits : Nat.toDigits 10 m = Nat.toDigits 10 n := by
    rw [← Nat.toList_repr, ← Nat.toList_repr, ← Nat.toString_eq_repr, ← Nat.toString_eq_repr, h]
  refine Option.some.inj ?_
  rw [← decimalNumber?_toDigits m, ← decimalNumber?_toDigits n, hdigits]

/-- Characters spell a number if all of them have a place value. -/
theorem isSome_decimalNumber? {cs : List Char} :
    (decimalNumber? cs).isSome = true ↔ ∀ c ∈ cs, (decimalValue? c).isSome = true := by
  -- the number that the characters before them spell makes no difference
  have hfrom : ∀ n, (cs.foldlM (fun n c => (decimalValue? c).map (10 * n + ·)) n).isSome = true ↔
      ∀ c ∈ cs, (decimalValue? c).isSome = true := by
    induction cs with
    | nil => simp
    | cons c cs ih =>
      intro n
      rw [List.foldlM_cons, List.forall_mem_cons]
      cases hc : decimalValue? c with
      | none => simp
      | some d => simpa using ih (10 * n + d)
  exact hfrom 0

/-- Characters that all have a place value are counted from the first to the last. -/
theorem leadingDigits_of_decimal {cs : List Char}
    (h : ∀ c ∈ cs, (decimalValue? c).isSome = true) : leadingDigits cs = cs.length := by
  unfold leadingDigits
  rw [List.takeWhile_eq_self_iff.mpr h]

theorem leadingDigits_le (cs : List Char) : leadingDigits cs ≤ cs.length :=
  (List.takeWhile_prefix _).length_le

/-- A number that has not too many digits is read back from its decimal form. -/
theorem readIndex_toString {n : Nat} (h : n < 10 ^ maxDigits) :
    readIndex (toString n) = .index n := by
  have hlist : (toString n).toList = Nat.toDigits 10 n := by
    rw [Nat.toString_eq_repr, Nat.toList_repr]
  have hdigits : ∀ c ∈ Nat.toDigits 10 n, isDigit c = true := fun c hc =>
    isDigit_of_isDigit (Nat.isDigit_of_mem_toDigits (by decide) (by decide) hc)
  have hlength : leadingDigits (Nat.toDigits 10 n) ≤ maxDigits :=
    Nat.le_trans (leadingDigits_le _) ((Nat.length_toDigits_le_iff (by decide) (by decide)).mpr h)
  have hne : (Nat.toDigits 10 n).isEmpty = false := by
    rw [List.isEmpty_eq_false_iff]
    exact Nat.toDigits_ne_nil
  have hall : (Nat.toDigits 10 n).all isDigit = true := List.all_eq_true.mpr hdigits
  simp only [readIndex, hlist, hne, hall, decimalNumber?_toDigits, Nat.not_lt.mpr hlength,
    Bool.not_true, Bool.or_self, Bool.false_eq_true, if_false]

/-! ### Texts that are read as numbers -/

/-- The number that a text spells in decimal digits, however many they are. -/
def spelled? (text : String) : Option Nat :=
  if text.toList.isEmpty then none else decimalNumber? text.toList

/-- A text of digits that is not read as a number: some of them have no place value, or there are too
many. -/
structure Illegible (text : String) : Prop where
  nonempty : text.toList ≠ []
  digits : ∀ c ∈ text.toList, isDigit c = true
  unread : (∃ c ∈ text.toList, decimalValue? c = none) ∨ maxDigits < text.toList.length

-- with `all` and `any`, so that no other characters are tried than those of the text
instance (text : String) : Decidable (Illegible text) :=
  decidable_of_iff (text.toList ≠ [] ∧ text.toList.all isDigit = true ∧
      (text.toList.any (fun c => (decimalValue? c).isNone) = true ∨
        maxDigits < text.toList.length))
    ⟨fun h => ⟨h.1, List.all_eq_true.mp h.2.1, h.2.2.imp_left fun hany => by simpa using hany⟩,
      fun h => ⟨h.nonempty, List.all_eq_true.mpr h.digits,
        h.unread.imp_left fun hsome => by simpa using hsome⟩⟩

variable {text : String}

/-- What comes of reading an illegible text: the digits that can be read are counted first. -/
theorem Illegible.readIndex_eq (h : Illegible text) : readIndex text =
    if maxDigits < leadingDigits text.toList then .tooLong (leadingDigits text.toList)
    else .unreadable := by
  have hne : text.toList.isEmpty = false := List.isEmpty_eq_false_iff.mpr h.nonempty
  have hall : text.toList.all isDigit = true := List.all_eq_true.mpr h.digits
  unfold readIndex
  simp only [hne, hall, Bool.not_true, Bool.or_self, Bool.false_eq_true, if_false]
  split
  · rfl
  next hleading =>
    have hnone : decimalNumber? text.toList = none := by
      rw [← Option.not_isSome_iff_eq_none, isSome_decimalNumber?]
      intro hdecimal
      rw [leadingDigits_of_decimal hdecimal] at hleading
      obtain ⟨c, hc, hvalue⟩ := h.unread.resolve_right hleading
      simpa [hvalue] using hdecimal c hc
    rw [hnone]

/-- A text spells a number if there are characters in it and all of them have a place value. -/
theorem isSome_spelled? : (spelled? text).isSome = true ↔
    text.toList ≠ [] ∧ ∀ c ∈ text.toList, (decimalValue? c).isSome = true := by
  unfold spelled?
  split
  next hempty => simp [List.isEmpty_iff.mp hempty]
  next hne =>
    rw [isSome_decimalNumber?]
    exact ⟨fun hvalues => ⟨by simpa using hne, hvalues⟩, And.right⟩

/-- A written number spells itself. -/
theorem spelled?_toString (n : Nat) : spelled? (toString n) = some n := by
  have hlist : (toString n).toList = Nat.toDigits 10 n := by
    rw [Nat.toString_eq_repr, Nat.toList_repr]
  have hne : (Nat.toDigits 10 n).isEmpty = false := by
    rw [List.isEmpty_eq_false_iff]
    exact Nat.toDigits_ne_nil
  unfold spelled?
  rw [hlist, hne, decimalNumber?_toDigits]
  rfl

/-- Any other text is read as the number that it spells, if it spells one. -/
theorem readIndex_of_legible (h : ¬ Illegible text) :
    readIndex text = match spelled? text with
      | some n => .index n
      | none => .none := by
  cases hspelled : spelled? text with
  | some n =>
    obtain ⟨hnonempty, hvalues⟩ := isSome_spelled?.mp (Option.isSome_iff_exists.mpr ⟨n, hspelled⟩)
    have hne : text.toList.isEmpty = false := List.isEmpty_eq_false_iff.mpr hnonempty
    have hdigits : ∀ c ∈ text.toList, isDigit c = true := fun c hc => by
      simp [isDigit, hvalues c hc]
    have hfew : ¬ maxDigits < leadingDigits text.toList := by
      rw [leadingDigits_of_decimal hvalues]
      exact fun hmany => h ⟨hnonempty, hdigits, Or.inr hmany⟩
    have hnumber : decimalNumber? text.toList = some n := by
      simpa only [spelled?, hne, Bool.false_eq_true, if_false] using hspelled
    simp only [readIndex, hne, List.all_eq_true.mpr hdigits, hfew, hnumber, Bool.not_true,
      Bool.or_self, Bool.false_eq_true, if_false]
  | none =>
    have hnone : (text.toList.isEmpty || !text.toList.all isDigit) = true := by
      by_contra hall
      simp only [Bool.or_eq_true, Bool.not_eq_true', not_or, Bool.not_eq_true, Bool.not_eq_false,
        List.isEmpty_eq_false_iff, List.all_eq_true] at hall
      obtain ⟨hnonempty, hdigits⟩ := hall
      -- one of the digits has no place value, as no number is spelled
      refine h ⟨hnonempty, hdigits, Or.inl ?_⟩
      by_contra hvalues
      push Not at hvalues
      have hspells : (spelled? text).isSome = true := isSome_spelled?.mpr
        ⟨hnonempty, fun c hc => Option.isSome_iff_ne_none.mpr (hvalues c hc)⟩
      rw [hspelled] at hspells
      exact Bool.false_ne_true hspells
    simp only [readIndex, hnone, if_true]

/-! ### Dotted paths of entries -/

/-- Characters without a dot are one part. -/
theorem dottedParts_of_no_dot {cs : List Char} (h : '.' ∉ cs) : dottedParts cs = [cs] := by
  induction cs with
  | nil => rfl
  | cons c cs ih =>
    rw [List.mem_cons, not_or] at h
    unfold dottedParts
    rw [if_neg (Ne.symm h.1), ih h.2]

/-- A written number has no dot. -/
theorem no_dot_toString (n : Nat) : '.' ∉ (toString n).toList := by
  rw [Nat.toString_eq_repr, Nat.toList_repr]
  intro hmem
  have hdigit : '.'.isDigit = true :=
    Nat.isDigit_of_mem_toDigits (by decide) (by decide) hmem
  revert hdigit
  decide

/-- Every dotted path has a part. -/
theorem dotted_ne_nil (path : String) : dotted path ≠ [] := by
  unfold dotted
  simpa using dottedParts_ne_nil path.toList

/-- A name without dots is a single part. -/
theorem dotted_of_no_dot {name : String} (hdot : '.' ∉ name.toList) : dotted name = [name] := by
  unfold dotted
  rw [dottedParts_of_no_dot hdot]
  simp

/-- The parts of two paths with a dot between them are those of the first and then those of the
second. -/
theorem dotted_append (a b : String) : dotted (a ++ "." ++ b) = dotted a ++ dotted b := by
  have hchars : (a ++ "." ++ b).toList = a.toList ++ '.' :: b.toList := by simp
  unfold dotted
  rw [hchars, dottedParts_append, List.map_append]

/-- The path of an entry of an object pattern is the list and the index with a dot between them. -/
theorem properties_entry (n : Nat) : s!"properties.{n}" = "properties" ++ "." ++ toString n := by
  have hdot : "properties" ++ "." = "properties." := by decide
  rw [hdot]
  rfl

/-- The path of an entry has the list and the index as its parts. -/
theorem dotted_entry {list : String} (h : '.' ∉ list.toList) (n : Nat) :
    dotted (list ++ "." ++ toString n) = [list, toString n] := by
  rw [dotted_append, dotted_of_no_dot h, dotted_of_no_dot (no_dot_toString n), List.singleton_append]

end NamedExports.Text
