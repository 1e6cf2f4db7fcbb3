import LichenVm.Lexer
import Mathlib.Data.List.TakeWhile

open List Option

namespace LichenVm.Lexer

open LongestMatch RawToken

/-- Whether some kind has a word in its pattern. -/
def Recognised (word : List Byte) : Prop := tokenizer.recognise word ≠ none

variable {word : List Byte}

theorem recognised_iff : Recognised word ↔ ∃ raw ∈ RawToken.all, accepts word raw := by
  unfold Recognised
  rw [← isSome_iff_ne_none]
  exact List.find?_isSome

theorem mem_all (raw : RawToken) : raw ∈ RawToken.all := by
  cases raw with
  | fixed word =>
    apply mem_append_left
    apply List.mem_map_of_mem
    cases word <;> decide
  | _ => decide

theorem recognised_of_accepts {raw : RawToken} (accepted : accepts word raw) :
    Recognised word :=
  recognised_iff.2 ⟨raw, mem_all raw, accepted⟩

theorem isInt_iff : isInt word ↔ word ≠ [] ∧ ∀ b ∈ word, isDigit b := by
  unfold isInt
  cases word <;> simp

theorem isName_of_append {first rest : List Byte} (name : isName (first ++ rest))
    (filled : first ≠ []) : isName first := by
  cases first with
  | nil => contradiction
  | cons b first =>
    simp only [cons_append, isName, Bool.and_eq_true, all_append] at name ⊢
    exact ⟨name.1, name.2.1⟩

theorem recognised_fixed : ∀ word : Fixed, ∀ n < (bytes word.spelling).length,
    Recognised ((bytes word.spelling).take (n + 1)) := by
  have all : (Fixed.keywords ++ Fixed.symbols).all (fun word =>
      (List.range (bytes word.spelling).length).all fun n =>
        (tokenizer.recognise ((bytes word.spelling).take (n + 1))).isSome) := by
    decide +kernel
  intro word n within
  have listed : word ∈ Fixed.keywords ++ Fixed.symbols := by
    cases word <;> decide
  have own := List.all_eq_true.1 (List.all_eq_true.1 all word listed) n (mem_range.2 within)
  exact isSome_iff_ne_none.1 own

theorem accepts_floatLit (accepted : accepts word .floatLit) :
    ∃ whole fraction, word = whole ++ 46 :: fraction ∧ isInt whole ∧ isInt fraction := by
  simp only [accepts] at accepted
  split at accepted
  · cases accepted
  · rename_i point fraction rest
    rw [Bool.and_eq_true, Bool.and_eq_true] at accepted
    refine ⟨word.takeWhile isDigit, fraction, ?_, accepted.1.1, accepted.2⟩
    rw [← eq_of_beq accepted.1.2, ← rest, takeWhile_append_dropWhile]

theorem not_isDigit_point : isDigit 46 = false := by decide

theorem takeWhile_whole {whole fraction : List Byte} (digits : isInt whole) :
    (whole ++ 46 :: fraction).takeWhile isDigit = whole ∧
      (whole ++ 46 :: fraction).dropWhile isDigit = 46 :: fraction := by
  have all := (isInt_iff.1 digits).2
  constructor
  · rw [takeWhile_append_of_pos all, takeWhile_cons_of_neg (by simp [not_isDigit_point]),
      append_nil]
  · rw [dropWhile_append_of_pos all, dropWhile_cons_of_neg (by simp [not_isDigit_point])]

theorem floatLit_accepts {whole fraction : List Byte} (digits : isInt whole)
    (digits' : isInt fraction) : accepts (whole ++ 46 :: fraction) .floatLit := by
  obtain ⟨before, after⟩ := @takeWhile_whole whole fraction digits
  simp only [accepts, after, before, digits, digits']
  rfl

/-- A beginning of a recognised word is recognised itself, but for the lone sigil of a keyword and
the digits of a float literal up to its point. -/
theorem recognised_of_append {first rest : List Byte} (filled : first ≠ [])
    (recognised : Recognised (first ++ rest)) : Recognised first ∨ first = [64] ∨
      ∃ whole, first = whole ++ [46] ∧ isInt whole ∧ isInt rest := by
  obtain ⟨raw, -, accepted⟩ := recognised_iff.1 recognised
  cases raw with
  | separator =>
    left
    cases first with
    | nil => contradiction
    | cons b first =>
      have short : first ++ rest = [] := by
        simp only [accepts, Bool.or_eq_true, cons_append, beq_iff_eq, List.cons.injEq]
          at accepted
        rcases accepted with (⟨-, none⟩ | ⟨-, none⟩) | ⟨-, none⟩
        all_goals exact none
      obtain ⟨rfl, rfl⟩ := append_eq_nil_iff.1 short
      rw [append_nil] at recognised
      exact recognised
  | intLit =>
    left
    apply @recognised_of_accepts _ .intLit
    obtain ⟨-, all⟩ := isInt_iff.1 accepted
    exact isInt_iff.2 ⟨filled, fun b member => all b (mem_append_left _ member)⟩
  | floatLit =>
    obtain ⟨whole, fraction, same, digits, digits'⟩ := accepts_floatLit accepted
    rcases append_eq_append_iff.1 same with ⟨more, rfl, -⟩ | ⟨more, rfl, tail⟩
    · left
      apply @recognised_of_accepts _ .intLit
      obtain ⟨-, all⟩ := isInt_iff.1 digits
      exact isInt_iff.2 ⟨filled, fun b member => all b (mem_append_left _ member)⟩
    · cases more with
      | nil =>
        left
        rw [append_nil] at filled ⊢
        exact @recognised_of_accepts _ .intLit digits
      | cons point more =>
        obtain ⟨rfl, rfl⟩ := List.cons.inj tail
        by_cases empty : more = []
        · subst empty
          exact Or.inr (Or.inr ⟨whole, rfl, digits, digits'⟩)
        · left
          apply @recognised_of_accepts _ .floatLit
          apply floatLit_accepts digits
          obtain ⟨-, all⟩ := isInt_iff.1 digits'
          exact isInt_iff.2 ⟨empty, fun b member => all b (mem_append_left _ member)⟩
  | strLit =>
    left
    apply @recognised_of_accepts _ .strLit
    cases first with
    | nil => contradiction
    | cons opening first =>
      simp only [accepts, cons_append, Bool.and_eq_true, Bool.or_eq_true, beq_iff_eq]
        at accepted ⊢
      refine ⟨accepted.1, ?_⟩
      rw [dropWhile_append] at accepted
      split at accepted
      · rename_i none
        exact Or.inl (List.isEmpty_iff.1 none)
      · rename_i some
        rw [List.isEmpty_iff] at some
        rcases accepted.2 with none | closing
        · exact Or.inl (append_eq_nil_iff.1 none).1
        · right
          cases here : first.dropWhile (· != 34) with
          | nil => contradiction
          | cons c more =>
            rw [here] at closing
            obtain ⟨rfl, none⟩ := List.cons.inj closing
            rw [(append_eq_nil_iff.1 none).1]
  | fixed word =>
    left
    have same : first ++ rest = bytes word.spelling := eq_of_beq accepted
    have own := recognised_fixed word (first.length - 1) (by
      rw [← same, length_append]
      have := length_pos_iff.2 filled
      omega)
    rwa [← same, take_append_of_le_length (by have := length_pos_iff.2 filled; omega),
      take_of_length_le (by omega)] at own
  | atNameLit =>
    cases first with
    | nil => contradiction
    | cons sigil first =>
      simp only [accepts, cons_append, Bool.and_eq_true, beq_iff_eq] at accepted
      by_cases empty : first = []
      · exact Or.inr (Or.inl (by rw [empty, accepted.1]))
      · left
        apply @recognised_of_accepts _ .atNameLit
        simp only [accepts, Bool.and_eq_true, beq_iff_eq]
        exact ⟨accepted.1, isName_of_append accepted.2 empty⟩
  | nameLit =>
    left
    apply @recognised_of_accepts _ .nameLit
    exact isName_of_append accepted filled

theorem not_isNameStart_of_isDigit {b : Byte} (digit : isDigit b) :
    isNameStart b = false := by
  unfold isDigit at digit
  unfold isNameStart
  rw [Bool.and_eq_true, decide_eq_true_eq, decide_eq_true_eq, UInt8.le_iff_toNat_le,
    UInt8.le_iff_toNat_le] at digit
  simp only [Bool.or_eq_false_iff, Bool.and_eq_false_iff, decide_eq_false_iff_not,
    UInt8.le_iff_toNat_le, beq_eq_false_iff_ne, ne_eq, ← UInt8.toNat_inj]
  have high : (57 : Byte).toNat = 57 := rfl
  have upper : (65 : Byte).toNat = 65 := rfl
  have lower : (97 : Byte).toNat = 97 := rfl
  have under : (95 : Byte).toNat = 95 := rfl
  omega

/-- A run of digits is an integer literal. -/
theorem recognise_int (digits : isInt word) : tokenizer.recognise word = some .intLit := by
  obtain ⟨filled, all⟩ := isInt_iff.1 digits
  obtain ⟨raw, found⟩ := ne_none_iff_exists'.1 (@recognised_of_accepts word .intLit digits)
  rw [found]
  have accepted : accepts word raw := List.find?_some found
  cases raw with
  | intLit => rfl
  | separator =>
    simp only [accepts, Bool.or_eq_true, beq_iff_eq] at accepted
    rcases accepted with (rfl | rfl) | rfl
    all_goals exact absurd digits (by decide)
  | floatLit =>
    obtain ⟨whole, fraction, rfl, -, -⟩ := accepts_floatLit accepted
    have point := all 46 (mem_append_right _ mem_cons_self)
    cases point
  | strLit =>
    cases word with
    | nil => contradiction
    | cons b word =>
      simp only [accepts, Bool.and_eq_true, beq_iff_eq] at accepted
      rw [accepted.1] at all
      exact absurd (all 34 mem_cons_self) (by decide)
  | fixed word' =>
    have same : word = bytes word'.spelling := eq_of_beq accepted
    rw [same] at digits
    exact absurd digits (by cases word' <;> decide)
  | atNameLit =>
    cases word with
    | nil => contradiction
    | cons b word =>
      simp only [accepts, Bool.and_eq_true, beq_iff_eq] at accepted
      rw [accepted.1] at all
      exact absurd (all 64 mem_cons_self) (by decide)
  | nameLit =>
    cases word with
    | nil => contradiction
    | cons b word =>
      simp only [accepts, isName, Bool.and_eq_true] at accepted
      rw [not_isNameStart_of_isDigit (all b mem_cons_self)] at accepted
      cases accepted.1

end LichenVm.Lexer
